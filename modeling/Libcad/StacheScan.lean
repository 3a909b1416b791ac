/-
The text of a delimiter tag in memory.  The search for its first blank looks
at no end: in a text without a blank it reads on behind the NUL.
-/
import Libcad.BlockScan
import Libcad.StacheNames

namespace Libcad

open Proc

/-- The block of a name: its bytes and their NUL, and what lies behind. -/
def nameBlock (name : Bytes) (behind : Nat → UInt8) : Block :=
  ⟨name.length + 1, fun i => (name ++ [0]).getD i (behind i), []⟩

/-- `close_delimiter`, with the flag of the loop it is in. -/
structure DelimiterScan where
  block : Block
  closeDelimiter : Nat
  found : Bool

namespace DelimiterScan

/-- `while (!found_space)`, one round -/
def spaceStep (s : DelimiterScan) : Proc (DelimiterScan ⊕ DelimiterScan) :=
  if s.found then pure (.inr s)
  else
    let (c, block) := s.block.load s.closeDelimiter
    if isBlank c then
      pure (.inl ⟨block.store s.closeDelimiter [0], s.closeDelimiter + 1, true⟩)
    else pure (.inl ⟨block, s.closeDelimiter + 1, false⟩)

/-- `while (!found_close && *close_delimiter)`, one round -/
def closeStep (s : DelimiterScan) : Proc (DelimiterScan ⊕ DelimiterScan) :=
  if s.found then pure (.inr s)
  else
    let (c, block) := s.block.load s.closeDelimiter
    if c = 0 then pure (.inr { s with block := block })
    else
      let (c, block) := block.load s.closeDelimiter
      if isBlank c then pure (.inl ⟨block, s.closeDelimiter + 1, false⟩)
      else pure (.inl ⟨block, s.closeDelimiter, true⟩)

end DelimiterScan

/-- `strchr(close_delimiter, ' ') == NULL && strchr(close_delimiter, '\n') ==
NULL` -/
def noBlank (block : Block) (closeDelimiter : Nat) : Proc (Bool × Block) := do
  let (space, block) ← block.strchr closeDelimiter (ascii ' ')
  if space = none then
    let (newline, block) ← block.strchr closeDelimiter (ascii '\n')
    pure (newline.isNone, block)
  else pure (false, block)

/-- The change of the delimiters, once the second one was found. -/
def changeDelimiters (block : Block) (closeDelimiter : Nat) :
    Proc (Except String (Bytes × Bytes) × Block) := do
  let (n, block) ← block.strlen closeDelimiter
  let missing : Except String (Bytes × Bytes) :=
    .error "invalid delimiter change: missing closing equal sign"
  if 1 < n then
    let (c, block) := block.load (closeDelimiter + n - 1)
    if c = ascii '=' then
      let block := block.store (closeDelimiter + n - 1) [0]
      let (first, block) ← block.copied 0
      let (second, block) ← block.copied closeDelimiter
      pure (.ok (first, second), block)
    else pure (missing, block)
  else pure (missing, block)

/-- `render_stache_delimiters` from the second loop on. -/
def scanSecond (block : Block) (closeDelimiter : Nat) :
    Proc (Except String (Bytes × Bytes) × Block) := do
  let s ← Proc.loop DelimiterScan.closeStep ⟨block, closeDelimiter, false⟩
  let (c, block) := s.block.load s.closeDelimiter
  if c = 0 then
    pure (.error "invalid delimiter change: close delimiter not found", block)
  else do
    let (single, block) ← noBlank block s.closeDelimiter
    if single then changeDelimiters block s.closeDelimiter
    else
      pure (.error
        "invalid delimiter change: no space allowed in close delimiter", block)

/-- `render_stache_delimiters` on the text of the tag in memory: the new
delimiters or an error, and the block. -/
def scanName (block : Block) :
    Proc (Except String (Bytes × Bytes) × Block) := do
  let s ← Proc.loop DelimiterScan.spaceStep ⟨block, 0, false⟩
  scanSecond s.block s.closeDelimiter

/-- The text has nothing behind its first blanks. -/
def LacksSecond (text : Bytes) : Prop :=
  cString ((text.dropWhile fun c => !isBlank c).dropWhile isBlank) = []

/-- The scan ends, it touches only the text and its NUL, and it fails when there
is no second delimiter. -/
def ScansInside (text : Bytes) : Prop :=
  ∀ behind, ∃ result after,
    Returns (scanName (nameBlock text behind)) (result, after) ∧
    (∀ access ∈ after.accesses, access.Within) ∧
    (LacksSecond text → ∃ error, result = .error error)

section

open Block

variable {block : Block} {text rest : Bytes} {c : UInt8} {start : Nat}

theorem spaceStep_eq (hbyte : block.bytes start = c) :
    DelimiterScan.spaceStep ⟨block, start, false⟩ =
      if isBlank c then
        pure (.inl ⟨(block.touch start 1).store start [0], start + 1, true⟩)
      else pure (.inl ⟨block.touch start 1, start + 1, false⟩) := by
  rw [← hbyte]
  rfl

theorem closeStep_eq (hbyte : block.bytes start = c) :
    DelimiterScan.closeStep ⟨block, start, false⟩ =
      if c = 0 then pure (.inr ⟨block.touch start 1, start, false⟩)
      else if isBlank c then
        pure (.inl ⟨(block.touch start 1).touch start 1, start + 1, false⟩)
      else pure (.inl ⟨(block.touch start 1).touch start 1, start, true⟩) := by
  rw [← hbyte]
  rfl

/-- The first blank ends the first delimiter: a NUL is stored over it. -/
theorem spaceStep_returns (htext : ∀ b ∈ text, isBlank b = false)
    (hc : isBlank c = true) (h : block.Holds start (text ++ [c])) :
    ∃ after, Returns (Proc.loop DelimiterScan.spaceStep ⟨block, start, false⟩)
        ⟨after, start + text.length + 1, true⟩ ∧
      Stays (start + text.length + 1) block after ∧
      after.bytes = (block.store (start + text.length) [0]).bytes := by
  induction text generalizing block start with
  | nil =>
      have hstep : Returns (DelimiterScan.spaceStep ⟨block, start, false⟩)
          (.inl ⟨(block.touch start 1).store start [0], start + 1, true⟩) := by
        rw [spaceStep_eq h.1, if_pos hc]
        exact returns_pure_self _
      refine ⟨_, hstep.loop_next.mpr
        (Returns.loop_exit (returns_pure_self _)), ?_, rfl⟩
      exact (touch_stays (Nat.le_refl (start + 1))).trans
        (store_stays 0 (Nat.lt_succ_self start)) (Nat.le_refl _)
  | cons b text ih =>
      have hb : isBlank b = false := htext b List.mem_cons_self
      have hstep : Returns (DelimiterScan.spaceStep ⟨block, start, false⟩)
          (.inl ⟨block.touch start 1, start + 1, false⟩) := by
        rw [spaceStep_eq h.1, hb]
        exact returns_pure_self _
      obtain ⟨after, hrun, hstays, hbytes⟩ := ih
        (fun b hb => htext b (List.mem_cons_of_mem _ hb))
        (Holds.congr h.2 rfl : (block.touch start 1).Holds (start + 1) _)
      have hlast : start + (b :: text).length = start + 1 + text.length := by
        rw [List.length_cons]
        omega
      have hfirst : Stays (start + 1) block (block.touch start 1) :=
        touch_stays (Nat.le_refl _)
      rw [hlast]
      exact ⟨after, hstep.loop_next.mpr hrun,
        hfirst.trans hstays (by omega), hbytes⟩

/-- The second search goes over blanks to another byte, or to the NUL. -/
theorem closeStep_returns (htext : ∀ b ∈ text, isBlank b = true)
    (hc : isBlank c = false) (h : block.Holds start (text ++ [c])) :
    ∃ after found,
      Returns (Proc.loop DelimiterScan.closeStep ⟨block, start, false⟩)
        ⟨after, start + text.length, found⟩ ∧
      Reads (start + text.length + 1) block after := by
  induction text generalizing block start with
  | nil =>
      have hload : Reads (start + 1) block (block.touch start 1) :=
        load_reads (Nat.lt_succ_self start)
      by_cases hzero : c = 0
      · have hstep : Returns (DelimiterScan.closeStep ⟨block, start, false⟩)
            (.inr ⟨block.touch start 1, start, false⟩) := by
          rw [closeStep_eq h.1, if_pos hzero]
          exact returns_pure_self _
        exact ⟨_, false, hstep.loop_exit, hload⟩
      · have hstep : Returns (DelimiterScan.closeStep ⟨block, start, false⟩)
            (.inl ⟨(block.touch start 1).touch start 1, start, true⟩) := by
          rw [closeStep_eq h.1, if_neg hzero, hc]
          exact returns_pure_self _
        refine ⟨_, true, hstep.loop_next.mpr
          (Returns.loop_exit (returns_pure_self _)), ?_⟩
        exact hload.trans (load_reads (Nat.lt_succ_self start)) (Nat.le_refl _)
  | cons b text ih =>
      have hb : isBlank b = true := htext b List.mem_cons_self
      have hstep : Returns (DelimiterScan.closeStep ⟨block, start, false⟩)
          (.inl ⟨(block.touch start 1).touch start 1, start + 1, false⟩) := by
        have hzero : b ≠ 0 := by
          rintro rfl
          exact absurd hb (by decide)
        rw [closeStep_eq h.1, if_neg hzero, if_pos hb]
        exact returns_pure_self _
      obtain ⟨after, found, hrun, hreads⟩ := ih
        (fun b hb => htext b (List.mem_cons_of_mem _ hb))
        (Holds.congr h.2 rfl :
          ((block.touch start 1).touch start 1).Holds (start + 1) _)
      have hlast : start + (b :: text).length = start + 1 + text.length := by
        rw [List.length_cons]
        omega
      have hload : Reads (start + 1) block (block.touch start 1) :=
        load_reads (Nat.lt_succ_self start)
      have hagain := hload.trans
        (load_reads (Nat.lt_succ_self start)) (Nat.le_refl _)
      rw [hlast]
      exact ⟨after, found, hstep.loop_next.mpr hrun,
        hagain.trans hreads (by omega)⟩

theorem cString_append_nul (text : Bytes) :
    ∃ more, text ++ [0] = cString text ++ [0] ++ more := by
  induction text with
  | nil => exact ⟨[], rfl⟩
  | cons b text ih =>
      by_cases hb : b = 0
      · subst hb
        exact ⟨text ++ [0], rfl⟩
      · obtain ⟨more, heq⟩ := ih
        refine ⟨more, ?_⟩
        rw [cString, List.takeWhile_cons_of_pos (by simpa using hb)]
        exact congrArg (b :: ·) heq

theorem cString_eq_nil_iff {more : Bytes} (h : text ++ [0] = c :: more) :
    cString text = [] ↔ c = 0 := by
  obtain ⟨rest, heq⟩ := cString_append_nul text
  have hnul := not_mem_cString text
  rw [h] at heq
  cases hstring : cString text with
  | nil =>
      rw [hstring] at heq
      exact iff_of_true rfl (List.cons.inj heq).1
  | cons b string =>
      rw [hstring] at heq hnul
      rw [(List.cons.inj heq).1]
      exact iff_of_false (List.cons_ne_nil _ _)
        fun hzero => hnul (hzero ▸ List.mem_cons_self)

/-- A text in memory with a NUL behind it holds the string before its first
NUL. -/
theorem holdsString_cString (h : block.Holds start (text ++ [0])) :
    block.HoldsString start (cString text) := by
  obtain ⟨more, heq⟩ := cString_append_nul text
  rw [heq] at h
  exact ⟨(holds_append.mp h).1, not_mem_cString text⟩

theorem noBlank_returns (h : block.HoldsString start text) :
    ∃ after, Returns (noBlank block start) (!text.any isBlank, after) ∧
      Reads (start + text.length + 1) block after := by
  obtain ⟨space, after, hspace, hreads, hsome⟩ :=
    strchr_returns h (c := ascii ' ') (by decide)
  have hany : text.any isBlank = true ↔
      ascii ' ' ∈ text ∨ ascii '\n' ∈ text := by
    simp only [List.any_eq_true, isBlank, Bool.or_eq_true, decide_eq_true_eq]
    constructor
    · rintro ⟨b, hb, rfl | rfl⟩
      · exact Or.inl hb
      · exact Or.inr hb
    · rintro (hb | hb)
      · exact ⟨_, hb, Or.inl rfl⟩
      · exact ⟨_, hb, Or.inr rfl⟩
  cases space with
  | some i =>
      have hblank : text.any isBlank = true :=
        hany.mpr (Or.inl (hsome.mp rfl))
      refine ⟨after, hspace.bind ?_, hreads⟩
      rw [hblank]
      exact returns_pure_self _
  | none =>
      obtain ⟨newline, last, hnewline, hmore, hsome'⟩ :=
        strchr_returns (hreads.holdsString h) (c := ascii '\n') (by decide)
      have hspace' : ascii ' ' ∉ text := fun hmem => by cases hsome.mpr hmem
      have hblank : newline.isNone = !text.any isBlank := by
        cases newline with
        | none =>
            have hnewline' : ascii '\n' ∉ text :=
              fun hmem => by cases hsome'.mpr hmem
            have hclean : text.any isBlank = false := by
              rw [← Bool.not_eq_true, hany]
              exact not_or.mpr ⟨hspace', hnewline'⟩
            rw [hclean]
            rfl
        | some i =>
            rw [hany.mpr (Or.inr (hsome'.mp rfl))]
            rfl
      refine ⟨last, hspace.bind (hnewline.bind (returns_pure.mpr ?_)),
        hreads.trans hmore (Nat.le_refl _)⟩
      rw [hblank]

/-- The two delimiters of a text that ends with an equal sign. -/
def changed (first second : Bytes) : Except String (Bytes × Bytes) :=
  if 1 < second.length ∧ second.getLast? = some (ascii '=') then
    .ok (first, second.dropLast)
  else .error "invalid delimiter change: missing closing equal sign"

theorem changeDelimiters_returns {first : Bytes}
    (hfirst : block.HoldsString 0 first) (h : block.HoldsString start text)
    (hbefore : first.length < start)
    (hsize : start + text.length < block.size) :
    ∃ after, Returns (changeDelimiters block start) (changed first text, after) ∧
      Stays (start + text.length + 1) block after := by
  obtain ⟨counted, hstrlen, hreads⟩ := strlen_returns h
  by_cases hlong : 1 < text.length
  · obtain ⟨body, last, rfl⟩ : ∃ body last, text = body ++ [last] :=
      ⟨text.dropLast, _, (List.dropLast_concat_getLast
        (List.ne_nil_of_length_pos (by omega))).symm⟩
    rw [List.length_append, List.length_singleton] at hlong hsize hreads hstrlen ⊢
    have hplace : start + (body.length + 1) - 1 = start + body.length := by
      omega
    have hlast : counted.bytes (start + body.length) = last :=
      (holds_append.mp (holds_append.mp (hreads.holds h.1)).1).2.1
    have htouched : Reads (start + (body.length + 1) + 1) block
        (counted.touch (start + body.length) 1) :=
      hreads.trans (load_reads (by omega)) (Nat.le_refl _)
    by_cases hequal : last = ascii '='
    · have hfits : start + body.length <
          (counted.touch (start + body.length) 1).size := by
        rw [htouched.size_eq]
        omega
      have hsecond : Block.HoldsString
          ((counted.touch (start + body.length) 1).store (start + body.length)
            [0]) start body :=
        ⟨(holds_append.mp (htouched.holds h.1)).1.truncate hfits,
          fun hmem => h.2 (List.mem_append_left _ hmem)⟩
      have hfirst' : Block.HoldsString
          ((counted.touch (start + body.length) 1).store (start + body.length)
            [0]) 0 first := by
        refine ⟨(htouched.holds hfirst.1).store 0 (Or.inr ?_), hfirst.2⟩
        rw [List.length_append, List.length_singleton]
        omega
      obtain ⟨copied, hcopied, hcopiedReads⟩ := copied_returns hfirst'
      obtain ⟨after, hafter, hafterReads⟩ :=
        copied_returns (hcopiedReads.holdsString hsecond)
      refine ⟨after, hstrlen.bind ?_, ?_⟩
      · dsimp only
        rw [if_pos hlong, hplace, load]
        dsimp only
        rw [hlast, if_pos hequal, changed, if_pos, List.dropLast_concat]
        · exact hcopied.bind (hafter.bind (returns_pure_self _))
        · rw [List.getLast?_concat, hequal, List.length_append,
            List.length_singleton]
          exact ⟨hlong, rfl⟩
      · have hstored := htouched.toStays.trans
          (store_stays 0 (show start + body.length <
            start + (body.length + 1) + 1 by omega)) (Nat.le_refl _)
        have hfirstStays := hcopiedReads.toStays.mono
          (show 0 + first.length + 1 ≤ start + (body.length + 1) + 1 by omega)
        have hsecondStays := hafterReads.toStays.mono
          (show start + body.length + 1 ≤ start + (body.length + 1) + 1 by
            omega)
        exact (hstored.trans hfirstStays (Nat.le_refl _)).trans hsecondStays
          (Nat.le_refl _)
    · refine ⟨counted.touch (start + body.length) 1, hstrlen.bind ?_,
        htouched.toStays⟩
      dsimp only
      rw [if_pos hlong, hplace, load]
      dsimp only
      rw [hlast, if_neg hequal, changed, if_neg]
      · exact returns_pure_self _
      · rintro ⟨-, hget⟩
        rw [List.getLast?_concat] at hget
        exact hequal (Option.some.inj hget)
  · refine ⟨counted, hstrlen.bind ?_, hreads.toStays⟩
    rw [changed, if_neg (fun hboth => hlong hboth.1)]
    dsimp only
    rw [if_neg hlong]
    exact returns_pure_self _

/-- What the scan makes of the two parts of a text. -/
def scanned (first rest : Bytes) : Except String (Bytes × Bytes) :=
  let second := cString (rest.dropWhile isBlank)
  if second = [] then
    .error "invalid delimiter change: close delimiter not found"
  else if second.any isBlank then
    .error "invalid delimiter change: no space allowed in close delimiter"
  else changed (cString first) second

theorem scanSecond_returns {first : Bytes}
    (hfirst : block.HoldsString 0 (cString first))
    (h : block.Holds start (rest ++ [0]))
    (hbefore : (cString first).length < start)
    (hsize : start + rest.length < block.size) :
    ∃ after, Returns (scanSecond block start) (scanned first rest, after) ∧
      Stays (start + rest.length + 1) block after := by
  obtain ⟨gap, tail, hrest, hgap, htail⟩ : ∃ gap tail, rest = gap ++ tail ∧
      (∀ b ∈ gap, isBlank b = true) ∧ tail = rest.dropWhile isBlank :=
    ⟨rest.takeWhile isBlank, _, (List.takeWhile_append_dropWhile).symm,
      fun b hb => List.mem_takeWhile_imp hb, rfl⟩
  obtain ⟨c, more, hcons, hc⟩ : ∃ c more, tail ++ [0] = c :: more ∧
      isBlank c = false := by
    cases htail' : tail with
    | nil => exact ⟨0, [], rfl, by decide⟩
    | cons c more =>
        refine ⟨c, more ++ [0], rfl, ?_⟩
        have hhead := List.head?_dropWhile_not isBlank rest
        rw [← htail, htail'] at hhead
        simpa using hhead
  rw [scanned, ← htail]
  rw [hrest, List.append_assoc, holds_append] at h
  rw [hrest, List.length_append] at hsize ⊢
  obtain ⟨hgapHolds, htailHolds⟩ := h
  have hbyte := htailHolds
  rw [hcons] at hbyte
  obtain ⟨found, isFound, hfound, hfoundReads⟩ := closeStep_returns hgap hc
    (holds_append.mpr ⟨hgapHolds, hbyte.1, trivial⟩)
  have hstring := holdsString_cString htailHolds
  have hlength : (cString tail).length ≤ tail.length :=
    (List.takeWhile_prefix _).length_le
  have htouched : Reads (start + gap.length + 1) block
      (found.touch (start + gap.length) 1) :=
    hfoundReads.trans (load_reads (Nat.lt_succ_self _)) (Nat.le_refl _)
  have hc : found.bytes (start + gap.length) = c :=
    (congrFun hfoundReads.bytes_eq _).trans hbyte.1
  have hempty := cString_eq_nil_iff hcons
  by_cases hzero : c = 0
  · refine ⟨found.touch (start + gap.length) 1, hfound.bind ?_,
      htouched.toStays.mono (by omega)⟩
    rw [load]
    dsimp only
    rw [hc, if_pos hzero, if_pos (hempty.mpr hzero)]
    exact returns_pure_self _
  · obtain ⟨clean, hclean, hcleanReads⟩ :=
      noBlank_returns (htouched.holdsString hstring)
    have hreads : Reads (start + gap.length + (cString tail).length + 1) block
        clean := htouched.trans hcleanReads (by omega)
    rw [if_neg (fun heq => hzero (hempty.mp heq))]
    by_cases hblank : (cString tail).any isBlank = true
    · refine ⟨clean, hfound.bind ?_, hreads.toStays.mono (by omega)⟩
      rw [load]
      dsimp only
      rw [hc, if_neg hzero, if_pos hblank]
      rw [hblank] at hclean
      exact hclean.bind (returns_pure_self _)
    · have hsize' : start + gap.length + (cString tail).length < clean.size := by
        rw [hreads.size_eq]
        omega
      obtain ⟨after, hafter, hstays⟩ := changeDelimiters_returns
        (hreads.holdsString hfirst) (hreads.holdsString hstring) (by omega)
        hsize'
      refine ⟨after, hfound.bind ?_,
        (hreads.toStays.trans hstays (Nat.le_refl _)).mono (by omega)⟩
      rw [load]
      dsimp only
      rw [hc, if_neg hzero, if_neg hblank]
      rw [Bool.not_eq_true] at hblank
      rw [hblank] at hclean
      exact hclean.bind hafter

end

theorem nameBlock_holds (name : Bytes) (behind : Nat → UInt8) :
    (nameBlock name behind).Holds 0 (name ++ [0]) := by
  refine Block.holds_of_getElem? fun i c hc => ?_
  rw [Nat.zero_add]
  change (name ++ [0]).getD i (behind i) = c
  rw [List.getD_eq_getElem?_getD, hc]
  rfl

theorem text_parted {text : Bytes} (h : text.any isBlank = true) :
    ∃ first b rest, text = first ++ b :: rest ∧
      (∀ c ∈ first, isBlank c = false) ∧ isBlank b = true := by
  have hsplit := List.takeWhile_append_dropWhile
    (p := fun c => !isBlank c) (l := text)
  have hfirst : ∀ c ∈ text.takeWhile fun c => !isBlank c,
      isBlank c = false := by
    intro c hc
    simpa using List.mem_takeWhile_imp hc
  have hhead := List.head?_dropWhile_not (fun c => !isBlank c) text
  cases hdrop : text.dropWhile fun c => !isBlank c with
  | nil =>
      rw [hdrop, List.append_nil] at hsplit
      rw [hsplit] at hfirst
      obtain ⟨c, hc, hblank⟩ := List.any_eq_true.mp h
      rw [hfirst c hc] at hblank
      cases hblank
  | cons b rest =>
      rw [hdrop] at hsplit hhead
      exact ⟨_, b, rest, hsplit.symm, hfirst, by simpa using hhead⟩

/-- The scan of a text with a blank stays in the text. -/
theorem scanName_returns {first rest : Bytes} {b : UInt8}
    (hfirst : ∀ c ∈ first, isBlank c = false) (hb : isBlank b = true)
    (behind : Nat → UInt8) :
    ∃ after, Returns (scanName (nameBlock (first ++ b :: rest) behind))
        (scanned first rest, after) ∧
      ∀ access ∈ after.accesses, access.Within := by
  have hholds := nameBlock_holds (first ++ b :: rest) behind
  have hsize : (nameBlock (first ++ b :: rest) behind).size =
      first.length + 1 + rest.length + 1 := by
    change (first ++ b :: rest).length + 1 = _
    rw [List.length_append, List.length_cons]
    omega
  have hnone : (nameBlock (first ++ b :: rest) behind).accesses = [] := rfl
  generalize nameBlock (first ++ b :: rest) behind = block
    at hholds hsize hnone ⊢
  rw [List.append_assoc, List.cons_append, List.append_cons,
    Block.holds_append] at hholds
  obtain ⟨hstart, hrest⟩ := hholds
  rw [List.length_append, List.length_singleton, Nat.zero_add] at hrest
  obtain ⟨blanked, hspace, hspaceStays, hbytes⟩ :=
    spaceStep_returns hfirst hb hstart
  rw [Nat.zero_add] at hspace hspaceStays hbytes
  have htruncated := hstart.truncate (by omega)
  rw [Nat.zero_add] at htruncated
  have hlength : (cString first).length ≤ first.length :=
    (List.takeWhile_prefix _).length_le
  obtain ⟨after, hsecond, hsecondStays⟩ := scanSecond_returns
    (holdsString_cString (htruncated.congr hbytes))
    ((hrest.store 0 (Or.inl (Nat.lt_succ_self _))).congr hbytes)
    (by omega) (by rw [hspaceStays.size_eq]; omega)
  refine ⟨after, hspace.bind hsecond, fun access haccess => ?_⟩
  have hstays := hspaceStays.trans hsecondStays (by omega)
  rcases hstays.accesses access haccess with hold | ⟨hinside, hin⟩
  · rw [hnone] at hold
    cases hold
  · rw [Access.Within]
    omega

theorem scanDelimiters_parted {first rest : Bytes} {b : UInt8}
    (hfirst : ∀ c ∈ first, isBlank c = false) (hb : isBlank b = true) :
    scanDelimiters (first ++ b :: rest) = pure (scanned first rest) := by
  have hany : (first ++ b :: rest).any isBlank = true :=
    List.any_eq_true.mpr ⟨b, by simp, hb⟩
  have hpos : ∀ c ∈ first, (!isBlank c) = true := by
    intro c hc
    rw [hfirst c hc]
    rfl
  have htake : (first ++ b :: rest).takeWhile (fun c => !isBlank c) =
      first := by
    rw [List.takeWhile_append_of_pos hpos]
    simp [hb]
  have hdrop : (first ++ b :: rest).dropWhile (fun c => !isBlank c) =
      b :: rest := by
    rw [List.dropWhile_append_of_pos hpos]
    simp [hb]
  rw [scanDelimiters, if_pos hany, htake, hdrop, List.drop_one, List.tail_cons,
    scanned, changed]
  dsimp only
  split_ifs <;> rfl

/-- In memory the scan does what it does on the text. -/
theorem scanName_refines {text : Bytes} {behind : Nat → UInt8}
    {result : Except String (Bytes × Bytes)}
    (h : Returns (scanDelimiters text) result) :
    ∃ after, Returns (scanName (nameBlock text behind)) (result, after) := by
  have hblank : text.any isBlank = true := by
    by_contra hnone
    rw [scanDelimiters, if_neg hnone] at h
    exact not_returns_undefined h
  obtain ⟨first, b, rest, rfl, hfirst, hb⟩ := text_parted hblank
  rw [scanDelimiters_parted hfirst hb] at h
  cases returns_pure.mp h
  obtain ⟨after, hrun, -⟩ := scanName_returns hfirst hb behind
  exact ⟨after, hrun⟩

/-- Without a blank in the text, nor in the memory behind it, the scan goes on
and on. -/
theorem scanName_endless {text : Bytes} (h : ¬ text.any isBlank = true)
    {result : Except String (Bytes × Bytes) × Block} :
    ¬ Returns (scanName (nameBlock text fun _ => 1)) result := by
  intro hreturns
  obtain ⟨s, hspace, -⟩ := returns_bind.mp hreturns
  have hbytes : ∀ i, isBlank ((nameBlock text fun _ => 1).bytes i) = false := by
    intro i
    change isBlank ((text ++ [0]).getD i 1) = false
    rw [List.getD_eq_getElem?_getD]
    cases hget : (text ++ [0])[i]? with
    | none => rfl
    | some c =>
        rcases List.mem_append.mp (List.mem_of_getElem? hget) with hc | hc
        · rw [Option.getD_some, ← Bool.not_eq_true]
          exact fun hblank => h (List.any_eq_true.mpr ⟨c, hc, hblank⟩)
        · cases List.mem_singleton.mp hc
          rfl
  refine Returns.loop_ensures
    (I := fun s => s.found = false ∧ ∀ i, isBlank (s.block.bytes i) = false)
    (Q := fun _ => False) ?_ ⟨rfl, hbytes⟩ hspace
  rintro ⟨block, i, found⟩ o ⟨hfound, hs⟩ hstep
  cases hfound
  rw [spaceStep_eq rfl, hs i] at hstep
  cases returns_pure.mp hstep
  exact ⟨rfl, hs⟩

/-- A text with nothing behind its first blanks has no second delimiter. -/
theorem scanned_lacking {first rest : Bytes} {b : UInt8}
    (hfirst : ∀ c ∈ first, isBlank c = false) (hb : isBlank b = true)
    (h : LacksSecond (first ++ b :: rest)) :
    ∃ error, scanned first rest = .error error := by
  have hpos : ∀ c ∈ first, (!isBlank c) = true := by
    intro c hc
    rw [hfirst c hc]
    rfl
  have hsecond : cString (rest.dropWhile isBlank) = [] := by
    rw [LacksSecond, List.dropWhile_append_of_pos hpos] at h
    simpa [hb] using h
  rw [scanned, hsecond]
  exact ⟨_, rfl⟩

/-- The scan of a delimiter tag ends inside its text, and fails without a second
delimiter, exactly when the text has a blank. -/
theorem delimiters_scan_inside_iff (text : Bytes) :
    ScansInside text ↔ text.any isBlank = true := by
  constructor
  · intro hscans
    by_contra hnone
    obtain ⟨result, after, hreturns, -⟩ := hscans fun _ => 1
    exact scanName_endless hnone hreturns
  · intro hblank behind
    obtain ⟨first, b, rest, rfl, hfirst, hb⟩ := text_parted hblank
    obtain ⟨after, hreturns, hwithin⟩ := scanName_returns hfirst hb behind
    exact ⟨_, after, hreturns, hwithin, scanned_lacking hfirst hb⟩

/-- The tag of a template that begins with these bytes: its text is accepted,
and the scan does not end. -/
theorem delimiters_scan_outside :
    ∃ start name after,
      Returns (bufferNext noStreams (answering oneName) (newBuffer []
        (newInputStreamFromString (chars "a=\x7d\x7d.")) fun _ => 0))
        (true, start) ∧
      Returns (parseName noStreams (answering oneName) (some (chars "=")) start)
        (some name, after) ∧
      ¬ ScansInside name.bytes := by
  refine ⟨_, ⟨chars "a", 16⟩, _, ⟨4, rfl⟩, ⟨10, rfl⟩, ?_⟩
  intro hscans
  obtain ⟨result, after, hreturns, -⟩ := hscans fun _ => 1
  exact scanName_endless (by decide) hreturns

end Libcad
