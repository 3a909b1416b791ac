/-
Where the engine is when the token machine is in a state: the buffer stands at
the start of the same token, and the open sections, the output and what is
still to be read correspond.
-/
import Libcad.StacheReading

namespace Libcad

open Proc

variable {σ ο τ : Type}

/-- Where the token at a position starts in the text. -/
def offset (toks : List Token) (n : Nat) : Nat :=
  (tokenBytes (toks.take n)).length

theorem Token.bytes_ne_nil (tok : Token) : tok.bytes ≠ [] := by
  cases tok <;> simp [Token.bytes, tagOpen]

theorem tokenBytes_append (a b : List Token) :
    tokenBytes (a ++ b) = tokenBytes a ++ tokenBytes b :=
  List.flatMap_append ..

theorem tokenBytes_cons (tok : Token) (toks : List Token) :
    tokenBytes (tok :: toks) = tok.bytes ++ tokenBytes toks :=
  List.flatMap_cons ..

theorem tokenBytes_take_drop (toks : List Token) (n : Nat) :
    tokenBytes (toks.take n) ++ tokenBytes (toks.drop n) = tokenBytes toks := by
  rw [← tokenBytes_append, List.take_append_drop]

theorem drop_offset (toks : List Token) (n : Nat) :
    (tokenBytes toks).drop (offset toks n) = tokenBytes (toks.drop n) := by
  rw [← tokenBytes_take_drop toks n, offset, List.drop_left]

theorem take_offset (toks : List Token) (n : Nat) :
    (tokenBytes toks).take (offset toks n) = tokenBytes (toks.take n) := by
  rw [← tokenBytes_take_drop toks n, offset, List.take_left]

theorem offset_zero (toks : List Token) : offset toks 0 = 0 := rfl

theorem offset_length (toks : List Token) :
    offset toks toks.length = (tokenBytes toks).length := by
  rw [offset, List.take_length]

theorem offset_succ {toks : List Token} {n : Nat} {tok : Token}
    (h : toks[n]? = some tok) :
    offset toks (n + 1) = offset toks n + tok.bytes.length := by
  rw [offset, offset, List.take_add_one, h, Option.toList_some,
    tokenBytes_append, List.length_append, tokenBytes_cons]
  simp [tokenBytes]

theorem offset_mono (toks : List Token) {n m : Nat} (h : n ≤ m) :
    offset toks n ≤ offset toks m := by
  have hpre : toks.take n <+: toks.take m := List.take_prefix_take_left h
  obtain ⟨rest, hrest⟩ := hpre
  rw [offset, offset, ← hrest, tokenBytes_append, List.length_append]
  exact Nat.le_add_right _ _

theorem offset_le_succ (toks : List Token) (n : Nat) :
    offset toks n ≤ offset toks (n + 1) :=
  offset_mono toks (Nat.le_succ n)

theorem offset_lt {toks : List Token} {n m : Nat} (h : n < m)
    (hm : m ≤ toks.length) : offset toks n < offset toks m := by
  have hn : n < toks.length := Nat.lt_of_lt_of_le h hm
  have hsucc := offset_succ (List.getElem?_eq_getElem hn)
  have hpos := List.length_pos_iff.mpr (Token.bytes_ne_nil toks[n])
  have hmono := offset_mono toks (show n + 1 ≤ m from h)
  omega

theorem offset_eq_length {toks : List Token} {n : Nat} (hn : n ≤ toks.length) :
    offset toks n = (tokenBytes toks).length ↔ n = toks.length := by
  rw [← offset_length]
  constructor
  · intro h
    rcases Nat.lt_or_eq_of_le hn with hlt | heq
    · have := offset_lt hlt (Nat.le_refl _)
      omega
    · exact heq
  · rintro rfl
    rfl

/-- Reading over a token reads on only at the frontier. -/
theorem readAhead_max (toks : List Token) (pos frontier : Nat) :
    readAhead (tokenBytes toks) 0 (offset toks (max frontier (pos + 1))) =
      readAhead (tokenBytes toks)
        (readAhead (tokenBytes toks) 0 (offset toks frontier))
        (offset toks (pos + 1)) := by
  rcases Nat.le_total (pos + 1) frontier with hold | hnew
  · have hmono := offset_mono toks hold
    rw [Nat.max_eq_left hold, readAhead, readAhead]
    omega
  · rw [Nat.max_eq_right hnew,
      readAhead_readAhead _ _ (offset_mono toks hnew)]

/-- An open section of the engine and of the machine. -/
structure SameLoop (t : TokenState) (loop : StacheLoop ο) (m : TokenLoop) :
    Prop where
  type_eq : loop.type = m.type
  name_eq : loop.name = m.name
  index_eq : loop.bufferIndex = offset t.toks m.mark
  mark_le : m.mark ≤ t.frontier
  loopIndex_eq : loop.loopIndex = m.index
  empty_eq : loop.empty = m.empty

theorem SameLoop.next {t : TokenState} {loop : StacheLoop ο} {m : TokenLoop}
    (h : SameLoop t loop m) : SameLoop t loop.next m.next :=
  ⟨h.type_eq, h.name_eq, h.index_eq, h.mark_le,
    congrArg (· + 1) h.loopIndex_eq, h.empty_eq⟩

/-- A lookup that opened a section without a list. -/
def Lookup.isPlain : Lookup ο → Bool
  | .notFound | .string _ | .stream _ => true
  | .list _ | .invalid => false

/-- The open sections, with the lists in use among them. -/
inductive LoopsMatch (t : TokenState) :
    List (StacheLoop ο) → List TokenLoop → List (OpenList ο) → Prop
  | nil : LoopsMatch t [] [] []
  | plain {loop m loops ms lists} : SameLoop t loop m →
      loop.lookup.isPlain = true → m.list = none →
      LoopsMatch t loops ms lists →
      LoopsMatch t (loop :: loops) (m :: ms) lists
  | list {loop m loops ms lists object get close} : SameLoop t loop m →
      loop.lookup = .list object → m.list = some (get, close) →
      LoopsMatch t loops ms lists →
      LoopsMatch t (loop :: loops) (m :: ms)
        (⟨object, ⟨m.name, m.index⟩, get, close⟩ :: lists)

/-- A token the engine reads as the machine does. -/
structure TokenOk (inclusions : Inclusions) (tok : Token) : Prop where
  valid : tok.Valid
  known : ∀ name, tok = .inclusion name → (inclusions name).isSome

def Answer.Delivers (fns : StreamFns τ) (text : Bytes) : Answer τ → Prop
  | .string (some (some c)) (some _) => c = text
  | .stream (some (some s)) (some _) => s.Delivers fns text
  | _ => False

/-- Nothing is delivered for an inclusion. -/
def Answer.IsMissing : Answer τ → Prop
  | .notFound | .invalid | .string (some none) (some _)
  | .stream (some none) (some _) => True
  | _ => False

/-- The answers provide what the inclusions come to, whatever is open. -/
structure Provides (fns : StreamFns τ) (answers : Answers τ)
    (inclusions : Inclusions) : Prop where
  found : ∀ name content, inclusions name = some (.found content) →
    (∀ frames, (answers frames name).Delivers fns (tokenBytes content)) ∧
      ∀ tok ∈ content, TokenOk inclusions tok
  missing : ∀ name, inclusions name = some .missing →
    ∀ frames, (answers frames name).IsMissing

/-- The engine is where the machine is. -/
structure Follows (fns : StreamFns τ) (R : Session σ ο τ)
    (inclusions : Inclusions) (t : TokenState) (lists : List (OpenList ο))
    (held : List (Held ο τ)) (buffer : Buffer σ ο τ) : Prop where
  pos_le : t.pos ≤ t.frontier
  frontier_le : t.frontier ≤ t.toks.length
  plain : ∀ tok ∈ t.toks.take t.frontier, tok.includes = false
  ok : ∀ tok ∈ t.toks, TokenOk inclusions tok
  loops : LoopsMatch t buffer.loops t.loops lists
  reading : Reading fns R lists (tokenBytes t.toks) (offset t.toks t.pos)
    (readAhead (tokenBytes t.toks) 0 (offset t.toks t.frontier)) buffer held
  eof_eq : buffer.eof = decide (t.frontier = t.toks.length)
  output_eq : buffer.output = t.out
  openDelimiter : buffer.openDelimiter = tagOpen
  closeDelimiter : buffer.closeDelimiter = tagClose

def Related (fns : StreamFns τ) (R : Session σ ο τ) (inclusions : Inclusions)
    (buffer : Buffer σ ο τ) (t : TokenState) : Prop :=
  ∃ lists held, Follows fns R inclusions t lists held buffer

def Concludes (r : Bool × Buffer σ ο τ) (verdict : Verdict) : Prop :=
  (r.2.rendered r.1).code = verdict.code ∧ r.2.output = verdict.output

/-- The relation between the outcomes of a tag. -/
inductive TagMatch (fns : StreamFns τ) (R : Session σ ο τ)
    (inclusions : Inclusions) :
    Bool × Buffer σ ο τ → TokenState ⊕ Verdict → Prop
  | goes {t buffer lists held} : Follows fns R inclusions t lists held buffer →
      TagMatch fns R inclusions (true, buffer) (.inl t)
  | fails {buffer} : TagMatch fns R inclusions (false, buffer)
      (.inr ⟨-1, buffer.output⟩)

section

variable {fns : StreamFns τ} {cb : Callback σ ο τ} {answers : Answers τ}
  {R : Session σ ο τ} {inclusions : Inclusions} {t : TokenState}
  {lists : List (OpenList ο)} {held : List (Held ο τ)}
  {buffer : Buffer σ ο τ}

theorem LoopsMatch.skips {loops : List (StacheLoop ο)} {ms : List TokenLoop}
    (h : LoopsMatch t loops ms lists) :
    loops.any StacheLoop.skips = ms.any TokenLoop.skips := by
  have hskips : ∀ {loop : StacheLoop ο} {m : TokenLoop}, SameLoop t loop m →
      loop.skips = m.skips := by
    intro loop m hsame
    have htype := hsame.type_eq
    cases hm : m.type with
    | loopWhile =>
        rw [hm] at htype
        simp only [StacheLoop.skips, TokenLoop.skips, htype, hm, hsame.empty_eq]
    | loopElse =>
        rw [hm] at htype
        simp only [StacheLoop.skips, TokenLoop.skips, htype, hm, hsame.empty_eq]
  induction h with
  | nil => rfl
  | plain hsame _ _ _ ih => rw [List.any_cons, List.any_cons, hskips hsame, ih]
  | list hsame _ _ _ ih => rw [List.any_cons, List.any_cons, hskips hsame, ih]

theorem LoopsMatch.frames {loops : List (StacheLoop ο)} {ms : List TokenLoop}
    (h : LoopsMatch t loops ms lists) :
    lists.map OpenList.frame = framesOf ms := by
  induction h with
  | nil => rfl
  | plain _ _ hlist _ ih =>
      rw [ih, framesOf, framesOf, List.filterMap_cons_none]
      rw [hlist]
      rfl
  | @list loop m _ _ _ _ get close _ _ hlist _ ih =>
      rw [List.map_cons, ih, framesOf, framesOf, List.filterMap_cons_some]
      rw [hlist]
      rfl

/-- The open sections do not see tokens beyond their bodies. -/
theorem LoopsMatch.congr {t' : TokenState} {loops : List (StacheLoop ο)}
    {ms : List TokenLoop} (h : LoopsMatch t loops ms lists)
    (hle : t.frontier ≤ t'.frontier)
    (htoks : ∀ n ≤ t.frontier, offset t'.toks n = offset t.toks n) :
    LoopsMatch t' loops ms lists := by
  have hsame : ∀ {loop : StacheLoop ο} {m : TokenLoop}, SameLoop t loop m →
      SameLoop t' loop m := by
    intro loop m h
    exact ⟨h.type_eq, h.name_eq, (htoks m.mark h.mark_le).symm ▸ h.index_eq,
      Nat.le_trans h.mark_le hle, h.loopIndex_eq, h.empty_eq⟩
  induction h with
  | nil => exact .nil
  | plain h hplain hlist _ ih => exact .plain (hsame h) hplain hlist ih
  | list h hlookup hlist _ ih => exact .list (hsame h) hlookup hlist ih

theorem Follows.skips (h : Follows fns R inclusions t lists held buffer) :
    bufferSkipOutput buffer = t.skips := h.loops.skips

theorem Follows.write (h : Follows fns R inclusions t lists held buffer)
    (text : Bytes) :
    Follows fns R inclusions (t.write text) lists held
      (bufferOutput buffer text) := by
  have hskips := h.skips
  by_cases hskip : t.skips = true
  · rw [TokenState.write, if_pos hskip, bufferOutput,
      if_pos (hskips.trans hskip)]
    exact h
  · rw [TokenState.write, if_neg hskip, bufferOutput,
      if_neg (hskips ▸ hskip)]
    exact ⟨h.pos_le, h.frontier_le, h.plain, h.ok,
      h.loops.congr (Nat.le_refl _) fun _ _ => rfl,
      h.reading.congr h.reading.session rfl rfl rfl rfl rfl rfl rfl, h.eof_eq,
      congrArg (· ++ text) h.output_eq, h.openDelimiter, h.closeDelimiter⟩

theorem TokenState.write_toks (t : TokenState) (text : Bytes) :
    (t.write text).toks = t.toks ∧ (t.write text).frontier = t.frontier ∧
      (t.write text).pos = t.pos ∧ (t.write text).loops = t.loops := by
  rw [TokenState.write]
  split <;> exact ⟨rfl, rfl, rfl, rfl⟩

theorem Follows.eof_eq_false (h : Follows fns R inclusions t lists held buffer)
    (hlive : t.frontier ≠ t.toks.length) : buffer.eof = false := by
  rw [h.eof_eq]
  simp [hlive]

/-- The buffer has been moved over a token which includes nothing. -/
theorem Follows.advance (h : Follows fns R inclusions t lists held buffer)
    (hlive : t.frontier ≠ t.toks.length) {tok : Token}
    (htok : t.toks[t.pos]? = some tok) (hplain : tok.includes = false)
    {after : Buffer σ ο τ}
    (hmoved : Moved fns R lists (tokenBytes t.toks)
      (readAhead (tokenBytes t.toks) 0 (offset t.toks t.frontier))
      (offset t.toks t.pos + tok.bytes.length) buffer after) :
    ∃ held', Follows fns R inclusions t.advance lists held' after := by
  obtain ⟨held', hreading⟩ := hmoved.reading
  have hpos : t.pos < t.toks.length := (List.getElem?_eq_some_iff.mp htok).1
  have hfrontier := h.frontier_le
  have hle := h.pos_le
  have hnext : offset t.toks (t.pos + 1) =
      offset t.toks t.pos + tok.bytes.length := offset_succ htok
  refine ⟨held', ?_, ?_, ?_, h.ok, ?_, ?_, ?_, ?_, ?_, ?_⟩
  · exact Nat.le_max_right _ _
  · show max t.frontier (t.pos + 1) ≤ t.toks.length
    omega
  · intro x hx
    change x ∈ t.toks.take (max t.frontier (t.pos + 1)) at hx
    rcases Nat.le_total (t.pos + 1) t.frontier with hold | hnew
    · rw [Nat.max_eq_left hold] at hx
      exact h.plain x hx
    · rw [Nat.max_eq_right hnew, List.take_add_one, htok] at hx
      rcases List.mem_append.mp hx with hx | hx
      · have hpre : t.toks.take t.pos <+: t.toks.take t.frontier :=
          List.take_prefix_take_left hle
        exact h.plain x (hpre.subset hx)
      · rw [Option.toList_some, List.mem_singleton] at hx
        rw [hx]
        exact hplain
  · rw [hmoved.frame.loops]
    exact h.loops.congr (Nat.le_max_left _ _) fun _ _ => rfl
  · show Reading fns R lists (tokenBytes t.toks) (offset t.toks (t.pos + 1))
      (readAhead (tokenBytes t.toks) 0
        (offset t.toks (max t.frontier (t.pos + 1)))) after held'
    rw [readAhead_max, hnext]
    exact hreading
  · rw [hmoved.eof_eq, ← hnext]
    have hiff := @offset_eq_length t.toks (t.pos + 1) (by omega)
    have hmax : max t.frontier (t.pos + 1) = t.toks.length ↔
        t.pos + 1 = t.toks.length := by omega
    exact decide_eq_decide.mpr (hiff.trans hmax.symm)
  · exact hmoved.frame.output.trans h.output_eq
  · exact hmoved.frame.openDelimiter.trans h.openDelimiter
  · exact hmoved.frame.closeDelimiter.trans h.closeDelimiter

/-- A state of the session may be put behind the callback. -/
theorem Follows.setEnv (h : Follows fns R inclusions t lists held buffer)
    {env : σ} (hsession : R env lists held) :
    Follows fns R inclusions t lists held (buffer.setEnv env) :=
  ⟨h.pos_le, h.frontier_le, h.plain, h.ok, h.loops,
    h.reading.congr hsession rfl rfl rfl rfl rfl rfl rfl, h.eof_eq,
    h.output_eq, h.openDelimiter, h.closeDelimiter⟩

theorem bufferOutput_setEnv (buffer : Buffer σ ο τ) (env : σ) (text : Bytes) :
    bufferOutput (buffer.setEnv env) text =
      (bufferOutput buffer text).setEnv env := by
  have hskip : bufferSkipOutput (buffer.setEnv env) = bufferSkipOutput buffer :=
    rfl
  rw [bufferOutput, bufferOutput, hskip]
  split <;> rfl

theorem TagMatch.failed (h : buffer.output = t.out) :
    TagMatch fns R inclusions (false, buffer) t.failed := by
  rw [TokenState.failed, ← h]
  exact .fails

theorem Follows.push (h : Follows fns R inclusions t lists held buffer)
    {env : σ} {lists' : List (OpenList ο)} (hsession : R env lists' held)
    {loop : StacheLoop ο} {m : TokenLoop} (error : String)
    (hloops : LoopsMatch t (loop :: buffer.loops) (m :: t.loops) lists') :
    Follows fns R inclusions { t with loops := m :: t.loops } lists' held
      { buffer.setEnv env with error := error, loops := loop :: buffer.loops } :=
  ⟨h.pos_le, h.frontier_le, h.plain, h.ok,
    hloops.congr (Nat.le_refl _) fun _ _ => rfl,
    h.reading.congr hsession rfl rfl rfl rfl rfl rfl rfl, h.eof_eq,
    h.output_eq, h.openDelimiter, h.closeDelimiter⟩

/-- The new loop of the engine and that of the machine. -/
theorem Follows.sameLoop (h : Follows fns R inclusions t lists held buffer)
    (type : LoopType) (name : Bytes) (lookup : Lookup ο) (empty : Bool)
    (list : Option (Option (Int → Bool) × Option Bool)) :
    SameLoop t ⟨type, name, lookup, buffer.index, 0, empty⟩
      ⟨type, name, list, t.pos, 0, empty⟩ :=
  ⟨rfl, rfl, h.reading.index_eq, h.pos_le, rfl, rfl⟩

/-- The open sections are replaced on both sides. -/
theorem Follows.setLoops (h : Follows fns R inclusions t lists held buffer)
    {env : σ} {lists' : List (OpenList ο)} (hsession : R env lists' held)
    {loops : List (StacheLoop ο)} {ms : List TokenLoop}
    (hloops : LoopsMatch t loops ms lists') :
    Follows fns R inclusions { t with loops := ms } lists' held
      { buffer.setEnv env with loops := loops } :=
  ⟨h.pos_le, h.frontier_le, h.plain, h.ok,
    hloops.congr (Nat.le_refl _) fun _ _ => rfl,
    h.reading.congr hsession rfl rfl rfl rfl rfl rfl rfl, h.eof_eq,
    h.output_eq, h.openDelimiter, h.closeDelimiter⟩

theorem Follows.rewind (h : Follows fns R inclusions t lists held buffer)
    {mark : Nat} (hmark : mark ≤ t.frontier) {index : Int}
    (hindex : index = offset t.toks mark) :
    Follows fns R inclusions { t with pos := mark } lists held
      { buffer with index := index } := by
  have hfrontier := h.frontier_le
  have hmono := offset_mono t.toks hmark
  have hreading := h.reading
  have heof := h.eof_eq
  refine ⟨hmark, h.frontier_le, h.plain, h.ok,
    h.loops.congr (Nat.le_refl _) fun _ _ => rfl, ?_, h.eof_eq,
    h.output_eq, h.openDelimiter, h.closeDelimiter⟩
  refine ⟨hreading.session, hindex, hreading.fill_eq, hreading.fill_le,
    hreading.fill_le_capacity, hreading.data, ?_, ?_⟩
  · intro hlive
    have hlive' : buffer.eof = false := hlive
    have hne : t.frontier ≠ t.toks.length := by
      intro heq
      rw [heof, decide_eq_true heq] at hlive'
      cases hlive'
    have hlt : offset t.toks t.frontier < (tokenBytes t.toks).length := by
      rw [← offset_length]
      exact offset_lt (Nat.lt_of_le_of_ne hfrontier hne) (Nat.le_refl _)
    refine ⟨?_, (hreading.live hlive').2⟩
    change offset t.toks mark < readAhead (tokenBytes t.toks) 0
      (offset t.toks t.frontier)
    rw [readAhead]
    omega
  · intro hend
    have hlen := (hreading.ended hend).1
    refine ⟨hlen, ?_⟩
    have hmax := offset_mono t.toks (Nat.le_trans hmark hfrontier)
    rw [offset_length] at hmax
    dsimp only
    rw [hlen]
    exact hmax

end

end Libcad
