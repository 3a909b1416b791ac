/-
When `parse_cookies` reads the segments of a header as they stand, wherever
they stand.
-/
import Libcad.CgiSegments

namespace Libcad

open Proc

/-- What a segment denotes: nothing if it is blank. -/
def segmentCookie (segment : Bytes) : Option CookiePart :=
  if skipBlanks segment = [] then none
  else some (cutSegment (skipBlanks segment))

/-- The cookies of the segments between the semicolons. -/
def splitCookies (text : Bytes) : List CookiePart :=
  (text.splitOn (ascii ';')).filterMap segmentCookie

/-- The cookie of a part in a fresh block, unchanged since. -/
def partCookie (part : CookiePart) : Cookie :=
  { newCadCgiCookie false part.1 with
    value :=
      match part.2 with
      | none => .null
      | some value => .string (cString value) }

/-- The jar holds the cookies of the parts, the last one of a name, and nothing
else. -/
structure CookieJar.HoldsParts (this : CookieJar) (parts : List CookiePart) :
    Prop where
  found : ∀ i part, parts[i]? = some part →
    (∀ (j : Nat) (later : CookiePart), i < j → parts[j]? = some later →
      later.1 ≠ part.1) →
    ∃ pointer, this.get part.1 = some pointer ∧
      this.cookie pointer = some (partCookie part)
  absent : ∀ name, (∀ part ∈ parts, part.1 ≠ name) → this.get name = none

/-- After its blanks no segment begins with `=`, and something is left of each
but the last one. -/
structure LaterRead (segments : List Bytes) : Prop where
  named : ∀ s ∈ segments, (skipBlanks s).head? ≠ some (ascii '=')
  filled : ∀ s ∈ segments.dropLast, skipBlanks s ≠ []

/-- The first segment is neither empty nor does it begin with a blank, and the
later ones are read as they stand. -/
def SplitRead (text : Bytes) : Prop :=
  text = [] ∨ ∃ first later, text.splitOn (ascii ';') = first :: later ∧
    first ≠ [] ∧ first.head? ≠ some (ascii ' ') ∧ LaterRead later

/-- A block that is not fresh is that of a cookie without a value that a later
one of its name takes the place of. -/
def FreshParts (stale : Nat → Bool) (parts : List CookiePart) : Prop :=
  ∀ i part, parts[i]? = some part → stale i = true →
    part.2 = none ∧ ∃ j later, i < j ∧ parts[j]? = some later ∧
      later.1 = part.1

theorem not_mem_segment {text segment : Bytes}
    (h : segment ∈ text.splitOn (ascii ';')) : ascii ';' ∉ segment := by
  induction text generalizing segment with
  | nil =>
      rw [List.mem_singleton.mp h]
      exact List.not_mem_nil
  | cons c rest ih =>
      rw [List.splitOn_cons_eq_if_modifyHead] at h
      by_cases hc : c = ascii ';'
      · rw [if_pos (by simpa using hc)] at h
        rcases List.mem_cons.mp h with rfl | h
        · exact List.not_mem_nil
        · exact ih h
      · rw [if_neg (by simpa using hc)] at h
        obtain ⟨first, more, hsplit⟩ := List.exists_cons_of_ne_nil
          (List.splitOn_ne_nil (ascii ';') rest)
        rw [hsplit] at h ih
        rcases List.mem_cons.mp h with rfl | h
        · have hfirst := ih List.mem_cons_self
          simp [hfirst, Ne.symm hc]
        · exact ih (List.mem_cons_of_mem _ h)

theorem splitOn_eq (text : Bytes) :
    text.splitOn (ascii ';') = firstSegment text ::
      if text.dropWhile (· ≠ ascii ';') = [] then []
      else (afterSegment text).splitOn (ascii ';') := by
  have hsplit : text = firstSegment text ++ text.dropWhile (· ≠ ascii ';') :=
    (List.takeWhile_append_dropWhile ..).symm
  have hmem : ascii ';' ∉ firstSegment text := by
    intro h
    simpa using List.mem_takeWhile_imp h
  rw [afterSegment]
  rcases segmentEnd_dropWhile text with hnil | ⟨rest, hrest⟩
  · rw [if_pos hnil]
    rw [hnil, List.append_nil] at hsplit
    conv_lhs => rw [hsplit]
    exact List.splitOn_eq_singleton hmem
  · rw [hrest, if_neg (List.cons_ne_nil _ _), List.tail_cons]
    rw [hrest] at hsplit
    conv_lhs => rw [hsplit]
    rw [List.splitOn_append_cons_self, List.splitOn_eq_singleton hmem]
    rfl

theorem skipBlanks_of_head {text : Bytes}
    (h : text.head? ≠ some (ascii ' ')) : skipBlanks text = text := by
  cases text with
  | nil => rfl
  | cons c rest =>
      have hc : c ≠ ascii ' ' := fun heq => h (by rw [heq]; rfl)
      rw [skipBlanks, List.dropWhile_cons_of_neg (by simpa using hc)]

theorem cutSegment_cons {c : UInt8} (hc : c ≠ ascii '=') (rest : Bytes) :
    cutSegment (c :: rest) =
      (c :: (cutSegment rest).1, (cutSegment rest).2) := by
  simp [cutSegment, hc]

def Misread (name : Bytes) : Prop :=
  name.head? = some (ascii ';') ∨ name.head? = some (ascii '=')

theorem laterRead_cons {segment : Bytes} {more : List Bytes}
    (hnamed : (skipBlanks segment).head? ≠ some (ascii '='))
    (hfilled : skipBlanks segment ≠ []) :
    LaterRead (segment :: more) ↔ LaterRead more := by
  constructor
  · intro h
    refine ⟨fun s hs => h.named s (List.mem_cons_of_mem _ hs), fun s hs => ?_⟩
    apply h.filled
    cases more with
    | nil => exact absurd hs List.not_mem_nil
    | cons next more => exact List.mem_cons_of_mem _ hs
  · intro h
    refine ⟨List.forall_mem_cons.mpr ⟨hnamed, h.named⟩, fun s hs => ?_⟩
    cases more with
    | nil => exact absurd hs List.not_mem_nil
    | cons next more =>
        rcases List.mem_cons.mp hs with rfl | hs
        · exact hfilled
        · exact h.filled s hs

theorem blank_of_mem {text : Bytes} {b : UInt8}
    (hb : b ∈ text.takeWhile (· = ascii ' ')) : b = ascii ' ' := by
  simpa using List.mem_takeWhile_imp hb

theorem skipBlanks_segments (text : Bytes) :
    firstSegment text =
        text.takeWhile (· = ascii ' ') ++ firstSegment (skipBlanks text) ∧
      text.dropWhile (· ≠ ascii ';') =
        (skipBlanks text).dropWhile (· ≠ ascii ';') := by
  have hsplit : text = text.takeWhile (· = ascii ' ') ++ skipBlanks text :=
    (List.takeWhile_append_dropWhile ..).symm
  have hpos : ∀ b ∈ text.takeWhile (· = ascii ' '),
      decide (b ≠ ascii ';') = true := by
    intro b hb
    rw [blank_of_mem hb]
    decide
  constructor
  · conv_lhs => rw [hsplit]
    exact List.takeWhile_append_of_pos hpos
  · conv_lhs => rw [hsplit]
    exact List.dropWhile_append_of_pos hpos

theorem skipBlanks_append (text rest : Bytes) (c : UInt8)
    (hc : c ≠ ascii ' ') :
    skipBlanks (text.takeWhile (· = ascii ' ') ++ c :: rest) = c :: rest := by
  have hpos : ∀ b ∈ text.takeWhile (· = ascii ' '),
      decide (b = ascii ' ') = true := fun b hb =>
    decide_eq_true (blank_of_mem hb)
  rw [skipBlanks, List.dropWhile_append_of_pos hpos]
  exact skipBlanks_of_head (by simpa using hc)

theorem waiting_split (text : Bytes) :
    (LaterRead (text.splitOn (ascii ';')) →
      waitingCookies text = splitCookies text) ∧
    (¬ LaterRead (text.splitOn (ascii ';')) →
      ∃ part ∈ waitingCookies text, Misread part.1) := by
  induction text using waitingCookies.induct with
  | case1 text hskip =>
      have hblank : ∀ c ∈ text, c = ascii ' ' := by
        simpa [skipBlanks, List.dropWhile_eq_nil_iff] using hskip
      have hmem : ascii ';' ∉ text := by
        intro h
        exact absurd (hblank _ h) (by decide)
      rw [splitCookies, List.splitOn_eq_singleton hmem,
        waitingCookies_nil hskip]
      refine ⟨fun _ => by simp [segmentCookie, hskip], fun hnot => ?_⟩
      refine absurd ⟨?_, ?_⟩ hnot
      · simp [hskip]
      · simp
  | case2 text c rest hskip ih =>
      have hblank := skipBlanks_head hskip
      obtain ⟨hfirst, hdrop⟩ := skipBlanks_segments text
      rw [hskip] at hfirst hdrop
      have hpart : (c :: (cutSegment (firstSegment rest)).1,
          (cutSegment (firstSegment rest)).2) ∈ waitingCookies text := by
        rw [waitingCookies_cons hskip]
        exact List.mem_cons_self
      by_cases hsemi : c = ascii ';'
      · -- an empty segment with another one after it
        have hnot : ¬ LaterRead (text.splitOn (ascii ';')) := by
          intro h
          have hne : text.dropWhile (· ≠ ascii ';') ≠ [] := by
            rw [hdrop, hsemi]
            simp
          rw [splitOn_eq, if_neg hne] at h
          have hseg : firstSegment text = text.takeWhile (· = ascii ' ') := by
            rw [hfirst, hsemi]
            simp [firstSegment]
          refine h.filled (firstSegment text) ?_ ?_
          · obtain ⟨next, more, hmore⟩ := List.exists_cons_of_ne_nil
              (List.splitOn_ne_nil (ascii ';') (afterSegment text))
            simp [hmore]
          · rw [hseg, skipBlanks, List.dropWhile_eq_nil_iff]
            exact fun b hb => decide_eq_true (blank_of_mem hb)
        exact ⟨fun h => absurd h hnot,
          fun _ => ⟨_, hpart, Or.inl (by rw [hsemi]; rfl)⟩⟩
      · have hseg : skipBlanks (firstSegment text) = c :: firstSegment rest := by
          have hcons : firstSegment (c :: rest) = c :: firstSegment rest := by
            simp [firstSegment, hsemi]
          rw [hfirst, hcons, skipBlanks_append text _ c hblank]
        by_cases hequals : c = ascii '='
        · have hnot : ¬ LaterRead (text.splitOn (ascii ';')) := by
            intro h
            rw [splitOn_eq] at h
            refine h.named (firstSegment text) List.mem_cons_self ?_
            rw [hseg, hequals]
            rfl
          exact ⟨fun h => absurd h hnot,
            fun _ => ⟨_, hpart, Or.inr (by rw [hequals]; rfl)⟩⟩
        · have hafter : afterSegment text = afterSegment rest := by
            rw [afterSegment, hdrop, afterSegment,
              List.dropWhile_cons_of_pos (by simpa using hsemi)]
          have hcookie : segmentCookie (firstSegment text) =
              some (c :: (cutSegment (firstSegment rest)).1,
                (cutSegment (firstSegment rest)).2) := by
            rw [segmentCookie, hseg, if_neg (List.cons_ne_nil _ _),
              cutSegment_cons hequals]
          have hnamed : (skipBlanks (firstSegment text)).head? ≠
              some (ascii '=') := by
            simpa [hseg] using hequals
          have hfilled : skipBlanks (firstSegment text) ≠ [] := by
            simp [hseg]
          rw [splitCookies, splitOn_eq, laterRead_cons hnamed hfilled,
            List.filterMap_cons_some hcookie, waitingCookies_cons hskip, hafter]
          by_cases hlast : text.dropWhile (· ≠ ascii ';') = []
          · have hend : afterSegment rest = [] := by
              rw [← hafter, afterSegment, hlast]
              rfl
            rw [if_pos hlast, hend, waitingCookies_nil rfl]
            refine ⟨fun _ => rfl, fun hnot => absurd ⟨?_, ?_⟩ hnot⟩
            · simp
            · simp
          · rw [if_neg hlast]
            refine ⟨fun h => congrArg _ (ih.1 h), fun hnot => ?_⟩
            obtain ⟨part, hmem, hbad⟩ := ih.2 hnot
            exact ⟨part, List.mem_cons_of_mem _ hmem, hbad⟩

theorem firstSegment_head {text : Bytes}
    (h : (firstSegment text).head? ≠ some (ascii ' '))
    (hne : firstSegment text ≠ []) :
    segmentCookie (firstSegment text) = some (cutSegment (firstSegment text)) := by
  have hskip := skipBlanks_of_head h
  rw [segmentCookie, hskip, if_neg hne]

theorem laterSegments_eq (text : Bytes) :
    (if text.dropWhile (· ≠ ascii ';') = [] then []
      else (afterSegment text).splitOn (ascii ';')) =
        (text.splitOn (ascii ';')).tail := by
  rw [splitOn_eq text]
  rfl

theorem waiting_later (text : Bytes) :
    (LaterRead (text.splitOn (ascii ';')).tail →
      waitingCookies (afterSegment text) =
        (text.splitOn (ascii ';')).tail.filterMap segmentCookie) ∧
    (¬ LaterRead (text.splitOn (ascii ';')).tail →
      ∃ part ∈ waitingCookies (afterSegment text), Misread part.1) := by
  rw [← laterSegments_eq]
  by_cases hlast : text.dropWhile (· ≠ ascii ';') = []
  · have hend : afterSegment text = [] := by
      rw [afterSegment, hlast]
      rfl
    rw [if_pos hlast, hend, waitingCookies_nil rfl]
    refine ⟨fun _ => rfl, fun hnot => absurd ⟨?_, ?_⟩ hnot⟩
    · simp
    · simp
  · rw [if_neg hlast]
    exact waiting_split (afterSegment text)

/-- The names that segments denote are not the misread ones, and are empty only
before an `=`. -/
theorem segmentCookie_name {segment : Bytes} {part : CookiePart}
    (hsemi : ascii ';' ∉ segment) (h : segmentCookie segment = some part) :
    ¬ Misread part.1 ∧ part.1.head? ≠ some (ascii ' ') ∧
      (part.1 = [] → (skipBlanks segment).head? = some (ascii '=')) := by
  rw [segmentCookie] at h
  split at h
  next => cases h
  next hne =>
    cases h
    obtain ⟨c, rest, hskip⟩ := List.exists_cons_of_ne_nil hne
    have hblank := skipBlanks_head hskip
    have hc : c ≠ ascii ';' := by
      intro heq
      have hmem : c ∈ skipBlanks segment := by simp [hskip]
      exact hsemi (heq ▸ (List.dropWhile_suffix _).subset hmem)
    rw [hskip]
    by_cases hequals : c = ascii '='
    · simp [cutSegment, hequals, Misread]
    · simp [cutSegment_cons hequals, Misread, hc, hequals, hblank]

theorem splitCookies_name {text : Bytes} {part : CookiePart}
    (h : part ∈ splitCookies text) :
    ¬ Misread part.1 ∧ part.1.head? ≠ some (ascii ' ') := by
  obtain ⟨segment, hmem, hsome⟩ := List.mem_filterMap.mp h
  have hname := segmentCookie_name (not_mem_segment hmem) hsome
  exact ⟨hname.1, hname.2.1⟩

/-- A header that is read by its segments, or one in which a cookie is read
under a name that no segment denotes. -/
theorem scanned_split (text : Bytes) :
    (SplitRead text → scannedCookies text = splitCookies text) ∧
    (¬ SplitRead text → ∃ part ∈ scannedCookies text,
      ∀ other ∈ splitCookies text, other.1 ≠ part.1) := by
  by_cases hnil : text = []
  · subst hnil
    exact ⟨fun _ => by simp [scannedCookies, splitCookies, segmentCookie, skipBlanks],
      fun hnot => absurd (Or.inl rfl) hnot⟩
  have hsplit : text.splitOn (ascii ';') =
      firstSegment text :: (text.splitOn (ascii ';')).tail := by
    rw [splitOn_eq text]
    rfl
  have hread : SplitRead text ↔ firstSegment text ≠ [] ∧
      (firstSegment text).head? ≠ some (ascii ' ') ∧
      LaterRead (text.splitOn (ascii ';')).tail := by
    constructor
    · rintro (h | ⟨first, later, heq, h⟩)
      · exact absurd h hnil
      · rw [heq] at hsplit ⊢
        cases List.cons.inj hsplit |>.1
        exact h
    · exact fun h => Or.inr ⟨_, _, hsplit, h⟩
  obtain ⟨hlater, hmisread⟩ := waiting_later text
  rw [scannedCookies, if_neg hnil, hread]
  constructor
  · rintro ⟨hne, hhead, h⟩
    rw [splitCookies, hsplit,
      List.filterMap_cons_some (firstSegment_head hhead hne), hlater h]
  · intro hnot
    by_cases h : LaterRead (text.splitOn (ascii ';')).tail
    · by_cases hne : firstSegment text = []
      · -- the empty first segment is read as a cookie without a name
        refine ⟨_, List.mem_cons_self, ?_⟩
        rintro other hother hname
        have hnone : segmentCookie (firstSegment text) = none := by
          simp [hne, segmentCookie, skipBlanks]
        rw [splitCookies, hsplit, List.filterMap_cons_none hnone] at hother
        obtain ⟨segment, hmem, hsome⟩ := List.mem_filterMap.mp hother
        have hempty : other.1 = [] := by
          rw [hname, hne]
          rfl
        refine h.named segment hmem ((segmentCookie_name ?_ hsome).2.2 hempty)
        exact not_mem_segment (List.mem_of_mem_tail hmem)
      · -- the first segment is read with its blanks
        have hblank : (firstSegment text).head? = some (ascii ' ') := by
          by_contra hhead
          exact hnot ⟨hne, hhead, h⟩
        refine ⟨_, List.mem_cons_self, ?_⟩
        rintro other hother hname
        refine (splitCookies_name hother).2 ?_
        obtain ⟨c, rest, hcons⟩ := List.exists_cons_of_ne_nil hne
        rw [hcons] at hblank hname
        have hc : c = ascii ' ' := by simpa using hblank
        rw [hname, hc, cutSegment_cons (by decide)]
        rfl
    · obtain ⟨part, hmem, hbad⟩ := hmisread h
      refine ⟨part, List.mem_cons_of_mem _ hmem, ?_⟩
      rintro other hother hname
      exact (splitCookies_name hother).1 (hname ▸ hbad)

namespace CookieJar

variable {stale : Nat → Bool}

/-- The cookie of a part in a block that may be stale. -/
def madeCookie (stale : Bool) (part : CookiePart) : Cookie :=
  { partCookie part with
    value :=
      match part.2 with
      | none => if stale then .wild else .null
      | some value => .string (cString value) }

theorem store_allocated (this : CookieJar) (new cookie : Cookie) :
    store { this with objects := this.objects ++ [some new] }
        this.objects.length cookie =
      { this with objects := this.objects ++ [some cookie] } := by
  rw [store, List.set_append_right _ _ (Nat.le_refl _), Nat.sub_self,
    List.set_cons_zero]

theorem add_part_returns_iff {this that : CookieJar} {part : CookiePart} :
    Returns (this.add stale part.1 part.2) that ↔
      (part.2 ≠ none → stale this.objects.length = false) ∧
        that = this.withNew (madeCookie (stale this.objects.length) part) := by
  rcases part with ⟨name, _ | value⟩
  · rw [add]
    dsimp only [allocate]
    rw [(returns_pure_self _).bind_iff, returns_pure, store_allocated]
    simp only [ne_eq, not_true_eq_false, false_imp_iff, true_and]
    exact eq_comm
  · rw [add]
    dsimp only [allocate]
    cases hstale : stale this.objects.length with
    | true =>
        refine iff_of_false ?_ (by simp)
        intro hrun
        obtain ⟨cookie, hset, -⟩ := returns_bind.mp hrun
        obtain ⟨_, hfree, -⟩ := returns_bind.mp hset
        exact not_returns_undefined hfree
    | false =>
        have hset : Returns (Cookie.setValue true (newCadCgiCookie false name)
            (cString value)) (0, { newCadCgiCookie false name with
              value := .string (cString value), changed := true }) :=
          Returns.bind (returns_pure_self ()) (returns_pure_self _)
        rw [hset.bind_iff]
        dsimp only
        rw [(returns_pure_self _).bind_iff, returns_pure, store_allocated]
        simp only [true_and, implies_true]
        exact eq_comm

def withParts (stale : Nat → Bool) (this : CookieJar)
    (parts : List CookiePart) : CookieJar :=
  parts.foldl (fun jar part =>
    jar.withNew (madeCookie (stale jar.objects.length) part)) this

theorem length_withNew (this : CookieJar) (cookie : Cookie) :
    (this.withNew cookie).objects.length = this.objects.length + 1 := by
  simp [withNew]

theorem addAll_returns_iff {parts : List CookiePart} {this that : CookieJar} :
    Returns (addAll stale parts this) that ↔
      (∀ (i : Nat) (part : CookiePart), parts[i]? = some part →
        part.2 ≠ none → stale (this.objects.length + i) = false) ∧
        that = this.withParts stale parts := by
  induction parts generalizing this with
  | nil =>
      have hnone : ∀ (i : Nat) (part : CookiePart),
          ([] : List CookiePart)[i]? = some part → part.2 ≠ none →
            stale (this.objects.length + i) = false := by
        simp
      rw [addAll, returns_pure, withParts, List.foldl_nil, eq_comm]
      exact (and_iff_right hnone).symm
  | cons part parts ih =>
      simp only [addAll, returns_bind, add_part_returns_iff, ih]
      constructor
      · rintro ⟨mid, ⟨hfirst, rfl⟩, hrest, rfl⟩
        refine ⟨?_, rfl⟩
        intro i other hother hvalue
        cases i with
        | zero =>
            cases hother
            exact hfirst hvalue
        | succ i =>
            have hfresh := hrest i other hother hvalue
            rw [length_withNew] at hfresh
            rwa [Nat.add_right_comm] at hfresh
      · rintro ⟨hall, rfl⟩
        refine ⟨_, ⟨hall 0 part rfl, rfl⟩, ?_, rfl⟩
        intro i other hother hvalue
        rw [length_withNew, Nat.add_right_comm]
        exact hall (i + 1) other hother hvalue

/-- The places of the cookies of the parts, in an empty jar. -/
structure Places (this : CookieJar) (stale : Nat → Bool)
    (parts : List CookiePart) : Prop where
  length : this.objects.length = parts.length
  made : ∀ i part, parts[i]? = some part →
    this.cookie i = some (madeCookie (stale i) part)
  last : ∀ i part, parts[i]? = some part →
    (∀ (j : Nat) (later : CookiePart), i < j → parts[j]? = some later →
      later.1 ≠ part.1) → this.get part.1 = some i
  absent : ∀ name, this.get name = none ↔ ∀ part ∈ parts, part.1 ≠ name

theorem places_withParts (parts : List CookiePart) :
    (withParts stale ⟨[], []⟩ parts).Places stale parts := by
  induction parts using List.reverseRecOn with
  | nil => exact ⟨rfl, by simp, by simp, fun _ => by simp [withParts, get, Dict.get]⟩
  | append_singleton parts part ih =>
      have hnew : withParts stale ⟨[], []⟩ (parts ++ [part]) =
          (withParts stale ⟨[], []⟩ parts).withNew
            (madeCookie (stale parts.length) part) := by
        rw [withParts, List.foldl_append, ← ih.length]
        rfl
      rw [hnew]
      generalize withParts stale ⟨[], []⟩ parts = jar at ih
      have hname : (madeCookie (stale parts.length) part).name = part.1 := rfl
      have hcases : ∀ (i : Nat) (other : CookiePart),
          (parts ++ [part])[i]? = some other →
          (i < parts.length ∧ parts[i]? = some other) ∨
            (i = parts.length ∧ other = part) := by
        intro i other hother
        rcases Nat.lt_trichotomy i parts.length with hlt | heq | hgt
        · rw [List.getElem?_append_left hlt] at hother
          exact Or.inl ⟨hlt, hother⟩
        · rw [heq, List.getElem?_concat_length] at hother
          exact Or.inr ⟨heq, (Option.some.inj hother).symm⟩
        · rw [List.getElem?_eq_none (by simp; omega)] at hother
          cases hother
      refine ⟨by rw [length_withNew, ih.length, List.length_append]; rfl, ?_, ?_, ?_⟩
      · intro i other hother
        rw [cookie_withNew, ih.length]
        rcases hcases i other hother with ⟨hlt, hold⟩ | ⟨rfl, rfl⟩
        · rw [if_neg (Nat.ne_of_lt hlt), ih.made i other hold]
        · rw [if_pos rfl]
      · intro i other hother hlast
        rw [get_withNew, ih.length, hname]
        rcases hcases i other hother with ⟨hlt, hold⟩ | ⟨rfl, rfl⟩
        · rw [if_neg (hlast _ part hlt (List.getElem?_concat_length))]
          refine ih.last i other hold fun j later hij hlater => ?_
          apply hlast j later hij
          rw [List.getElem?_append_left (List.getElem?_eq_some_iff.mp hlater).1]
          exact hlater
        · rw [if_pos rfl]
      · intro name
        rw [get_withNew, hname, List.forall_mem_append, ← ih.absent]
        by_cases heq : part.1 = name
        · simp [heq]
        · simp [heq]

/-- The jar holds what the parts say exactly when no stale block shows. -/
theorem addAll_holds_iff {parts : List CookiePart} :
    (∃ jar, Returns (addAll stale parts ⟨[], []⟩) jar ∧ jar.HoldsParts parts) ↔
      FreshParts stale parts := by
  have hplaces := @places_withParts stale parts
  simp only [addAll_returns_iff]
  constructor
  · rintro ⟨jar, ⟨hfresh, rfl⟩, hholds⟩ i part hpart hstale
    have hnone : part.2 = none := by
      by_contra hvalue
      have hzero := hfresh i part hpart hvalue
      rw [List.length_nil, Nat.zero_add, hstale] at hzero
      cases hzero
    refine ⟨hnone, ?_⟩
    by_contra hlater
    have hlast : ∀ (j : Nat) (later : CookiePart), i < j →
        parts[j]? = some later → later.1 ≠ part.1 :=
      fun j later hij hj heq => hlater ⟨j, later, hij, hj, heq⟩
    obtain ⟨pointer, hget, hcookie⟩ := hholds.found i part hpart hlast
    rw [hplaces.last i part hpart hlast] at hget
    cases hget
    rw [hplaces.made i part hpart] at hcookie
    have hvalue := congrArg Cookie.value (Option.some.inj hcookie)
    rw [hstale] at hvalue
    simp [madeCookie, partCookie, hnone] at hvalue
  · intro hfresh
    refine ⟨_, ⟨fun i part hpart hvalue => ?_, rfl⟩, ⟨?_, ?_⟩⟩
    · rw [List.length_nil, Nat.zero_add]
      by_contra hstale
      exact hvalue (hfresh i part hpart (by simpa using hstale)).1
    · intro i part hpart hlast
      refine ⟨i, hplaces.last i part hpart hlast, ?_⟩
      rw [hplaces.made i part hpart]
      have hclean : stale i = false := by
        by_contra hstale
        obtain ⟨-, j, later, hij, hj, heq⟩ :=
          hfresh i part hpart (by simpa using hstale)
        exact hlast j later hij hj heq
      rw [hclean]
      rfl
    · intro name hnone
      exact (hplaces.absent name).mpr hnone

end CookieJar

/-- The jar of a header is that of its segments exactly when each segment is
read as it stands and no stale block shows. -/
theorem parseCookies_split_iff (stale : Nat → Bool) {text : Bytes}
    (hnul : (0 : UInt8) ∉ text) :
    (∃ jar, Returns (parseCookies stale text ⟨[], []⟩) jar ∧
      jar.HoldsParts (splitCookies text)) ↔
      SplitRead text ∧ FreshParts stale (splitCookies text) := by
  obtain ⟨hread, hmisread⟩ := scanned_split text
  simp only [parseCookies_scanned hnul]
  by_cases h : SplitRead text
  · rw [hread h, CookieJar.addAll_holds_iff, and_iff_right h]
  · refine iff_of_false ?_ (fun hboth => h hboth.1)
    rintro ⟨jar, hrun, hholds⟩
    obtain ⟨part, hpart, hnone⟩ := hmisread h
    obtain ⟨-, rfl⟩ := CookieJar.addAll_returns_iff.mp hrun
    have hget := (@CookieJar.places_withParts stale
      (scannedCookies text)).absent part.1
    exact hget.mp (hholds.absent part.1 hnone) part hpart rfl

theorem parseCookies_split_blank :
    ∃ jar, Returns (parseCookies (fun _ => false) (chars "a=b; c") ⟨[], []⟩) jar ∧
      jar.HoldsParts (splitCookies (chars "a=b; c")) := by
  refine (parseCookies_split_iff (fun _ => false) (by decide)).mpr ⟨?_, nofun⟩
  refine Or.inr ⟨chars "a=b", [chars " c"], by decide, by decide, by decide, ?_⟩
  have hskip : skipBlanks (chars " c") = chars "c" := by decide
  refine ⟨fun s hs => ?_, nofun⟩
  rw [List.mem_singleton.mp hs, hskip]
  decide

/-- In `a=1;;b=2` the second cookie is read under the name `;b`. -/
theorem parseCookies_not_split :
    splitCookies (chars "a=1;;b=2") =
        [(chars "a", some (chars "1")), (chars "b", some (chars "2"))] ∧
      ∃ jar, Returns (parseCookies (fun _ => false) (chars "a=1;;b=2") ⟨[], []⟩)
          jar ∧
        jar.get (chars ";b") = some 1 ∧ jar.get (chars "b") = none ∧
        ¬ jar.HoldsParts (splitCookies (chars "a=1;;b=2")) := by
  have hsplit : splitCookies (chars "a=1;;b=2") =
      [(chars "a", some (chars "1")), (chars "b", some (chars "2"))] := by
    decide +kernel
  have hscanned : scannedCookies (chars "a=1;;b=2") =
      [(chars "a", some (chars "1")), (chars ";b", some (chars "2"))] := by
    have hskip : skipBlanks (afterSegment (chars "a=1;;b=2")) =
        ascii ';' :: chars "b=2" := by decide
    have hend : waitingCookies (afterSegment (chars "b=2")) = [] :=
      waitingCookies_nil (by decide)
    rw [scannedCookies, if_neg (by decide), waitingCookies_cons hskip, hend]
    decide +kernel
  have hrun : Returns (parseCookies (fun _ => false) (chars "a=1;;b=2") ⟨[], []⟩)
      (CookieJar.withParts (fun _ => false) ⟨[], []⟩
        [(chars "a", some (chars "1")), (chars ";b", some (chars "2"))]) := by
    rw [parseCookies_scanned (by decide), hscanned]
    exact CookieJar.addAll_returns_iff.mpr ⟨fun _ _ _ _ => rfl, rfl⟩
  have hplaces := @CookieJar.places_withParts (fun _ => false)
    [(chars "a", some (chars "1")), (chars ";b", some (chars "2"))]
  have hnone := (hplaces.absent (chars "b")).mpr (by decide)
  refine ⟨hsplit, _, hrun, ?_, hnone, fun hholds => ?_⟩
  · refine hplaces.last 1 _ rfl fun j later hj hlater => ?_
    rw [List.getElem?_eq_none (by simp; omega)] at hlater
    cases hlater
  · rw [hsplit] at hholds
    obtain ⟨pointer, hget, -⟩ := hholds.found 1 (chars "b", some (chars "2")) rfl
      (fun j later hj hlater => by
        rw [List.getElem?_eq_none (by simp; omega)] at hlater
        cases hlater)
    rw [hnone] at hget
    cases hget

end Libcad
