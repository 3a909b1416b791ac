/-
The block a name is read into.  Every byte of a name has a place in it when it
is stored; the NUL after the name has none when the name fills the block.
-/
import Libcad.StacheAccesses
import Mathlib.Algebra.Group.Nat.Defs

namespace Libcad

open Proc

variable {σ ο τ : Type}

/-- `buffer_next` leads from one record to the other. -/
def ReadsOn (fns : StreamFns τ) (cb : Callback σ ο τ) :
    Buffer σ ο τ → Buffer σ ο τ → Prop :=
  Relation.ReflTransGen fun before after =>
    Returns (bufferNext fns cb before) (true, after)

/-- The engine has read on from `start` on the way to `last`, and may have
gone back. -/
def Behind (fns : StreamFns τ) (cb : Callback σ ο τ)
    (start last : Buffer σ ο τ) (place : Int) (buffer : Buffer σ ο τ) : Prop :=
  ∃ middle, ReadsOn fns cb start middle ∧ ReadsOn fns cb middle last ∧
    buffer = middle.goTo place ∧ start.index ≤ place ∧
    place ≤ middle.index ∧ (middle.eof = false ∨ place = middle.index)

/-- Unless the input has ended, the engine has read on and gone back. -/
structure LooksAhead (fns : StreamFns τ) (cb : Callback σ ο τ)
    (before after : Buffer σ ο τ) : Prop where
  room : HasRoom after
  le : before.index ≤ after.index
  eof : before.eof = true → after.eof = true
  middle : after.eof = false → ∃ middle, ReadsOn fns cb before middle ∧
    after = middle.goTo after.index ∧ after.index ≤ middle.index

section

variable {fns : StreamFns τ} {cb : Callback σ ο τ}
  {start middle last before buffer after : Buffer σ ο τ} {place : Int}
  {suffix : Option Bytes}

theorem ReadsOn.keeps {P : Buffer σ ο τ → Buffer σ ο τ → Prop}
    (h : ReadsOn fns cb before after) (hP : ReadClosed fns cb P) :
    P before after := by
  induction h with
  | refl => exact hP.refl _
  | tail _ hnext ih => exact hP.trans ih (hP.next hnext)

theorem ReadsOn.room (h : ReadsOn fns cb before after)
    (hroom : HasRoom before) : HasRoom after ∧ before.index ≤ after.index :=
  h.keeps hasRoom_closed hroom

/-- Once the input has ended nothing more is read. -/
theorem ReadsOn.stuck (h : ReadsOn fns cb before after)
    (heof : before.eof = true) : after = before := by
  rcases Relation.ReflTransGen.cases_head h with rfl | ⟨next, hnext, -⟩
  · rfl
  · rw [(bufferNext_more hnext).1] at heof
    cases heof

/-- Where the engine has been already it does not fetch. -/
theorem bufferNext_goTo (hroom : HasRoom middle) (hlive : middle.eof = false)
    (hlt : place < middle.index) :
    Returns (bufferNext fns cb (middle.goTo place))
      (true, middle.goTo (place + 1)) := by
  have hrereads : Rereads middle := ⟨hlive, hroom.fill_le⟩
  have hread := hroom.live hlive
  exact hrereads.next (by omega)

theorem Behind.live (h : Behind fns cb start last place buffer)
    (hlt : place < last.index) : buffer.eof = false := by
  obtain ⟨middle, -, hrest, rfl, -, -, hlive | rfl⟩ := h
  · exact hlive
  · cases heof : middle.eof with
    | false => exact heof
    | true =>
        rw [hrest.stuck heof] at hlt
        exact absurd hlt (Int.lt_irrefl _)

theorem HasRoom.legible (hroom : HasRoom start)
    (hon : ReadsOn fns cb start last) :
    Legible fns cb last.data start.closeDelimiter last.index (last.index + 1)
      (Behind fns cb start last) where
  limit_le := Int.le_add_one (Int.le_refl _)
  bound_le := Int.le_refl _
  item := by
    rintro place b ⟨middle, hfirst, hrest, rfl, hstart, hle, hlive⟩ -
    obtain ⟨hmiddle, -⟩ := hfirst.room hroom
    have hread := hrest.keeps advances_closed
    have hnonneg := hroom.index_nonneg
    have hlt := hmiddle.index_lt
    have hsame : last.data place = middle.data place := by
      cases heof : middle.eof with
      | false =>
          have hfill := hmiddle.live heof
          exact hread.data place (by omega)
      | true => rw [hrest.stuck heof]
    rw [hsame, bufferItem, if_pos ⟨by exact Int.le_trans hnonneg hstart,
      by exact Int.lt_of_le_of_lt hle hlt⟩]
    exact returns_pure_self _
  live := by
    intro place b hat hlt
    rw [bufferEof, hat.live (by omega), Bool.false_and]
  next := by
    intro place b hat hlt
    have hlive := hat.live (by omega)
    obtain ⟨middle, hfirst, hrest, rfl, hstart, hle, -⟩ := hat
    obtain ⟨hmiddle, -⟩ := hfirst.room hroom
    rcases Int.lt_or_eq_of_le hle with hbehind | rfl
    · exact ⟨_, bufferNext_goTo hmiddle hlive hbehind, middle, hfirst, hrest,
        rfl, by omega, by omega, Or.inl hlive⟩
    · rcases Relation.ReflTransGen.cases_head hrest with rfl | ⟨next, hnext, hrest⟩
      · omega
      · have hindex := (bufferNext_more hnext).2
        refine ⟨next, hnext, next, hfirst.tail hnext, hrest, ?_, by omega,
          by omega, Or.inr hindex.symm⟩
        rw [← hindex]
        rfl
  back := by
    rintro place further b after ⟨-, -, -, rfl, hstart, -, -⟩ hat hle hlt
    have hlive := hat.live hlt
    obtain ⟨middle, hfirst, hrest, rfl, -, hfurther, -⟩ := hat
    exact ⟨middle, hfirst, hrest, rfl, hstart, Int.le_trans hle hfurther,
      Or.inl hlive⟩
  closing := by
    rintro place b ⟨middle, hfirst, -, rfl, -, -, -⟩
    exact (hfirst.keeps advances_closed).closeDelimiter

theorem ReadsOn.from_back (h : ReadsOn fns cb (middle.goTo place) after)
    (hroom : HasRoom middle) (hlive : middle.eof = false)
    (hle : place ≤ middle.index) :
    (after = middle.goTo after.index ∧ after.index ≤ middle.index) ∨
      ReadsOn fns cb middle after := by
  induction h with
  | refl => exact Or.inl ⟨rfl, hle⟩
  | @tail b c _ hnext ih =>
      rcases ih with ⟨hback, hbehind⟩ | hon
      · rcases Int.lt_or_eq_of_le hbehind with hlt | heq
        · have hgoes := @bufferNext_goTo _ _ _ fns cb _ _ hroom hlive hlt
          rw [← hback] at hgoes
          cases hgoes.unique hnext
          exact Or.inl ⟨rfl, by exact Int.add_one_le_of_lt hlt⟩
        · rw [heq] at hback
          rw [hback] at hnext
          exact Or.inr (.single hnext)
      · exact Or.inr (hon.tail hnext)

theorem LooksAhead.trans (h : LooksAhead fns cb before buffer)
    (h' : LooksAhead fns cb buffer after) (hroom : HasRoom before) :
    LooksAhead fns cb before after where
  room := h'.room
  le := Int.le_trans h.le h'.le
  eof hended := h'.eof (h.eof hended)
  middle := by
    intro hafter
    have hlive : buffer.eof = false := by
      cases heof : buffer.eof with
      | false => rfl
      | true =>
          rw [h'.eof heof] at hafter
          cases hafter
    obtain ⟨first, hfirst, hback, hle⟩ := h.middle hlive
    obtain ⟨second, hsecond, hback', hle'⟩ := h'.middle hafter
    rw [hback] at hsecond
    have hfirstLive : first.eof = false := by
      rw [hback] at hlive
      exact hlive
    rcases hsecond.from_back (hfirst.room hroom).1 hfirstLive hle with
      ⟨hbehind, hindex⟩ | hon
    · refine ⟨first, hfirst, ?_, Int.le_trans hle' hindex⟩
      rw [hback', hbehind]
      rfl
    · exact ⟨second, hfirst.trans hon, hback', hle'⟩

theorem looksAhead_closed : ReadClosed fns cb fun before after =>
    HasRoom before → LooksAhead fns cb before after where
  refl buffer hroom := ⟨hroom, Int.le_refl _, id,
    fun _ => ⟨buffer, .refl, rfl, Int.le_refl _⟩⟩
  trans hab hbc hroom :=
    (hab hroom).trans (hbc (hab hroom).room) hroom
  next := by
    intro before after more h hroom
    obtain ⟨hafter, hle⟩ := hroom.next h
    have hended := (advances_closed.next h).eof
    refine ⟨hafter, hle, hended, fun hlive => ?_⟩
    cases more with
    | true => exact ⟨after, .single h, rfl, Int.le_refl _⟩
    | false =>
        rw [hended (bufferNext_fails h)] at hlive
        cases hlive
  back := by
    intro before after h hroom
    obtain ⟨hafter, hle, hended, hmiddle⟩ := h hroom
    refine ⟨hafter.goTo hroom.index_nonneg hle, Int.le_refl _, hended, ?_⟩
    intro hlive
    obtain ⟨middle, hon, hback, hindex⟩ := hmiddle hlive
    refine ⟨middle, hon, ?_, Int.le_trans hle hindex⟩
    rw [hback]
    rfl

theorem bufferMatch_readsOn {expected : Bytes} :
    ∀ {buffer : Buffer σ ο τ},
      Returns (bufferMatch fns cb expected buffer) (true, after) →
        ReadsOn fns cb buffer after := by
  induction expected with
  | nil =>
      intro buffer h
      cases returns_pure.mp h
      exact .refl
  | cons c expected ih =>
      intro buffer h
      obtain ⟨item, -, h⟩ := returns_bind.mp h
      split at h
      next =>
        obtain ⟨⟨more, next⟩, hnext, h⟩ := returns_bind.mp h
        cases more with
        | true => exact .head hnext (ih h)
        | false => cases returns_pure.mp h
      next => cases returns_pure.mp h

theorem bufferLookAt_readsOn {expected : Bytes}
    (h : Returns (bufferLookAt fns cb expected buffer) (true, after)) :
    ReadsOn fns cb buffer after := by
  obtain ⟨⟨result, read⟩, hmatch, h⟩ := returns_bind.mp h
  cases result with
  | false => cases returns_pure.mp h
  | true =>
      cases returns_pure.mp h
      exact bufferMatch_readsOn hmatch

/-- An iteration of `parse_name` that goes on appends a byte. -/
theorem parseNameStep_pushes {name name' : NameBlock}
    (h : Returns (parseNameStep fns cb suffix (name, buffer))
      (.inl (name', after))) : ∃ c, name' = name.push c := by
  rw [parseNameStep] at h
  dsimp only at h
  split at h
  next => cases returns_pure.mp h
  next =>
  obtain ⟨⟨suffixed, looked⟩, -, h⟩ := returns_bind.mp h
  cases suffixed with
  | true =>
      obtain ⟨⟨closed, b⟩, -, h⟩ := returns_bind.mp h
      cases returns_pure.mp h
  | false =>
      obtain ⟨⟨closed, b⟩, -, h⟩ := returns_bind.mp h
      cases closed with
      | true => cases returns_pure.mp h
      | false =>
          obtain ⟨c, -, h⟩ := returns_bind.mp h
          obtain ⟨⟨more, b'⟩, -, h⟩ := returns_bind.mp h
          cases more with
          | true =>
              cases returns_pure.mp h
              exact ⟨c, rfl⟩
          | false => cases returns_pure.mp h

theorem parseNameStep_closes {name accepted : NameBlock}
    (h : Returns (parseNameStep fns cb suffix (name, buffer))
      (.inr (some accepted, after))) :
    accepted = name ∧ ∃ looked,
      Returns (bufferLookAtSuffix fns cb suffix buffer)
        (suffix.isSome, looked) ∧
      Returns (bufferLookAt fns cb looked.closeDelimiter looked)
        (true, after) := by
  rw [parseNameStep] at h
  dsimp only at h
  split at h
  next => cases returns_pure.mp h
  next =>
  obtain ⟨⟨suffixed, looked⟩, hsuffix, h⟩ := returns_bind.mp h
  cases suffixed with
  | true =>
      obtain ⟨⟨closed, b⟩, hclose, h⟩ := returns_bind.mp h
      cases closed with
      | false => cases returns_pure.mp h
      | true =>
          cases returns_pure.mp h
          refine ⟨rfl, looked, ?_, hclose⟩
          cases suffix with
          | none => cases returns_pure.mp hsuffix
          | some text => exact hsuffix
  | false =>
      obtain ⟨⟨closed, b⟩, hclose, h⟩ := returns_bind.mp h
      cases closed with
      | false =>
          obtain ⟨c, -, h⟩ := returns_bind.mp h
          obtain ⟨⟨more, b'⟩, -, h⟩ := returns_bind.mp h
          cases more <;> cases returns_pure.mp h
      | true =>
          cases suffix with
          | some text => cases returns_pure.mp h
          | none =>
              cases returns_pure.mp h
              exact ⟨rfl, looked, hsuffix, hclose⟩

/-- A name that is accepted stands in the text that can be read on. -/
theorem parseName_ahead {name : NameBlock} (hroom : HasRoom start)
    (hclosing : start.closeDelimiter ≠ [])
    (h : Returns (parseName fns cb suffix start) (some name, after)) :
    ∃ last, ReadsOn fns cb start last ∧ after.index ≤ last.index ∧
      NameAt last.data suffix start.closeDelimiter start.index name.bytes
        after.index := by
  have htext := fun data => @parseName_text _ _ _ fns cb _ _ data _ _ hroom
    hclosing h
  obtain ⟨skipped, hskip, h⟩ := returns_bind.mp h
  obtain ⟨⟨result, read⟩, hloop, h⟩ := returns_bind.mp h
  cases result with
  | none => cases returns_pure.mp h
  | some accepted =>
      cases returns_pure.mp h
      obtain ⟨⟨block, b⟩, hreach, hexit⟩ := hloop.loop_leaves
      obtain ⟨-, looked, hsuffix, hclose⟩ := parseNameStep_closes hexit
      have hsteps : HasRoom skipped → LooksAhead fns cb skipped b :=
        hreach.invariant
          (I := fun s => HasRoom skipped → LooksAhead fns cb skipped s.2)
          (fun s s' hs hstep hskipped => (hs hskipped).trans
            (looksAhead_closed.parseNameStep hstep (hs hskipped).room) hskipped)
          (looksAhead_closed.refl _)
      have hahead : LooksAhead fns cb start looked := by
        have hstart := looksAhead_closed.skipBlanks hskip hroom
        have hb := hstart.trans (hsteps hstart.room) hroom
        exact hb.trans (looksAhead_closed.lookAtSuffix hsuffix hb.room) hroom
      have hkept : looked.closeDelimiter = start.closeDelimiter := by
        have hsteps : Advances skipped b :=
          hreach.invariant (I := fun s => Advances skipped s.2)
            (fun s s' hs hstep =>
              hs.trans (advances_closed.parseNameStep hstep))
            (Advances.refl _)
        exact ((advances_closed.skipBlanks hskip).trans (hsteps.trans
          (advances_closed.lookAtSuffix hsuffix))).closeDelimiter
      have hlive := bufferLookAt_live (hkept ▸ hclosing) hclose
      obtain ⟨middle, hon, hback, hle⟩ := hahead.middle hlive
      have hrest := bufferLookAt_readsOn hclose
      rw [hback] at hrest
      have hmiddleLive : middle.eof = false := by
        rw [hback] at hlive
        exact hlive
      rcases hrest.from_back (hon.room hroom).1 hmiddleLive hle with
        ⟨hbehind, hindex⟩ | hrest
      · refine ⟨middle, hon, hindex, htext _ ?_⟩
        rw [hbehind]
        exact fun _ _ => rfl
      · exact ⟨after, hon.trans hrest, Int.le_refl _, htext _ fun _ _ => rfl⟩

end

/-- A byte stored in the block of a name, and the size of the block at that
time. -/
structure NameStore where
  offset : Nat
  capacity : Nat
deriving Repr, DecidableEq

def NameBlock.store (name : NameBlock) (offset : Nat) :
    Checked NameStore Unit :=
  Checked.guard (offset < name.capacity) ⟨offset, name.capacity⟩

/-- `name[n++] = c`, after a full block was doubled. -/
def NameBlock.pushChecked (name : NameBlock) (c : UInt8) :
    Checked NameStore NameBlock := do
  (name.push c).store name.bytes.length
  pure (name.push c)

/-- The body of the loop of `parse_name`; a byte is stored before
`buffer_next` is called. -/
def parseNameStepStoring (fns : StreamFns τ) (cb : Callback σ ο τ)
    (suffix : Option Bytes) (s : NameBlock × Buffer σ ο τ) :
    Checked NameStore
      ((NameBlock × Buffer σ ο τ) ⊕ (Option NameBlock × Buffer σ ο τ)) :=
  let (name, buffer) := s
  if bufferEof buffer then pure (.inr (none, buffer))
  else do
    let (suffixed, buffer) ← bufferLookAtSuffix fns cb suffix buffer
    if suffixed then
      let (closed, buffer) ← bufferLookAt fns cb buffer.closeDelimiter buffer
      pure (.inr (if closed then some name else none, buffer))
    else
      let (closed, buffer) ← bufferLookAt fns cb buffer.closeDelimiter buffer
      if closed then
        pure (.inr (if suffix = none then some name else none, buffer))
      else
        let c ← bufferItem buffer
        let name ← name.pushChecked c
        let (more, buffer) ← bufferNext fns cb buffer
        if more then pure (.inl (name, buffer))
        else pure (.inr (none, buffer))

/-- The end of `parse_name`: `result[n] = 0`, where there is a result. -/
def NameBlock.terminate (parsed : Option NameBlock × Buffer σ ο τ) :
    Checked NameStore (Option NameBlock × Buffer σ ο τ) :=
  match parsed.1 with
  | some name => do
      name.store name.bytes.length
      pure parsed
  | none => pure parsed

/-- `parse_name` -/
def parseNameStoring (fns : StreamFns τ) (cb : Callback σ ο τ)
    (suffix : Option Bytes) (buffer : Buffer σ ο τ) :
    Checked NameStore (Option NameBlock × Buffer σ ο τ) := do
  let start ← bufferSkipBlanks fns cb buffer
  let (result, after) ← Checked.loop (parseNameStepStoring fns cb suffix)
    ({ bytes := [], capacity := 16 }, start)
  NameBlock.terminate (match result with
    | some name => (some name, after)
    | none => (none, after.reject suffix buffer.index))

/-- The block is as large as the doublings made it, and its last doubling was
needed. -/
structure NameBlock.Sized (name : NameBlock) : Prop where
  length_le : name.bytes.length ≤ name.capacity
  doubled : ∃ k, name.capacity = 16 * 2 ^ k ∧
    (k = 0 ∨ name.capacity < 2 * name.bytes.length)

theorem blockSize_ne_zero (k : Nat) : 16 * 2 ^ k ≠ 0 :=
  Nat.ne_of_gt (Nat.mul_pos (by decide) (Nat.two_pow_pos k))

theorem NameBlock.Sized.full_iff {name : NameBlock} (h : name.Sized) :
    name.bytes.length = name.capacity ↔
      ∃ k, name.bytes.length = 16 * 2 ^ k := by
  obtain ⟨hle, k, hk, hneeded⟩ := h
  constructor
  · exact fun hfull => ⟨k, hfull.trans hk⟩
  · rintro ⟨j, hj⟩
    rcases Nat.lt_or_ge j k with hlt | hge
    · -- a smaller size would not have been doubled to this one
      have hpow : 2 ^ (j + 1) ≤ 2 ^ k := Nat.pow_le_pow_right (by decide) hlt
      rw [Nat.pow_succ] at hpow
      omega
    · have hpow : 2 ^ k ≤ 2 ^ j := Nat.pow_le_pow_right (by decide) hge
      omega

theorem NameBlock.Sized.push {name : NameBlock} (h : name.Sized) (c : UInt8) :
    (name.push c).Sized ∧ name.bytes.length < (name.push c).capacity := by
  obtain ⟨hle, k, hk, hneeded⟩ := h
  have hpos : 0 < 2 ^ k := Nat.two_pow_pos k
  have hlength : (name.push c).bytes.length = name.bytes.length + 1 :=
    List.length_append
  by_cases hfull : name.capacity = name.bytes.length
  · have hcapacity : (name.push c).capacity = name.capacity * 2 :=
      if_pos hfull
    refine ⟨⟨by omega, k + 1, ?_, Or.inr (by omega)⟩, by omega⟩
    rw [hcapacity, hk, Nat.pow_succ, Nat.mul_assoc]
  · have hcapacity : (name.push c).capacity = name.capacity := if_neg hfull
    refine ⟨⟨by omega, k, hcapacity.trans hk, ?_⟩, by omega⟩
    rcases hneeded with hzero | hlt
    · exact Or.inl hzero
    · exact Or.inr (by omega)

theorem NameBlock.Sized.push_clean {name : NameBlock} (h : name.Sized)
    (c : UInt8) : Checked.Clean (name.pushChecked c) (pure (name.push c)) :=
  Checked.Clean.guard (h.push c).2 (Checked.Clean.pure _)

section

variable {fns : StreamFns τ} {cb : Callback σ ο τ}
  {buffer after : Buffer σ ο τ} {suffix : Option Bytes}

theorem NameBlock.Sized.step_clean {name : NameBlock} (h : name.Sized) :
    Checked.Clean (parseNameStepStoring fns cb suffix (name, buffer))
      (parseNameStep fns cb suffix (name, buffer)) := by
  rw [parseNameStepStoring, parseNameStep]
  dsimp only
  split
  next => exact Checked.Clean.pure _
  next =>
    refine (Checked.Clean.lift _).bind ?_
    rintro ⟨suffixed, looked⟩ -
    cases suffixed with
    | true => exact (Checked.Clean.lift _).bind fun r _ => Checked.Clean.pure _
    | false =>
        refine (Checked.Clean.lift _).bind ?_
        rintro ⟨closed, looked'⟩ -
        cases closed with
        | true => exact Checked.Clean.pure _
        | false =>
            refine (Checked.Clean.lift _).bind fun c _ => ?_
            refine (h.push_clean c).bind_pure ?_
            refine (Checked.Clean.lift _).bind ?_
            rintro ⟨more, next⟩ -
            cases more <;> exact Checked.Clean.pure _

theorem NameBlock.Sized.step {name name' : NameBlock} (h : name.Sized)
    (hstep : Returns (parseNameStep fns cb suffix (name, buffer))
      (.inl (name', after))) : name'.Sized := by
  obtain ⟨c, rfl⟩ := parseNameStep_pushes hstep
  exact (h.push c).1

theorem NameBlock.sized_empty :
    NameBlock.Sized { bytes := [], capacity := 16 } :=
  ⟨Nat.zero_le _, 0, rfl, Or.inl rfl⟩

theorem parseName_sized {name : NameBlock}
    (h : Returns (parseName fns cb suffix buffer) (some name, after)) :
    name.Sized := by
  obtain ⟨start, -, h⟩ := returns_bind.mp h
  obtain ⟨⟨result, read⟩, hloop, h⟩ := returns_bind.mp h
  cases result with
  | none => cases returns_pure.mp h
  | some accepted =>
      cases returns_pure.mp h
      obtain ⟨⟨block, b⟩, hreach, hexit⟩ := hloop.loop_leaves
      obtain ⟨rfl, -⟩ := parseNameStep_closes hexit
      exact hreach.invariant (I := fun s => s.1.Sized)
        (fun s s' hs hstep => hs.step hstep) NameBlock.sized_empty

/-- What `parse_name` comes to when its stores are checked: the NUL is stored
after the name. -/
def terminated (parsed : Option NameBlock × Buffer σ ο τ) :
    Except NameStore (Option NameBlock × Buffer σ ο τ) :=
  match parsed.1 with
  | some name =>
      if name.bytes.length < name.capacity then .ok parsed
      else .error ⟨name.bytes.length, name.capacity⟩
  | none => .ok parsed

theorem terminate_agrees (parsed : Option NameBlock × Buffer σ ο τ) :
    Agree (fun r p => r = terminated p) (NameBlock.terminate parsed).run
      (pure parsed) := by
  obtain ⟨result, after⟩ := parsed
  cases result with
  | none => exact Agree.pure rfl
  | some name =>
      by_cases hroom : name.bytes.length < name.capacity
      · have hchecked : NameBlock.terminate (some name, after) =
            pure (some name, after) := by
          dsimp only [NameBlock.terminate, NameBlock.store, Checked.guard]
          rw [if_pos hroom]
          rfl
        rw [hchecked]
        exact Agree.pure (if_pos hroom).symm
      · have hchecked : NameBlock.terminate (some name, after) =
            throw ⟨name.bytes.length, name.capacity⟩ := by
          dsimp only [NameBlock.terminate, NameBlock.store, Checked.guard]
          rw [if_neg hroom]
          rfl
        rw [hchecked]
        exact Agree.pure (if_neg hroom).symm

/-- The bytes of a name are stored inside its block; what becomes of the NUL
is known from the name alone. -/
theorem parseNameStoring_agrees :
    Agree (fun r parsed => r = terminated parsed)
      (parseNameStoring fns cb suffix buffer).run
      (parseName fns cb suffix buffer) := by
  have hloop : ∀ start : Buffer σ ο τ,
      Checked.Clean (Checked.loop (parseNameStepStoring fns cb suffix)
        ({ bytes := [], capacity := 16 }, start))
        (Proc.loop (parseNameStep fns cb suffix)
          ({ bytes := [], capacity := 16 }, start)) := fun start =>
    Checked.Clean.loop (I := fun s => s.1.Sized)
      (fun s hs => hs.step_clean) (fun s s' hs hstep => hs.step hstep)
      NameBlock.sized_empty
  refine Agree.bind (Checked.Clean.lift (bufferSkipBlanks fns cb buffer)) ?_
  rintro r start ⟨skipped, rfl, rfl⟩
  refine Agree.bind (hloop skipped) ?_
  rintro r ⟨result, read⟩ ⟨ended, rfl, rfl⟩
  cases result with
  | none => exact terminate_agrees (none, read.reject suffix buffer.index)
  | some name => exact terminate_agrees (some name, read)

theorem parseNameStoring_faults {store : NameStore}
    (h : Returns (parseNameStoring fns cb suffix buffer).run (.error store)) :
    ∃ name after, Returns (parseName fns cb suffix buffer) (some name, after) ∧
      name.bytes.length = name.capacity := by
  obtain ⟨⟨result, after⟩, hparse, hstore⟩ := parseNameStoring_agrees.forth _ h
  cases result with
  | none => cases hstore
  | some name =>
      refine ⟨name, after, hparse, ?_⟩
      rw [terminated] at hstore
      dsimp only at hstore
      split at hstore
      next => cases hstore
      next hfull =>
        exact Nat.le_antisymm (parseName_sized hparse).length_le
          (Nat.not_lt.mp hfull)

theorem parseName_unclosed {name : NameBlock} (hroom : HasRoom buffer)
    (hclosing : buffer.closeDelimiter = [])
    (h : Returns (parseName fns cb suffix buffer) (some name, after)) :
    name.bytes = [] := by
  obtain ⟨start, hskip, h⟩ := returns_bind.mp h
  obtain ⟨⟨result, read⟩, hloop, h⟩ := returns_bind.mp h
  cases result with
  | none => cases returns_pure.mp h
  | some accepted =>
      cases returns_pure.mp h
      have hempty : start.closeDelimiter = [] :=
        (advances_closed.skipBlanks hskip).closeDelimiter.trans hclosing
      have hstart := (hasRoom_closed.skipBlanks hskip hroom).1
      obtain ⟨block, hreach, hexit⟩ := hloop.loop_leaves
      rcases Relation.ReflTransGen.cases_head hreach with rfl | ⟨next, hnext, -⟩
      · obtain ⟨rfl, -⟩ := parseNameStep_closes hexit
        rfl
      · obtain ⟨-, -, -, hmore⟩ := parseNameStep_goes hstart hnext
          (fun _ _ => rfl)
        rw [hempty] at hmore
        exact absurd (Or.inl trivial) hmore

/-- A name stands at the place of the buffer, in the text that can be read on
from there: after blanks, up to the first suffix or closing delimiter, and
these are complete. -/
def NameAhead (fns : StreamFns τ) (cb : Callback σ ο τ)
    (suffix : Option Bytes) (buffer : Buffer σ ο τ) (name : Bytes) : Prop :=
  ∃ last stop, ReadsOn fns cb buffer last ∧ stop ≤ last.index ∧
    NameAt last.data suffix buffer.closeDelimiter buffer.index name stop

/-- `parse_name` hands out the names that stand in the text. -/
theorem parseName_accepts_iff (hroom : HasRoom buffer)
    (hclosing : buffer.closeDelimiter ≠ []) {text : Bytes} :
    (∃ name after, Returns (parseName fns cb suffix buffer)
      (some name, after) ∧ name.bytes = text) ↔
      NameAhead fns cb suffix buffer text := by
  constructor
  · rintro ⟨name, after, hparse, rfl⟩
    obtain ⟨last, hon, hle, hname⟩ := parseName_ahead hroom hclosing hparse
    exact ⟨last, after.index, hon, hle, hname⟩
  · rintro ⟨last, stop, hon, hle, hname⟩
    have hat : Behind fns cb buffer last buffer.index buffer :=
      ⟨buffer, .refl, hon, rfl, Int.le_refl _, Int.le_refl _, Or.inr rfl⟩
    obtain ⟨name, after, hbytes, hparse, -⟩ := (hroom.legible hon).parses
      hname hat hclosing (Int.lt_add_one_of_le hle)
    exact ⟨name, after, hparse, hbytes⟩

theorem nameAhead_nil {name : Bytes} (hclosing : buffer.closeDelimiter = [])
    (h : NameAhead fns cb suffix buffer name) : name = [] := by
  obtain ⟨last, stop, -, -, first, -, htext⟩ := h
  rw [hclosing] at htext
  cases htext with
  | ended => rfl
  | byte hmore => exact absurd (Or.inl trivial) hmore

/-- Every byte that `parse_name` stores, the NUL included, is inside the block
of the name exactly when no name stands there that fills its block. -/
theorem name_stores_inside_iff (fns : StreamFns τ) (cb : Callback σ ο τ)
    (suffix : Option Bytes) {buffer : Buffer σ ο τ} (hroom : HasRoom buffer) :
    (∀ store, ¬ Returns (parseNameStoring fns cb suffix buffer).run
      (.error store)) ↔
    ∀ name, NameAhead fns cb suffix buffer name →
      ∀ k, name.length ≠ 16 * 2 ^ k := by
  constructor
  · intro hinside text hahead k hlength
    have hclosing : buffer.closeDelimiter ≠ [] := by
      intro hclosing
      rw [nameAhead_nil hclosing hahead] at hlength
      exact blockSize_ne_zero k hlength.symm
    obtain ⟨name, after, hparse, rfl⟩ :=
      (parseName_accepts_iff hroom hclosing).mpr hahead
    have hfull := (parseName_sized hparse).full_iff.mpr ⟨k, hlength⟩
    obtain ⟨r, hr, rfl⟩ := parseNameStoring_agrees.back _ hparse
    refine hinside ⟨name.bytes.length, name.capacity⟩ ?_
    have hoverrun : terminated (some name, after) =
        .error ⟨name.bytes.length, name.capacity⟩ :=
      if_neg (Nat.not_lt.mpr (Nat.le_of_eq hfull.symm))
    rwa [hoverrun] at hr
  · intro hnames store hstore
    obtain ⟨name, after, hparse, hfull⟩ := parseNameStoring_faults hstore
    obtain ⟨k, hk⟩ := (parseName_sized hparse).full_iff.mp hfull
    by_cases hclosing : buffer.closeDelimiter = []
    · rw [parseName_unclosed hroom hclosing hparse] at hk
      exact blockSize_ne_zero k hk.symm
    · exact hnames _ ((parseName_accepts_iff hroom hclosing).mp
        ⟨name, after, hparse, rfl⟩) k hk

theorem Rendering.tag_room {env : σ} {input : InputStream τ}
    {data : Int → UInt8} {c : UInt8} {start : Buffer σ ο τ}
    (h : Rendering fns cb env input data buffer)
    (htag : buffer.TagAt fns cb c start) :
    HasRoom start ∧ HasRoom (start.goTo (start.index - 1)) := by
  obtain ⟨-, opened, hlook, -, -, hnext⟩ := htag
  have hbuffer := h.moored.room
  obtain ⟨hopened, hle⟩ := hasRoom_closed.lookAt hlook hbuffer
  have hindex := (bufferNext_more hnext).2
  have hnonneg := hbuffer.index_nonneg
  have hstart := (hopened.next hnext).1
  exact ⟨hstart, hstart.goTo (by omega) (by omega)⟩

end

/-- The engine after one more `buffer_next`. -/
def nextBuffer (buffer : Buffer Unit Unit Empty) : Buffer Unit Unit Empty :=
  match (bufferNext noStreams pairLists buffer).run 1 with
  | .ok (_, after) => after
  | .error _ => buffer

def templateBuffer (template : String) : Buffer Unit Unit Empty :=
  newBuffer () (newInputStreamFromString (chars template)) fun _ => 0

/-- `{{#aaaaaaaaaaaaaaaa}}.` opens a section whose name has 16 bytes; its NUL
is stored after the block. -/
theorem name_of_sixteen_stores_outside :
    ∃ buffer start : Buffer Unit Unit Empty,
      Rendering noStreams pairLists ()
        (newInputStreamFromString (chars "\x7b\x7b#aaaaaaaaaaaaaaaa\x7d\x7d."))
        (fun _ => 0) buffer ∧
      buffer.TagAt noStreams pairLists (ascii '#') start ∧
      Returns (parseNameStoring noStreams pairLists none start).run
        (.error ⟨16, 16⟩) := by
  let first := nextBuffer (templateBuffer "\x7b\x7b#aaaaaaaaaaaaaaaa\x7d\x7d.")
  let opened := nextBuffer (nextBuffer first)
  refine ⟨first, nextBuffer opened, ⟨first, ⟨1, rfl⟩, Reaches.refl _⟩,
    ⟨rfl, opened, ⟨4, rfl⟩, rfl, ⟨4, rfl⟩, ⟨4, rfl⟩⟩, ?_⟩
  have hrun : ((parseNameStoring noStreams pairLists none
      (nextBuffer opened)).run.run 30).map (fun r => r.map fun _ => ()) =
        .ok (.error ⟨16, 16⟩) := by
    decide +kernel
  exact Checked.returns_fault hrun

/-- `{{#l}}.` opens a section whose name has one byte. -/
theorem names_of_lists_store_inside :
    ∃ start : Buffer Unit Unit Empty,
      ((∀ store, ¬ Returns (parseNameStoring noStreams pairLists none start).run
        (.error store)) ↔
      ∀ name, NameAhead noStreams pairLists none start name →
        ∀ k, name.length ≠ 16 * 2 ^ k) := by
  let first := nextBuffer (templateBuffer "{{#l}}.")
  let opened := nextBuffer (nextBuffer first)
  have hrendering : Rendering noStreams pairLists ()
      (newInputStreamFromString (chars "{{#l}}.")) (fun _ => 0) first :=
    ⟨first, ⟨1, rfl⟩, Reaches.refl _⟩
  have htag : first.TagAt noStreams pairLists (ascii '#') (nextBuffer opened) :=
    ⟨rfl, opened, ⟨4, rfl⟩, rfl, ⟨4, rfl⟩, ⟨4, rfl⟩⟩
  exact ⟨_, name_stores_inside_iff noStreams pairLists none
    (hrendering.tag_room htag).1⟩

end Libcad
