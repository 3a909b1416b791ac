/-
What the reading functions of the engine do to the place of the buffer, for
every input that ends and every callback, when nothing is included.
-/
import Libcad.Settles
import Libcad.Stache

namespace Libcad

open Proc

variable {σ ο τ : Type}

/-- After at most `k` bytes the stream is at its end or fails to go on. -/
def InputStream.EndsIn (fns : StreamFns τ) : Nat → InputStream τ → Prop
  | 0, s => s.item fns = eof ∨ (s.next fns).1 ≠ 0
  | k + 1, s => s.item fns = eof ∨ (s.next fns).1 ≠ 0 ∨
      InputStream.EndsIn fns k (s.next fns).2

def InputStream.Ends (fns : StreamFns τ) (s : InputStream τ) : Prop :=
  ∃ k, s.EndsIn fns k

/-- The stream has these bytes until it ends or fails to go on. -/
def InputStream.Gives (fns : StreamFns τ) : Bytes → InputStream τ → Prop
  | [], s => s.item fns = eof
  | c :: text, s => s.item fns ≠ eof ∧ intToChar (s.item fns) = c ∧
      if (s.next fns).1 = 0 then
        InputStream.Gives fns text (s.next fns).2
      else text = []

theorem InputStream.Gives.ends {fns : StreamFns τ} {text : Bytes} :
    ∀ {s : InputStream τ}, s.Gives fns text → s.Ends fns := by
  induction text with
  | nil => exact fun h => ⟨0, Or.inl h⟩
  | cons c text ih =>
      intro s h
      obtain ⟨-, -, hrest⟩ := h
      split at hrest
      next =>
        obtain ⟨k, hk⟩ := ih hrest
        exact ⟨k + 1, Or.inr (Or.inr hk)⟩
      next hfails => exact ⟨0, Or.inr hfails⟩

theorem InputStream.Delivers.gives {fns : StreamFns τ} {text : Bytes} :
    ∀ {s : InputStream τ}, s.Delivers fns text → s.Gives fns text := by
  induction text with
  | nil => exact fun h => h
  | cons c text ih =>
      intro s h
      obtain ⟨hitem, hc, hnext, hrest⟩ := h
      refine ⟨?_, ?_, ?_⟩
      · rw [hitem, ne_eq, charToInt_eq_eof_iff]
        exact hc
      · rw [hitem, intToChar_charToInt]
      · rw [if_pos hnext]
        exact ih hrest

/-- The buffer stands at a byte it has read, or at the end, and at most `size`
bytes can ever be read into it; nothing is included. -/
structure Confined (fns : StreamFns τ) (size : Int) (buffer : Buffer σ ο τ) :
    Prop where
  partials : buffer.partials = []
  index_nonneg : 0 ≤ buffer.index
  index_le : buffer.index ≤ buffer.fill
  index_lt : buffer.index < buffer.capacity
  fill_le_capacity : buffer.fill ≤ buffer.capacity
  fill_le : buffer.fill ≤ size
  live : buffer.eof = false → buffer.index < buffer.fill ∧
    ∃ k : Nat, buffer.input.EndsIn fns k ∧ buffer.fill + k < size

/-- The fields that reading leaves alone. -/
structure Kept (before after : Buffer σ ο τ) : Prop where
  env : after.env = before.env
  loops : after.loops = before.loops
  openDelimiter : after.openDelimiter = before.openDelimiter
  closeDelimiter : after.closeDelimiter = before.closeDelimiter

theorem Kept.refl (buffer : Buffer σ ο τ) : Kept buffer buffer :=
  ⟨rfl, rfl, rfl, rfl⟩

theorem Kept.trans {a b c : Buffer σ ο τ} (hab : Kept a b) (hbc : Kept b c) :
    Kept a c :=
  ⟨hbc.env.trans hab.env, hbc.loops.trans hab.loops,
    hbc.openDelimiter.trans hab.openDelimiter,
    hbc.closeDelimiter.trans hab.closeDelimiter⟩

/-- The buffer has been read on, and stands at a place. -/
structure ReadTo (fns : StreamFns τ) (size : Int)
    (before after : Buffer σ ο τ) (index : Int) : Prop where
  confined : Confined fns size after
  kept : Kept before after
  index_eq : after.index = index

section

variable {fns : StreamFns τ} {cb : Callback σ ο τ} {size : Int}
  {buffer : Buffer σ ο τ} {excuse : Prop}

theorem Confined.rewind {after : Buffer σ ο τ} (h : Confined fns size after)
    {index : Int} (hnonneg : 0 ≤ index) (hle : index ≤ after.index)
    (error : String) (rejections : List Rejection) :
    Confined fns size { after with
      index := index, error := error, rejections := rejections } where
  partials := h.partials
  index_nonneg := hnonneg
  index_le := Int.le_trans hle h.index_le
  index_lt := Int.lt_of_le_of_lt hle h.index_lt
  fill_le_capacity := h.fill_le_capacity
  fill_le := h.fill_le
  live he := ⟨Int.lt_of_le_of_lt hle (h.live he).1, (h.live he).2⟩

theorem Confined.item (h : Confined fns size buffer) :
    Settles excuse (bufferItem buffer) fun _ => True := by
  rw [bufferItem, if_pos ⟨h.index_nonneg, h.index_lt⟩]
  exact Settles.pure trivial

/-- The part of `buffer_next` that fetches a byte. -/
theorem bufferRead_confined {k : Nat} (hpartials : buffer.partials = [])
    (hnonneg : 0 ≤ buffer.index) (hindex : buffer.index = buffer.fill)
    (hfill : buffer.fill < buffer.capacity)
    (hends : buffer.input.EndsIn fns k) (hsize : buffer.fill + k < size) :
    ReadTo fns size buffer (bufferRead fns buffer) buffer.index := by
  rw [bufferRead]
  dsimp only
  split
  next =>
    exact ⟨⟨hpartials, hnonneg, Int.le_of_eq hindex, hindex ▸ hfill,
      Int.le_of_lt hfill, by dsimp only; omega, nofun⟩, ⟨rfl, rfl, rfl, rfl⟩,
      rfl⟩
  next hitem =>
    refine ⟨⟨hpartials, hnonneg, ?_, ?_, ?_, ?_, ?_⟩, ⟨rfl, rfl, rfl, rfl⟩, rfl⟩
    · dsimp only [Buffer.put]
      omega
    · dsimp only [Buffer.put]
      omega
    · dsimp only [Buffer.put]
      omega
    · dsimp only [Buffer.put]
      omega
    · intro he
      have hcode : (buffer.input.next fns).1 = 0 := by
        simpa using he
      dsimp only [Buffer.put]
      refine ⟨by omega, ?_⟩
      cases k with
      | zero =>
          rcases hends with h | h
          · exact absurd h hitem
          · exact absurd hcode h
      | succ k =>
          rcases hends with h | h | h
          · exact absurd h hitem
          · exact absurd hcode h
          · exact ⟨k, h, by omega⟩

theorem Buffer.grow_eq (hcapacity : buffer.fill ≤ buffer.capacity)
    (hpos : 0 < buffer.capacity) :
    ∃ capacity, buffer.grow = { buffer with capacity := capacity } ∧
      buffer.fill < capacity := by
  rw [Buffer.grow]
  split
  next hfull => exact ⟨_, rfl, by omega⟩
  next hroom => exact ⟨buffer.capacity, rfl, by omega⟩

theorem bufferFetch_nil (h : buffer.partials = []) :
    bufferFetch fns cb buffer = pure (bufferRead fns buffer) := by
  rw [bufferFetch, h]

/-- `buffer_next` moves by one byte, or fails after the last one. -/
theorem bufferNext_settles (hpartials : buffer.partials = [])
    (hnonneg : -1 ≤ buffer.index)
    (hcapacity : buffer.fill ≤ buffer.capacity) (hpos : 0 < buffer.capacity)
    (hlive : buffer.eof = false → buffer.index < buffer.fill ∧
      ∃ k : Nat, buffer.input.EndsIn fns k ∧ buffer.fill + k < size) :
    Settles excuse (bufferNext fns cb buffer) fun r =>
      if r.1 then
        ReadTo fns size buffer r.2 (buffer.index + 1) ∧ buffer.eof = false
      else r.2 = { buffer with error := "Buffer end reached" } ∧
        buffer.eof = true := by
  rw [bufferNext]
  by_cases hend : buffer.eof = true
  · rw [if_pos hend]
    exact Settles.pure ⟨rfl, hend⟩
  · have he : buffer.eof = false := Bool.not_eq_true _ ▸ hend
    obtain ⟨hlt, k, hends, hsize⟩ := hlive he
    rw [if_neg hend]
    dsimp only
    split
    next hat =>
      obtain ⟨capacity, hgrow, hroom⟩ := @Buffer.grow_eq σ ο τ
        { buffer with index := buffer.index + 1 } hcapacity hpos
      have hfetch := fun b => @bufferFetch_nil σ ο τ fns cb b
      rw [hgrow, hfetch _ (show Buffer.partials { buffer with
        index := buffer.index + 1, capacity := capacity } = [] from hpartials)]
      refine Settles.bind (Settles.pure ?_) fun _ _ h => Settles.pure h
      have hread := @bufferRead_confined _ _ _ fns size { buffer with
        index := buffer.index + 1, capacity := capacity } k hpartials
        (by dsimp only; omega) hat hroom hends hsize
      exact ⟨⟨hread.confined, ⟨hread.kept.env, hread.kept.loops,
        hread.kept.openDelimiter, hread.kept.closeDelimiter⟩,
        hread.index_eq⟩, he⟩
    next hat =>
      refine Settles.pure ⟨⟨⟨hpartials, ?_, ?_, ?_, hcapacity, ?_, ?_⟩,
        ⟨rfl, rfl, rfl, rfl⟩, rfl⟩, he⟩
      all_goals dsimp only
      · omega
      · omega
      · omega
      · omega
      · exact fun _ => ⟨by omega, k, hends, hsize⟩

theorem Confined.next (h : Confined fns size buffer) :
    Settles excuse (bufferNext fns cb buffer) fun r =>
      if r.1 then
        ReadTo fns size buffer r.2 (buffer.index + 1) ∧ buffer.eof = false
      else r.2 = { buffer with error := "Buffer end reached" } ∧
        buffer.eof = true := by
  have hnonneg := h.index_nonneg
  have hlt := h.index_lt
  exact bufferNext_settles h.partials (by omega) h.fill_le_capacity (by omega)
    h.live

/-- The loop of `buffer_look_at` reads on while it finds what it expects. -/
theorem Confined.match (h : Confined fns size buffer) (expected : Bytes) :
    Settles excuse (bufferMatch fns cb expected buffer) fun r =>
      ∃ index, ReadTo fns size buffer r.2 index ∧ buffer.index ≤ index ∧
        (r.1 = true → index = buffer.index + expected.length) := by
  induction expected generalizing buffer with
  | nil =>
      exact Settles.pure ⟨buffer.index, ⟨h, Kept.refl _, rfl⟩, Int.le_refl _,
        fun _ => by simp⟩
  | cons c expected ih =>
      rw [bufferMatch]
      refine h.item.bind fun item _ _ => ?_
      split
      next =>
        refine h.next.bind ?_
        rintro ⟨more, after⟩ _ hnext
        cases more with
        | true =>
            obtain ⟨hread, -⟩ := hnext
            refine (ih hread.confined).mono ?_
            rintro r _ ⟨index, hread', hle, hfound⟩
            have hindex : after.index = buffer.index + 1 := hread.index_eq
            have hle : after.index ≤ index := hle
            refine ⟨index, ⟨hread'.confined, hread.kept.trans hread'.kept,
              hread'.index_eq⟩, by omega, fun htrue => ?_⟩
            have hfound : index = after.index + expected.length :=
              hfound htrue
            rw [hfound, List.length_cons]
            push_cast
            omega
        | false =>
            obtain ⟨rfl, -⟩ := hnext
            exact Settles.pure ⟨buffer.index, ⟨h.rewind h.index_nonneg
              (Int.le_refl _) _ _, ⟨rfl, rfl, rfl, rfl⟩, rfl⟩, Int.le_refl _,
              nofun⟩
      next =>
        exact Settles.pure ⟨buffer.index, ⟨h, Kept.refl _, rfl⟩,
          Int.le_refl _, nofun⟩

/-- `buffer_look_at` stands after what it found, or where it was. -/
theorem Confined.lookAt (h : Confined fns size buffer) (expected : Bytes) :
    Settles excuse (bufferLookAt fns cb expected buffer) fun r =>
      ReadTo fns size buffer r.2
        (if r.1 then buffer.index + expected.length else buffer.index) := by
  rw [bufferLookAt]
  refine (h.match expected).bind ?_
  rintro ⟨found, after⟩ _ ⟨index, hread, hle, hfound⟩
  have hindex : after.index = index := hread.index_eq
  cases found with
  | true => exact Settles.pure (hfound rfl ▸ hread)
  | false =>
      exact Settles.pure ⟨hread.confined.rewind h.index_nonneg
        (by dsimp only; omega) _ _, ⟨hread.kept.env, hread.kept.loops, hread.kept.openDelimiter,
          hread.kept.closeDelimiter⟩, rfl⟩

/-- The buffer stands at or after a place. -/
def ReadOn (fns : StreamFns τ) (size : Int) (before after : Buffer σ ο τ) :
    Prop :=
  ReadTo fns size before after after.index ∧ before.index ≤ after.index

theorem Confined.readOn (h : Confined fns size buffer) :
    ReadOn fns size buffer buffer :=
  ⟨⟨h, Kept.refl _, rfl⟩, Int.le_refl _⟩

theorem ReadTo.readOn {after : Buffer σ ο τ} {index : Int}
    (h : ReadTo fns size buffer after index) (hle : buffer.index ≤ index) :
    ReadOn fns size buffer after :=
  ⟨⟨h.confined, h.kept, rfl⟩, h.index_eq.symm ▸ hle⟩

theorem ReadOn.trans {a b c : Buffer σ ο τ} (hab : ReadOn fns size a b)
    (hbc : ReadOn fns size b c) : ReadOn fns size a c :=
  ⟨⟨hbc.1.confined, hab.1.kept.trans hbc.1.kept, rfl⟩,
    Int.le_trans hab.2 hbc.2⟩

/-- How much is left to read from the place on. -/
def room (size : Int) (buffer : Buffer σ ο τ) : Nat :=
  (size - buffer.index).toNat

theorem Confined.room_lt {after : Buffer σ ο τ} (h : Confined fns size after)
    (hlt : buffer.index < after.index) : room size after < room size buffer := by
  have hle := h.index_le
  have hsize := h.fill_le
  rw [room, room]
  omega

theorem Confined.skipBlanks (h : Confined fns size buffer) :
    Settles excuse (bufferSkipBlanks fns cb buffer)
      (ReadOn fns size buffer) := by
  refine Settles.loop (I := ReadOn fns size buffer) (room size) ?_ h.readOn
  intro s hs
  rw [skipBlanksStep]
  split
  next => exact Settles.pure hs
  next =>
    refine hs.1.confined.item.bind fun c _ _ => ?_
    split
    next =>
      refine hs.1.confined.next.bind ?_
      rintro ⟨again, after⟩ _ hnext
      cases again with
      | true =>
          obtain ⟨hread, -⟩ := hnext
          have hindex : after.index = s.index + 1 := hread.index_eq
          exact Settles.pure ⟨hs.trans (hread.readOn (by omega)),
            hread.confined.room_lt (by dsimp only; omega)⟩
      | false =>
          obtain ⟨rfl, -⟩ := hnext
          exact Settles.pure (hs.trans ⟨⟨hs.1.confined.rewind
            hs.1.confined.index_nonneg (Int.le_refl _) _ _,
            ⟨rfl, rfl, rfl, rfl⟩, rfl⟩, Int.le_refl _⟩)
    next => exact Settles.pure hs

theorem Confined.lookAt_on (h : Confined fns size buffer) (expected : Bytes) :
    Settles excuse (bufferLookAt fns cb expected buffer) fun r =>
      ReadOn fns size buffer r.2 := by
  refine (h.lookAt expected).mono ?_
  rintro ⟨found, after⟩ _ hread
  refine hread.readOn ?_
  dsimp only
  split <;> omega

theorem Confined.lookAtSuffix (h : Confined fns size buffer)
    (suffix : Option Bytes) :
    Settles excuse (bufferLookAtSuffix fns cb suffix buffer) fun r =>
      ReadOn fns size buffer r.2 := by
  rw [bufferLookAtSuffix.eq_def]
  cases suffix with
  | none => exact Settles.pure h.readOn
  | some suffix => exact h.lookAt_on suffix

/-- The end of the buffer is noted and nothing else happens. -/
theorem Confined.stays (h : Confined fns size buffer) (error : String) :
    ReadOn fns size buffer { buffer with error := error } :=
  ⟨⟨h.rewind h.index_nonneg (Int.le_refl _) _ _, ⟨rfl, rfl, rfl, rfl⟩, rfl⟩,
    Int.le_refl _⟩

/-- An iteration of the loop of `parse_name` moves on, or is the last. -/
theorem Confined.parseNameStep (h : Confined fns size buffer)
    (suffix : Option Bytes) (name : NameBlock) :
    Settles excuse (parseNameStep fns cb suffix (name, buffer)) fun o =>
      match o with
      | .inl s => ReadOn fns size buffer s.2 ∧
          room size s.2 < room size buffer
      | .inr r => ReadOn fns size buffer r.2 := by
  rw [Libcad.parseNameStep]
  split
  next => exact Settles.pure h.readOn
  next =>
    refine (h.lookAtSuffix suffix).bind ?_
    rintro ⟨suffixed, b₁⟩ _ h₁
    have h₁ : ReadOn fns size buffer b₁ := h₁
    cases suffixed with
    | true =>
        refine (h₁.1.confined.lookAt_on _).bind ?_
        rintro ⟨closed, b₂⟩ _ h₂
        exact Settles.pure (h₁.trans h₂)
    | false =>
        refine (h₁.1.confined.lookAt_on _).bind ?_
        rintro ⟨closed, b₂⟩ _ h₂
        have hb₂ : ReadOn fns size buffer b₂ := h₁.trans h₂
        cases closed with
        | true => exact Settles.pure hb₂
        | false =>
            refine hb₂.1.confined.item.bind fun c _ _ => ?_
            refine hb₂.1.confined.next.bind ?_
            rintro ⟨more, after⟩ _ hnext
            cases more with
            | true =>
                obtain ⟨hread, -⟩ := hnext
                have hindex : after.index = b₂.index + 1 := hread.index_eq
                have hle : buffer.index ≤ b₂.index := hb₂.2
                exact Settles.pure ⟨hb₂.trans (hread.readOn (by omega)),
                  hread.confined.room_lt (by dsimp only; omega)⟩
            | false =>
                obtain ⟨rfl, -⟩ := hnext
                exact Settles.pure (hb₂.trans (hb₂.1.confined.stays _))

theorem Confined.parseName (h : Confined fns size buffer)
    (suffix : Option Bytes) :
    Settles excuse (parseName fns cb suffix buffer) fun r =>
      ReadOn fns size buffer r.2 := by
  rw [Libcad.parseName]
  refine h.skipBlanks.bind fun start _ hstart => ?_
  have hloop : Settles excuse
      (Proc.loop (Libcad.parseNameStep fns cb suffix) (⟨[], 16⟩, start))
      fun r => ReadOn fns size buffer r.2 := by
    refine Settles.loop (I := fun s => ReadOn fns size buffer s.2)
      (fun s => room size s.2) ?_ hstart
    rintro ⟨name, b⟩ hb
    refine (hb.1.confined.parseNameStep suffix name).mono ?_
    intro o _ ho
    cases o with
    | inl s => exact ⟨hb.trans ho.1, ho.2⟩
    | inr r => exact hb.trans ho
  refine hloop.bind ?_
  rintro ⟨result, after⟩ _ hafter
  cases result with
  | some name => exact Settles.pure hafter
  | none =>
      have hafter : ReadOn fns size buffer after := hafter
      exact Settles.pure ⟨⟨hafter.1.confined.rewind h.index_nonneg hafter.2 _ _,
        ⟨hafter.1.kept.env, hafter.1.kept.loops, hafter.1.kept.openDelimiter,
          hafter.1.kept.closeDelimiter⟩, rfl⟩, Int.le_refl _⟩

theorem Confined.renderComment (h : Confined fns size buffer) :
    Settles excuse (renderStacheComment fns cb buffer) fun r =>
      ReadOn fns size buffer r.2 := by
  refine Settles.loop (I := ReadOn fns size buffer) (room size) ?_ h.readOn
  intro s hs
  rw [commentStep]
  refine (hs.1.confined.lookAt_on _).bind ?_
  rintro ⟨closed, b₁⟩ _ h₁
  have h₁ : ReadOn fns size s b₁ := h₁
  cases closed with
  | true => exact Settles.pure (hs.trans h₁)
  | false =>
      refine h₁.1.confined.next.bind ?_
      rintro ⟨more, after⟩ _ hnext
      cases more with
      | true =>
          obtain ⟨hread, -⟩ := hnext
          have hindex : after.index = b₁.index + 1 := hread.index_eq
          have hle : s.index ≤ b₁.index := h₁.2
          exact Settles.pure ⟨(hs.trans h₁).trans (hread.readOn (by omega)),
            hread.confined.room_lt (by dsimp only; omega)⟩
      | false =>
          obtain ⟨rfl, -⟩ := hnext
          exact Settles.pure ((hs.trans h₁).trans (h₁.1.confined.stays _))

end

end Libcad
