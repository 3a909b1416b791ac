/-
What the operations of an array do to its slots: growing keeps the elements,
and each operation moves, copies or zeroes whole slots.
-/
import Libcad.Array

namespace Libcad

open Proc

namespace CadArray

variable {eltsize : Nat} {fresh : Fresh} {this that : CadArray eltsize}

/-- What slot `i` holds once the array has grown: as many slots as there are
elements are zeroed after these, and the first four of a new block. -/
def AfterGrowth (fresh : Fresh) (this : CadArray eltsize) (i : Nat)
    (value : Vector UInt8 eltsize) : Prop :=
  if (this.count ≤ i ∧ i < 2 * this.count) ∨ (this.capacity = 0 ∧ i < 4) then
    value = zeros eltsize
  else if i < this.capacity then value = this.slot i
  else ∃ size, value = Vector.ofFn fun j => fresh size (i * eltsize + j)

/-- What any number of doublings do to an array. -/
structure Grown (fresh : Fresh) (this that : CadArray eltsize) : Prop where
  valid : that.Valid
  count_eq : that.count = this.count
  capacity_le : this.capacity ≤ that.capacity
  four_le : this.capacity = 0 → that.capacity ≠ 0 → 4 ≤ that.capacity
  within : ∀ access ∈ that.content.accesses,
    access ∈ this.content.accesses ∨ access.Within
  same : that.capacity = this.capacity → that = this
  slots : that.capacity ≠ this.capacity → ∀ i < that.capacity,
    AfterGrowth fresh this i (that.slot i)

theorem capacity_grown (fresh : Fresh) (this : CadArray eltsize) :
    (this.grown fresh).capacity =
      if this.capacity = 0 then 4 else this.capacity * 2 := by
  rw [grown]
  split <;> rfl

theorem capacity_lt_grown (fresh : Fresh) (this : CadArray eltsize) :
    this.capacity < (this.grown fresh).capacity := by
  rw [capacity_grown]
  split <;> omega

theorem count_grown (fresh : Fresh) (this : CadArray eltsize) :
    (this.grown fresh).count = this.count := by
  rw [grown]
  split <;> rfl

theorem size_grown (fresh : Fresh) (this : CadArray eltsize) :
    (this.grown fresh).content.size =
      (this.grown fresh).capacity * eltsize := by
  rw [grown]
  split <;> rfl

theorem Valid.grown (hv : this.Valid)
    (hsize : (this.grown fresh).capacity * eltsize ≤ intMax) :
    (this.grown fresh).Valid where
  count_le := by
    rw [count_grown]
    have := capacity_lt_grown fresh this
    have := hv.count_le
    omega
  size_eq := size_grown fresh this
  size_le := hsize

theorem slot_grown (hv : this.Valid) {i : Nat}
    (hi : i < (this.grown fresh).capacity) :
    AfterGrowth fresh this i ((this.grown fresh).slot i) := by
  rw [AfterGrowth]
  have hcount := hv.count_le
  by_cases hzero : this.capacity = 0
  · rw [capacity_grown, if_pos hzero] at hi
    rw [if_pos (Or.inr ⟨hzero, hi⟩), slot, CadArray.grown, if_pos hzero]
    have hslot := @Block.slot_memset
      (this.content.malloc (4 * eltsize) (fresh (4 * eltsize))) eltsize 4
      rfl 0 4 0 _ hi
    rw [Nat.zero_mul, if_pos (by omega)] at hslot
    exact hslot
  · rw [capacity_grown, if_neg hzero] at hi
    rw [slot, CadArray.grown, if_neg hzero]
    have hslot := @Block.slot_memset
      (this.content.realloc (this.capacity * 2 * eltsize)
        (fresh (this.capacity * 2 * eltsize))) eltsize (this.capacity * 2)
      rfl this.count this.count 0 _ hi
    by_cases hused : this.count ≤ i ∧ i < 2 * this.count
    · rw [if_pos (by omega)] at hslot
      rw [if_pos (Or.inl hused)]
      exact hslot
    · rw [if_neg (by omega)] at hslot
      rw [if_neg (by omega)]
      by_cases hold : i < this.capacity
      · rw [Block.slot_realloc hv.size_eq _ _ hold] at hslot
        rw [if_pos hold]
        exact hslot
      · rw [Block.slot_realloc_fresh hv.size_eq _ _ (by omega)] at hslot
        rw [if_neg hold]
        exact ⟨_, hslot⟩

theorem accesses_grown (hv : this.Valid) {access : Access}
    (h : access ∈ (this.grown fresh).content.accesses) :
    access ∈ this.content.accesses ∨ access.Within := by
  have hcount := hv.count_le
  rw [CadArray.grown] at h
  split at h
  next hzero =>
    rcases List.mem_append.mp h with h | h
    · exact Or.inl h
    · rw [List.mem_singleton.mp h]
      right
      simp [Access.Within, Block.malloc]
  next hzero =>
    rcases List.mem_append.mp h with h | h
    · exact Or.inl h
    · rw [List.mem_singleton.mp h]
      right
      simp only [Access.Within, Block.realloc]
      rw [← Nat.add_mul]
      exact Nat.mul_le_mul_right eltsize (by omega)

theorem Grown.refl (hv : this.Valid) : Grown fresh this this where
  valid := hv
  count_eq := rfl
  capacity_le := Nat.le_refl _
  four_le hzero hne := absurd hzero hne
  within _ h := Or.inl h
  same _ := rfl
  slots h := absurd rfl h

theorem Grown.grow (hv : this.Valid) (h : Grown fresh this that)
    (hsize : (that.grown fresh).capacity * eltsize ≤ intMax) :
    Grown fresh this (that.grown fresh) where
  valid := h.valid.grown hsize
  count_eq := (count_grown fresh that).trans h.count_eq
  capacity_le :=
    Nat.le_trans h.capacity_le (Nat.le_of_lt (capacity_lt_grown fresh that))
  four_le hzero _ := by
    rw [capacity_grown]
    split
    · exact Nat.le_refl 4
    · have := h.four_le hzero (by assumption)
      omega
  within access haccess := by
    rcases accesses_grown h.valid haccess with haccess | hwithin
    · exact h.within access haccess
    · exact Or.inr hwithin
  same heq := by
    have := capacity_lt_grown fresh that
    have := h.capacity_le
    omega
  slots _ i hi := by
    have hslot := slot_grown h.valid hi
    have hcount := hv.count_le
    have hle := h.capacity_le
    by_cases hsame : that.capacity = this.capacity
    · rwa [h.same hsame] at hslot ⊢
    · have hfour := h.four_le
      have hold := h.slots hsame i
      rw [AfterGrowth, h.count_eq] at hslot
      by_cases hzeroed : (this.count ≤ i ∧ i < 2 * this.count) ∨
          (that.capacity = 0 ∧ i < 4)
      · rw [if_pos hzeroed] at hslot
        rw [AfterGrowth, if_pos (by omega), hslot]
      · rw [if_neg hzeroed] at hslot
        by_cases hlt : i < that.capacity
        · rw [if_pos hlt] at hslot
          rw [hslot]
          exact hold hlt
        · rw [if_neg hlt] at hslot
          rw [AfterGrowth, if_neg (by omega), if_neg (by omega)]
          exact hslot

theorem Grown.slot_eq (hv : this.Valid) (h : Grown fresh this that) {i : Nat}
    (hi : i < this.count) : that.slot i = this.slot i := by
  have hcount := hv.count_le
  have hle := h.capacity_le
  by_cases hsame : that.capacity = this.capacity
  · rw [h.same hsame]
  · have hslot := h.slots hsame i (by omega)
    rwa [AfterGrowth, if_neg (by omega), if_pos (by omega)] at hslot

/-- The loop of `insert` and `update` ends with room for the index. -/
theorem Grown.growTo_returns (hv : this.Valid) (h : Grown fresh this that)
    {index : Nat} (hdef : Defined (growTo fresh index that)) :
    ∃ last, Returns (growTo fresh index that) last ∧
      Grown fresh this last ∧ that.capacity ≤ last.capacity ∧
      index < last.capacity := by
  refine Defined.loop_returns
    (I := fun s => Grown fresh this s ∧ that.capacity ≤ s.capacity)
    (Q := fun s => Grown fresh this s ∧ that.capacity ≤ s.capacity ∧
      index < s.capacity)
    (fun s => index + 1 - s.capacity) ?_ ⟨h, Nat.le_refl _⟩ hdef
  rintro s ⟨hs, hle⟩ hbody
  rw [growStep] at hbody ⊢
  by_cases hfull : s.capacity ≤ index
  · rw [if_pos hfull] at hbody ⊢
    obtain ⟨hrun, hsize⟩ := grow_returns hs.valid hbody.bind_left
    have hlt := capacity_lt_grown fresh s
    exact Or.inl ⟨s.grown fresh, hrun.bind (returns_pure_self _),
      ⟨hs.grow hv hsize, by omega⟩, by omega⟩
  · rw [if_neg hfull]
    exact Or.inr ⟨s, returns_pure_self _, hs, hle, by omega⟩

theorem growFull_returns (hv : this.Valid)
    (hdef : Defined (growFull fresh this)) :
    ∃ room, Returns (growFull fresh this) room ∧ Grown fresh this room ∧
      room.count < room.capacity := by
  have hcount := hv.count_le
  rw [growFull] at hdef ⊢
  by_cases hfull : this.count = this.capacity
  · rw [if_pos hfull] at hdef ⊢
    obtain ⟨hrun, hsize⟩ := grow_returns hv hdef
    have hlt := capacity_lt_grown fresh this
    refine ⟨_, hrun, (Grown.refl hv).grow hv hsize, ?_⟩
    rw [count_grown]
    omega
  · rw [if_neg hfull]
    exact ⟨this, returns_pure_self _, Grown.refl hv, by omega⟩

/-- The array after `insert`, once there is room. -/
def inserted (this : CadArray eltsize) (index : Nat)
    (value : Vector UInt8 eltsize) : CadArray eltsize :=
  let content :=
    if index < this.count then
      this.content.bcopy (index * eltsize) ((index + 1) * eltsize)
        ((this.count - index) * eltsize)
    else this.content
  let count := if index < this.count then this.count + 1 else index + 1
  { this with
    count := count, content := content.memcpy (index * eltsize) value }

/-- The array after `update`, once there is room. -/
def updated (this : CadArray eltsize) (index : Nat)
    (value : Vector UInt8 eltsize) : CadArray eltsize :=
  { this with
    count := if index < this.count then this.count else index + 1
    content := this.content.memcpy (index * eltsize) value }

theorem insert_returns (hv : this.Valid) {index : Nat}
    {value : Vector UInt8 eltsize}
    (hdef : Defined (this.insert fresh index value)) :
    ∃ room, Grown fresh this room ∧ index < room.capacity ∧
      room.count < room.capacity ∧
      Returns (this.insert fresh index value)
        (index * eltsize, room.inserted index value) := by
  rw [insert] at hdef ⊢
  obtain ⟨mid, hmid, hgrown, hlt⟩ := growFull_returns hv hdef.bind_left
  have hdef' := hdef.bind_right hmid
  obtain ⟨room, hroom, hgrown', hle, hindex⟩ :=
    hgrown.growTo_returns hv hdef'.bind_left
  have hcount := hgrown'.count_eq.trans hgrown.count_eq.symm
  refine ⟨room, hgrown', hindex, by omega, hmid.bind (hroom.bind ?_)⟩
  have hoffset : uintMul index eltsize = index * eltsize :=
    hgrown'.valid.uintMul_eq (Nat.le_of_lt hindex)
  have hmoved : uintMul (room.count - index) eltsize =
      (room.count - index) * eltsize :=
    hgrown'.valid.uintMul_eq (by omega)
  rw [returns_pure, hoffset, hmoved, inserted, Nat.add_mul, Nat.one_mul]

theorem update_returns (hv : this.Valid) {index : Nat}
    {value : Vector UInt8 eltsize}
    (hdef : Defined (this.update fresh index value)) :
    ∃ room, Grown fresh this room ∧ index < room.capacity ∧
      Returns (this.update fresh index value)
        (index * eltsize, room.updated index value) := by
  rw [update] at hdef ⊢
  obtain ⟨room, hroom, hgrown, -, hindex⟩ :=
    (Grown.refl hv).growTo_returns hv hdef.bind_left
  refine ⟨room, hgrown, hindex, hroom.bind ?_⟩
  rw [returns_pure, hgrown.valid.uintMul_eq (Nat.le_of_lt hindex), updated]

theorem slot_inserted (hv : this.Valid) {index i : Nat}
    (value : Vector UInt8 eltsize) (hi : i < this.capacity) :
    (this.inserted index value).slot i =
      if i = index then value
      else if index < i ∧ i ≤ this.count then this.slot (i - 1)
      else this.slot i := by
  rw [slot, inserted]
  dsimp only
  by_cases hshift : index < this.count
  · rw [if_pos hshift, Block.slot_memcpy (by exact hv.size_eq) index value hi,
      Block.slot_bcopy hv.size_eq index (index + 1) (this.count - index) hi]
    by_cases heq : i = index
    · rw [if_pos heq, if_pos heq]
    · rw [if_neg heq, if_neg heq]
      by_cases hmoved : index < i ∧ i ≤ this.count
      · rw [if_pos hmoved, if_pos (by omega), slot,
          show index + (i - (index + 1)) = i - 1 by omega]
      · rw [if_neg hmoved, if_neg (by omega), slot]
  · rw [if_neg hshift, Block.slot_memcpy hv.size_eq index value hi]
    by_cases heq : i = index
    · rw [if_pos heq, if_pos heq]
    · rw [if_neg heq, if_neg heq, if_neg (by omega), slot]

theorem slot_updated (hv : this.Valid) {index i : Nat}
    (value : Vector UInt8 eltsize) (hi : i < this.capacity) :
    (this.updated index value).slot i =
      if i = index then value else this.slot i :=
  Block.slot_memcpy hv.size_eq index value hi

theorem Valid.inserted (hv : this.Valid) {index : Nat}
    (hindex : index < this.capacity) (hroom : this.count < this.capacity)
    (value : Vector UInt8 eltsize) : (this.inserted index value).Valid where
  count_le := by
    rw [CadArray.inserted]
    dsimp only
    split
    · exact hroom
    · exact hindex
  size_eq := by
    rw [CadArray.inserted]
    dsimp only
    split
    · exact hv.size_eq
    · exact hv.size_eq
  size_le := hv.size_le

theorem Valid.updated (hv : this.Valid) {index : Nat}
    (hindex : index < this.capacity) (value : Vector UInt8 eltsize) :
    (this.updated index value).Valid where
  count_le := by
    rw [CadArray.updated]
    dsimp only
    split
    · exact hv.count_le
    · exact hindex
  size_eq := hv.size_eq
  size_le := hv.size_le

/-- The array after `del` of an element. -/
def deleted (this : CadArray eltsize) (index : Nat) : CadArray eltsize :=
  let count := this.count - 1
  if index < count then
    let content := this.content.bcopy ((index + 1) * eltsize)
      (index * eltsize) ((count - index) * eltsize)
    { this with
      count := count, content := content.memset (this.count * eltsize) 0 eltsize }
  else { this with count := count }

theorem del_returns (hv : this.Valid) {index : Nat}
    (hindex : index < this.count) :
    Returns (this.del index) (some (index * eltsize), this.deleted index) := by
  have hcount := hv.count_le
  have hoffset : uintMul index eltsize = index * eltsize :=
    hv.uintMul_eq (by omega)
  rw [del, if_pos hindex, deleted]
  dsimp only
  by_cases hmore : index < this.count - 1
  · have hmoved : uintMul (this.count - 1 - index) eltsize =
        (this.count - 1 - index) * eltsize :=
      hv.uintMul_eq (by omega)
    have hsucc : this.count - 1 + 1 = this.count := by omega
    have hvacated : this.count * eltsize ≤ intMax :=
      Nat.le_trans (Nat.mul_le_mul_right eltsize hcount) hv.size_le
    rw [if_pos hmore, if_pos hmore, hsucc, hoffset, hmoved]
    refine (intMul_returns hvacated).bind ?_
    rw [returns_pure, Nat.add_mul, Nat.one_mul]
  · rw [if_neg hmore, if_neg hmore, hoffset]
    exact returns_pure_self _

theorem del_absent {index : Nat} (hindex : this.count ≤ index) :
    Returns (this.del index) (none, this) := by
  rw [del, if_neg (by omega)]
  exact returns_pure_self _

theorem capacity_deleted (this : CadArray eltsize) (index : Nat) :
    (this.deleted index).capacity = this.capacity := by
  rw [deleted]
  dsimp only
  split <;> rfl

theorem count_deleted (this : CadArray eltsize) (index : Nat) :
    (this.deleted index).count = this.count - 1 := by
  rw [deleted]
  dsimp only
  split <;> rfl

theorem slot_deleted (hv : this.Valid) {index i : Nat}
    (hindex : index < this.count) (hi : i < this.capacity) :
    (this.deleted index).slot i =
      if index ≤ i ∧ i < this.count - 1 then this.slot (i + 1)
      else if index < this.count - 1 ∧ i = this.count then zeros eltsize
      else this.slot i := by
  rw [slot, deleted]
  dsimp only
  by_cases hmore : index < this.count - 1
  · rw [if_pos hmore]
    have hset := @Block.slot_memset
      (this.content.bcopy ((index + 1) * eltsize) (index * eltsize)
        ((this.count - 1 - index) * eltsize)) eltsize _
      hv.size_eq this.count 1 0 _ hi
    rw [Nat.one_mul] at hset
    dsimp only
    rw [hset, Block.slot_bcopy hv.size_eq (index + 1) index
      (this.count - 1 - index) hi]
    by_cases hmoved : index ≤ i ∧ i < this.count - 1
    · rw [if_pos hmoved, if_neg (by omega), if_pos (by omega), slot,
        show index + 1 + (i - index) = i + 1 by omega]
    · rw [if_neg hmoved]
      by_cases hvacated : i = this.count
      · rw [if_pos (by omega), if_pos ⟨hmore, hvacated⟩, zeros]
      · rw [if_neg (by omega), if_neg (by omega), if_neg (by omega), slot]
  · rw [if_neg hmore, if_neg (by omega), if_neg (by omega), slot]

theorem Valid.deleted (hv : this.Valid) (index : Nat) :
    (this.deleted index).Valid where
  count_le := by
    have hcount := hv.count_le
    rw [count_deleted, capacity_deleted]
    omega
  size_eq := by
    rw [capacity_deleted, CadArray.deleted]
    dsimp only
    split
    · exact hv.size_eq
    · exact hv.size_eq
  size_le := by
    rw [capacity_deleted]
    exact hv.size_le

/-- The array after `clear`. -/
def cleared (this : CadArray eltsize) : CadArray eltsize :=
  { this with
    count := 0, content := this.content.memset 0 0 (this.capacity * eltsize) }

theorem clear_returns (hv : this.Valid) :
    Returns this.clear this.cleared :=
  (intMul_returns hv.size_le).bind (returns_pure_self _)

theorem Valid.cleared (hv : this.Valid) : this.cleared.Valid where
  count_le := Nat.zero_le _
  size_eq := hv.size_eq
  size_le := hv.size_le

theorem Valid.step_returns (hv : this.Valid) {op : ArrayOp eltsize}
    (hdef : Defined (this.step fresh op)) :
    ∃ next, Returns (this.step fresh op) next ∧ next.Valid := by
  cases op with
  | insert index value =>
      obtain ⟨room, hgrown, hindex, hroom, hrun⟩ :=
        insert_returns hv hdef.bind_left
      exact ⟨_, hrun.bind (returns_pure_self _),
        hgrown.valid.inserted hindex hroom value⟩
  | update index value =>
      obtain ⟨room, hgrown, hindex, hrun⟩ := update_returns hv hdef.bind_left
      exact ⟨_, hrun.bind (returns_pure_self _),
        hgrown.valid.updated hindex value⟩
  | del index =>
      by_cases hindex : index < this.count
      · exact ⟨_, (del_returns hv hindex).bind (returns_pure_self _),
          hv.deleted index⟩
      · exact ⟨this, (del_absent (by omega)).bind (returns_pure_self _), hv⟩
  | clear => exact ⟨_, clear_returns hv, hv.cleared⟩

theorem Valid.run_valid (ops : List (ArrayOp eltsize)) :
    ∀ {this : CadArray eltsize}, this.Valid →
      Returns (run fresh ops this) that → that.Valid := by
  induction ops with
  | nil =>
      intro this hv hrun
      cases returns_pure.mp hrun
      exact hv
  | cons op ops ih =>
      intro this hv hrun
      obtain ⟨next, hstep, hrest⟩ := returns_bind.mp hrun
      obtain ⟨next', hstep', hnext⟩ := hv.step_returns hstep.defined
      cases hstep.unique hstep'
      exact ih hnext hrest

end CadArray

end Libcad
