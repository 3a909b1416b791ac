/-
The sizes of the array of `cad_array.c` on a machine whose `int`s wrap around.
No size depends on the bytes of the elements, so these are left out.
-/
import Libcad.Machine
import Mathlib.Data.Nat.Size
import Mathlib.Tactic.Linarith

namespace Libcad

open Proc

/-- An `int` as an `unsigned int`. -/
def uint (n : Int) : Nat := (n % 4294967296).toNat

/-- An `int` as a `size_t` of 64 bits. -/
def sizeT (n : Int) : Nat := (n % 18446744073709551616).toNat

/-- The new capacity, and the size in bytes that `grow` asks for. -/
structure Request where
  capacity : Int
  size : Nat
deriving Repr, DecidableEq

/-- `eltsize`, an `int` of at least 1. -/
structure ElementSize where
  size : Int
  pos : 1 ≤ size
  le : size ≤ intMax

/-- The numbers of `struct cad_array_impl`, with `eltsize`, which never
changes, as a parameter of its functions.  `requests` is not part of the
program: it records what `grow` asked for. -/
structure ArraySizes where
  capacity : Int
  count : Int
  requests : List Request
deriving Repr, DecidableEq

/-- `cad_new_array` -/
def newArraySizes : ArraySizes := ⟨0, 0, []⟩

namespace ArraySizes

section

variable (eltsize : ElementSize)

/-- `malloc` or `realloc`, for this capacity. -/
def request (this : ArraySizes) (newCapacity : Int) : ArraySizes :=
  { this with
    capacity := newCapacity
    requests := this.requests ++
      [⟨newCapacity, sizeT (wrap (newCapacity * eltsize.size))⟩] }

def grow (this : ArraySizes) (growFactor : Int) : ArraySizes :=
  if this.capacity = 0 then
    this.request eltsize (wrap (growFactor * growFactor))
  else this.request eltsize (wrap (this.capacity * growFactor))

/-- `while (index >= this->capacity) grow(this, 2)`, one round: the capacity
is compared as an `unsigned int`. -/
def growStep (index : UInt32) (this : ArraySizes) :
    Proc (ArraySizes ⊕ ArraySizes) :=
  if uint this.capacity ≤ index.toNat then pure (.inl (this.grow eltsize 2))
  else pure (.inr this)

/-- The loop of `insert` and of `update`. -/
def growTo (index : UInt32) (this : ArraySizes) : Proc ArraySizes :=
  Proc.loop (growStep eltsize index) this

def insert (this : ArraySizes) (index : UInt32) : Proc ArraySizes := do
  let this :=
    if this.count = this.capacity then this.grow eltsize 2 else this
  let this ← growTo eltsize index this
  pure { this with
    count :=
      if index.toNat < uint this.count then wrap (this.count + 1)
      else wrap (index.toNat + 1) }

def update (this : ArraySizes) (index : UInt32) : Proc ArraySizes := do
  let this ← growTo eltsize index this
  pure { this with
    count :=
      if index.toNat < uint this.count then this.count
      else wrap (index.toNat + 1) }

end

def del (this : ArraySizes) (index : UInt32) : ArraySizes :=
  if index.toNat < uint this.count then
    { this with count := wrap (this.count - 1) }
  else this

def clear (this : ArraySizes) : ArraySizes := { this with count := 0 }

end ArraySizes

/-- The calls of `cad_array_t` that change the array. -/
inductive SizeCall
  | insert (index : UInt32)
  | update (index : UInt32)
  | del (index : UInt32)
  | clear
deriving Repr, DecidableEq

namespace ArraySizes

def step (eltsize : ElementSize) (this : ArraySizes) :
    SizeCall → Proc ArraySizes
  | .insert index => this.insert eltsize index
  | .update index => this.update eltsize index
  | .del index => pure (this.del index)
  | .clear => pure this.clear

/-- All sizes asked for were the product of the capacity and the element
size. -/
def Exact (eltsize : ElementSize) (this : ArraySizes) : Prop :=
  ∀ request ∈ this.requests,
    (request.size : Int) = request.capacity * eltsize.size

def HasRoom (this : ArraySizes) : SizeCall → Prop
  | .insert index | .update index => (index.toNat : Int) < this.capacity
  | .del _ | .clear => True

/-- Every call of a sequence returns, makes room for its index and asks for
exact sizes. -/
def CallsExact (eltsize : ElementSize) : List SizeCall → ArraySizes → Prop
  | [], _ => True
  | call :: calls, this => ∃ next, Returns (this.step eltsize call) next ∧
      next.HasRoom call ∧ next.Exact eltsize ∧ CallsExact eltsize calls next

end ArraySizes

/-- The least capacity with room for this index: a power of two, from 4 on. -/
def capacityFor (index : Nat) : Nat := 2 ^ max 2 index.size

def SizeCall.counted (count : Nat) : SizeCall → Nat
  | .insert index =>
      if index.toNat < count then count + 1 else index.toNat + 1
  | .update index => if index.toNat < count then count else index.toNat + 1
  | .del index => if index.toNat < count then count - 1 else count
  | .clear => 0

/-- The size in bytes that the call needs is an `int`.  `insert` makes room for
one element more than there are, wherever it inserts. -/
def SizeCall.Fits (eltsize : ElementSize) (count : Nat) : SizeCall → Prop
  | .insert index =>
      capacityFor (max index.toNat count) * eltsize.size ≤ intMax
  | .update index => capacityFor index.toNat * eltsize.size ≤ intMax
  | .del _ | .clear => True

/-- Every call of a sequence fits, from this number of elements on. -/
def CallsFit (eltsize : ElementSize) : List SizeCall → Nat → Prop
  | [], _ => True
  | call :: calls, count =>
      call.Fits eltsize count ∧ CallsFit eltsize calls (call.counted count)

def doubledCapacity (capacity : Int) : Int :=
  if capacity = 0 then 4 else capacity * 2

/-- A capacity that grew from 0 by doubling. -/
def GrownSize (capacity : Int) : Prop :=
  capacity = 0 ∨ ∃ j : Nat, 2 ≤ j ∧ capacity = 2 ^ j

theorem uint_of_fits {n : Int} (hn : 0 ≤ n) (hmax : n ≤ intMax) :
    (uint n : Int) = n := by
  rw [intMax] at hmax
  rw [uint]
  omega

theorem GrownSize.nonneg {capacity : Int} (h : GrownSize capacity) :
    0 ≤ capacity := by
  rcases h with rfl | ⟨j, -, rfl⟩
  · exact Int.le_refl 0
  · positivity

theorem GrownSize.doubled {capacity : Int} (h : GrownSize capacity) :
    ∃ j : Nat, 2 ≤ j ∧ doubledCapacity capacity = 2 ^ j := by
  rcases h with rfl | ⟨j, hj, rfl⟩
  · exact ⟨2, Nat.le_refl 2, rfl⟩
  · have hpos : (2 : Int) ^ j ≠ 0 := by positivity
    refine ⟨j + 1, by omega, ?_⟩
    rw [doubledCapacity, if_neg hpos, pow_succ]

/-- A power of two that is an `int` is far enough from the greatest one to be
doubled. -/
theorem GrownSize.doubled_le {capacity : Int} (h : GrownSize capacity)
    (hmax : capacity ≤ intMax) : doubledCapacity capacity ≤ 2147483648 := by
  rw [intMax] at hmax
  rcases h with rfl | ⟨j, -, rfl⟩
  · decide
  · have hj : j < 31 := by
      by_contra hlarge
      have hpow : (2 : Int) ^ 31 ≤ 2 ^ j :=
        pow_le_pow_right₀ (by decide) (by omega)
      omega
    have hpow : (2 : Int) ^ j ≤ 2 ^ 30 :=
      pow_le_pow_right₀ (by decide) (by omega)
    have hne : (2 : Int) ^ j ≠ 0 := by positivity
    rw [doubledCapacity, if_neg hne]
    omega

theorem GrownSize.lt_doubled {capacity : Int} (h : GrownSize capacity) :
    capacity < doubledCapacity capacity := by
  have hnonneg := h.nonneg
  rw [doubledCapacity]
  split <;> omega

theorem capacityFor_mono {i j : Nat} (h : i ≤ j) :
    capacityFor i ≤ capacityFor j :=
  Nat.pow_le_pow_right (by decide)
    (max_le_max (Nat.le_refl 2) (Nat.size_le_size h))

theorem capacityFor_le {index j : Nat} (hj : 2 ≤ j) (h : index < 2 ^ j) :
    capacityFor index ≤ 2 ^ j :=
  Nat.pow_le_pow_right (by decide) (Nat.max_le.mpr ⟨hj, Nat.size_le.mpr h⟩)

/-- A capacity without room for the index grows no further than needed. -/
theorem GrownSize.doubled_le_capacityFor {capacity : Int}
    (h : GrownSize capacity) {index : Nat} (hindex : capacity ≤ index) :
    doubledCapacity capacity ≤ capacityFor index := by
  rcases h with rfl | ⟨j, hj, rfl⟩
  · have hfour : 2 ^ 2 ≤ capacityFor index :=
      Nat.pow_le_pow_right (by decide) (Nat.le_max_left 2 _)
    rw [doubledCapacity, if_pos rfl]
    exact_mod_cast hfour
  · have hne : (2 : Int) ^ j ≠ 0 := by positivity
    have hpow : 2 ^ j ≤ index := by exact_mod_cast hindex
    have hsize : j + 1 ≤ max 2 index.size :=
      Nat.le_trans (Nat.lt_size.mpr hpow) (Nat.le_max_right 2 _)
    have hle : 2 ^ (j + 1) ≤ capacityFor index :=
      Nat.pow_le_pow_right (by decide) hsize
    rw [doubledCapacity, if_neg hne, ← pow_succ]
    exact_mod_cast hle

theorem request_exact_iff {capacity : Int} (hpos : 0 < capacity)
    (hmax : capacity ≤ 2147483648) (eltsize : ElementSize) :
    (sizeT (wrap (wrap capacity * eltsize.size)) : Int) =
        wrap capacity * eltsize.size ↔
      capacity * eltsize.size ≤ intMax := by
  obtain ⟨eltsize, helt, hint⟩ := eltsize
  rw [intMax] at hint ⊢
  dsimp only
  rcases Int.lt_or_eq_of_le hmax with hlt | rfl
  · have hcapacity : wrap capacity = capacity :=
      wrap_of_fits (by omega) (by rw [intMax]; omega)
    have hlow : 0 < capacity * eltsize := by positivity
    have hhigh : capacity * eltsize ≤ 2147483648 * 2147483647 := by
      gcongr
      exact_mod_cast hint
    rw [hcapacity]
    generalize capacity * eltsize = size at hlow hhigh ⊢
    rw [sizeT, wrap, Int.bmod]
    omega
  · have hwrap : wrap 2147483648 = -2147483648 := by decide
    rw [hwrap, sizeT]
    omega

namespace ArraySizes

variable {eltsize : ElementSize} {this last : ArraySizes} {index : UInt32}

theorem grow_eq : this.grow eltsize 2 =
    this.request eltsize (wrap (doubledCapacity this.capacity)) := by
  rw [grow, doubledCapacity]
  split <;> rfl

/-- The capacity is a power of two with room for the elements, and its size in
bytes is an `int`, as all sizes asked for before. -/
structure WellSized (eltsize : ElementSize) (this : ArraySizes) : Prop where
  grown : GrownSize this.capacity
  count_nonneg : 0 ≤ this.count
  count_le : this.count ≤ this.capacity
  size_le : this.capacity * eltsize.size ≤ intMax
  exact : this.Exact eltsize

theorem newArraySizes_wellSized : newArraySizes.WellSized eltsize where
  grown := Or.inl rfl
  count_nonneg := Int.le_refl 0
  count_le := Int.le_refl 0
  size_le := by
    rw [newArraySizes, Int.zero_mul]
    decide
  exact := nofun

theorem WellSized.capacity_le (h : this.WellSized eltsize) :
    this.capacity ≤ intMax := by
  have hcapacity := h.grown.nonneg
  have hsize := h.size_le
  have helt := eltsize.pos
  nlinarith

theorem WellSized.uint_capacity (h : this.WellSized eltsize) :
    (uint this.capacity : Int) = this.capacity :=
  uint_of_fits h.grown.nonneg (h.capacity_le)

theorem WellSized.grow_exact_iff (h : this.WellSized eltsize) :
    (this.grow eltsize 2).Exact eltsize ↔
      doubledCapacity this.capacity * eltsize.size ≤ intMax := by
  obtain ⟨j, -, hj⟩ := h.grown.doubled
  have hpos : 0 < doubledCapacity this.capacity := by
    rw [hj]
    positivity
  rw [← request_exact_iff hpos (h.grown.doubled_le h.capacity_le) eltsize,
    grow_eq]
  constructor
  · intro hexact
    exact hexact _ (List.mem_append_right _ (List.mem_singleton_self _))
  · intro hsize request hrequest
    rcases List.mem_append.mp hrequest with hold | hnew
    · exact h.exact request hold
    · cases List.mem_singleton.mp hnew
      exact hsize

theorem WellSized.grow_capacity (h : this.WellSized eltsize)
    (hfit : doubledCapacity this.capacity * eltsize.size ≤ intMax) :
    (this.grow eltsize 2).capacity = doubledCapacity this.capacity := by
  obtain ⟨j, -, hj⟩ := h.grown.doubled
  have hpos : 0 < doubledCapacity this.capacity := by
    rw [hj]
    positivity
  have helt := eltsize.pos
  rw [grow_eq]
  exact wrap_of_fits hpos.le (by nlinarith)

theorem WellSized.grow (h : this.WellSized eltsize)
    (hfit : doubledCapacity this.capacity * eltsize.size ≤ intMax) :
    (this.grow eltsize 2).WellSized eltsize := by
  have hcapacity := h.grow_capacity hfit
  have hgrown := h.grown.doubled
  have hcount : (this.grow eltsize 2).count = this.count := by
    rw [grow_eq]
    rfl
  have hle := h.grown.lt_doubled.le
  constructor
  · rw [hcapacity]
    exact Or.inr hgrown
  · rw [hcount]
    exact h.count_nonneg
  · rw [hcount, hcapacity]
    exact Int.le_trans h.count_le hle
  · rwa [hcapacity]
  · exact (h.grow_exact_iff).mpr hfit

/-- A capacity without room for an index that fits grows, and still fits. -/
theorem WellSized.doubled_fits (h : this.WellSized eltsize) {room : Nat}
    (hroom : this.capacity ≤ room)
    (hfit : capacityFor room * eltsize.size ≤ intMax) :
    doubledCapacity this.capacity * eltsize.size ≤ intMax := by
  have helt := eltsize.pos
  have hle := h.grown.doubled_le_capacityFor hroom
  exact Int.le_trans (by gcongr) hfit

theorem grow_count : (this.grow eltsize 2).count = this.count := by
  rw [grow_eq]
  rfl

/-- The loop ends with room for an index that fits. -/
theorem WellSized.growTo (h : this.WellSized eltsize)
    (hfit : capacityFor index.toNat * eltsize.size ≤ intMax) :
    ∃ last, Returns (growTo eltsize index this) last ∧
      last.WellSized eltsize ∧ last.count = this.count ∧
      this.capacity ≤ last.capacity ∧
      (index.toNat : Int) < last.capacity := by
  refine loop_returns
    (I := fun s => s.WellSized eltsize ∧ s.count = this.count ∧
      this.capacity ≤ s.capacity)
    (fun s => (capacityFor index.toNat - s.capacity).toNat) ?_
    ⟨h, rfl, Int.le_refl _⟩
  rintro s ⟨hs, hcount, hle⟩
  have huint := hs.uint_capacity
  rw [growStep]
  by_cases hroom : uint s.capacity ≤ index.toNat
  · rw [if_pos hroom]
    have hcapacity : s.capacity ≤ index.toNat := by omega
    have hdoubled := hs.doubled_fits hcapacity hfit
    have hgrown := hs.grow_capacity hdoubled
    have hneed := hs.grown.doubled_le_capacityFor hcapacity
    have hlarger := hs.grown.lt_doubled
    refine Or.inl ⟨_, returns_pure_self _, ⟨hs.grow hdoubled,
      grow_count.trans hcount, ?_⟩, ?_⟩
    · omega
    · omega
  · rw [if_neg hroom]
    exact Or.inr ⟨s, returns_pure_self _, hs, hcount, hle, by omega⟩

theorem Exact.of_grow (h : (this.grow eltsize 2).Exact eltsize) :
    this.Exact eltsize := by
  rw [grow_eq] at h
  exact fun request hrequest => h request (List.mem_append_left _ hrequest)

/-- If the loop ends and all its sizes are exact, then they were so all
along. -/
theorem of_growTo (h : this.Exact eltsize → this.WellSized eltsize)
    (hreturns : Returns (growTo eltsize index this) last)
    (hexact : last.Exact eltsize) :
    this.Exact eltsize ∧ last.WellSized eltsize ∧ last.count = this.count ∧
      this.capacity ≤ last.capacity ∧ (index.toNat : Int) < last.capacity := by
  refine Returns.loop_ensures
    (I := fun s => s.Exact eltsize → this.Exact eltsize ∧
      s.WellSized eltsize ∧ s.count = this.count ∧ this.capacity ≤ s.capacity)
    (Q := fun s => s.Exact eltsize → this.Exact eltsize ∧
      s.WellSized eltsize ∧ s.count = this.count ∧
      this.capacity ≤ s.capacity ∧ (index.toNat : Int) < s.capacity) ?_
    (fun hexact => ⟨hexact, h hexact, rfl, Int.le_refl _⟩) hreturns hexact
  intro s o hs hstep
  rw [growStep] at hstep
  split at hstep
  next hroom =>
    cases returns_pure.mp hstep
    intro hgrown
    obtain ⟨hstart, hsized, hcount, hle⟩ := hs hgrown.of_grow
    have hfit := hsized.grow_exact_iff.mp hgrown
    have hcapacity := hsized.grow_capacity hfit
    have hlarger := hsized.grown.lt_doubled
    exact ⟨hstart, hsized.grow hfit, grow_count.trans hcount, by omega⟩
  next hroom =>
    cases returns_pure.mp hstep
    intro hexact
    obtain ⟨hstart, hsized, hcount, hle⟩ := hs hexact
    have huint := hsized.uint_capacity
    exact ⟨hstart, hsized, hcount, hle, by omega⟩

/-- An index with room in an array of this size fits. -/
theorem WellSized.fits (h : this.WellSized eltsize) {room : Nat}
    (hroom : (room : Int) < this.capacity) :
    capacityFor room * eltsize.size ≤ intMax := by
  have helt := eltsize.pos
  have hle : (capacityFor room : Int) ≤ this.capacity := by
    rcases h.grown with hzero | ⟨j, hj, hpow⟩
    · omega
    · rw [hpow] at hroom ⊢
      exact_mod_cast capacityFor_le hj (by exact_mod_cast hroom)
  exact Int.le_trans (by gcongr) h.size_le

/-- Another number of elements, with room for it. -/
theorem WellSized.counted (h : this.WellSized eltsize) {count : Int}
    (hcount : 0 ≤ count) (hroom : count ≤ this.capacity) :
    { this with count := count }.WellSized eltsize :=
  ⟨h.grown, hcount, hroom, h.size_le, h.exact⟩

/-- The capacities that doubling goes through, over and over. -/
def Cycles (capacity : Int) : Prop :=
  capacity = 0 ∨ capacity = -2147483648 ∨ ∃ j : Nat, j ≤ 30 ∧ capacity = 2 ^ j

theorem Cycles.doubled {capacity : Int} (h : Cycles capacity) :
    Cycles (wrap (doubledCapacity capacity)) := by
  rcases h with rfl | rfl | ⟨j, hj, rfl⟩
  · exact Or.inr (Or.inr ⟨2, by decide, by decide⟩)
  · exact Or.inl (by decide)
  · have hne : (2 : Int) ^ j ≠ 0 := by positivity
    rw [doubledCapacity, if_neg hne, ← pow_succ]
    rcases Nat.lt_or_eq_of_le hj with hlt | rfl
    · have hle : (2 : Int) ^ (j + 1) ≤ 2 ^ 30 :=
        pow_le_pow_right₀ (by decide) hlt
      refine Or.inr (Or.inr ⟨j + 1, hlt, wrap_of_fits (by positivity) ?_⟩)
      rw [intMax]
      omega
    · exact Or.inr (Or.inl (by decide))

theorem Cycles.uint_le {capacity : Int} (h : Cycles capacity) :
    uint capacity ≤ 2147483648 := by
  rcases h with rfl | rfl | ⟨j, hj, rfl⟩
  · decide
  · decide
  · have hle : (2 : Int) ^ j ≤ 2 ^ 30 := pow_le_pow_right₀ (by decide) hj
    have hpos : (0 : Int) < 2 ^ j := by positivity
    rw [uint]
    omega

/-- The loop does not end for an index that no capacity exceeds. -/
theorem growTo_endless (h : Cycles this.capacity)
    (hindex : 2147483648 ≤ index.toNat) :
    ¬ Returns (growTo eltsize index this) last := by
  intro hreturns
  refine Returns.loop_ensures (I := fun s => Cycles s.capacity)
    (Q := fun _ => False) ?_ h hreturns
  intro s o hs hstep
  rw [growStep, if_pos (Nat.le_trans hs.uint_le hindex)] at hstep
  cases returns_pure.mp hstep
  rw [Sum.elim_inl, grow_eq]
  exact hs.doubled

/-- What `insert` does before its loop. -/
def full (eltsize : ElementSize) (this : ArraySizes) : ArraySizes :=
  if this.count = this.capacity then this.grow eltsize 2 else this

theorem full_count : (this.full eltsize).count = this.count := by
  rw [full]
  split
  next => exact grow_count
  next => rfl

theorem WellSized.full (h : this.WellSized eltsize)
    (hexact : (this.full eltsize).Exact eltsize) :
    (this.full eltsize).WellSized eltsize ∧
      this.count < (this.full eltsize).capacity := by
  have hcount := h.count_le
  rw [ArraySizes.full] at hexact ⊢
  split at hexact
  next hfull =>
    have hfit := h.grow_exact_iff.mp hexact
    have hcapacity := h.grow_capacity hfit
    have hlarger := h.grown.lt_doubled
    rw [if_pos hfull]
    exact ⟨h.grow hfit, by omega⟩
  next hfull =>
    rw [if_neg hfull]
    exact ⟨h, by omega⟩

theorem WellSized.full_exact (h : this.WellSized eltsize) {room : Nat}
    (hroom : this.count ≤ room)
    (hfit : capacityFor room * eltsize.size ≤ intMax) :
    (this.full eltsize).Exact eltsize := by
  rw [ArraySizes.full]
  split
  next hfull =>
    exact h.grow_exact_iff.mpr (h.doubled_fits (by omega) hfit)
  next => exact h.exact

theorem WellSized.uint_count (h : this.WellSized eltsize) {count : Nat}
    (hcount : this.count = count) : uint this.count = count := by
  have hcapacity := h.capacity_le
  have hle := h.count_le
  have huint := uint_of_fits h.count_nonneg (Int.le_trans hle hcapacity)
  omega

/-- The array is well-sized, and has this number of elements. -/
def Counts (eltsize : ElementSize) (this : ArraySizes) (count : Nat) : Prop :=
  this.WellSized eltsize ∧ this.count = count

variable {count : Nat}

theorem Counts.inserted (h : last.Counts eltsize count)
    (hindex : (index.toNat : Int) < last.capacity)
    (hcount : (count : Int) < last.capacity) :
    Counts eltsize { last with
      count :=
        if index.toNat < uint last.count then wrap (last.count + 1)
        else wrap (index.toNat + 1) }
      ((SizeCall.insert index).counted count) := by
  obtain ⟨hsized, heq⟩ := h
  have hcapacity := hsized.capacity_le
  have hnext : (if index.toNat < uint last.count then wrap (last.count + 1)
      else wrap (index.toNat + 1) : Int) =
        (SizeCall.insert index).counted count := by
    rw [hsized.uint_count heq, heq, SizeCall.counted]
    split
    next => exact wrap_of_fits (by omega) (by omega)
    next => exact wrap_of_fits (by omega) (by omega)
  have hle : ((SizeCall.insert index).counted count : Int) ≤
      last.capacity := by
    rw [SizeCall.counted]
    split <;> omega
  rw [hnext]
  exact ⟨hsized.counted (Int.natCast_nonneg _) hle, rfl⟩

theorem Counts.updated (h : last.Counts eltsize count)
    (hindex : (index.toNat : Int) < last.capacity) :
    Counts eltsize { last with
      count :=
        if index.toNat < uint last.count then last.count
        else wrap (index.toNat + 1) }
      ((SizeCall.update index).counted count) := by
  obtain ⟨hsized, heq⟩ := h
  have hcapacity := hsized.capacity_le
  have hnext : (if index.toNat < uint last.count then last.count
      else wrap (index.toNat + 1) : Int) =
        (SizeCall.update index).counted count := by
    rw [hsized.uint_count heq, heq, SizeCall.counted]
    split
    next => rfl
    next => exact wrap_of_fits (by omega) (by omega)
  have hle : ((SizeCall.update index).counted count : Int) ≤
      last.capacity := by
    have hcount := hsized.count_le
    rw [SizeCall.counted]
    split <;> omega
  rw [hnext]
  exact ⟨hsized.counted (Int.natCast_nonneg _) hle, rfl⟩

theorem Counts.deleted (h : this.Counts eltsize count) :
    Counts eltsize (this.del index) ((SizeCall.del index).counted count) := by
  obtain ⟨hsized, heq⟩ := h
  have hcount := hsized.count_le
  have hcapacity := hsized.capacity_le
  rw [del, SizeCall.counted, hsized.uint_count heq]
  split
  next hlt =>
    have hwrap : wrap (this.count - 1) = ((count - 1 : Nat) : Int) := by
      rw [heq, wrap_of_fits (by omega) (by omega)]
      omega
    rw [hwrap]
    exact ⟨hsized.counted (Int.natCast_nonneg _) (by omega), rfl⟩
  next => exact ⟨hsized, heq⟩

theorem Counts.cleared (h : this.Counts eltsize count) :
    Counts eltsize this.clear (SizeCall.clear.counted count) :=
  ⟨h.1.counted (Int.le_refl 0) h.1.grown.nonneg, rfl⟩

/-- A call that fits returns, with room for its index and exact sizes. -/
theorem Counts.step_fits (h : this.Counts eltsize count) {call : SizeCall}
    (hfits : call.Fits eltsize count) :
    ∃ next, Returns (this.step eltsize call) next ∧ next.HasRoom call ∧
      next.Counts eltsize (call.counted count) := by
  cases call with
  | insert index =>
      have heq := h.2
      have hexact := h.1.full_exact (by omega) hfits
      obtain ⟨hfull, hroom⟩ := h.1.full hexact
      have hindex : capacityFor index.toNat * eltsize.size ≤ intMax := by
        have helt := eltsize.pos
        have hmono := capacityFor_mono (Nat.le_max_left index.toNat count)
        exact Int.le_trans (by gcongr) hfits
      obtain ⟨last, hgrow, hlast, hcount, hle, hindex⟩ := hfull.growTo hindex
      have hcounts : last.Counts eltsize count :=
        ⟨hlast, hcount.trans (full_count.trans heq)⟩
      exact ⟨_, hgrow.bind (returns_pure_self _), hindex,
        hcounts.inserted hindex (by omega)⟩
  | update index =>
      obtain ⟨last, hgrow, hlast, hcount, hle, hindex⟩ := h.1.growTo hfits
      have hcounts : last.Counts eltsize count := ⟨hlast, hcount.trans h.2⟩
      exact ⟨_, hgrow.bind (returns_pure_self _), hindex,
        hcounts.updated hindex⟩
  | del index => exact ⟨_, returns_pure_self _, trivial, h.deleted⟩
  | clear => exact ⟨_, returns_pure_self _, trivial, h.cleared⟩

theorem Counts.of_step (h : this.Counts eltsize count) {call : SizeCall}
    {next : ArraySizes} (hstep : Returns (this.step eltsize call) next)
    (hexact : next.Exact eltsize) :
    call.Fits eltsize count ∧ next.Counts eltsize (call.counted count) := by
  cases call with
  | insert index =>
      have heq := h.2
      obtain ⟨last, hgrow, hnext⟩ := returns_bind.mp hstep
      cases returns_pure.mp hnext
      have hgrow : Returns (growTo eltsize index (this.full eltsize)) last :=
        hgrow
      obtain ⟨hfull, hlast, hcount, hle, hindex⟩ :=
        of_growTo (fun hexact => (h.1.full hexact).1) hgrow hexact
      have hroom := (h.1.full hfull).2
      have hcounts : last.Counts eltsize count :=
        ⟨hlast, hcount.trans (full_count.trans heq)⟩
      exact ⟨hlast.fits (by omega), hcounts.inserted hindex (by omega)⟩
  | update index =>
      obtain ⟨last, hgrow, hnext⟩ := returns_bind.mp hstep
      cases returns_pure.mp hnext
      obtain ⟨-, hlast, hcount, hle, hindex⟩ :=
        of_growTo (fun _ => h.1) hgrow hexact
      have hcounts : last.Counts eltsize count := ⟨hlast, hcount.trans h.2⟩
      exact ⟨hlast.fits hindex, hcounts.updated hindex⟩
  | del index =>
      cases returns_pure.mp hstep
      exact ⟨trivial, h.deleted⟩
  | clear =>
      cases returns_pure.mp hstep
      exact ⟨trivial, h.cleared⟩

theorem Counts.calls_iff (calls : List SizeCall) :
    ∀ {this : ArraySizes} {count : Nat}, this.Counts eltsize count →
      (this.CallsExact eltsize calls ↔ CallsFit eltsize calls count) := by
  induction calls with
  | nil => exact fun _ => Iff.rfl
  | cons call calls ih =>
      intro this count h
      constructor
      · rintro ⟨next, hstep, -, hexact, hrest⟩
        obtain ⟨hfits, hnext⟩ := h.of_step hstep hexact
        exact ⟨hfits, (ih hnext).mp hrest⟩
      · rintro ⟨hfits, hrest⟩
        obtain ⟨next, hstep, hroom, hnext⟩ := h.step_fits hfits
        exact ⟨next, hstep, hroom, hnext.1.exact, (ih hnext).mpr hrest⟩

end ArraySizes

/-- In a run of a new array every `insert` and every `update` comes to an end
with room for its index and exact sizes, exactly when the size in bytes that
each of them needs is an `int`. -/
theorem array_sizes_exact_iff (eltsize : ElementSize)
    (calls : List SizeCall) :
    newArraySizes.CallsExact eltsize calls ↔ CallsFit eltsize calls 0 :=
  ArraySizes.Counts.calls_iff calls
    ⟨ArraySizes.newArraySizes_wellSized, rfl⟩

def oneByte : ElementSize := ⟨1, by decide, by decide⟩

/-- For an index past the greatest `int` the capacity turns negative, then 0,
and starts again: `update` does not end. -/
theorem array_update_endless :
    (¬ ∃ next, Returns (newArraySizes.step oneByte (.update 2147483648)) next) ∧
      ¬ newArraySizes.CallsExact oneByte [.update 2147483648] := by
  have hendless : ¬ ∃ next,
      Returns (newArraySizes.step oneByte (.update 2147483648)) next := by
    rintro ⟨next, hstep⟩
    obtain ⟨last, hgrow, -⟩ := returns_bind.mp hstep
    exact ArraySizes.growTo_endless (Or.inl rfl) (by decide) hgrow
  refine ⟨hendless, ?_⟩
  rintro ⟨next, hstep, -⟩
  exact hendless ⟨next, hstep⟩

end Libcad
