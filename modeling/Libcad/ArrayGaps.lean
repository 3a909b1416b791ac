/-
What `insert` and `update` leave in the slots between the last element and an
index past it.
-/
import Libcad.ArrayInvariant

namespace Libcad

open Proc

namespace CadArray

variable {eltsize : Nat} {fresh : Fresh} {this that : CadArray eltsize}

/-- Some sequence of calls on a new array leads to this one. -/
def Reachable (this : CadArray eltsize) : Prop :=
  ∃ fresh ops, Returns (run fresh ops (newArray eltsize)) this

theorem Reachable.valid (h : this.Reachable) : this.Valid := by
  obtain ⟨fresh, ops, hrun⟩ := h
  exact newArray_valid.run_valid ops hrun

/-- Every slot from the old count up to the index reads as zero. -/
def GapReadsZero (this next : CadArray eltsize) (index : Nat) : Prop :=
  ∀ i, this.count ≤ i → i < index →
    (next.get i).map (next.content.read eltsize) = some (zeros eltsize)

/-- The free slots up to the index are zero, or growing zeroes them: as many as
there are elements, and the first four of a new block. -/
def GapReady (this : CadArray eltsize) (index : Nat) : Prop :=
  if index < this.capacity then
    ∀ i, this.count ≤ i → i < index → this.slot i = zeros eltsize
  else if this.capacity = 0 then index ≤ 4
  else index ≤ max this.capacity (2 * this.count) ∧
    ∀ i, 2 * this.count ≤ i → i < this.capacity → this.slot i = zeros eltsize

theorem inserted_of_count_le {index : Nat} (h : this.count ≤ index)
    (value : Vector UInt8 eltsize) :
    this.inserted index value = this.updated index value := by
  have hnot : ¬ index < this.count := by omega
  simp only [inserted, updated, if_neg hnot]

theorem growTo_of_lt {index : Nat} (h : index < this.capacity) :
    Returns (growTo fresh index this) this := by
  apply Returns.loop_exit
  rw [growStep, if_neg (by omega)]
  exact returns_pure_self _

/-- Nothing grows when there is a slot for the index. -/
theorem Valid.fill_in_place (hv : this.Valid) {index : Nat}
    (hindex : this.count < index) (hroom : index < this.capacity)
    {value : Vector UInt8 eltsize} {op : ArrayOp eltsize}
    (hop : op = .insert index value ∨ op = .update index value) :
    Returns (this.step fresh op) (this.updated index value) := by
  have hnot : ¬ index < this.count := by omega
  have hoffset : uintMul index eltsize = index * eltsize :=
    hv.uintMul_eq (Nat.le_of_lt hroom)
  have hloop : Returns (growTo fresh index this) this := growTo_of_lt hroom
  rcases hop with rfl | rfl
  · have hfull : Returns (growFull fresh this) this := by
      rw [growFull, if_neg (by omega)]
      exact returns_pure_self _
    refine Returns.bind (hfull.bind (hloop.bind (returns_pure_self _))) ?_
    simp only [hnot, ↓reduceIte, hoffset, returns_pure]
    rw [CadArray.updated, if_neg hnot]
  · refine Returns.bind (hloop.bind (returns_pure_self _)) ?_
    simp only [hoffset, returns_pure]
    rw [CadArray.updated]

/-- Past the last element `insert` and `update` do the same. -/
theorem Valid.fill_returns (hv : this.Valid) {index : Nat}
    (hindex : this.count < index) {value : Vector UInt8 eltsize}
    {op : ArrayOp eltsize}
    (hop : op = .insert index value ∨ op = .update index value)
    (hdef : Defined (this.step fresh op)) :
    ∃ room, Grown fresh this room ∧ index < room.capacity ∧
      (index < this.capacity → room = this) ∧
      Returns (this.step fresh op) (room.updated index value) := by
  by_cases hroom : index < this.capacity
  · exact ⟨this, Grown.refl hv, hroom, fun _ => rfl,
      hv.fill_in_place hindex hroom hop⟩
  · rcases hop with rfl | rfl
    · obtain ⟨room, hgrown, hlt, -, hrun⟩ := insert_returns hv hdef.bind_left
      have hcount := hgrown.count_eq
      rw [inserted_of_count_le (by omega)] at hrun
      exact ⟨room, hgrown, hlt, fun h => absurd h hroom,
        hrun.bind (returns_pure_self _)⟩
    · obtain ⟨room, hgrown, hlt, hrun⟩ := update_returns hv hdef.bind_left
      exact ⟨room, hgrown, hlt, fun h => absurd h hroom,
        hrun.bind (returns_pure_self _)⟩

theorem gapReadsZero_updated (hgrown : Grown fresh this that) {index : Nat}
    (hindex : this.count < index) (hroom : index < that.capacity)
    (value : Vector UInt8 eltsize) :
    GapReadsZero this (that.updated index value) index ↔
      ∀ i, this.count ≤ i → i < index → that.slot i = zeros eltsize := by
  have hcount := hgrown.count_eq
  have hv := hgrown.valid
  have hread : ∀ i, i < index →
      ((that.updated index value).get i).map
        ((that.updated index value).content.read eltsize) =
        some (that.slot i) := by
    intro i hi
    have hslot := @slot_updated _ _ hv index i value (by omega)
    rw [if_neg (by omega)] at hslot
    have hnot : ¬ index < that.count := by omega
    have hoffset : (that.updated index value).get i = some (i * eltsize) := by
      rw [get, updated, if_neg hnot]
      dsimp only
      rw [if_pos (by omega), hv.uintMul_eq (by omega)]
    rw [hoffset, Option.map_some, ← hslot]
    rfl
  constructor
  · intro h i hi hlt
    exact Option.some.inj ((hread i hlt).symm.trans (h i hi hlt))
  · intro h i hi hlt
    rw [hread i hlt, h i hi hlt]

/-- A ready gap is zero after growing, whatever the new bytes hold. -/
theorem GapReady.slot_eq (hv : this.Valid) {index : Nat}
    (hready : this.GapReady index) (hgrown : Grown fresh this that)
    (hroom : index < that.capacity)
    (hsame : index < this.capacity → that = this) {i : Nat}
    (hi : this.count ≤ i) (hlt : i < index) :
    that.slot i = zeros eltsize := by
  have hcount := hv.count_le
  rw [GapReady] at hready
  by_cases hplace : index < this.capacity
  · rw [if_pos hplace] at hready
    rw [hsame hplace]
    exact hready i hi hlt
  · rw [if_neg hplace] at hready
    have hslot := hgrown.slots (by omega) i (by omega)
    rw [AfterGrowth] at hslot
    by_cases hzeroed : (this.count ≤ i ∧ i < 2 * this.count) ∨
        (this.capacity = 0 ∧ i < 4)
    · rwa [if_pos hzeroed] at hslot
    · rw [if_neg hzeroed] at hslot
      by_cases hnew : this.capacity = 0
      · rw [if_pos hnew] at hready
        omega
      · rw [if_neg hnew] at hready
        have hold : i < this.capacity := by omega
        rw [if_pos hold] at hslot
        rw [hslot]
        exact hready.2 i (by omega) hold

def ones : Fresh := fun _ _ => 1

theorem ones_ne_zeros (hsize : eltsize ≠ 0) {value : Vector UInt8 eltsize}
    {i : Nat} (h : ∃ size, value =
      Vector.ofFn fun j => ones size (i * eltsize + j)) :
    value ≠ zeros eltsize := by
  obtain ⟨size, rfl⟩ := h
  intro heq
  have hzero : 0 < eltsize := by omega
  have hget := congrArg (fun v : Vector UInt8 eltsize => v[0]) heq
  simp [ones, zeros] at hget

theorem gapReady_of_zero (hv : this.Valid) (hsize : eltsize ≠ 0) {index : Nat}
    (hgrown : Grown ones this that) (hroom : index < that.capacity)
    (hsame : index < this.capacity → that = this)
    (hzero : ∀ i, this.count ≤ i → i < index → that.slot i = zeros eltsize) :
    this.GapReady index := by
  have hcount := hv.count_le
  rw [GapReady]
  by_cases hplace : index < this.capacity
  · rw [if_pos hplace]
    rwa [hsame hplace] at hzero
  · rw [if_neg hplace]
    have hslots := hgrown.slots (by omega)
    have hfresh : ∀ i, this.capacity ≤ i → 2 * this.count ≤ i →
        (this.capacity = 0 → 4 ≤ i) → ¬ i < index := by
      intro i hcap htwice hfour hlt
      have hslot := hslots i (by omega)
      rw [AfterGrowth, if_neg (by omega), if_neg (by omega)] at hslot
      exact ones_ne_zeros hsize hslot (hzero i (by omega) hlt)
    by_cases hnew : this.capacity = 0
    · rw [if_pos hnew]
      have := hfresh 4
      omega
    · rw [if_neg hnew]
      refine ⟨?_, ?_⟩
      · have := hfresh (max this.capacity (2 * this.count))
        omega
      · intro i htwice hold
        have hslot := hslots i (by omega)
        rw [AfterGrowth, if_neg (by omega), if_pos hold] at hslot
        rw [← hslot]
        exact hzero i (by omega) (by omega)

end CadArray

variable {eltsize : Nat}

/-- From every reachable array, filling a slot past the last element leaves a
gap that reads as zero, whatever the new bytes hold, exactly when the gap was
ready. -/
theorem array_gap_reads_zero_iff {this : CadArray eltsize}
    (hreach : this.Reachable) {index : Nat} (hindex : this.count < index)
    {value : Vector UInt8 eltsize} {op : ArrayOp eltsize}
    (hop : op = .insert index value ∨ op = .update index value)
    (hdef : ∀ fresh, Defined (this.step fresh op)) :
    (∀ fresh, ∃ next, Returns (this.step fresh op) next ∧
      this.GapReadsZero next index) ↔
      eltsize = 0 ∨ this.GapReady index := by
  have hv := hreach.valid
  constructor
  · intro h
    by_cases hsize : eltsize = 0
    · exact Or.inl hsize
    · right
      obtain ⟨next, hrun, hgap⟩ := h CadArray.ones
      obtain ⟨room, hgrown, hroom, hsame, hrun'⟩ :=
        hv.fill_returns hindex hop (hdef CadArray.ones)
      cases hrun.unique hrun'
      apply CadArray.gapReady_of_zero hv hsize hgrown hroom hsame
      exact (CadArray.gapReadsZero_updated hgrown hindex hroom value).mp hgap
  · intro h fresh
    obtain ⟨room, hgrown, hroom, hsame, hrun⟩ :=
      hv.fill_returns hindex hop (hdef fresh)
    refine ⟨_, hrun, ?_⟩
    apply (CadArray.gapReadsZero_updated hgrown hindex hroom value).mpr
    intro i hi hlt
    rcases h with hzero | hready
    · subst hzero
      exact Vector.ext nofun
    · exact hready.slot_eq hv hgrown hroom hsame hi hlt

/-- The third slot of a new array is filled. -/
theorem array_gap_reads_zero_first :
    ∃ next, Returns ((newArray 1).step (fun _ _ => 7) (.insert 2 #v[1])) next ∧
      (newArray 1).GapReadsZero next 2 :=
  (array_gap_reads_zero_iff ⟨fun _ _ => 7, [], returns_pure_self _⟩
    (by decide) (Or.inl rfl) (fun _ => Returns.defined ⟨4, rfl⟩)).mpr
    (Or.inr (by simp [CadArray.GapReady, newArray])) _

/-- A deleted element comes back in the gap. -/
theorem array_gap_reads_deleted :
    ∃ this next, Returns (CadArray.run (fun _ _ => 0)
        [.insert 0 #v[1], .del 0] (newArray 1)) this ∧
      Returns (this.step (fun _ _ => 0) (.insert 1 #v[2])) next ∧
      this.count = 0 ∧ ¬ this.GapReadsZero next 1 := by
  refine ⟨_, _, ⟨8, rfl⟩, ⟨8, rfl⟩, rfl, ?_⟩
  intro hgap
  exact absurd (hgap 0 (by decide) (by decide)) (by decide)

end Libcad
