/-
The accesses of the array operations.  All of them stay inside the block but
one: `del` zeroes the slot after the one it vacates.
-/
import Libcad.ArrayInvariant

namespace Libcad

open Proc

namespace CadArray

variable {eltsize : Nat} {fresh : Fresh} {this that : CadArray eltsize}

def Inside (this : CadArray eltsize) : Prop :=
  ∀ access ∈ this.content.accesses, access.Within

/-- A property of every call of a sequence, of the array before the call and
the array after it. -/
def EachStep (fresh : Fresh)
    (P : CadArray eltsize → ArrayOp eltsize → CadArray eltsize → Prop) :
    List (ArrayOp eltsize) → CadArray eltsize → Prop
  | [], _ => True
  | op :: ops, this => ∃ next, Returns (this.step fresh op) next ∧
      P this op next ∧ EachStep fresh P ops next

/-- No access was outside the block, and a slot vacated by `del` is zeroed. -/
def StaysInside (this : CadArray eltsize) (op : ArrayOp eltsize)
    (next : CadArray eltsize) : Prop :=
  next.Inside ∧ ∀ index, op = .del index → index < this.count →
    next.slot next.count = zeros eltsize

/-- The last element is zero before an element is deleted, and there is a free
slot if it is not the last one. -/
def Deletable (this : CadArray eltsize) : ArrayOp eltsize → Prop
  | .del index => index < this.count → eltsize = 0 ∨
      this.slot (this.count - 1) = zeros eltsize ∧
        (index + 1 = this.count ∨ this.count < this.capacity)
  | .insert _ _ | .update _ _ | .clear => True

theorem newArray_inside : (newArray eltsize).Inside := by
  intro access h
  cases h

theorem Grown.inside (hgrown : Grown fresh this that) (h : this.Inside) :
    that.Inside := by
  intro access haccess
  rcases hgrown.within access haccess with hold | hwithin
  · exact h access hold
  · exact hwithin

theorem Inside.inserted (h : this.Inside) (hv : this.Valid) {index : Nat}
    (hindex : index < this.capacity) (hroom : this.count < this.capacity)
    (value : Vector UInt8 eltsize) : (this.inserted index value).Inside := by
  have hplaced : Access.Within
      ⟨index * eltsize, eltsize, this.content.size⟩ := by
    have := hv.within (a := index) (k := 1) hindex
    rwa [Nat.one_mul] at this
  intro access haccess
  rw [CadArray.inserted] at haccess
  dsimp only at haccess
  split at haccess
  next hshift =>
    rcases List.mem_append.mp haccess with haccess | haccess
    · rcases List.mem_append.mp haccess with haccess | haccess
      · rcases List.mem_append.mp haccess with haccess | haccess
        · exact h access haccess
        · rw [List.mem_singleton.mp haccess]
          exact hv.within (by omega)
      · rw [List.mem_singleton.mp haccess]
        exact hv.within (by omega)
    · rw [List.mem_singleton.mp haccess]
      exact hplaced
  next hshift =>
    rcases List.mem_append.mp haccess with haccess | haccess
    · exact h access haccess
    · rw [List.mem_singleton.mp haccess]
      exact hplaced

theorem Inside.updated (h : this.Inside) (hv : this.Valid) {index : Nat}
    (hindex : index < this.capacity) (value : Vector UInt8 eltsize) :
    (this.updated index value).Inside := by
  intro access haccess
  rcases List.mem_append.mp haccess with haccess | haccess
  · exact h access haccess
  · rw [List.mem_singleton.mp haccess]
    have hwithin := hv.within (a := index) (k := 1) hindex
    rwa [Nat.one_mul] at hwithin

theorem Inside.cleared (h : this.Inside) (hv : this.Valid) :
    this.cleared.Inside := by
  intro access haccess
  rcases List.mem_append.mp haccess with haccess | haccess
  · exact h access haccess
  · rw [List.mem_singleton.mp haccess]
    have hwithin := hv.within (a := 0) (k := this.capacity) (by omega)
    rwa [Nat.zero_mul] at hwithin

/-- The accesses of `del`: the one after the last element is inside the block
only if there is a slot. -/
theorem Inside.deleted_iff (h : this.Inside) (hv : this.Valid) {index : Nat}
    (hindex : index < this.count) :
    (this.deleted index).Inside ↔
      eltsize = 0 ∨ index + 1 = this.count ∨ this.count < this.capacity := by
  have hcount := hv.count_le
  by_cases hmore : index < this.count - 1
  · have haccesses : (this.deleted index).content.accesses =
        this.content.accesses ++
          [⟨(index + 1) * eltsize, (this.count - 1 - index) * eltsize,
              this.content.size⟩] ++
          [⟨index * eltsize, (this.count - 1 - index) * eltsize,
              this.content.size⟩] ++
          [⟨this.count * eltsize, eltsize, this.content.size⟩] := by
      rw [deleted]
      dsimp only
      rw [if_pos hmore]
      rfl
    have hlast : Access.Within
        ⟨this.count * eltsize, eltsize, this.content.size⟩ ↔
        eltsize = 0 ∨ this.count < this.capacity := by
      rw [Access.Within, hv.size_eq]
      dsimp only
      constructor
      · intro hle
        by_contra hne
        have hfull : this.count = this.capacity := by omega
        rw [hfull] at hle
        omega
      · rintro (hzero | hlt)
        · subst hzero
          omega
        · have hle : (this.count + 1) * eltsize ≤ this.capacity * eltsize :=
            Nat.mul_le_mul_right eltsize hlt
          rwa [Nat.add_mul, Nat.one_mul] at hle
    constructor
    · intro hinside
      have hmem : (⟨this.count * eltsize, eltsize, this.content.size⟩ :
          Access) ∈ (this.deleted index).content.accesses := by
        rw [haccesses]
        exact List.mem_append_right _ List.mem_cons_self
      rcases hlast.mp (hinside _ hmem) with hzero | hlt
      · exact Or.inl hzero
      · exact Or.inr (Or.inr hlt)
    · intro hfree access haccess
      rw [haccesses] at haccess
      rcases List.mem_append.mp haccess with haccess | haccess
      · rcases List.mem_append.mp haccess with haccess | haccess
        · rcases List.mem_append.mp haccess with haccess | haccess
          · exact h access haccess
          · rw [List.mem_singleton.mp haccess]
            exact hv.within (by omega)
        · rw [List.mem_singleton.mp haccess]
          exact hv.within (by omega)
      · rw [List.mem_singleton.mp haccess]
        apply hlast.mpr
        omega
  · constructor
    · intro _
      omega
    · intro _ access haccess
      rw [deleted] at haccess
      dsimp only at haccess
      rw [if_neg hmore] at haccess
      exact h access haccess

/-- `del` leaves in the slot it vacates what the last element was. -/
theorem slot_vacated (hv : this.Valid) {index : Nat}
    (hindex : index < this.count) :
    (this.deleted index).slot (this.deleted index).count =
      this.slot (this.count - 1) := by
  have hcount := hv.count_le
  rw [count_deleted, slot_deleted hv hindex (by omega), if_neg (by omega),
    if_neg (by omega)]

/-- One call stays inside the block exactly when it is deletable. -/
theorem Valid.step_inside (hv : this.Valid) (h : this.Inside)
    {op : ArrayOp eltsize} (hdef : Defined (this.step fresh op)) :
    ∃ next, Returns (this.step fresh op) next ∧ next.Valid ∧
      (StaysInside this op next ↔ this.Deletable op) := by
  cases op with
  | insert index value =>
      obtain ⟨room, hgrown, hindex, hroom, hrun⟩ :=
        insert_returns hv hdef.bind_left
      have hinside := (hgrown.inside h).inserted hgrown.valid hindex hroom value
      exact ⟨_, hrun.bind (returns_pure_self _),
        hgrown.valid.inserted hindex hroom value,
        iff_of_true ⟨hinside, nofun⟩ trivial⟩
  | update index value =>
      obtain ⟨room, hgrown, hindex, hrun⟩ := update_returns hv hdef.bind_left
      have hinside := (hgrown.inside h).updated hgrown.valid hindex value
      exact ⟨_, hrun.bind (returns_pure_self _),
        hgrown.valid.updated hindex value,
        iff_of_true ⟨hinside, nofun⟩ trivial⟩
  | del index =>
      by_cases hindex : index < this.count
      · refine ⟨_, (del_returns hv hindex).bind (returns_pure_self _),
          hv.deleted index, ?_⟩
        rw [StaysInside, Deletable, h.deleted_iff hv hindex,
          slot_vacated hv hindex]
        constructor
        · rintro ⟨hfree, hzeroed⟩ _
          have hlast := hzeroed index rfl hindex
          rcases hfree with hzero | hfree
          · exact Or.inl hzero
          · exact Or.inr ⟨hlast, hfree⟩
        · intro hcond
          rcases hcond hindex with hzero | ⟨hlast, hfree⟩
          · subst hzero
            exact ⟨Or.inl rfl, fun _ _ _ => Vector.ext nofun⟩
          · exact ⟨Or.inr hfree, fun _ _ _ => hlast⟩
      · refine ⟨this, (del_absent (by omega)).bind (returns_pure_self _), hv,
          iff_of_true ⟨h, ?_⟩ (fun hlt => absurd hlt hindex)⟩
        intro index' heq hlt
        cases heq
        exact absurd hlt hindex
  | clear =>
      exact ⟨_, clear_returns hv, hv.cleared,
        iff_of_true ⟨h.cleared hv, nofun⟩ trivial⟩

theorem Valid.run_inside (ops : List (ArrayOp eltsize)) :
    ∀ {this : CadArray eltsize}, this.Valid → this.Inside →
      Defined (run fresh ops this) →
      (EachStep fresh StaysInside ops this ↔
        EachStep fresh (fun this op _ => this.Deletable op) ops this) := by
  induction ops with
  | nil => exact fun _ _ _ => Iff.rfl
  | cons op ops ih =>
      intro this hv h hdef
      obtain ⟨next, hstep, hnext, hiff⟩ :=
        hv.step_inside h hdef.bind_left
      have hdef' := hdef.bind_right hstep
      constructor
      · rintro ⟨next', hstep', hstays, hrest⟩
        cases hstep.unique hstep'
        exact ⟨next, hstep, hiff.mp hstays,
          (ih hnext hstays.1 hdef').mp hrest⟩
      · rintro ⟨next', hstep', hdeletable, hrest⟩
        cases hstep.unique hstep'
        have hstays := hiff.mpr hdeletable
        exact ⟨next, hstep, hstays, (ih hnext hstays.1 hdef').mpr hrest⟩

/-- A run whose calls all stay inside the block ends with no access outside
it. -/
theorem EachStep.inside (ops : List (ArrayOp eltsize)) :
    ∀ {this : CadArray eltsize}, this.Inside →
      EachStep fresh StaysInside ops this →
      ∃ last, Returns (run fresh ops this) last ∧ last.Inside := by
  induction ops with
  | nil => exact fun h _ => ⟨_, returns_pure_self _, h⟩
  | cons op ops ih =>
      rintro this - ⟨next, hstep, hstays, hrest⟩
      obtain ⟨last, hrun, hinside⟩ := ih hstays.1 hrest
      exact ⟨last, hstep.bind hrun, hinside⟩

end CadArray

variable {eltsize : Nat}

/-- In a run of a new array all accesses stay inside the block, and all slots
vacated are zeroed, exactly when each call is deletable at its time. -/
theorem array_stays_inside_iff (fresh : Fresh) (ops : List (ArrayOp eltsize))
    (hdef : Defined (CadArray.run fresh ops (newArray eltsize))) :
    CadArray.EachStep fresh CadArray.StaysInside ops (newArray eltsize) ↔
      CadArray.EachStep fresh (fun this op _ => this.Deletable op) ops
        (newArray eltsize) :=
  CadArray.newArray_valid.run_inside ops CadArray.newArray_inside hdef

/-- An element is deleted before a zero one. -/
theorem array_stays_inside_zero :
    CadArray.EachStep (fun _ _ => 7) CadArray.StaysInside
      [.insert 0 #v[1], .insert 1 #v[0], .del 0, .clear] (newArray 1) :=
  (array_stays_inside_iff (fun _ _ => 7)
    [.insert 0 #v[1], .insert 1 #v[0], .del 0, .clear]
    (Returns.defined ⟨8, rfl⟩)).mpr
    ⟨_, ⟨8, rfl⟩, trivial, _, ⟨8, rfl⟩, trivial, _, ⟨8, rfl⟩,
      fun _ => Or.inr (by decide), _, ⟨8, rfl⟩, trivial, trivial⟩

/-- The first of four elements is deleted from a full array. -/
theorem array_writes_outside :
    Defined (CadArray.run (fun _ _ => 0) [.insert 0 #v[1], .insert 1 #v[2],
      .insert 2 #v[3], .insert 3 #v[4], .del 0] (newArray 1)) ∧
    ¬ CadArray.EachStep (fun _ _ => 0) CadArray.StaysInside
      [.insert 0 #v[1], .insert 1 #v[2], .insert 2 #v[3], .insert 3 #v[4],
        .del 0] (newArray 1) := by
  refine ⟨Returns.defined ⟨8, rfl⟩, ?_⟩
  intro h
  obtain ⟨last, hrun, hinside⟩ :=
    CadArray.EachStep.inside _ CadArray.newArray_inside h
  cases hrun.unique ⟨8, rfl⟩
  have hpast : Access.Within ⟨4, 1, 4⟩ := hinside ⟨4, 1, 4⟩ (by decide)
  exact absurd hpast (by decide)

end Libcad
