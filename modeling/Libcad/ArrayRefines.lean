/-
The array refines a list, as long as nothing is inserted or updated past the
end of it.
-/
import Libcad.ArrayInvariant
import Mathlib.Data.List.Basic

namespace Libcad

open Proc

variable {eltsize : Nat}

def ArrayOp.after (elements : List (Vector UInt8 eltsize)) :
    ArrayOp eltsize → List (Vector UInt8 eltsize)
  | .insert index value => elements.insertIdx index value
  | .update index value =>
      if index < elements.length then elements.set index value
      else elements ++ [value]
  | .del index => elements.eraseIdx index
  | .clear => []

/-- The call leaves no gap after the last element. -/
def ArrayOp.Dense (elements : List (Vector UInt8 eltsize)) :
    ArrayOp eltsize → Prop
  | .insert index _ | .update index _ => index ≤ elements.length
  | .del _ | .clear => True

/-- No call of the sequence leaves a gap. -/
def DenseHistory :
    List (Vector UInt8 eltsize) → List (ArrayOp eltsize) → Prop
  | _, [] => True
  | elements, op :: ops => op.Dense elements ∧ DenseHistory (op.after elements) ops

def listAfter (elements : List (Vector UInt8 eltsize)) (ops : List (ArrayOp eltsize)) :
    List (Vector UInt8 eltsize) :=
  ops.foldl ArrayOp.after elements

namespace CadArray

variable {fresh : Fresh} {this that : CadArray eltsize}

/-- The array holds the list. -/
structure Holds (this : CadArray eltsize)
    (elements : List (Vector UInt8 eltsize)) : Prop where
  valid : this.Valid
  count_eq : this.count = elements.length
  slots : ∀ i, (h : i < elements.length) → this.slot i = elements[i]

theorem newArray_holds : (newArray eltsize).Holds [] where
  valid := newArray_valid
  count_eq := rfl
  slots i h := absurd h (Nat.not_lt_zero i)

theorem Holds.grown {elements : List (Vector UInt8 eltsize)}
    (h : this.Holds elements) (hgrown : Grown fresh this that) :
    that.Holds elements where
  valid := hgrown.valid
  count_eq := hgrown.count_eq.trans h.count_eq
  slots i hi := by
    rw [hgrown.slot_eq h.valid (h.count_eq ▸ hi)]
    exact h.slots i hi

theorem Holds.inserted {elements : List (Vector UInt8 eltsize)}
    (h : this.Holds elements) {index : Nat} (hdense : index ≤ elements.length)
    (hroom : this.count < this.capacity) (value : Vector UInt8 eltsize) :
    (this.inserted index value).Holds (elements.insertIdx index value) := by
  have hcount := h.count_eq
  have hlength : (elements.insertIdx index value).length =
      elements.length + 1 := List.length_insertIdx_of_le_length hdense value
  refine ⟨h.valid.inserted (by omega) hroom value, ?_, ?_⟩
  · rw [hlength, CadArray.inserted]
    dsimp only
    split <;> omega
  · intro i hi
    rw [hlength] at hi
    rw [slot_inserted h.valid value (by omega), List.getElem_insertIdx]
    by_cases heq : i = index
    · subst heq
      rw [if_pos rfl, dif_neg (Nat.lt_irrefl i), dif_pos rfl]
    · rw [if_neg heq]
      by_cases hbefore : i < index
      · rw [if_neg (by omega), dif_pos hbefore]
        exact h.slots i (by omega)
      · rw [if_pos (by omega), dif_neg hbefore, dif_neg heq]
        exact h.slots (i - 1) (by omega)

theorem Holds.updated {elements : List (Vector UInt8 eltsize)}
    (h : this.Holds elements) {index : Nat} (hdense : index ≤ elements.length)
    (hroom : index < this.capacity) (value : Vector UInt8 eltsize) :
    (this.updated index value).Holds
      (ArrayOp.after elements (.update index value)) := by
  have hcount := h.count_eq
  have hle := h.valid.count_le
  have hvalid := h.valid.updated hroom value
  rw [ArrayOp.after]
  by_cases hreplace : index < elements.length
  · rw [if_pos hreplace]
    refine ⟨hvalid, ?_, ?_⟩
    · rw [List.length_set, ← hcount, CadArray.updated]
      exact if_pos (by omega)
    · intro i hi
      rw [List.length_set] at hi
      rw [slot_updated h.valid value (by omega), List.getElem_set]
      by_cases heq : i = index
      · rw [if_pos heq, if_pos heq.symm]
      · rw [if_neg heq, if_neg (Ne.symm heq)]
        exact h.slots i hi
  · rw [if_neg hreplace]
    refine ⟨hvalid, ?_, ?_⟩
    · rw [List.length_append, List.length_singleton, CadArray.updated]
      dsimp only
      rw [if_neg (by omega)]
      omega
    · intro i hi
      rw [List.length_append, List.length_singleton] at hi
      rw [slot_updated h.valid value (by omega)]
      by_cases heq : i = index
      · rw [if_pos heq, List.getElem_append_right (by omega)]
        exact (List.getElem_singleton _).symm
      · rw [if_neg heq, List.getElem_append_left (by omega)]
        exact h.slots i (by omega)

theorem Holds.deleted {elements : List (Vector UInt8 eltsize)}
    (h : this.Holds elements) {index : Nat} (hindex : index < elements.length) :
    (this.deleted index).Holds (elements.eraseIdx index) := by
  have hcount := h.count_eq
  have hle := h.valid.count_le
  have hlength : (elements.eraseIdx index).length = elements.length - 1 :=
    List.length_eraseIdx_of_lt hindex
  refine ⟨h.valid.deleted index, ?_, ?_⟩
  · rw [hlength, count_deleted, hcount]
  · intro i hi
    rw [hlength] at hi
    rw [slot_deleted h.valid (by omega) (by omega), List.getElem_eraseIdx]
    by_cases hbefore : i < index
    · rw [if_neg (by omega), if_neg (by omega), dif_pos hbefore]
      exact h.slots i (by omega)
    · rw [if_pos (by omega), dif_neg hbefore]
      exact h.slots (i + 1) (by omega)

theorem cleared_holds (hv : this.Valid) : this.cleared.Holds [] where
  valid := hv.cleared
  count_eq := rfl
  slots i h := absurd h (Nat.not_lt_zero i)

/-- Every dense call does to the list held what it does to lists. -/
theorem Holds.step {elements : List (Vector UInt8 eltsize)}
    (h : this.Holds elements) {op : ArrayOp eltsize}
    (hdense : op.Dense elements) (hdef : Defined (this.step fresh op)) :
    ∃ next, Returns (this.step fresh op) next ∧
      next.Holds (op.after elements) := by
  have hcount := h.count_eq
  cases op with
  | insert index value =>
      obtain ⟨room, hgrown, hindex, hroom, hrun⟩ :=
        insert_returns h.valid hdef.bind_left
      exact ⟨_, hrun.bind (returns_pure_self _),
        (h.grown hgrown).inserted hdense hroom value⟩
  | update index value =>
      obtain ⟨room, hgrown, hindex, hrun⟩ :=
        update_returns h.valid hdef.bind_left
      exact ⟨_, hrun.bind (returns_pure_self _),
        (h.grown hgrown).updated hdense hindex value⟩
  | del index =>
      by_cases hindex : index < elements.length
      · exact ⟨_, (del_returns h.valid (hcount ▸ hindex)).bind
          (returns_pure_self _), h.deleted hindex⟩
      · refine ⟨_, (del_absent (by omega)).bind (returns_pure_self _), ?_⟩
        rw [ArrayOp.after, List.eraseIdx_of_length_le (by omega)]
        exact h
  | clear => exact ⟨_, clear_returns h.valid, cleared_holds h.valid⟩

theorem Holds.run (ops : List (ArrayOp eltsize)) :
    ∀ {this : CadArray eltsize} {elements : List (Vector UInt8 eltsize)},
      this.Holds elements → DenseHistory elements ops →
      Defined (run fresh ops this) →
      ∃ last, Returns (run fresh ops this) last ∧
        last.Holds (listAfter elements ops) := by
  induction ops with
  | nil =>
      intro this elements h _ _
      exact ⟨this, returns_pure_self _, h⟩
  | cons op ops ih =>
      intro this elements h hdense hdef
      obtain ⟨next, hstep, hnext⟩ := h.step hdense.1 hdef.bind_left
      obtain ⟨last, hrun, hlast⟩ :=
        ih hnext hdense.2 (hdef.bind_right hstep)
      exact ⟨last, hstep.bind hrun, hlast⟩

theorem Holds.get_eq {elements : List (Vector UInt8 eltsize)}
    (h : this.Holds elements) (i : Nat) :
    (this.get i).map (this.content.read eltsize) = elements[i]? := by
  have hcount := h.count_eq
  have hle := h.valid.count_le
  rw [get]
  by_cases hi : i < elements.length
  · rw [if_pos (by omega), Option.map_some, h.valid.uintMul_eq (by omega),
      List.getElem?_eq_getElem hi, ← h.slots i hi]
    rfl
  · rw [if_neg (by omega), List.getElem?_eq_none (by omega), Option.map_none]

end CadArray

/-- After every dense sequence of calls whose products fit an `int`, a new
array counts and reads as the list. -/
theorem array_refines_list (fresh : Fresh) (ops : List (ArrayOp eltsize))
    (hdense : DenseHistory [] ops)
    (hdef : Defined (CadArray.run fresh ops (newArray eltsize))) :
    ∃ this, Returns (CadArray.run fresh ops (newArray eltsize)) this ∧
      this.count = (listAfter [] ops).length ∧
      ∀ i, (this.get i).map (this.content.read eltsize) =
        (listAfter [] ops)[i]? := by
  obtain ⟨this, hrun, h⟩ := CadArray.newArray_holds.run ops hdense hdef
  exact ⟨this, hrun, h.count_eq, h.get_eq⟩

/-- Seven calls on an array of single bytes: the fifth element makes it grow,
whatever the new bytes hold. -/
theorem array_refines_list_grown :
    ∃ this, Returns (CadArray.run (fun _ _ => 7)
        [.insert 0 #v[1], .insert 0 #v[2], .update 2 #v[3], .insert 1 #v[4],
          .update 4 #v[5], .del 1, .insert 0 #v[6]] (newArray 1)) this ∧
      this.count = 5 ∧ ∀ i, (this.get i).map (this.content.read 1) =
        [#v[6], #v[2], #v[1], #v[3], #v[5]][i]? :=
  array_refines_list (fun _ _ => 7)
    [.insert 0 #v[1], .insert 0 #v[2], .update 2 #v[3], .insert 1 #v[4],
      .update 4 #v[5], .del 1, .insert 0 #v[6]]
    (by simp [DenseHistory, ArrayOp.Dense, ArrayOp.after])
    (Returns.defined ⟨8, rfl⟩)

end Libcad
