/-
The whole interface of an array in the hands of a client: sorting, reading and
counting beside the calls that change it.
-/
import Libcad.ArrayRefines
import Libcad.Client

namespace Libcad

open Proc

variable {eltsize : Nat}

/-- The comparator orders all elements, equal ones in any order. -/
structure Orders {α : Type} (comparator : α → α → Int) : Prop where
  total : ∀ a b, comparator a b ≤ 0 ∨ comparator b a ≤ 0
  trans : ∀ {a b c}, comparator a b ≤ 0 → comparator b c ≤ 0 →
    comparator a c ≤ 0

/-- `qsort`; nothing is said of a comparator that orders nothing, nor of the
order of equal elements. -/
structure Qsort (α : Type) where
  sort : (α → α → Int) → List α → List α
  perm : ∀ {comparator}, Orders comparator → ∀ l, (sort comparator l).Perm l
  sorted : ∀ {comparator}, Orders comparator → ∀ l,
    (sort comparator l).Pairwise fun a b => comparator a b ≤ 0

/-- Copy elements into the slots from `i` on. -/
def Block.storeSlots (this : Block) :
    Nat → List (Vector UInt8 eltsize) → Block
  | _, [] => this
  | i, value :: values => (this.memcpy (i * eltsize) value).storeSlots (i + 1) values

namespace CadArray

/-- The elements, as `qsort` finds them. -/
def elements (this : CadArray eltsize) : List (Vector UInt8 eltsize) :=
  (List.range this.count).map this.slot

def sort (qsort : Qsort (Vector UInt8 eltsize)) (this : CadArray eltsize)
    (comparator : Vector UInt8 eltsize → Vector UInt8 eltsize → Int) :
    CadArray eltsize :=
  { this with
    content := this.content.storeSlots 0 (qsort.sort comparator this.elements) }

end CadArray

/-- The calls of `cad_array_t`. -/
inductive ArrayCall (eltsize : Nat)
  | count
  | get (index : Nat)
  | insert (index : Nat) (value : Vector UInt8 eltsize)
  | update (index : Nat) (value : Vector UInt8 eltsize)
  | del (index : Nat)
  | sort (comparator : Vector UInt8 eltsize → Vector UInt8 eltsize → Int)
  | clear

/-- What a call returns; of a pointer that is not NULL, the element it points
to. -/
inductive ArrayReply (eltsize : Nat)
  | none
  | count (count : Nat)
  | element (value : Option (Vector UInt8 eltsize))

def CadArray.call (fresh : Fresh) (qsort : Qsort (Vector UInt8 eltsize))
    (this : CadArray eltsize) :
    ArrayCall eltsize → Proc (ArrayReply eltsize × CadArray eltsize)
  | .count => pure (.count this.count, this)
  | .get index =>
      pure (.element ((this.get index).map (this.content.read eltsize)), this)
  | .insert index value => do
      let (result, this) ← this.insert fresh index value
      pure (.element (some (this.content.read eltsize result)), this)
  | .update index value => do
      let (result, this) ← this.update fresh index value
      pure (.element (some (this.content.read eltsize result)), this)
  | .del index => do
      let (result, this) ← this.del index
      pure (.element (result.map (this.content.read eltsize)), this)
  | .sort comparator => pure (.none, this.sort qsort comparator)
  | .clear => do
      let this ← this.clear
      pure (.none, this)

/-- The call leaves no gap, and sorts by an order. -/
def ArrayCall.Allowed (elements : List (Vector UInt8 eltsize)) :
    ArrayCall eltsize → Prop
  | .insert index _ | .update index _ => index ≤ elements.length
  | .sort comparator => Orders comparator
  | .count | .get _ | .del _ | .clear => True

/-- What a list answers, and the list after the call.  The pointer that `del`
returns is to the next element, or to the deleted one if that was the last. -/
def ArrayCall.Serves (elements : List (Vector UInt8 eltsize))
    (call : ArrayCall eltsize) (reply : ArrayReply eltsize)
    (after : List (Vector UInt8 eltsize)) : Prop :=
  match call with
  | .count => reply = .count elements.length ∧ after = elements
  | .get index => reply = .element elements[index]? ∧ after = elements
  | .insert index value => reply = .element (some value) ∧
      after = elements.insertIdx index value
  | .update index value => reply = .element (some value) ∧
      after = ArrayOp.after elements (.update index value)
  | .del index => reply = .element (elements[index + 1]?.or elements[index]?) ∧
      after = elements.eraseIdx index
  | .sort comparator => reply = .none ∧ after.Perm elements ∧
      after.Pairwise fun a b => comparator a b ≤ 0
  | .clear => reply = .none ∧ after = []

theorem Block.size_storeSlots (values : List (Vector UInt8 eltsize)) :
    ∀ (this : Block) (i : Nat), (this.storeSlots i values).size = this.size := by
  induction values with
  | nil => exact fun _ _ => rfl
  | cons value values ih => exact fun this i => ih _ (i + 1)

theorem Block.slot_storeSlots {slots : Nat} (values : List (Vector UInt8 eltsize)) :
    ∀ {this : Block} {start i : Nat}, this.size = slots * eltsize →
      i < slots →
      (this.storeSlots start values).slot eltsize i =
        if start ≤ i then (values[i - start]?).getD (this.slot eltsize i)
        else this.slot eltsize i := by
  induction values with
  | nil =>
      intro this start i _ _
      split
      next => rfl
      next => rfl
  | cons value values ih =>
      intro this start i hsize hi
      have hsize' : (this.memcpy (start * eltsize) value).size =
          slots * eltsize := hsize
      rw [storeSlots, ih hsize' hi, slot_memcpy hsize start value hi]
      by_cases heq : i = start
      · subst heq
        rw [if_neg (by omega), if_pos rfl, if_pos (Nat.le_refl i),
          Nat.sub_self]
        rfl
      · rw [if_neg heq]
        by_cases hafter : start + 1 ≤ i
        · have hnext : i - start = i - (start + 1) + 1 := by omega
          rw [if_pos hafter, if_pos (by omega), hnext,
            List.getElem?_cons_succ]
        · rw [if_neg hafter, if_neg (by omega)]

namespace CadArray

variable {fresh : Fresh} {qsort : Qsort (Vector UInt8 eltsize)}
  {this that : CadArray eltsize} {elements : List (Vector UInt8 eltsize)}

theorem Holds.elements_eq (h : this.Holds elements) :
    this.elements = elements := by
  refine List.ext_getElem ?_ fun i hi hi' => ?_
  · rw [CadArray.elements, List.length_map, List.length_range, h.count_eq]
  · simp only [CadArray.elements, List.getElem_map, List.getElem_range]
    exact h.slots i hi'

theorem Holds.sort (h : this.Holds elements)
    {comparator : Vector UInt8 eltsize → Vector UInt8 eltsize → Int}
    (horders : Orders comparator) :
    (this.sort qsort comparator).Holds (qsort.sort comparator elements) := by
  have hlength := (qsort.perm horders elements).length_eq
  have hcount := h.count_eq
  have hle := h.valid.count_le
  rw [CadArray.sort, h.elements_eq]
  refine ⟨⟨hle, ?_, h.valid.size_le⟩, hcount.trans hlength.symm, ?_⟩
  · exact (Block.size_storeSlots _ _ 0).trans h.valid.size_eq
  · intro i hi
    rw [slot, Block.slot_storeSlots _ h.valid.size_eq (by omega),
      if_pos (Nat.zero_le i), Nat.sub_zero, List.getElem?_eq_getElem hi]
    rfl

/-- What is left in the place of a deleted element. -/
theorem Holds.pointed_deleted (h : this.Holds elements) {index : Nat}
    (hindex : index < elements.length) :
    some ((this.deleted index).content.read eltsize (index * eltsize)) =
      elements[index + 1]?.or elements[index]? := by
  have hcount := h.count_eq
  have hle := h.valid.count_le
  have hslot := slot_deleted h.valid (i := index)
    (show index < this.count by omega) (by omega)
  refine (congrArg some hslot).trans ?_
  by_cases hlast : index + 1 < elements.length
  · rw [if_pos ⟨Nat.le_refl index, by omega⟩, List.getElem?_eq_getElem hlast,
      Option.some_or]
    exact congrArg some (h.slots (index + 1) hlast)
  · rw [if_neg (by omega), if_neg (by omega),
      List.getElem?_eq_none (Nat.not_lt.mp hlast), Option.none_or,
      List.getElem?_eq_getElem hindex]
    exact congrArg some (h.slots index hindex)

theorem grow_fits {bound : Nat} (hv : this.Valid) (htwo : 2 ≤ bound)
    (hfits : bound * 2 ≤ intMax) (hsize : bound * 2 * eltsize ≤ intMax)
    (hcap : this.capacity ≤ bound) :
    Returns (CadArray.grow fresh this 2) (this.grown fresh) ∧
      (this.grown fresh).capacity ≤ bound * 2 := by
  have hmul : ∀ {n : Nat}, n ≤ bound * 2 → n * eltsize ≤ intMax :=
    fun hn => Nat.le_trans (Nat.mul_le_mul_right eltsize hn) hsize
  constructor
  · rw [CadArray.grow, CadArray.grown]
    by_cases hzero : this.capacity = 0
    · rw [if_pos hzero, if_pos hzero]
      exact (intMul_returns (by decide)).bind
        ((intMul_returns (hmul (by omega))).bind (returns_pure_self _))
    · rw [if_neg hzero, if_neg hzero]
      have hcount := hv.count_le
      exact (intMul_returns (by omega)).bind
        ((intMul_returns (hmul (by omega))).bind
          ((intMul_returns (hmul (by omega))).bind (returns_pure_self _)))
  · rw [capacity_grown]
    split <;> omega

theorem growTo_fits {bound index : Nat} (hv : this.Valid) (htwo : 2 ≤ bound)
    (hfits : bound * 2 ≤ intMax) (hsize : bound * 2 * eltsize ≤ intMax)
    (hcap : this.capacity ≤ bound * 2) (hindex : index < bound) :
    ∃ last, Returns (growTo fresh index this) last ∧
      last.capacity ≤ bound * 2 := by
  refine loop_returns
    (I := fun s => Grown fresh this s ∧ s.capacity ≤ bound * 2)
    (fun s => index + 1 - s.capacity) ?_ ⟨Grown.refl hv, hcap⟩
  rintro s ⟨hs, hle⟩
  by_cases hfull : s.capacity ≤ index
  · obtain ⟨hrun, hcap'⟩ :=
      @grow_fits _ fresh _ _ hs.valid htwo hfits hsize (by omega)
    have hlt := capacity_lt_grown fresh s
    have hmul := Nat.mul_le_mul_right eltsize hcap'
    refine Or.inl ⟨s.grown fresh, ?_,
      ⟨hs.grow hv (Nat.le_trans hmul hsize), hcap'⟩, by omega⟩
    rw [growStep, if_pos hfull]
    exact hrun.bind (returns_pure_self _)
  · refine Or.inr ⟨s, ?_, hle⟩
    rw [growStep, if_neg hfull]
    exact returns_pure_self _

theorem growFull_fits {bound : Nat} (hv : this.Valid) (htwo : 2 ≤ bound)
    (hfits : bound * 2 ≤ intMax) (hsize : bound * 2 * eltsize ≤ intMax)
    (hcap : this.capacity ≤ bound * 2) (hcount : this.count < bound) :
    ∃ room, Returns (growFull fresh this) room ∧ Grown fresh this room ∧
      room.capacity ≤ bound * 2 := by
  rw [growFull]
  by_cases hfull : this.count = this.capacity
  · obtain ⟨hrun, hcap'⟩ :=
      @grow_fits _ fresh _ _ hv htwo hfits hsize (by omega)
    have hmul := Nat.mul_le_mul_right eltsize hcap'
    rw [if_pos hfull]
    exact ⟨_, hrun, (Grown.refl hv).grow hv (Nat.le_trans hmul hsize), hcap'⟩
  · rw [if_neg hfull]
    exact ⟨this, returns_pure_self _, Grown.refl hv, hcap⟩

/-- The array holds the list, and `n` more elements leave its products within
an `int`. -/
structure Room (bound n : Nat) (this : CadArray eltsize)
    (elements : List (Vector UInt8 eltsize)) : Prop where
  holds : this.Holds elements
  capacity_le : this.capacity ≤ bound * 2
  length_le : elements.length + n ≤ bound

theorem Room.insert {bound n : Nat} (h : this.Room bound (n + 1) elements)
    (htwo : 2 ≤ bound) (hfits : bound * 2 ≤ intMax)
    (hsize : bound * 2 * eltsize ≤ intMax) {index : Nat}
    (hdense : index ≤ elements.length) (value : Vector UInt8 eltsize) :
    ∃ result next, Returns (this.insert fresh index value) (result, next) ∧
      next.content.read eltsize result = value ∧
      next.Room bound n (elements.insertIdx index value) := by
  have hcount := h.holds.count_eq
  have hlength := h.length_le
  obtain ⟨mid, hmid, hgrown, hcap⟩ := @growFull_fits _ fresh _ _ h.holds.valid
    htwo hfits hsize h.capacity_le (by omega)
  obtain ⟨last, hlast, hcap'⟩ := @growTo_fits _ fresh _ _ index hgrown.valid
    htwo hfits hsize hcap (by omega)
  obtain ⟨r, hrun, hr⟩ : ∃ r, Returns (this.insert fresh index value) r ∧
      r.2.capacity = last.capacity :=
    ⟨_, hmid.bind (hlast.bind (returns_pure_self _)), rfl⟩
  obtain ⟨room, hroom, hindex, hlt, hinsert⟩ :=
    insert_returns h.holds.valid hrun.defined
  have hsame : last.capacity = room.capacity :=
    hr.symm.trans (congrArg (fun r => r.2.capacity) (hrun.unique hinsert))
  refine ⟨_, _, hinsert, ?_,
    (h.holds.grown hroom).inserted hdense hlt value, ?_, ?_⟩
  · refine (slot_inserted hroom.valid value hindex).trans ?_
    rw [if_pos rfl]
  · exact hsame ▸ hcap'
  · rw [List.length_insertIdx_of_le_length hdense]
    omega

theorem Room.update {bound n : Nat} (h : this.Room bound (n + 1) elements)
    (htwo : 2 ≤ bound) (hfits : bound * 2 ≤ intMax)
    (hsize : bound * 2 * eltsize ≤ intMax) {index : Nat}
    (hdense : index ≤ elements.length) (value : Vector UInt8 eltsize) :
    ∃ result next, Returns (this.update fresh index value) (result, next) ∧
      next.content.read eltsize result = value ∧
      next.Room bound n (ArrayOp.after elements (.update index value)) := by
  have hlength := h.length_le
  obtain ⟨last, hlast, hcap⟩ := @growTo_fits _ fresh _ _ index h.holds.valid
    htwo hfits hsize h.capacity_le (by omega)
  obtain ⟨r, hrun, hr⟩ : ∃ r, Returns (this.update fresh index value) r ∧
      r.2.capacity = last.capacity :=
    ⟨_, hlast.bind (returns_pure_self _), rfl⟩
  obtain ⟨room, hroom, hindex, hupdate⟩ :=
    update_returns h.holds.valid hrun.defined
  have hsame : last.capacity = room.capacity :=
    hr.symm.trans (congrArg (fun r => r.2.capacity) (hrun.unique hupdate))
  refine ⟨_, _, hupdate, ?_,
    (h.holds.grown hroom).updated hdense hindex value, ?_, ?_⟩
  · refine (slot_updated hroom.valid value hindex).trans ?_
    rw [if_pos rfl]
  · exact hsame ▸ hcap
  · rw [ArrayOp.after]
    split
    next =>
      rw [List.length_set]
      omega
    next =>
      rw [List.length_append, List.length_singleton]
      omega

theorem serves (fresh : Fresh) (qsort : Qsort (Vector UInt8 eltsize))
    {bound : Nat} (htwo : 2 ≤ bound) (hfits : bound * 2 ≤ intMax)
    (hsize : bound * 2 * eltsize ≤ intMax) :
    ServesClients (call fresh qsort) ArrayCall.Serves ArrayCall.Allowed
      (Room bound) where
  call := by
    intro n this elements call h hallowed
    have hcount := h.holds.count_eq
    have hlength := h.length_le
    have hkept : this.Room bound n elements :=
      ⟨h.holds, h.capacity_le, by omega⟩
    cases call with
    | count =>
        refine ⟨_, this, elements, returns_pure_self _, ⟨?_, rfl⟩, hkept⟩
        rw [hcount]
    | get index =>
        refine ⟨_, this, elements, returns_pure_self _, ⟨?_, rfl⟩, hkept⟩
        rw [h.holds.get_eq]
    | insert index value =>
        obtain ⟨result, next, hrun, hread, hnext⟩ :=
          h.insert htwo hfits hsize hallowed value
        refine ⟨_, next, _, hrun.bind (returns_pure_self _), ⟨?_, rfl⟩, hnext⟩
        rw [hread]
    | update index value =>
        obtain ⟨result, next, hrun, hread, hnext⟩ :=
          h.update htwo hfits hsize hallowed value
        refine ⟨_, next, _, hrun.bind (returns_pure_self _), ⟨?_, rfl⟩, hnext⟩
        rw [hread]
    | del index =>
        by_cases hindex : index < elements.length
        · refine ⟨_, _, _, (del_returns h.holds.valid (by omega)).bind
            (returns_pure_self _), ⟨?_, rfl⟩, h.holds.deleted hindex, ?_, ?_⟩
          · rw [Option.map_some, h.holds.pointed_deleted hindex]
          · rw [capacity_deleted]
            exact h.capacity_le
          · rw [List.length_eraseIdx_of_lt hindex]
            omega
        · refine ⟨_, this, elements, (del_absent (by omega)).bind
            (returns_pure_self _), ⟨?_, ?_⟩, hkept⟩
          · rw [List.getElem?_eq_none (by omega),
              List.getElem?_eq_none (by omega)]
            rfl
          · rw [List.eraseIdx_of_length_le (by omega)]
    | sort comparator =>
        have hperm := qsort.perm hallowed elements
        exact ⟨_, _, _, returns_pure_self _,
          ⟨rfl, hperm, qsort.sorted hallowed elements⟩,
          h.holds.sort hallowed, h.capacity_le, by
            rw [hperm.length_eq]
            omega⟩
    | clear =>
        exact ⟨_, _, _, (clear_returns h.holds.valid).bind
          (returns_pure_self _), ⟨rfl, rfl⟩, cleared_holds h.holds.valid,
          h.capacity_le, by
            rw [List.length_nil]
            omega⟩

end CadArray

/-- A client whose inserts and updates leave no gap is served by a new array as
by an empty list, sorting included, while twice as many elements as it makes
calls fit an `int`, and the four that the first `grow` asks for. -/
theorem array_serves_client {A : Type} (fresh : Fresh)
    (qsort : Qsort (Vector UInt8 eltsize))
    (client : Client (ArrayCall eltsize) (ArrayReply eltsize) A) {n : Nat}
    (hfits : n * 2 ≤ intMax) (hsize : max (n * 2) 4 * eltsize ≤ intMax)
    (hclient : client.Obeys ArrayCall.Serves ArrayCall.Allowed n []) :
    ∃ a this elements, Returns (client.run (CadArray.call fresh qsort)
        (newArray eltsize)) (a, this) ∧
      client.Ends ArrayCall.Serves [] a elements ∧
      this.Holds elements := by
  have hnew : CadArray.Room (max n 2) n (newArray eltsize) [] :=
    ⟨CadArray.newArray_holds, Nat.zero_le _, by
      rw [List.length_nil, Nat.zero_add]
      exact Nat.le_max_left n 2⟩
  have hfour : 2 * 2 ≤ intMax := by decide
  have hdouble : max n 2 * 2 = max (n * 2) 4 := by omega
  obtain ⟨a, m, this, elements, hrun, hends, hroom⟩ :=
    (CadArray.serves fresh qsort (Nat.le_max_right n 2)
      (hdouble ▸ Nat.max_le.mpr ⟨hfits, hfour⟩) (hdouble ▸ hsize)).run client
      hnew hclient
  exact ⟨a, this, elements, hrun, hends, hroom.holds⟩

def Qsort.merging (α : Type) : Qsort α where
  sort comparator l := l.mergeSort fun a b => decide (comparator a b ≤ 0)
  perm _ l := List.mergeSort_perm l _
  sorted h l := by
    refine (List.pairwise_mergeSort ?_ ?_ l).imp of_decide_eq_true
    · intro a b c hab hbc
      exact decide_eq_true
        (h.trans (of_decide_eq_true hab) (of_decide_eq_true hbc))
    · intro a b
      rw [Bool.or_eq_true, decide_eq_true_eq, decide_eq_true_eq]
      exact h.total a b

def compareBytes (a b : Vector UInt8 1) : Int := (a[0].toNat : Int) - b[0].toNat

theorem compareBytes_orders : Orders compareBytes where
  total a b := by
    rw [compareBytes, compareBytes]
    omega
  trans := by
    intro a b c hab hbc
    rw [compareBytes] at *
    omega

/-- Insert two bytes, sort them, and take the first one out. -/
def leastOfTwo : Client (ArrayCall 1) (ArrayReply 1) (ArrayReply 1) :=
  .call (.insert 0 #v[2]) fun _ =>
    .call (.insert 1 #v[1]) fun _ =>
      .call (.sort compareBytes) fun _ =>
        .call (.get 0) fun least =>
          .call (.del 0) fun _ => .done least

theorem array_serves_client_least :
    ∃ a this elements, Returns (leastOfTwo.run
        (CadArray.call (fun _ _ => 7) (Qsort.merging _)) (newArray 1))
        (a, this) ∧
      leastOfTwo.Ends ArrayCall.Serves [] a elements ∧
      this.Holds elements := by
  refine array_serves_client (fun _ _ => 7) (Qsort.merging _) leastOfTwo
    (show 5 * 2 ≤ intMax by decide) (by decide) ⟨Nat.le_refl 0, ?_⟩
  rintro _ _ ⟨-, rfl⟩
  refine ⟨Nat.le_refl 1, ?_⟩
  rintro _ _ ⟨-, rfl⟩
  exact ⟨compareBytes_orders, fun _ _ _ =>
    ⟨trivial, fun _ _ _ => ⟨trivial, fun _ _ _ => trivial⟩⟩⟩

end Libcad
