/-
The array of `cad_array.c`: elements of one size in a block that doubles when
it is full.  Pointers into the block are offsets.
-/
import Libcad.Block
import Libcad.Machine

namespace Libcad

open Proc

/-- `struct cad_array_impl`, with `eltsize`, which never changes, as a
parameter.  `content` is NULL while the capacity is 0. -/
structure CadArray (eltsize : Nat) where
  capacity : Nat
  count : Nat
  content : Block

/-- What an allocation finds in its new bytes: for each size of the block and
each offset.  An array never allocates the same size twice. -/
abbrev Fresh := Nat → Nat → UInt8

/-- `cad_new_array` -/
def newArray (eltsize : Nat) : CadArray eltsize := ⟨0, 0, Block.null⟩

namespace CadArray

variable {eltsize : Nat}

def get (this : CadArray eltsize) (index : Nat) : Option Nat :=
  if index < this.count then some (uintMul index eltsize) else none

def grow (fresh : Fresh) (this : CadArray eltsize) (growFactor : Nat) :
    Proc (CadArray eltsize) :=
  if this.capacity = 0 then do
    let newCapacity ← intMul growFactor growFactor
    let size ← intMul newCapacity eltsize
    let content := this.content.malloc size (fresh size)
    pure { this with
      capacity := newCapacity, content := content.memset 0 0 size }
  else do
    let newCapacity ← intMul this.capacity growFactor
    let size ← intMul newCapacity eltsize
    let content := this.content.realloc size (fresh size)
    let used ← intMul this.count eltsize
    pure { this with
      capacity := newCapacity, content := content.memset used 0 used }

/-- `while (index >= this->capacity) grow(this, 2)`, one round -/
def growStep (fresh : Fresh) (index : Nat) (this : CadArray eltsize) :
    Proc (CadArray eltsize ⊕ CadArray eltsize) :=
  if this.capacity ≤ index then do
    let this ← grow fresh this 2
    pure (.inl this)
  else pure (.inr this)

/-- The loop of `insert` and of `update`. -/
def growTo (fresh : Fresh) (index : Nat) (this : CadArray eltsize) :
    Proc (CadArray eltsize) :=
  Proc.loop (growStep fresh index) this

/-- `if (this->count == this->capacity) grow(this, 2)` -/
def growFull (fresh : Fresh) (this : CadArray eltsize) :
    Proc (CadArray eltsize) :=
  if this.count = this.capacity then grow fresh this 2 else pure this

def insert (fresh : Fresh) (this : CadArray eltsize) (index : Nat)
    (value : Vector UInt8 eltsize) : Proc (Nat × CadArray eltsize) := do
  let this ← growFull fresh this
  let this ← growTo fresh index this
  let result := uintMul index eltsize
  let content :=
    if index < this.count then
      this.content.bcopy result (result + eltsize)
        (uintMul (this.count - index) eltsize)
    else this.content
  let count := if index < this.count then this.count + 1 else index + 1
  pure (result,
    { this with count := count, content := content.memcpy result value })

def update (fresh : Fresh) (this : CadArray eltsize) (index : Nat)
    (value : Vector UInt8 eltsize) : Proc (Nat × CadArray eltsize) := do
  let this ← growTo fresh index this
  let result := uintMul index eltsize
  let count := if index < this.count then this.count else index + 1
  pure (result,
    { this with count := count, content := this.content.memcpy result value })

def del (this : CadArray eltsize) (index : Nat) :
    Proc (Option Nat × CadArray eltsize) :=
  if index < this.count then
    let result := uintMul index eltsize
    let count := this.count - 1
    if index < count then do
      let content := this.content.bcopy (result + eltsize) result
        (uintMul (count - index) eltsize)
      let vacated ← intMul (count + 1) eltsize
      pure (some result, { this with
        count := count, content := content.memset vacated 0 eltsize })
    else pure (some result, { this with count := count })
  else pure (none, this)

/-- `clear`; no byte of a NULL block is set. -/
def clear (this : CadArray eltsize) : Proc (CadArray eltsize) := do
  let size ← intMul this.capacity eltsize
  pure { this with count := 0, content := this.content.memset 0 0 size }

end CadArray

/-- The calls of `cad_array_t` that change the array. -/
inductive ArrayOp (eltsize : Nat)
  | insert (index : Nat) (value : Vector UInt8 eltsize)
  | update (index : Nat) (value : Vector UInt8 eltsize)
  | del (index : Nat)
  | clear
deriving DecidableEq

namespace CadArray

variable {eltsize : Nat}

def step (fresh : Fresh) (this : CadArray eltsize) :
    ArrayOp eltsize → Proc (CadArray eltsize)
  | .insert index value => do
      let (_, this) ← this.insert fresh index value
      pure this
  | .update index value => do
      let (_, this) ← this.update fresh index value
      pure this
  | .del index => do
      let (_, this) ← this.del index
      pure this
  | .clear => this.clear

def run (fresh : Fresh) :
    List (ArrayOp eltsize) → CadArray eltsize → Proc (CadArray eltsize)
  | [], this => pure this
  | op :: ops, this => do
      let this ← this.step fresh op
      run fresh ops this

/-- The block has the size the capacity says, and offsets into it are
`int`s. -/
structure Valid (this : CadArray eltsize) : Prop where
  count_le : this.count ≤ this.capacity
  size_eq : this.content.size = this.capacity * eltsize
  size_le : this.capacity * eltsize ≤ intMax

theorem newArray_valid : (newArray eltsize).Valid where
  count_le := Nat.le_refl 0
  size_eq := (Nat.zero_mul eltsize).symm
  size_le := by
    rw [newArray, Nat.zero_mul]
    exact Nat.zero_le _

/-- Slot `i` of the block. -/
def slot (this : CadArray eltsize) (i : Nat) : Vector UInt8 eltsize :=
  this.content.slot eltsize i

def zeros (eltsize : Nat) : Vector UInt8 eltsize := Vector.replicate eltsize 0

theorem Valid.uintMul_eq {this : CadArray eltsize} (hv : this.Valid)
    {i : Nat} (hi : i ≤ this.capacity) :
    uintMul i eltsize = i * eltsize :=
  Libcad.uintMul_eq (Nat.le_trans (Nat.mul_le_mul_right eltsize hi) hv.size_le)

/-- A range of slots up to the capacity is inside the block. -/
theorem Valid.within {this : CadArray eltsize} (hv : this.Valid)
    {a k : Nat} (h : a + k ≤ this.capacity) :
    Access.Within ⟨a * eltsize, k * eltsize, this.content.size⟩ := by
  rw [Access.Within, hv.size_eq, ← Nat.add_mul]
  exact Nat.mul_le_mul_right eltsize h

/-- The array after `grow` by the factor 2. -/
def grown (fresh : Fresh) (this : CadArray eltsize) : CadArray eltsize :=
  if this.capacity = 0 then
    let content := this.content.malloc (4 * eltsize) (fresh (4 * eltsize))
    { this with capacity := 4, content := content.memset 0 0 (4 * eltsize) }
  else
    let size := this.capacity * 2 * eltsize
    let used := this.count * eltsize
    let content := this.content.realloc size (fresh size)
    { this with
      capacity := this.capacity * 2, content := content.memset used 0 used }

theorem grow_returns {fresh : Fresh} {this : CadArray eltsize}
    (hv : this.Valid) (hdef : Defined (grow fresh this 2)) :
    Returns (grow fresh this 2) (this.grown fresh) ∧
      (this.grown fresh).capacity * eltsize ≤ intMax := by
  rw [grow] at hdef ⊢
  by_cases hzero : this.capacity = 0
  · rw [if_pos hzero] at hdef ⊢
    have hfour : Returns (intMul 2 2) 4 := intMul_returns (by decide)
    have hdef' := hdef.bind_right hfour
    have hsize := intMul_defined.mp hdef'.bind_left
    rw [grown, if_pos hzero]
    exact ⟨hfour.bind ((intMul_returns hsize).bind (returns_pure_self _)),
      hsize⟩
  · rw [if_neg hzero] at hdef ⊢
    have hcap := intMul_defined.mp hdef.bind_left
    have hdef' := hdef.bind_right (intMul_returns hcap)
    have hsize := intMul_defined.mp hdef'.bind_left
    have hused : this.count * eltsize ≤ intMax :=
      Nat.le_trans (Nat.mul_le_mul_right eltsize hv.count_le) hv.size_le
    rw [grown, if_neg hzero]
    exact ⟨(intMul_returns hcap).bind ((intMul_returns hsize).bind
      ((intMul_returns hused).bind (returns_pure_self _))), hsize⟩

end CadArray

end Libcad
