/-
Arithmetic on the C integers.  An `int` that is never negative is a natural
number; a product that leaves the range of `int` has no meaning, a product of
`unsigned int`s wraps.  Where `int`s wrap as well, they are integers.
-/
import Libcad.Proc

namespace Libcad

open Proc

/-- The greatest `int`. -/
def intMax : Nat := 2147483647

/-- What becomes of the exact result of an operation on `int`s. -/
abbrev IntArith := Int → Proc Int

/-- A result that is no `int` has no meaning. -/
def intChecked : IntArith := fun n =>
  if -2147483648 ≤ n ∧ n ≤ 2147483647 then pure n else Proc.undefined

/-- The sum of two `int`s that are not negative. -/
def intAdd (a b : Nat) : Proc Nat :=
  if a + b ≤ intMax then pure (a + b) else Proc.undefined

/-- The product of two `int`s that are not negative. -/
def intMul (a b : Nat) : Proc Nat :=
  if a * b ≤ intMax then pure (a * b) else Proc.undefined

/-- The product of two `unsigned int`s. -/
def uintMul (a b : Nat) : Nat := a * b % 4294967296

/-- The `int` that an exact result becomes modulo 2^32, in two's complement. -/
def wrap (n : Int) : Int := Int.bmod n 4294967296

theorem intChecked_returns {n m : Int} (h : Returns (intChecked n) m) :
    m = n := by
  rw [intChecked] at h
  split at h
  next => exact (returns_pure.mp h).symm
  next => exact absurd h not_returns_undefined

theorem returns_intAdd {a b n : Nat} :
    Returns (intAdd a b) n ↔ a + b ≤ intMax ∧ n = a + b := by
  rw [intAdd]
  split
  next hle =>
    rw [returns_pure, eq_comm]
    exact (and_iff_right hle).symm
  next hlarge =>
    exact iff_of_false not_returns_undefined fun h => hlarge h.1

theorem intMul_returns {a b : Nat} (h : a * b ≤ intMax) :
    Returns (intMul a b) (a * b) := by
  rw [intMul, if_pos h]
  exact returns_pure_self _

theorem intMul_defined {a b : Nat} :
    Defined (intMul a b) ↔ a * b ≤ intMax := by
  constructor
  · intro hdef
    by_contra hlarge
    rw [intMul, if_neg hlarge] at hdef
    exact not_defined_undefined hdef
  · exact fun h => (intMul_returns h).defined

theorem uintMul_eq {a b : Nat} (h : a * b ≤ intMax) :
    uintMul a b = a * b := by
  rw [intMax] at h
  exact Nat.mod_eq_of_lt (by omega)

/-- An `int` that is not negative stays what it is. -/
theorem wrap_of_fits {n : Int} (hn : 0 ≤ n) (hmax : n ≤ intMax) :
    wrap n = n := by
  have hmax' : n ≤ 2147483647 := hmax
  apply Int.bmod_eq_of_le
  · omega
  · omega

end Libcad
