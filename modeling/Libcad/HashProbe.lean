/-
The probe sequence of `cad_hash.c` covers every table whose capacity is a power
of two.  Once the hash has been shifted out, the index is a linear congruential
generator, and multiplication by five has the greatest possible order.
-/
import Libcad.Hash
import Mathlib.RingTheory.ZMod.UnitsCyclic

namespace Libcad

/-- The `n`th context of the probe sequence of a hash. -/
def probe (hash : UInt32) (n : Nat) : IndexContext :=
  nextIndexOf^[n] ⟨hash, hash⟩

theorem probe_succ (hash : UInt32) (n : Nat) :
    probe hash (n + 1) = nextIndexOf (probe hash n) := by
  rw [probe, probe, Function.iterate_succ_apply']

theorem probe_perturb (hash : UInt32) (n : Nat) :
    (probe hash n).perturb.toNat = hash.toNat / 32 ^ n := by
  induction n with
  | zero => simp [probe]
  | succ n ih =>
      rw [probe_succ, nextIndexOf]
      simp only [UInt32.toNat_shiftRight, ih]
      have h5 : (5 : UInt32).toNat % 32 = 5 := rfl
      rw [h5, Nat.shiftRight_eq_div_pow, Nat.div_div_eq_div_mul]
      rfl

theorem probe_perturb_zero (hash : UInt32) {n : Nat} (hn : 7 ≤ n) :
    (probe hash n).perturb = 0 := by
  apply UInt32.toNat_inj.mp
  rw [probe_perturb]
  have hlt : hash.toNat < 2 ^ 32 := hash.toNat_lt
  have hpow : 32 ^ 7 ≤ 32 ^ n := Nat.pow_le_pow_right (by decide) hn
  exact Nat.div_eq_of_lt (by omega)

/-- From then on the index runs through a linear congruential generator. -/
theorem probe_index_succ (hash : UInt32) {n : Nat} (hn : 7 ≤ n) :
    (probe hash (n + 1)).index.toNat =
      (5 * (probe hash n).index.toNat + 1) % 2 ^ 32 := by
  rw [probe_succ, nextIndexOf, probe_perturb_zero hash hn]
  simp only [UInt32.toNat_add, UInt32.toNat_mul, UInt32.toNat_ofNat]
  omega

/-- `4 * index + 1` is multiplied by five at each step. -/
theorem four_mul_probe_index (hash : UInt32) {k : Nat} (hk : k ≤ 30) (n : Nat) :
    ((4 * (probe hash (7 + n)).index.toNat + 1 : ℕ) : ZMod (2 ^ (k + 2))) =
      5 ^ n * ((4 * (probe hash 7).index.toNat + 1 : ℕ) :
        ZMod (2 ^ (k + 2))) := by
  induction n with
  | zero => simp
  | succ n ih =>
      rw [← Nat.add_assoc, probe_index_succ hash (Nat.le_add_right 7 n),
        pow_succ' (5 : ZMod (2 ^ (k + 2))) n, mul_assoc, ← ih]
      have hdvd : 2 ^ (k + 2) ∣ 4 * 2 ^ 32 := by
        have h : 4 * 2 ^ 32 = 2 ^ (k + 2) * 2 ^ (32 - k) := by
          rw [← pow_add, show k + 2 + (32 - k) = 34 by omega]
          decide
        exact ⟨_, h⟩
      have hcast : ((5 * (4 * (probe hash (7 + n)).index.toNat + 1) : ℕ) :
          ZMod (2 ^ (k + 2))) =
          ((4 * ((5 * (probe hash (7 + n)).index.toNat + 1) % 2 ^ 32) + 1 : ℕ) :
            ZMod (2 ^ (k + 2))) := by
        rw [ZMod.natCast_eq_natCast_iff]
        apply Nat.ModEq.of_dvd hdvd
        rw [Nat.ModEq]
        omega
      rw [← hcast]
      push_cast
      ring

/-- Among `2 ^ k` consecutive slots of a used-up hash none repeats. -/
theorem probe_slot_injective (hash : UInt32) {k : Nat} (hk : k ≤ 30)
    {n m : Nat} (hn : n < 2 ^ k) (hm : m < 2 ^ k)
    (h : (probe hash (7 + n)).slot (2 ^ k) = (probe hash (7 + m)).slot (2 ^ k)) :
    n = m := by
  have hmod : ((4 * (probe hash (7 + n)).index.toNat + 1 : ℕ) :
      ZMod (2 ^ (k + 2))) =
      ((4 * (probe hash (7 + m)).index.toNat + 1 : ℕ) : ZMod (2 ^ (k + 2))) := by
    rw [ZMod.natCast_eq_natCast_iff]
    have h4 := Nat.ModEq.mul_left' 4 (show _ ≡ _ [MOD 2 ^ k] from h)
    rw [show 4 * 2 ^ k = 2 ^ (k + 2) by ring] at h4
    exact h4.add_right 1
  rw [four_mul_probe_index hash hk, four_mul_probe_index hash hk] at hmod
  have hodd : IsUnit ((4 * (probe hash 7).index.toNat + 1 : ℕ) :
      ZMod (2 ^ (k + 2))) := by
    rw [ZMod.isUnit_iff_coprime]
    apply Nat.Coprime.pow_right
    rw [Nat.coprime_two_right, Nat.odd_iff]
    omega
  have hpow : (5 : ZMod (2 ^ (k + 2))) ^ n = 5 ^ m := hodd.mul_right_cancel hmod
  have horder := ZMod.orderOf_five k
  refine pow_injOn_Iio_orderOf ?_ ?_ hpow
  · rw [Set.mem_Iio, horder]
    exact hn
  · rw [Set.mem_Iio, horder]
    exact hm

theorem probe_slot_surjective (hash : UInt32) {k : Nat} (hk : k ≤ 30)
    {i : Nat} (hi : i < 2 ^ k) :
    ∃ n < 2 ^ k + 7, (probe hash n).slot (2 ^ k) = i := by
  have hpos : 0 < 2 ^ k := Nat.two_pow_pos k
  let f : Fin (2 ^ k) → Fin (2 ^ k) := fun n =>
    ⟨(probe hash (7 + n)).slot (2 ^ k), Nat.mod_lt _ hpos⟩
  have hinj : Function.Injective f := by
    intro n m h
    exact Fin.ext (probe_slot_injective hash hk n.isLt m.isLt
      (congrArg Fin.val h))
  obtain ⟨n, hn⟩ := Finite.surjective_of_injective hinj ⟨i, hi⟩
  exact ⟨7 + n, by omega, congrArg Fin.val hn⟩

end Libcad
