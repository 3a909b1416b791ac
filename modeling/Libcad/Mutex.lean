/-
Mutexes that are not recursive.  A mutex is consistent with the threads when
exactly the thread it belongs to stands at a place where it holds it.
-/
import Mathlib.Logic.Function.Basic

namespace Libcad

universe u

variable {ι : Type u}

/-- The mutex belongs to the thread that holds it, by the thread's place. -/
def MutexConsistent (mutex : Option ι) (holds : ι → Bool) : Prop :=
  ∀ t, mutex = some t ↔ holds t = true

variable {mutex : Option ι} {holds holds' : ι → Bool} {t u : ι}

theorem MutexConsistent.exclusive (h : MutexConsistent mutex holds)
    (ht : holds t = true) (hu : holds u = true) : t = u := by
  have hmt := (h t).mpr ht
  rw [(h u).mpr hu] at hmt
  exact (Option.some.inj hmt).symm

variable [DecidableEq ι]

/-- A thread goes on without taking or giving back the mutex. -/
theorem MutexConsistent.keep (h : MutexConsistent mutex holds) {b : Bool}
    (hb : b = holds t) : MutexConsistent mutex (Function.update holds t b) := by
  rw [hb, Function.update_eq_self]
  exact h

theorem MutexConsistent.acquire (h : MutexConsistent mutex holds)
    (hfree : mutex = none) :
    MutexConsistent (some t) (Function.update holds t true) := by
  intro u
  by_cases hu : u = t
  · subst hu
    simp
  · have hnot : holds u = false := by
      have hiff := h u
      rw [hfree] at hiff
      simpa using hiff
    simp [hu, hnot, Ne.symm hu]

theorem MutexConsistent.release (h : MutexConsistent mutex holds)
    (ht : holds t = true) :
    MutexConsistent none (Function.update holds t false) := by
  intro u
  by_cases hu : u = t
  · subst hu
    simp
  · have hnot : ¬ holds u = true := fun hholds => hu (h.exclusive hholds ht)
    simpa [hu] using hnot

end Libcad
