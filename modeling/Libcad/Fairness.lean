/-
Fair runs of threads.  A thread is treated fairly when it moves again and
again, provided that it is due to move again and again.  What such a run comes
to is shown by ranks that go down, one move of one thread at a time.
-/
import Mathlib.Data.Nat.Init
import Mathlib.Logic.Relation
import Mathlib.Tactic.ByContra

namespace Libcad

universe u v

variable {ι : Type u} {S : Type v}

/-- An infinite run: at each moment one thread moves, or none does. -/
structure ThreadRun (step : ι → S → S → Prop) where
  state : Nat → S
  mover : Nat → Option ι
  moves : ∀ n t, mover n = some t → step t (state n) (state (n + 1))
  rests : ∀ n, mover n = none → state (n + 1) = state n

namespace ThreadRun

variable {step : ι → S → S → Prop}

/-- Where a thread is due again and again, it moves again and again. -/
def FairTo (run : ThreadRun step) (due : S → Prop) (t : ι) : Prop :=
  (∀ n, ∃ m, n ≤ m ∧ due (run.state m)) → ∀ n, ∃ m, n ≤ m ∧ run.mover m = some t

/-- Wherever `P` holds, `Q` holds then or later. -/
def LeadsTo (run : ThreadRun step) (P Q : S → Prop) : Prop :=
  ∀ n, P (run.state n) → ∃ m, n ≤ m ∧ Q (run.state m)

variable {run : ThreadRun step} {P P' Q R : S → Prop} {t : ι}

theorem always {I : S → Prop} (hstart : I (run.state 0))
    (hstep : ∀ t s s', I s → step t s s' → I s') : ∀ n, I (run.state n) := by
  intro n
  induction n with
  | zero => exact hstart
  | succ n ih =>
      cases hmover : run.mover n with
      | none =>
          rw [run.rests n hmover]
          exact ih
      | some t => exact hstep t _ _ ih (run.moves n t hmover)

theorem LeadsTo.trans (h : run.LeadsTo P Q) (h' : run.LeadsTo Q R) :
    run.LeadsTo P R := by
  intro n hn
  obtain ⟨m, hnm, hm⟩ := h n hn
  obtain ⟨k, hmk, hk⟩ := h' m hm
  exact ⟨k, Nat.le_trans hnm hmk, hk⟩

theorem LeadsTo.mono (h : run.LeadsTo P Q) (hQ : ∀ s, Q s → R s) :
    run.LeadsTo P R := by
  intro n hn
  obtain ⟨m, hnm, hm⟩ := h n hn
  exact ⟨m, hnm, hQ _ hm⟩

/-- A thread that is treated fairly moves, if it becomes due wherever it has
not moved. -/
theorem LeadsTo.fair {due : S → Prop} (hfair : run.FairTo due t)
    (hstay : ∀ n, P (run.state n) → run.mover n ≠ some t →
      P (run.state (n + 1)) ∨ Q (run.state (n + 1)))
    (hmove : ∀ n, P (run.state n) → run.mover n = some t →
      Q (run.state (n + 1)))
    (hdue : run.LeadsTo P fun s => due s ∨ Q s) : run.LeadsTo P Q := by
  intro n hn
  by_contra hnever
  have hnot : ∀ m, n ≤ m → ¬ Q (run.state m) :=
    fun m hnm hm => hnever ⟨m, hnm, hm⟩
  have hkeep : ∀ m, n ≤ m → P (run.state m) := by
    intro m hnm
    induction m, hnm using Nat.le_induction with
    | base => exact hn
    | succ m hnm ih =>
        by_cases hmover : run.mover m = some t
        · exact absurd (hmove m ih hmover) (hnot _ (Nat.le_succ_of_le hnm))
        · rcases hstay m ih hmover with hp | hq
          · exact hp
          · exact absurd hq (hnot _ (Nat.le_succ_of_le hnm))
  have hoften : ∀ m, ∃ k, m ≤ k ∧ due (run.state k) := by
    intro m
    obtain ⟨k, hmk, hk⟩ := hdue (max n m) (hkeep _ (Nat.le_max_left n m))
    have hnk : n ≤ k := Nat.le_trans (Nat.le_max_left n m) hmk
    exact ⟨k, Nat.le_trans (Nat.le_max_right n m) hmk,
      hk.resolve_right (hnot k hnk)⟩
  obtain ⟨m, hnm, hm⟩ := hfair hoften n
  exact hnot (m + 1) (Nat.le_succ_of_le hnm) (hmove m (hkeep m hnm) hm)

/-- One move more at the beginning of a run. -/
def cons (run : ThreadRun step) {s : S} (h : step t s (run.state 0)) :
    ThreadRun step where
  state
    | 0 => s
    | n + 1 => run.state n
  mover
    | 0 => some t
    | n + 1 => run.mover n
  moves
    | 0, _, ht => by
        cases ht
        exact h
    | n + 1, u, hu => run.moves n u hu
  rests
    | 0, hnone => by cases hnone
    | n + 1, hnone => run.rests n hnone

/-- Nobody moves any more from some moment on. -/
def RestsAt (run : ThreadRun step) (s : S) : Prop :=
  ∃ n, ∀ m, n ≤ m → run.state m = s

theorem RestsAt.cons {s s' : S} {h : step t s (run.state 0)}
    (hrests : run.RestsAt s') : (run.cons h).RestsAt s' := by
  obtain ⟨n, hn⟩ := hrests
  refine ⟨n + 1, fun m hm => ?_⟩
  cases m with
  | zero => cases hm
  | succ m => exact hn m (Nat.le_of_succ_le_succ hm)

end ThreadRun

end Libcad
