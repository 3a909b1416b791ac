/-
Computations that come to an end.
-/
import Libcad.Proc

namespace Libcad

universe u

namespace Proc

variable {α β σ ρ : Type u} {excuse : Prop}

/-- Enough fuel leads to a value with the property or, where there is an
excuse, to a step without a meaning. -/
def Settles (excuse : Prop) (x : Proc α) (P : α → Prop) : Prop :=
  (∃ a, Returns x a ∧ P a) ∨ (excuse ∧ ∃ n, x.run n = .error .undefined)

theorem Settles.pure {a : α} {P : α → Prop} (h : P a) :
    Settles excuse (Pure.pure a) P := Or.inl ⟨a, returns_pure_self a, h⟩

theorem Settles.undefined {P : α → Prop} (h : excuse) :
    Settles excuse (Proc.undefined : Proc α) P := Or.inr ⟨h, 0, rfl⟩

theorem Settles.mono {x : Proc α} {P Q : α → Prop} (h : Settles excuse x P)
    (hpq : ∀ a, Returns x a → P a → Q a) : Settles excuse x Q := by
  rcases h with ⟨a, ha, hp⟩ | hstuck
  · exact Or.inl ⟨a, ha, hpq a ha hp⟩
  · exact Or.inr hstuck

theorem Settles.returns {x : Proc α} {P : α → Prop} {a : α}
    (h : Settles excuse x P) (ha : Returns x a) : P a := by
  rcases h with ⟨b, hb, hp⟩ | ⟨-, n, hn⟩
  · exact ha.unique hb ▸ hp
  · exact absurd hn (ha.defined n)

theorem Settles.bind {x : Proc α} {f : α → Proc β} {P : α → Prop}
    {Q : β → Prop} (hx : Settles excuse x P)
    (hf : ∀ a, Returns x a → P a → Settles excuse (f a) Q) :
    Settles excuse (x >>= f) Q := by
  rcases hx with ⟨a, ha, hp⟩ | ⟨hexcuse, n, hn⟩
  · rcases hf a ha hp with ⟨b, hb, hq⟩ | ⟨hexcuse, m, hm⟩
    · exact Or.inl ⟨b, ha.bind hb, hq⟩
    · obtain ⟨n, hn⟩ := ha
      refine Or.inr ⟨hexcuse, max n m, ?_⟩
      rw [run_bind_ok (Returns.eventually hn (Nat.le_max_left n m)),
        (f a).stable (Nat.le_max_right n m) (by simp [hm]), hm]
  · exact Or.inr ⟨hexcuse, n, run_bind_error hn⟩

theorem Settles.loop_step {body : σ → Proc (σ ⊕ ρ)} {s : σ} {Q : ρ → Prop}
    (h : Settles excuse (body s) fun o => match o with
      | .inl s' => Settles excuse (loop body s') Q
      | .inr r => Q r) : Settles excuse (loop body s) Q := by
  rcases h with ⟨o, ho, hq⟩ | ⟨hexcuse, n, hn⟩
  · cases o with
    | inl s' =>
        rcases hq with ⟨r, hr, hq⟩ | ⟨hexcuse, m, hm⟩
        · exact Or.inl ⟨r, ho.loop_next.mpr hr, hq⟩
        · obtain ⟨n, hn⟩ := ho
          refine Or.inr ⟨hexcuse, max n m + 1, ?_⟩
          have hbody := Returns.eventually hn
            (Nat.le_succ_of_le (Nat.le_max_left n m))
          have hrest : loopRun body (max n m + 1) (max n m) s' =
              .error .undefined := by
            have hm' : loopRun body m m s' = .error .undefined := hm
            rw [loopRun_stable body (Nat.le_succ_of_le (Nat.le_max_right n m))
              s' (Nat.le_max_right n m) (by simp [hm']), hm']
          change loopRun body (max n m + 1) (max n m + 1) s = _
          simp only [loopRun, hbody, hrest]
    | inr r => exact Or.inl ⟨r, ho.loop_exit, hq⟩
  · refine Or.inr ⟨hexcuse, n + 1, ?_⟩
    have hbody : (body s).run (n + 1) = .error .undefined := by
      rw [(body s).stable (Nat.le_succ n) (by simp [hn]), hn]
    change loopRun body (n + 1) (n + 1) s = _
    simp only [loopRun, hbody]

theorem Settles.loop {body : σ → Proc (σ ⊕ ρ)} {I : σ → Prop} {Q : ρ → Prop}
    (measure : σ → Nat)
    (hstep : ∀ s, I s → Settles excuse (body s) fun o => match o with
      | .inl s' => I s' ∧ measure s' < measure s
      | .inr r => Q r)
    {s : σ} (hs : I s) : Settles excuse (Proc.loop body s) Q := by
  induction hn : measure s using Nat.strongRecOn generalizing s with
  | ind n ih =>
      refine Settles.loop_step ((hstep s hs).mono ?_)
      intro o _ ho
      cases o with
      | inl s' => exact ih (measure s') (hn ▸ ho.2) ho.1 rfl
      | inr r => exact ho

end Proc

end Libcad
