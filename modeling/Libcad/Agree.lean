/-
Two computations agree when each returns exactly what the other returns, up to
a relation on the results.  Agreement passes through sequencing and loops, so
a program and its abstract machine are compared one iteration at a time.
-/
import Libcad.Proc

namespace Libcad

universe u v

namespace Proc

/-- Whatever `y` returns, `x` returns a related result. -/
def Simulates {α : Type u} {β : Type v} (R : α → β → Prop) (x : Proc α)
    (y : Proc β) : Prop :=
  ∀ b, Returns y b → ∃ a, Returns x a ∧ R a b

/-- `x` and `y` return related results, or neither of them returns. -/
structure Agree {α : Type u} {β : Type v} (R : α → β → Prop) (x : Proc α)
    (y : Proc β) : Prop where
  forth : ∀ a, Returns x a → ∃ b, Returns y b ∧ R a b
  back : Simulates R x y

/-- The outcomes of one iteration on both sides: both go on, or both stop. -/
inductive SumRel {σ σ' ρ ρ' : Type*} (R : σ → σ' → Prop)
    (Q : ρ → ρ' → Prop) : σ ⊕ ρ → σ' ⊕ ρ' → Prop
  | inl {s t} : R s t → SumRel R Q (.inl s) (.inl t)
  | inr {r q} : Q r q → SumRel R Q (.inr r) (.inr q)

variable {α β γ δ : Type u}

theorem Agree.pure {R : α → β → Prop} {a : α} {b : β} (h : R a b) :
    Agree R (pure a) (pure b) where
  forth _ ha := ⟨b, returns_pure_self b, returns_pure.mp ha ▸ h⟩
  back _ hb := ⟨a, returns_pure_self a, returns_pure.mp hb ▸ h⟩

theorem Agree.of_returns {R : α → β → Prop} {x : Proc α} {a : α} {b : β}
    (hx : Returns x a) (h : R a b) : Agree R x (Pure.pure b) where
  forth _ ha := ⟨b, returns_pure_self b, hx.unique ha ▸ h⟩
  back _ hb := ⟨a, hx, returns_pure.mp hb ▸ h⟩

theorem Agree.of_both {R : α → β → Prop} {x : Proc α} {y : Proc β} {a : α}
    {b : β} (hx : Returns x a) (hy : Returns y b) (h : R a b) :
    Agree R x y where
  forth _ ha := ⟨b, hy, hx.unique ha ▸ h⟩
  back _ hb := ⟨a, hx, hy.unique hb ▸ h⟩

theorem Agree.undefined {R : α → β → Prop} :
    Agree R (undefined : Proc α) (undefined : Proc β) where
  forth _ ha := absurd ha not_returns_undefined
  back _ hb := absurd hb not_returns_undefined

theorem Agree.ite {R : α → β → Prop} {p q : Prop} [Decidable p] [Decidable q]
    {x x' : Proc α} {y y' : Proc β} (hpq : p ↔ q) (hpos : p → Agree R x y)
    (hneg : ¬ p → Agree R x' y') :
    Agree R (if p then x else x') (if q then y else y') := by
  by_cases hp : p
  · rw [if_pos hp, if_pos (hpq.mp hp)]
    exact hpos hp
  · rw [if_neg hp, if_neg (fun hq => hp (hpq.mpr hq))]
    exact hneg hp

theorem Agree.refl (x : Proc α) : Agree Eq x x where
  forth a ha := ⟨a, ha, rfl⟩
  back a ha := ⟨a, ha, rfl⟩

theorem Agree.stuck {R : α → β → Prop} {x : Proc α} {y : Proc β}
    (hx : ∀ a, ¬ Returns x a) (hy : ∀ b, ¬ Returns y b) : Agree R x y where
  forth a ha := absurd ha (hx a)
  back b hb := absurd hb (hy b)

/-- Only what the left computation returns matters. -/
theorem Agree.congr_left {R : α → β → Prop} {x x' : Proc α} {y : Proc β}
    (hx : ∀ a, Returns x a ↔ Returns x' a) (h : Agree R x' y) :
    Agree R x y where
  forth a ha := h.forth a ((hx a).mp ha)
  back b hb := by
    obtain ⟨a, ha, hr⟩ := h.back b hb
    exact ⟨a, (hx a).mpr ha, hr⟩

theorem Agree.mono {R S : α → β → Prop} {x : Proc α} {y : Proc β}
    (h : Agree R x y) (hRS : ∀ a b, R a b → S a b) : Agree S x y where
  forth a ha := by
    obtain ⟨b, hb, hr⟩ := h.forth a ha
    exact ⟨b, hb, hRS a b hr⟩
  back b hb := by
    obtain ⟨a, ha, hr⟩ := h.back b hb
    exact ⟨a, ha, hRS a b hr⟩

theorem Agree.symm {R : α → β → Prop} {x : Proc α} {y : Proc β}
    (h : Agree R x y) : Agree (fun b a => R a b) y x where
  forth := h.back
  back := h.forth

theorem Agree.trans {R : α → β → Prop} {S : β → γ → Prop} {x : Proc α}
    {y : Proc β} {z : Proc γ} (hxy : Agree R x y) (hyz : Agree S y z) :
    Agree (fun a c => ∃ b, R a b ∧ S b c) x z where
  forth a ha := by
    obtain ⟨b, hb, hr⟩ := hxy.forth a ha
    obtain ⟨c, hc, hs⟩ := hyz.forth b hb
    exact ⟨c, hc, b, hr, hs⟩
  back c hc := by
    obtain ⟨b, hb, hs⟩ := hyz.back c hc
    obtain ⟨a, ha, hr⟩ := hxy.back b hb
    exact ⟨a, ha, b, hr, hs⟩

theorem Agree.with_returns {R : α → β → Prop} {x : Proc α} {y : Proc β}
    (h : Agree R x y) :
    Agree (fun a b => R a b ∧ Returns x a ∧ Returns y b) x y where
  forth a ha := by
    obtain ⟨b, hb, hr⟩ := h.forth a ha
    exact ⟨b, hb, hr, ha, hb⟩
  back b hb := by
    obtain ⟨a, ha, hr⟩ := h.back b hb
    exact ⟨a, ha, hr, ha, hb⟩

/-- A prefix of the left computation that is known to return can be run. -/
theorem Agree.run_left {R : γ → β → Prop} {x : Proc α} {f : α → Proc γ}
    {a : α} {y : Proc β} (hx : Returns x a) (h : Agree R (f a) y) :
    Agree R (x >>= f) y where
  forth c hc := h.forth c (hx.bind_iff.mp hc)
  back b hb := by
    obtain ⟨c, hc, hr⟩ := h.back b hb
    exact ⟨c, hx.bind hc, hr⟩

/-- A prefix of the right computation that is known to return can be run. -/
theorem Agree.run_right {R : α → δ → Prop} {x : Proc α} {y : Proc β}
    {g : β → Proc δ} {b : β} (hy : Returns y b) (h : Agree R x (g b)) :
    Agree R x (y >>= g) where
  forth a ha := by
    obtain ⟨d, hd, hr⟩ := h.forth a ha
    exact ⟨d, hy.bind hd, hr⟩
  back d hd := h.back d (hy.bind_iff.mp hd)

/-- A last step of the left computation that is known to return. -/
theorem Agree.then_left {R : α → β → Prop} {S : γ → β → Prop} {x : Proc α}
    {y : Proc β} {f : α → Proc γ} (h : Agree R x y)
    (hf : ∀ a b, R a b → ∃ c, Returns (f a) c ∧ S c b) :
    Agree S (x >>= f) y where
  forth c hc := by
    obtain ⟨a, ha, hc⟩ := returns_bind.mp hc
    obtain ⟨b, hb, hr⟩ := h.forth a ha
    obtain ⟨c', hc', hs⟩ := hf a b hr
    exact ⟨b, hb, hc'.unique hc ▸ hs⟩
  back b hb := by
    obtain ⟨a, ha, hr⟩ := h.back b hb
    obtain ⟨c, hc, hs⟩ := hf a b hr
    exact ⟨c, ha.bind hc, hs⟩

/-- A last step of the left computation that only converts its result. -/
theorem Agree.map_left {R : α → β → Prop} {S : γ → β → Prop} {x : Proc α}
    {y : Proc β} {f : α → γ} (h : Agree R x y)
    (hf : ∀ a b, R a b → S (f a) b) :
    Agree S (x >>= fun a => Pure.pure (f a)) y :=
  h.then_left fun a b hr => ⟨f a, returns_pure_self _, hf a b hr⟩

theorem Agree.bind {R : α → β → Prop} {S : γ → δ → Prop} {x : Proc α}
    {y : Proc β} {f : α → Proc γ} {g : β → Proc δ} (hxy : Agree R x y)
    (hfg : ∀ a b, R a b → Agree S (f a) (g b)) :
    Agree S (x >>= f) (y >>= g) where
  forth c hc := by
    obtain ⟨a, ha, hc⟩ := returns_bind.mp hc
    obtain ⟨b, hb, hr⟩ := hxy.forth a ha
    obtain ⟨d, hd, hs⟩ := (hfg a b hr).forth c hc
    exact ⟨d, hb.bind hd, hs⟩
  back d hd := by
    obtain ⟨b, hb, hd⟩ := returns_bind.mp hd
    obtain ⟨a, ha, hr⟩ := hxy.back b hb
    obtain ⟨c, hc, hs⟩ := (hfg a b hr).back d hd
    exact ⟨c, ha.bind hc, hs⟩

variable {σ σ' ρ ρ' : Type u} {body : σ → Proc (σ ⊕ ρ)}
  {body' : σ' → Proc (σ' ⊕ ρ')} {R : σ → σ' → Prop} {Q : ρ → ρ' → Prop}

/-- Every result of the right loop is matched when every iteration of the
right loop is. -/
theorem Simulates.loop
    (hstep : ∀ s t, R s t → Simulates (SumRel R Q) (body s) (body' t))
    {s : σ} {t : σ'} (h : R s t) : Simulates Q (loop body s) (loop body' t) := by
  intro q hq
  refine Returns.loop_induction
    (P := fun t q => ∀ s, R s t → ∃ r, Returns (Proc.loop body s) r ∧ Q r q)
    ?_ ?_ hq s h
  · intro t q hb s hs
    obtain ⟨o, ho, hrel⟩ := hstep s t hs _ hb
    cases hrel with
    | inr hr => exact ⟨_, ho.loop_exit, hr⟩
  · intro t t' q hb _ ih s hs
    obtain ⟨o, ho, hrel⟩ := hstep s t hs _ hb
    cases hrel with
    | inl hr =>
        obtain ⟨r, hr, hq⟩ := ih _ hr
        exact ⟨r, ho.loop_next.mpr hr, hq⟩

theorem Agree.loop
    (hstep : ∀ s t, R s t → Agree (SumRel R Q) (body s) (body' t))
    {s : σ} {t : σ'} (h : R s t) : Agree Q (loop body s) (loop body' t) where
  forth r hr := by
    refine Returns.loop_induction
      (P := fun s r => ∀ t, R s t → ∃ q, Returns (Proc.loop body' t) q ∧ Q r q)
      ?_ ?_ hr t h
    · intro s r hb t ht
      obtain ⟨o, ho, hrel⟩ := (hstep s t ht).forth _ hb
      cases hrel with
      | inr hq => exact ⟨_, ho.loop_exit, hq⟩
    · intro s s' r hb _ ih t ht
      obtain ⟨o, ho, hrel⟩ := (hstep s t ht).forth _ hb
      cases hrel with
      | inl hst =>
          obtain ⟨q, hq, hrq⟩ := ih _ hst
          exact ⟨q, ho.loop_next.mpr hq, hrq⟩
  back := Simulates.loop (fun s t hst => (hstep s t hst).back) h

/-- What the right loop reaches, the left loop reaches too. -/
theorem Agree.reaches
    (hstep : ∀ s t, R s t → Agree (SumRel R Q) (body s) (body' t))
    {s : σ} {t t' : σ'} (h : R s t) (hreach : Reaches body' t t') :
    ∃ s', Reaches body s s' ∧ R s' t' := by
  induction hreach with
  | refl => exact ⟨s, Reaches.refl s, h⟩
  | tail _ hnext ih =>
      obtain ⟨s₁, hs₁, hr⟩ := ih
      obtain ⟨o, ho, hrel⟩ := (hstep _ _ hr).back _ hnext
      cases hrel with
      | inl hr' => exact ⟨_, hs₁.trans (Reaches.step ho), hr'⟩

end Proc

end Libcad
