/-
Computations that look out for faults and stop at the first one.  Such a
computation is clean when it never finds a fault and otherwise does what the
computation without the checks does.
-/
import Libcad.Agree

namespace Libcad

namespace Proc

/-- A computation that stops at the first fault it finds. -/
abbrev Checked (ε α : Type) := ExceptT ε Proc α

namespace Checked

variable {ε α β σ ρ : Type}

/-- Stop at a fault unless the condition holds. -/
def guard (p : Prop) [Decidable p] (fault : ε) : Checked ε Unit :=
  if p then pure () else throw fault

/-- What an iteration comes to: a fault leaves the loop. -/
def outcome : Except ε (σ ⊕ ρ) → σ ⊕ Except ε ρ
  | .ok (.inl s) => .inl s
  | .ok (.inr r) => .inr (.ok r)
  | .error fault => .inr (.error fault)

/-- `while`, with checks in its body. -/
def loop (body : σ → Checked ε (σ ⊕ ρ)) (s : σ) : Checked ε ρ :=
  ExceptT.mk (Proc.loop (fun s => outcome <$> (body s).run) s)

/-- `x` finds no fault; what it returns is related to what `y` returns. -/
def Tracks (R : α → β → Prop) (x : Checked ε α) (y : Proc β) : Prop :=
  Agree (fun r b => ∃ a, r = .ok a ∧ R a b) x.run y

theorem Tracks.pure {R : α → β → Prop} {a : α} {b : β} (h : R a b) :
    Tracks (ε := ε) R (Pure.pure a) (Pure.pure b) :=
  Agree.pure ⟨a, rfl, h⟩

theorem Tracks.lift {R : α → β → Prop} {x : Proc α} {y : Proc β}
    (h : Agree R x y) : Tracks (ε := ε) R (liftM x) y :=
  Agree.then_left h fun a _ hab => ⟨.ok a, returns_pure_self _, a, rfl, hab⟩

/-- A part that is not checked, and a last step that returns. -/
theorem Tracks.lift_then {γ : Type} {S : γ → α → Prop} (y : Proc α)
    {f : α → Checked ε γ}
    (hf : ∀ a, ∃ c, Returns (f a).run (.ok c) ∧ S c a) :
    Tracks S (liftM y >>= f) y := by
  refine Agree.then_left (Tracks.lift (Agree.refl y)) ?_
  rintro r a ⟨a', rfl, rfl⟩
  obtain ⟨c, hc, hs⟩ := hf a'
  exact ⟨.ok c, hc, c, rfl, hs⟩

theorem Tracks.bind {γ δ : Type} {R : α → β → Prop} {S : γ → δ → Prop}
    {x : Checked ε α} {y : Proc β} {f : α → Checked ε γ} {g : β → Proc δ}
    (h : Tracks R x y)
    (hfg : ∀ a b, R a b → Returns y b → Tracks S (f a) (g b)) :
    Tracks S (x >>= f) (y >>= g) := by
  refine Agree.bind h.with_returns ?_
  rintro r b ⟨⟨a, rfl, hab⟩, -, hb⟩
  exact hfg a b hab hb

theorem Tracks.mono {R S : α → β → Prop} {x : Checked ε α} {y : Proc β}
    (h : Tracks R x y) (hRS : ∀ a b, R a b → Returns y b → S a b) :
    Tracks S x y := by
  refine Agree.mono h.with_returns ?_
  rintro r b ⟨⟨a, rfl, hab⟩, -, hb⟩
  exact ⟨a, rfl, hRS a b hab hb⟩

theorem Tracks.loop {σ' ρ' : Type} {body : σ → Checked ε (σ ⊕ ρ)}
    {body' : σ' → Proc (σ' ⊕ ρ')} {R : σ → σ' → Prop} {Q : ρ → ρ' → Prop}
    (hbody : ∀ s t, R s t → Tracks (SumRel R Q) (body s) (body' t)) {s : σ}
    {t : σ'} (hst : R s t) :
    Tracks Q (Checked.loop body s) (Proc.loop body' t) := by
  refine Agree.loop (fun s t hst => (hbody s t hst).map_left ?_) hst
  rintro - b ⟨a, rfl, hab⟩
  cases hab with
  | inl hnext => exact .inl hnext
  | inr hresult => exact .inr ⟨_, rfl, hresult⟩

/-- `x` finds no fault; it returns what `y` returns. -/
def Clean (x : Checked ε α) (y : Proc α) : Prop := Tracks Eq x y

theorem Clean.no_fault {x : Checked ε α} {y : Proc α} (h : Clean x y)
    (fault : ε) : ¬ Returns x.run (.error fault) := by
  intro hfault
  obtain ⟨b, -, a, ha, -⟩ := h.forth _ hfault
  cases ha

theorem Clean.returns_iff {x : Checked ε α} {y : Proc α} (h : Clean x y)
    {a : α} : Returns x.run (.ok a) ↔ Returns y a := by
  constructor
  · intro hx
    obtain ⟨b, hb, a', heq, rfl⟩ := h.forth _ hx
    cases heq
    exact hb
  · intro hy
    obtain ⟨r, hr, a', rfl, rfl⟩ := h.back _ hy
    exact hr

/-- A fault that a run shows; what would have been returned is left out. -/
theorem returns_fault {x : Checked ε α} {n : Nat} {fault : ε}
    (h : (x.run.run n).map (fun r => r.map fun _ => ()) = .ok (.error fault)) :
    Returns x.run (.error fault) := by
  refine ⟨n, ?_⟩
  cases hrun : x.run.run n with
  | error halt =>
      rw [hrun] at h
      cases h
  | ok r =>
      rw [hrun] at h
      cases r with
      | ok a => cases h
      | error fault' =>
          cases h
          rfl

theorem Clean.pure (a : α) : Clean (ε := ε) (Pure.pure a) (Pure.pure a) :=
  Tracks.pure rfl

theorem Clean.lift (y : Proc α) : Clean (ε := ε) (liftM y) y :=
  Tracks.lift (Agree.refl y)

theorem Clean.bind {x : Checked ε α} {y : Proc α} {f : α → Checked ε β}
    {g : α → Proc β} (h : Clean x y)
    (hfg : ∀ a, Returns y a → Clean (f a) (g a)) :
    Clean (x >>= f) (y >>= g) := by
  refine Tracks.bind h ?_
  rintro a b rfl ha
  exact hfg a ha

theorem Clean.bind_pure {x : Checked ε α} {f : α → Checked ε β} {a : α}
    {y : Proc β} (h : Clean x (Pure.pure a)) (hf : Clean (f a) y) :
    Clean (x >>= f) y :=
  Agree.run_left (h.returns_iff.mpr (returns_pure_self a)) hf

theorem Clean.guard {p : Prop} [Decidable p] {fault : ε} (hp : p)
    {f : Unit → Checked ε α} {y : Proc α} (h : Clean (f ()) y) :
    Clean (Checked.guard p fault >>= f) y := by
  rw [Checked.guard, if_pos hp]
  exact h

/-- A loop is clean when its iterations are, from all states that keep its
invariant. -/
theorem Clean.loop {body : σ → Checked ε (σ ⊕ ρ)} {body' : σ → Proc (σ ⊕ ρ)}
    {I : σ → Prop} (hbody : ∀ s, I s → Clean (body s) (body' s))
    (hnext : ∀ s s', I s → Returns (body' s) (.inl s') → I s') {s : σ}
    (hs : I s) : Clean (Checked.loop body s) (Proc.loop body' s) := by
  refine Tracks.loop (R := fun s t => s = t ∧ I t) ?_ ⟨rfl, hs⟩
  rintro s t ⟨rfl, hs⟩
  refine (hbody s hs).mono ?_
  rintro (s' | r) o rfl hreturns
  · exact .inl ⟨rfl, hnext s s' hs hreturns⟩
  · exact .inr rfl

section

variable {δ γ σ' ρ' : Type} {x : Checked ε α} {y : Checked δ β}
  {f : α → Checked ε γ} {fault : ε} {a : α} {c : γ}

theorem run_guard_fails {p : Prop} [Decidable p] (hp : ¬ p)
    (f : Unit → Checked ε γ) :
    (Checked.guard p fault >>= f).run = Pure.pure (.error fault) := by
  rw [Checked.guard, if_neg hp]
  rfl

theorem returns_lift {y : Proc α} {r : Except ε α} :
    Returns (liftM y : Checked ε α).run r ↔ ∃ a, Returns y a ∧ .ok a = r := by
  rw [show (liftM y : Checked ε α).run = y >>= fun a => Pure.pure (.ok a)
    from rfl, returns_bind]
  exact exists_congr fun a => and_congr_right fun _ => returns_pure

/-- What becomes of the first part decides what runs after it. -/
def continued (f : α → Checked ε γ) : Except ε α → Proc (Except ε γ)
  | .ok a => (f a).run
  | .error fault => Pure.pure (.error fault)

theorem run_bind (x : Checked ε α) (f : α → Checked ε γ) :
    (x >>= f).run = x.run >>= continued f := by
  change x.run >>= ExceptT.bindCont f = _
  congr 1

theorem returns_bind_ok :
    Returns (x >>= f).run (.ok c) ↔
      ∃ a, Returns x.run (.ok a) ∧ Returns (f a).run (.ok c) := by
  rw [run_bind, returns_bind]
  constructor
  · rintro ⟨o, ho, h⟩
    cases o with
    | ok a => exact ⟨a, ho, h⟩
    | error fault => cases returns_pure.mp h
  · rintro ⟨a, ha, h⟩
    exact ⟨.ok a, ha, h⟩

theorem returns_bind_error :
    Returns (x >>= f).run (.error fault) ↔ Returns x.run (.error fault) ∨
      ∃ a, Returns x.run (.ok a) ∧ Returns (f a).run (.error fault) := by
  rw [run_bind, returns_bind]
  constructor
  · rintro ⟨o, ho, h⟩
    cases o with
    | ok a => exact Or.inr ⟨a, ho, h⟩
    | error fault' =>
        cases returns_pure.mp h
        exact Or.inl ho
  · rintro (h | ⟨a, ha, h⟩)
    · exact ⟨.error fault, h, returns_pure_self _⟩
    · exact ⟨.ok a, ha, h⟩

end

/-- Both found a fault, or both found none and their results are related. -/
inductive Both {δ : Type} (R : α → β → Prop) : Except ε α → Except δ β → Prop
  | ok {a b} : R a b → Both R (.ok a) (.ok b)
  | error {fault fault'} : Both R (.error fault) (.error fault')

/-- A way to compare two computations by comparing their parts. -/
structure Comparison (ε δ : Type) where
  Rel : {α β : Type} → (α → β → Prop) → Checked ε α → Checked δ β → Prop
  lift : ∀ {α β : Type} {R : α → β → Prop} {x : Proc α} {y : Proc β},
    Agree R x y → Rel R (liftM x) (liftM y)
  bind : ∀ {α β γ κ : Type} {R : α → β → Prop} {S : γ → κ → Prop}
    {x : Checked ε α} {y : Checked δ β} {f : α → Checked ε γ}
    {g : β → Checked δ κ}, Rel R x y → (∀ a b, R a b → Rel S (f a) (g b)) →
      Rel S (x >>= f) (y >>= g)
  loop : ∀ {σ σ' ρ ρ' : Type} {R : σ → σ' → Prop} {Q : ρ → ρ' → Prop}
    {body : σ → Checked ε (σ ⊕ ρ)} {body' : σ' → Checked δ (σ' ⊕ ρ')},
    (∀ s t, R s t → Rel (SumRel R Q) (body s) (body' t)) →
      ∀ {s t}, R s t → Rel Q (Checked.loop body s) (Checked.loop body' t)

theorem Comparison.pure {δ : Type} (C : Comparison ε δ) {R : α → β → Prop}
    {a : α} {b : β} (h : R a b) : C.Rel R (Pure.pure a) (Pure.pure b) :=
  C.lift (Agree.pure h)

/-- They return related results, or they both find a fault, or neither comes
to an end. -/
def Comparison.agreeing (ε δ : Type) : Comparison ε δ where
  Rel R x y := Agree (Both R) x.run y.run
  lift h := by
    refine Agree.bind h fun a b hab => ?_
    exact Agree.pure (.ok hab)
  bind hxy hfg := by
    rw [run_bind, run_bind]
    refine Agree.bind hxy fun o o' ho => ?_
    cases ho with
    | ok hab => exact hfg _ _ hab
    | error => exact Agree.pure .error
  loop hbody := by
    refine fun hs => Agree.loop (fun s t hst => ?_) hs
    refine Agree.bind (hbody s t hst) fun o o' ho => ?_
    cases ho with
    | ok hab =>
        cases hab with
        | inl hnext => exact Agree.pure (.inl hnext)
        | inr hresult => exact Agree.pure (.inr (.ok hresult))
    | error => exact Agree.pure (.inr .error)

/-- What the left computation returns the right one returns, and what the right
one returns the left one returns, unless it finds a fault. -/
structure Stopping {δ : Type} (R : α → β → Prop) (x : Checked ε α)
    (y : Checked δ β) : Prop where
  forth : ∀ a, Returns x.run (.ok a) → ∃ b, Returns y.run (.ok b) ∧ R a b
  back : ∀ b, Returns y.run (.ok b) →
    (∃ a, Returns x.run (.ok a) ∧ R a b) ∨
      ∃ fault, Returns x.run (.error fault)

section

variable {δ σ' ρ' : Type} {R : σ → σ' → Prop} {Q : ρ → ρ' → Prop}
  {body : σ → Checked ε (σ ⊕ ρ)} {body' : σ' → Checked δ (σ' ⊕ ρ')}
  {s s' : σ} {r : Except ε ρ}

theorem returns_outcome {o : Except ε (σ ⊕ ρ)}
    (h : Returns (body s).run o) :
    Returns (outcome <$> (body s).run) (outcome o) :=
  h.bind (returns_pure_self _)

theorem loop_next (h : Returns (body s).run (.ok (.inl s'))) :
    Returns (Checked.loop body s).run r ↔
      Returns (Checked.loop body s').run r :=
  Returns.loop_next (returns_outcome h)

theorem loop_exit {a : ρ} (h : Returns (body s).run (.ok (.inr a))) :
    Returns (Checked.loop body s).run (.ok a) :=
  Returns.loop_exit (returns_outcome h)

theorem loop_fault {fault : ε} (h : Returns (body s).run (.error fault)) :
    Returns (Checked.loop body s).run (.error fault) :=
  Returns.loop_exit (returns_outcome h)

/-- Induction over the iterations of a loop that found no fault. -/
theorem loop_induction {P : σ → ρ → Prop} {a : ρ}
    (hexit : ∀ s a, Returns (body s).run (.ok (.inr a)) → P s a)
    (hnext : ∀ s s' a, Returns (body s).run (.ok (.inl s')) →
      P s' a → P s a)
    (h : Returns (Checked.loop body s).run (.ok a)) : P s a := by
  refine Returns.loop_induction
    (P := fun s (r : Except ε ρ) => ∀ a, r = .ok a → P s a) ?_ ?_ h a rfl
  · rintro s - hstep a rfl
    obtain ⟨o, ho, heq⟩ := returns_bind.mp hstep
    have heq := returns_pure.mp heq
    rcases o with fault | (s' | b)
    · cases heq
    · cases heq
    · cases heq
      exact hexit s a ho
  · rintro s s' r hstep - ih a hr
    obtain ⟨o, ho, heq⟩ := returns_bind.mp hstep
    have heq := returns_pure.mp heq
    rcases o with fault | (s'' | b)
    · cases heq
    · cases heq
      exact hnext s s' a ho (ih a hr)
    · cases heq

theorem Stopping.loop
    (hbody : ∀ s t, R s t → Stopping (SumRel R Q) (body s) (body' t))
    {t : σ'} (hst : R s t) :
    Stopping Q (Checked.loop body s) (Checked.loop body' t) where
  forth a ha := by
    refine loop_induction (P := fun s a => ∀ t, R s t →
      ∃ b, Returns (Checked.loop body' t).run (.ok b) ∧ Q a b) ?_ ?_ ha t hst
    · intro s a hstep t hst
      obtain ⟨o, ho, hrel⟩ := (hbody s t hst).forth _ hstep
      cases hrel with
      | inr hq => exact ⟨_, loop_exit ho, hq⟩
    · intro s s' a hstep ih t hst
      obtain ⟨o, ho, hrel⟩ := (hbody s t hst).forth _ hstep
      cases hrel with
      | inl hr =>
          obtain ⟨b, hb, hq⟩ := ih _ hr
          exact ⟨b, (loop_next ho).mpr hb, hq⟩
  back b hb := by
    refine loop_induction (P := fun t b => ∀ s, R s t →
      (∃ a, Returns (Checked.loop body s).run (.ok a) ∧ Q a b) ∨
        ∃ fault, Returns (Checked.loop body s).run (.error fault))
      ?_ ?_ hb s hst
    · intro t b hstep s hst
      rcases (hbody s t hst).back _ hstep with ⟨o, ho, hrel⟩ | ⟨fault, hf⟩
      · cases hrel with
        | inr hq => exact Or.inl ⟨_, loop_exit ho, hq⟩
      · exact Or.inr ⟨fault, loop_fault hf⟩
    · intro t t' b hstep ih s hst
      rcases (hbody s t hst).back _ hstep with ⟨o, ho, hrel⟩ | ⟨fault, hf⟩
      · cases hrel with
        | inl hr =>
            rcases ih _ hr with ⟨a, ha, hq⟩ | ⟨fault, hf⟩
            · exact Or.inl ⟨a, (loop_next ho).mpr ha, hq⟩
            · exact Or.inr ⟨fault, (loop_next ho).mpr hf⟩
      · exact Or.inr ⟨fault, loop_fault hf⟩

end

/-- They return the same, as long as the left one finds no fault. -/
def Comparison.stopping (ε δ : Type) : Comparison ε δ where
  Rel := Stopping
  lift h := by
    constructor
    · intro a ha
      obtain ⟨a', ha, heq⟩ := returns_lift.mp ha
      cases heq
      obtain ⟨b, hb, hr⟩ := h.forth a ha
      exact ⟨b, returns_lift.mpr ⟨b, hb, rfl⟩, hr⟩
    · intro b hb
      obtain ⟨b', hb, heq⟩ := returns_lift.mp hb
      cases heq
      obtain ⟨a, ha, hr⟩ := h.back b hb
      exact Or.inl ⟨a, returns_lift.mpr ⟨a, ha, rfl⟩, hr⟩
  bind hxy hfg := by
    constructor
    · intro c hc
      obtain ⟨a, ha, hc⟩ := returns_bind_ok.mp hc
      obtain ⟨b, hb, hr⟩ := hxy.forth a ha
      obtain ⟨d, hd, hs⟩ := (hfg a b hr).forth c hc
      exact ⟨d, returns_bind_ok.mpr ⟨b, hb, hd⟩, hs⟩
    · intro d hd
      obtain ⟨b, hb, hd⟩ := returns_bind_ok.mp hd
      rcases hxy.back b hb with ⟨a, ha, hr⟩ | ⟨fault, hf⟩
      · rcases (hfg a b hr).back d hd with ⟨c, hc, hs⟩ | ⟨fault, hf⟩
        · exact Or.inl ⟨c, returns_bind_ok.mpr ⟨a, ha, hc⟩, hs⟩
        · exact Or.inr ⟨fault, returns_bind_error.mpr (Or.inr ⟨a, ha, hf⟩)⟩
      · exact Or.inr ⟨fault, returns_bind_error.mpr (Or.inl hf)⟩
  loop hbody := Stopping.loop hbody

end Checked

end Proc

end Libcad
