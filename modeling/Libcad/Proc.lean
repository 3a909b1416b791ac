/-
Computations that may loop, may run into undefined behaviour, or may return.
A computation is given fuel; more fuel never changes a result that was already
reached, so statements about results do not mention fuel at all.
-/
import Mathlib.Logic.Relation
import Mathlib.Tactic.Common

namespace Libcad

universe u v w

/-- Why a computation did not return: the C standard gives the step no
meaning, or the fuel was used up. -/
inductive Halt
  | undefined
  | fuel
deriving Repr, DecidableEq

/-- A computation, read at every amount of fuel.  A result other than running
out of fuel is final. -/
structure Proc (α : Type u) where
  run : Nat → Except Halt α
  stable : ∀ {n m : Nat}, n ≤ m → run n ≠ .error .fuel → run m = run n

namespace Proc

variable {α : Type u} {β : Type v} {σ : Type u} {ρ : Type v}

/-- A computation that is already finished. -/
def done (a : α) : Proc α where
  run _ := .ok a
  stable _ _ := rfl

def undefined : Proc α where
  run _ := .error .undefined
  stable _ _ := rfl

/-- A value that may be missing; going on without it has no meaning. -/
def ofOption : Option α → Proc α
  | some a => done a
  | none => undefined

/-- Run `x`, then continue with its result. -/
def andThen (x : Proc α) (f : α → Proc β) : Proc β where
  run n :=
    match x.run n with
    | .ok a => (f a).run n
    | .error e => .error e
  stable := by
    intro n m hle hne
    cases hx : x.run n with
    | ok a =>
        have hm : x.run m = .ok a := by
          rw [x.stable hle (by simp [hx]), hx]
        simp only [hx, hm] at hne ⊢
        exact (f a).stable hle hne
    | error e =>
        have he : e ≠ .fuel := by
          intro h
          simp [hx, h] at hne
        have hm : x.run m = .error e := by
          rw [x.stable hle (by simp [hx, he]), hx]
        simp only [hm]

instance : Monad Proc where
  pure := done
  bind := andThen

/-- Iterate `body` at fixed fuel until it yields a result. -/
def loopRun (body : σ → Proc (σ ⊕ ρ)) (fuel : Nat) : Nat → σ → Except Halt ρ
  | 0, _ => .error .fuel
  | n + 1, s =>
      match (body s).run fuel with
      | .ok (.inl s') => loopRun body fuel n s'
      | .ok (.inr r) => .ok r
      | .error e => .error e

theorem loopRun_stable (body : σ → Proc (σ ⊕ ρ)) {n m : Nat} (hle : n ≤ m) :
    ∀ {k l : Nat} (s : σ), k ≤ l →
      loopRun body n k s ≠ .error .fuel →
      loopRun body m l s = loopRun body n k s
  | 0, _, s, _, hne => absurd rfl hne
  | k + 1, 0, s, hkl, _ => absurd hkl (Nat.not_succ_le_zero k)
  | k + 1, l + 1, s, hkl, hne => by
      cases hb : (body s).run n with
      | error e =>
          have he : e ≠ .fuel := by
            intro h
            simp [loopRun, hb, h] at hne
          have hm : (body s).run m = .error e := by
            rw [(body s).stable hle (by simp [hb, he]), hb]
          simp only [loopRun, hb, hm]
      | ok o =>
          have hm : (body s).run m = .ok o := by
            rw [(body s).stable hle (by simp [hb]), hb]
          cases o with
          | inl s' =>
              simp only [loopRun, hb, hm] at hne ⊢
              exact loopRun_stable body hle s' (Nat.le_of_succ_le_succ hkl) hne
          | inr r => simp only [loopRun, hb, hm]

/-- `while`: run `body` again from each state it yields. -/
def loop (body : σ → Proc (σ ⊕ ρ)) (s : σ) : Proc ρ where
  run n := loopRun body n n s
  stable hle hne := loopRun_stable body hle s hle hne

/-- The computation returns `a`, given enough fuel. -/
def Returns (x : Proc α) (a : α) : Prop := ∃ n, x.run n = .ok a

theorem Returns.eventually {x : Proc α} {a : α} {n : Nat}
    (h : x.run n = .ok a) {m : Nat} (hle : n ≤ m) : x.run m = .ok a := by
  rw [x.stable hle (by simp [h]), h]

theorem Returns.unique {x : Proc α} {a b : α} (ha : Returns x a)
    (hb : Returns x b) : a = b := by
  obtain ⟨n, hn⟩ := ha
  obtain ⟨m, hm⟩ := hb
  have hn' := Returns.eventually hn (Nat.le_max_left n m)
  have hm' := Returns.eventually hm (Nat.le_max_right n m)
  rw [hn'] at hm'
  exact Except.ok.inj hm'

@[simp] theorem returns_pure {a b : α} :
    Returns (pure a : Proc α) b ↔ a = b := by
  constructor
  · rintro ⟨n, hn⟩
    exact Except.ok.inj hn
  · rintro rfl
    exact ⟨0, rfl⟩

theorem returns_pure_self (a : α) : Returns (pure a : Proc α) a :=
  returns_pure.mpr rfl

@[simp] theorem not_returns_undefined {a : α} :
    ¬ Returns (undefined : Proc α) a := by
  rintro ⟨n, hn⟩
  cases hn

theorem returns_ofOption {o : Option α} {a : α} :
    Returns (ofOption o) a ↔ o = some a := by
  cases o with
  | none => exact iff_of_false not_returns_undefined nofun
  | some b =>
      rw [Option.some.injEq]
      exact returns_pure

variable {β : Type u}

theorem run_bind_ok {x : Proc α} {f : α → Proc β} {n : Nat} {a : α}
    (h : x.run n = .ok a) : (x >>= f).run n = (f a).run n := by
  simp only [Bind.bind, andThen, h]

theorem run_bind_error {x : Proc α} {f : α → Proc β} {n : Nat} {e : Halt}
    (h : x.run n = .error e) : (x >>= f).run n = .error e := by
  simp only [Bind.bind, andThen, h]

theorem returns_bind {x : Proc α} {f : α → Proc β} {b : β} :
    Returns (x >>= f) b ↔ ∃ a, Returns x a ∧ Returns (f a) b := by
  constructor
  · rintro ⟨n, hn⟩
    cases hx : x.run n with
    | ok a =>
        rw [run_bind_ok hx] at hn
        exact ⟨a, ⟨n, hx⟩, ⟨n, hn⟩⟩
    | error e =>
        rw [run_bind_error hx] at hn
        cases hn
  · rintro ⟨a, ⟨n, hn⟩, ⟨m, hm⟩⟩
    refine ⟨max n m, ?_⟩
    rw [run_bind_ok (Returns.eventually hn (Nat.le_max_left n m))]
    exact Returns.eventually hm (Nat.le_max_right n m)

theorem Returns.bind {x : Proc α} {f : α → Proc β} {a : α} {b : β}
    (hx : Returns x a) (hf : Returns (f a) b) : Returns (x >>= f) b :=
  returns_bind.mpr ⟨a, hx, hf⟩

/-- Once the first part is known to return `a`, the whole is its
continuation at `a`. -/
theorem Returns.bind_iff {x : Proc α} {f : α → Proc β} {a : α} {b : β}
    (hx : Returns x a) : Returns (x >>= f) b ↔ Returns (f a) b := by
  constructor
  · intro h
    obtain ⟨a', hx', hf⟩ := returns_bind.mp h
    rwa [hx.unique hx']
  · exact hx.bind

variable {body : σ → Proc (σ ⊕ ρ)} {s s' : σ} {r : ρ}

theorem returns_loop_iff :
    Returns (loop body s) r ↔
      (∃ s', Returns (body s) (.inl s') ∧ Returns (loop body s') r) ∨
        Returns (body s) (.inr r) := by
  constructor
  · rintro ⟨n, hn⟩
    change loopRun body n n s = .ok r at hn
    cases n with
    | zero => cases hn
    | succ n =>
        cases hb : (body s).run (n + 1) with
        | error e => simp [loopRun, hb] at hn
        | ok o =>
            cases o with
            | inl s' =>
                refine Or.inl ⟨s', ⟨n + 1, hb⟩, n + 1, ?_⟩
                simp only [loopRun, hb] at hn
                exact (loopRun_stable body (Nat.le_refl _) s' (Nat.le_succ n)
                  (by simp [hn])).trans hn
            | inr r' =>
                simp only [loopRun, hb] at hn
                cases hn
                exact Or.inr ⟨n + 1, hb⟩
  · rintro (⟨s', ⟨n, hn⟩, m, hm⟩ | ⟨n, hn⟩)
    · refine ⟨max n m + 1, ?_⟩
      have hb := Returns.eventually hn
        (Nat.le_succ_of_le (Nat.le_max_left n m))
      have hl : loopRun body (max n m + 1) (max n m) s' = .ok r := by
        have hm' : loopRun body m m s' = .ok r := hm
        rw [loopRun_stable body (Nat.le_succ_of_le (Nat.le_max_right n m)) s'
          (Nat.le_max_right n m) (by simp [hm']), hm']
      change loopRun body (max n m + 1) (max n m + 1) s = .ok r
      simp only [loopRun, hb, hl]
    · refine ⟨n + 1, ?_⟩
      have hb := Returns.eventually hn (Nat.le_succ n)
      change loopRun body (n + 1) (n + 1) s = .ok r
      simp only [loopRun, hb]

theorem Returns.loop_next (h : Returns (body s) (.inl s')) :
    Returns (loop body s) r ↔ Returns (loop body s') r := by
  rw [returns_loop_iff]
  constructor
  · rintro (⟨t, ht, hl⟩ | hr)
    · cases h.unique ht
      exact hl
    · cases h.unique hr
  · exact fun hl => Or.inl ⟨s', h, hl⟩

theorem Returns.loop_exit (h : Returns (body s) (.inr r)) :
    Returns (loop body s) r :=
  returns_loop_iff.mpr (Or.inr h)

theorem Returns.loop_induction {P : σ → ρ → Prop}
    (hexit : ∀ s r, Returns (body s) (.inr r) → P s r)
    (hnext : ∀ s s' r, Returns (body s) (.inl s') →
      Returns (loop body s') r → P s' r → P s r)
    (h : Returns (loop body s) r) : P s r := by
  obtain ⟨n, hn⟩ := h
  have key : ∀ k s, loopRun body n k s = .ok r → P s r := by
    intro k
    induction k with
    | zero => intro s hk; cases hk
    | succ k ih =>
        intro s hk
        cases hb : (body s).run n with
        | error e => simp [loopRun, hb] at hk
        | ok o =>
            cases o with
            | inl s' =>
                simp only [loopRun, hb] at hk
                refine hnext s s' r ⟨n, hb⟩ ⟨max n k, ?_⟩ (ih s' hk)
                change loopRun body (max n k) (max n k) s' = .ok r
                rw [loopRun_stable body (Nat.le_max_left n k) s'
                  (Nat.le_max_right n k) (by simp [hk]), hk]
            | inr r' =>
                simp only [loopRun, hb] at hk
                cases hk
                exact hexit s _ ⟨n, hb⟩
  exact key n s hn

/-- A property kept by every iteration holds where the loop is left. -/
theorem Returns.loop_invariant {I : σ → Prop} {Q : ρ → Prop}
    (hnext : ∀ s s', I s → Returns (body s) (.inl s') → I s')
    (hexit : ∀ s r, I s → Returns (body s) (.inr r) → Q r)
    (hs : I s) (h : Returns (loop body s) r) : Q r :=
  Returns.loop_induction (P := fun s r => I s → Q r)
    (fun s r hb hi => hexit s r hi hb)
    (fun s s' _ hb _ ih hi => ih (hnext s s' hi hb)) h hs

/-- The same, with one hypothesis for both ways an iteration can end. -/
theorem Returns.loop_ensures {I : σ → Prop} {Q : ρ → Prop}
    (hstep : ∀ s o, I s → Returns (body s) o → Sum.elim I Q o)
    (hs : I s) (h : Returns (loop body s) r) : Q r :=
  h.loop_invariant (fun s s' hi hb => hstep s (.inl s') hi hb)
    (fun s r hi hb => hstep s (.inr r) hi hb) hs

theorem loop_returns {I : σ → Prop} {Q : ρ → Prop} (measure : σ → Nat)
    (hstep : ∀ s, I s →
      (∃ s', Returns (body s) (.inl s') ∧ I s' ∧ measure s' < measure s) ∨
        ∃ r, Returns (body s) (.inr r) ∧ Q r)
    (hs : I s) : ∃ r, Returns (loop body s) r ∧ Q r := by
  induction hn : measure s using Nat.strongRecOn generalizing s with
  | ind n ih =>
      rcases hstep s hs with ⟨s', hb, hi, hlt⟩ | ⟨r, hb, hq⟩
      · obtain ⟨r, hr, hq⟩ := ih (measure s') (hn ▸ hlt) hi rfl
        exact ⟨r, hb.loop_next.mpr hr, hq⟩
      · exact ⟨r, hb.loop_exit, hq⟩

/-- Some number of iterations leads from the first state to the second. -/
def Reaches (body : σ → Proc (σ ⊕ ρ)) : σ → σ → Prop :=
  Relation.ReflTransGen fun s s' => Returns (body s) (.inl s')

theorem Reaches.refl (s : σ) : Reaches body s s := Relation.ReflTransGen.refl

theorem Reaches.trans {a b c : σ} (hab : Reaches body a b)
    (hbc : Reaches body b c) : Reaches body a c :=
  Relation.ReflTransGen.trans hab hbc

theorem Reaches.step (h : Returns (body s) (.inl s')) :
    Reaches body s s' := Relation.ReflTransGen.single h

/-- What every iteration keeps holds of every state reached. -/
theorem Reaches.invariant {I : σ → Prop}
    (hnext : ∀ s s', I s → Returns (body s) (.inl s') → I s')
    (h : Reaches body s s') (hs : I s) : I s' := by
  induction h with
  | refl => exact hs
  | tail _ hstep ih => exact hnext _ _ ih hstep

theorem Reaches.returns_iff (h : Reaches body s s') :
    Returns (loop body s) r ↔ Returns (loop body s') r := by
  induction h with
  | refl => exact Iff.rfl
  | tail _ hstep ih => exact ih.trans hstep.loop_next

theorem Reaches.next_iff {t : σ} (h : Returns (body s) (.inl s')) :
    Reaches body s t ↔ t = s ∨ Reaches body s' t := by
  constructor
  · intro hreach
    rcases Relation.ReflTransGen.cases_head hreach with rfl | ⟨u, hu, hrest⟩
    · exact Or.inl rfl
    · cases h.unique hu
      exact Or.inr hrest
  · rintro (rfl | hreach)
    · exact Reaches.refl t
    · exact (Reaches.step h).trans hreach

theorem Reaches.exit_iff {t : σ} (h : Returns (body s) (.inr r)) :
    Reaches body s t ↔ t = s := by
  constructor
  · intro hreach
    rcases Relation.ReflTransGen.cases_head hreach with rfl | ⟨u, hu, -⟩
    · rfl
    · cases h.unique hu
  · rintro rfl
    exact Reaches.refl t

theorem Returns.loop_leaves (h : Returns (loop body s) r) :
    ∃ t, Reaches body s t ∧ Returns (body t) (.inr r) := by
  refine Returns.loop_induction
    (P := fun s r => ∃ t, Reaches body s t ∧ Returns (body t) (.inr r))
    ?_ ?_ h
  · exact fun s r hb => ⟨s, Reaches.refl s, hb⟩
  · rintro s s' r hb - ⟨t, hreach, ht⟩
    exact ⟨t, (Reaches.step hb).trans hreach, ht⟩

/-- No step of the computation is without a meaning; it may still loop. -/
def Defined (x : Proc α) : Prop := ∀ n, x.run n ≠ .error .undefined

theorem not_defined_undefined : ¬ Defined (undefined : Proc α) :=
  fun h => h 0 rfl

theorem Returns.defined {x : Proc α} {a : α} (h : Returns x a) :
    Defined x := by
  obtain ⟨n, hn⟩ := h
  intro m hm
  have hn' := Returns.eventually hn (Nat.le_max_left n m)
  have hm' := x.stable (Nat.le_max_right n m) (by simp [hm])
  rw [hn', hm] at hm'
  cases hm'

/-- Where the first part of a computation without undefined steps returns, the
continuation is without undefined steps. -/
theorem Defined.bind_right {x : Proc α} {f : α → Proc β} {a : α}
    (h : Defined (x >>= f)) (hx : Returns x a) : Defined (f a) := by
  obtain ⟨n, hn⟩ := hx
  intro m hm
  refine h (max n m) ?_
  rw [run_bind_ok (Returns.eventually hn (Nat.le_max_left n m)),
    (f a).stable (Nat.le_max_right n m) (by simp [hm]), hm]

theorem Defined.bind_left {x : Proc α} {f : α → Proc β}
    (h : Defined (x >>= f)) : Defined x := by
  intro n hn
  exact h n (run_bind_error hn)

theorem Defined.loop_body (h : Defined (loop body s)) : Defined (body s) := by
  intro n hn
  refine h (n + 1) ?_
  have hb : (body s).run (n + 1) = .error .undefined := by
    rw [(body s).stable (Nat.le_succ n) (by simp [hn]), hn]
  change loopRun body (n + 1) (n + 1) s = .error .undefined
  simp only [loopRun, hb]

theorem Defined.loop_next (h : Defined (loop body s))
    (hb : Returns (body s) (.inl s')) : Defined (loop body s') := by
  obtain ⟨n, hn⟩ := hb
  intro m hm
  refine h (max n m + 1) ?_
  have hbody := Returns.eventually hn
    (Nat.le_succ_of_le (Nat.le_max_left n m))
  have hm' : loopRun body m m s' = .error .undefined := hm
  have hloop : loopRun body (max n m + 1) (max n m) s' =
      .error .undefined := by
    rw [loopRun_stable body (Nat.le_succ_of_le (Nat.le_max_right n m)) s'
      (Nat.le_max_right n m) (by simp [hm']), hm']
  change loopRun body (max n m + 1) (max n m + 1) s = .error .undefined
  simp only [loopRun, hbody, hloop]

/-- A loop without undefined steps returns, when its defined iterations return
and decrease a measure. -/
theorem Defined.loop_returns {I : σ → Prop} {Q : ρ → Prop}
    (measure : σ → Nat)
    (hstep : ∀ s, I s → Defined (body s) →
      (∃ s', Returns (body s) (.inl s') ∧ I s' ∧ measure s' < measure s) ∨
        ∃ r, Returns (body s) (.inr r) ∧ Q r)
    (hs : I s) (h : Defined (loop body s)) :
    ∃ r, Returns (loop body s) r ∧ Q r := by
  have hsteps : ∀ s, I s ∧ Defined (loop body s) →
      (∃ s', Returns (body s) (.inl s') ∧ (I s' ∧ Defined (loop body s')) ∧
        measure s' < measure s) ∨
        ∃ r, Returns (body s) (.inr r) ∧ Q r := by
    rintro s ⟨hi, hd⟩
    rcases hstep s hi hd.loop_body with ⟨s', hb, hi', hlt⟩ | hexit
    · exact Or.inl ⟨s', hb, ⟨hi', hd.loop_next hb⟩, hlt⟩
    · exact Or.inr hexit
  exact Proc.loop_returns measure hsteps ⟨hs, h⟩

end Proc

end Libcad
