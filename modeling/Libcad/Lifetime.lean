/-
Objects from their creation to their end: a sequence of operations and a last
one.  Two objects that differ only in what no operation reads live alike.
-/
import Libcad.Agree

namespace Libcad

namespace Proc

variable {C σ ρ ω : Type}

/-- A sequence of operations and the last one, with what they answered. -/
def lifetime (call : σ → C → Proc (ρ × σ)) (last : σ → Proc ω) :
    List C → σ → Proc (List ρ × ω)
  | [], s => do
      let answer ← last s
      pure ([], answer)
  | c :: cs, s => do
      let (r, s) ← call s c
      let (rs, answer) ← lifetime call last cs s
      pure (r :: rs, answer)

/-- Every operation meets a condition on the state it finds. -/
def Meets (call : σ → C → Proc (ρ × σ)) (good : σ → C → Prop)
    (goodLast : σ → Prop) : List C → σ → Prop
  | [], s => goodLast s
  | c :: cs, s => good s c ∧
      ∀ r t, Returns (call s c) (r, t) → Meets call good goodLast cs t

/-- From related states, an operation that meets the condition answers alike
and leaves related states. -/
structure Alike (call call' : σ → C → Proc (ρ × σ)) (last : σ → Proc ω)
    (R : σ → σ → Prop) (good : σ → C → Prop) (goodLast : σ → Prop) :
    Prop where
  call : ∀ {s s' c}, R s s' → good s c →
    Agree (fun a b => a.1 = b.1 ∧ R a.2 b.2) (call s c) (call' s' c)
  last : ∀ {s s'}, R s s' → goodLast s → Agree Eq (last s) (last s')

variable {call call' : σ → C → Proc (ρ × σ)} {last : σ → Proc ω}
  {R : σ → σ → Prop} {good : σ → C → Prop} {goodLast : σ → Prop}

/-- Objects whose operations meet the condition live alike. -/
theorem Alike.lifetime (halike : Alike call call' last R good goodLast)
    (cs : List C) : ∀ {s s' : σ}, R s s' → Meets call good goodLast cs s →
      Agree Eq (lifetime call last cs s) (lifetime call' last cs s') := by
  induction cs with
  | nil =>
      intro s s' hR hmeets
      refine (halike.last hR hmeets).bind fun a b hab => ?_
      exact Agree.pure (by rw [hab])
  | cons c cs ih =>
      intro s s' hR hmeets
      refine (halike.call hR hmeets.1).with_returns.bind ?_
      rintro ⟨r, t⟩ ⟨r', t'⟩ ⟨⟨hr, hR'⟩, hcall, -⟩
      refine (ih hR' (hmeets.2 r t hcall)).bind fun a b hab => ?_
      exact Agree.pure (by rw [hab, show r = r' from hr])

/-- Where an operation that does not meet the condition is undefined, every
object that comes to its end met it. -/
theorem Alike.meets (halike : Alike call call' last R good goodLast)
    (hcall : ∀ {s s' c a}, R s s' → Returns (call s c) a → good s c)
    (hlast : ∀ {s s' a}, R s s' → Returns (last s) a → goodLast s)
    (cs : List C) : ∀ {s s' : σ} {trace : List ρ × ω}, R s s' →
      Returns (Proc.lifetime call last cs s) trace →
      Meets call good goodLast cs s := by
  induction cs with
  | nil =>
      intro s s' trace hR h
      obtain ⟨a, ha, -⟩ := returns_bind.mp h
      exact hlast hR ha
  | cons c cs ih =>
      intro s s' trace hR h
      obtain ⟨⟨r, t⟩, hreturns, h⟩ := returns_bind.mp h
      obtain ⟨rest, hrest, -⟩ := returns_bind.mp h
      have hgood := hcall hR hreturns
      refine ⟨hgood, fun r' t' h' => ?_⟩
      cases h'.unique hreturns
      obtain ⟨b, -, -, hR'⟩ := (halike.call hR hgood).forth _ hreturns
      exact ih hR' hrest

/-- Operations in turn lead from one state to another one, with some of them
still to come. -/
inductive LeadsTo (call : σ → C → Proc (ρ × σ)) : List C → σ → List C → σ → Prop
  | here (cs : List C) (s : σ) : LeadsTo call cs s cs s
  | call {c : C} {cs rest : List C} {s t u : σ} {r : ρ} :
      Returns (call s c) (r, t) → LeadsTo call cs t rest u →
        LeadsTo call (c :: cs) s rest u

/-- What each operation preserves holds on the way, as far as the operations
meet the condition. -/
theorem LeadsTo.invariant {I : σ → Prop} {P : σ → C → Prop}
    (hstep : ∀ {s c r t}, I s → P s c → Returns (call s c) (r, t) → I t)
    {cs rest : List C} {s u : σ} (h : LeadsTo call cs s rest u) (hs : I s)
    (hgood : ∀ c later t, LeadsTo call cs s (c :: later) t → P t c) :
    I u := by
  induction h with
  | here cs s => exact hs
  | @call c cs rest s t u r hcall _ ih =>
      refine ih (hstep hs (hgood c cs s (.here _ s)) hcall) ?_
      intro d later v hleads
      exact hgood d later v (.call hcall hleads)

theorem LeadsTo.snoc {c : C} {cs rest : List C} {s t u : σ} {r : ρ}
    (h : LeadsTo call cs s (c :: rest) t) (hcall : Returns (call t c) (r, u)) :
    LeadsTo call cs s rest u := by
  generalize hlist : c :: rest = list at h
  induction h with
  | here cs s =>
      subst hlist
      exact .call hcall (.here rest u)
  | call hfirst _ ih => exact .call hfirst (ih hcall hlist)

/-- The operations to come are among those of the sequence. -/
theorem LeadsTo.rest_subset {cs rest : List C} {s u : σ}
    (h : LeadsTo call cs s rest u) : rest ⊆ cs := by
  induction h with
  | here cs s => exact List.Subset.refl cs
  | call _ _ ih => exact List.Subset.trans ih (List.subset_cons_self _ _)

end Proc

end Libcad
