/-
Loops in loops.  One `while` runs a program that opens, closes and repeats
sections, and each section is repeated finitely often; the place in the program
goes back only where a section is repeated.
-/
import Libcad.Settles
import Mathlib.Logic.Function.Iterate
import Mathlib.Logic.Relation

namespace Libcad

universe u

namespace Proc

/-- What the rule for loops in loops reads of a state: how much of the program
is left, and the open sections, innermost first; of a section, how much was
left where it starts, the section at its next repetition, and whether it is
repeated where the state stands at its end. -/
structure Nested (σ lam : Type u) where
  room : σ → Nat
  stack : σ → List lam
  start : lam → Nat
  next : lam → lam
  repeats : σ → lam → Prop

variable {σ ρ lam : Type u} {excuse : Prop}

/-- Iterations after which at least `depth` sections are open. -/
def Staying (body : σ → Proc (σ ⊕ ρ)) (stack : σ → List lam) (depth : Nat) :
    σ → σ → Prop :=
  Relation.ReflTransGen fun s s' =>
    Returns (body s) (.inl s') ∧ depth ≤ (stack s').length

/-- What one iteration does to the place and to the open sections. -/
inductive Nested.Moves (sys : Nested σ lam) : σ → σ → Prop
  | forward {s s'} (stack : sys.stack s' = sys.stack s)
      (room : sys.room s' < sys.room s) : Moves sys s s'
  | opened {s s'} (inner : lam)
      (stack : sys.stack s' = inner :: sys.stack s)
      (start : sys.start inner = sys.room s')
      (room : sys.room s' < sys.room s) : Moves sys s s'
  | closed {s s'} (inner : lam)
      (stack : sys.stack s = inner :: sys.stack s')
      (room : sys.room s' < sys.room s) : Moves sys s s'
  | again {s s'} (inner : lam) (outer : List lam)
      (before : sys.stack s = inner :: outer)
      (after : sys.stack s' = sys.next inner :: outer)
      (room : sys.room s' = sys.start inner)
      (repeats : sys.repeats s inner) : Moves sys s s'

variable {body : σ → Proc (σ ⊕ ρ)} {stack : σ → List lam} {s s' t : σ}
  {depth depth' : Nat}

theorem Staying.mono (h : Staying body stack depth s t)
    (hle : depth' ≤ depth) : Staying body stack depth' s t :=
  Relation.ReflTransGen.mono
    (fun _ _ hstep => ⟨hstep.1, Nat.le_trans hle hstep.2⟩) _ _ h

theorem Staying.head (hstep : Returns (body s) (.inl s'))
    (hdepth : depth ≤ (stack s').length)
    (h : Staying body stack depth s' t) : Staying body stack depth s t :=
  Relation.ReflTransGen.head ⟨hstep, hdepth⟩ h

theorem Staying.tail (h : Staying body stack depth s s')
    (hstep : Returns (body s') (.inl t)) (hdepth : depth ≤ (stack t).length) :
    Staying body stack depth s t :=
  Relation.ReflTransGen.tail h ⟨hstep, hdepth⟩

section

variable {sys : Nested σ lam} {I : σ → Prop} {Q : ρ → Prop}

/-- Every section is repeated finitely often while it stays open. -/
def Nested.Bounded (sys : Nested σ lam) (body : σ → Proc (σ ⊕ ρ))
    (I : σ → Prop) : Prop :=
  ∀ s inner outer, I s → sys.stack s = inner :: outer →
    ∃ bound, ∀ k t, Staying body sys.stack (outer.length + 1) s t →
      sys.stack t = sys.next^[k] inner :: outer →
      sys.repeats t (sys.next^[k] inner) → k < bound

/-- The loop settles wherever the innermost section open at `s` is closed or
repeated. -/
structure Nested.Leaves (sys : Nested σ lam) (body : σ → Proc (σ ⊕ ρ))
    (I : σ → Prop) (excuse : Prop) (Q : ρ → Prop) (s : σ) : Prop where
  closed : ∀ t t' inner outer,
    Staying body sys.stack (sys.stack s).length s t →
    sys.stack s = inner :: outer → sys.stack t = inner :: outer → I t →
    Returns (body t) (.inl t') → I t' → sys.stack t' = outer →
    sys.room t' < sys.room t → Settles excuse (loop body t') Q
  again : ∀ t t' inner outer,
    Staying body sys.stack (sys.stack s).length s t →
    sys.stack s = inner :: outer → sys.stack t = inner :: outer →
    sys.repeats t inner → Returns (body t) (.inl t') → I t' →
    sys.stack t' = sys.next inner :: outer → sys.room t' = sys.start inner →
    Settles excuse (loop body t') Q

/-- What holds where the section is left holds later as well. -/
theorem Nested.Leaves.later (h : sys.Leaves body I excuse Q s)
    (ht : Staying body sys.stack (sys.stack s).length s t)
    (hstack : sys.stack t = sys.stack s) : sys.Leaves body I excuse Q t where
  closed u u' inner outer hu htop :=
    h.closed u u' inner outer
      (Relation.ReflTransGen.trans ht (hstack ▸ hu)) (hstack ▸ htop)
  again u u' inner outer hu htop :=
    h.again u u' inner outer
      (Relation.ReflTransGen.trans ht (hstack ▸ hu)) (hstack ▸ htop)

theorem Nested.start_iterate
    (hnext : ∀ inner, sys.start (sys.next inner) = sys.start inner)
    (inner : lam) (k : Nat) :
    sys.start (sys.next^[k] inner) = sys.start inner := by
  induction k with
  | zero => rfl
  | succ k ih => rw [Function.iterate_succ_apply', hnext, ih]

/-- The repetitions of one section: the loop settles from its start when it
settles from where the section is closed for good. -/
theorem Nested.settles_section {first : σ} {inner : lam} {outer : List lam}
    {bound : Nat}
    (hlevel : ∀ t, sys.room t ≤ sys.room first → I t →
      sys.Leaves body I excuse Q t → Settles excuse (loop body t) Q)
    (hafter : ∀ t, Staying body sys.stack outer.length first t → I t →
      sys.stack t = outer → sys.room t < sys.room first →
      Settles excuse (loop body t) Q)
    (hplace : ∀ s inner, I s → inner ∈ sys.stack s →
      sys.room s ≤ sys.start inner)
    (hnext : ∀ inner, sys.start (sys.next inner) = sys.start inner)
    (hstart : sys.start inner = sys.room first)
    (hbound : ∀ k t, Staying body sys.stack (outer.length + 1) first t →
      sys.stack t = sys.next^[k] inner :: outer →
      sys.repeats t (sys.next^[k] inner) → k < bound) (k : Nat) :
    ∀ t, Staying body sys.stack (outer.length + 1) first t → I t →
      sys.stack t = sys.next^[k] inner :: outer →
      sys.room t = sys.room first → Settles excuse (loop body t) Q := by
  induction hleft : bound - k using Nat.strongRecOn generalizing k with
  | ind left ih =>
      intro t ht hi hstack hroom
      have hlength : (sys.stack t).length = outer.length + 1 := by
        rw [hstack, List.length_cons]
      have hlater : ∀ u, Staying body sys.stack (sys.stack t).length t u →
          Staying body sys.stack (outer.length + 1) first u :=
        fun u hu => Relation.ReflTransGen.trans ht (hlength ▸ hu)
      refine hlevel t (Nat.le_of_eq hroom) hi ⟨?_, ?_⟩
      · intro u u' inner' outer' hu htop hstacku hiu hreturns hiu' hstacku'
          hroomu
        obtain ⟨rfl, rfl⟩ := List.cons.inj (hstack.symm.trans htop)
        have hle := hplace u _ hiu (hstacku ▸ List.mem_cons_self)
        rw [Nested.start_iterate hnext, hstart] at hle
        refine hafter u' ?_ hiu' hstacku' (by omega)
        exact ((hlater u hu).mono (Nat.le_succ _)).tail hreturns
          (hstacku' ▸ Nat.le_refl _)
      · intro u u' inner' outer' hu htop hstacku hrepeats hreturns hiu'
          hstacku' hroomu
        obtain ⟨rfl, rfl⟩ := List.cons.inj (hstack.symm.trans htop)
        have hlt := hbound k u (hlater u hu) hstacku hrepeats
        rw [← Function.iterate_succ_apply' sys.next] at hstacku'
        rw [Nested.start_iterate hnext, hstart] at hroomu
        refine ih (bound - (k + 1)) (by omega) (k + 1) rfl u' ?_ hiu' hstacku'
          hroomu
        exact (hlater u hu).tail hreturns (by simp [hstacku'])

/-- The loop settles from a state when it settles from wherever the innermost
section that is open there is left. -/
theorem Nested.settles_level
    (hstep : ∀ s, I s → Settles excuse (body s) fun o => match o with
      | .inl s' => I s' ∧ sys.Moves s s'
      | .inr r => Q r)
    (hplace : ∀ s inner, I s → inner ∈ sys.stack s →
      sys.room s ≤ sys.start inner)
    (hnext : ∀ inner, sys.start (sys.next inner) = sys.start inner)
    (hbound : sys.Bounded body I) (m : Nat) :
    ∀ s, sys.room s ≤ m → I s → sys.Leaves body I excuse Q s →
      Settles excuse (loop body s) Q := by
  induction m using Nat.strongRecOn with
  | ind m ih =>
      intro s hm hi hleaves
      refine Settles.loop_step ((hstep s hi).mono ?_)
      intro o ho hmoves
      cases o with
      | inr r => exact hmoves
      | inl s' =>
          obtain ⟨hi', hmoves⟩ := hmoves
          cases hmoves with
          | forward hstack hroom =>
              refine ih (sys.room s') (by omega) s' (Nat.le_refl _) hi'
                (hleaves.later ?_ hstack)
              exact Relation.ReflTransGen.refl.tail
                ⟨ho, hstack ▸ Nat.le_refl _⟩
          | closed inner hstack hroom =>
              exact hleaves.closed s s' inner _ Relation.ReflTransGen.refl
                hstack hstack hi ho hi' rfl hroom
          | again inner outer hbefore hafter hroom hrepeats =>
              exact hleaves.again s s' inner outer Relation.ReflTransGen.refl
                hbefore hbefore hrepeats ho hi' hafter hroom
          | opened inner hstack hstart hroom =>
              obtain ⟨bound, hbound⟩ :=
                hbound s' inner (sys.stack s) hi' hstack
              refine Nested.settles_section
                (fun t ht => ih (sys.room t) (by omega) t (Nat.le_refl _)) ?_
                hplace hnext hstart hbound 0 s' Relation.ReflTransGen.refl hi'
                hstack rfl
              intro t ht hit hstackt hroomt
              refine ih (sys.room t) (by omega) t (Nat.le_refl _) hit
                (hleaves.later (ht.head ho ?_) hstackt)
              rw [hstack, List.length_cons]
              exact Nat.le_succ _

/-- A loop of nested sections, each of them repeated finitely often, settles. -/
theorem Nested.settles
    (hstep : ∀ s, I s → Settles excuse (body s) fun o => match o with
      | .inl s' => I s' ∧ sys.Moves s s'
      | .inr r => Q r)
    (hplace : ∀ s inner, I s → inner ∈ sys.stack s →
      sys.room s ≤ sys.start inner)
    (hnext : ∀ inner, sys.start (sys.next inner) = sys.start inner)
    (hbound : sys.Bounded body I) {s : σ} (hi : I s)
    (hs : sys.stack s = []) : Settles excuse (loop body s) Q := by
  refine Nested.settles_level hstep hplace hnext hbound (sys.room s) s
    (Nat.le_refl _) hi ⟨?_, ?_⟩
  · intro t t' inner outer _ htop
    rw [hs] at htop
    cases htop
  · intro t t' inner outer _ htop
    rw [hs] at htop
    cases htop

end

end Proc

end Libcad
