/-
Relations that hold between the records before and after reading.  All of the
engine's reading is `buffer_next`, and going back to where it began; what these
two keep is kept by whatever is made of them.
-/
import Libcad.Stache

namespace Libcad

open Proc

variable {σ ο τ : Type}

/-- The relation holds for each `buffer_next`, goes on from one reading to the
next, and stays when the buffer goes back to where it began. -/
structure ReadClosed (fns : StreamFns τ) (cb : Callback σ ο τ)
    (P : Buffer σ ο τ → Buffer σ ο τ → Prop) : Prop where
  refl : ∀ buffer, P buffer buffer
  trans : ∀ {a b c}, P a b → P b c → P a c
  next : ∀ {before after more},
    Returns (bufferNext fns cb before) (more, after) → P before after
  back : ∀ {before after}, P before after →
    P before { after with index := before.index }

section

variable {fns : StreamFns τ} {cb : Callback σ ο τ}
  {P : Buffer σ ο τ → Buffer σ ο τ → Prop} {buffer after : Buffer σ ο τ}

theorem ReadClosed.match (hP : ReadClosed fns cb P) {expected : Bytes} :
    ∀ {buffer : Buffer σ ο τ} {matched : Bool},
      Returns (bufferMatch fns cb expected buffer) (matched, after) →
        P buffer after := by
  induction expected with
  | nil =>
      intro buffer matched h
      cases returns_pure.mp h
      exact hP.refl _
  | cons c expected ih =>
      intro buffer matched h
      obtain ⟨item, -, h⟩ := returns_bind.mp h
      split at h
      next =>
        obtain ⟨⟨more, next⟩, hnext, h⟩ := returns_bind.mp h
        dsimp only at h
        split at h
        next => exact hP.trans (hP.next hnext) (ih h)
        next =>
          cases returns_pure.mp h
          exact hP.next hnext
      next =>
        cases returns_pure.mp h
        exact hP.refl _

theorem ReadClosed.lookAt (hP : ReadClosed fns cb P) {expected : Bytes}
    {matched : Bool}
    (h : Returns (bufferLookAt fns cb expected buffer) (matched, after)) :
    P buffer after := by
  obtain ⟨⟨result, read⟩, hmatch, h⟩ := returns_bind.mp h
  have hread : P buffer read := hP.match hmatch
  dsimp only at h
  split at h
  next =>
    cases returns_pure.mp h
    exact hread
  next =>
    cases returns_pure.mp h
    exact hP.back hread

theorem ReadClosed.skipBlanks (hP : ReadClosed fns cb P)
    (h : Returns (bufferSkipBlanks fns cb buffer) after) :
    P buffer after := by
  refine Returns.loop_ensures (I := fun b => P buffer b) ?_ (hP.refl _) h
  intro b o hb hstep
  rw [skipBlanksStep] at hstep
  split at hstep
  next =>
    cases returns_pure.mp hstep
    exact hb
  next =>
    obtain ⟨c, -, hstep⟩ := returns_bind.mp hstep
    split at hstep
    next =>
      obtain ⟨⟨again, next⟩, hnext, hstep⟩ := returns_bind.mp hstep
      have hread := hP.trans hb (hP.next hnext)
      cases again with
      | true =>
          cases returns_pure.mp hstep
          exact hread
      | false =>
          cases returns_pure.mp hstep
          exact hread
    next =>
      cases returns_pure.mp hstep
      exact hb

theorem ReadClosed.lookAtSuffix (hP : ReadClosed fns cb P)
    {suffix : Option Bytes} {matched : Bool}
    (h : Returns (bufferLookAtSuffix fns cb suffix buffer) (matched, after)) :
    P buffer after := by
  cases suffix with
  | none =>
      cases returns_pure.mp h
      exact hP.refl _
  | some suffix => exact hP.lookAt h

theorem ReadClosed.parseNameStep (hP : ReadClosed fns cb P)
    {suffix : Option Bytes} {s : NameBlock × Buffer σ ο τ}
    {o : (NameBlock × Buffer σ ο τ) ⊕ (Option NameBlock × Buffer σ ο τ)}
    (h : Returns (parseNameStep fns cb suffix s) o) :
    P s.2 (Sum.elim Prod.snd Prod.snd o) := by
  obtain ⟨name, buffer⟩ := s
  rw [Libcad.parseNameStep] at h
  dsimp only at h
  split at h
  next =>
    cases returns_pure.mp h
    exact hP.refl _
  next =>
    obtain ⟨⟨suffixed, b₁⟩, hsuffix, h⟩ := returns_bind.mp h
    have hread₁ := hP.lookAtSuffix hsuffix
    dsimp only at h
    split at h
    next =>
      obtain ⟨⟨closed, b₂⟩, hclose, h⟩ := returns_bind.mp h
      cases returns_pure.mp h
      exact hP.trans hread₁ (hP.lookAt hclose)
    next =>
      obtain ⟨⟨closed, b₂⟩, hclose, h⟩ := returns_bind.mp h
      have hread₂ := hP.trans hread₁ (hP.lookAt hclose)
      dsimp only at h
      split at h
      next =>
        cases returns_pure.mp h
        exact hread₂
      next =>
        obtain ⟨c, -, h⟩ := returns_bind.mp h
        obtain ⟨⟨more, b₃⟩, hnext, h⟩ := returns_bind.mp h
        have hread₃ := hP.trans hread₂ (hP.next hnext)
        cases more with
        | true =>
            cases returns_pure.mp h
            exact hread₃
        | false =>
            cases returns_pure.mp h
            exact hread₃

theorem ReadClosed.nameLoop (hP : ReadClosed fns cb P)
    {suffix : Option Bytes} {s : NameBlock × Buffer σ ο τ}
    {result : Option NameBlock × Buffer σ ο τ}
    (h : Returns (Proc.loop (Libcad.parseNameStep fns cb suffix) s) result) :
    P s.2 result.2 := by
  refine Returns.loop_ensures
    (I := fun t : NameBlock × Buffer σ ο τ => P s.2 t.2)
    (Q := fun r : Option NameBlock × Buffer σ ο τ => P s.2 r.2) ?_
    (hP.refl _) h
  intro t o ht hstep
  have hnext := hP.trans ht (hP.parseNameStep hstep)
  cases o with
  | inl t' => exact hnext
  | inr r => exact hnext

theorem ReadClosed.parseLoop (hP : ReadClosed fns cb P)
    {suffix : Option Bytes} {skipped : Buffer σ ο τ}
    {result : Option NameBlock × Buffer σ ο τ}
    (hskip : Returns (bufferSkipBlanks fns cb buffer) skipped)
    (hloop : Returns (Proc.loop (Libcad.parseNameStep fns cb suffix)
      ({ bytes := [], capacity := 16 }, skipped)) result) :
    P buffer result.2 :=
  hP.trans (hP.skipBlanks hskip) (hP.nameLoop hloop)

theorem ReadClosed.parseName (hP : ReadClosed fns cb P)
    {suffix : Option Bytes} {name : NameBlock}
    (h : Returns (parseName fns cb suffix buffer) (some name, after)) :
    P buffer after := by
  obtain ⟨skipped, hskip, h⟩ := returns_bind.mp h
  obtain ⟨⟨result, read⟩, hloop, h⟩ := returns_bind.mp h
  have hread := hP.parseLoop hskip hloop
  cases result with
  | some name =>
      cases returns_pure.mp h
      exact hread
  | none => cases returns_pure.mp h

theorem ReadClosed.comment (hP : ReadClosed fns cb P) {closed : Bool}
    (h : Returns (renderStacheComment fns cb buffer) (closed, after)) :
    P buffer after := by
  refine Returns.loop_ensures (I := fun b => P buffer b)
    (Q := fun r : Bool × Buffer σ ο τ => P buffer r.2) ?_ (hP.refl _) h
  intro b o hb hstep
  obtain ⟨⟨closed, b₁⟩, hclose, hstep⟩ := returns_bind.mp hstep
  have hread₁ := hP.trans hb (hP.lookAt hclose)
  dsimp only at hstep
  split at hstep
  next =>
    cases returns_pure.mp hstep
    exact hread₁
  next =>
    obtain ⟨⟨more, b₂⟩, hnext, hstep⟩ := returns_bind.mp hstep
    have hread₂ := hP.trans hread₁ (hP.next hnext)
    cases more with
    | true =>
        cases returns_pure.mp hstep
        exact hread₂
    | false =>
        cases returns_pure.mp hstep
        exact hread₂

end

end Libcad
