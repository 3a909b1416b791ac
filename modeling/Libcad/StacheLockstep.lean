/-
Two runs of the token machine in lockstep.  What a token does depends on the
open sections and not on where they start, so two states whose sections differ
only in their marks do the same with the same token.
-/
import Libcad.Agree
import Libcad.StacheRuns
import Mathlib.Data.List.Forall2

namespace Libcad

open Proc

namespace TokenState

/-- The same section, at related marks. -/
structure SameSection (ρ : Nat → Nat → Prop) (m m' : TokenLoop) : Prop where
  type_eq : m'.type = m.type
  name_eq : m'.name = m.name
  list_eq : m'.list = m.list
  index_eq : m'.index = m.index
  empty_eq : m'.empty = m.empty
  mark : ρ m.mark m'.mark

/-- The same sections are open. -/
abbrev SameSections (ρ : Nat → Nat → Prop) :
    List TokenLoop → List TokenLoop → Prop :=
  List.Forall₂ (SameSection ρ)

/-- Both states go on with the same sections and have written the same text, or
both fail after having written it. -/
inductive Outcome (ρ : Nat → Nat → Prop) (t t' : TokenState) :
    TokenState ⊕ Verdict → TokenState ⊕ Verdict → Prop
  | goes {loops loops' pos pos'} (text : Bytes) : SameSections ρ loops loops' →
      ρ pos pos' →
      Outcome ρ t t'
        (.inl { t with loops := loops, pos := pos, out := t.out ++ text })
        (.inl { t' with loops := loops', pos := pos', out := t'.out ++ text })
  | fails (text : Bytes) :
      Outcome ρ t t' (.inr ⟨-1, t.out ++ text⟩) (.inr ⟨-1, t'.out ++ text⟩)

variable {τ : Type} {fns : StreamFns τ} {answers : Answers τ}
  {inclusions : Inclusions} {ρ : Nat → Nat → Prop} {t t' : TokenState}
  {ms ms' : List TokenLoop} {tok : Token}

theorem SameSections.skips (h : SameSections ρ ms ms') :
    ms'.any TokenLoop.skips = ms.any TokenLoop.skips := by
  induction h with
  | nil => rfl
  | cons hm _ ih =>
      rw [List.any_cons, List.any_cons, ih, TokenLoop.skips, TokenLoop.skips,
        hm.type_eq, hm.empty_eq]

theorem SameSections.frames (h : SameSections ρ ms ms') :
    framesOf ms' = framesOf ms := by
  induction h with
  | nil => rfl
  | cons hm _ ih =>
      simp only [framesOf, List.filterMap_cons, hm.list_eq, hm.name_eq,
        hm.index_eq] at ih ⊢
      rw [ih]

theorem Outcome.silent {loops loops' : List TokenLoop} {pos pos' : Nat}
    (hloops : SameSections ρ loops loops') (hpos : ρ pos pos') :
    Outcome ρ t t' (.inl { t with loops := loops, pos := pos })
      (.inl { t' with loops := loops', pos := pos' }) := by
  have h : Outcome ρ t t'
      (.inl { t with loops := loops, pos := pos, out := t.out ++ [] })
      (.inl { t' with loops := loops', pos := pos', out := t'.out ++ [] }) :=
    .goes [] hloops hpos
  rw [List.append_nil, List.append_nil] at h
  exact h

theorem Outcome.written (hloops : SameSections ρ t.loops t'.loops)
    (hpos : ρ t.pos t'.pos) (text : Bytes) :
    Outcome ρ t t' (.inl (t.write text)) (.inl (t'.write text)) := by
  have hskips : t'.skips = t.skips := hloops.skips
  rw [write_out, write_out, hskips]
  split
  · exact Outcome.silent hloops hpos
  · exact Outcome.goes text hloops hpos

theorem Outcome.failed : Outcome ρ t t' t.failed t'.failed := by
  have h : Outcome ρ t t' (.inr ⟨-1, t.out ++ []⟩) (.inr ⟨-1, t'.out ++ []⟩) :=
    .fails []
  rw [List.append_nil, List.append_nil] at h
  exact h

/-- The sections change, and rendering goes on or fails. -/
theorem Outcome.goOn {loops loops' : List TokenLoop}
    (hloops : SameSections ρ loops loops') (hpos : ρ t.pos t'.pos)
    (accepted : Bool) :
    Outcome ρ t t' ({ t with loops := loops }.goOn accepted)
      ({ t' with loops := loops' }.goOn accepted) := by
  cases accepted with
  | false => exact Outcome.failed
  | true => exact Outcome.silent hloops hpos

theorem Outcome.goOn_written (hloops : SameSections ρ t.loops t'.loops)
    (hpos : ρ t.pos t'.pos) (text : Bytes) (accepted : Bool) :
    Outcome ρ t t' ((t.write text).goOn accepted)
      ((t'.write text).goOn accepted) := by
  have hskips : t'.skips = t.skips := hloops.skips
  cases accepted with
  | true => exact Outcome.written hloops hpos text
  | false =>
      simp only [TokenState.goOn, TokenState.failed, write_out, hskips,
        Bool.false_eq_true, if_false]
      split
      · exact Outcome.failed
      · exact Outcome.fails text

/-- A way of writing a variable that depends on nothing but whether output is
suppressed. -/
def WritesAlike (ρ : Nat → Nat → Prop)
    (write : TokenState → Option Bytes → Proc TokenState) : Prop :=
  ∀ t t' c, SameSections ρ t.loops t'.loops →
    Agree (fun a a' => ∃ text, a = t.write text ∧ a' = t'.write text)
      (write t c) (write t' c)

theorem writeRaw_alike : WritesAlike ρ writeRaw := by
  intro t t' c hloops
  have hskips : t'.skips = t.skips := hloops.skips
  rw [writeRaw.eq_def, writeRaw.eq_def, hskips]
  split
  · exact Agree.pure ⟨[], t.write_nil.symm, t'.write_nil.symm⟩
  · cases c with
    | none => exact Agree.undefined
    | some c => exact Agree.pure ⟨cString c, rfl, rfl⟩

theorem writeEscaped_alike : WritesAlike ρ writeEscaped := by
  intro t t' c _
  cases c with
  | none => exact Agree.undefined
  | some c => exact Agree.pure ⟨(cString c).flatMap escapeChar, rfl, rfl⟩

theorem writeVariable_lockstep (hloops : SameSections ρ t.loops t'.loops)
    (hpos : ρ t.pos t'.pos) (answer : Answer τ)
    {write : TokenState → Option Bytes → Proc TokenState}
    (hwrite : WritesAlike ρ write) :
    Agree (Outcome ρ t t') (t.writeVariable answer write)
      (t'.writeVariable answer write) := by
  cases answer with
  | notFound =>
      have h := Outcome.written hloops hpos []
      rw [write_nil, write_nil] at h
      exact Agree.pure h
  | list get close => exact Agree.pure Outcome.failed
  | stream get free => exact Agree.pure Outcome.failed
  | invalid => exact Agree.pure Outcome.failed
  | string get free =>
      cases get with
      | none => exact Agree.undefined
      | some c =>
          cases free with
          | none =>
              exact Agree.bind (hwrite t t' c hloops) fun _ _ _ =>
                Agree.undefined
          | some freed =>
              refine Agree.bind (hwrite t t' c hloops) ?_
              rintro a a' ⟨text, rfl, rfl⟩
              exact Agree.pure (Outcome.goOn_written hloops hpos text freed)

theorem closeSection_lockstep (hloops : SameSections ρ t.loops t'.loops)
    (hpos : ρ t.pos t'.pos) (name : Bytes) :
    Agree (Outcome ρ t t') (t.closeSection name) (t'.closeSection name) := by
  rw [closeSection.eq_def, closeSection.eq_def]
  generalize hms : t.loops = ms at hloops
  generalize hms' : t'.loops = ms' at hloops
  cases hloops with
  | nil => exact Agree.pure Outcome.failed
  | @cons m m' ms ms' hm hrest =>
      dsimp only
      rw [hm.name_eq]
      by_cases hother : name ≠ m.name
      · rw [if_pos hother, if_pos hother]
        exact Agree.pure Outcome.failed
      · rw [if_neg hother, if_neg hother, hm.list_eq]
        cases m.list with
        | none => exact Agree.pure (Outcome.goOn hrest hpos true)
        | some list =>
            obtain ⟨get, close⟩ := list
            have hindex : m'.next.index = m.next.index :=
              congrArg (· + 1) hm.index_eq
            have hnext : SameSection ρ m.next m'.next :=
              ⟨hm.type_eq, hm.name_eq, hm.list_eq, hindex, hm.empty_eq,
                hm.mark⟩
            dsimp only
            rw [endSection, endSection, hindex, hm.type_eq]
            have hsame : Agree Eq (nextItem get m.next.index m.type)
                (nextItem get m.next.index m.type) :=
              ⟨fun a ha => ⟨a, ha, rfl⟩, fun b hb => ⟨b, hb, rfl⟩⟩
            refine Agree.bind hsame ?_
            rintro found _ rfl
            cases found with
            | false => exact Agree.pure (Outcome.goOn hrest hpos _)
            | true =>
                exact Agree.pure (Outcome.silent (.cons hnext hrest) hm.mark)

theorem exec_lockstep (hplain : tok.includes = false)
    (hloops : SameSections ρ t.loops t'.loops) (hpos : ρ t.pos t'.pos) :
    Agree (Outcome ρ t t') (t.exec fns answers inclusions tok)
      (t'.exec fns answers inclusions tok) := by
  have hframes := hloops.frames
  cases tok with
  | text c => exact Agree.pure (Outcome.written hloops hpos [c])
  | escaped name =>
      rw [exec, exec, hframes]
      exact writeVariable_lockstep hloops hpos _ writeEscaped_alike
  | raw name =>
      rw [exec, exec, hframes]
      exact writeVariable_lockstep hloops hpos _ writeRaw_alike
  | comment body =>
      have h := Outcome.written hloops hpos []
      rw [write_nil, write_nil] at h
      exact Agree.pure h
  | opening type name =>
      rw [exec, exec, hframes, openSection, openSection]
      have hm : SameSection ρ (t.opened fns answers type name)
          { t.opened fns answers type name with mark := t'.pos } :=
        ⟨rfl, rfl, rfl, rfl, rfl, hpos⟩
      exact Agree.pure (Outcome.goOn (.cons hm hloops) hpos _)
  | closing name => exact closeSection_lockstep hloops hpos name
  | inclusion name => cases hplain

theorem step_lockstep (htok : t.toks[t.pos]? = some tok)
    (htok' : t'.toks[t'.pos]? = some tok) (hplain : tok.includes = false)
    (hlive : t.frontier ≠ t.toks.length)
    (hlive' : t'.frontier ≠ t'.toks.length)
    (hloops : SameSections ρ t.loops t'.loops)
    (hpos : ρ (t.pos + 1) (t'.pos + 1)) :
    Agree (Outcome ρ t.advance t'.advance) (t.step fns answers inclusions)
      (t'.step fns answers inclusions) := by
  rw [step_live htok hlive, step_live htok' hlive', hplain,
    if_neg Bool.false_ne_true]
  exact exec_lockstep hplain hloops hpos

end TokenState

end Libcad
