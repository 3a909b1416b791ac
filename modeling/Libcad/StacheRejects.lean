/-
Tags that `parse_name` does not accept.  Only a delimiter tag makes the
rendering fail at once; after the others the engine goes on with the tag as a
text, which it cannot read when the input has ended.
-/
import Libcad.StacheServes
import Libcad.StacheSteps

namespace Libcad

open Proc

variable {σ ο τ : Type} {fns : StreamFns τ} {cb : Callback σ ο τ}
  {start : Int} {before after buffer : Buffer σ ο τ}

theorem NextStep.rejections (h : NextStep cb before after) :
    after.rejections = before.rejections := by
  cases h <;> rfl

theorem ReadsTo.rejections (h : ReadsTo cb start before after) :
    after.rejections = before.rejections := by
  refine h.invariant (I := fun b => b.rejections = before.rejections) ?_ rfl
  intro b c hb hstep
  cases hstep with
  | read hread => exact hread.rejections.trans hb
  | back => exact hb

/-- A step gives up at most one tag, which says where. -/
theorem EngineStep.rejections {r : Bool × Buffer σ ο τ}
    (h : EngineStep cb start buffer r) :
    r.2.rejections = buffer.rejections ∨
      ∃ suffix, r.1 = decide (suffix ≠ some [ascii '=']) ∧
        r.2.rejections = buffer.rejections ++
          [⟨suffix, r.2.index, r.2.fill, r.2.eof⟩] := by
  cases h with
  | reject suffix => exact Or.inr ⟨suffix, rfl, rfl⟩
  | read output result hread => exact Or.inl hread.rejections
  | inclusion stream save result _ _ _ hread => exact Or.inl hread.rejections
  | fail | delimiters | nothing | shown | unexpectedList | unexpectedStream
  | invalid | openSection | closeSection | nextItem | closeList | keepList =>
      exact Or.inl rfl

theorem bufferNext_atEnd {more : Bool} (heof : buffer.eof = true)
    (h : Returns (bufferNext fns cb buffer) (more, after)) : more = false := by
  rw [bufferNext, if_pos heof] at h
  cases returns_pure.mp h
  rfl

/-- Only an empty text is found, which takes no reading. -/
theorem bufferLookAt_ended {expected : Bytes} {matched : Bool}
    (heof : buffer.eof = true)
    (h : Returns (bufferLookAt fns cb expected buffer) (matched, after)) :
    after.eof = true ∧ (matched = true → after = buffer) := by
  have hmoved : ∀ {b : Buffer σ ο τ} {found : Bool},
      Returns (bufferMatch fns cb expected buffer) (found, b) →
        b.eof = true ∧ (found = true → b = buffer) := by
    intro b found hmatch
    cases expected with
    | nil =>
        cases returns_pure.mp hmatch
        exact ⟨heof, fun _ => rfl⟩
    | cons c rest =>
        obtain ⟨item, -, hmatch⟩ := returns_bind.mp hmatch
        split at hmatch
        next =>
          rw [bufferNext, if_pos heof] at hmatch
          obtain ⟨⟨more, read⟩, hnext, hmatch⟩ := returns_bind.mp hmatch
          cases returns_pure.mp hnext
          cases returns_pure.mp hmatch
          exact ⟨heof, fun hfound => absurd hfound Bool.false_ne_true⟩
        next =>
          cases returns_pure.mp hmatch
          exact ⟨heof, fun hfound => absurd hfound Bool.false_ne_true⟩
  obtain ⟨⟨result, read⟩, hmatch, h⟩ := returns_bind.mp h
  obtain ⟨hread, hfound⟩ := hmoved hmatch
  cases result with
  | true =>
      cases returns_pure.mp h
      exact ⟨hread, hfound⟩
  | false =>
      cases returns_pure.mp h
      exact ⟨hread, fun hfound => absurd hfound Bool.false_ne_true⟩

/-- Where the input has ended and bytes are left to be read again, the
rendering fails. -/
theorem renderStep_ended {o : Buffer σ ο τ ⊕ (Bool × Buffer σ ο τ)}
    (heof : buffer.eof = true) (hleft : buffer.index < buffer.fill)
    (h : Returns (renderStep fns cb buffer) o) :
    ∃ last, o = .inr (false, last) := by
  have hmore : bufferEof buffer = false := by
    rw [bufferEof, heof, Bool.true_and, decide_eq_false_iff_not]
    omega
  rw [renderStep, hmore, if_neg Bool.false_ne_true] at h
  obtain ⟨⟨opened, looked⟩, hlook, h⟩ := returns_bind.mp h
  obtain ⟨hlooked, hopened⟩ := bufferLookAt_ended heof hlook
  obtain ⟨⟨result, last⟩, htag, h⟩ := returns_bind.mp h
  have hfails : result = false := by
    cases opened with
    | true =>
        cases hopened rfl
        change Returns (renderStache fns cb _ _) _ at htag
        rw [renderStache, hmore, if_neg Bool.false_ne_true] at htag
        obtain ⟨next, -, htag⟩ := returns_bind.mp htag
        obtain ⟨⟨more, stepped⟩, hnext, htag⟩ := returns_bind.mp htag
        cases bufferNext_atEnd heof hnext
        cases returns_pure.mp htag
        rfl
    | false =>
        obtain ⟨c, -, htag⟩ := returns_bind.mp htag
        obtain ⟨output, hwritten⟩ := bufferOutput_only looked [c]
        rw [hwritten] at htag
        have hended : ({ looked with output := output } :
            Buffer σ ο τ).eof = true := hlooked
        exact bufferNext_atEnd hended htag
  subst hfails
  cases returns_pure.mp h
  exact ⟨last, rfl⟩

/-- A delimiter tag, or a tag given up at the end of the input with bytes of
it left to be read again. -/
def Rejection.Stops (rejection : Rejection) : Prop :=
  rejection.suffix = some [ascii '='] ∨
    (rejection.eof = true ∧ rejection.index < rejection.fill)

instance (rejection : Rejection) : Decidable rejection.Stops :=
  inferInstanceAs (Decidable (_ ∨ _))

/-- No tag that stops the rendering was given up, or the next step fails. -/
def Stopping (buffer : Buffer σ ο τ) : Prop :=
  (∀ rejection ∈ buffer.rejections, ¬ rejection.Stops) ∨
    (buffer.eof = true ∧ buffer.index < buffer.fill)

/-- How the loop of `render_template` is left. -/
def Stopped (r : Bool × Buffer σ ο τ) : Prop :=
  r.1 = true → ∀ rejection ∈ r.2.rejections, ¬ rejection.Stops

theorem renderStep_stopping {o : Buffer σ ο τ ⊕ (Bool × Buffer σ ο τ)}
    (hstop : Stopping buffer) (h : Returns (renderStep fns cb buffer) o) :
    Sum.elim Stopping Stopped o := by
  rcases hstop with hnone | ⟨heof, hleft⟩
  · rcases renderStep_step h with ⟨-, rfl⟩ | ⟨read, r, hread, hstep, rfl⟩
    · exact fun _ => hnone
    · obtain ⟨result, next⟩ := r
      cases result with
      | false => exact nofun
      | true =>
          rw [← hread.rejections] at hnone
          rcases hstep.rejections with hsame | ⟨suffix, hresult, hone⟩
          · exact Or.inl (hsame ▸ hnone)
          · have hsuffix : suffix ≠ some [ascii '='] :=
              of_decide_eq_true hresult.symm
            by_cases hleft : next.eof = true ∧ next.index < next.fill
            · exact Or.inr hleft
            · refine Or.inl fun rejection hmem => ?_
              change next.rejections = _ at hone
              rw [hone, List.mem_append, List.mem_singleton] at hmem
              rcases hmem with hmem | rfl
              · exact hnone rejection hmem
              · exact not_or.mpr ⟨hsuffix, hleft⟩
  · obtain ⟨last, rfl⟩ := renderStep_ended heof hleft h
    exact nofun

theorem renderTemplate_stopped {r : Bool × Buffer σ ο τ}
    (hstop : Stopping buffer) (h : Returns (renderTemplate fns cb buffer) r) :
    Stopped r :=
  Returns.loop_ensures (fun _ _ => renderStep_stopping) hstop h

/-- A rendering that gives up a tag reports it, when one of the tags given up
stops it. -/
theorem render_reports {env : σ} {input : InputStream τ} {data : Int → UInt8}
    {r : Rendered σ} (h : Returns (render fns cb env input data) r)
    (hstops : r.rejections = [] ∨
      ∃ rejection ∈ r.rejections, rejection.Stops) :
    r.rejections ≠ [] → r.code = -1 ∧ r.onError.isSome = true := by
  intro hsome
  obtain ⟨rejection, hmem, hrejection⟩ := hstops.resolve_left hsome
  obtain ⟨start, result, last, hnext, htemplate, rfl⟩ := render_returns h
  have hstart : start.rejections = [] := (bufferNext_step hnext).rejections
  have hstopped := renderTemplate_stopped
    (Or.inl fun _ hmem => by rw [hstart] at hmem; cases hmem) htemplate
  cases result with
  | false => exact ⟨rfl, rfl⟩
  | true => exact absurd hrejection (hstopped rfl rejection hmem)

/-- `{{a` -/
theorem render_reports_unclosed :
    ∃ r, Returns (render noStreams (answering fun _ _ => .notFound) []
        (newInputStreamFromString (chars "\x7b\x7ba")) fun _ => 0) r ∧
      r.code = -1 ∧ r.onError.isSome = true := by
  have hrun : Returns (render noStreams (answering fun _ _ => .notFound) []
      (newInputStreamFromString (chars "\x7b\x7ba")) fun _ => 0) _ := ⟨9, rfl⟩
  exact ⟨_, hrun, render_reports hrun (Or.inr (by decide)) (by decide)⟩

/-- `{{{a}}b` is shown as the text `a}}b`. -/
theorem render_not_reports :
    ∃ r, Returns (render noStreams (answering fun _ _ => .notFound) []
        (newInputStreamFromString (chars "\x7b\x7b\x7ba\x7d\x7db")) fun _ => 0) r ∧
      r.rejections ≠ [] ∧ r.code = 0 ∧ r.onError = none ∧
      r.output = chars "a\x7d\x7db" :=
  ⟨_, ⟨20, rfl⟩, by decide, by decide, by decide, by decide⟩

end Libcad
