/-
What reading does to the stacked partials and to the state behind the callback.
Neither sees the text around them: two engines with the same partials that
fetch as many bytes come to the same partials and to the same state.
-/
import Libcad.StacheFollows
import Libcad.StacheSteps
import Mathlib.Logic.Function.Iterate

namespace Libcad

open Proc

variable {σ ο τ : Type}

/-- The state once an exhausted partial was left. -/
def StachePartial.left (cb : Callback σ ο τ) (part : StachePartial ο τ)
    (env : σ) : σ :=
  match part.lookup with
  | .string resolved => callEnv (cb.stringFree resolved) env
  | .stream resolved => callEnv (cb.streamFree resolved) env
  | .notFound | .list _ | .invalid => env

/-- The state and the partials after one byte was fetched. -/
def fetched (fns : StreamFns τ) (cb : Callback σ ο τ) :
    σ × List (StachePartial ο τ) → σ × List (StachePartial ο τ)
  | (env, []) => (env, [])
  | (env, part :: partials) =>
      if part.stream.item fns = eof then (part.left cb env, partials)
      else (env, { part with stream := (part.stream.next fns).2 } :: partials)

/-- The state behind the callback, with the partials. -/
def Buffer.included (buffer : Buffer σ ο τ) : σ × List (StachePartial ο τ) :=
  (buffer.env, buffer.partials)

/-- Bytes have been fetched. -/
structure Fetches (fns : StreamFns τ) (cb : Callback σ ο τ)
    (before after : Buffer σ ο τ) : Prop where
  count : ∃ n : Nat, after.fill = before.fill + n ∧
    after.included = (fetched fns cb)^[n] before.included
  input : after.partials ≠ [] → after.input = before.input

section

variable {fns : StreamFns τ} {cb : Callback σ ο τ}
  {before after buffer : Buffer σ ο τ}

theorem fetched_nil (env : σ) (n : Nat) :
    (fetched fns cb)^[n] (env, []) = (env, []) :=
  Function.iterate_fixed rfl n

theorem Fetches.partials_ne_nil (h : Fetches fns cb before after)
    (hpartials : after.partials ≠ []) : before.partials ≠ [] := by
  obtain ⟨n, -, hincluded⟩ := h.count
  intro hnil
  rw [Buffer.included, Buffer.included, hnil, fetched_nil] at hincluded
  exact hpartials (congrArg Prod.snd hincluded)

/-- An engine without partials stays where it is. -/
theorem Fetches.of_nil (h : Fetches fns cb before after)
    (hnil : before.partials = []) : after.included = before.included := by
  obtain ⟨n, -, hincluded⟩ := h.count
  rw [Buffer.included, Buffer.included, hnil, fetched_nil] at hincluded
  rw [Buffer.included, Buffer.included, hnil, hincluded]

theorem Fetches.congr {before' after' : Buffer σ ο τ}
    (h : Fetches fns cb before after) (h' : Fetches fns cb before' after')
    (hincluded : before'.included = before.included)
    (hfill : after'.fill - before'.fill = after.fill - before.fill) :
    after'.included = after.included := by
  obtain ⟨n, hn, hafter⟩ := h.count
  obtain ⟨n', hn', hafter'⟩ := h'.count
  have hcount : n' = n := by omega
  rw [hafter, hafter', hincluded, hcount]

theorem bufferRead_fetches (hnil : buffer.partials = []) :
    Fetches fns cb buffer (bufferRead fns buffer) := by
  rw [bufferRead]
  dsimp only
  split
  next => exact ⟨⟨0, (Int.add_zero _).symm, rfl⟩, fun _ => rfl⟩
  next =>
    refine ⟨⟨1, rfl, ?_⟩, fun h => absurd hnil h⟩
    show (buffer.env, buffer.partials) = fetched fns cb buffer.included
    rw [Buffer.included, hnil]
    rfl

theorem bufferReadPartial_fetches {part : StachePartial ο τ}
    {partials : List (StachePartial ο τ)}
    (hpartials : buffer.partials = part :: partials)
    (h : Returns (bufferReadPartial fns cb part partials buffer) after) :
    Fetches fns cb buffer after := by
  have hincluded : buffer.included = (buffer.env, part :: partials) := by
    rw [Buffer.included, hpartials]
  obtain ⟨lookup, stream, save⟩ := part
  rw [bufferReadPartial] at h
  dsimp only at h
  split at h
  next hitem =>
    have hleft : ∀ {env : σ},
        (⟨lookup, stream, save⟩ : StachePartial ο τ).left cb buffer.env = env →
        (env, partials) = (fetched fns cb)^[1] buffer.included := by
      rintro env rfl
      show _ = fetched fns cb buffer.included
      rw [hincluded, fetched, if_pos hitem]
    cases lookup with
    | string resolved =>
        obtain ⟨⟨freed, called⟩, hcall, h⟩ := returns_bind.mp h
        cases returns_pure.mp h
        obtain ⟨free, -, -, rfl⟩ := call_returns_some hcall
        exact ⟨⟨1, rfl, hleft rfl⟩, fun _ => rfl⟩
    | stream resolved =>
        obtain ⟨⟨freed, called⟩, hcall, h⟩ := returns_bind.mp h
        cases returns_pure.mp h
        obtain ⟨free, -, -, rfl⟩ := call_returns_some hcall
        exact ⟨⟨1, rfl, hleft rfl⟩, fun _ => rfl⟩
    | notFound | list resolved | invalid =>
        cases returns_pure.mp h
        exact ⟨⟨1, rfl, hleft rfl⟩, fun _ => rfl⟩
  next hitem =>
    cases returns_pure.mp h
    refine ⟨⟨1, rfl, ?_⟩, fun _ => rfl⟩
    show _ = fetched fns cb buffer.included
    rw [hincluded, fetched, if_neg hitem]
    rfl

theorem bufferNext_fetched {more : Bool}
    (h : Returns (bufferNext fns cb buffer) (more, after)) :
    Fetches fns cb buffer after := by
  rw [bufferNext] at h
  split at h
  next =>
    cases returns_pure.mp h
    exact ⟨⟨0, (Int.add_zero _).symm, rfl⟩, fun _ => rfl⟩
  next =>
    dsimp only at h
    split at h
    next =>
      obtain ⟨read, hfetch, h⟩ := returns_bind.mp h
      cases returns_pure.mp h
      obtain ⟨capacity, hgrown⟩ := Buffer.grow_step
        { buffer with index := buffer.index + 1 }
      rw [hgrown, bufferFetch] at hfetch
      let moved : Buffer σ ο τ :=
        { buffer with index := buffer.index + 1, capacity := capacity }
      have hmoved : Fetches fns cb moved after := by
        split at hfetch
        next hnil =>
          cases returns_pure.mp hfetch
          exact bufferRead_fetches hnil
        next part partials hpartials =>
          exact bufferReadPartial_fetches hpartials hfetch
      exact ⟨hmoved.count, hmoved.input⟩
    next =>
      cases returns_pure.mp h
      exact ⟨⟨0, (Int.add_zero _).symm, rfl⟩, fun _ => rfl⟩

/-- `buffer_next` at the end of what was read fetches one byte. -/
theorem bufferNext_included {more : Bool} (hlive : buffer.eof = false)
    (hlast : buffer.index + 1 = buffer.fill)
    (h : Returns (bufferNext fns cb buffer) (more, after)) :
    after.included = fetched fns cb buffer.included := by
  have hfetches := bufferNext_fetched h
  by_cases hnil : buffer.partials = []
  · rw [hfetches.of_nil hnil, Buffer.included, hnil]
    rfl
  · obtain ⟨n, hfill, hincluded⟩ := hfetches.count
    have hone : after.fill = buffer.fill + 1 := by
      cases bufferNext_step h with
      | ended he =>
          rw [hlive] at he
          cases he
      | next _ hnext => exact absurd hlast hnext
      | finish _ _ _ hpartials => exact absurd hpartials hnil
      | input _ _ _ _ _ _ hpartials => exact absurd hpartials hnil
      | stream | release | drop => rfl
    have hn : n = 1 := by omega
    rw [hincluded, hn]
    rfl

theorem fetches_closed : ReadClosed fns cb (Fetches fns cb) where
  refl buffer := ⟨⟨0, (Int.add_zero _).symm, rfl⟩, fun _ => rfl⟩
  trans := by
    intro a b c hab hbc
    obtain ⟨n, hn, hb⟩ := hab.count
    obtain ⟨m, hm, hc⟩ := hbc.count
    refine ⟨⟨m + n, ?_, ?_⟩, fun h => ?_⟩
    · rw [hm, hn]
      push_cast
      omega
    · rw [hc, hb, Function.iterate_add_apply]
    · exact (hbc.input h).trans (hab.input (hbc.partials_ne_nil h))
  next h := bufferNext_fetched h
  back h := ⟨h.count, h.input⟩

end

end Libcad
