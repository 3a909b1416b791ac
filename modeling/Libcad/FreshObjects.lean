/-
Objects that are new in blocks with any contents: when their runs are the same
whatever the blocks held before.
-/
import Libcad.CgiRuns
import Libcad.FreshEvents
import Libcad.FreshResponses

namespace Libcad

open Proc

/-- In any two heaps, a sequence of calls that has a meaning in blocks of zeros
goes alike for a response exactly when neither run reads what was left in its
blocks, and for a cookie exactly when nothing was left in the value.  It goes
alike for an event loop if every handler that a wait needs was given before. -/
theorem fresh_objects_alike_iff (τ κ : Type) (fns : StreamFns τ)
    (order : VisitOrder) (heap heap' : HeapContents τ) (env : Env)
    (input : Option (InputStream τ)) (fd : Int) (calls : List ResponseCall)
    (left left' : Bool) (name : Bytes) (cookieCalls : List CookieCall)
    (onTimeout onTimeout' : Option κ) (onEvent onEvent' : Event → Option κ) :
    ((∃ trace, Returns
        (handle intChecked fns order (.zero τ) env input fd calls) trace) →
      ((∃ trace,
        Returns (handle intChecked fns order heap env input fd calls) trace ∧
        Returns (handle intChecked fns order heap' env input fd calls) trace) ↔
      ReadsNothingLeft intChecked fns order heap env input fd calls ∧
        ReadsNothingLeft intChecked fns order heap' env input fd calls)) ∧
    ((∃ trace, Returns (useCookie left name cookieCalls) trace ∧
        Returns (useCookie left' name cookieCalls) trace) ↔
      left = false ∧ left' = false) ∧
    (∀ calls, Meets (Tracked.call (fnSelector κ))
        (Tracked.Supplied Pselect.Needs) (fun _ => True) calls
        ⟨cadNewEventsSelector onTimeout onEvent, []⟩ →
      Agree Eq
        (useEvents (fnSelector κ) (cadNewEventsSelector onTimeout onEvent)
          calls)
        (useEvents (fnSelector κ) (cadNewEventsSelector onTimeout' onEvent')
          calls)) ∧
    ∀ calls, Meets (Tracked.call (fnPoller κ))
        (Tracked.Supplied Ppoll.Needs) (fun _ => True) calls
        ⟨cadNewEventsPoller onTimeout onEvent, []⟩ →
      Agree Eq
        (useEvents (fnPoller κ) (cadNewEventsPoller onTimeout onEvent) calls)
        (useEvents (fnPoller κ) (cadNewEventsPoller onTimeout' onEvent')
          calls) := by
  refine ⟨?_, useCookie_alike_iff left left' name cookieCalls, ?_, ?_⟩
  · rintro ⟨trace, htrace⟩
    exact handle_alike_iff heap heap' htrace
  · intro calls hmeets
    have hfd : (cadNewEventsSelector onTimeout onEvent).fd =
        (cadNewEventsSelector onTimeout' onEvent').fd := rfl
    exact useEvents_alike (selector_alike κ) newSelector_valid hfd rfl hmeets
  · intro calls hmeets
    have hfd : (cadNewEventsPoller onTimeout onEvent).fd =
        (cadNewEventsPoller onTimeout' onEvent').fd := rfl
    exact useEvents_alike (poller_alike κ) newPoller_valid hfd rfl hmeets

/-- Something was left in the value of every cookie, in `server_name` and, if
it says so, in `input_as_form`. -/
def HeapContents.used (form : Bool) : HeapContents Empty where
  cookies _ := true
  block := { (HeapContents.zero Empty).block with
    strings := fun _ => .wild, inputAsForm := if form then .wild else .null }
  inputAsForm_left := by
    cases form <;> nofun
  serverName_left := nofun

/-- The path and a new cookie are asked for, and descriptor 0 is read by a
handler that was given: what was left does not matter. -/
theorem fresh_objects_alike_used :
    (∃ trace,
      Returns (handle intChecked noStreams .entries (.used false) (fun _ => none)
        none 1 [.metaVariables (.string .pathInfo), .newCookie (chars "a")])
        trace ∧
      Returns (handle intChecked noStreams .entries (.zero Empty) (fun _ => none)
        none 1 [.metaVariables (.string .pathInfo), .newCookie (chars "a")])
        trace) ∧
    Returns (useEvents (fnSelector Unit)
      (cadNewEventsSelector (some ()) fun _ => some ())
      [.setup (.onEvent .read (some ())), .setup (.set .read 0),
        .wait (fun _ sets _ => ⟨1, sets⟩) fun _ => []])
      ([.done, .done, .waited 1 [⟨(), some (.read, 0)⟩]], ()) := by
  constructor
  · refine ((fresh_objects_alike_iff Empty Unit noStreams .entries (.used false)
      (.zero Empty) (fun _ => none) none 1 _ false false [] [] none none
      (fun _ => none) fun _ => none).1 ⟨_, ⟨0, rfl⟩⟩).mpr ⟨?_, ?_⟩
    · exact readsNothingLeft_of_handle ⟨0, rfl⟩
    · exact readsNothingLeft_of_handle ⟨0, rfl⟩
  · have hmeets : Meets (Tracked.call (fnSelector Unit))
        (Tracked.Supplied Pselect.Needs) (fun _ => True)
        [.setup (.onEvent .read (some ())), .setup (.set .read 0),
          .wait (fun _ sets _ => ⟨1, sets⟩) fun _ => []]
        ⟨cadNewEventsSelector none fun _ => none, []⟩ := by
      refine ⟨trivial, fun r t h => ?_⟩
      cases h.unique (returns_pure_self _)
      refine ⟨trivial, fun r t h => ?_⟩
      obtain ⟨this, hset, h⟩ := returns_bind.mp h
      cases returns_pure.mp h
      obtain ⟨fd, hfd, hset⟩ := returns_bind.mp hset
      cases returns_pure.mp hset
      obtain ⟨-, rfl⟩ := setSelector_returns.mp hfd
      refine ⟨?_, fun _ _ _ => trivial⟩
      rintro (_ | event) hneeds
      · exact absurd hneeds (show ¬ (1 : Int) = 0 by decide)
      · obtain ⟨fd, -, hready⟩ := hneeds
        cases event with
        | read => exact List.mem_cons_self
        | write => cases hready
        | exception => cases hready
    obtain ⟨trace, htrace, rfl⟩ := ((fresh_objects_alike_iff Empty Unit noStreams
      .entries (.zero Empty) (.zero Empty) (fun _ => none) none 1 [] false false []
      [] none (some ()) (fun _ => none) fun _ => some ()).2.2.1 _ hmeets).forth
      ([.done, .done, .waited 1 [⟨(), some (.read, 0)⟩]], ()) ⟨3, rfl⟩
    exact htrace

/-- What was left is freed with a cookie and with a response, or called by an
event loop. -/
theorem fresh_objects_not_alike :
    (¬ ∀ left left' name calls, ∃ trace,
      Returns (useCookie left name calls) trace ∧
        Returns (useCookie left' name calls) trace) ∧
    (¬ ∀ heap heap' : HeapContents Empty, ∃ trace,
      Returns (handle intChecked noStreams .entries heap (fun _ => none) none 1 [])
        trace ∧
      Returns (handle intChecked noStreams .entries heap' (fun _ => none) none 1
        []) trace) ∧
    ¬ ∀ onTimeout onTimeout' : Option Unit,
      Agree Eq
        (useEvents (fnSelector Unit) (cadNewEventsSelector onTimeout fun _ =>
          none) [.wait (fun _ sets _ => ⟨0, sets⟩) fun _ => []])
        (useEvents (fnSelector Unit) (cadNewEventsSelector onTimeout' fun _ =>
          none) [.wait (fun _ sets _ => ⟨0, sets⟩) fun _ => []]) := by
  refine ⟨fun hall => ?_, fun hall => ?_, fun hall => ?_⟩
  · obtain ⟨trace, htrace, -⟩ := hall true false [] []
    exact lifetime_wild rfl htrace
  · obtain ⟨trace, htrace, -⟩ := hall (.used true) (.zero Empty)
    obtain ⟨st, hst, htrace⟩ := returns_bind.mp htrace
    obtain ⟨cookies, -, rfl⟩ := newHandling_iff.mp hst
    obtain ⟨freed, hfree, -⟩ := returns_bind.mp htrace
    exact (free_clean hfree).2 rfl
  · obtain ⟨trace, htrace, heq⟩ := (hall none (some ())).forth
      ([.waited 0 []], ()) ⟨0, rfl⟩
    have hother : Returns (useEvents (fnSelector Unit)
        (cadNewEventsSelector (some ()) fun _ => none)
        [.wait (fun _ sets _ => ⟨0, sets⟩) fun _ => []])
        ([.waited 0 [⟨(), none⟩]], ()) := ⟨0, rfl⟩
    rw [← heq] at htrace
    cases htrace.unique hother

end Libcad
