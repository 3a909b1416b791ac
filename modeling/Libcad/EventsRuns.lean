/-
Runs of an event loop: what it watches at any time is what was registered since
its last wait.
-/
import Libcad.EventsWatch

namespace Libcad

open Proc

/-- What a run records: every registration, whether the program or a handler
made it, and the end of every wait. -/
inductive Recorded
  | registered (event : Event) (fd : Int)
  | waited
deriving Repr, DecidableEq

/-- What is recorded for a list of registrations. -/
def recorded (asked : List (Event × Int)) : List Recorded :=
  asked.map fun r => .registered r.1 r.2

/-- The functions of `cad_events_t` that differ between the implementations. -/
structure EventsFns (κ φ π : Type) where
  set : Event → φ → Int → Proc φ
  wait : π → Behaviour κ → EventsImpl κ φ → Proc (Int × Dispatch κ φ)

def fnSelector (κ : Type) : EventsFns κ SelectorFds Pselect where
  set := setSelector
  wait := waitSelector

def fnPoller (κ : Type) : EventsFns κ PollArray Ppoll where
  set := setPoller
  wait := waitPoller

/-- The states an event loop passes through, with what was recorded before;
every wait has its own kernel and its own handlers. -/
inductive EventsRun {κ φ π : Type} (fns : EventsFns κ φ π)
    (new : EventsImpl κ φ) : EventsImpl κ φ → List Recorded → Prop
  | new : EventsRun fns new new []
  | setup {this this' : EventsImpl κ φ} {trace : List Recorded}
      (op : Setup κ) (run : EventsRun fns new this trace)
      (h : Returns (this.apply fns.set op) this') :
      EventsRun fns new this' (trace ++ recorded op.registered)
  | wait {this : EventsImpl κ φ} {trace : List Recorded} {res : Int}
      {d : Dispatch κ φ} (kernel : π) (behaviour : Behaviour κ)
      (run : EventsRun fns new this trace)
      (h : Returns (fns.wait kernel behaviour this) (res, d)) :
      EventsRun fns new d.this (trace ++ recorded d.registered ++ [.waited])

def everRegistered (trace : List Recorded) : List (Event × Int) :=
  trace.filterMap fun
    | .registered event fd => some (event, fd)
    | .waited => none

/-- What was registered since the last wait ended. -/
def sinceWait (trace : List Recorded) : List (Event × Int) :=
  trace.foldl (fun asked r =>
    match r with
    | .registered event fd => asked ++ [(event, fd)]
    | .waited => []) []

/-- A wait begun now watches all that was ever registered. -/
def KeepsAll (watches : Event → Int → Prop) (trace : List Recorded) : Prop :=
  ∀ event fd, (event, fd) ∈ everRegistered trace → watches event fd

/-- All that was ever registered was registered again since the last wait
ended. -/
def Renewed (trace : List Recorded) : Prop :=
  ∀ r ∈ everRegistered trace, r ∈ sinceWait trace

instance (trace : List Recorded) : Decidable (Renewed trace) :=
  inferInstanceAs
    (Decidable (∀ r ∈ everRegistered trace, r ∈ sinceWait trace))

theorem sinceWait_recorded (trace : List Recorded)
    (asked : List (Event × Int)) :
    sinceWait (trace ++ recorded asked) = sinceWait trace ++ asked := by
  rw [sinceWait, List.foldl_append]
  change List.foldl _ (sinceWait trace) _ = _
  generalize sinceWait trace = before
  induction asked generalizing before with
  | nil => exact (List.append_nil before).symm
  | cons r asked ih =>
      have hrest := ih (before ++ [r])
      rw [List.append_assoc] at hrest
      exact hrest

theorem sinceWait_waited (trace : List Recorded) :
    sinceWait (trace ++ [.waited]) = [] := by
  rw [sinceWait, List.foldl_append]
  rfl

/-- What the loops have in common: registrations add, and after a wait nothing
is watched. -/
structure Forgets {κ φ π : Type} (fns : EventsFns κ φ π) (valid : φ → Prop)
    (watches : φ → Event → Int → Prop) : Prop where
  adds : Adds fns.set valid watches
  wait_returns : ∀ {kernel : π} {behaviour : Behaviour κ}
    {this : EventsImpl κ φ} {res : Int} {d : Dispatch κ φ}, valid this.fd →
      Returns (fns.wait kernel behaviour this) (res, d) →
      valid d.this.fd ∧ ∀ event fd, ¬ watches d.this.fd event fd

section

variable {κ φ π : Type} {fns : EventsFns κ φ π} {valid : φ → Prop}
  {watches : φ → Event → Int → Prop} {new this : EventsImpl κ φ}
  {trace : List Recorded}

/-- At any time of a run a loop watches what was registered since its last
wait. -/
theorem EventsRun.watches_iff (hforgets : Forgets fns valid watches)
    (hvalid : valid new.fd) (hnew : ∀ event fd, ¬ watches new.fd event fd)
    (h : EventsRun fns new this trace) :
    valid this.fd ∧ ∀ event fd,
      watches this.fd event fd ↔ (event, fd) ∈ sinceWait trace := by
  induction h with
  | new => exact ⟨hvalid, fun event fd => iff_of_false (hnew event fd) nofun⟩
  | setup op _ h ih =>
      obtain ⟨hthis, hwatches⟩ := hforgets.adds.apply ih.1 h
      refine ⟨hthis, fun event fd => ?_⟩
      rw [hwatches, ih.2, sinceWait_recorded, List.mem_append]
  | wait kernel behaviour _ h ih =>
      obtain ⟨hthis, hnone⟩ := hforgets.wait_returns ih.1 h
      refine ⟨hthis, fun event fd => iff_of_false (hnone event fd) ?_⟩
      rw [sinceWait_waited]
      nofun

theorem EventsRun.keepsAll_iff (hforgets : Forgets fns valid watches)
    (hvalid : valid new.fd) (hnew : ∀ event fd, ¬ watches new.fd event fd)
    (h : EventsRun fns new this trace) :
    KeepsAll (watches this.fd) trace ↔ Renewed trace := by
  have hwatches := (h.watches_iff hforgets hvalid hnew).2
  constructor
  · exact fun hall r hr => (hwatches r.1 r.2).mp (hall r.1 r.2 hr)
  · exact fun hall event fd hr => (hwatches event fd).mpr (hall _ hr)

end

section

variable {κ : Type}

theorem selectEvent_valid {behaviour : Behaviour κ} {ready : Event → FdSet}
    {event : Event} {i : Int} {d d' : Dispatch κ SelectorFds}
    (hvalid : d.this.fd.Valid)
    (h : Returns (selectEvent behaviour ready event i d) d') :
    d'.this.fd.Valid := by
  rw [selectEvent] at h
  split at h
  next action _ =>
    split at h
    next => exact (selector_adds.call hvalid h).1
    next => exact returns_pure.mp h ▸ hvalid
  next => exact returns_pure.mp h ▸ hvalid

theorem callTimeout_valid {φ : Type} {set : Event → φ → Int → Proc φ}
    {valid : φ → Prop} {watches : φ → Event → Int → Prop}
    (hadds : Adds set valid watches) {behaviour : Behaviour κ}
    {d d' : Dispatch κ φ} (hvalid : valid d.this.fd)
    (h : Returns (d.callTimeout set behaviour) d') : valid d'.this.fd := by
  rw [Dispatch.callTimeout] at h
  split at h
  next => exact (hadds.call hvalid h).1
  next => exact returns_pure.mp h ▸ hvalid

theorem selector_forgets :
    Forgets (fnSelector κ) SelectorFds.Valid SelectorFds.Watches where
  adds := selector_adds
  wait_returns := by
    intro kernel behaviour this res d hvalid h
    obtain ⟨d₁, hd, h⟩ := returns_bind.mp h
    cases returns_pure.mp h
    have hd₁ : d₁.this.fd.Valid := by
      split at hd
      next => exact callTimeout_valid selector_adds hvalid hd
      next =>
        split at hd
        next =>
          refine Returns.loop_invariant (I := fun s => s.2.this.fd.Valid)
            (Q := fun d => d.this.fd.Valid) ?_ ?_ hvalid hd
          · intro s s' hs hstep
            rw [selectStep] at hstep
            split at hstep
            next =>
              obtain ⟨a, ha, hstep⟩ := returns_bind.mp hstep
              obtain ⟨b, hb, hstep⟩ := returns_bind.mp hstep
              obtain ⟨c, hc, hstep⟩ := returns_bind.mp hstep
              cases returns_pure.mp hstep
              exact selectEvent_valid (selectEvent_valid
                (selectEvent_valid hs ha) hb) hc
            next => cases returns_pure.mp hstep
          · intro s r hs hstep
            rw [selectStep] at hstep
            split at hstep
            next =>
              obtain ⟨a, ha, hstep⟩ := returns_bind.mp hstep
              obtain ⟨b, hb, hstep⟩ := returns_bind.mp hstep
              obtain ⟨c, hc, hstep⟩ := returns_bind.mp hstep
              cases returns_pure.mp hstep
            next =>
              cases returns_pure.mp hstep
              exact hs
        next => exact returns_pure.mp hd ▸ hvalid
    refine ⟨⟨hd₁.1, nofun⟩, ?_⟩
    rintro event fd ⟨hset, -⟩
    cases hset

theorem PollArray.clear_valid (this : PollArray) : this.clear.Valid where
  content_eq := ⟨_, rfl⟩
  count_eq := rfl
  nodup := List.nodup_nil

theorem poller_forgets :
    Forgets (fnPoller κ) PollArray.Valid PollArray.Watches where
  adds := poller_adds
  wait_returns := by
    intro kernel behaviour this res d _ h
    obtain ⟨d₁, -, h⟩ := returns_bind.mp h
    cases returns_pure.mp h
    refine ⟨PollArray.clear_valid _, ?_⟩
    rintro event fd ⟨p, hp, -⟩
    cases hp

end

theorem newSelector_valid {κ : Type} {onTimeout : Option κ}
    {onEvent : Event → Option κ} :
    (cadNewEventsSelector onTimeout onEvent).fd.Valid :=
  ⟨⟨Int.le_refl 0, by rw [fdSetSize]; exact (by decide : (0 : Int) < 1024)⟩,
    nofun⟩

theorem newPoller_valid {κ : Type} {onTimeout : Option κ}
    {onEvent : Event → Option κ} :
    (cadNewEventsPoller onTimeout onEvent).fd.Valid :=
  ⟨⟨0, rfl⟩, rfl, List.Pairwise.nil⟩

/-- A wait of either loop watches all that was registered exactly when all of
it was registered again since the wait before. -/
theorem events_keepsAll_iff {κ : Type} (onTimeout : Option κ)
    (onEvent : Event → Option κ) :
    (∀ this trace,
      EventsRun (fnSelector κ) (cadNewEventsSelector onTimeout onEvent) this
          trace →
        (KeepsAll this.fd.Watches trace ↔ Renewed trace)) ∧
    ∀ this trace,
      EventsRun (fnPoller κ) (cadNewEventsPoller onTimeout onEvent) this
          trace →
        (KeepsAll this.fd.Watches trace ↔ Renewed trace) := by
  constructor
  · intro this trace h
    refine h.keepsAll_iff selector_forgets newSelector_valid ?_
    rintro event fd ⟨hset, -⟩
    cases hset
  · intro this trace h
    refine h.keepsAll_iff poller_forgets newPoller_valid ?_
    rintro event fd ⟨p, hp, -⟩
    cases hp

/-- Descriptor 0 is registered again between two waits of either loop. -/
theorem events_keepsAll_again :
    KeepsAll (SelectorFds.Watches ⟨Function.update (fun _ => fdZero) .read
        (Function.update fdZero 0 true), 0⟩)
      [.registered .read 0, .waited, .registered .read 0] ∧
    KeepsAll (PollArray.Watches
        ⟨1, [⟨0, 1, 0⟩, Pollfd.zero, Pollfd.zero, Pollfd.zero]⟩)
      [.registered .read 0, .waited, .registered .read 0] := by
  constructor
  · have hset : ∀ this : EventsImpl Unit SelectorFds, this.fd.max = 0 →
        this.fd.sets = (fun _ => fdZero) →
        Returns (this.apply setSelector (.set .read 0)) { this with
          fd := ⟨Function.update (fun _ => fdZero) .read
            (Function.update fdZero 0 true), 0⟩ } := by
      intro this hmax hsets
      refine Returns.bind (setSelector_returns.mpr ⟨by decide, rfl⟩) ?_
      rw [hmax, hsets]
      exact returns_pure_self _
    have hwait := EventsRun.wait (fun _ _ _ => ⟨-1, fun _ => fdZero⟩)
      (fun _ => []) (EventsRun.setup (.set .read 0)
        (@EventsRun.new _ _ _ (fnSelector Unit) _)
        (hset (cadNewEventsSelector none fun _ => none) rfl rfl))
      (returns_pure_self _)
    have hagain := EventsRun.setup (.set .read 0) hwait (hset _ rfl rfl)
    exact ((events_keepsAll_iff none fun _ => none).1 _ _ hagain).mpr
      (by decide)
  · have hset : ∀ this : EventsImpl Unit PollArray,
        this.fd = ⟨0, []⟩ ∨ this.fd = ⟨0, List.replicate 4 Pollfd.zero⟩ →
        Returns (this.apply setPoller (.set .read 0)) { this with
          fd := ⟨1, [⟨0, 1, 0⟩, Pollfd.zero, Pollfd.zero, Pollfd.zero]⟩ } := by
      rintro ⟨fd, timeout, onTimeout, onEvent⟩ (rfl | rfl)
      · exact ⟨0, rfl⟩
      · exact ⟨0, rfl⟩
    have hwait := EventsRun.wait (fun _ _ => ⟨-1, fun _ => 0⟩) (fun _ => [])
      (EventsRun.setup (.set .read 0)
        (@EventsRun.new _ _ _ (fnPoller Unit) _)
        (hset (cadNewEventsPoller none fun _ => none) (Or.inl rfl)))
      (returns_pure_self _)
    have hagain := EventsRun.setup (.set .read 0) hwait (hset _ (Or.inr rfl))
    exact ((events_keepsAll_iff none fun _ => none).2 _ _ hagain).mpr
      (by decide)

/-- A descriptor is watched by the first wait and not by the second. -/
theorem events_not_keepsAll :
    (¬ ∀ this trace, EventsRun (fnSelector Unit)
        (cadNewEventsSelector none fun _ => none) this trace →
      KeepsAll this.fd.Watches trace) ∧
    ¬ ∀ this trace, EventsRun (fnPoller Unit)
        (cadNewEventsPoller none fun _ => none) this trace →
      KeepsAll this.fd.Watches trace := by
  constructor
  · intro hall
    have hset : Returns ((cadNewEventsSelector none fun _ => none).apply
        setSelector (.set .read 0) : Proc (EventsImpl Unit SelectorFds)) _ :=
      Returns.bind (setSelector_returns.mpr ⟨by decide, rfl⟩)
        (returns_pure_self _)
    have hwait := EventsRun.wait (fun _ _ _ => ⟨-1, fun _ => fdZero⟩)
      (fun _ => [])
      (.setup (.set .read 0) (@EventsRun.new _ _ _ (fnSelector Unit) _) hset)
      (returns_pure_self _)
    obtain ⟨hwatched, -⟩ := hall _ _ hwait .read 0 (by decide)
    cases hwatched
  · intro hall
    have hset : Returns ((cadNewEventsPoller none fun _ => none).apply
        setPoller (.set .read 0) : Proc (EventsImpl Unit PollArray))
        { cadNewEventsPoller none fun _ => none with
          fd := ⟨1, [⟨0, 1, 0⟩, Pollfd.zero, Pollfd.zero, Pollfd.zero]⟩ } :=
      ⟨0, rfl⟩
    have hwait := EventsRun.wait (fun _ _ => ⟨-1, fun _ => 0⟩) (fun _ => [])
      (.setup (.set .read 0) (@EventsRun.new _ _ _ (fnPoller Unit) _) hset)
      (returns_pure_self _)
    obtain ⟨p, hp, -⟩ := hall _ _ hwait .read 0 (by decide)
    cases hp

end Libcad
