/-
Event loops that are new: their runs do not depend on what their block held
before as long as every handler a wait needs was given to them.
-/
import Libcad.EventsAgree
import Libcad.Lifetime

namespace Libcad

open Proc

/-- The calls of `cad_events_t`, but for `free`. -/
inductive EventsCall (κ π : Type)
  | setup (op : Setup κ)
  | wait (kernel : π) (behaviour : Behaviour κ)

/-- What they return, and which handlers they call. -/
inductive EventsReport (κ : Type)
  | done
  | waited (res : Int) (calls : List (Call κ))
deriving Repr, DecidableEq

/-- An event loop and the handlers that were given to it; `none` stands for
that of the time-out. -/
structure Tracked (κ φ : Type) where
  this : EventsImpl κ φ
  given : List (Option Event)

def Setup.gives {κ : Type} : Setup κ → List (Option Event)
  | .onTimeout _ => [none]
  | .onEvent event _ => [some event]
  | .setTimeout _ | .set _ _ => []

section

variable {κ φ π : Type}

def Tracked.call (fns : EventsFns κ φ π) (s : Tracked κ φ) :
    EventsCall κ π → Proc (EventsReport κ × Tracked κ φ)
  | .setup op => do
      let this ← s.this.apply fns.set op
      pure (.done, { this := this, given := s.given ++ op.gives })
  | .wait kernel behaviour => do
      let (res, d) ← fns.wait kernel behaviour s.this
      pure (.waited res d.calls, { s with this := d.this })

/-- `free_selector` and `free_poller` look at no handler. -/
def Tracked.free (_ : Tracked κ φ) : Proc Unit := pure ()

def useEvents (fns : EventsFns κ φ π) (new : EventsImpl κ φ)
    (calls : List (EventsCall κ π)) : Proc (List (EventsReport κ) × Unit) :=
  lifetime (Tracked.call fns) Tracked.free calls ⟨new, []⟩

/-- The handlers that a wait needs: that of the time-out, or those of the
events that are reported. -/
def Needs (res : Int) (reports : Event → Int → Prop) : Option Event → Prop
  | none => res = 0
  | some event => ∃ fd, reports event fd

/-- What a wait of `wait_selector` needs. -/
def Pselect.Needs (pselect : Pselect) (this : EventsImpl κ SelectorFds) :
    Option Event → Prop :=
  Libcad.Needs (pselect (this.fd.max + 1) this.fd.sets this.timeout).res
    (pselect.Reports this)

/-- What a wait of `wait_poller` needs. -/
def Ppoll.Needs (ppoll : Ppoll) (this : EventsImpl κ PollArray) :
    Option Event → Prop :=
  Libcad.Needs (ppoll this.fd.entries this.timeout).res (ppoll.Reports this)

/-- Every handler that a wait needs was given before. -/
def Tracked.Supplied (needs : π → EventsImpl κ φ → Option Event → Prop)
    (s : Tracked κ φ) : EventsCall κ π → Prop
  | .setup _ => True
  | .wait kernel _ => ∀ slot, needs kernel s.this slot → slot ∈ s.given

def EventsImpl.handler (this : EventsImpl κ φ) : Option Event → Option κ
  | none => this.onTimeout
  | some event => this.onEvent event

/-- Loops that are alike but for handlers outside `slots`. -/
structure EventsImpl.Alike (slots : Option Event → Prop)
    (this that : EventsImpl κ φ) : Prop where
  fd_eq : this.fd = that.fd
  timeout_eq : this.timeout = that.timeout
  handler_eq : ∀ slot, slots slot → this.handler slot = that.handler slot

/-- Waits in progress that are alike but for handlers outside `slots`. -/
structure Dispatch.Alike (slots : Option Event → Prop)
    (d e : Dispatch κ φ) : Prop where
  this : d.this.Alike slots e.this
  calls_eq : d.calls = e.calls
  registered_eq : d.registered = e.registered
  looked_eq : d.looked = e.looked

variable {slots : Option Event → Prop} {set : Event → φ → Int → Proc φ}
  {behaviour : Behaviour κ}

theorem EventsImpl.Alike.dispatch {this that : EventsImpl κ φ}
    (h : this.Alike slots that) :
    Dispatch.Alike slots this.dispatch that.dispatch :=
  ⟨h, rfl, rfl, rfl⟩

theorem Dispatch.Alike.call {d e : Dispatch κ φ} (h : d.Alike slots e)
    (action : κ) (about : Option (Event × Int)) :
    Agree (Dispatch.Alike slots) (d.call set behaviour action about)
      (e.call set behaviour action about) := by
  rw [Dispatch.call, Dispatch.call, h.calls_eq, h.this.fd_eq]
  refine (Agree.refl _).bind fun fd fd' hfd => Agree.pure ?_
  exact ⟨⟨hfd, h.this.timeout_eq, h.this.handler_eq⟩, rfl,
    congrArg (· ++ _) h.registered_eq, h.looked_eq⟩

theorem Dispatch.Alike.callTimeout {d e : Dispatch κ φ} (h : d.Alike slots e)
    (hslot : slots none) :
    Agree (Dispatch.Alike slots) (d.callTimeout set behaviour)
      (e.callTimeout set behaviour) := by
  rw [Dispatch.callTimeout, Dispatch.callTimeout,
    show d.this.onTimeout = e.this.onTimeout from h.this.handler_eq none hslot]
  split
  next action _ => exact h.call action none
  next => exact Agree.pure h

theorem EventsImpl.Alike.apply {this that : EventsImpl κ φ}
    (h : this.Alike slots that) (op : Setup κ) :
    Agree (EventsImpl.Alike fun slot => slots slot ∨ slot ∈ op.gives)
      (this.apply set op) (that.apply set op) := by
  cases op with
  | setTimeout timeoutUs =>
      refine Agree.pure ⟨h.fd_eq, rfl, fun slot hslot => ?_⟩
      have hold := h.handler_eq slot (hslot.resolve_right nofun)
      cases slot <;> exact hold
  | set event fd =>
      rw [EventsImpl.apply, EventsImpl.apply, h.fd_eq]
      refine (Agree.refl _).bind fun fd fd' hfd => Agree.pure ?_
      refine ⟨hfd, h.timeout_eq, fun slot hslot => ?_⟩
      have hold := h.handler_eq slot (hslot.resolve_right nofun)
      cases slot <;> exact hold
  | onTimeout action =>
      refine Agree.pure ⟨h.fd_eq, h.timeout_eq, fun slot hslot => ?_⟩
      cases slot with
      | none => rfl
      | some event =>
          exact h.handler_eq (some event) (hslot.resolve_right fun hmem =>
            absurd (List.mem_singleton.mp hmem) nofun)
  | onEvent event action =>
      refine Agree.pure ⟨h.fd_eq, h.timeout_eq, fun slot hslot => ?_⟩
      cases slot with
      | none =>
          exact h.handler_eq none (hslot.resolve_right fun hmem =>
            absurd (List.mem_singleton.mp hmem) nofun)
      | some other =>
          by_cases hother : other = event
          · subst hother
            simp [EventsImpl.handler, onEventImpl]
          · have hold := h.handler_eq (some other)
              (hslot.resolve_right fun hmem =>
                hother (Option.some.inj (List.mem_singleton.mp hmem)))
            simpa [EventsImpl.handler, onEventImpl, hother] using hold

/-- Loops that were made in blocks with other contents: they have the handlers
that were given. -/
def Tracked.Alike (valid : φ → Prop) (s t : Tracked κ φ) : Prop :=
  valid s.this.fd ∧ s.given = t.given ∧
    s.this.Alike (fun slot => slot ∈ s.given) t.this

/-- Where waits depend on the handlers they need, so do runs. -/
theorem tracked_alike {fns : EventsFns κ φ π} {valid : φ → Prop}
    {watches : φ → Event → Int → Prop}
    {needs : π → EventsImpl κ φ → Option Event → Prop}
    (hforgets : Forgets fns valid watches)
    (hwait : ∀ {slots kernel behaviour} {this that : EventsImpl κ φ},
      valid this.fd → this.Alike slots that →
      (∀ slot, needs kernel this slot → slots slot) →
      Agree (fun a b => a.1 = b.1 ∧ a.2.Alike slots b.2)
        (fns.wait kernel behaviour this) (fns.wait kernel behaviour that)) :
    Proc.Alike (Tracked.call fns) (Tracked.call fns) Tracked.free
      (Tracked.Alike valid) (Tracked.Supplied needs) (fun _ => True) where
  call := by
    rintro s t c ⟨hvalid, hgiven, hthis⟩ hsupplied
    cases c with
    | setup op =>
        refine (hthis.apply op).with_returns.bind fun this that hnext => ?_
        obtain ⟨hnext, happly, -⟩ := hnext
        refine Agree.pure ⟨rfl, (hforgets.adds.apply hvalid happly).1,
          congrArg (· ++ _) hgiven, hnext.fd_eq, hnext.timeout_eq, ?_⟩
        exact fun slot hslot =>
          hnext.handler_eq slot (List.mem_append.mp hslot)
    | wait kernel behaviour =>
        refine (hwait hvalid hthis hsupplied).with_returns.bind ?_
        rintro ⟨res, d⟩ ⟨res', e⟩ ⟨⟨hres, hd⟩, hreturns, -⟩
        refine Agree.pure ⟨?_, (hforgets.wait_returns hvalid hreturns).1,
          hgiven, hd.this⟩
        rw [show res = res' from hres, hd.calls_eq]
  last _ _ := Agree.refl _

end

section

variable {κ : Type} {slots : Option Event → Prop} {behaviour : Behaviour κ}

/-- The handler of an event that is not reported is not called. -/
theorem selectEvent_alike {ready : Event → FdSet} {event : Event} {i : Int}
    {d e : Dispatch κ SelectorFds} (h : d.Alike slots e)
    (hready : ready event i = true → slots (some event)) :
    Agree (Dispatch.Alike slots) (selectEvent behaviour ready event i d)
      (selectEvent behaviour ready event i e) := by
  rw [selectEvent, selectEvent]
  cases hbit : ready event i with
  | true =>
      rw [show d.this.onEvent event = e.this.onEvent event from
        h.this.handler_eq (some event) (hready hbit), h.this.fd_eq]
      split
      next action _ =>
        split
        next => exact h.call action _
        next => exact Agree.pure h
      next => exact Agree.pure h
  | false =>
      simp only [Bool.and_false, Bool.false_eq_true, ↓reduceIte]
      split <;> split <;> exact Agree.pure h

theorem selectStep_alike {ready : Event → FdSet}
    (hready : ∀ event fd, ready event fd = true → slots (some event))
    {s t : Int × Dispatch κ SelectorFds}
    (h : s.1 = t.1 ∧ s.2.Alike slots t.2) :
    Agree (SumRel (fun s t => s.1 = t.1 ∧ s.2.Alike slots t.2)
        (Dispatch.Alike slots))
      (selectStep behaviour ready s) (selectStep behaviour ready t) := by
  obtain ⟨hi, hd⟩ := h
  rw [selectStep, selectStep, hi, hd.this.fd_eq]
  split
  next =>
    refine (selectEvent_alike hd (hready .read t.1)).bind fun a a' ha => ?_
    refine (selectEvent_alike ha (hready .write t.1)).bind fun b b' hb => ?_
    refine (selectEvent_alike hb (hready .exception t.1)).bind
      fun c c' hc => ?_
    exact Agree.pure (.inl ⟨rfl, hc⟩)
  next => exact Agree.pure (.inr hd)

theorem waitSelector_alike {pselect : Pselect}
    {this that : EventsImpl κ SelectorFds} (h : this.Alike slots that)
    (hneeds : ∀ slot, pselect.Needs this slot → slots slot) :
    Agree (fun a b => a.1 = b.1 ∧ a.2.Alike slots b.2)
      (waitSelector pselect behaviour this)
      (waitSelector pselect behaviour that) := by
  have hdispatch := h.dispatch
  rw [waitSelector, waitSelector, ← h.fd_eq, ← h.timeout_eq]
  have hend : ∀ d e : Dispatch κ SelectorFds, d.Alike slots e →
      Agree (fun a b => a.1 = b.1 ∧ a.2.Alike slots b.2)
        (pure ((pselect (this.fd.max + 1) this.fd.sets this.timeout).res,
          d.zero) : Proc (Int × Dispatch κ SelectorFds))
        (pure ((pselect (this.fd.max + 1) this.fd.sets this.timeout).res,
          e.zero)) := by
    intro d e hd
    refine Agree.pure ⟨rfl, ⟨?_, hd.this.timeout_eq, hd.this.handler_eq⟩,
      hd.calls_eq, hd.registered_eq, hd.looked_eq⟩
    exact congrArg (fun fd : SelectorFds =>
      { fd with sets := fun _ => fdZero }) hd.this.fd_eq
  by_cases hzero :
      (pselect (this.fd.max + 1) this.fd.sets this.timeout).res = 0
  · rw [if_pos hzero, if_pos hzero]
    exact (hdispatch.callTimeout (hneeds none hzero)).bind hend
  · rw [if_neg hzero, if_neg hzero]
    split
    next hpos =>
      have hready : ∀ event fd, (pselect (this.fd.max + 1) this.fd.sets
          this.timeout).ready event fd = true → slots (some event) :=
        fun event fd hbit => hneeds (some event) ⟨fd, hpos, hbit⟩
      exact (Agree.loop (s := (0, this.dispatch)) (t := (0, that.dispatch))
        (fun s t hst => selectStep_alike hready hst)
        ⟨rfl, hdispatch⟩).bind hend
    next => exact hend _ _ hdispatch

end

section

variable {κ : Type} {slots : Option Event → Prop} {behaviour : Behaviour κ}
  {marks : List (Int × BitVec 16)}

/-- Waits in progress that are alike; the handlers of all that was reported are
among `slots`. -/
structure PollAlike (slots : Option Event → Prop)
    (marks : List (Int × BitVec 16)) (d e : Dispatch κ PollArray) : Prop where
  alike : d.Alike slots e
  bears : d.this.fd.Bears marks

/-- What was reported needs handlers among `slots`. -/
def Covers (slots : Option Event → Prop) (marks : List (Int × BitVec 16)) :
    Prop :=
  ∀ m ∈ marks, ∀ event : Event, m.2 &&& event.mask ≠ 0 → slots (some event)

theorem peek_alike {base : Option Nat} {i : Nat} {d e : Dispatch κ PollArray}
    (h : d.Alike slots e) : peek base i d = peek base i e := by
  rw [peek, peek, h.this.fd_eq]

/-- The handler of an event that is not reported is not called. -/
theorem pollEvent_alike {base : Option Nat} {event : Event} {i : Nat}
    {d e : Dispatch κ PollArray} (hcovers : Covers slots marks)
    (h : PollAlike slots marks d e) :
    Agree (PollAlike slots marks) (pollEvent behaviour base event i d)
      (pollEvent behaviour base event i e) := by
  rw [pollEvent, pollEvent, ← peek_alike h.alike]
  refine (Agree.refl _).with_returns.bind fun p p' hp => ?_
  obtain ⟨rfl, hpeek, -⟩ := hp
  split
  next hbit =>
    have hslot : slots (some event) := by
      rcases h.bears.peek hpeek with hmark | ⟨-, hzero⟩
      · exact hcovers _ (List.mem_of_getElem? hmark) event hbit
      · rw [hzero] at hbit
        exact absurd BitVec.zero_and hbit
    rw [show d.this.onEvent event = e.this.onEvent event from
      h.alike.this.handler_eq (some event) hslot]
    refine (Agree.refl _).bind fun action action' haction => ?_
    rw [show action = action' from haction]
    refine (h.alike.call action' _).with_returns.mono ?_
    rintro next next' ⟨hnext, hcall, -⟩
    obtain ⟨fd, hregister, hcall⟩ := returns_bind.mp hcall
    cases returns_pure.mp hcall
    exact ⟨hnext, h.bears.registerAll _ hregister⟩
  next => exact Agree.pure h

theorem pollStep_alike {base : Option Nat} {n : Nat}
    (hcovers : Covers slots marks) {s t : Nat × Dispatch κ PollArray}
    (h : s.1 = t.1 ∧ PollAlike slots marks s.2 t.2) :
    Agree (SumRel (fun s t => s.1 = t.1 ∧ PollAlike slots marks s.2 t.2)
        (Dispatch.Alike slots))
      (pollStep behaviour base n s) (pollStep behaviour base n t) := by
  obtain ⟨hi, hd⟩ := h
  have hlook : PollAlike slots marks
      { s.2 with looked := s.2.looked ++ [t.1] }
      { t.2 with looked := t.2.looked ++ [t.1] } :=
    ⟨⟨hd.alike.this, hd.alike.calls_eq, hd.alike.registered_eq,
      congrArg (· ++ _) hd.alike.looked_eq⟩, hd.bears⟩
  rw [pollStep, pollStep, hi]
  split
  next =>
    dsimp only
    rw [← peek_alike hlook.alike]
    refine (Agree.refl _).bind fun p p' hp => ?_
    rw [show p = p' from hp]
    split
    next =>
      refine (pollEvent_alike hcovers hlook).bind fun a a' ha => ?_
      refine (pollEvent_alike hcovers ha).bind fun b b' hb => ?_
      refine (pollEvent_alike hcovers hb).bind fun c c' hc => ?_
      exact Agree.pure (.inl ⟨rfl, hc⟩)
    next => exact Agree.pure (.inl ⟨rfl, hlook⟩)
  next => exact Agree.pure (.inr hd.alike)

theorem waitPoller_alike {ppoll : Ppoll} {this that : EventsImpl κ PollArray}
    (hvalid : this.fd.Valid) (h : this.Alike slots that)
    (hneeds : ∀ slot, ppoll.Needs this slot → slots slot) :
    Agree (fun a b => a.1 = b.1 ∧ a.2.Alike slots b.2)
      (waitPoller ppoll behaviour this) (waitPoller ppoll behaviour that) := by
  let out := ppoll this.fd.entries this.timeout
  let fd := this.fd.answer out.revents
  have hdispatch : Dispatch.Alike slots
      (EventsImpl.dispatch { this with fd := fd })
      (EventsImpl.dispatch { that with
        fd := fd, timeout := this.timeout }) :=
    EventsImpl.Alike.dispatch ⟨rfl, rfl, fun slot hslot => by
      have hold := h.handler_eq slot hslot
      cases slot <;> exact hold⟩
  have hend : ∀ d e : Dispatch κ PollArray, d.Alike slots e →
      Agree (fun a b => a.1 = b.1 ∧ a.2.Alike slots b.2)
        (pure (out.res, d.clear) : Proc (Int × Dispatch κ PollArray))
        (pure (out.res, e.clear)) := by
    intro d e hd
    refine Agree.pure ⟨rfl, ⟨?_, hd.this.timeout_eq, ?_⟩, hd.calls_eq,
      hd.registered_eq, hd.looked_eq⟩
    · exact congrArg PollArray.clear hd.this.fd_eq
    · intro slot hslot
      have hold := hd.this.handler_eq slot hslot
      cases slot <;> exact hold
  rw [waitPoller, waitPoller, ← h.fd_eq, ← h.timeout_eq]
  by_cases hzero : out.res = 0
  · rw [if_pos hzero, if_pos hzero]
    exact (hdispatch.callTimeout (hneeds none hzero)).bind hend
  · rw [if_neg hzero, if_neg hzero]
    split
    next hpos =>
      have hcovers : Covers slots fd.marks := by
        intro m hm event hbit
        rw [PollArray.marks, PollArray.answer_entries _ hvalid] at hm
        obtain ⟨p, hp, rfl⟩ := List.mem_map.mp hm
        obtain ⟨i, hi, rfl⟩ := List.mem_mapIdx.mp hp
        exact hneeds (some event) ⟨_, hpos, i, _,
          List.getElem?_eq_getElem hi, rfl, hbit⟩
      have hbears : fd.Bears fd.marks :=
        ⟨PollArray.answer_valid _ hvalid, [], (List.append_nil _).symm,
          fun _ hmem => absurd hmem List.not_mem_nil⟩
      exact (Agree.loop (s := (0, EventsImpl.dispatch { this with fd := fd }))
        (t := (0, EventsImpl.dispatch { that with
          fd := fd, timeout := this.timeout }))
        (fun s t hst => pollStep_alike hcovers hst)
        ⟨rfl, hdispatch, hbears⟩).bind hend
    next => exact hend _ _ hdispatch

end

/-- Loops that are new in blocks with any contents live alike, if every handler
that a wait needs was given to them before. -/
theorem useEvents_alike {κ φ π : Type} {fns : EventsFns κ φ π}
    {valid : φ → Prop}
    {needs : π → EventsImpl κ φ → Option Event → Prop}
    (halike : Proc.Alike (Tracked.call fns) (Tracked.call fns) Tracked.free
      (Tracked.Alike valid) (Tracked.Supplied needs) fun _ => True)
    {new new' : EventsImpl κ φ} (hvalid : valid new.fd)
    (hfd : new.fd = new'.fd) (htimeout : new.timeout = new'.timeout)
    {calls : List (EventsCall κ π)}
    (hmeets : Meets (Tracked.call fns) (Tracked.Supplied needs)
      (fun _ => True) calls ⟨new, []⟩) :
    Agree Eq (useEvents fns new calls) (useEvents fns new' calls) :=
  halike.lifetime calls ⟨hvalid, rfl, hfd, htimeout, nofun⟩ hmeets

theorem selector_alike (κ : Type) :
    Proc.Alike (Tracked.call (fnSelector κ)) (Tracked.call (fnSelector κ))
      Tracked.free (Tracked.Alike SelectorFds.Valid)
      (Tracked.Supplied Pselect.Needs) fun _ => True :=
  tracked_alike selector_forgets fun _ => waitSelector_alike

theorem poller_alike (κ : Type) :
    Proc.Alike (Tracked.call (fnPoller κ)) (Tracked.call (fnPoller κ))
      Tracked.free (Tracked.Alike PollArray.Valid)
      (Tracked.Supplied Ppoll.Needs) fun _ => True :=
  tracked_alike poller_forgets waitPoller_alike

end Libcad
