/-
The event loops of `cad_events.c`, over `pselect` and over `ppoll`.  What the
kernel answers and what the handlers do are parameters.
-/
import Libcad.Machine
import Mathlib.Logic.Function.Basic

namespace Libcad

open Proc

/-- What a descriptor can be watched for. -/
inductive Event
  | read
  | write
  | exception
deriving Repr, DecidableEq

/-- `struct timespec` -/
structure Timespec where
  tvSec : Nat
  tvNsec : Nat
deriving Repr, DecidableEq

/-- `events_impl_t`: `fd` is the member of the union that is in use, `κ` the
addresses of handlers, `onEvent` the members `on_read`, `on_write` and
`on_exception`. -/
structure EventsImpl (κ φ : Type) where
  fd : φ
  timeout : Timespec
  onTimeout : Option κ
  onEvent : Event → Option κ

section

variable {κ φ : Type}

def setTimeoutImpl (this : EventsImpl κ φ) (timeoutUs : Nat) :
    EventsImpl κ φ :=
  { this with
    timeout := ⟨timeoutUs / 1000000, timeoutUs % 1000000 * 1000⟩ }

def onTimeoutImpl (this : EventsImpl κ φ) (action : Option κ) :
    EventsImpl κ φ :=
  { this with onTimeout := action }

/-- What the three functions below have in common. -/
def onEventImpl (event : Event) (this : EventsImpl κ φ) (action : Option κ) :
    EventsImpl κ φ :=
  { this with onEvent := Function.update this.onEvent event action }

def onReadImpl (this : EventsImpl κ φ) (action : Option κ) :=
  onEventImpl .read this action

def onWriteImpl (this : EventsImpl κ φ) (action : Option κ) :=
  onEventImpl .write this action

def onExceptionImpl (this : EventsImpl κ φ) (action : Option κ) :=
  onEventImpl .exception this action

end

/-- A call of a handler: its address, and the event and the descriptor it is
called for, unless it is called for the time-out. -/
structure Call (κ : Type) where
  action : κ
  about : Option (Event × Int)
deriving Repr, DecidableEq

/-- The descriptors a handler registers in the last of the calls made. -/
abbrev Behaviour (κ : Type) := List (Call κ) → List (Event × Int)

/-- A wait in progress: the calls it has made, what the handlers have
registered, and the entries it has looked at. -/
structure Dispatch (κ φ : Type) where
  this : EventsImpl κ φ
  calls : List (Call κ)
  registered : List (Event × Int)
  looked : List Nat

section

variable {κ φ : Type}

/-- A sequence of calls of `set_read`, `set_write` and `set_exception`. -/
def registerAll (set : Event → φ → Int → Proc φ) :
    List (Event × Int) → φ → Proc φ
  | [], fd => pure fd
  | (event, descriptor) :: rest, fd => do
      let fd ← set event fd descriptor
      registerAll set rest fd

def EventsImpl.dispatch (this : EventsImpl κ φ) : Dispatch κ φ :=
  { this := this, calls := [], registered := [], looked := [] }

def Dispatch.call (set : Event → φ → Int → Proc φ) (behaviour : Behaviour κ)
    (action : κ) (about : Option (Event × Int)) (d : Dispatch κ φ) :
    Proc (Dispatch κ φ) := do
  let calls := d.calls ++ [⟨action, about⟩]
  let asked := behaviour calls
  let fd ← registerAll set asked d.this.fd
  pure { d with
    this := { d.this with fd := fd }, calls := calls,
    registered := d.registered ++ asked }

/-- `if (this->on_timeout != NULL) this->on_timeout(data)` -/
def Dispatch.callTimeout (set : Event → φ → Int → Proc φ)
    (behaviour : Behaviour κ) (d : Dispatch κ φ) : Proc (Dispatch κ φ) :=
  match d.this.onTimeout with
  | some action => d.call set behaviour action none
  | none => pure d

end

/-- `FD_SETSIZE` -/
def fdSetSize : Int := 1024

/-- `fd_set` -/
abbrev FdSet := Int → Bool

/-- `FD_ZERO` -/
def fdZero : FdSet := fun _ => false

/-- `FD_SET` -/
def fdSet (set : FdSet) (fd : Int) : Proc FdSet :=
  if 0 ≤ fd ∧ fd < fdSetSize then pure (Function.update set fd true)
  else Proc.undefined

/-- The member `selector` of the union: its sets `read`, `write` and
`exception`, and `max`. -/
structure SelectorFds where
  sets : Event → FdSet
  max : Int

/-- What the three functions below have in common. -/
def setSelector (event : Event) (this : SelectorFds) (fd : Int) :
    Proc SelectorFds := do
  let set ← fdSet (this.sets event) fd
  pure {
    sets := Function.update this.sets event set,
    max := if this.max < fd then fd else this.max }

def setReadSelector := setSelector .read

def setWriteSelector := setSelector .write

def setExceptionSelector := setSelector .exception

/-- What `pselect` returns, and what it leaves in `r`, `w` and `x`. -/
structure Selected where
  res : Int
  ready : Event → FdSet

/-- `pselect`, of the number of descriptors, the sets and the time-out. -/
abbrev Pselect := Int → (Event → FdSet) → Timespec → Selected

section

variable {κ : Type}

/-- One of the three tests of the loop of `wait_selector`. -/
def selectEvent (behaviour : Behaviour κ) (ready : Event → FdSet)
    (event : Event) (i : Int) (d : Dispatch κ SelectorFds) :
    Proc (Dispatch κ SelectorFds) :=
  match d.this.onEvent event with
  | some action =>
      if d.this.fd.sets event i && ready event i then
        d.call setSelector behaviour action (some (event, i))
      else pure d
  | none => pure d

/-- One round of the loop of `wait_selector`; a handler may have moved
`max`. -/
def selectStep (behaviour : Behaviour κ) (ready : Event → FdSet)
    (s : Int × Dispatch κ SelectorFds) :
    Proc (Int × Dispatch κ SelectorFds ⊕ Dispatch κ SelectorFds) :=
  if s.1 ≤ s.2.this.fd.max then do
    let d ← selectEvent behaviour ready .read s.1 s.2
    let d ← selectEvent behaviour ready .write s.1 d
    let d ← selectEvent behaviour ready .exception s.1 d
    pure (.inl (s.1 + 1, d))
  else pure (.inr s.2)

/-- `FD_ZERO` of the three sets, at the end of a wait. -/
def Dispatch.zero (d : Dispatch κ SelectorFds) : Dispatch κ SelectorFds :=
  { d with this := { d.this with
      fd := { d.this.fd with sets := fun _ => fdZero } } }

def waitSelector (pselect : Pselect) (behaviour : Behaviour κ)
    (this : EventsImpl κ SelectorFds) :
    Proc (Int × Dispatch κ SelectorFds) := do
  let out := pselect (this.fd.max + 1) this.fd.sets this.timeout
  let d ← (
    if out.res = 0 then this.dispatch.callTimeout setSelector behaviour
    else if 0 < out.res then
      Proc.loop (selectStep behaviour out.ready) (0, this.dispatch)
    else pure this.dispatch : Proc (Dispatch κ SelectorFds))
  pure (out.res, d.zero)

/-- `cad_new_events_selector`; the handlers are what the block happens to
hold. -/
def cadNewEventsSelector (onTimeout : Option κ) (onEvent : Event → Option κ) :
    EventsImpl κ SelectorFds where
  fd := { sets := fun _ => fdZero, max := 0 }
  timeout := ⟨0, 0⟩
  onTimeout := onTimeout
  onEvent := onEvent

end

def pollIn : BitVec 16 := 0x0001
def pollOut : BitVec 16 := 0x0004
def pollErr : BitVec 16 := 0x0008
def pollHup : BitVec 16 := 0x0010
def pollRdHup : BitVec 16 := 0x2000

def Event.mask : Event → BitVec 16
  | .read => pollIn
  | .write => pollOut
  | .exception => pollErr ||| pollHup ||| pollRdHup

/-- `struct pollfd` -/
structure Pollfd where
  fd : Int
  events : BitVec 16
  revents : BitVec 16
deriving Repr, DecidableEq

def Pollfd.zero : Pollfd := ⟨0, 0, 0⟩

/-- `sizeof(struct pollfd)` -/
def sizeofPollfd : Nat := 8

/-- The member `poller` of the union: an array of `struct pollfd`, as the
number of its elements and all the slots of its block. -/
structure PollArray where
  count : Nat
  content : List Pollfd
deriving Repr, DecidableEq

namespace PollArray

def entries (this : PollArray) : List Pollfd := this.content.take this.count

/-- `grow` of a full array -/
def grow (this : PollArray) : Proc PollArray :=
  if this.content.length = 0 then do
    let newCapacity ← intMul 2 2
    let _ ← intMul newCapacity sizeofPollfd
    pure { this with content := List.replicate newCapacity Pollfd.zero }
  else do
    let newCapacity ← intMul this.content.length 2
    let _ ← intMul newCapacity sizeofPollfd
    pure { this with
      content := this.content ++
        List.replicate this.content.length Pollfd.zero }

/-- `insert` at the index `count` -/
def insertLast (this : PollArray) (value : Pollfd) :
    Proc (Nat × PollArray) := do
  let this ← (
    if this.count = this.content.length then this.grow
    else pure this : Proc PollArray)
  pure (this.count, {
    count := this.count + 1, content := this.content.set this.count value })

def clear (this : PollArray) : PollArray where
  count := 0
  content := List.replicate this.content.length Pollfd.zero

/-- What `ppoll` writes: the `revents` of the elements. -/
def answer (this : PollArray) (revents : Nat → BitVec 16) : PollArray :=
  { this with
    content := this.content.mapIdx fun i p =>
      if i < this.count then { p with revents := revents i } else p }

end PollArray

def findPollfd (this : PollArray) (fd : Int) : Proc (Nat × PollArray) :=
  match this.entries.findIdx? fun p => p.fd = fd with
  | some i => pure (i, this)
  | none => this.insertLast ⟨fd, 0, 0⟩

/-- What the three functions below have in common. -/
def setPoller (event : Event) (this : PollArray) (fd : Int) :
    Proc PollArray := do
  let (i, this) ← findPollfd this fd
  pure { this with
    content := this.content.modify i fun p =>
      { p with events := p.events ||| event.mask } }

def setReadPoller := setPoller .read

def setWritePoller := setPoller .write

def setExceptionPoller := setPoller .exception

/-- What `ppoll` returns, and the `revents` it leaves in each entry. -/
structure Polled where
  res : Int
  revents : Nat → BitVec 16

/-- `ppoll`, of the entries and the time-out. -/
abbrev Ppoll := List Pollfd → Timespec → Polled

section

variable {κ : Type}

/-- The pointer `p` of `wait_poller`, when it is needed no more than its size:
the capacity of the block it points into, if it is not NULL.  A block that has
grown has moved. -/
def PollArray.base (this : PollArray) : Option Nat :=
  if 0 < this.count then some this.content.length else none

/-- The entry `i` after `p`. -/
def peek (base : Option Nat) (i : Nat) (d : Dispatch κ PollArray) :
    Proc Pollfd :=
  Proc.ofOption (
    if base = some d.this.fd.content.length then d.this.fd.content[i]?
    else none)

/-- One of the three tests of the loop of `wait_poller`; the handler is not
compared with NULL. -/
def pollEvent (behaviour : Behaviour κ) (base : Option Nat) (event : Event)
    (i : Nat) (d : Dispatch κ PollArray) : Proc (Dispatch κ PollArray) := do
  let p ← peek base i d
  if p.revents &&& event.mask ≠ 0 then do
    let action ← Proc.ofOption (d.this.onEvent event)
    d.call setPoller behaviour action (some (event, p.fd))
  else pure d

/-- One round of the loop of `wait_poller`. -/
def pollStep (behaviour : Behaviour κ) (base : Option Nat) (n : Nat)
    (s : Nat × Dispatch κ PollArray) :
    Proc (Nat × Dispatch κ PollArray ⊕ Dispatch κ PollArray) :=
  if s.1 ≤ n then do
    let d := { s.2 with looked := s.2.looked ++ [s.1] }
    let p ← peek base s.1 d
    if p.revents ≠ 0 then do
      let d ← pollEvent behaviour base .read s.1 d
      let d ← pollEvent behaviour base .write s.1 d
      let d ← pollEvent behaviour base .exception s.1 d
      pure (.inl (s.1 + 1, d))
    else pure (.inl (s.1 + 1, d))
  else pure (.inr s.2)

/-- `clear` of the array, at the end of a wait. -/
def Dispatch.clear (d : Dispatch κ PollArray) : Dispatch κ PollArray :=
  { d with this := { d.this with fd := d.this.fd.clear } }

def waitPoller (ppoll : Ppoll) (behaviour : Behaviour κ)
    (this : EventsImpl κ PollArray) : Proc (Int × Dispatch κ PollArray) := do
  let out := ppoll this.fd.entries this.timeout
  let n := this.fd.count
  let base := this.fd.base
  let this := { this with fd := this.fd.answer out.revents }
  let d ← (
    if out.res = 0 then this.dispatch.callTimeout setPoller behaviour
    else if 0 < out.res then
      Proc.loop (pollStep behaviour base n) (0, this.dispatch)
    else pure this.dispatch : Proc (Dispatch κ PollArray))
  pure (out.res, d.clear)

/-- `cad_new_events_poller`; the handlers are what the block happens to
hold. -/
def cadNewEventsPoller (onTimeout : Option κ) (onEvent : Event → Option κ) :
    EventsImpl κ PollArray where
  fd := { count := 0, content := [] }
  timeout := ⟨0, 0⟩
  onTimeout := onTimeout
  onEvent := onEvent

end

/-- The calls of `cad_events_t` but for `wait` and `free`. -/
inductive Setup (κ : Type)
  | setTimeout (timeoutUs : Nat)
  | set (event : Event) (fd : Int)
  | onTimeout (action : Option κ)
  | onEvent (event : Event) (action : Option κ)
deriving Repr, DecidableEq

section

variable {κ φ : Type}

def EventsImpl.apply (set : Event → φ → Int → Proc φ)
    (this : EventsImpl κ φ) : Setup κ → Proc (EventsImpl κ φ)
  | .setTimeout timeoutUs => pure (setTimeoutImpl this timeoutUs)
  | .set event fd => do
      let fd ← set event this.fd fd
      pure { this with fd := fd }
  | .onTimeout action => pure (onTimeoutImpl this action)
  | .onEvent event action => pure (onEventImpl event this action)

def EventsImpl.setup (set : Event → φ → Int → Proc φ) :
    List (Setup κ) → EventsImpl κ φ → Proc (EventsImpl κ φ)
  | [], this => pure this
  | op :: ops, this => do
      let this ← this.apply set op
      this.setup set ops

def Setup.registered : Setup κ → List (Event × Int)
  | .set event fd => [(event, fd)]
  | _ => []

def registrations (ops : List (Setup κ)) : List (Event × Int) :=
  ops.flatMap Setup.registered

end

end Libcad
