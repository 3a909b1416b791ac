/-
The event queue of `cad_event_queue_pthread.c`: the worker thread and any
number of threads that call the functions of the queue.  A step is one access
to the shared state, one call of `pthread_mutex_lock`, `pthread_create` or
`pthread_join`, or one transfer through the pipe.  Calls that lock succeed.
-/
import Libcad.Stream
import Mathlib.Logic.Function.Basic
import Mathlib.Logic.Relation

namespace Libcad

/-- `sizeof(void *)` -/
def pointerSize : Nat := 8

/-- A `void *`, as the bytes it is stored in. -/
structure Pointer where
  bytes : Bytes
  size : bytes.length = pointerSize
deriving DecidableEq

def Pointer.null : Pointer := ⟨List.replicate pointerSize 0, rfl⟩

/-- The `state` of a queue. -/
inductive QueueState
  | init
  | run
  | stop
deriving Repr, DecidableEq

/-- The thread of a caller, or a thread made by `pthread_create`. -/
inductive Thread
  | client (i : Nat)
  | worker (j : Nat)
deriving Repr, DecidableEq

/-- Where a thread stands in `stop_pthread`; `state` is the state it read. -/
inductive StopPc
  | read
  | lock (state : QueueState)
  | set (state : QueueState)
  | join
  | returned (state : QueueState)
deriving Repr, DecidableEq

/-- Where a worker stands in `pthread_main`. -/
inductive WorkerPc
  | absent
  | waitStart
  | loop
  | poll
  | lock
  | check
  | syncLock
  | provide
  | syncUnlock (data : Pointer)
  | write (data : Pointer)
  | stop (pc : StopPc)
  | unlock (run : Bool)
  | pause
  | ended
deriving DecidableEq

/-- Where a caller stands in the functions of the queue. -/
inductive ClientPc (δ : Type)
  | idle
  | startRead (data : δ)
  | startLock (data : δ)
  | startCreate
  | startRun
  | startUnlock
  | stop (pc : StopPc)
  | syncLock
  | synchronized
deriving DecidableEq

/-- `event_queue_pthread_t` with its threads.  `δ` is the payload of the
provider.  The last four fields are not part of the program: they record the
start calls, what the provider was called with, what it returned besides NULL
and what was pulled. -/
structure EventQueue (δ : Type) where
  state : QueueState
  data : Option δ
  lock : Option Thread
  synchronizedLock : Option Thread
  thread : Option Nat
  pipe : Bytes
  clients : Nat → ClientPc δ
  workers : Nat → WorkerPc
  created : Nat
  starts : Nat
  calls : List (Option δ)
  provided : List Pointer
  pulled : List Pointer

variable {δ : Type}

/-- `cad_new_event_queue_pthread` -/
def newEventQueue : EventQueue δ where
  state := .init
  data := none
  lock := none
  synchronizedLock := none
  thread := none
  pipe := []
  clients _ := .idle
  workers _ := .absent
  created := 0
  starts := 0
  calls := []
  provided := []
  pulled := []

/-- `is_running_pthread` -/
def EventQueue.isRunning (queue : EventQueue δ) : Bool :=
  queue.state = .run

def EventQueue.setClient (queue : EventQueue δ) (i : Nat) (pc : ClientPc δ) :
    EventQueue δ :=
  { queue with clients := Function.update queue.clients i pc }

def EventQueue.setWorker (queue : EventQueue δ) (j : Nat) (pc : WorkerPc) :
    EventQueue δ :=
  { queue with workers := Function.update queue.workers j pc }

/-- What `pull_pthread` makes of the bytes it read. -/
def pullResult (buffer : Bytes) : Option Pointer :=
  if h : buffer.length = pointerSize then
    let result : Pointer := ⟨buffer, h⟩
    if result = .null then none else some result
  else none

/-- A step of the thread `self` in `stop_pthread`. -/
inductive StopStep (self : Thread) :
    EventQueue δ → StopPc → EventQueue δ → StopPc → Prop
  | read {queue} : StopStep self queue .read queue (.lock queue.state)
  | lock {queue state} (free : queue.lock = none) :
      StopStep self queue (.lock state)
        { queue with lock := some self } (.set state)
  | set {queue state} :
      StopStep self queue (.set state)
        { queue with state := .stop, data := none, lock := none }
        (if state = .run then .join else .returned state)
  | join {queue j} (thread : queue.thread = some j)
      (ended : queue.workers j = .ended) :
      StopStep self queue .join queue (.returned .run)

/-- A step of a caller. -/
inductive ClientStep (i : Nat) : EventQueue δ → EventQueue δ → Prop
  | start {queue} (data : δ) (pc : queue.clients i = .idle) :
      ClientStep i queue
        ({ queue with starts := queue.starts + 1 }.setClient i
          (.startRead data))
  | startRead {queue data} (pc : queue.clients i = .startRead data)
      (state : queue.state = .init) :
      ClientStep i queue (queue.setClient i (.startLock data))
  | startLate {queue data} (pc : queue.clients i = .startRead data)
      (state : queue.state ≠ .init) :
      ClientStep i queue (queue.setClient i .idle)
  | startLock {queue data} (pc : queue.clients i = .startLock data)
      (free : queue.lock = none) :
      ClientStep i queue
        ({ queue with lock := some (.client i), data := some data }.setClient i
          .startCreate)
  | startCreate {queue} (pc : queue.clients i = .startCreate) :
      ClientStep i queue
        (({ queue with
            thread := some queue.created,
            created := queue.created + 1 }.setWorker queue.created
          .waitStart).setClient i .startRun)
  | startFail {queue} (pc : queue.clients i = .startCreate) :
      ClientStep i queue (queue.setClient i .startUnlock)
  | startRun {queue} (pc : queue.clients i = .startRun) :
      ClientStep i queue
        ({ queue with state := .run }.setClient i .startUnlock)
  | startUnlock {queue} (pc : queue.clients i = .startUnlock) :
      ClientStep i queue ({ queue with lock := none }.setClient i .idle)
  | stop {queue} (pc : queue.clients i = .idle) :
      ClientStep i queue (queue.setClient i (.stop .read))
  | stopping {queue queue' pc pc'} (pc_eq : queue.clients i = .stop pc)
      (step : StopStep (.client i) queue pc queue' pc') :
      ClientStep i queue (queue'.setClient i (.stop pc'))
  | stopped {queue state}
      (pc : queue.clients i = .stop (.returned state)) :
      ClientStep i queue (queue.setClient i .idle)
  | synchronized {queue} (pc : queue.clients i = .idle) :
      ClientStep i queue (queue.setClient i .syncLock)
  | syncLock {queue} (pc : queue.clients i = .syncLock)
      (free : queue.synchronizedLock = none) :
      ClientStep i queue
        ({ queue with synchronizedLock := some (.client i) }.setClient i
          .synchronized)
  | syncUnlock {queue} (pc : queue.clients i = .synchronized) :
      ClientStep i queue
        ({ queue with synchronizedLock := none }.setClient i .idle)
  | pull {queue} (pc : queue.clients i = .idle) (ready : queue.pipe ≠ []) :
      ClientStep i queue
        { queue with
          pipe := queue.pipe.drop pointerSize,
          pulled := queue.pulled ++
            (pullResult (queue.pipe.take pointerSize)).toList }

/-- A step of a worker; where `faulty`, a write may be short or fail. -/
inductive WorkerStep (faulty : Bool) (j : Nat) :
    EventQueue δ → EventQueue δ → Prop
  | waitStart {queue} (pc : queue.workers j = .waitStart)
      (state : queue.state ≠ .init) :
      WorkerStep faulty j queue (queue.setWorker j .loop)
  | loopRun {queue} (pc : queue.workers j = .loop)
      (state : queue.state = .run) :
      WorkerStep faulty j queue (queue.setWorker j .poll)
  | loopEnd {queue} (pc : queue.workers j = .loop)
      (state : queue.state ≠ .run) :
      WorkerStep faulty j queue (queue.setWorker j .ended)
  | pollReady {queue} (pc : queue.workers j = .poll) :
      WorkerStep faulty j queue (queue.setWorker j .lock)
  | pollIdle {queue} (pc : queue.workers j = .poll) :
      WorkerStep faulty j queue (queue.setWorker j .loop)
  | lock {queue} (pc : queue.workers j = .lock)
      (free : queue.lock = none) :
      WorkerStep faulty j queue
        ({ queue with lock := some (.worker j) }.setWorker j .check)
  | checkRun {queue} (pc : queue.workers j = .check)
      (state : queue.state = .run) :
      WorkerStep faulty j queue (queue.setWorker j .syncLock)
  | checkStop {queue} (pc : queue.workers j = .check)
      (state : queue.state ≠ .run) :
      WorkerStep faulty j queue (queue.setWorker j (.unlock false))
  | syncLock {queue} (pc : queue.workers j = .syncLock)
      (free : queue.synchronizedLock = none) :
      WorkerStep faulty j queue
        ({ queue with
            synchronizedLock := some (.worker j),
            calls := queue.calls ++ [queue.data] }.setWorker j .provide)
  | provide {queue} (data : Pointer) (pc : queue.workers j = .provide) :
      WorkerStep faulty j queue
        ({ queue with
            provided := queue.provided ++
              (if data = Pointer.null then [] else [data]) }.setWorker j
          (.syncUnlock data))
  | syncUnlock {queue data} (pc : queue.workers j = .syncUnlock data) :
      WorkerStep faulty j queue
        ({ queue with synchronizedLock := none }.setWorker j
          (if data = Pointer.null then .unlock true else .write data))
  | write {queue data} (pc : queue.workers j = .write data) :
      WorkerStep faulty j queue
        ({ queue with pipe := queue.pipe ++ data.bytes }.setWorker j
          (.unlock true))
  | writeShort {queue data} (n : Nat) (pc : queue.workers j = .write data)
      (short : n < pointerSize) (fault : faulty = true) :
      WorkerStep faulty j queue
        ({ queue with pipe := queue.pipe ++ data.bytes.take n }.setWorker j
          (.stop .read))
  | stopping {queue queue' pc pc'} (pc_eq : queue.workers j = .stop pc)
      (step : StopStep (.worker j) queue pc queue' pc') :
      WorkerStep faulty j queue (queue'.setWorker j (.stop pc'))
  | stopped {queue state}
      (pc : queue.workers j = .stop (.returned state)) :
      WorkerStep faulty j queue (queue.setWorker j (.unlock true))
  | unlock {queue run} (pc : queue.workers j = .unlock run) :
      WorkerStep faulty j queue
        ({ queue with lock := none }.setWorker j
          (if run then .pause else .loop))
  | pause {queue} (pc : queue.workers j = .pause) :
      WorkerStep faulty j queue (queue.setWorker j .loop)

/-- A step of any thread. -/
inductive EventQueue.Step (faulty : Bool) :
    EventQueue δ → EventQueue δ → Prop
  | client {queue queue'} (i : Nat) (step : ClientStep i queue queue') :
      EventQueue.Step faulty queue queue'
  | worker {queue queue'} (j : Nat) (step : WorkerStep faulty j queue queue') :
      EventQueue.Step faulty queue queue'

/-- Any number of steps, in any order of the threads. -/
def EventQueue.Steps (faulty : Bool) :
    EventQueue δ → EventQueue δ → Prop :=
  Relation.ReflTransGen (EventQueue.Step faulty)

def EventQueue.Reachable (faulty : Bool) (queue : EventQueue δ) : Prop :=
  EventQueue.Steps faulty newEventQueue queue

section

variable (queue : EventQueue δ) (i : Nat) (pc : ClientPc δ) (wpc : WorkerPc)

@[simp] theorem EventQueue.clients_setClient :
    (queue.setClient i pc).clients = Function.update queue.clients i pc := rfl

@[simp] theorem EventQueue.workers_setClient :
    (queue.setClient i pc).workers = queue.workers := rfl

@[simp] theorem EventQueue.clients_setWorker :
    (queue.setWorker i wpc).clients = queue.clients := rfl

@[simp] theorem EventQueue.workers_setWorker :
    (queue.setWorker i wpc).workers = Function.update queue.workers i wpc := rfl

end

end Libcad
