/-
The two locks of the event queue: the provider and the functions passed to
`synchronized` exclude each other, and a worker waits for itself only after a
write that fails.
-/
import Libcad.EventQueue
import Libcad.Mutex

namespace Libcad

variable {δ : Type}

def StopPc.holdsLock : StopPc → Bool
  | .set _ => true
  | _ => false

def ClientPc.holdsLock : ClientPc δ → Bool
  | .startCreate | .startRun | .startUnlock => true
  | .stop pc => pc.holdsLock
  | _ => false

/-- A worker calls `stop` with the lock held. -/
def WorkerPc.holdsLock : WorkerPc → Bool
  | .check | .syncLock | .provide | .syncUnlock _ | .write _ | .stop _ |
    .unlock _ => true
  | _ => false

def ClientPc.holdsSynchronizedLock : ClientPc δ → Bool
  | .synchronized => true
  | _ => false

def WorkerPc.holdsSynchronizedLock : WorkerPc → Bool
  | .provide | .syncUnlock _ => true
  | _ => false

def EventQueue.ask {β : Type} (client : ClientPc δ → β) (worker : WorkerPc → β)
    (queue : EventQueue δ) : Thread → β
  | .client i => client (queue.clients i)
  | .worker j => worker (queue.workers j)

def EventQueue.holdsLock (queue : EventQueue δ) : Thread → Bool :=
  queue.ask ClientPc.holdsLock WorkerPc.holdsLock

def EventQueue.holdsSynchronizedLock (queue : EventQueue δ) : Thread → Bool :=
  queue.ask ClientPc.holdsSynchronizedLock WorkerPc.holdsSynchronizedLock

section

variable {β : Type} (client : ClientPc δ → β) (worker : WorkerPc → β)
  (queue : EventQueue δ) (i : Nat)

theorem EventQueue.ask_congr {after : EventQueue δ}
    (hclients : after.clients = queue.clients)
    (hworkers : after.workers = queue.workers) :
    after.ask client worker = queue.ask client worker := by
  funext t
  cases t with
  | client k => exact congrArg client (congrFun hclients k)
  | worker k => exact congrArg worker (congrFun hworkers k)

theorem EventQueue.ask_setClient (pc : ClientPc δ) :
    (queue.setClient i pc).ask client worker =
      Function.update (queue.ask client worker) (.client i) (client pc) := by
  funext t
  cases t with
  | client k =>
      by_cases hk : k = i
      · subst hk
        simp [EventQueue.ask]
      · simp [EventQueue.ask, hk]
  | worker k => simp [EventQueue.ask]

theorem EventQueue.ask_setWorker (pc : WorkerPc) :
    (queue.setWorker i pc).ask client worker =
      Function.update (queue.ask client worker) (.worker i) (worker pc) := by
  funext t
  cases t with
  | client k => simp [EventQueue.ask]
  | worker k =>
      by_cases hk : k = i
      · subst hk
        simp [EventQueue.ask]
      · simp [EventQueue.ask, hk]

end

/-- Both locks belong to the threads that hold them, threads that do not exist
yet are numbered from `created` on, and a worker that calls `stop` gets no
further than to the lock. -/
structure EventQueue.Locked (queue : EventQueue δ) : Prop where
  lock : MutexConsistent queue.lock queue.holdsLock
  synchronizedLock :
    MutexConsistent queue.synchronizedLock queue.holdsSynchronizedLock
  absent : ∀ j, queue.created ≤ j → queue.workers j = .absent
  waits : ∀ j pc, queue.workers j = .stop pc →
    pc = .read ∨ ∃ state, pc = .lock state

variable {queue after : EventQueue δ} {faulty : Bool} {i j : Nat}

theorem newEventQueue_locked : (newEventQueue : EventQueue δ).Locked where
  lock t := by cases t <;> simp [newEventQueue, EventQueue.holdsLock,
    EventQueue.ask, ClientPc.holdsLock, WorkerPc.holdsLock]
  synchronizedLock t := by cases t <;> simp [newEventQueue,
    EventQueue.holdsSynchronizedLock, EventQueue.ask,
    ClientPc.holdsSynchronizedLock, WorkerPc.holdsSynchronizedLock]
  absent _ _ := rfl
  waits _ _ h := nomatch h

theorem EventQueue.Locked.setClient (h : queue.Locked) {pc : ClientPc δ}
    (hclients : after.clients = queue.clients)
    (hworkers : after.workers = queue.workers)
    (hcreated : after.created = queue.created)
    (hlock : MutexConsistent after.lock
      (Function.update queue.holdsLock (.client i) pc.holdsLock))
    (hsync : MutexConsistent after.synchronizedLock
      (Function.update queue.holdsSynchronizedLock (.client i)
        pc.holdsSynchronizedLock)) :
    (after.setClient i pc).Locked where
  lock := by
    rw [EventQueue.holdsLock, EventQueue.ask_setClient,
      EventQueue.ask_congr _ _ queue hclients hworkers]
    exact hlock
  synchronizedLock := by
    rw [EventQueue.holdsSynchronizedLock, EventQueue.ask_setClient,
      EventQueue.ask_congr _ _ queue hclients hworkers]
    exact hsync
  absent k hk := hworkers ▸ h.absent k (hcreated ▸ hk)
  waits k pc' hk := h.waits k pc' (hworkers ▸ hk)

theorem EventQueue.Locked.setWorker (h : queue.Locked) {pc : WorkerPc}
    (hclients : after.clients = queue.clients)
    (hworkers : after.workers = queue.workers)
    (hcreated : after.created = queue.created)
    (hpresent : queue.workers j ≠ .absent)
    (hwaits : ∀ spc, pc = .stop spc → spc = .read ∨ ∃ state, spc = .lock state)
    (hlock : MutexConsistent after.lock
      (Function.update queue.holdsLock (.worker j) pc.holdsLock))
    (hsync : MutexConsistent after.synchronizedLock
      (Function.update queue.holdsSynchronizedLock (.worker j)
        pc.holdsSynchronizedLock)) :
    (after.setWorker j pc).Locked where
  lock := by
    rw [EventQueue.holdsLock, EventQueue.ask_setWorker,
      EventQueue.ask_congr _ _ queue hclients hworkers]
    exact hlock
  synchronizedLock := by
    rw [EventQueue.holdsSynchronizedLock, EventQueue.ask_setWorker,
      EventQueue.ask_congr _ _ queue hclients hworkers]
    exact hsync
  absent k hk := by
    have hk' : queue.created ≤ k := hcreated ▸ hk
    have hne : k ≠ j := fun heq => hpresent (heq ▸ h.absent k hk')
    rw [EventQueue.workers_setWorker, Function.update_of_ne hne, hworkers]
    exact h.absent k hk'
  waits k spc hk := by
    by_cases hkj : k = j
    · subst hkj
      rw [EventQueue.workers_setWorker, Function.update_self] at hk
      exact hwaits spc hk
    · rw [EventQueue.workers_setWorker, Function.update_of_ne hkj,
        hworkers] at hk
      exact h.waits k spc hk

theorem EventQueue.Locked.clientKeeps (h : queue.Locked)
    {pc pc' : ClientPc δ} (hpc : queue.clients i = pc)
    (hclients : after.clients = queue.clients)
    (hworkers : after.workers = queue.workers)
    (hcreated : after.created = queue.created)
    (hlock : after.lock = queue.lock)
    (hsync : after.synchronizedLock = queue.synchronizedLock)
    (hholds : pc'.holdsLock = pc.holdsLock)
    (hholds' : pc'.holdsSynchronizedLock = pc.holdsSynchronizedLock) :
    (after.setClient i pc').Locked := by
  subst hpc
  refine h.setClient hclients hworkers hcreated ?_ ?_
  · rw [hlock]
    exact h.lock.keep hholds
  · rw [hsync]
    exact h.synchronizedLock.keep hholds'

theorem EventQueue.Locked.workerKeeps (h : queue.Locked)
    {pc pc' : WorkerPc} (hpc : queue.workers j = pc) (hne : pc ≠ .absent)
    (hwaits : ∀ spc, pc' = .stop spc → spc = .read ∨ ∃ state, spc = .lock state)
    (hclients : after.clients = queue.clients)
    (hworkers : after.workers = queue.workers)
    (hcreated : after.created = queue.created)
    (hlock : after.lock = queue.lock)
    (hsync : after.synchronizedLock = queue.synchronizedLock)
    (hholds : pc'.holdsLock = pc.holdsLock)
    (hholds' : pc'.holdsSynchronizedLock = pc.holdsSynchronizedLock) :
    (after.setWorker j pc').Locked := by
  subst hpc
  refine h.setWorker hclients hworkers hcreated hne hwaits ?_ ?_
  · rw [hlock]
    exact h.lock.keep hholds
  · rw [hsync]
    exact h.synchronizedLock.keep hholds'

theorem ClientStep.locked (step : ClientStep i queue after)
    (h : queue.Locked) : after.Locked := by
  cases step with
  | start data pc => exact h.clientKeeps pc rfl rfl rfl rfl rfl rfl rfl
  | startRead pc _ => exact h.clientKeeps pc rfl rfl rfl rfl rfl rfl rfl
  | startLate pc _ => exact h.clientKeeps pc rfl rfl rfl rfl rfl rfl rfl
  | startFail pc => exact h.clientKeeps pc rfl rfl rfl rfl rfl rfl rfl
  | startRun pc => exact h.clientKeeps pc rfl rfl rfl rfl rfl rfl rfl
  | stop pc => exact h.clientKeeps pc rfl rfl rfl rfl rfl rfl rfl
  | stopped pc => exact h.clientKeeps pc rfl rfl rfl rfl rfl rfl rfl
  | synchronized pc => exact h.clientKeeps pc rfl rfl rfl rfl rfl rfl rfl
  | pull pc _ => exact ⟨h.lock, h.synchronizedLock, h.absent, h.waits⟩
  | startLock pc free =>
      refine h.setClient rfl rfl rfl (h.lock.acquire free)
        (h.synchronizedLock.keep ?_)
      exact (congrArg ClientPc.holdsSynchronizedLock pc).symm
  | startUnlock pc =>
      refine h.setClient rfl rfl rfl (h.lock.release ?_)
        (h.synchronizedLock.keep ?_)
      · exact congrArg ClientPc.holdsLock pc
      · exact (congrArg ClientPc.holdsSynchronizedLock pc).symm
  | syncLock pc free =>
      refine h.setClient rfl rfl rfl (h.lock.keep ?_)
        (h.synchronizedLock.acquire free)
      exact (congrArg ClientPc.holdsLock pc).symm
  | syncUnlock pc =>
      refine h.setClient rfl rfl rfl (h.lock.keep ?_)
        (h.synchronizedLock.release ?_)
      · exact (congrArg ClientPc.holdsLock pc).symm
      · exact congrArg ClientPc.holdsSynchronizedLock pc
  | startCreate pc =>
      -- The new thread holds nothing, as before it was made.
      have hnew : queue.workers queue.created = .absent :=
        h.absent _ (Nat.le_refl _)
      have hmade : (({ queue with
          thread := some queue.created,
          created := queue.created + 1 }.setWorker queue.created
          .waitStart) : EventQueue δ).Locked := by
        refine ⟨?_, ?_, ?_, ?_⟩
        · rw [EventQueue.holdsLock, EventQueue.ask_setWorker]
          exact h.lock.keep (congrArg WorkerPc.holdsLock hnew).symm
        · rw [EventQueue.holdsSynchronizedLock, EventQueue.ask_setWorker]
          exact h.synchronizedLock.keep
            (congrArg WorkerPc.holdsSynchronizedLock hnew).symm
        · intro k hk
          have hk' : queue.created + 1 ≤ k := hk
          have hne : k ≠ queue.created := by omega
          rw [EventQueue.workers_setWorker, Function.update_of_ne hne]
          exact h.absent k (by omega)
        · intro k spc hk
          by_cases hkc : k = queue.created
          · subst hkc
            rw [EventQueue.workers_setWorker, Function.update_self] at hk
            cases hk
          · rw [EventQueue.workers_setWorker, Function.update_of_ne hkc] at hk
            exact h.waits k spc hk
      exact hmade.clientKeeps pc rfl rfl rfl rfl rfl rfl rfl
  | stopping pc step =>
      cases step with
      | read => exact h.clientKeeps pc rfl rfl rfl rfl rfl rfl rfl
      | join _ _ => exact h.clientKeeps pc rfl rfl rfl rfl rfl rfl rfl
      | lock free =>
          refine h.setClient rfl rfl rfl (h.lock.acquire free)
            (h.synchronizedLock.keep ?_)
          exact (congrArg ClientPc.holdsSynchronizedLock pc).symm
      | @set state =>
          refine h.setClient rfl rfl rfl ?_ (h.synchronizedLock.keep ?_)
          · have hpc : ClientPc.holdsLock (.stop
                (if state = .run then .join else .returned state) :
                  ClientPc δ) = false := by
              split <;> rfl
            rw [hpc]
            exact h.lock.release (congrArg ClientPc.holdsLock pc)
          · exact (congrArg ClientPc.holdsSynchronizedLock pc).symm

theorem WorkerStep.locked (step : WorkerStep faulty j queue after)
    (h : queue.Locked) : after.Locked := by
  cases step with
  | waitStart pc _ =>
      exact h.workerKeeps pc nofun nofun rfl rfl rfl rfl rfl rfl rfl
  | loopRun pc _ =>
      exact h.workerKeeps pc nofun nofun rfl rfl rfl rfl rfl rfl rfl
  | loopEnd pc _ =>
      exact h.workerKeeps pc nofun nofun rfl rfl rfl rfl rfl rfl rfl
  | pollReady pc =>
      exact h.workerKeeps pc nofun nofun rfl rfl rfl rfl rfl rfl rfl
  | pollIdle pc =>
      exact h.workerKeeps pc nofun nofun rfl rfl rfl rfl rfl rfl rfl
  | checkRun pc _ =>
      exact h.workerKeeps pc nofun nofun rfl rfl rfl rfl rfl rfl rfl
  | checkStop pc _ =>
      exact h.workerKeeps pc nofun nofun rfl rfl rfl rfl rfl rfl rfl
  | provide data pc =>
      exact h.workerKeeps pc nofun nofun rfl rfl rfl rfl rfl rfl rfl
  | write pc =>
      exact h.workerKeeps pc nofun nofun rfl rfl rfl rfl rfl rfl rfl
  | pause pc =>
      exact h.workerKeeps pc nofun nofun rfl rfl rfl rfl rfl rfl rfl
  | writeShort n pc _ _ =>
      refine h.workerKeeps pc nofun ?_ rfl rfl rfl rfl rfl rfl rfl
      rintro spc ⟨⟩
      exact Or.inl rfl
  | stopped pc => rcases h.waits j _ pc with hpc | ⟨state, hpc⟩ <;> cases hpc
  | lock pc free =>
      refine h.setWorker rfl rfl rfl ?_ nofun (h.lock.acquire free)
        (h.synchronizedLock.keep ?_)
      · rw [pc]
        nofun
      · exact (congrArg WorkerPc.holdsSynchronizedLock pc).symm
  | syncLock pc free =>
      refine h.setWorker rfl rfl rfl ?_ nofun (h.lock.keep ?_)
        (h.synchronizedLock.acquire free)
      · rw [pc]
        nofun
      · exact (congrArg WorkerPc.holdsLock pc).symm
  | @syncUnlock data pc =>
      have hnext : ∀ pc' : WorkerPc, pc' = (if data = Pointer.null then .unlock true
          else .write data) → pc'.holdsLock = true ∧
          pc'.holdsSynchronizedLock = false ∧ ∀ spc, pc' ≠ .stop spc := by
        rintro pc' rfl
        split <;> exact ⟨rfl, rfl, nofun⟩
      obtain ⟨hlock, hsync, hstop⟩ := hnext _ rfl
      refine h.setWorker rfl rfl rfl ?_ (fun spc hspc => absurd hspc (hstop spc))
        (h.lock.keep ?_) ?_
      · rw [pc]
        nofun
      · rw [hlock]
        exact (congrArg WorkerPc.holdsLock pc).symm
      · rw [hsync]
        exact h.synchronizedLock.release
          (congrArg WorkerPc.holdsSynchronizedLock pc)
  | @unlock run pc =>
      have hnext : ∀ pc' : WorkerPc, pc' = (if run then WorkerPc.pause else .loop) →
          pc'.holdsLock = false ∧ pc'.holdsSynchronizedLock = false ∧
            ∀ spc, pc' ≠ .stop spc := by
        rintro pc' rfl
        split <;> exact ⟨rfl, rfl, nofun⟩
      obtain ⟨hlock, hsync, hstop⟩ := hnext _ rfl
      refine h.setWorker rfl rfl rfl ?_ (fun spc hspc => absurd hspc (hstop spc))
        ?_ (h.synchronizedLock.keep ?_)
      · rw [pc]
        nofun
      · rw [hlock]
        exact h.lock.release (congrArg WorkerPc.holdsLock pc)
      · rw [hsync]
        exact (congrArg WorkerPc.holdsSynchronizedLock pc).symm
  | stopping pc step =>
      cases step with
      | read =>
          refine h.workerKeeps pc nofun ?_ rfl rfl rfl rfl rfl rfl rfl
          rintro spc ⟨⟩
          exact Or.inr ⟨_, rfl⟩
      | lock free =>
          -- The worker holds the lock it waits for.
          have hmine := (h.lock (.worker j)).mpr (congrArg WorkerPc.holdsLock pc)
          rw [free] at hmine
          cases hmine
      | set => rcases h.waits j _ pc with hpc | ⟨state, hpc⟩ <;> cases hpc
      | join _ _ =>
          rcases h.waits j _ pc with hpc | ⟨state, hpc⟩ <;> cases hpc

theorem EventQueue.Reachable.locked (h : queue.Reachable faulty) :
    queue.Locked := by
  induction h with
  | refl => exact newEventQueue_locked
  | tail _ step ih =>
      cases step with
      | client i step => exact step.locked ih
      | worker j step => exact step.locked ih

theorem EventQueue.Reachable.client (h : queue.Reachable faulty)
    (step : ClientStep i queue after) : after.Reachable faulty :=
  Relation.ReflTransGen.tail h (.client i step)

theorem EventQueue.Reachable.worker (h : queue.Reachable faulty)
    (step : WorkerStep faulty j queue after) : after.Reachable faulty :=
  Relation.ReflTransGen.tail h (.worker j step)

theorem EventQueue.Reachable.steps (h : queue.Reachable faulty)
    (hsteps : queue.Steps faulty after) : after.Reachable faulty :=
  Relation.ReflTransGen.trans h hsteps

def Pointer.one : Pointer := ⟨[1, 0, 0, 0, 0, 0, 0, 0], rfl⟩

/-- A run in which the worker is about to write its first item. -/
theorem reachable_write (faulty : Bool) : ∃ queue : EventQueue Unit,
    queue.Reachable faulty ∧ queue.workers 0 = .write .one ∧
      queue.lock = some (.worker 0) ∧ queue.state = .run ∧
      queue.clients 0 = .idle ∧ queue.starts = 1 ∧ queue.created = 1 ∧
      queue.provided = [.one] := by
  have h : (newEventQueue : EventQueue Unit).Reachable faulty :=
    Relation.ReflTransGen.refl
  have h := h.client (.start (i := 0) () rfl)
  have h := h.client (.startRead (i := 0) rfl rfl)
  have h := h.client (.startLock (i := 0) rfl rfl)
  have h := h.client (.startCreate (i := 0) rfl)
  have h := h.client (.startRun (i := 0) rfl)
  have h := h.client (.startUnlock (i := 0) rfl)
  have h := h.worker (.waitStart (j := 0) rfl nofun)
  have h := h.worker (.loopRun (j := 0) rfl rfl)
  have h := h.worker (.pollReady (j := 0) rfl)
  have h := h.worker (.lock (j := 0) rfl rfl)
  have h := h.worker (.checkRun (j := 0) rfl rfl)
  have h := h.worker (.syncLock (j := 0) rfl rfl)
  have h := h.worker (.provide (j := 0) .one rfl)
  have h := h.worker (.syncUnlock (j := 0) rfl)
  exact ⟨_, h, rfl, rfl, rfl, rfl, rfl, rfl, rfl⟩

/-- Some worker is about to lock a mutex that belongs to it, or to join
itself. -/
def EventQueue.SelfBlocked (queue : EventQueue δ) : Prop :=
  ∃ j, (queue.lock = some (.worker j) ∧
      (queue.workers j = .lock ∨
        ∃ state, queue.workers j = .stop (.lock state))) ∨
    (queue.synchronizedLock = some (.worker j) ∧
      queue.workers j = .syncLock) ∨
    (queue.thread = some j ∧ queue.workers j = .stop .join)

/-- Without a faulty write no worker calls `stop`. -/
theorem EventQueue.Reachable.not_stop (h : queue.Reachable false) :
    ∀ j pc, queue.workers j ≠ .stop pc := by
  induction h with
  | refl => exact nofun
  | @tail before last _ step ih =>
      have hset : ∀ (before' : EventQueue δ) k pc',
          before'.workers = before.workers → (∀ pc, pc' ≠ .stop pc) →
          ∀ j pc, (before'.setWorker k pc').workers j ≠ .stop pc := by
        intro before' k pc' hworkers hpc' j pc
        by_cases hjk : j = k
        · subst hjk
          rw [EventQueue.workers_setWorker, Function.update_self]
          exact hpc' pc
        · rw [EventQueue.workers_setWorker, Function.update_of_ne hjk, hworkers]
          exact ih j pc
      cases step with
      | client i step =>
          cases step with
          | startCreate _ => exact hset _ _ _ rfl nofun
          | stopping _ step => cases step <;> exact ih
          | _ => exact ih
      | worker j step =>
          cases step with
          | stopping pc _ => exact absurd pc (ih j _)
          | stopped pc => exact absurd pc (ih j _)
          | writeShort _ _ _ fault => cases fault
          | syncUnlock _ => exact hset _ _ _ rfl (by split <;> exact nofun)
          | unlock _ => exact hset _ _ _ rfl (by split <;> exact nofun)
          | _ => exact hset _ _ _ rfl nofun

/-- Where no write is faulty, no worker ever waits for itself. -/
theorem EventQueue.Reachable.not_selfBlocked (h : queue.Reachable false) :
    ¬ queue.SelfBlocked := by
  rintro ⟨j, ⟨hmutex, hpc | ⟨state, hpc⟩⟩ | ⟨hmutex, hpc⟩ | ⟨-, hpc⟩⟩
  · have hholds := (h.locked.lock (.worker j)).mp hmutex
    rw [EventQueue.holdsLock, EventQueue.ask, hpc] at hholds
    cases hholds
  · exact h.not_stop j _ hpc
  · have hholds := (h.locked.synchronizedLock (.worker j)).mp hmutex
    rw [EventQueue.holdsSynchronizedLock, EventQueue.ask, hpc] at hholds
    cases hholds
  · exact h.not_stop j _ hpc

/-- A worker that writes its item does not wait for itself. -/
theorem not_selfBlocked_write : ∃ queue : EventQueue Unit,
    queue.workers 0 = .write .one ∧ ¬ queue.SelfBlocked := by
  obtain ⟨queue, h, hpc, -⟩ := reachable_write false
  exact ⟨queue, hpc, h.not_selfBlocked⟩

/-- A write that fails makes the worker wait for the lock it holds. -/
theorem reachable_selfBlocked : ∃ queue : EventQueue Unit,
    queue.Reachable true ∧ queue.SelfBlocked := by
  obtain ⟨queue, h, hpc, hlock, -⟩ := reachable_write true
  have h := h.worker (.writeShort 0 hpc (by decide) rfl)
  have hstop : ∀ q : EventQueue Unit,
      (q.setWorker 0 (.stop .read)).workers 0 = .stop .read := fun q => by simp
  have h := h.worker (.stopping (hstop _) .read)
  exact ⟨_, h, 0, Or.inl ⟨hlock, Or.inr ⟨queue.state, by simp; rfl⟩⟩⟩

/-- The provider and a function passed to `synchronized` do not run at the same
time. -/
theorem EventQueue.Reachable.exclusive (h : queue.Reachable faulty)
    (hj : queue.workers j = .provide) : queue.clients i ≠ .synchronized := by
  intro hi
  have hworker : queue.holdsSynchronizedLock (.worker j) = true :=
    congrArg WorkerPc.holdsSynchronizedLock hj
  have hclient : queue.holdsSynchronizedLock (.client i) = true :=
    congrArg ClientPc.holdsSynchronizedLock hi
  cases h.locked.synchronizedLock.exclusive hworker hclient

end Libcad
