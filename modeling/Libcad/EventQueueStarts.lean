/-
Several start and stop calls at the same time.  One worker is made, and a queue
that was stopped stays so, as long as every start call that takes the lock
still finds the state it looked for before.
-/
import Libcad.EventQueueRuns

namespace Libcad

variable {δ : Type} {queue after : EventQueue δ} {faulty : Bool} {i j : Nat}

/-- A start call that takes the lock in this step still finds `STATE_INIT`. -/
def EventQueue.Timely (queue after : EventQueue δ) : Prop :=
  ∀ i data, queue.clients i = .startLock data →
    after.clients i = .startCreate → queue.state = .init

/-- A run in which start calls take the lock in time. -/
def EventQueue.TimelySteps (faulty : Bool) :
    EventQueue δ → EventQueue δ → Prop :=
  Relation.ReflTransGen fun queue after =>
    queue.Step faulty after ∧ queue.Timely after

theorem EventQueue.TimelySteps.steps (h : queue.TimelySteps faulty after) :
    queue.Steps faulty after :=
  Relation.ReflTransGen.mono (fun _ _ hstep => hstep.1) _ _ h

/-- A start call with the lock in hand has found `STATE_INIT`, and no other
call has made a worker. -/
structure EventQueue.OneWorker (queue : EventQueue δ) : Prop where
  created : queue.created ≤ 1
  creating : ∀ k, queue.clients k = .startCreate →
    queue.state = .init ∧ queue.created = 0
  made : ∀ k, queue.clients k = .startRun →
    queue.state = .init ∧ queue.created = 1
  init : queue.state = .init →
    queue.created = 0 ∨ ∃ k, queue.clients k = .startRun

theorem newEventQueue_oneWorker : (newEventQueue : EventQueue δ).OneWorker where
  created := Nat.zero_le 1
  creating _ h := nomatch h
  made _ h := nomatch h
  init _ := Or.inl rfl

/-- The places of a caller at which the invariant says something. -/
def ClientPc.making : ClientPc δ → Bool
  | .startCreate | .startRun => true
  | _ => false

theorem EventQueue.Locked.making_eq (h : queue.Locked)
    (hi : (queue.clients i).holdsLock = true) {k : Nat}
    (hk : (queue.clients k).making = true) : k = i := by
  have hholds : (queue.clients k).holdsLock = true := by
    cases hpc : queue.clients k <;>
      simp_all [ClientPc.making, ClientPc.holdsLock]
  have heq : Thread.client k = .client i := h.lock.exclusive hholds hi
  exact Thread.client.inj heq

/-- A caller goes from one place that says nothing to another. -/
theorem EventQueue.OneWorker.setClient (h : queue.OneWorker)
    {pc pc' : ClientPc δ} (hpc : queue.clients i = pc)
    (hclients : after.clients = queue.clients)
    (hcreated : after.created = queue.created)
    (hstate : after.state = queue.state) (hmaking : pc.making = false)
    (hmaking' : pc'.making = false) : (after.setClient i pc').OneWorker := by
  refine ⟨hcreated ▸ h.created, ?_, ?_, ?_⟩
  · intro k hk
    rcases EventQueue.setClient_cases (P := fun pc => pc = .startCreate) hk
      with ⟨-, rfl⟩ | ⟨-, hk⟩
    · cases hmaking'
    · obtain ⟨hinit, hzero⟩ := h.creating k (hclients ▸ hk)
      exact ⟨hstate.trans hinit, hcreated.trans hzero⟩
  · intro k hk
    rcases EventQueue.setClient_cases (P := fun pc => pc = .startRun) hk
      with ⟨-, rfl⟩ | ⟨-, hk⟩
    · cases hmaking'
    · obtain ⟨hinit, hone⟩ := h.made k (hclients ▸ hk)
      exact ⟨hstate.trans hinit, hcreated.trans hone⟩
  · intro hinit
    rcases h.init (hstate.symm.trans hinit) with hzero | ⟨k, hk⟩
    · exact Or.inl (hcreated.trans hzero)
    · refine Or.inr ⟨k, ?_⟩
      have hki : k ≠ i := by
        rintro rfl
        rw [hpc] at hk
        rw [hk] at hmaking
        cases hmaking
      rw [EventQueue.clients_setClient, Function.update_of_ne hki, hclients]
      exact hk

/-- A caller with the lock in hand has left the places that say something. -/
theorem EventQueue.OneWorker.of_quiet (hcreated : queue.created ≤ 1)
    (hstate : queue.state = .init → queue.created = 0)
    (hquiet : ∀ k, (queue.clients k).making = false) : queue.OneWorker where
  created := hcreated
  creating k hk := absurd (hquiet k) (by simp [hk, ClientPc.making])
  made k hk := absurd (hquiet k) (by simp [hk, ClientPc.making])
  init hinit := Or.inl (hstate hinit)

theorem EventQueue.Locked.quiet (h : queue.Locked)
    (hi : (queue.clients i).holdsLock = true) {pc' : ClientPc δ}
    (hpc' : pc'.making = false) (k : Nat) :
    (Function.update queue.clients i pc' k).making = false := by
  by_cases hki : k = i
  · subst hki
    rwa [Function.update_self]
  · rw [Function.update_of_ne hki]
    by_contra hk
    exact hki (h.making_eq hi (Bool.not_eq_false _ ▸ hk))

theorem ClientStep.oneWorker (step : ClientStep i queue after)
    (h : queue.OneWorker) (hlocked : queue.Locked)
    (htimely : queue.Timely after) : after.OneWorker := by
  cases step with
  | start _ pc | startRead pc _ | startLate pc _ | startUnlock pc | stop pc
  | stopped pc | synchronized pc | syncLock pc _ | syncUnlock pc =>
      exact h.setClient pc rfl rfl rfl rfl rfl
  | pull _ _ => exact ⟨h.created, h.creating, h.made, h.init⟩
  | startLock pc free =>
      have hinit := htimely i _ pc (by simp)
      have hquiet : ∀ k, (queue.clients k).making = false := by
        intro k
        by_contra hk
        have hholds : queue.holdsLock (.client k) = true := by
          have hmaking : (queue.clients k).making = true :=
            Bool.not_eq_false _ ▸ hk
          change (queue.clients k).holdsLock = true
          cases hpc : queue.clients k <;>
            simp_all [ClientPc.making, ClientPc.holdsLock]
        have hlock := (hlocked.lock _).mpr hholds
        rw [free] at hlock
        cases hlock
      have hzero : queue.created = 0 := by
        rcases h.init hinit with hzero | ⟨k, hk⟩
        · exact hzero
        · exact absurd (hquiet k) (by simp [hk, ClientPc.making])
      refine ⟨h.created, fun _ _ => ⟨hinit, hzero⟩, ?_, fun _ => Or.inl hzero⟩
      intro k hk
      rcases EventQueue.setClient_cases (P := fun pc => pc = .startRun) hk
        with ⟨-, hk⟩ | ⟨-, hk⟩
      · cases hk
      · exact absurd (hquiet k) (by
          simp [show queue.clients k = .startRun from hk, ClientPc.making])
  | startCreate pc =>
      obtain ⟨hinit, hzero⟩ := h.creating i pc
      have hholds : (queue.clients i).holdsLock = true :=
        congrArg ClientPc.holdsLock pc
      have hcreated : queue.created + 1 = 1 := by omega
      refine ⟨Nat.le_of_eq hcreated, ?_, fun _ _ => ⟨hinit, hcreated⟩,
        fun _ => Or.inr ⟨i, by simp⟩⟩
      intro k hk
      rcases EventQueue.setClient_cases (P := fun pc => pc = .startCreate) hk
        with ⟨-, hk⟩ | ⟨hki, hk⟩
      · cases hk
      · have hk : queue.clients k = .startCreate := hk
        exact absurd (hlocked.making_eq hholds (by rw [hk]; rfl)) hki
  | startFail pc =>
      obtain ⟨-, hzero⟩ := h.creating i pc
      refine EventQueue.OneWorker.of_quiet h.created (fun _ => hzero) ?_
      exact hlocked.quiet (congrArg ClientPc.holdsLock pc) rfl
  | startRun pc =>
      refine EventQueue.OneWorker.of_quiet h.created
        (fun hinit => by cases hinit) ?_
      exact hlocked.quiet (congrArg ClientPc.holdsLock pc) rfl
  | stopping pc step =>
      cases step with
      | read | lock _ | join _ _ => exact h.setClient pc rfl rfl rfl rfl rfl
      | set =>
          refine EventQueue.OneWorker.of_quiet h.created
            (fun hinit => by cases hinit) ?_
          exact hlocked.quiet (congrArg ClientPc.holdsLock pc)
            (by split <;> rfl)

theorem WorkerStep.oneWorker (step : WorkerStep faulty j queue after)
    (h : queue.OneWorker) (hlocked : queue.Locked) : after.OneWorker := by
  cases step with
  | stopping pc step =>
      cases step with
      | read | lock _ | join _ _ => exact ⟨h.created, h.creating, h.made, h.init⟩
      | set => rcases hlocked.waits j _ pc with hpc | ⟨_, hpc⟩ <;> cases hpc
  | _ => exact ⟨h.created, h.creating, h.made, h.init⟩

theorem EventQueue.TimelySteps.oneWorker
    (h : newEventQueue.TimelySteps faulty queue) : queue.OneWorker := by
  induction h with
  | refl => exact newEventQueue_oneWorker
  | tail hsteps step ih =>
      have hlocked := EventQueue.Reachable.locked
        (EventQueue.TimelySteps.steps hsteps)
      cases step.1 with
      | client i hstep => exact hstep.oneWorker ih hlocked step.2
      | worker j hstep => exact hstep.oneWorker ih hlocked

theorem EventQueue.Step.stop (step : queue.Step faulty after)
    (h : queue.OneWorker) (hstop : queue.state = .stop) :
    after.state = .stop := by
  cases step with
  | client i step =>
      cases step with
      | startRun pc =>
          have hinit := (h.made i pc).1
          rw [hstop] at hinit
          cases hinit
      | stopping _ step =>
          cases step with
          | set => rfl
          | _ => exact hstop
      | _ => exact hstop
  | worker j step =>
      cases step with
      | stopping _ step =>
          cases step with
          | set => rfl
          | _ => exact hstop
      | _ => exact hstop

/-- Where start calls take the lock in time, there is one worker at most and a
queue that was stopped does not run again. -/
theorem EventQueue.TimelySteps.lifecycle
    (h : newEventQueue.TimelySteps faulty queue) :
    queue.created ≤ 1 ∧ ∀ after, queue.TimelySteps faulty after →
      queue.state = .stop → after.state ≠ .run := by
  refine ⟨h.oneWorker.created, fun after hsteps hstop => ?_⟩
  have hstopped : after.state = .stop := by
    induction hsteps with
    | refl => exact hstop
    | tail hsteps' step ih =>
        exact step.1.stop (EventQueue.TimelySteps.oneWorker
          (Relation.ReflTransGen.trans h hsteps')) ih
  rw [hstopped]
  nofun

/-- One start call, up to the state it sets. -/
theorem lifecycle_run : ∃ queue : EventQueue Unit, queue.state = .run ∧
    queue.created ≤ 1 := by
  have h : (newEventQueue : EventQueue Unit).TimelySteps false newEventQueue :=
    Relation.ReflTransGen.refl
  have h := h.tail ⟨.client 0 (.start () rfl), fun _ _ _ _ => rfl⟩
  have h := h.tail ⟨.client 0 (.startRead rfl rfl), fun _ _ _ _ => rfl⟩
  have h := h.tail ⟨.client 0 (.startLock rfl rfl), fun _ _ _ _ => rfl⟩
  have h := h.tail ⟨.client 0 (.startCreate rfl), fun _ _ _ _ => rfl⟩
  have h := h.tail ⟨.client 0 (.startRun rfl), fun _ _ _ _ => rfl⟩
  exact ⟨_, rfl, (EventQueue.TimelySteps.lifecycle h).1⟩

/-- Two start calls that both look before one of them takes the lock make two
workers. -/
theorem reachable_two_workers : ∃ queue : EventQueue Unit,
    queue.Reachable false ∧ queue.created = 2 := by
  have h : (newEventQueue : EventQueue Unit).Reachable false :=
    Relation.ReflTransGen.refl
  have h := h.client (.start (i := 0) () rfl)
  have h := h.client (.start (i := 1) () rfl)
  have h := h.client (.startRead (i := 0) rfl rfl)
  have h := h.client (.startRead (i := 1) rfl rfl)
  have h := h.client (.startLock (i := 0) rfl rfl)
  have h := h.client (.startCreate (i := 0) rfl)
  have h := h.client (.startRun (i := 0) rfl)
  have h := h.client (.startUnlock (i := 0) rfl)
  have h := h.client (.startLock (i := 1) rfl rfl)
  have h := h.client (.startCreate (i := 1) rfl)
  exact ⟨_, h, rfl⟩

/-- A start call that looked before a stop call makes a stopped queue run. -/
theorem reachable_run_after_stop : ∃ queue after : EventQueue Unit,
    queue.Reachable false ∧ queue.state = .stop ∧
      queue.Steps false after ∧ after.state = .run := by
  have h : (newEventQueue : EventQueue Unit).Reachable false :=
    Relation.ReflTransGen.refl
  have h := h.client (.start (i := 0) () rfl)
  have h := h.client (.startRead (i := 0) rfl rfl)
  have h := h.client (.stop (i := 1) rfl)
  have h := h.client (.stopping (i := 1) rfl .read)
  have h := h.client (.stopping (i := 1) rfl (.lock rfl))
  have h := h.client (.stopping (i := 1) rfl .set)
  obtain ⟨queue, hreach, hstate, hlock, hpc⟩ : ∃ queue : EventQueue Unit,
      queue.Reachable false ∧ queue.state = .stop ∧ queue.lock = none ∧
        queue.clients 0 = .startLock () := ⟨_, h, rfl, rfl, rfl⟩
  have hsteps : queue.Steps false queue := Relation.ReflTransGen.refl
  have hsteps := hsteps.tail (.client 0 (.startLock hpc hlock))
  have hsteps := hsteps.tail (.client 0 (.startCreate (by simp)))
  have hsteps := hsteps.tail (.client 0 (.startRun (by simp)))
  exact ⟨queue, _, hreach, hstate, hsteps, rfl⟩

/-- Both happen in runs of the queue. -/
theorem reachable_not_lifecycle : ¬ ∀ queue : EventQueue Unit,
    queue.Reachable false → queue.created ≤ 1 ∧
      ∀ after, queue.Steps false after → queue.state = .stop →
        after.state ≠ .run := by
  intro hall
  obtain ⟨queue, hreach, hcreated⟩ := reachable_two_workers
  have hle := (hall queue hreach).1
  omega

end Libcad
