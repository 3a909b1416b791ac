/-
Calls of the event queue return.  Writes succeed, and the threads are treated
fairly: a thread that is in a call, or a worker, moves again and again when it
can do so again and again.  So the provider and the functions passed to
`synchronized` return, and nobody is kept from a lock for ever.
-/
import Libcad.EventQueueRuns
import Libcad.Fairness

namespace Libcad

variable {δ : Type}

/-- A move of one thread; writes succeed. -/
def EventQueue.Moves : Thread → EventQueue δ → EventQueue δ → Prop
  | .client i, queue, after => ClientStep i queue after
  | .worker j, queue, after => WorkerStep false j queue after

/-- The thread is in a call, or a worker, and can move. -/
def EventQueue.Due (t : Thread) (queue : EventQueue δ) : Prop :=
  (∀ i, t = .client i → queue.clients i ≠ .idle) ∧
    ∃ after, EventQueue.Moves t queue after

/-- A run of a new queue that is fair to all its threads. -/
structure EventQueue.FairRun (run : ThreadRun (EventQueue.Moves (δ := δ))) :
    Prop where
  start : run.state 0 = newEventQueue
  fair : ∀ t, run.FairTo (EventQueue.Due t) t

variable {queue after : EventQueue δ} {i j k : Nat} {t u : Thread}

theorem EventQueue.Moves.step (h : EventQueue.Moves t queue after) :
    queue.Step false after := by
  cases t with
  | client i => exact .client i h
  | worker j => exact .worker j h

theorem EventQueue.Due.worker
    (h : ∃ after, WorkerStep false j queue after) : Due (.worker j) queue :=
  ⟨fun _ h => (by cases h), h⟩

theorem EventQueue.Due.client (hpc : queue.clients i ≠ .idle)
    (h : ∃ after, ClientStep i queue after) : Due (.client i) queue := by
  refine ⟨?_, h⟩
  rintro _ ⟨⟩
  exact hpc

theorem StopStep.clients_eq {pc pc' : StopPc}
    (h : StopStep t queue pc after pc') : after.clients = queue.clients := by
  cases h <;> rfl

theorem StopStep.workers_eq {pc pc' : StopPc}
    (h : StopStep t queue pc after pc') : after.workers = queue.workers := by
  cases h <;> rfl

theorem ClientStep.clients_ne (h : ClientStep i queue after) (hk : k ≠ i) :
    after.clients k = queue.clients k := by
  cases h with
  | stopping _ step =>
      rw [EventQueue.clients_setClient, Function.update_of_ne hk,
        step.clients_eq]
  | pull _ _ => rfl
  | _ => exact Function.update_of_ne hk _ _

theorem ClientStep.workers_eq (h : ClientStep i queue after)
    (hlocked : queue.Locked) (hpresent : queue.workers j ≠ .absent) :
    after.workers j = queue.workers j := by
  cases h with
  | stopping _ step => exact congrFun step.workers_eq j
  | startCreate _ =>
      refine Function.update_of_ne ?_ _ _
      rintro rfl
      exact hpresent (hlocked.absent _ (Nat.le_refl _))
  | _ => rfl

theorem WorkerStep.clients_eq {faulty : Bool}
    (h : WorkerStep faulty j queue after) : after.clients = queue.clients := by
  cases h with
  | stopping _ step => exact step.clients_eq
  | _ => rfl

theorem WorkerStep.workers_ne {faulty : Bool}
    (h : WorkerStep faulty j queue after) (hk : k ≠ j) :
    after.workers k = queue.workers k := by
  cases h with
  | stopping _ step =>
      rw [EventQueue.workers_setWorker, Function.update_of_ne hk,
        step.workers_eq]
  | _ => exact Function.update_of_ne hk _ _

theorem EventQueue.Moves.clients_eq (h : Moves u queue after)
    (hu : u ≠ .client i) : after.clients i = queue.clients i := by
  cases u with
  | client k => exact h.clients_ne fun hik => hu (hik ▸ rfl)
  | worker j => exact congrFun (WorkerStep.clients_eq h) i

theorem EventQueue.Moves.workers_eq (h : Moves u queue after)
    (hlocked : queue.Locked) (hpresent : queue.workers j ≠ .absent)
    (hu : u ≠ .worker j) : after.workers j = queue.workers j := by
  cases u with
  | client k => exact ClientStep.workers_eq h hlocked hpresent
  | worker k => exact h.workers_ne fun hjk => hu (hjk ▸ rfl)

section

variable {run : ThreadRun (EventQueue.Moves (δ := δ))} {n : Nat}

theorem EventQueue.FairRun.reachable (h : FairRun run) :
    ∀ n, (run.state n).Reachable false := by
  refine ThreadRun.always ?_ fun t queue after hreach hmoves => ?_
  · rw [h.start]
    exact Relation.ReflTransGen.refl
  · exact Relation.ReflTransGen.tail hreach hmoves.step

theorem EventQueue.FairRun.locked (h : FairRun run) (n : Nat) :
    (run.state n).Locked := (h.reachable n).locked

/-- What the moves of the other threads keep is there afterwards. -/
theorem EventQueue.FairRun.stays (h : FairRun run) {P : EventQueue δ → Prop}
    (hkeep : ∀ {queue after : EventQueue δ} {u}, queue.Locked →
      after.Locked → Moves u queue after → u ≠ t → P queue → P after)
    (hn : P (run.state n)) (hmover : run.mover n ≠ some t) :
    P (run.state (n + 1)) := by
  cases hu : run.mover n with
  | none =>
      rw [run.rests n hu]
      exact hn
  | some u =>
      exact hkeep (h.locked n) (h.locked (n + 1)) (run.moves n u hu)
        (fun hut => hmover (hut ▸ hu)) hn

end

section

variable {run : ThreadRun (EventQueue.Moves (δ := δ))}

end

/-- The queue is stopped where a caller joins the worker, and the workers that
were made are there. -/
structure EventQueue.Joining (queue : EventQueue δ) : Prop where
  state : ∀ k, queue.clients k = .stop .join → queue.state = .stop
  present : ∀ j, j < queue.created → queue.workers j ≠ .absent

/-- A caller moves to a place where it does not join the worker. -/
theorem EventQueue.Joining.setClient (h : queue.Joining) {pc : ClientPc δ}
    (hclients : after.clients = queue.clients)
    (hworkers : after.workers = queue.workers)
    (hcreated : after.created = queue.created)
    (hstate : after.state = queue.state) (hpc : pc ≠ .stop .join) :
    (after.setClient i pc).Joining where
  state k hk := by
    rcases EventQueue.setClient_cases (P := fun pc => pc = .stop .join) hk with
      ⟨-, hk⟩ | ⟨-, hk⟩
    · exact absurd hk hpc
    · exact hstate.trans (h.state k (hclients ▸ hk))
  present j hj := by
    have hj : j < queue.created := hcreated ▸ hj
    rw [EventQueue.workers_setClient, hworkers]
    exact h.present j hj

theorem WorkerStep.state_eq (step : WorkerStep false j queue after)
    (hstop : ∀ pc, queue.workers j ≠ .stop pc) : after.state = queue.state := by
  cases step with
  | stopping pc _ => exact absurd pc (hstop _)
  | _ => rfl

section

variable {run : ThreadRun (EventQueue.Moves (δ := δ))}

end

theorem EventQueue.Steps.client (h : queue.Steps false after)
    {next : EventQueue δ} (step : ClientStep i after next) :
    queue.Steps false next :=
  Relation.ReflTransGen.tail h (.client i step)

theorem EventQueue.Steps.worker (h : queue.Steps false after)
    {next : EventQueue δ} (step : WorkerStep false j after next) :
    queue.Steps false next :=
  Relation.ReflTransGen.tail h (.worker j step)

theorem EventQueue.Steps.moves (h : queue.Steps false after) :
    Relation.ReflTransGen (fun a b => ∃ t, Moves t a b) queue after := by
  induction h with
  | refl => exact Relation.ReflTransGen.refl
  | tail _ step ih =>
      cases step with
      | client i step => exact ih.tail ⟨.client i, step⟩
      | worker j step => exact ih.tail ⟨.worker j, step⟩

theorem EventQueue.Steps.last (_ : queue.Steps false after) :
    after.Steps false after :=
  Relation.ReflTransGen.refl

end Libcad
