/-
Whole runs of the event queue: what holds with one start call, what reaches
the pipe, and when several start calls make one worker.
-/
import Libcad.EventQueueLocks

namespace Libcad

variable {δ : Type} {queue after : EventQueue δ} {faulty : Bool} {i j : Nat}

/-- A start call that has not made its thread yet. -/
def ClientPc.before : ClientPc δ → Bool
  | .startRead _ | .startLock _ | .startCreate => true
  | _ => false

/-- A start call that has not set `STATE_RUN` yet. -/
def ClientPc.starting : ClientPc δ → Bool
  | .startRun => true
  | pc => pc.before

def ClientPc.foundRun : ClientPc δ → Bool
  | .stop (.lock .run) | .stop (.set .run) | .stop .join |
    .stop (.returned .run) => true
  | _ => false

/-- The worker exists and no start call is on its way. -/
structure EventQueue.Started (queue : EventQueue δ) : Prop where
  created : queue.created = 1
  thread : queue.thread = some 0
  done : ∀ k, (queue.clients k).starting = false

/-- What holds as long as there was at most one start call. -/
structure EventQueue.OneStart (queue : EventQueue δ) : Prop where
  created : queue.created ≤ 1
  fresh : queue.starts = 0 →
    queue.created = 0 ∧ ∀ k, (queue.clients k).starting = false
  single : ∀ i k, (queue.clients i).starting = true →
    (queue.clients k).starting = true → i = k
  before : ∀ k, (queue.clients k).before = true → queue.created = 0
  made : ∀ k, queue.clients k = .startRun →
    queue.created = 1 ∧ queue.thread = some 0
  running : queue.state = .run → queue.Started
  found : ∀ k, (queue.clients k).foundRun = true → queue.Started
  joined : ∀ k, queue.clients k = .stop (.returned .run) →
    queue.workers 0 = .ended

/-- What holds of a caller after one caller has moved. -/
theorem EventQueue.setClient_cases {P : ClientPc δ → Prop} {pc : ClientPc δ}
    {k : Nat} (h : P ((queue.setClient i pc).clients k)) :
    (k = i ∧ P pc) ∨ (k ≠ i ∧ P (queue.clients k)) := by
  by_cases hki : k = i
  · subst hki
    rw [EventQueue.clients_setClient, Function.update_self] at h
    exact Or.inl ⟨rfl, h⟩
  · rw [EventQueue.clients_setClient, Function.update_of_ne hki] at h
    exact Or.inr ⟨hki, h⟩

theorem newEventQueue_oneStart : (newEventQueue : EventQueue δ).OneStart where
  created := Nat.zero_le 1
  fresh _ := ⟨rfl, fun _ => rfl⟩
  single _ _ h := nomatch h
  before _ h := nomatch h
  made _ h := nomatch h
  running h := nomatch h
  found _ h := nomatch h
  joined _ h := nomatch h

theorem ClientStep.starts_le (step : ClientStep i queue after) :
    queue.starts ≤ after.starts := by
  cases step with
  | start data _ => exact Nat.le_succ _
  | stopping _ step => cases step <;> exact Nat.le_refl _
  | _ => exact Nat.le_refl _

theorem WorkerStep.starts_eq (step : WorkerStep faulty j queue after) :
    after.starts = queue.starts := by
  cases step with
  | stopping _ step => cases step <;> rfl
  | _ => rfl

theorem EventQueue.Steps.starts_le (h : queue.Steps faulty after) :
    queue.starts ≤ after.starts := by
  induction h with
  | refl => exact Nat.le_refl _
  | tail _ step ih =>
      cases step with
      | client i step => exact Nat.le_trans ih step.starts_le
      | worker j step => exact step.starts_eq ▸ ih

/-- With one start call on its way or none, the worker does not exist yet
where the call has not made it. -/
theorem EventQueue.OneStart.not_started (h : queue.OneStart)
    (hcreated : queue.created = 0) : queue.state ≠ .run ∧
      ∀ k, (queue.clients k).foundRun = false := by
  have hnot : ¬ queue.Started := fun hs => by
    rw [hs.created] at hcreated
    cases hcreated
  refine ⟨fun hrun => hnot (h.running hrun), fun k => ?_⟩
  by_contra hk
  exact hnot (h.found k (Bool.not_eq_false _ ▸ hk))

/-- A caller that is not in a start call, or does not move in it. -/
theorem EventQueue.OneStart.setClient (h : queue.OneStart)
    {pc pc' : ClientPc δ} (hpc : queue.clients i = pc)
    (hclients : after.clients = queue.clients)
    (hworkers : after.workers = queue.workers)
    (hstarts : after.starts = queue.starts)
    (hcreated : after.created = queue.created)
    (hthread : after.thread = queue.thread)
    (hstate : after.state = .run → queue.state = .run)
    (hstarting : pc'.starting = true → pc.starting = true)
    (hbefore : pc'.before = true → pc.before = true)
    (hmade : pc' = .startRun → pc = .startRun)
    (hfound : pc'.foundRun = true → pc.foundRun = true ∨ queue.state = .run)
    (hjoined : pc' = .stop (.returned .run) → queue.workers 0 = .ended) :
    (after.setClient i pc').OneStart := by
  subst hpc
  have hstarting' : ∀ k, ((after.setClient i pc').clients k).starting = true →
      (queue.clients k).starting = true := by
    intro k hk
    rcases EventQueue.setClient_cases (P := fun pc => pc.starting = true) hk
      with ⟨heq, hk⟩ | ⟨-, hk⟩
    · exact heq ▸ hstarting hk
    · exact hclients ▸ hk
  have hdone : (∀ k, (queue.clients k).starting = false) →
      ∀ k, ((after.setClient i pc').clients k).starting = false := by
    intro hall k
    by_contra hk
    have hold := hstarting' k (Bool.not_eq_false _ ▸ hk)
    rw [hall k] at hold
    cases hold
  have hstarted : queue.Started → (after.setClient i pc').Started := fun hs =>
    ⟨hcreated.trans hs.created, hthread.trans hs.thread, hdone hs.done⟩
  refine ⟨hcreated ▸ h.created, ?_, ?_, ?_, ?_, ?_, ?_, ?_⟩
  · intro hzero
    obtain ⟨hc, hall⟩ := h.fresh (hstarts ▸ hzero)
    exact ⟨hcreated.trans hc, hdone hall⟩
  · exact fun k l hk hl => h.single k l (hstarting' k hk) (hstarting' l hl)
  · intro k hk
    refine hcreated.trans ?_
    rcases EventQueue.setClient_cases (P := fun pc => pc.before = true) hk
      with ⟨-, hk⟩ | ⟨-, hk⟩
    · exact h.before i (hbefore hk)
    · exact h.before k (hclients ▸ hk)
  · intro k hk
    have hold : queue.clients k = .startRun := by
      rcases EventQueue.setClient_cases (P := fun pc => pc = .startRun) hk
        with ⟨heq, hk⟩ | ⟨-, hk⟩
      · exact heq ▸ hmade hk
      · exact hclients ▸ hk
    obtain ⟨hc, ht⟩ := h.made k hold
    exact ⟨hcreated.trans hc, hthread.trans ht⟩
  · exact fun hrun => hstarted (h.running (hstate hrun))
  · intro k hk
    rcases EventQueue.setClient_cases (P := fun pc => pc.foundRun = true) hk
      with ⟨-, hk⟩ | ⟨-, hk⟩
    · rcases hfound hk with hold | hrun
      · exact hstarted (h.found i hold)
      · exact hstarted (h.running hrun)
    · exact hstarted (h.found k (hclients ▸ hk))
  · intro k hk
    change after.workers 0 = .ended
    rw [hworkers]
    rcases EventQueue.setClient_cases
      (P := fun pc => pc = .stop (.returned .run)) hk with ⟨-, hk⟩ | ⟨-, hk⟩
    · exact hjoined hk
    · exact h.joined k (hclients ▸ hk)

theorem EventQueue.OneStart.start (h : queue.OneStart)
    (hzero : queue.starts = 0) (data : δ) :
    ({ queue with starts := queue.starts + 1 }.setClient i
      (.startRead data)).OneStart := by
  obtain ⟨hcreated, hall⟩ := h.fresh hzero
  obtain ⟨hrun, hfound⟩ := h.not_started hcreated
  have honly : ∀ k, (({ queue with starts := queue.starts + 1 }.setClient i
      (.startRead data)).clients k).starting = true → k = i := by
    intro k hk
    rcases EventQueue.setClient_cases (P := fun pc => pc.starting = true) hk
      with ⟨hki, -⟩ | ⟨-, hk⟩
    · exact hki
    · exact absurd (hall k) (ne_of_eq_of_ne hk Bool.true_eq_false.mp)
  refine ⟨h.created, nofun, fun k l hk hl => (honly k hk).trans (honly l hl).symm,
    fun _ _ => hcreated, ?_, fun h => absurd h hrun, ?_, ?_⟩
  · intro k hk
    rcases EventQueue.setClient_cases (P := fun pc => pc = .startRun) hk
      with ⟨-, hk⟩ | ⟨-, hk⟩
    · cases hk
    · have hstart := hall k
      rw [show queue.clients k = .startRun from hk] at hstart
      cases hstart
  · intro k hk
    rcases EventQueue.setClient_cases (P := fun pc => pc.foundRun = true) hk
      with ⟨-, hk⟩ | ⟨-, hk⟩
    · cases hk
    · exact absurd (hfound k) (ne_of_eq_of_ne hk Bool.true_eq_false.mp)
  · intro k hk
    rcases EventQueue.setClient_cases
      (P := fun pc => pc = .stop (.returned .run)) hk with ⟨-, hk⟩ | ⟨-, hk⟩
    · cases hk
    · have hnot := hfound k
      rw [show queue.clients k = .stop (.returned .run) from hk] at hnot
      cases hnot

theorem EventQueue.OneStart.create (h : queue.OneStart)
    (pc : queue.clients i = .startCreate) :
    (({ queue with
        thread := some queue.created,
        created := queue.created + 1 }.setWorker queue.created
      .waitStart).setClient i .startRun).OneStart := by
  have hcreated := h.before i (congrArg ClientPc.before pc)
  obtain ⟨hrun, hfound⟩ := h.not_started hcreated
  have hstarting : (queue.clients i).starting = true :=
    congrArg ClientPc.starting pc
  have honly : ∀ k, (queue.clients k).starting = true → k = i :=
    fun k hk => h.single k i hk hstarting
  have hbefore : ∀ k, k ≠ i → (queue.clients k).before = true → False := by
    intro k hki hk
    refine hki (honly k ?_)
    cases hclient : queue.clients k <;>
      simp_all [ClientPc.starting, ClientPc.before]
  refine ⟨?_, ?_, ?_, ?_, ?_, fun h => absurd h hrun, ?_, ?_⟩
  · change queue.created + 1 ≤ 1
    omega
  · intro hzero
    have hall := (h.fresh hzero).2 i
    rw [hstarting] at hall
    cases hall
  · intro k l hk hl
    rcases EventQueue.setClient_cases (P := fun pc => pc.starting = true) hk
      with ⟨hki, -⟩ | ⟨-, hk⟩ <;>
    rcases EventQueue.setClient_cases (P := fun pc => pc.starting = true) hl
      with ⟨hli, -⟩ | ⟨-, hl⟩
    · exact hki.trans hli.symm
    · exact hki.trans (honly l hl).symm
    · exact (honly k hk).trans hli.symm
    · exact (honly k hk).trans (honly l hl).symm
  · intro k hk
    rcases EventQueue.setClient_cases (P := fun pc => pc.before = true) hk
      with ⟨-, hk⟩ | ⟨hki, hk⟩
    · cases hk
    · exact absurd (hbefore k hki hk) id
  · intro k _
    have hc : queue.created + 1 = 1 := by omega
    have ht : some queue.created = some 0 := by rw [hcreated]
    exact ⟨hc, ht⟩
  · intro k hk
    rcases EventQueue.setClient_cases (P := fun pc => pc.foundRun = true) hk
      with ⟨-, hk⟩ | ⟨-, hk⟩
    · cases hk
    · exact absurd (hfound k) (ne_of_eq_of_ne hk Bool.true_eq_false.mp)
  · intro k hk
    rcases EventQueue.setClient_cases
      (P := fun pc => pc = .stop (.returned .run)) hk with ⟨-, hk⟩ | ⟨-, hk⟩
    · cases hk
    · have hnot := hfound k
      rw [show queue.clients k = .stop (.returned .run) from hk] at hnot
      cases hnot

theorem EventQueue.OneStart.run (h : queue.OneStart)
    (pc : queue.clients i = .startRun) :
    ({ queue with state := .run }.setClient i .startUnlock).OneStart := by
  obtain ⟨hcreated, hthread⟩ := h.made i pc
  have hdone : ∀ k, (({ queue with state := .run }.setClient i
      .startUnlock : EventQueue δ).clients k).starting = false := by
    intro k
    by_contra hk
    rcases EventQueue.setClient_cases (P := fun pc => pc.starting = true)
      (Bool.not_eq_false _ ▸ hk) with ⟨-, hk⟩ | ⟨hki, hk⟩
    · cases hk
    · exact hki (h.single k i hk (congrArg ClientPc.starting pc))
  have hstarted : (({ queue with state := .run }.setClient i
      .startUnlock : EventQueue δ)).Started := ⟨hcreated, hthread, hdone⟩
  refine ⟨h.created, ?_, ?_, ?_, fun _ _ => ⟨hcreated, hthread⟩, fun _ => hstarted,
    fun _ _ => hstarted, ?_⟩
  · intro hzero
    rw [(h.fresh hzero).1] at hcreated
    cases hcreated
  · intro k _ hk
    rw [hdone k] at hk
    cases hk
  · intro k hk
    rcases EventQueue.setClient_cases (P := fun pc => pc.before = true) hk
      with ⟨-, hk⟩ | ⟨-, hk⟩
    · cases hk
    · rw [h.before k hk] at hcreated
      cases hcreated
  · intro k hk
    rcases EventQueue.setClient_cases
      (P := fun pc => pc = .stop (.returned .run)) hk with ⟨-, hk⟩ | ⟨-, hk⟩
    · cases hk
    · exact h.joined k hk

theorem ClientStep.oneStart (step : ClientStep i queue after)
    (h : queue.OneStart) (hone : after.starts ≤ 1) : after.OneStart := by
  cases step with
  | start data pc =>
      have hle : queue.starts + 1 ≤ 1 := hone
      exact h.start (by omega) data
  | startCreate pc => exact h.create pc
  | startRun pc => exact h.run pc
  | pull _ _ =>
      exact ⟨h.created, h.fresh, h.single, h.before, h.made,
        fun hrun => ⟨(h.running hrun).1, (h.running hrun).2, (h.running hrun).3⟩,
        fun k hk => ⟨(h.found k hk).1, (h.found k hk).2, (h.found k hk).3⟩,
        h.joined⟩
  | startRead pc _ | startLock pc _ =>
      exact h.setClient pc rfl rfl rfl rfl rfl id (fun _ => rfl) (fun _ => rfl)
        nofun nofun nofun
  | startLate pc _ | startFail pc | startUnlock pc | stop pc | stopped pc
  | synchronized pc | syncLock pc _ | syncUnlock pc =>
      exact h.setClient pc rfl rfl rfl rfl rfl id nofun nofun nofun nofun nofun
  | stopping pc step =>
      cases step with
      | read =>
          refine h.setClient pc rfl rfl rfl rfl rfl id nofun nofun nofun ?_ nofun
          intro hfound
          refine Or.inr ?_
          cases hstate : queue.state <;> simp_all [ClientPc.foundRun]
      | lock _ =>
          refine h.setClient pc rfl rfl rfl rfl rfl id nofun nofun nofun ?_ nofun
          intro hfound
          refine Or.inl ?_
          rename_i state _
          cases state <;> simp_all [ClientPc.foundRun]
      | set =>
          rename_i state
          refine h.setClient pc rfl rfl rfl rfl rfl nofun ?_ ?_ ?_ ?_ ?_
          all_goals cases state <;> simp [ClientPc.starting, ClientPc.before,
            ClientPc.foundRun]
      | @join k thread ended =>
          have hstarted : queue.Started := h.found i (by rw [pc]; rfl)
          refine h.setClient pc rfl rfl rfl rfl rfl id nofun nofun nofun
            (fun _ => Or.inl rfl) fun _ => ?_
          rw [hstarted.thread] at thread
          cases thread
          exact ended

/-- The callers stay where they are while a worker moves. -/
theorem EventQueue.OneStart.setWorker (h : queue.OneStart) {pc : WorkerPc}
    (hclients : after.clients = queue.clients)
    (hworkers : after.workers = queue.workers)
    (hstarts : after.starts = queue.starts)
    (hcreated : after.created = queue.created)
    (hthread : after.thread = queue.thread)
    (hstate : after.state = .run → queue.state = .run)
    (hpc : queue.workers j ≠ .ended) : (after.setWorker j pc).OneStart := by
  have hstarted : queue.Started → (after.setWorker j pc).Started := fun hs =>
    ⟨hcreated.trans hs.created, hthread.trans hs.thread,
      fun k => (congrArg (fun c => (c k).starting) hclients).trans (hs.done k)⟩
  have hclients' : (after.setWorker j pc).clients = queue.clients := hclients
  refine ⟨hcreated ▸ h.created, ?_, ?_, ?_, ?_,
    fun hrun => hstarted (h.running (hstate hrun)), ?_, ?_⟩
  · intro hzero
    rw [hclients']
    obtain ⟨hc, hall⟩ := h.fresh (hstarts ▸ hzero)
    exact ⟨hcreated.trans hc, hall⟩
  · rw [hclients']
    exact h.single
  · rw [hclients']
    exact fun k hk => hcreated.trans (h.before k hk)
  · rw [hclients']
    exact fun k hk =>
      ⟨hcreated.trans (h.made k hk).1, hthread.trans (h.made k hk).2⟩
  · rw [hclients']
    exact fun k hk => hstarted (h.found k hk)
  · rw [hclients']
    intro k hk
    have hended := h.joined k hk
    have hne : 0 ≠ j := fun hj => hpc (hj ▸ hended)
    rw [EventQueue.workers_setWorker, Function.update_of_ne hne, hworkers]
    exact hended

theorem WorkerStep.oneStart (step : WorkerStep faulty j queue after)
    (h : queue.OneStart) : after.OneStart := by
  cases step with
  | waitStart pc _ | loopRun pc _ | loopEnd pc _ | pollReady pc | pollIdle pc
  | lock pc _ | checkRun pc _ | checkStop pc _ | syncLock pc _ | provide _ pc
  | syncUnlock pc | write pc | writeShort _ pc _ _ | stopped pc | unlock pc
  | pause pc =>
      exact h.setWorker rfl rfl rfl rfl rfl id (by rw [pc]; nofun)
  | stopping pc step =>
      have hpc : queue.workers j ≠ .ended := by
        rw [pc]
        nofun
      cases step with
      | read | lock _ | join _ _ =>
          exact h.setWorker rfl rfl rfl rfl rfl id hpc
      | set => exact h.setWorker rfl rfl rfl rfl rfl nofun hpc

theorem EventQueue.Reachable.oneStart (h : queue.Reachable faulty)
    (hone : queue.starts ≤ 1) : queue.OneStart := by
  induction h with
  | refl => exact newEventQueue_oneStart
  | tail hreach step ih =>
      cases step with
      | client i step =>
          exact step.oneStart (ih (Nat.le_trans step.starts_le hone)) hone
      | worker j step => exact step.oneStart (ih (step.starts_eq ▸ hone))

/-- The one worker has ended and there will be no other. -/
structure EventQueue.Quiet (queue : EventQueue δ) : Prop where
  started : queue.Started
  ended : queue.workers 0 = .ended

theorem WorkerStep.eq_zero (step : WorkerStep faulty j queue after)
    (hlocked : queue.Locked) (hcreated : queue.created ≤ 1) : j = 0 := by
  have hpresent : queue.workers j ≠ .absent := by
    intro habsent
    cases step <;> simp_all
  by_contra hne
  exact hpresent (hlocked.absent j (by omega))

theorem WorkerStep.not_ended (step : WorkerStep faulty j queue after) :
    queue.workers j ≠ .ended := by
  intro hended
  cases step <;> simp_all

theorem EventQueue.Quiet.step (h : queue.Quiet) (hreach : queue.Reachable faulty)
    (step : queue.Step faulty after) (hone : after.starts ≤ 1) :
    after.Quiet ∧ after.calls = queue.calls := by
  cases step with
  | worker j step =>
      have hj := step.eq_zero hreach.locked (Nat.le_of_eq h.started.created)
      subst hj
      exact absurd h.ended step.not_ended
  | client i step =>
      have hbefore := hreach.oneStart (Nat.le_trans step.starts_le hone)
      have hafter := step.oneStart hbefore hone
      have hquiet : ∀ pc, queue.clients i = pc → pc.starting = false := by
        rintro pc rfl
        exact h.started.done i
      have hdone : ∀ pc', pc'.starting = false →
          ∀ k, (Function.update queue.clients i pc' k).starting = false := by
        intro pc' hpc' k
        by_cases hki : k = i
        · subst hki
          rwa [Function.update_self]
        · rw [Function.update_of_ne hki]
          exact h.started.done k
      have hkeep : ∀ pc', pc'.starting = false →
          ∀ q : EventQueue δ, q.created = queue.created →
            q.thread = queue.thread → q.clients = queue.clients →
            q.workers = queue.workers → (q.setClient i pc').Quiet := by
        intro pc' hpc' q hcreated hthread hclients hworkers
        refine ⟨⟨hcreated.trans h.started.created,
          hthread.trans h.started.thread, ?_⟩, ?_⟩
        · rw [EventQueue.clients_setClient, hclients]
          exact hdone pc' hpc'
        · exact (congrFun hworkers 0).trans h.ended
      cases step with
      | start data pc =>
          have hcreated := (hbefore.fresh (by
            have hle : queue.starts + 1 ≤ 1 := hone
            omega)).1
          rw [h.started.created] at hcreated
          cases hcreated
      | startRead pc _ | startLock pc _ | startCreate pc | startRun pc =>
          cases hquiet _ pc
      | startLate pc _ | startFail pc => cases hquiet _ pc
      | startUnlock pc | stop pc | stopped pc | synchronized pc | syncLock pc _
      | syncUnlock pc => exact ⟨hkeep _ rfl _ rfl rfl rfl rfl, rfl⟩
      | pull _ _ =>
          exact ⟨⟨⟨h.started.created, h.started.thread, h.started.done⟩,
            h.ended⟩, rfl⟩
      | stopping pc step =>
          cases step with
          | read | lock _ | join _ _ =>
              exact ⟨hkeep _ rfl _ rfl rfl rfl rfl, rfl⟩
          | set =>
              exact ⟨hkeep _ (by split <;> rfl) _ rfl rfl rfl rfl, rfl⟩

theorem EventQueue.Quiet.steps (h : queue.Quiet)
    (hreach : queue.Reachable faulty) (hsteps : queue.Steps faulty after)
    (hone : after.starts ≤ 1) : after.Quiet ∧ after.calls = queue.calls := by
  induction hsteps with
  | refl => exact ⟨h, rfl⟩
  | @tail mid last hmid step ih =>
      have hle : mid.starts ≤ last.starts :=
        EventQueue.Steps.starts_le (Relation.ReflTransGen.single step)
      obtain ⟨hquiet, hcalls⟩ := ih (Nat.le_trans hle hone)
      obtain ⟨hquiet', hcalls'⟩ := hquiet.step (hreach.steps hmid) step hone
      exact ⟨hquiet', hcalls'.trans hcalls⟩

/-- The provider never runs at the same time as a function passed to
`synchronized`, and is not called any more when a stop call that found the
queue running has returned. -/
theorem EventQueue.Reachable.critical (h : queue.Reachable faulty) :
    (∀ i j, queue.workers j = .provide → queue.clients i ≠ .synchronized) ∧
      ∀ i after, queue.clients i = .stop (.returned .run) →
        queue.Steps faulty after → after.starts ≤ 1 →
        after.calls = queue.calls := by
  refine ⟨fun i j hj => h.exclusive hj, fun i after hi hsteps hone => ?_⟩
  have hbefore := h.oneStart (Nat.le_trans hsteps.starts_le hone)
  have hquiet : queue.Quiet :=
    ⟨hbefore.found i (by rw [hi]; rfl), hbefore.joined i hi⟩
  exact (hquiet.steps h hsteps hone).2

/-- A stop call that found the queue running and has returned. -/
theorem critical_stopped : ∃ queue after : EventQueue Unit,
    queue.clients 0 = .stop (.returned .run) ∧ queue.Steps true after ∧
      after.clients 0 = .idle ∧ after.calls = queue.calls := by
  have h : (newEventQueue : EventQueue Unit).Reachable true :=
    Relation.ReflTransGen.refl
  have h := h.client (.start (i := 0) () rfl)
  have h := h.client (.startRead (i := 0) rfl rfl)
  have h := h.client (.startLock (i := 0) rfl rfl)
  have h := h.client (.startCreate (i := 0) rfl)
  have h := h.client (.startRun (i := 0) rfl)
  have h := h.client (.startUnlock (i := 0) rfl)
  have h := h.worker (.waitStart (j := 0) rfl nofun)
  have h := h.client (.stop (i := 0) rfl)
  have h := h.client (.stopping (i := 0) rfl .read)
  have h := h.client (.stopping (i := 0) rfl (.lock rfl))
  have h := h.client (.stopping (i := 0) rfl .set)
  have h := h.worker (.loopEnd (j := 0) rfl nofun)
  have h := h.client (.stopping (i := 0) rfl (.join rfl rfl))
  obtain ⟨queue, hreach, hpc, hstarts⟩ : ∃ queue : EventQueue Unit,
      queue.Reachable true ∧ queue.clients 0 = .stop (.returned .run) ∧
        queue.starts ≤ 1 := ⟨_, h, rfl, Nat.le_refl 1⟩
  have hsteps : queue.Steps true (queue.setClient 0 .idle) :=
    .single (.client 0 (.stopped hpc))
  exact ⟨queue, _, hpc, hsteps, by simp,
    hreach.critical.2 0 _ hpc hsteps hstarts⟩

/-- The item a worker holds between the provider's return and its write. -/
def WorkerPc.item : WorkerPc → List Pointer
  | .syncUnlock data => if data = Pointer.null then [] else [data]
  | .write data => [data]
  | _ => []

/-- The items pulled, in the pipe and with the worker are those provided. -/
def EventQueue.Lossless (queue : EventQueue δ) (queued : List Pointer) : Prop :=
  Pointer.null ∉ queued ++ (queue.workers 0).item ∧
    queue.pipe = queued.flatMap Pointer.bytes ∧
    queue.pulled ++ queued ++ (queue.workers 0).item = queue.provided

theorem pullResult_bytes {data : Pointer} (h : data ≠ .null) :
    pullResult data.bytes = some data := by
  rw [pullResult, dif_pos data.size]
  exact if_neg h

theorem EventQueue.Lossless.pull {queued : List Pointer}
    (h : queue.Lossless queued) (hready : queue.pipe ≠ []) :
    ∃ rest, EventQueue.Lossless
      { queue with
        pipe := queue.pipe.drop pointerSize,
        pulled := queue.pulled ++
          (pullResult (queue.pipe.take pointerSize)).toList } rest := by
  obtain ⟨hnull, hpipe, hall⟩ := h
  cases queued with
  | nil => exact absurd hpipe hready
  | cons data rest =>
      obtain ⟨hdata, hrest⟩ := List.ne_and_not_mem_of_not_mem_cons hnull
      rw [List.flatMap_cons] at hpipe
      have htake : queue.pipe.take pointerSize = data.bytes := by
        rw [hpipe, ← data.size, List.take_left]
      have hdrop : queue.pipe.drop pointerSize = rest.flatMap Pointer.bytes := by
        rw [hpipe, ← data.size, List.drop_left]
      refine ⟨rest, hrest, hdrop, ?_⟩
      dsimp only
      rw [htake, pullResult_bytes hdata.symm, ← hall]
      simp

/-- The worker moves without taking an item or giving one away. -/
theorem EventQueue.Lossless.setWorker {queued : List Pointer}
    (h : queue.Lossless queued) {pc : WorkerPc}
    (hpipe : after.pipe = queue.pipe) (hpulled : after.pulled = queue.pulled)
    (hprovided : after.provided = queue.provided)
    (hitem : pc.item = (queue.workers 0).item) :
    (after.setWorker 0 pc).Lossless queued := by
  have hitem' : ((after.setWorker 0 pc).workers 0).item =
      (queue.workers 0).item := by
    rw [EventQueue.workers_setWorker, Function.update_self, hitem]
  refine ⟨hitem' ▸ h.1, hpipe.trans h.2.1, ?_⟩
  rw [hitem']
  change after.pulled ++ queued ++ _ = after.provided
  rw [hpulled, hprovided]
  exact h.2.2

theorem WorkerStep.lossless (step : WorkerStep false 0 queue after)
    {queued : List Pointer} (h : queue.Lossless queued)
    (hstop : ∀ pc, queue.workers 0 ≠ .stop pc) :
    ∃ queued, after.Lossless queued := by
  cases step with
  | waitStart pc _ | loopRun pc _ | loopEnd pc _ | pollReady pc | pollIdle pc
  | lock pc _ | checkRun pc _ | checkStop pc _ | syncLock pc _ | pause pc =>
      exact ⟨queued, h.setWorker rfl rfl rfl (by rw [pc]; rfl)⟩
  | unlock pc =>
      exact ⟨queued, h.setWorker rfl rfl rfl (by rw [pc]; split <;> rfl)⟩
  | stopping pc _ => exact absurd pc (hstop _)
  | stopped pc => exact absurd pc (hstop _)
  | writeShort _ _ _ fault => cases fault
  | provide data pc =>
      obtain ⟨hnull, hpipe, hall⟩ := h
      rw [pc] at hnull hall
      refine ⟨queued, ?_, hpipe, ?_⟩
      · rw [EventQueue.workers_setWorker, Function.update_self]
        by_cases hdata : data = Pointer.null
        · simpa [WorkerPc.item, hdata] using hnull
        · simpa [WorkerPc.item, hdata, Ne.symm hdata] using hnull
      · rw [EventQueue.workers_setWorker, Function.update_self]
        change queue.pulled ++ queued ++ _ = queue.provided ++ _
        rw [← hall]
        simp [WorkerPc.item]
  | @syncUnlock data pc =>
      refine ⟨queued, h.setWorker rfl rfl rfl ?_⟩
      rw [pc]
      by_cases hdata : data = Pointer.null
      · simp [WorkerPc.item, hdata]
      · simp [WorkerPc.item, hdata]
  | @write data pc =>
      obtain ⟨hnull, hpipe, hall⟩ := h
      rw [pc] at hnull hall
      refine ⟨queued ++ [data], ?_, ?_, ?_⟩
      · rw [EventQueue.workers_setWorker, Function.update_self]
        simpa [WorkerPc.item] using hnull
      · change queue.pipe ++ data.bytes = _
        rw [hpipe, List.flatMap_append, List.flatMap_singleton]
      · rw [EventQueue.workers_setWorker, Function.update_self]
        change queue.pulled ++ (queued ++ [data]) ++ _ = queue.provided
        rw [← hall]
        simp [WorkerPc.item]

theorem ClientStep.lossless (step : ClientStep i queue after)
    {queued : List Pointer} (h : queue.Lossless queued)
    (habsent : queue.created = 0 → queue.workers 0 = .absent) :
    ∃ queued, after.Lossless queued := by
  cases step with
  | start data _ => exact ⟨queued, h⟩
  | pull _ ready => exact h.pull ready
  | stopping _ step => cases step <;> exact ⟨queued, h⟩
  | startCreate pc =>
      -- A new worker holds nothing.
      have hworker : (Function.update queue.workers queue.created
          WorkerPc.waitStart 0).item = (queue.workers 0).item := by
        by_cases hzero : queue.created = 0
        · rw [hzero, Function.update_self, habsent hzero]
          rfl
        · rw [Function.update_of_ne (Ne.symm hzero)]
      refine ⟨queued, ?_, h.2.1, ?_⟩
      · change _ ∉ queued ++ (Function.update queue.workers queue.created
          WorkerPc.waitStart 0).item
        exact hworker ▸ h.1
      · change queue.pulled ++ queued ++ (Function.update queue.workers
          queue.created WorkerPc.waitStart 0).item = _
        exact hworker ▸ h.2.2
  | _ => exact ⟨queued, h⟩

/-- With one worker and writes that succeed nothing is lost, duplicated or
reordered on the way from the provider through the pipe. -/
theorem EventQueue.Reachable.fifo (h : queue.Reachable false)
    (hone : queue.starts ≤ 1) : ∃ queued : List Pointer,
    queue.pipe = queued.flatMap Pointer.bytes ∧
      queue.pulled ++ queued ++ (queue.workers 0).item = queue.provided ∧
      (queue.workers 0 = .ended → queue.pulled ++ queued = queue.provided) := by
  have hlossless : ∃ queued, queue.Lossless queued := by
    induction h with
    | refl => exact ⟨[], nofun, rfl, rfl⟩
    | tail hreach step ih =>
        cases step with
        | client i step =>
            obtain ⟨queued, hq⟩ := ih (Nat.le_trans step.starts_le hone)
            have hlocked := EventQueue.Reachable.locked hreach
            exact step.lossless hq fun hzero =>
              hlocked.absent 0 (Nat.le_of_eq hzero)
        | worker j step =>
            have hone' := step.starts_eq ▸ hone
            obtain ⟨queued, hq⟩ := ih hone'
            have hone := EventQueue.Reachable.oneStart hreach hone'
            have hj := step.eq_zero (EventQueue.Reachable.locked hreach)
              hone.created
            subst hj
            exact step.lossless hq (EventQueue.Reachable.not_stop hreach 0)
  obtain ⟨queued, -, hpipe, hall⟩ := hlossless
  refine ⟨queued, hpipe, hall, fun hended => ?_⟩
  rw [hended] at hall
  simpa [WorkerPc.item] using hall

/-- A worker with its first item in hand. -/
theorem fifo_write : ∃ queue : EventQueue Unit,
    queue.workers 0 = .write .one ∧ ∃ queued : List Pointer,
      queue.pipe = queued.flatMap Pointer.bytes ∧
        queue.pulled ++ queued ++ [.one] = queue.provided := by
  obtain ⟨queue, h, hpc, -, -, -, hstarts, -⟩ := reachable_write false
  obtain ⟨queued, hpipe, hall, -⟩ := h.fifo (Nat.le_of_eq hstarts)
  rw [hpc] at hall
  exact ⟨queue, hpc, queued, hpipe, hall⟩

end Libcad
