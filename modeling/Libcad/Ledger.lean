/-
A ledger of objects that are handed out, used and released.  Objects are
numbered in the order in which they are handed out; only those that can be
released are owed.
-/
import Mathlib.Data.List.Perm.Basic
import Mathlib.Tactic.Common

namespace Libcad

/-- What happens to an object. -/
inductive LedgerEvent
  | handed (object : Nat)
  | used (object : Nat)
  | released (object : Nat)
deriving Repr, DecidableEq

def LedgerEvent.object : LedgerEvent → Nat
  | .handed object | .used object | .released object => object

/-- What has happened so far, and the number of the next object. -/
structure Ledger where
  next : Nat
  trace : List LedgerEvent
deriving Repr, DecidableEq

namespace Ledger

/-- An object in somebody's hands, and whether it can be released. -/
structure Owned where
  object : Nat
  releasable : Bool
deriving Repr, DecidableEq

def empty : Ledger := ⟨0, []⟩

def record (ledger : Ledger) (event : LedgerEvent) : Ledger :=
  { ledger with trace := ledger.trace ++ [event] }

/-- Hand out a new object, which is owed when it can be released. -/
def hand (ledger : Ledger) (releasable : Bool) : Ledger where
  next := ledger.next + 1
  trace :=
    if releasable then ledger.trace ++ [.handed ledger.next] else ledger.trace

def release (ledger : Ledger) (owned : Owned) : Ledger :=
  if owned.releasable then ledger.record (.released owned.object) else ledger

/-- Nothing happens to an object after its release. -/
def Obeys (trace : List LedgerEvent) : Prop :=
  trace.Pairwise fun a b => ∀ object, a = .released object → b.object ≠ object

/-- Every object owed was released, and only once. -/
def Settled (trace : List LedgerEvent) : Prop :=
  ∀ object, .handed object ∈ trace → trace.count (.released object) = 1

theorem obeys_concat {trace : List LedgerEvent} {event : LedgerEvent} :
    Obeys (trace ++ [event]) ↔
      Obeys trace ∧ .released event.object ∉ trace := by
  rw [Obeys, List.pairwise_append]
  constructor
  · rintro ⟨htrace, -, hlast⟩
    exact ⟨htrace, fun hmem =>
      hlast _ hmem event (List.mem_singleton_self event) _ rfl rfl⟩
  · rintro ⟨htrace, hnot⟩
    refine ⟨htrace, List.pairwise_singleton _ _, ?_⟩
    rintro a ha b hb object rfl rfl
    cases List.mem_singleton.mp hb
    exact hnot ha

theorem Obeys.count_le {trace : List LedgerEvent} (h : Obeys trace)
    (object : Nat) : trace.count (.released object) ≤ 1 := by
  induction trace with
  | nil => exact Nat.zero_le 1
  | cons event trace ih =>
      obtain ⟨hevent, hrest⟩ := List.pairwise_cons.mp h
      rw [List.count_cons]
      split
      next heq =>
        have hnone : trace.count (.released object) = 0 :=
          List.count_eq_zero.mpr fun hmem =>
            hevent _ hmem object (eq_of_beq heq) rfl
        exact Nat.le_of_eq (congrArg (· + 1) hnone)
      next => exact ih hrest

/-- What was released once at least was released exactly once. -/
theorem Obeys.count_eq {trace : List LedgerEvent} (h : Obeys trace)
    {object : Nat} (hmem : .released object ∈ trace) :
    trace.count (.released object) = 1 :=
  Nat.le_antisymm (h.count_le object) (List.count_pos_iff.mpr hmem)

/-- The objects in hand are those that were handed out and not released. -/
structure Accounts (owned : List Owned) (ledger : Ledger) : Prop where
  obeys : Obeys ledger.trace
  known : ∀ event ∈ ledger.trace, event.object < ledger.next
  numbered : ∀ o ∈ owned, o.object < ledger.next
  distinct : owned.Pairwise fun a b => a.object ≠ b.object
  unreleased : ∀ o ∈ owned, .released o.object ∉ ledger.trace
  owed : ∀ o ∈ owned, .handed o.object ∈ ledger.trace ↔ o.releasable = true
  settled : ∀ object, .handed object ∈ ledger.trace →
    .released object ∈ ledger.trace ∨ ∃ o ∈ owned, o.object = object

variable {ledger : Ledger} {owned owned' : List Owned} {o : Owned}

theorem accounts_empty : Accounts [] empty where
  obeys := List.Pairwise.nil
  known _ h := by cases h
  numbered _ h := by cases h
  distinct := List.Pairwise.nil
  unreleased _ h := by cases h
  owed _ h := by cases h
  settled _ h := by cases h

theorem Accounts.perm (h : Accounts owned ledger) (hperm : owned.Perm owned') :
    Accounts owned' ledger where
  obeys := h.obeys
  known := h.known
  numbered o ho := h.numbered o (hperm.mem_iff.mpr ho)
  distinct := hperm.pairwise h.distinct fun hab => Ne.symm hab
  unreleased o ho := h.unreleased o (hperm.mem_iff.mpr ho)
  owed o ho := h.owed o (hperm.mem_iff.mpr ho)
  settled object hobject := by
    obtain hreleased | ⟨o, ho, heq⟩ := h.settled object hobject
    · exact Or.inl hreleased
    · exact Or.inr ⟨o, hperm.mem_iff.mp ho, heq⟩

theorem Accounts.hand (h : Accounts owned ledger) (releasable : Bool) :
    Accounts (⟨ledger.next, releasable⟩ :: owned)
      (ledger.hand releasable) := by
  have hfresh : ∀ event ∈ ledger.trace, event.object ≠ ledger.next :=
    fun event hmem => Nat.ne_of_lt (h.known event hmem)
  have hnew : .released ledger.next ∉ ledger.trace :=
    fun hmem => hfresh _ hmem rfl
  have hmem : ∀ event, event ∈ (ledger.hand releasable).trace ↔
      event ∈ ledger.trace ∨
        (releasable = true ∧ event = .handed ledger.next) := by
    intro event
    cases releasable <;> simp [Ledger.hand]
  refine ⟨?_, ?_, ?_, ?_, ?_, ?_, ?_⟩
  · cases releasable with
    | true => exact obeys_concat.mpr ⟨h.obeys, hnew⟩
    | false => exact h.obeys
  · intro event hevent
    obtain hold | ⟨-, rfl⟩ := (hmem event).mp hevent
    · exact Nat.lt_succ_of_lt (h.known event hold)
    · exact Nat.lt_succ_self ledger.next
  · intro o ho
    obtain rfl | ho := List.mem_cons.mp ho
    · exact Nat.lt_succ_self ledger.next
    · exact Nat.lt_succ_of_lt (h.numbered o ho)
  · exact List.pairwise_cons.mpr
      ⟨fun o ho => Nat.ne_of_gt (h.numbered o ho), h.distinct⟩
  · intro o ho hreleased
    obtain hold | ⟨-, heq⟩ := (hmem _).mp hreleased
    · obtain rfl | ho := List.mem_cons.mp ho
      · exact hnew hold
      · exact h.unreleased o ho hold
    · cases heq
  · intro o ho
    rw [hmem]
    obtain rfl | ho := List.mem_cons.mp ho
    · constructor
      · rintro (hold | ⟨hreleasable, -⟩)
        · exact absurd rfl (hfresh _ hold)
        · exact hreleasable
      · exact fun hreleasable => Or.inr ⟨hreleasable, rfl⟩
    · rw [← h.owed o ho]
      constructor
      · rintro (hold | ⟨-, heq⟩)
        · exact hold
        · have hlt := h.numbered o ho
          rw [LedgerEvent.handed.inj heq] at hlt
          exact absurd hlt (Nat.lt_irrefl _)
      · exact Or.inl
  · intro object hobject
    obtain hold | ⟨-, heq⟩ := (hmem _).mp hobject
    · obtain hreleased | ⟨o, ho, heq⟩ := h.settled object hold
      · exact Or.inl ((hmem _).mpr (Or.inl hreleased))
      · exact Or.inr ⟨o, List.mem_cons_of_mem _ ho, heq⟩
    · cases heq
      exact Or.inr ⟨_, List.mem_cons_self, rfl⟩

theorem mem_record {event event' : LedgerEvent} :
    event' ∈ (ledger.record event).trace ↔
      event' ∈ ledger.trace ∨ event' = event := by
  rw [record, List.mem_append, List.mem_singleton]

theorem Accounts.use (h : Accounts owned ledger) (ho : o ∈ owned) :
    Accounts owned (ledger.record (.used o.object)) where
  obeys := obeys_concat.mpr ⟨h.obeys, h.unreleased o ho⟩
  known event hevent := by
    obtain hold | rfl := mem_record.mp hevent
    · exact h.known event hold
    · exact h.numbered o ho
  numbered := h.numbered
  distinct := h.distinct
  unreleased o' ho' hreleased := by
    obtain hold | heq := mem_record.mp hreleased
    · exact h.unreleased o' ho' hold
    · cases heq
  owed o' ho' := by
    rw [← h.owed o' ho', mem_record]
    exact or_iff_left nofun
  settled object hobject := by
    obtain hold | heq := mem_record.mp hobject
    · obtain hreleased | hin := h.settled object hold
      · exact Or.inl (mem_record.mpr (Or.inl hreleased))
      · exact Or.inr hin
    · cases heq

/-- An object that is released, or that cannot be, is no longer in hand. -/
theorem Accounts.release (h : Accounts (o :: owned) ledger) :
    Accounts owned (ledger.release o) := by
  obtain ⟨hother, hdistinct⟩ := List.pairwise_cons.mp h.distinct
  have hin : o ∈ o :: owned := List.mem_cons_self
  rw [Ledger.release]
  split
  next =>
    refine ⟨obeys_concat.mpr ⟨h.obeys, h.unreleased o hin⟩, ?_, ?_, hdistinct,
      ?_, ?_, ?_⟩
    · intro event hevent
      obtain hold | rfl := mem_record.mp hevent
      · exact h.known event hold
      · exact h.numbered o hin
    · exact fun o' ho' => h.numbered o' (List.mem_cons_of_mem _ ho')
    · intro o' ho' hreleased
      obtain hold | heq := mem_record.mp hreleased
      · exact h.unreleased o' (List.mem_cons_of_mem _ ho') hold
      · exact hother o' ho' (LedgerEvent.released.inj heq).symm
    · intro o' ho'
      rw [← h.owed o' (List.mem_cons_of_mem _ ho'), mem_record]
      exact or_iff_left nofun
    · intro object hobject
      obtain hold | heq := mem_record.mp hobject
      · obtain hreleased | ⟨o', ho', rfl⟩ := h.settled object hold
        · exact Or.inl (mem_record.mpr (Or.inl hreleased))
        · obtain rfl | ho' := List.mem_cons.mp ho'
          · exact Or.inl (mem_record.mpr (Or.inr rfl))
          · exact Or.inr ⟨o', ho', rfl⟩
      · cases heq
  next hno =>
    refine ⟨h.obeys, h.known, ?_, hdistinct, ?_, ?_, ?_⟩
    · exact fun o' ho' => h.numbered o' (List.mem_cons_of_mem _ ho')
    · exact fun o' ho' => h.unreleased o' (List.mem_cons_of_mem _ ho')
    · exact fun o' ho' => h.owed o' (List.mem_cons_of_mem _ ho')
    · intro object hobject
      obtain hreleased | ⟨o', ho', rfl⟩ := h.settled object hobject
      · exact Or.inl hreleased
      · obtain rfl | ho' := List.mem_cons.mp ho'
        · exact absurd ((h.owed o' hin).mp hobject) hno
        · exact Or.inr ⟨o', ho', rfl⟩

/-- The trace tells whether an object in hand can be released. -/
theorem Accounts.releasable_eq (h : Accounts owned ledger) (ho : o ∈ owned) :
    o.releasable = decide (.handed o.object ∈ ledger.trace) := by
  exact Bool.eq_iff_iff.mpr ((h.owed o ho).symm.trans decide_eq_true_iff.symm)

/-- Everything was released when nothing that can be released is in hand. -/
theorem Accounts.settled_iff (h : Accounts owned ledger) :
    Settled ledger.trace ↔ ∀ o ∈ owned, o.releasable = false := by
  constructor
  · intro hsettled o ho
    rw [← Bool.not_eq_true, ← h.owed o ho]
    intro hmem
    have hone := hsettled o.object hmem
    exact h.unreleased o ho (List.count_pos_iff.mp (by rw [hone]; decide))
  · intro hnone object hobject
    obtain hreleased | ⟨o, ho, rfl⟩ := h.settled object hobject
    · exact h.obeys.count_eq hreleased
    · rw [h.owed o ho, hnone o ho] at hobject
      cases hobject

/-- `malloc`: the number of a new block, which is owed. -/
def malloc (ledger : Ledger) : Nat × Ledger :=
  (ledger.next, ledger.hand true)

def free (ledger : Ledger) (block : Nat) : Ledger :=
  ledger.record (.released block)

/-- `free` for each of these blocks in turn. -/
def freeAll (ledger : Ledger) (blocks : List Nat) : Ledger :=
  blocks.foldl free ledger

/-- These blocks are the ones that were handed out and not released. -/
def Holds (ledger : Ledger) (blocks : List Nat) : Prop :=
  Accounts (blocks.map fun block => ⟨block, true⟩) ledger

variable {block : Nat} {blocks blocks' : List Nat}

theorem holds_empty : Holds empty [] := accounts_empty

theorem Holds.perm (h : Holds ledger blocks) (hperm : blocks.Perm blocks') :
    Holds ledger blocks' :=
  Accounts.perm h (hperm.map _)

theorem Holds.malloc (h : Holds ledger blocks) :
    Holds ledger.malloc.2 (ledger.malloc.1 :: blocks) :=
  Accounts.hand h true

theorem Holds.free (h : Holds ledger (block :: blocks)) :
    Holds (ledger.free block) blocks :=
  Accounts.release h

theorem Holds.freeAll (h : Holds ledger (blocks ++ blocks')) :
    Holds (ledger.freeAll blocks) blocks' := by
  induction blocks generalizing ledger with
  | nil => exact h
  | cons block blocks ih => exact ih h.free

theorem Holds.handed (h : Holds ledger blocks) (hblock : block ∈ blocks) :
    .handed block ∈ ledger.trace :=
  (h.owed ⟨block, true⟩ (List.mem_map_of_mem hblock)).mpr rfl

/-- Every block was released once when none is in hand. -/
theorem Holds.settled_iff (h : Holds ledger blocks) :
    Settled ledger.trace ↔ blocks = [] := by
  refine (Accounts.settled_iff h).trans ?_
  cases blocks with
  | nil => simp
  | cons block blocks => simp

theorem freeAll_trace (ledger : Ledger) (blocks : List Nat) :
    (ledger.freeAll blocks).trace = ledger.trace ++ blocks.map .released := by
  induction blocks generalizing ledger with
  | nil => exact (List.append_nil _).symm
  | cons block blocks ih =>
      rw [freeAll, List.foldl_cons, ← freeAll, ih, free, record, List.map_cons,
        List.append_assoc, List.singleton_append]

/-- A block that was released must not be released again. -/
theorem not_settled_twice (hhanded : .handed block ∈ ledger.trace)
    (hreleased : .released block ∈ ledger.trace) (hblock : block ∈ blocks) :
    ¬ Settled (ledger.freeAll blocks).trace := by
  intro hsettled
  rw [freeAll_trace] at hsettled
  have hone := hsettled block (List.mem_append_left _ hhanded)
  have hbefore : 0 < ledger.trace.count (.released block) :=
    List.count_pos_iff.mpr hreleased
  have hagain : 0 < (blocks.map LedgerEvent.released).count
      (.released block) :=
    List.count_pos_iff.mpr (List.mem_map_of_mem hblock)
  rw [List.count_append] at hone
  omega

end Ledger

end Libcad
