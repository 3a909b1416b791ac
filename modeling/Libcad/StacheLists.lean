/-
How list sections ask for their items.  A callback is made to keep a log of
these calls: each section asks in order, but the closing tag of a section over
an empty list asks it again.
-/
import Libcad.CallLog
import Libcad.StacheReleases

namespace Libcad

open Proc

variable {σ ο τ : Type}

/-- The state behind a callback, the number of the next object it hands out,
and the calls of `list.get` so far. -/
structure Asked (σ : Type) where
  env : σ
  next : Nat
  calls : List ItemCall

def unlogged {β : Type} (f : Option (σ → β × σ)) :
    Option (Asked σ → β × Asked σ) :=
  f.map fun f t => ((f t.env).1, { t with env := (f t.env).2 })

/-- The same lookup, with a number for its object. -/
def Lookup.numbered (number : Nat) : Lookup ο → Lookup (Nat × ο)
  | .notFound => .notFound
  | .string resolved => .string (number, resolved)
  | .list resolved => .list (number, resolved)
  | .stream resolved => .stream (number, resolved)
  | .invalid => .invalid

/-- The same callback; every lookup gets a number of its own. -/
def Callback.asked (cb : Callback σ ο τ) : Callback (Asked σ) (Nat × ο) τ where
  resolve t name :=
    ((cb.resolve t.env name).1.numbered t.next,
      ⟨(cb.resolve t.env name).2, t.next + 1, t.calls⟩)
  stringGet o := unlogged (cb.stringGet o.2)
  stringFree o := unlogged (cb.stringFree o.2)
  listGet o := (cb.listGet o.2).map fun get t index =>
    ((get t.env index).1,
      { t with
        env := (get t.env index).2,
        calls := t.calls ++ [⟨o.1, index, (get t.env index).1⟩] })
  listClose o := unlogged (cb.listClose o.2)
  streamGet o := unlogged (cb.streamGet o.2)
  streamFree o := unlogged (cb.streamFree o.2)

/-- No list was asked for an item. -/
structure Quiet (before after : Asked σ) : Prop where
  calls : after.calls = before.calls
  next : before.next ≤ after.next

theorem Quiet.refl (t : Asked σ) : Quiet t t := ⟨rfl, Nat.le_refl _⟩

theorem Quiet.trans {a b c : Asked σ} (hab : Quiet a b) (hbc : Quiet b c) :
    Quiet a c :=
  ⟨hbc.calls.trans hab.calls, Nat.le_trans hab.next hbc.next⟩

section

variable {cb : Callback σ ο τ} {t t' : Asked σ} {lookup : Lookup (Nat × ο)}

theorem unlogged_quiet {β : Type} (f : Option (σ → β × σ)) (t : Asked σ) :
    Quiet t (callEnv (unlogged f) t) := by
  cases f with
  | none => exact .refl t
  | some f => exact ⟨rfl, Nat.le_refl _⟩

theorem freed_quiet (cb : Callback σ ο τ) (lookup : Lookup (Nat × ο)) (t : Asked σ) :
    Quiet t (lookup.freed cb.asked t) := by
  cases lookup with
  | notFound => exact .refl t
  | invalid => exact .refl t
  | string o => exact unlogged_quiet (cb.stringFree o.2) t
  | list o => exact unlogged_quiet (cb.listClose o.2) t
  | stream o => exact unlogged_quiet (cb.streamFree o.2) t

theorem got_quiet (hlist : ∀ list, lookup ≠ .list list) (t : Asked σ) :
    Quiet t (lookup.got cb.asked t) := by
  cases lookup with
  | notFound => exact .refl t
  | invalid => exact .refl t
  | string o => exact unlogged_quiet (cb.stringGet o.2) t
  | list o => exact absurd rfl (hlist o)
  | stream o => exact unlogged_quiet (cb.streamGet o.2) t

theorem opened_quiet (hlist : ∀ list, lookup ≠ .list list) (t : Asked σ) :
    Quiet t (lookup.opened cb.asked t) := by
  have hgot : Quiet t (lookup.got cb.asked t) := got_quiet hlist t
  cases lookup with
  | list o => exact absurd rfl (hlist o)
  | notFound | string | stream | invalid =>
      exact hgot.trans (freed_quiet cb _ _)

theorem asked_resolve {name : Bytes}
    (h : cb.asked.resolve t name = (lookup, t')) :
    t'.calls = t.calls ∧ t'.next = t.next + 1 ∧
      ∀ list, lookup = .list list → list.1 = t.next := by
  cases h
  refine ⟨rfl, rfl, ?_⟩
  intro list hlist
  cases hfound : (cb.resolve t.env name).1 with
  | list resolved =>
      simp only [hfound, Lookup.numbered, Lookup.list.injEq] at hlist
      rw [← hlist]
  | notFound | string | stream | invalid =>
      simp only [hfound, Lookup.numbered, reduceCtorEq] at hlist

theorem asked_resolve_quiet {name : Bytes}
    (h : cb.asked.resolve t name = (lookup, t')) : Quiet t t' := by
  obtain ⟨hcalls, hnext, -⟩ := asked_resolve h
  exact ⟨hcalls, by omega⟩

/-- What a list answers is logged, when it has the function. -/
theorem askItem_calls (cb : Callback σ ο τ) (list : Nat × ο) (index : Int) (t : Asked σ) :
    (askItem cb.asked list index t).next = t.next ∧
      (askItem cb.asked list index t).calls =
        if (cb.listGet list.2).isSome then
          t.calls ++ [⟨list.1, index, itemAnswer cb.asked list index t⟩]
        else t.calls := by
  rw [askItem, itemAnswer, Callback.asked]
  dsimp only
  cases cb.listGet list.2 with
  | none => exact ⟨rfl, rfl⟩
  | some get => exact ⟨rfl, rfl⟩

theorem includes_quiet {found : Bool}
    (h : Includes cb.asked lookup t t' found) : Quiet t t' := by
  cases h with
  | nothing => exact .refl t
  | refuse => exact freed_quiet cb _ t
  | found _ hincluded =>
      refine got_quiet ?_ t
      rintro list rfl
      exact hincluded
  | empty _ hincluded =>
      have hgot : Quiet t (lookup.got cb.asked t) := by
        refine got_quiet ?_ t
        rintro list rfl
        exact hincluded
      exact hgot.trans (freed_quiet cb lookup _)

end

/-- The number of the list a section goes through. -/
def StacheLoop.number? (loop : StacheLoop (Nat × ο)) : Option Nat :=
  match loop.lookup with
  | .list list => some list.1
  | _ => none

/-- What the section has asked its list so far. -/
structure Iterates (cb : Callback σ ο τ) (calls : List ItemCall)
    (loop : StacheLoop (Nat × ο)) (list : Nat × ο) : Prop where
  null : cb.listGet list.2 = none → callsOf calls list.1 = []
  empty : (cb.listGet list.2).isSome → loop.empty = true →
    callsOf calls list.1 = [⟨list.1, 0, false⟩]
  found : (cb.listGet list.2).isSome → loop.empty = false →
    ∃ n : Nat, loop.loopIndex = n ∧
      callsOf calls list.1 = foundItems list.1 (n + 1)

/-- What holds between two steps. -/
structure Iterating (cb : Callback σ ο τ)
    (buffer : Buffer (Asked σ) (Nat × ο) τ) : Prop where
  orderly : Orderly buffer.env.calls
  fresh : ∀ call ∈ buffer.env.calls, call.source < buffer.env.next
  below : ∀ number ∈ buffer.loops.filterMap StacheLoop.number?,
    number < buffer.env.next
  distinct : (buffer.loops.filterMap StacheLoop.number?).Nodup
  iterates : ∀ loop ∈ buffer.loops, ∀ list, loop.lookup = .list list →
    Iterates cb buffer.env.calls loop list

def StacheLoop.OverEmptyList (loop : StacheLoop ο) : Prop :=
  loop.type = .loopWhile ∧ loop.empty = true ∧
    ∃ list, loop.lookup = .list list

/-- No section over an empty list has come to its closing tag. -/
def KeepsEmpty (before after : List (StacheLoop ο)) : Prop :=
  ∀ loop ∈ before, loop.OverEmptyList → loop ∈ after

section

variable {cb : Callback σ ο τ} {start : Int}
  {before after : Buffer (Asked σ) (Nat × ο) τ}
  {loop : StacheLoop (Nat × ο)} {loops : List (StacheLoop (Nat × ο))}
  {list : Nat × ο} {t : Asked σ}

theorem StacheLoop.number?_list (h : loop.lookup = .list list) :
    loop.number? = some list.1 := by
  rw [number?, h]

theorem StacheLoop.number?_none (h : ∀ list, loop.lookup ≠ .list list) :
    loop.number? = none := by
  rw [number?]
  split
  next list hlist => exact absurd hlist (h list)
  next => rfl

/-- Nothing was asked, and the sections are the same. -/
theorem Iterating.quiet (h : Iterating cb before)
    (hquiet : Quiet before.env after.env) (hloops : after.loops = before.loops) :
    Iterating cb after where
  orderly := hquiet.calls ▸ h.orderly
  fresh call hmem := by
    rw [hquiet.calls] at hmem
    exact Nat.lt_of_lt_of_le (h.fresh call hmem) hquiet.next
  below number hmem := by
    rw [hloops] at hmem
    exact Nat.lt_of_lt_of_le (h.below number hmem) hquiet.next
  distinct := hloops ▸ h.distinct
  iterates := by
    rw [hloops, hquiet.calls]
    exact h.iterates

theorem NextStep.quiet (h : NextStep cb.asked before after) :
    Quiet before.env after.env := by
  cases h with
  | release => exact freed_quiet cb _ _
  | ended | next | finish | input | stream | drop => exact .refl _

theorem ReadsTo.quiet (h : ReadsTo cb.asked start before after) :
    Quiet before.env after.env := by
  refine h.invariant (I := fun b => Quiet before.env b.env) ?_ (.refl _)
  intro b c hb hstep
  cases hstep with
  | read hread => exact hb.trans hread.quiet
  | back => exact hb

theorem KeepsEmpty.refl (loops : List (StacheLoop ο)) :
    KeepsEmpty loops loops := fun _ hmem _ => hmem

theorem keepsEmpty_of_found {loops loops' : List (StacheLoop ο)}
    (h : loops.all fun loop => !loop.empty) : KeepsEmpty loops loops' := by
  intro loop hmem hover
  have hfound := List.all_eq_true.mp h loop hmem
  rw [hover.2.1] at hfound
  cases hfound

/-- No other list was asked. -/
structure AskedOnly (before after : Asked σ) (source : Nat) : Prop where
  next : after.next = before.next
  others : ∀ other, other ≠ source →
    callsOf after.calls other = callsOf before.calls other
  fresh : (∀ call ∈ before.calls, call.source < before.next) →
    source < before.next → ∀ call ∈ after.calls, call.source < after.next

theorem AskedOnly.refl (t : Asked σ) (source : Nat) : AskedOnly t t source :=
  ⟨rfl, fun _ _ => rfl, fun h _ => h⟩

theorem askItem_only (cb : Callback σ ο τ) (list : Nat × ο) (index : Int) (t : Asked σ) :
    AskedOnly t (askItem cb.asked list index t) list.1 := by
  obtain ⟨hnext, hcalls⟩ := askItem_calls cb list index t
  split at hcalls
  next =>
    refine ⟨hnext, ?_, ?_⟩
    · intro other hother
      rw [hcalls, callsOf_other (Ne.symm hother)]
    · intro hfresh hlt call hmem
      rw [hcalls, List.mem_append, List.mem_singleton] at hmem
      rw [hnext]
      rcases hmem with hmem | rfl
      · exact hfresh call hmem
      · exact hlt
  next =>
    exact ⟨hnext, fun _ _ => by rw [hcalls], fun hfresh _ => by
      rw [hcalls, hnext]
      exact hfresh⟩

theorem Iterates.congr {calls calls' : List ItemCall}
    (h : Iterates cb calls loop list)
    (hsame : callsOf calls' list.1 = callsOf calls list.1) :
    Iterates cb calls' loop list := by
  obtain ⟨hnull, hempty, hfound⟩ := h
  exact ⟨hsame ▸ hnull, hsame ▸ hempty, hsame ▸ hfound⟩

theorem Iterating.number_lt (h : Iterating cb before)
    (hloops : before.loops = loop :: loops)
    (hlookup : loop.lookup = .list list) : list.1 < before.env.next := by
  refine h.below list.1 (List.mem_filterMap.mpr ⟨loop, ?_, ?_⟩)
  · rw [hloops]
    exact List.mem_cons_self
  · exact StacheLoop.number?_list hlookup

theorem Iterating.number_ne (h : Iterating cb before)
    (hloops : before.loops = loop :: loops)
    (hlookup : loop.lookup = .list list) {other : StacheLoop (Nat × ο)}
    {list' : Nat × ο} (hmem : other ∈ loops)
    (hother : other.lookup = .list list') : list'.1 ≠ list.1 := by
  have hdistinct := h.distinct
  rw [hloops, List.filterMap_cons, StacheLoop.number?_list hlookup] at hdistinct
  intro heq
  refine (List.nodup_cons.mp hdistinct).1
    (List.mem_filterMap.mpr ⟨other, hmem, ?_⟩)
  rw [StacheLoop.number?_list hother, heq]

theorem Iterating.others (h : Iterating cb before)
    (hloops : before.loops = loop :: loops)
    (hlookup : loop.lookup = .list list)
    (honly : AskedOnly before.env t list.1) :
    ∀ other ∈ loops, ∀ list', other.lookup = .list list' →
      Iterates cb t.calls other list' := by
  intro other hmem list' hother
  have hiterates : Iterates cb before.env.calls other list' := by
    refine h.iterates other ?_ list' hother
    rw [hloops]
    exact List.mem_cons_of_mem loop hmem
  exact hiterates.congr
    (honly.others _ (h.number_ne hloops hlookup hmem hother))

/-- The innermost section asks in order, unless its list was found empty. -/
theorem Iterating.asks (h : Iterating cb before)
    (hloops : before.loops = loop :: loops)
    (hlookup : loop.lookup = .list list) {found : Bool}
    (hasks : AsksNext cb.asked list loop before.env t found)
    (hnot : ¬ loop.OverEmptyList) :
    Orderly t.calls ∧ AskedOnly before.env t list.1 ∧
      (found = true → Iterates cb t.calls loop.next list) := by
  have hmem : loop ∈ before.loops := by
    rw [hloops]
    exact List.mem_cons_self
  cases hasks with
  | inverted => exact ⟨h.orderly, .refl _ _, nofun⟩
  | asked htype hsome =>
      have hget : (cb.listGet list.2).isSome := by
        rwa [Callback.asked, Option.isSome_map] at hsome
      have hempty : loop.empty = false := by
        rw [← Bool.not_eq_true]
        exact fun hempty => hnot ⟨htype, hempty, list, hlookup⟩
      obtain ⟨n, hindex, hcalls⟩ :=
        (h.iterates loop hmem list hlookup).found hget hempty
      have hnext : loop.next.loopIndex = ((n + 1 : Nat) : Int) := by
        rw [StacheLoop.next, hindex]
        rfl
      rw [hnext]
      have hasked := (askItem_calls cb list ((n + 1 : Nat) : Int)
        before.env).2
      rw [if_pos hget] at hasked
      refine ⟨?_, askItem_only cb _ _ _, fun hfound => ?_⟩
      · rw [hasked]
        refine h.orderly.record ?_
        rw [hcalls]
        exact inOrder_last _ _ _
      · refine ⟨fun hnone => ?_, fun _ hempty' => ?_, fun _ _ => ?_⟩
        · rw [hnone] at hget
          cases hget
        · exact absurd (hempty.symm.trans hempty') Bool.false_ne_true
        · refine ⟨n + 1, hnext, ?_⟩
          rw [hasked, callsOf_own rfl, hcalls, hfound, ← foundItems_succ]

/-- A section over an empty list asks out of order. -/
theorem Iterating.asks_empty (h : Iterating cb before)
    (hloops : before.loops = loop :: loops)
    (hlookup : loop.lookup = .list list) {found : Bool}
    (hasks : AsksNext cb.asked list loop before.env t found)
    (hover : loop.OverEmptyList) : ¬ Orderly t.calls := by
  obtain ⟨hwhile, hempty, -⟩ := hover
  have hmem : loop ∈ before.loops := by
    rw [hloops]
    exact List.mem_cons_self
  cases hasks with
  | inverted htype => rw [hwhile] at htype; cases htype
  | asked htype hsome =>
      have hget : (cb.listGet list.2).isSome := by
        rwa [Callback.asked, Option.isSome_map] at hsome
      have hcalls := (h.iterates loop hmem list hlookup).empty hget hempty
      have hasked := (askItem_calls cb list loop.next.loopIndex
        before.env).2
      rw [if_pos hget] at hasked
      intro horderly
      have horder := horderly list.1
      rw [hasked, callsOf_own rfl, hcalls] at horder
      exact not_inOrder_after rfl horder

theorem Iterating.not_mem (h : Iterating cb before)
    (hloops : before.loops = loop :: loops)
    (hlookup : loop.lookup = .list list) : loop ∉ loop.next :: loops := by
  intro hmem
  rcases List.mem_cons.mp hmem with heq | hmem
  · have hindex := congrArg StacheLoop.loopIndex heq
    rw [StacheLoop.next] at hindex
    dsimp only at hindex
    omega
  · exact h.number_ne hloops hlookup hmem hlookup rfl

theorem Iterating.close (h : Iterating cb before)
    (hloops : before.loops = loop :: loops) (horderly : Orderly t.calls)
    (hfresh : ∀ call ∈ t.calls, call.source < t.next)
    (hnext : t.next = before.env.next)
    (hiterates : ∀ other ∈ loops, ∀ list', other.lookup = .list list' →
      Iterates cb t.calls other list') :
    Iterating cb { before with env := t, loops := loops } := by
  have hsuffix : loops.Sublist before.loops := by
    rw [hloops]
    exact List.sublist_cons_self loop loops
  have hnumbers := hsuffix.filterMap StacheLoop.number?
  refine ⟨horderly, hfresh, fun number hmem => ?_, h.distinct.sublist hnumbers,
    hiterates⟩
  rw [hnext]
  exact h.below number (hnumbers.subset hmem)

/-- A section over a list starts with its first item. -/
theorem Iterating.open (h : Iterating cb before) {name name' : Bytes}
    {type : LoopType} {empty : Bool} {index : Int}
    (hresolve : cb.asked.resolve before.env name = (.list list, t))
    (hempty : empty = !itemAnswer cb.asked list 0 t) :
    Iterating cb { before with
      env := askItem cb.asked list 0 t,
      loops := ⟨type, name', .list list, index, 0, empty⟩ :: before.loops } := by
  obtain ⟨hcalls, hnext, hnumber⟩ := asked_resolve hresolve
  have hnumber : list.1 = before.env.next := hnumber list rfl
  have honly := askItem_only cb list 0 t
  have hasked := (askItem_calls cb list 0 t).2
  have hlater : t.next = before.env.next + 1 := hnext
  have hnone : callsOf t.calls list.1 = [] := by
    rw [hcalls, hnumber]
    exact callsOf_fresh h.fresh
  have hfresh : ∀ call ∈ t.calls, call.source < t.next := by
    intro call hmem
    rw [hcalls] at hmem
    exact Nat.lt_trans (h.fresh call hmem) (by omega)
  have hbelow : ∀ number ∈ before.loops.filterMap StacheLoop.number?,
      number < before.env.next := h.below
  refine ⟨?_, honly.fresh hfresh (by omega), ?_, ?_, ?_⟩
  · have horderly : Orderly t.calls := hcalls ▸ h.orderly
    dsimp only
    rw [hasked]
    split
    next =>
      refine horderly.record ?_
      rw [hnone]
      exact inOrder_last list.1 0 _
    next => exact horderly
  · intro number hmem
    have hmem : number ∈ list.1 :: before.loops.filterMap StacheLoop.number? :=
      hmem
    have hsame : (askItem cb.asked list 0 t).next = before.env.next + 1 :=
      honly.next.trans hnext
    dsimp only
    rw [hsame]
    rcases List.mem_cons.mp hmem with rfl | hmem
    · omega
    · exact Nat.lt_succ_of_lt (hbelow number hmem)
  · refine List.nodup_cons.mpr ⟨fun hmem => ?_, h.distinct⟩
    have hlt := hbelow _ hmem
    omega
  · intro other hmem list' hother
    rcases List.mem_cons.mp hmem with rfl | hmem
    · cases hother
      refine ⟨fun hnull => ?_, fun hget hempty' => ?_, fun hget hempty' => ?_⟩
      · rw [hnull] at hasked
        exact (congrArg (callsOf · list.1) hasked).trans hnone
      · have hanswer : itemAnswer cb.asked list 0 t = false :=
          Bool.not_eq_true' _ |>.mp (hempty.symm.trans hempty')
        rw [if_pos hget, hanswer] at hasked
        dsimp only
        rw [hasked, callsOf_own rfl, hnone]
        rfl
      · have hanswer : itemAnswer cb.asked list 0 t = true :=
          Bool.not_eq_false' _ |>.mp (hempty.symm.trans hempty')
        rw [if_pos hget, hanswer] at hasked
        refine ⟨0, rfl, ?_⟩
        dsimp only
        rw [hasked, callsOf_own rfl, hnone]
        rfl
    · have hiterates : Iterates cb t.calls other list' :=
        hcalls ▸ h.iterates other hmem list' hother
      refine hiterates.congr (honly.others _ ?_)
      have hlt := hbelow list'.1 (List.mem_filterMap.mpr
        ⟨other, hmem, StacheLoop.number?_list hother⟩)
      omega

theorem keepsEmpty_tail (hloops : before.loops = loop :: loops)
    (hnot : ¬ loop.OverEmptyList) {after : List (StacheLoop (Nat × ο))}
    (hafter : ∀ other ∈ loops, other ∈ after) :
    KeepsEmpty before.loops after := by
  intro other hmem hover
  rw [hloops] at hmem
  rcases List.mem_cons.mp hmem with rfl | hmem
  · exact absurd hover hnot
  · exact hafter other hmem

/-- The closing tag of a list section is in order, when no section over an
empty list is at its end. -/
theorem Iterating.end_iff (h : Iterating cb before)
    (hloops : before.loops = loop :: loops)
    (hlookup : loop.lookup = .list list) {found : Bool}
    (hasks : AsksNext cb.asked list loop before.env t found)
    {after : List (StacheLoop (Nat × ο))} {env : Asked σ}
    (hafter : after = loops ∨ after = loop.next :: loops)
    (henv : env.calls = t.calls) :
    KeepsEmpty before.loops after ↔ Orderly env.calls := by
  rw [henv]
  by_cases hover : loop.OverEmptyList
  · refine iff_of_false (fun hkeeps => ?_)
      (h.asks_empty hloops hlookup hasks hover)
    have hmem : loop ∈ after := by
      refine hkeeps loop ?_ hover
      rw [hloops]
      exact List.mem_cons_self
    refine h.not_mem hloops hlookup ?_
    rcases hafter with rfl | rfl
    · exact List.mem_cons_of_mem _ hmem
    · exact hmem
  · refine iff_of_true (keepsEmpty_tail hloops hover fun other hmem => ?_)
      (h.asks hloops hlookup hasks hover).1
    rcases hafter with rfl | rfl
    · exact hmem
    · exact List.mem_cons_of_mem _ hmem

theorem Iterating.step (h : Iterating cb before)
    {r : Bool × Buffer (Asked σ) (Nat × ο) τ}
    (hstep : EngineStep cb.asked start before r) :
    (KeepsEmpty before.loops r.2.loops ↔ Orderly r.2.env.calls) ∧
      (KeepsEmpty before.loops r.2.loops → r.1 = true → Iterating cb r.2) := by
  have hgoes (hafter : Iterating cb r.2)
      (hkeeps : KeepsEmpty before.loops r.2.loops) :
      (KeepsEmpty before.loops r.2.loops ↔ Orderly r.2.env.calls) ∧
        (KeepsEmpty before.loops r.2.loops → r.1 = true → Iterating cb r.2) :=
    ⟨iff_of_true hkeeps hafter.orderly, fun _ _ => hafter⟩
  have hsame (hquiet : Quiet before.env r.2.env)
      (hloops : r.2.loops = before.loops) :=
    hgoes (h.quiet hquiet hloops) (hloops ▸ KeepsEmpty.refl _)
  cases hstep with
  | read output result hread => exact hsame hread.quiet hread.loops
  | fail | reject | delimiters => exact hsame (.refl _) rfl
  | nothing hresolve | unexpectedList hresolve | unexpectedStream hresolve
  | invalid hresolve => exact hsame (asked_resolve_quiet hresolve) rfl
  | @shown name resolved env error output result hresolve _ _ =>
      have hgot : Quiet env ((Lookup.string resolved).got cb.asked env) :=
        got_quiet (fun _ heq => by cases heq) env
      exact hsame ((asked_resolve_quiet hresolve).trans
        (hgot.trans (freed_quiet cb _ _))) rfl
  | @openSection name lookup env error type result empty hresolve _ hempty =>
      have hkept : KeepsEmpty before.loops
          (⟨type, name, lookup, before.index, 0, empty⟩ :: before.loops) :=
        fun other hmem _ => List.mem_cons_of_mem _ hmem
      refine hgoes ?_ hkept
      by_cases hlist : ∃ list, lookup = .list list
      · obtain ⟨list, rfl⟩ := hlist
        have hopened : Iterating cb { before with
            env := askItem cb.asked list 0 env,
            loops := ⟨type, name, .list list, before.index, 0, empty⟩ ::
              before.loops } := h.open hresolve (hempty list rfl)
        exact hopened.quiet (.refl _) rfl
      · have hlist : ∀ list, lookup ≠ .list list := not_exists.mp hlist
        have hquiet : Quiet before.env (lookup.opened cb.asked env) :=
          (asked_resolve_quiet hresolve).trans (opened_quiet hlist env)
        have hsame : Iterating cb { before with
            env := lookup.opened cb.asked env } := h.quiet hquiet rfl
        have hnumber : (⟨type, name, lookup, before.index, 0, empty⟩ ::
            before.loops).filterMap StacheLoop.number? =
              before.loops.filterMap StacheLoop.number? :=
          List.filterMap_cons_none (StacheLoop.number?_none hlist)
        refine ⟨hsame.orderly, hsame.fresh, ?_, ?_, ?_⟩
        · exact hnumber ▸ hsame.below
        · exact hnumber ▸ hsame.distinct
        · intro other hmem list hother
          rcases List.mem_cons.mp hmem with rfl | hmem
          · exact absurd hother (hlist list)
          · exact hsame.iterates other hmem list hother
  | @closeSection loop loops hloops hnot =>
      have hover : ¬ loop.OverEmptyList :=
        fun hover => hover.2.2.elim hnot
      refine hgoes ?_ (keepsEmpty_tail hloops hover fun _ hmem => hmem)
      refine h.close hloops h.orderly h.fresh rfl ?_
      intro other hmem list hother
      refine h.iterates other ?_ list hother
      rw [hloops]
      exact List.mem_cons_of_mem _ hmem
  | @nextItem loop loops list env hloops hlookup hasks =>
      refine ⟨h.end_iff hloops hlookup hasks (Or.inr rfl) rfl,
        fun hkeeps _ => ?_⟩
      have hnot : ¬ loop.OverEmptyList := fun hover =>
        h.asks_empty hloops hlookup hasks hover
          ((h.end_iff hloops hlookup hasks (Or.inr rfl) rfl).mp hkeeps)
      obtain ⟨horderly, honly, hown⟩ := h.asks hloops hlookup hasks hnot
      have hfresh := honly.fresh h.fresh (h.number_lt hloops hlookup)
      have hnumbers : (loop.next :: loops).filterMap StacheLoop.number? =
          before.loops.filterMap StacheLoop.number? := by
        rw [hloops]
        rfl
      refine ⟨horderly, hfresh, ?_, ?_, ?_⟩
      · intro number hmem
        rw [hnumbers] at hmem
        dsimp only
        rw [honly.next]
        exact h.below number hmem
      · exact hnumbers ▸ h.distinct
      · intro other hmem list' hother
        rcases List.mem_cons.mp hmem with rfl | hmem
        · have hother : loop.lookup = .list list' := hother
          cases hlookup.symm.trans hother
          exact hown rfl
        · exact h.others hloops hlookup honly other hmem list' hother
  | @closeList loop loops list env hloops hlookup hasks _ =>
      have hfreed := freed_quiet cb loop.lookup env
      have hiff := h.end_iff hloops hlookup hasks (Or.inl rfl) hfreed.calls
      refine ⟨hiff, fun hkeeps _ => ?_⟩
      have hnot : ¬ loop.OverEmptyList := fun hover =>
        h.asks_empty hloops hlookup hasks hover (hfreed.calls ▸ hiff.mp hkeeps)
      obtain ⟨horderly, honly, -⟩ := h.asks hloops hlookup hasks hnot
      have hclosed := h.close hloops horderly
        (honly.fresh h.fresh (h.number_lt hloops hlookup)) honly.next
        (h.others hloops hlookup honly)
      exact hclosed.quiet hfreed rfl
  | @keepList loop loops list env hloops hlookup hasks =>
      have hfreed := freed_quiet cb loop.lookup env
      exact ⟨h.end_iff hloops hlookup hasks (Or.inr rfl) hfreed.calls, nofun⟩
  | @inclusion after name lookup env env' found error error' stream save result
      hresolve hincludes _ hread _ _ =>
      have hincluded := (asked_resolve_quiet hresolve).trans
        (includes_quiet hincludes)
      exact hsame (hincluded.trans hread.quiet) hread.loops

end

section

variable {fns : StreamFns τ} {cb : Callback σ ο τ}

/-- The record a step of `render_template` leads to. -/
def afterStep {σ ο τ : Type}
    (o : Buffer σ ο τ ⊕ (Bool × Buffer σ ο τ)) : Buffer σ ο τ :=
  Sum.elim id Prod.snd o

theorem Iterating.render_step {buffer : Buffer (Asked σ) (Nat × ο) τ}
    {o : Buffer (Asked σ) (Nat × ο) τ ⊕ (Bool × Buffer (Asked σ) (Nat × ο) τ)}
    (h : Iterating cb buffer)
    (hstep : Returns (renderStep fns cb.asked buffer) o) :
    (KeepsEmpty buffer.loops (afterStep o).loops ↔
        Orderly (afterStep o).env.calls) ∧
      (KeepsEmpty buffer.loops (afterStep o).loops →
        ∀ next, o = .inl next → Iterating cb next) := by
  rcases renderStep_step hstep with ⟨-, rfl⟩ | ⟨read, r, hread, htag, rfl⟩
  · exact ⟨iff_of_true (.refl _) h.orderly, fun _ _ heq => by cases heq⟩
  · have hloops : read.loops = buffer.loops := hread.loops
    have hafter := (h.quiet hread.quiet hloops).step htag
    rw [hloops] at hafter
    obtain ⟨result, next⟩ := r
    cases result with
    | true =>
        refine ⟨hafter.1, fun hkeeps next hnext => ?_⟩
        cases hnext
        exact hafter.2 hkeeps rfl
    | false => exact ⟨hafter.1, fun _ _ hnext => by cases hnext⟩

/-- No object was handed out, and nothing was asked. -/
def nothingAsked (env : σ) : Asked σ := ⟨env, 0, []⟩

theorem iterating_start {env : σ} {input : InputStream τ} {data : Int → UInt8}
    {more : Bool} {start : Buffer (Asked σ) (Nat × ο) τ}
    (hnext : Returns (bufferNext fns cb.asked
      (newBuffer (nothingAsked env) input data)) (more, start)) :
    Iterating cb start := by
  have hread := bufferNext_step hnext
  have hnew : Iterating cb (newBuffer (nothingAsked env) input data :
      Buffer (Asked σ) (Nat × ο) τ) :=
    ⟨orderly_nil, fun _ hmem => absurd hmem List.not_mem_nil,
      fun _ hmem => absurd hmem List.not_mem_nil, List.nodup_nil,
      fun _ hmem => absurd hmem List.not_mem_nil⟩
  exact hnew.quiet hread.quiet hread.loops

/-- Every list section of a rendering asks for the items 0, 1, 2 and so on,
each once and none after an answer 0, exactly when no section over an empty
list comes to its closing tag. -/
theorem lists_asked_in_order_iff {env : σ} {input : InputStream τ}
    {data : Int → UInt8} {more : Bool}
    {start : Buffer (Asked σ) (Nat × ο) τ}
    (hnext : Returns (bufferNext fns cb.asked
      (newBuffer (nothingAsked env) input data)) (more, start)) :
    (∀ buffer o, Reaches (renderStep fns cb.asked) start buffer →
        Returns (renderStep fns cb.asked buffer) o →
        Orderly (afterStep o).env.calls) ↔
      ∀ buffer o, Reaches (renderStep fns cb.asked) start buffer →
        Returns (renderStep fns cb.asked buffer) o →
        KeepsEmpty buffer.loops (afterStep o).loops := by
  have hstart : Iterating cb start := iterating_start hnext
  constructor
  · intro horderly
    have hbuffer : ∀ buffer, Reaches (renderStep fns cb.asked) start buffer →
        Iterating cb buffer := by
      intro buffer hreach
      induction hreach with
      | refl => exact hstart
      | tail hbefore hlast ih =>
          obtain ⟨hiff, hgoes⟩ := ih.render_step hlast
          exact hgoes (hiff.mpr (horderly _ _ hbefore hlast)) _ rfl
    intro buffer o hreach hstep
    exact ((hbuffer buffer hreach).render_step hstep).1.mpr
      (horderly buffer o hreach hstep)
  · intro hkeeps
    have hbuffer : ∀ buffer, Reaches (renderStep fns cb.asked) start buffer →
        Iterating cb buffer := by
      intro buffer hreach
      induction hreach with
      | refl => exact hstart
      | tail hbefore hlast ih =>
          exact (ih.render_step hlast).2 (hkeeps _ _ hbefore hlast) _ rfl
    intro buffer o hreach hstep
    exact ((hbuffer buffer hreach).render_step hstep).1.mp
      (hkeeps buffer o hreach hstep)

def oneItemAnswers : Answers Empty :=
  fun _ _ => .list (some fun index => decide (index = 0)) (some true)

/-- `{{#l}}.{{/l}}!` over one item. -/
theorem lists_asked_in_order_one :
    ∃ start : Buffer (Asked (List Frame)) (Nat × Answer Empty) Empty,
      Returns (bufferNext noStreams (answering oneItemAnswers).asked
        (newBuffer (nothingAsked [])
          (newInputStreamFromString (chars "{{#l}}.{{/l}}!")) fun _ => 0))
        (true, start) ∧
      ∀ buffer o,
        Reaches (renderStep noStreams (answering oneItemAnswers).asked) start
          buffer →
        Returns (renderStep noStreams (answering oneItemAnswers).asked buffer)
          o → Orderly (afterStep o).env.calls := by
  have hstart : Returns (bufferNext noStreams (answering oneItemAnswers).asked
      (newBuffer (nothingAsked [])
        (newInputStreamFromString (chars "{{#l}}.{{/l}}!")) fun _ => 0))
      (true, _) := ⟨0, rfl⟩
  refine ⟨_, hstart, (lists_asked_in_order_iff hstart).mpr ?_⟩
  intro buffer o hreach hstep
  refine keepsEmpty_of_found ?_
  -- The five states of the run.
  iterate 5
    rcases hreach.cases_head with rfl | ⟨next, hnext, hreach⟩
    · rfl
    cases hnext.unique ⟨20, rfl⟩

/-- The closing tag of a section over an empty list asks for the second item. -/
theorem lists_not_asked_in_order :
    ∃ r, Returns (render noStreams (answering emptyListAnswers).asked
        (nothingAsked []) (newInputStreamFromString (chars "{{#l}}{{/l}}."))
        fun _ => 0) r ∧
      r.code = 0 ∧ r.env.calls = [⟨0, 0, false⟩, ⟨0, 1, false⟩] ∧
      ¬ Orderly r.env.calls :=
  ⟨_, ⟨20, rfl⟩, rfl, rfl, fun h => not_inOrder_after rfl (h 0)⟩

end

end Libcad
