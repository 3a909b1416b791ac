/-
The objects that lookups hand out.  A callback is made to keep a ledger of
them: at every moment of a rendering those not released yet are the lists of
the open sections and the partials that are being read.
-/
import Libcad.Ledger
import Libcad.StacheServes
import Libcad.StacheSteps

namespace Libcad

open Proc Ledger

variable {σ ο τ : Type}

/-- The state behind a callback, with its ledger. -/
structure Traced (σ : Type) where
  env : σ
  ledger : Ledger

def traceCall {β : Type} (event : LedgerEvent) (f : Option (σ → β × σ)) :
    Option (Traced σ → β × Traced σ) :=
  f.map fun f t => ((f t.env).1, ⟨(f t.env).2, t.ledger.record event⟩)

/-- The same callback; every object handed out gets a number of its own. -/
def Callback.traced (cb : Callback σ ο τ) :
    Callback (Traced σ) (Nat × ο) τ where
  resolve t name :=
    match cb.resolve t.env name with
    | (.notFound, env) => (.notFound, ⟨env, t.ledger⟩)
    | (.string resolved, env) =>
        (.string (t.ledger.next, resolved),
          ⟨env, t.ledger.hand (cb.stringFree resolved).isSome⟩)
    | (.list resolved, env) =>
        (.list (t.ledger.next, resolved),
          ⟨env, t.ledger.hand (cb.listClose resolved).isSome⟩)
    | (.stream resolved, env) =>
        (.stream (t.ledger.next, resolved),
          ⟨env, t.ledger.hand (cb.streamFree resolved).isSome⟩)
    | (.invalid, env) => (.invalid, ⟨env, t.ledger⟩)
  stringGet o := traceCall (.used o.1) (cb.stringGet o.2)
  stringFree o := traceCall (.released o.1) (cb.stringFree o.2)
  listGet o := (cb.listGet o.2).map fun get t index =>
    ((get t.env index).1,
      ⟨(get t.env index).2, t.ledger.record (.used o.1)⟩)
  listClose o := traceCall (.released o.1) (cb.listClose o.2)
  streamGet o := traceCall (.used o.1) (cb.streamGet o.2)
  streamFree o := traceCall (.released o.1) (cb.streamFree o.2)

def Lookup.owned (cb : Callback σ ο τ) : Lookup (Nat × ο) → List Owned
  | .string o => [⟨o.1, (cb.stringFree o.2).isSome⟩]
  | .list o => [⟨o.1, (cb.listClose o.2).isSome⟩]
  | .stream o => [⟨o.1, (cb.streamFree o.2).isSome⟩]
  | .notFound | .invalid => []

/-- The object an open section holds: only lists are kept. -/
def StacheLoop.owned (cb : Callback σ ο τ) (loop : StacheLoop (Nat × ο)) :
    List Owned :=
  match loop.lookup with
  | .list _ => loop.lookup.owned cb
  | _ => []

section

variable {cb : Callback σ ο τ} {t t' : Traced σ} {owned : List Owned}
  {lookup : Lookup (Nat × ο)}

theorem traced_resolve {name : Bytes}
    (h : Accounts owned t.ledger)
    (hresolve : cb.traced.resolve t name = (lookup, t')) :
    Accounts (lookup.owned cb ++ owned) t'.ledger := by
  rw [Callback.traced] at hresolve
  dsimp only at hresolve
  split at hresolve
  next =>
    cases hresolve
    exact h
  next resolved env _ =>
    cases hresolve
    exact h.hand _
  next resolved env _ =>
    cases hresolve
    exact h.hand _
  next resolved env _ =>
    cases hresolve
    exact h.hand _
  next =>
    cases hresolve
    exact h

theorem traceCall_used {β : Type} {o : Owned} (ho : o ∈ owned)
    (f : Option (σ → β × σ)) (h : Accounts owned t.ledger) :
    Accounts owned (callEnv (traceCall (.used o.object) f) t).ledger := by
  cases f with
  | none => exact h
  | some f => exact h.use ho

theorem traceCall_released {β : Type} {object : Nat} (f : Option (σ → β × σ))
    (h : Accounts (⟨object, f.isSome⟩ :: owned) t.ledger) :
    Accounts owned (callEnv (traceCall (.released object) f) t).ledger := by
  have hreleased := h.release
  cases f with
  | none => exact hreleased
  | some f => exact hreleased

theorem askItem_accounts {o : Nat × ο} {index : Int}
    (h : Accounts ((Lookup.list o).owned cb ++ owned) t.ledger) :
    Accounts ((Lookup.list o).owned cb ++ owned)
      (askItem cb.traced o index t).ledger := by
  rw [askItem, Callback.traced]
  dsimp only
  cases cb.listGet o.2 with
  | none => exact h
  | some get => exact h.use List.mem_cons_self

theorem asksNext_accounts {o : Nat × ο} {loop : StacheLoop (Nat × ο)}
    {found : Bool}
    (h : Accounts ((Lookup.list o).owned cb ++ owned) t.ledger)
    (hasks : AsksNext cb.traced o loop t t' found) :
    Accounts ((Lookup.list o).owned cb ++ owned) t'.ledger := by
  cases hasks with
  | inverted => exact h
  | asked => exact askItem_accounts h

theorem got_accounts (h : Accounts (lookup.owned cb ++ owned) t.ledger) :
    Accounts (lookup.owned cb ++ owned)
      (lookup.got cb.traced t).ledger := by
  cases lookup with
  | notFound => exact h
  | invalid => exact h
  | string o => exact traceCall_used List.mem_cons_self (cb.stringGet o.2) h
  | list o => exact askItem_accounts h
  | stream o => exact traceCall_used List.mem_cons_self (cb.streamGet o.2) h

theorem freed_accounts (h : Accounts (lookup.owned cb ++ owned) t.ledger) :
    Accounts owned (lookup.freed cb.traced t).ledger := by
  cases lookup with
  | notFound => exact h
  | invalid => exact h
  | string o => exact traceCall_released (cb.stringFree o.2) h
  | list o => exact traceCall_released (cb.listClose o.2) h
  | stream o => exact traceCall_released (cb.streamFree o.2) h

theorem opened_accounts {loop : StacheLoop (Nat × ο)}
    (hlookup : loop.lookup = lookup)
    (h : Accounts (lookup.owned cb ++ owned) t.ledger) :
    Accounts (loop.owned cb ++ owned) (lookup.opened cb.traced t).ledger := by
  rw [StacheLoop.owned, hlookup]
  cases lookup with
  | notFound => exact h
  | invalid => exact h
  | string o => exact freed_accounts (got_accounts h)
  | list o => exact got_accounts h
  | stream o => exact freed_accounts (got_accounts h)

/-- The object handed out last, and whether it is owed. -/
theorem last_owned {o : Nat × ο} {name : Bytes}
    (hlookup : lookup = .list o ∨ lookup = .stream o)
    (h : Accounts owned t.ledger)
    (hresolve : cb.traced.resolve t name = (lookup, t')) :
    lookup.owned cb = [⟨t'.ledger.next - 1,
      decide (.handed (t'.ledger.next - 1) ∈ t'.ledger.trace)⟩] := by
  have haccounts := traced_resolve h hresolve
  have hnumber : t'.ledger.next - 1 = o.1 := by
    rw [Callback.traced] at hresolve
    dsimp only at hresolve
    split at hresolve
    next =>
      cases hresolve
      rcases hlookup with hlookup | hlookup <;> cases hlookup
    next =>
      cases hresolve
      rcases hlookup with hlookup | hlookup <;> cases hlookup
    next =>
      cases hresolve
      rcases hlookup with hlookup | hlookup
      · cases hlookup
        rfl
      · cases hlookup
    next =>
      cases hresolve
      rcases hlookup with hlookup | hlookup
      · cases hlookup
      · cases hlookup
        rfl
    next =>
      cases hresolve
      rcases hlookup with hlookup | hlookup <;> cases hlookup
  rw [hnumber]
  rcases hlookup with rfl | rfl
  · have howed : (cb.listClose o.2).isSome = decide _ :=
      haccounts.releasable_eq List.mem_cons_self
    rw [Lookup.owned, howed]
  · have howed : (cb.streamFree o.2).isSome = decide _ :=
      haccounts.releasable_eq List.mem_cons_self
    rw [Lookup.owned, howed]

end

section

variable {cb : Callback σ ο τ} {start : Int}
  {before after : Buffer (Traced σ) (Nat × ο) τ}

/-- The objects of the open sections and of the pending partials. -/
def ownedBy (cb : Callback σ ο τ) (loops : List (StacheLoop (Nat × ο)))
    (partials : List (StachePartial (Nat × ο) τ)) : List Owned :=
  loops.flatMap (StacheLoop.owned cb) ++
    partials.flatMap fun part => part.lookup.owned cb

/-- The section whose list has just failed to close is not open any more. -/
def Buffer.unclosed (buffer : Buffer (Traced σ) (Nat × ο) τ) :
    List (StacheLoop (Nat × ο)) :=
  if buffer.error = "could not close loop list" then buffer.loops.tail
  else buffer.loops

/-- Whether a variable was answered with a list or a partial. -/
def Buffer.Misused (buffer : Buffer (Traced σ) (Nat × ο) τ) : Prop :=
  buffer.error = "unexpected list" ∨ buffer.error = "unexpected partial"

instance (buffer : Buffer (Traced σ) (Nat × ο) τ) : Decidable buffer.Misused :=
  inferInstanceAs (Decidable (_ ∨ _))

/-- The object handed out last, for a variable that could not use it. -/
def Buffer.misused (buffer : Buffer (Traced σ) (Nat × ο) τ) : List Owned :=
  if buffer.Misused then
    let last := buffer.env.ledger.next - 1
    [⟨last, decide (.handed last ∈ buffer.env.ledger.trace)⟩]
  else []

/-- All objects that are not released yet. -/
def Buffer.owned (cb : Callback σ ο τ)
    (buffer : Buffer (Traced σ) (Nat × ο) τ) : List Owned :=
  buffer.misused ++ ownedBy cb buffer.unclosed buffer.partials

/-- The ledger agrees with the engine. -/
structure Accounted (cb : Callback σ ο τ)
    (buffer : Buffer (Traced σ) (Nat × ο) τ) : Prop where
  accounts : Accounts (buffer.owned cb) buffer.env.ledger
  included : ∀ part ∈ buffer.partials, part.lookup.Included

theorem Buffer.owned_eq (buffer : Buffer (Traced σ) (Nat × ο) τ)
    (h : Harmless buffer.error) :
    buffer.owned cb = ownedBy cb buffer.loops buffer.partials := by
  obtain ⟨hlist, hpartial, hclose⟩ := h
  rw [Buffer.owned, Buffer.misused,
    if_neg (show ¬ buffer.Misused from not_or.mpr ⟨hlist, hpartial⟩),
    Buffer.unclosed, if_neg hclose, List.nil_append]

/-- The same while the rendering goes on. -/
structure Running (cb : Callback σ ο τ)
    (buffer : Buffer (Traced σ) (Nat × ο) τ) : Prop where
  accounts :
    Accounts (ownedBy cb buffer.loops buffer.partials) buffer.env.ledger
  included : ∀ part ∈ buffer.partials, part.lookup.Included
  harmless : Harmless buffer.error

theorem Running.accounted (h : Running cb before) : Accounted cb before := by
  have howned : before.owned cb = ownedBy cb before.loops before.partials :=
    before.owned_eq h.harmless
  exact ⟨howned ▸ h.accounts, h.included⟩

theorem ownedBy_part {loops : List (StacheLoop (Nat × ο))}
    (part : StachePartial (Nat × ο) τ)
    {partials : List (StachePartial (Nat × ο) τ)} :
    (ownedBy cb loops (part :: partials)).Perm
      (part.lookup.owned cb ++ ownedBy cb loops partials) := by
  rw [ownedBy, ownedBy, List.flatMap_cons]
  exact List.perm_append_comm_assoc _ _ _

theorem harmless_of {error : String} (h : Harmless before.error)
    (herror : error = before.error ∨ Harmless error) : Harmless error := by
  obtain rfl | herror := herror
  · exact h
  · exact herror

theorem Running.next (h : Running cb before)
    (hread : NextStep cb.traced before after) : Running cb after := by
  cases hread with
  | ended =>
      have herror : Harmless "Buffer end reached" := by decide
      exact ⟨h.accounts, h.included, herror⟩
  | next | finish | input => exact ⟨h.accounts, h.included, h.harmless⟩
  | stream _ _ stream eof _ _ hpartials =>
      have haccounts := h.accounts
      have hincluded := h.included
      rw [hpartials] at haccounts hincluded
      obtain ⟨hpart, hrest⟩ := List.forall_mem_cons.mp hincluded
      exact ⟨haccounts, List.forall_mem_cons.mpr ⟨hpart, hrest⟩, h.harmless⟩
  | release _ _ _ _ hpartials _ =>
      have haccounts := h.accounts
      have hincluded := h.included
      rw [hpartials] at haccounts hincluded
      exact ⟨freed_accounts (haccounts.perm (ownedBy_part _)),
        (List.forall_mem_cons.mp hincluded).2, h.harmless⟩
  | drop _ _ _ _ hpartials hnot =>
      have hincluded := h.included
      rw [hpartials] at hincluded
      exact absurd (List.forall_mem_cons.mp hincluded).1 hnot

theorem Running.reads (h : Running cb before)
    (hread : ReadsTo cb.traced start before after) : Running cb after := by
  refine hread.invariant (I := Running cb) ?_ h
  intro b c hb hstep
  cases hstep with
  | read hread => exact hb.next hread
  | back => exact ⟨hb.accounts, hb.included, hb.harmless⟩

theorem Running.withError (h : Running cb before) {error : String}
    (herror : error = before.error ∨ Harmless error) :
    Running cb { before with error := error } :=
  ⟨h.accounts, h.included, harmless_of h.harmless herror⟩

/-- The object of a lookup that no tag can use is left behind. -/
theorem Running.misuse (h : Running cb before) {name : Bytes} {error : String}
    {lookup : Lookup (Nat × ο)} {o : Nat × ο} {t : Traced σ}
    (hlookup : lookup = .list o ∨ lookup = .stream o)
    (hresolve : cb.traced.resolve before.env name = (lookup, t))
    (herror : error = "unexpected list" ∨ error = "unexpected partial") :
    Accounted cb { before with env := t, error := error } := by
  refine ⟨?_, h.included⟩
  have hmisused : Buffer.Misused { before with env := t, error := error } :=
    herror
  have haccounts := traced_resolve h.accounts hresolve
  have hopen : error ≠ "could not close loop list" := by
    rcases herror with rfl | rfl <;> decide
  rw [last_owned hlookup h.accounts hresolve] at haccounts
  rw [Buffer.owned, Buffer.misused, if_pos hmisused, Buffer.unclosed,
    if_neg hopen]
  exact haccounts

theorem Running.closes (h : Running cb before) {loop : StacheLoop (Nat × ο)}
    {loops : List (StacheLoop (Nat × ο))} {resolved : Nat × ο} {t : Traced σ}
    (hloops : before.loops = loop :: loops)
    (hlookup : loop.lookup = .list resolved)
    (hasks : AsksNext cb.traced resolved loop before.env t false) :
    Accounts (ownedBy cb loops before.partials)
      (loop.lookup.freed cb.traced t).ledger := by
  have haccounts := h.accounts
  rw [hloops, ownedBy, List.flatMap_cons, List.append_assoc, StacheLoop.owned,
    hlookup] at haccounts
  rw [hlookup]
  exact freed_accounts (asksNext_accounts haccounts hasks)

/-- What a partial tag finds is pending, or has been released. -/
theorem includes_accounts {lookup : Lookup (Nat × ο)} {t t' : Traced σ}
    {found : Bool} {owned : List Owned}
    (h : Accounts (lookup.owned cb ++ owned) t.ledger)
    (hincludes : Includes cb.traced lookup t t' found) :
    Accounts ((if found then lookup.owned cb else []) ++ owned) t'.ledger ∧
      (found = true → lookup.Included) := by
  cases hincludes with
  | nothing _ hnone =>
      rcases hnone with rfl | rfl
      · exact ⟨h, nofun⟩
      · exact ⟨h, nofun⟩
  | refuse => exact ⟨freed_accounts h, nofun⟩
  | found _ hincluded => exact ⟨got_accounts h, fun _ => hincluded⟩
  | empty => exact ⟨freed_accounts (got_accounts h), nofun⟩

theorem Running.step (h : Running cb before)
    {r : Bool × Buffer (Traced σ) (Nat × ο) τ}
    (hstep : EngineStep cb.traced start before r) :
    Accounted cb r.2 ∧ (r.1 = true → Running cb r.2) := by
  have hgoes : ∀ {b : Buffer (Traced σ) (Nat × ο) τ}, Running cb b →
      Accounted cb b ∧ (r.1 = true → Running cb b) :=
    fun hb => ⟨hb.accounted, fun _ => hb⟩
  cases hstep with
  | read output result hread =>
      have hwritten : Running cb { before with output := output } :=
        ⟨h.accounts, h.included, h.harmless⟩
      exact hgoes (hwritten.reads hread)
  | fail herror => exact hgoes (h.withError (Or.inr herror))
  | reject =>
      have herror : Harmless "Unclosed or invalid 'stache" := by decide
      exact hgoes ⟨h.accounts, h.included, herror⟩
  | delimiters => exact hgoes ⟨h.accounts, h.included, h.harmless⟩
  | nothing hresolve =>
      exact hgoes ⟨traced_resolve h.accounts hresolve, h.included, h.harmless⟩
  | shown output result hresolve _ herror =>
      have haccounts := traced_resolve h.accounts hresolve
      exact hgoes ⟨freed_accounts (got_accounts haccounts), h.included,
        harmless_of h.harmless herror⟩
  | unexpectedList hresolve =>
      exact ⟨h.misuse (Or.inl rfl) hresolve (Or.inl rfl), nofun⟩
  | unexpectedStream hresolve =>
      exact ⟨h.misuse (Or.inr rfl) hresolve (Or.inr rfl), nofun⟩
  | invalid hresolve =>
      have herror : Harmless "invalid type" := by decide
      exact hgoes ⟨traced_resolve h.accounts hresolve, h.included, herror⟩
  | @openSection name lookup _ _ type result empty hresolve herror =>
      have hloop : (⟨type, name, lookup, before.index, 0, empty⟩ :
          StacheLoop (Nat × ο)).lookup = lookup := rfl
      have haccounts := opened_accounts hloop
        (traced_resolve h.accounts hresolve)
      rw [ownedBy, ← List.append_assoc] at haccounts
      exact hgoes ⟨haccounts, h.included, harmless_of h.harmless herror⟩
  | @closeSection loop loops hloops hnot =>
      have hnone : loop.owned cb = [] := by
        rw [StacheLoop.owned]
        split
        next resolved hlist => exact absurd hlist (hnot resolved)
        next => rfl
      have haccounts := h.accounts
      rw [hloops, ownedBy, List.flatMap_cons, hnone] at haccounts
      exact hgoes ⟨haccounts, h.included, h.harmless⟩
  | @nextItem loop loops resolved env hloops hlookup hasks =>
      have haccounts := h.accounts
      rw [hloops, ownedBy, List.flatMap_cons, List.append_assoc] at haccounts
      have hloop : loop.owned cb = (Lookup.list resolved).owned cb := by
        rw [StacheLoop.owned, hlookup]
      have hnext : loop.next.owned cb = loop.owned cb := rfl
      rw [hloop] at haccounts
      have hasked : Accounts _ env.ledger :=
        asksNext_accounts haccounts hasks
      rw [← hloop, ← hnext, ← List.append_assoc] at hasked
      exact hgoes ⟨hasked, h.included, h.harmless⟩
  | @closeList loop loops resolved env hloops hlookup hasks =>
      have hclosed := h.closes hloops hlookup hasks
      exact hgoes ⟨hclosed, h.included, h.harmless⟩
  | @keepList loop loops resolved env hloops hlookup hasks =>
      have hclosed := h.closes hloops hlookup hasks
      have hunclosed : Buffer.owned cb { before with
          env := loop.lookup.freed cb.traced env, loops := loop.next :: loops,
          error := "could not close loop list" } =
            ownedBy cb loops before.partials := rfl
      exact ⟨⟨hunclosed ▸ hclosed, h.included⟩, nofun⟩
  | @inclusion after name lookup env env' found error error' stream save result
      hresolve hincludes herror hread herror' =>
      obtain ⟨haccounts, hincluded⟩ := includes_accounts
        (traced_resolve h.accounts hresolve) hincludes
      have hopened : Running cb { before with
          env := env', index := start - 1, fill := start, error := error,
          partials := if found then ⟨lookup, stream, save⟩ :: before.partials
            else before.partials } := by
        cases found with
        | true =>
            have hstacked : Accounts (ownedBy cb before.loops
                (⟨lookup, stream, save⟩ :: before.partials)) env'.ledger :=
              haccounts.perm (ownedBy_part ⟨lookup, stream, save⟩).symm
            exact ⟨hstacked, List.forall_mem_cons.mpr
              ⟨hincluded rfl, h.included⟩, harmless_of h.harmless herror⟩
        | false =>
            exact ⟨haccounts, h.included, harmless_of h.harmless herror⟩
      exact hgoes ((hopened.next hread).withError herror')

end

end Libcad
