/-
Clients of an object: what a client calls next depends on the replies to its
earlier calls.  An object that answers every single call as a specification
allows serves a client as the specification allows.
-/
import Libcad.Proc

namespace Libcad

open Proc

/-- A client that makes calls until it is done. -/
inductive Client (C R A : Type)
  | done (a : A)
  | call (c : C) (next : R → Client C R A)

namespace Client

variable {C R A σ δ : Type}

def run (step : σ → C → Proc (R × σ)) : Client C R A → σ → Proc (A × σ)
  | .done a, s => pure (a, s)
  | .call c next, s => do
      let (r, s) ← step s c
      (next r).run step s

/-- What the client may end with when it is answered as the specification
allows. -/
inductive Ends (spec : δ → C → R → δ → Prop) :
    Client C R A → δ → A → δ → Prop
  | done {a : A} {d : δ} : Ends spec (.done a) d a d
  | call {c : C} {next : R → Client C R A} {d d' last : δ} {r : R} {a : A} :
      spec d c r d' → Ends spec (next r) d' a last →
        Ends spec (.call c next) d a last

/-- The client makes at most this many calls, and each of them is allowed at
its time, as long as it is answered as the specification allows. -/
def Obeys (spec : δ → C → R → δ → Prop) (allowed : δ → C → Prop) :
    Client C R A → Nat → δ → Prop
  | .done _, _, _ => True
  | .call _ _, 0, _ => False
  | .call c next, n + 1, d => allowed d c ∧
      ∀ r d', spec d c r d' → (next r).Obeys spec allowed n d'

end Client

/-- The object serves allowed calls as the specification does; `rel n` relates
states from which `n` more calls can be served. -/
structure ServesClients {C R σ δ : Type} (step : σ → C → Proc (R × σ))
    (spec : δ → C → R → δ → Prop) (allowed : δ → C → Prop)
    (rel : Nat → σ → δ → Prop) : Prop where
  call : ∀ {n s d c}, rel (n + 1) s d → allowed d c →
    ∃ r s' d', Returns (step s c) (r, s') ∧ spec d c r d' ∧ rel n s' d'

theorem ServesClients.run {C R A σ δ : Type} {step : σ → C → Proc (R × σ)}
    {spec : δ → C → R → δ → Prop} {allowed : δ → C → Prop}
    {rel : Nat → σ → δ → Prop} (h : ServesClients step spec allowed rel)
    (client : Client C R A) {n : Nat} {s : σ} {d : δ} (hrel : rel n s d)
    (hobeys : client.Obeys spec allowed n d) :
    ∃ a m s' d', Returns (client.run step s) (a, s') ∧
      client.Ends spec d a d' ∧ rel m s' d' := by
  induction client generalizing n s d with
  | done a => exact ⟨a, n, s, d, returns_pure_self _, .done, hrel⟩
  | call c next ih =>
      cases n with
      | zero => exact absurd hobeys id
      | succ n =>
          obtain ⟨r, s', d', hstep, hspec, hnext⟩ := h.call hrel hobeys.1
          obtain ⟨a, m, last, e, hrun, hends, hlast⟩ :=
            ih r hnext (hobeys.2 r d' hspec)
          exact ⟨a, m, last, e, hstep.bind hrun, .call hspec hends, hlast⟩

end Libcad
