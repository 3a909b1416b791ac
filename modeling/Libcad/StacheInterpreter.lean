/-
An interpreter for templates as trees, over any callback.  It knows nothing of
bytes, buffers and open sections: it calls the functions of the objects that
are found, one after the other, and writes, until something is wrong.
Templates with inclusions are not interpreted.
-/
import Libcad.StacheTemplate

namespace Libcad

open Proc

variable {σ ο τ : Type}

/-- The state behind the callback and what has been written. -/
structure Progress (σ : Type) where
  env : σ
  output : Bytes
deriving Repr, DecidableEq

def Progress.write (p : Progress σ) (hidden : Bool) (text : Bytes) :
    Progress σ :=
  if hidden then p else { p with output := p.output ++ text }

def Progress.call {β : Type} (p : Progress σ) (f : Option (σ → β × σ)) :
    Proc (β × Progress σ) :=
  match f with
  | none => Proc.undefined
  | some f =>
      let (result, env) := f p.env
      pure (result, { p with env := env })

/-- A guarded call: a NULL function pointer answers `default`. -/
def Progress.callOr {β : Type} (p : Progress σ) (f : Option (σ → β × σ))
    (default : β) : β × Progress σ :=
  match f with
  | none => (default, p)
  | some f =>
      let (result, env) := f p.env
      (result, { p with env := env })

/-- What `on_error` is told, unless all was accepted. -/
abbrev Fault := Option String

def faultUnless (well : Bool) (message : String) : Fault :=
  if well then none else some message

def Progress.lookup (p : Progress σ) (cb : Callback σ ο τ) (name : Bytes) :
    Lookup ο × Progress σ :=
  let (lookup, env) := cb.resolve p.env name
  (lookup, { p with env := env })

section

variable (fns : StreamFns τ) (cb : Callback σ ο τ)

/-- The string of a variable as it is; NULL cannot be printed. -/
def showRaw (hidden : Bool) (c : Option Bytes) (p : Progress σ) :
    Proc (Progress σ) :=
  if hidden then pure p
  else
    match c with
    | none => Proc.undefined
    | some c => pure (p.write hidden (cString c))

/-- The string of a variable with its special bytes escaped; it is gone
through even when it is hidden. -/
def showEscaped (hidden : Bool) (c : Option Bytes) (p : Progress σ) :
    Proc (Progress σ) :=
  match c with
  | none => Proc.undefined
  | some c => pure (p.write hidden ((cString c).flatMap escapeChar))

/-- A variable: its string is shown and released. -/
def interpretVariable (present : Option Bytes → Progress σ → Proc (Progress σ))
    (name : Bytes) (p : Progress σ) : Proc (Fault × Progress σ) :=
  let (lookup, p) := p.lookup cb name
  match lookup with
  | .notFound => pure (none, p)
  | .string resolved => do
      let (c, p) ← p.call (cb.stringGet resolved)
      let p ← present c p
      let (freed, p) ← p.call (cb.stringFree resolved)
      pure (faultUnless freed "could not free string", p)
  | .list _ => pure (some "unexpected list", p)
  | .stream _ => pure (some "unexpected partial", p)
  | .invalid => pure (some "invalid type", p)

/-- A section is entered: what is wrong with it, and whether there is nothing
to show. -/
def enterSection (lookup : Lookup ο) (p : Progress σ) :
    Fault × Bool × Progress σ :=
  match lookup with
  | .notFound => (none, true, p)
  | .string resolved =>
      let (c, p) := p.callOr (cb.stringGet resolved) none
      let (freed, p) := p.callOr (cb.stringFree resolved) false
      (faultUnless freed "could not free string",
        decide ((c.map cString).getD [] = []), p)
  | .list resolved =>
      let get := (cb.listGet resolved).map fun get env => get env 0
      let (found, p) := p.callOr get false
      (none, !found, p)
  | .stream resolved =>
      let (s, p) := p.callOr (cb.streamGet resolved) none
      let (freed, p) := p.callOr (cb.streamFree resolved) false
      let read := faultUnless (streamEmpty fns s).isSome
        "error while reading partial"
      (if freed then read else some "could not free partial",
        (streamEmpty fns s).getD false, p)
  | .invalid => (some "invalid type", false, p)

/-- The item of a list after the one at an index; an inverted section has
none. -/
def nextOf (resolved : ο) (type : LoopType) (index : Int) (p : Progress σ) :
    Proc (Bool × Progress σ) :=
  match type with
  | .loopElse => pure (false, p)
  | .loopWhile =>
      p.call ((cb.listGet resolved).map fun get env => get env (index + 1))

/-- The body of a section has been gone through: it is gone through again for
the next item of a list, or the section is left. -/
def leaveSection (type : LoopType) (lookup : Lookup ο) (index : Int)
    (p : Progress σ) : Proc ((Int × Progress σ) ⊕ (Fault × Progress σ)) :=
  match lookup with
  | .list resolved => do
      let (found, p) ← nextOf cb resolved type index p
      if found then pure (.inl (index + 1, p))
      else
        let (closed, p) := p.callOr (cb.listClose resolved) false
        pure (.inr (faultUnless closed "could not close loop list", p))
  | _ => pure (.inr (none, p))

def throughBody (body : Progress σ → Proc (Fault × Progress σ))
    (type : LoopType) (lookup : Lookup ο) (s : Int × Progress σ) :
    Proc ((Int × Progress σ) ⊕ (Fault × Progress σ)) := do
  let (fault, p) ← body s.2
  if fault.isSome then pure (.inr (fault, p))
  else leaveSection cb type lookup s.1 p

/-- The opening tag of a section, before what the section does. -/
def interpretOpening (name : Bytes)
    (inside : Lookup ο → Bool → Progress σ → Proc (Fault × Progress σ))
    (p : Progress σ) : Proc (Fault × Progress σ) :=
  let (lookup, p) := p.lookup cb name
  let (fault, empty, p) := enterSection fns cb lookup p
  if fault.isSome then pure (fault, p) else inside lookup empty p

/-- A section with its body, which is told whether it is hidden. -/
def interpretSection (body : Bool → Progress σ → Proc (Fault × Progress σ))
    (type : LoopType) (name : Bytes) (p : Progress σ) :
    Proc (Fault × Progress σ) :=
  interpretOpening fns cb name (fun lookup empty p =>
    Proc.loop (throughBody cb (body (type.hides empty)) type lookup) (0, p)) p

def andGoOn (r : Fault × Progress σ)
    (rest : Progress σ → Proc (Fault × Progress σ)) :
    Proc (Fault × Progress σ) :=
  if r.1.isSome then pure r else rest r.2

@[simp] theorem andGoOn_none (p : Progress σ)
    (rest : Progress σ → Proc (Fault × Progress σ)) :
    andGoOn (none, p) rest = rest p := rfl

@[simp] theorem andGoOn_some (message : String) (p : Progress σ)
    (rest : Progress σ → Proc (Fault × Progress σ)) :
    andGoOn (some message, p) rest = pure (some message, p) := rfl

namespace Template

/-- What a template comes to, shown or hidden: what was wrong, and what has
been done up to there. -/
def interpret : Template → Bool → Progress σ → Proc (Fault × Progress σ)
  | nil, _, p => pure (none, p)
  | text c rest, hidden, p => rest.interpret hidden (p.write hidden [c])
  | escaped name rest, hidden, p => do
      let r ← interpretVariable cb (showEscaped hidden) name p
      andGoOn r (rest.interpret hidden)
  | raw name rest, hidden, p => do
      let r ← interpretVariable cb (showRaw hidden) name p
      andGoOn r (rest.interpret hidden)
  | comment _ rest, hidden, p => rest.interpret hidden p
  | loop type name body rest, hidden, p => do
      let r ← interpretSection fns cb
        (fun unshown => body.interpret (unshown || hidden)) type name p
      andGoOn r (rest.interpret hidden)
  | inclusion _ _, _, _ => Proc.undefined

/-- The template does not end with a section. -/
def Trails : Template → Prop
  | nil => True
  | text _ rest | escaped _ rest | raw _ rest | comment _ rest
  | inclusion _ rest => rest.Trails
  | loop _ _ _ rest => rest ≠ nil ∧ rest.Trails

end Template

end

end Libcad
