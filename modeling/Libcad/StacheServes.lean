/-
Callbacks whose answers depend only on the name and on the open list sections
with their indices.  The state behind such a callback may be anything, as long
as a relation between it and the objects in use is kept by every call the
engine makes.
-/
import Libcad.StacheTokens

namespace Libcad

open Proc

variable {σ ο τ : Type}

/-- A list object of an open section, with what it answers. -/
structure OpenList (ο : Type) where
  object : ο
  frame : Frame
  get : Option (Int → Bool)
  close : Option Bool

/-- A string or stream object in use, with what it answers. -/
inductive Held (ο τ : Type)
  | string (object : ο) (get : Option (Option Bytes)) (free : Option Bool)
  | stream (object : ο) (get : Option (Option (InputStream τ)))
      (free : Option Bool)

/-- Which states behind a callback belong to which objects in use. -/
abbrev Session (σ ο τ : Type) :=
  σ → List (OpenList ο) → List (Held ο τ) → Prop

/-- A function pointer is NULL exactly when it should be, and its call answers
as it should and leads to a state of the session. -/
def Matches {β : Type} (f : Option (σ → β × σ)) (answer : Option β) (env : σ)
    (after : σ → Prop) : Prop :=
  match f, answer with
  | none, none => True
  | some f, some a => (f env).1 = a ∧ after (f env).2
  | _, _ => False

/-- A lookup hands out an object for the answer. -/
def Resolves (R : Session σ ο τ) (lists : List (OpenList ο))
    (held : List (Held ο τ)) (name : Bytes) :
    Answer τ → Lookup ο × σ → Prop
  | .notFound, (.notFound, env) => R env lists held
  | .string get free, (.string object, env) =>
      R env lists (.string object get free :: held)
  | .list get close, (.list object, env) =>
      R env (⟨object, ⟨name, 0⟩, get, close⟩ :: lists) held
  | .stream get free, (.stream object, env) =>
      R env lists (.stream object get free :: held)
  | .invalid, (.invalid, env) => R env lists held
  | _, _ => False

/-- The callback gives these answers, in every state of the session. -/
structure Serves (cb : Callback σ ο τ) (answers : Answers τ)
    (R : Session σ ο τ) : Prop where
  resolve : ∀ {env lists held} (name : Bytes), R env lists held →
    Resolves R lists held name
      (answers (lists.map OpenList.frame) name) (cb.resolve env name)
  stringGet : ∀ {env lists held object get free},
    R env lists (.string object get free :: held) →
    Matches (cb.stringGet object) get env
      fun env => R env lists (.string object get free :: held)
  stringFree : ∀ {env lists held object get free},
    R env lists (.string object get free :: held) →
    Matches (cb.stringFree object) free env fun env => R env lists held
  listGet : ∀ {env object name index get close lists held} (n : Int),
    R env (⟨object, ⟨name, index⟩, get, close⟩ :: lists) held →
    Matches ((cb.listGet object).map fun f env => f env n)
      (get.map fun f => f n) env
      fun env => R env (⟨object, ⟨name, n⟩, get, close⟩ :: lists) held
  listClose : ∀ {env object frame get close lists held},
    R env (⟨object, frame, get, close⟩ :: lists) held →
    Matches (cb.listClose object) close env fun env => R env lists held
  streamGet : ∀ {env lists held object get free},
    R env lists (.stream object get free :: held) →
    Matches (cb.streamGet object) get env
      fun env => R env lists (.stream object get free :: held)
  streamFree : ∀ {env lists held object get free},
    R env lists (.stream object get free :: held) →
    Matches (cb.streamFree object) free env fun env => R env lists held

/-- The strings and streams in use can be released. -/
structure Releases (cb : Callback σ ο τ) (R : Session σ ο τ) : Prop where
  stringFree : ∀ {env lists held object get free},
    R env lists (.string object get free :: held) →
    Matches (cb.stringFree object) free env fun env => R env lists held
  streamFree : ∀ {env lists held object get free},
    R env lists (.stream object get free :: held) →
    Matches (cb.streamFree object) free env fun env => R env lists held

theorem Serves.releases {cb : Callback σ ο τ} {answers : Answers τ}
    {R : Session σ ο τ} (hs : Serves cb answers R) : Releases cb R :=
  ⟨hs.stringFree, hs.streamFree⟩

theorem Matches.call {β : Type} {f : Option (σ → β × σ)} {a : β}
    (buffer : Buffer σ ο τ) {after : σ → Prop}
    (h : Matches f (some a) buffer.env after) :
    ∃ env, Returns (buffer.call f) (a, buffer.setEnv env) ∧ after env := by
  cases f with
  | none => exact h.elim
  | some f => exact ⟨(f buffer.env).2, h.1 ▸ returns_pure_self _, h.2⟩

theorem Matches.call_null {β : Type} {f : Option (σ → β × σ)}
    (buffer : Buffer σ ο τ) {after : σ → Prop}
    (h : Matches f none buffer.env after) :
    buffer.call f = Proc.undefined := by
  cases f with
  | none => rfl
  | some f => exact h.elim

theorem Matches.call_stuck {β : Type} {f : Option (σ → β × σ)}
    (buffer : Buffer σ ο τ) {after : σ → Prop}
    (h : Matches f none buffer.env after) (a : β × Buffer σ ο τ) :
    ¬ Returns (buffer.call f) a := by
  rw [h.call_null]
  exact not_returns_undefined

/-- A guarded call answers the default for a NULL pointer. -/
theorem Matches.callOr {β : Type} {f : Option (σ → β × σ)} {a : Option β}
    (buffer : Buffer σ ο τ) {after : σ → Prop} (default : β)
    (h : Matches f a buffer.env after) (hnull : a = none → after buffer.env) :
    ∃ env, buffer.callOr f default = (a.getD default, buffer.setEnv env) ∧
      after env := by
  cases f with
  | none =>
      cases a with
      | none => exact ⟨buffer.env, rfl, hnull rfl⟩
      | some a => exact h.elim
  | some f =>
      cases a with
      | none => exact h.elim
      | some a =>
          refine ⟨(f buffer.env).2, ?_, h.2⟩
          rw [Buffer.callOr, Option.getD_some, ← h.1]

/-- A guarded release succeeds only when it was called. -/
theorem Matches.release {f : Option (σ → Bool × σ)} {a : Option Bool}
    (buffer : Buffer σ ο τ) {after : σ → Prop}
    (h : Matches f a buffer.env after) :
    ∃ env, buffer.callOr f false = (a.getD false, buffer.setEnv env) ∧
      (a.getD false = true → after env) := by
  cases a with
  | none =>
      cases f with
      | none => exact ⟨buffer.env, rfl, fun h => absurd h Bool.false_ne_true⟩
      | some f => exact h.elim
  | some a =>
      obtain ⟨env, hcall, hafter⟩ :=
        h.callOr buffer false fun hnull => nomatch hnull
      exact ⟨env, hcall, fun _ => hafter⟩

/-- The callback whose state is the stack of open lists and whose objects are
the answers themselves. -/
def answering (answers : Answers τ) :
    Callback (List Frame) (Answer τ) τ where
  resolve env name :=
    match answers env name with
    | .notFound => (.notFound, env)
    | .string get free => (.string (.string get free), env)
    | .list get close => (.list (.list get close), ⟨name, 0⟩ :: env)
    | .stream get free => (.stream (.stream get free), env)
    | .invalid => (.invalid, env)
  stringGet
    | .string (some c) _ => some fun env => (c, env)
    | _ => none
  stringFree
    | .string _ (some freed) => some fun env => (freed, env)
    | _ => none
  listGet
    | .list (some get) _ => some fun env n =>
        (get n, match env with
          | [] => []
          | frame :: env => { frame with index := n } :: env)
    | _ => none
  listClose
    | .list _ (some closed) => some fun env => (closed, env.tail)
    | _ => none
  streamGet
    | .stream (some s) _ => some fun env => (s, env)
    | _ => none
  streamFree
    | .stream _ (some freed) => some fun env => (freed, env)
    | _ => none

/-- The session of `answering`. -/
structure AnsweringSession (env : List Frame)
    (lists : List (OpenList (Answer τ))) (held : List (Held (Answer τ) τ)) :
    Prop where
  frames : env = lists.map OpenList.frame
  lists : ∀ l ∈ lists, l.object = .list l.get l.close
  held : ∀ h ∈ held, match h with
    | .string object get free => object = .string get free
    | .stream object get free => object = .stream get free

theorem answering_serves (answers : Answers τ) :
    Serves (answering answers) answers AnsweringSession where
  resolve := by
    intro env lists held name h
    obtain ⟨rfl, hl, hh⟩ := h
    simp only [answering]
    cases answers (lists.map OpenList.frame) name with
    | notFound => exact ⟨rfl, hl, hh⟩
    | invalid => exact ⟨rfl, hl, hh⟩
    | string get free =>
        exact ⟨rfl, hl, List.forall_mem_cons.mpr ⟨rfl, hh⟩⟩
    | stream get free =>
        exact ⟨rfl, hl, List.forall_mem_cons.mpr ⟨rfl, hh⟩⟩
    | list get close =>
        exact ⟨rfl, List.forall_mem_cons.mpr ⟨rfl, hl⟩, hh⟩
  stringGet := by
    intro env lists held object get free h
    have hobject : object = .string get free :=
      h.held _ List.mem_cons_self
    subst hobject
    cases get with
    | none => trivial
    | some c => exact ⟨rfl, h⟩
  stringFree := by
    intro env lists held object get free h
    have hobject : object = .string get free :=
      h.held _ List.mem_cons_self
    subst hobject
    cases free with
    | none => trivial
    | some freed =>
        exact ⟨rfl, h.frames, h.lists, (List.forall_mem_cons.mp h.held).2⟩
  listGet := by
    intro env object name index get close lists held n h
    have hobject : object = .list get close := h.lists _ List.mem_cons_self
    subst hobject
    obtain ⟨rfl, hl, hh⟩ := h
    cases get with
    | none => trivial
    | some get =>
        exact ⟨rfl, rfl,
          List.forall_mem_cons.mpr ⟨rfl, (List.forall_mem_cons.mp hl).2⟩, hh⟩
  listClose := by
    intro env object frame get close lists held h
    have hobject : object = .list get close := h.lists _ List.mem_cons_self
    subst hobject
    obtain ⟨rfl, hl, hh⟩ := h
    cases close with
    | none => trivial
    | some closed => exact ⟨rfl, rfl, (List.forall_mem_cons.mp hl).2, hh⟩
  streamGet := by
    intro env lists held object get free h
    have hobject : object = .stream get free :=
      h.held _ List.mem_cons_self
    subst hobject
    cases get with
    | none => trivial
    | some c => exact ⟨rfl, h⟩
  streamFree := by
    intro env lists held object get free h
    have hobject : object = .stream get free :=
      h.held _ List.mem_cons_self
    subst hobject
    cases free with
    | none => trivial
    | some freed =>
        exact ⟨rfl, h.frames, h.lists, (List.forall_mem_cons.mp h.held).2⟩

theorem answeringSession_nil : AnsweringSession ([] : List Frame) []
    ([] : List (Held (Answer τ) τ)) :=
  ⟨rfl, fun _ h => absurd h List.not_mem_nil,
    fun _ h => absurd h List.not_mem_nil⟩

end Libcad
