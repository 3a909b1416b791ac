/-
What the engine does to its record: one case for each way of reading, and one
for each kind of tag.
-/
import Libcad.StacheReads

namespace Libcad

open Proc

variable {σ ο τ : Type}

/-- The function that releases an object. -/
def Lookup.free (cb : Callback σ ο τ) : Lookup ο → Option (σ → Bool × σ)
  | .string resolved => cb.stringFree resolved
  | .list resolved => cb.listClose resolved
  | .stream resolved => cb.streamFree resolved
  | .notFound | .invalid => none

/-- Whether the engine can read the object as a partial. -/
def Lookup.Included : Lookup ο → Prop
  | .string _ | .stream _ => True
  | .notFound | .list _ | .invalid => False

/-- The state behind the callback after a call; a NULL pointer is not called. -/
def callEnv {β : Type} (f : Option (σ → β × σ)) (env : σ) : σ :=
  match f with
  | none => env
  | some f => (f env).2

/-- The state once the first data of the object was asked for. -/
def Lookup.got (cb : Callback σ ο τ) (lookup : Lookup ο) (env : σ) : σ :=
  match lookup with
  | .string resolved => callEnv (cb.stringGet resolved) env
  | .list resolved =>
      callEnv ((cb.listGet resolved).map fun get env => get env 0) env
  | .stream resolved => callEnv (cb.streamGet resolved) env
  | .notFound | .invalid => env

/-- The state once the object was released. -/
def Lookup.freed (cb : Callback σ ο τ) (lookup : Lookup ο) (env : σ) : σ :=
  callEnv (lookup.free cb) env

/-- The state once the object has opened a section: only lists stay. -/
def Lookup.opened (cb : Callback σ ο τ) (lookup : Lookup ο) (env : σ) : σ :=
  match lookup with
  | .list _ => lookup.got cb env
  | _ => lookup.freed cb (lookup.got cb env)

/-- An error after which no object is left that only the failing tag knows. -/
def Harmless (error : String) : Prop :=
  error ≠ "unexpected list" ∧ error ≠ "unexpected partial" ∧
    error ≠ "could not close loop list"

instance (error : String) : Decidable (Harmless error) :=
  inferInstanceAs (Decidable (_ ∧ _))

theorem call_returns_some {β : Type} {buffer after : Buffer σ ο τ}
    {f : Option (σ → β × σ)} {result : β}
    (h : Returns (buffer.call f) (result, after)) :
    ∃ g, f = some g ∧ result = (g buffer.env).1 ∧
      after = buffer.setEnv (callEnv f buffer.env) := by
  cases f with
  | none => exact absurd h not_returns_undefined
  | some g =>
      cases returns_pure.mp h
      exact ⟨g, rfl, rfl, rfl⟩

theorem callOr_env {β : Type} (buffer : Buffer σ ο τ)
    (f : Option (σ → β × σ)) (default : β) :
    ∃ result, buffer.callOr f default =
      (result, buffer.setEnv (callEnv f buffer.env)) := by
  cases f with
  | none => exact ⟨default, rfl⟩
  | some f => exact ⟨(f buffer.env).1, rfl⟩

theorem callOr_release (buffer : Buffer σ ο τ) (f : Option (σ → Bool × σ)) :
    ∃ freed, buffer.callOr f false =
        (freed, buffer.setEnv (callEnv f buffer.env)) ∧
      (freed = true → f.isSome) := by
  cases f with
  | none => exact ⟨false, rfl, nofun⟩
  | some f => exact ⟨(f buffer.env).1, rfl, fun _ => rfl⟩

theorem Buffer.resolve_eq {cb : Callback σ ο τ} {buffer : Buffer σ ο τ}
    {name : Bytes} {lookup : Lookup ο} {env : σ}
    (h : cb.resolve buffer.env name = (lookup, env)) :
    buffer.resolve cb name = (lookup, buffer.setEnv env) := by
  unfold Buffer.resolve
  rw [h]

section

variable (cb : Callback σ ο τ) (start : Int)

/-- What `buffer_next` does. -/
inductive NextStep : Buffer σ ο τ → Buffer σ ο τ → Prop
  | ended {buffer : Buffer σ ο τ} :
      buffer.eof = true →
        NextStep buffer { buffer with error := "Buffer end reached" }
  | next {buffer : Buffer σ ο τ} :
      buffer.eof = false → buffer.index + 1 ≠ buffer.fill →
        NextStep buffer { buffer with index := buffer.index + 1 }
  | finish {buffer : Buffer σ ο τ} (capacity : Int) :
      buffer.eof = false → buffer.index + 1 = buffer.fill →
        buffer.partials = [] →
        NextStep buffer { buffer with
          index := buffer.index + 1, capacity := capacity, eof := true }
  | input {buffer : Buffer σ ο τ} (data : Int → UInt8) (capacity : Int)
      (input : InputStream τ) (eof : Bool) :
      buffer.eof = false → buffer.index + 1 = buffer.fill →
        buffer.partials = [] →
        NextStep buffer { buffer with
          index := buffer.index + 1, fill := buffer.fill + 1, data := data,
          capacity := capacity, input := input, eof := eof }
  | stream {buffer : Buffer σ ο τ} {part : StachePartial ο τ}
      {partials : List (StachePartial ο τ)} (data : Int → UInt8)
      (capacity : Int) (stream : InputStream τ) (eof : Bool) :
      buffer.eof = false → buffer.index + 1 = buffer.fill →
        buffer.partials = part :: partials →
        NextStep buffer { buffer with
          index := buffer.index + 1, fill := buffer.fill + 1, data := data,
          capacity := capacity, eof := eof,
          partials := { part with stream := stream } :: partials }
  | release {buffer : Buffer σ ο τ} {part : StachePartial ο τ}
      {partials : List (StachePartial ο τ)} (data : Int → UInt8)
      (capacity : Int) :
      buffer.eof = false → buffer.index + 1 = buffer.fill →
        buffer.partials = part :: partials → part.lookup.Included →
        NextStep buffer { buffer with
          index := buffer.index + 1, fill := buffer.fill + 1, data := data,
          capacity := capacity, env := part.lookup.freed cb buffer.env,
          partials := partials }
  | drop {buffer : Buffer σ ο τ} {part : StachePartial ο τ}
      {partials : List (StachePartial ο τ)} (data : Int → UInt8)
      (capacity : Int) {error : String} :
      buffer.eof = false → buffer.index + 1 = buffer.fill →
        buffer.partials = part :: partials → ¬ part.lookup.Included →
        error = buffer.error ∨ Harmless error →
        NextStep buffer { buffer with
          index := buffer.index + 1, fill := buffer.fill + 1, data := data,
          capacity := capacity, partials := partials, error := error }

/-- The engine also goes back, but not before the place where it started. -/
inductive ReadStep : Buffer σ ο τ → Buffer σ ο τ → Prop
  | read {before after : Buffer σ ο τ} :
      NextStep cb before after → ReadStep before after
  | back {buffer : Buffer σ ο τ} {index : Int} :
      start ≤ index → index ≤ buffer.index →
        ReadStep buffer { buffer with index := index }

/-- Reading leads from one record to another one. -/
abbrev ReadsTo : Buffer σ ο τ → Buffer σ ο τ → Prop :=
  Relation.ReflTransGen (ReadStep cb start)

end

variable {fns : StreamFns τ} {cb : Callback σ ο τ} {start : Int}
  {before after buffer : Buffer σ ο τ}

theorem ReadsTo.invariant {I : Buffer σ ο τ → Prop}
    (hstep : ∀ {before after}, I before → ReadStep cb start before after →
      I after)
    (h : ReadsTo cb start before after) (hbefore : I before) : I after := by
  induction h with
  | refl => exact hbefore
  | tail _ hread ih => exact hstep ih hread

theorem ReadsTo.start_le (h : ReadsTo cb start before after)
    (hstart : start ≤ before.index) : start ≤ after.index := by
  refine h.invariant (I := fun b => start ≤ b.index) ?_ hstart
  intro before after hbefore hstep
  cases hstep with
  | back hle => exact hle
  | read hread =>
      have hnext : before.index ≤ before.index + 1 :=
        Int.le_add_one (Int.le_refl _)
      cases hread with
      | ended => exact hbefore
      | next | finish | input | stream | release | drop =>
          exact Int.le_trans hbefore hnext

/-- Reading that does not go back far is reading. -/
theorem ReadsTo.weaken {low : Int} (h : ReadsTo cb start before after)
    (hlow : low ≤ start) : ReadsTo cb low before after := by
  induction h with
  | refl => exact .refl
  | tail _ hstep ih =>
      refine ih.tail ?_
      cases hstep with
      | read hread => exact .read hread
      | back hstart hback => exact .back (Int.le_trans hlow hstart) hback

theorem bufferReadPartial_reads {part : StachePartial ο τ}
    {partials : List (StachePartial ο τ)} {capacity : Int}
    (hlive : buffer.eof = false) (hfill : buffer.index + 1 = buffer.fill)
    (hpartials : buffer.partials = part :: partials)
    (h : Returns (bufferReadPartial fns cb part partials { buffer with
      index := buffer.index + 1, capacity := capacity }) after) :
    NextStep cb buffer after := by
  have hbug : Harmless "BUG unexpected type" := by decide
  obtain ⟨lookup, stream, save⟩ := part
  rw [bufferReadPartial] at h
  dsimp only at h
  split at h
  next =>
    cases lookup with
    | string resolved =>
        obtain ⟨⟨freed, called⟩, hcall, h⟩ := returns_bind.mp h
        cases returns_pure.mp h
        obtain ⟨free, -, -, rfl⟩ := call_returns_some hcall
        exact .release _ _ hlive hfill hpartials trivial
    | stream resolved =>
        obtain ⟨⟨freed, called⟩, hcall, h⟩ := returns_bind.mp h
        cases returns_pure.mp h
        obtain ⟨free, -, -, rfl⟩ := call_returns_some hcall
        exact .release _ _ hlive hfill hpartials trivial
    | notFound =>
        cases returns_pure.mp h
        exact .drop _ _ hlive hfill hpartials id (Or.inr hbug)
    | list resolved =>
        cases returns_pure.mp h
        exact .drop _ _ hlive hfill hpartials id (Or.inr hbug)
    | invalid =>
        cases returns_pure.mp h
        exact .drop _ _ hlive hfill hpartials id (Or.inl rfl)
  next =>
    cases returns_pure.mp h
    exact .stream _ _ (stream.next fns).2 (decide ((stream.next fns).1 ≠ 0))
      hlive hfill hpartials

theorem Buffer.grow_step (buffer : Buffer σ ο τ) :
    ∃ capacity, buffer.grow = { buffer with capacity := capacity } := by
  rw [Buffer.grow]
  split
  next => exact ⟨_, rfl⟩
  next => exact ⟨buffer.capacity, rfl⟩

theorem bufferNext_step {more : Bool}
    (h : Returns (bufferNext fns cb buffer) (more, after)) :
    NextStep cb buffer after := by
  rw [bufferNext] at h
  split at h
  next hended =>
    cases returns_pure.mp h
    exact .ended hended
  next hlive =>
    rw [Bool.not_eq_true] at hlive
    dsimp only at h
    split at h
    next hfill =>
      obtain ⟨fetched, hfetch, h⟩ := returns_bind.mp h
      cases returns_pure.mp h
      obtain ⟨capacity, hgrown⟩ := Buffer.grow_step
        { buffer with index := buffer.index + 1 }
      rw [hgrown, bufferFetch] at hfetch
      split at hfetch
      next hpartials =>
        cases returns_pure.mp hfetch
        rw [bufferRead]
        dsimp only
        split
        next => exact .finish capacity hlive hfill hpartials
        next =>
          exact .input _ capacity (buffer.input.next fns).2
            (decide ((buffer.input.next fns).1 ≠ 0)) hlive hfill hpartials
      next part partials hpartials =>
        exact bufferReadPartial_reads hlive hfill hpartials hfetch
    next hfill =>
      cases returns_pure.mp h
      exact .next hlive hfill

theorem bufferNext_reads {more : Bool}
    (h : Returns (bufferNext fns cb buffer) (more, after)) :
    ReadsTo cb start buffer after :=
  .single (.read (bufferNext_step h))

/-- Where there is more to read the engine moves on by one byte. -/
theorem bufferNext_more
    (h : Returns (bufferNext fns cb buffer) (true, after)) :
    buffer.eof = false ∧ after.index = buffer.index + 1 := by
  have hlive : buffer.eof = false := by
    cases heof : buffer.eof with
    | false => rfl
    | true =>
        rw [bufferNext, heof, if_pos rfl] at h
        cases returns_pure.mp h
  refine ⟨hlive, ?_⟩
  cases bufferNext_step h with
  | ended hended =>
      rw [hlive] at hended
      cases hended
  | next | finish | input | stream | release | drop => rfl

theorem bufferNext_fails
    (h : Returns (bufferNext fns cb buffer) (false, after)) :
    buffer.eof = true := by
  rw [bufferNext] at h
  split at h
  next hended => exact hended
  next =>
    dsimp only at h
    split at h
    next =>
      obtain ⟨fetched, -, h⟩ := returns_bind.mp h
      cases returns_pure.mp h
    next => cases returns_pure.mp h

/-- Going back only over what was just read is reading. -/
theorem readsTo_closed :
    ReadClosed fns cb fun before after =>
      ReadsTo cb before.index before after where
  refl _ := .refl
  trans hab hbc := hab.trans (hbc.weaken (hab.start_le (Int.le_refl _)))
  next h := bufferNext_reads h
  back h := h.tail (.back (Int.le_refl _) (h.start_le (Int.le_refl _)))

theorem bufferLookAt_reads {expected : Bytes} {matched : Bool}
    (hstart : start ≤ buffer.index)
    (h : Returns (bufferLookAt fns cb expected buffer) (matched, after)) :
    ReadsTo cb start buffer after :=
  (readsTo_closed.lookAt h).weaken hstart

theorem parseName_some {suffix : Option Bytes} {name : NameBlock}
    (hstart : start ≤ buffer.index)
    (h : Returns (parseName fns cb suffix buffer) (some name, after)) :
    ReadsTo cb start buffer after :=
  (readsTo_closed.parseName h).weaken hstart

/-- A tag that is not accepted is recorded, and gone back over. -/
theorem parseName_none {suffix : Option Bytes}
    (hstart : start ≤ buffer.index)
    (h : Returns (parseName fns cb suffix buffer) (none, after)) :
    ∃ read, ReadsTo cb start buffer read ∧ buffer.index ≤ read.index ∧
      after = read.reject suffix buffer.index := by
  obtain ⟨skipped, hskip, h⟩ := returns_bind.mp h
  obtain ⟨⟨result, read⟩, hloop, h⟩ := returns_bind.mp h
  have hread : ReadsTo cb buffer.index buffer read :=
    readsTo_closed.parseLoop hskip hloop
  refine ⟨read, hread.weaken hstart, hread.start_le (Int.le_refl _), ?_⟩
  cases result with
  | some name => cases returns_pure.mp h
  | none =>
      cases returns_pure.mp h
      rfl

theorem renderStacheComment_reads {closed : Bool}
    (hstart : start ≤ buffer.index)
    (h : Returns (renderStacheComment fns cb buffer) (closed, after)) :
    ReadsTo cb start buffer after :=
  (readsTo_closed.comment h).weaken hstart

/-- What a partial tag does with the object it finds, and whether a stream
comes out of it. -/
inductive Includes (cb : Callback σ ο τ) : Lookup ο → σ → σ → Bool → Prop
  | nothing {lookup : Lookup ο} (env : σ) :
      lookup = .notFound ∨ lookup = .invalid →
        Includes cb lookup env env false
  | refuse {resolved : ο} (env : σ) :
      (cb.listClose resolved).isSome →
        Includes cb (.list resolved) env
          ((Lookup.list resolved).freed cb env) false
  | found {lookup : Lookup ο} (env : σ) :
      lookup.Included → Includes cb lookup env (lookup.got cb env) true
  | empty {lookup : Lookup ο} (env : σ) :
      lookup.Included → (lookup.free cb).isSome →
        Includes cb lookup env (lookup.freed cb (lookup.got cb env)) false

/-- The state once an item of a list was asked for. -/
def askItem (cb : Callback σ ο τ) (resolved : ο) (index : Int) (env : σ) : σ :=
  callEnv ((cb.listGet resolved).map fun get env => get env index) env

/-- What a list answers for an item; without the function there is none. -/
def itemAnswer (cb : Callback σ ο τ) (resolved : ο) (index : Int) (env : σ) :
    Bool :=
  match cb.listGet resolved with
  | none => false
  | some get => (get env index).1

/-- Whether the closing tag of a list section finds another item: only a
section that is not inverted asks for it. -/
inductive AsksNext (cb : Callback σ ο τ) (resolved : ο) (loop : StacheLoop ο)
    (env : σ) : σ → Bool → Prop
  | inverted : loop.type = .loopElse → AsksNext cb resolved loop env env false
  | asked : loop.type = .loopWhile → (cb.listGet resolved).isSome →
      AsksNext cb resolved loop env
        (askItem cb resolved loop.next.loopIndex env)
        (itemAnswer cb resolved loop.next.loopIndex env)

/-- What the engine can do after reading from the place where it started: a
byte of text, or a tag. -/
inductive EngineStep (cb : Callback σ ο τ) (start : Int) :
    Buffer σ ο τ → Bool × Buffer σ ο τ → Prop
  | read {buffer after : Buffer σ ο τ} (output : Bytes) (result : Bool) :
      ReadsTo cb start { buffer with output := output } after →
        EngineStep cb start buffer (result, after)
  | fail (buffer : Buffer σ ο τ) {error : String} :
      Harmless error → EngineStep cb start buffer (buffer.fail error)
  | reject {buffer : Buffer σ ο τ} {index : Int} (suffix : Option Bytes) :
      start ≤ index → index ≤ buffer.index →
      EngineStep cb start buffer
        (decide (suffix ≠ some [ascii '=']), buffer.reject suffix index)
  | delimiters (buffer : Buffer σ ο τ) (first second : Bytes) :
      EngineStep cb start buffer (true, { buffer with
        openDelimiter := first, closeDelimiter := second })
  | nothing {buffer : Buffer σ ο τ} {name : Bytes} {env : σ} :
      cb.resolve buffer.env name = (.notFound, env) →
        EngineStep cb start buffer (true, buffer.setEnv env)
  | shown {buffer : Buffer σ ο τ} {name : Bytes} {resolved : ο} {env : σ}
      {error : String} (output : Bytes) (result : Bool) :
      cb.resolve buffer.env name = (.string resolved, env) →
        (cb.stringFree resolved).isSome →
        error = buffer.error ∨ Harmless error →
        EngineStep cb start buffer (result, { buffer with
          env := (Lookup.string resolved).freed cb
            ((Lookup.string resolved).got cb env)
          output := output, error := error })
  | unexpectedList {buffer : Buffer σ ο τ} {name : Bytes} {resolved : ο}
      {env : σ} :
      cb.resolve buffer.env name = (.list resolved, env) →
        EngineStep cb start buffer ((buffer.setEnv env).fail "unexpected list")
  | unexpectedStream {buffer : Buffer σ ο τ} {name : Bytes} {resolved : ο}
      {env : σ} :
      cb.resolve buffer.env name = (.stream resolved, env) →
        EngineStep cb start buffer ((buffer.setEnv env).fail "unexpected partial")
  | invalid {buffer : Buffer σ ο τ} {name : Bytes} {env : σ} :
      cb.resolve buffer.env name = (.invalid, env) →
        EngineStep cb start buffer ((buffer.setEnv env).fail "invalid type")
  | openSection {buffer : Buffer σ ο τ} {name : Bytes} {lookup : Lookup ο}
      {env : σ} {error : String} (type : LoopType) (result empty : Bool) :
      cb.resolve buffer.env name = (lookup, env) →
        error = buffer.error ∨ Harmless error →
        (∀ resolved, lookup = .list resolved →
          empty = !itemAnswer cb resolved 0 env) →
        EngineStep cb start buffer (result, { buffer with
          env := lookup.opened cb env, error := error,
          loops := ⟨type, name, lookup, buffer.index, 0, empty⟩ ::
            buffer.loops })
  | closeSection {buffer : Buffer σ ο τ} {loop : StacheLoop ο}
      {loops : List (StacheLoop ο)} :
      buffer.loops = loop :: loops →
        (∀ resolved, loop.lookup ≠ .list resolved) →
        EngineStep cb start buffer (true, { buffer with loops := loops })
  | nextItem {buffer : Buffer σ ο τ} {loop : StacheLoop ο}
      {loops : List (StacheLoop ο)} {resolved : ο} {env : σ} :
      buffer.loops = loop :: loops → loop.lookup = .list resolved →
        AsksNext cb resolved loop buffer.env env true →
        EngineStep cb start buffer (true, { buffer with
          env := env, index := loop.bufferIndex, loops := loop.next :: loops })
  | closeList {buffer : Buffer σ ο τ} {loop : StacheLoop ο}
      {loops : List (StacheLoop ο)} {resolved : ο} {env : σ} :
      buffer.loops = loop :: loops → loop.lookup = .list resolved →
        AsksNext cb resolved loop buffer.env env false →
        (cb.listClose resolved).isSome →
        EngineStep cb start buffer (true, { buffer with
          env := loop.lookup.freed cb env, loops := loops })
  | keepList {buffer : Buffer σ ο τ} {loop : StacheLoop ο}
      {loops : List (StacheLoop ο)} {resolved : ο} {env : σ} :
      buffer.loops = loop :: loops → loop.lookup = .list resolved →
        AsksNext cb resolved loop buffer.env env false →
        EngineStep cb start buffer (false, { buffer with
          env := loop.lookup.freed cb env, loops := loop.next :: loops,
          error := "could not close loop list" })
  | inclusion {buffer after : Buffer σ ο τ} {name : Bytes}
      {lookup : Lookup ο} {env env' : σ} {found : Bool}
      {error error' : String} (stream : InputStream τ) (save : UInt8)
      (result : Bool) :
      cb.resolve buffer.env name = (lookup, env) →
        Includes cb lookup env env' found →
        error = buffer.error ∨ Harmless error →
        NextStep cb { buffer with
          env := env', index := start - 1, fill := start, error := error,
          partials := if found then ⟨lookup, stream, save⟩ :: buffer.partials
            else buffer.partials } after →
        error' = after.error ∨ Harmless error' →
        (result = true → buffer.eof = false ∧ after.index = start) →
        EngineStep cb start buffer (result, { after with error := error' })

theorem EngineStep.ignore {suffix : Option Bytes} {index : Int}
    (hsuffix : suffix ≠ some [ascii '=']) (hstart : start ≤ index)
    (hindex : index ≤ buffer.index) :
    EngineStep cb start buffer (true, buffer.reject suffix index) := by
  have hstep : EngineStep cb start buffer _ := .reject suffix hstart hindex
  rwa [decide_eq_true hsuffix] at hstep

/-- A function that writes the text of a variable changes nothing but the
output. -/
def OnlyWrites
    (write : Option Bytes → Buffer σ ο τ → Proc (Buffer σ ο τ)) : Prop :=
  ∀ {c before after}, Returns (write c before) after →
    ∃ output, after = { before with output := output }

theorem freeString_step {name : Bytes} {resolved : ο} {env : σ}
    (output : Bytes) (hresolve : cb.resolve buffer.env name = (.string resolved, env))
    {r : Bool × Buffer σ ο τ}
    (h : Returns (freeString cb resolved { buffer with
      env := (Lookup.string resolved).got cb env, output := output }) r) :
    EngineStep cb start buffer r := by
  have hfreed : Harmless "could not free string" := by decide
  obtain ⟨⟨freed, called⟩, hcall, h⟩ := returns_bind.mp h
  obtain ⟨free, hfree, -, rfl⟩ := call_returns_some hcall
  have hfree := Option.isSome_of_eq_some hfree
  cases freed with
  | true =>
      cases returns_pure.mp h
      exact .shown output true hresolve hfree (Or.inl rfl)
  | false =>
      cases returns_pure.mp h
      exact .shown output false hresolve hfree (Or.inr hfreed)

theorem renderVariable_step {suffix : Option Bytes} {invalidName : String}
    {write : Option Bytes → Buffer σ ο τ → Proc (Buffer σ ο τ)}
    (hsuffix : suffix ≠ some [ascii '=']) (hinvalid : Harmless invalidName)
    (hwrite : OnlyWrites write) {r : Bool × Buffer σ ο τ}
    (hstart : start ≤ buffer.index)
    (h : Returns (renderVariable fns cb suffix invalidName write buffer) r) :
    ∃ read, ReadsTo cb start buffer read ∧ EngineStep cb start read r := by
  obtain ⟨⟨name, parsed⟩, hparse, h⟩ := returns_bind.mp h
  cases name with
  | none =>
      obtain ⟨read, hread, hindex, rfl⟩ := parseName_none hstart hparse
      cases returns_pure.mp h
      exact ⟨read, hread, .ignore hsuffix hstart hindex⟩
  | some name =>
      refine ⟨parsed, parseName_some hstart hparse, ?_⟩
      dsimp only at h
      split at h
      next =>
        cases returns_pure.mp h
        exact .fail parsed hinvalid
      next =>
        cases hresolve : cb.resolve parsed.env name.string with
        | mk lookup env =>
          rw [Buffer.resolve_eq hresolve] at h
          cases lookup with
          | notFound =>
              cases returns_pure.mp h
              exact .nothing hresolve
          | string resolved =>
              obtain ⟨⟨c, got⟩, hget, h⟩ := returns_bind.mp h
              obtain ⟨written, hwritten, h⟩ := returns_bind.mp h
              obtain ⟨output, rfl⟩ := hwrite hwritten
              obtain ⟨get, -, -, rfl⟩ := call_returns_some hget
              exact freeString_step output hresolve h
          | list resolved =>
              cases returns_pure.mp h
              exact .unexpectedList hresolve
          | stream resolved =>
              cases returns_pure.mp h
              exact .unexpectedStream hresolve
          | invalid =>
              cases returns_pure.mp h
              exact .invalid hresolve

theorem writeRaw_only : OnlyWrites (@writeRaw σ ο τ) := by
  intro c before after h
  unfold writeRaw at h
  split at h
  next =>
    cases returns_pure.mp h
    exact ⟨_, rfl⟩
  next =>
    cases c with
    | none => exact absurd h not_returns_undefined
    | some c =>
        cases returns_pure.mp h
        exact bufferOutput_only before (cString c)

theorem writeEscaped_only : OnlyWrites (@writeEscaped σ ο τ) := by
  intro c before after h
  cases c with
  | none => exact absurd h not_returns_undefined
  | some c =>
      cases returns_pure.mp h
      clear h
      induction cString c generalizing before with
      | nil => exact ⟨_, rfl⟩
      | cons b rest ih =>
          obtain ⟨output, heq⟩ := bufferOutput_only before (escapeChar b)
          rw [List.foldl_cons, heq]
          obtain ⟨output', heq'⟩ := ih
          exact ⟨output', heq'⟩

theorem releaseSection_env (free : Option (σ → Bool × σ)) {error : String}
    (herror : Harmless error) (result empty : Bool) (buffer : Buffer σ ο τ) :
    ∃ result' error', releaseSection free error (result, empty, buffer) =
        (result', empty, { buffer with
          env := callEnv free buffer.env, error := error' }) ∧
      (error' = buffer.error ∨ Harmless error') := by
  obtain ⟨freed, hcalled⟩ := callOr_env buffer free false
  rw [releaseSection]
  dsimp only
  rw [hcalled]
  cases freed with
  | true => exact ⟨result, buffer.error, rfl, Or.inl rfl⟩
  | false => exact ⟨false, error, rfl, Or.inr herror⟩

theorem readSection_env (fns : StreamFns τ)
    (stream : Option (InputStream τ)) (buffer : Buffer σ ο τ) :
    ∃ result empty error, readSection fns stream buffer =
        (result, empty, { buffer with error := error }) ∧
      (error = buffer.error ∨ Harmless error) := by
  have hread : Harmless "error while reading partial" := by decide
  unfold readSection
  split
  next empty _ => exact ⟨true, empty, buffer.error, rfl, Or.inl rfl⟩
  next => exact ⟨false, false, _, rfl, Or.inr hread⟩

/-- The switch of `render_stache_loop` calls the functions of the object. -/
theorem openLoop_env (fns : StreamFns τ) (cb : Callback σ ο τ)
    (lookup : Lookup ο) (buffer : Buffer σ ο τ) :
    ∃ result empty error, openLoop fns cb lookup buffer =
        (result, empty, { buffer with
          env := lookup.opened cb buffer.env, error := error }) ∧
      (error = buffer.error ∨ Harmless error) := by
  cases lookup with
  | notFound => exact ⟨true, true, buffer.error, rfl, Or.inl rfl⟩
  | string resolved =>
      have hfreed : Harmless "could not free string" := by decide
      obtain ⟨c, hget⟩ := callOr_env buffer (cb.stringGet resolved) none
      obtain ⟨result, error, hrelease, herror⟩ := releaseSection_env
        (cb.stringFree resolved) hfreed true
        (decide ((c.map cString).getD [] = []))
        (buffer.setEnv (callEnv (cb.stringGet resolved) buffer.env))
      refine ⟨result, decide ((c.map cString).getD [] = []), error, ?_, herror⟩
      rw [openLoop]
      dsimp only
      rw [hget]
      exact hrelease
  | list resolved =>
      obtain ⟨found, hget⟩ := callOr_env buffer
        ((cb.listGet resolved).map fun get env => get env 0) false
      refine ⟨true, !found, buffer.error, ?_, Or.inl rfl⟩
      rw [openLoop]
      dsimp only
      rw [hget]
      rfl
  | stream resolved =>
      have hfreed : Harmless "could not free partial" := by decide
      obtain ⟨s, hget⟩ := callOr_env buffer (cb.streamGet resolved) none
      obtain ⟨success, empty, error, hsection, herror⟩ :=
        readSection_env fns s
          (buffer.setEnv (callEnv (cb.streamGet resolved) buffer.env))
      obtain ⟨result, error', hrelease, herror'⟩ := releaseSection_env
        (cb.streamFree resolved) hfreed success empty
        { buffer.setEnv (callEnv (cb.streamGet resolved) buffer.env) with
          error := error }
      refine ⟨result, empty, error', ?_, ?_⟩
      · rw [openLoop]
        dsimp only
        rw [hget]
        dsimp only
        rw [hsection]
        exact hrelease
      · rcases herror' with rfl | herror'
        · exact herror
        · exact Or.inr herror'
  | invalid =>
      have hinvalid : Harmless "invalid type" := by decide
      exact ⟨false, false, _, rfl, Or.inr hinvalid⟩

theorem openLoop_list (fns : StreamFns τ) (cb : Callback σ ο τ)
    (resolved : ο) (buffer : Buffer σ ο τ) :
    (openLoop fns cb (.list resolved) buffer).2.1 =
      !itemAnswer cb resolved 0 buffer.env := by
  rw [openLoop, itemAnswer]
  cases cb.listGet resolved <;> rfl

theorem renderStacheLoop_step {type : LoopType} {r : Bool × Buffer σ ο τ}
    (hstart : start ≤ buffer.index)
    (h : Returns (renderStacheLoop fns cb type buffer) r) :
    ∃ read, ReadsTo cb start buffer read ∧ EngineStep cb start read r := by
  obtain ⟨⟨name, parsed⟩, hparse, h⟩ := returns_bind.mp h
  cases name with
  | none =>
      obtain ⟨read, hread, hindex, rfl⟩ := parseName_none hstart hparse
      cases returns_pure.mp h
      exact ⟨read, hread, .ignore (fun heq => by cases heq) hstart hindex⟩
  | some name =>
      refine ⟨parsed, parseName_some hstart hparse, ?_⟩
      rcases hresolve : cb.resolve parsed.env name.string with ⟨lookup, env⟩
      obtain ⟨result, empty, error, hopen, herror⟩ :=
        openLoop_env fns cb lookup (parsed.setEnv env)
      have hempty : ∀ resolved, lookup = .list resolved →
          empty = !itemAnswer cb resolved 0 env := by
        rintro resolved rfl
        have hlist := openLoop_list fns cb resolved (parsed.setEnv env)
        rw [hopen] at hlist
        exact hlist
      dsimp only at h
      rw [Buffer.resolve_eq hresolve] at h
      dsimp only at h
      rw [hopen] at h
      cases returns_pure.mp h
      exact .openSection type result empty hresolve herror hempty

theorem listNext_asks {resolved : ο} {loop : StacheLoop ο} {found : Bool}
    (h : Returns (listNext cb resolved loop.next.loopIndex buffer loop.type)
      (found, after)) :
    ∃ env : σ, after = buffer.setEnv env ∧
      AsksNext cb resolved loop buffer.env env found := by
  cases htype : loop.type with
  | loopElse =>
      rw [htype] at h
      cases returns_pure.mp h
      exact ⟨_, rfl, .inverted htype⟩
  | loopWhile =>
      rw [htype] at h
      cases hget : cb.listGet resolved with
      | none =>
          rw [listNext, hget] at h
          exact absurd h not_returns_undefined
      | some get =>
          have hasks : AsksNext cb resolved loop buffer.env _ _ :=
            .asked htype (Option.isSome_of_eq_some hget)
          rw [askItem, itemAnswer, hget] at hasks
          rw [listNext, hget] at h
          cases returns_pure.mp h
          exact ⟨_, rfl, hasks⟩

theorem endList_step {loop : StacheLoop ο} {loops : List (StacheLoop ο)}
    {resolved : ο} {r : Bool × Buffer σ ο τ}
    (hloops : buffer.loops = loop :: loops)
    (hlookup : loop.lookup = .list resolved)
    (h : Returns (endList cb resolved loop loops buffer) r) :
    EngineStep cb start buffer r := by
  obtain ⟨⟨found, asked⟩, hnext, h⟩ := returns_bind.mp h
  have hnext : Returns (listNext cb resolved loop.next.loopIndex
      { buffer with loops := loop.next :: loops } loop.type) (found, asked) :=
    hnext
  obtain ⟨env, rfl, hasks⟩ := listNext_asks hnext
  cases found with
  | true =>
      cases returns_pure.mp h
      exact .nextItem hloops hlookup hasks
  | false =>
      have hfreed : callEnv (cb.listClose resolved) env =
          loop.lookup.freed cb env := by
        rw [hlookup]
        rfl
      obtain ⟨closed, hcalled, hsome⟩ := callOr_release
        ({ buffer with loops := loop.next :: loops }.setEnv env)
        (cb.listClose resolved)
      dsimp only at h
      rw [if_neg Bool.false_ne_true, hcalled] at h
      dsimp only [Buffer.setEnv] at h
      rw [hfreed] at h
      cases closed with
      | true =>
          cases returns_pure.mp h
          exact .closeList hloops hlookup hasks (hsome rfl)
      | false =>
          cases returns_pure.mp h
          exact .keepList hloops hlookup hasks

theorem renderStacheEnd_step {r : Bool × Buffer σ ο τ}
    (hstart : start ≤ buffer.index)
    (h : Returns (renderStacheEnd fns cb buffer) r) :
    ∃ read, ReadsTo cb start buffer read ∧ EngineStep cb start read r := by
  have hnone : Harmless "closing non-open loop" := by decide
  have hother : Harmless
      "closing loop name different from opening loop name" := by decide
  obtain ⟨⟨name, parsed⟩, hparse, h⟩ := returns_bind.mp h
  cases name with
  | none =>
      obtain ⟨read, hread, hindex, rfl⟩ := parseName_none hstart hparse
      cases returns_pure.mp h
      exact ⟨read, hread, .ignore (fun heq => by cases heq) hstart hindex⟩
  | some name =>
      refine ⟨parsed, parseName_some hstart hparse, ?_⟩
      dsimp only at h
      cases hloops : parsed.loops with
      | nil =>
          rw [hloops] at h
          cases returns_pure.mp h
          exact .fail parsed hnone
      | cons loop loops =>
          rw [hloops] at h
          dsimp only at h
          split at h
          next =>
            cases returns_pure.mp h
            exact .fail parsed hother
          next =>
            cases hlookup : loop.lookup with
            | list resolved =>
                rw [hlookup] at h
                exact endList_step hloops hlookup h
            | invalid =>
                rw [hlookup] at h
                cases returns_pure.mp h
                exact .read parsed.output true .refl
            | notFound =>
                rw [hlookup] at h
                cases returns_pure.mp h
                exact .closeSection hloops
                  (fun _ heq => by rw [hlookup] at heq; cases heq)
            | string resolved =>
                rw [hlookup] at h
                cases returns_pure.mp h
                exact .closeSection hloops
                  (fun _ heq => by rw [hlookup] at heq; cases heq)
            | stream resolved =>
                rw [hlookup] at h
                cases returns_pure.mp h
                exact .closeSection hloops
                  (fun _ heq => by rw [hlookup] at heq; cases heq)

theorem scanDelimiters_harmless {text : Bytes} {error : String}
    (h : Returns (scanDelimiters text) (.error error)) : Harmless error := by
  have hclose : Harmless
      "invalid delimiter change: close delimiter not found" := by decide
  have hspace : Harmless
      "invalid delimiter change: no space allowed in close delimiter" := by
    decide
  have hequal : Harmless
      "invalid delimiter change: missing closing equal sign" := by decide
  rw [scanDelimiters] at h
  split at h
  next =>
    dsimp only at h
    split at h
    next =>
      cases returns_pure.mp h
      exact hclose
    next =>
      split at h
      next =>
        cases returns_pure.mp h
        exact hspace
      next =>
        split at h
        next => cases returns_pure.mp h
        next =>
          cases returns_pure.mp h
          exact hequal
  next => exact absurd h not_returns_undefined

theorem renderStacheDelimiters_step {r : Bool × Buffer σ ο τ}
    (hstart : start ≤ buffer.index)
    (h : Returns (renderStacheDelimiters fns cb buffer) r) :
    ∃ read, ReadsTo cb start buffer read ∧ EngineStep cb start read r := by
  obtain ⟨⟨name, parsed⟩, hparse, h⟩ := returns_bind.mp h
  cases name with
  | none =>
      obtain ⟨read, hread, hindex, rfl⟩ := parseName_none hstart hparse
      cases returns_pure.mp h
      exact ⟨read, hread, .reject (some [ascii '=']) hstart hindex⟩
  | some name =>
      refine ⟨parsed, parseName_some hstart hparse, ?_⟩
      obtain ⟨scanned, hscan, h⟩ := returns_bind.mp h
      cases scanned with
      | ok delimiters =>
          cases returns_pure.mp h
          exact .delimiters parsed _ _
      | error error =>
          cases returns_pure.mp h
          exact .fail parsed (scanDelimiters_harmless hscan)

theorem openPartial_includes {lookup : Lookup ο} {result : Bool}
    {stream : Option (InputStream τ)}
    (h : Returns (openPartial cb lookup buffer) (result, stream, after)) :
    ∃ env error, Includes cb lookup buffer.env env stream.isSome ∧
      after = { buffer with env := env, error := error } ∧
      (error = buffer.error ∨ Harmless error) := by
  cases lookup with
  | notFound =>
      cases returns_pure.mp h
      exact ⟨after.env, after.error, .nothing _ (Or.inl rfl), rfl, Or.inl rfl⟩
  | invalid =>
      cases returns_pure.mp h
      exact ⟨after.env, after.error, .nothing _ (Or.inr rfl), rfl, Or.inl rfl⟩
  | string resolved =>
      obtain ⟨⟨c, got⟩, hget, h⟩ := returns_bind.mp h
      obtain ⟨get, -, -, rfl⟩ := call_returns_some hget
      cases c with
      | some c =>
          cases returns_pure.mp h
          exact ⟨_, buffer.error, .found buffer.env trivial, rfl, Or.inl rfl⟩
      | none =>
          obtain ⟨⟨freed, called⟩, hcall, h⟩ := returns_bind.mp h
          cases returns_pure.mp h
          obtain ⟨free, hfree, -, rfl⟩ := call_returns_some hcall
          have hfree := Option.isSome_of_eq_some hfree
          exact ⟨_, buffer.error, .empty buffer.env trivial hfree, rfl,
            Or.inl rfl⟩
  | list resolved =>
      have hlist : Harmless "unexpected list for partial" := by decide
      obtain ⟨⟨closed, called⟩, hcall, h⟩ := returns_bind.mp h
      cases returns_pure.mp h
      obtain ⟨close, hclose, -, rfl⟩ := call_returns_some hcall
      have hclose := Option.isSome_of_eq_some hclose
      exact ⟨_, _, .refuse buffer.env hclose, rfl, Or.inr hlist⟩
  | stream resolved =>
      obtain ⟨⟨s, got⟩, hget, h⟩ := returns_bind.mp h
      obtain ⟨get, -, -, rfl⟩ := call_returns_some hget
      cases s with
      | some s =>
          cases returns_pure.mp h
          exact ⟨_, buffer.error, .found buffer.env trivial, rfl, Or.inl rfl⟩
      | none =>
          obtain ⟨⟨freed, called⟩, hcall, h⟩ := returns_bind.mp h
          cases returns_pure.mp h
          obtain ⟨free, hfree, -, rfl⟩ := call_returns_some hcall
          have hfree := Option.isSome_of_eq_some hfree
          exact ⟨_, buffer.error, .empty buffer.env trivial hfree, rfl,
            Or.inl rfl⟩

theorem pushPartial_stacks {lookup : Lookup ο}
    {stream : Option (InputStream τ)}
    (h : Returns (pushPartial lookup stream buffer) after) :
    ∃ s save, after = { buffer with
      partials := if stream.isSome then ⟨lookup, s, save⟩ :: buffer.partials
        else buffer.partials } := by
  cases stream with
  | none =>
      cases returns_pure.mp h
      exact ⟨after.input, 0, rfl⟩
  | some s =>
      obtain ⟨save, -, h⟩ := returns_bind.mp h
      cases returns_pure.mp h
      exact ⟨s, save, rfl⟩

theorem renderStachePartial_step {r : Bool × Buffer σ ο τ}
    (hstart : start ≤ buffer.index)
    (h : Returns (renderStachePartial fns cb start buffer) r) :
    ∃ read, ReadsTo cb start buffer read ∧ EngineStep cb start read r := by
  obtain ⟨⟨name, parsed⟩, hparse, h⟩ := returns_bind.mp h
  cases name with
  | none =>
      obtain ⟨read, hread, hindex, rfl⟩ := parseName_none hstart hparse
      cases returns_pure.mp h
      exact ⟨read, hread, .ignore (fun heq => by cases heq) hstart hindex⟩
  | some name =>
      refine ⟨parsed, parseName_some hstart hparse, ?_⟩
      rcases hresolve : cb.resolve parsed.env name.string with ⟨lookup, env⟩
      have hbug : Harmless "BUG: no next at partial start" := by decide
      dsimp only at h
      rw [Buffer.resolve_eq hresolve] at h
      obtain ⟨⟨result, stream, opened⟩, hopen, h⟩ := returns_bind.mp h
      obtain ⟨env', error, hincludes, rfl, herror⟩ := openPartial_includes hopen
      obtain ⟨pushed, hpush, h⟩ := returns_bind.mp h
      obtain ⟨s, save, rfl⟩ := pushPartial_stacks hpush
      obtain ⟨⟨more, next⟩, hnext, h⟩ := returns_bind.mp h
      have hread := bufferNext_step hnext
      cases more with
      | true =>
          obtain ⟨hlive, hindex⟩ := bufferNext_more hnext
          have hback : next.index = start :=
            hindex.trans (Int.sub_add_cancel start 1)
          cases returns_pure.mp h
          exact .inclusion s save result hresolve hincludes herror hread
            (Or.inl rfl) fun _ => ⟨hlive, hback⟩
      | false =>
          cases returns_pure.mp h
          exact .inclusion s save false hresolve hincludes herror hread
            (Or.inr hbug) nofun

theorem renderTag_step {next : UInt8} {r : Bool × Buffer σ ο τ}
    (hlater : start ≤ buffer.index - 1)
    (h : Returns (renderTag fns cb start next buffer) r) :
    ∃ read, ReadsTo cb start buffer read ∧ EngineStep cb start read r := by
  have hraw : Harmless "invalid raw name" := by decide
  have hescape : Harmless "invalid escape name" := by decide
  have hstart : start ≤ buffer.index :=
    Int.le_trans hlater (Int.sub_le_self _ (by decide))
  rw [renderTag] at h
  split at h
  next => exact renderVariable_step (by decide) hraw writeRaw_only hstart h
  next =>
    split at h
    next => exact renderStacheLoop_step hstart h
    next =>
      split at h
      next => exact renderStacheEnd_step hstart h
      next =>
        split at h
        next => exact renderStacheLoop_step hstart h
        next =>
          split at h
          next => exact renderStacheDelimiters_step hstart h
          next =>
            split at h
            next =>
              obtain ⟨closed, after⟩ := r
              exact ⟨after, renderStacheComment_reads hstart h,
                .read after.output closed .refl⟩
            next =>
              split at h
              next => exact renderStachePartial_step hstart h
              next =>
                obtain ⟨read, hread, hstep⟩ := renderVariable_step
                  (by decide) hescape writeEscaped_only hlater h
                have hback : ReadsTo cb start buffer
                    { buffer with index := buffer.index - 1 } :=
                  .single (.back hlater (Int.sub_le_self _ (by decide)))
                exact ⟨read, hback.trans hread, hstep⟩

/-- The buffer stands at a tag with this byte after the opening delimiter; the
reading goes on from `start`. -/
def Buffer.TagAt (fns : StreamFns τ) (cb : Callback σ ο τ)
    (buffer : Buffer σ ο τ) (c : UInt8) (start : Buffer σ ο τ) : Prop :=
  bufferEof buffer = false ∧ ∃ opened,
    Returns (bufferLookAt fns cb buffer.openDelimiter buffer) (true, opened) ∧
    bufferEof opened = false ∧ Returns (bufferItem opened) c ∧
    Returns (bufferNext fns cb opened) (true, start)

theorem Buffer.TagAt.unique {c c' : UInt8} {start start' : Buffer σ ο τ}
    (h : buffer.TagAt fns cb c start) (h' : buffer.TagAt fns cb c' start') :
    c = c' ∧ start = start' := by
  obtain ⟨-, opened, hlook, -, hitem, hnext⟩ := h
  obtain ⟨-, opened', hlook', -, hitem', hnext'⟩ := h'
  cases hlook.unique hlook'
  cases hnext.unique hnext'
  exact ⟨hitem.unique hitem', rfl⟩

/-- What an iteration of `render_template` comes to. -/
def iterated (r : Bool × Buffer σ ο τ) :
    Buffer σ ο τ ⊕ (Bool × Buffer σ ο τ) :=
  if r.1 then .inl r.2 else .inr (false, r.2)

theorem Buffer.TagAt.step {c : UInt8} {start : Buffer σ ο τ}
    {o : Buffer σ ο τ ⊕ (Bool × Buffer σ ο τ)}
    (htag : buffer.TagAt fns cb c start)
    (h : Returns (renderStep fns cb buffer) o) :
    ∃ r, Returns (renderTag fns cb buffer.index c start) r ∧ o = iterated r := by
  obtain ⟨hlive, opened, hlook, hopened, hitem, hnext⟩ := htag
  rw [renderStep, if_neg (Bool.not_eq_true _ ▸ hlive), hlook.bind_iff] at h
  obtain ⟨r, hr, h⟩ := returns_bind.mp h
  refine ⟨r, ?_, (returns_pure.mp h).symm⟩
  change Returns (renderStache fns cb buffer.index opened) r at hr
  rw [renderStache, if_neg (Bool.not_eq_true _ ▸ hopened), hitem.bind_iff,
    hnext.bind_iff] at hr
  exact hr

def Buffer.EndsTag (fns : StreamFns τ) (cb : Callback σ ο τ)
    (buffer last : Buffer σ ο τ) : Prop :=
  bufferEof buffer = false ∧ ∃ opened,
    Returns (bufferLookAt fns cb buffer.openDelimiter buffer) (true, opened) ∧
    ((bufferEof opened = true ∧ last = opened) ∨
      (bufferEof opened = false ∧ (∃ c, Returns (bufferItem opened) c) ∧
        Returns (bufferNext fns cb opened) (false, last)))

/-- An iteration is at the end of the template, at a byte of text or at a tag;
or the template ends where a tag was opened. -/
theorem renderStep_cases {o : Buffer σ ο τ ⊕ (Bool × Buffer σ ο τ)}
    (h : Returns (renderStep fns cb buffer) o) :
    (bufferEof buffer = true ∧ o = .inr (true, buffer)) ∨
      (bufferEof buffer = false ∧ ∃ looked output r,
        Returns (bufferLookAt fns cb buffer.openDelimiter buffer)
          (false, looked) ∧
        Returns (bufferNext fns cb { looked with output := output }) r ∧
        o = iterated r) ∨
      (∃ c start, buffer.TagAt fns cb c start) ∨
      (∃ last, buffer.EndsTag fns cb last ∧ o = .inr (last.fail
        "Invalid 'stache: nothing found after 'stache opening")) := by
  rw [renderStep] at h
  split at h
  next hended =>
    cases returns_pure.mp h
    exact Or.inl ⟨hended, rfl⟩
  next hlive =>
  rw [Bool.not_eq_true] at hlive
  obtain ⟨⟨opened, looked⟩, hlook, h⟩ := returns_bind.mp h
  obtain ⟨r, hr, hlast⟩ := returns_bind.mp h
  have hlast : iterated r = o := returns_pure.mp hlast
  cases opened with
  | false =>
      obtain ⟨c, -, hr⟩ := returns_bind.mp hr
      obtain ⟨output, hwritten⟩ := bufferOutput_only looked [c]
      rw [hwritten] at hr
      exact Or.inr (Or.inl ⟨hlive, looked, output, r, hlook, hr, hlast.symm⟩)
  | true =>
      change Returns (renderStache fns cb buffer.index looked) r at hr
      rw [renderStache] at hr
      split at hr
      next hended =>
        cases returns_pure.mp hr
        exact Or.inr (Or.inr (Or.inr
          ⟨looked, ⟨hlive, looked, hlook, Or.inl ⟨hended, rfl⟩⟩, hlast.symm⟩))
      next hopened =>
        rw [Bool.not_eq_true] at hopened
        obtain ⟨c, hitem, hr⟩ := returns_bind.mp hr
        obtain ⟨⟨more, start⟩, hnext, hr⟩ := returns_bind.mp hr
        cases more with
        | true =>
            exact Or.inr (Or.inr (Or.inl
              ⟨c, start, hlive, looked, hlook, hopened, hitem, hnext⟩))
        | false =>
            cases returns_pure.mp hr
            exact Or.inr (Or.inr (Or.inr ⟨start, ⟨hlive, looked, hlook,
              Or.inr ⟨hopened, ⟨c, hitem⟩, hnext⟩⟩, hlast.symm⟩))

/-- One iteration of `render_template` that goes on or fails. -/
theorem renderStep_step {o : Buffer σ ο τ ⊕ (Bool × Buffer σ ο τ)}
    (h : Returns (renderStep fns cb buffer) o) :
    (bufferEof buffer = true ∧ o = .inr (true, buffer)) ∨
      ∃ read r, ReadsTo cb buffer.index buffer read ∧
        EngineStep cb buffer.index read r ∧
        o = if r.1 then .inl r.2 else .inr (false, r.2) := by
  have hnothing : Harmless
      "Invalid 'stache: nothing found after 'stache opening" := by decide
  rcases renderStep_cases h with hended |
    ⟨-, looked, output, ⟨more, after⟩, hlook, hnext, ho⟩ | ⟨c, start, htag⟩ |
    ⟨last, ⟨-, opened, hlook, hcut⟩, ho⟩
  · exact Or.inl hended
  · have hread : ReadsTo cb buffer.index buffer looked :=
      bufferLookAt_reads (Int.le_refl _) hlook
    exact Or.inr ⟨looked, (more, after), hread,
      .read output more (bufferNext_reads hnext), ho⟩
  · obtain ⟨r, hr, ho⟩ := htag.step h
    obtain ⟨-, opened, hlook, -, -, hnext⟩ := htag
    have hread : ReadsTo cb buffer.index buffer opened :=
      bufferLookAt_reads (Int.le_refl _) hlook
    have hopened := hread.start_le (Int.le_refl _)
    obtain ⟨-, hindex⟩ := bufferNext_more hnext
    have hlater : buffer.index ≤ start.index - 1 := by omega
    obtain ⟨read, htag, hstep⟩ := renderTag_step hlater hr
    exact Or.inr ⟨read, r, (hread.trans (bufferNext_reads hnext)).trans htag,
      hstep, ho⟩
  · have hread : ReadsTo cb buffer.index buffer opened :=
      bufferLookAt_reads (Int.le_refl _) hlook
    have hlast : ReadsTo cb buffer.index buffer last := by
      rcases hcut with ⟨-, rfl⟩ | ⟨-, -, hnext⟩
      · exact hread
      · exact hread.trans (bufferNext_reads hnext)
    exact Or.inr ⟨last, _, hlast, .fail last hnothing, ho⟩

/-- A new buffer is never empty, so `render` always goes through the
template. -/
theorem render_returns {env : σ} {input : InputStream τ} {data : Int → UInt8}
    {r : Rendered σ} (h : Returns (render fns cb env input data) r) :
    ∃ start result last,
      Returns (bufferNext fns cb (newBuffer env input data)) (true, start) ∧
      Returns (renderTemplate fns cb start) (result, last) ∧
      r = last.rendered result := by
  obtain ⟨⟨more, start⟩, hnext, h⟩ := returns_bind.mp h
  cases more with
  | false => cases bufferNext_fails hnext
  | true =>
      obtain ⟨⟨result, last⟩, htemplate, h⟩ := returns_bind.mp h
      exact ⟨start, result, last, hnext, htemplate, (returns_pure.mp h).symm⟩

/-- A state of the loop of `render_template`, when `render` has this input. -/
def Rendering (fns : StreamFns τ) (cb : Callback σ ο τ) (env : σ)
    (input : InputStream τ) (data : Int → UInt8) (buffer : Buffer σ ο τ) :
    Prop :=
  ∃ first, Returns (bufferNext fns cb (newBuffer env input data)) (true, first) ∧
    Reaches (renderStep fns cb) first buffer

section

variable {env : σ} {input : InputStream τ} {data : Int → UInt8}
  {r : Rendered σ}

theorem Rendering.next (h : Rendering fns cb env input data buffer)
    (hstep : Returns (renderStep fns cb buffer) (.inl after)) :
    Rendering fns cb env input data after := by
  obtain ⟨first, hfirst, hreach⟩ := h
  exact ⟨first, hfirst, hreach.trans (Reaches.step hstep)⟩

theorem Rendering.returns (h : Rendering fns cb env input data buffer)
    (hr : Returns (render fns cb env input data) r) :
    ∃ result last, Returns (renderTemplate fns cb buffer) (result, last) ∧
      r = last.rendered result := by
  obtain ⟨start, result, last, hstart, htemplate, rfl⟩ := render_returns hr
  obtain ⟨first, hfirst, hreach⟩ := h
  cases hstart.unique hfirst
  exact ⟨result, last, hreach.returns_iff.mp htemplate, rfl⟩

theorem rendered_leaves (h : Returns (render fns cb env input data) r) :
    ∃ before result last, Rendering fns cb env input data before ∧
      Returns (renderStep fns cb before) (.inr (result, last)) ∧
      r = last.rendered result := by
  obtain ⟨start, result, last, hstart, htemplate, rfl⟩ := render_returns h
  obtain ⟨before, hreach, hleave⟩ := htemplate.loop_leaves
  exact ⟨before, result, last, ⟨start, hstart, hreach⟩, hleave, rfl⟩

end

end Libcad
