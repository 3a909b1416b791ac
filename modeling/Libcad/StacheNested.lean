/-
Renderings inside a lookup.  The delimiters belong to the engine, the engine is
handed to the callback, and each call of `render` allocates delimiters and
frees them at its end: a lookup that renders on the engine leaves the rendering
it belongs to with two strings that were freed.
-/
import Libcad.Checked
import Libcad.StacheMemory
import Libcad.StacheTerminates
import Libcad.StacheTokens

namespace Libcad

open Proc

variable {σ ο τ : Type}

/-- `struct cad_stache_impl`: the blocks that `open` and `close` point to, and
the strings in the blocks that were allocated and not freed. -/
structure CadStache where
  openDelimiter : Nat
  closeDelimiter : Nat
  blocks : Nat → Option Bytes
  next : Nat

/-- `malloc`, and `sprintf` of a string into the new block. -/
def CadStache.alloc (this : CadStache) (text : Bytes) : Nat × CadStache :=
  (this.next, { this with
    blocks := Function.update this.blocks this.next (some text),
    next := this.next + 1 })

/-- `free` -/
def CadStache.freeBlock (this : CadStache) (block : Nat) : Proc CadStache :=
  match this.blocks block with
  | some _ => pure { this with blocks := Function.update this.blocks block none }
  | none => Proc.undefined

/-- Allocate `this->open` and `this->close`. -/
def CadStache.setDelimiters (this : CadStache) (first second : Bytes) :
    CadStache :=
  let (opening, this) := this.alloc first
  let this := { this with openDelimiter := opening }
  let (closing, this) := this.alloc second
  { this with closeDelimiter := closing }

/-- Free `this->open` and `this->close`. -/
def CadStache.freeDelimiters (this : CadStache) : Proc CadStache := do
  let this ← this.freeBlock this.openDelimiter
  this.freeBlock this.closeDelimiter

/-- The strings that `this->open` and `this->close` point to. -/
def CadStache.delimiters (this : CadStache) : Option (Bytes × Bytes) :=
  match this.blocks this.openDelimiter, this.blocks this.closeDelimiter with
  | some first, some second => some (first, second)
  | _, _ => none

/-- A new engine; `render` gives it its delimiters. -/
def CadStache.new : CadStache := ⟨0, 0, fun _ => none, 0⟩

/-- The delimiters are the same live strings as before. -/
def CadStache.Keeps (before after : CadStache) : Prop :=
  after.openDelimiter = before.openDelimiter ∧
    after.closeDelimiter = before.closeDelimiter ∧
    after.delimiters = before.delimiters ∧ after.delimiters ≠ none

instance (before after : CadStache) : Decidable (before.Keeps after) :=
  inferInstanceAs (Decidable (_ ∧ _ ∧ _ ∧ _))

/-- What a callback does in a lookup: it may call `render` on the engine, with
the state behind it as it is by then, and go on with what that left behind,
before it answers. -/
inductive Script (σ ο τ : Type)
  | answer (lookup : Lookup ο) (env : σ)
  | render (env : σ) (input : InputStream τ) (rest : Rendered σ → Script σ ο τ)

/-- The callback has called `render`. -/
def Script.nests : Script σ ο τ → Bool
  | .answer _ _ => false
  | .render _ _ _ => true

/-- A callback with the objects it hands out; `objects.resolve` is not used. -/
structure NestingCallback (σ ο τ : Type) where
  objects : Callback σ ο τ
  resolve : σ → Bytes → Script σ ο τ

def NestingCallback.answered (cb : NestingCallback σ ο τ) (lookup : Lookup ο)
    (env : σ) : Callback σ ο τ :=
  { cb.objects with resolve := fun _ _ => (lookup, env) }

/-- `render`, as the callback calls it. -/
abbrev NestedRender (σ τ : Type) : Type :=
  CadStache → σ → InputStream τ → Checked Unit (Rendered σ × CadStache)

/-- `this->callback` -/
abbrev EngineLookup (σ ο : Type) : Type :=
  CadStache → σ → Bytes → Checked Unit (Lookup ο × σ × CadStache)

def Script.run (nested : NestedRender σ τ) :
    Script σ ο τ → CadStache → Checked Unit (Lookup ο × σ × CadStache)
  | .answer lookup env, this => pure (lookup, env, this)
  | .render env input rest, this => do
      let (rendered, this) ← nested this env input
      (rest rendered).run nested this

/-- What is checked where a lookup comes back. -/
inductive LookupCheck
  | delimiters
  | unnested
deriving Repr, DecidableEq

/-- The check, for a lookup that began with the engine `before`. -/
def LookupCheck.Holds (script : Script σ ο τ) (before after : CadStache) :
    LookupCheck → Prop
  | .delimiters => before.Keeps after
  | .unnested => script.nests = false

instance (script : Script σ ο τ) (before after : CadStache) :
    (check : LookupCheck) → Decidable (check.Holds script before after)
  | .delimiters => inferInstanceAs (Decidable (before.Keeps after))
  | .unnested => inferInstanceAs (Decidable (script.nests = false))

/-- A lookup; the callback renders on the engine it is handed. -/
def lookUp (check : LookupCheck) (cb : NestingCallback σ ο τ)
    (nested : NestedRender σ τ) : EngineLookup σ ο := fun this env name => do
  let script := cb.resolve env name
  let (lookup, env, after) ← script.run nested this
  Checked.guard (check.Holds script this after) ()
  pure (lookup, env, after)

/-- A lookup; the callback renders on engines of its own. -/
def lookUpApart (cb : NestingCallback σ ο τ) (nested : NestedRender σ τ) :
    EngineLookup σ ο := fun this env name => do
  let (lookup, env, _) ← (cb.resolve env name).run
    (fun _ env input => nested CadStache.new env input) this
  pure (lookup, env, this)

section Engine

variable (fns : StreamFns τ) (cb : NestingCallback σ ο τ)
  (look : EngineLookup σ ο)

def withoutLookup (part : Buffer σ ο τ → Proc (Bool × Buffer σ ο τ))
    (this : CadStache) (buffer : Buffer σ ο τ) :
    Checked Unit (Bool × CadStache × Buffer σ ο τ) := do
  let (result, buffer) ← part buffer
  pure (result, this, buffer)

/-- A function that parses a name and looks it up, unless the name is invalid;
`found` is what it does when the callback has answered. -/
def withLookup (suffix : Option Bytes) (invalid : NameBlock → Option String)
    (found : Lookup ο → σ → NameBlock → Buffer σ ο τ →
      Proc (Bool × Buffer σ ο τ))
    (this : CadStache) (buffer : Buffer σ ο τ) :
    Checked Unit (Bool × CadStache × Buffer σ ο τ) := do
  let (name, buffer) ← parseName fns cb.objects suffix buffer
  match name with
  | none => pure (true, this, buffer)
  | some name =>
      match invalid name with
      | some error => pure (false, this, { buffer with error := error })
      | none =>
          let (lookup, env, this) ← look this buffer.env name.string
          let (result, buffer) ← found lookup env name buffer
          pure (result, this, buffer)

/-- `render_stache_raw` or `render_stache_escape` -/
def renderVariableOn (suffix : Option Bytes) (invalidName : String)
    (write : Option Bytes → Buffer σ ο τ → Proc (Buffer σ ο τ)) :
    CadStache → Buffer σ ο τ → Checked Unit (Bool × CadStache × Buffer σ ο τ) :=
  withLookup fns cb look suffix
    (fun name => if name.string = [] then some invalidName else none)
    fun lookup env => variableNamed (cb.answered lookup env) invalidName write

/-- `render_stache_loop` -/
def renderLoopOn (type : LoopType) :
    CadStache → Buffer σ ο τ → Checked Unit (Bool × CadStache × Buffer σ ο τ) :=
  withLookup fns cb look none (fun _ => none)
    fun lookup env name buffer =>
      pure (loopNamed fns (cb.answered lookup env) type name buffer)

/-- What `render_stache_partial` does when the callback has answered. -/
def partialFound (startIndex : Int) (lookup : Lookup ο) (env : σ)
    (buffer : Buffer σ ο τ) : Proc (Bool × Buffer σ ο τ) := do
  let (result, stream, buffer) ←
    openPartial cb.objects lookup (buffer.setEnv env)
  let buffer ← pushPartial lookup stream buffer
  let buffer := { buffer with index := startIndex - 1, fill := startIndex }
  let (more, buffer) ← bufferNext fns cb.objects buffer
  pure (if more then (result, buffer)
    else buffer.fail "BUG: no next at partial start")

/-- `render_stache_partial` -/
def renderPartialOn (startIndex : Int) :
    CadStache → Buffer σ ο τ → Checked Unit (Bool × CadStache × Buffer σ ο τ) :=
  withLookup fns cb look none (fun _ => none)
    fun lookup env _ buffer => partialFound fns cb startIndex lookup env buffer

/-- `render_stache_delimiters` -/
def renderDelimitersOn (this : CadStache) (buffer : Buffer σ ο τ) :
    Checked Unit (Bool × CadStache × Buffer σ ο τ) := do
  let (result, buffer) ← renderStacheDelimiters fns cb.objects buffer
  if result then
    let this ← this.freeDelimiters
    pure (true,
      this.setDelimiters buffer.openDelimiter buffer.closeDelimiter, buffer)
  else pure (false, this, buffer)

/-- The switch of `render_stache` on the byte after the opening delimiter. -/
def renderTagOn (startIndex : Int) (next : UInt8) (this : CadStache)
    (buffer : Buffer σ ο τ) : Checked Unit (Bool × CadStache × Buffer σ ο τ) :=
  if next = ascii '{' then
    renderVariableOn fns cb look (some [ascii '}']) "invalid raw name" writeRaw
      this buffer
  else if next = ascii '#' then renderLoopOn fns cb look .loopWhile this buffer
  else if next = ascii '/' then
    withoutLookup (renderStacheEnd fns cb.objects) this buffer
  else if next = ascii '^' then renderLoopOn fns cb look .loopElse this buffer
  else if next = ascii '=' then renderDelimitersOn fns cb this buffer
  else if next = ascii '!' then
    withoutLookup (renderStacheComment fns cb.objects) this buffer
  else if next = ascii '>' then
    renderPartialOn fns cb look startIndex this buffer
  else
    renderVariableOn fns cb look none "invalid escape name" writeEscaped this
      { buffer with index := buffer.index - 1 }

/-- `render_stache` -/
def renderStacheOn (startIndex : Int) (this : CadStache)
    (buffer : Buffer σ ο τ) : Checked Unit (Bool × CadStache × Buffer σ ο τ) :=
  if bufferEof buffer then
    pure (false, this, { buffer with
      error := "Invalid 'stache: nothing found after 'stache opening" })
  else do
    let next ← bufferItem buffer
    let (more, buffer) ← bufferNext fns cb.objects buffer
    if more then renderTagOn fns cb look startIndex next this buffer
    else
      pure (false, this, { buffer with
        error := "Invalid 'stache: nothing found after 'stache opening" })

/-- The delimiters that an iteration of `render_template` reads. -/
def CadStache.load (this : CadStache) (buffer : Buffer σ ο τ) :
    Proc (Buffer σ ο τ) :=
  match this.delimiters with
  | some (first, second) =>
      pure { buffer with openDelimiter := first, closeDelimiter := second }
  | none => Proc.undefined

/-- The body of the loop of `render_template`. -/
def renderStepOn (s : CadStache × Buffer σ ο τ) :
    Checked Unit
      ((CadStache × Buffer σ ο τ) ⊕ (Bool × CadStache × Buffer σ ο τ)) :=
  let (this, buffer) := s
  if bufferEof buffer then pure (.inr (true, this, buffer))
  else do
    let buffer ← this.load buffer
    let index := buffer.index
    let (opened, buffer) ←
      bufferLookAt fns cb.objects buffer.openDelimiter buffer
    let (result, this, buffer) ← (
      if opened then renderStacheOn fns cb look index this buffer
      else do
        let c ← bufferItem buffer
        withoutLookup (bufferNext fns cb.objects) this
          (bufferOutput buffer [c]) :
      Checked Unit (Bool × CadStache × Buffer σ ο τ))
    pure (if result then .inl (this, buffer) else .inr (false, this, buffer))

/-- `render`; `data` is what the allocator left in the new block. -/
def renderOn (data : Int → UInt8) : NestedRender σ τ := fun this env input => do
  let this := this.setDelimiters tagOpen tagClose
  let (more, buffer) ← bufferNext fns cb.objects (newBuffer env input data)
  if more then
    let (result, this, buffer) ←
      Checked.loop (renderStepOn fns cb look) (this, buffer)
    let this ← this.freeDelimiters
    pure (buffer.rendered result, this)
  else
    let this ← this.freeDelimiters
    pure ({ (buffer.rendered false) with onError := some ("Empty buffer", 0) },
      this)

end Engine

def Proc.never {α : Type} : Proc α where
  run _ := .error .fuel
  stable _ _ := rfl

/-- `render` on one engine, where the callback's calls of `render` nest less
than `depth` deep. -/
def renderShared (check : LookupCheck) (fns : StreamFns τ)
    (cb : NestingCallback σ ο τ) (data : Int → UInt8) : Nat → NestedRender σ τ
  | 0 => fun _ _ _ => liftM (Proc.never : Proc (Rendered σ × CadStache))
  | depth + 1 =>
      renderOn fns cb (lookUp check cb (renderShared check fns cb data depth))
        data

/-- `render`, where the callback's calls of `render` are done by engines of
their own. -/
def renderApart (fns : StreamFns τ) (cb : NestingCallback σ ο τ)
    (data : Int → UInt8) : Nat → NestedRender σ τ
  | 0 => fun _ _ _ => liftM (Proc.never : Proc (Rendered σ × CadStache))
  | depth + 1 =>
      renderOn fns cb (lookUpApart cb (renderApart fns cb data depth)) data

/-- The delimiters are these strings, in two blocks that were not freed. -/
structure CadStache.Live (this : CadStache) (first second : Bytes) : Prop where
  apart : this.openDelimiter ≠ this.closeDelimiter
  opening : this.blocks this.openDelimiter = some first
  closing : this.blocks this.closeDelimiter = some second

/-- Two engines have the same live delimiters. -/
def CadStache.Alike (a b : CadStache) : Prop :=
  ∃ first second, a.Live first second ∧ b.Live first second

section

variable {this after a b : CadStache} {first second : Bytes}

theorem CadStache.live_setDelimiters (this : CadStache)
    (first second : Bytes) : (this.setDelimiters first second).Live first second := by
  have hne : this.next ≠ this.next + 1 := Nat.ne_of_lt (Nat.lt_succ_self _)
  refine ⟨hne, ?_, Function.update_self ..⟩
  change Function.update (Function.update this.blocks this.next (some first))
    (this.next + 1) (some second) this.next = some first
  rw [Function.update_of_ne hne, Function.update_self]

theorem CadStache.alike_setDelimiters (a b : CadStache)
    (first second : Bytes) :
    (a.setDelimiters first second).Alike (b.setDelimiters first second) :=
  ⟨first, second, a.live_setDelimiters first second,
    b.live_setDelimiters first second⟩

theorem CadStache.Live.delimiters (h : this.Live first second) :
    this.delimiters = some (first, second) := by
  rw [CadStache.delimiters, h.opening, h.closing]

theorem CadStache.freeBlock_returns {block : Nat} {text : Bytes}
    (h : this.blocks block = some text) :
    Returns (this.freeBlock block) { this with
      blocks := Function.update this.blocks block none } := by
  rw [CadStache.freeBlock, h]
  exact returns_pure_self _

/-- The strings are freed, and the pointers stay. -/
theorem CadStache.Live.freeDelimiters (h : this.Live first second) :
    ∃ after, Returns this.freeDelimiters after ∧ after.delimiters = none := by
  have hclosing : Function.update this.blocks this.openDelimiter none
      this.closeDelimiter = some second := by
    rw [Function.update_of_ne h.apart.symm, h.closing]
  refine ⟨_, (CadStache.freeBlock_returns h.opening).bind
    (CadStache.freeBlock_returns hclosing), ?_⟩
  have hopening : Function.update
      (Function.update this.blocks this.openDelimiter none)
      this.closeDelimiter none this.openDelimiter = none := by
    rw [Function.update_of_ne h.apart, Function.update_self]
  rw [CadStache.delimiters]
  dsimp only
  rw [hopening]

theorem CadStache.Alike.freeDelimiters (h : a.Alike b) :
    Agree (fun a b => a.delimiters = none ∧ b.delimiters = none)
      a.freeDelimiters b.freeDelimiters := by
  obtain ⟨first, second, ha, hb⟩ := h
  obtain ⟨a', ha', hnone⟩ := ha.freeDelimiters
  obtain ⟨b', hb', hnone'⟩ := hb.freeDelimiters
  exact Agree.of_both ha' hb' ⟨hnone, hnone'⟩

end

/-- The same answer, with the same live delimiters. -/
def LookedAlike (a b : Lookup ο × σ × CadStache) : Prop :=
  a.1 = b.1 ∧ a.2.1 = b.2.1 ∧ a.2.2.Alike b.2.2

/-- The same result, with the same live delimiters. -/
def TaggedAlike (a b : Bool × CadStache × Buffer σ ο τ) : Prop :=
  a.1 = b.1 ∧ a.2.1.Alike b.2.1 ∧ a.2.2 = b.2.2

/-- The same buffer, with the same live delimiters. -/
def StoodAlike (a b : CadStache × Buffer σ ο τ) : Prop :=
  a.1.Alike b.1 ∧ a.2 = b.2

/-- The same rendering, and the delimiters were freed. -/
def RenderedAlike (a b : Rendered σ × CadStache) : Prop :=
  a.1 = b.1 ∧ a.2.delimiters = none ∧ b.2.delimiters = none

section

variable {fns : StreamFns τ} {cb : NestingCallback σ ο τ}
  {look look' : EngineLookup σ ο} {a b : CadStache} {buffer : Buffer σ ο τ}
  {C : Checked.Comparison Unit Unit}

theorem withoutLookup_alike (h : a.Alike b)
    (part : Buffer σ ο τ → Proc (Bool × Buffer σ ο τ)) :
    C.Rel TaggedAlike (withoutLookup part a buffer)
      (withoutLookup part b buffer) := by
  refine C.bind (C.lift (Agree.refl _)) ?_
  rintro ⟨result, after⟩ - rfl
  exact C.pure ⟨rfl, h, rfl⟩

theorem withLookup_alike (h : a.Alike b)
    (hlook : ∀ a b, a.Alike b → ∀ env name,
      C.Rel LookedAlike (look a env name) (look' b env name))
    (suffix : Option Bytes) (invalid : NameBlock → Option String)
    (found : Lookup ο → σ → NameBlock → Buffer σ ο τ →
      Proc (Bool × Buffer σ ο τ)) :
    C.Rel TaggedAlike (withLookup fns cb look suffix invalid found a buffer)
      (withLookup fns cb look' suffix invalid found b buffer) := by
  refine C.bind (C.lift (Agree.refl _)) ?_
  rintro ⟨result, after⟩ - rfl
  cases result with
  | none => exact C.pure ⟨rfl, h, rfl⟩
  | some name =>
      dsimp only
      cases invalid name with
      | some error => exact C.pure ⟨rfl, h, rfl⟩
      | none =>
          refine C.bind (hlook a b h after.env name.string) ?_
          rintro ⟨lookup, env, a'⟩ ⟨-, -, b'⟩ ⟨rfl, rfl, h'⟩
          refine C.bind (C.lift (Agree.refl _)) ?_
          rintro ⟨result, after⟩ - rfl
          exact C.pure ⟨rfl, h', rfl⟩

theorem renderDelimitersOn_alike (h : a.Alike b) :
    C.Rel TaggedAlike (renderDelimitersOn fns cb a buffer)
      (renderDelimitersOn fns cb b buffer) := by
  refine C.bind (C.lift (Agree.refl _)) ?_
  rintro ⟨result, after⟩ - rfl
  cases result with
  | false => exact C.pure ⟨rfl, h, rfl⟩
  | true =>
      refine C.bind (C.lift h.freeDelimiters) ?_
      rintro a' b' -
      exact C.pure ⟨rfl, CadStache.alike_setDelimiters a' b' _ _, rfl⟩

theorem renderTagOn_alike (h : a.Alike b)
    (hlook : ∀ a b, a.Alike b → ∀ env name,
      C.Rel LookedAlike (look a env name) (look' b env name))
    (startIndex : Int) (next : UInt8) :
    C.Rel TaggedAlike (renderTagOn fns cb look startIndex next a buffer)
      (renderTagOn fns cb look' startIndex next b buffer) := by
  rw [renderTagOn, renderTagOn]
  split_ifs
  · exact withLookup_alike h hlook _ _ _
  · exact withLookup_alike h hlook _ _ _
  · exact withoutLookup_alike h _
  · exact withLookup_alike h hlook _ _ _
  · exact renderDelimitersOn_alike h
  · exact withoutLookup_alike h _
  · exact withLookup_alike h hlook _ _ _
  · exact withLookup_alike h hlook _ _ _

theorem renderStacheOn_alike (h : a.Alike b)
    (hlook : ∀ a b, a.Alike b → ∀ env name,
      C.Rel LookedAlike (look a env name) (look' b env name))
    (startIndex : Int) :
    C.Rel TaggedAlike (renderStacheOn fns cb look startIndex a buffer)
      (renderStacheOn fns cb look' startIndex b buffer) := by
  rw [renderStacheOn, renderStacheOn]
  split
  next => exact C.pure ⟨rfl, h, rfl⟩
  next =>
    refine C.bind (C.lift (Agree.refl _)) ?_
    rintro next - rfl
    refine C.bind (C.lift (Agree.refl _)) ?_
    rintro ⟨more, after⟩ - rfl
    cases more with
    | true => exact renderTagOn_alike h hlook startIndex next
    | false => exact C.pure ⟨rfl, h, rfl⟩

theorem CadStache.Alike.load (h : a.Alike b) :
    Agree Eq (a.load buffer) (b.load buffer) := by
  obtain ⟨first, second, ha, hb⟩ := h
  rw [CadStache.load, CadStache.load, ha.delimiters, hb.delimiters]
  exact Agree.refl _

theorem renderStepOn_alike
    (hlook : ∀ a b, a.Alike b → ∀ env name,
      C.Rel LookedAlike (look a env name) (look' b env name))
    {s t : CadStache × Buffer σ ο τ} (h : StoodAlike s t) :
    C.Rel (SumRel StoodAlike TaggedAlike) (renderStepOn fns cb look s)
      (renderStepOn fns cb look' t) := by
  obtain ⟨a, buffer⟩ := s
  obtain ⟨b, buffer'⟩ := t
  obtain ⟨h, rfl⟩ : a.Alike b ∧ buffer = buffer' := h
  rw [renderStepOn, renderStepOn]
  dsimp only
  split
  next => exact C.pure (.inr ⟨rfl, h, rfl⟩)
  next =>
    refine C.bind (C.lift h.load) ?_
    rintro buffer - rfl
    refine C.bind (C.lift (Agree.refl _)) ?_
    rintro ⟨opened, looked⟩ - rfl
    have htag : C.Rel TaggedAlike
        (if opened then renderStacheOn fns cb look buffer.index a looked
          else do
            let c ← bufferItem looked
            withoutLookup (bufferNext fns cb.objects) a (bufferOutput looked [c]))
        (if opened then renderStacheOn fns cb look' buffer.index b looked
          else do
            let c ← bufferItem looked
            withoutLookup (bufferNext fns cb.objects) b
              (bufferOutput looked [c])) := by
      cases opened with
      | true => exact renderStacheOn_alike h hlook _
      | false =>
          refine C.bind (C.lift (Agree.refl _)) ?_
          rintro c - rfl
          exact withoutLookup_alike h _
    refine C.bind htag ?_
    rintro ⟨result, a', after⟩ ⟨-, b', -⟩ ⟨rfl, h', rfl⟩
    cases result with
    | true => exact C.pure (.inl ⟨h', rfl⟩)
    | false => exact C.pure (.inr ⟨rfl, h', rfl⟩)

theorem renderOn_alike {data : Int → UInt8}
    (hlook : ∀ a b, a.Alike b → ∀ env name,
      C.Rel LookedAlike (look a env name) (look' b env name))
    (a b : CadStache) (env : σ) (input : InputStream τ) :
    C.Rel RenderedAlike (renderOn fns cb look data a env input)
      (renderOn fns cb look' data b env input) := by
  have hset := CadStache.alike_setDelimiters a b tagOpen tagClose
  refine C.bind (C.lift (Agree.refl _)) ?_
  rintro ⟨more, buffer⟩ - rfl
  cases more with
  | false =>
      refine C.bind (C.lift hset.freeDelimiters) ?_
      rintro a' b' hfreed
      exact C.pure ⟨rfl, hfreed⟩
  | true =>
      refine C.bind (C.loop (fun s t => renderStepOn_alike hlook)
        (show StoodAlike _ _ from ⟨hset, rfl⟩)) ?_
      rintro ⟨result, a', after⟩ ⟨-, b', -⟩ ⟨rfl, h', rfl⟩
      refine C.bind (C.lift h'.freeDelimiters) ?_
      rintro a'' b'' hfreed
      exact C.pure ⟨rfl, hfreed⟩

end

section

variable {fns : StreamFns τ} {cb : NestingCallback σ ο τ}
  {data : Int → UInt8} {C : Checked.Comparison Unit Unit}
  {nested nested' : NestedRender σ τ}

/-- The same answer, when the delimiters were freed. -/
def EndedAlike (a b : Lookup ο × σ × CadStache) : Prop :=
  a.1 = b.1 ∧ a.2.1 = b.2.1 ∧ a.2.2.delimiters = none ∧
    b.2.2.delimiters = none

/-- What a callback does is the same where its renderings are. -/
theorem Script.run_alike
    (hnested : ∀ a b env input,
      C.Rel RenderedAlike (nested a env input) (nested' b env input))
    (script : Script σ ο τ) {a b : CadStache}
    (h : script.nests = false → a.delimiters = none ∧ b.delimiters = none) :
    C.Rel EndedAlike (script.run nested a) (script.run nested' b) := by
  induction script generalizing a b with
  | answer lookup env => exact C.pure ⟨rfl, rfl, h rfl⟩
  | render env input rest ih =>
      refine C.bind (hnested a b env input) ?_
      rintro ⟨rendered, a'⟩ ⟨-, b'⟩ ⟨rfl, hfreed⟩
      exact ih rendered fun _ => hfreed

theorem not_returns_never {α : Type} (a : α) :
    ¬ Returns (Proc.never : Proc α) a := by
  rintro ⟨n, hn⟩
  cases hn

theorem CadStache.Live.keeps {this : CadStache} {first second : Bytes}
    (h : this.Live first second) : this.Keeps this :=
  ⟨rfl, rfl, rfl, by rw [h.delimiters]; exact nofun⟩

/-- A lookup in which the callback does not render. -/
theorem lookUp_answer (check : LookupCheck) (this : CadStache) {env env' : σ}
    {name : Bytes} {lookup : Lookup ο}
    (hscript : cb.resolve env name = .answer lookup env')
    (hcheck : check.Holds (.answer lookup env' : Script σ ο τ) this this) :
    lookUp check cb nested this env name = pure (lookup, env', this) := by
  rw [lookUp]
  dsimp only
  rw [hscript]
  change (Checked.guard _ () >>= fun _ => _) = _
  rw [Checked.guard, if_pos hcheck]
  rfl

/-- A lookup comes back with the same live delimiters exactly when the callback
has not called `render`. -/
theorem lookUp_agrees
    (hnested : ∀ a b env input, (Checked.Comparison.agreeing Unit Unit).Rel
      RenderedAlike (nested a env input) (nested' b env input))
    (a b : CadStache) (h : a.Alike b) (env : σ) (name : Bytes) :
    (Checked.Comparison.agreeing Unit Unit).Rel LookedAlike
      (lookUp .delimiters cb nested a env name)
      (lookUp .unnested cb nested' b env name) := by
  cases hscript : cb.resolve env name with
  | answer lookup env' =>
      obtain ⟨first, second, ha, hb⟩ := h
      rw [lookUp_answer .delimiters a hscript ha.keeps,
        lookUp_answer .unnested b hscript rfl]
      exact Checked.Comparison.pure _ ⟨rfl, rfl, first, second, ha, hb⟩
  | render env' input rest =>
      rw [lookUp, lookUp]
      dsimp only
      rw [hscript]
      refine Checked.Comparison.bind _
        (Script.run_alike hnested (.render env' input rest) nofun) ?_
      rintro ⟨lookup, env'', a'⟩ ⟨-, -, b'⟩ ⟨rfl, rfl, hfreed, -⟩
      have hlost : ¬ LookupCheck.delimiters.Holds
          (Script.render (ο := ο) env' input rest) a a' := fun hkeeps =>
        hkeeps.2.2.2 hfreed
      have hasked : ¬ LookupCheck.unnested.Holds
          (Script.render (ο := ο) env' input rest) b b' := nofun
      change Agree _ (Checked.guard _ () >>= _).run
        (Checked.guard _ () >>= _).run
      rw [Checked.run_guard_fails hlost, Checked.run_guard_fails hasked]
      exact Agree.pure .error

/-- While the callback does not render, it makes no difference which engine it
would have rendered on. -/
theorem lookUp_stops
    (hnested : ∀ a b env input, (Checked.Comparison.stopping Unit Unit).Rel
      RenderedAlike (nested a env input) (nested' b env input))
    (a b : CadStache) (h : a.Alike b) (env : σ) (name : Bytes) :
    (Checked.Comparison.stopping Unit Unit).Rel LookedAlike
      (lookUp .unnested cb nested a env name)
      (lookUpApart cb nested' b env name) := by
  cases hscript : cb.resolve env name with
  | answer lookup env' =>
      rw [lookUp_answer .unnested a hscript rfl, lookUpApart]
      dsimp only
      rw [hscript]
      exact Checked.Comparison.pure _ ⟨rfl, rfl, h⟩
  | render env' input rest =>
      rw [lookUp, lookUpApart]
      dsimp only
      rw [hscript]
      have hrun := Script.run_alike
        (fun a b env input => hnested a CadStache.new env input)
        (.render env' input rest) (a := a) (b := b) nofun
      have hasked : ∀ after : CadStache, ¬ LookupCheck.unnested.Holds
          (Script.render (ο := ο) env' input rest) a after := fun _ => nofun
      constructor
      · intro answer hanswer
        obtain ⟨⟨lookup, env'', a'⟩, -, hguard⟩ :=
          Checked.returns_bind_ok.mp hanswer
        change Returns (Checked.guard _ () >>= _).run _ at hguard
        rw [Checked.run_guard_fails (hasked a')] at hguard
        cases returns_pure.mp hguard
      · intro answer hanswer
        obtain ⟨ended, hended, -⟩ := Checked.returns_bind_ok.mp hanswer
        refine Or.inr ⟨(), Checked.returns_bind_error.mpr ?_⟩
        rcases hrun.back _ hended with ⟨⟨lookup, env'', a'⟩, ha', -⟩ | ⟨⟨⟩, hf⟩
        · refine Or.inr ⟨_, ha', ?_⟩
          rw [Checked.run_guard_fails (hasked a')]
          exact returns_pure_self _
        · exact Or.inl hf

theorem renderShared_agrees (depth : Nat) (a b : CadStache) (env : σ)
    (input : InputStream τ) :
    (Checked.Comparison.agreeing Unit Unit).Rel RenderedAlike
      (renderShared .delimiters fns cb data depth a env input)
      (renderShared .unnested fns cb data depth b env input) := by
  induction depth generalizing a b env input with
  | zero =>
      exact Checked.Comparison.lift _
        (Agree.stuck not_returns_never not_returns_never)
  | succ depth ih => exact renderOn_alike (lookUp_agrees ih) a b env input

theorem renderShared_stops (depth : Nat) (a b : CadStache) (env : σ)
    (input : InputStream τ) :
    (Checked.Comparison.stopping Unit Unit).Rel RenderedAlike
      (renderShared .unnested fns cb data depth a env input)
      (renderApart fns cb data depth b env input) := by
  induction depth generalizing a b env input with
  | zero =>
      exact Checked.Comparison.lift _
        (Agree.stuck not_returns_never not_returns_never)
  | succ depth ih => exact renderOn_alike (lookUp_stops ih) a b env input

/-- Every lookup of the rendering, and of the renderings in it, that comes back
comes back with the same live delimiters, and the rendering leaves behind what
it would if the renderings in its lookups had been done by other engines. -/
structure NestedIsolated (fns : StreamFns τ) (cb : NestingCallback σ ο τ)
    (data : Int → UInt8) (depth : Nat) (this : CadStache) (env : σ)
    (input : InputStream τ) : Prop where
  keeps : ∀ fault, ¬ Returns
    (renderShared .delimiters fns cb data depth this env input).run
    (.error fault)
  same : ∀ rendered,
    (∃ after, Returns
      (renderShared .delimiters fns cb data depth this env input).run
      (.ok (rendered, after))) ↔
    ∃ after, Returns (renderApart fns cb data depth this env input).run
      (.ok (rendered, after))

/-- No lookup of the rendering, or of the renderings in it, that comes back has
called `render`. -/
def NeverNests (fns : StreamFns τ) (cb : NestingCallback σ ο τ)
    (data : Int → UInt8) (depth : Nat) (this : CadStache) (env : σ)
    (input : InputStream τ) : Prop :=
  ∀ fault, ¬ Returns
    (renderShared .unnested fns cb data depth this env input).run (.error fault)

/-- A rendering is isolated from those in its lookups exactly when there are
none. -/
theorem nested_isolated_iff (fns : StreamFns τ) (cb : NestingCallback σ ο τ)
    (data : Int → UInt8) (depth : Nat) (this : CadStache) (env : σ)
    (input : InputStream τ) :
    NestedIsolated fns cb data depth this env input ↔
      NeverNests fns cb data depth this env input := by
  have hagrees : Agree (Checked.Both RenderedAlike) _ _ :=
    @renderShared_agrees _ _ _ fns cb data depth this this env input
  have hstops : Checked.Stopping RenderedAlike _ _ :=
    @renderShared_stops _ _ _ fns cb data depth this this env input
  constructor
  · intro h fault hfault
    obtain ⟨o, ho, hboth⟩ := hagrees.back _ hfault
    cases hboth with
    | error => exact h.keeps _ ho
  · intro h
    constructor
    · intro fault hfault
      obtain ⟨o, ho, hboth⟩ := hagrees.forth _ hfault
      cases hboth with
      | error => exact h _ ho
    · intro rendered
      constructor
      · rintro ⟨after, hafter⟩
        obtain ⟨o, ho, hboth⟩ := hagrees.forth _ hafter
        cases hboth with
        | @ok _ b hab =>
            obtain ⟨⟨-, after'⟩, hafter', rfl, -⟩ := hstops.forth _ ho
            obtain ⟨rfl, -⟩ := hab
            exact ⟨after', hafter'⟩
      · rintro ⟨after, hafter⟩
        rcases hstops.back _ hafter with ⟨b, hb, hba⟩ | ⟨fault, hf⟩
        · obtain ⟨o, ho, hboth⟩ := hagrees.back _ hb
          cases hboth with
          | @ok a _ hab =>
              obtain ⟨rendered', after'⟩ := a
              cases hab.1.trans hba.1
              exact ⟨after', ho⟩
        · exact absurd hf (h fault)

end

/-- Nothing is found; before it answers for `a`, the callback renders `x`. -/
def nestingCallback : NestingCallback Unit Unit Empty where
  objects := pairLists
  resolve env name :=
    if name = chars "a" then
      .render env (newInputStreamFromString (chars "x")) fun _ =>
        .answer .notFound env
    else .answer .notFound env

/-- `{{a}}.` renders to `.` when the callback's rendering is done by another
engine; on the same engine the delimiters are gone after the lookup. -/
theorem nested_not_isolated :
    ¬ NestedIsolated noStreams nestingCallback (fun _ => 0) 2 CadStache.new ()
      (newInputStreamFromString (chars "{{a}}.")) := by
  intro h
  have hrun : ((renderShared .delimiters noStreams nestingCallback (fun _ => 0)
      2 CadStache.new () (newInputStreamFromString (chars "{{a}}."))).run.run
        20).map (fun r => r.map fun _ => ()) = .ok (.error ()) := by
    decide +kernel
  exact h.keeps () (Checked.returns_fault hrun)

end Libcad
