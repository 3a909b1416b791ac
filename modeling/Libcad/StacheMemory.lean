/-
The blocks a rendering asks of its memory manager: the two delimiters, the
buffer, the two arrays, a block for each name and a stream for each string that
is included.  `malloc` always finds memory, and `realloc` keeps the number of
the block.
-/
import Libcad.Agree
import Libcad.Ledger
import Libcad.StacheNameless
import Libcad.StacheReleases
import Mathlib.Data.List.ReduceOption

namespace Libcad

open Proc Ledger

variable {σ ο τ : Type}

/-- The blocks of an array: `content` is NULL until something is inserted. -/
structure ArrayBlocks where
  array : Nat
  content : Option Nat
deriving Repr, DecidableEq

/-- `insert`, as far as the first `grow` asks for a block. -/
def ArrayBlocks.insert (blocks : ArrayBlocks) (ledger : Ledger) :
    ArrayBlocks × Ledger :=
  match blocks.content with
  | some _ => (blocks, ledger)
  | none =>
      let (content, ledger) := ledger.malloc
      ({ blocks with content := some content }, ledger)

/-- The blocks that `free` releases, in its order. -/
def ArrayBlocks.all (blocks : ArrayBlocks) : List Nat :=
  blocks.content.toList ++ [blocks.array]

/-- The blocks of a rendering: those in the fields of `struct
cad_stache_impl` and `struct buffer`, the names of the open sections and the
streams of the pending partials, innermost first.  A stream that the callback
handed out is no block of the engine. -/
structure Blocks where
  ledger : Ledger
  openDelimiter : Nat
  closeDelimiter : Nat
  data : Nat
  partials : ArrayBlocks
  loops : ArrayBlocks
  names : List Nat
  streams : List (Option Nat)
deriving Repr, DecidableEq

/-- The state of a rendering with its blocks. -/
structure Owning (σ ο τ : Type) where
  buffer : Buffer σ ο τ
  blocks : Blocks

/-- `this->memory.malloc` -/
def Blocks.malloc (blocks : Blocks) : Nat × Blocks :=
  let (block, ledger) := blocks.ledger.malloc
  (block, { blocks with ledger := ledger })

/-- `this->memory.free` -/
def Blocks.free (blocks : Blocks) (block : Nat) : Blocks :=
  { blocks with ledger := blocks.ledger.free block }

/-- What `buffer_next` releases where partials come to their end and only so
many are left: `input->free(input)` for those that were strings. -/
def Blocks.finish (blocks : Blocks) (left : Nat) : Blocks :=
  let ended := blocks.streams.length - left
  { blocks with
    ledger := blocks.ledger.freeAll (blocks.streams.take ended).reduceOption,
    streams := blocks.streams.drop ended }

/-- A part of the program that asks for no block.  It may read, and partials
come to their end only where the buffer is read. -/
def Owning.run {α : Type} (s : Owning σ ο τ)
    (part : Buffer σ ο τ → Proc (α × Buffer σ ο τ)) :
    Proc (α × Owning σ ο τ) := do
  let (a, buffer) ← part s.buffer
  pure (a, ⟨buffer, s.blocks.finish buffer.partials.length⟩)

section Engine

variable (fns : StreamFns τ) (cb : Callback σ ο τ)

/-- `parse_name` with the block of the name. -/
def parseNameOwning (suffix : Option Bytes) (s : Owning σ ο τ) :
    Proc (Option (NameBlock × Nat) × Owning σ ο τ) := do
  let (block, blocks) := s.blocks.malloc
  let (name, s) ← Owning.run ⟨s.buffer, blocks⟩ (parseName fns cb suffix)
  match name with
  | some name => pure (some (name, block), s)
  | none => pure (none, { s with blocks := s.blocks.free block })

/-- What `render_stache_raw` and `render_stache_escape` do with the name. -/
def variableNamed (invalidName : String)
    (write : Option Bytes → Buffer σ ο τ → Proc (Buffer σ ο τ))
    (name : NameBlock) (buffer : Buffer σ ο τ) : Proc (Bool × Buffer σ ο τ) :=
  if name.string = [] then pure (buffer.fail invalidName)
  else
    let (lookup, buffer) := buffer.resolve cb name.string
    match lookup with
    | .notFound => pure (true, buffer)
    | .string resolved => do
        let (c, buffer) ← buffer.call (cb.stringGet resolved)
        let buffer ← write c buffer
        freeString cb resolved buffer
    | .list _ => pure (buffer.fail "unexpected list")
    | .stream _ => pure (buffer.fail "unexpected partial")
    | .invalid => pure (buffer.fail "invalid type")

/-- `render_stache_raw` or `render_stache_escape`: `free(name)` at the end. -/
def renderVariableOwning (suffix : Option Bytes) (invalidName : String)
    (write : Option Bytes → Buffer σ ο τ → Proc (Buffer σ ο τ))
    (s : Owning σ ο τ) : Proc (Bool × Owning σ ο τ) := do
  let (name, s) ← parseNameOwning fns cb suffix s
  match name with
  | none => pure (true, s)
  | some (name, block) => do
      let (result, s) ← s.run (variableNamed cb invalidName write name)
      pure (result, { s with blocks := s.blocks.free block })

/-- What `render_stache_loop` does with the name: a section is open. -/
def loopNamed (type : LoopType) (name : NameBlock) (buffer : Buffer σ ο τ) :
    Bool × Buffer σ ο τ :=
  let (lookup, buffer) := buffer.resolve cb name.string
  let (result, empty, buffer) := openLoop fns cb lookup buffer
  let loop : StacheLoop ο :=
    { type := type, name := name.string, lookup := lookup,
      bufferIndex := buffer.index, loopIndex := 0, empty := empty }
  (result, { buffer with loops := loop :: buffer.loops })

/-- The block of the name goes into the array of the open sections. -/
def Blocks.openSection (blocks : Blocks) (name : Nat) : Blocks :=
  let (loops, ledger) := blocks.loops.insert blocks.ledger
  { blocks with ledger := ledger, loops := loops, names := name :: blocks.names }

/-- `render_stache_loop` -/
def renderStacheLoopOwning (type : LoopType) (s : Owning σ ο τ) :
    Proc (Bool × Owning σ ο τ) := do
  let (name, s) ← parseNameOwning fns cb none s
  match name with
  | none => pure (true, s)
  | some (name, block) =>
      let (result, buffer) := loopNamed fns cb type name s.buffer
      pure (result, ⟨buffer, s.blocks.openSection block⟩)

/-- The innermost section is closed: `del`, then `free(loop->name)`. -/
def Blocks.closeSection (blocks : Blocks) : Blocks :=
  match blocks.names with
  | [] => blocks
  | name :: names => { blocks with names := names }.free name

/-- `free(loop->name)` for a section that stays open. -/
def Blocks.freeName (blocks : Blocks) : Blocks :=
  match blocks.names with
  | [] => blocks
  | name :: _ => blocks.free name

/-- The end of a list section; `free(loop->name)` whether the list could be
closed or not. -/
def endListOwning (resolved : ο) (loop : StacheLoop ο)
    (loops : List (StacheLoop ο)) (s : Owning σ ο τ) :
    Proc (Bool × Owning σ ο τ) := do
  let loop := loop.next
  let buffer := { s.buffer with loops := loop :: loops }
  let (found, buffer) ← listNext cb resolved loop.loopIndex buffer loop.type
  if found then
    pure (true, { s with buffer := { buffer with index := loop.bufferIndex } })
  else
    let (closed, buffer) := buffer.callOr (cb.listClose resolved) false
    if closed then
      pure (true, ⟨{ buffer with loops := loops }, s.blocks.closeSection⟩)
    else
      pure (false, ⟨{ buffer with error := "could not close loop list" },
        s.blocks.freeName⟩)

/-- What `render_stache_end` does with the name. -/
def endNamedOwning (name : NameBlock) (s : Owning σ ο τ) :
    Proc (Bool × Owning σ ο τ) :=
  match s.buffer.loops with
  | [] =>
      pure (false, { s with
        buffer := { s.buffer with error := "closing non-open loop" } })
  | loop :: loops =>
      if name.string ≠ loop.name then
        pure (false, { s with
          buffer := { s.buffer with
            error := "closing loop name different from opening loop name" } })
      else
        match loop.lookup with
        | .notFound | .string _ | .stream _ =>
            pure (true,
              ⟨{ s.buffer with loops := loops }, s.blocks.closeSection⟩)
        | .list resolved => endListOwning cb resolved loop loops s
        | .invalid => pure (true, s)

/-- `render_stache_end`: `free(name)` at the end. -/
def renderStacheEndOwning (s : Owning σ ο τ) : Proc (Bool × Owning σ ο τ) := do
  let (name, s) ← parseNameOwning fns cb none s
  match name with
  | none => pure (true, s)
  | some (name, block) => do
      let (result, s) ← endNamedOwning cb name s
      pure (result, { s with blocks := s.blocks.free block })

/-- The old delimiters are released, and blocks are found for the new ones. -/
def Blocks.changeDelimiters (blocks : Blocks) : Blocks :=
  let ledger :=
    (blocks.ledger.free blocks.openDelimiter).free blocks.closeDelimiter
  let (openDelimiter, ledger) := ledger.malloc
  let (closeDelimiter, ledger) := ledger.malloc
  { blocks with
    ledger := ledger, openDelimiter := openDelimiter,
    closeDelimiter := closeDelimiter }

/-- `render_stache_delimiters`: `free(delimiters)` at the end. -/
def renderStacheDelimitersOwning (s : Owning σ ο τ) :
    Proc (Bool × Owning σ ο τ) := do
  let (delimiters, s) ← parseNameOwning fns cb (some [ascii '=']) s
  match delimiters with
  | none => pure (false, s)
  | some (delimiters, block) =>
      let scanned ← scanDelimiters delimiters.bytes
      match scanned with
      | .ok (first, second) =>
          pure (true,
            ⟨{ s.buffer with
                openDelimiter := first, closeDelimiter := second },
              s.blocks.changeDelimiters.free block⟩)
      | .error error =>
          pure (false,
            ⟨{ s.buffer with error := error }, s.blocks.free block⟩)

/-- `new_cad_input_stream_from_string`: a string is read through a stream of
the engine, any other partial through the one the callback handed out. -/
def Blocks.newStream (blocks : Blocks) (lookup : Lookup ο) :
    Option Nat × Blocks :=
  match lookup with
  | .string _ =>
      let (stream, blocks) := blocks.malloc
      (some stream, blocks)
  | .stream _ | .notFound | .list _ | .invalid => (none, blocks)

/-- The blocks where a partial is stacked, if there is anything to read. -/
def Blocks.pushPartial (blocks : Blocks) (lookup : Lookup ο)
    (stream : Option (InputStream τ)) : Blocks :=
  match stream with
  | none => blocks
  | some _ =>
      let (stream, blocks) := blocks.newStream lookup
      let (partials, ledger) := blocks.partials.insert blocks.ledger
      { blocks with
        ledger := ledger, partials := partials,
        streams := stream :: blocks.streams }

/-- `render_stache_partial`; nothing is done with the block of the name. -/
def renderStachePartialOwning (startIndex : Int) (s : Owning σ ο τ) :
    Proc (Bool × Owning σ ο τ) := do
  let (name, s) ← parseNameOwning fns cb none s
  match name with
  | none => pure (true, s)
  | some (name, _) =>
      let (lookup, buffer) := s.buffer.resolve cb name.string
      let (result, stream, buffer) ← openPartial cb lookup buffer
      let buffer ← pushPartial lookup stream buffer
      let blocks := s.blocks.pushPartial lookup stream
      let buffer :=
        { buffer with index := startIndex - 1, fill := startIndex }
      let (more, s) ← Owning.run ⟨buffer, blocks⟩ (bufferNext fns cb)
      pure (if more then (result, s)
        else (false, { s with
          buffer := { s.buffer with
            error := "BUG: no next at partial start" } }))

/-- The switch of `render_stache`. -/
def renderTagOwning (startIndex : Int) (next : UInt8) (s : Owning σ ο τ) :
    Proc (Bool × Owning σ ο τ) :=
  if next = ascii '{' then
    renderVariableOwning fns cb (some [ascii '}']) "invalid raw name" writeRaw s
  else if next = ascii '#' then renderStacheLoopOwning fns cb .loopWhile s
  else if next = ascii '/' then renderStacheEndOwning fns cb s
  else if next = ascii '^' then renderStacheLoopOwning fns cb .loopElse s
  else if next = ascii '=' then renderStacheDelimitersOwning fns cb s
  else if next = ascii '!' then s.run (renderStacheComment fns cb)
  else if next = ascii '>' then renderStachePartialOwning fns cb startIndex s
  else
    renderVariableOwning fns cb none "invalid escape name" writeEscaped
      { s with buffer := { s.buffer with index := s.buffer.index - 1 } }

/-- `render_stache` -/
def renderStacheOwning (startIndex : Int) (s : Owning σ ο τ) :
    Proc (Bool × Owning σ ο τ) :=
  if bufferEof s.buffer then
    pure (false, { s with
      buffer := { s.buffer with
        error := "Invalid 'stache: nothing found after 'stache opening" } })
  else do
    let next ← bufferItem s.buffer
    let (more, s) ← s.run (bufferNext fns cb)
    if more then renderTagOwning fns cb startIndex next s
    else
      pure (false, { s with
        buffer := { s.buffer with
          error := "Invalid 'stache: nothing found after 'stache opening" } })

/-- The body of the loop of `render_template`. -/
def renderStepOwning (s : Owning σ ο τ) :
    Proc (Owning σ ο τ ⊕ (Bool × Owning σ ο τ)) :=
  if bufferEof s.buffer then pure (.inr (true, s))
  else do
    let index := s.buffer.index
    let (opened, s) ← s.run (bufferLookAt fns cb s.buffer.openDelimiter)
    let (result, s) ← (
      if opened then renderStacheOwning fns cb index s
      else do
        let c ← bufferItem s.buffer
        Owning.run { s with buffer := bufferOutput s.buffer [c] }
          (bufferNext fns cb) :
      Proc (Bool × Owning σ ο τ))
    pure (if result then .inl s else .inr (false, s))

/-- The blocks `render` starts with. -/
def Blocks.first : Blocks :=
  let (openDelimiter, ledger) := Ledger.empty.malloc
  let (closeDelimiter, ledger) := ledger.malloc
  let (data, ledger) := ledger.malloc
  let (partials, ledger) := ledger.malloc
  let (loops, ledger) := ledger.malloc
  { ledger := ledger, openDelimiter := openDelimiter,
    closeDelimiter := closeDelimiter, data := data,
    partials := ⟨partials, none⟩, loops := ⟨loops, none⟩,
    names := [], streams := [] }

/-- The blocks `render` releases before it returns, in its order; those of
the names by `buffer_unwind_loops`, the outermost first. -/
def Blocks.unwound (blocks : Blocks) : List Nat :=
  [blocks.openDelimiter, blocks.closeDelimiter] ++ blocks.names.reverse ++
    blocks.loops.all ++ blocks.partials.all ++ [blocks.data]

/-- `render`, with the ledger it leaves behind. -/
def renderOwning (env : σ) (input : InputStream τ) (data : Int → UInt8) :
    Proc (Rendered σ × Ledger) := do
  let (more, s) ← Owning.run ⟨newBuffer env input data, Blocks.first⟩
    (bufferNext fns cb)
  if more then
    let (result, s) ← Proc.loop (renderStepOwning fns cb) s
    pure (s.buffer.rendered result, s.blocks.ledger.freeAll s.blocks.unwound)
  else
    pure ({ (s.buffer.rendered false) with onError := some ("Empty buffer", 0) },
      s.blocks.ledger.freeAll s.blocks.unwound)

end Engine

section

variable {fns : StreamFns τ} {cb : Callback σ ο τ} {s : Owning σ ο τ}

def SameBuffer {α : Type} (r : α × Owning σ ο τ) (q : α × Buffer σ ο τ) : Prop :=
  r.1 = q.1 ∧ r.2.buffer = q.2

theorem Owning.run_agrees {α : Type}
    (part : Buffer σ ο τ → Proc (α × Buffer σ ο τ)) :
    Agree SameBuffer (s.run part) (part s.buffer) :=
  (Agree.refl _).map_left fun _ _ h => h ▸ ⟨rfl, rfl⟩

def SameName (r : Option (NameBlock × Nat) × Owning σ ο τ)
    (q : Option NameBlock × Buffer σ ο τ) : Prop :=
  r.1.map Prod.fst = q.1 ∧ r.2.buffer = q.2

theorem parseNameOwning_agrees (suffix : Option Bytes) :
    Agree SameName (parseNameOwning fns cb suffix s)
      (parseName fns cb suffix s.buffer) := by
  have hrun : Agree SameBuffer
      (Owning.run ⟨s.buffer, s.blocks.malloc.2⟩ (parseName fns cb suffix))
      (parseName fns cb suffix s.buffer) := Owning.run_agrees _
  refine hrun.then_left ?_
  rintro ⟨name, after⟩ ⟨name', buffer⟩ ⟨rfl, rfl⟩
  cases name <;> exact ⟨_, returns_pure_self _, rfl, rfl⟩

theorem renderVariableOwning_agrees (suffix : Option Bytes) (invalidName : String)
    (write : Option Bytes → Buffer σ ο τ → Proc (Buffer σ ο τ)) :
    Agree SameBuffer (renderVariableOwning fns cb suffix invalidName write s)
      (renderVariable fns cb suffix invalidName write s.buffer) := by
  refine (parseNameOwning_agrees suffix).bind ?_
  rintro ⟨name, after⟩ ⟨name', buffer⟩ ⟨rfl, rfl⟩
  cases name with
  | none => exact Agree.pure ⟨rfl, rfl⟩
  | some named =>
      have hrun : Agree SameBuffer
          (after.run (variableNamed cb invalidName write named.1))
          (variableNamed cb invalidName write named.1 after.buffer) :=
        Owning.run_agrees _
      exact hrun.map_left fun _ _ h => h

theorem renderStacheLoopOwning_agrees (type : LoopType) :
    Agree SameBuffer (renderStacheLoopOwning fns cb type s)
      (renderStacheLoop fns cb type s.buffer) := by
  refine (parseNameOwning_agrees none).bind ?_
  rintro ⟨name, after⟩ ⟨name', buffer⟩ ⟨rfl, rfl⟩
  cases name with
  | none => exact Agree.pure ⟨rfl, rfl⟩
  | some named => exact Agree.pure ⟨rfl, rfl⟩

theorem endListOwning_agrees (resolved : ο) (loop : StacheLoop ο)
    (loops : List (StacheLoop ο)) :
    Agree SameBuffer (endListOwning cb resolved loop loops s)
      (endList cb resolved loop loops s.buffer) := by
  refine (Agree.refl _).bind ?_
  rintro ⟨found, asked⟩ - rfl
  cases found with
  | true => exact Agree.pure ⟨rfl, rfl⟩
  | false =>
      dsimp only
      rw [if_neg Bool.false_ne_true, if_neg Bool.false_ne_true]
      rcases asked.callOr (cb.listClose resolved) false with ⟨closed, left⟩
      cases closed <;> exact Agree.pure ⟨rfl, rfl⟩

theorem renderStacheEndOwning_agrees :
    Agree SameBuffer (renderStacheEndOwning fns cb s)
      (renderStacheEnd fns cb s.buffer) := by
  refine (parseNameOwning_agrees none).bind ?_
  rintro ⟨name, after⟩ ⟨name', buffer⟩ ⟨rfl, rfl⟩
  cases name with
  | none => exact Agree.pure ⟨rfl, rfl⟩
  | some named =>
      refine Agree.map_left (R := SameBuffer) ?_ fun _ _ h => h
      dsimp only [Option.map]
      rw [endNamedOwning]
      cases after.buffer.loops with
      | nil => exact Agree.pure ⟨rfl, rfl⟩
      | cons loop loops =>
          dsimp only
          split
          next => exact Agree.pure ⟨rfl, rfl⟩
          next =>
            cases loop.lookup with
            | list resolved => exact endListOwning_agrees _ _ _
            | notFound => exact Agree.pure ⟨rfl, rfl⟩
            | string => exact Agree.pure ⟨rfl, rfl⟩
            | stream => exact Agree.pure ⟨rfl, rfl⟩
            | invalid => exact Agree.pure ⟨rfl, rfl⟩

theorem renderStacheDelimitersOwning_agrees :
    Agree SameBuffer (renderStacheDelimitersOwning fns cb s)
      (renderStacheDelimiters fns cb s.buffer) := by
  refine (parseNameOwning_agrees _).bind ?_
  rintro ⟨name, after⟩ ⟨name', buffer⟩ ⟨rfl, rfl⟩
  cases name with
  | none => exact Agree.pure ⟨rfl, rfl⟩
  | some named =>
      refine (Agree.refl _).bind ?_
      rintro scanned - rfl
      cases scanned <;> exact Agree.pure ⟨rfl, rfl⟩

theorem renderStachePartialOwning_agrees (startIndex : Int) :
    Agree SameBuffer (renderStachePartialOwning fns cb startIndex s)
      (renderStachePartial fns cb startIndex s.buffer) := by
  refine (parseNameOwning_agrees none).bind ?_
  rintro ⟨name, after⟩ ⟨name', buffer⟩ ⟨rfl, rfl⟩
  cases name with
  | none => exact Agree.pure ⟨rfl, rfl⟩
  | some named =>
      refine (Agree.refl _).bind ?_
      rintro ⟨result, stream, opened⟩ - rfl
      refine (Agree.refl _).bind ?_
      rintro pushed - rfl
      refine (Owning.run_agrees _).bind ?_
      rintro ⟨more, next⟩ ⟨more', buffer⟩ ⟨rfl, rfl⟩
      cases more <;> exact Agree.pure ⟨rfl, rfl⟩

theorem renderTagOwning_agrees (startIndex : Int) (next : UInt8) :
    Agree SameBuffer (renderTagOwning fns cb startIndex next s)
      (renderTag fns cb startIndex next s.buffer) := by
  rw [renderTagOwning, renderTag]
  split_ifs
  · exact renderVariableOwning_agrees _ _ _
  · exact renderStacheLoopOwning_agrees _
  · exact renderStacheEndOwning_agrees
  · exact renderStacheLoopOwning_agrees _
  · exact renderStacheDelimitersOwning_agrees
  · exact Owning.run_agrees _
  · exact renderStachePartialOwning_agrees _
  · exact renderVariableOwning_agrees _ _ _

theorem renderStacheOwning_agrees (startIndex : Int) :
    Agree SameBuffer (renderStacheOwning fns cb startIndex s)
      (renderStache fns cb startIndex s.buffer) := by
  rw [renderStacheOwning, renderStache]
  split
  next => exact Agree.pure ⟨rfl, rfl⟩
  next =>
    refine (Agree.refl _).bind ?_
    rintro next - rfl
    refine (Owning.run_agrees _).bind ?_
    rintro ⟨more, after⟩ ⟨more', buffer⟩ ⟨rfl, rfl⟩
    cases more with
    | true => exact renderTagOwning_agrees _ _
    | false => exact Agree.pure ⟨rfl, rfl⟩

/-- Both iterate the loop of `render_template` alike. -/
theorem renderStepOwning_agrees (s : Owning σ ο τ) :
    Agree (SumRel (fun (s : Owning σ ο τ) b => s.buffer = b) SameBuffer)
      (renderStepOwning fns cb s) (renderStep fns cb s.buffer) := by
  rw [renderStepOwning, renderStep]
  split
  next => exact Agree.pure (.inr ⟨rfl, rfl⟩)
  next =>
    refine (Owning.run_agrees _).bind ?_
    rintro ⟨opened, after⟩ ⟨opened', buffer⟩ ⟨rfl, rfl⟩
    have htag : Agree SameBuffer
        (if opened then renderStacheOwning fns cb s.buffer.index after
          else do
            let c ← bufferItem after.buffer
            Owning.run { after with buffer := bufferOutput after.buffer [c] }
              (bufferNext fns cb))
        (if opened then renderStache fns cb s.buffer.index after.buffer
          else do
            let c ← bufferItem after.buffer
            bufferNext fns cb (bufferOutput after.buffer [c])) := by
      cases opened with
      | true => exact renderStacheOwning_agrees _
      | false =>
          refine (Agree.refl _).bind ?_
          rintro c - rfl
          exact Owning.run_agrees _
    refine htag.bind ?_
    rintro ⟨result, last⟩ ⟨result', buffer⟩ ⟨rfl, rfl⟩
    cases result with
    | true => exact Agree.pure (.inl rfl)
    | false => exact Agree.pure (.inr ⟨rfl, rfl⟩)

/-- The blocks change nothing in what is rendered. -/
theorem renderOwning_agrees (env : σ) (input : InputStream τ) (data : Int → UInt8) :
    Agree (fun (r : Rendered σ × Ledger) q => r.1 = q)
      (renderOwning fns cb env input data) (render fns cb env input data) := by
  refine (Owning.run_agrees _).bind ?_
  rintro ⟨more, start⟩ ⟨more', buffer⟩ ⟨rfl, rfl⟩
  cases more with
  | false => exact Agree.pure rfl
  | true =>
      have hloop : Agree SameBuffer (Proc.loop (renderStepOwning fns cb) start)
          (renderTemplate fns cb start.buffer) :=
        Agree.loop (R := fun s b => s.buffer = b)
          (fun s _ hs => hs ▸ renderStepOwning_agrees s) rfl
      refine hloop.bind ?_
      rintro ⟨result, last⟩ ⟨result', buffer⟩ ⟨rfl, rfl⟩
      exact Agree.pure rfl

end

def Blocks.held (blocks : Blocks) : List Nat :=
  blocks.unwound ++ blocks.streams.reduceOption

/-- The blocks in hand are those the engine knows of, those a tag is busy with
and those that were lost; while none is lost, no partial is pending. -/
structure Owning.Owes (s : Owning σ ο τ) (busy lost : List Nat) : Prop where
  holds : s.blocks.ledger.Holds (s.blocks.held ++ busy ++ lost)
  names : s.blocks.names.length = s.buffer.loops.length
  streams : s.blocks.streams.length = s.buffer.partials.length
  pending : lost = [] → s.blocks.streams = []

/-- The name of an open section was released. -/
def Owning.Frees (s : Owning σ ο τ) : Prop :=
  ∃ name ∈ s.blocks.names, .handed name ∈ s.blocks.ledger.trace ∧
    .released name ∈ s.blocks.ledger.trace

/-- Sections are neither opened nor closed, and no partial is stacked. -/
def Narrows (before after : Buffer σ ο τ) : Prop :=
  after.loops = before.loops ∧
    after.partials.length ≤ before.partials.length

section

variable {fns : StreamFns τ} {cb : Callback σ ο τ} {s after : Owning σ ο τ}
  {busy lost : List Nat} {block : Nat}

theorem narrows_closed : ReadClosed fns cb Narrows where
  refl _ := ⟨rfl, Nat.le_refl _⟩
  trans hab hbc := ⟨hbc.1.trans hab.1, Nat.le_trans hbc.2 hab.2⟩
  next h := by
    cases bufferNext_step h with
    | ended => exact ⟨rfl, Nat.le_refl _⟩
    | next => exact ⟨rfl, Nat.le_refl _⟩
    | finish => exact ⟨rfl, Nat.le_refl _⟩
    | input => exact ⟨rfl, Nat.le_refl _⟩
    | stream _ _ _ _ _ _ hpartials =>
        exact ⟨rfl, by rw [hpartials]; exact Nat.le_refl _⟩
    | release _ _ _ _ hpartials =>
        exact ⟨rfl, hpartials ▸ Nat.le_succ _⟩
    | drop _ _ _ _ hpartials => exact ⟨rfl, hpartials ▸ Nat.le_succ _⟩
  back h := h

theorem Owning.Owes.finish (h : s.Owes busy lost) {buffer : Buffer σ ο τ}
    (hnarrows : Narrows s.buffer buffer) :
    Owning.Owes ⟨buffer, s.blocks.finish buffer.partials.length⟩ busy lost := by
  obtain ⟨hloops, hpartials⟩ := hnarrows
  rw [← h.streams] at hpartials
  refine ⟨?_, h.names.trans (congrArg List.length hloops.symm), ?_, ?_⟩
  · refine Holds.freeAll (h.holds.perm ?_)
    have hsplit : s.blocks.streams.reduceOption =
        (s.blocks.streams.take
          (s.blocks.streams.length - buffer.partials.length)).reduceOption ++
        (s.blocks.streams.drop
          (s.blocks.streams.length - buffer.partials.length)).reduceOption := by
      rw [← List.reduceOption_append, List.take_append_drop]
    refine List.perm_iff_count.mpr fun n => ?_
    simp only [Blocks.held, Blocks.unwound, Blocks.finish, hsplit,
      List.count_append]
    omega
  · exact (List.length_drop ..).trans (Nat.sub_sub_self hpartials)
  · intro hlost
    change s.blocks.streams.drop _ = []
    rw [h.pending hlost, List.drop_nil]

theorem Owning.Owes.run {α : Type} {a : α}
    {part : Buffer σ ο τ → Proc (α × Buffer σ ο τ)} (h : s.Owes busy lost)
    (hpart : ∀ a buffer, Returns (part s.buffer) (a, buffer) →
      Narrows s.buffer buffer)
    (hrun : Returns (s.run part) (a, after)) : after.Owes busy lost := by
  obtain ⟨⟨a', buffer⟩, hreturns, hrun⟩ := returns_bind.mp hrun
  cases returns_pure.mp hrun
  exact h.finish (hpart _ _ hreturns)

/-- What does not matter to the blocks may change. -/
theorem Owning.Owes.congr (h : s.Owes busy lost) {buffer : Buffer σ ο τ}
    (hloops : buffer.loops.length = s.buffer.loops.length)
    (hpartials : buffer.partials = s.buffer.partials) :
    Owning.Owes ⟨buffer, s.blocks⟩ busy lost where
  holds := h.holds
  names := h.names.trans hloops.symm
  streams := hpartials ▸ h.streams
  pending := h.pending

theorem Owning.Owes.malloc (h : s.Owes busy lost) :
    Owning.Owes ⟨s.buffer, s.blocks.malloc.2⟩ (s.blocks.malloc.1 :: busy)
      lost where
  holds := by
    refine h.holds.malloc.perm (List.perm_iff_count.mpr fun n => ?_)
    simp only [Blocks.held, Blocks.unwound, Blocks.malloc, List.count_append,
      List.count_cons]
    omega
  names := h.names
  streams := h.streams
  pending := h.pending

theorem Owning.Owes.free (h : s.Owes (block :: busy) lost) :
    Owning.Owes { s with blocks := s.blocks.free block } busy lost where
  holds := by
    refine (h.holds.perm (List.perm_iff_count.mpr fun n => ?_)).free
    simp only [Blocks.held, Blocks.unwound, Blocks.free, List.count_append,
      List.count_cons]
    omega
  names := h.names
  streams := h.streams
  pending := h.pending

theorem Owning.Owes.lose (h : s.Owes (block :: busy) lost) :
    s.Owes busy (block :: lost) where
  holds := by
    refine h.holds.perm (List.perm_iff_count.mpr fun n => ?_)
    simp only [List.count_append, List.count_cons]
    omega
  names := h.names
  streams := h.streams
  pending := nofun

theorem parse_narrows {suffix : Option Bytes} {name : Option NameBlock}
    {buffer after : Buffer σ ο τ}
    (h : Returns (parseName fns cb suffix buffer) (name, after)) :
    Narrows buffer after := by
  obtain ⟨skipped, hskip, h⟩ := returns_bind.mp h
  obtain ⟨⟨result, read⟩, hloop, h⟩ := returns_bind.mp h
  have hread := narrows_closed.parseLoop hskip hloop
  cases result <;> cases returns_pure.mp h <;> exact hread

theorem parseName_owes {suffix : Option Bytes}
    {name : Option (NameBlock × Nat)} (h : s.Owes [] lost)
    (hparse : Returns (parseNameOwning fns cb suffix s) (name, after)) :
    Returns (parseName fns cb suffix s.buffer)
      (name.map Prod.fst, after.buffer) ∧
    after.Owes (name.map Prod.snd).toList lost := by
  obtain ⟨⟨read, next⟩, hrun, hparse⟩ := returns_bind.mp hparse
  have hnext : next.Owes [s.blocks.malloc.1] lost := by
    exact h.malloc.run (fun _ _ hread => parse_narrows hread) hrun
  obtain ⟨⟨q, buffer⟩, hread, rfl, rfl⟩ := (Owning.run_agrees _).forth _ hrun
  cases read with
  | none =>
      cases returns_pure.mp hparse
      exact ⟨hread, hnext.free⟩
  | some read =>
      cases returns_pure.mp hparse
      exact ⟨hread, hnext⟩

/-- The array of a new element has a block for its elements. -/
theorem holds_insert {array : ArrayBlocks} {ledger : Ledger}
    {rest : List Nat} (h : ledger.Holds (array.all ++ rest)) :
    (array.insert ledger).2.Holds ((array.insert ledger).1.all ++ rest) := by
  obtain ⟨array, content⟩ := array
  cases content with
  | some content => exact h
  | none => exact h.malloc

theorem variableNamed_narrows {invalidName : String}
    {write : Option Bytes → Buffer σ ο τ → Proc (Buffer σ ο τ)}
    {name : NameBlock} {buffer after : Buffer σ ο τ} {result : Bool}
    (hwrite : OnlyWrites write)
    (h : Returns (variableNamed cb invalidName write name buffer)
      (result, after)) : Narrows buffer after := by
  rw [variableNamed] at h
  split at h
  next =>
    cases returns_pure.mp h
    exact ⟨rfl, Nat.le_refl _⟩
  next =>
    rcases hresolve : cb.resolve buffer.env name.string with ⟨lookup, env⟩
    rw [Buffer.resolve_eq hresolve] at h
    cases lookup with
    | string resolved =>
        obtain ⟨⟨c, got⟩, hget, h⟩ := returns_bind.mp h
        obtain ⟨written, hwritten, h⟩ := returns_bind.mp h
        obtain ⟨output, rfl⟩ := hwrite hwritten
        obtain ⟨get, -, -, rfl⟩ := call_returns_some hget
        obtain ⟨⟨freed, called⟩, hcall, h⟩ := returns_bind.mp h
        obtain ⟨free, -, -, rfl⟩ := call_returns_some hcall
        cases freed <;> cases returns_pure.mp h <;>
          exact ⟨rfl, Nat.le_refl _⟩
    | notFound =>
        cases returns_pure.mp h
        exact ⟨rfl, Nat.le_refl _⟩
    | list resolved =>
        cases returns_pure.mp h
        exact ⟨rfl, Nat.le_refl _⟩
    | stream resolved =>
        cases returns_pure.mp h
        exact ⟨rfl, Nat.le_refl _⟩
    | invalid =>
        cases returns_pure.mp h
        exact ⟨rfl, Nat.le_refl _⟩

theorem renderVariable_owes {suffix : Option Bytes} {invalidName : String}
    {write : Option Bytes → Buffer σ ο τ → Proc (Buffer σ ο τ)}
    {r : Bool × Owning σ ο τ} (hwrite : OnlyWrites write) (h : s.Owes [] lost)
    (hr : Returns (renderVariableOwning fns cb suffix invalidName write s) r) :
    r.2.Owes [] lost := by
  obtain ⟨⟨name, parsed⟩, hparse, hr⟩ := returns_bind.mp hr
  obtain ⟨-, hparsed⟩ := parseName_owes h hparse
  cases name with
  | none =>
      cases returns_pure.mp hr
      exact hparsed
  | some named =>
      obtain ⟨⟨result, last⟩, hrun, hr⟩ := returns_bind.mp hr
      cases returns_pure.mp hr
      exact (hparsed.run (fun _ _ => variableNamed_narrows hwrite) hrun).free

theorem Owning.Owes.openSection (h : s.Owes [block] lost)
    {buffer : Buffer σ ο τ}
    (hloops : buffer.loops.length = s.buffer.loops.length + 1)
    (hpartials : buffer.partials = s.buffer.partials) :
    Owning.Owes ⟨buffer, s.blocks.openSection block⟩ [] lost where
  holds := by
    have hinsert : s.blocks.ledger.Holds (s.blocks.loops.all ++
        ([s.blocks.openDelimiter, s.blocks.closeDelimiter] ++
          (block :: s.blocks.names) ++ s.blocks.partials.all ++
          [s.blocks.data] ++ s.blocks.streams.reduceOption ++ lost)) := by
      refine h.holds.perm (List.perm_iff_count.mpr fun n => ?_)
      simp only [Blocks.held, Blocks.unwound, List.count_append,
        List.count_cons, List.count_reverse, List.count_nil]
      omega
    refine (holds_insert hinsert).perm (List.perm_iff_count.mpr fun n => ?_)
    simp only [Blocks.held, Blocks.unwound, Blocks.openSection,
      List.count_append, List.count_cons, List.count_reverse, List.count_nil]
    omega
  names := by
    rw [hloops, ← h.names]
    rfl
  streams := hpartials ▸ h.streams
  pending := h.pending

theorem renderStacheLoop_owes {type : LoopType} {r : Bool × Owning σ ο τ}
    (h : s.Owes [] lost)
    (hr : Returns (renderStacheLoopOwning fns cb type s) r) :
    r.2.Owes [] lost := by
  obtain ⟨⟨name, parsed⟩, hparse, hr⟩ := returns_bind.mp hr
  obtain ⟨-, hparsed⟩ := parseName_owes h hparse
  cases name with
  | none =>
      cases returns_pure.mp hr
      exact hparsed
  | some named =>
      obtain ⟨name, block⟩ := named
      rcases hresolve : cb.resolve parsed.buffer.env name.string with
        ⟨lookup, env⟩
      obtain ⟨result, empty, error, hopen, -⟩ :=
        openLoop_env fns cb lookup (parsed.buffer.setEnv env)
      dsimp only [loopNamed] at hr
      rw [Buffer.resolve_eq hresolve] at hr
      dsimp only at hr
      rw [hopen] at hr
      cases returns_pure.mp hr
      exact hparsed.openSection rfl rfl

theorem Owning.Owes.closeSection (h : s.Owes busy lost)
    {loop : StacheLoop ο} {loops : List (StacheLoop ο)}
    (hloops : s.buffer.loops = loop :: loops) {buffer : Buffer σ ο τ}
    (hclosed : buffer.loops = loops)
    (hpartials : buffer.partials = s.buffer.partials) :
    Owning.Owes ⟨buffer, s.blocks.closeSection⟩ busy lost := by
  cases hnames : s.blocks.names with
  | nil =>
      have hlength := h.names
      rw [hnames, hloops] at hlength
      cases hlength
  | cons name names =>
      refine ⟨?_, ?_, ?_, ?_⟩
      · have hfirst : s.blocks.ledger.Holds (name ::
            (({ s.blocks with names := names } : Blocks).held ++ busy ++
              lost)) := by
          refine h.holds.perm (List.perm_iff_count.mpr fun n => ?_)
          simp only [Blocks.held, Blocks.unwound, hnames, List.count_append,
            List.count_cons, List.count_reverse]
          omega
        rw [Blocks.closeSection, hnames]
        exact hfirst.free
      · have hlength := h.names
        rw [hnames, hloops] at hlength
        rw [Blocks.closeSection, hnames, hclosed]
        exact Nat.succ.inj hlength
      · rw [Blocks.closeSection, hnames, hpartials]
        exact h.streams
      · rw [Blocks.closeSection, hnames]
        exact h.pending

/-- The name of a section that stays open is released. -/
theorem Owning.Owes.freeName (h : s.Owes busy lost)
    {loop : StacheLoop ο} {loops : List (StacheLoop ο)}
    (hloops : s.buffer.loops = loop :: loops) (buffer : Buffer σ ο τ) :
    Owning.Frees ⟨buffer, s.blocks.freeName⟩ := by
  cases hnames : s.blocks.names with
  | nil =>
      have hlength := h.names
      rw [hnames, hloops] at hlength
      cases hlength
  | cons name names =>
      have hheld : name ∈ s.blocks.held ++ busy ++ lost := by
        simp [Blocks.held, Blocks.unwound, hnames]
      have hhanded := h.holds.handed hheld
      have hfreed : s.blocks.freeName = s.blocks.free name := by
        rw [Blocks.freeName, hnames]
      have hname : name ∈ s.blocks.names := hnames ▸ List.mem_cons_self
      rw [Owning.Frees]
      dsimp only
      rw [hfreed]
      refine ⟨name, hname, ?_, ?_⟩
      · exact List.mem_append_left _ hhanded
      · exact List.mem_append_right _ (List.mem_singleton_self _)

theorem Owning.Frees.free (h : s.Frees) (block : Nat) :
    Owning.Frees { s with blocks := s.blocks.free block } := by
  obtain ⟨name, hname, hhanded, hreleased⟩ := h
  exact ⟨name, hname, List.mem_append_left _ hhanded,
    List.mem_append_left _ hreleased⟩

end

/-- The name is that of the innermost open section, the section is a list
without a further item, and the list cannot be closed. -/
def Buffer.ListStays (cb : Callback σ ο τ) (name : NameBlock)
    (buffer : Buffer σ ο τ) : Prop :=
  ∃ loop loops resolved asked,
    buffer.loops = loop :: loops ∧ name.string = loop.name ∧
    loop.lookup = .list resolved ∧
    Returns (listNext cb resolved loop.next.loopIndex
      { buffer with loops := loop.next :: loops } loop.type) (false, asked) ∧
    (asked.callOr (cb.listClose resolved) false).1 = false

/-- What the end of a section comes to. -/
inductive EndOwes (stays : Prop) (busy lost : List Nat)
    (r : Bool × Owning σ ο τ) : Prop
  | owes : ¬ stays → r.2.Owes busy lost → EndOwes stays busy lost r
  | frees : stays → r.1 = false → r.2.Frees → EndOwes stays busy lost r

section

variable {fns : StreamFns τ} {cb : Callback σ ο τ} {s after : Owning σ ο τ}
  {busy lost : List Nat} {block : Nat} {r : Bool × Owning σ ο τ}

theorem EndOwes.free {stays : Prop} (h : EndOwes stays (block :: busy) lost r) :
    EndOwes stays busy lost
      (r.1, { r.2 with blocks := r.2.blocks.free block }) := by
  cases h with
  | owes hstays howes => exact .owes hstays howes.free
  | frees hstays hresult hfrees => exact .frees hstays hresult (hfrees.free _)

/-- The list of a section is asked whether it goes on, and then closed. -/
theorem endList_owes {name : NameBlock} {resolved : ο} {loop : StacheLoop ο}
    {loops : List (StacheLoop ο)} (h : s.Owes busy lost)
    (hloops : s.buffer.loops = loop :: loops) (hname : name.string = loop.name)
    (hlookup : loop.lookup = .list resolved)
    (hr : Returns (endListOwning cb resolved loop loops s) r) :
    EndOwes (s.buffer.ListStays cb name) busy lost r := by
  obtain ⟨⟨found, asked⟩, hnext, hr⟩ := returns_bind.mp hr
  have hnext : Returns (listNext cb resolved loop.next.loopIndex
      { s.buffer with loops := loop.next :: loops } loop.type)
      (found, asked) := hnext
  have hstays : s.buffer.ListStays cb name → found = false ∧
      (asked.callOr (cb.listClose resolved) false).1 = false := by
    rintro ⟨loop', loops', resolved', asked', hloops', -, hlookup', hasked,
      hclosed⟩
    cases hloops.symm.trans hloops'
    cases hlookup.symm.trans hlookup'
    cases hnext.unique hasked
    exact ⟨rfl, hclosed⟩
  obtain ⟨env, rfl, -⟩ := listNext_asks hnext
  cases found with
  | true =>
      cases returns_pure.mp hr
      refine .owes (fun hkept => ?_) (h.congr (hloops ▸ rfl) rfl)
      cases (hstays hkept).1
  | false =>
      obtain ⟨closed, hcalled, -⟩ := callOr_release
        ({ s.buffer with loops := loop.next :: loops }.setEnv env)
        (cb.listClose resolved)
      dsimp only at hr
      rw [if_neg Bool.false_ne_true, hcalled] at hr
      rw [hcalled] at hstays
      cases closed with
      | true =>
          cases returns_pure.mp hr
          refine .owes (fun hkept => ?_) (h.closeSection hloops rfl rfl)
          cases (hstays hkept).2
      | false =>
          cases returns_pure.mp hr
          exact .frees ⟨loop, loops, resolved, _, hloops, hname, hlookup, hnext,
            congrArg Prod.fst hcalled⟩ rfl (h.freeName hloops _)

theorem endNamed_owes {name : NameBlock} (h : s.Owes busy lost)
    (hr : Returns (endNamedOwning cb name s) r) :
    EndOwes (s.buffer.ListStays cb name) busy lost r := by
  rw [endNamedOwning] at hr
  split at hr
  next hnil =>
    cases returns_pure.mp hr
    refine .owes ?_ (h.congr rfl rfl)
    rintro ⟨loop, loops, _, _, hloops, -⟩
    cases hnil.symm.trans hloops
  next loop loops hloops =>
    split at hr
    next hother =>
      cases returns_pure.mp hr
      refine .owes ?_ (h.congr rfl rfl)
      rintro ⟨loop', loops', _, _, hloops', hname, -⟩
      cases hloops.symm.trans hloops'
      exact hother hname
    next hname =>
      have hname : name.string = loop.name := not_not.mp hname
      have hstays : s.buffer.ListStays cb name →
          ∃ resolved, loop.lookup = .list resolved := by
        rintro ⟨loop', loops', resolved, _, hloops', -, hlookup, -⟩
        cases hloops.symm.trans hloops'
        exact ⟨resolved, hlookup⟩
      cases hlookup : loop.lookup with
      | list resolved =>
          rw [hlookup] at hr
          exact endList_owes h hloops hname hlookup hr
      | notFound =>
          rw [hlookup] at hr hstays
          cases returns_pure.mp hr
          exact .owes (fun hkept => nomatch hstays hkept)
            (h.closeSection hloops rfl rfl)
      | string resolved =>
          rw [hlookup] at hr hstays
          cases returns_pure.mp hr
          exact .owes (fun hkept => nomatch hstays hkept)
            (h.closeSection hloops rfl rfl)
      | stream resolved =>
          rw [hlookup] at hr hstays
          cases returns_pure.mp hr
          exact .owes (fun hkept => nomatch hstays hkept)
            (h.closeSection hloops rfl rfl)
      | invalid =>
          rw [hlookup] at hr hstays
          cases returns_pure.mp hr
          exact .owes (fun hkept => nomatch hstays hkept) h

def Buffer.KeepsList (fns : StreamFns τ) (cb : Callback σ ο τ)
    (buffer : Buffer σ ο τ) : Prop :=
  ∃ name after, Returns (parseName fns cb none buffer) (some name, after) ∧
    after.ListStays cb name

theorem renderStacheEnd_owes (h : s.Owes [] lost)
    (hr : Returns (renderStacheEndOwning fns cb s) r) :
    EndOwes (s.buffer.KeepsList fns cb) [] lost r := by
  obtain ⟨⟨name, parsed⟩, hparse, hr⟩ := returns_bind.mp hr
  obtain ⟨hread, hparsed⟩ := parseName_owes h hparse
  cases name with
  | none =>
      cases returns_pure.mp hr
      refine .owes ?_ hparsed
      rintro ⟨name, after, hsome, -⟩
      cases hread.unique hsome
  | some named =>
      obtain ⟨name, block⟩ := named
      obtain ⟨⟨result, last⟩, hend, hr⟩ := returns_bind.mp hr
      cases returns_pure.mp hr
      have hkeeps : s.buffer.KeepsList fns cb ↔
          parsed.buffer.ListStays cb name := by
        constructor
        · rintro ⟨name', after, hsome, hstays⟩
          cases hread.unique hsome
          exact hstays
        · exact fun hstays => ⟨name, parsed.buffer, hread, hstays⟩
      rw [hkeeps]
      exact (endNamed_owes hparsed hend).free

theorem Owning.Owes.changeDelimiters (h : s.Owes busy lost) :
    Owning.Owes { s with blocks := s.blocks.changeDelimiters } busy lost where
  holds := by
    have hfirst : s.blocks.ledger.Holds (s.blocks.openDelimiter ::
        s.blocks.closeDelimiter :: (s.blocks.names.reverse ++
          s.blocks.loops.all ++ s.blocks.partials.all ++ [s.blocks.data] ++
          s.blocks.streams.reduceOption ++ busy ++ lost)) := by
      refine h.holds.perm (List.perm_iff_count.mpr fun n => ?_)
      simp only [Blocks.held, Blocks.unwound, List.count_append,
        List.count_cons, List.count_nil]
      omega
    refine hfirst.free.free.malloc.malloc.perm
      (List.perm_iff_count.mpr fun n => ?_)
    simp only [Blocks.held, Blocks.unwound, Blocks.changeDelimiters,
      List.count_append, List.count_cons, List.count_nil]
    omega
  names := h.names
  streams := h.streams
  pending := h.pending

theorem renderStacheDelimiters_owes (h : s.Owes [] lost)
    (hr : Returns (renderStacheDelimitersOwning fns cb s) r) :
    r.2.Owes [] lost := by
  obtain ⟨⟨name, parsed⟩, hparse, hr⟩ := returns_bind.mp hr
  obtain ⟨-, hparsed⟩ := parseName_owes h hparse
  cases name with
  | none =>
      cases returns_pure.mp hr
      exact hparsed
  | some named =>
      obtain ⟨scanned, -, hr⟩ := returns_bind.mp hr
      cases scanned with
      | error error =>
          cases returns_pure.mp hr
          exact hparsed.free.congr rfl rfl
      | ok delimiters =>
          cases returns_pure.mp hr
          exact hparsed.changeDelimiters.free.congr rfl rfl

theorem newStream_eq (blocks : Blocks) (lookup : Lookup ο) :
    ∃ stream ledger, blocks.newStream lookup =
        (stream, { blocks with ledger := ledger }) ∧
      ∀ {rest}, blocks.ledger.Holds rest →
        ledger.Holds (stream.toList ++ rest) := by
  cases lookup with
  | string resolved =>
      exact ⟨some blocks.ledger.malloc.1, blocks.ledger.malloc.2, rfl,
        fun h => h.malloc⟩
  | notFound => exact ⟨none, blocks.ledger, rfl, id⟩
  | list resolved => exact ⟨none, blocks.ledger, rfl, id⟩
  | stream resolved => exact ⟨none, blocks.ledger, rfl, id⟩
  | invalid => exact ⟨none, blocks.ledger, rfl, id⟩

/-- A partial is stacked; a block was lost before. -/
theorem Owning.Owes.pushPartial (h : s.Owes busy (block :: lost))
    {lookup : Lookup ο} {stream : Option (InputStream τ)}
    {buffer : Buffer σ ο τ} (hloops : buffer.loops = s.buffer.loops)
    (hpartials : buffer.partials.length =
      s.buffer.partials.length + stream.toList.length) :
    Owning.Owes ⟨buffer, s.blocks.pushPartial lookup stream⟩ busy
      (block :: lost) := by
  cases stream with
  | none =>
      exact ⟨h.holds, h.names.trans (congrArg List.length hloops.symm),
        h.streams.trans hpartials.symm, nofun⟩
  | some stream =>
      obtain ⟨owned, ledger, hnew, hledger⟩ := newStream_eq s.blocks lookup
      have hstacked : s.blocks.pushPartial lookup (some stream) =
          { s.blocks with
            ledger := (s.blocks.partials.insert ledger).2,
            partials := (s.blocks.partials.insert ledger).1,
            streams := owned :: s.blocks.streams } := by
        rw [Blocks.pushPartial, hnew]
      have hinsert : ledger.Holds (s.blocks.partials.all ++
          (owned.toList ++ ([s.blocks.openDelimiter, s.blocks.closeDelimiter] ++
            s.blocks.names.reverse ++ s.blocks.loops.all ++ [s.blocks.data] ++
            s.blocks.streams.reduceOption ++ busy ++ block :: lost))) := by
        refine (hledger h.holds).perm (List.perm_iff_count.mpr fun n => ?_)
        simp only [Blocks.held, Blocks.unwound, List.count_append]
        omega
      rw [hstacked]
      refine ⟨?_, h.names.trans (congrArg List.length hloops.symm), ?_, nofun⟩
      · have hstreams : (owned :: s.blocks.streams).reduceOption =
            owned.toList ++ s.blocks.streams.reduceOption := by
          cases owned <;> rfl
        refine (holds_insert hinsert).perm
          (List.perm_iff_count.mpr fun n => ?_)
        simp only [Blocks.held, Blocks.unwound, hstreams, List.count_append]
        omega
      · rw [hpartials, ← h.streams]
        rfl

/-- The name of the partial at the place is accepted. -/
def Buffer.KeepsName (fns : StreamFns τ) (cb : Callback σ ο τ)
    (buffer : Buffer σ ο τ) : Prop :=
  ∃ name after, Returns (parseName fns cb none buffer) (some name, after)

theorem renderStachePartial_owes {start : Int} (h : s.Owes [] lost)
    (hr : Returns (renderStachePartialOwning fns cb start s) r) :
    (¬ s.buffer.KeepsName fns cb ∧ r.2.Owes [] lost) ∨
      (s.buffer.KeepsName fns cb ∧ ∃ block, r.2.Owes [] (block :: lost)) := by
  obtain ⟨⟨name, parsed⟩, hparse, hr⟩ := returns_bind.mp hr
  obtain ⟨hread, hparsed⟩ := parseName_owes h hparse
  cases name with
  | none =>
      cases returns_pure.mp hr
      refine Or.inl ⟨?_, hparsed⟩
      rintro ⟨name, after, hsome⟩
      cases hread.unique hsome
  | some named =>
      obtain ⟨name, block⟩ := named
      refine Or.inr ⟨⟨name, parsed.buffer, hread⟩, block, ?_⟩
      have hlost : parsed.Owes [] (block :: lost) := hparsed.lose
      rcases hresolve : cb.resolve parsed.buffer.env name.string with
        ⟨lookup, env⟩
      dsimp only at hr
      rw [Buffer.resolve_eq hresolve] at hr
      obtain ⟨⟨result, stream, opened⟩, hopen, hr⟩ := returns_bind.mp hr
      obtain ⟨env', error, -, rfl, -⟩ := openPartial_includes hopen
      obtain ⟨pushed, hpush, hr⟩ := returns_bind.mp hr
      obtain ⟨source, save, rfl⟩ := pushPartial_stacks hpush
      obtain ⟨⟨more, next⟩, hnext, hr⟩ := returns_bind.mp hr
      have hdone : next.Owes [] (block :: lost) := by
        refine Owning.Owes.run (hlost.pushPartial ?_ ?_)
          (fun _ _ hread => narrows_closed.next hread) hnext
        · rfl
        · cases stream <;> rfl
      cases more <;> cases returns_pure.mp hr
      · exact hdone.congr rfl rfl
      · exact hdone

end

/-- The buffer stands at a partial whose name is accepted. -/
def Buffer.LosesName (fns : StreamFns τ) (cb : Callback σ ο τ)
    (buffer : Buffer σ ο τ) : Prop :=
  ∃ start, buffer.TagAt fns cb (ascii '>') start ∧ start.KeepsName fns cb

/-- The buffer stands at the end of a list that cannot be closed. -/
def Buffer.FreesTwice (fns : StreamFns τ) (cb : Callback σ ο τ)
    (buffer : Buffer σ ο τ) : Prop :=
  ∃ start, buffer.TagAt fns cb (ascii '/') start ∧ start.KeepsList fns cb

/-- What a part of an iteration comes to. -/
inductive PartOwes (loses frees : Prop) (lost : List Nat)
    (r : Bool × Owning σ ο τ) : Prop
  | owes : ¬ loses → ¬ frees → r.2.Owes [] lost → PartOwes loses frees lost r
  | loses (block : Nat) :
      loses → r.2.Owes [] (block :: lost) → PartOwes loses frees lost r
  | frees : frees → r.1 = false → r.2.Frees → PartOwes loses frees lost r

section

variable {fns : StreamFns τ} {cb : Callback σ ο τ} {s after : Owning σ ο τ}
  {lost : List Nat} {r : Bool × Owning σ ο τ} {buffer : Buffer σ ο τ}

theorem PartOwes.congr {loses loses' frees frees' : Prop}
    (h : PartOwes loses frees lost r) (hloses : loses ↔ loses')
    (hfrees : frees ↔ frees') : PartOwes loses' frees' lost r := by
  rw [← propext hloses, ← propext hfrees]
  exact h

theorem renderTag_owes {start : Int} {c : UInt8} (h : s.Owes [] lost)
    (hr : Returns (renderTagOwning fns cb start c s) r) :
    PartOwes (c = ascii '>' ∧ s.buffer.KeepsName fns cb)
      (c = ascii '/' ∧ s.buffer.KeepsList fns cb) lost r := by
  rw [renderTagOwning] at hr
  by_cases hend : c = ascii '/'
  · subst hend
    rw [if_neg (by decide), if_neg (by decide), if_pos rfl] at hr
    have hloses : ¬ (ascii '/' = ascii '>' ∧ s.buffer.KeepsName fns cb) :=
      fun hpartial => absurd hpartial.1 (by decide)
    cases renderStacheEnd_owes h hr with
    | owes hkeeps howes =>
        exact .owes hloses (fun hend => hkeeps hend.2) howes
    | frees hkeeps hresult hfrees => exact .frees ⟨rfl, hkeeps⟩ hresult hfrees
  have hends : ¬ (c = ascii '/' ∧ s.buffer.KeepsList fns cb) :=
    fun h => hend h.1
  by_cases hpartial : c = ascii '>'
  · subst hpartial
    rw [if_neg (by decide), if_neg (by decide), if_neg (by decide),
      if_neg (by decide), if_neg (by decide), if_neg (by decide),
      if_pos rfl] at hr
    rcases renderStachePartial_owes h hr with
      ⟨hkeeps, howes⟩ | ⟨hkeeps, block, howes⟩
    · exact .owes (fun hpartial => hkeeps hpartial.2) hends howes
    · exact .loses block ⟨rfl, hkeeps⟩ howes
  · refine .owes (fun h => hpartial h.1) hends ?_
    obtain ⟨result, after⟩ := r
    rw [if_neg hend, if_neg hpartial] at hr
    split_ifs at hr
    · exact renderVariable_owes writeRaw_only h hr
    · exact renderStacheLoop_owes h hr
    · exact renderStacheLoop_owes h hr
    · exact renderStacheDelimiters_owes h hr
    · exact h.run (fun _ _ hread => narrows_closed.comment hread) hr
    · refine renderVariable_owes writeEscaped_only ?_ hr
      exact h.congr rfl rfl

theorem Buffer.TagAt.loses_iff {c : UInt8} {start : Buffer σ ο τ}
    (h : buffer.TagAt fns cb c start) :
    c = ascii '>' ∧ start.KeepsName fns cb ↔ buffer.LosesName fns cb := by
  constructor
  · rintro ⟨rfl, hkeeps⟩
    exact ⟨start, h, hkeeps⟩
  · rintro ⟨start', h', hkeeps⟩
    obtain ⟨rfl, rfl⟩ := h.unique h'
    exact ⟨rfl, hkeeps⟩

theorem Buffer.TagAt.frees_iff {c : UInt8} {start : Buffer σ ο τ}
    (h : buffer.TagAt fns cb c start) :
    c = ascii '/' ∧ start.KeepsList fns cb ↔ buffer.FreesTwice fns cb := by
  constructor
  · rintro ⟨rfl, hkeeps⟩
    exact ⟨start, h, hkeeps⟩
  · rintro ⟨start', h', hkeeps⟩
    obtain ⟨rfl, rfl⟩ := h.unique h'
    exact ⟨rfl, hkeeps⟩

theorem PartOwes.of_plain (hplain : ∀ c start, ¬ buffer.TagAt fns cb c start)
    (h : r.2.Owes [] lost) :
    PartOwes (buffer.LosesName fns cb) (buffer.FreesTwice fns cb) lost r := by
  refine .owes ?_ ?_ h
  · exact fun ⟨start, htag, _⟩ => hplain _ start htag
  · exact fun ⟨start, htag, _⟩ => hplain _ start htag

/-- What an iteration of `render_template` does to the blocks. -/
theorem renderStep_owes {o : Owning σ ο τ ⊕ (Bool × Owning σ ο τ)}
    (h : s.Owes [] lost) (hstep : Returns (renderStepOwning fns cb s) o) :
    ∃ r, PartOwes (s.buffer.LosesName fns cb) (s.buffer.FreesTwice fns cb)
        lost r ∧
      (o = .inr r ∨ (r.1 = true ∧ o = .inl r.2)) := by
  rw [renderStepOwning] at hstep
  split at hstep
  next hended =>
    cases returns_pure.mp hstep
    refine ⟨_, .of_plain ?_ h, Or.inl rfl⟩
    rintro c start ⟨hlive, -⟩
    rw [hlive] at hended
    cases hended
  next hlive =>
  obtain ⟨⟨tagged, opened⟩, hlook, hstep⟩ := returns_bind.mp hstep
  have hopened := h.run (fun _ _ => narrows_closed.lookAt) hlook
  obtain ⟨⟨tagged', opened'⟩, hlook, rfl, hbuffer⟩ :=
    (Owning.run_agrees _).forth _ hlook
  cases hbuffer
  obtain ⟨r, hr, hstep⟩ := returns_bind.mp hstep
  refine ⟨r, ?_, ?_⟩
  · cases tagged with
    | false =>
        obtain ⟨c, -, hr⟩ := returns_bind.mp hr
        obtain ⟨output, hwritten⟩ := bufferOutput_only opened.buffer [c]
        rw [hwritten] at hr
        obtain ⟨result, last⟩ := r
        refine .of_plain ?_ ?_
        · rintro c' start ⟨-, opened', hlook', -⟩
          cases hlook.unique hlook'
        · refine Owning.Owes.run (hopened.congr ?_ ?_)
            (fun _ _ => narrows_closed.next) hr
          · rfl
          · rfl
    | true =>
        change Returns (renderStacheOwning fns cb s.buffer.index opened) r at hr
        rw [renderStacheOwning] at hr
        split at hr
        next hended =>
          cases returns_pure.mp hr
          refine .of_plain ?_ (hopened.congr rfl rfl)
          rintro c start ⟨-, opened', hlook', hlive', -⟩
          cases hlook.unique hlook'
          rw [hlive'] at hended
          cases hended
        next hmore =>
        obtain ⟨c, hitem, hr⟩ := returns_bind.mp hr
        obtain ⟨⟨more, start⟩, hnext, hr⟩ := returns_bind.mp hr
        have hstart := hopened.run (fun _ _ => narrows_closed.next) hnext
        obtain ⟨⟨more', start'⟩, hnext, rfl, hbuffer⟩ :=
          (Owning.run_agrees _).forth _ hnext
        cases hbuffer
        cases more with
        | false =>
            cases returns_pure.mp hr
            refine .of_plain ?_ (hstart.congr rfl rfl)
            rintro c' start' ⟨-, opened', hlook', -, -, hnext'⟩
            cases hlook.unique hlook'
            cases hnext.unique hnext'
        | true =>
            have htag : s.buffer.TagAt fns cb c start.buffer :=
              ⟨by simpa using hlive, opened.buffer, hlook, by simpa using hmore,
                hitem, hnext⟩
            exact (renderTag_owes hstart hr).congr htag.loses_iff
              htag.frees_iff
  · obtain ⟨result, last⟩ := r
    cases result with
    | true => exact Or.inr ⟨rfl, (returns_pure.mp hstep).symm⟩
    | false => exact Or.inl (returns_pure.mp hstep).symm

end

section

variable {fns : StreamFns τ} {cb : Callback σ ο τ} {s last : Owning σ ο τ}
  {result : Bool}

/-- A block was lost, or released while it was known. -/
def Owning.Spoiled (s : Owning σ ο τ) : Prop :=
  (∃ block lost, s.Owes [] (block :: lost)) ∨ s.Frees

theorem Owning.Spoiled.not_settled (h : s.Spoiled) :
    ¬ Settled (s.blocks.ledger.freeAll s.blocks.unwound).trace := by
  rcases h with ⟨block, lost, howes⟩ | ⟨name, hname, hhanded, hreleased⟩
  · have hholds : s.blocks.ledger.Holds (s.blocks.unwound ++
        (s.blocks.streams.reduceOption ++ block :: lost)) := by
      have heq := howes.holds
      rwa [Blocks.held, List.append_nil, List.append_assoc] at heq
    rw [hholds.freeAll.settled_iff]
    exact List.append_ne_nil_of_right_ne_nil _ (List.cons_ne_nil _ _)
  · refine not_settled_twice hhanded hreleased ?_
    simp [Blocks.unwound, hname]

/-- While nothing is lost, `render` releases all that is left. -/
theorem Owning.Owes.settled (h : s.Owes [] []) :
    Settled (s.blocks.ledger.freeAll s.blocks.unwound).trace := by
  have hholds : s.blocks.ledger.Holds (s.blocks.unwound ++ []) := by
    simpa [Blocks.held, h.pending rfl] using h.holds
  exact hholds.freeAll.settled_iff.mpr rfl

theorem Owning.Spoiled.loop {block : Nat} {lost : List Nat}
    (h : s.Owes [] (block :: lost))
    (hloop : Returns (Proc.loop (renderStepOwning fns cb) s) (result, last)) :
    last.Spoiled := by
  refine Returns.loop_ensures
    (I := fun s : Owning σ ο τ => ∃ block lost, s.Owes [] (block :: lost))
    (Q := fun r : Bool × Owning σ ο τ => r.2.Spoiled) ?_ ⟨block, lost, h⟩ hloop
  rintro s o ⟨block, lost, hs⟩ hstep
  obtain ⟨r, hpart, ho⟩ := renderStep_owes hs hstep
  have hr : (∃ block lost, r.2.Owes [] (block :: lost)) ∨
      (r.1 = false ∧ r.2.Frees) := by
    cases hpart with
    | owes _ _ howes => exact Or.inl ⟨block, lost, howes⟩
    | loses new _ howes => exact Or.inl ⟨new, block :: lost, howes⟩
    | frees _ hresult hfrees => exact Or.inr ⟨hresult, hfrees⟩
  rcases ho with rfl | ⟨htrue, rfl⟩
  · exact hr.imp_right And.right
  · rcases hr with hlost | ⟨hfalse, -⟩
    · exact hlost
    · rw [htrue] at hfalse
      cases hfalse

/-- An iteration that loses a block or releases one twice spoils the run. -/
theorem Owning.Spoiled.from {lost : List Nat} (h : s.Owes [] lost)
    (hspoils : s.buffer.LosesName fns cb ∨ s.buffer.FreesTwice fns cb)
    (hloop : Returns (Proc.loop (renderStepOwning fns cb) s) (result, last)) :
    last.Spoiled := by
  rcases returns_loop_iff.mp hloop with ⟨next, hstep, hrest⟩ | hstep
  · obtain ⟨r, hpart, ho⟩ := renderStep_owes h hstep
    rcases ho with ho | ⟨htrue, ho⟩
    · cases ho
    cases ho
    cases hpart with
    | owes hloses hfrees => exact absurd hspoils (not_or.mpr ⟨hloses, hfrees⟩)
    | loses block _ howes => exact Owning.Spoiled.loop howes hrest
    | frees _ hfalse =>
        rw [htrue] at hfalse
        cases hfalse
  · obtain ⟨r, hpart, ho⟩ := renderStep_owes h hstep
    rcases ho with ho | ⟨-, ho⟩
    · cases ho
      cases hpart with
      | owes hloses hfrees =>
          exact absurd hspoils (not_or.mpr ⟨hloses, hfrees⟩)
      | loses block _ howes => exact Or.inl ⟨block, lost, howes⟩
      | frees _ _ hfrees => exact Or.inr hfrees
    · cases ho

/-- Wherever the run comes, every block in hand is known or lost. -/
theorem Owning.Owes.reaches {lost : List Nat} (h : s.Owes [] lost)
    (hreach : Reaches (renderStepOwning fns cb) s last) :
    ∃ lost, last.Owes [] lost := by
  refine hreach.invariant (I := fun s : Owning σ ο τ =>
    ∃ lost, s.Owes [] lost) ?_ ⟨lost, h⟩
  rintro s next ⟨lost, hs⟩ hstep
  obtain ⟨r, hpart, ho⟩ := renderStep_owes hs hstep
  rcases ho with ho | ⟨htrue, ho⟩
  · cases ho
  cases ho
  cases hpart with
  | owes _ _ howes => exact ⟨lost, howes⟩
  | loses block _ howes => exact ⟨block :: lost, howes⟩
  | frees _ hfalse =>
      rw [htrue] at hfalse
      cases hfalse

/-- The blocks `render` asks for before it reads. -/
theorem first_owes (env : σ) (input : InputStream τ) (data : Int → UInt8) :
    Owning.Owes (⟨newBuffer env input data, Blocks.first⟩ : Owning σ ο τ)
      [] [] := by
  have hheld : [4, 3, 2, 1, 0].Perm (Blocks.first.held ++ [] ++ []) := by
    decide
  exact ⟨holds_empty.malloc.malloc.malloc.malloc.malloc.perm hheld, rfl, rfl,
    fun _ => rfl⟩

/-- A run whose iterations neither lose a block nor release one twice. -/
theorem Owning.Owes.loop {env : σ} {input : InputStream τ}
    {data : Int → UInt8} (h : s.Owes [] [])
    (hrendering : Rendering fns cb env input data s.buffer)
    (hsound : ∀ buffer, Rendering fns cb env input data buffer →
      ¬ buffer.LosesName fns cb ∧ ¬ buffer.FreesTwice fns cb)
    (hloop : Returns (Proc.loop (renderStepOwning fns cb) s) (result, last)) :
    last.Owes [] [] := by
  refine Returns.loop_ensures
    (I := fun s : Owning σ ο τ =>
      s.Owes [] [] ∧ Rendering fns cb env input data s.buffer)
    (Q := fun r : Bool × Owning σ ο τ => r.2.Owes [] []) ?_
    ⟨h, hrendering⟩ hloop
  rintro s o ⟨hs, hreached⟩ hstep
  obtain ⟨hloses, hfrees⟩ := hsound _ hreached
  obtain ⟨r, hpart, ho⟩ := renderStep_owes hs hstep
  have hr : r.2.Owes [] [] := by
    cases hpart with
    | owes _ _ howes => exact howes
    | loses _ hlost => exact absurd hlost hloses
    | frees hfreed => exact absurd hfreed hfrees
  rcases ho with rfl | ⟨-, rfl⟩
  · exact hr
  · obtain ⟨o, hnext, hrel⟩ := (renderStepOwning_agrees s).forth _ hstep
    cases hrel with
    | inl hbuffer => exact ⟨hr, hbuffer ▸ hreached.next hnext⟩

/-- Every block is released once in a rendering that includes nothing and can
close every list, and in no other one. -/
theorem blocks_freed_once_iff {env : σ} {input : InputStream τ}
    {data : Int → UInt8} {r : Rendered σ}
    (h : Returns (render fns cb env input data) r) :
    ∃ ledger, Returns (renderOwning fns cb env input data) (r, ledger) ∧
      (Settled ledger.trace ↔ ∀ buffer, Rendering fns cb env input data buffer →
        ¬ buffer.LosesName fns cb ∧ ¬ buffer.FreesTwice fns cb) := by
  obtain ⟨⟨r, ledger⟩, howning, rfl⟩ :=
    (renderOwning_agrees env input data).back r h
  refine ⟨ledger, howning, ?_⟩
  obtain ⟨⟨more, start⟩, hnext, hrest⟩ := returns_bind.mp howning
  have hstart := (first_owes env input data).run
    (fun _ _ => narrows_closed.next) hnext
  obtain ⟨⟨more', start'⟩, hread, rfl, hbuffer⟩ :=
    (Owning.run_agrees _).forth _ hnext
  cases hbuffer
  cases more with
  | false => cases bufferNext_fails hread
  | true =>
  obtain ⟨⟨result, last⟩, hloop, hrest⟩ := returns_bind.mp hrest
  cases returns_pure.mp hrest
  constructor
  · intro hsettled buffer ⟨first, hfirst, hreach⟩
    cases hread.unique hfirst
    rw [← not_or]
    intro hspoils
    obtain ⟨t, hreached, rfl⟩ := Agree.reaches
      (R := fun (s : Owning σ ο τ) b => s.buffer = b)
      (fun s _ hs => hs ▸ renderStepOwning_agrees s) rfl hreach
    obtain ⟨lost, howes⟩ := hstart.reaches hreached
    have hspoiled := Owning.Spoiled.from howes hspoils
      (hreached.returns_iff.mp hloop)
    exact hspoiled.not_settled hsettled
  · intro hsound
    exact (hstart.loop ⟨start.buffer, hread, Reaches.refl _⟩ hsound
      hloop).settled

/-- A string is included, and the rendering succeeds. -/
theorem blocks_freed_once_partial :
    ∃ r ledger, r.code = 0 ∧
      Returns (renderOwning noStreams (answering stringAnswers) []
        (newInputStreamFromString (chars "{{>p}}.")) fun _ => 0) (r, ledger) ∧
      (Settled ledger.trace ↔ ∀ buffer,
        Rendering noStreams (answering stringAnswers) []
            (newInputStreamFromString (chars "{{>p}}.")) (fun _ => 0) buffer →
          ¬ buffer.LosesName noStreams (answering stringAnswers) ∧
            ¬ buffer.FreesTwice noStreams (answering stringAnswers)) := by
  have hrun : Returns (render noStreams (answering stringAnswers) []
      (newInputStreamFromString (chars "{{>p}}.")) fun _ => 0) _ := ⟨9, rfl⟩
  obtain ⟨ledger, howning, hiff⟩ := blocks_freed_once_iff hrun
  exact ⟨_, ledger, rfl, howning, hiff⟩

/-- Every name stands for an empty list that cannot be closed. -/
def openListAnswers : Answers Empty :=
  fun _ _ => .list (some fun _ => false) (some false)

/-- The name of a partial is never released, and that of a list that cannot be
closed is released twice. -/
theorem blocks_not_freed_once :
    (∃ r ledger, Returns (renderOwning noStreams (answering stringAnswers) []
        (newInputStreamFromString (chars "{{>p}}.")) fun _ => 0) (r, ledger) ∧
      r.code = 0 ∧ ∃ block, .handed block ∈ ledger.trace ∧
        ledger.trace.count (.released block) = 0) ∧
    ∃ r ledger, Returns (renderOwning noStreams (answering openListAnswers) []
        (newInputStreamFromString (chars "{{#l}}{{/l}}")) fun _ => 0)
        (r, ledger) ∧
      r.code = -1 ∧ ∃ block, .handed block ∈ ledger.trace ∧
        ledger.trace.count (.released block) = 2 :=
  ⟨⟨_, _, ⟨9, rfl⟩, rfl, 5, by decide, by decide⟩,
    ⟨_, _, ⟨9, rfl⟩, rfl, 5, by decide, by decide⟩⟩

end

end Libcad
