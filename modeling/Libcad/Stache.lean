/-
The template engine of `cad_stache.c`.

One record holds what the engine reads and writes: `struct buffer`, the two
delimiters of `struct cad_stache_impl`, the bytes written to the output stream
and the state behind the callback.  The two arrays are stacks, innermost first.
Blocks are their contents, `int`s do not overflow, and a write beyond a block
changes nothing else.
-/
import Libcad.Proc
import Libcad.Stream
import Mathlib.Logic.Function.Basic

namespace Libcad

/-- `cad_stache_lookup_type` with the object a lookup hands out. -/
inductive Lookup (ο : Type)
  | notFound
  | string (resolved : ο)
  | list (resolved : ο)
  | stream (resolved : ο)
  | invalid

/-- The resolve callback and the functions of the objects it hands out, over
the state `σ` behind them; `none` is a NULL function pointer. -/
structure Callback (σ ο τ : Type) where
  resolve : σ → Bytes → Lookup ο × σ
  stringGet : ο → Option (σ → Option Bytes × σ)
  stringFree : ο → Option (σ → Bool × σ)
  listGet : ο → Option (σ → Int → Bool × σ)
  listClose : ο → Option (σ → Bool × σ)
  streamGet : ο → Option (σ → Option (InputStream τ) × σ)
  streamFree : ο → Option (σ → Bool × σ)

/-- `enum loop_type` -/
inductive LoopType
  | loopElse
  | loopWhile
deriving Repr, DecidableEq

/-- `struct loop`; the lookup carries `resolved`. -/
structure StacheLoop (ο : Type) where
  type : LoopType
  name : Bytes
  lookup : Lookup ο
  bufferIndex : Int
  loopIndex : Int
  empty : Bool

/-- `struct partial` -/
structure StachePartial (ο τ : Type) where
  lookup : Lookup ο
  stream : InputStream τ
  save : UInt8

/-- A tag `parse_name` did not accept, with the buffer as it left it. -/
structure Rejection where
  suffix : Option Bytes
  index : Int
  fill : Int
  eof : Bool
deriving Repr, DecidableEq

/-- The state of a rendering.  `rejections` is not part of the program: it
records the tags that were not accepted. -/
structure Buffer (σ ο τ : Type) where
  env : σ
  input : InputStream τ
  data : Int → UInt8
  index : Int
  fill : Int
  capacity : Int
  eof : Bool
  partials : List (StachePartial ο τ)
  loops : List (StacheLoop ο)
  error : String
  openDelimiter : Bytes
  closeDelimiter : Bytes
  output : Bytes
  rejections : List Rejection

variable {σ ο τ : Type}

/-- Put another state behind the callback. -/
def Buffer.setEnv (buffer : Buffer σ ο τ) (env : σ) : Buffer σ ο τ :=
  { buffer with env := env }

def Buffer.call {β : Type} (buffer : Buffer σ ο τ)
    (f : Option (σ → β × σ)) : Proc (β × Buffer σ ο τ) :=
  match f with
  | none => Proc.undefined
  | some f =>
      let (result, env) := f buffer.env
      pure (result, buffer.setEnv env)

section Engine

variable (fns : StreamFns τ) (cb : Callback σ ο τ)

/-- `buffer->data[buffer->fill++] = c` -/
def Buffer.put (buffer : Buffer σ ο τ) (c : UInt8) : Buffer σ ο τ :=
  { buffer with
    data := Function.update buffer.data buffer.fill c, fill := buffer.fill + 1 }

/-- The part of `buffer_next` that reads the input. -/
def bufferRead (buffer : Buffer σ ο τ) : Buffer σ ο τ :=
  let c := buffer.input.item fns
  if c = eof then { buffer with eof := true }
  else
    let (code, input) := buffer.input.next fns
    { buffer.put (intToChar c) with input := input, eof := decide (code ≠ 0) }

/-- The part of `buffer_next` that reads the innermost partial. -/
def bufferReadPartial (part : StachePartial ο τ)
    (partials : List (StachePartial ο τ)) (buffer : Buffer σ ο τ) :
    Proc (Buffer σ ο τ) :=
  let c := part.stream.item fns
  if c = eof then
    match part.lookup with
    | .string resolved => do
        let (_, buffer) ← buffer.call (cb.stringFree resolved)
        pure ({ buffer with partials := partials }.put part.save)
    | .stream resolved => do
        let (_, buffer) ← buffer.call (cb.streamFree resolved)
        pure ({ buffer with partials := partials }.put part.save)
    | .notFound | .list _ =>
        pure ({ buffer with
          partials := partials, error := "BUG unexpected type" }.put
            (intToChar c))
    | .invalid => pure ({ buffer with partials := partials }.put (intToChar c))
  else
    let (code, stream) := part.stream.next fns
    pure { buffer.put (intToChar c) with
      partials := { part with stream := stream } :: partials,
      eof := decide (code ≠ 0) }

/-- The part of `buffer_next` that doubles a full buffer. -/
def Buffer.grow (buffer : Buffer σ ο τ) : Buffer σ ο τ :=
  if buffer.fill = buffer.capacity then
    { buffer with capacity := buffer.capacity * 2 }
  else buffer

/-- The part of `buffer_next` that reads one more byte. -/
def bufferFetch (buffer : Buffer σ ο τ) : Proc (Buffer σ ο τ) :=
  match buffer.partials with
  | [] => pure (bufferRead fns buffer)
  | part :: partials => bufferReadPartial fns cb part partials buffer

def bufferNext (buffer : Buffer σ ο τ) : Proc (Bool × Buffer σ ο τ) :=
  if buffer.eof then
    pure (false, { buffer with error := "Buffer end reached" })
  else
    let buffer := { buffer with index := buffer.index + 1 }
    if buffer.index = buffer.fill then do
      let buffer ← bufferFetch fns cb buffer.grow
      pure (true, buffer)
    else pure (true, buffer)

def bufferEof (buffer : Buffer σ ο τ) : Bool :=
  buffer.eof && decide (buffer.fill ≤ buffer.index)

def bufferItem (buffer : Buffer σ ο τ) : Proc UInt8 :=
  if 0 ≤ buffer.index ∧ buffer.index < buffer.capacity then
    pure (buffer.data buffer.index)
  else Proc.undefined

/-- The loop of `buffer_look_at`. -/
def bufferMatch : Bytes → Buffer σ ο τ → Proc (Bool × Buffer σ ο τ)
  | [], buffer => pure (true, buffer)
  | c :: expected, buffer => do
      let item ← bufferItem buffer
      if item = c then
        let (more, buffer) ← bufferNext fns cb buffer
        if more then bufferMatch expected buffer else pure (false, buffer)
      else pure (false, buffer)

def bufferLookAt (expected : Bytes) (buffer : Buffer σ ο τ) :
    Proc (Bool × Buffer σ ο τ) := do
  let (result, after) ← bufferMatch fns cb expected buffer
  if result then pure (true, after)
  else pure (false, { after with index := buffer.index })

/-- What `buffer_skip_output` asks about one loop. -/
def StacheLoop.skips (loop : StacheLoop ο) : Bool :=
  match loop.type with
  | .loopWhile => loop.empty
  | .loopElse => !loop.empty

def bufferSkipOutput (buffer : Buffer σ ο τ) : Bool :=
  buffer.loops.any StacheLoop.skips

/-- `buffer_output` of a text. -/
def bufferOutput (buffer : Buffer σ ο τ) (text : Bytes) : Buffer σ ο τ :=
  if bufferSkipOutput buffer then buffer
  else { buffer with output := buffer.output ++ text }

theorem bufferOutput_only (buffer : Buffer σ ο τ) (text : Bytes) :
    ∃ output, bufferOutput buffer text = { buffer with output := output } := by
  rw [bufferOutput]
  split
  next => exact ⟨buffer.output, rfl⟩
  next => exact ⟨_, rfl⟩

def isBlank (c : UInt8) : Bool := c = ascii ' ' || c = ascii '\n'

/-- The body of the loop of `buffer_skip_blanks`. -/
def skipBlanksStep (buffer : Buffer σ ο τ) :
    Proc (Buffer σ ο τ ⊕ Buffer σ ο τ) :=
  if bufferEof buffer then pure (.inr buffer)
  else do
    let c ← bufferItem buffer
    if isBlank c then
      let (again, buffer) ← bufferNext fns cb buffer
      pure (if again then .inl buffer else .inr buffer)
    else pure (.inr buffer)

def bufferSkipBlanks (buffer : Buffer σ ο τ) : Proc (Buffer σ ο τ) :=
  Proc.loop (skipBlanksStep fns cb) buffer

/-- The block a name is read into: the bytes before the terminating NUL and
the size last asked for. -/
structure NameBlock where
  bytes : Bytes
  capacity : Nat

def NameBlock.push (name : NameBlock) (c : UInt8) : NameBlock :=
  { bytes := name.bytes ++ [c],
    capacity :=
      if name.capacity = name.bytes.length then name.capacity * 2
      else name.capacity }

def NameBlock.string (name : NameBlock) : Bytes := cString name.bytes

/-- `suffix != NULL && buffer_look_at(buffer, suffix)` -/
def bufferLookAtSuffix (suffix : Option Bytes) (buffer : Buffer σ ο τ) :
    Proc (Bool × Buffer σ ο τ) :=
  match suffix with
  | none => pure (false, buffer)
  | some suffix => bufferLookAt fns cb suffix buffer

/-- The body of the loop of `parse_name`; a name is returned where it ends. -/
def parseNameStep (suffix : Option Bytes)
    (s : NameBlock × Buffer σ ο τ) :
    Proc ((NameBlock × Buffer σ ο τ) ⊕ (Option NameBlock × Buffer σ ο τ)) :=
  let (name, buffer) := s
  if bufferEof buffer then pure (.inr (none, buffer))
  else do
    let (suffixed, buffer) ← bufferLookAtSuffix fns cb suffix buffer
    if suffixed then
      let (closed, buffer) ← bufferLookAt fns cb buffer.closeDelimiter buffer
      pure (.inr (if closed then some name else none, buffer))
    else
      let (closed, buffer) ← bufferLookAt fns cb buffer.closeDelimiter buffer
      if closed then
        pure (.inr (if suffix = none then some name else none, buffer))
      else
        let c ← bufferItem buffer
        let (more, buffer) ← bufferNext fns cb buffer
        if more then pure (.inl (name.push c, buffer))
        else pure (.inr (none, buffer))

/-- The end of `parse_name` when there is no name. -/
def Buffer.reject (buffer : Buffer σ ο τ) (suffix : Option Bytes)
    (index : Int) : Buffer σ ο τ :=
  { buffer with
    error := "Unclosed or invalid 'stache",
    index := index,
    rejections := buffer.rejections ++
      [{ suffix := suffix, index := index, fill := buffer.fill,
         eof := buffer.eof }] }

def parseName (suffix : Option Bytes) (buffer : Buffer σ ο τ) :
    Proc (Option NameBlock × Buffer σ ο τ) := do
  let start ← bufferSkipBlanks fns cb buffer
  let (result, after) ← Proc.loop (parseNameStep fns cb suffix)
    ({ bytes := [], capacity := 16 }, start)
  match result with
  | some name => pure (some name, after)
  | none => pure (none, after.reject suffix buffer.index)

def Buffer.fail (buffer : Buffer σ ο τ) (error : String) :
    Bool × Buffer σ ο τ :=
  (false, { buffer with error := error })

def Buffer.resolve (buffer : Buffer σ ο τ) (name : Bytes) :
    Lookup ο × Buffer σ ο τ :=
  let (lookup, env) := cb.resolve buffer.env name
  (lookup, buffer.setEnv env)

/-- `resolved->string.free(resolved)` after a variable was written. -/
def freeString (resolved : ο) (buffer : Buffer σ ο τ) :
    Proc (Bool × Buffer σ ο τ) := do
  let (freed, buffer) ← buffer.call (cb.stringFree resolved)
  pure (if freed then (true, buffer)
    else buffer.fail "could not free string")

/-- The common body of `render_stache_raw` and `render_stache_escape`. -/
def renderVariable (suffix : Option Bytes) (invalidName : String)
    (write : Option Bytes → Buffer σ ο τ → Proc (Buffer σ ο τ))
    (buffer : Buffer σ ο τ) : Proc (Bool × Buffer σ ο τ) := do
  let (name, buffer) ← parseName fns cb suffix buffer
  match name with
  | none => pure (true, buffer)
  | some name =>
      if name.string = [] then pure (buffer.fail invalidName)
      else
        let (lookup, buffer) := buffer.resolve cb name.string
        match lookup with
        | .notFound => pure (true, buffer)
        | .string resolved => do
            let (c, buffer) ← buffer.call (cb.stringGet resolved)
            let buffer ← write c buffer
            freeString cb resolved buffer
        | .list _ => pure (buffer.fail "unexpected list")
        | .stream _ => pure (buffer.fail "unexpected partial")
        | .invalid => pure (buffer.fail "invalid type")

/-- `buffer_output(buffer, output, "%s", c)` -/
def writeRaw (c : Option Bytes) (buffer : Buffer σ ο τ) :
    Proc (Buffer σ ο τ) :=
  if bufferSkipOutput buffer then pure buffer
  else
    match c with
    | none => Proc.undefined
    | some c => pure (bufferOutput buffer (cString c))

/-- What `render_stache_escape` writes for one byte. -/
def escapeChar (c : UInt8) : Bytes :=
  if c = ascii '<' then "&lt;".toList.map ascii
  else if c = ascii '>' then "&gt;".toList.map ascii
  else if c = ascii '&' then "&amp;".toList.map ascii
  else if c = ascii '"' then "&quot;".toList.map ascii
  else if c = ascii '\'' then "&apos;".toList.map ascii
  else [c]

/-- The loop of `render_stache_escape` over the string. -/
def writeEscaped (c : Option Bytes) (buffer : Buffer σ ο τ) :
    Proc (Buffer σ ο τ) :=
  match c with
  | none => Proc.undefined
  | some c =>
      pure ((cString c).foldl
        (fun buffer c => bufferOutput buffer (escapeChar c)) buffer)

def renderStacheRaw (buffer : Buffer σ ο τ) : Proc (Bool × Buffer σ ο τ) :=
  renderVariable fns cb (some [ascii '}']) "invalid raw name" writeRaw buffer

def renderStacheEscape (buffer : Buffer σ ο τ) : Proc (Bool × Buffer σ ο τ) :=
  renderVariable fns cb none "invalid escape name" writeEscaped buffer

/-- A guarded call: a NULL function pointer answers `default`. -/
def Buffer.callOr {β : Type} (buffer : Buffer σ ο τ)
    (f : Option (σ → β × σ)) (default : β) : β × Buffer σ ο τ :=
  match f with
  | none => (default, buffer)
  | some f =>
      let (result, env) := f buffer.env
      (result, buffer.setEnv env)

/-- The case of `render_stache_loop` for a stream: what `empty` becomes, if
the stream can be read. -/
def streamEmpty (stream : Option (InputStream τ)) : Option Bool :=
  match stream with
  | none => some true
  | some s =>
      let (code, s) := s.next fns
      if code ≠ 0 then none else some (decide (s.item fns = eof))

/-- What reading the stream comes to: the result, and the value of `empty`. -/
def readSection (stream : Option (InputStream τ)) (buffer : Buffer σ ο τ) :
    Bool × Bool × Buffer σ ο τ :=
  match streamEmpty fns stream with
  | some empty => (true, empty, buffer)
  | none =>
      (false, false, { buffer with error := "error while reading partial" })

/-- The guarded release of what opened a section. -/
def releaseSection (free : Option (σ → Bool × σ)) (error : String)
    (opened : Bool × Bool × Buffer σ ο τ) : Bool × Bool × Buffer σ ο τ :=
  let (result, empty, buffer) := opened
  let (freed, buffer) := buffer.callOr free false
  if freed then (result, empty, buffer)
  else (false, empty, { buffer with error := error })

/-- The switch of `render_stache_loop`: the result, the value of `empty` and
the buffer after it. -/
def openLoop (lookup : Lookup ο) (buffer : Buffer σ ο τ) :
    Bool × Bool × Buffer σ ο τ :=
  match lookup with
  | .notFound => (true, true, buffer)
  | .string resolved =>
      let (c, buffer) := buffer.callOr (cb.stringGet resolved) none
      let empty : Bool := (c.map cString).getD [] = []
      releaseSection (cb.stringFree resolved) "could not free string"
        (true, empty, buffer)
  | .list resolved =>
      let get := (cb.listGet resolved).map fun get env => get env 0
      let (found, buffer) := buffer.callOr get false
      (true, !found, buffer)
  | .stream resolved =>
      let (s, buffer) := buffer.callOr (cb.streamGet resolved) none
      releaseSection (cb.streamFree resolved) "could not free partial"
        (readSection fns s buffer)
  | .invalid => (false, false, { buffer with error := "invalid type" })

def renderStacheLoop (type : LoopType) (buffer : Buffer σ ο τ) :
    Proc (Bool × Buffer σ ο τ) := do
  let (name, buffer) ← parseName fns cb none buffer
  match name with
  | none => pure (true, buffer)
  | some name =>
      let (lookup, buffer) := buffer.resolve cb name.string
      let (result, empty, buffer) := openLoop fns cb lookup buffer
      let loop : StacheLoop ο :=
        { type := type, name := name.string, lookup := lookup,
          bufferIndex := buffer.index, loopIndex := 0, empty := empty }
      pure (result, { buffer with loops := loop :: buffer.loops })

def renderStacheWhile (buffer : Buffer σ ο τ) : Proc (Bool × Buffer σ ο τ) :=
  renderStacheLoop fns cb .loopWhile buffer

def renderStacheElse (buffer : Buffer σ ο τ) : Proc (Bool × Buffer σ ο τ) :=
  renderStacheLoop fns cb .loopElse buffer

/-- `loop->loop_index++` -/
def StacheLoop.next (loop : StacheLoop ο) : StacheLoop ο :=
  { loop with loopIndex := loop.loopIndex + 1 }

/-- `loop->type == loop_else ? 0 : loop->resolved->list.get(..)` -/
def listNext (resolved : ο) (index : Int) (buffer : Buffer σ ο τ) :
    LoopType → Proc (Bool × Buffer σ ο τ)
  | .loopElse => pure (false, buffer)
  | .loopWhile =>
      buffer.call ((cb.listGet resolved).map fun get env => get env index)

/-- The end of a list section: the next item, or the close of the list. -/
def endList (resolved : ο) (loop : StacheLoop ο) (loops : List (StacheLoop ο))
    (buffer : Buffer σ ο τ) : Proc (Bool × Buffer σ ο τ) := do
  let loop := loop.next
  let buffer := { buffer with loops := loop :: loops }
  let (found, buffer) ← listNext cb resolved loop.loopIndex buffer loop.type
  if found then pure (true, { buffer with index := loop.bufferIndex })
  else
    let (closed, buffer) := buffer.callOr (cb.listClose resolved) false
    pure (if closed then (true, { buffer with loops := loops })
      else buffer.fail "could not close loop list")

def renderStacheEnd (buffer : Buffer σ ο τ) : Proc (Bool × Buffer σ ο τ) := do
  let (name, buffer) ← parseName fns cb none buffer
  match name with
  | none => pure (true, buffer)
  | some name =>
      match buffer.loops with
      | [] => pure (buffer.fail "closing non-open loop")
      | loop :: loops =>
          if name.string ≠ loop.name then
            pure (buffer.fail
              "closing loop name different from opening loop name")
          else
            match loop.lookup with
            | .notFound | .string _ | .stream _ =>
                pure (true, { buffer with loops := loops })
            | .list resolved => endList cb resolved loop loops buffer
            | .invalid => pure (true, buffer)

/-- The two delimiters in the text of a delimiter tag.  Without a blank the
scan runs over the end of the text. -/
def scanDelimiters (text : Bytes) : Proc (Except String (Bytes × Bytes)) :=
  if text.any isBlank then
    let first := cString (text.takeWhile fun c => !isBlank c)
    let rest := (text.dropWhile fun c => !isBlank c).drop 1
    let second := cString (rest.dropWhile isBlank)
    if second = [] then
      pure (.error "invalid delimiter change: close delimiter not found")
    else if second.any isBlank then
      pure (.error
        "invalid delimiter change: no space allowed in close delimiter")
    else if 1 < second.length ∧ second.getLast? = some (ascii '=') then
      pure (.ok (first, second.dropLast))
    else
      pure (.error "invalid delimiter change: missing closing equal sign")
  else Proc.undefined

def renderStacheDelimiters (buffer : Buffer σ ο τ) :
    Proc (Bool × Buffer σ ο τ) := do
  let (delimiters, buffer) ← parseName fns cb (some [ascii '=']) buffer
  match delimiters with
  | none => pure (false, buffer)
  | some delimiters =>
      let scanned ← scanDelimiters delimiters.bytes
      match scanned with
      | .ok (first, second) =>
          pure (true, { buffer with
            openDelimiter := first, closeDelimiter := second })
      | .error error => pure (buffer.fail error)

/-- The body of the loop of `render_stache_comment`. -/
def commentStep (buffer : Buffer σ ο τ) :
    Proc (Buffer σ ο τ ⊕ (Bool × Buffer σ ο τ)) := do
  let (closed, buffer) ← bufferLookAt fns cb buffer.closeDelimiter buffer
  if closed then pure (.inr (true, buffer))
  else
    let (more, buffer) ← bufferNext fns cb buffer
    if more then pure (.inl buffer) else pure (.inr (false, buffer))

def renderStacheComment (buffer : Buffer σ ο τ) :
    Proc (Bool × Buffer σ ο τ) :=
  Proc.loop (commentStep fns cb) buffer

/-- The switch of `render_stache_partial`: the result and the stream found. -/
def openPartial (lookup : Lookup ο) (buffer : Buffer σ ο τ) :
    Proc (Bool × Option (InputStream τ) × Buffer σ ο τ) :=
  match lookup with
  | .notFound | .invalid => pure (true, none, buffer)
  | .string resolved => do
      let (c, buffer) ← buffer.call (cb.stringGet resolved)
      match c with
      | some c => pure (true, some (newInputStreamFromString c), buffer)
      | none => do
          let (_, buffer) ← buffer.call (cb.stringFree resolved)
          pure (true, none, buffer)
  | .list resolved => do
      let (_, buffer) ← { buffer with
        error := "unexpected list for partial" }.call (cb.listClose resolved)
      pure (false, none, buffer)
  | .stream resolved => do
      let (s, buffer) ← buffer.call (cb.streamGet resolved)
      match s with
      | some s => pure (true, some s, buffer)
      | none => do
          let (_, buffer) ← buffer.call (cb.streamFree resolved)
          pure (true, none, buffer)

/-- Stack the partial; its `save` is the byte read after the tag. -/
def pushPartial (lookup : Lookup ο) (stream : Option (InputStream τ))
    (buffer : Buffer σ ο τ) : Proc (Buffer σ ο τ) :=
  match stream with
  | none => pure buffer
  | some stream => do
      let save ← bufferItem buffer
      pure { buffer with
        partials := ⟨lookup, stream, save⟩ :: buffer.partials }

def renderStachePartial (startIndex : Int) (buffer : Buffer σ ο τ) :
    Proc (Bool × Buffer σ ο τ) := do
  let (name, buffer) ← parseName fns cb none buffer
  match name with
  | none => pure (true, buffer)
  | some name =>
      let (lookup, buffer) := buffer.resolve cb name.string
      let (result, stream, buffer) ← openPartial cb lookup buffer
      let buffer ← pushPartial lookup stream buffer
      -- The tag, with all that was read after it, leaves the buffer.
      let buffer :=
        { buffer with index := startIndex - 1, fill := startIndex }
      let (more, buffer) ← bufferNext fns cb buffer
      pure (if more then (result, buffer)
        else buffer.fail "BUG: no next at partial start")

/-- The switch of `render_stache` on the byte after the opening delimiter. -/
def renderTag (startIndex : Int) (next : UInt8) (buffer : Buffer σ ο τ) :
    Proc (Bool × Buffer σ ο τ) :=
  if next = ascii '{' then renderStacheRaw fns cb buffer
  else if next = ascii '#' then renderStacheWhile fns cb buffer
  else if next = ascii '/' then renderStacheEnd fns cb buffer
  else if next = ascii '^' then renderStacheElse fns cb buffer
  else if next = ascii '=' then renderStacheDelimiters fns cb buffer
  else if next = ascii '!' then renderStacheComment fns cb buffer
  else if next = ascii '>' then renderStachePartial fns cb startIndex buffer
  else renderStacheEscape fns cb { buffer with index := buffer.index - 1 }

def renderStache (startIndex : Int) (buffer : Buffer σ ο τ) :
    Proc (Bool × Buffer σ ο τ) :=
  if bufferEof buffer then
    pure (buffer.fail "Invalid 'stache: nothing found after 'stache opening")
  else do
    let next ← bufferItem buffer
    let (more, buffer) ← bufferNext fns cb buffer
    if more then renderTag fns cb startIndex next buffer
    else
      pure (buffer.fail
        "Invalid 'stache: nothing found after 'stache opening")

/-- The body of the loop of `render_template`. -/
def renderStep (buffer : Buffer σ ο τ) :
    Proc (Buffer σ ο τ ⊕ (Bool × Buffer σ ο τ)) :=
  if bufferEof buffer then pure (.inr (true, buffer))
  else do
    let index := buffer.index
    let (opened, buffer) ← bufferLookAt fns cb buffer.openDelimiter buffer
    let (result, buffer) ← (
      if opened then renderStache fns cb index buffer
      else do
        let c ← bufferItem buffer
        bufferNext fns cb (bufferOutput buffer [c]) :
      Proc (Bool × Buffer σ ο τ))
    pure (if result then .inl buffer else .inr (false, buffer))

def renderTemplate (buffer : Buffer σ ο τ) : Proc (Bool × Buffer σ ο τ) :=
  Proc.loop (renderStep fns cb) buffer

/-- What `render` leaves behind: its code, what was written, the call of
`on_error` and the state behind the callback. -/
structure Rendered (σ : Type) where
  code : Int
  output : Bytes
  onError : Option (String × Int)
  env : σ
  rejections : List Rejection

/-- The result of `render` once the template has been gone through. -/
def Buffer.rendered (result : Bool) (buffer : Buffer σ ο τ) : Rendered σ :=
  let report : Option (String × Int) :=
    if result then
      if buffer.loops = [] then none
      else some ("Unfinished loops", buffer.index)
    else some (buffer.error, buffer.index)
  { code := if report.isNone then 0 else -1, output := buffer.output,
    onError := report, env := buffer.env, rejections := buffer.rejections }

/-- The buffer `render` starts with; `data` is what the allocator left there. -/
def newBuffer (env : σ) (input : InputStream τ) (data : Int → UInt8) :
    Buffer σ ο τ where
  env := env
  input := input
  data := data
  index := -1
  fill := 0
  capacity := 4096
  eof := false
  partials := []
  loops := []
  error := ""
  openDelimiter := [ascii '{', ascii '{']
  closeDelimiter := [ascii '}', ascii '}']
  output := []
  rejections := []

def render (env : σ) (input : InputStream τ) (data : Int → UInt8) :
    Proc (Rendered σ) := do
  let (more, buffer) ← bufferNext fns cb (newBuffer env input data)
  if more then
    let (result, buffer) ← renderTemplate fns cb buffer
    pure (buffer.rendered result)
  else
    pure { (buffer.rendered false) with onError := some ("Empty buffer", 0) }

end Engine

end Libcad
