/-
The accesses to the block of the text.  An engine that checks each of them
before it makes it finds none outside the block, whatever the template, the
input and the callback.
-/
import Libcad.Checked
import Libcad.StacheMemory
import Libcad.StacheSections

namespace Libcad

open Proc

variable {σ ο τ : Type}

/-- An access to `buffer->data`, and the size of the block at that time. -/
structure DataAccess where
  index : Int
  capacity : Int
deriving Repr, DecidableEq

section Engine

variable (fns : StreamFns τ) (cb : Callback σ ο τ)

/-- An access outside the block is a fault. -/
def Buffer.touch (buffer : Buffer σ ο τ) (index : Int) :
    Checked DataAccess Unit :=
  Checked.guard (0 ≤ index ∧ index < buffer.capacity) ⟨index, buffer.capacity⟩

/-- `buffer_item` -/
def bufferItemChecked (buffer : Buffer σ ο τ) : Checked DataAccess UInt8 := do
  buffer.touch buffer.index
  pure (buffer.data buffer.index)

/-- `buffer->data[buffer->fill++] = c` -/
def Buffer.putChecked (buffer : Buffer σ ο τ) (c : UInt8) :
    Checked DataAccess (Buffer σ ο τ) := do
  buffer.touch buffer.fill
  pure (buffer.put c)

/-- The part of `buffer_next` that reads the input. -/
def bufferReadChecked (buffer : Buffer σ ο τ) :
    Checked DataAccess (Buffer σ ο τ) :=
  let c := buffer.input.item fns
  if c = eof then pure { buffer with eof := true }
  else do
    let (code, input) := buffer.input.next fns
    let buffer ← buffer.putChecked (intToChar c)
    pure { buffer with input := input, eof := decide (code ≠ 0) }

/-- The part of `buffer_next` that reads the innermost partial. -/
def bufferReadPartialChecked (part : StachePartial ο τ)
    (partials : List (StachePartial ο τ)) (buffer : Buffer σ ο τ) :
    Checked DataAccess (Buffer σ ο τ) :=
  let c := part.stream.item fns
  if c = eof then
    match part.lookup with
    | .string resolved => do
        let (_, buffer) ← buffer.call (cb.stringFree resolved)
        { buffer with partials := partials }.putChecked part.save
    | .stream resolved => do
        let (_, buffer) ← buffer.call (cb.streamFree resolved)
        { buffer with partials := partials }.putChecked part.save
    | .notFound | .list _ =>
        { buffer with
          partials := partials, error := "BUG unexpected type" }.putChecked
            (intToChar c)
    | .invalid => { buffer with partials := partials }.putChecked (intToChar c)
  else do
    let (code, stream) := part.stream.next fns
    let buffer ← buffer.putChecked (intToChar c)
    pure { buffer with
      partials := { part with stream := stream } :: partials,
      eof := decide (code ≠ 0) }

/-- The part of `buffer_next` that reads one more byte. -/
def bufferFetchChecked (buffer : Buffer σ ο τ) :
    Checked DataAccess (Buffer σ ο τ) :=
  match buffer.partials with
  | [] => bufferReadChecked fns buffer
  | part :: partials => bufferReadPartialChecked fns cb part partials buffer

/-- `buffer_next` -/
def bufferNextChecked (buffer : Buffer σ ο τ) :
    Checked DataAccess (Bool × Buffer σ ο τ) :=
  if buffer.eof then
    pure (false, { buffer with error := "Buffer end reached" })
  else
    let buffer := { buffer with index := buffer.index + 1 }
    if buffer.index = buffer.fill then do
      let buffer ← bufferFetchChecked fns cb buffer.grow
      pure (true, buffer)
    else pure (true, buffer)

/-- The loop of `buffer_look_at`. -/
def bufferMatchChecked :
    Bytes → Buffer σ ο τ → Checked DataAccess (Bool × Buffer σ ο τ)
  | [], buffer => pure (true, buffer)
  | c :: expected, buffer => do
      let item ← bufferItemChecked buffer
      if item = c then
        let (more, buffer) ← bufferNextChecked fns cb buffer
        if more then bufferMatchChecked expected buffer
        else pure (false, buffer)
      else pure (false, buffer)

/-- `buffer_look_at` -/
def bufferLookAtChecked (expected : Bytes) (buffer : Buffer σ ο τ) :
    Checked DataAccess (Bool × Buffer σ ο τ) := do
  let (result, after) ← bufferMatchChecked fns cb expected buffer
  if result then pure (true, after)
  else pure (false, { after with index := buffer.index })

/-- The body of the loop of `buffer_skip_blanks`. -/
def skipBlanksStepChecked (buffer : Buffer σ ο τ) :
    Checked DataAccess (Buffer σ ο τ ⊕ Buffer σ ο τ) :=
  if bufferEof buffer then pure (.inr buffer)
  else do
    let c ← bufferItemChecked buffer
    if isBlank c then
      let (again, buffer) ← bufferNextChecked fns cb buffer
      pure (if again then .inl buffer else .inr buffer)
    else pure (.inr buffer)

/-- `suffix != NULL && buffer_look_at(buffer, suffix)` -/
def bufferLookAtSuffixChecked (suffix : Option Bytes)
    (buffer : Buffer σ ο τ) : Checked DataAccess (Bool × Buffer σ ο τ) :=
  match suffix with
  | none => pure (false, buffer)
  | some suffix => bufferLookAtChecked fns cb suffix buffer

/-- The body of the loop of `parse_name`. -/
def parseNameStepChecked (suffix : Option Bytes)
    (s : NameBlock × Buffer σ ο τ) :
    Checked DataAccess
      ((NameBlock × Buffer σ ο τ) ⊕ (Option NameBlock × Buffer σ ο τ)) :=
  let (name, buffer) := s
  if bufferEof buffer then pure (.inr (none, buffer))
  else do
    let (suffixed, buffer) ← bufferLookAtSuffixChecked fns cb suffix buffer
    if suffixed then
      let (closed, buffer) ←
        bufferLookAtChecked fns cb buffer.closeDelimiter buffer
      pure (.inr (if closed then some name else none, buffer))
    else
      let (closed, buffer) ←
        bufferLookAtChecked fns cb buffer.closeDelimiter buffer
      if closed then
        pure (.inr (if suffix = none then some name else none, buffer))
      else
        let c ← bufferItemChecked buffer
        let (more, buffer) ← bufferNextChecked fns cb buffer
        if more then pure (.inl (name.push c, buffer))
        else pure (.inr (none, buffer))

/-- `parse_name` -/
def parseNameChecked (suffix : Option Bytes) (buffer : Buffer σ ο τ) :
    Checked DataAccess (Option NameBlock × Buffer σ ο τ) := do
  let start ← Checked.loop (skipBlanksStepChecked fns cb) buffer
  let (result, after) ← Checked.loop (parseNameStepChecked fns cb suffix)
    ({ bytes := [], capacity := 16 }, start)
  match result with
  | some name => pure (some name, after)
  | none => pure (none, after.reject suffix buffer.index)

/-- A function that begins with `parse_name`; `named` is what it does with a
name, and makes no access to the text. -/
def withNameChecked (suffix : Option Bytes) (unnamed : Bool)
    (named : NameBlock → Buffer σ ο τ → Proc (Bool × Buffer σ ο τ))
    (buffer : Buffer σ ο τ) : Checked DataAccess (Bool × Buffer σ ο τ) := do
  let (name, buffer) ← parseNameChecked fns cb suffix buffer
  match name with
  | none => pure (unnamed, buffer)
  | some name => named name buffer

/-- `render_stache_raw` or `render_stache_escape` -/
def renderVariableChecked (suffix : Option Bytes) (invalidName : String)
    (write : Option Bytes → Buffer σ ο τ → Proc (Buffer σ ο τ)) :
    Buffer σ ο τ → Checked DataAccess (Bool × Buffer σ ο τ) :=
  withNameChecked fns cb suffix true (variableNamed cb invalidName write)

/-- `render_stache_loop` -/
def renderStacheLoopChecked (type : LoopType) :
    Buffer σ ο τ → Checked DataAccess (Bool × Buffer σ ο τ) :=
  withNameChecked fns cb none true
    fun name buffer => pure (loopNamed fns cb type name buffer)

/-- What `render_stache_end` does with the name. -/
def endNamed (name : NameBlock) (buffer : Buffer σ ο τ) :
    Proc (Bool × Buffer σ ο τ) :=
  match buffer.loops with
  | [] => pure (buffer.fail "closing non-open loop")
  | loop :: loops =>
      if name.string ≠ loop.name then
        pure (buffer.fail
          "closing loop name different from opening loop name")
      else
        match loop.lookup with
        | .notFound | .string _ | .stream _ =>
            pure (true, { buffer with loops := loops })
        | .list resolved => endList cb resolved loop loops buffer
        | .invalid => pure (true, buffer)

/-- `render_stache_end` -/
def renderStacheEndChecked :
    Buffer σ ο τ → Checked DataAccess (Bool × Buffer σ ο τ) :=
  withNameChecked fns cb none true (endNamed cb)

/-- What `render_stache_delimiters` does with the text of the tag. -/
def delimitersNamed (delimiters : NameBlock) (buffer : Buffer σ ο τ) :
    Proc (Bool × Buffer σ ο τ) := do
  let scanned ← scanDelimiters delimiters.bytes
  match scanned with
  | .ok (first, second) =>
      pure (true, { buffer with
        openDelimiter := first, closeDelimiter := second })
  | .error error => pure (buffer.fail error)

/-- `render_stache_delimiters` -/
def renderStacheDelimitersChecked :
    Buffer σ ο τ → Checked DataAccess (Bool × Buffer σ ο τ) :=
  withNameChecked fns cb (some [ascii '=']) false delimitersNamed

/-- The body of the loop of `render_stache_comment`. -/
def commentStepChecked (buffer : Buffer σ ο τ) :
    Checked DataAccess (Buffer σ ο τ ⊕ (Bool × Buffer σ ο τ)) := do
  let (closed, buffer) ←
    bufferLookAtChecked fns cb buffer.closeDelimiter buffer
  if closed then pure (.inr (true, buffer))
  else
    let (more, buffer) ← bufferNextChecked fns cb buffer
    if more then pure (.inl buffer) else pure (.inr (false, buffer))

/-- Stack the partial; its `save` is the byte read after the tag. -/
def pushPartialChecked (lookup : Lookup ο) (stream : Option (InputStream τ))
    (buffer : Buffer σ ο τ) : Checked DataAccess (Buffer σ ο τ) :=
  match stream with
  | none => pure buffer
  | some stream => do
      let save ← bufferItemChecked buffer
      pure { buffer with
        partials := ⟨lookup, stream, save⟩ :: buffer.partials }

/-- `render_stache_partial` -/
def renderStachePartialChecked (startIndex : Int) (buffer : Buffer σ ο τ) :
    Checked DataAccess (Bool × Buffer σ ο τ) := do
  let (name, buffer) ← parseNameChecked fns cb none buffer
  match name with
  | none => pure (true, buffer)
  | some name =>
      let (lookup, buffer) := buffer.resolve cb name.string
      let (result, stream, buffer) ← openPartial cb lookup buffer
      let buffer ← pushPartialChecked lookup stream buffer
      let buffer :=
        { buffer with index := startIndex - 1, fill := startIndex }
      let (more, buffer) ← bufferNextChecked fns cb buffer
      pure (if more then (result, buffer)
        else buffer.fail "BUG: no next at partial start")

/-- The switch of `render_stache`. -/
def renderTagChecked (startIndex : Int) (next : UInt8)
    (buffer : Buffer σ ο τ) : Checked DataAccess (Bool × Buffer σ ο τ) :=
  if next = ascii '{' then
    renderVariableChecked fns cb (some [ascii '}']) "invalid raw name" writeRaw
      buffer
  else if next = ascii '#' then renderStacheLoopChecked fns cb .loopWhile buffer
  else if next = ascii '/' then renderStacheEndChecked fns cb buffer
  else if next = ascii '^' then renderStacheLoopChecked fns cb .loopElse buffer
  else if next = ascii '=' then renderStacheDelimitersChecked fns cb buffer
  else if next = ascii '!' then
    Checked.loop (commentStepChecked fns cb) buffer
  else if next = ascii '>' then
    renderStachePartialChecked fns cb startIndex buffer
  else
    renderVariableChecked fns cb none "invalid escape name" writeEscaped
      { buffer with index := buffer.index - 1 }

/-- `render_stache` -/
def renderStacheChecked (startIndex : Int) (buffer : Buffer σ ο τ) :
    Checked DataAccess (Bool × Buffer σ ο τ) :=
  if bufferEof buffer then
    pure (buffer.fail "Invalid 'stache: nothing found after 'stache opening")
  else do
    let next ← bufferItemChecked buffer
    let (more, buffer) ← bufferNextChecked fns cb buffer
    if more then renderTagChecked fns cb startIndex next buffer
    else
      pure (buffer.fail
        "Invalid 'stache: nothing found after 'stache opening")

/-- The body of the loop of `render_template`. -/
def renderStepChecked (buffer : Buffer σ ο τ) :
    Checked DataAccess (Buffer σ ο τ ⊕ (Bool × Buffer σ ο τ)) :=
  if bufferEof buffer then pure (.inr (true, buffer))
  else do
    let index := buffer.index
    let (opened, buffer) ←
      bufferLookAtChecked fns cb buffer.openDelimiter buffer
    let (result, buffer) ← (
      if opened then renderStacheChecked fns cb index buffer
      else do
        let c ← bufferItemChecked buffer
        bufferNextChecked fns cb (bufferOutput buffer [c]) :
      Checked DataAccess (Bool × Buffer σ ο τ))
    pure (if result then .inl buffer else .inr (false, buffer))

/-- `render` -/
def renderChecked (env : σ) (input : InputStream τ) (data : Int → UInt8) :
    Checked DataAccess (Rendered σ) := do
  let (more, buffer) ← bufferNextChecked fns cb (newBuffer env input data)
  if more then
    let (result, buffer) ← Checked.loop (renderStepChecked fns cb) buffer
    pure (buffer.rendered result)
  else
    pure { (buffer.rendered false) with onError := some ("Empty buffer", 0) }

end Engine

section

variable {fns : StreamFns τ} {cb : Callback σ ο τ}
  {buffer after : Buffer σ ο τ}

theorem HasRoom.item_clean (h : HasRoom buffer) :
    Checked.Clean (bufferItemChecked buffer) (bufferItem buffer) := by
  have hinside : 0 ≤ buffer.index ∧ buffer.index < buffer.capacity :=
    ⟨h.index_nonneg, h.index_lt⟩
  rw [bufferItem, if_pos hinside]
  exact Checked.Clean.guard hinside (Checked.Clean.pure _)

/-- A byte goes into the block where there is a place for it. -/
theorem putChecked_eq (hnonneg : 0 ≤ buffer.fill)
    (hlt : buffer.fill < buffer.capacity) (c : UInt8) :
    buffer.putChecked c = pure (buffer.put c) := by
  rw [Buffer.putChecked, Buffer.touch, Checked.guard, if_pos ⟨hnonneg, hlt⟩]
  rfl

theorem put_clean (hnonneg : 0 ≤ buffer.fill)
    (hlt : buffer.fill < buffer.capacity) (c : UInt8) :
    Checked.Clean (buffer.putChecked c) (pure (buffer.put c)) := by
  rw [putChecked_eq hnonneg hlt]
  exact Checked.Clean.pure _

theorem bufferRead_clean (hnonneg : 0 ≤ buffer.fill)
    (hlt : buffer.fill < buffer.capacity) :
    Checked.Clean (bufferReadChecked fns buffer)
      (pure (bufferRead fns buffer)) := by
  rw [bufferReadChecked, bufferRead]
  dsimp only
  split
  next => exact Checked.Clean.pure _
  next =>
    rw [putChecked_eq hnonneg hlt]
    exact Checked.Clean.pure _

theorem bufferReadPartial_clean {part : StachePartial ο τ}
    {partials : List (StachePartial ο τ)} (hnonneg : 0 ≤ buffer.fill)
    (hlt : buffer.fill < buffer.capacity) :
    Checked.Clean (bufferReadPartialChecked fns cb part partials buffer)
      (bufferReadPartial fns cb part partials buffer) := by
  obtain ⟨lookup, stream, save⟩ := part
  rw [bufferReadPartialChecked, bufferReadPartial]
  dsimp only
  split
  next =>
    cases lookup with
    | string resolved | stream resolved =>
        refine (Checked.Clean.lift _).bind ?_
        rintro ⟨freed, called⟩ hcall
        obtain ⟨free, -, -, rfl⟩ := call_returns_some hcall
        refine put_clean ?_ ?_ save
        · exact hnonneg
        · exact hlt
    | notFound | list resolved | invalid =>
        refine put_clean ?_ ?_ _
        · exact hnonneg
        · exact hlt
  next =>
    rw [putChecked_eq hnonneg hlt]
    exact Checked.Clean.pure _

theorem bufferFetch_clean (hnonneg : 0 ≤ buffer.fill)
    (hlt : buffer.fill < buffer.capacity) :
    Checked.Clean (bufferFetchChecked fns cb buffer)
      (bufferFetch fns cb buffer) := by
  rw [bufferFetchChecked, bufferFetch]
  cases buffer.partials with
  | nil => exact bufferRead_clean hnonneg hlt
  | cons part partials => exact bufferReadPartial_clean hnonneg hlt

/-- A byte that is fetched goes into the block, which is doubled before. -/
theorem bufferNext_clean (hpos : 0 < buffer.capacity)
    (hnonneg : 0 ≤ buffer.index + 1) (hfill : buffer.fill ≤ buffer.capacity) :
    Checked.Clean (bufferNextChecked fns cb buffer) (bufferNext fns cb buffer) := by
  rw [bufferNextChecked, bufferNext]
  split
  next => exact Checked.Clean.pure _
  next =>
    dsimp only
    split
    next hlast =>
      obtain ⟨capacity, hgrow, hroom⟩ := @Buffer.grow_eq σ ο τ
        { buffer with index := buffer.index + 1 } hfill hpos
      refine Checked.Clean.bind ?_ fun fetched _ => Checked.Clean.pure _
      have hstart : 0 ≤ buffer.fill := hlast ▸ hnonneg
      have hend : buffer.fill < capacity := by
        dsimp only at hroom
        omega
      rw [hgrow]
      refine bufferFetch_clean ?_ ?_
      · exact hstart
      · exact hend
    next => exact Checked.Clean.pure _

theorem HasRoom.next_clean (h : HasRoom buffer) :
    Checked.Clean (bufferNextChecked fns cb buffer) (bufferNext fns cb buffer) := by
  have hnonneg := h.index_nonneg
  have hlt := h.index_lt
  exact bufferNext_clean (by omega) (by omega) h.fill_le

theorem HasRoom.match_clean {expected : Bytes} :
    ∀ {buffer : Buffer σ ο τ}, HasRoom buffer →
      Checked.Clean (bufferMatchChecked fns cb expected buffer)
        (bufferMatch fns cb expected buffer) := by
  induction expected with
  | nil => exact fun _ => Checked.Clean.pure _
  | cons c expected ih =>
      intro buffer h
      refine h.item_clean.bind fun item _ => ?_
      split
      next =>
        refine h.next_clean.bind ?_
        rintro ⟨more, next⟩ hnext
        cases more with
        | true => exact ih (h.next hnext).1
        | false => exact Checked.Clean.pure _
      next => exact Checked.Clean.pure _

theorem HasRoom.lookAt_clean (h : HasRoom buffer) (expected : Bytes) :
    Checked.Clean (bufferLookAtChecked fns cb expected buffer)
      (bufferLookAt fns cb expected buffer) := by
  refine h.match_clean.bind ?_
  rintro ⟨result, read⟩ -
  cases result <;> exact Checked.Clean.pure _

theorem HasRoom.lookAtSuffix_clean (h : HasRoom buffer)
    (suffix : Option Bytes) :
    Checked.Clean (bufferLookAtSuffixChecked fns cb suffix buffer)
      (bufferLookAtSuffix fns cb suffix buffer) := by
  cases suffix with
  | none => exact Checked.Clean.pure _
  | some suffix => exact h.lookAt_clean suffix

theorem HasRoom.skipBlanksStep_clean (h : HasRoom buffer) :
    Checked.Clean (skipBlanksStepChecked fns cb buffer)
      (skipBlanksStep fns cb buffer) := by
  rw [skipBlanksStepChecked, skipBlanksStep]
  split
  next => exact Checked.Clean.pure _
  next =>
    refine h.item_clean.bind fun c _ => ?_
    split
    next => exact h.next_clean.bind fun r _ => Checked.Clean.pure _
    next => exact Checked.Clean.pure _

theorem HasRoom.skipBlanks_clean (h : HasRoom buffer) :
    Checked.Clean (Checked.loop (skipBlanksStepChecked fns cb) buffer)
      (bufferSkipBlanks fns cb buffer) := by
  refine Checked.Clean.loop (I := HasRoom) (fun b hb => hb.skipBlanksStep_clean) ?_ h
  intro b b' hb hstep
  rw [skipBlanksStep] at hstep
  split at hstep
  next => cases returns_pure.mp hstep
  next =>
    obtain ⟨c, -, hstep⟩ := returns_bind.mp hstep
    split at hstep
    next =>
      obtain ⟨⟨again, next⟩, hnext, hstep⟩ := returns_bind.mp hstep
      cases again with
      | true =>
          cases returns_pure.mp hstep
          exact (hb.next hnext).1
      | false => cases returns_pure.mp hstep
    next => cases returns_pure.mp hstep

theorem HasRoom.parseNameStep_clean {suffix : Option Bytes}
    {name : NameBlock} (h : HasRoom buffer) :
    Checked.Clean (parseNameStepChecked fns cb suffix (name, buffer))
      (parseNameStep fns cb suffix (name, buffer)) := by
  rw [parseNameStepChecked, parseNameStep]
  dsimp only
  split
  next => exact Checked.Clean.pure _
  next =>
    refine (h.lookAtSuffix_clean suffix).bind ?_
    rintro ⟨suffixed, b₁⟩ hsuffix
    have h₁ := (hasRoom_closed.lookAtSuffix hsuffix h).1
    cases suffixed with
    | true => exact (h₁.lookAt_clean _).bind fun r _ => Checked.Clean.pure _
    | false =>
        refine (h₁.lookAt_clean _).bind ?_
        rintro ⟨closed, b₂⟩ hclose
        have h₂ := (hasRoom_closed.lookAt hclose h₁).1
        cases closed with
        | true => exact Checked.Clean.pure _
        | false =>
            refine h₂.item_clean.bind fun c _ => h₂.next_clean.bind ?_
            rintro ⟨more, b₃⟩ -
            cases more <;> exact Checked.Clean.pure _

theorem HasRoom.parseName_clean (h : HasRoom buffer)
    (suffix : Option Bytes) :
    Checked.Clean (parseNameChecked fns cb suffix buffer)
      (parseName fns cb suffix buffer) := by
  refine h.skipBlanks_clean.bind fun start hskip => ?_
  have hstart := (hasRoom_closed.skipBlanks hskip h).1
  have hloop : Checked.Clean (Checked.loop (parseNameStepChecked fns cb suffix)
      ({ bytes := [], capacity := 16 }, start))
      (Proc.loop (parseNameStep fns cb suffix)
        ({ bytes := [], capacity := 16 }, start)) :=
    Checked.Clean.loop (I := fun s => HasRoom s.2)
      (fun s hs => hs.parseNameStep_clean)
      (fun s s' hs hstep => (hasRoom_closed.parseNameStep hstep hs).1) hstart
  refine hloop.bind ?_
  rintro ⟨result, read⟩ -
  cases result <;> exact Checked.Clean.pure _

theorem HasRoom.comment_clean (h : HasRoom buffer) :
    Checked.Clean (Checked.loop (commentStepChecked fns cb) buffer)
      (renderStacheComment fns cb buffer) := by
  refine Checked.Clean.loop (I := HasRoom) ?_ ?_ h
  · intro b hb
    refine (hb.lookAt_clean _).bind ?_
    rintro ⟨closed, b₁⟩ hclose
    have hb₁ := (hasRoom_closed.lookAt hclose hb).1
    cases closed with
    | true => exact Checked.Clean.pure _
    | false =>
        refine hb₁.next_clean.bind ?_
        rintro ⟨more, b₂⟩ -
        cases more <;> exact Checked.Clean.pure _
  · intro b b' hb hstep
    obtain ⟨⟨closed, b₁⟩, hclose, hstep⟩ := returns_bind.mp hstep
    have hb₁ := (hasRoom_closed.lookAt hclose hb).1
    cases closed with
    | true => cases returns_pure.mp hstep
    | false =>
        obtain ⟨⟨more, b₂⟩, hnext, hstep⟩ := returns_bind.mp hstep
        cases more with
        | true =>
            cases returns_pure.mp hstep
            exact (hb₁.next hnext).1
        | false => cases returns_pure.mp hstep

theorem HasRoom.withName_clean (h : HasRoom buffer) {suffix : Option Bytes}
    {unnamed : Bool}
    {named : NameBlock → Buffer σ ο τ → Proc (Bool × Buffer σ ο τ)}
    {rest : Option NameBlock × Buffer σ ο τ → Proc (Bool × Buffer σ ο τ)}
    (hunnamed : ∀ after, rest (none, after) = pure (unnamed, after))
    (hnamed : ∀ name after, rest (some name, after) = named name after) :
    Checked.Clean (withNameChecked fns cb suffix unnamed named buffer)
      (parseName fns cb suffix buffer >>= rest) := by
  refine (h.parseName_clean suffix).bind ?_
  rintro ⟨name, after⟩ -
  cases name with
  | none =>
      rw [hunnamed]
      exact Checked.Clean.pure _
  | some name =>
      rw [hnamed]
      exact Checked.Clean.lift _

theorem pushPartial_clean (h : HasRoom buffer) (lookup : Lookup ο)
    (stream : Option (InputStream τ)) :
    Checked.Clean (pushPartialChecked lookup stream buffer)
      (pushPartial lookup stream buffer) := by
  cases stream with
  | none => exact Checked.Clean.pure _
  | some stream => exact h.item_clean.bind fun save _ => Checked.Clean.pure _

/-- The tag leaves the buffer, and the next byte goes in its place. -/
theorem renderStachePartial_clean {start : Int} (h : HasRoom buffer)
    (hnonneg : 0 ≤ start) (hstart : start ≤ buffer.index) :
    Checked.Clean (renderStachePartialChecked fns cb start buffer)
      (renderStachePartial fns cb start buffer) := by
  refine (h.parseName_clean none).bind ?_
  rintro ⟨name, parsed⟩ hparse
  cases name with
  | none => exact Checked.Clean.pure _
  | some name =>
      obtain ⟨hparsed, hindex⟩ := hasRoom_closed.parseName hparse h
      have hlt := hparsed.index_lt
      rcases hresolve : cb.resolve parsed.env name.string with ⟨lookup, env⟩
      dsimp only
      rw [Buffer.resolve_eq hresolve]
      refine (Checked.Clean.lift _).bind ?_
      rintro ⟨result, stream, opened⟩ hopen
      obtain ⟨env', error, -, rfl, -⟩ := openPartial_includes hopen
      have hroom : HasRoom { parsed.setEnv env with
          env := env', error := error } :=
        ⟨hparsed.index_nonneg, hparsed.fill_le, hparsed.index_le, hlt,
          hparsed.live⟩
      refine (pushPartial_clean hroom lookup stream).bind fun pushed hpush => ?_
      obtain ⟨s, save, rfl⟩ := pushPartial_stacks hpush
      have hcapacity : 0 < parsed.capacity := by
        have := hparsed.index_nonneg
        omega
      refine Checked.Clean.bind (bufferNext_clean ?_ ?_ ?_) fun r _ =>
        Checked.Clean.pure _
      · exact hcapacity
      · dsimp only
        omega
      · exact Int.le_of_lt (Int.lt_of_le_of_lt (Int.le_trans hstart hindex) hlt)

theorem renderTag_clean {start : Int} {next : UInt8} (h : HasRoom buffer)
    (hnonneg : 0 ≤ start) (hlater : start ≤ buffer.index - 1) :
    Checked.Clean (renderTagChecked fns cb start next buffer)
      (renderTag fns cb start next buffer) := by
  have hstart : start ≤ buffer.index := by omega
  have hback : HasRoom { buffer with index := buffer.index - 1 } :=
    h.goTo (by omega) (by omega)
  rw [renderTagChecked, renderTag]
  split_ifs
  · exact h.withName_clean (fun _ => rfl) fun _ _ => rfl
  · exact h.withName_clean (fun _ => rfl) fun _ _ => rfl
  · exact h.withName_clean (fun _ => rfl) fun _ _ => rfl
  · exact h.withName_clean (fun _ => rfl) fun _ _ => rfl
  · exact h.withName_clean (fun _ => rfl) fun _ _ => rfl
  · exact h.comment_clean
  · exact renderStachePartial_clean h hnonneg hstart
  · exact hback.withName_clean (fun _ => rfl) fun _ _ => rfl

theorem renderStache_clean {start : Int} (h : HasRoom buffer)
    (hnonneg : 0 ≤ start) (hstart : start ≤ buffer.index) :
    Checked.Clean (renderStacheChecked fns cb start buffer)
      (renderStache fns cb start buffer) := by
  rw [renderStacheChecked, renderStache]
  split
  next => exact Checked.Clean.pure _
  next =>
    refine h.item_clean.bind fun next _ => h.next_clean.bind ?_
    rintro ⟨more, read⟩ hnext
    cases more with
    | true =>
        have hindex := (bufferNext_more hnext).2
        exact renderTag_clean (h.next hnext).1 hnonneg (by omega)
    | false => exact Checked.Clean.pure _

theorem HasRoom.output (h : HasRoom buffer) (text : Bytes) :
    HasRoom (bufferOutput buffer text) := by
  rw [bufferOutput_fields]
  exact ⟨h.index_nonneg, h.fill_le, h.index_le, h.index_lt, h.live⟩

/-- An iteration of `render_template` makes no access outside the block. -/
theorem HasRoom.renderStep_clean (h : HasRoom buffer) :
    Checked.Clean (renderStepChecked fns cb buffer)
      (renderStep fns cb buffer) := by
  rw [renderStepChecked, renderStep]
  split
  next => exact Checked.Clean.pure _
  next =>
    refine (h.lookAt_clean _).bind ?_
    rintro ⟨opened, looked⟩ hlook
    obtain ⟨hlooked, hindex⟩ := hasRoom_closed.lookAt hlook h
    have hpart : Checked.Clean
        (if opened then renderStacheChecked fns cb buffer.index looked
          else do
            let c ← bufferItemChecked looked
            bufferNextChecked fns cb (bufferOutput looked [c]))
        (if opened then renderStache fns cb buffer.index looked
          else do
            let c ← bufferItem looked
            bufferNext fns cb (bufferOutput looked [c])) := by
      cases opened with
      | true => exact renderStache_clean hlooked h.index_nonneg hindex
      | false =>
          exact hlooked.item_clean.bind fun c _ => (hlooked.output [c]).next_clean
    exact hpart.bind fun r _ => Checked.Clean.pure _

end

/-- The buffer stands inside its block and behind the start of every open
section, and the sections were opened in the order of their starts. -/
structure Moored (buffer : Buffer σ ο τ) : Prop where
  room : HasRoom buffer
  valid : buffer.Valid
  starts : ∀ loop ∈ buffer.loops,
    0 ≤ loop.bufferIndex ∧ loop.bufferIndex ≤ buffer.index
  nested : buffer.loops.Pairwise fun inner outer =>
    outer.bufferIndex ≤ inner.bufferIndex

section

variable {fns : StreamFns τ} {cb : Callback σ ο τ}
  {buffer start after next : Buffer σ ο τ}

theorem SameText.room (h : SameText after next) (hroom : HasRoom after)
    (hnonneg : 0 ≤ next.index) (hle : next.index ≤ after.index) :
    HasRoom next where
  index_nonneg := hnonneg
  fill_le := by
    rw [h.fill, h.capacity]
    exact hroom.fill_le
  index_le := by
    rw [h.fill]
    exact Int.le_trans hle hroom.index_le
  index_lt := by
    rw [h.capacity]
    exact Int.lt_of_le_of_lt hle hroom.index_lt
  live hlive := by
    rw [h.fill]
    exact Int.lt_of_le_of_lt hle (hroom.live (h.eof ▸ hlive))

theorem Moored.moves (h : Moored buffer) (hroom : HasRoom after)
    (hle : buffer.index ≤ after.index) (hloops : after.loops = buffer.loops) :
    Moored after where
  room := hroom
  valid loop hloop := h.valid loop (hloops ▸ hloop)
  starts loop hloop := by
    obtain ⟨hnonneg, hstart⟩ := h.starts loop (hloops ▸ hloop)
    exact ⟨hnonneg, Int.le_trans hstart hle⟩
  nested := hloops ▸ h.nested

/-- A list goes back inside the text: what was opened in it is closed. -/
theorem Moored.acts {bracket : Option (Bracket Bytes)} (h : Moored after)
    (hacts : Acts after next bracket) : Moored next := by
  obtain ⟨hsame, hturns⟩ := hacts
  have hroom := h.room
  have hvalid := hturns.valid h.valid
  cases hturns with
  | stays hindex hloops =>
      have hroom' := hsame.room hroom (hindex ▸ hroom.index_nonneg)
        (Int.le_of_eq hindex)
      exact h.moves hroom' (Int.le_of_eq hindex.symm) hloops
  | @opens loop hindex hopened _ hloops =>
      have hroom' := hsame.room hroom (hindex ▸ hroom.index_nonneg)
        (Int.le_of_eq hindex)
      refine ⟨hroom', hvalid, ?_, ?_⟩
      · intro other hother
        rw [hloops] at hother
        rw [hindex]
        rcases List.mem_cons.mp hother with rfl | hother
        · exact ⟨hopened ▸ hroom.index_nonneg, Int.le_of_eq hopened⟩
        · exact h.starts other hother
      · rw [hloops]
        refine List.pairwise_cons.mpr ⟨fun other hother => ?_, h.nested⟩
        rw [hopened]
        exact (h.starts other hother).2
  | @closes loop loops hindex hloops hrest =>
      have hroom' := hsame.room hroom (hindex ▸ hroom.index_nonneg)
        (Int.le_of_eq hindex)
      refine ⟨hroom', hvalid, ?_, ?_⟩
      · intro other hother
        rw [hrest] at hother
        rw [hindex]
        exact h.starts other (hloops ▸ List.mem_cons_of_mem _ hother)
      · rw [hrest]
        exact (List.pairwise_cons.mp (hloops ▸ h.nested)).2
  | @again loop loops hindex hloops hagain =>
      have hmem : loop ∈ after.loops := hloops ▸ List.mem_cons_self
      obtain ⟨hnonneg, hle⟩ := h.starts loop hmem
      obtain ⟨houter, hnested⟩ := List.pairwise_cons.mp (hloops ▸ h.nested)
      refine ⟨hsame.room hroom (hindex ▸ hnonneg) (hindex ▸ hle), hvalid, ?_, ?_⟩
      · intro other hother
        rw [hagain] at hother
        rw [hindex]
        rcases List.mem_cons.mp hother with rfl | hother
        · exact ⟨hnonneg, Int.le_refl _⟩
        · exact ⟨(h.starts other (hloops ▸ List.mem_cons_of_mem _ hother)).1,
            houter other hother⟩
      · rw [hagain]
        exact List.pairwise_cons.mpr ⟨houter, hnested⟩

theorem Moored.parses {suffix : Option Bytes}
    {effect : NameBlock → Buffer σ ο τ → Buffer σ ο τ → Prop}
    (h : Moored start)
    (hparses : Parses fns cb suffix start effect (true, next))
    (heffect : ∀ {name after}, Moored after → Advances start after →
      effect name after next → Moored next) : Moored next := by
  cases hparses with
  | refused hparse =>
      obtain ⟨read, hread, hkeeps, rfl, -⟩ := parseName_refused hparse
      obtain ⟨hroom, hle⟩ := hkeeps h.room
      have hback := hroom.goTo h.room.index_nonneg hle
      refine h.moves ⟨hback.index_nonneg, hback.fill_le, hback.index_le,
        hback.index_lt, hback.live⟩ (Int.le_refl _) hread.loops
  | @named name after _ hparse hresult =>
      have hread := advances_closed.parseName hparse
      obtain ⟨hroom, hle⟩ := hasRoom_closed.parseName hparse h.room
      exact heffect (h.moves hroom hle hread.loops) hread (hresult rfl)

theorem renderStacheDelimiters_moored (h : Moored start)
    (hr : Returns (renderStacheDelimiters fns cb start) (true, next)) :
    Moored next := by
  obtain ⟨⟨name, parsed⟩, hparse, hr⟩ := returns_bind.mp hr
  cases name with
  | none => cases returns_pure.mp hr
  | some name =>
      have hread := advances_closed.parseName hparse
      obtain ⟨hroom, hle⟩ := hasRoom_closed.parseName hparse h.room
      obtain ⟨scanned, -, hr⟩ := returns_bind.mp hr
      cases scanned with
      | ok delimiters =>
          cases returns_pure.mp hr
          exact h.moves ⟨hroom.index_nonneg, hroom.fill_le, hroom.index_le,
            hroom.index_lt, hroom.live⟩ hle hread.loops
      | error error => cases returns_pure.mp hr

/-- A tag: a partial takes its place, and the name of an escaped variable
begins one byte before the place that was read. -/
theorem Moored.tag {c : UInt8} (h : Moored buffer)
    (hroom : HasRoom start) (hloops : start.loops = buffer.loops)
    (hlater : buffer.index ≤ start.index - 1)
    (hr : Returns (renderTag fns cb buffer.index c start) (true, next)) :
    Moored next := by
  have hnonneg := h.room.index_nonneg
  have hstart := h.moves hroom (by omega) hloops
  have hback : Moored { start with index := start.index - 1 } :=
    h.moves (hroom.goTo (by omega) (by omega)) hlater hloops
  have hacts : ∀ {bracket : Option (Bracket Bytes)} {after : Buffer σ ο τ},
      Moored after → (after.Valid → Acts after next bracket) →
        Moored next :=
    fun hafter hacts => hafter.acts (hacts hafter.valid)
  rw [renderTag] at hr
  split_ifs at hr
  · exact hstart.parses (renderVariable_parses writeRaw_only hr)
      fun hafter _ hacts => hafter.acts hacts
  · exact hstart.parses (renderStacheLoop_parses hr)
      fun hafter _ hacts => hafter.acts hacts
  · exact hstart.parses (renderStacheEnd_parses hr)
      fun hafter _ heffect => hacts hafter heffect
  · exact hstart.parses (renderStacheLoop_parses hr)
      fun hafter _ hacts => hafter.acts hacts
  · exact renderStacheDelimiters_moored hstart hr
  · obtain ⟨hroom', hle⟩ := hasRoom_closed.comment hr hroom
    exact hstart.moves hroom' hle (advances_closed.comment hr).loops
  · refine hstart.parses (renderStachePartial_parses hr) ?_
    intro name after hafter hread hincluded
    have hfill := hroom.index_le
    have hgrown := hread.fill_le
    have hcapacity := hafter.room.fill_le
    have hlt := hafter.room.index_lt
    have hpos := hafter.room.index_nonneg
    have hnext := hincluded.room hnonneg (by omega) hcapacity (by omega)
    exact h.moves hnext (Int.le_of_eq hincluded.index.symm)
      (hincluded.loops.trans (hread.loops.trans hloops))
  · exact hback.parses (renderVariable_parses writeEscaped_only hr)
      fun hafter _ hacts => hafter.acts hacts

/-- An iteration of `render_template` that goes on. -/
theorem Moored.step (h : Moored buffer)
    (hstep : Returns (renderStep fns cb buffer) (.inl next)) :
    Moored next := by
  rcases renderStep_cases hstep with ⟨-, ho⟩ |
    ⟨-, looked, output, r, hlook, hnext, ho⟩ | ⟨c, start, htag⟩ |
    ⟨last, -, ho⟩
  · cases ho
  · rw [iterated_inl ho] at hnext
    obtain ⟨hlooked, hle⟩ := hasRoom_closed.lookAt hlook h.room
    have hready : HasRoom ({ looked with output := output } : Buffer σ ο τ) :=
      ⟨hlooked.index_nonneg, hlooked.fill_le, hlooked.index_le,
        hlooked.index_lt, hlooked.live⟩
    obtain ⟨hroom, hle'⟩ := hready.next hnext
    exact h.moves hroom (Int.le_trans hle hle')
      ((advances_closed.next hnext).loops.trans
        (advances_closed.lookAt hlook).loops)
  · obtain ⟨r, htagged, ho⟩ := htag.step hstep
    rw [iterated_inl ho] at htagged
    obtain ⟨-, opened, hlook, -, -, hnext⟩ := htag
    obtain ⟨hopened, hle⟩ := hasRoom_closed.lookAt hlook h.room
    have hindex := (bufferNext_more hnext).2
    exact h.tag (hopened.next hnext).1
      ((advances_closed.next hnext).loops.trans
        (advances_closed.lookAt hlook).loops) (by omega) htagged
  · cases ho

/-- `render` begins with an empty block of 4096 bytes. -/
theorem moored_start {env : σ} {input : InputStream τ} {data : Int → UInt8}
    (h : Returns (bufferNext fns cb (newBuffer env input data)) (true, next)) :
    Moored next := by
  obtain ⟨hroom, -⟩ := newBuffer_room h
  have hloops : next.loops = [] := (advances_closed.next h).loops
  refine ⟨hroom, ?_, ?_, hloops ▸ List.Pairwise.nil⟩
  · intro loop hloop
    rw [hloops] at hloop
    cases hloop
  · intro loop hloop
    rw [hloops] at hloop
    cases hloop

theorem Rendering.moored {env : σ} {input : InputStream τ}
    {data : Int → UInt8} (h : Rendering fns cb env input data buffer) :
    Moored buffer := by
  obtain ⟨first, hfirst, hreach⟩ := h
  exact hreach.invariant (fun _ _ hs hstep => hs.step hstep)
    (moored_start hfirst)

/-- `0 <= index <= fill <= capacity` -/
def Buffer.InOrder (buffer : Buffer σ ο τ) : Prop :=
  0 ≤ buffer.index ∧ buffer.index ≤ buffer.fill ∧
    buffer.fill ≤ buffer.capacity

theorem HasRoom.inOrder (h : HasRoom buffer) : buffer.InOrder :=
  ⟨h.index_nonneg, h.index_le, h.fill_le⟩

theorem render_clean (env : σ) (input : InputStream τ) (data : Int → UInt8) :
    Checked.Clean (renderChecked fns cb env input data)
      (render fns cb env input data) := by
  have hpos := newBuffer_capacity_pos (ο := ο) env input data
  have hfirst : Checked.Clean
      (bufferNextChecked fns cb (newBuffer env input data))
      (bufferNext fns cb (newBuffer env input data)) :=
    bufferNext_clean hpos (Int.le_refl 0) (Int.le_of_lt hpos)
  refine hfirst.bind ?_
  rintro ⟨more, start⟩ hstart
  cases more with
  | false => exact Checked.Clean.pure _
  | true =>
      have hloop : Checked.Clean
          (Checked.loop (renderStepChecked fns cb) start)
          (renderTemplate fns cb start) :=
        Checked.Clean.loop (I := Moored)
          (fun _ hs => hs.room.renderStep_clean)
          (fun _ _ hs hstep => hs.step hstep) (moored_start hstart)
      exact hloop.bind fun r _ => Checked.Clean.pure _

/-- The buffer is in order wherever the main loop of a rendering comes, before
and after it looks for a tag, and no access to the text, whether the rendering
comes to an end or not, is outside its block. -/
theorem buffer_stays_inside (fns : StreamFns τ) (cb : Callback σ ο τ)
    (env : σ) (input : InputStream τ) (data : Int → UInt8) :
    (∀ buffer, Rendering fns cb env input data buffer →
      buffer.InOrder ∧ ∀ found looked,
        Returns (bufferLookAt fns cb buffer.openDelimiter buffer)
          (found, looked) → looked.InOrder) ∧
    (∀ access, ¬ Returns (renderChecked fns cb env input data).run
      (.error access)) ∧
    ∀ r, Returns (renderChecked fns cb env input data).run (.ok r) ↔
      Returns (render fns cb env input data) r := by
  refine ⟨fun buffer hbuffer => ?_, (render_clean env input data).no_fault,
    fun r => (render_clean env input data).returns_iff⟩
  have hroom := hbuffer.moored.room
  exact ⟨hroom.inOrder, fun found looked hlook =>
    (hasRoom_closed.lookAt hlook hroom).1.inOrder⟩

end

end Libcad
