/-
The sections of a template.  What the engine meets at a place for the first
time it meets there again whenever a list goes back, so the sections that are
open at a place are those that its first pass over the text had open there.
-/
import Libcad.Brackets
import Libcad.StacheLexemes
import Libcad.StacheNameless

namespace Libcad

open Proc

variable {σ ο τ : Type}

/-- The section tag with this byte after the opening delimiter. -/
def sectionOf (c : UInt8) (name : Bytes) : Option (Bracket Bytes) :=
  if c = ascii '#' then some (.opening name)
  else if c = ascii '^' then some (.opening name)
  else if c = ascii '/' then some (.closing name)
  else none

/-- What follows the name in a tag with this byte. -/
def tagSuffix (c : UInt8) : Option Bytes :=
  if c = ascii '{' then some [ascii '}'] else none

/-- Where the name begins in such a tag: the byte belongs to the name of an
escaped variable. -/
def tagOffset (c : UInt8) : Int :=
  if c = ascii '{' ∨ c = ascii '#' ∨ c = ascii '/' ∨ c = ascii '^' ∨
    c = ascii '>' then 3 else 2

def HasName (c : UInt8) : Prop := c ≠ ascii '=' ∧ c ≠ ascii '!'

/-- What stands in the text from the start of the cell to its stop. -/
inductive CellAt (data : Int → UInt8) (rejections : List Rejection) :
    Cell Bytes → Prop
  | text {place : Int} :
      ¬ Spelt data place tagOpen →
        CellAt data rejections ⟨place, place + 1, none⟩
  | refused {place : Int} {rejection : Rejection} :
      Spelt data place tagOpen → data (place + 2) = ascii '{' →
        rejection ∈ rejections → rejection.suffix = some [ascii '}'] →
        rejection.index = place + 3 →
        CellAt data rejections ⟨place, place + 3, none⟩
  | named {place stop : Int} {name : Bytes} :
      Spelt data place tagOpen → HasName (data (place + 2)) →
        data (place + 2) ≠ ascii '>' →
        NameAt data (tagSuffix (data (place + 2))) tagClose
          (place + tagOffset (data (place + 2))) name stop →
        CellAt data rejections
          ⟨place, stop, sectionOf (data (place + 2)) (cString name)⟩
  | comment {place stop : Int} {text : Bytes} :
      Spelt data place tagOpen → data (place + 2) = ascii '!' →
        NameText data none tagClose (place + 3) text stop →
        CellAt data rejections ⟨place, stop, none⟩

/-- What the engine reads at its place. -/
inductive ReadsCell (fns : StreamFns τ) (cb : Callback σ ο τ)
    (buffer : Buffer σ ο τ) : Cell Bytes → Buffer σ ο τ → Prop
  | text {looked after : Buffer σ ο τ} {output : Bytes} :
      Returns (bufferLookAt fns cb buffer.openDelimiter buffer)
        (false, looked) →
        Returns (bufferNext fns cb { looked with output := output })
          (true, after) →
        ReadsCell fns cb buffer ⟨buffer.index, buffer.index + 1, none⟩ after
  | refused {c : UInt8} {start after : Buffer σ ο τ} :
      buffer.TagAt fns cb c start → HasName c →
        Returns (parseName fns cb (tagSuffix c)
          (start.goTo (buffer.index + tagOffset c))) (none, after) →
        ReadsCell fns cb buffer ⟨buffer.index, buffer.index + tagOffset c, none⟩
          after
  | named {c : UInt8} {start after : Buffer σ ο τ} {name : NameBlock} :
      buffer.TagAt fns cb c start → HasName c → c ≠ ascii '>' →
        Returns (parseName fns cb (tagSuffix c)
          (start.goTo (buffer.index + tagOffset c))) (some name, after) →
        ReadsCell fns cb buffer
          ⟨buffer.index, after.index, sectionOf c name.string⟩ after
  | comment {start after : Buffer σ ο τ} :
      buffer.TagAt fns cb (ascii '!') start →
        Returns (renderStacheComment fns cb start) (true, after) →
        ReadsCell fns cb buffer ⟨buffer.index, after.index, none⟩ after

/-- The buffer stands at a template that has not changed the delimiters. -/
structure Delimited (buffer : Buffer σ ο τ) : Prop where
  room : HasRoom buffer
  opener : buffer.openDelimiter = tagOpen
  closer : buffer.closeDelimiter = tagClose

section

variable {fns : StreamFns τ} {cb : Callback σ ο τ}
  {buffer start after : Buffer σ ο τ} {c : UInt8} {cell : Cell Bytes}
  {data data' : Int → UInt8} {rejections rejections' : List Rejection}
  {bound : Int}

theorem tagOffset_pos (c : UInt8) : 2 ≤ tagOffset c ∧ tagOffset c ≤ 3 := by
  rw [tagOffset]
  split <;> decide

theorem tagClose_ne_nil : tagClose ≠ [] := List.cons_ne_nil _ _

/-- The text of a cell is inside the cell, but for the byte after a brace. -/
theorem CellAt.congr (h : CellAt data rejections cell)
    (hsame : SameBelow bound data data') (hrejections : rejections ⊆ rejections')
    (hstop : cell.stop < bound ∨
      (cell.stop = bound ∧ data bound = ascii '{')) :
    CellAt data' rejections' cell := by
  cases h with
  | @text place hunlike =>
      refine .text fun hspelt => hunlike ?_
      obtain ⟨hfirst, hsecond, -⟩ := hspelt
      dsimp only at hstop
      have hplace : data place = data' place := (hsame _ (by omega)).symm
      refine ⟨hplace.trans hfirst, ?_, trivial⟩
      rcases hstop with hlt | ⟨heq, hbrace⟩
      · rw [← hsame _ hlt]
        exact hsecond
      · rw [heq]
        exact hbrace
  | @refused place rejection hspelt hbyte hmem hsuffix hindex =>
      dsimp only at hstop
      refine .refused ((Spelt.congr hsame ?_).mpr hspelt) ?_ (hrejections hmem)
        hsuffix hindex
      · simp only [tagOpen, List.length_cons, List.length_nil]
        omega
      · rw [hsame _ (by omega)]
        exact hbyte
  | @named place stop name hspelt hnamed hpartial hname =>
      have hlength := hname.length_le
      obtain ⟨hoffset, -⟩ := tagOffset_pos (data (place + 2))
      have htagClose : tagClose.length = 2 := rfl
      dsimp only at hstop
      have hbyte : data' (place + 2) = data (place + 2) := hsame _ (by omega)
      have hspelt' := (Spelt.congr hsame (by
        have hopening : tagOpen.length = 2 := rfl
        omega)).mpr hspelt
      rw [← hbyte] at hnamed hpartial hname ⊢
      exact .named hspelt' hnamed hpartial
        (hname.congr tagClose_ne_nil hsame (by omega))
  | @comment place stop text hspelt hbyte htext =>
      have hlength := htext.length_le
      have htagClose : ((none.getD [] : Bytes) ++ tagClose).length = 2 := rfl
      dsimp only at hstop
      refine .comment ((Spelt.congr hsame ?_).mpr hspelt) ?_
        (htext.congr hsame (by omega))
      · have hopening : tagOpen.length = 2 := rfl
        omega
      · rw [hsame _ (by omega)]
        exact hbyte

end

/-- The text in the buffer stays, and so do the delimiters; tags may have been
given up. -/
structure Grows (before after : Buffer σ ο τ) : Prop where
  fill_le : before.fill ≤ after.fill
  data : SameBelow before.fill before.data after.data
  rejections : before.rejections ⊆ after.rejections
  openDelimiter : after.openDelimiter = before.openDelimiter
  closeDelimiter : after.closeDelimiter = before.closeDelimiter

/-- What reading a cell does to the record. -/
structure HasRead (before : Buffer σ ο τ) (cell : Cell Bytes)
    (after : Buffer σ ο τ) : Prop where
  start : cell.start = before.index
  lt : cell.start < cell.stop
  index : after.index = cell.stop
  room : HasRoom after
  grows : Grows before after
  loops : after.loops = before.loops

section

variable {fns : StreamFns τ} {cb : Callback σ ο τ}
  {buffer start after : Buffer σ ο τ} {c : UInt8} {cell : Cell Bytes}
  {data : Int → UInt8}

theorem Advances.grows (h : Advances buffer after) : Grows buffer after where
  fill_le := h.fill_le
  data := h.data
  rejections := h.rejections ▸ List.Subset.refl _
  openDelimiter := h.openDelimiter
  closeDelimiter := h.closeDelimiter

theorem HasRoom.goTo (h : HasRoom buffer) {place : Int} (hnonneg : 0 ≤ place)
    (hle : place ≤ buffer.index) : HasRoom (buffer.goTo place) where
  index_nonneg := hnonneg
  fill_le := h.fill_le
  index_le := Int.le_trans hle h.index_le
  index_lt := Int.lt_of_le_of_lt hle h.index_lt
  live hlive := Int.lt_of_le_of_lt hle (h.live hlive)

/-- The opening delimiter and the byte of a tag have been read. -/
theorem Delimited.tagAt (h : Delimited buffer)
    (htag : buffer.TagAt fns cb c start) :
    Advances buffer start ∧ HasRoom start ∧ start.index = buffer.index + 3 := by
  obtain ⟨-, opened, hlook, -, hitem, hnext⟩ := htag
  have hroom := (hasRoom_closed.lookAt hlook h.room).1
  obtain ⟨-, hindex⟩ := bufferNext_more hnext
  obtain ⟨-, hopened⟩ := bufferLookAt_spelt h.room hlook fun _ _ => rfl
  have hlength : (tagOpen.length : Int) = 2 := rfl
  rw [h.opener] at hopened
  exact ⟨(advances_closed.lookAt hlook).trans (advances_closed.next hnext),
    (hroom.next hnext).1, by omega⟩

theorem Delimited.tagAt_spelt (h : Delimited buffer)
    (htag : buffer.TagAt fns cb c start)
    (hdata : SameBelow start.fill start.data data) :
    Spelt data buffer.index tagOpen ∧ data (buffer.index + 2) = c := by
  obtain ⟨-, opened, hlook, -, hitem, hnext⟩ := htag
  have hroom := (hasRoom_closed.lookAt hlook h.room).1
  have hread := advances_closed.next hnext
  obtain ⟨hspelt, hopened⟩ := bufferLookAt_spelt h.room hlook
    (hread.data.trans (hdata.mono hread.fill_le))
  have hstood := hroom.stood (bufferNext_more hnext).1 hread hdata
  rw [h.opener] at hspelt hopened
  rw [← bufferItem_eq hitem, hopened] at hstood
  exact ⟨hspelt, hstood⟩

theorem Delimited.named (h : Delimited buffer)
    (htag : buffer.TagAt fns cb c start) :
    HasRoom (start.goTo (buffer.index + tagOffset c)) := by
  obtain ⟨-, hroom, hindex⟩ := h.tagAt htag
  have hnonneg := h.room.index_nonneg
  obtain ⟨hle, hge⟩ := tagOffset_pos c
  exact hroom.goTo (by omega) (by omega)

theorem ReadsCell.hasRead (h : ReadsCell fns cb buffer cell after)
    (hd : Delimited buffer) : HasRead buffer cell after := by
  cases h with
  | @text looked _ output hlook hnext =>
      have hroom := (hasRoom_closed.lookAt hlook hd.room).1
      have hlooked := advances_closed.lookAt hlook
      have hread := advances_closed.next hnext
      have hready : HasRoom ({ looked with output := output } : Buffer σ ο τ) :=
        ⟨hroom.index_nonneg, hroom.fill_le, hroom.index_le, hroom.index_lt,
          hroom.live⟩
      obtain ⟨hroom', -⟩ := hready.next hnext
      have hindex : looked.index = buffer.index :=
        bufferLookAt_false_index hlook
      refine ⟨rfl, Int.lt_succ _, ?_, hroom', ?_, ?_⟩
      · rw [(bufferNext_more hnext).2]
        exact congrArg (· + 1) hindex
      · exact (hlooked.trans ⟨hread.fill_le, hread.data, hread.eof, hread.loops,
          hread.openDelimiter, hread.closeDelimiter, hread.rejections⟩).grows
      · exact hread.loops.trans hlooked.loops
  | @refused c start _ htag hnamed hparse =>
      obtain ⟨hstart, -, -⟩ := hd.tagAt htag
      have hroom := hd.named htag
      obtain ⟨read, hread, hkeeps, rfl, -⟩ := parseName_refused hparse
      obtain ⟨hroom', hle⟩ := hkeeps hroom
      obtain ⟨hpos, -⟩ := tagOffset_pos c
      have hgrows := (hstart.trans ⟨hread.fill_le, hread.data, hread.eof,
        hread.loops, hread.openDelimiter, hread.closeDelimiter,
        hread.rejections⟩).grows
      have hback := hroom'.goTo hroom.index_nonneg hle
      refine ⟨rfl, ?_, rfl, ?_, ?_, ?_⟩
      · dsimp only
        omega
      · exact ⟨hback.index_nonneg, hback.fill_le, hback.index_le,
          hback.index_lt, hback.live⟩
      · exact ⟨hgrows.fill_le, hgrows.data,
          List.Subset.trans hgrows.rejections (List.subset_append_left _ _),
          hgrows.openDelimiter, hgrows.closeDelimiter⟩
      · exact hread.loops.trans hstart.loops
  | @named c start _ name htag hnamed hpartial hparse =>
      obtain ⟨hstart, -, -⟩ := hd.tagAt htag
      have hroom := hd.named htag
      have hread := advances_closed.parseName hparse
      obtain ⟨hroom', hle⟩ := hasRoom_closed.parseName hparse hroom
      obtain ⟨hpos, -⟩ := tagOffset_pos c
      have hadvances := hstart.trans ⟨hread.fill_le, hread.data, hread.eof,
        hread.loops, hread.openDelimiter, hread.closeDelimiter,
        hread.rejections⟩
      refine ⟨rfl, ?_, rfl, hroom', hadvances.grows, hadvances.loops⟩
      change buffer.index + tagOffset c ≤ after.index at hle
      dsimp only
      omega
  | @comment start _ htag hcomment =>
      obtain ⟨hstart, hroom, hindex⟩ := hd.tagAt htag
      have hread := advances_closed.comment hcomment
      obtain ⟨hroom', hle⟩ := hasRoom_closed.comment hcomment hroom
      refine ⟨rfl, ?_, rfl, hroom', (hstart.trans hread).grows,
        hread.loops.trans hstart.loops⟩
      dsimp only
      omega

/-- What was read stands in the text, unless the input has ended. -/
theorem ReadsCell.cellAt (h : ReadsCell fns cb buffer cell after)
    (hd : Delimited buffer) (hlive : after.eof = false) :
    CellAt after.data after.rejections cell := by
  cases h with
  | @text looked _ output hlook hnext =>
      have hread := advances_closed.next hnext
      refine .text ?_
      rw [← hd.opener]
      exact bufferLookAt_unlike hd.room hlook (bufferNext_more hnext).1
        hread.data
  | @refused c start _ htag hnamed hparse =>
      obtain ⟨hstart, -, -⟩ := hd.tagAt htag
      obtain ⟨read, hread, -, rfl, hended⟩ := parseName_refused hparse
      obtain ⟨hspelt, hbyte⟩ := hd.tagAt_spelt htag hread.data
      have hc : c = ascii '{' := by
        by_contra hne
        have hnone : tagSuffix c = none := if_neg hne
        have heof : read.eof = true := hended hnone
        have hlive : read.eof = false := hlive
        rw [heof] at hlive
        cases hlive
      subst hc
      exact .refused hspelt hbyte
        (List.mem_append_right _ (List.mem_singleton_self _)) rfl rfl
  | @named c start _ name htag hnamed hpartial hparse =>
      obtain ⟨hstart, -, -⟩ := hd.tagAt htag
      have hread := advances_closed.parseName hparse
      obtain ⟨hspelt, hbyte⟩ := hd.tagAt_spelt htag hread.data
      have hclosing : start.closeDelimiter = tagClose :=
        hstart.closeDelimiter.trans hd.closer
      have hname := parseName_text (hd.named htag) (by
        change start.closeDelimiter ≠ []
        rw [hclosing]
        exact tagClose_ne_nil) hparse fun _ _ => rfl
      change NameAt after.data (tagSuffix c) start.closeDelimiter
        (buffer.index + tagOffset c) name.bytes after.index at hname
      rw [hclosing] at hname
      subst hbyte
      exact .named hspelt hnamed hpartial hname
  | @comment start _ htag hcomment =>
      obtain ⟨hstart, hroom, hindex⟩ := hd.tagAt htag
      have hread := advances_closed.comment hcomment
      obtain ⟨hspelt, hbyte⟩ := hd.tagAt_spelt htag hread.data
      have hclosing : start.closeDelimiter = tagClose :=
        hstart.closeDelimiter.trans hd.closer
      obtain ⟨text, htext⟩ := comment_text hroom (by
        rw [hclosing]
        exact tagClose_ne_nil) hcomment fun _ _ => rfl
      rw [hclosing, hindex] at htext
      exact .comment hspelt hbyte htext

end

/-- The text and what is left to read, the delimiters and the tags given up stay
as they are. -/
structure SameText (before after : Buffer σ ο τ) : Prop where
  input : after.input = before.input
  partials : after.partials = before.partials
  data : after.data = before.data
  fill : after.fill = before.fill
  capacity : after.capacity = before.capacity
  eof : after.eof = before.eof
  openDelimiter : after.openDelimiter = before.openDelimiter
  closeDelimiter : after.closeDelimiter = before.closeDelimiter
  rejections : after.rejections = before.rejections

/-- The open sections after a tag, and where the engine goes on. -/
inductive Turns (before after : Buffer σ ο τ) : Option (Bracket Bytes) → Prop
  | stays : after.index = before.index → after.loops = before.loops →
      Turns before after none
  | opens {loop : StacheLoop ο} :
      after.index = before.index → loop.bufferIndex = before.index →
        loop.lookup ≠ .invalid → after.loops = loop :: before.loops →
        Turns before after (some (.opening loop.name))
  | closes {loop : StacheLoop ο} {loops : List (StacheLoop ο)} :
      after.index = before.index → before.loops = loop :: loops →
        after.loops = loops → Turns before after (some (.closing loop.name))
  | again {loop : StacheLoop ο} {loops : List (StacheLoop ο)} :
      after.index = loop.bufferIndex → before.loops = loop :: loops →
        after.loops = loop.next :: loops →
        Turns before after (some (.closing loop.name))

/-- What a tag does once its name was read. -/
def Acts (before after : Buffer σ ο τ) (bracket : Option (Bracket Bytes)) :
    Prop :=
  SameText before after ∧ Turns before after bracket

/-- No section is open that could not be opened. -/
def Buffer.Valid (buffer : Buffer σ ο τ) : Prop :=
  ∀ loop ∈ buffer.loops, loop.lookup ≠ .invalid

/-- A partial takes the place of its tag. -/
structure Included (place : Int) (before after : Buffer σ ο τ) : Prop where
  index : after.index = place
  room : 0 ≤ place → place ≤ before.fill → before.fill ≤ before.capacity →
    0 < before.capacity → HasRoom after
  data : SameBelow place before.data after.data
  loops : after.loops = before.loops
  openDelimiter : after.openDelimiter = before.openDelimiter
  closeDelimiter : after.closeDelimiter = before.closeDelimiter
  rejections : after.rejections = before.rejections

/-- A tag that begins with a name: without one it is given up, with one it has
its effect, unless the rendering fails. -/
inductive Parses (fns : StreamFns τ) (cb : Callback σ ο τ)
    (suffix : Option Bytes) (start : Buffer σ ο τ)
    (effect : NameBlock → Buffer σ ο τ → Buffer σ ο τ → Prop) :
    Bool × Buffer σ ο τ → Prop
  | refused {after : Buffer σ ο τ} :
      Returns (parseName fns cb suffix start) (none, after) →
        Parses fns cb suffix start effect (true, after)
  | named {name : NameBlock} {after : Buffer σ ο τ}
      {r : Bool × Buffer σ ο τ} :
      Returns (parseName fns cb suffix start) (some name, after) →
        (r.1 = true → effect name after r.2) →
        Parses fns cb suffix start effect r

section

variable {fns : StreamFns τ} {cb : Callback σ ο τ}
  {buffer start after next : Buffer σ ο τ} {c : UInt8}
  {r : Bool × Buffer σ ο τ}

theorem SameText.refl (buffer : Buffer σ ο τ) : SameText buffer buffer :=
  ⟨rfl, rfl, rfl, rfl, rfl, rfl, rfl, rfl, rfl⟩

theorem Acts.quiet (env : σ) (output : Bytes) (error : String) :
    Acts buffer { buffer with env := env, output := output, error := error }
      none :=
  ⟨⟨rfl, rfl, rfl, rfl, rfl, rfl, rfl, rfl, rfl⟩, .stays rfl rfl⟩

theorem Turns.valid {bracket : Option (Bracket Bytes)}
    (h : Turns after next bracket) (hvalid : after.Valid) : next.Valid := by
  intro loop hloop
  cases h with
  | stays _ hloops => exact hvalid loop (hloops ▸ hloop)
  | opens _ _ hopened hloops =>
      rcases List.mem_cons.mp (hloops ▸ hloop) with rfl | hloop
      · exact hopened
      · exact hvalid loop hloop
  | closes _ hloops hrest =>
      rw [hrest] at hloop
      exact hvalid loop (hloops ▸ List.mem_cons_of_mem _ hloop)
  | @again opened loops _ hloops hagain =>
      rcases List.mem_cons.mp (hagain ▸ hloop) with rfl | hloop
      · exact hvalid opened (hloops ▸ List.mem_cons_self)
      · exact hvalid loop (hloops ▸ List.mem_cons_of_mem _ hloop)

theorem renderVariable_parses {suffix : Option Bytes} {invalidName : String}
    {write : Option Bytes → Buffer σ ο τ → Proc (Buffer σ ο τ)}
    (hwrite : OnlyWrites write)
    (h : Returns (renderVariable fns cb suffix invalidName write start) r) :
    Parses fns cb suffix start (fun _ after next => Acts after next none) r := by
  obtain ⟨⟨name, parsed⟩, hparse, h⟩ := returns_bind.mp h
  cases name with
  | none =>
      cases returns_pure.mp h
      exact .refused hparse
  | some name =>
      refine .named hparse fun hresult => ?_
      dsimp only at h
      split at h
      next =>
        cases returns_pure.mp h
        cases hresult
      next =>
        rcases hresolve : cb.resolve parsed.env name.string with ⟨lookup, env⟩
        rw [Buffer.resolve_eq hresolve] at h
        cases lookup with
        | notFound =>
            cases returns_pure.mp h
            exact Acts.quiet env parsed.output parsed.error
        | string resolved =>
            obtain ⟨⟨c, got⟩, hget, h⟩ := returns_bind.mp h
            obtain ⟨get, -, -, rfl⟩ := call_returns_some hget
            obtain ⟨written, hwritten, h⟩ := returns_bind.mp h
            obtain ⟨output, rfl⟩ := hwrite hwritten
            obtain ⟨⟨freed, called⟩, hcall, h⟩ := returns_bind.mp h
            obtain ⟨free, -, -, rfl⟩ := call_returns_some hcall
            cases returns_pure.mp h
            cases freed with
            | true => exact Acts.quiet _ output parsed.error
            | false => cases hresult
        | list resolved | stream resolved | invalid =>
            cases returns_pure.mp h
            cases hresult

/-- The opening tag of a section opens it where the tag ends. -/
theorem renderStacheLoop_parses {type : LoopType}
    (h : Returns (renderStacheLoop fns cb type start) r) :
    Parses fns cb none start
      (fun name after next => Acts after next (some (.opening name.string))) r := by
  obtain ⟨⟨name, parsed⟩, hparse, h⟩ := returns_bind.mp h
  cases name with
  | none =>
      cases returns_pure.mp h
      exact .refused hparse
  | some name =>
      refine .named hparse fun hresult => ?_
      rcases hresolve : cb.resolve parsed.env name.string with ⟨lookup, env⟩
      obtain ⟨result, empty, error, hopen, -⟩ :=
        openLoop_env fns cb lookup (parsed.setEnv env)
      have hvalid : result = true → lookup ≠ .invalid := by
        rintro rfl rfl
        cases hopen
      dsimp only at h
      rw [Buffer.resolve_eq hresolve] at h
      dsimp only at h
      rw [hopen] at h
      cases returns_pure.mp h
      exact ⟨⟨rfl, rfl, rfl, rfl, rfl, rfl, rfl, rfl, rfl⟩,
        @Turns.opens _ _ _ parsed _
          ⟨type, name.string, lookup, parsed.index, 0, empty⟩ rfl rfl
          (hvalid hresult) rfl⟩

/-- The end of a list goes back to where its section was opened, or closes
the section. -/
theorem endList_turns {resolved : ο} {loop : StacheLoop ο}
    {loops : List (StacheLoop ο)} (hloops : buffer.loops = loop :: loops)
    (h : Returns (endList cb resolved loop loops buffer) (true, next)) :
    Acts buffer next (some (.closing loop.name)) := by
  obtain ⟨⟨found, asked⟩, hnext, h⟩ := returns_bind.mp h
  have hnext : Returns (listNext cb resolved loop.next.loopIndex
      { buffer with loops := loop.next :: loops } loop.type) (found, asked) :=
    hnext
  obtain ⟨env, rfl, -⟩ := listNext_asks hnext
  cases found with
  | true =>
      cases returns_pure.mp h
      exact ⟨⟨rfl, rfl, rfl, rfl, rfl, rfl, rfl, rfl, rfl⟩,
        .again rfl hloops rfl⟩
  | false =>
      obtain ⟨closed, hcalled, -⟩ := callOr_release
        ({ buffer with loops := loop.next :: loops }.setEnv env)
        (cb.listClose resolved)
      dsimp only at h
      rw [if_neg Bool.false_ne_true, hcalled] at h
      cases closed with
      | true =>
          cases returns_pure.mp h
          exact ⟨⟨rfl, rfl, rfl, rfl, rfl, rfl, rfl, rfl, rfl⟩,
            .closes rfl hloops rfl⟩
      | false => cases returns_pure.mp h

/-- An end tag is accepted where it has the name of the innermost section. -/
theorem renderStacheEnd_parses
    (h : Returns (renderStacheEnd fns cb start) r) :
    Parses fns cb none start
      (fun name after next =>
        after.Valid → Acts after next (some (.closing name.string))) r := by
  obtain ⟨⟨name, parsed⟩, hparse, h⟩ := returns_bind.mp h
  cases name with
  | none =>
      cases returns_pure.mp h
      exact .refused hparse
  | some name =>
      refine .named hparse fun hresult hvalid => ?_
      obtain ⟨result, next⟩ := r
      cases hresult
      dsimp only at h
      cases hloops : parsed.loops with
      | nil =>
          rw [hloops] at h
          cases returns_pure.mp h
      | cons loop loops =>
          rw [hloops] at h
          dsimp only at h
          split at h
          next => cases returns_pure.mp h
          next hname =>
            rw [not_not.mp hname]
            have hinvalid := hvalid loop (hloops ▸ List.mem_cons_self)
            cases hlookup : loop.lookup with
            | list resolved =>
                rw [hlookup] at h
                exact endList_turns hloops h
            | invalid => exact absurd hlookup hinvalid
            | notFound | string resolved | stream resolved =>
                rw [hlookup] at h
                cases returns_pure.mp h
                exact ⟨⟨rfl, rfl, rfl, rfl, rfl, rfl, rfl, rfl, rfl⟩,
                  .closes rfl hloops rfl⟩

theorem renderStachePartial_parses {place : Int}
    (h : Returns (renderStachePartial fns cb place start) r) :
    Parses fns cb none start (fun _ after next => Included place after next)
      r := by
  obtain ⟨⟨name, parsed⟩, hparse, h⟩ := returns_bind.mp h
  cases name with
  | none =>
      cases returns_pure.mp h
      exact .refused hparse
  | some name =>
      refine .named hparse fun hresult => ?_
      rcases hresolve : cb.resolve parsed.env name.string with ⟨lookup, env⟩
      dsimp only at h
      rw [Buffer.resolve_eq hresolve] at h
      obtain ⟨⟨result, stream, opened⟩, hopen, h⟩ := returns_bind.mp h
      obtain ⟨env', error, -, rfl, -⟩ := openPartial_includes hopen
      obtain ⟨pushed, hpush, h⟩ := returns_bind.mp h
      obtain ⟨s, save, rfl⟩ := pushPartial_stacks hpush
      obtain ⟨⟨more, next⟩, hnext, h⟩ := returns_bind.mp h
      cases more with
      | false =>
          cases returns_pure.mp h
          cases hresult
      | true =>
          cases returns_pure.mp h
          have hread := advances_closed.next hnext
          obtain ⟨hlive, hindex⟩ := bufferNext_more hnext
          have hplace : place - 1 + 1 = place := Int.sub_add_cancel place 1
          refine ⟨hindex.trans hplace, ?_, hread.data, hread.loops,
            hread.openDelimiter, hread.closeDelimiter, hread.rejections⟩
          intro hnonneg hle hcapacity hpos
          have hroom := bufferNext_room hlive hpos
            (hplace.symm ▸ hnonneg) (Int.le_trans hle hcapacity)
            (Int.le_of_eq hplace) hnext
          exact hroom.1

/-- What a tag with this byte does once its name was read. -/
def TagEffect (c : UInt8) (place : Int) (name : NameBlock)
    (after next : Buffer σ ο τ) : Prop :=
  if c = ascii '>' then Included place after next
  else after.Valid → Acts after next (sectionOf c name.string)

theorem Parses.tag {suffix : Option Bytes} {named : Buffer σ ο τ} {place : Int}
    {effect : NameBlock → Buffer σ ο τ → Buffer σ ο τ → Prop}
    (h : Parses fns cb suffix named effect r) (hsuffix : tagSuffix c = suffix)
    (hnamed : start.goTo (place + tagOffset c) = named)
    (heffect : ∀ {name after next}, effect name after next →
      TagEffect c place name after next) :
    Parses fns cb (tagSuffix c) (start.goTo (place + tagOffset c))
      (TagEffect c place) r := by
  rw [hsuffix, hnamed]
  cases h with
  | refused hparse => exact .refused hparse
  | named hparse hresult =>
      exact .named hparse fun htrue => heffect (hresult htrue)

theorem renderTag_parses {place : Int} (hname : HasName c)
    (hplace : start.index = place + 3)
    (h : Returns (renderTag fns cb place c start) r) :
    Parses fns cb (tagSuffix c) (start.goTo (place + tagOffset c))
      (TagEffect c place) r := by
  have hthree : start.goTo (place + 3) = start := by
    rw [← hplace]
    rfl
  rw [renderTag] at h
  split_ifs at h with hraw hopen hend helse hdelimiters hcomment hpartial
  · subst hraw
    exact (renderVariable_parses writeRaw_only h).tag rfl hthree
      fun hacts _ => hacts
  · subst hopen
    exact (renderStacheLoop_parses h).tag rfl hthree fun hacts _ => hacts
  · subst hend
    exact (renderStacheEnd_parses h).tag rfl hthree fun hacts => hacts
  · subst helse
    exact (renderStacheLoop_parses h).tag rfl hthree fun hacts _ => hacts
  · exact absurd hdelimiters hname.1
  · exact absurd hcomment hname.2
  · subst hpartial
    exact (renderStachePartial_parses h).tag rfl hthree fun hincluded => hincluded
  · have hoffset : tagOffset c = 2 :=
      if_neg (by simp only [hraw, hopen, hend, helse, hpartial, or_self,
        not_false_eq_true])
    have htwo : start.goTo (place + tagOffset c) =
        { start with index := start.index - 1 } :=
      congrArg start.goTo (by omega)
    refine (renderVariable_parses writeEscaped_only h).tag (if_neg hraw) htwo ?_
    intro name after next hacts
    rw [TagEffect, if_neg hpartial]
    intro _
    rwa [sectionOf, if_neg hopen, if_neg helse, if_neg hend]

end

section

variable {fns : StreamFns τ} {cb : Callback σ ο τ}
  {buffer start read next : Buffer σ ο τ} {c : UInt8} {cell : Cell Bytes}

theorem iterated_inl {r : Bool × Buffer σ ο τ} (h : .inl next = iterated r) :
    r = (true, next) := by
  obtain ⟨result, after⟩ := r
  cases result with
  | true =>
      cases h
      rfl
  | false => cases h

theorem Delimited.parsed (hd : Delimited buffer)
    (htag : buffer.TagAt fns cb c start) (hname : HasName c)
    (hstep : Returns (renderStep fns cb buffer) (.inl next)) :
    Parses fns cb (tagSuffix c) (start.goTo (buffer.index + tagOffset c))
      (TagEffect c buffer.index) (true, next) := by
  obtain ⟨r, htagged, ho⟩ := htag.step hstep
  obtain ⟨-, -, hplace⟩ := hd.tagAt htag
  rw [iterated_inl ho] at htagged
  exact renderTag_parses hname hplace htagged

/-- An iteration that goes on has done what its cell says. -/
theorem ReadsCell.step (h : ReadsCell fns cb buffer cell read)
    (hd : Delimited buffer) (hvalid : buffer.Valid)
    (hstep : Returns (renderStep fns cb buffer) (.inl next)) :
    ∃ read, ReadsCell fns cb buffer cell read ∧ Acts read next cell.bracket := by
  cases h with
  | text hlook hnext =>
      rcases renderStep_cases hstep with ⟨-, ho⟩ |
        ⟨-, looked, output, r, hlook', hnext', ho⟩ | ⟨c, start, htag⟩ |
        ⟨last, -, ho⟩
      · cases ho
      · rw [iterated_inl ho] at hnext'
        exact ⟨next, .text hlook' hnext', SameText.refl next, .stays rfl rfl⟩
      · obtain ⟨-, opened, hlook', -⟩ := htag
        cases hlook.unique hlook'
      · cases ho
  | refused htag hname hparse =>
      cases hd.parsed htag hname hstep with
      | refused hparse' =>
          exact ⟨next, .refused htag hname hparse', SameText.refl next,
            .stays rfl rfl⟩
      | named hparse' => cases hparse.unique hparse'
  | named htag hname hpartial hparse =>
      have hcell := ReadsCell.named htag hname hpartial hparse
      cases hd.parsed htag hname hstep with
      | refused hparse' => cases hparse.unique hparse'
      | named hparse' heffect =>
          cases hparse.unique hparse'
          have hacts := heffect rfl
          rw [TagEffect, if_neg hpartial] at hacts
          refine ⟨read, hcell, hacts fun loop hloop => hvalid loop ?_⟩
          exact (hcell.hasRead hd).loops ▸ hloop
  | comment htag hcomment =>
      obtain ⟨r, htagged, ho⟩ := htag.step hstep
      rw [iterated_inl ho] at htagged
      cases hcomment.unique htagged
      exact ⟨read, .comment htag hcomment, SameText.refl read, .stays rfl rfl⟩

/-- An iteration that goes on has read a cell or included a partial. -/
theorem renderStep_reads (hd : Delimited buffer)
    (hdelimiters : ∀ start, ¬ buffer.TagAt fns cb (ascii '=') start)
    (hstep : Returns (renderStep fns cb buffer) (.inl next)) :
    (∃ cell read, ReadsCell fns cb buffer cell read) ∨
      ∃ start name read, buffer.TagAt fns cb (ascii '>') start ∧
        Returns (parseName fns cb none start) (some name, read) ∧
        Included buffer.index read next := by
  rcases renderStep_cases hstep with ⟨-, ho⟩ |
    ⟨-, looked, output, r, hlook, hnext, ho⟩ | ⟨c, start, htag⟩ |
    ⟨last, -, ho⟩
  · cases ho
  · rw [iterated_inl ho] at hnext
    exact Or.inl ⟨_, next, .text hlook hnext⟩
  · by_cases hcomment : c = ascii '!'
    · subst hcomment
      obtain ⟨r, htagged, ho⟩ := htag.step hstep
      rw [iterated_inl ho] at htagged
      exact Or.inl ⟨_, next, .comment htag htagged⟩
    · have hname : HasName c :=
        ⟨fun heq => hdelimiters start (heq ▸ htag), hcomment⟩
      cases hd.parsed htag hname hstep with
      | refused hparse => exact Or.inl ⟨_, next, .refused htag hname hparse⟩
      | @named name read _ hparse heffect =>
          by_cases hpartial : c = ascii '>'
          · subst hpartial
            have hplace : start.goTo (buffer.index + tagOffset (ascii '>')) =
                start := by
              obtain ⟨-, -, hindex⟩ := hd.tagAt htag
              have hthree : tagOffset (ascii '>') = 3 := rfl
              rw [hthree, ← hindex]
              rfl
            rw [hplace] at hparse
            exact Or.inr ⟨start, name, read, htag, hparse, heffect rfl⟩
          · exact Or.inl ⟨_, read, .named htag hname hpartial hparse⟩
  · cases ho

end

/-- The engine reads the name of a raw variable where it gave the tag up
before: a partial that was in the way has been included since. -/
def Buffer.ReadsRefused (fns : StreamFns τ) (cb : Callback σ ο τ)
    (buffer : Buffer σ ο τ) : Prop :=
  ∃ start name after, buffer.TagAt fns cb (ascii '{') start ∧
    Returns (parseName fns cb (some [ascii '}']) start) (some name, after) ∧
    ∃ rejection ∈ buffer.rejections,
      rejection.suffix = some [ascii '}'] ∧ rejection.index = start.index

section

variable {fns : StreamFns τ} {cb : Callback σ ο τ}
  {buffer start next : Buffer σ ο τ} {cell : Cell Bytes}

/-- A tag that stands in the text is found again. -/
theorem Rereads.tagAt (h : Rereads buffer)
    (hopening : buffer.openDelimiter = tagOpen) (hnonneg : 0 ≤ buffer.index)
    (hspelt : Spelt buffer.data buffer.index tagOpen)
    (hlt : buffer.index + 3 < buffer.fill) :
    buffer.TagAt fns cb (buffer.data (buffer.index + 2))
      (buffer.goTo (buffer.index + 3)) := by
  have hlength : (tagOpen.length : Int) = 2 := rfl
  have hlook := @Rereads.finds _ _ _ fns cb _ _ h tagOpen hspelt hnonneg
    (by omega)
  have hnext := @Rereads.next _ _ _ fns cb _ (buffer.index + 2) h (by omega)
  have hthree : buffer.index + 2 + 1 = buffer.index + 3 := by omega
  rw [hlength] at hlook
  rw [hthree] at hnext
  rw [← hopening] at hlook
  exact ⟨h.bufferEof buffer.index, buffer.goTo (buffer.index + 2), hlook,
    h.bufferEof _, h.item (by omega) (by omega), hnext⟩

/-- What stands in the text is read again, unless it was given up. -/
theorem CellAt.reads (h : CellAt buffer.data buffer.rejections cell)
    (hd : Delimited buffer) (hlive : buffer.eof = false)
    (hstart : cell.start = buffer.index) (hlt : cell.stop < buffer.fill)
    (hsound : ¬ buffer.ReadsRefused fns cb)
    (hstep : Returns (renderStep fns cb buffer) (.inl next)) :
    ∃ read, ReadsCell fns cb buffer cell read := by
  have hrereads : Rereads buffer := ⟨hlive, hd.room.fill_le⟩
  have hnonneg := hd.room.index_nonneg
  have hopening : (tagOpen.length : Int) = 2 := rfl
  cases h with
  | @text place hunlike =>
      obtain rfl : place = buffer.index := hstart
      dsimp only at hlt
      have hlook := @Rereads.misses _ _ _ fns cb _ _ hrereads tagOpen hunlike
        hnonneg (by omega)
      rw [← hd.opener] at hlook
      have hnext := @Rereads.next _ _ _ fns cb _ _ hrereads hlt
      exact ⟨_, @ReadsCell.text _ _ _ _ _ _ buffer _ buffer.output hlook hnext⟩
  | @refused place _ hspelt hbyte hmem hsuffix hindex =>
      obtain rfl : place = buffer.index := hstart
      dsimp only at hlt
      have htag := @Rereads.tagAt _ _ _ fns cb _ hrereads hd.opener hnonneg
        hspelt hlt
      rw [hbyte] at htag
      have hname : HasName (ascii '{') := ⟨by decide, by decide⟩
      cases hd.parsed htag hname hstep with
      | refused hparse => exact ⟨next, .refused htag hname hparse⟩
      | named hparse =>
          exact absurd ⟨_, _, _, htag, hparse, _, hmem, hsuffix, hindex⟩ hsound
  | @named place stop text hspelt hname hpartial hstands =>
      obtain rfl : place = buffer.index := hstart
      dsimp only at hlt
      have hlength := hstands.length_le
      obtain ⟨htwo, -⟩ := tagOffset_pos (buffer.data (buffer.index + 2))
      have hclosing : (tagClose.length : Int) = 2 := rfl
      have htag := @Rereads.tagAt _ _ _ fns cb _ hrereads hd.opener hnonneg
        hspelt (by omega)
      rw [← hd.closer] at hstands
      obtain ⟨name, rfl, hparse⟩ := @Rereads.parses _ _ _ fns cb _ _ _ _ _
        hrereads hstands (by omega) (hd.closer ▸ tagClose_ne_nil) hlt
      exact ⟨_, .named htag hname hpartial hparse⟩
  | @comment place stop text hspelt hbyte hstands =>
      obtain rfl : place = buffer.index := hstart
      dsimp only at hlt
      have hlength := hstands.length_le
      have hclosing : ((none.getD [] : Bytes) ++ tagClose).length = 2 := rfl
      have htag := @Rereads.tagAt _ _ _ fns cb _ hrereads hd.opener hnonneg
        hspelt (by omega)
      rw [hbyte] at htag
      rw [← hd.closer] at hstands
      exact ⟨_, .comment htag (hrereads.comment hstands (by omega) hlt)⟩

end

end Libcad
