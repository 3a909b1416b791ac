/-
The section tags that are met on the first pass over a template.  A rendering
that goes back in a list notes only what it meets behind the place it had come
to; what it notes is balanced, or the rendering fails.
-/
import Libcad.StachePlain

namespace Libcad

open Proc

variable {σ ο τ : Type}

section Engine

variable (fns : StreamFns τ) (cb : Callback σ ο τ)

/-- The section tag with this byte, and the place where it ends. -/
def tagSection (c : UInt8) (start : Buffer σ ο τ) :
    Proc (Option (Bracket Bytes × Int)) :=
  if c = ascii '#' ∨ c = ascii '^' ∨ c = ascii '/' then do
    let (name, after) ← parseName fns cb none start
    pure (name.bind fun name =>
      (sectionOf c name.string).map fun bracket => (bracket, after.index))
  else pure none

def sectionAt (buffer : Buffer σ ο τ) : Proc (Option (Bracket Bytes × Int)) :=
  if bufferEof buffer then pure none
  else do
    let (opened, buffer) ← bufferLookAt fns cb buffer.openDelimiter buffer
    if !opened || bufferEof buffer then pure none
    else do
      let c ← bufferItem buffer
      let (more, start) ← bufferNext fns cb buffer
      if more then tagSection fns cb c start else pure none

/-- How far the text was gone through, and the section tags met by then. -/
structure Pass where
  passed : Int
  sections : List (Bracket Bytes)

/-- The pass after an iteration that began at `place` and came to `next`. -/
def Pass.go (pass : Pass) (place : Int) (met : Option (Bracket Bytes × Int))
    (next : Int) : Pass :=
  if place < pass.passed then pass
  else
    match met with
    | some (bracket, stop) => ⟨stop, pass.sections ++ [bracket]⟩
    | none => ⟨next, pass.sections⟩

/-- The body of the loop of `render_template`, with the pass. -/
def renderStepPassing (s : Buffer σ ο τ × Pass) :
    Proc ((Buffer σ ο τ × Pass) ⊕ ((Bool × Buffer σ ο τ) × Pass)) := do
  let met ← sectionAt fns cb s.1
  let outcome ← renderStep fns cb s.1
  let pass := s.2.go s.1.index met (stepBuffer outcome).index
  pure (match outcome with
    | .inl next => .inl (next, pass)
    | .inr result => .inr (result, pass))

/-- `render`, with the section tags met on its first pass over the text. -/
def renderPassing (env : σ) (input : InputStream τ) (data : Int → UInt8) :
    Proc (Rendered σ × List (Bracket Bytes)) := do
  let (more, buffer) ← bufferNext fns cb (newBuffer env input data)
  if more then
    let ((result, buffer), pass) ←
      Proc.loop (renderStepPassing fns cb) (buffer, ⟨0, []⟩)
    pure (buffer.rendered result, pass.sections)
  else
    pure ({ (buffer.rendered false) with
      onError := some ("Empty buffer", 0) }, [])

end Engine

section

variable {fns : StreamFns τ} {cb : Callback σ ο τ}
  {buffer start read next : Buffer σ ο τ} {c : UInt8} {cell : Cell Bytes}
  {met : Option (Bracket Bytes × Int)}

theorem tagSection_none (h : sectionOf c = fun _ => none) :
    Returns (tagSection fns cb c start) none := by
  rw [tagSection]
  split
  next hsection =>
    exfalso
    have hname := congrFun h []
    rcases hsection with rfl | rfl | rfl <;> cases hname
  next => exact returns_pure_self _

theorem Buffer.TagAt.sectionAt (htag : buffer.TagAt fns cb c start)
    (h : Returns (tagSection fns cb c start) met) :
    Returns (sectionAt fns cb buffer) met := by
  obtain ⟨hlive, opened, hlook, hopened, hitem, hnext⟩ := htag
  rw [Libcad.sectionAt, hlive, if_neg Bool.false_ne_true, hlook.bind_iff]
  dsimp only
  rw [hopened, Bool.not_true, Bool.or_false, if_neg Bool.false_ne_true,
    hitem.bind_iff, hnext.bind_iff]
  exact h

theorem tagSection_parsed {name : Option NameBlock} {place : Int}
    (hplace : start.index = place + 3)
    (hparse : Returns (parseName fns cb (tagSuffix c)
      (start.goTo (place + tagOffset c))) (name, read)) :
    Returns (tagSection fns cb c start) (name.bind fun name =>
      (sectionOf c name.string).map fun bracket => (bracket, read.index)) := by
  by_cases hsection : c = ascii '#' ∨ c = ascii '^' ∨ c = ascii '/'
  · have hthree : start.goTo (place + 3) = start := by
      rw [← hplace]
      rfl
    have hstart : tagSuffix c = none ∧ tagOffset c = 3 := by
      rcases hsection with rfl | rfl | rfl <;> exact ⟨rfl, rfl⟩
    rw [hstart.1, hstart.2, hthree] at hparse
    rw [tagSection, if_pos hsection]
    exact hparse.bind (returns_pure_self _)
  · have hnone : sectionOf c = fun _ => none := by
      funext name
      simp only [not_or] at hsection
      rw [sectionOf, if_neg hsection.1, if_neg hsection.2.1,
        if_neg hsection.2.2]
    rw [hnone]
    have hsame : (name.bind fun name : NameBlock =>
        ((none : Option (Bracket Bytes)).map fun bracket =>
          (bracket, read.index))) = none := by
      cases name <;> rfl
    rw [hsame]
    exact tagSection_none hnone

theorem ReadsCell.sectionAt (h : ReadsCell fns cb buffer cell read)
    (hd : Delimited buffer) (hmore : bufferEof buffer = false) :
    Returns (sectionAt fns cb buffer)
      (cell.bracket.map fun bracket => (bracket, cell.stop)) := by
  cases h with
  | text hlook hnext =>
      rw [Libcad.sectionAt, hmore, if_neg Bool.false_ne_true, hlook.bind_iff]
      exact returns_pure_self _
  | refused htag hname hparse =>
      obtain ⟨-, -, hplace⟩ := hd.tagAt htag
      exact htag.sectionAt (tagSection_parsed hplace hparse)
  | named htag hname hpartial hparse =>
      obtain ⟨-, -, hplace⟩ := hd.tagAt htag
      exact htag.sectionAt (tagSection_parsed hplace hparse)
  | comment htag hcomment => exact htag.sectionAt (tagSection_none rfl)

/-- Where an iteration returns, so does the observation. -/
theorem sectionAt_returns {o : Buffer σ ο τ ⊕ (Bool × Buffer σ ο τ)}
    (hd : Delimited buffer) (hstep : Returns (renderStep fns cb buffer) o) :
    ∃ met, Returns (sectionAt fns cb buffer) met := by
  rcases renderStep_cases hstep with ⟨hended, -⟩ |
    ⟨hmore, looked, output, r, hlook, -, -⟩ | ⟨c, start, htag⟩ |
    ⟨last, ⟨hmore, opened, hlook, hcut⟩, -⟩
  · rw [sectionAt, if_pos hended]
    exact ⟨none, returns_pure_self _⟩
  · rw [sectionAt, hmore, if_neg Bool.false_ne_true]
    exact ⟨none, hlook.bind (returns_pure_self _)⟩
  · by_cases hname : HasName c
    · obtain ⟨r, htagged, -⟩ := htag.step hstep
      obtain ⟨-, -, hplace⟩ := hd.tagAt htag
      cases renderTag_parses hname hplace htagged with
      | refused hparse =>
          exact ⟨_, htag.sectionAt (tagSection_parsed hplace hparse)⟩
      | named hparse =>
          exact ⟨_, htag.sectionAt (tagSection_parsed hplace hparse)⟩
    · have hother : c = ascii '=' ∨ c = ascii '!' := by
        by_contra hne
        exact hname (not_or.mp hne)
      rcases hother with rfl | rfl
      · exact ⟨none, htag.sectionAt (tagSection_none rfl)⟩
      · exact ⟨none, htag.sectionAt (tagSection_none rfl)⟩
  · rw [sectionAt, hmore, if_neg Bool.false_ne_true]
    refine ⟨none, hlook.bind ?_⟩
    dsimp only
    rcases hcut with ⟨hended, -⟩ | ⟨hopened, ⟨c, hitem⟩, hnext⟩
    · rw [hended]
      exact returns_pure_self _
    · rw [hopened]
      exact hitem.bind (hnext.bind (returns_pure_self _))

end

/-- The open sections, with the places where they were opened. -/
def openBrackets (buffer : Buffer σ ο τ) : List (Bytes × Int) :=
  buffer.loops.map fun loop => (loop.name, loop.bufferIndex)

/-- The walk over the text, of which the pass knows the brackets. -/
structure Surveyed (buffer : Buffer σ ο τ) (pass : Pass) : Prop where
  delimited : Delimited buffer
  valid : buffer.Valid
  le : pass.passed ≤ buffer.fill
  lt : buffer.eof = false → pass.passed < buffer.fill
  walk : ∃ behind ahead,
    Walk behind ahead buffer.index pass.passed (openBrackets buffer) ∧
    pass.sections = bracketsOf (behind ++ ahead) ∧
    (buffer.eof = false →
      ∀ cell ∈ behind ++ ahead, CellAt buffer.data buffer.rejections cell)

section

variable {fns : StreamFns τ} {cb : Callback σ ο τ}
  {buffer start read next : Buffer σ ο τ} {cell : Cell Bytes}
  {cells behind ahead : List (Cell Bytes)} {place passed : Int} {pass : Pass}

theorem Turns.crosses (h : Turns read next cell.bracket) :
    (cell.cross (openBrackets read)).isSome := by
  obtain ⟨first, stop, bracket⟩ := cell
  cases h with
  | stays | opens => rfl
  | closes _ hloops | again _ hloops =>
      rw [openBrackets, hloops, List.map_cons]
      exact Option.isSome_iff_exists.mpr
        ⟨_, Cell.cross_closing.mpr ⟨_, rfl⟩⟩

theorem Walk.turns (h : Walk behind (cell :: ahead) place passed (openBrackets read))
    (hindex : read.index = cell.stop) (hturns : Turns read next cell.bracket) :
    next.index ≤ cell.stop ∧ ∃ behind' ahead',
      behind' ++ ahead' = behind ++ cell :: ahead ∧
      Walk behind' ahead' next.index passed (openBrackets next) := by
  obtain ⟨frames, hcross, hnext⟩ := h.next
  have hcells : behind ++ [cell] ++ ahead = behind ++ cell :: ahead :=
    List.append_assoc _ _ _
  obtain ⟨-, hlt, -⟩ := laid_cons.mp h.before
  obtain ⟨first, stop, bracket⟩ := cell
  dsimp only at hindex hturns hnext hlt ⊢
  cases hturns with
  | stays hplace hloops =>
      have hframes : openBrackets next = openBrackets read := by
        rw [openBrackets, hloops]
        rfl
      cases hcross
      rw [hplace, hindex, hframes]
      exact ⟨Int.le_refl _, _, _, hcells, hnext⟩
  | @opens loop hplace hopened _ hloops =>
      have hframes : openBrackets next =
          (loop.name, stop) :: openBrackets read := by
        rw [openBrackets, hloops, List.map_cons, hopened, hindex]
        rfl
      cases hcross
      rw [hplace, hindex, hframes]
      exact ⟨Int.le_refl _, _, _, hcells, hnext⟩
  | closes hplace hloops hrest =>
      obtain ⟨mark, hframes⟩ := Cell.cross_closing.mp hcross
      rw [openBrackets, hloops, List.map_cons] at hframes
      have hframes' : openBrackets next = frames := by
        rw [openBrackets, hrest]
        exact (List.cons.inj hframes).2
      rw [hplace, hindex, hframes']
      exact ⟨Int.le_refl _, _, _, hcells, hnext⟩
  | @again loop loops hplace hloops hagain =>
      have hframes : openBrackets read =
          (loop.name, loop.bufferIndex) :: openBrackets { read with loops := loops } := by
        rw [openBrackets, hloops]
        rfl
      have hframes' : openBrackets next = openBrackets read := by
        rw [hframes, openBrackets, hagain]
        rfl
      rw [hframes] at h
      obtain ⟨hle, hback⟩ := h.back
      rw [← hframes, ← hframes'] at hback
      rw [hplace]
      exact ⟨Int.le_trans hle (Int.le_of_lt hlt), hback⟩

theorem HasRead.surveyed (h : HasRead buffer cell read)
    (hd : Delimited buffer) (hvalid : buffer.Valid)
    (hacts : Acts read next cell.bracket)
    (hwalk : Walk behind (cell :: ahead) place passed (openBrackets buffer))
    (hle : passed ≤ read.fill) (hlt : read.eof = false → passed < read.fill)
    (hcells : read.eof = false → ∀ part ∈ behind ++ cell :: ahead,
      CellAt read.data read.rejections part) :
    Surveyed next ⟨passed, bracketsOf (behind ++ cell :: ahead)⟩ := by
  obtain ⟨hsame, hturns⟩ := hacts
  have hframes : openBrackets buffer = openBrackets read := by
    rw [openBrackets, openBrackets, h.loops]
  rw [hframes] at hwalk
  obtain ⟨hstop, behind', ahead', hsplit, hwalk'⟩ := hwalk.turns h.index hturns
  have hnonneg := hwalk'.behind.le
  have hindex := h.index
  have hroom := h.room.index_le
  have hcapacity := h.room.index_lt
  have hfill := hsame.fill
  refine ⟨⟨⟨hnonneg, ?_, by omega, ?_, fun hlive => ?_⟩, ?_, ?_⟩, ?_, ?_, ?_,
    behind', ahead', hwalk', by rw [hsplit], ?_⟩
  · rw [hfill, hsame.capacity]
    exact h.room.fill_le
  · rw [hsame.capacity]
    omega
  · have hread := h.room.live (hsame.eof ▸ hlive)
    omega
  · rw [hsame.openDelimiter, h.grows.openDelimiter]
    exact hd.opener
  · rw [hsame.closeDelimiter, h.grows.closeDelimiter]
    exact hd.closer
  · refine hturns.valid fun loop hloop => hvalid loop ?_
    rw [← h.loops]
    exact hloop
  · exact hfill ▸ hle
  · intro hlive
    exact hfill ▸ hlt (hsame.eof ▸ hlive)
  · intro hlive
    rw [hsplit, hsame.data, hsame.rejections]
    exact hcells (hsame.eof ▸ hlive)

theorem renderStep_live (hstep : Returns (renderStep fns cb buffer) (.inl next)) :
    buffer.eof = false := by
  by_contra hended
  rw [Bool.not_eq_false] at hended
  rcases Int.lt_or_le buffer.index buffer.fill with hlt | hle
  · obtain ⟨last, ho⟩ := renderStep_ended hended hlt hstep
    cases ho
  · have hover : bufferEof buffer = true := by
      rw [bufferEof, hended, Bool.true_and, decide_eq_true hle]
    rw [renderStep, if_pos hover] at hstep
    cases returns_pure.mp hstep

theorem Pass.go_cell {bracket : Option (Bracket Bytes)} {stop goal : Int}
    (hle : pass.passed ≤ place) (hgoal : bracket = none → goal = stop) :
    pass.go place (bracket.map fun bracket => (bracket, stop)) goal =
      ⟨stop, pass.sections ++ bracket.toList⟩ := by
  rw [Pass.go.eq_def, if_neg (Int.not_lt.mpr hle)]
  cases bracket with
  | none =>
      rw [hgoal rfl]
      exact congrArg (Pass.mk stop) (List.append_nil _).symm
  | some bracket => rfl

theorem Surveyed.again (h : Surveyed buffer pass) (hlive : buffer.eof = false)
    (hwalk : Walk behind (cell :: ahead) buffer.index pass.passed
      (openBrackets buffer))
    (hsections : pass.sections = bracketsOf (behind ++ cell :: ahead))
    (hcells : ∀ part ∈ behind ++ cell :: ahead,
      CellAt buffer.data buffer.rejections part)
    (hsound : ¬ buffer.ReadsRefused fns cb)
    (hstep : Returns (renderStep fns cb buffer) (.inl next)) :
    Surveyed next pass := by
  obtain ⟨hstart, hlt, hrest⟩ := laid_cons.mp hwalk.before
  have hle := hrest.le
  have hfill := h.lt hlive
  have hcell := hcells cell
    (List.mem_append_right _ (List.mem_cons_self))
  obtain ⟨read, hread⟩ :=
    hcell.reads h.delimited hlive hstart (by omega) hsound hstep
  obtain ⟨read, hread, hacts⟩ := hread.step h.delimited h.valid hstep
  have hdone := hread.hasRead h.delimited
  have hgrows := hdone.grows.fill_le
  obtain ⟨passed, sections⟩ := pass
  cases hsections
  refine hdone.surveyed h.delimited h.valid hacts hwalk ?_ ?_ ?_
  · dsimp only at hfill
    omega
  · intro _
    dsimp only at hfill
    omega
  · intro _ part hpart
    have hstop := (hwalk.behind.append hwalk.before).stop_le part hpart
    refine (hcells part hpart).congr hdone.grows.data hdone.grows.rejections
      (Or.inl ?_)
    exact Int.lt_of_le_of_lt hstop hfill

theorem Surveyed.reads (h : Surveyed buffer pass) (hlive : buffer.eof = false)
    (hwalk : Walk behind [] buffer.index pass.passed (openBrackets buffer))
    (hsections : pass.sections = bracketsOf behind)
    (hcells : ∀ part ∈ behind, CellAt buffer.data buffer.rejections part)
    (hread : ReadsCell fns cb buffer cell read)
    (hstep : Returns (renderStep fns cb buffer) (.inl next)) :
    Surveyed next (pass.go buffer.index
      (cell.bracket.map fun bracket => (bracket, cell.stop)) next.index) := by
  obtain ⟨read, hread, hacts⟩ := hread.step h.delimited h.valid hstep
  have hdone := hread.hasRead h.delimited
  have hframes : openBrackets read = openBrackets buffer := by
    rw [openBrackets, openBrackets, hdone.loops]
  have hcrosses := hacts.2.crosses
  rw [hframes] at hcrosses
  have hahead := hwalk.foresee hdone.start hdone.lt hcrosses
  have hgoal : cell.bracket = none → next.index = cell.stop := by
    intro hnone
    have hturns := hacts.2
    rw [hnone] at hturns
    cases hturns with
    | stays hplace => exact hplace.trans hdone.index
  have hpassed : pass.passed = buffer.index := (laid_nil.mp hwalk.before).symm
  rw [Pass.go_cell (Int.le_of_eq hpassed) hgoal, hsections, ← bracketsOf_concat]
  refine hdone.surveyed h.delimited h.valid hacts hahead ?_ ?_ ?_
  · exact hdone.index ▸ hdone.room.index_le
  · exact fun hmore => hdone.index ▸ hdone.room.live hmore
  · intro hmore part hpart
    rcases List.mem_append.mp hpart with hpart | hpart
    · have hstop := hwalk.behind.stop_le part hpart
      refine (hcells part hpart).congr hdone.grows.data hdone.grows.rejections
        (Or.inl ?_)
      exact Int.lt_of_le_of_lt hstop (h.delimited.room.live hlive)
    · rw [List.mem_singleton.mp hpart]
      exact hread.cellAt h.delimited hmore

/-- The engine includes a partial where it had come to. -/
theorem Surveyed.includes {name : NameBlock} (h : Surveyed buffer pass)
    (hlive : buffer.eof = false)
    (hwalk : Walk behind [] buffer.index pass.passed (openBrackets buffer))
    (hsections : pass.sections = bracketsOf behind)
    (hcells : ∀ part ∈ behind, CellAt buffer.data buffer.rejections part)
    (htag : buffer.TagAt fns cb (ascii '>') start)
    (hparse : Returns (parseName fns cb none start) (some name, read))
    (hincluded : Included buffer.index read next) : Surveyed next pass := by
  obtain ⟨hstart, hroom, -⟩ := h.delimited.tagAt htag
  obtain ⟨hspelt, -⟩ := h.delimited.tagAt_spelt htag fun _ _ => rfl
  have hread := hstart.trans (advances_closed.parseName hparse)
  obtain ⟨hparsed, -⟩ := hasRoom_closed.parseName hparse hroom
  have hbuffer := h.delimited.room
  have hbefore := hbuffer.live hlive
  have hfill := hread.fill_le
  have hcapacity := hparsed.fill_le
  have hnonneg := hbuffer.index_nonneg
  have hnext := hincluded.room hnonneg (by omega) hcapacity (by omega)
  have hframes : openBrackets next = openBrackets buffer := by
    rw [openBrackets, openBrackets, hincluded.loops, hread.loops]
  have hpassed : pass.passed = buffer.index := (laid_nil.mp hwalk.before).symm
  have hbrace : buffer.data buffer.index = ascii '{' :=
    (hstart.data _ hbefore).symm.trans hspelt.1
  rw [← hincluded.index, ← hframes] at hwalk
  refine ⟨⟨hnext, ?_, ?_⟩, ?_, ?_, ?_, behind, [], hwalk, ?_, ?_⟩
  · rw [hincluded.openDelimiter, hread.openDelimiter]
    exact h.delimited.opener
  · rw [hincluded.closeDelimiter, hread.closeDelimiter]
    exact h.delimited.closer
  · intro loop hloop
    rw [hincluded.loops, hread.loops] at hloop
    exact h.valid loop hloop
  · rw [hpassed, ← hincluded.index]
    exact hnext.index_le
  · intro hmore
    rw [hpassed, ← hincluded.index]
    exact hnext.live hmore
  · rw [List.append_nil]
    exact hsections
  · intro _ part hpart
    rw [List.append_nil] at hpart
    have hstop := hwalk.behind.stop_le part hpart
    rw [hincluded.index] at hstop
    have hsame : SameBelow buffer.index buffer.data next.data :=
      (hread.data.mono (Int.le_of_lt hbefore)).trans hincluded.data
    refine (hcells part hpart).congr hsame ?_ ?_
    · rw [hincluded.rejections, hread.rejections]
      exact List.Subset.refl _
    · rcases Int.lt_or_eq_of_le hstop with hlt | heq
      · exact Or.inl hlt
      · exact Or.inr ⟨heq, hbrace⟩

theorem Surveyed.step {met : Option (Bracket Bytes × Int)}
    (h : Surveyed buffer pass)
    (hdelimiters : ∀ start, ¬ buffer.TagAt fns cb (ascii '=') start)
    (hsound : ¬ buffer.ReadsRefused fns cb)
    (hstep : Returns (renderStep fns cb buffer) (.inl next))
    (hmet : Returns (sectionAt fns cb buffer) met) :
    Surveyed next (pass.go buffer.index met next.index) := by
  have hlive := renderStep_live hstep
  have hmore : bufferEof buffer = false := by
    rw [bufferEof, hlive, Bool.false_and]
  obtain ⟨behind, ahead, hwalk, hsections, hcells⟩ := h.walk
  have hcells := hcells hlive
  cases ahead with
  | nil =>
      rw [List.append_nil] at hsections hcells
      have hpassed : buffer.index = pass.passed := laid_nil.mp hwalk.before
      rcases renderStep_reads h.delimited hdelimiters hstep with
        ⟨cell, read, hread⟩ | ⟨start, name, read, htag, hparse, hincluded⟩
      · cases (hread.sectionAt h.delimited hmore).unique hmet
        exact h.reads hlive hwalk hsections hcells hread hstep
      · cases (htag.sectionAt (tagSection_none rfl)).unique hmet
        have hsame : pass.go buffer.index none next.index = pass := by
          rw [Pass.go, if_neg (Int.not_lt.mpr (Int.le_of_eq hpassed.symm)),
            hincluded.index, hpassed]
        rw [hsame]
        exact h.includes hlive hwalk hsections hcells htag hparse hincluded
  | cons cell ahead =>
      obtain ⟨hstart, hlt, hrest⟩ := laid_cons.mp hwalk.before
      have hbehind : buffer.index < pass.passed :=
        Int.lt_of_lt_of_le hlt hrest.le
      rw [Pass.go.eq_def, if_pos hbehind]
      exact h.again hlive hwalk hsections hcells hsound hstep

/-- Only the end of the template ends a rendering well. -/
theorem not_iterated {r : Bool × Buffer σ ο τ} :
    ¬ .inr (true, next) = iterated r := by
  obtain ⟨result, after⟩ := r
  cases result <;> exact nofun

/-- Where the rendering succeeds, what its first pass met is balanced. -/
theorem Surveyed.balanced {met : Option (Bracket Bytes × Int)} {goal : Int}
    {last : Buffer σ ο τ} (h : Surveyed buffer pass)
    (hstep : Returns (renderStep fns cb buffer) (.inr (true, last)))
    (hmet : Returns (sectionAt fns cb buffer) met) (hloops : last.loops = []) :
    Balanced (pass.go buffer.index met goal).sections := by
  obtain ⟨hended, rfl⟩ : bufferEof buffer = true ∧ buffer = last := by
    rcases renderStep_cases hstep with ⟨hended, ho⟩ |
      ⟨-, looked, output, r, -, -, ho⟩ | ⟨c, start, htag⟩ | ⟨last, -, ho⟩
    · cases ho
      exact ⟨hended, rfl⟩
    · exact absurd ho not_iterated
    · obtain ⟨r, -, ho⟩ := htag.step hstep
      exact absurd ho not_iterated
    · cases ho
  obtain ⟨heof, hfill⟩ : buffer.eof = true ∧ buffer.fill ≤ buffer.index := by
    rw [bufferEof, Bool.and_eq_true, decide_eq_true_iff] at hended
    exact hended
  obtain ⟨behind, ahead, hwalk, hsections, -⟩ := h.walk
  cases hwalk.ended (Int.le_trans h.le hfill)
  have hnone : met = none := by
    rw [sectionAt, if_pos hended] at hmet
    exact (returns_pure.mp hmet).symm
  have hsame : (pass.go buffer.index met goal).sections = pass.sections := by
    rw [hnone, Pass.go.eq_def]
    split <;> rfl
  have hframes : openBrackets buffer = [] := by
    rw [openBrackets, hloops]
    rfl
  rw [hframes] at hwalk
  rw [hsame, hsections, List.append_nil]
  exact hwalk.balanced

/-- A new buffer was gone through up to its start. -/
theorem surveyed_start {env : σ} {input : InputStream τ} {data : Int → UInt8}
    (h : Returns (bufferNext fns cb (newBuffer env input data)) (true, next)) :
    Surveyed next ⟨0, []⟩ := by
  have hread := advances_closed.next h
  obtain ⟨hroom, hplace⟩ := newBuffer_room h
  have hloops : next.loops = [] := hread.loops
  refine ⟨⟨hroom, hread.openDelimiter, hread.closeDelimiter⟩, ?_, ?_, ?_,
    [], [], ?_, rfl, ?_⟩
  · intro loop hloop
    rw [hloops] at hloop
    cases hloop
  · exact hplace ▸ hroom.index_le
  · exact fun hlive => hplace ▸ hroom.live hlive
  · rw [hplace, openBrackets, hloops]
    exact walk_start Bytes
  · exact fun _ _ hmem => absurd hmem List.not_mem_nil

/-- The rendering from a state whose text was surveyed. -/
theorem Surveyed.loop {env : σ} {input : InputStream τ} {data : Int → UInt8}
    {r : Bool × Buffer σ ο τ} (h : Surveyed buffer pass)
    (hrendering : Rendering fns cb env input data buffer)
    (hreached : ∀ buffer, Rendering fns cb env input data buffer →
      (∀ start, ¬ buffer.TagAt fns cb (ascii '=') start) ∧
        ¬ buffer.ReadsRefused fns cb)
    (hloop : Returns (renderTemplate fns cb buffer) r) :
    ∃ last, Returns (Proc.loop (renderStepPassing fns cb) (buffer, pass))
        (r, last) ∧
      (r.1 = true → r.2.loops = [] → Balanced last.sections) := by
  refine Returns.loop_induction
    (P := fun (buffer : Buffer σ ο τ) r => ∀ pass, Surveyed buffer pass →
      Rendering fns cb env input data buffer →
      ∃ last, Returns (Proc.loop (renderStepPassing fns cb) (buffer, pass))
          (r, last) ∧
        (r.1 = true → r.2.loops = [] → Balanced last.sections))
    ?_ ?_ hloop pass h hrendering
  · rintro buffer ⟨result, last⟩ hstep pass h -
    obtain ⟨met, hmet⟩ := sectionAt_returns h.delimited hstep
    have hpassing : Returns (renderStepPassing fns cb (buffer, pass)) _ :=
      hmet.bind (hstep.bind (returns_pure_self _))
    refine ⟨_, hpassing.loop_exit, ?_⟩
    rintro rfl hloops
    exact h.balanced hstep hmet hloops
  · intro buffer next r hstep _ ih pass h hrendering
    obtain ⟨met, hmet⟩ := sectionAt_returns h.delimited hstep
    obtain ⟨hdelimiters, hsound⟩ := hreached buffer hrendering
    have hpassing : Returns (renderStepPassing fns cb (buffer, pass)) _ :=
      hmet.bind (hstep.bind (returns_pure_self _))
    obtain ⟨last, hrest, hbalanced⟩ :=
      ih _ (h.step hdelimiters hsound hstep hmet) (hrendering.next hstep)
    exact ⟨last, hpassing.loop_next.mpr hrest, hbalanced⟩

theorem Buffer.rendered_code (result : Bool) (last : Buffer σ ο τ) :
    ((last.rendered result).code = 0 ∧ result = true ∧ last.loops = []) ∨
      (last.rendered result).code = -1 := by
  cases result with
  | false => exact Or.inr rfl
  | true =>
      by_cases hloops : last.loops = []
      · refine Or.inl ⟨?_, rfl, hloops⟩
        rw [Buffer.rendered, if_pos rfl, if_pos hloops]
        rfl
      · refine Or.inr ?_
        rw [Buffer.rendered, if_pos rfl, if_neg hloops]
        rfl

theorem Rendering.rejections_subset {env : σ} {input : InputStream τ}
    {data : Int → UInt8} {r : Rendered σ}
    (h : Rendering fns cb env input data buffer)
    (hr : Returns (render fns cb env input data) r) :
    buffer.rejections ⊆ r.rejections := by
  obtain ⟨result, last, htemplate, rfl⟩ := h.returns hr
  refine Returns.loop_ensures
    (I := fun b : Buffer σ ο τ => buffer.rejections ⊆ b.rejections)
    (Q := fun r : Bool × Buffer σ ο τ => buffer.rejections ⊆ r.2.rejections)
    ?_ (List.Subset.refl _) htemplate
  intro s o hs hstep
  rcases renderStep_step hstep with ⟨-, rfl⟩ | ⟨read, r, hread, hengine, rfl⟩
  · exact hs
  · obtain ⟨result, after⟩ := r
    rw [← hread.rejections] at hs
    have hafter : buffer.rejections ⊆ after.rejections := by
      rcases hengine.rejections with hsame | ⟨suffix, -, hone⟩
      · exact hsame ▸ hs
      · change after.rejections = _ at hone
        rw [hone]
        exact List.Subset.trans hs (List.subset_append_left _ _)
    cases result <;> exact hafter

/-- A template without delimiter tags, in which no tag that was given up is
read when a list repeats it, is balanced or fails. -/
theorem sections_balanced {env : σ} {input : InputStream τ}
    {data : Int → UInt8} {r : Rendered σ}
    (h : Returns (render fns cb env input data) r)
    (hreached : ∀ buffer, Rendering fns cb env input data buffer →
      (∀ start, ¬ buffer.TagAt fns cb (ascii '=') start) ∧
        ¬ buffer.ReadsRefused fns cb) :
    ∃ sections, Returns (renderPassing fns cb env input data) (r, sections) ∧
      (r.code = 0 → Balanced sections) ∧
      (¬ Balanced sections → r.code = -1) := by
  obtain ⟨start, result, last, hnext, htemplate, rfl⟩ := render_returns h
  obtain ⟨pass, hpassing, hbalanced⟩ := (surveyed_start hnext).loop
    ⟨start, hnext, Reaches.refl start⟩ hreached htemplate
  refine ⟨pass.sections, hnext.bind (hpassing.bind (returns_pure_self _)), ?_⟩
  rcases Buffer.rendered_code result last with ⟨-, htrue, hloops⟩ | hcode
  · have hfine := hbalanced htrue hloops
    exact ⟨fun _ => hfine, fun hnot => absurd hfine hnot⟩
  · refine ⟨fun hzero => ?_, fun _ => hcode⟩
    rw [hcode] at hzero
    cases hzero

/-- `{{#l}}{{/l}}.`, where the list has two items. -/
theorem sections_balanced_list :
    ∃ r sections, r.code = 0 ∧
      Returns (renderPassing noStreams pairLists ()
        (newInputStreamFromString (chars "{{#l}}{{/l}}.")) fun _ => 0)
        (r, sections) ∧
      (r.code = 0 → Balanced sections) ∧
      (¬ Balanced sections → r.code = -1) := by
  have hrender : Returns (render noStreams pairLists ()
      (newInputStreamFromString (chars "{{#l}}{{/l}}.")) fun _ => 0) _ :=
    ⟨16, rfl⟩
  have hinput : (newInputStreamFromString (chars "{{#l}}{{/l}}.") :
      InputStream Empty).Delivers noStreams _ :=
    newInputStreamFromString_delivers _ _ (by decide) (by decide)
  have hplain : PlainTags (chars "{{#l}}{{/l}}.") := by decide +kernel
  obtain ⟨sections, hsections⟩ := sections_balanced hrender (by
    intro buffer hbuffer
    constructor
    · exact fun start htag =>
        (hplain.meets hinput.gives hbuffer htag.meets).2 rfl
    · rintro ⟨start, name, after, -, -, rejection, hmem, -⟩
      exact absurd (hbuffer.rejections_subset hrender hmem) List.not_mem_nil)
  exact ⟨_, sections, rfl, hsections⟩

/-- `p` stands for the text `T` and `l` for a list of two items. -/
def rereadAnswers : Answers Empty := fun _ name =>
  if name = chars "l" then .list (some fun n => decide (n < 2)) (some true)
  else if name = chars "p" then .string (some (some (chars "T"))) (some true)
  else .notFound

/-- `{{#l}}{{{a{{>p}}.{{/l}}}.{{/l}}.` has no delimiter tag.  The first item
shows `{{{a` as a text; once the partial is included, the second item takes
the first `{{/l}}` for a part of the name of a raw variable. -/
theorem sections_not_balanced :
    ∃ template : Bytes, ascii '=' ∉ template ∧
      ∃ r sections, Returns (renderPassing noStreams (answering rereadAnswers) []
        (newInputStreamFromString template) fun _ => 0) (r, sections) ∧
      r.code = 0 ∧
      sections = [.opening (chars "l"), .closing (chars "l"),
        .closing (chars "l")] ∧ ¬ Balanced sections := by
  refine ⟨chars "{{#l}}\x7b\x7b\x7ba{{>p}}.{{/l}}\x7d.{{/l}}.", by decide, ?_⟩
  generalize htemplate :
    chars "{{#l}}\x7b\x7b\x7ba{{>p}}.{{/l}}\x7d.{{/l}}." = template
  have hrun : ((renderPassing noStreams (answering rereadAnswers) []
      (newInputStreamFromString template) fun _ => 0).run 60).map
        (fun p => (p.1.code, p.2)) =
      .ok (0, [.opening (chars "l"), .closing (chars "l"),
        .closing (chars "l")]) := by
    rw [← htemplate]
    decide +kernel
  cases hcase : (renderPassing noStreams (answering rereadAnswers) []
      (newInputStreamFromString template) fun _ => 0).run 60 with
  | error e =>
      rw [hcase] at hrun
      cases hrun
  | ok p =>
      rw [hcase] at hrun
      obtain ⟨hcode, hsections⟩ := Prod.mk.inj (Except.ok.inj hrun)
      refine ⟨p.1, p.2, ⟨60, hcase⟩, hcode, hsections, ?_⟩
      rw [hsections]
      decide

end

end Libcad
