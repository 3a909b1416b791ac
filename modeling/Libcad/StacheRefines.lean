/-
The engine refines the token machine: rendering the text of a list of tokens
and running the machine on the list come to the same code and the same output,
for every callback that gives the machine's answers.
-/
import Libcad.StacheReads
import Libcad.StacheRuns
import Libcad.StacheTags

namespace Libcad

open Proc TokenState

variable {σ ο τ : Type}

section

variable {fns : StreamFns τ} {cb : Callback σ ο τ} {answers : Answers τ}
  {R : Session σ ο τ} {inclusions : Inclusions} {t : TokenState}
  {lists : List (OpenList ο)} {held : List (Held ο τ)}
  {buffer : Buffer σ ο τ} {tok : Token}

theorem TagMatch.outcome {r : Bool × Buffer σ ο τ} {o : TokenState ⊕ Verdict}
    (h : TagMatch fns R inclusions r o) :
    SumRel (Related fns R inclusions) Concludes (stepOutcome r) o := by
  cases h with
  | goes h => exact .inl ⟨_, _, h⟩
  | fails => exact .inr ⟨rfl, rfl⟩

theorem Follows.live (h : Follows fns R inclusions t lists held buffer)
    (hlive : t.frontier ≠ t.toks.length) :
    buffer.eof = false ∧ offset t.toks t.pos <
      readAhead (tokenBytes t.toks) 0 (offset t.toks t.frontier) :=
  ⟨h.eof_eq_false hlive, (h.reading.live (h.eof_eq_false hlive)).1⟩

theorem drop_offset_cons (htok : t.toks[t.pos]? = some tok) :
    (tokenBytes t.toks).drop (offset t.toks t.pos) =
      tok.bytes ++ tokenBytes (t.toks.drop (t.pos + 1)) := by
  obtain ⟨hpos, htok⟩ := List.getElem?_eq_some_iff.mp htok
  rw [drop_offset, List.drop_eq_getElem_cons hpos, tokenBytes_cons, htok]

/-- An opening delimiter leads to `render_stache`'s switch. -/
theorem Follows.renderStep_tag (hs : Serves cb answers R)
    (h : Follows fns R inclusions t lists held buffer)
    (hlive : t.frontier ≠ t.toks.length) {next : UInt8} {rest : Bytes}
    (hrest : (tokenBytes t.toks).drop (offset t.toks t.pos) =
      tagOpen ++ next :: rest) (hne : rest ≠ []) :
    ∃ start, Moved fns R lists (tokenBytes t.toks)
        (readAhead (tokenBytes t.toks) 0 (offset t.toks t.frontier))
        (offset t.toks t.pos + 3) buffer start ∧
      start.eof = false ∧
      (tokenBytes t.toks).drop (offset t.toks t.pos + 3) = rest ∧
      ∀ o, Returns (renderStep fns cb buffer) o ↔
        Returns (renderTag fns cb buffer.index next start >>= fun r =>
          pure (stepOutcome r)) o := by
  exact h.reading.renderStep_tag hs.releases (h.live hlive).1 h.openDelimiter
    hrest hne

theorem Follows.read_tag (hs : Serves cb answers R)
    (h : Follows fns R inclusions t lists held buffer)
    (hlive : t.frontier ≠ t.toks.length) (htok : t.toks[t.pos]? = some tok)
    {sigil : UInt8} {name : Bytes} {suffix : Option Bytes}
    (hbytes : tok.bytes = tagOpen ++ sigil :: (name ++ nameEnd suffix))
    (hname : NameValid name)
    (hsuffix : suffix = none ∨ suffix = some [ascii '}']) :
    ∃ start block after,
      Returns (parseName fns cb suffix start) (some block, after) ∧
      block.string = name ∧
      Moved fns R lists (tokenBytes t.toks)
        (readAhead (tokenBytes t.toks) 0 (offset t.toks t.frontier))
        (offset t.toks t.pos + tok.bytes.length) buffer after ∧
      (∀ P, ReadClosed fns cb P → P buffer after) ∧
      ∀ o, Returns (renderStep fns cb buffer) o ↔
        Returns (renderTag fns cb buffer.index sigil start >>= fun r =>
          pure (stepOutcome r)) o := by
  have hrest := drop_offset_cons htok
  rw [hbytes, List.append_assoc, List.cons_append] at hrest
  have hne : name ++ nameEnd suffix ++
      tokenBytes (t.toks.drop (t.pos + 1)) ≠ [] := by
    simp [hname.ne_nil]
  obtain ⟨opened, start, hlook, hnext, hmoved, he, hstart, hstep⟩ :=
    h.reading.opens hs.releases (h.live hlive).1 h.openDelimiter hrest hne
  obtain ⟨held₁, hreading⟩ := hmoved.reading
  have hclose : start.closeDelimiter = tagClose :=
    hmoved.frame.closeDelimiter.trans h.closeDelimiter
  obtain ⟨block, after, hparse, hblock, hmoved'⟩ :=
    hreading.parseName hs.releases hsuffix he hclose hname hstart
  have hreads : ∀ P, ReadClosed fns cb P → P buffer after := fun P hP =>
    hP.trans (hP.lookAt hlook) (hP.trans (hP.next hnext)
      (hP.parseName hparse))
  refine ⟨start, block, after, hparse, hblock, ?_, hreads, hstep⟩
  have hlen : offset t.toks t.pos + tok.bytes.length =
      offset t.toks t.pos + 3 + name.length + (nameEnd suffix).length := by
    rw [hbytes]
    simp [tagOpen]
    omega
  rw [hlen]
  exact hmoved.trans hmoved' (by omega)

/-- A tag and the machine's token agree when the tag's handler does. -/
theorem renderStep_of_tag {next : UInt8} {start : Buffer σ ο τ}
    {y : Proc (TokenState ⊕ Verdict)}
    (hstep : ∀ o, Returns (renderStep fns cb buffer) o ↔
      Returns (renderTag fns cb buffer.index next start >>= fun r =>
        pure (stepOutcome r)) o)
    (htag : Agree (TagMatch fns R inclusions)
      (renderTag fns cb buffer.index next start) y) :
    Agree (SumRel (Related fns R inclusions) Concludes)
      (renderStep fns cb buffer) y :=
  Agree.congr_left hstep (htag.map_left fun _ _ h => h.outcome)

/-- The outcomes of one iteration on both sides. -/
abbrev StepAgrees (fns : StreamFns τ) (cb : Callback σ ο τ)
    (answers : Answers τ) (R : Session σ ο τ) (inclusions : Inclusions)
    (buffer : Buffer σ ο τ) (t : TokenState) : Prop :=
  Agree (SumRel (Related fns R inclusions) Concludes)
    (renderStep fns cb buffer) (t.step fns answers inclusions)

theorem step_raw (hs : Serves cb answers R)
    (h : Follows fns R inclusions t lists held buffer)
    (hlive : t.frontier ≠ t.toks.length) {name : Bytes}
    (htok : t.toks[t.pos]? = some (.raw name)) :
    StepAgrees fns cb answers R inclusions buffer t := by
  have hname : NameValid name := (h.ok _ (List.mem_of_getElem? htok)).valid
  have hbytes : (Token.raw name).bytes =
      tagOpen ++ ascii '{' :: (name ++ nameEnd (some [ascii '}'])) := by
    simp [Token.bytes, nameEnd]
  obtain ⟨start, block, after, hparse, hblock, hmoved, -, hstep⟩ :=
    h.read_tag hs hlive htok hbytes hname (Or.inr rfl)
  obtain ⟨held', hafter⟩ := h.advance hlive htok rfl hmoved
  apply renderStep_of_tag hstep
  rw [step_live htok hlive]
  exact renderVariable_agrees hs hparse hblock hname.ne_nil hafter
    (writeRaw_match _)

theorem step_opening (hs : Serves cb answers R)
    (h : Follows fns R inclusions t lists held buffer)
    (hlive : t.frontier ≠ t.toks.length) {type : LoopType} {name : Bytes}
    (htok : t.toks[t.pos]? = some (.opening type name)) :
    StepAgrees fns cb answers R inclusions buffer t := by
  have hname : NameValid name := (h.ok _ (List.mem_of_getElem? htok)).valid
  have hbytes : (Token.opening type name).bytes =
      tagOpen ++ type.sigil :: (name ++ nameEnd none) := by
    simp [Token.bytes, nameEnd]
  obtain ⟨start, block, after, hparse, hblock, hmoved, -, hstep⟩ :=
    h.read_tag hs hlive htok hbytes hname (Or.inl rfl)
  obtain ⟨held', hafter⟩ := h.advance hlive htok rfl hmoved
  apply renderStep_of_tag hstep
  rw [step_live htok hlive]
  cases type with
  | loopWhile => exact renderLoop_agrees hs .loopWhile hparse hblock hafter
  | loopElse => exact renderLoop_agrees hs .loopElse hparse hblock hafter

theorem step_closing (hs : Serves cb answers R)
    (h : Follows fns R inclusions t lists held buffer)
    (hlive : t.frontier ≠ t.toks.length) {name : Bytes}
    (htok : t.toks[t.pos]? = some (.closing name)) :
    StepAgrees fns cb answers R inclusions buffer t := by
  have hname : NameValid name := (h.ok _ (List.mem_of_getElem? htok)).valid
  have hbytes : (Token.closing name).bytes =
      tagOpen ++ ascii '/' :: (name ++ nameEnd none) := by
    simp [Token.bytes, nameEnd]
  obtain ⟨start, block, after, hparse, hblock, hmoved, -, hstep⟩ :=
    h.read_tag hs hlive htok hbytes hname (Or.inl rfl)
  obtain ⟨held', hafter⟩ := h.advance hlive htok rfl hmoved
  apply renderStep_of_tag hstep
  rw [step_live htok hlive]
  exact renderEnd_agrees hs hparse hblock hafter

/-- A tag without a sigil: the byte after the delimiter belongs to the
name. -/
theorem step_escaped (hs : Serves cb answers R)
    (h : Follows fns R inclusions t lists held buffer)
    (hlive : t.frontier ≠ t.toks.length) {name : Bytes}
    (htok : t.toks[t.pos]? = some (.escaped name)) :
    StepAgrees fns cb answers R inclusions buffer t := by
  obtain ⟨hname, hhead⟩ : NameValid name ∧ ∀ c ∈ name.head?, c ∉ sigils :=
    (h.ok _ (List.mem_of_getElem? htok)).valid
  have hrest := drop_offset_cons htok
  have hbytes : (Token.escaped name).bytes =
      tagOpen ++ (name ++ nameEnd none) := by
    simp [Token.bytes, nameEnd]
  rw [hbytes, List.append_assoc] at hrest
  obtain ⟨start, block, after, hparse, hblock, hmoved, hstep⟩ :=
    h.reading.renderStep_escaped hs.releases (h.live hlive).1 h.openDelimiter
      h.closeDelimiter hname hhead hrest
  have hlen : offset t.toks t.pos + (Token.escaped name).bytes.length =
      offset t.toks t.pos + 2 + name.length + (nameEnd none).length := by
    rw [hbytes]
    simp [tagOpen]
    omega
  obtain ⟨held', hfollows⟩ := h.advance hlive htok rfl (hlen ▸ hmoved)
  have hvariable : Agree (TagMatch fns R inclusions)
      (renderStacheEscape fns cb start)
      (t.advance.exec fns answers inclusions (.escaped name)) :=
    renderVariable_agrees hs hparse hblock hname.ne_nil hfollows
      (writeEscaped_match _)
  rw [StepAgrees, step_live htok hlive]
  exact Agree.congr_left hstep (hvariable.map_left fun _ _ h => h.outcome)

theorem step_comment (hs : Serves cb answers R)
    (h : Follows fns R inclusions t lists held buffer)
    (hlive : t.frontier ≠ t.toks.length) {body : Bytes}
    (htok : t.toks[t.pos]? = some (.comment body)) :
    StepAgrees fns cb answers R inclusions buffer t := by
  obtain ⟨-, hbrace⟩ : (∀ c ∈ body, Readable c) ∧ ascii '}' ∉ body :=
    (h.ok _ (List.mem_of_getElem? htok)).valid
  have hrest := drop_offset_cons htok
  have hbytes : (Token.comment body).bytes =
      tagOpen ++ ascii '!' :: (body ++ tagClose) := by
    simp [Token.bytes]
  rw [hbytes, List.append_assoc, List.cons_append] at hrest
  have hne : body ++ tagClose ++
      tokenBytes (t.toks.drop (t.pos + 1)) ≠ [] := by
    simp [tagClose]
  obtain ⟨start, hmoved, he, hstart, hstep⟩ :=
    h.renderStep_tag hs hlive hrest hne
  obtain ⟨held₁, hreading⟩ := hmoved.reading
  have hclose : start.closeDelimiter = tagClose :=
    hmoved.frame.closeDelimiter.trans h.closeDelimiter
  obtain ⟨after, hcomment, hmoved'⟩ :=
    hreading.renderComment hs.releases body he hclose hbrace hstart
  have hlast := hmoved.trans hmoved' (by omega)
  have hlen : offset t.toks t.pos + 3 + body.length + 2 =
      offset t.toks t.pos + (Token.comment body).bytes.length := by
    rw [hbytes]
    simp [tagOpen, tagClose]
    omega
  rw [hlen] at hlast
  obtain ⟨held', hfollows⟩ := h.advance hlive htok rfl hlast
  apply renderStep_of_tag hstep
  rw [step_live htok hlive]
  have htag : Returns (renderTag fns cb buffer.index (ascii '!') start)
      (true, after) := hcomment
  exact Agree.of_returns htag (.goes hfollows)

theorem TokenState.advance_write (t : TokenState) (text : Bytes) :
    (t.write text).advance = t.advance.write text := by
  have hskips : t.advance.skips = t.skips := rfl
  rw [TokenState.write, TokenState.write, hskips]
  split <;> rfl

theorem step_text (hs : Serves cb answers R)
    (h : Follows fns R inclusions t lists held buffer)
    (hlive : t.frontier ≠ t.toks.length) {c : UInt8}
    (htok : t.toks[t.pos]? = some (.text c)) :
    StepAgrees fns cb answers R inclusions buffer t := by
  obtain ⟨-, hc⟩ : Readable c ∧ c ≠ ascii '{' :=
    (h.ok _ (List.mem_of_getElem? htok)).valid
  have hrest := drop_offset_cons htok
  have hwrite := h.write [c]
  obtain ⟨htoks, hfrontier, hpos, -⟩ := t.write_toks [c]
  have hlive' : (t.write [c]).frontier ≠ (t.write [c]).toks.length := by
    rw [hfrontier, htoks]
    exact hlive
  have htok' : (t.write [c]).toks[(t.write [c]).pos]? = some (.text c) := by
    rw [htoks, hpos]
    exact htok
  obtain ⟨after, hstep, hmoved⟩ := h.reading.renderStep_text hs.releases
    (h.live hlive).1 h.openDelimiter hc hrest
  rw [← htoks, ← hfrontier, ← hpos] at hmoved
  obtain ⟨held', hfollows⟩ := hwrite.advance hlive' htok' rfl hmoved
  have hgoes : SumRel (Related fns R inclusions) Concludes
      (.inl after : Buffer σ ο τ ⊕ (Bool × Buffer σ ο τ))
      (.inl (t.advance.write [c])) := by
    rw [← TokenState.advance_write]
    exact .inl ⟨_, _, hfollows⟩
  rw [StepAgrees, step_live htok hlive]
  exact Agree.of_returns hstep hgoes

theorem Follows.frontier_eq (h : Follows fns R inclusions t lists held buffer)
    (htok : t.toks[t.pos]? = some tok) (hincludes : tok.includes = true) :
    t.frontier = t.pos :=
  TokenState.frontier_eq_of_plain h.pos_le h.plain htok hincludes

theorem Follows.read_inclusion (hs : Serves cb answers R)
    (h : Follows fns R inclusions t lists held buffer)
    (hlive : t.frontier ≠ t.toks.length) {name : Bytes}
    (htok : t.toks[t.pos]? = some (.inclusion name)) :
    ∃ start block after,
      Returns (parseName fns cb none start) (some block, after) ∧
      block.string = name ∧
      Moved fns R lists (tokenBytes t.toks)
        (readAhead (tokenBytes t.toks) 0 (offset t.toks t.frontier))
        (offset t.toks (t.pos + 1)) buffer after ∧
      (∀ P, ReadClosed fns cb P → P buffer after) ∧
      ∀ o, Returns (renderStep fns cb buffer) o ↔
        Returns (renderTag fns cb buffer.index (ascii '>') start >>= fun r =>
          pure (stepOutcome r)) o := by
  have hname : NameValid name := (h.ok _ (List.mem_of_getElem? htok)).valid
  have hbytes : (Token.inclusion name).bytes =
      tagOpen ++ ascii '>' :: (name ++ nameEnd none) := by
    simp [Token.bytes, nameEnd]
  rw [offset_succ htok]
  exact h.read_tag hs hlive htok hbytes hname (Or.inl rfl)

theorem step_inclusion (hs : Serves cb answers R)
    (hprovides : Provides fns answers inclusions)
    (h : Follows fns R inclusions t lists held buffer)
    (hlive : t.frontier ≠ t.toks.length) {name : Bytes}
    (htok : t.toks[t.pos]? = some (.inclusion name)) (hstay : ¬ t.Leaves)
    (hsound : ¬ t.Torn inclusions) :
    StepAgrees fns cb answers R inclusions buffer t := by
  obtain ⟨start, block, after, hparse, hblock, hmoved, -, hstep⟩ :=
    h.read_inclusion hs hlive htok
  have hpos : t.pos < t.toks.length := (List.getElem?_eq_some_iff.mp htok).1
  have hmore : t.pos + 1 < t.toks.length :=
    Nat.lt_of_le_of_ne hpos fun heq => hstay ⟨name, htok, heq⟩
  have hat : AtPartial fns cb R inclusions t lists held name buffer start
      after :=
    ⟨h, htok, h.frontier_eq htok rfl, hmore, ⟨block, hparse, hblock⟩, hmoved⟩
  have hknown := (h.ok _ (List.mem_of_getElem? htok)).known name rfl
  apply renderStep_of_tag hstep
  rw [step_live htok hlive]
  show Agree _ (renderStachePartial fns cb buffer.index start)
    (t.enter (inclusions name))
  cases hinclusion : inclusions name with
  | none =>
      rw [hinclusion] at hknown
      cases hknown
  | some inclusion =>
      cases inclusion with
      | found content =>
          obtain ⟨hdelivers, hcontent⟩ := hprovides.found name content hinclusion
          exact renderPartial_found hs hat hdelivers hcontent
      | missing =>
          have hmissing := hprovides.missing name hinclusion
          have htext : ∃ c, t.toks[t.pos + 1]? = some (.text c) := by
            by_contra hother
            exact hsound ⟨name, htok, hinclusion, hmore,
              fun c hc => hother ⟨c, hc⟩⟩
          obtain ⟨c, hc⟩ := htext
          exact renderPartial_missing hs hat hmissing hc

/-- The opening delimiter cannot be read over when nothing is left to read. -/
theorem lookAt_ended (he : buffer.eof = true) {c : UInt8}
    (hitem : Returns (bufferItem buffer) c) :
    ∃ error, Returns (bufferLookAt fns cb tagOpen buffer)
      (false, { buffer with error := error }) := by
  by_cases hopen : c = ascii '{'
  · have hmatch : Returns (bufferMatch fns cb tagOpen buffer)
        (false, { buffer with error := "Buffer end reached" }) := by
      rw [tagOpen, bufferMatch]
      apply hitem.bind
      rw [if_pos hopen]
      exact (bufferNext_ended he).bind (returns_pure_self _)
    exact ⟨_, hmatch.bind (returns_pure_self _)⟩
  · have hmatch : Returns (bufferMatch fns cb tagOpen buffer)
        (false, buffer) := by
      rw [tagOpen, bufferMatch]
      apply hitem.bind
      rw [if_neg hopen]
      exact returns_pure_self _
    exact ⟨buffer.error, hmatch.bind (returns_pure_self _)⟩

/-- Nothing is read over once everything has been read: a byte is written, and
rendering fails. -/
theorem Reading.renderStep_sticky {v : Bytes} {i f : Nat}
    (h : Reading fns R lists v i f buffer held) (he : buffer.eof = true)
    (hopen : buffer.openDelimiter = tagOpen) (hif : i < f) {c : UInt8}
    {rest : Bytes} (hrest : v.drop i = c :: rest) :
    ∃ error, Returns (renderStep fns cb buffer)
      (.inr (false, { bufferOutput { buffer with error := error } [c] with
        error := "Buffer end reached" })) := by
  have hitem := h.item hif hrest
  have heof : bufferEof buffer = false := by
    have hindex := h.index_eq
    have hfill := h.fill_eq
    have hlt : ¬ buffer.fill ≤ buffer.index := by omega
    rw [bufferEof, decide_eq_false hlt, Bool.and_false]
  obtain ⟨error, hlook⟩ : ∃ error,
      Returns (bufferLookAt fns cb tagOpen buffer)
        (false, { buffer with error := error }) := lookAt_ended he hitem
  rw [← hopen] at hlook
  let buffer' : Buffer σ ο τ := { buffer with error := error }
  have hitem' : Returns (bufferItem buffer') c := hitem
  have he' : (bufferOutput buffer' [c]).eof = true := by
    rw [bufferOutput]
    split <;> exact he
  refine ⟨error, ?_⟩
  rw [renderStep, heof, if_neg Bool.false_ne_true]
  apply hlook.bind
  dsimp only
  rw [if_neg Bool.false_ne_true]
  exact (hitem'.bind (bufferNext_ended he')).bind (returns_pure_self _)

/-- Nothing can be read again once everything has been read. -/
theorem step_sticky (h : Follows fns R inclusions t lists held buffer)
    (hended : t.frontier = t.toks.length)
    (htok : t.toks[t.pos]? = some tok) :
    StepAgrees fns cb answers R inclusions buffer t := by
  have he : buffer.eof = true := by
    rw [h.eof_eq, decide_eq_true hended]
  have hlen := (h.reading.ended he).1
  have hpos : t.pos < t.toks.length := (List.getElem?_eq_some_iff.mp htok).1
  have hif : offset t.toks t.pos <
      readAhead (tokenBytes t.toks) 0 (offset t.toks t.frontier) := by
    rw [hlen, ← offset_length]
    exact offset_lt hpos (Nat.le_refl _)
  have hrest := drop_offset_cons htok
  obtain ⟨c, body, hbytes⟩ := List.exists_cons_of_ne_nil tok.bytes_ne_nil
  rw [hbytes, List.cons_append] at hrest
  obtain ⟨error, hstep⟩ : ∃ error, Returns (renderStep fns cb buffer)
      (.inr (false, { bufferOutput { buffer with error := error } [c] with
        error := "Buffer end reached" })) :=
    h.reading.renderStep_sticky he h.openDelimiter hif hrest
  let buffer' : Buffer σ ο τ := { buffer with error := error }
  have hout : (bufferOutput buffer' [c]).output = (t.write [c]).out := by
    have hskips : bufferSkipOutput buffer' = t.skips := h.skips
    rw [bufferOutput, TokenState.write, hskips]
    split
    · exact h.output_eq
    · exact congrArg (· ++ [c]) h.output_eq
  rw [StepAgrees, TokenState.step, htok]
  dsimp only
  rw [if_pos hended, hbytes]
  exact Agree.of_returns hstep (.inr ⟨rfl, hout⟩)

theorem step_end (h : Follows fns R inclusions t lists held buffer)
    (htok : t.toks[t.pos]? = none) :
    StepAgrees fns cb answers R inclusions buffer t := by
  have hlen := List.getElem?_eq_none_iff.mp htok
  have hle := h.pos_le
  have hfrontier := h.frontier_le
  have hpos : t.pos = t.toks.length := by omega
  have he : buffer.eof = true := by
    rw [h.eof_eq]
    exact decide_eq_true (by omega)
  have heof : bufferEof buffer = true := by
    have hindex := h.reading.index_eq
    have hfill := h.reading.fill_eq
    rw [hpos, offset_length, ← (h.reading.ended he).1] at hindex
    have hge : buffer.fill ≤ buffer.index := by omega
    rw [bufferEof, he, decide_eq_true hge]
    rfl
  have hstep : Returns (renderStep fns cb buffer) (.inr (true, buffer)) := by
    rw [renderStep, if_pos heof]
    exact returns_pure_self _
  have hcode : (buffer.rendered true).code =
      if t.loops.isEmpty then 0 else -1 := by
    have hloops := h.loops
    rw [Buffer.rendered]
    generalize buffer.loops = loops at hloops
    generalize t.loops = ms at hloops
    cases hloops <;> rfl
  rw [StepAgrees, TokenState.step, htok]
  exact Agree.of_returns hstep (.inr ⟨hcode, h.output_eq⟩)

theorem renderStep_agrees (hs : Serves cb answers R)
    (hprovides : Provides fns answers inclusions)
    (h : Follows fns R inclusions t lists held buffer) (hstay : ¬ t.Leaves)
    (hsound : ¬ t.Torn inclusions) :
    StepAgrees fns cb answers R inclusions buffer t := by
  cases htok : t.toks[t.pos]? with
  | none => exact step_end h htok
  | some tok =>
      by_cases hlive : t.frontier = t.toks.length
      · exact step_sticky h hlive htok
      · cases tok with
        | text c => exact step_text hs h hlive htok
        | escaped name => exact step_escaped hs h hlive htok
        | raw name => exact step_raw hs h hlive htok
        | comment body => exact step_comment hs h hlive htok
        | opening type name => exact step_opening hs h hlive htok
        | closing name => exact step_closing hs h hlive htok
        | inclusion name =>
            exact step_inclusion hs hprovides h hlive htok hstay hsound

/-- An inclusion with nothing after it fails, if it returns at all. -/
theorem renderStep_leaves (hs : Serves cb answers R)
    (h : Follows fns R inclusions t lists held buffer)
    (hlive : t.frontier ≠ t.toks.length) (hleaves : t.Leaves)
    {o : Buffer σ ο τ ⊕ (Bool × Buffer σ ο τ)}
    (ho : Returns (renderStep fns cb buffer) o) :
    ∃ b, Returns (t.step fns answers inclusions) b ∧
      SumRel (Related fns R inclusions) Concludes o b := by
  obtain ⟨name, htok, hlast⟩ := hleaves
  obtain ⟨start, block, after, hparse, -, hmoved, -, hstep⟩ :=
    h.read_inclusion hs hlive htok
  have he : after.eof = true := by
    rw [hmoved.eof_eq, hlast, offset_length]
    exact decide_eq_true rfl
  obtain ⟨r, hr, ho⟩ := returns_bind.mp ((hstep o).mp ho)
  obtain ⟨hfalse, hout⟩ := renderPartial_leaves hparse he hr
  have hmachine : Returns (t.step fns answers inclusions) t.failed := by
    rw [step_live htok hlive]
    show Returns (t.enter (inclusions name)) t.failed
    rw [TokenState.enter.eq_def, if_pos hlast]
    exact returns_pure_self _
  refine ⟨t.failed, hmachine, ?_⟩
  rw [← returns_pure.mp ho, stepOutcome, hfalse]
  have hsame := hout.trans (hmoved.frame.output.trans h.output_eq)
  exact .inr ⟨rfl, hsame⟩

/-- The relation between the states of two runs from the start. -/
def RunRelated (fns : StreamFns τ) (answers : Answers τ) (R : Session σ ο τ)
    (inclusions : Inclusions) (toks : List Token) (buffer : Buffer σ ο τ)
    (t : TokenState) : Prop :=
  Related fns R inclusions buffer t ∧
    t.ReachedFrom fns answers inclusions toks

theorem sumRel_reached {toks : List Token}
    {o : Buffer σ ο τ ⊕ (Bool × Buffer σ ο τ)} {b : TokenState ⊕ Verdict}
    (hrel : SumRel (Related fns R inclusions) Concludes o b)
    (hreached : t.ReachedFrom fns answers inclusions toks)
    (hb : Returns (t.step fns answers inclusions) b) :
    SumRel (RunRelated fns answers R inclusions toks) Concludes o b := by
  cases hrel with
  | inl h => exact .inl ⟨h, hreached.trans (Reaches.step hb)⟩
  | inr h => exact .inr h

theorem renderStep_simulates (hs : Serves cb answers R)
    (hprovides : Provides fns answers inclusions) {toks : List Token}
    (hstay : NeverLeaves fns answers inclusions toks)
    (h : RunRelated fns answers R inclusions toks buffer t) :
    Simulates (SumRel (RunRelated fns answers R inclusions toks) Concludes)
      (renderStep fns cb buffer) (t.step fns answers inclusions) := by
  obtain ⟨⟨lists, held, hfollows⟩, hreached⟩ := h
  intro b hb
  by_cases htorn : t.Torn inclusions
  · -- The machine has no step here, so there is nothing to match.
    obtain ⟨name, htok, hmissing, hmore, htext⟩ := htorn
    have hfrontier := hfollows.frontier_eq htok rfl
    have hlive : t.frontier ≠ t.toks.length := by omega
    rw [step_live htok hlive] at hb
    change Returns (t.enter (inclusions name)) b at hb
    rw [TokenState.enter.eq_def, if_neg (by omega), hmissing] at hb
    dsimp only at hb
    split at hb
    · rename_i c hc
      exact absurd hc (htext c)
    · exact absurd hb not_returns_undefined
  · have hagree := renderStep_agrees hs hprovides hfollows (hstay t hreached)
      htorn
    obtain ⟨o, ho, hrel⟩ := hagree.back b hb
    exact ⟨o, ho, sumRel_reached hrel hreached hb⟩

theorem step_simulates (hs : Serves cb answers R)
    (hprovides : Provides fns answers inclusions) {toks : List Token}
    (hsound : NeverTorn fns answers inclusions toks)
    (h : RunRelated fns answers R inclusions toks buffer t) :
    Simulates (SumRel
        (fun t buffer => RunRelated fns answers R inclusions toks buffer t)
        (fun verdict r => Concludes r verdict))
      (t.step fns answers inclusions) (renderStep fns cb buffer) := by
  obtain ⟨⟨lists, held, hfollows⟩, hreached⟩ := h
  intro o ho
  have hforth : ∃ b, Returns (t.step fns answers inclusions) b ∧
      SumRel (Related fns R inclusions) Concludes o b := by
    by_cases hleaves : t.frontier ≠ t.toks.length ∧ t.Leaves
    · exact renderStep_leaves hs hfollows hleaves.1 hleaves.2 ho
    · by_cases hlive : t.frontier = t.toks.length
      · cases htok : t.toks[t.pos]? with
        | none => exact (step_end hfollows htok).forth o ho
        | some tok => exact (step_sticky hfollows hlive htok).forth o ho
      · have hstay : ¬ t.Leaves := fun h => hleaves ⟨hlive, h⟩
        exact (renderStep_agrees hs hprovides hfollows hstay
          (hsound t hreached)).forth o ho
  obtain ⟨b, hb, hrel⟩ := hforth
  refine ⟨b, hb, ?_⟩
  cases sumRel_reached hrel hreached hb with
  | inl h => exact .inl h
  | inr h => exact .inr h

/-- A result of the engine and one of the machine. -/
def SameVerdict (r : Rendered σ) (verdict : Verdict) : Prop :=
  r.code = verdict.code ∧ r.output = verdict.output

theorem newBuffer_follows (hs : Serves cb answers R) {env : σ}
    (hsession : R env [] []) {input : InputStream τ} {toks : List Token}
    (hinput : input.Delivers fns (tokenBytes toks))
    (hok : ∀ tok ∈ toks, TokenOk inclusions tok) (data : Int → UInt8) :
    ∃ buffer, Returns (bufferNext fns cb (newBuffer env input data))
        (true, buffer) ∧
      RunRelated fns answers R inclusions toks buffer
        (TokenState.start toks) := by
  have hpending : Pending fns input ([] : List (StachePartial ο τ)) []
      ((tokenBytes toks).drop 0) := hinput
  obtain ⟨buffer, hnext, hmoved⟩ := bufferNext_fetches hs.releases
    (show R (newBuffer env input data).env [] [] from hsession)
    (show (newBuffer env input data).index + 1 = ((0 : Nat) : Int) from rfl)
    rfl (Nat.zero_le _) (show (0 : Int) ≤ 4096 by decide)
    (show (0 : Int) < 4096 by decide)
    (fun j hj => absurd hj (Nat.not_lt_zero j)) rfl hpending
  obtain ⟨held, hreading⟩ := hmoved.reading
  refine ⟨buffer, hnext, ⟨[], held, ?_⟩, Reaches.refl _⟩
  refine ⟨Nat.le_refl _, Nat.zero_le _, ?_, hok, ?_, hreading, ?_,
    hmoved.frame.output, hmoved.frame.openDelimiter,
    hmoved.frame.closeDelimiter⟩
  · exact fun tok htok => absurd htok List.not_mem_nil
  · rw [hmoved.frame.loops]
    exact .nil
  · rw [hmoved.eof_eq]
    exact decide_eq_decide.mpr (offset_eq_length (Nat.zero_le toks.length))

theorem render_of_start {env : σ} {input : InputStream τ}
    {data : Int → UInt8}
    (hnext : Returns (bufferNext fns cb (newBuffer env input data))
      (true, buffer)) {r : Rendered σ} :
    Returns (render fns cb env input data) r ↔
      ∃ a, Returns (renderTemplate fns cb buffer) a ∧ a.2.rendered a.1 = r := by
  rw [render, hnext.bind_iff]
  dsimp only
  rw [if_pos rfl, returns_bind]
  exact exists_congr fun a => and_congr_right fun _ => returns_pure

/-- What the machine comes to, the engine comes to. -/
theorem render_of_rendered (hs : Serves cb answers R)
    (hprovides : Provides fns answers inclusions) {env : σ}
    (hsession : R env [] []) {input : InputStream τ} {toks : List Token}
    (hinput : input.Delivers fns (tokenBytes toks))
    (hok : ∀ tok ∈ toks, TokenOk inclusions tok) (data : Int → UInt8)
    (hstay : NeverLeaves fns answers inclusions toks) :
    Simulates SameVerdict (render fns cb env input data)
      (TokenState.rendered fns answers inclusions toks) := by
  intro verdict hverdict
  obtain ⟨buffer, hnext, hstart⟩ :=
    newBuffer_follows hs hsession hinput hok data
  obtain ⟨a, ha, hcode, hout⟩ := Simulates.loop
    (fun _ _ h => renderStep_simulates hs hprovides hstay h) hstart verdict
    hverdict
  exact ⟨_, (render_of_start hnext).mpr ⟨a, ha, rfl⟩, hcode, hout⟩

/-- What the engine comes to, the machine comes to. -/
theorem rendered_of_render (hs : Serves cb answers R)
    (hprovides : Provides fns answers inclusions) {env : σ}
    (hsession : R env [] []) {input : InputStream τ} {toks : List Token}
    (hinput : input.Delivers fns (tokenBytes toks))
    (hok : ∀ tok ∈ toks, TokenOk inclusions tok) (data : Int → UInt8)
    (hsound : NeverTorn fns answers inclusions toks) :
    Simulates (fun verdict r => SameVerdict r verdict)
      (TokenState.rendered fns answers inclusions toks)
      (render fns cb env input data) := by
  intro r hr
  obtain ⟨buffer, hnext, hstart⟩ :=
    newBuffer_follows hs hsession hinput hok data
  obtain ⟨a, ha, rfl⟩ := (render_of_start hnext).mp hr
  have hstep := fun t buffer
      (h : RunRelated fns answers R inclusions toks buffer t) =>
    step_simulates hs hprovides hsound h
  obtain ⟨verdict, hverdict, hcode, hout⟩ :=
    Simulates.loop hstep hstart a ha
  exact ⟨verdict, hverdict, hcode, hout⟩

/-- Rendering returns a code and leaves an output. -/
def RendersTo (fns : StreamFns τ) (cb : Callback σ ο τ) (env : σ)
    (input : InputStream τ) (data : Int → UInt8) (verdict : Verdict) : Prop :=
  ∃ r, Returns (render fns cb env input data) r ∧ SameVerdict r verdict

/-- What the engine comes to, the machine comes to. -/
theorem rendered_of_rendersTo (hs : Serves cb answers R)
    (hprovides : Provides fns answers inclusions) {env : σ}
    (hsession : R env [] []) {input : InputStream τ} {toks : List Token}
    (hinput : input.Delivers fns (tokenBytes toks))
    (hok : ∀ tok ∈ toks, TokenOk inclusions tok) {data : Int → UInt8}
    (hsound : NeverTorn fns answers inclusions toks) {verdict : Verdict}
    (h : RendersTo fns cb env input data verdict) :
    Returns (TokenState.rendered fns answers inclusions toks) verdict := by
  obtain ⟨r, hr, hcode, hout⟩ := h
  obtain ⟨verdict', hverdict, hcode', hout'⟩ :=
    rendered_of_render hs hprovides hsession hinput hok data hsound r hr
  have heq : verdict' = verdict := by
    cases verdict
    cases verdict'
    rw [Verdict.mk.injEq]
    exact ⟨hcode'.symm.trans hcode, hout'.symm.trans hout⟩
  exact heq ▸ hverdict

theorem rendersTo_iff (hs : Serves cb answers R)
    (hprovides : Provides fns answers inclusions) {env : σ}
    (hsession : R env [] []) {input : InputStream τ} {toks : List Token}
    (hinput : input.Delivers fns (tokenBytes toks))
    (hok : ∀ tok ∈ toks, TokenOk inclusions tok) (data : Int → UInt8)
    (hstay : NeverLeaves fns answers inclusions toks)
    (hsound : NeverTorn fns answers inclusions toks) (verdict : Verdict) :
    RendersTo fns cb env input data verdict ↔
      Returns (TokenState.rendered fns answers inclusions toks) verdict :=
  ⟨rendered_of_rendersTo hs hprovides hsession hinput hok hsound,
    render_of_rendered hs hprovides hsession hinput hok data hstay verdict⟩

end

end Libcad
