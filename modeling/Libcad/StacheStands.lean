/-
Where the engine stands in a list of tokens, for any callback, and how it
crosses one of them.  The objects of the stacked partials are the only ones
that reading releases.
-/
import Libcad.StacheBounds
import Libcad.StacheRefines
import Libcad.StacheSpacing

namespace Libcad

open Proc

variable {σ ο τ : Type}

/-- The strings and streams of the partials, with what their releases one
after the other come to. -/
def heldBy (cb : Callback σ ο τ) : List (Lookup ο) → σ → List (Held ο τ)
  | .string object :: lookups, env =>
      .string object none ((cb.stringFree object).map fun free => (free env).1)
        :: heldBy cb lookups (callEnv (cb.stringFree object) env)
  | .stream object :: lookups, env =>
      .stream object none ((cb.streamFree object).map fun free => (free env).1)
        :: heldBy cb lookups (callEnv (cb.streamFree object) env)
  | _, _ => []

/-- Only what reading releases is in use. -/
def Unwinds (cb : Callback σ ο τ) : Session σ ο τ :=
  fun env _ held => ∃ lookups, held = heldBy cb lookups env

section

variable {fns : StreamFns τ} {cb : Callback σ ο τ} {toks : List Token}
  {pos frontier : Nat} {buffer before after : Buffer σ ο τ} {tok : Token}

theorem matches_call {β : Type} (f : Option (σ → β × σ)) (env : σ)
    {P : σ → Prop} (h : P (callEnv f env)) :
    Matches f (f.map fun f => (f env).1) env P := by
  cases f with
  | none => trivial
  | some f => exact ⟨rfl, h⟩

theorem unwinds_releases (cb : Callback σ ο τ) :
    Releases cb (Unwinds cb) where
  stringFree := by
    rintro env lists held object get free ⟨lookups, hheld⟩
    cases lookups with
    | nil => cases hheld
    | cons lookup lookups =>
        cases lookup with
        | string object' =>
            cases hheld
            exact matches_call (cb.stringFree object) env ⟨lookups, rfl⟩
        | _ => cases hheld
  streamFree := by
    rintro env lists held object get free ⟨lookups, hheld⟩
    cases lookups with
    | nil => cases hheld
    | cons lookup lookups =>
        cases lookup with
        | stream object' =>
            cases hheld
            exact matches_call (cb.streamFree object) env ⟨lookups, rfl⟩
        | _ => cases hheld

/-- The partials can be released from every state. -/
theorem Pending.under {input : InputStream τ}
    {partials : List (StachePartial ο τ)} :
    ∀ {lookups : List (Lookup ο)} {env₀ : σ} {rest : Bytes},
      Pending fns input partials (heldBy cb lookups env₀) rest →
      ∀ env, Pending fns input partials
        (heldBy cb (partials.map StachePartial.lookup) env) rest := by
  induction partials with
  | nil =>
      intro lookups env₀ rest h env
      generalize heldBy cb lookups env₀ = held at h
      cases held with
      | nil => exact h
      | cons h₀ held => exact h.elim
  | cons part partials ih =>
      intro lookups env₀ rest h env
      obtain ⟨lookup, stream, save⟩ := part
      match lookups, h with
      | .string _ :: lookups, ⟨hrelease, own, tail, hown, hrest, hpending⟩ =>
          cases lookup with
          | string object =>
              obtain ⟨rfl, hfree⟩ := hrelease
              rw [Option.isSome_map] at hfree
              exact ⟨⟨rfl, by rw [Option.isSome_map]; exact hfree⟩, own, tail,
                hown, hrest, ih hpending _⟩
          | _ => exact hrelease.elim
      | .stream _ :: lookups, ⟨hrelease, own, tail, hown, hrest, hpending⟩ =>
          cases lookup with
          | stream object =>
              obtain ⟨rfl, hfree⟩ := hrelease
              rw [Option.isSome_map] at hfree
              exact ⟨⟨rfl, by rw [Option.isSome_map]; exact hfree⟩, own, tail,
                hown, hrest, ih hpending _⟩
          | _ => exact hrelease.elim

/-- The engine stands at a token; what was read is the tokens before the
frontier, and one byte more. -/
structure StandsAt (fns : StreamFns τ) (cb : Callback σ ο τ)
    (toks : List Token) (pos frontier : Nat) (buffer : Buffer σ ο τ) :
    Prop where
  pos_le : pos ≤ frontier
  frontier_le : frontier ≤ toks.length
  reading : ∃ held, Reading fns (Unwinds cb) [] (tokenBytes toks)
    (offset toks pos)
    (readAhead (tokenBytes toks) 0 (offset toks frontier)) buffer held
  eof_eq : buffer.eof = decide (frontier = toks.length)
  openDelimiter : buffer.openDelimiter = tagOpen
  closeDelimiter : buffer.closeDelimiter = tagClose

/-- The engine has gone from one token to the next one. -/
structure Crosses (fns : StreamFns τ) (cb : Callback σ ο τ)
    (toks : List Token) (pos frontier : Nat) (before after : Buffer σ ο τ) :
    Prop where
  stands : StandsAt fns cb toks (pos + 1) (max frontier (pos + 1)) after
  frame : SameFrame before after
  reads : ∀ P, ReadClosed fns cb P → P before after

/-- The fields that are written besides the text. -/
theorem StandsAt.congr (h : StandsAt fns cb toks pos frontier before)
    (hinput : after.input = before.input) (hdata : after.data = before.data)
    (hindex : after.index = before.index) (hfill : after.fill = before.fill)
    (hcapacity : after.capacity = before.capacity)
    (heof : after.eof = before.eof)
    (hpartials : after.partials = before.partials)
    (hopen : after.openDelimiter = before.openDelimiter)
    (hclose : after.closeDelimiter = before.closeDelimiter) :
    StandsAt fns cb toks pos frontier after := by
  obtain ⟨held, hreading⟩ := h.reading
  obtain ⟨lookups, hheld⟩ := hreading.session
  refine ⟨h.pos_le, h.frontier_le,
    ⟨heldBy cb (after.partials.map StachePartial.lookup) after.env,
      ⟨_, rfl⟩, hindex.trans hreading.index_eq,
      hfill.trans hreading.fill_eq, hreading.fill_le,
      hcapacity ▸ hreading.fill_le_capacity, hdata ▸ hreading.data, ?_, ?_⟩,
    heof.trans h.eof_eq, hopen.trans h.openDelimiter,
    hclose.trans h.closeDelimiter⟩
  · intro hlive
    obtain ⟨hlt, hpending⟩ := hreading.live (heof.symm.trans hlive)
    rw [hheld] at hpending
    rw [hinput, hpartials]
    exact ⟨hlt, hpending.under after.env⟩
  · rw [heof]
    exact hreading.ended

/-- The buffer has read on when not everything was read. -/
theorem StandsAt.live (h : StandsAt fns cb toks pos frontier buffer)
    (hlive : frontier ≠ toks.length) : buffer.eof = false := by
  rw [h.eof_eq]
  exact decide_eq_false hlive

theorem StandsAt.index_eq (h : StandsAt fns cb toks pos frontier buffer) :
    buffer.index = offset toks pos := by
  obtain ⟨held, hreading⟩ := h.reading
  exact hreading.index_eq

theorem StandsAt.fill_eq (h : StandsAt fns cb toks pos frontier buffer) :
    buffer.fill = readAhead (tokenBytes toks) 0 (offset toks frontier) := by
  obtain ⟨held, hreading⟩ := h.reading
  exact hreading.fill_eq

theorem drop_offset_getElem (htok : toks[pos]? = some tok) :
    (tokenBytes toks).drop (offset toks pos) =
      tok.bytes ++ tokenBytes (toks.drop (pos + 1)) := by
  obtain ⟨hpos, htok⟩ := List.getElem?_eq_some_iff.mp htok
  rw [drop_offset, List.drop_eq_getElem_cons hpos, tokenBytes_cons, htok]

theorem StandsAt.crosses (h : StandsAt fns cb toks pos frontier before)
    (hlive : frontier ≠ toks.length) (htok : toks[pos]? = some tok)
    (hmoved : Moved fns (Unwinds cb) [] (tokenBytes toks)
      (readAhead (tokenBytes toks) 0 (offset toks frontier))
      (offset toks pos + tok.bytes.length) before after)
    (hreads : ∀ P, ReadClosed fns cb P → P before after) :
    Crosses fns cb toks pos frontier before after := by
  obtain ⟨held', hreading⟩ := hmoved.reading
  have hpos : pos < toks.length := (List.getElem?_eq_some_iff.mp htok).1
  have hfrontier := h.frontier_le
  have hnext : offset toks (pos + 1) =
      offset toks pos + tok.bytes.length := offset_succ htok
  rw [← hnext] at hreading
  refine ⟨⟨Nat.le_max_right _ _, by omega, ⟨held', ?_⟩, ?_, ?_, ?_⟩,
    hmoved.frame, hreads⟩
  · rw [readAhead_max]
    exact hreading
  · rw [hmoved.eof_eq, ← hnext]
    have hiff := @offset_eq_length toks (pos + 1) (by omega)
    have hmax : max frontier (pos + 1) = toks.length ↔
        pos + 1 = toks.length := by
      omega
    exact decide_eq_decide.mpr (hiff.trans hmax.symm)
  · exact hmoved.frame.openDelimiter.trans h.openDelimiter
  · exact hmoved.frame.closeDelimiter.trans h.closeDelimiter

/-- A tag with a sigil is crossed while its name is read. -/
theorem StandsAt.reads_name (h : StandsAt fns cb toks pos frontier buffer)
    (hlive : frontier ≠ toks.length) (htok : toks[pos]? = some tok)
    {sigil : UInt8} {gap name : Bytes} {suffix : Option Bytes}
    (hsuffix : suffix = none ∨ suffix = some [ascii '}'])
    (hbytes : tok.bytes =
      tagOpen ++ sigil :: (gap ++ (name ++ nameEnd suffix)))
    (hgap : Blanks gap) (hname : NameValid name) :
    ∃ start block after,
      Returns (parseName fns cb suffix start) (some block, after) ∧
      block.string = name ∧
      Crosses fns cb toks pos frontier buffer after ∧
      ∀ o, Returns (renderStep fns cb buffer) o ↔
        Returns (renderTag fns cb buffer.index sigil start >>= fun r =>
          pure (stepOutcome r)) o := by
  obtain ⟨held, hreading⟩ := h.reading
  have hr := unwinds_releases cb
  have hrest := drop_offset_getElem htok
  rw [hbytes, List.append_assoc, List.cons_append, List.append_assoc] at hrest
  have hne : gap ++ (name ++ nameEnd suffix ++
      tokenBytes (toks.drop (pos + 1))) ≠ [] := by
    simp [hname.ne_nil]
  obtain ⟨opened, start, hlook, hnext, hmoved, he, hstart, hstep⟩ :=
    hreading.opens hr (h.live hlive) h.openDelimiter hrest hne
  obtain ⟨held₁, hreading₁⟩ := hmoved.reading
  obtain ⟨block, after, hparse, hblock, hmoved'⟩ := hreading₁.parseSpaced hr
    hsuffix he (hmoved.frame.closeDelimiter.trans h.closeDelimiter) hgap hname
    hstart
  have hlen : offset toks pos + 3 + gap.length + name.length +
      (nameEnd suffix).length = offset toks pos + tok.bytes.length := by
    rw [hbytes]
    simp [tagOpen]
    omega
  have hreads : ∀ P, ReadClosed fns cb P → P buffer after := fun P hP =>
    hP.trans (hP.lookAt hlook) (hP.trans (hP.next hnext)
      (hP.parseName hparse))
  have hall := hmoved.trans hmoved' (by omega)
  rw [hlen] at hall
  exact ⟨start, block, after, hparse, hblock,
    h.crosses hlive htok hall hreads, hstep⟩

/-- A tag without a sigil is crossed while its name is read. -/
theorem StandsAt.reads_plain (h : StandsAt fns cb toks pos frontier buffer)
    (hlive : frontier ≠ toks.length) {gap name : Bytes}
    (htok : toks[pos]? = some (.escaped (gap ++ name)))
    (hgap : Blanks gap) (hname : NameValid name)
    (hhead : ∀ c ∈ name.head?, c ∉ sigils) :
    ∃ start block after,
      Returns (parseName fns cb none start) (some block, after) ∧
      block.string = name ∧
      Crosses fns cb toks pos frontier buffer after ∧
      ∀ o, Returns (renderStep fns cb buffer) o ↔
        Returns (renderStacheEscape fns cb start >>= fun r =>
          pure (stepOutcome r)) o := by
  obtain ⟨held, hreading⟩ := h.reading
  have hr := unwinds_releases cb
  let more := name ++ nameEnd none ++ tokenBytes (toks.drop (pos + 1))
  have hrest : (tokenBytes toks).drop (offset toks pos) =
      tagOpen ++ (gap ++ more) := by
    rw [drop_offset_getElem htok]
    simp [Token.bytes, more, nameEnd]
  obtain ⟨next, rest, hnext⟩ : ∃ next rest, gap ++ more = next :: rest :=
    List.exists_cons_of_ne_nil (by simp [more, hname.ne_nil])
  have hsigil : next ∉ sigils := by
    cases gap with
    | nil =>
        obtain ⟨c, text, hcons⟩ := List.exists_cons_of_ne_nil hname.ne_nil
        rw [List.nil_append, show more = c :: (text ++ nameEnd none ++
          tokenBytes (toks.drop (pos + 1))) by simp [more, hcons]] at hnext
        cases hnext
        exact hhead _ (by rw [hcons]; rfl)
    | cons b gap =>
        cases hnext
        exact isBlank_not_sigil (hgap _ List.mem_cons_self)
  have hne : rest ≠ [] := by
    have hlen := congrArg List.length hnext
    simp only [more, nameEnd, tagClose, List.length_append,
      List.length_cons] at hlen
    rintro rfl
    simp only [List.length_nil] at hlen
    omega
  rw [hnext] at hrest
  obtain ⟨opened, start, back, held₁, hlook, hread, rfl, hback, he, hframe,
    hdrop, hstep⟩ := hreading.opensPlain hr (h.live hlive) h.openDelimiter
      hsigil hrest hne
  rw [← hnext] at hdrop
  obtain ⟨block, after, hparse, hblock, hmoved⟩ := hback.parseSpaced hr
    (Or.inl rfl) he (hframe.closeDelimiter.trans h.closeDelimiter) hgap hname
    hdrop
  have hnamed := List.length_pos_iff.mpr hname.ne_nil
  have hlen : offset toks pos + 2 + gap.length + name.length +
      (nameEnd none).length =
      offset toks pos + (Token.escaped (gap ++ name)).bytes.length := by
    simp [Token.bytes, tagOpen, nameEnd]
    omega
  obtain ⟨held₂, hafter⟩ := hmoved.reading
  rw [readAhead_readAhead _ _ (by omega)] at hafter
  have hall : Moved fns (Unwinds cb) [] (tokenBytes toks)
      (readAhead (tokenBytes toks) 0 (offset toks frontier))
      (offset toks pos + (Token.escaped (gap ++ name)).bytes.length)
      buffer after := by
    rw [← hlen]
    exact ⟨⟨held₂, hafter⟩, hmoved.eof_eq, hframe.trans hmoved.frame⟩
  have hindex : start.index - 1 = opened.index := by
    rw [(bufferNext_more hread).2]
    omega
  have hreads : ∀ P, ReadClosed fns cb P → P buffer after := by
    intro P hP
    have hback := hP.back (hP.next hread)
    rw [← hindex] at hback
    exact hP.trans (hP.lookAt hlook) (hP.trans hback (hP.parseName hparse))
  exact ⟨_, block, after, hparse, hblock, h.crosses hlive htok hall hreads,
    hstep⟩

theorem StandsAt.reads_comment (h : StandsAt fns cb toks pos frontier buffer)
    (hlive : frontier ≠ toks.length) {body : Bytes}
    (htok : toks[pos]? = some (.comment body)) (hbrace : ascii '}' ∉ body) :
    ∃ after, Returns (renderStep fns cb buffer) (.inl after) ∧
      Crosses fns cb toks pos frontier buffer after := by
  obtain ⟨held, hreading⟩ := h.reading
  have hr := unwinds_releases cb
  have hrest := drop_offset_getElem htok
  have hbytes : (Token.comment body).bytes =
      tagOpen ++ ascii '!' :: (body ++ tagClose) := by
    simp [Token.bytes]
  rw [hbytes, List.append_assoc, List.cons_append] at hrest
  have hne : body ++ tagClose ++ tokenBytes (toks.drop (pos + 1)) ≠ [] := by
    simp [tagClose]
  obtain ⟨opened, start, hlook, hnext, hmoved, he, hstart, hstep⟩ :=
    hreading.opens hr (h.live hlive) h.openDelimiter hrest hne
  obtain ⟨held₁, hreading₁⟩ := hmoved.reading
  obtain ⟨after, hcomment, hmoved'⟩ := hreading₁.renderComment hr body he
    (hmoved.frame.closeDelimiter.trans h.closeDelimiter) hbrace hstart
  have hlen : offset toks pos + 3 + body.length + 2 =
      offset toks pos + (Token.comment body).bytes.length := by
    rw [hbytes]
    simp [tagOpen, tagClose]
    omega
  have hall := hmoved.trans hmoved' (by omega)
  rw [hlen] at hall
  have hreads : ∀ P, ReadClosed fns cb P → P buffer after := fun P hP =>
    hP.trans (hP.lookAt hlook) (hP.trans (hP.next hnext)
      (hP.comment hcomment))
  have htag : Returns (renderTag fns cb buffer.index (ascii '!') start)
      (true, after) := hcomment
  exact ⟨after, (hstep _).mpr (htag.bind (returns_pure_self _)),
    h.crosses hlive htok hall hreads⟩

theorem bufferOutput_fields (buffer : Buffer σ ο τ) (text : Bytes) :
    bufferOutput buffer text =
      { buffer with output := (bufferOutput buffer text).output } := by
  obtain ⟨output, h⟩ := bufferOutput_only buffer text
  rw [h]

theorem StandsAt.output (h : StandsAt fns cb toks pos frontier buffer)
    (text : Bytes) :
    StandsAt fns cb toks pos frontier (bufferOutput buffer text) := by
  rw [bufferOutput_fields]
  exact h.congr rfl rfl rfl rfl rfl rfl rfl rfl rfl

theorem StandsAt.reads_text (h : StandsAt fns cb toks pos frontier buffer)
    (hlive : frontier ≠ toks.length) {c : UInt8}
    (htok : toks[pos]? = some (.text c)) (hc : c ≠ ascii '{') :
    ∃ after, Returns (renderStep fns cb buffer) (.inl after) ∧
      Crosses fns cb toks pos frontier (bufferOutput buffer [c]) after := by
  obtain ⟨held, hreading⟩ := h.reading
  obtain ⟨after, hnext, hstep, hmoved⟩ := hreading.writes
    (unwinds_releases cb) (h.live hlive) h.openDelimiter hc
    (drop_offset_getElem htok)
  exact ⟨after, hstep, (h.output [c]).crosses hlive htok hmoved
    fun P hP => hP.next hnext⟩

theorem StandsAt.reads_end (h : StandsAt fns cb toks pos frontier buffer)
    (hend : pos = toks.length) :
    Returns (renderStep fns cb buffer) (.inr (true, buffer)) := by
  have hle := h.pos_le
  have hfrontier := h.frontier_le
  have he : buffer.eof = true := by
    rw [h.eof_eq]
    exact decide_eq_true (by omega)
  obtain ⟨held, hreading⟩ := h.reading
  have hindex := hreading.index_eq
  have hfill := hreading.fill_eq
  rw [hend, offset_length, ← (hreading.ended he).1] at hindex
  have hge : buffer.fill ≤ buffer.index := by omega
  rw [renderStep, bufferEof, he, decide_eq_true hge]
  exact returns_pure_self _

/-- Before the last token rendering fails once everything has been read. -/
theorem StandsAt.sticks (h : StandsAt fns cb toks pos frontier buffer)
    (hended : frontier = toks.length) (htok : toks[pos]? = some tok)
    {c : UInt8} {rest : Bytes} (hbytes : tok.bytes = c :: rest) :
    ∃ error, Returns (renderStep fns cb buffer)
      (.inr (false, { bufferOutput { buffer with error := error } [c] with
        error := "Buffer end reached" })) := by
  have he : buffer.eof = true := by
    rw [h.eof_eq, decide_eq_true hended]
  obtain ⟨held, hreading⟩ := h.reading
  have hlen := (hreading.ended he).1
  have hpos : pos < toks.length := (List.getElem?_eq_some_iff.mp htok).1
  have hif : offset toks pos <
      readAhead (tokenBytes toks) 0 (offset toks frontier) := by
    rw [hlen, ← offset_length]
    exact offset_lt hpos (Nat.le_refl _)
  have hrest := drop_offset_getElem htok
  rw [hbytes, List.cons_append] at hrest
  exact hreading.renderStep_sticky he h.openDelimiter hif hrest

/-- The buffer as a partial tag leaves it: all that was read from the tag on is
dropped, and nothing else has changed but the partials and the state behind
the callback. -/
structure Dropped (place : Nat) (after before : Buffer σ ο τ) : Prop where
  data : before.data = after.data
  index : before.index = (place : Int) - 1
  fill : before.fill = place
  capacity : before.capacity = after.capacity
  eof : before.eof = after.eof
  frame : SameFrame after before

/-- The next byte is read after what was before the tag. -/
theorem StandsAt.resumes
    (h : StandsAt fns cb toks (pos + 1) (pos + 1) after)
    (hlive : pos + 1 ≠ toks.length)
    (hdropped : Dropped (offset toks pos) after before)
    {lookups : List (Lookup ο)} {rest : Bytes}
    (hpending : Pending fns before.input before.partials
      (heldBy cb lookups before.env) rest) :
    ∃ last, Returns (bufferNext fns cb before) (true, last) ∧
      Moved fns (Unwinds cb) []
        ((tokenBytes toks).take (offset toks pos) ++ rest) (offset toks pos)
        (offset toks pos) before last := by
  obtain ⟨held, hreading⟩ := h.reading
  have hmono := offset_mono toks h.frontier_le
  rw [offset_length] at hmono
  have hle := offset_le_succ toks pos
  have hread : offset toks pos + 1 ≤
      readAhead (tokenBytes toks) 0 (offset toks (pos + 1)) := by
    have hlt := offset_lt (Nat.lt_add_one pos) h.frontier_le
    rw [readAhead]
    omega
  have htaken : ((tokenBytes toks).take (offset toks pos)).length =
      offset toks pos := List.length_take_of_le (by omega)
  have hcap := hreading.fill_le_capacity
  refine bufferNext_fetches (unwinds_releases cb)
    (show Unwinds cb before.env [] _ from ⟨lookups, rfl⟩)
    (by rw [hdropped.index]; omega) hdropped.fill
    (by rw [List.length_append]; omega) (by rw [hdropped.capacity]; omega)
    (by rw [hdropped.capacity]; omega) ?_
    (hdropped.eof.trans (h.live hlive)) ?_
  · intro j hj
    rw [hdropped.data, ← hreading.data j (by omega),
      List.getElem?_append_left (by omega), List.getElem?_take_of_lt hj]
  · rw [List.drop_left' htaken]
    exact hpending

/-- Reading goes on with other tokens in the place of a tag. -/
theorem StandsAt.resume {toks' : List Token}
    (h : StandsAt fns cb toks (pos + 1) (pos + 1) after)
    (hlive : pos + 1 ≠ toks.length)
    (hdropped : Dropped (offset toks pos) after before)
    (htake : toks'.take pos = toks.take pos) (hlen : pos ≤ toks'.length)
    {lookups : List (Lookup ο)}
    (hpending : Pending fns before.input before.partials
      (heldBy cb lookups before.env) (tokenBytes (toks'.drop pos))) :
    ∃ last, Returns (bufferNext fns cb before) (true, last) ∧
      StandsAt fns cb toks' pos pos last ∧ SameFrame before last := by
  obtain ⟨last, hnext, hmoved⟩ := h.resumes hlive hdropped hpending
  have hoffset : offset toks' pos = offset toks pos := by
    rw [offset, offset, htake]
  have htext : (tokenBytes toks).take (offset toks pos) ++
      tokenBytes (toks'.drop pos) = tokenBytes toks' := by
    rw [take_offset, ← htake, tokenBytes_take_drop]
  rw [htext, ← hoffset] at hmoved
  obtain ⟨held', hlast⟩ := hmoved.reading
  have hmono := offset_mono toks' hlen
  rw [offset_length] at hmono
  have hahead : readAhead (tokenBytes toks') (offset toks' pos)
      (offset toks' pos) =
      readAhead (tokenBytes toks') 0 (offset toks' pos) := by
    rw [readAhead, readAhead]
    omega
  rw [hahead] at hlast
  have hframe := hdropped.frame.trans hmoved.frame
  refine ⟨last, hnext, ⟨Nat.le_refl _, hlen, ⟨held', hlast⟩, ?_, ?_, ?_⟩,
    hmoved.frame⟩
  · rw [hmoved.eof_eq]
    exact decide_eq_decide.mpr (offset_eq_length hlen)
  · exact hframe.openDelimiter.trans h.openDelimiter
  · exact hframe.closeDelimiter.trans h.closeDelimiter

/-- The engine goes back to a token before the frontier. -/
theorem StandsAt.rewind {mark : Nat}
    (h : StandsAt fns cb toks pos frontier buffer) (hmark : mark ≤ frontier) :
    StandsAt fns cb toks mark frontier
      { buffer with index := offset toks mark } := by
  obtain ⟨held, hreading⟩ := h.reading
  have hmono := offset_mono toks hmark
  have hend := offset_mono toks h.frontier_le
  rw [offset_length] at hend
  refine ⟨hmark, h.frontier_le, ⟨held, hreading.session, rfl,
    hreading.fill_eq, hreading.fill_le, hreading.fill_le_capacity,
    hreading.data, ?_, ?_⟩, h.eof_eq, h.openDelimiter, h.closeDelimiter⟩
  · intro he
    obtain ⟨-, hpending⟩ := hreading.live he
    have hlive : frontier ≠ toks.length := by
      intro hlast
      have heof := h.eof_eq
      rw [show buffer.eof = false from he, hlast, decide_eq_true rfl] at heof
      cases heof
    have hlt := offset_lt (Nat.lt_of_le_of_ne h.frontier_le hlive)
      (Nat.le_refl _)
    rw [offset_length] at hlt
    refine ⟨?_, hpending⟩
    rw [readAhead]
    omega
  · intro he
    obtain ⟨hfill, -⟩ := hreading.ended he
    refine ⟨hfill, ?_⟩
    rw [hfill]
    omega

/-- The buffer stands inside its block, at a byte it has read or at the end. -/
structure HasRoom (buffer : Buffer σ ο τ) : Prop where
  index_nonneg : 0 ≤ buffer.index
  fill_le : buffer.fill ≤ buffer.capacity
  index_le : buffer.index ≤ buffer.fill
  index_lt : buffer.index < buffer.capacity
  live : buffer.eof = false → buffer.index < buffer.fill

theorem bufferFetch_place (h : Returns (bufferFetch fns cb buffer) after) :
    after.capacity = buffer.capacity ∧ after.index = buffer.index ∧
      (after.fill = buffer.fill + 1 ∨
        after.fill = buffer.fill ∧ after.eof = true) := by
  rw [bufferFetch] at h
  split at h
  next =>
    cases returns_pure.mp h
    rw [bufferRead]
    dsimp only
    split
    next => exact ⟨rfl, rfl, Or.inr ⟨rfl, rfl⟩⟩
    next => exact ⟨rfl, rfl, Or.inl rfl⟩
  next part partials hpartials =>
    obtain ⟨lookup, stream, save⟩ := part
    rw [bufferReadPartial] at h
    dsimp only at h
    split at h
    next =>
      cases lookup with
      | string resolved | stream resolved =>
          obtain ⟨⟨freed, called⟩, hcall, h⟩ := returns_bind.mp h
          cases returns_pure.mp h
          obtain ⟨free, -, -, rfl⟩ := call_returns_some hcall
          exact ⟨rfl, rfl, Or.inl rfl⟩
      | notFound | list resolved | invalid =>
          cases returns_pure.mp h
          exact ⟨rfl, rfl, Or.inl rfl⟩
    next =>
      cases returns_pure.mp h
      exact ⟨rfl, rfl, Or.inl rfl⟩

theorem bufferNext_room {more : Bool} (hlive : buffer.eof = false)
    (hpos : 0 < buffer.capacity) (hnonneg : 0 ≤ buffer.index + 1)
    (hfill : buffer.fill ≤ buffer.capacity)
    (hle : buffer.index + 1 ≤ buffer.fill)
    (h : Returns (bufferNext fns cb buffer) (more, after)) :
    HasRoom after ∧ after.index = buffer.index + 1 := by
  rw [bufferNext, if_neg (Bool.not_eq_true _ ▸ hlive)] at h
  dsimp only at h
  split at h
  next hlast =>
    obtain ⟨read, hfetch, h⟩ := returns_bind.mp h
    cases returns_pure.mp h
    obtain ⟨capacity, hgrow, hroom⟩ := @Buffer.grow_eq σ ο τ
      { buffer with index := buffer.index + 1 } hfill hpos
    rw [hgrow] at hfetch
    obtain ⟨hcap, hat, hplace⟩ := bufferFetch_place hfetch
    dsimp only at hcap hat hplace hroom
    rcases hplace with hput | ⟨hsame, heof⟩
    · exact ⟨⟨by omega, by omega, by omega, by omega, fun _ => by omega⟩, hat⟩
    · refine ⟨⟨by omega, by omega, by omega, by omega, fun he => ?_⟩, hat⟩
      rw [heof] at he
      cases he
  next hmore =>
    cases returns_pure.mp h
    refine ⟨⟨?_, hfill, ?_, ?_, fun _ => ?_⟩, rfl⟩
    all_goals
      dsimp only
      omega

theorem newBuffer_capacity_pos (env : σ) (input : InputStream τ)
    (data : Int → UInt8) :
    0 < (newBuffer env input data : Buffer σ ο τ).capacity := by
  change (0 : Int) < 4096
  decide

theorem newBuffer_room {more : Bool} {env : σ} {input : InputStream τ}
    {data : Int → UInt8}
    (h : Returns (bufferNext fns cb (newBuffer env input data)) (more, after)) :
    HasRoom after ∧ after.index = 0 := by
  have hpos := newBuffer_capacity_pos (ο := ο) env input data
  exact bufferNext_room rfl hpos (Int.le_refl 0) (Int.le_of_lt hpos)
    (Int.le_refl 0) h

theorem HasRoom.next {more : Bool} (hroom : HasRoom buffer)
    (h : Returns (bufferNext fns cb buffer) (more, after)) :
    HasRoom after ∧ buffer.index ≤ after.index := by
  have hnonneg := hroom.index_nonneg
  cases heof : buffer.eof with
  | true =>
      rw [bufferNext, if_pos heof] at h
      cases returns_pure.mp h
      exact ⟨⟨hnonneg, hroom.fill_le, hroom.index_le, hroom.index_lt,
        hroom.live⟩, Int.le_refl _⟩
  | false =>
      have hlt := hroom.index_lt
      have hread := hroom.live heof
      obtain ⟨hafter, hindex⟩ :=
        bufferNext_room heof (by omega) (by omega) hroom.fill_le (by omega) h
      exact ⟨hafter, by omega⟩

theorem hasRoom_closed : ReadClosed fns cb fun before after =>
    HasRoom before → HasRoom after ∧ before.index ≤ after.index where
  refl _ h := ⟨h, Int.le_refl _⟩
  trans := by
    intro a b c hab hbc ha
    obtain ⟨hb, hle⟩ := hab ha
    obtain ⟨hc, hle'⟩ := hbc hb
    exact ⟨hc, Int.le_trans hle hle'⟩
  next h hbefore := hbefore.next h
  back := by
    intro before after h hbefore
    obtain ⟨hafter, hle⟩ := h hbefore
    refine ⟨⟨hbefore.index_nonneg, hafter.fill_le,
      Int.le_trans hle hafter.index_le,
      Int.lt_of_le_of_lt hle hafter.index_lt, fun he => ?_⟩, Int.le_refl _⟩
    exact Int.lt_of_le_of_lt hle (hafter.live he)

/-- A byte can be looked at wherever there is room. -/
theorem HasRoom.item (h : HasRoom buffer) :
    ∃ c, Returns (bufferItem buffer) c := by
  rw [bufferItem, if_pos ⟨h.index_nonneg, h.index_lt⟩]
  exact ⟨_, returns_pure_self _⟩

theorem StandsAt.hasRoom (h : StandsAt fns cb toks pos frontier buffer)
    (hlive : frontier ≠ toks.length) : HasRoom buffer := by
  obtain ⟨held, hreading⟩ := h.reading
  have hindex := hreading.index_eq
  have hfill := hreading.fill_eq
  have hcap := hreading.fill_le_capacity
  obtain ⟨hlt, -⟩ := hreading.live (h.live hlive)
  exact ⟨by omega, by omega, by omega, by omega, fun _ => by omega⟩

end

end Libcad
