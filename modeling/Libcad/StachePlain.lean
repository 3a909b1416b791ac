/-
Templates without partial and delimiter tags.  As nothing is included and the
delimiters stay, the buffer holds the beginning of the template, so that no tag
is met that is not in its text.
-/
import Libcad.StacheSections
import Libcad.StacheTerminates

namespace Libcad

open Proc

variable {σ ο τ : Type}

/-- The text holds no partial tag and no delimiter tag. -/
def PlainTags (text : Bytes) : Prop :=
  ¬ tagOpen ++ [ascii '>'] <:+: text ∧ ¬ tagOpen ++ [ascii '='] <:+: text

instance (text : Bytes) : Decidable (PlainTags text) :=
  inferInstanceAs (Decidable (_ ∧ _))

/-- The buffer holds the beginning of the text, and the input the rest of it,
until it ends. -/
structure Carries (fns : StreamFns τ) (text : Bytes)
    (buffer : Buffer σ ο τ) : Prop where
  partials : buffer.partials = []
  fill_nonneg : 0 ≤ buffer.fill
  data : ∀ place : Nat, (place : Int) < buffer.fill →
    text[place]? = some (buffer.data place)
  rest : buffer.eof = false →
    buffer.input.Gives fns (text.drop buffer.fill.toNat)

/-- What holds before every iteration over a text with plain tags. -/
structure Undisturbed (fns : StreamFns τ) (size : Int) (text : Bytes)
    (buffer : Buffer σ ο τ) : Prop where
  sectioned : Sectioned fns size buffer
  opener : buffer.openDelimiter = tagOpen
  closer : buffer.closeDelimiter = tagClose
  valid : buffer.Valid
  carries : Carries fns text buffer

section

variable {fns : StreamFns τ} {cb : Callback σ ο τ} {size : Int} {text : Bytes}
  {buffer before after last : Buffer σ ο τ} {cell : Cell Bytes} {c : UInt8}

theorem Carries.put (h : Carries fns text buffer)
    (hitem : buffer.input.item fns ≠ eof) (hlive : buffer.eof = false) :
    Carries fns text (bufferRead fns buffer) := by
  obtain ⟨f, hf⟩ := Int.eq_ofNat_of_zero_le h.fill_nonneg
  have hgives := h.rest hlive
  rw [hf, Int.toNat_natCast] at hgives
  rw [bufferRead, if_neg hitem]
  cases hrest : text.drop f with
  | nil =>
      rw [hrest] at hgives
      exact absurd hgives hitem
  | cons c rest =>
      rw [hrest] at hgives
      obtain ⟨-, hc, hmore⟩ := hgives
      have hnext : text.drop (f + 1) = rest := by
        rw [← List.tail_drop, hrest]
        rfl
      refine ⟨h.partials, ?_, ?_, ?_⟩
      · exact Int.le_trans h.fill_nonneg (Int.le_of_lt (Int.lt_succ _))
      · intro place hplace
        dsimp only [Buffer.put] at hplace ⊢
        rw [hf, hc]
        refine put_data (fun j hj => ?_) hrest place (by omega)
        exact h.data j (by omega)
      · intro he
        have hzero : (buffer.input.next fns).1 = 0 := by
          simpa using he
        rw [if_pos hzero] at hmore
        dsimp only [Buffer.put]
        rw [hf, ← Int.natCast_succ, Int.toNat_natCast, hnext]
        exact hmore

theorem Carries.next {more : Bool} (h : Carries fns text before)
    (hnext : Returns (bufferNext fns cb before) (more, after)) :
    Carries fns text after := by
  rw [bufferNext] at hnext
  split at hnext
  next =>
    cases returns_pure.mp hnext
    exact ⟨h.partials, h.fill_nonneg, h.data, h.rest⟩
  next hlive =>
    dsimp only at hnext
    split at hnext
    next =>
      obtain ⟨capacity, hgrow⟩ := Buffer.grow_step
        { before with index := before.index + 1 }
      have hgrown : Carries fns text { before with
          index := before.index + 1, capacity := capacity } :=
        ⟨h.partials, h.fill_nonneg, h.data, h.rest⟩
      rw [hgrow, bufferFetch_nil hgrown.partials] at hnext
      obtain ⟨read, hread, hnext⟩ := returns_bind.mp hnext
      cases returns_pure.mp hread
      cases returns_pure.mp hnext
      by_cases hitem : before.input.item fns = eof
      · rw [bufferRead, if_pos hitem]
        refine ⟨h.partials, h.fill_nonneg, h.data, fun hlive => ?_⟩
        cases hlive
      · exact hgrown.put hitem (by simpa using hlive)
    next =>
      cases returns_pure.mp hnext
      exact ⟨h.partials, h.fill_nonneg, h.data, h.rest⟩

theorem carries_closed : ReadClosed fns cb fun before after =>
    Carries fns text before → Carries fns text after where
  refl _ h := h
  trans hab hbc h := hbc (hab h)
  next hnext h := h.next hnext
  back hread h :=
    have hafter := hread h
    ⟨hafter.partials, hafter.fill_nonneg, hafter.data, hafter.rest⟩

theorem Buffer.TagAt.carries (htag : buffer.TagAt fns cb c before)
    (h : Carries fns text buffer) (place : Int) :
    Carries fns text (before.goTo place) := by
  obtain ⟨-, opened, hlook, -, -, hnext⟩ := htag
  have hread := carries_closed.next hnext (carries_closed.lookAt hlook h)
  exact ⟨hread.partials, hread.fill_nonneg, hread.data, hread.rest⟩

theorem ReadsCell.carries (hread : ReadsCell fns cb buffer cell after)
    (h : Carries fns text buffer) : Carries fns text after := by
  cases hread with
  | @text looked _ output hlook hnext =>
      have hlooked := carries_closed.lookAt hlook h
      have hwritten : Carries fns text
          { looked with output := output } :=
        ⟨hlooked.partials, hlooked.fill_nonneg, hlooked.data, hlooked.rest⟩
      exact hwritten.next hnext
  | refused htag _ hparse =>
      obtain ⟨start, hskip, hparse⟩ := returns_bind.mp hparse
      obtain ⟨⟨result, read⟩, hloop, hparse⟩ := returns_bind.mp hparse
      have hread := carries_closed.parseLoop hskip hloop (htag.carries h _)
      cases result with
      | some name => cases returns_pure.mp hparse
      | none =>
          cases returns_pure.mp hparse
          exact ⟨hread.partials, hread.fill_nonneg, hread.data, hread.rest⟩
  | named htag _ _ hparse =>
      exact carries_closed.parseName hparse (htag.carries h _)
  | @comment start _ htag hcomment =>
      exact carries_closed.comment hcomment (htag.carries h start.index)

/-- What stands in the buffer is a part of the text. -/
theorem Carries.spelt {word : Bytes} (h : Carries fns text buffer) :
    ∀ {place : Nat}, Spelt buffer.data place word →
      (place + word.length : Int) ≤ buffer.fill →
      word <+: text.drop place := by
  induction word with
  | nil => exact fun _ _ => List.nil_prefix
  | cons c word ih =>
      intro place hspelt hle
      obtain ⟨hc, hspelt⟩ := hspelt
      rw [List.length_cons] at hle
      have hget := h.data place (by omega)
      rw [hc] at hget
      obtain ⟨hlt, hc⟩ := List.getElem?_eq_some_iff.mp hget
      rw [List.drop_eq_getElem_cons hlt, hc]
      exact List.cons_prefix_cons.mpr
        ⟨rfl, @ih (place + 1) hspelt (by push_cast at *; omega)⟩

theorem Undisturbed.delimited (h : Undisturbed fns size text buffer) :
    Delimited buffer where
  room := ⟨h.sectioned.confined.index_nonneg,
    h.sectioned.confined.fill_le_capacity, h.sectioned.confined.index_le,
    h.sectioned.confined.index_lt, fun he => (h.sectioned.confined.live he).1⟩
  opener := h.opener
  closer := h.closer

theorem Undisturbed.meets (h : Undisturbed fns size text buffer)
    (hmeets : buffer.Meets fns cb c) : tagOpen ++ [c] <:+: text := by
  obtain ⟨opened, hlook, hmore, hitem⟩ := hmeets
  have hroom := h.delimited.room
  have hopened := carries_closed.lookAt hlook h.carries
  obtain ⟨hspelt, hindex⟩ := bufferLookAt_spelt hroom hlook fun _ _ => rfl
  have hlt : opened.index < opened.fill := by
    cases he : opened.eof with
    | false => exact (hasRoom_closed.lookAt hlook hroom).1.live he
    | true =>
        rw [bufferEof, he, Bool.true_and, decide_eq_false_iff_not] at hmore
        exact Int.not_le.mp hmore
  obtain ⟨place, hplace⟩ := Int.eq_ofNat_of_zero_le hroom.index_nonneg
  have hlength : (tagOpen.length : Int) = 2 := rfl
  rw [h.opener, hplace] at hspelt hindex
  have hbyte : Spelt opened.data (place + tagOpen.length) [c] :=
    ⟨by rw [← hindex, ← bufferItem_eq hitem], trivial⟩
  have hprefix := hopened.spelt (spelt_append.mpr ⟨hspelt, hbyte⟩) (by
    rw [List.length_append, List.length_singleton]
    omega)
  exact hprefix.isInfix.trans (List.drop_suffix place text).isInfix

theorem Undisturbed.plain (h : Undisturbed fns size text buffer)
    (hplain : PlainTags text) (hmeets : buffer.Meets fns cb c) :
    c ≠ ascii '>' ∧ c ≠ ascii '=' := by
  constructor
  · rintro rfl
    exact hplain.1 (h.meets hmeets)
  · rintro rfl
    exact hplain.2 (h.meets hmeets)

theorem Buffer.TagAt.meets (h : buffer.TagAt fns cb c before) :
    buffer.Meets fns cb c := by
  obtain ⟨-, opened, hlook, hmore, hitem, -⟩ := h
  exact ⟨opened, hlook, hmore, hitem⟩

theorem Undisturbed.step (h : Undisturbed fns size text buffer)
    (hplain : PlainTags text)
    (hstep : Returns (renderStep fns cb buffer) (.inl last)) :
    Undisturbed fns size text last := by
  have htags := fun c (hmeets : buffer.Meets fns cb c) => h.plain hplain hmeets
  have hgoes := (renderStep_settles h.sectioned htags).returns hstep
  have hdelimiters : ∀ start, ¬ buffer.TagAt fns cb (ascii '=') start :=
    fun start htag => (htags _ htag.meets).2 rfl
  rcases renderStep_reads h.delimited hdelimiters hstep with
    ⟨cell, read, hread⟩ | ⟨start, name, read, htag, -⟩
  · obtain ⟨read, hread, hsame, hturns⟩ :=
      hread.step h.delimited h.valid hstep
    have hdone := hread.hasRead h.delimited
    have hcarries := hread.carries h.carries
    refine ⟨hgoes.1, ?_, ?_, ?_, ?_⟩
    · rw [hsame.openDelimiter, hdone.grows.openDelimiter, h.opener]
    · rw [hsame.closeDelimiter, hdone.grows.closeDelimiter, h.closer]
    · refine hturns.valid fun loop hloop => h.valid loop ?_
      exact hdone.loops ▸ hloop
    · refine ⟨hsame.partials.trans hcarries.partials,
        hsame.fill ▸ hcarries.fill_nonneg, ?_, fun he => ?_⟩
      · rw [hsame.fill, hsame.data]
        exact hcarries.data
      · rw [hsame.input, hsame.fill]
        exact hcarries.rest (hsame.eof ▸ he)
  · exact absurd rfl (htags _ htag.meets).1

end

section

variable {fns : StreamFns τ} {cb : Callback σ ο τ} {env : σ}
  {input : InputStream τ} {data : Int → UInt8} {text : Bytes}
  {buffer : Buffer σ ο τ}

theorem newBuffer_undisturbed (hinput : input.Gives fns text)
    (h : Returns (bufferNext fns cb (newBuffer env input data))
      (true, buffer)) : ∃ size, Undisturbed fns size text buffer := by
  obtain ⟨k, hk⟩ := hinput.ends
  have hcarries : Carries fns text (newBuffer env input data : Buffer σ ο τ) :=
    ⟨rfl, Int.le_refl _, fun place hplace => absurd hplace (by
      change ¬ (place : Int) < 0
      omega), fun _ => hinput⟩
  have hread := advances_closed.next h
  obtain ⟨hread', -⟩ :=
    (@newBuffer_settles _ ο _ fns cb True env _ data _ hk).returns h
  have hloops : buffer.loops = [] := hread.loops
  refine ⟨k + 1, ⟨hread'.confined, ?_, ?_, ?_⟩, hread.openDelimiter,
    hread.closeDelimiter, ?_, hcarries.next h⟩
  · rw [hread.openDelimiter]
    exact List.cons_ne_nil _ _
  · rw [hloops]
    exact List.Pairwise.nil
  · rw [hloops]
    exact nofun
  · rw [Buffer.Valid, hloops]
    exact nofun

/-- A text without partial and delimiter tags is rendered without meeting
one. -/
theorem PlainTags.meets (hplain : PlainTags text)
    (hinput : input.Gives fns text)
    (h : Rendering fns cb env input data buffer) {c : UInt8}
    (hmeets : buffer.Meets fns cb c) : c ≠ ascii '>' ∧ c ≠ ascii '=' := by
  obtain ⟨first, hfirst, hreach⟩ := h
  obtain ⟨size, hstart⟩ := newBuffer_undisturbed hinput hfirst
  have hbuffer : Undisturbed fns size text buffer :=
    hreach.invariant (fun _ _ hs hstep => hs.step hplain hstep) hstart
  exact hbuffer.plain hplain hmeets

end

/-- Rendering a template without partial and delimiter tags comes to an end,
unless a function pointer or string that is called for is NULL. -/
theorem render_settles (fns : StreamFns τ) (cb : Callback σ ο τ) (env : σ)
    (input : InputStream τ) (data : Int → UInt8) {text : Bytes}
    (hinput : input.Gives fns text) (hplain : PlainTags text)
    (hlists : FiniteLists fns cb env input data) :
    Settles (¬ cb.Complete) (render fns cb env input data) fun _ => True :=
  rendering_settles fns cb env input data hinput.ends
    (fun _ hs _ hmeets => hplain.meets hinput hs hmeets) hlists

/-- The rendering of a list in a list comes to an end. -/
theorem render_settles_lists : Settles (¬ pairLists.Complete)
    (render noStreams pairLists ()
      (newInputStreamFromString (chars "{{#l}}{{#m}}a{{/m}}{{/l}}.")) fun _ => 0)
    fun _ => True := by
  have hinput : (newInputStreamFromString (chars "{{#l}}{{#m}}a{{/m}}{{/l}}.") :
      InputStream Empty).Delivers noStreams _ :=
    newInputStreamFromString_delivers _ _ (by decide) (by decide)
  refine render_settles noStreams pairLists () _ _ hinput.gives
    (by decide +kernel) ?_
  intro s _ loop outer resolved _ _
  refine ⟨2, fun t _ get hget index hindex => ?_⟩
  cases hget
  exact decide_eq_false (by omega)

end Libcad
