/-
Text without tags.  A single brace makes the engine look for a second one and
go back; at the end of the template the look ahead comes to the end of the
input, and the brace cannot be stepped over any more.
-/
import Libcad.StacheStands

namespace Libcad

open Proc

variable {σ ο τ : Type} {fns : StreamFns τ} {cb : Callback σ ο τ}
  {text : Bytes} {i : Nat} {buffer : Buffer σ ο τ}

def NoTag (text : Bytes) : Prop := ¬ tagOpen <:+: text

/-- The engine has copied the bytes before this one. -/
structure CopiedTo (fns : StreamFns τ) (cb : Callback σ ο τ) (text : Bytes)
    (i : Nat) (buffer : Buffer σ ο τ) : Prop where
  reading : ∃ f held, Reading fns (Unwinds cb) [] text i f buffer held
  eof_eq : buffer.eof = decide (i = text.length)
  loops : buffer.loops = []
  openDelimiter : buffer.openDelimiter = tagOpen
  output : buffer.output = text.take i

theorem CopiedTo.live (h : CopiedTo fns cb text i buffer)
    (hi : i < text.length) : buffer.eof = false := by
  rw [h.eof_eq]
  exact decide_eq_false (Nat.ne_of_lt hi)

theorem bufferOutput_copied (hloops : buffer.loops = []) (c : UInt8) :
    bufferOutput buffer [c] =
      { buffer with output := buffer.output ++ [c] } := by
  have hskip : bufferSkipOutput buffer = false := by
    rw [bufferSkipOutput, hloops]
    rfl
  rw [bufferOutput, if_neg (ne_true_of_eq_false hskip)]

theorem Reading.lookAt_brace {R : Session σ ο τ} {lists : List (OpenList ο)}
    {v : Bytes} {f : Nat} {held : List (Held ο τ)} (hr : Releases cb R)
    (h : Reading fns R lists v i f buffer held) (he : buffer.eof = false)
    {d : UInt8} {rest : Bytes} (hd : d ≠ ascii '{')
    (hrest : v.drop i = ascii '{' :: d :: rest) :
    ∃ looked f' held', Returns (bufferLookAt fns cb tagOpen buffer)
        (false, looked) ∧
      Reading fns R lists v i f' looked held' ∧ looked.eof = false ∧
      SameFrame buffer looked := by
  obtain ⟨next, hnext, hmoved⟩ := h.next hr he
  obtain ⟨held', hreading⟩ := hmoved.reading
  have htail : v.drop (i + 1) = d :: rest := drop_succ hrest
  have hlive := hmoved.eof_eq_false (lt_length_of_drop htail)
  obtain ⟨hlt, hpending⟩ := hreading.live hlive
  have hmatch : Returns (bufferMatch fns cb tagOpen buffer) (false, next) := by
    rw [tagOpen, bufferMatch]
    refine (h.item (h.live he).1 hrest).bind ?_
    rw [if_pos rfl]
    refine hnext.bind ?_
    dsimp only
    rw [if_pos rfl, bufferMatch]
    refine (hreading.item hlt htail).bind ?_
    rw [if_neg hd]
    exact returns_pure_self _
  let looked : Buffer σ ο τ := { next with index := buffer.index }
  have hlooked : Reading fns R lists v i (readAhead v f (i + 1)) looked
      held' := by
    refine ⟨hreading.session, h.index_eq, hreading.fill_eq, hreading.fill_le,
      hreading.fill_le_capacity, hreading.data, ?_, ?_⟩
    · exact fun _ => ⟨by omega, hpending⟩
    · intro hend
      have hend' : next.eof = true := hend
      rw [hlive] at hend'
      cases hend'
  exact ⟨looked, _, held', hmatch.bind (returns_pure_self _), hlooked, hlive,
    ⟨hmoved.frame.loops, hmoved.frame.output, hmoved.frame.openDelimiter,
      hmoved.frame.closeDelimiter⟩⟩

/-- A byte is copied: it is no brace, or it is followed by another byte. -/
theorem CopiedTo.step (h : CopiedTo fns cb text i buffer) {c : UInt8}
    {rest : Bytes} (hrest : text.drop i = c :: rest)
    (halone : c = ascii '{' → ∃ d more, rest = d :: more ∧ d ≠ ascii '{') :
    ∃ after, Returns (renderStep fns cb buffer) (.inl after) ∧
      CopiedTo fns cb text (i + 1) after := by
  have he := h.live (lt_length_of_drop hrest)
  obtain ⟨f, held, hreading⟩ := h.reading
  have hlook : ∃ looked f' held',
      Returns (bufferLookAt fns cb tagOpen buffer) (false, looked) ∧
      Reading fns (Unwinds cb) [] text i f' looked held' ∧
      looked.eof = false ∧ SameFrame buffer looked := by
    by_cases hc : c = ascii '{'
    · obtain ⟨d, more, rfl, hd⟩ := halone hc
      subst hc
      exact hreading.lookAt_brace (unwinds_releases cb) he hd hrest
    · exact ⟨buffer, f, held,
        hreading.lookAt_other (hreading.live he).1 hrest hc, hreading, he,
        SameFrame.refl buffer⟩
  obtain ⟨looked, f', held', hlook, hlooked, hlive, hframe⟩ := hlook
  rw [← h.openDelimiter] at hlook
  obtain ⟨after, -, hstep, hmoved⟩ := Reading.writes_after
    (unwinds_releases cb) he hlook hlooked hlive hrest
  rw [bufferOutput_copied (hframe.loops.trans h.loops)] at hmoved
  obtain ⟨last, hafter⟩ := hmoved.reading
  refine ⟨after, hstep, ⟨_, last, hafter⟩, hmoved.eof_eq, ?_, ?_, ?_⟩
  · exact hmoved.frame.loops.trans (hframe.loops.trans h.loops)
  · exact hmoved.frame.openDelimiter.trans
      (hframe.openDelimiter.trans h.openDelimiter)
  · have hget : text[i]? = some c := by
      rw [← List.head?_drop, hrest]
      rfl
    rw [hmoved.frame.output, List.take_add_one, hget]
    change looked.output ++ [c] = _
    rw [hframe.output, h.output]
    rfl

/-- The brace at the end is written, and rendering fails. -/
theorem CopiedTo.fails (h : CopiedTo fns cb text i buffer)
    (hrest : text.drop i = [ascii '{'])
    {o : Buffer σ ο τ ⊕ (Bool × Buffer σ ο τ)}
    (ho : Returns (renderStep fns cb buffer) o) :
    ∃ last, o = .inr (false, last) := by
  have hlt := lt_length_of_drop hrest
  have he := h.live hlt
  obtain ⟨f, held, hreading⟩ := h.reading
  obtain ⟨next, hnext, hmoved⟩ := hreading.next (unwinds_releases cb) he
  have hend : next.eof = true := by
    have hlength := congrArg List.length hrest
    rw [List.length_drop] at hlength
    have hsingle : [ascii '{'].length = 1 := rfl
    rw [hmoved.eof_eq]
    exact decide_eq_true (by omega)
  rw [renderStep, bufferEof_of_live he, if_neg Bool.false_ne_true] at ho
  obtain ⟨⟨opened, looked⟩, hlook, ho⟩ := returns_bind.mp ho
  -- The second byte is looked for where nothing was read.
  have hclosed : opened = false ∧ looked.eof = true := by
    rw [h.openDelimiter] at hlook
    obtain ⟨⟨matched, last⟩, hmatch, hlook⟩ := returns_bind.mp hlook
    rw [tagOpen, bufferMatch, (hreading.item (hreading.live he).1
      hrest).bind_iff, if_pos rfl, hnext.bind_iff] at hmatch
    dsimp only at hmatch
    rw [if_pos rfl, bufferMatch] at hmatch
    obtain ⟨c, -, hmatch⟩ := returns_bind.mp hmatch
    have hlast : matched = false ∧ last.eof = true := by
      split at hmatch
      next =>
        rw [(bufferNext_ended hend).bind_iff] at hmatch
        cases returns_pure.mp hmatch
        exact ⟨rfl, hend⟩
      next =>
        cases returns_pure.mp hmatch
        exact ⟨rfl, hend⟩
    obtain ⟨rfl, hlast⟩ := hlast
    cases returns_pure.mp hlook
    exact ⟨rfl, hlast⟩
  obtain ⟨rfl, hlooked⟩ := hclosed
  dsimp only at ho
  rw [if_neg Bool.false_ne_true] at ho
  obtain ⟨⟨more, last⟩, hwrite, ho⟩ := returns_bind.mp ho
  obtain ⟨c, -, hwrite⟩ := returns_bind.mp hwrite
  have hended : (bufferOutput looked [c]).eof = true := by
    rw [bufferOutput]
    split
    · exact hlooked
    · exact hlooked
  cases hwrite.unique (bufferNext_ended hended)
  exact ⟨_, (returns_pure.mp ho).symm⟩

theorem CopiedTo.ends (h : CopiedTo fns cb text text.length buffer) :
    Returns (renderStep fns cb buffer) (.inr (true, buffer)) := by
  obtain ⟨f, held, hreading⟩ := h.reading
  have he : buffer.eof = true := by
    rw [h.eof_eq]
    exact decide_eq_true rfl
  have heof : bufferEof buffer = true := by
    have hfill := hreading.fill_eq
    have hindex := hreading.index_eq
    have hlength := (hreading.ended he).1
    have hle : buffer.fill ≤ buffer.index := by omega
    rw [bufferEof, he, decide_eq_true hle]
    rfl
  rw [renderStep, if_pos heof]
  exact returns_pure_self _

theorem NoTag.alone (h : NoTag text) {c : UInt8} {rest : Bytes}
    (hrest : text.drop i = c :: rest) (hne : rest ≠ []) (hc : c = ascii '{') :
    ∃ d more, rest = d :: more ∧ d ≠ ascii '{' := by
  obtain ⟨d, more, rfl⟩ := List.exists_cons_of_ne_nil hne
  refine ⟨d, more, rfl, ?_⟩
  rintro rfl
  apply h
  refine ⟨text.take i, more, ?_⟩
  rw [List.append_assoc]
  conv_rhs => rw [← List.take_append_drop i text, hrest, hc]
  rfl

theorem CopiedTo.reaches (htext : NoTag text)
    (h : CopiedTo fns cb text 0 buffer) :
    ∀ n, n < text.length ∨
        n = text.length ∧ text.getLast? ≠ some (ascii '{') →
      ∃ last, Reaches (renderStep fns cb) buffer last ∧
        CopiedTo fns cb text n last := by
  intro n
  induction n with
  | zero => exact fun _ => ⟨buffer, Reaches.refl _, h⟩
  | succ n ih =>
      intro hn
      have hlt : n < text.length := by omega
      obtain ⟨before, hreach, hbefore⟩ := ih (Or.inl hlt)
      have hrest := List.drop_eq_getElem_cons hlt
      have halone : text[n] = ascii '{' → ∃ d more,
          text.drop (n + 1) = d :: more ∧ d ≠ ascii '{' := by
        intro hc
        refine htext.alone hrest ?_ hc
        intro hnil
        have hlast := List.drop_eq_nil_iff.mp hnil
        obtain ⟨-, hother⟩ := hn.resolve_left (by omega)
        apply hother
        rw [List.getLast?_eq_getElem?, ← hc,
          List.getElem?_eq_some_iff]
        exact ⟨by omega, by congr 1; omega⟩
      obtain ⟨after, hstep, hafter⟩ := hbefore.step hrest halone
      exact ⟨after, hreach.trans (Reaches.step hstep), hafter⟩

theorem newBuffer_copied {env : σ} {input : InputStream τ}
    (hinput : input.Delivers fns text) (data : Int → UInt8) :
    ∃ buffer, Returns (bufferNext fns cb (newBuffer env input data))
        (true, buffer) ∧ CopiedTo fns cb text 0 buffer := by
  have hpending : Pending fns input ([] : List (StachePartial ο τ))
      (heldBy cb [] env) (text.drop 0) := hinput
  obtain ⟨buffer, hnext, hmoved⟩ := bufferNext_fetches (unwinds_releases cb)
    (show Unwinds cb (newBuffer env input data).env [] _ from ⟨[], rfl⟩)
    (show (newBuffer env input data).index + 1 = ((0 : Nat) : Int) from rfl)
    rfl (Nat.zero_le _) (show (0 : Int) ≤ 4096 by decide)
    (show (0 : Int) < 4096 by decide)
    (fun j hj => absurd hj (Nat.not_lt_zero j)) rfl hpending
  obtain ⟨held, hreading⟩ := hmoved.reading
  exact ⟨buffer, hnext, ⟨_, held, hreading⟩, hmoved.eof_eq, hmoved.frame.loops,
    hmoved.frame.openDelimiter, hmoved.frame.output⟩

/-- A text that opens no tag is copied, and rendering succeeds, unless it ends
with a brace. -/
theorem literal_copied_iff (htext : NoTag text) {env : σ}
    {input : InputStream τ} (hinput : input.Delivers fns text)
    (data : Int → UInt8) :
    RendersTo fns cb env input data ⟨0, text⟩ ↔
      text.getLast? ≠ some (ascii '{') := by
  obtain ⟨buffer, hnext, hstart⟩ :=
    @newBuffer_copied _ _ _ fns cb _ env _ hinput data
  constructor
  · rintro ⟨r, hr, hcode, -⟩ hlast
    obtain ⟨⟨result, last⟩, hrun, rfl⟩ := (render_of_start hnext).mp hr
    obtain ⟨front, rfl⟩ := List.getLast?_eq_some_iff.mp hlast
    obtain ⟨before, hreach, hbefore⟩ := hstart.reaches htext front.length
      (Or.inl (by simp))
    have hloop := hreach.returns_iff.mp hrun
    have hfailed : result = false := by
      rcases returns_loop_iff.mp hloop with ⟨after, hstep, -⟩ | hexit
      · obtain ⟨_, heq⟩ := hbefore.fails List.drop_left hstep
        cases heq
      · obtain ⟨_, heq⟩ := hbefore.fails List.drop_left hexit
        cases heq
        rfl
    subst hfailed
    have hneg : (-1 : Int) = 0 := hcode
    omega
  · intro hlast
    obtain ⟨last, hreach, hcopied⟩ :=
      hstart.reaches htext text.length (Or.inr ⟨rfl, hlast⟩)
    have hrun : Returns (renderTemplate fns cb buffer) (true, last) :=
      hreach.returns_iff.mpr hcopied.ends.loop_exit
    refine ⟨_, (render_of_start hnext).mpr ⟨_, hrun, rfl⟩, ?_, ?_⟩
    · simp [Buffer.rendered, hcopied.loops]
    · have houtput := hcopied.output
      rw [List.take_length] at houtput
      exact houtput

/-- Every text without NUL and 0xFF can be given as a string. -/
theorem literalString_copied_iff (hreadable : ∀ c ∈ text, Readable c)
    (htext : NoTag text) (cb : Callback σ ο τ) (env : σ)
    (data : Int → UInt8) :
    RendersTo fns cb env (newInputStreamFromString text) data ⟨0, text⟩ ↔
      text.getLast? ≠ some (ascii '{') :=
  literal_copied_iff htext (newInputStreamFromString_delivers fns text
    (fun hmem => (hreadable 0 hmem).1 rfl)
    (fun hmem => (hreadable 255 hmem).2 rfl)) data

set_option maxRecDepth 2000 in
theorem literalString_copied_braces :
    RendersTo noStreams (answering fun _ _ => .notFound) []
      (newInputStreamFromString (chars "\x7ba\x7d\x7bb")) (fun _ => 0)
      ⟨0, chars "\x7ba\x7d\x7bb"⟩ :=
  (literalString_copied_iff (by decide) (by unfold NoTag; decide) _ _ _).mpr
    (by decide)

/-- The brace is written, but rendering fails. -/
theorem literalString_not_copied :
    ¬ RendersTo noStreams (answering fun _ _ => .notFound) []
      (newInputStreamFromString (chars "a\x7b")) (fun _ => 0)
      ⟨0, chars "a\x7b"⟩ := by
  rintro ⟨r, hr, hcode, -⟩
  have hfails : Returns (render noStreams (answering fun _ _ => .notFound) []
      (newInputStreamFromString (chars "a\x7b")) fun _ => 0) _ := ⟨5, rfl⟩
  cases hr.unique hfails
  exact absurd hcode (by decide)

end Libcad
