/-
Tags with blanks before their names.  `parse_name` skips the blanks before a
name, and only these, so the engine crosses such a tag as it crosses the tag
without them.
-/
import Libcad.StacheFetches
import Libcad.StacheTags

namespace Libcad

open Proc

variable {σ ο τ : Type}

def Blanks (gap : Bytes) : Prop := ∀ c ∈ gap, isBlank c = true

instance (gap : Bytes) : Decidable (Blanks gap) :=
  List.decidableBAll (fun c => isBlank c = true) gap

/-- The same token, with blanks directly before the name of a tag. -/
inductive Token.SpacedAs : Token → Token → Prop
  | text (c : UInt8) : SpacedAs (.text c) (.text c)
  | comment (body : Bytes) : SpacedAs (.comment body) (.comment body)
  | escaped {gap : Bytes} (name : Bytes) :
      Blanks gap → SpacedAs (.escaped name) (.escaped (gap ++ name))
  | raw {gap : Bytes} (name : Bytes) :
      Blanks gap → SpacedAs (.raw name) (.raw (gap ++ name))
  | opening {gap : Bytes} (type : LoopType) (name : Bytes) :
      Blanks gap → SpacedAs (.opening type name) (.opening type (gap ++ name))
  | closing {gap : Bytes} (name : Bytes) :
      Blanks gap → SpacedAs (.closing name) (.closing (gap ++ name))
  | inclusion {gap : Bytes} (name : Bytes) :
      Blanks gap → SpacedAs (.inclusion name) (.inclusion (gap ++ name))

theorem blanks_nil : Blanks [] := fun _ h => absurd h List.not_mem_nil

theorem Token.SpacedAs.refl (tok : Token) : tok.SpacedAs tok := by
  cases tok with
  | text c => exact .text c
  | comment body => exact .comment body
  | escaped name => exact .escaped name blanks_nil
  | raw name => exact .raw name blanks_nil
  | opening type name => exact .opening type name blanks_nil
  | closing name => exact .closing name blanks_nil
  | inclusion name => exact .inclusion name blanks_nil

theorem Token.SpacedAs.head {tok spelled : Token} (h : tok.SpacedAs spelled) :
    ∃ c rest rest', tok.bytes = c :: rest ∧ spelled.bytes = c :: rest' := by
  cases h with
  | text | comment | escaped | raw | opening | closing | inclusion =>
      exact ⟨_, _, _, rfl, rfl⟩

theorem isBlank_not_sigil {c : UInt8} (h : isBlank c = true) :
    c ∉ sigils := by
  have hblank : c = ascii ' ' ∨ c = ascii '\n' := by
    simpa [isBlank] using h
  rcases hblank with rfl | rfl <;> decide

section

variable {fns : StreamFns τ} {cb : Callback σ ο τ} {R : Session σ ο τ}
  {lists : List (OpenList ο)} {v : Bytes} {i f : Nat}
  {buffer : Buffer σ ο τ} {held : List (Held ο τ)}

/-- `buffer_skip_blanks` stops at the first byte that is no blank. -/
theorem Reading.skipGap (hr : Releases cb R) (gap : Bytes) :
    ∀ {i f : Nat} {buffer : Buffer σ ο τ} {held : List (Held ο τ)},
      Reading fns R lists v i f buffer held → buffer.eof = false →
      Blanks gap → ∀ {c : UInt8} {rest : Bytes},
      v.drop i = gap ++ c :: rest → isBlank c = false →
      ∃ after, Returns (bufferSkipBlanks fns cb buffer) after ∧
        Moved fns R lists v f (i + gap.length) buffer after := by
  induction gap with
  | nil =>
      intro i f buffer held h he _ c rest hrest hc
      exact ⟨buffer, h.skipBlanks he hrest hc, h.moved he⟩
  | cons b gap ih =>
      intro i f buffer held h he hgap c rest hrest hc
      obtain ⟨hb, hgap⟩ := List.forall_mem_cons.mp hgap
      obtain ⟨next, hnext, hmoved⟩ := h.next hr he
      obtain ⟨held', hreading⟩ := hmoved.reading
      have hitem := h.item (h.live he).1 hrest
      have htail : v.drop (i + 1) = gap ++ c :: rest := drop_succ hrest
      have hlive : next.eof = false := by
        apply hmoved.eof_eq_false
        have hlen := congrArg List.length htail
        rw [List.length_drop, List.length_append, List.length_cons] at hlen
        omega
      obtain ⟨after, hskip, hmoved'⟩ := ih hreading hlive hgap htail hc
      have hstep : Returns (skipBlanksStep fns cb buffer) (.inl next) := by
        rw [skipBlanksStep, bufferEof_of_live he, if_neg Bool.false_ne_true]
        refine hitem.bind ?_
        rw [if_pos hb]
        exact hnext.bind (returns_pure_self _)
      refine ⟨after, hstep.loop_next.mpr hskip, ?_⟩
      have hall := hmoved.trans hmoved' (by omega)
      rw [List.length_cons, show i + (gap.length + 1) = i + 1 + gap.length by
        omega]
      exact hall

/-- `parse_name` reads a name with blanks before it. -/
theorem Reading.parseSpaced (hr : Releases cb R) {suffix : Option Bytes}
    (hsuffix : suffix = none ∨ suffix = some [ascii '}'])
    (h : Reading fns R lists v i f buffer held) (he : buffer.eof = false)
    (hclose : buffer.closeDelimiter = tagClose) {gap name rest : Bytes}
    (hgap : Blanks gap) (hname : NameValid name)
    (hrest : v.drop i = gap ++ (name ++ nameEnd suffix ++ rest)) :
    ∃ block after, Returns (Libcad.parseName fns cb suffix buffer)
        (some block, after) ∧ block.string = name ∧
      Moved fns R lists v f
        (i + gap.length + name.length + (nameEnd suffix).length)
        buffer after := by
  have hvalid : SuffixValid suffix := by
    rcases hsuffix with rfl | rfl
    · exact suffixValid_none
    · exact suffixValid_some _
  have hends : ∀ b ∈ name, b ∉ nameEnd suffix := by
    intro b hb hmem
    have hbrace : b ≠ ascii '}' := fun h => hname.brace (h ▸ hb)
    rcases hsuffix with rfl | rfl
    · simp [nameEnd, tagClose, hbrace] at hmem
    · simp [nameEnd, tagClose, hbrace] at hmem
  obtain ⟨c, text, hcons⟩ := List.exists_cons_of_ne_nil hname.ne_nil
  have hhead : isBlank c = false := hname.head c (by rw [hcons]; rfl)
  have hskipped : v.drop i = gap ++ c :: (text ++ nameEnd suffix ++ rest) := by
    rw [hrest, hcons]
    rfl
  obtain ⟨skipped, hskip, hmoved⟩ := h.skipGap hr gap he hgap hskipped hhead
  obtain ⟨held', hreading⟩ := hmoved.reading
  have htail : v.drop (i + gap.length) = name ++ nameEnd suffix ++ rest := by
    rw [← List.drop_drop, hrest, List.drop_left]
  have hlive : skipped.eof = false := by
    rw [hcons] at htail
    exact hmoved.eof_eq_false (lt_length_of_drop htail)
  obtain ⟨block, after, hloop, hbytes, hmoved'⟩ := hreading.parse_loop hr
    hvalid name hlive (hmoved.frame.closeDelimiter.trans hclose) hends htail
    ⟨[], 16⟩
  refine ⟨block, after, hskip.bind (hloop.bind (returns_pure_self _)), ?_,
    hmoved.trans hmoved' (by omega)⟩
  rw [NameBlock.string, hbytes]
  exact cString_of_not_mem fun hmem => (hname.readable 0 hmem).1 rfl

end

end Libcad
