/-
What is inserted cannot change the markup.  In a template without raw tags the
strings a callback gives may be replaced by others, as long as the same ones
are empty: the bytes that would open a tag or end an attribute stay the same,
and all of them stand in the template.
-/
import Libcad.StacheEffects
import Libcad.StacheEscape
import Libcad.StacheParallel

namespace Libcad

open Proc

variable {σ ο τ : Type}

def markupOf (text : Bytes) : Bytes :=
  text.filter fun c => decide (c ∈ markup)

theorem markupOf_append (a b : Bytes) :
    markupOf (a ++ b) = markupOf a ++ markupOf b :=
  List.filter_append ..

theorem markupOf_escape (s : Bytes) : markupOf (s.flatMap escapeChar) = [] := by
  refine List.filter_eq_nil_iff.mpr fun c hc => ?_
  rw [decide_eq_true_iff]
  exact (escape_escaped s).safe c hc

/-- Two strings of which both are empty or none is. -/
def EmptyAlike (c c' : Bytes) : Prop := cString c = [] ↔ cString c' = []

/-- The same markup, all of it from these tokens. -/
structure MarkupFrom (toks : List Token) (x y : Bytes) : Prop where
  same : markupOf x = markupOf y
  known : ∀ c ∈ markupOf x, Token.text c ∈ toks

theorem MarkupFrom.nil (toks : List Token) : MarkupFrom toks [] [] :=
  ⟨rfl, fun _ hc => absurd hc List.not_mem_nil⟩

theorem MarkupFrom.writes {toks : List Token} {text text' : Bytes}
    (h : MarkupFrom toks text text') : Writes (MarkupFrom toks) text text' := by
  rintro x y ⟨hsame, hknown⟩
  refine ⟨?_, ?_⟩
  · rw [markupOf_append, markupOf_append, hsame, h.same]
  · intro c hc
    rw [markupOf_append] at hc
    exact (List.mem_append.mp hc).elim (hknown c) (h.known c)

theorem MarkupFrom.escape (toks : List Token) (s s' : Bytes) :
    MarkupFrom toks (s.flatMap escapeChar) (s'.flatMap escapeChar) := by
  refine ⟨?_, ?_⟩
  · rw [markupOf_escape, markupOf_escape]
  · intro c hc
    rw [markupOf_escape] at hc
    exact absurd hc List.not_mem_nil

/-- All that a template without raw tags writes keeps the markup related. -/
theorem Template.keeps_markup {template : Template}
    (hescaped : ∀ name, Token.raw name ∉ template.tokens) :
    ∀ tok ∈ template.tokens,
      tok.Keeps EmptyAlike (MarkupFrom template.tokens) template.Asks := by
  intro tok hmem
  cases tok with
  | text c =>
      refine MarkupFrom.writes ⟨rfl, fun b hb => ?_⟩
      have hbc : b = c := List.mem_singleton.mp (List.mem_filter.mp hb).1
      exact hbc ▸ hmem
  | escaped name =>
      exact ⟨⟨_, hmem, rfl⟩, fun c c' _ => (MarkupFrom.escape _ _ _).writes⟩
  | raw name => exact absurd hmem (hescaped name)
  | opening type name => exact ⟨⟨_, hmem, rfl⟩, fun c c' hc => hc⟩
  | comment body | closing name | inclusion name => exact trivial

/-- Two renderings that differ in inserted text at most. -/
structure Rendered.SameMarkup (r r' : Rendered σ) : Prop where
  code : r.code = r'.code
  onError : r.onError.map Prod.fst = r'.onError.map Prod.fst
  env : r.env = r'.env
  markup : markupOf r.output = markupOf r'.output

section

variable {fns : StreamFns τ} {cb cb' : Callback σ ο τ} {template : Template}

/-- Rendering a template without raw tags and inclusions: other strings do not
change the markup, and all of it stands in the template. -/
theorem render_markup (hvalid : ∀ tok ∈ template.tokens, tok.Valid)
    (hplain : template.Plain) (htrails : template.Trails)
    (hescaped : ∀ name, Token.raw name ∉ template.tokens)
    (hcb : cb.Alike EmptyAlike template.Asks cb') (env : σ)
    {input input' : InputStream τ}
    (hinput : input.Delivers fns (tokenBytes template.tokens))
    (hinput' : input'.Delivers fns (tokenBytes template.tokens))
    (data data' : Int → UInt8) :
    Agree Rendered.SameMarkup (render fns cb env input data)
        (render fns cb' env input' data') ∧
      ∀ r, Returns (render fns cb env input data) r →
        ∀ c ∈ r.output, c ∈ markup → Token.text c ∈ template.tokens := by
  have hleft : Agree Rendered.Is (render fns cb env input data)
      (template.interpret fns cb false ⟨env, []⟩) :=
    render_interprets template hvalid hplain htrails env hinput data
  have hright : Agree Rendered.Is (render fns cb' env input' data')
      (template.interpret fns cb' false ⟨env, []⟩) :=
    render_interprets template hvalid hplain htrails env hinput' data'
  have hbeside : Agree (BesideToo (MarkupFrom template.tokens))
      (template.interpret fns cb false ⟨env, []⟩)
      (template.interpret fns cb' false ⟨env, []⟩) :=
    interpret_beside hcb template (Template.keeps_markup hescaped) false _ _
      ⟨rfl, MarkupFrom.nil _⟩
  have hboth := (hleft.trans hbeside).trans hright.symm
  refine ⟨hboth.mono ?_, ?_⟩
  · rintro r r' ⟨t', ⟨t, ht, hresult, hprogress⟩, ht'⟩
    refine ⟨?_, ?_, ?_, ?_⟩
    · rw [ht.code, ht'.code, hresult]
    · rw [ht.onError, ht'.onError, hresult]
    · rw [ht.env, ht'.env, hprogress.env]
    · rw [ht.output, ht'.output, hprogress.output.same]
  · intro r hr c hc hmarkup
    obtain ⟨r', -, t', ⟨t, ht, -, hprogress⟩, -⟩ := hboth.forth r hr
    refine hprogress.output.known c ?_
    rw [← ht.output]
    exact List.mem_filter.mpr ⟨hc, decide_eq_true hmarkup⟩

end

/-- A callback that gives one string for every name. -/
def oneString (s : Bytes) : Callback Unit Unit Empty where
  resolve env _ := (.string (), env)
  stringGet _ := some fun env => (some s, env)
  stringFree _ := some fun env => (true, env)
  listGet _ := none
  listClose _ := none
  streamGet _ := none
  streamFree _ := none

/-- The template `<b>{{v}}</b>` -/
def boldTemplate : Template :=
  .text (ascii '<') (.text (ascii 'b') (.text (ascii '>')
    (.escaped (chars "v") (.text (ascii '<') (.text (ascii '/')
      (.text (ascii 'b') (.text (ascii '>') .nil)))))))

theorem render_bold :
    ∃ r r', Returns (render noStreams (oneString (chars "<i>")) ()
        (newInputStreamFromString (tokenBytes boldTemplate.tokens))
        fun _ => 0) r ∧
      r.SameMarkup r' ∧ r'.output = chars "<b>x</b>" := by
  have hcb : (oneString (chars "<i>")).Alike EmptyAlike boldTemplate.Asks
      (oneString (chars "x")) :=
    ⟨fun _ _ _ => rfl, fun _ => .some fun _ => ⟨.some (by
      rw [EmptyAlike]
      decide), rfl⟩, rfl, rfl, rfl, rfl, rfl⟩
  have hescaped : ∀ name, Token.raw name ∉ boldTemplate.tokens := by
    simp [boldTemplate, Template.tokens]
  obtain ⟨r, hr, hsame⟩ := (@render_markup Unit Unit Empty noStreams _ _
    boldTemplate (by decide) (by decide) trivial hescaped hcb () _ _
    (delivers_tokenBytes noStreams (by decide))
    (delivers_tokenBytes noStreams (by decide)) (fun _ => 0)
    fun _ => 0).1.back _ ⟨100, rfl⟩
  exact ⟨r, _, hr, hsame, rfl⟩

end Libcad
