/-
The reference rendering of templates: an interpreter over the tree and over
values, without buffers, rewinding or suppressed output.  The engine agrees
with it on every template without partials that ends with a text byte.
-/
import Libcad.StacheRefines
import Libcad.StacheTemplate

namespace Libcad

open Proc TokenState

/-- What a name stands for. -/
inductive Value
  | absent
  | string (s : Bytes)
  | list (n : Nat)
deriving Repr, DecidableEq

/-- The values of the names, for the open list sections, innermost first. -/
abbrev Values := List Frame → Bytes → Value

def Value.text : Value → Bytes
  | .string s => s
  | .absent | .list _ => []

namespace Template

def bytes (template : Template) : Bytes := tokenBytes template.tokens

/-- The reference rendering.  The body of an inverted section over an empty
list is rendered with that list open. -/
def reference (values : Values) (frames : List Frame) : Template → Bytes
  | nil => []
  | text c rest => c :: reference values frames rest
  | escaped name rest =>
      (values frames name).text.flatMap escapeChar ++
        reference values frames rest
  | raw name rest =>
      (values frames name).text ++ reference values frames rest
  | comment _ rest => reference values frames rest
  | loop .loopWhile name body rest =>
      (match values frames name with
        | .absent => []
        | .string s => if s = [] then [] else reference values frames body
        | .list n => (List.range n).flatMap fun i : Nat =>
            reference values (⟨name, i⟩ :: frames) body) ++
        reference values frames rest
  | loop .loopElse name body rest =>
      (match values frames name with
        | .absent => reference values frames body
        | .string s => if s = [] then reference values frames body else []
        | .list n =>
            if n = 0 then reference values (⟨name, 0⟩ :: frames) body
            else []) ++
        reference values frames rest
  | inclusion _ rest => reference values frames rest

end Template

variable {σ ο τ : Type}

/-- The answer stands for the value; releases succeed. -/
def Answer.Means : Answer τ → Value → Prop
  | .notFound, .absent => True
  | .string (some (some c)) (some true), .string s => cString c = s
  | .list (some get) (some true), .list n =>
      ∀ i : Nat, get i = decide (i < n)
  | _, _ => False

/-- The answers to the names of a template stand for their values, and
variables are not lists. -/
structure Understands (answers : Answers τ) (values : Values)
    (template : Template) : Prop where
  ofVariable : ∀ name, Token.escaped name ∈ template.tokens ∨
      Token.raw name ∈ template.tokens → ∀ frames,
    (answers frames name).Means (values frames name) ∧
      ∀ n, values frames name ≠ .list n
  ofSection : ∀ type name, Token.opening type name ∈ template.tokens →
    ∀ frames, (answers frames name).Means (values frames name)

section

variable {fns : StreamFns τ} {cb : Callback σ ο τ} {answers : Answers τ}
  {R : Session σ ο τ} {inclusions : Inclusions} {values : Values}

theorem Answer.Means.shows {answer : Answer τ} {value : Value}
    (h : answer.Means value) (hlist : ∀ n, value ≠ .list n) :
    answer.Shows value.text := by
  match answer, value, h with
  | .notFound, .absent, _ => exact rfl
  | .string (some (some c)) (some true), .string s, hc => exact hc.symm
  | .list (some get) (some true), .list n, _ => exact absurd rfl (hlist n)

theorem Answer.Means.opened_absent {answer : Answer τ}
    (h : answer.Means .absent) : answer.opened fns = ⟨true, true, none⟩ := by
  match answer, h with
  | .notFound, _ => rfl

theorem Answer.Means.opened_string {answer : Answer τ} {s : Bytes}
    (h : answer.Means (.string s)) :
    answer.opened fns = ⟨true, decide (s = []), none⟩ := by
  match answer, h with
  | .string (some (some c)) (some true), hc =>
      have hc : cString c = s := hc
      simp only [Answer.opened, Option.join_some, Option.map_some,
        Option.getD_some, hc]

theorem Answer.Means.list_eq {answer : Answer τ} {n : Nat}
    (h : answer.Means (.list n)) :
    ∃ get : Int → Bool, answer = .list (some get) (some true) ∧
      ∀ i : Nat, get i = decide (i < n) := by
  match answer, h with
  | .list (some get) (some true), hget => exact ⟨get, rfl, hget⟩

theorem Understands.part {template part : Template}
    (h : Understands answers values template)
    (htokens : ∀ x ∈ part.tokens, x ∈ template.tokens) :
    Understands answers values part where
  ofVariable name hmem :=
    h.ofVariable name (hmem.imp (htokens _) (htokens _))
  ofSection type name hmem := h.ofSection type name (htokens _ hmem)

theorem Understands.rest {template rest : Template} {tok : Token}
    (h : Understands answers values template)
    (htokens : template.tokens = tok :: rest.tokens) :
    Understands answers values rest :=
  h.part fun _ hx => htokens ▸ List.mem_cons_of_mem tok hx

/-- A `#` section over a list runs its body once per item; over an empty list
it runs it once, without output. -/
theorem runs_list {frames : List Frame} {name : Bytes} {body rest : Template}
    {n : Nat} {get : Int → Bool} {out : Bytes}
    (hanswer : answers frames name = .list (some get) (some true))
    (hget : ∀ i : Nat, get i = decide (i < n))
    (hbody : ∀ frames, Runs fns answers inclusions frames body body
      (body.reference values frames))
    (hrest : Runs fns answers inclusions frames rest rest out) :
    Runs fns answers inclusions frames (.loop .loopWhile name body rest)
      (.loop .loopWhile name body rest)
      ((List.range n).flatMap (fun i : Nat =>
        body.reference values (⟨name, i⟩ :: frames)) ++ out) := by
  let texts : Nat → Bytes := fun i =>
    body.reference values (⟨name, i⟩ :: frames)
  have hlast : get (n - 1 + 1 : Nat) = false := by
    rw [hget]
    exact decide_eq_false (by omega)
  have hruns : Runs fns answers inclusions frames
      (.loop .loopWhile name body rest) (.loop .loopWhile name body rest)
      ((if get 0 then (List.range (n - 1 + 1)).flatMap texts else []) ++ out) :=
    .list name (n - 1) texts hanswer
      (fun i hpos hle => by rw [hget]; exact decide_eq_true (by omega)) hlast
      (hbody _) (fun i _ _ => hbody _) hrest
  have htext : (if get 0 then (List.range (n - 1 + 1)).flatMap texts else []) =
      (List.range n).flatMap texts := by
    have hzero : get 0 = decide (0 < n) := hget 0
    rw [hzero]
    cases n with
    | zero => rfl
    | succ n => rfl
  rw [htext] at hruns
  exact hruns

/-- A template without partials runs to its reference rendering. -/
theorem runs_reference (template : Template) :
    ∀ frames : List Frame, template.Plain →
      Understands answers values template →
      Runs fns answers inclusions frames template template
        (template.reference values frames) := by
  induction template with
  | nil =>
      intro frames _ _
      exact .nil
  | text c rest ih =>
      intro frames hplain hnames
      exact .text c (ih frames (List.forall_mem_cons.mp hplain).2
        (hnames.rest rfl))
  | escaped name rest ih =>
      intro frames hplain hnames
      obtain ⟨hmeans, hlist⟩ :=
        hnames.ofVariable name (Or.inl List.mem_cons_self) frames
      exact .escaped name (hmeans.shows hlist)
        (ih frames (List.forall_mem_cons.mp hplain).2 (hnames.rest rfl))
  | raw name rest ih =>
      intro frames hplain hnames
      obtain ⟨hmeans, hlist⟩ :=
        hnames.ofVariable name (Or.inr List.mem_cons_self) frames
      exact .raw name (hmeans.shows hlist)
        (ih frames (List.forall_mem_cons.mp hplain).2 (hnames.rest rfl))
  | comment body rest ih =>
      intro frames hplain hnames
      exact .comment body (ih frames (List.forall_mem_cons.mp hplain).2
        (hnames.rest rfl))
  | inclusion name rest ih =>
      intro frames hplain _
      cases hplain _ List.mem_cons_self
  | loop type name body rest ihb ihr =>
      intro frames hplain hnames
      obtain ⟨hplainb, hplainr⟩ :=
        List.forall_mem_append.mp (List.forall_mem_cons.mp hplain).2
      have hrest := ihr frames (List.forall_mem_cons.mp hplainr).2
        (hnames.part fun x hx => List.mem_cons_of_mem _
          (List.mem_append_right _ (List.mem_cons_of_mem _ hx)))
      have hbody := fun frames => ihb frames hplainb
        (hnames.part fun x hx => List.mem_cons_of_mem _
          (List.mem_append_left _ hx))
      have hmeans := hnames.ofSection type name List.mem_cons_self frames
      cases hvalue : values frames name with
      | absent =>
          rw [hvalue] at hmeans
          have hruns := Runs.plain type name hmeans.opened_absent
            (hbody frames) hrest
          cases type with
          | loopWhile =>
              simpa [Template.reference, hvalue, LoopType.hides] using hruns
          | loopElse =>
              simpa [Template.reference, hvalue, LoopType.hides] using hruns
      | string s =>
          rw [hvalue] at hmeans
          have hruns := Runs.plain type name hmeans.opened_string
            (hbody frames) hrest
          cases type with
          | loopWhile =>
              simpa [Template.reference, hvalue, LoopType.hides] using hruns
          | loopElse =>
              simpa [Template.reference, hvalue, LoopType.hides] using hruns
      | list n =>
          rw [hvalue] at hmeans
          obtain ⟨get, hanswer, hget⟩ := hmeans.list_eq
          cases type with
          | loopWhile =>
              simpa only [Template.reference, hvalue]
                using runs_list hanswer hget hbody hrest
          | loopElse =>
              have hruns := Runs.inverted name hanswer (hbody _) hrest
              have hzero : get 0 = decide (0 < n) := hget 0
              have htext : ∀ text : Bytes,
                  (if ((some get).map (· 0)).getD false then [] else text) =
                    if n = 0 then text else [] := by
                intro text
                simp only [Option.map_some, Option.getD_some, hzero]
                cases n <;> rfl
              rw [htext] at hruns
              simpa only [Template.reference, hvalue] using hruns

/-- Tokens without inclusions are read as the machine reads them. -/
theorem tokenOk_plain {toks : List Token} (hvalid : ∀ tok ∈ toks, tok.Valid)
    (hplain : ∀ tok ∈ toks, tok.includes = false) :
    ∀ tok ∈ toks, TokenOk inclusions tok := by
  intro tok htok
  refine ⟨hvalid tok htok, ?_⟩
  rintro name rfl
  cases hplain _ htok

/-- The engine renders a template that runs and ends with a text byte. -/
theorem Runs.render (hs : Serves cb answers R)
    (hprovides : Provides fns answers inclusions) {env : σ}
    (hsession : R env [] []) {template left : Template} {out : Bytes}
    (h : Runs fns answers inclusions [] template left out) {c : UInt8}
    (hok : ∀ tok ∈ template.tokens ++ [.text c], TokenOk inclusions tok)
    {input : InputStream τ}
    (hinput : input.Delivers fns (tokenBytes (template.tokens ++ [.text c])))
    (data : Int → UInt8) :
    ∃ r, Returns (render fns cb env input data) r ∧ r.code = 0 ∧
      r.output = out ++ [c] := by
  have hlast : EndsPlain (template.tokens ++ [.text c]) := by
    intro tok htok
    rw [List.getLast?_concat] at htok
    cases htok
    rfl
  obtain ⟨r, hr, hcode, hout⟩ := render_of_rendered hs hprovides hsession
    hinput hok data (neverLeaves_of_endsPlain hlast) _ (h.rendered c)
  exact ⟨r, hr, hcode, hout⟩

theorem provides_none : Provides fns answers fun _ => none where
  found _ _ h := by cases h
  missing _ h := by cases h

/-- Rendering a template without partials that ends with a text byte succeeds
and writes the reference rendering. -/
theorem render_reference (hs : Serves cb answers R) {env : σ}
    (hsession : R env [] []) {template : Template}
    (hplain : template.Plain) {c : UInt8}
    (hvalid : ∀ tok ∈ template.tokens ++ [.text c], tok.Valid)
    (hnames : Understands answers values template) (data : Int → UInt8) :
    ∃ r, Returns (render fns cb env
        (newInputStreamFromString (template.bytes ++ [c])) data) r ∧
      r.code = 0 ∧ r.output = template.reference values [] ++ [c] := by
  have hplain' : ∀ tok ∈ template.tokens ++ [.text c],
      tok.includes = false :=
    plain_append hplain fun tok htok => List.mem_singleton.mp htok ▸ rfl
  have hbytes : template.bytes ++ [c] =
      tokenBytes (template.tokens ++ [.text c]) := by
    rw [tokenBytes_append]
    rfl
  rw [hbytes]
  exact (runs_reference template [] hplain hnames).render hs provides_none
    hsession (tokenOk_plain hvalid hplain') (delivers_tokenBytes fns hvalid)
    data

/-- `{{#l}}{{v}};{{/l}}` -/
def listTemplate : Template :=
  .loop .loopWhile [ascii 'l'] (.escaped [ascii 'v'] (.text (ascii ';') .nil))
    .nil

/-- A list of two items, of which the first shows `<`. -/
def listValues : Values := fun frames name =>
  if name = [ascii 'l'] then .list 2
  else .string (if frames.head?.map Frame.index = some 0 then [ascii '<']
    else [ascii 'b'])

def listAnswers : Answers Empty := fun frames name =>
  if name = [ascii 'l'] then .list (some fun i => decide (i < 2)) (some true)
  else .string (some (some (if frames.head?.map Frame.index = some 0
    then [ascii '<'] else [ascii 'b']))) (some true)

theorem listAnswers_understood :
    Understands listAnswers listValues listTemplate where
  ofVariable name hmem frames := by
    have hname : name = [ascii 'v'] := by
      simpa [listTemplate, Template.tokens] using hmem
    have hother : name ≠ [ascii 'l'] := by
      rw [hname]
      decide
    simp only [listAnswers, listValues, if_neg hother]
    refine ⟨?_, fun n h => by cases h⟩
    split <;> exact rfl
  ofSection type name hmem frames := by
    have hname : name = [ascii 'l'] := by
      have hmem' : type = .loopWhile ∧ name = [ascii 'l'] := by
        simpa [listTemplate, Template.tokens] using hmem
      exact hmem'.2
    simp only [listAnswers, listValues, if_pos hname]
    intro i
    exact decide_eq_decide.mpr (by omega)

theorem render_reference_list :
    ∃ r, Returns (render noStreams (answering listAnswers) []
        (newInputStreamFromString (listTemplate.bytes ++ [ascii '.']))
        fun _ => 0) r ∧
      r.code = 0 ∧ r.output = "&lt;;b;.".toList.map ascii := by
  exact render_reference (answering_serves listAnswers) answeringSession_nil
    (by decide) (by decide) listAnswers_understood fun _ => 0

end

end Libcad
