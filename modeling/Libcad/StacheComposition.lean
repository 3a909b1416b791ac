/-
Templates in sequence.  What has been written before does not change what the
interpreter does, so a template before another one is rendered as if it were
alone; and a comment is rendered as if it were not there.
-/
import Libcad.StacheEffects
import Libcad.StacheParallel

namespace Libcad

open Proc

variable {σ ο τ : Type}

def Progress.after (text : Bytes) (p : Progress σ) : Progress σ :=
  { p with output := text ++ p.output }

/-- The same result, with something else written before. -/
def AfterToo {β : Type} (text : Bytes) (x y : β × Progress σ) : Prop :=
  y = (x.1, x.2.after text)

section

variable {fns : StreamFns τ} {cb : Callback σ ο τ} {text : Bytes}

theorem writes_after {more more' : Bytes} (h : more = more') :
    Writes (fun x y => y = text ++ x) more more' := by
  rintro x _ rfl
  rw [h, List.append_assoc]

theorem Token.keeps_after (tok : Token) :
    tok.Keeps Eq (fun x y => y = text ++ x) fun _ => True := by
  cases tok with
  | text c => exact writes_after rfl
  | escaped name =>
      refine ⟨trivial, ?_⟩
      rintro c _ rfl
      exact writes_after rfl
  | raw name =>
      refine ⟨trivial, ?_⟩
      rintro c _ rfl
      exact writes_after rfl
  | opening type name =>
      refine ⟨trivial, ?_⟩
      rintro c _ rfl
      exact Iff.rfl
  | comment body | closing name | inclusion name => exact trivial

/-- The interpreter does the same whatever was written before. -/
theorem interpret_after (template : Template) (hidden : Bool)
    (p : Progress σ) :
    Agree (AfterToo text) (template.interpret fns cb hidden p)
      (template.interpret fns cb hidden (p.after text)) := by
  refine (interpret_beside (W := fun x y => y = text ++ x)
    (.refl cb (fun _ => rfl) _) template (fun tok _ => tok.keeps_after) hidden
    p (p.after text) ⟨rfl, rfl⟩).mono ?_
  rintro ⟨accepted, q⟩ ⟨_, q'⟩ ⟨rfl, henv, houtput⟩
  cases q
  cases q'
  cases henv
  cases houtput
  rfl

theorem interpret_append (a b : Template) :
    ∀ hidden p t, Returns ((a.append b).interpret fns cb hidden p) t ↔
      Returns (a.interpret fns cb hidden p >>= fun r =>
        andGoOn r (b.interpret fns cb hidden)) t := by
  have hgroup : ∀ {x : Proc (Fault × Progress σ)}
      {f g : Progress σ → Proc (Fault × Progress σ)}
      {k : Progress σ → Proc (Fault × Progress σ)}
      (_ : ∀ p t, Returns (f p) t ↔
        Returns (g p >>= fun r => andGoOn r k) t) {t},
      Returns (x >>= fun r => andGoOn r f) t ↔
        Returns (x >>= (fun r => andGoOn r g) >>= fun r => andGoOn r k) t := by
    intro x f g k hfg t
    rw [← returns_bind_assoc]
    simp only [returns_bind (x := x)]
    refine exists_congr fun r => and_congr_right fun _ => ?_
    obtain ⟨fault, p⟩ := r
    cases fault with
    | none => exact hfg p t
    | some message => exact (Returns.bind_iff (returns_pure_self _)).symm
  induction a with
  | nil =>
      intro hidden p t
      exact (Returns.bind_iff (returns_pure_self _)).symm
  | text c rest ih => exact fun hidden p t => ih hidden _ t
  | comment body rest ih => exact ih
  | escaped name rest ih =>
      exact fun hidden p t => hgroup (ih hidden)
  | raw name rest ih => exact fun hidden p t => hgroup (ih hidden)
  | loop type name body rest _ ih => exact fun hidden p t => hgroup (ih hidden)
  | inclusion name rest ih =>
      intro hidden p t
      constructor
      · intro h
        exact absurd h not_returns_undefined
      · intro h
        obtain ⟨r, hr, -⟩ := returns_bind.mp h
        exact absurd hr not_returns_undefined

end

/-- Two renderings have come to the same. -/
structure Rendered.Same (r r' : Rendered σ) : Prop where
  code : r.code = r'.code
  output : r.output = r'.output
  onError : r.onError.map Prod.fst = r'.onError.map Prod.fst
  env : r.env = r'.env

theorem Rendered.Is.same {r r' : Rendered σ} {t : Fault × Progress σ}
    (h : r.Is t) (h' : r'.Is t) : r.Same r' :=
  ⟨h.code.trans h'.code.symm, h.output.trans h'.output.symm,
    h.onError.trans h'.onError.symm, h.env.trans h'.env.symm⟩

/-- One rendering, then another one if the first one has succeeded. -/
def renderThen (x : Proc (Rendered σ)) (y : σ → Proc (Rendered σ)) :
    Proc (Rendered σ) := do
  let r ← x
  if r.code = 0 then
    let r' ← y r.env
    pure { r' with output := r.output ++ r'.output }
  else pure r

section

variable {fns : StreamFns τ} {cb : Callback σ ο τ} {a b template : Template}

theorem Template.Trails.append (ha : a.Trails) (hb : b.Trails) :
    (a.append b).Trails := by
  induction a with
  | nil => exact hb
  | text c rest ih => exact ih ha
  | escaped name rest ih => exact ih ha
  | raw name rest ih => exact ih ha
  | comment body rest ih => exact ih ha
  | inclusion name rest ih => exact ih ha
  | loop type name body rest _ ih =>
      obtain ⟨hne, hrest⟩ := ha
      refine ⟨fun hnil => hne ?_, ih hrest⟩
      cases rest with
      | nil => rfl
      | _ => cases hnil

/-- What two templates in sequence render to is what they render to one after
the other. -/
theorem render_append (ha : ∀ tok ∈ a.tokens, tok.Valid) (hplaina : a.Plain)
    (htrailsa : a.Trails) (hb : ∀ tok ∈ b.tokens, tok.Valid)
    (hplainb : b.Plain) (htrailsb : b.Trails) (env : σ)
    {input first second : InputStream τ}
    (hinput : input.Delivers fns (tokenBytes (a.append b).tokens))
    (hfirst : first.Delivers fns (tokenBytes a.tokens))
    (hsecond : second.Delivers fns (tokenBytes b.tokens))
    (data data' data'' : Int → UInt8) :
    Agree Rendered.Same (render fns cb env input data)
      (renderThen (render fns cb env first data') fun env =>
        render fns cb env second data'') := by
  have hvalid : ∀ tok ∈ (a.append b).tokens, tok.Valid := by
    rw [Template.tokens_append]
    exact List.forall_mem_append.mpr ⟨ha, hb⟩
  have hplain : (a.append b).Plain := by
    rw [Template.Plain, Template.tokens_append]
    exact plain_append hplaina hplainb
  have hwhole : Agree Rendered.Is (render fns cb env input data)
      ((a.append b).interpret fns cb false ⟨env, []⟩) :=
    render_interprets (a.append b) hvalid hplain (htrailsa.append htrailsb) env
      hinput data
  have hpart : Agree Rendered.Is (render fns cb env first data')
      (a.interpret fns cb false ⟨env, []⟩) :=
    render_interprets a ha hplaina htrailsa env hfirst data'
  have hparts : Agree (fun t r => r.Is t)
      ((a.append b).interpret fns cb false ⟨env, []⟩)
      (renderThen (render fns cb env first data') fun env =>
        render fns cb env second data'') := by
    refine Agree.congr_left (interpret_append a b false ⟨env, []⟩) ?_
    refine hpart.symm.bind ?_
    rintro ⟨fault, p⟩ r ⟨hcode, houtput, honError, henv⟩
    cases fault with
    | some message =>
        have hne : r.code ≠ 0 := by
          intro hzero
          cases hcode.symm.trans hzero
        rw [andGoOn_some, if_neg hne]
        exact Agree.pure ⟨hcode, houtput, honError, henv⟩
    | none =>
        have hzero : r.code = 0 := hcode
        have hrest : Agree Rendered.Is (render fns cb r.env second data'')
            (b.interpret fns cb false ⟨r.env, []⟩) :=
          render_interprets b hb hplainb htrailsb r.env hsecond data''
        have hafter : Agree (AfterToo r.output)
            (b.interpret fns cb false ⟨r.env, []⟩)
            (b.interpret fns cb false (Progress.after r.output ⟨r.env, []⟩)) :=
          interpret_after b false ⟨r.env, []⟩
        have hp : Progress.after r.output ⟨r.env, []⟩ = p := by
          rw [Progress.after, List.append_nil, houtput, henv]
        rw [hp] at hafter
        rw [andGoOn_none, if_pos hzero]
        refine ((hrest.trans hafter).map_left ?_).symm
        rintro r' t ⟨t', hr', rfl⟩
        exact ⟨hr'.code, congrArg (r.output ++ ·) hr'.output, hr'.onError,
          hr'.env⟩
  refine (hwhole.trans hparts).mono ?_
  rintro r r' ⟨t, ht, ht'⟩
  exact ht.same ht'

/-- The template `{{v}}!` -/
def nextNumber : Template := .raw (chars "v") (.text (ascii '!') .nil)

theorem render_counting_on :
    ∃ r r', Returns (render noStreams counting 0
        (newInputStreamFromString
          (tokenBytes (countingTemplate.append nextNumber).tokens))
        fun _ => 0) r ∧
      r.Same r' ∧ r'.output = chars "0,1,2,.3!" := by
  obtain ⟨r, hr, hsame⟩ := (@render_append Nat Bytes Empty noStreams counting
    countingTemplate nextNumber (by decide) (by decide)
    ⟨by decide, trivial⟩ (by decide) (by decide) trivial 0 _ _ _
    (delivers_tokenBytes noStreams (by decide))
    (delivers_tokenBytes noStreams (by decide))
    (delivers_tokenBytes noStreams (by decide)) (fun _ => 0) (fun _ => 0)
    (fun _ => 0)).back _ ⟨100, rfl⟩
  exact ⟨r, _, hr, hsame, rfl⟩

def Template.withoutComments : Template → Template
  | nil => nil
  | text c rest => text c rest.withoutComments
  | escaped name rest => escaped name rest.withoutComments
  | raw name rest => raw name rest.withoutComments
  | comment _ rest => rest.withoutComments
  | loop type name body rest =>
      loop type name body.withoutComments rest.withoutComments
  | inclusion name rest => inclusion name rest.withoutComments

theorem interpret_withoutComments (template : Template) :
    template.withoutComments.interpret fns cb = template.interpret fns cb := by
  induction template with
  | nil => rfl
  | comment body rest ih => exact ih
  | text c rest ih =>
      funext hidden p
      simp only [Template.withoutComments, Template.interpret, ih]
  | escaped name rest ih =>
      funext hidden p
      simp only [Template.withoutComments, Template.interpret, ih]
  | raw name rest ih =>
      funext hidden p
      simp only [Template.withoutComments, Template.interpret, ih]
  | loop type name body rest ihb ihr =>
      funext hidden p
      simp only [Template.withoutComments, Template.interpret, ihb, ihr]
  | inclusion name rest ih => rfl

theorem Template.withoutComments_tokens (P : Token → Prop)
    (h : ∀ tok ∈ template.tokens, P tok) :
    ∀ tok ∈ template.withoutComments.tokens, P tok := by
  induction template with
  | nil => exact h
  | comment body rest ih => exact ih (List.forall_mem_cons.mp h).2
  | text c rest ih | escaped name rest ih | raw name rest ih
  | inclusion name rest ih =>
      obtain ⟨hhead, htail⟩ := List.forall_mem_cons.mp h
      exact List.forall_mem_cons.mpr ⟨hhead, ih htail⟩
  | loop type name body rest ihb ihr =>
      obtain ⟨hhead, htail⟩ := List.forall_mem_cons.mp h
      obtain ⟨hbody, hrest⟩ := List.forall_mem_append.mp htail
      obtain ⟨hclose, hrest⟩ := List.forall_mem_cons.mp hrest
      exact List.forall_mem_cons.mpr ⟨hhead, List.forall_mem_append.mpr
        ⟨ihb hbody, List.forall_mem_cons.mpr ⟨hclose, ihr hrest⟩⟩⟩

/-- A section that is followed by something without the comments is followed
by something. -/
theorem Template.Trails.of_withoutComments
    (h : template.withoutComments.Trails) : template.Trails := by
  induction template with
  | nil => exact trivial
  | comment body rest ih => exact ih h
  | text c rest ih | escaped name rest ih | raw name rest ih
  | inclusion name rest ih => exact ih h
  | loop type name body rest _ ih =>
      obtain ⟨hne, hrest⟩ := h
      refine ⟨fun hnil => hne ?_, ih hrest⟩
      rw [hnil]
      rfl

/-- A template and the template without its comments render to the same. -/
theorem render_withoutComments (hvalid : ∀ tok ∈ template.tokens, tok.Valid)
    (hplain : template.Plain) (htrails : template.withoutComments.Trails)
    (env : σ) {input input' : InputStream τ}
    (hinput : input.Delivers fns (tokenBytes template.tokens))
    (hinput' : input'.Delivers fns
      (tokenBytes template.withoutComments.tokens))
    (data data' : Int → UInt8) :
    Agree Rendered.Same (render fns cb env input data)
      (render fns cb env input' data') := by
  have hwith : Agree Rendered.Is (render fns cb env input data)
      (template.interpret fns cb false ⟨env, []⟩) :=
    render_interprets template hvalid hplain htrails.of_withoutComments env
      hinput data
  have hwithout : Agree Rendered.Is (render fns cb env input' data')
      (template.withoutComments.interpret fns cb false ⟨env, []⟩) :=
    render_interprets template.withoutComments
      (template.withoutComments_tokens _ hvalid)
      (template.withoutComments_tokens _ hplain) htrails env hinput' data'
  rw [interpret_withoutComments] at hwithout
  refine (hwith.trans hwithout.symm).mono ?_
  rintro r r' ⟨t, ht, ht'⟩
  exact ht.same ht'

/-- The counting template, with comments around and inside its section. -/
def commentedTemplate : Template :=
  .comment (chars "a") (.loop .loopWhile (chars "n")
    (.comment (chars " v ") (.escaped (chars "v") (.text (ascii ',') .nil)))
    (.comment [] (.text (ascii '.') .nil)))

theorem render_uncommented :
    ∃ r r', Returns (render noStreams counting 0
        (newInputStreamFromString (tokenBytes commentedTemplate.tokens))
        fun _ => 0) r ∧
      r.Same r' ∧ r'.output = chars "0,1,2,." := by
  obtain ⟨r, hr, hsame⟩ := (@render_withoutComments Nat Bytes Empty noStreams
    counting commentedTemplate (by decide) (by decide)
    ⟨by decide, trivial⟩ 0 _ _ (delivers_tokenBytes noStreams (by decide))
    (delivers_tokenBytes noStreams (by decide)) (fun _ => 0)
    (fun _ => 0)).back _ ⟨100, rfl⟩
  exact ⟨r, _, hr, hsame, rfl⟩

end

end Libcad
