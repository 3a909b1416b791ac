/-
The names a rendering looks up.  A callback that notes them answers as before,
so blanks directly before the names of the tags change neither the names, nor
their order, nor what is written.
-/
import Libcad.StacheBlanks

namespace Libcad

open Proc

variable {σ ο τ : Type}

/-- Besides the state behind the callback, the names looked up so far. -/
structure Noted (σ : Type) where
  env : σ
  names : List Bytes

def Noted.call {β : Type} (f : σ → β × σ) (t : Noted σ) : β × Noted σ :=
  ((f t.env).1, ⟨(f t.env).2, t.names⟩)

/-- The same callback, that notes every name it is asked for. -/
def Callback.noting (cb : Callback σ ο τ) : Callback (Noted σ) ο τ where
  resolve t name :=
    ((cb.resolve t.env name).1,
      ⟨(cb.resolve t.env name).2, t.names ++ [name]⟩)
  stringGet o := (cb.stringGet o).map Noted.call
  stringFree o := (cb.stringFree o).map Noted.call
  listGet o := (cb.listGet o).map fun get t index =>
    Noted.call (fun env => get env index) t
  listClose o := (cb.listClose o).map Noted.call
  streamGet o := (cb.streamGet o).map Noted.call
  streamFree o := (cb.streamFree o).map Noted.call

/-- What a rendering comes to: the names it looked up, in their order, its code
and its output. -/
structure Outcome where
  names : List Bytes
  code : Int
  output : Bytes
deriving Repr, DecidableEq

/-- The rendering of a template returns, and comes to this. -/
def RendersNoting (fns : StreamFns τ) (cb : Callback σ ο τ) (env : σ)
    (input : InputStream τ) (data : Int → UInt8) (outcome : Outcome) : Prop :=
  ∃ r, Returns (render fns cb.noting ⟨env, []⟩ input data) r ∧
    outcome = ⟨r.env.names, r.code, r.output⟩

variable {fns : StreamFns τ} {cb : Callback σ ο τ} {partials : Bytes → Prop}
  {toks : List Token} {name : Bytes} {t t' : Noted σ} {object : ο}

theorem noted_call {β : Type} {f : Option (σ → β × σ)}
    {get : Noted σ → β × Noted σ} (h : f.map Noted.call = some get) :
    ∃ call, f = some call ∧ ∀ t, (get t).1 = (call t.env).1 := by
  obtain ⟨call, hf, rfl⟩ := Option.map_eq_some_iff.mp h
  exact ⟨call, hf, fun _ => rfl⟩

theorem noting_resolve {lookup : Lookup ο}
    (h : cb.noting.resolve t name = (lookup, t')) :
    cb.resolve t.env name = (lookup, t'.env) := by
  cases h
  rfl

theorem noting_misses (h : cb.noting.Misses name t) :
    cb.Misses name t.env := by
  rcases hresolve : cb.noting.resolve t name with ⟨lookup, t'⟩
  rw [Callback.Misses, hresolve] at h
  rw [Callback.Misses, noting_resolve hresolve]
  cases lookup with
  | notFound => trivial
  | invalid => trivial
  | list object => exact h
  | string object =>
      obtain ⟨get, hget, hnull⟩ := h
      obtain ⟨call, hcall, heq⟩ := noted_call hget
      exact ⟨call, hcall, (heq _).symm.trans hnull⟩
  | stream object =>
      obtain ⟨get, hget, hnull⟩ := h
      obtain ⟨call, hcall, heq⟩ := noted_call hget
      exact ⟨call, hcall, (heq _).symm.trans hnull⟩

theorem FoundBefore.noting {tok next : Token} (h : FoundBefore cb tok next) :
    FoundBefore cb.noting tok next := by
  intro name htok
  rcases h name htok with htext | hfound
  · exact Or.inl htext
  · exact Or.inr fun t hmisses => hfound t.env (noting_misses hmisses)

theorem InGrammar.noting (h : InGrammar cb partials toks) :
    InGrammar cb.noting partials toks :=
  ⟨h.valid, h.known, h.found.imp fun _ _ => FoundBefore.noting⟩

theorem PartialInGrammar.noting (h : PartialInGrammar cb partials toks) :
    PartialInGrammar cb.noting partials toks :=
  ⟨h.toInGrammar.noting, fun tok htok next => (h.last tok htok next).noting⟩

theorem noting_holdsTemplates (hcb : cb.HoldsTemplates fns partials) :
    cb.noting.HoldsTemplates fns partials where
  string := by
    intro name t object t' get c hname hresolve hget hc
    obtain ⟨call, hcall, heq⟩ := noted_call hget
    obtain ⟨hfree, content, hcontent, hbytes⟩ := hcb.string hname
      (noting_resolve hresolve) hcall ((heq t').symm.trans hc)
    exact ⟨Option.isSome_map.trans hfree, content, hcontent.noting, hbytes⟩
  stream := by
    intro name t object t' get s hname hresolve hget hs
    obtain ⟨call, hcall, heq⟩ := noted_call hget
    obtain ⟨hfree, content, hcontent, hdelivers⟩ := hcb.stream hname
      (noting_resolve hresolve) hcall ((heq t').symm.trans hs)
    exact ⟨Option.isSome_map.trans hfree, content, hcontent.noting, hdelivers⟩

/-- Blanks directly before the names of the tags of a template do not matter. -/
theorem blanks_before_names {spelled : List Token}
    (hcb : cb.HoldsTemplates fns partials)
    (htoks : InGrammar cb partials toks)
    (hspelled : List.Forall₂ Token.SpacedAs toks spelled) (env : σ)
    {input input' : InputStream τ}
    (hinput : input.Delivers fns (tokenBytes toks))
    (hinput' : input'.Delivers fns (tokenBytes spelled))
    (data data' : Int → UInt8) (outcome : Outcome) :
    RendersNoting fns cb env input data outcome ↔
      RendersNoting fns cb env input' data' outcome := by
  have halike := render_alike (noting_holdsTemplates hcb) htoks.noting hspelled
    ⟨env, []⟩ hinput hinput' data data'
  constructor
  · rintro ⟨r, hr, rfl⟩
    obtain ⟨r', hr', hcode, houtput, henv⟩ := halike.forth r hr
    refine ⟨r', hr', ?_⟩
    rw [hcode, houtput, henv]
  · rintro ⟨r', hr', rfl⟩
    obtain ⟨r, hr, hcode, houtput, henv⟩ := halike.back r' hr'
    refine ⟨r, hr, ?_⟩
    rw [hcode, houtput, henv]

/-- `a` stands for `x`; no other name is found. -/
def oneName : Answers Empty := fun _ name =>
  if name = chars "a" then .string (some (some (chars "x"))) (some true)
  else .notFound

theorem oneName_found (env : List Frame) :
    ¬ (answering oneName).Misses (chars "a") env := by
  rintro ⟨get, hget, hnull⟩
  cases hget
  cases hnull

theorem oneName_holdsTemplates :
    (answering oneName).HoldsTemplates noStreams (· = chars "a") where
  string := by
    rintro name env object env' get c rfl hresolve hget hc
    cases hresolve
    cases hget
    cases hc
    refine ⟨rfl, [.text (ascii 'x')], ⟨⟨by decide, ?_, .singleton _⟩, ?_⟩, rfl⟩
    · intro name hmem
      cases List.mem_singleton.mp hmem
    · intro tok htok next name hinclusion
      cases htok
      cases hinclusion
  stream := by
    rintro name env object env' get s rfl hresolve
    cases hresolve

/-- A partial inside a section, with these blanks before the names. -/
def oneNameTags (gap : Bytes) : List Token :=
  [.opening .loopWhile (gap ++ chars "a"), .inclusion (gap ++ chars "a"),
    .closing (gap ++ chars "a"), .text (ascii '.')]

theorem oneNameTags_inGrammar :
    InGrammar (answering oneName) (· = chars "a") (oneNameTags []) where
  valid := by decide
  known := by simp [oneNameTags]
  found := by
    refine (List.pairwise_of_forall_mem_list ?_).isChain
    intro tok htok next _ name hname
    subst hname
    have hknown : name = chars "a" := by simpa [oneNameTags] using htok
    exact Or.inr (hknown ▸ oneName_found)

theorem blanks_before_one_name :
    RendersNoting noStreams (answering oneName) []
      (newInputStreamFromString (tokenBytes (oneNameTags (chars " \n"))))
      (fun _ => 0)
      ⟨[chars "a", chars "a"], 0, chars "x."⟩ := by
  have hgap : Blanks (chars " \n") := by decide
  have hspelled : List.Forall₂ Token.SpacedAs (oneNameTags [])
      (oneNameTags (chars " \n")) :=
    .cons (.opening _ _ hgap) (.cons (.inclusion _ hgap)
      (.cons (.closing _ hgap) (.cons (.text _) .nil)))
  have hplain : RendersNoting noStreams (answering oneName) []
      (newInputStreamFromString (tokenBytes (oneNameTags []))) (fun _ => 0)
      ⟨[chars "a", chars "a"], 0, chars "x."⟩ :=
    ⟨_, ⟨60, rfl⟩, rfl⟩
  exact (blanks_before_names oneName_holdsTemplates oneNameTags_inGrammar
    hspelled []
    (newInputStreamFromString_delivers noStreams _ (by decide) (by decide))
    (newInputStreamFromString_delivers noStreams _ (by decide) (by decide))
    (fun _ => 0) (fun _ => 0) _).mp hplain

/-- A blank after a name belongs to it: another name is looked up. -/
theorem blank_after_name :
    RendersNoting noStreams (answering oneName) []
      (newInputStreamFromString (chars "{{a}}.")) (fun _ => 0)
      ⟨[chars "a"], 0, chars "x."⟩ ∧
    ¬ RendersNoting noStreams (answering oneName) []
      (newInputStreamFromString (chars "{{a }}.")) (fun _ => 0)
      ⟨[chars "a"], 0, chars "x."⟩ := by
  refine ⟨⟨_, ⟨20, rfl⟩, rfl⟩, ?_⟩
  rintro ⟨r, hr, houtcome⟩
  have hspaced : Returns (render noStreams (answering oneName).noting ⟨[], []⟩
      (newInputStreamFromString (chars "{{a }}.")) fun _ => 0) _ := ⟨20, rfl⟩
  cases hr.unique hspaced
  have hnames : [chars "a"] = [chars "a "] := congrArg Outcome.names houtcome
  exact absurd hnames (by decide)

end Libcad
