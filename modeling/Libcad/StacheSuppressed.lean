/-
Sections over a name that is not found.  Their bodies are gone through with the
output suppressed: where every lookup in the body is accepted and its partials
come to an end, nothing is seen of them.
-/
import Libcad.StacheDelimiters

namespace Libcad

open Proc TokenState

variable {σ ο τ : Type} {fns : StreamFns τ} {answers : Answers τ}
  {inclusions : Inclusions} {frames : List Frame}

def Template.ofText : Bytes → Template
  | [] => .nil
  | c :: rest => .text c (Template.ofText rest)

theorem Template.ofText_tokens (text : Bytes) :
    (Template.ofText text).tokens = text.map Token.text := by
  induction text with
  | nil => rfl
  | cons c text ih => simp only [ofText, tokens, List.map_cons, ih]

theorem runs_ofText (text : Bytes) :
    Runs fns answers inclusions frames (.ofText text) (.ofText text) text := by
  induction text with
  | nil => exact .nil
  | cons c text ih => exact .text c ih

/-- A body that runs writes nothing in a section over an absent name. -/
theorem runs_suppressed {name : Bytes} {body left : Template} {shown : Bytes}
    (habsent : answers frames name = .notFound)
    (hbody : Runs fns answers inclusions frames body left shown)
    (text : Bytes) :
    Runs fns answers inclusions frames
      (.loop .loopWhile name body (.ofText text))
      (.loop .loopWhile name left (.ofText text)) text := by
  have hopened : (answers frames name).opened fns = ⟨true, true, none⟩ := by
    rw [habsent]
    rfl
  exact .plain .loopWhile name hopened hbody (runs_ofText text)

theorem textBytes (text : Bytes) : tokenBytes (text.map Token.text) = text := by
  induction text with
  | nil => rfl
  | cons c text ih =>
      rw [List.map_cons, tokenBytes_cons, ih]
      rfl

/-- `{{#name}}body{{/name}}` -/
def suppressed (name : Bytes) (body : Template) : Template :=
  .loop .loopWhile name body .nil

/-- A suppressed section before a text has no influence, when its body runs. -/
theorem render_suppressed {cb : Callback σ ο τ} {R : Session σ ο τ}
    (hs : Serves cb answers R) (hprovides : Provides fns answers inclusions)
    {env env' : σ} (hsession : R env [] []) (hsession' : R env' [] [])
    {name : Bytes} {body left : Template} {shown post : Bytes}
    (habsent : answers [] name = .notFound)
    (hbody : Runs fns answers inclusions [] body left shown)
    (hpost : post ≠ [])
    (hok : ∀ tok ∈ (suppressed name body).tokens, TokenOk inclusions tok)
    (htext : ∀ c ∈ post, (Token.text c).Valid)
    {input input' : InputStream τ}
    (hinput : input.Delivers fns ((suppressed name body).bytes ++ post))
    (hinput' : input'.Delivers fns post) (data data' : Int → UInt8) :
    RendersAlike (render fns cb env input data)
      (render fns cb env' input' data') := by
  obtain ⟨text, c, rfl⟩ : ∃ text c, post = text ++ [c] :=
    ⟨_, _, (List.dropLast_append_getLast hpost).symm⟩
  have hpostOk : ∀ tok ∈ (Template.ofText text).tokens ++ [.text c],
      TokenOk inclusions tok := by
    rw [Template.ofText_tokens, ← List.map_singleton, ← List.map_append]
    rintro tok htok
    obtain ⟨b, hb, rfl⟩ := List.mem_map.mp htok
    exact ⟨htext b hb, fun _ heq => nomatch heq⟩
  have hsplit : (Template.loop .loopWhile name body (.ofText text)).tokens ++
      [.text c] = (suppressed name body).tokens ++
        ((Template.ofText text).tokens ++ [.text c]) := by
    simp only [suppressed, Template.tokens, List.append_assoc,
      List.cons_append, List.nil_append]
  have hbytes : tokenBytes ((Template.ofText text).tokens ++ [.text c]) =
      text ++ [c] := by
    rw [Template.ofText_tokens, ← List.map_singleton, ← List.map_append,
      textBytes]
  have hwith := runs_suppressed habsent hbody text
  obtain ⟨r, hr, hcode, hout⟩ := hwith.render hs hprovides hsession
    (hsplit ▸ List.forall_mem_append.mpr ⟨hok, hpostOk⟩)
    (by rwa [hsplit, tokenBytes_append, hbytes]) data
  obtain ⟨r', hr', hcode', hout'⟩ := (runs_ofText text).render hs hprovides
    hsession' hpostOk (by rwa [hbytes]) data'
  exact ⟨r, r', hr, hr', hcode.trans hcode'.symm, hout.trans hout'.symm⟩

/-- Nothing is found but the string `v` and the list `l`. -/
def suppressedAnswers : Answers Empty := fun _ name =>
  if name = chars "v" then .string (some (some (chars "s"))) (some true)
  else if name = chars "l" then .list (some fun i => decide (i < 2)) (some true)
  else .notFound

/-- `{{#x}}{{#l}}{{v}}{{/l}}{{/x}}.` is shown as `.`. -/
theorem render_suppressed_list :
    RendersAlike
      (render noStreams (answering suppressedAnswers) []
        (newInputStreamFromString (chars "{{#x}}{{#l}}{{v}}{{/l}}{{/x}}."))
        fun _ => 0)
      (render noStreams (answering suppressedAnswers) []
        (newInputStreamFromString (chars ".")) fun _ => 0) := by
  let body : Template :=
    .loop .loopWhile (chars "l") (.escaped (chars "v") .nil) .nil
  have hvariable : ∀ frames : List Frame, Runs noStreams suppressedAnswers
      (fun _ => none) frames (.escaped (chars "v") .nil)
      (.escaped (chars "v") .nil) (chars "s") := by
    intro frames
    have hshows : (suppressedAnswers frames (chars "v")).Shows (chars "s") :=
      rfl
    exact .escaped (chars "v") hshows .nil
  have hbody : Runs noStreams suppressedAnswers (fun _ => none) [] body body
      (chars "ss") :=
    .list (chars "l") 1 (fun _ => chars "s") rfl
      (fun i _ hle => decide_eq_true (by omega)) rfl (hvariable _)
      (fun i _ _ => hvariable _) .nil
  have hsection : (suppressed (chars "x") body).bytes ++ chars "." =
      chars "{{#x}}{{#l}}{{v}}{{/l}}{{/x}}." := by decide
  have hdelivers : ∀ text : Bytes, (0 : UInt8) ∉ text → (255 : UInt8) ∉ text →
      (newInputStreamFromString text : InputStream Empty).Delivers noStreams
        text := newInputStreamFromString_delivers noStreams
  have habsent : suppressedAnswers [] (chars "x") = .notFound := rfl
  have hok : ∀ tok ∈ (suppressed (chars "x") body).tokens,
      TokenOk (fun _ => none) tok := tokenOk_plain (by decide) (by decide)
  refine render_suppressed (answering_serves suppressedAnswers) provides_none
    answeringSession_nil answeringSession_nil habsent hbody (by decide) hok ?_ ?_
    (hdelivers _ (by decide) (by decide)) _ _
  · intro c hc
    cases List.mem_singleton.mp hc
    decide
  · rw [hsection]
    exact hdelivers _ (by decide) (by decide)

/-- `{{#x}}{{>q}}{{/x}}` -/
def guarded : List Token :=
  [.opening .loopWhile (chars "x"), .inclusion (chars "q"),
    .closing (chars "x")]

/-- The partial `q` is the section in which it is included. -/
def guardedInclusions : Inclusions := fun name =>
  if name = chars "q" then some (.found guarded) else none

def guardedAnswers : Answers Empty := fun _ name =>
  if name = chars "q" then .string (some (some (tokenBytes guarded))) (some true)
  else .notFound

theorem guarded_ok : ∀ tok ∈ guarded, TokenOk guardedInclusions tok := by
  intro tok htok
  have hvalid : ∀ tok ∈ guarded, tok.Valid := by decide
  refine ⟨hvalid tok htok, ?_⟩
  rintro name rfl
  simp only [guarded, List.mem_cons, reduceCtorEq, Token.inclusion.injEq,
    List.not_mem_nil, or_false, false_or] at htok
  rw [htok]
  rfl

theorem guardedAnswers_provide :
    Provides noStreams guardedAnswers guardedInclusions where
  found name content h := by
    rw [guardedInclusions] at h
    split at h
    next hname =>
      cases h
      refine ⟨fun frames => ?_, guarded_ok⟩
      rw [guardedAnswers, if_pos hname]
      rfl
    next => cases h
  missing name h := by
    rw [guardedInclusions] at h
    split at h <;> cases h

/-- The machine stands at the section, or inside it at the inclusion. -/
def Guarding (t : TokenState) : Prop :=
  t.frontier ≤ t.pos ∧ ∃ rest,
    t.toks.drop t.pos = guarded ++ rest ∨
      t.toks.drop t.pos = guarded.tail ++ rest

/-- The section is entered, and the inclusion brings a section again. -/
theorem Guarding.step {t : TokenState} {o : TokenState ⊕ Verdict}
    (h : Guarding t)
    (ho : Returns (t.step noStreams guardedAnswers guardedInclusions) o) :
    ∃ next, o = .inl next ∧ Guarding next := by
  obtain ⟨hfrontier, rest, hat⟩ := h
  have hlt : t.pos < t.toks.length := by
    by_contra hge
    rw [List.drop_eq_nil_of_le (Nat.not_lt.mp hge)] at hat
    rcases hat with hat | hat <;> cases hat
  rw [TokenState.step, ← List.head?_drop] at ho
  rcases hat with hat | hat
  · rw [hat] at ho
    change Returns (if t.frontier = t.toks.length then _ else _) o at ho
    rw [if_neg (by omega)] at ho
    refine ⟨_, (returns_pure.mp ho).symm, Nat.max_le.mpr
      ⟨Nat.le_succ_of_le hfrontier, Nat.le_refl _⟩, rest, Or.inr ?_⟩
    change t.toks.drop (t.pos + 1) = _
    rw [← List.tail_drop, hat]
    rfl
  · rw [hat] at ho
    change Returns (if t.frontier = t.toks.length then _ else _) o at ho
    have hmore : t.pos + 1 ≠ t.toks.length := by
      have hlength := congrArg List.length hat
      simp [guarded] at hlength
      omega
    rw [if_neg (by omega)] at ho
    change Returns (t.enter (some (.found guarded))) o at ho
    rw [TokenState.enter, if_neg hmore] at ho
    refine ⟨_, (returns_pure.mp ho).symm, hfrontier,
      t.toks.drop (t.pos + 1), Or.inl ?_⟩
    change (t.toks.take t.pos ++ guarded ++ t.toks.drop (t.pos + 1)).drop t.pos =
      _
    rw [List.append_assoc, List.drop_append_of_le_length (by simp; omega)]
    simp

/-- A partial that includes itself inside a section over an absent name is
included again and again. -/
theorem guarded_endless (data : Int → UInt8) (r : Rendered (List Frame)) :
    ¬ Returns (render noStreams (answering guardedAnswers) []
      (newInputStreamFromString (chars "{{#x}}{{>q}}{{/x}}.")) data) r := by
  intro hr
  have hinput : (newInputStreamFromString (chars "{{#x}}{{>q}}{{/x}}.") :
      InputStream Empty).Delivers noStreams
        (tokenBytes (guarded ++ [.text (ascii '.')])) :=
    newInputStreamFromString_delivers _ _ (by decide) (by decide)
  have hok : ∀ tok ∈ guarded ++ [.text (ascii '.')],
      TokenOk guardedInclusions tok := by
    refine List.forall_mem_append.mpr ⟨guarded_ok, fun tok htok => ?_⟩
    cases List.mem_singleton.mp htok
    exact ⟨by decide, fun name hname => by cases hname⟩
  have hfound : ∀ name, guardedInclusions name ≠ some .missing := by
    intro name
    rw [guardedInclusions]
    split <;> simp
  obtain ⟨verdict, hverdict, -⟩ := rendered_of_render
    (answering_serves guardedAnswers) guardedAnswers_provide
    answeringSession_nil hinput hok data (neverTorn_of_found hfound _) r hr
  refine Returns.loop_ensures (I := Guarding) (Q := fun _ => False) ?_ ?_
    hverdict
  · intro t o ht ho
    obtain ⟨next, rfl, hnext⟩ := ht.step ho
    exact hnext
  · exact ⟨Nat.le_refl _, _, Or.inl rfl⟩

/-- A variable answered with a list makes the rendering fail, suppressed or
not, and a partial that contains its own section does not let it end. -/
theorem render_not_suppressed :
    (¬ RendersAlike
      (render noStreams (answering suppressedAnswers) []
        (newInputStreamFromString (chars "{{#x}}{{l}}{{/x}}.")) fun _ => 0)
      (render noStreams (answering suppressedAnswers) []
        (newInputStreamFromString (chars ".")) fun _ => 0)) ∧
    ∀ r, ¬ Returns (render noStreams (answering guardedAnswers) []
      (newInputStreamFromString (chars "{{#x}}{{>q}}{{/x}}.")) fun _ => 0) r := by
  refine ⟨?_, guarded_endless _⟩
  have hfirst : Returns (render noStreams (answering suppressedAnswers) []
      (newInputStreamFromString (chars "{{#x}}{{l}}{{/x}}.")) fun _ => 0) _ :=
    ⟨9, rfl⟩
  have hsecond : Returns (render noStreams (answering suppressedAnswers) []
      (newInputStreamFromString (chars ".")) fun _ => 0) _ := ⟨9, rfl⟩
  rintro ⟨r, r', hr, hr', hcode, -⟩
  rw [hr.unique hfirst, hr'.unique hsecond] at hcode
  cases hcode

end Libcad
