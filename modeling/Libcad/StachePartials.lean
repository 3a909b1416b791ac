/-
Partials are textual substitution.  A run over tokens with inclusions and a run
over the tokens they expand to go in lockstep, except that the first one also
takes a step at each inclusion.
-/
import Libcad.StacheLockstep
import Libcad.StacheRefines

namespace Libcad

open Proc TokenState

/-- Replacing each inclusion by its content, from left to right and until there
is none left. -/
inductive Expands (inclusions : Inclusions) : List Token → List Token → Prop
  | nil : Expands inclusions [] []
  | keep {tok toks toks'} : tok.includes = false →
      Expands inclusions toks toks' →
      Expands inclusions (tok :: toks) (tok :: toks')
  | replace {name content toks toks'} :
      inclusions name = some (.found content) →
      Expands inclusions (content ++ toks) toks' →
      Expands inclusions (.inclusion name :: toks) toks'

variable {σ ο τ : Type} {fns : StreamFns τ} {answers : Answers τ}
  {inclusions : Inclusions} {t t' : TokenState} {toks toks' : List Token}
  {tok : Token}

theorem Expands.plain (h : Expands inclusions toks toks') :
    ∀ tok ∈ toks', Token.includes tok = false := by
  induction h with
  | nil => exact fun _ h => absurd h List.not_mem_nil
  | keep htok _ ih => exact List.forall_mem_cons.mpr ⟨htok, ih⟩
  | replace _ _ ih => exact ih

theorem Expands.ok (h : Expands inclusions toks toks')
    (hcontent : ∀ name content, inclusions name = some (.found content) →
      ∀ tok ∈ content, TokenOk inclusions tok)
    (hok : ∀ tok ∈ toks, TokenOk inclusions tok) :
    ∀ tok ∈ toks', TokenOk inclusions tok := by
  induction h with
  | nil => exact hok
  | keep _ _ ih =>
      obtain ⟨htok, hrest⟩ := List.forall_mem_cons.mp hok
      exact List.forall_mem_cons.mpr ⟨htok, ih hrest⟩
  | @replace name content _ _ hname _ ih =>
      apply ih
      exact List.forall_mem_append.mpr
        ⟨hcontent name content hname, (List.forall_mem_cons.mp hok).2⟩

/-- Something is left of tokens that end with a plain one. -/
theorem Expands.ne_nil (h : Expands inclusions toks toks')
    (hlast : EndsPlain toks) (hne : toks ≠ []) : toks' ≠ [] := by
  induction h with
  | nil => exact absurd rfl hne
  | keep _ _ _ => exact List.cons_ne_nil _ _
  | @replace name content toks toks' _ _ ih =>
      have htoks : toks ≠ [] := by
        rintro rfl
        cases hlast (.inclusion name) rfl
      apply ih
      · intro tok htok
        apply hlast
        rw [List.getLast?_append_of_ne_nil _ htoks] at htok
        rw [← List.singleton_append, List.getLast?_append_of_ne_nil _ htoks]
        exact htok
      · simp [htoks]

/-- The second state is the first with the tokens beyond the frontier
expanded. -/
structure Expanded (inclusions : Inclusions) (t t' : TokenState) : Prop where
  placed : t.Placed
  last : EndsPlain t.toks
  frontier_eq : t'.frontier = t.frontier
  pos_eq : t'.pos = t.pos
  out_eq : t'.out = t.out
  loops : SameSections Eq t.loops t'.loops
  before : t'.toks.take t.frontier = t.toks.take t.frontier
  expands : Expands inclusions (t.toks.drop t.frontier)
    (t'.toks.drop t.frontier)

theorem Expanded.frontier_le (h : Expanded inclusions t t') :
    t.frontier ≤ t'.toks.length := by
  have hlen := congrArg List.length h.before
  have hle := h.placed.frontier_le
  rw [List.length_take, List.length_take] at hlen
  omega

theorem Expanded.ended_iff (h : Expanded inclusions t t') :
    t'.frontier = t'.toks.length ↔ t.frontier = t.toks.length := by
  have hle := h.placed.frontier_le
  have hle' := h.frontier_le
  rw [h.frontier_eq]
  constructor
  · intro hended
    by_contra hlive
    have hne : t.toks.drop t.frontier ≠ [] := by
      rw [ne_eq, List.drop_eq_nil_iff]
      omega
    have hlast : EndsPlain (t.toks.drop t.frontier) := by
      intro tok htok
      rw [List.getLast?_drop] at htok
      split at htok
      · cases htok
      · exact h.last tok htok
    apply h.expands.ne_nil hlast hne
    rw [List.drop_eq_nil_iff]
    omega
  · intro hended
    have hexpands := h.expands
    rw [List.drop_eq_nil_of_le (by omega)] at hexpands
    generalize hdrop : t'.toks.drop t.frontier = rest at hexpands
    cases hexpands
    rw [List.drop_eq_nil_iff] at hdrop
    omega

/-- The states stand at the same token, or the first at an inclusion. -/
theorem Expanded.tok_eq (h : Expanded inclusions t t') :
    (∃ name, t.toks[t.pos]? = some (.inclusion name)) ∨
      (t'.toks[t'.pos]? = t.toks[t.pos]? ∧
        ∀ tok, t.toks[t.pos]? = some tok → tok.includes = false) := by
  rw [h.pos_eq]
  rcases Nat.lt_or_eq_of_le h.placed.pos_le with hlt | hat
  · right
    constructor
    · rw [← List.getElem?_take_of_lt hlt, h.before,
        List.getElem?_take_of_lt hlt]
    · intro tok htok
      rw [← List.getElem?_take_of_lt hlt] at htok
      exact h.placed.plain tok (List.mem_of_getElem? htok)
  · have hexpands := h.expands
    rw [← hat] at hexpands
    rw [← List.head?_drop, ← List.head?_drop]
    generalize t.toks.drop t.pos = rest at hexpands
    generalize t'.toks.drop t.pos = rest' at hexpands
    cases hexpands with
    | nil => exact Or.inr ⟨rfl, fun tok htok => nomatch htok⟩
    | keep htok _ =>
        refine Or.inr ⟨rfl, fun tok h => ?_⟩
        cases h
        exact htok
    | replace _ _ => exact Or.inl ⟨_, rfl⟩

/-- The step at an inclusion, which the second run does not take. -/
theorem Expanded.enter (h : Expanded inclusions t t') {name : Bytes}
    (htok : t.toks[t.pos]? = some (.inclusion name)) :
    ∃ content, inclusions name = some (.found content) ∧
      Returns (t.step fns answers inclusions) (.inl { t with
        toks := t.toks.take t.pos ++ content ++ t.toks.drop (t.pos + 1) }) ∧
      Expanded inclusions { t with
        toks := t.toks.take t.pos ++ content ++ t.toks.drop (t.pos + 1) }
        t' := by
  have hfrontier := h.placed.frontier_eq htok rfl
  obtain ⟨hpos, hget⟩ := List.getElem?_eq_some_iff.mp htok
  have hmore : t.pos + 1 ≠ t.toks.length := by
    intro hend
    have hget : t.toks.getLast? = some (.inclusion name) := by
      rw [List.getLast?_eq_getElem?, ← hend, Nat.add_sub_cancel, htok]
    cases h.last _ hget
  have hexpands := h.expands
  rw [hfrontier, List.drop_eq_getElem_cons hpos, hget] at hexpands
  generalize hrest' : t'.toks.drop t.pos = rest' at hexpands
  cases hexpands with
  | keep hplain _ => cases hplain
  | @replace _ content _ _ hname hexpands =>
      have hstep : Returns (t.step fns answers inclusions) (.inl { t with
          toks := t.toks.take t.pos ++ content ++
            t.toks.drop (t.pos + 1) }) := by
        have hlive : t.frontier ≠ t.toks.length := by omega
        rw [step_live htok hlive]
        show Returns (t.enter (inclusions name)) _
        rw [hname, TokenState.enter, if_neg hmore]
        exact returns_pure_self _
      have htake : (t.toks.take t.pos).length = t.pos :=
        List.length_take_of_le (by omega)
      refine ⟨content, hname, hstep, h.placed.step hstep,
        step_endsPlain h.placed h.last hstep, h.frontier_eq, h.pos_eq,
        h.out_eq, h.loops, ?_, ?_⟩
      · show t'.toks.take t.frontier = (t.toks.take t.pos ++ content ++
          t.toks.drop (t.pos + 1)).take t.frontier
        rw [h.before, hfrontier, List.append_assoc, List.take_left' htake]
      · show Expands inclusions ((t.toks.take t.pos ++ content ++
          t.toks.drop (t.pos + 1)).drop t.frontier) (t'.toks.drop t.frontier)
        rw [hfrontier, List.append_assoc, List.drop_left' htake, hrest']
        exact hexpands

theorem Expanded.moved (h : Expanded inclusions t t')
    (htok : t.toks[t.pos]? = some tok) (hplain : tok.includes = false) :
    t'.toks.take (max t.frontier (t.pos + 1)) =
        t.toks.take (max t.frontier (t.pos + 1)) ∧
      Expands inclusions (t.toks.drop (max t.frontier (t.pos + 1)))
        (t'.toks.drop (max t.frontier (t.pos + 1))) := by
  rcases Nat.lt_or_eq_of_le h.placed.pos_le with hlt | hat
  · rw [Nat.max_eq_left (show t.pos + 1 ≤ t.frontier from hlt)]
    exact ⟨h.before, h.expands⟩
  · have hbefore := h.before
    have hexpands := h.expands
    obtain ⟨hpos, hget⟩ := List.getElem?_eq_some_iff.mp htok
    rw [← hat] at hbefore hexpands
    rw [← hat, Nat.max_eq_right (Nat.le_succ _)]
    rw [List.drop_eq_getElem_cons hpos, hget] at hexpands
    generalize hrest' : t'.toks.drop t.pos = rest' at hexpands
    cases hexpands with
    | replace _ _ => cases hplain
    | @keep _ _ rest' _ hexpands =>
        have htok' : t'.toks[t.pos]? = some tok := by
          rw [← List.head?_drop, hrest']
          rfl
        have hdrop' : t'.toks.drop (t.pos + 1) = rest' := by
          rw [← List.tail_drop, hrest']
          rfl
        rw [List.take_add_one, List.take_add_one, hbefore, htok, htok', hdrop']
        exact ⟨rfl, hexpands⟩

/-- At any other token the two states do the same. -/
theorem Expanded.lockstep (h : Expanded inclusions t t')
    (hsame : t'.toks[t'.pos]? = t.toks[t.pos]?)
    (hplain : ∀ tok, t.toks[t.pos]? = some tok → tok.includes = false) :
    Agree (SumRel (Expanded inclusions) Eq) (t.step fns answers inclusions)
      (t'.step fns answers inclusions) := by
  have hskips : t'.skips = t.skips := h.loops.skips
  cases htok : t.toks[t.pos]? with
  | none =>
      have hempty : t'.loops.isEmpty = t.loops.isEmpty := by
        have hloops := h.loops
        generalize t.loops = ms at hloops
        generalize t'.loops = ms' at hloops
        cases hloops <;> rfl
      rw [step, step, hsame, htok]
      apply Agree.pure
      rw [hempty, h.out_eq]
      exact .inr rfl
  | some tok =>
      by_cases hended : t.frontier = t.toks.length
      · rw [step, step, hsame, htok]
        dsimp only
        rw [if_pos hended, if_pos (h.ended_iff.mpr hended)]
        apply Agree.pure
        rw [failed, failed, write_out, write_out, hskips, h.out_eq]
        exact .inr rfl
      · have hended' := mt h.ended_iff.mp hended
        have hsteps : Agree (Outcome Eq t.advance t'.advance)
            (t.step fns answers inclusions) (t'.step fns answers inclusions) :=
          step_lockstep htok (hsame.trans htok) (hplain tok htok) hended
            hended' h.loops (congrArg (· + 1) h.pos_eq.symm)
        refine hsteps.with_returns.mono ?_
        rintro o o' ⟨houtcome, ho, -⟩
        cases houtcome with
        | fails text =>
            have hout : t'.advance.out = t.advance.out := h.out_eq
            rw [hout]
            exact .inr rfl
        | @goes loops loops' pos pos' text hloops hpos =>
            obtain ⟨hbefore, hexpands⟩ := h.moved htok (hplain tok htok)
            have hfrontier : max t'.frontier (t'.pos + 1) =
                max t.frontier (t.pos + 1) := by
              rw [h.frontier_eq, h.pos_eq]
            exact .inl ⟨h.placed.step ho, step_endsPlain h.placed h.last ho,
              hfrontier, hpos.symm, congrArg (· ++ text) h.out_eq, hloops,
              hbefore, hexpands⟩

/-- The first run comes to a token that is not an inclusion. -/
theorem Expanded.settle {rest rest' : List Token}
    (hexpands : Expands inclusions rest rest') :
    ∀ t, Expanded inclusions t t' → t.toks.drop t.frontier = rest →
      ∃ t₁, Reaches (step fns answers inclusions) t t₁ ∧
        Expanded inclusions t₁ t' ∧
        t'.toks[t'.pos]? = t₁.toks[t₁.pos]? ∧
        ∀ tok, t₁.toks[t₁.pos]? = some tok → tok.includes = false := by
  induction hexpands with
  | nil =>
      intro t h hrest
      rcases h.tok_eq with ⟨name, htok⟩ | hsame
      · have hfrontier := h.placed.frontier_eq htok rfl
        rw [← List.head?_drop, ← hfrontier, hrest] at htok
        cases htok
      · exact ⟨t, Reaches.refl t, h, hsame⟩
  | keep hplain _ _ =>
      intro t h hrest
      rcases h.tok_eq with ⟨name, htok⟩ | hsame
      · have hfrontier := h.placed.frontier_eq htok rfl
        rw [← List.head?_drop, ← hfrontier, hrest] at htok
        cases htok
        cases hplain
      · exact ⟨t, Reaches.refl t, h, hsame⟩
  | @replace name content rest _ hname _ ih =>
      intro t h hrest
      rcases h.tok_eq with ⟨name', htok⟩ | hsame
      · have hfrontier := h.placed.frontier_eq htok rfl
        obtain ⟨content', hname', hstep, hnext⟩ := h.enter htok
        have hhead := htok
        rw [← List.head?_drop, ← hfrontier, hrest] at hhead
        cases hhead
        rw [hname] at hname'
        cases hname'
        have hdrop : t.toks.drop (t.pos + 1) = rest := by
          rw [← List.tail_drop, ← hfrontier, hrest]
          rfl
        have htake : (t.toks.take t.pos).length = t.pos :=
          List.length_take_of_le (hfrontier ▸ h.placed.frontier_le)
        obtain ⟨t₁, hreach, hsettled⟩ := ih _ hnext (by
          show (t.toks.take t.pos ++ content ++
            t.toks.drop (t.pos + 1)).drop t.frontier = content ++ rest
          rw [hdrop, hfrontier, List.append_assoc, List.drop_left' htake])
        exact ⟨t₁, (Reaches.step hstep).trans hreach, hsettled⟩
      · exact ⟨t, Reaches.refl t, h, hsame⟩

theorem Expanded.returns_iff (h : Expanded inclusions t t') {v : Verdict} :
    Returns (loop (step fns answers inclusions) t) v ↔
      Returns (loop (step fns answers inclusions) t') v := by
  constructor
  · intro hv
    refine Returns.loop_induction
      (P := fun t v => ∀ t', Expanded inclusions t t' →
        Returns (loop (step fns answers inclusions) t') v) ?_ ?_ hv t' h
    · intro t v hexit t' h
      rcases h.tok_eq with ⟨name, htok⟩ | ⟨hsame, hplain⟩
      · obtain ⟨content, -, hstep, -⟩ := h.enter htok
        cases hexit.unique hstep
      · obtain ⟨o, ho, hrel⟩ := (h.lockstep hsame hplain).forth _ hexit
        cases hrel with
        | inr heq =>
            subst heq
            exact ho.loop_exit
    · intro t t₁ v hnext _ ih t' h
      rcases h.tok_eq with ⟨name, htok⟩ | ⟨hsame, hplain⟩
      · obtain ⟨content, -, hstep, hexpanded⟩ := h.enter htok
        cases hnext.unique hstep
        exact ih t' hexpanded
      · obtain ⟨o, ho, hrel⟩ := (h.lockstep hsame hplain).forth _ hnext
        cases hrel with
        | inl hexpanded => exact ho.loop_next.mpr (ih _ hexpanded)
  · intro hv
    refine Returns.loop_induction
      (P := fun t' v => ∀ t, Expanded inclusions t t' →
        Returns (loop (step fns answers inclusions) t) v) ?_ ?_ hv t h
    · intro t' v hexit t h
      obtain ⟨t₁, hreach, h₁, hsame, hplain⟩ := Expanded.settle h.expands t h rfl
      obtain ⟨o, ho, hrel⟩ := (h₁.lockstep hsame hplain).back _ hexit
      cases hrel with
      | inr heq =>
          subst heq
          exact hreach.returns_iff.mpr ho.loop_exit
    · intro t' t'₁ v hnext _ ih t h
      obtain ⟨t₁, hreach, h₁, hsame, hplain⟩ := Expanded.settle h.expands t h rfl
      obtain ⟨o, ho, hrel⟩ := (h₁.lockstep hsame hplain).back _ hnext
      cases hrel with
      | inl hexpanded =>
          exact hreach.returns_iff.mpr (ho.loop_next.mpr (ih _ hexpanded))

theorem start_expanded (h : Expands inclusions toks toks')
    (hlast : EndsPlain toks) :
    Expanded inclusions (start toks) (start toks') :=
  ⟨start_placed toks, hlast, rfl, rfl, rfl, .nil, rfl, h⟩

/-- Rendering a template with partials comes to the same as rendering the
template in which every partial tag is replaced by its content. -/
theorem render_partials {cb : Callback σ ο τ} {R : Session σ ο τ}
    (hs : Serves cb answers R) (hprovides : Provides fns answers inclusions)
    (hfound : ∀ name, inclusions name ≠ some .missing)
    (hok : ∀ tok ∈ toks, TokenOk inclusions tok) (hlast : EndsPlain toks)
    (hexpands : Expands inclusions toks toks')
    {env env' : σ} (hsession : R env [] []) (hsession' : R env' [] [])
    {input input' : InputStream τ}
    (hinput : input.Delivers fns (tokenBytes toks))
    (hinput' : input'.Delivers fns (tokenBytes toks'))
    (data data' : Int → UInt8) (verdict : Verdict) :
    RendersTo fns cb env input data verdict ↔
      RendersTo fns cb env' input' data' verdict := by
  have hok' := hexpands.ok (fun name content hname =>
    (hprovides.found name content hname).2) hok
  have hlast' : EndsPlain toks' :=
    fun tok htok => hexpands.plain tok (List.mem_of_getLast? htok)
  rw [rendersTo_iff hs hprovides hsession hinput hok data
      (neverLeaves_of_endsPlain hlast) (neverTorn_of_found hfound toks) verdict,
    rendersTo_iff hs hprovides hsession' hinput' hok' data'
      (neverLeaves_of_endsPlain hlast') (neverTorn_of_found hfound toks')
      verdict]
  exact (start_expanded hexpands hlast).returns_iff

/-- `p` is `a{{>q}}`, and `q` is `b`. -/
def nestedInclusions : Inclusions := fun name =>
  if name = [ascii 'p'] then
    some (.found [.text (ascii 'a'), .inclusion [ascii 'q']])
  else if name = [ascii 'q'] then some (.found [.text (ascii 'b')])
  else none

def nestedAnswers : Answers Empty := fun _ name =>
  match nestedInclusions name with
  | some (.found content) =>
      .string (some (some (tokenBytes content))) (some true)
  | _ => .notFound

theorem nestedAnswers_provide :
    Provides noStreams nestedAnswers nestedInclusions where
  found name content h := by
    refine ⟨fun frames => ?_, ?_⟩
    · simp only [nestedAnswers, h]
      exact rfl
    · intro tok htok
      simp only [nestedInclusions] at h
      split at h
      · cases h
        refine ⟨?_, ?_⟩
        · revert tok
          decide
        · rintro name rfl
          simp at htok
          rw [htok]
          rfl
      · split at h
        · cases h
          refine ⟨?_, ?_⟩
          · revert tok
            decide
          · rintro name rfl
            simp at htok
        · cases h
  missing name h := by
    simp only [nestedInclusions] at h
    split at h
    · cases h
    · split at h <;> cases h

theorem nestedInclusions_found (name : Bytes) :
    nestedInclusions name ≠ some .missing := by
  simp only [nestedInclusions]
  split
  · simp
  · split <;> simp

theorem nestedInclusions_ok (hvalid : ∀ tok ∈ toks, Token.Valid tok)
    (hnames : ∀ name, .inclusion name ∈ toks → name = [ascii 'p']) :
    ∀ tok ∈ toks, TokenOk nestedInclusions tok := by
  intro tok htok
  refine ⟨hvalid tok htok, ?_⟩
  rintro name rfl
  rw [hnames name htok]
  rfl

theorem render_partials_nested :
    RendersTo noStreams (answering nestedAnswers) []
        (newInputStreamFromString ("{{>p}}.".toList.map ascii)) (fun _ => 0)
        ⟨0, "ab.".toList.map ascii⟩ ↔
      RendersTo noStreams (answering nestedAnswers) []
        (newInputStreamFromString ("ab.".toList.map ascii)) (fun _ => 0)
        ⟨0, "ab.".toList.map ascii⟩ := by
  have hok : ∀ tok ∈ [Token.inclusion [ascii 'p'], .text (ascii '.')],
      TokenOk nestedInclusions tok :=
    nestedInclusions_ok (by decide) fun name hname => by simpa using hname
  have hexpands : Expands nestedInclusions
      [.inclusion [ascii 'p'], .text (ascii '.')]
      [.text (ascii 'a'), .text (ascii 'b'), .text (ascii '.')] :=
    .replace (show nestedInclusions [ascii 'p'] = some (.found
        [.text (ascii 'a'), .inclusion [ascii 'q']]) from rfl)
      (.keep rfl (.replace (show nestedInclusions [ascii 'q'] = some (.found
        [.text (ascii 'b')]) from rfl) (.keep rfl (.keep rfl .nil))))
  exact render_partials (answering_serves nestedAnswers)
    nestedAnswers_provide nestedInclusions_found hok
    (fun tok htok => by cases htok; rfl)
    hexpands answeringSession_nil answeringSession_nil
    (delivers_tokenBytes noStreams (fun tok htok => (hok tok htok).valid))
    (@delivers_tokenBytes _ noStreams [.text (ascii 'a'), .text (ascii 'b'),
      .text (ascii '.')] (by decide)) _ _ _

end Libcad
