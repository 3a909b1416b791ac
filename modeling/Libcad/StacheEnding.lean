/-
Templates that end with a tag.  Once the last byte has been read nothing can be
read again, so a list that goes back to its body from the last tag fails, and
so does a partial tag, which wants to read on.
-/
import Libcad.StacheNesting
import Libcad.StachePartials
import Libcad.StacheReference

namespace Libcad

open Proc TokenState

variable {σ ο τ : Type} {fns : StreamFns τ} {answers : Answers τ}
  {inclusions : Inclusions} {t t' : TokenState} {toks toks' : List Token}
  {tok : Token}

theorem Expands.split {a b : List Token}
    (h : Expands inclusions (a ++ b) toks') :
    ∃ a' b', toks' = a' ++ b' ∧ Expands inclusions a a' ∧
      Expands inclusions b b' := by
  generalize htoks : a ++ b = toks at h
  induction h generalizing a with
  | nil =>
      obtain ⟨rfl, rfl⟩ := List.append_eq_nil_iff.mp htoks
      exact ⟨[], [], rfl, .nil, .nil⟩
  | @keep tok rest rest' hplain hrest ih =>
      cases a with
      | nil =>
          rw [List.nil_append] at htoks
          exact ⟨[], _, rfl, .nil, htoks ▸ .keep hplain hrest⟩
      | cons x a =>
          rw [List.cons_append, List.cons.injEq] at htoks
          obtain ⟨rfl, htoks⟩ := htoks
          obtain ⟨a', b', rfl, ha, hb⟩ := ih htoks
          exact ⟨x :: a', b', rfl, .keep hplain ha, hb⟩
  | @replace name content rest rest' hname hrest ih =>
      cases a with
      | nil =>
          rw [List.nil_append] at htoks
          exact ⟨[], _, rfl, .nil, htoks ▸ .replace hname hrest⟩
      | cons x a =>
          rw [List.cons_append, List.cons.injEq] at htoks
          obtain ⟨rfl, rfl⟩ := htoks
          obtain ⟨a', b', rfl, ha, hb⟩ := ih (List.append_assoc content a b)
          exact ⟨a', b', rfl, .replace hname ha, hb⟩

theorem Expands.append {a a' b b' : List Token} (ha : Expands inclusions a a')
    (hb : Expands inclusions b b') :
    Expands inclusions (a ++ b) (a' ++ b') := by
  induction ha with
  | nil => exact hb
  | keep hplain _ ih => exact .keep hplain ih
  | @replace name content rest rest' hname _ ih =>
      rw [List.append_assoc] at ih
      exact .replace hname ih

theorem Expands.depth_nonneg (h : Expands inclusions toks toks')
    (hcontent : ∀ name content, inclusions name = some (.found content) →
      WellNested content) :
    ∀ level : Int, (∀ n, 0 ≤ level + depth (toks.take n)) →
      depth toks' = depth toks ∧ ∀ n, 0 ≤ level + depth (toks'.take n) := by
  induction h with
  | nil => exact fun level h => ⟨rfl, h⟩
  | @keep tok rest rest' _ _ ih =>
      intro level h
      have hzero : 0 ≤ level := by
        have h0 := h 0
        rw [List.take_zero, depth_nil] at h0
        omega
      obtain ⟨heq, hrest⟩ := ih (level + tok.nesting) fun n => by
        have hn := h (n + 1)
        rw [List.take_succ_cons, depth_cons] at hn
        omega
      refine ⟨by rw [depth_cons, depth_cons, heq], fun n => ?_⟩
      cases n with
      | zero =>
          rw [List.take_zero, depth_nil]
          omega
      | succ n =>
          have hn := hrest n
          rw [List.take_succ_cons, depth_cons]
          omega
  | @replace name content rest rest' hname _ ih =>
      intro level h
      have hwell := hcontent name content hname
      obtain ⟨heq, hrest⟩ := ih level fun n => by
        have h0 := h 0
        have hn := h (n - content.length + 1)
        have hc := hwell.depth_nonneg n
        rw [List.take_zero, depth_nil] at h0
        rw [List.take_succ_cons, depth_cons] at hn
        rw [List.take_append, depth_append]
        by_cases hshort : n ≤ content.length
        · rw [Nat.sub_eq_zero_of_le hshort, List.take_zero, depth_nil]
          omega
        · rw [List.take_of_length_le (by omega), hwell.depth_eq]
          change 0 ≤ level + (0 + depth (rest.take (n - content.length))) at hn
          exact hn
      refine ⟨?_, hrest⟩
      rw [heq, depth_append, hwell.depth_eq, depth_cons]
      rfl

theorem Expands.wellNested (h : Expands inclusions toks toks')
    (hcontent : ∀ name content, inclusions name = some (.found content) →
      WellNested content)
    (htoks : WellNested toks) : WellNested toks' := by
  obtain ⟨heq, hnonneg⟩ := h.depth_nonneg hcontent 0 fun n => by
    rw [Int.zero_add]
    exact htoks.depth_nonneg n
  refine ⟨heq.trans htoks.depth_eq, fun n => ?_⟩
  have hn := hnonneg n
  rwa [Int.zero_add] at hn

theorem expands_of_returns (hfound : ∀ name, inclusions name ≠ some .missing)
    {v : Verdict} (ht : t.Placed)
    (hv : Returns (loop (step fns answers inclusions) t) v)
    (hcode : v.code = 0) :
    ∃ rest', Expands inclusions (t.toks.drop t.frontier) rest' := by
  refine Returns.loop_induction
    (P := fun t v => t.Placed → v.code = 0 →
      ∃ rest', Expands inclusions (t.toks.drop t.frontier) rest')
    ?_ ?_ hv ht hcode
  · intro t v hexit ht hcode
    rcases step_inr hexit with ⟨hnone, -⟩ | hfailed
    · have hlen := List.getElem?_eq_none_iff.mp hnone
      have hle := ht.pos_le
      rw [List.drop_eq_nil_of_le (by omega)]
      exact ⟨[], .nil⟩
    · rw [hfailed] at hcode
      cases hcode
  · intro t t₁ v hnext _ ih ht hcode
    obtain ⟨rest', hrest⟩ := ih (ht.step hnext) hcode
    obtain ⟨tok, htok, -, ⟨hplain, hmoves⟩ | ⟨name, rfl, henter⟩⟩ :=
      step_inl hnext
    · have htoks : t₁.toks = t.toks := hmoves.toks_eq
      have hfrontier : t₁.frontier = max t.frontier (t.pos + 1) :=
        hmoves.frontier_eq
      rw [htoks, hfrontier] at hrest
      rcases Nat.lt_or_eq_of_le ht.pos_le with hlt | hat
      · rw [Nat.max_eq_left (show t.pos + 1 ≤ t.frontier from hlt)] at hrest
        exact ⟨rest', hrest⟩
      · obtain ⟨hpos, hget⟩ := List.getElem?_eq_some_iff.mp htok
        rw [← hat, Nat.max_eq_right (Nat.le_succ _)] at hrest
        rw [← hat, List.drop_eq_getElem_cons hpos, hget]
        exact ⟨tok :: rest', .keep hplain hrest⟩
    · have hat := ht.frontier_eq htok rfl
      obtain ⟨hpos, hget⟩ := List.getElem?_eq_some_iff.mp htok
      obtain ⟨-, ⟨content, hname, rfl⟩ | ⟨hmissing, -⟩⟩ := enter_inl henter
      · have htake : (t.toks.take t.pos).length = t.pos :=
          List.length_take_of_le (by omega)
        change Expands inclusions ((t.toks.take t.pos ++ content ++
          t.toks.drop (t.pos + 1)).drop t.frontier) rest' at hrest
        rw [hat, List.append_assoc, List.drop_left' htake] at hrest
        rw [hat, List.drop_eq_getElem_cons hpos, hget]
        exact ⟨rest', .replace hname hrest⟩
      · exact absurd hmissing (hfound name)

def TokenState.longer (t : TokenState) (x : UInt8) : TokenState :=
  { t with toks := t.toks ++ [.text x] }

theorem sameSections_refl (ms : List TokenLoop) : SameSections Eq ms ms := by
  induction ms with
  | nil => exact .nil
  | cons m ms ih => exact .cons ⟨rfl, rfl, rfl, rfl, rfl, rfl⟩ ih

theorem sameSections_eq {ms ms' : List TokenLoop}
    (h : SameSections Eq ms ms') : ms = ms' := by
  induction h with
  | nil => rfl
  | @cons m m' ms ms' hm _ ih =>
      obtain ⟨type, name, list, mark, index, empty⟩ := m
      obtain ⟨rfl, rfl, rfl, rfl, rfl, rfl⟩ := hm
      rw [ih]

/-- The token alone decides the step, whatever the other tokens are. -/
theorem step_retoken {toks' : List Token} (htok : t.toks[t.pos]? = some tok)
    (htok' : toks'[t.pos]? = some tok) (hplain : tok.includes = false)
    (hlive : t.frontier ≠ t.toks.length)
    (hlive' : t.frontier ≠ toks'.length) :
    Agree
      (SumRel (fun a b => a.toks = t.toks ∧ b = { a with toks := toks' }) Eq)
      (t.step fns answers inclusions)
      (({ t with toks := toks' } : TokenState).step fns answers inclusions) := by
  have hread : ({ t with toks := toks' } : TokenState).toks[
      ({ t with toks := toks' } : TokenState).pos]? = some tok := htok'
  have hsteps : Agree
      (TokenState.Outcome Eq t.advance
        ({ t with toks := toks' } : TokenState).advance)
      (t.step fns answers inclusions)
      (({ t with toks := toks' } : TokenState).step fns answers inclusions) :=
    step_lockstep htok hread hplain hlive hlive' (sameSections_refl t.loops)
      rfl
  refine hsteps.mono ?_
  intro o o' houtcome
  cases houtcome with
  | fails text => exact .inr rfl
  | goes text hloops hpos =>
      cases sameSections_eq hloops
      cases hpos
      exact .inl ⟨rfl, rfl⟩

/-- Before the last token the byte makes no difference. -/
theorem step_longer {x : UInt8} (htok : t.toks[t.pos]? = some tok)
    (hplain : tok.includes = false) (hlive : t.frontier < t.toks.length) :
    Agree (SumRel (fun a b => b = a.longer x) Eq)
      (t.step fns answers inclusions)
      ((t.longer x).step fns answers inclusions) := by
  have hpos := (List.getElem?_eq_some_iff.mp htok).1
  have htok' : (t.toks ++ [Token.text x])[t.pos]? = some tok := by
    rw [List.getElem?_append_left hpos, htok]
  have hlive' : t.frontier ≠ (t.toks ++ [Token.text x]).length := by
    rw [List.length_append, List.length_singleton]
    omega
  refine (step_retoken htok htok' hplain (Nat.ne_of_lt hlive) hlive').mono ?_
  rintro _ _ (⟨htoks, rfl⟩ | rfl)
  · left
    rw [TokenState.longer, htoks]
  · exact .inr rfl

/-- Behind the last token the run ends, and with one more byte after that
byte. -/
theorem returns_behind (hpos : t.pos = t.toks.length)
    (hended : t.frontier = t.toks.length) (x : UInt8) :
    Returns (loop (step fns answers inclusions) t)
        ⟨if t.loops.isEmpty then 0 else -1, t.out⟩ ∧
      Returns (loop (step fns answers inclusions) (t.longer x))
        ⟨if t.loops.isEmpty then 0 else -1, (t.write [x]).out⟩ := by
  have hend : ∀ t' : TokenState, t'.toks[t'.pos]? = none →
      Returns (loop (step fns answers inclusions) t')
        ⟨if t'.loops.isEmpty then 0 else -1, t'.out⟩ := by
    intro t' hnone
    apply Returns.loop_exit
    rw [step, hnone]
    exact returns_pure_self _
  refine ⟨hend t (List.getElem?_eq_none_iff.mpr (Nat.le_of_eq hpos.symm)), ?_⟩
  have htok : (t.longer x).toks[(t.longer x).pos]? = some (.text x) := by
    change (t.toks ++ [Token.text x])[t.pos]? = some (.text x)
    rw [hpos, List.getElem?_concat_length]
  have hlive : (t.longer x).frontier ≠ (t.longer x).toks.length := by
    change t.frontier ≠ (t.toks ++ [Token.text x]).length
    rw [List.length_append, List.length_singleton]
    omega
  have hstep : Returns ((t.longer x).step fns answers inclusions)
      (.inl ((t.longer x).advance.write [x])) := by
    rw [step_live htok hlive]
    exact returns_pure_self _
  have hlast := hend ((t.longer x).advance.write [x]) (by
    rw [write_out]
    change (t.toks ++ [Token.text x])[t.pos + 1]? = none
    rw [List.getElem?_eq_none_iff, List.length_append, List.length_singleton,
      hpos])
  rw [write_out] at hlast
  rw [hstep.loop_next, write_out, write_out]
  exact hlast

/-- Nothing can be read again once everything has been read. -/
theorem not_returns_sticky (hpos : t.pos < t.toks.length)
    (hended : t.frontier = t.toks.length) (out : Bytes) :
    ¬ Returns (loop (step fns answers inclusions) t) ⟨0, out⟩ := by
  obtain ⟨tok, htok⟩ : ∃ tok, t.toks[t.pos]? = some tok :=
    ⟨_, List.getElem?_eq_getElem hpos⟩
  have hfails : Returns (loop (step fns answers inclusions) t)
      ⟨-1, (t.write (tok.bytes.take 1)).out⟩ := by
    apply Returns.loop_exit
    rw [step, htok]
    dsimp only
    rw [if_pos hended]
    exact returns_pure_self _
  intro h
  cases h.unique hfails

/-- Whether the answer is a list with a second item. -/
def Answer.hasSecond : Answer τ → Bool
  | .list (some get) _ => get 1
  | _ => false

/-- The section from `start` to the last token goes back to its body. -/
structure GoesBackAt (answers : Answers τ) (toks : List Token) (start : Nat)
    (name : Bytes) : Prop where
  opening : toks[start]? = some (.opening .loopWhile name)
  outside : depth (toks.take start) = 0
  inside : ∀ n, start < n → n < toks.length → 1 ≤ depth (toks.take n)
  again : (answers [] name).hasSecond = true

def GoesBack (answers : Answers τ) (toks : List Token) : Prop :=
  ∃ start name, GoesBackAt answers toks start name

theorem Answer.hasSecond_iff {answer : Answer τ} :
    answer.hasSecond = true ↔
      ∃ get close, answer = .list (some get) close ∧ get 1 = true := by
  constructor
  · intro h
    match answer, h with
    | .list (some get) close, h => exact ⟨get, close, rfl, h⟩
  · rintro ⟨get, close, rfl, h⟩
    exact h

theorem Answer.opened_list {answer : Answer τ} {get : Option (Int → Bool)}
    {close : Option Bool} :
    (answer.opened fns).list = some (get, close) ↔
      answer = .list get close := by
  cases answer with
  | list get' close' => simp [Answer.opened]
  | stream get' free' =>
      simp only [Answer.opened, reduceCtorEq, iff_false]
      split <;> simp
  | _ => simp [Answer.opened]

/-- Where the last token closes a section, only that section is open, at its
first item. -/
theorem InStep.last_section (h : InStep fns answers t)
    (hfirst : t.frontier = t.pos) (hlast : t.pos + 1 = t.toks.length)
    (hlevel : depth (t.toks.take t.pos) = 1) :
    ∃ m start, t.loops = [m] ∧ m.mark = start + 1 ∧ m.index = 0 ∧
      t.toks[start]? = some (.opening m.type m.name) ∧
      depth (t.toks.take start) = 0 ∧
      (∀ n, start < n → n < t.toks.length → 1 ≤ depth (t.toks.take n)) ∧
      m.list = ((answers [] m.name).opened fns).list := by
  have hlength := h.length_eq
  rw [hlevel] at hlength
  obtain ⟨m, hloops⟩ := List.length_eq_one_iff.mp
    (show t.loops.length = 1 by omega)
  have hnested := h.nested
  rw [hloops] at hnested
  cases hnested with
  | cons hinside _ hlist _ =>
      obtain ⟨start, hmark, hopening⟩ := hinside.opening
      have hdepth := hinside.depth_mark
      rw [hmark, depth_take_succ hopening] at hdepth
      have hnesting : (Token.opening m.type m.name).nesting = 1 := rfl
      simp only [List.length_nil, Nat.cast_zero, zero_add] at hdepth
      refine ⟨m, start, hloops, hmark, ?_, hopening, by omega, ?_, hlist⟩
      · by_contra hindex
        obtain ⟨n, hle, hn, heq⟩ := hinside.rewound hindex
        have hdeeper := hinside.deeper n hle (hfirst ▸ hn)
        rw [heq] at hdeeper
        exact absurd hdeeper (by omega)
      · intro n hlt hn
        have hdeeper := hinside.deeper n (by omega) (by omega)
        simpa using hdeeper

/-- A list with another item goes back to its body, unless its end tag has
another name. -/
theorem closeSection_again {m : TokenLoop} {ms : List TokenLoop} {name : Bytes}
    {get : Int → Bool} {close : Option Bool} (hloops : t.loops = m :: ms)
    (htype : m.type = .loopWhile) (hlist : m.list = some (some get, close))
    (hget : get m.next.index = true)
    (h : Returns (t.closeSection name) (.inl t')) : t'.pos = m.mark := by
  rw [closeSection.eq_def, hloops] at h
  dsimp only at h
  split at h
  · cases returns_pure.mp h
  · rw [hlist] at h
    obtain ⟨found, hfound, h⟩ := returns_bind.mp h
    rw [htype] at hfound
    have hfound := returns_pure.mp hfound
    rw [hget] at hfound
    rw [← hfound] at h
    cases returns_pure.mp h
    rfl

section

variable {x : UInt8} {out : Bytes}

theorem goesBack_step (h : InStep fns answers t) (hwell : WellNested t.toks)
    (hfirst : t.frontier = t.pos) (hlast : t.pos + 1 = t.toks.length)
    (hback : GoesBack answers t.toks)
    (hstep : Returns (t.step fns answers inclusions) (.inl t')) :
    t'.pos < t.toks.length := by
  obtain ⟨start, name, hopening, houtside, hinside, hagain⟩ := hback
  obtain ⟨tok, htok, hlive, hexec⟩ := step_inl hstep
  have htake : t.toks.take (t.pos + 1) = t.toks := by
    rw [hlast, List.take_length]
  have hdepth := depth_take_succ htok
  rw [htake, hwell.depth_eq] at hdepth
  have hstart : start < t.pos := by
    obtain ⟨hlt, -⟩ := List.getElem?_eq_some_iff.mp hopening
    rcases Nat.lt_or_eq_of_le (show start ≤ t.pos by omega) with hlt | rfl
    · exact hlt
    · rw [hopening] at htok
      cases htok
      rw [houtside] at hdepth
      cases hdepth
  have hlevel := hinside t.pos hstart (by omega)
  cases tok with
  | closing name' =>
      have hnesting : (Token.closing name').nesting = -1 := rfl
      obtain ⟨m, start', hloops, hmark, hindex, hopening', houtside', hinside',
        hlist⟩ := h.last_section hfirst hlast (by omega)
      have hsame : start' = start := by
        obtain ⟨hlt, -⟩ := List.getElem?_eq_some_iff.mp hopening
        obtain ⟨hlt', -⟩ := List.getElem?_eq_some_iff.mp hopening'
        rcases Nat.lt_trichotomy start start' with hless | heq | hmore
        · have hdeeper := hinside start' hless hlt'
          omega
        · exact heq.symm
        · have hdeeper := hinside' start hmore hlt
          omega
      rw [hsame, hopening] at hopening'
      obtain ⟨htype, hname⟩ := Token.opening.inj (Option.some.inj hopening')
      obtain ⟨get, close, hanswer, hget⟩ := Answer.hasSecond_iff.mp hagain
      rw [← hname, Answer.opened_list.mpr hanswer] at hlist
      rw [step_live htok hlive] at hstep
      change Returns (t.advance.closeSection name') (.inl t') at hstep
      have hitem : get m.next.index = true := by
        rw [TokenLoop.next, hindex]
        exact hget
      have hopen : t.advance.loops = [m] := hloops
      rw [closeSection_again hopen htype.symm hlist hitem hstep, hmark, hsame]
      omega
  | _ =>
      simp only [Token.nesting] at hdepth
      omega

/-- A last token that goes back is the end tag of a list with a second
item. -/
theorem goesBack_of_step (h : InStep fns answers t)
    (hwell : WellNested t.toks) (hfirst : t.frontier = t.pos)
    (hlast : t.pos + 1 = t.toks.length)
    (hplain : ∀ tok ∈ t.toks, tok.includes = false)
    (hstep : Returns (t.step fns answers inclusions) (.inl t'))
    (hpos : t'.pos ≠ t.toks.length) : GoesBack answers t.toks := by
  obtain ⟨tok, htok, -, ⟨-, hmoves⟩ | ⟨name, rfl, -⟩⟩ := step_inl hstep
  · have hdepth := depth_take_succ htok
    rw [hlast, List.take_length, hwell.depth_eq] at hdepth
    cases hmoves with
    | again name hloops htype hlist hget =>
        have hnesting : (Token.closing name).nesting = -1 := rfl
        obtain ⟨m, start, hloops', -, hindex, hopening, houtside, hinside,
          hlist'⟩ := h.last_section hfirst hlast (by omega)
        change t.loops = _ at hloops
        rw [hloops', List.cons.injEq] at hloops
        obtain ⟨rfl, -⟩ := hloops
        rw [htype] at hopening
        rw [hlist] at hlist'
        rw [TokenLoop.next, hindex] at hget
        exact ⟨start, m.name, hopening, houtside, hinside,
          Answer.hasSecond_iff.mpr
            ⟨_, _, Answer.opened_list.mp hlist'.symm, hget⟩⟩
    | text c => exact absurd (by rw [write_out]; exact hlast) hpos
    | escaped name text => exact absurd (by rw [write_out]; exact hlast) hpos
    | raw name text => exact absurd (by rw [write_out]; exact hlast) hpos
    | comment body => exact absurd hlast hpos
    | opening type name => exact absurd hlast hpos
    | closed name hloops => exact absurd hlast hpos
  · cases hplain _ (List.mem_of_getElem? htok)

/-- Whether tokens that are rendered with a byte behind them are rendered
without it. -/
theorem returns_longer_iff (hwell : WellNested t.toks)
    (hplain : ∀ tok ∈ t.toks, tok.includes = false) (ht : t.Placed)
    (h : InStep fns answers t) (hlive : t.frontier < t.toks.length)
    (hlong : Returns (loop (step fns answers inclusions) (t.longer x))
      ⟨0, out ++ [x]⟩) :
    Returns (loop (step fns answers inclusions) t) ⟨0, out⟩ ↔
      ¬ GoesBack answers t.toks := by
  generalize hs : t.longer x = s at hlong
  generalize hv : (⟨0, out ++ [x]⟩ : Verdict) = v at hlong
  refine Returns.loop_induction
    (P := fun s v => ∀ t : TokenState, t.longer x = s →
      ⟨0, out ++ [x]⟩ = v → WellNested t.toks →
      (∀ tok ∈ t.toks, Token.includes tok = false) → t.Placed →
      InStep fns answers t → t.frontier < t.toks.length →
      (Returns (loop (step fns answers inclusions) t) ⟨0, out⟩ ↔
        ¬ GoesBack answers t.toks))
    ?_ ?_ hlong t hs hv hwell hplain ht h hlive
  · rintro - - hexit t rfl rfl - hplain ht - hlive
    have hle := ht.pos_le
    obtain ⟨tok, htok⟩ : ∃ tok, t.toks[t.pos]? = some tok :=
      ⟨_, List.getElem?_eq_getElem (by omega)⟩
    obtain ⟨o, ho, hrel⟩ := (step_longer htok
      (hplain tok (List.mem_of_getElem? htok)) hlive).back _ hexit
    cases hrel with
    | inr heq =>
        subst heq
        rcases step_inr ho with ⟨hnone, -⟩ | hcode
        · rw [htok] at hnone
          cases hnone
        · cases hcode
  · rintro - s' - hnext hrest ih t rfl rfl hwell hplain ht h hlive
    have hle := ht.pos_le
    obtain ⟨tok, htok⟩ : ∃ tok, t.toks[t.pos]? = some tok :=
      ⟨_, List.getElem?_eq_getElem (by omega)⟩
    have hother := hplain tok (List.mem_of_getElem? htok)
    obtain ⟨o, ho, hrel⟩ := (step_longer htok hother hlive).back _ hnext
    cases hrel with
    | @inl t₁ _ heq =>
        subst heq
        obtain ⟨tok', htok', -, ⟨-, hmoves⟩ | ⟨name, rfl, -⟩⟩ := step_inl ho
        · have htoks : t₁.toks = t.toks := hmoves.toks_eq
          have hfrontier : t₁.frontier = max t.frontier (t.pos + 1) :=
            hmoves.frontier_eq
          have ht₁ := ht.step ho
          have hle₁ := ht₁.frontier_le
          rw [htoks] at hle₁
          rw [ho.loop_next]
          by_cases hend : t₁.frontier < t.toks.length
          · have hrec := ih t₁ rfl rfl (htoks ▸ hwell) (htoks ▸ hplain) ht₁
              (h.moves htok' hmoves) (htoks ▸ hend)
            rwa [htoks] at hrec
          · have hended : t₁.frontier = t₁.toks.length := by
              rw [htoks]
              omega
            have hlt := (List.getElem?_eq_some_iff.mp htok').1
            have hlast : t.pos + 1 = t.toks.length := by omega
            have hfirst : t.frontier = t.pos := by omega
            by_cases hpos : t₁.pos = t.toks.length
            · have hforward : ¬ GoesBack answers t.toks := fun hback =>
                absurd (goesBack_step h hwell hfirst hlast hback ho) (by omega)
              refine iff_of_true ?_ hforward
              obtain ⟨hshort, hwith⟩ := @returns_behind _ fns answers
                inclusions t₁ (hpos.trans (congrArg List.length htoks).symm)
                hended x
              obtain ⟨hcode, hout⟩ := Verdict.mk.inj (hrest.unique hwith)
              cases hloops : t₁.loops with
              | cons m ms =>
                  rw [hloops] at hcode
                  cases hcode
              | nil =>
                  have hskips : t₁.skips = false := by
                    rw [skips, hloops]
                    rfl
                  rw [write_out, hskips] at hout
                  rw [List.append_cancel_right hout]
                  rw [hloops] at hshort
                  exact hshort
            · refine iff_of_false (not_returns_sticky ?_ hended out) ?_
              · have hle := ht₁.pos_le
                rw [htoks] at hended ⊢
                omega
              · exact not_not_intro
                  (goesBack_of_step h hwell hfirst hlast hplain ho hpos)
        · rw [htok] at htok'
          cases htok'
          cases hother

theorem rendered_longer_iff (hwell : WellNested toks)
    (hplain : ∀ tok ∈ toks, tok.includes = false)
    (hlong : Returns (rendered fns answers inclusions (toks ++ [.text x]))
      ⟨0, out ++ [x]⟩) :
    Returns (rendered fns answers inclusions toks) ⟨0, out⟩ ↔
      ¬ GoesBack answers toks := by
  rcases List.eq_nil_or_concat toks with rfl | ⟨toks, tok, rfl⟩
  · have hnone : ¬ GoesBack answers [] := by
      rintro ⟨start, name, hopening, -, -, -⟩
      cases hopening
    refine iff_of_true ?_ hnone
    obtain ⟨hshort, hwith⟩ :=
      @returns_behind _ fns answers inclusions (start []) rfl rfl x
    obtain ⟨-, hout⟩ := Verdict.mk.inj (hlong.unique hwith)
    rw [List.append_cancel_right (show out ++ [x] = [] ++ [x] from hout)]
    exact hshort
  · refine returns_longer_iff (t := start _) hwell hplain (start_placed _)
      (start_inStep _) ?_ hlong
    change 0 < (toks.concat tok).length
    rw [List.length_concat]
    exact Nat.succ_pos _

theorem not_rendered_inclusion {name : Bytes}
    (hlast : toks.getLast? = some (.inclusion name)) :
    ¬ Returns (rendered fns answers inclusions toks) ⟨0, out⟩ := by
  intro h
  generalize hv : (⟨0, out⟩ : Verdict) = v at h
  refine Returns.loop_induction
    (P := fun t v => t.Placed → t.toks.getLast? = some (.inclusion name) →
      ⟨0, out⟩ = v → False)
    ?_ ?_ h (start_placed toks) hlast hv
  · rintro t - hexit ht hlast rfl
    rcases step_inr hexit with ⟨hnone, -⟩ | hcode
    · have hlen := List.getElem?_eq_none_iff.mp hnone
      have hle := ht.pos_le
      have hplain := ht.plain (.inclusion name)
      rw [List.take_of_length_le (by omega)] at hplain
      cases hplain (List.mem_of_getLast? hlast)
    · cases hcode
  · intro t t₁ v hnext _ ih ht hlast hv
    refine ih (ht.step hnext) ?_ hv
    rcases step_last ht hnext with hsame | ⟨hplain, -⟩
    · exact hsame.trans hlast
    · cases hplain _ hlast

end

/-- Whether a template ends with a tag after which there is more to read: a
partial, or the end of a list with a second item. -/
def Template.readsOn (answers : Answers τ) : Template → Bool
  | .nil => false
  | .text _ rest | .escaped _ rest | .raw _ rest | .comment _ rest =>
      rest.readsOn answers
  | .loop type name _ rest =>
      (rest = .nil && type = .loopWhile && (answers [] name).hasSecond) ||
        rest.readsOn answers
  | .inclusion _ rest => rest = .nil || rest.readsOn answers

section

variable {a b body : List Token} {name name' : Bytes} {type : LoopType}

theorem goesBack_cons (htok : tok.nesting = 0) :
    GoesBack answers (tok :: toks) ↔ GoesBack answers toks := by
  constructor
  · rintro ⟨start, name, hopening, houtside, hinside, hagain⟩
    cases start with
    | zero =>
        cases hopening
        cases htok
    | succ start =>
        refine ⟨start, name, hopening, ?_, fun n hlt hn => ?_, hagain⟩
        · rw [List.take_succ_cons, depth_cons, htok] at houtside
          omega
        · have hdeeper := hinside (n + 1) (Nat.succ_lt_succ hlt)
            (Nat.succ_lt_succ hn)
          rw [List.take_succ_cons, depth_cons, htok] at hdeeper
          omega
  · rintro ⟨start, name, hopening, houtside, hinside, hagain⟩
    refine ⟨start + 1, name, hopening, ?_, fun n hlt hn => ?_, hagain⟩
    · rw [List.take_succ_cons, depth_cons, htok, houtside]
      rfl
    · obtain ⟨n, rfl⟩ : ∃ k, n = k + 1 := ⟨n - 1, by omega⟩
      have hdeeper := hinside n (by omega) (Nat.lt_of_succ_lt_succ hn)
      rw [List.take_succ_cons, depth_cons, htok]
      omega

theorem goesBack_append (ha : WellNested a) (hb : b ≠ []) :
    GoesBack answers (a ++ b) ↔ GoesBack answers b := by
  have hlength := List.length_pos_iff.mpr hb
  have hdepth : ∀ n, depth ((a ++ b).take (a.length + n)) =
      depth (b.take n) := by
    intro n
    rw [List.take_length_add_append, depth_append, ha.depth_eq, zero_add]
  constructor
  · rintro ⟨start, name, hopening, houtside, hinside, hagain⟩
    have hle : a.length ≤ start := by
      by_contra hlt
      have hdeeper := hinside a.length (by omega)
        (by rw [List.length_append]; omega)
      rw [List.take_left, ha.depth_eq] at hdeeper
      exact absurd hdeeper (by decide)
    obtain ⟨start, rfl⟩ := Nat.exists_eq_add_of_le hle
    refine ⟨start, name, ?_, ?_, fun n hlt hn => ?_, hagain⟩
    · rw [← hopening, List.getElem?_append_right hle, Nat.add_sub_cancel_left]
    · rw [← hdepth]
      exact houtside
    · have hdeeper := hinside (a.length + n) (by omega)
        (by rw [List.length_append]; omega)
      rwa [hdepth] at hdeeper
  · rintro ⟨start, name, hopening, houtside, hinside, hagain⟩
    refine ⟨a.length + start, name, ?_, ?_, fun n hlt hn => ?_, hagain⟩
    · rw [List.getElem?_append_right (Nat.le_add_right _ _),
        Nat.add_sub_cancel_left, hopening]
    · rw [hdepth]
      exact houtside
    · obtain ⟨n, rfl⟩ : ∃ k, n = a.length + k := ⟨n - a.length, by omega⟩
      rw [List.length_append] at hn
      rw [hdepth]
      exact hinside n (by omega) (by omega)

theorem goesBack_section (hbody : WellNested body) :
    GoesBack answers (.opening type name :: (body ++ [.closing name'])) ↔
      type = .loopWhile ∧ (answers [] name).hasSecond = true := by
  have hinside : ∀ n, 0 < n → n < (Token.opening type name ::
      (body ++ [.closing name'])).length → 1 ≤ depth ((Token.opening type name ::
        (body ++ [.closing name'])).take n) := by
    intro n hpos hn
    obtain ⟨n, rfl⟩ : ∃ k, n = k + 1 := ⟨n - 1, by omega⟩
    rw [List.length_cons, List.length_append, List.length_singleton] at hn
    rw [List.take_succ_cons, List.take_append_of_le_length (by omega),
      depth_cons]
    have hdeeper := hbody.depth_nonneg n
    change 1 ≤ 1 + depth (body.take n)
    omega
  constructor
  · rintro ⟨start, name, hopening, houtside, -, hagain⟩
    cases start with
    | zero =>
        cases hopening
        exact ⟨rfl, hagain⟩
    | succ start =>
        have hdeeper := hinside (start + 1) (Nat.succ_pos _)
          (List.getElem?_eq_some_iff.mp hopening).1
        rw [houtside] at hdeeper
        exact absurd hdeeper (by decide)
  · rintro ⟨rfl, hagain⟩
    exact ⟨0, name, rfl, rfl, hinside, hagain⟩

end

section

variable {template : Template}

theorem expands_keep_inv (h : Expands inclusions (tok :: toks) toks')
    (hplain : tok.includes = false) :
    ∃ rest, toks' = tok :: rest ∧ Expands inclusions toks rest := by
  cases h with
  | keep _ hrest => exact ⟨_, rfl, hrest⟩
  | replace _ _ => cases hplain

theorem endsPlain_append {a b : List Token} (hne : b ≠ []) :
    EndsPlain (a ++ b) ↔ EndsPlain b := by
  rw [EndsPlain, EndsPlain, List.getLast?_append_of_ne_nil _ hne]

theorem endsPlain_suffix {a b : List Token} (h : EndsPlain (a ++ b)) :
    EndsPlain b := by
  intro tok htok
  have hne : b ≠ [] := by
    rintro rfl
    cases htok
  exact (endsPlain_append hne).mp h tok htok

theorem goesBack_first {rest : List Token} {p : Prop}
    (htok : tok.includes = false) (hnesting : tok.nesting = 0)
    (hlast : EndsPlain (tok :: rest))
    (h : Expands inclusions (tok :: rest) toks)
    (hrest : EndsPlain rest → ∀ toks, Expands inclusions rest toks →
      (GoesBack answers toks ↔ p)) :
    GoesBack answers toks ↔ p := by
  obtain ⟨rest', rfl, hexpands⟩ := expands_keep_inv h htok
  rw [goesBack_cons hnesting]
  exact hrest (endsPlain_suffix (a := [tok]) hlast) rest' hexpands

/-- The last section of a template in which the partials were replaced. -/
theorem Template.goesBack_iff
    (hcontent : ∀ name content, inclusions name = some (.found content) →
      WellNested content)
    (hlast : EndsPlain template.tokens)
    (h : Expands inclusions template.tokens toks) :
    GoesBack answers toks ↔ template.readsOn answers = true := by
  induction template generalizing toks with
  | nil =>
      cases h
      refine iff_of_false ?_ Bool.false_ne_true
      rintro ⟨start, name, hopening, -, -, -⟩
      cases hopening
  | text c rest ih => exact goesBack_first rfl rfl hlast h fun hp _ => ih hp
  | escaped name rest ih =>
      exact goesBack_first rfl rfl hlast h fun hp _ => ih hp
  | raw name rest ih => exact goesBack_first rfl rfl hlast h fun hp _ => ih hp
  | comment body rest ih =>
      exact goesBack_first rfl rfl hlast h fun hp _ => ih hp
  | loop type name body rest _ ih =>
      obtain ⟨inner, rfl, hinner⟩ := expands_keep_inv h rfl
      obtain ⟨body', after, rfl, hbody, hafter⟩ := hinner.split
      obtain ⟨rest', rfl, hrest⟩ := expands_keep_inv hafter rfl
      have hbody' := hbody.wellNested hcontent body.wellNested
      by_cases hnil : rest = .nil
      · subst hnil
        cases hrest
        rw [goesBack_section hbody']
        simp [Template.readsOn]
      · have hsplit : (Template.loop type name body rest).tokens =
            Token.opening type name :: (body.tokens ++ [.closing name]) ++
              rest.tokens := by
          simp [Template.tokens]
        rw [hsplit] at hlast
        have hlast' := endsPlain_suffix hlast
        have hne := hrest.ne_nil hlast' (Template.tokens_ne_nil hnil)
        have hih := ih hlast' hrest
        rw [show Token.opening type name :: (body' ++ .closing name :: rest') =
            Token.opening type name :: (body' ++ [.closing name]) ++ rest' by
          simp, goesBack_append (hbody'.enclose type name name) hne, hih]
        simp [Template.readsOn, hnil]
  | inclusion name rest ih =>
      cases h with
      | keep htok _ => cases htok
      | @replace _ content _ _ hname hexpands =>
          obtain ⟨content', rest', rfl, hc, hrest⟩ := hexpands.split
          have hlast' : EndsPlain rest.tokens :=
            endsPlain_suffix (a := [.inclusion name]) hlast
          have hnil : rest ≠ .nil := by
            rintro rfl
            cases hlast _ rfl
          have hne := hrest.ne_nil hlast' (Template.tokens_ne_nil hnil)
          have hwell := hc.wellNested hcontent (hcontent name content hname)
          have hih := ih hlast' hrest
          rw [goesBack_append hwell hne, hih]
          simp [Template.readsOn, hnil]

/-- A template that does not read on does not end with a partial. -/
theorem Template.endsPlain_of_readsOn
    (h : template.readsOn answers = false) : EndsPlain template.tokens := by
  have hcons : ∀ {tok : Token} {rest : Template},
      (rest = .nil → tok.includes = false) → EndsPlain rest.tokens →
      EndsPlain (tok :: rest.tokens) := by
    intro tok rest htok hrest
    by_cases hnil : rest = .nil
    · subst hnil
      intro last hlast
      cases hlast
      exact htok rfl
    · exact (endsPlain_append (a := [tok]) (Template.tokens_ne_nil hnil)).mpr
        hrest
  induction template with
  | nil => exact fun _ hlast => absurd hlast nofun
  | text c rest ih => exact hcons (fun _ => rfl) (ih h)
  | escaped name rest ih => exact hcons (fun _ => rfl) (ih h)
  | raw name rest ih => exact hcons (fun _ => rfl) (ih h)
  | comment body rest ih => exact hcons (fun _ => rfl) (ih h)
  | loop type name body rest _ ih =>
      rw [Template.readsOn, Bool.or_eq_false_iff] at h
      have hclosing : EndsPlain (.closing name :: rest.tokens) :=
        hcons (fun _ => rfl) (ih h.2)
      exact (endsPlain_append (a := .opening type name :: body.tokens)
        (List.cons_ne_nil _ _)).mpr hclosing
  | inclusion name rest ih =>
      rw [Template.readsOn, Bool.or_eq_false_iff, decide_eq_false_iff_not] at h
      exact hcons (fun hnil => absurd hnil h.1) (ih h.2)

/-- Rendering says no success of tokens that end with an inclusion. -/
theorem not_rendersTo_inclusion {cb : Callback σ ο τ} {R : Session σ ο τ}
    (hs : Serves cb answers R) (hprovides : Provides fns answers inclusions)
    (hfound : ∀ name, inclusions name ≠ some .missing)
    (hok : ∀ tok ∈ toks, TokenOk inclusions tok) (hlast : ¬ EndsPlain toks)
    {env : σ} (hsession : R env [] []) {input : InputStream τ}
    (hinput : input.Delivers fns (tokenBytes toks)) (data : Int → UInt8)
    (out : Bytes) : ¬ RendersTo fns cb env input data ⟨0, out⟩ := by
  intro h
  have hrendered := rendered_of_rendersTo hs hprovides hsession hinput hok
    (neverTorn_of_found hfound toks) h
  rw [EndsPlain] at hlast
  push Not at hlast
  obtain ⟨tok, htok, hincludes⟩ := hlast
  cases tok with
  | inclusion name => exact not_rendered_inclusion htok hrendered
  | _ => exact hincludes rfl

/-- A template that is rendered with a byte behind it is rendered without it,
to the same text less that byte, exactly when it does not end with a tag that
wants to read on. -/
theorem render_ending_iff {cb : Callback σ ο τ} {R : Session σ ο τ}
    (hs : Serves cb answers R) (hprovides : Provides fns answers inclusions)
    (hfound : ∀ name, inclusions name ≠ some .missing)
    (hparts : ∀ name content, inclusions name = some (.found content) →
      ∃ part : Template, part.tokens = content)
    {x : UInt8}
    (hok : ∀ tok ∈ template.tokens ++ [.text x], TokenOk inclusions tok)
    {env env' : σ} (hsession : R env [] []) (hsession' : R env' [] [])
    {input input' : InputStream τ}
    (hinput : input.Delivers fns (tokenBytes (template.tokens ++ [.text x])))
    (hinput' : input'.Delivers fns (tokenBytes template.tokens))
    (data data' : Int → UInt8) {out : Bytes}
    (hlong : RendersTo fns cb env input data ⟨0, out ++ [x]⟩) :
    RendersTo fns cb env' input' data' ⟨0, out⟩ ↔
      template.readsOn answers = false := by
  have hcontent : ∀ name content, inclusions name = some (.found content) →
      WellNested content := by
    intro name content hname
    obtain ⟨part, rfl⟩ := hparts name content hname
    exact part.wellNested
  have hok' := (List.forall_mem_append.mp hok).1
  have hend : EndsPlain (template.tokens ++ [.text x]) := by
    rw [endsPlain_append (List.cons_ne_nil _ _)]
    rintro tok ⟨⟩
    rfl
  have hrun := (rendersTo_iff hs hprovides hsession hinput hok data
    (neverLeaves_of_endsPlain hend) (neverTorn_of_found hfound _) _).mp hlong
  by_cases hlast : EndsPlain template.tokens
  · obtain ⟨rest, hexpands⟩ :=
      expands_of_returns hfound (start_placed _) hrun rfl
    obtain ⟨toks, last, rfl, htoks, hx⟩ := Expands.split hexpands
    obtain ⟨last, rfl, hnil⟩ := expands_keep_inv hx rfl
    cases hnil
    have hlong' := (start_expanded (htoks.append hx) hend).returns_iff.mp hrun
    rw [rendersTo_iff hs hprovides hsession' hinput' hok' data'
      (neverLeaves_of_endsPlain hlast) (neverTorn_of_found hfound _), rendered,
      (start_expanded htoks hlast).returns_iff, ← rendered,
      rendered_longer_iff (htoks.wellNested hcontent template.wellNested)
        htoks.plain hlong', Template.goesBack_iff hcontent hlast htoks,
      Bool.not_eq_true]
  · exact iff_of_false
      (not_rendersTo_inclusion hs hprovides hfound hok' hlast hsession' hinput'
        data' out)
      fun h => hlast (Template.endsPlain_of_readsOn h)

end

/-- `{{>p}}{{^l}}c{{/l}}` is shown as `abc`. -/
theorem render_ending_inverted :
    RendersTo noStreams (answering nestedAnswers) []
      (newInputStreamFromString (chars "{{>p}}{{^l}}c{{/l}}")) (fun _ => 0)
      ⟨0, chars "abc"⟩ := by
  let template : Template := .inclusion [ascii 'p']
    (.loop .loopElse [ascii 'l'] (.text (ascii 'c') .nil) .nil)
  have hok : ∀ tok ∈ template.tokens ++ [.text (ascii '.')],
      TokenOk nestedInclusions tok :=
    nestedInclusions_ok (by decide) fun name hname => by
      simpa [template, Template.tokens] using hname
  have hvalid := fun tok htok => (hok tok htok).valid
  have hbytes : tokenBytes template.tokens =
      chars "{{>p}}{{^l}}c{{/l}}" := by decide
  have hparts : ∀ name content,
      nestedInclusions name = some (.found content) →
      ∃ part : Template, part.tokens = content := by
    intro name content h
    simp only [nestedInclusions] at h
    split at h
    · cases h
      exact ⟨.text (ascii 'a') (.inclusion [ascii 'q'] .nil), rfl⟩
    · split at h
      · cases h
        exact ⟨.text (ascii 'b') .nil, rfl⟩
      · cases h
  have hq : nestedInclusions [ascii 'q'] =
      some (.found (Template.text (ascii 'b') .nil).tokens) := rfl
  have hp : nestedInclusions [ascii 'p'] = some (.found (Template.text
      (ascii 'a') (.inclusion [ascii 'q'] .nil)).tokens) := rfl
  have hl : (nestedAnswers [] [ascii 'l']).opened noStreams =
      ⟨true, true, none⟩ := rfl
  have hruns : Runs noStreams nestedAnswers nestedInclusions [] template _
      (chars "abc") :=
    .found _ hp (.text _ (.found _ hq (.text _ .nil) .nil))
      (.plain .loopElse _ hl (.text (ascii 'c') .nil) .nil)
  rw [← hbytes]
  exact (render_ending_iff (answering_serves nestedAnswers)
    nestedAnswers_provide nestedInclusions_found hparts hok
    answeringSession_nil answeringSession_nil
    (delivers_tokenBytes noStreams hvalid)
    (delivers_tokenBytes noStreams (List.forall_mem_append.mp hvalid).1)
    (fun _ => 0) (fun _ => 0)
    (hruns.render (answering_serves nestedAnswers) nestedAnswers_provide
      answeringSession_nil hok (delivers_tokenBytes noStreams hvalid)
      fun _ => 0)).mpr rfl

/-- `l` is a list of two items, `p` is the text `a`. -/
def endingAnswers : Answers Empty := fun _ name =>
  if name = chars "l" then .list (some fun i => decide (i < 2)) (some true)
  else if name = chars "p" then .string (some (some (chars "a"))) (some true)
  else .notFound

/-- `{{#l}}a{{/l}}` and `{{>p}}` are rendered before a byte, and fail without
it. -/
theorem render_not_ending :
    (RendersTo noStreams (answering endingAnswers) []
        (newInputStreamFromString (chars "{{#l}}a{{/l}}.")) (fun _ => 0)
        ⟨0, chars "aa" ++ chars "."⟩ ∧
      ¬ RendersTo noStreams (answering endingAnswers) []
        (newInputStreamFromString (chars "{{#l}}a{{/l}}")) (fun _ => 0)
        ⟨0, chars "aa"⟩) ∧
    RendersTo noStreams (answering endingAnswers) []
        (newInputStreamFromString (chars "{{>p}}.")) (fun _ => 0)
        ⟨0, chars "a" ++ chars "."⟩ ∧
      ¬ RendersTo noStreams (answering endingAnswers) []
        (newInputStreamFromString (chars "{{>p}}")) (fun _ => 0)
        ⟨0, chars "a"⟩ := by
  have hlist : Returns (render noStreams (answering endingAnswers) []
      (newInputStreamFromString (chars "{{#l}}a{{/l}}")) fun _ => 0) _ :=
    ⟨20, rfl⟩
  have hpartial : Returns (render noStreams (answering endingAnswers) []
      (newInputStreamFromString (chars "{{>p}}")) fun _ => 0) _ := ⟨20, rfl⟩
  refine ⟨⟨⟨_, ⟨20, rfl⟩, rfl, rfl⟩, ?_⟩, ⟨_, ⟨20, rfl⟩, rfl, rfl⟩, ?_⟩
  · rintro ⟨r, hr, hcode, -⟩
    rw [hr.unique hlist] at hcode
    cases hcode
  · rintro ⟨r, hr, hcode, -⟩
    rw [hr.unique hpartial] at hcode
    cases hcode

end Libcad
