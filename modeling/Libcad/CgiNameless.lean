/-
Which content types the parser reads to the end: those where it never stores a
parameter whose name it has not begun.
-/
import Libcad.CgiContentType

namespace Libcad

open Proc

/-- What comes after the first `sep` of the text satisfies `P`. -/
def AfterFirst (sep : UInt8) (P : Bytes → Prop) (text : Bytes) : Prop :=
  ∃ before after, text = before ++ sep :: after ∧ sep ∉ before ∧ P after

/-- A parameter without a name is reached from here.  A name is begun by what is
in front of its `=`; after an unquoted value the semicolon is part of the next
name, after a quoted one it is not. -/
inductive NamelessParameter : (begun : Bool) → Bytes → Prop
  | nameless (rest : Bytes) : NamelessParameter false (ascii '=' :: rest)
  | unquoted {begun : Bool} {name value rest : Bytes} :
      ascii '=' ∉ name → ascii ';' ∉ value → quote ∉ value →
      NamelessParameter true rest →
      NamelessParameter begun
        (name ++ ascii '=' :: (value ++ ascii ';' :: rest))
  | quoted {begun : Bool} {name value ignored rest : Bytes} :
      ascii '=' ∉ name → ascii ';' ∉ value → quote ∉ value →
      ascii ';' ∉ ignored → NamelessParameter false rest →
      NamelessParameter begun
        (name ++ ascii '=' :: (value ++ quote :: (ignored ++ ascii ';' :: rest)))

/-- A content type with such a parameter after `type/subtype;`. -/
def Nameless : Bytes → Prop :=
  AfterFirst (ascii '/') (AfterFirst (ascii ';') (NamelessParameter false))

def NamelessValue (text : Bytes) : Prop :=
  ∃ value rest, ascii ';' ∉ value ∧ quote ∉ value ∧
    (text = value ++ ascii ';' :: rest ∧ NamelessParameter true rest ∨
      text = value ++ quote :: rest ∧
        AfterFirst (ascii ';') (NamelessParameter false) rest)

theorem cons_eq_append_cons {c d : UInt8} {rest before after : Bytes} :
    c :: rest = before ++ d :: after ↔
      (before = [] ∧ c = d ∧ rest = after) ∨
        ∃ before', before = c :: before' ∧ rest = before' ++ d :: after := by
  cases before with
  | nil => simp
  | cons b before =>
      simp only [List.cons_append, List.cons.injEq, List.cons_ne_nil,
        false_and, false_or]
      constructor
      · rintro ⟨rfl, hrest⟩
        exact ⟨before, ⟨rfl, rfl⟩, hrest⟩
      · rintro ⟨before', ⟨rfl, rfl⟩, hrest⟩
        exact ⟨rfl, hrest⟩

@[simp] theorem not_afterFirst_nil {sep : UInt8} {P : Bytes → Prop} :
    ¬ AfterFirst sep P [] := by
  rintro ⟨before, after, heq, -⟩
  simp at heq

theorem afterFirst_cons {sep c : UInt8} {P : Bytes → Prop} {rest : Bytes} :
    AfterFirst sep P (c :: rest) ↔
      if c = sep then P rest else AfterFirst sep P rest := by
  simp only [AfterFirst, cons_eq_append_cons]
  by_cases hc : c = sep
  · rw [if_pos hc]
    constructor
    · rintro ⟨before, after, ⟨-, -, rfl⟩ | ⟨before', rfl, -⟩, hnot, h⟩
      · exact h
      · simp [hc] at hnot
    · intro h
      exact ⟨[], rest, Or.inl ⟨rfl, hc, rfl⟩, List.not_mem_nil, h⟩
  · rw [if_neg hc]
    constructor
    · rintro ⟨before, after, ⟨-, heq, -⟩ | ⟨before', rfl, rfl⟩, hnot, h⟩
      · exact absurd heq hc
      · exact ⟨before', after, rfl,
          fun hmem => hnot (List.mem_cons_of_mem c hmem), h⟩
    · rintro ⟨before, after, rfl, hnot, h⟩
      refine ⟨c :: before, after, Or.inr ⟨before, rfl, rfl⟩, ?_, h⟩
      simp [hnot, Ne.symm hc]

@[simp] theorem not_namelessValue_nil : ¬ NamelessValue [] := by
  rintro ⟨value, rest, -, -, ⟨heq, -⟩ | ⟨heq, -⟩⟩
  · simp at heq
  · simp at heq

theorem namelessValue_cons {c : UInt8} {rest : Bytes} :
    NamelessValue (c :: rest) ↔
      if c = ascii ';' then NamelessParameter true rest
      else if c = quote then
        AfterFirst (ascii ';') (NamelessParameter false) rest
      else NamelessValue rest := by
  have hsep : ascii ';' ≠ quote := by decide
  simp only [NamelessValue, cons_eq_append_cons]
  by_cases hc : c = ascii ';'
  · rw [if_pos hc]
    constructor
    · rintro ⟨value, after, hsemi, -, ⟨⟨-, -, rfl⟩ | ⟨value', rfl, -⟩, h⟩ |
        ⟨⟨-, heq, -⟩ | ⟨value', rfl, -⟩, h⟩⟩
      · exact h
      · simp [hc] at hsemi
      · exact absurd (hc.symm.trans heq) hsep
      · simp [hc] at hsemi
    · intro h
      exact ⟨[], rest, List.not_mem_nil, List.not_mem_nil,
        Or.inl ⟨Or.inl ⟨rfl, hc, rfl⟩, h⟩⟩
  · rw [if_neg hc]
    by_cases hq : c = quote
    · rw [if_pos hq]
      constructor
      · rintro ⟨value, after, -, hquote, ⟨⟨-, heq, -⟩ | ⟨value', rfl, -⟩, h⟩ |
          ⟨⟨-, -, rfl⟩ | ⟨value', rfl, -⟩, h⟩⟩
        · exact absurd heq hc
        · simp [hq] at hquote
        · exact h
        · simp [hq] at hquote
      · intro h
        exact ⟨[], rest, List.not_mem_nil, List.not_mem_nil,
          Or.inr ⟨Or.inl ⟨rfl, hq, rfl⟩, h⟩⟩
    · rw [if_neg hq]
      constructor
      · rintro ⟨value, after, hsemi, hquote,
          ⟨⟨-, heq, -⟩ | ⟨value', rfl, rfl⟩, h⟩ |
          ⟨⟨-, heq, -⟩ | ⟨value', rfl, rfl⟩, h⟩⟩
        · exact absurd heq hc
        · simp only [List.mem_cons, not_or] at hsemi hquote
          exact ⟨value', after, hsemi.2, hquote.2, Or.inl ⟨rfl, h⟩⟩
        · exact absurd heq hq
        · simp only [List.mem_cons, not_or] at hsemi hquote
          exact ⟨value', after, hsemi.2, hquote.2, Or.inr ⟨rfl, h⟩⟩
      · rintro ⟨value, after, hsemi, hquote, h⟩
        refine ⟨c :: value, after, by simp [hsemi, Ne.symm hc],
          by simp [hquote, Ne.symm hq], ?_⟩
        rcases h with ⟨rfl, h⟩ | ⟨rfl, h⟩
        · exact Or.inl ⟨Or.inr ⟨value, rfl, rfl⟩, h⟩
        · exact Or.inr ⟨Or.inr ⟨value, rfl, rfl⟩, h⟩

theorem namelessParameter_iff {begun : Bool} {text : Bytes} :
    NamelessParameter begun text ↔
      begun = false ∧ (∃ rest, text = ascii '=' :: rest) ∨
        AfterFirst (ascii '=') NamelessValue text := by
  constructor
  · intro h
    cases h with
    | nameless rest => exact Or.inl ⟨rfl, rest, rfl⟩
    | @unquoted _ name value rest hname hsemi hquote h =>
        exact Or.inr ⟨name, _, rfl, hname, value, rest, hsemi, hquote,
          Or.inl ⟨rfl, h⟩⟩
    | @quoted _ name value ignored rest hname hsemi hquote hignored h =>
        exact Or.inr ⟨name, _, rfl, hname, value, _, hsemi, hquote,
          Or.inr ⟨rfl, ignored, rest, rfl, hignored, h⟩⟩
  · rintro (⟨rfl, rest, rfl⟩ | ⟨name, after, rfl, hname, value, rest, hsemi,
      hquote, ⟨rfl, h⟩ | ⟨rfl, ignored, rest, rfl, hignored, h⟩⟩)
    · exact .nameless rest
    · exact .unquoted hname hsemi hquote h
    · exact .quoted hname hsemi hquote hignored h

theorem not_namelessParameter_nil {begun : Bool} :
    ¬ NamelessParameter begun [] := by
  simp [namelessParameter_iff]

theorem namelessParameter_cons {begun : Bool} {c : UInt8} {rest : Bytes} :
    NamelessParameter begun (c :: rest) ↔
      if c = ascii '=' then begun = false ∨ NamelessValue rest
      else NamelessParameter true rest := by
  rw [namelessParameter_iff, afterFirst_cons]
  by_cases hc : c = ascii '='
  · simp [hc]
  · simp [hc, @namelessParameter_iff true]

/-- The parser gets to the end of the text, and a parameter that is stored
there has a name. -/
def Completes (st : ContentState) (text : Bytes) : Prop :=
  ∃ last, Returns (contentTypeLoop st text) last ∧
    ((last.s = 3 ∨ last.s = 5) → last.attr ≠ none)

theorem completes_nil {st : ContentState} :
    Completes st [] ↔ ((st.s = 3 ∨ st.s = 5) → st.attr ≠ none) := by
  constructor
  · rintro ⟨last, hlast, h⟩
    cases returns_pure.mp hlast
    exact h
  · intro h
    exact ⟨st, returns_pure_self st, h⟩

theorem completes_cons {st next : ContentState} {c : UInt8} {rest : Bytes}
    (h : Returns (contentTypeChar st c) next) :
    Completes st (c :: rest) ↔ Completes next rest := by
  simp only [Completes, contentTypeLoop, h.bind_iff]

theorem Completes.step {st : ContentState} {c : UInt8} {rest : Bytes}
    (h : Completes st (c :: rest)) :
    ∃ next, Returns (contentTypeChar st c) next ∧ Completes next rest := by
  obtain ⟨last, hlast, hend⟩ := h
  obtain ⟨next, hnext, hrest⟩ := returns_bind.mp hlast
  exact ⟨next, hnext, last, hrest, hend⟩

theorem ContentState.setParameter_named {st : ContentState}
    (h : st.attr ≠ none) :
    ∃ next, Returns st.setParameter next ∧ next.s = 2 ∧ next.out = .attr ∧
      next.attr = none := by
  obtain ⟨attr, hattr⟩ := Option.ne_none_iff_exists'.mp h
  obtain ⟨parameters, hset⟩ : ∃ parameters,
      Returns (st.result.parameters.set st.attr st.value) parameters := by
    rw [hattr]
    exact ⟨_, returns_pure_self _⟩
  exact ⟨_, hset.bind (returns_pure_self _), rfl, rfl, rfl⟩

theorem ContentState.not_setParameter {st next : ContentState}
    (h : st.attr = none) : ¬ Returns st.setParameter next := by
  intro hset
  obtain ⟨parameters, hset, -⟩ := returns_bind.mp hset
  rw [h] at hset
  exact not_returns_undefined hset

/-- In a value or after a quoted one. -/
structure ContentState.InValue (st : ContentState) : Prop where
  state : st.s = 3 ∨ st.s = 5
  out : st.out = .value

theorem ContentState.InValue.step {st : ContentState} (h : st.InValue)
    {c : UInt8} (hc : c ≠ ascii ';') :
    ∃ next, Returns (contentTypeChar st c) next ∧ next.InValue ∧
      next.attr = st.attr ∧
      (next.s = 3 ↔ st.s = 3 ∧ c ≠ quote) := by
  have hsep : quote ≠ ascii ';' := by decide
  rcases h.state with hs | hs
  · by_cases hq : c = quote
    · refine ⟨{ st with s := 5 }, ?_, ⟨Or.inr rfl, h.out⟩, rfl, by simp [hq]⟩
      by_cases hattr : st.attr = none
      · simp [contentTypeChar, ContentState.unquoted, ContentState.quoted, hs,
          hsep, hq, hattr, returns_bind]
      · simp [contentTypeChar, ContentState.unquoted, ContentState.quoted, hs,
          hsep, hq, hattr, returns_bind]
    · have hput : (st.put c).put c =
          { st with value := putByte (putByte st.value c) c } := by
        simp [ContentState.put, h.out]
      refine ⟨(st.put c).put c, ?_, ?_⟩
      · simp [contentTypeChar, ContentState.unquoted, ContentState.quoted, hs,
          hc, hq, returns_bind]
      · rw [hput]
        exact ⟨⟨Or.inl hs, h.out⟩, rfl, by simp [hs, hq]⟩
  · refine ⟨st, ?_, h, rfl, by simp [hs]⟩
    simp [contentTypeChar, hs, hc]

/-- A semicolon in or after a value stores the parameter; in the value it is
also put into the next name. -/
theorem ContentState.InValue.semicolon {st : ContentState} (h : st.InValue)
    (hattr : st.attr ≠ none) :
    ∃ next, Returns (contentTypeChar st (ascii ';')) next ∧ next.s = 2 ∧
      next.out = .attr ∧ next.attr.isSome = (st.s = 3 : Bool) := by
  obtain ⟨stored, hset, hs', hout', hnone⟩ := setParameter_named hattr
  rcases h.state with hs | hs
  · refine ⟨stored.put (ascii ';'), ?_, ?_⟩
    · have hquoted : stored.quoted (ascii ';') = stored.put (ascii ';') := by
        rw [ContentState.quoted, if_neg (by decide)]
      simp only [contentTypeChar, hs, ContentState.unquoted, if_true]
      rw [hset.bind_iff, hquoted]
      exact returns_pure_self _
    · simp [ContentState.put, hout', hs', hs, putByte]
  · refine ⟨stored, ?_, hs', hout', by simp [hnone, hs]⟩
    simpa [contentTypeChar, hs] using hset

theorem ContentState.InValue.not_semicolon {st next : ContentState}
    (h : st.InValue) (hattr : st.attr = none) :
    ¬ Returns (contentTypeChar st (ascii ';')) next := by
  intro hchar
  rcases h.state with hs | hs
  · simp only [contentTypeChar, hs, ContentState.unquoted, if_true] at hchar
    obtain ⟨stored, hset, -⟩ := returns_bind.mp hchar
    exact not_setParameter hattr hset
  · simp only [contentTypeChar, hs, if_true] at hchar
    exact not_setParameter hattr hchar

/-- A value without a name is never stored, but tried to. -/
theorem ContentState.InValue.not_completes {st : ContentState} {text : Bytes}
    (h : st.InValue) (hattr : st.attr = none) : ¬ Completes st text := by
  induction text generalizing st with
  | nil => exact fun hdone => completes_nil.mp hdone h.state hattr
  | cons c rest ih =>
      by_cases hc : c = ascii ';'
      · intro hdone
        obtain ⟨next, hnext, -⟩ := hdone.step
        rw [hc] at hnext
        exact h.not_semicolon hattr hnext
      · obtain ⟨next, hnext, hin, hsame, -⟩ := h.step hc
        rw [completes_cons hnext]
        exact ih hin (hsame.trans hattr)

/-- A name is read. -/
structure ContentState.InName (st : ContentState) : Prop where
  state : st.s = 2
  out : st.out = .attr

/-- What is reached from a name, from a value and from what follows a quoted
value decides whether the text is read to its end. -/
theorem completes_iff (text : Bytes) :
    (∀ st : ContentState, st.InName →
      (Completes st text ↔ ¬ NamelessParameter st.attr.isSome text)) ∧
    (∀ st : ContentState, st.InValue → st.attr ≠ none → st.s = 3 →
      (Completes st text ↔ ¬ NamelessValue text)) ∧
    (∀ st : ContentState, st.InValue → st.attr ≠ none → st.s = 5 →
      (Completes st text ↔
        ¬ AfterFirst (ascii ';') (NamelessParameter false) text)) := by
  induction text with
  | nil =>
      refine ⟨fun st hname => ?_, fun st _ hattr _ => ?_, fun st _ hattr _ => ?_⟩
      · simp [completes_nil, hname.state, not_namelessParameter_nil]
      · simp [completes_nil, hattr]
      · simp [completes_nil, hattr]
  | cons c rest ih =>
      obtain ⟨ihname, ihvalue, ihignored⟩ := ih
      refine ⟨fun st hname => ?_, fun st hin hattr hs => ?_,
        fun st hin hattr hs => ?_⟩
      · rw [namelessParameter_cons]
        by_cases hc : c = ascii '='
        · have hnext : Returns (contentTypeChar st c)
              { st with value := none, out := .value, s := 3 } := by
            simp [contentTypeChar, hname.state, hc]
          rw [completes_cons hnext, if_pos hc]
          have hin : ContentState.InValue
              { st with value := none, out := .value, s := 3 } :=
            ⟨Or.inl rfl, rfl⟩
          by_cases hattr : st.attr = none
          · have hbegun : st.attr.isSome = false := by simp [hattr]
            exact iff_of_false (hin.not_completes hattr) (by simp [hbegun])
          · have hbegun : st.attr.isSome ≠ false := by simpa using hattr
            rw [ihvalue _ hin hattr rfl]
            simp [hbegun]
        · have hnext : Returns (contentTypeChar st c)
              { st with attr := putByte st.attr c } := by
            simp [contentTypeChar, hname.state, hname.out, hc,
              ContentState.put]
          rw [completes_cons hnext, if_neg hc]
          exact ihname _ ⟨hname.state, hname.out⟩
      · rw [namelessValue_cons]
        by_cases hc : c = ascii ';'
        · rw [if_pos hc, hc]
          obtain ⟨next, hnext, hs', hout, hsome⟩ := hin.semicolon hattr
          rw [completes_cons hnext, ihname next ⟨hs', hout⟩, hsome, hs]
          simp
        · rw [if_neg hc]
          obtain ⟨next, hnext, hin', hsame, hstate⟩ := hin.step hc
          rw [completes_cons hnext]
          by_cases hq : c = quote
          · rw [if_pos hq]
            have hs' : next.s = 5 :=
              hin'.state.resolve_left fun h => (hstate.mp h).2 hq
            exact ihignored next hin' (hsame ▸ hattr) hs'
          · rw [if_neg hq]
            exact ihvalue next hin' (hsame ▸ hattr) (hstate.mpr ⟨hs, hq⟩)
      · rw [afterFirst_cons]
        by_cases hc : c = ascii ';'
        · rw [if_pos hc, hc]
          obtain ⟨next, hnext, hs', hout, hsome⟩ := hin.semicolon hattr
          rw [completes_cons hnext, ihname next ⟨hs', hout⟩, hsome, hs]
          simp
        · rw [if_neg hc]
          obtain ⟨next, hnext, hin', hsame, hstate⟩ := hin.step hc
          rw [completes_cons hnext]
          have hs' : next.s = 5 :=
            hin'.state.resolve_left fun h => by
              have hthree := (hstate.mp h).1
              omega
          exact ihignored next hin' (hsame ▸ hattr) hs'

theorem completes_subtype {st : ContentState} {text : Bytes} (hs : st.s = 1)
    (hout : st.out = .subtype) :
    Completes st text ↔
      ¬ AfterFirst (ascii ';') (NamelessParameter false) text := by
  induction text generalizing st with
  | nil => simp [completes_nil, hs]
  | cons c rest ih =>
      rw [afterFirst_cons]
      by_cases hc : c = ascii ';'
      · have hnext : Returns (contentTypeChar st c)
            { st with attr := none, out := .attr, s := 2 } := by
          simp [contentTypeChar, hs, hc]
        rw [completes_cons hnext, if_pos hc]
        exact (completes_iff rest).1 _ ⟨rfl, rfl⟩
      · have hnext : Returns (contentTypeChar st c)
            { st with result.subtype := putByte st.result.subtype c } := by
          simp [contentTypeChar, hs, hout, hc, ContentState.put]
        rw [completes_cons hnext, if_neg hc]
        exact ih hs hout

theorem completes_type {st : ContentState} {text : Bytes} (hs : st.s = 0)
    (hout : st.out = .type) : Completes st text ↔ ¬ Nameless text := by
  rw [Nameless]
  induction text generalizing st with
  | nil => simp [completes_nil, hs]
  | cons c rest ih =>
      rw [afterFirst_cons]
      by_cases hc : c = ascii '/'
      · have hnext : Returns (contentTypeChar st c)
            { st with result.subtype := none, out := .subtype, s := 1 } := by
          simp [contentTypeChar, hs, hc]
        rw [completes_cons hnext, if_pos hc]
        exact completes_subtype rfl rfl
      · have hnext : Returns (contentTypeChar st c)
            { st with result.type := putByte st.result.type c } := by
          simp [contentTypeChar, hs, hout, hc, ContentState.put]
        rw [completes_cons hnext, if_neg hc]
        exact ih hs hout

/-- A call that parses returns if the text is read to its end. -/
theorem contentType_returns_of_parse {cached : ContentType} {text : Bytes}
    (hcached : cached.type = none) (htext : text ≠ []) :
    (∃ result, Returns (contentType cached (some text)) result) ↔
      Completes
        { result := { cached with type := none }, s := 0, out := .type,
          attr := none, value := none } text := by
  cases text with
  | nil => exact absurd rfl htext
  | cons c rest =>
      simp only [contentType, hcached, ne_eq, not_true_eq_false, if_false,
        returns_bind]
      rw [exists_comm]
      refine exists_congr fun last => ?_
      rw [exists_and_left]
      refine and_congr_right fun _ => ?_
      by_cases hs : last.s = 3 ∨ last.s = 5
      · simp only [hs, if_true, true_imp_iff]
        cases last.attr with
        | none => simp [StringHash.set, returns_bind]
        | some attr => simp [StringHash.set, returns_bind]
      · simp [hs]

/-- `content_type` returns, and so never stores a parameter without a name,
unless it parses a text that has one. -/
theorem contentType_returns_iff (cached : ContentType) (env : Option Bytes) :
    (∃ result, Returns (contentType cached env) result) ↔
      cached.type ≠ none ∨ ∀ text, env = some text → ¬ Nameless text := by
  by_cases hcached : cached.type = none
  · rcases env with _ | _ | ⟨c, rest⟩
    · simp [contentType, hcached]
    · simp [contentType, hcached, Nameless]
    · rw [contentType_returns_of_parse hcached (List.cons_ne_nil c rest),
        completes_type rfl rfl]
      simp [hcached]
  · simp [contentType, hcached]

/-- `a/b;=x` stores `x` under no name. -/
theorem contentType_nameless :
    ¬ ∃ result, Returns (contentType newContentType (some (chars "a/b;=x")))
      result := by
  rintro ⟨result, n, hn⟩
  have herror : (contentType newContentType (some (chars "a/b;=x"))).run n =
      .error .undefined := rfl
  rw [herror] at hn
  cases hn

end Libcad
