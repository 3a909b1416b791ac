/-
The parser of CONTENT_TYPE.

The case that reads an unquoted value has no `break`: control goes on into the
case that reads a quoted one.
-/
import Libcad.CgiQuery
import Mathlib.Data.List.MinMax

namespace Libcad

/-- `cad_cgi_content_type_t` -/
structure ContentType where
  type : Option Bytes
  subtype : Option Bytes
  parameters : StringHash
deriving DecidableEq

/-- The variable whose address `out` holds in `content_type`. -/
inductive ContentTarget
  | type
  | subtype
  | attr
  | value
deriving Repr, DecidableEq

/-- The result and the local variables of `content_type`. -/
structure ContentState where
  result : ContentType
  s : Nat
  out : ContentTarget
  attr : Option Bytes
  value : Option Bytes
deriving DecidableEq

def quote : UInt8 := 34

/-- A string stream has one more byte in its string. -/
def putByte (buffer : Option Bytes) (c : UInt8) : Option Bytes :=
  some (buffer.getD [] ++ [c])

/-- `out->put(out, "%c", c)` -/
def ContentState.put (st : ContentState) (c : UInt8) : ContentState :=
  match st.out with
  | .type => { st with result.type := putByte st.result.type c }
  | .subtype => { st with result.subtype := putByte st.result.subtype c }
  | .attr => { st with attr := putByte st.attr c }
  | .value => { st with value := putByte st.value c }

/-- The parameter is stored and `out` starts the next attribute. -/
def ContentState.setParameter (st : ContentState) : Proc ContentState := do
  let parameters ← st.result.parameters.set st.attr st.value
  pure { st with
    result.parameters := parameters, attr := none, value := none, out := .attr,
    s := 2 }

/-- `case 4`: reading value in quoted string. -/
def ContentState.quoted (st : ContentState) (c : UInt8) : ContentState :=
  if c = quote then { st with s := 5 } else st.put c

/-- `case 3`: reading value. -/
def ContentState.unquoted (st : ContentState) (c : UInt8) :
    Proc ContentState :=
  if c = ascii ';' then st.setParameter
  else if c = quote then
    if st.attr = none then pure { st with s := 4 } else pure st
  else pure (st.put c)

/-- The `switch` of `content_type` on one byte. -/
def contentTypeChar (st : ContentState) (c : UInt8) : Proc ContentState :=
  match st.s with
  | 0 =>
      if c = ascii '/' then
        pure { st with result.subtype := none, out := .subtype, s := 1 }
      else pure (st.put c)
  | 1 =>
      if c = ascii ';' then pure { st with attr := none, out := .attr, s := 2 }
      else pure (st.put c)
  | 2 =>
      if c = ascii '=' then pure { st with value := none, out := .value, s := 3 }
      else pure (st.put c)
  | 3 => do
      let st ← st.unquoted c
      -- no `break` here in the source
      pure (st.quoted c)
  | 4 => pure (st.quoted c)
  | 5 => if c = ascii ';' then st.setParameter else pure st
  | _ => pure st

/-- The loop of `content_type`. -/
def contentTypeLoop (st : ContentState) : Bytes → Proc ContentState
  | [] => pure st
  | c :: rest => do
      let st ← contentTypeChar st c
      contentTypeLoop st rest

/-- `content_type`, on what `getenv("CONTENT_TYPE")` answers. -/
def contentType (cached : ContentType) (env : Option Bytes) :
    Proc ContentType :=
  if cached.type ≠ none then pure cached
  else
    match env with
    | none => pure { cached with type := some [], subtype := some [] }
    | some [] => pure { cached with type := some [], subtype := some [] }
    | some text => do
        let st ← contentTypeLoop
          { result := { cached with type := none }, s := 0, out := .type,
            attr := none, value := none } text
        if st.s = 3 ∨ st.s = 5 then
          let parameters ← st.result.parameters.set st.attr st.value
          pure { st.result with parameters := parameters }
        else pure st.result

/-- The content type of a new `meta_impl`. -/
def newContentType : ContentType := ⟨none, none, []⟩

/-- `;attribute=value` or `;attribute="value"` -/
structure Parameter where
  attr : Bytes
  value : Bytes
  quoted : Bool
deriving DecidableEq

def Parameter.text (p : Parameter) : Bytes :=
  ascii ';' :: p.attr ++ ascii '=' ::
    if p.quoted then quote :: p.value ++ [quote] else p.value

structure Parameter.WellFormed (p : Parameter) : Prop where
  attr_ne_nil : p.attr ≠ []
  attr_nul : (0 : UInt8) ∉ p.attr
  attr_equals : ascii '=' ∉ p.attr
  value_ne_nil : p.value ≠ []
  value_nul : (0 : UInt8) ∉ p.value
  value_quote : quote ∉ p.value
  value_semicolon : p.quoted = false → ascii ';' ∉ p.value

/-- A header of the grammar: `type/subtype` and its parameters. -/
structure MediaType where
  type : Bytes
  subtype : Bytes
  parameters : List Parameter
deriving DecidableEq

def MediaType.text (m : MediaType) : Bytes :=
  m.type ++ ascii '/' :: m.subtype ++ m.parameters.flatMap Parameter.text

structure MediaType.WellFormed (m : MediaType) : Prop where
  type_ne_nil : m.type ≠ []
  type_nul : (0 : UInt8) ∉ m.type
  type_slash : ascii '/' ∉ m.type
  subtype_ne_nil : m.subtype ≠ []
  subtype_nul : (0 : UInt8) ∉ m.subtype
  subtype_semicolon : ascii ';' ∉ m.subtype
  parameters : ∀ p ∈ m.parameters, p.WellFormed
  distinct : (m.parameters.map Parameter.attr).Nodup

/-- The value the header gives to an attribute. -/
def MediaType.lookup (m : MediaType) (key : Bytes) : Option Bytes :=
  (m.parameters.find? fun p => p.attr = key).map Parameter.value

/-- The parser returns exactly what the header says. -/
def MediaType.Reproduced (m : MediaType) : Prop :=
  ∃ result, (contentType newContentType (some m.text)).Returns result ∧
    result.type = some m.type ∧ result.subtype = some m.subtype ∧
    ∀ key, result.parameters.get key = m.lookup key

open Proc

theorem contentTypeLoop_append {st st' : ContentState} {a b : Bytes} :
    Returns (contentTypeLoop st (a ++ b)) st' ↔
      ∃ mid, Returns (contentTypeLoop st a) mid ∧
        Returns (contentTypeLoop mid b) st' := by
  induction a generalizing st with
  | nil =>
      constructor
      · exact fun h => ⟨st, returns_pure_self st, h⟩
      · rintro ⟨mid, hmid, h⟩
        cases returns_pure.mp hmid
        exact h
  | cons c a ih =>
      simp only [List.cons_append, contentTypeLoop, returns_bind, ih]
      constructor
      · rintro ⟨st₁, hc, mid, hmid, h⟩
        exact ⟨mid, ⟨st₁, hc, hmid⟩, h⟩
      · rintro ⟨mid, ⟨st₁, hc, hmid⟩, h⟩
        exact ⟨st₁, hc, mid, hmid, h⟩

theorem contentTypeLoop_cons {st st₁ st' : ContentState} {c : UInt8}
    {rest : Bytes} (hc : contentTypeChar st c = pure st₁)
    (h : Returns (contentTypeLoop st₁ rest) st') :
    Returns (contentTypeLoop st (c :: rest)) st' := by
  rw [contentTypeLoop, hc]
  exact (returns_pure_self st₁).bind h

theorem contentTypeLoop_copies {st : ContentState} {text : Bytes}
    (h : ∀ st' : ContentState, st'.s = st.s → st'.out = st.out →
      ∀ c ∈ text, contentTypeChar st' c = pure (st'.put c)) :
    Returns (contentTypeLoop st text) (text.foldl ContentState.put st) := by
  induction text generalizing st with
  | nil => exact returns_pure_self st
  | cons c text ih =>
      refine contentTypeLoop_cons (h st rfl rfl c List.mem_cons_self) (ih ?_)
      intro st' hs hout d hd
      have hput : (st.put c).s = st.s ∧ (st.put c).out = st.out := by
        rw [ContentState.put]
        split <;> simp_all
      exact h st' (hs.trans hput.1) (hout.trans hput.2) d
        (List.mem_cons_of_mem c hd)

def StringHash.Stores (hash : StringHash) (P : Bytes → Prop) : Prop :=
  ∀ e ∈ hash, ∀ v, e.2 = some v → P v

theorem StringHash.Stores.of_get {hash : StringHash} {P : Bytes → Prop}
    (h : hash.Stores P) {key v : Bytes} (hget : hash.get key = some v) : P v := by
  rw [StringHash.get, Option.join_eq_some_iff] at hget
  obtain ⟨e, hmem, _, heq⟩ := Dict.mem_of_get_eq_some hget
  exact h e hmem v heq

theorem StringHash.Stores.set {hash hash' : StringHash} {P : Bytes → Prop}
    (h : hash.Stores P) {key value : Option Bytes}
    (hv : ∀ v, value = some v → P (cString v))
    (hset : Returns (hash.set key value) hash') : hash'.Stores P := by
  cases key with
  | none => exact absurd hset not_returns_undefined
  | some key =>
      cases returns_pure.mp hset
      intro e he v hev
      rcases Dict.mem_set he with heq | hmem
      · rw [heq] at hev
        obtain ⟨w, hw, rfl⟩ := Option.map_eq_some_iff.mp hev
        exact hv w hw
      · exact h e hmem v hev

/-- At every loop head `out` fills the variable the state is about; the state
of a quoted value is left by the byte that enters it. -/
def ContentState.Consistent (st : ContentState) : Prop :=
  (st.s = 0 ∧ st.out = .type) ∨ (st.s = 1 ∧ st.out = .subtype) ∨
    (st.s = 2 ∧ st.out = .attr) ∨ (st.s = 3 ∧ st.out = .value) ∨
    (st.s = 5 ∧ st.out = .value)

theorem ContentState.setParameter_returns {st st' : ContentState}
    (h : Returns st.setParameter st') :
    ∃ parameters, Returns (st.result.parameters.set st.attr st.value) parameters ∧
      st' = { st with
        result.parameters := parameters, attr := none, value := none,
        out := .attr, s := 2 } := by
  obtain ⟨parameters, hset, hst⟩ := returns_bind.mp h
  exact ⟨parameters, hset, (returns_pure.mp hst).symm⟩

/-- No value in the table or on its way there contains a semicolon. -/
structure ContentState.NoSemicolon (st : ContentState) : Prop where
  consistent : st.Consistent
  stored : st.result.parameters.Stores (ascii ';' ∉ ·)
  pending : ∀ v, st.value = some v → ascii ';' ∉ v

theorem cString_subset (b : Bytes) : cString b ⊆ b :=
  (List.takeWhile_prefix _).subset

theorem ContentState.NoSemicolon.set {st : ContentState} (h : st.NoSemicolon)
    {parameters : StringHash}
    (hset : Returns (st.result.parameters.set st.attr st.value) parameters) :
    parameters.Stores (ascii ';' ∉ ·) :=
  h.stored.set (fun v hv hmem => h.pending v hv (cString_subset v hmem)) hset

theorem contentTypeChar_noSemicolon {st st' : ContentState} {c : UInt8}
    (h : st.NoSemicolon) (hst : Returns (contentTypeChar st c) st') :
    st'.NoSemicolon := by
  rcases h.consistent with ⟨hs, ho⟩ | ⟨hs, ho⟩ | ⟨hs, ho⟩ | ⟨hs, ho⟩ | ⟨hs, ho⟩
  · simp only [contentTypeChar, hs] at hst
    by_cases hc : c = ascii '/'
    · rw [if_pos hc] at hst
      cases returns_pure.mp hst
      exact ⟨Or.inr (Or.inl ⟨rfl, rfl⟩), h.stored, h.pending⟩
    · rw [if_neg hc] at hst
      cases returns_pure.mp hst
      rw [ContentState.put, ho]
      exact ⟨Or.inl ⟨hs, rfl⟩, h.stored, h.pending⟩
  · simp only [contentTypeChar, hs] at hst
    by_cases hc : c = ascii ';'
    · rw [if_pos hc] at hst
      cases returns_pure.mp hst
      exact ⟨Or.inr (Or.inr (Or.inl ⟨rfl, rfl⟩)), h.stored, h.pending⟩
    · rw [if_neg hc] at hst
      cases returns_pure.mp hst
      rw [ContentState.put, ho]
      exact ⟨Or.inr (Or.inl ⟨hs, rfl⟩), h.stored, h.pending⟩
  · simp only [contentTypeChar, hs] at hst
    by_cases hc : c = ascii '='
    · rw [if_pos hc] at hst
      cases returns_pure.mp hst
      exact ⟨Or.inr (Or.inr (Or.inr (Or.inl ⟨rfl, rfl⟩))), h.stored, by simp⟩
    · rw [if_neg hc] at hst
      cases returns_pure.mp hst
      rw [ContentState.put, ho]
      exact ⟨Or.inr (Or.inr (Or.inl ⟨hs, rfl⟩)), h.stored, h.pending⟩
  · simp only [contentTypeChar, hs] at hst
    obtain ⟨mid, hmid, hst⟩ := returns_bind.mp hst
    cases returns_pure.mp hst
    rw [ContentState.unquoted] at hmid
    by_cases hc : c = ascii ';'
    · -- the separator is stored by `setParameter`, then put into the attribute
      rw [if_pos hc] at hmid
      obtain ⟨parameters, hset, rfl⟩ := ContentState.setParameter_returns hmid
      rw [ContentState.quoted, if_neg (by rw [hc]; decide), ContentState.put]
      exact ⟨Or.inr (Or.inr (Or.inl ⟨rfl, rfl⟩)), h.set hset, by simp⟩
    · rw [if_neg hc] at hmid
      by_cases hq : c = quote
      · have hmid' : mid.result = st.result ∧ mid.value = st.value ∧
            mid.out = st.out := by
          rw [if_pos hq] at hmid
          split at hmid <;> (cases returns_pure.mp hmid; simp)
        rw [ContentState.quoted, if_pos hq]
        refine ⟨Or.inr (Or.inr (Or.inr (Or.inr ⟨rfl, ?_⟩))), ?_, ?_⟩
        · exact hmid'.2.2.trans ho
        · exact hmid'.1 ▸ h.stored
        · exact hmid'.2.1 ▸ h.pending
      · rw [if_neg hq] at hmid
        cases returns_pure.mp hmid
        rw [ContentState.quoted, if_neg hq]
        simp only [ContentState.put, ho, putByte]
        refine ⟨Or.inr (Or.inr (Or.inr (Or.inl ⟨hs, rfl⟩))), h.stored, ?_⟩
        intro v hv hmem
        cases hv
        have hold : ascii ';' ∉ st.value.getD [] := by
          cases hval : st.value with
          | none => simp
          | some w => exact h.pending w hval
        simp only [Option.getD_some, List.append_assoc, List.mem_append,
          List.mem_singleton] at hmem
        rcases hmem with hmem | hmem | hmem
        · exact hold hmem
        · exact hc hmem.symm
        · exact hc hmem.symm
  · simp only [contentTypeChar, hs] at hst
    by_cases hc : c = ascii ';'
    · rw [if_pos hc] at hst
      obtain ⟨parameters, hset, rfl⟩ := ContentState.setParameter_returns hst
      exact ⟨Or.inr (Or.inr (Or.inl ⟨rfl, rfl⟩)), h.set hset, by simp⟩
    · rw [if_neg hc] at hst
      cases returns_pure.mp hst
      exact h

theorem contentTypeLoop_noSemicolon {st st' : ContentState} {text : Bytes}
    (h : st.NoSemicolon) (hst : Returns (contentTypeLoop st text) st') :
    st'.NoSemicolon := by
  induction text generalizing st with
  | nil => exact returns_pure.mp hst ▸ h
  | cons c text ih =>
      obtain ⟨mid, hc, hrest⟩ := returns_bind.mp hst
      exact ih (contentTypeChar_noSemicolon h hc) hrest

/-- Every byte twice: what the missing `break` makes of a value. -/
def doubled (v : Bytes) : Bytes := v.flatMap fun c => [c, c]

theorem length_doubled (v : Bytes) : (doubled v).length = 2 * v.length := by
  induction v with
  | nil => rfl
  | cons c v ih =>
      rw [doubled, List.flatMap_cons, List.length_append, ← doubled, ih]
      simp only [List.length_cons, List.length_nil]
      omega

/-- An attribute is read next, and the stored values satisfy `P`. -/
structure ContentState.AtAttribute (st : ContentState) (P : Bytes → Prop) :
    Prop where
  s_eq : st.s = 2
  out_eq : st.out = .attr
  stored : st.result.parameters.Stores P

/-- A parameter has been read but is not stored yet. -/
structure ContentState.AtEnd (st : ContentState) (P : Bytes → Prop) : Prop where
  s_eq : st.s = 3 ∨ st.s = 5
  out_eq : st.out = .value
  stored : st.result.parameters.Stores P
  pending : ∀ v, st.value = some v → P (cString v)

theorem contentTypeLoop_attribute {st : ContentState} {P : Bytes → Prop}
    (h : st.AtAttribute P) {attr : Bytes} (ha : ascii '=' ∉ attr) :
    ∃ st', Returns (contentTypeLoop st (attr ++ [ascii '='])) st' ∧
      st'.s = 3 ∧ st'.out = .value ∧ st'.value = none ∧
      st'.result.parameters.Stores P := by
  have hcopy : Returns (contentTypeLoop st attr)
      (attr.foldl ContentState.put st) := by
    apply contentTypeLoop_copies
    intro st' hs _ c hc
    have hne : c ≠ ascii '=' := fun heq => ha (heq ▸ hc)
    simp [contentTypeChar, hs, h.s_eq, hne]
  have hfold : ∀ (bytes : Bytes) (st : ContentState), st.AtAttribute P →
      (bytes.foldl ContentState.put st).AtAttribute P := by
    intro bytes
    induction bytes with
    | nil => exact fun _ h => h
    | cons c bytes ih =>
        intro st hst
        apply ih
        simp only [ContentState.put, hst.out_eq]
        exact ⟨hst.s_eq, rfl, hst.stored⟩
  have hend := hfold attr st h
  have hequal : contentTypeChar (attr.foldl ContentState.put st) (ascii '=') =
      pure { attr.foldl ContentState.put st with
        value := none, out := .value, s := 3 } := by
    simp [contentTypeChar, hend.s_eq]
  refine ⟨_, contentTypeLoop_append.mpr ⟨_, hcopy, contentTypeLoop_cons hequal
    (returns_pure_self _)⟩, rfl, rfl, rfl, hend.stored⟩

/-- An unquoted value is put into the buffer with every byte doubled. -/
theorem contentTypeLoop_unquoted {v : Bytes} (hsemi : ascii ';' ∉ v)
    (hquote : quote ∉ v) {st : ContentState} (hs : st.s = 3)
    (ho : st.out = .value) :
    Returns (contentTypeLoop st v)
      { st with value := filled st.value (doubled v) } := by
  induction v generalizing st with
  | nil => exact returns_pure_self st
  | cons c v ih =>
      have hc : c ≠ ascii ';' := fun h => hsemi (h ▸ List.mem_cons_self)
      have hq : c ≠ quote := fun h => hquote (h ▸ List.mem_cons_self)
      have hchar : contentTypeChar st c = pure
          { st with value := some (st.value.getD [] ++ [c, c]) } := by
        have hmid : st.unquoted c = pure (st.put c) := by
          simp [ContentState.unquoted, hc, hq]
        simp only [contentTypeChar, hs, hmid]
        change pure ((st.put c).quoted c) = _
        simp [ContentState.quoted, hq, ContentState.put, ho, putByte, hs]
      refine contentTypeLoop_cons hchar ?_
      have ho' : ({ st with value := some (st.value.getD [] ++ [c, c]) } :
          ContentState).out = .value := ho
      have hs' : ({ st with value := some (st.value.getD [] ++ [c, c]) } :
          ContentState).s = 3 := hs
      have htail := ih (fun h => hsemi (List.mem_cons_of_mem c h))
        (fun h => hquote (List.mem_cons_of_mem c h)) hs' ho'
      have hfill : filled (some (st.value.getD [] ++ [c, c])) (doubled v) =
          filled st.value (doubled (c :: v)) := by
        rw [show doubled (c :: v) = c :: c :: doubled v from rfl, ← filled_cons,
          ← filled_cons]
        simp
      rwa [hfill] at htail

/-- Nothing is read after the opening quote of a value without a semicolon. -/
theorem contentTypeLoop_ignored {v : Bytes} (hsemi : ascii ';' ∉ v)
    {st : ContentState} (hs : st.s = 5) : Returns (contentTypeLoop st v) st := by
  induction v with
  | nil => exact returns_pure_self st
  | cons c v ih =>
      have hc : c ≠ ascii ';' := fun h => hsemi (h ▸ List.mem_cons_self)
      exact contentTypeLoop_cons (by simp [contentTypeChar, hs, hc])
        (ih fun h => hsemi (List.mem_cons_of_mem c h))

/-- One parameter after its separator: the pending value is the doubled text,
or NULL for a quoted one. -/
theorem contentTypeLoop_parameter {q : Parameter} (hq : q.WellFormed)
    (hsemi : ascii ';' ∉ q.value) {P : Bytes → Prop} (hP : P (doubled q.value))
    {st : ContentState} (h : st.AtAttribute P) :
    ∃ st', Returns (contentTypeLoop st q.text.tail) st' ∧ st'.AtEnd P := by
  obtain ⟨st₁, hattr, hs, ho, hv, hstored⟩ :=
    contentTypeLoop_attribute h hq.attr_equals
  have htext : q.text.tail = (q.attr ++ [ascii '=']) ++
      if q.quoted then quote :: q.value ++ [quote] else q.value := by
    simp [Parameter.text]
  rw [htext]
  cases hquoted : q.quoted with
  | false =>
      have hrun := contentTypeLoop_unquoted hsemi hq.value_quote hs ho
      have hne : doubled q.value ≠ [] := by
        intro hnil
        have hlen := length_doubled q.value
        rw [hnil, List.length_nil] at hlen
        have hpos := List.length_pos_iff.mpr hq.value_ne_nil
        omega
      refine ⟨_, contentTypeLoop_append.mpr ⟨st₁, hattr, hrun⟩,
        Or.inl hs, ho, hstored, ?_⟩
      intro v hval
      have hnul : (0 : UInt8) ∉ doubled q.value := by
        intro hmem
        obtain ⟨c, hc, hmem⟩ := List.mem_flatMap.mp hmem
        have : (0 : UInt8) = c := by simpa using hmem
        exact hq.value_nul (this ▸ hc)
      have : v = doubled q.value := by simpa [filled, hv, hne] using hval.symm
      rw [this, cString_of_not_mem hnul]
      exact hP
  | true =>
      obtain ⟨st₂, hst₂, hs₂, ho₂, hv₂, hr₂⟩ : ∃ st₂,
          contentTypeChar st₁ quote = pure st₂ ∧ st₂.s = 5 ∧
            st₂.out = .value ∧ st₂.value = none ∧ st₂.result = st₁.result := by
        have hne : quote ≠ ascii ';' := by decide
        cases ha : st₁.attr with
        | none =>
            have hun : st₁.unquoted quote = pure { st₁ with s := 4 } := by
              simp [ContentState.unquoted, hne, ha]
            exact ⟨{ st₁ with s := 5 },
              by simp only [contentTypeChar, hs, hun]; rfl, rfl, ho, hv, rfl⟩
        | some a =>
            have hun : st₁.unquoted quote = pure st₁ := by
              simp [ContentState.unquoted, hne, ha]
            exact ⟨{ st₁ with s := 5 },
              by simp only [contentTypeChar, hs, hun]; rfl, rfl, ho, hv, rfl⟩
      have hignored : ascii ';' ∉ q.value ++ [quote] := by
        simp only [List.mem_append, List.mem_singleton, not_or]
        exact ⟨hsemi, by decide⟩
      refine ⟨st₂, contentTypeLoop_append.mpr ⟨st₁, hattr,
        contentTypeLoop_cons hst₂ (contentTypeLoop_ignored hignored hs₂)⟩,
        Or.inr hs₂, ho₂, hr₂ ▸ hstored, ?_⟩
      intro v hval
      rw [hv₂] at hval
      cases hval

/-- A separator after a complete parameter stores it. -/
theorem contentTypeChar_separator {st st' : ContentState} {P : Bytes → Prop}
    (h : st.AtEnd P) (hst : Returns (contentTypeChar st (ascii ';')) st') :
    st'.AtAttribute P := by
  rcases h.s_eq with hs | hs
  · simp only [contentTypeChar, hs] at hst
    obtain ⟨mid, hmid, hst⟩ := returns_bind.mp hst
    cases returns_pure.mp hst
    rw [ContentState.unquoted, if_pos rfl] at hmid
    obtain ⟨parameters, hset, rfl⟩ := ContentState.setParameter_returns hmid
    exact ⟨rfl, rfl, h.stored.set h.pending hset⟩
  · simp only [contentTypeChar, hs, ↓reduceIte] at hst
    obtain ⟨parameters, hset, rfl⟩ := ContentState.setParameter_returns hst
    exact ⟨rfl, rfl, h.stored.set h.pending hset⟩

theorem contentTypeLoop_parameters {params : List Parameter} {P : Bytes → Prop}
    (hparams : ∀ q ∈ params,
      q.WellFormed ∧ ascii ';' ∉ q.value ∧ P (doubled q.value))
    {st st' : ContentState} (h : st.AtEnd P)
    (hst : Returns (contentTypeLoop st (params.flatMap Parameter.text)) st') :
    st'.AtEnd P := by
  induction params generalizing st with
  | nil => exact returns_pure.mp hst ▸ h
  | cons q params ih =>
      obtain ⟨hwf, hsemi, hP⟩ := hparams q List.mem_cons_self
      rw [List.flatMap_cons] at hst
      obtain ⟨mid, hq, hst⟩ := contentTypeLoop_append.mp hst
      obtain ⟨sep, hsep, hq⟩ := returns_bind.mp
        (show Returns (contentTypeLoop st (ascii ';' :: q.text.tail)) mid from hq)
      obtain ⟨mid', hmid', hend⟩ := contentTypeLoop_parameter hwf hsemi hP
        (contentTypeChar_separator h hsep)
      rw [hmid'.unique hq] at hend
      exact ih (fun q' hq' => hparams q' (List.mem_cons_of_mem q hq')) hend hst

def ContentState.start : ContentState :=
  { result := newContentType, s := 0, out := .type, attr := none, value := none }

theorem contentType_eq {text : Bytes} (h : text ≠ []) {result : ContentType} :
    Returns (contentType newContentType (some text)) result ↔
      ∃ st, Returns (contentTypeLoop .start text) st ∧
        ((st.s = 3 ∨ st.s = 5) ∧ (∃ parameters,
            Returns (st.result.parameters.set st.attr st.value) parameters ∧
            result = { st.result with parameters := parameters }) ∨
          ¬(st.s = 3 ∨ st.s = 5) ∧ result = st.result) := by
  cases text with
  | nil => exact absurd rfl h
  | cons c text =>
      unfold contentType
      rw [if_neg (by simp [newContentType])]
      change Returns (contentTypeLoop .start (c :: text) >>= _) result ↔ _
      rw [returns_bind]
      refine exists_congr fun st => and_congr_right fun _ => ?_
      by_cases hs : st.s = 3 ∨ st.s = 5
      · rw [if_pos hs, returns_bind]
        simp [hs, eq_comm]
      · rw [if_neg hs]
        simp [hs, eq_comm]

theorem contentTypeLoop_head {m : MediaType} (hm : m.WellFormed) :
    Returns (contentTypeLoop .start (m.type ++ ascii '/' :: m.subtype))
      { ContentState.start with
        result.type := some m.type, result.subtype := some m.subtype,
        s := 1, out := .subtype } := by
  have htype : ∀ (bytes : Bytes) (st : ContentState), st.out = .type →
      bytes.foldl ContentState.put st =
        { st with result.type := filled st.result.type bytes } := by
    intro bytes
    induction bytes with
    | nil => exact fun _ _ => rfl
    | cons c bytes ih =>
        intro st ho
        have hput : st.put c = { st with
            result.type := some (st.result.type.getD [] ++ [c]) } := by
          rw [ContentState.put, ho]
          rfl
        rw [List.foldl_cons, ih (st.put c) (hput ▸ ho), hput]
        simp only [filled_cons]
  have hsubtype : ∀ (bytes : Bytes) (st : ContentState), st.out = .subtype →
      bytes.foldl ContentState.put st =
        { st with result.subtype := filled st.result.subtype bytes } := by
    intro bytes
    induction bytes with
    | nil => exact fun _ _ => rfl
    | cons c bytes ih =>
        intro st ho
        have hput : st.put c = { st with
            result.subtype := some (st.result.subtype.getD [] ++ [c]) } := by
          rw [ContentState.put, ho]
          rfl
        rw [List.foldl_cons, ih (st.put c) (hput ▸ ho), hput]
        simp only [filled_cons]
  have hcopy : Returns (contentTypeLoop .start m.type)
      (m.type.foldl ContentState.put .start) := by
    apply contentTypeLoop_copies
    intro st' hs _ c hc
    have hne : c ≠ ascii '/' := fun heq => hm.type_slash (heq ▸ hc)
    have hs' : st'.s = 0 := hs
    simp [contentTypeChar, hs', hne]
  rw [htype m.type .start rfl] at hcopy
  let st₁ : ContentState := { ContentState.start with
    result.type := some m.type, out := .subtype, s := 1 }
  have hcopy' : Returns (contentTypeLoop st₁ m.subtype)
      (m.subtype.foldl ContentState.put st₁) := by
    apply contentTypeLoop_copies
    intro st' hs _ c hc
    have hne : c ≠ ascii ';' := fun heq => hm.subtype_semicolon (heq ▸ hc)
    have hs' : st'.s = 1 := hs
    simp [contentTypeChar, hs', hne]
  rw [hsubtype m.subtype st₁ rfl] at hcopy'
  refine contentTypeLoop_append.mpr ⟨_, hcopy, contentTypeLoop_cons
    (show _ = pure st₁ from ?_) ?_⟩
  · simp [contentTypeChar, ContentState.start, newContentType, filled,
      hm.type_ne_nil, st₁]
  · simpa [ContentState.start, newContentType, filled, hm.subtype_ne_nil, st₁]
      using hcopy'

/-- Every value in the table the parser returns satisfies what every parameter
value satisfies after doubling, when no parameter value has a semicolon. -/
theorem contentType_stores {m : MediaType} (hm : m.WellFormed)
    (hne : m.parameters ≠ []) (hsemi : ∀ q ∈ m.parameters, ascii ';' ∉ q.value)
    {P : Bytes → Prop} (hP : ∀ q ∈ m.parameters, P (doubled q.value))
    {result : ContentType}
    (h : Returns (contentType newContentType (some m.text)) result) :
    result.parameters.Stores P := by
  have htext : m.text ≠ [] := by simp [MediaType.text]
  obtain ⟨st, hst, hresult⟩ := (contentType_eq htext).mp h
  rw [MediaType.text] at hst
  obtain ⟨mid, hmid, hst⟩ := contentTypeLoop_append.mp hst
  cases (contentTypeLoop_head hm).unique hmid
  have hnil : (ContentState.start).result.parameters.Stores P := by
    intro e he
    cases he
  have hend : st.AtEnd P := by
    cases hp : m.parameters with
    | nil => exact absurd hp hne
    | cons q params =>
        have hall : ∀ p ∈ q :: params,
            p.WellFormed ∧ ascii ';' ∉ p.value ∧ P (doubled p.value) :=
          fun p hmem => by
            rw [← hp] at hmem
            exact ⟨hm.parameters p hmem, hsemi p hmem, hP p hmem⟩
        obtain ⟨hwf, hq, hPq⟩ := hall q List.mem_cons_self
        rw [hp, List.flatMap_cons] at hst
        obtain ⟨mid, hq', hst⟩ := contentTypeLoop_append.mp hst
        obtain ⟨sep, hsep, hq'⟩ := returns_bind.mp
          (show Returns (contentTypeLoop _ (ascii ';' :: q.text.tail)) mid
            from hq')
        have hattr : sep.AtAttribute P := by
          simp only [contentTypeChar, ↓reduceIte] at hsep
          cases returns_pure.mp hsep
          exact ⟨rfl, rfl, hnil⟩
        obtain ⟨mid', hmid', hatEnd⟩ :=
          contentTypeLoop_parameter hwf hq hPq hattr
        rw [hmid'.unique hq'] at hatEnd
        exact contentTypeLoop_parameters
          (fun p hmem => hall p (List.mem_cons_of_mem q hmem)) hatEnd hst
  rcases hresult with ⟨_, parameters, hset, rfl⟩ | ⟨hs, _⟩
  · exact hend.stored.set hend.pending hset
  · exact absurd hend.s_eq hs

/-- The parser never stores a value with a semicolon. -/
theorem contentType_noSemicolon {text : Bytes} (htext : text ≠ [])
    {result : ContentType}
    (h : Returns (contentType newContentType (some text)) result) :
    result.parameters.Stores (ascii ';' ∉ ·) := by
  obtain ⟨st, hst, hresult⟩ := (contentType_eq htext).mp h
  have hstart : ContentState.start.NoSemicolon :=
    ⟨Or.inl ⟨rfl, rfl⟩, (fun _ he => nomatch he), (fun _ hv => nomatch hv)⟩
  have hend := contentTypeLoop_noSemicolon hstart hst
  rcases hresult with ⟨_, parameters, hset, rfl⟩ | ⟨_, rfl⟩
  · exact hend.set hset
  · exact hend.stored

theorem MediaType.lookup_of_mem {m : MediaType} (hm : m.WellFormed)
    {q : Parameter} (hq : q ∈ m.parameters) : m.lookup q.attr = some q.value := by
  rw [MediaType.lookup]
  cases hfind : m.parameters.find? fun p => p.attr = q.attr with
  | none =>
      have := List.find?_eq_none.mp hfind q hq
      simp at this
  | some p =>
      have hattr : p.attr = q.attr := by simpa using List.find?_some hfind
      have hp := List.mem_of_find?_eq_some hfind
      rw [List.inj_on_of_nodup_map hm.distinct hp hq hattr]
      rfl

/-- The parser reproduces a header of the grammar exactly when the header has
no parameters.  With parameters, a value that is stored at all is stored with
every byte doubled, so the shortest value is stored nowhere. -/
theorem contentType_reproduces_iff (m : MediaType) (hm : m.WellFormed) :
    m.Reproduced ↔ m.parameters = [] := by
  have htext : m.text ≠ [] := by simp [MediaType.text]
  constructor
  · rintro ⟨result, hrun, _, _, hget⟩
    by_contra hne
    have hstored : ∀ q ∈ m.parameters,
        result.parameters.get q.attr = some q.value := fun q hq => by
      rw [hget, MediaType.lookup_of_mem hm hq]
    have hsemi : ∀ q ∈ m.parameters, ascii ';' ∉ q.value := fun q hq =>
      (contentType_noSemicolon htext hrun).of_get (hstored q hq)
    obtain ⟨q, hq, hmin⟩ : ∃ q ∈ m.parameters, ∀ p ∈ m.parameters,
        q.value.length ≤ p.value.length := by
      cases hq : m.parameters.argmin fun p => p.value.length with
      | none => exact absurd (List.argmin_eq_none.mp hq) hne
      | some q =>
          exact ⟨q, List.argmin_mem hq, fun p hp =>
            List.le_of_mem_argmin (f := fun p => p.value.length) hp hq⟩
    have hlong := (contentType_stores hm hne hsemi
      (P := fun v => ∃ p ∈ m.parameters, v.length = 2 * p.value.length)
      (fun p hp => ⟨p, hp, length_doubled p.value⟩) hrun).of_get (hstored q hq)
    obtain ⟨p, hp, hlen⟩ := hlong
    have hle := hmin p hp
    have hpos := List.length_pos_iff.mpr (hm.parameters q hq).value_ne_nil
    omega
  · intro hnil
    refine ⟨⟨some m.type, some m.subtype, []⟩, (contentType_eq htext).mpr
      ⟨{ ContentState.start with
          result.type := some m.type, result.subtype := some m.subtype,
          s := 1, out := .subtype }, ?_, Or.inr ⟨by simp, rfl⟩⟩, rfl, rfl, ?_⟩
    · rw [MediaType.text, hnil, List.flatMap_nil, List.append_nil]
      exact contentTypeLoop_head hm
    · intro key
      rw [MediaType.lookup, hnil]
      rfl

/-- `a/b` and `a/b;c=d` -/
def plainMediaType : MediaType := ⟨[97], [98], []⟩

def paramMediaType : MediaType := ⟨[97], [98], [⟨[99], [100], false⟩]⟩

theorem contentType_reproduces_plain :
    plainMediaType.Reproduced ↔ plainMediaType.parameters = [] :=
  contentType_reproduces_iff plainMediaType
    ⟨by decide, by decide, by decide, by decide, by decide, by decide,
      (fun _ hp => nomatch hp), by decide⟩

/-- On `a/b;c=d` the parser answers that `c` is `dd`. -/
theorem contentType_doubles_value :
    paramMediaType.WellFormed ∧ ¬ paramMediaType.Reproduced := by
  constructor
  · refine ⟨by decide, by decide, by decide, by decide, by decide, by decide,
      ?_, by decide⟩
    intro p hp
    rw [List.mem_singleton.mp hp]
    exact ⟨by decide, by decide, by decide, by decide, by decide, by decide,
      by decide⟩
  · rintro ⟨result, hrun, _, _, hget⟩
    have heval : Returns (contentType newContentType (some paramMediaType.text))
        ⟨some [97], some [98], [([99], some [100, 100])]⟩ :=
      ⟨0, by decide +kernel⟩
    cases hrun.unique heval
    have hc := hget [99]
    revert hc
    decide

end Libcad
