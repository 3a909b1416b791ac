/-
What the accessors of the meta variables report when they are called again.
-/
import Libcad.Accessors
import Libcad.CgiVersion

namespace Libcad

open Proc

def ContentState.with (st : ContentState) (parameters : StringHash) :
    ContentState :=
  { st with result.parameters := parameters }

/-- The same changes are made to every table. -/
def Replays (f : ContentState → Proc ContentState) (st st' : ContentState) :
    Prop :=
  ∃ ops, ∀ parameters, Returns (f (st.with parameters))
    (st'.with (Dict.setAll stringsEqual ops parameters))

theorem Replays.unchanged {f : ContentState → Proc ContentState}
    {st st' : ContentState}
    (h : ∀ parameters, f (st.with parameters) = pure (st'.with parameters)) :
    Replays f st st' :=
  ⟨[], fun parameters => by
    rw [h]
    exact returns_pure_self _⟩

theorem Replays.bind {f g : ContentState → Proc ContentState}
    {st next st' : ContentState} (hf : Replays f st next)
    (hg : Replays g next st') :
    Replays (fun st => f st >>= g) st st' := by
  obtain ⟨ops, hf⟩ := hf
  obtain ⟨ops', hg⟩ := hg
  refine ⟨ops ++ ops', fun parameters => ?_⟩
  rw [Dict.setAll_append]
  exact (hf parameters).bind (hg _)

theorem Replays.congr {f g : ContentState → Proc ContentState}
    {st st' : ContentState} (hg : Replays g st st')
    (hfg : ∀ parameters, f (st.with parameters) = g (st.with parameters)) :
    Replays f st st' := by
  obtain ⟨ops, hops⟩ := hg
  exact ⟨ops, fun parameters => hfg parameters ▸ hops parameters⟩

theorem Replays.choose {P : Prop} [Decidable P]
    {a b : ContentState → ContentState} {st st' : ContentState}
    (ha : ∀ parameters, a (st.with parameters) = (a st).with parameters)
    (hb : ∀ parameters, b (st.with parameters) = (b st).with parameters)
    (h : Returns (if P then pure (a st) else pure (b st) : Proc ContentState)
      st') :
    Replays (fun st => if P then pure (a st) else pure (b st)) st st' := by
  refine .unchanged fun parameters => ?_
  by_cases hp : P
  · rw [if_pos hp] at h ⊢
    rw [← returns_pure.mp h, ha]
  · rw [if_neg hp] at h ⊢
    rw [← returns_pure.mp h, hb]

theorem StringHash.set_replays {hash hash' : StringHash}
    {key value : Option Bytes} (h : Returns (hash.set key value) hash') :
    ∃ ops, ∀ parameters : StringHash,
      Returns (parameters.set key value)
        (Dict.setAll stringsEqual ops parameters) := by
  cases key with
  | none => exact absurd h not_returns_undefined
  | some key =>
      exact ⟨[(cString key, value.map cString)],
        fun _ => returns_pure_self _⟩

@[simp] theorem ContentState.put_with (st : ContentState) (c : UInt8)
    (parameters : StringHash) :
    (st.with parameters).put c = (st.put c).with parameters := by
  rcases st with ⟨result, s, out, attr, value⟩
  cases out <;> rfl

theorem ContentState.quoted_with (st : ContentState) (c : UInt8)
    (parameters : StringHash) :
    (st.with parameters).quoted c = (st.quoted c).with parameters := by
  rw [ContentState.quoted, ContentState.quoted, ContentState.put_with]
  split <;> rfl

theorem setParameter_replays {st st' : ContentState}
    (h : Returns st.setParameter st') :
    Replays ContentState.setParameter st st' := by
  obtain ⟨parameters, hset, rfl⟩ := st.setParameter_returns h
  obtain ⟨ops, hops⟩ := StringHash.set_replays hset
  exact ⟨ops, fun T => (hops T).bind (returns_pure_self _)⟩

theorem unquoted_replays {st st' : ContentState} {c : UInt8}
    (h : Returns (st.unquoted c) st') :
    Replays (fun st => st.unquoted c) st st' := by
  by_cases hsemi : c = ascii ';'
  · rw [ContentState.unquoted, if_pos hsemi] at h
    exact (setParameter_replays h).congr fun _ => if_pos hsemi
  · by_cases hquote : c = quote
    · rw [ContentState.unquoted, if_neg hsemi, if_pos hquote] at h
      refine Replays.congr (Replays.choose (P := st.attr = none)
        (a := fun st => { st with s := 4 }) (b := id) (fun _ => rfl)
        (fun _ => rfl) h) fun _ => ?_
      exact (if_neg hsemi).trans (if_pos hquote)
    · rw [ContentState.unquoted, if_neg hsemi, if_neg hquote] at h
      refine .unchanged fun parameters => ?_
      rw [← returns_pure.mp h, ← ContentState.put_with]
      exact (if_neg hsemi).trans (if_neg hquote)

/-- One byte makes the same changes to every table. -/
theorem contentTypeChar_replays {st st' : ContentState} {c : UInt8}
    (h : Returns (contentTypeChar st c) st') :
    Replays (fun st => contentTypeChar st c) st st' := by
  have hput : ∀ parameters, (st.with parameters).put c =
      (st.put c).with parameters := st.put_with c
  rcases hs : st.s with _ | _ | _ | _ | _ | _ | n
  · simp only [contentTypeChar, hs] at h
    refine (Replays.choose (P := c = ascii '/')
      (a := fun st => { st with
        result.subtype := none, out := .subtype, s := 1 })
      (b := fun st => st.put c) (fun _ => rfl) hput h).congr fun _ => ?_
    simp only [contentTypeChar, ContentState.with, hs]
  · simp only [contentTypeChar, hs] at h
    refine (Replays.choose (P := c = ascii ';')
      (a := fun st => { st with attr := none, out := .attr, s := 2 })
      (b := fun st => st.put c) (fun _ => rfl) hput h).congr fun _ => ?_
    simp only [contentTypeChar, ContentState.with, hs]
  · simp only [contentTypeChar, hs] at h
    refine (Replays.choose (P := c = ascii '=')
      (a := fun st => { st with value := none, out := .value, s := 3 })
      (b := fun st => st.put c) (fun _ => rfl) hput h).congr fun _ => ?_
    simp only [contentTypeChar, ContentState.with, hs]
  · simp only [contentTypeChar, hs] at h
    obtain ⟨next, hunquoted, h⟩ := returns_bind.mp h
    have hquoted : Replays (fun st => pure (st.quoted c)) next st' :=
      .unchanged fun parameters => by
        rw [← returns_pure.mp h, next.quoted_with]
    refine ((unquoted_replays hunquoted).bind hquoted).congr fun _ => ?_
    simp only [contentTypeChar, ContentState.with, hs]
  · simp only [contentTypeChar, hs] at h
    refine .unchanged fun parameters => ?_
    rw [← returns_pure.mp h, ← st.quoted_with]
    simp only [contentTypeChar, ContentState.with, hs]
  · simp only [contentTypeChar, hs] at h
    by_cases hsemi : c = ascii ';'
    · rw [if_pos hsemi] at h
      refine (setParameter_replays h).congr fun _ => ?_
      simp only [contentTypeChar, ContentState.with, hs, if_pos hsemi]
    · rw [if_neg hsemi] at h
      refine .unchanged fun parameters => ?_
      rw [← returns_pure.mp h]
      simp only [contentTypeChar, ContentState.with, hs, if_neg hsemi]
  · simp only [contentTypeChar, hs] at h
    refine .unchanged fun parameters => ?_
    rw [← returns_pure.mp h]
    simp only [contentTypeChar, ContentState.with, hs]

theorem contentTypeLoop_replays {st st' : ContentState} {text : Bytes}
    (h : Returns (contentTypeLoop st text) st') :
    Replays (fun st => contentTypeLoop st text) st st' := by
  induction text generalizing st with
  | nil =>
      cases returns_pure.mp h
      exact .unchanged fun _ => rfl
  | cons c rest ih =>
      obtain ⟨next, hchar, hrest⟩ := returns_bind.mp h
      exact (contentTypeChar_replays hchar).bind (ih hrest)

/-- The end of `content_type`: a last parameter is stored. -/
def ContentState.finish (st : ContentState) : Proc ContentType :=
  if st.s = 3 ∨ st.s = 5 then do
    let parameters ← st.result.parameters.set st.attr st.value
    pure { st.result with parameters := parameters }
  else pure st.result

theorem finish_replays {st : ContentState} {result : ContentType}
    (h : Returns st.finish result) :
    result.type = st.result.type ∧
      ∃ ops, ∀ parameters, Returns (st.with parameters).finish
        { result with
          parameters := Dict.setAll stringsEqual ops parameters } := by
  rw [ContentState.finish] at h
  by_cases hs : st.s = 3 ∨ st.s = 5
  · rw [if_pos hs] at h
    obtain ⟨parameters, hset, h⟩ := returns_bind.mp h
    cases returns_pure.mp h
    obtain ⟨ops, hops⟩ := StringHash.set_replays hset
    refine ⟨rfl, ops, fun T => ?_⟩
    have hs' : (st.with T).s = 3 ∨ (st.with T).s = 5 := hs
    rw [ContentState.finish, if_pos hs']
    exact (hops T).bind (returns_pure_self _)
  · rw [if_neg hs] at h
    cases returns_pure.mp h
    refine ⟨rfl, [], fun T => ?_⟩
    have hs' : ¬ ((st.with T).s = 3 ∨ (st.with T).s = 5) := hs
    rw [ContentState.finish, if_neg hs']
    exact returns_pure_self _

theorem ContentState.put_type {st : ContentState} (c : UInt8)
    (hst : st.result.type ≠ none) : (st.put c).result.type ≠ none := by
  rcases st with ⟨result, s, out, attr, value⟩
  cases out with
  | type => exact Option.some_ne_none _
  | subtype => exact hst
  | attr => exact hst
  | value => exact hst

theorem ContentState.quoted_type {st : ContentState} (c : UInt8)
    (hst : st.result.type ≠ none) : (st.quoted c).result.type ≠ none := by
  rw [ContentState.quoted]
  split
  next => exact hst
  next => exact st.put_type c hst

theorem setParameter_type {st st' : ContentState}
    (h : Returns st.setParameter st') :
    st'.result.type = st.result.type := by
  obtain ⟨parameters, -, rfl⟩ := st.setParameter_returns h
  rfl

theorem contentTypeChar_type {st st' : ContentState} {c : UInt8}
    (h : Returns (contentTypeChar st c) st') (hst : st.result.type ≠ none) :
    st'.result.type ≠ none := by
  have hput := st.put_type c hst
  rw [contentTypeChar] at h
  split at h
  next =>
    split at h <;> cases returns_pure.mp h
    · exact hst
    · exact hput
  next =>
    split at h <;> cases returns_pure.mp h
    · exact hst
    · exact hput
  next =>
    split at h <;> cases returns_pure.mp h
    · exact hst
    · exact hput
  next =>
    obtain ⟨next, hunquoted, h⟩ := returns_bind.mp h
    cases returns_pure.mp h
    refine next.quoted_type c ?_
    rw [ContentState.unquoted] at hunquoted
    split at hunquoted
    · rw [setParameter_type hunquoted]
      exact hst
    · split at hunquoted
      · split at hunquoted <;> cases returns_pure.mp hunquoted <;> exact hst
      · cases returns_pure.mp hunquoted
        exact hput
  next =>
    cases returns_pure.mp h
    exact st.quoted_type c hst
  next =>
    split at h
    · rw [setParameter_type h]
      exact hst
    · cases returns_pure.mp h
      exact hst
  next =>
    cases returns_pure.mp h
    exact hst

theorem contentTypeLoop_type {st st' : ContentState} {text : Bytes}
    (h : Returns (contentTypeLoop st text) st')
    (hst : st.result.type ≠ none) : st'.result.type ≠ none := by
  induction text generalizing st with
  | nil => exact returns_pure.mp h ▸ hst
  | cons c rest ih =>
      obtain ⟨next, hchar, hrest⟩ := returns_bind.mp h
      exact ih hrest (contentTypeChar_type hchar hst)

/-- A second parse, if there is one, gives what the first one gave. -/
theorem contentType_again {env : Option Bytes} {result : ContentType}
    (h : Returns (contentType newContentType env) result) :
    Returns (contentType result env) result := by
  by_cases htype : result.type ≠ none
  · unfold contentType
    rw [if_pos htype]
    exact returns_pure_self _
  have hnone : result.type = none := not_not.mp htype
  rcases env with _ | _ | ⟨c, rest⟩
  · cases returns_pure.mp h
    cases hnone
  · cases returns_pure.mp h
    cases hnone
  have hfirst : Returns (contentTypeLoop .start (c :: rest) >>=
      ContentState.finish) result := h
  obtain ⟨st, hloop, hfinish⟩ := returns_bind.mp hfirst
  obtain ⟨htype', ops', hops'⟩ := finish_replays hfinish
  obtain ⟨next, hchar, hrest⟩ := returns_bind.mp hloop
  -- A text that leaves the type NULL begins with the slash.
  have hslash : c = ascii '/' := by
    by_contra hne
    have hput : Returns (contentTypeChar .start c)
        (ContentState.start.put c) := by
      change Returns (if c = ascii '/' then _
        else pure (ContentState.start.put c)) _
      rw [if_neg hne]
      exact returns_pure_self _
    refine contentTypeLoop_type hrest ?_ (htype'.symm.trans hnone)
    rw [hchar.unique hput]
    exact Option.some_ne_none _
  obtain ⟨ops, hops⟩ := contentTypeLoop_replays hrest
  subst hslash
  have hnext : Returns (contentTypeChar .start (ascii '/'))
      { ContentState.start with out := .subtype, s := 1 } :=
    returns_pure_self _
  cases hchar.unique hnext
  -- The table at the end is that of all the changes.
  have hst := hrest.unique (hops [])
  have hfinish' := hops' (Dict.setAll stringsEqual ops [])
  rw [← hst, ← Dict.setAll_append] at hfinish'
  have hresult := hfinish.unique hfinish'
  have hparameters : result.parameters =
      Dict.setAll stringsEqual (ops ++ ops') [] :=
    congrArg ContentType.parameters hresult
  have hsecond : Returns (contentType result (some (ascii '/' :: rest)))
      { result with
        parameters := Dict.setAll stringsEqual ops'
          (Dict.setAll stringsEqual ops result.parameters) } := by
    unfold contentType
    rw [if_neg (not_not.mpr hnone)]
    refine Returns.bind (Returns.bind (returns_pure_self _)
      (hops result.parameters)) (hops' _)
  rw [← Dict.setAll_append, hparameters,
    Dict.setAll_again stringsEqual_equiv _ List.Pairwise.nil,
    ← hparameters] at hsecond
  exact hsecond

section

variable {τ : Type} {arith : IntArith} {fns : StreamFns τ}

/-- What a call reads is the same in both states. -/
def MetaState.Agree (call : MetaCall) (st st' : MetaState τ) : Prop :=
  match call with
  | .authType =>
      st.this.authType = st'.this.authType ∧
        st.env "AUTH_TYPE" = st'.env "AUTH_TYPE"
  | .contentLength => st.this.contentLength = st'.this.contentLength
  | .contentType =>
      st.this.contentType = st'.this.contentType ∧
        st.env "CONTENT_TYPE" = st'.env "CONTENT_TYPE"
  | .gatewayInterface =>
      st.this.gatewayInterface = st'.this.gatewayInterface ∧
        st.env "GATEWAY_INTERFACE" = st'.env "GATEWAY_INTERFACE"
  | .string field =>
      st.this.strings field = st'.this.strings field ∧
        st.env field.variable = st'.env field.variable
  | .queryString =>
      st.this.queryString = st'.this.queryString ∧
        st.env "QUERY_STRING" = st'.env "QUERY_STRING"
  | .inputAsForm =>
      st.this.inputAsForm = st'.this.inputAsForm ∧
        st.this.input = st'.this.input
  | .serverPort =>
      st.this.serverPort = st'.this.serverPort ∧
        st.env "SERVER_PORT" = st'.env "SERVER_PORT"
  | .serverProtocol =>
      st.this.serverProtocol = st'.this.serverProtocol ∧
        st.env "SERVER_PROTOCOL" = st'.env "SERVER_PROTOCOL"

/-- A string is the one that was kept, or is kept now. -/
theorem string_call {field : StringField} {st next : MetaState τ}
    {report : MetaReport} :
    Returns (st.call arith fns (.string field)) (report, next) ↔
      ∃ text, report = .string text ∧
        (st.this.strings field = .string text ∧ next = st ∨
          st.this.strings field = .null ∧
            (st.env field.variable).getD [] = text ∧
            next = { st with
              this.strings := Function.update st.this.strings field
                (.string text) }) := by
  rw [MetaState.call, returns_bind]
  constructor
  · rintro ⟨⟨text, st'⟩, htext, h⟩
    cases returns_pure.mp h
    refine ⟨text, rfl, ?_⟩
    rw [stringAccessor] at htext
    split at htext
    next => exact absurd htext not_returns_undefined
    next hslot =>
      cases returns_pure.mp htext
      exact Or.inl ⟨hslot, rfl⟩
    next hslot =>
      cases returns_pure.mp htext
      exact Or.inr ⟨hslot, rfl, rfl⟩
  · rintro ⟨text, rfl, hslot⟩
    refine ⟨(text, next), ?_, returns_pure_self _⟩
    rw [stringAccessor]
    rcases hslot with ⟨hslot, rfl⟩ | ⟨hslot, rfl, rfl⟩ <;> rw [hslot] <;>
      exact returns_pure_self _

theorem MetaState.call_local {call : MetaCall} {st st' next : MetaState τ}
    {report : MetaReport} (hagree : st.Agree call st')
    (h : Returns (st.call arith fns call) (report, next)) :
    ∃ next', Returns (st'.call arith fns call) (report, next') ∧
      next.Agree call next' := by
  cases call with
  | authType =>
      cases returns_pure.mp h
      refine ⟨st', ?_, hagree⟩
      have heq : Libcad.authType st = Libcad.authType st' := by
        rw [Libcad.authType, Libcad.authType, hagree.1, hagree.2]
      rw [heq]
      exact returns_pure_self _
  | contentLength =>
      cases returns_pure.mp h
      refine ⟨st', ?_, hagree⟩
      rw [show st.this.contentLength = _ from hagree]
      exact returns_pure_self _
  | contentType =>
      obtain ⟨result, hresult, h⟩ := returns_bind.mp h
      cases returns_pure.mp h
      rw [hagree.1, hagree.2] at hresult
      exact ⟨_, hresult.bind (returns_pure_self _), rfl, hagree.2⟩
  | gatewayInterface =>
      obtain ⟨⟨result, st₁⟩, hresult, h⟩ := returns_bind.mp h
      cases returns_pure.mp h
      obtain ⟨g, hg, hresult⟩ := returns_bind.mp hresult
      cases returns_pure.mp hresult
      rw [hagree.1, hagree.2] at hg
      exact ⟨{ st' with this.gatewayInterface := result },
        Returns.bind (Returns.bind hg (returns_pure_self (_, _)))
          (returns_pure_self _), rfl, hagree.2⟩
  | string field =>
      obtain ⟨hfield, henv⟩ := hagree
      obtain ⟨text, rfl, ⟨hslot, rfl⟩ | ⟨hslot, rfl, rfl⟩⟩ := string_call.mp h
      · refine ⟨st', string_call.mpr ⟨text, rfl, ?_⟩, hfield, henv⟩
        exact Or.inl ⟨hfield.symm.trans hslot, rfl⟩
      · refine ⟨{ st' with
            this.strings := Function.update st'.this.strings field
              (.string ((st.env field.variable).getD [])) },
          string_call.mpr ⟨_, rfl, Or.inr ?_⟩, ?_, henv⟩
        · exact ⟨hfield.symm.trans hslot, congrArg (·.getD []) henv.symm, rfl⟩
        · dsimp only
          rw [Function.update_self, Function.update_self]
  | queryString =>
      obtain ⟨⟨result, st₁⟩, hresult, h⟩ := returns_bind.mp h
      cases returns_pure.mp h
      obtain ⟨hash, hparse, hresult⟩ := returns_bind.mp hresult
      cases returns_pure.mp hresult
      rw [hagree.1, hagree.2] at hparse
      exact ⟨{ st' with this.queryString := result },
        Returns.bind (Returns.bind hparse (returns_pure_self (_, _)))
          (returns_pure_self _), rfl, hagree.2⟩
  | inputAsForm =>
      obtain ⟨⟨result, st₁⟩, hresult, h⟩ := returns_bind.mp h
      cases returns_pure.mp h
      obtain ⟨hash, hparse, hresult⟩ := returns_bind.mp hresult
      cases returns_pure.mp hresult
      rw [hagree.1, hagree.2] at hparse
      exact ⟨{ st' with this.inputAsForm := result },
        Returns.bind (Returns.bind hparse (returns_pure_self (_, _)))
          (returns_pure_self _), rfl, hagree.2⟩
  | serverPort =>
      obtain ⟨hslot, henv⟩ := hagree
      have hport : (Libcad.serverPort st).1 = (Libcad.serverPort st').1 ∧
          (Libcad.serverPort st).2.Agree .serverPort
            (Libcad.serverPort st').2 := by
        rw [Libcad.serverPort, Libcad.serverPort, ← hslot, ← henv]
        split
        next =>
          split
          next => exact ⟨rfl, hslot, henv⟩
          next =>
            dsimp only
            split
            next => exact ⟨rfl, rfl, henv⟩
            next =>
              split
              next => exact ⟨rfl, rfl, henv⟩
              next => exact ⟨rfl, hslot, henv⟩
        next => exact ⟨rfl, hslot, henv⟩
      have heq : (MetaReport.number (Libcad.serverPort st).1,
          (Libcad.serverPort st).2) = (report, next) := returns_pure.mp h
      rw [Prod.mk.injEq] at heq
      obtain ⟨rfl, rfl⟩ := heq
      refine ⟨(Libcad.serverPort st').2, ?_, hport.2⟩
      rw [hport.1]
      exact returns_pure_self _
  | serverProtocol =>
      obtain ⟨⟨result, st₁⟩, hresult, h⟩ := returns_bind.mp h
      cases returns_pure.mp h
      obtain ⟨⟨protocol, text⟩, hparse, hresult⟩ := returns_bind.mp hresult
      cases returns_pure.mp hresult
      rw [hagree.1, hagree.2] at hparse
      refine ⟨{
        this := { st'.this with serverProtocol := result },
        env := Function.update st'.env "SERVER_PROTOCOL" text },
        Returns.bind (Returns.bind hparse (returns_pure_self (_, _)))
          (returns_pure_self _), rfl, ?_⟩
      simp

theorem MetaState.Agree.refl (call : MetaCall) (st : MetaState τ) :
    st.Agree call st := by
  cases call with
  | contentLength => exact rfl
  | _ => exact ⟨rfl, rfl⟩

theorem MetaState.Agree.symm {call : MetaCall} {st st' : MetaState τ}
    (h : st.Agree call st') : st'.Agree call st := by
  cases call with
  | contentLength => exact Eq.symm h
  | _ => exact ⟨h.1.symm, h.2.symm⟩

theorem MetaState.Agree.trans {call : MetaCall} {st st' st'' : MetaState τ}
    (h : st.Agree call st') (h' : st'.Agree call st'') :
    st.Agree call st'' := by
  cases call with
  | contentLength => exact Eq.trans h h'
  | _ => exact ⟨h.1.trans h'.1, h.2.trans h'.2⟩

/-- A port that is kept is not the one that stands for none. -/
theorem serverPort_eq (st : MetaState τ) :
    (Libcad.serverPort st).2 = st ∨ ∃ n ≠ -1, Libcad.serverPort st =
      (n, { st with this.serverPort := n }) := by
  rw [Libcad.serverPort]
  split
  next =>
    split
    next => exact Or.inl rfl
    next =>
      dsimp only
      split
      next => exact Or.inr ⟨intMax, by decide, rfl⟩
      next =>
        split
        next hpos => exact Or.inr ⟨_, by omega, rfl⟩
        next => exact Or.inl rfl
  next => exact Or.inl rfl

theorem MetaState.call_frame {call call' : MetaCall} {st next : MetaState τ}
    {report : MetaReport} (hne : call ≠ call')
    (h : Returns (st.call arith fns call') (report, next)) :
    next.Agree call st := by
  cases call' with
  | authType =>
      cases returns_pure.mp h
      exact .refl call st
  | contentLength =>
      cases returns_pure.mp h
      exact .refl call st
  | contentType =>
      obtain ⟨result, -, h⟩ := returns_bind.mp h
      cases returns_pure.mp h
      cases call with
      | contentType => exact absurd rfl hne
      | contentLength => exact rfl
      | _ => exact ⟨rfl, rfl⟩
  | gatewayInterface =>
      obtain ⟨⟨result, st₁⟩, hresult, h⟩ := returns_bind.mp h
      cases returns_pure.mp h
      obtain ⟨g, -, hresult⟩ := returns_bind.mp hresult
      cases returns_pure.mp hresult
      cases call with
      | gatewayInterface => exact absurd rfl hne
      | contentLength => exact rfl
      | _ => exact ⟨rfl, rfl⟩
  | string field =>
      obtain ⟨text, -, ⟨-, rfl⟩ | ⟨-, -, rfl⟩⟩ := string_call.mp h
      · exact .refl call next
      · cases call with
        | string other =>
            have hother : other ≠ field := fun heq => hne (by rw [heq])
            exact ⟨Function.update_of_ne hother _ _, rfl⟩
        | contentLength => exact rfl
        | _ => exact ⟨rfl, rfl⟩
  | queryString =>
      obtain ⟨⟨result, st₁⟩, hresult, h⟩ := returns_bind.mp h
      cases returns_pure.mp h
      obtain ⟨hash, -, hresult⟩ := returns_bind.mp hresult
      cases returns_pure.mp hresult
      cases call with
      | queryString => exact absurd rfl hne
      | contentLength => exact rfl
      | _ => exact ⟨rfl, rfl⟩
  | inputAsForm =>
      obtain ⟨⟨result, st₁⟩, hresult, h⟩ := returns_bind.mp h
      cases returns_pure.mp h
      obtain ⟨hash, -, hresult⟩ := returns_bind.mp hresult
      cases returns_pure.mp hresult
      cases call with
      | inputAsForm => exact absurd rfl hne
      | contentLength => exact rfl
      | _ => exact ⟨rfl, rfl⟩
  | serverPort =>
      have heq : (Libcad.serverPort st).2 = next :=
        congrArg Prod.snd (returns_pure.mp h)
      rw [← heq]
      rcases serverPort_eq st with hport | ⟨n, -, hport⟩
      · rw [hport]
        exact .refl call st
      · rw [hport]
        cases call with
        | serverPort => exact absurd rfl hne
        | contentLength => exact rfl
        | _ => exact ⟨rfl, rfl⟩
  | serverProtocol =>
      obtain ⟨⟨result, st₁⟩, hresult, h⟩ := returns_bind.mp h
      cases returns_pure.mp h
      obtain ⟨⟨protocol, value⟩, -, hresult⟩ := returns_bind.mp hresult
      cases returns_pure.mp hresult
      have henv : ∀ name, name ≠ "SERVER_PROTOCOL" →
          Function.update st.env "SERVER_PROTOCOL" value name =
            st.env name :=
        fun name hname => Function.update_of_ne hname _ _
      cases call with
      | serverProtocol => exact absurd rfl hne
      | contentLength => exact rfl
      | inputAsForm => exact ⟨rfl, rfl⟩
      | string field => exact ⟨rfl, henv _ (by cases field <;> decide)⟩
      | authType => exact ⟨rfl, henv "AUTH_TYPE" (by decide)⟩
      | contentType => exact ⟨rfl, henv "CONTENT_TYPE" (by decide)⟩
      | gatewayInterface =>
          exact ⟨rfl, henv "GATEWAY_INTERFACE" (by decide)⟩
      | queryString => exact ⟨rfl, henv "QUERY_STRING" (by decide)⟩
      | serverPort => exact ⟨rfl, henv "SERVER_PORT" (by decide)⟩

theorem meta_separate (arith : IntArith) (fns : StreamFns τ) :
    Separate (MetaState.call arith fns) MetaState.Agree where
  refl := MetaState.Agree.refl
  trans := MetaState.Agree.trans
  local_returns := MetaState.call_local
  frame := MetaState.call_frame

theorem parseOnce_again {cached result : HashPtr}
    {input : Option (InputStream τ)}
    (h : Returns (parseOnce fns cached input) result) :
    Returns (parseOnce fns result input) result := by
  cases cached with
  | wild => exact absurd h not_returns_undefined
  | table hash =>
      cases returns_pure.mp h
      exact returns_pure_self _
  | null =>
      cases input with
      | none =>
          cases returns_pure.mp h
          exact returns_pure_self _
      | some input =>
          obtain ⟨hash, -, h⟩ := returns_bind.mp h
          cases returns_pure.mp h
          exact returns_pure_self _

theorem serverPort_again (st : MetaState τ) :
    Libcad.serverPort (Libcad.serverPort st).2 = Libcad.serverPort st := by
  rcases serverPort_eq st with hport | ⟨n, hn, hport⟩
  · rw [hport]
  · rw [hport, Libcad.serverPort]
    exact if_neg hn

def beforeSlash (text : Bytes) : Bytes := text.takeWhile (· ≠ ascii '/')

/-- After a call there is a protocol, and the first call cuts the variable. -/
theorem protocolOnce_returns {cached result : ServerProtocol}
    {value value' : Option Bytes}
    (h : Returns (protocolOnce arith cached value) (result, value')) :
    result.protocol ≠ none ∧ value' =
      if cached.protocol = none then value.map beforeSlash else value := by
  unfold protocolOnce at h
  split at h
  next hnone =>
    rw [if_pos hnone]
    split at h
    next =>
      cases returns_pure.mp h
      exact ⟨Option.some_ne_none _, rfl⟩
    next text =>
      dsimp only at h
      split at h
      next =>
        cases returns_pure.mp h
        exact ⟨Option.some_ne_none _, rfl⟩
      next =>
        obtain ⟨number, -, h⟩ := returns_bind.mp h
        cases returns_pure.mp h
        exact ⟨Option.some_ne_none _, rfl⟩
  next hne =>
    rw [if_neg hne]
    cases returns_pure.mp h
    exact ⟨hne, rfl⟩

theorem protocolOnce_again {cached result : ServerProtocol}
    {value value' : Option Bytes}
    (h : Returns (protocolOnce arith cached value) (result, value')) :
    Returns (protocolOnce arith result value') (result, value') := by
  unfold protocolOnce
  rw [if_neg (protocolOnce_returns h).1]
  exact returns_pure_self _

/-- The other accessors repeat in a new response. -/
theorem meta_repeats {call : MetaCall} (hcall : call ≠ .gatewayInterface)
    {st : MetaState τ} (hst : st.this.contentType = newContentType) :
    Repeats (MetaState.call arith fns) call st := by
  refine Repeats.of_returns fun report next h => ?_
  cases call with
  | authType =>
      cases returns_pure.mp h
      exact returns_pure_self _
  | contentLength =>
      cases returns_pure.mp h
      exact returns_pure_self _
  | contentType =>
      obtain ⟨result, hresult, h⟩ := returns_bind.mp h
      cases returns_pure.mp h
      rw [hst] at hresult
      exact (contentType_again hresult).bind (returns_pure_self _)
  | gatewayInterface => exact absurd rfl hcall
  | string field =>
      refine string_call.mpr ?_
      obtain ⟨text, rfl, ⟨hslot, rfl⟩ | ⟨-, -, rfl⟩⟩ := string_call.mp h
      · exact ⟨text, rfl, Or.inl ⟨hslot, rfl⟩⟩
      · exact ⟨text, rfl, Or.inl ⟨Function.update_self _ _ _, rfl⟩⟩
  | queryString =>
      obtain ⟨⟨result, st₁⟩, hresult, h⟩ := returns_bind.mp h
      cases returns_pure.mp h
      obtain ⟨hash, hparse, hresult⟩ := returns_bind.mp hresult
      cases returns_pure.mp hresult
      exact Returns.bind (Returns.bind (parseOnce_again hparse)
        (returns_pure_self (_, _))) (returns_pure_self _)
  | inputAsForm =>
      obtain ⟨⟨result, st₁⟩, hresult, h⟩ := returns_bind.mp h
      cases returns_pure.mp h
      obtain ⟨hash, hparse, hresult⟩ := returns_bind.mp hresult
      cases returns_pure.mp hresult
      exact Returns.bind (Returns.bind (parseOnce_again hparse)
        (returns_pure_self (_, _))) (returns_pure_self _)
  | serverPort =>
      have heq : (MetaReport.number (Libcad.serverPort st).1,
          (Libcad.serverPort st).2) = (report, next) := returns_pure.mp h
      rw [Prod.mk.injEq] at heq
      obtain ⟨rfl, rfl⟩ := heq
      have hagain : MetaState.call arith fns (Libcad.serverPort st).2
          .serverPort = MetaState.call arith fns st .serverPort := by
        rw [MetaState.call, MetaState.call, serverPort_again]
      rw [hagain]
      exact returns_pure_self _
  | serverProtocol =>
      obtain ⟨⟨result, st₁⟩, hresult, h⟩ := returns_bind.mp h
      cases returns_pure.mp h
      obtain ⟨⟨protocol, value⟩, hparse, hresult⟩ := returns_bind.mp hresult
      cases returns_pure.mp hresult
      have hagain : Returns (protocolOnce arith result
          (Function.update st.env "SERVER_PROTOCOL" value "SERVER_PROTOCOL"))
          (result, value) := by
        rw [Function.update_self]
        exact protocolOnce_again hparse
      have hreturns : Returns (MetaState.call arith fns {
          this := { st.this with serverProtocol := result },
          env := Function.update st.env "SERVER_PROTOCOL" value }
          .serverProtocol) (.serverProtocol result, {
          this := { st.this with serverProtocol := result },
          env := Function.update (Function.update st.env "SERVER_PROTOCOL"
            value) "SERVER_PROTOCOL" value }) :=
        Returns.bind (Returns.bind hagain (returns_pure_self (_, _)))
          (returns_pure_self _)
      rwa [Function.update_idem] at hreturns

theorem gateway_call {st next : MetaState τ} {report : MetaReport} :
    Returns (st.call arith fns .gatewayInterface) (report, next) ↔
      ∃ result, Returns (gatewayOnce arith st.this.gatewayInterface
          (st.env "GATEWAY_INTERFACE")) result ∧
        report = .gatewayInterface result ∧
        next = { st with this.gatewayInterface := result } := by
  constructor
  · intro h
    obtain ⟨⟨result, st₁⟩, hresult, h⟩ := returns_bind.mp h
    cases returns_pure.mp h
    obtain ⟨g, hg, hresult⟩ := returns_bind.mp hresult
    cases returns_pure.mp hresult
    exact ⟨result, hg, rfl, rfl⟩
  · rintro ⟨result, hg, rfl, rfl⟩
    exact Returns.bind (Returns.bind hg (returns_pure_self (_, _)))
      (returns_pure_self _)

/-- A version that reads the same again is found again. -/
theorem gatewayOnce_again {value : Option Bytes}
    {result again : GatewayInterface}
    (hagain : ∀ text part, value = some text → ZeroMajor text part →
      ReadsAgain part)
    (h : Returns (gatewayOnce intChecked ⟨0, 0⟩ value) result)
    (h' : Returns (gatewayOnce intChecked result value) again) :
    again = result := by
  by_cases hmajor : result.major = 0
  · cases value with
    | none =>
        cases returns_pure.mp h
        exact (returns_pure.mp h').symm
    | some text =>
        unfold gatewayOnce at h'
        rw [if_pos hmajor] at h'
        rcases gatewayLoop_reports h with
          ⟨part, hpart, rfl⟩ | ⟨hnone, hne | rfl⟩
        · rcases gatewayLoop_reports h' with
            ⟨part', hpart', rfl⟩ | ⟨hnone, -⟩
          · rw [hpart'.unique hpart, (readNumber_again part).mpr
              (hagain text part rfl hpart)]
          · exact absurd hpart (hnone part)
        · exact absurd hmajor hne
        · exact h'.unique h
  · unfold gatewayOnce at h'
    rw [if_neg hmajor] at h'
    exact (returns_pure.mp h').symm

theorem gateway_repeats {st : MetaState τ}
    (hst : st.this.gatewayInterface = ⟨0, 0⟩)
    (hagain : VersionReadsAgain st.env) :
    Repeats (MetaState.call intChecked fns) .gatewayInterface st := by
  intro report t h report' t' h'
  obtain ⟨result, hresult, rfl, rfl⟩ := gateway_call.mp h
  obtain ⟨again, hsecond, rfl, rfl⟩ := gateway_call.mp h'
  rw [hst] at hresult
  rw [gatewayOnce_again hagain hresult hsecond]
  exact ⟨rfl, rfl⟩

/-- Where the version is reported twice, it reads the same again. -/
theorem readsAgain_of_gateway {st t t' : MetaState τ} {report : MetaReport}
    (hst : st.this.gatewayInterface = ⟨0, 0⟩)
    (h : Returns (st.call intChecked fns .gatewayInterface) (report, t))
    (h' : Returns (t.call intChecked fns .gatewayInterface) (report, t')) :
    VersionReadsAgain st.env := by
  intro text part henv hpart
  obtain ⟨result, hresult, rfl, rfl⟩ := gateway_call.mp h
  obtain ⟨again, hsecond, heq, -⟩ := gateway_call.mp h'
  cases heq
  rw [hst, henv] at hresult
  dsimp only at hsecond
  rw [henv] at hsecond
  rcases gatewayLoop_reports hresult with ⟨part', hpart', rfl⟩ | ⟨hnone, -⟩
  · rcases gatewayLoop_reports hsecond with ⟨part'', hpart'', heq⟩ | ⟨hnone, -⟩
    · have hminor := congrArg GatewayInterface.minor heq
      rw [hpart''.unique hpart, hpart'.unique hpart] at hminor
      exact (readNumber_again part).mp hminor.symm
    · exact absurd hpart (hnone part)
  · exact absurd hpart (hnone part)

end

/-- The accessors of a new response report the same at every call exactly when
the version of the gateway interface is asked for once at most, or is read the
same again. -/
theorem meta_stable_iff {τ : Type} (fns : StreamFns τ) (block : MetaImpl τ)
    (env : Env) (input : Option (InputStream τ)) (calls : List MetaCall)
    (trace : List (MetaCall × MetaReport))
    (h : Returns (callAll (MetaState.call intChecked fns) calls
      ⟨newMeta block env input, env⟩) trace) :
    Stable trace ↔
      calls.count .gatewayInterface ≤ 1 ∨ VersionReadsAgain env := by
  have hsep := meta_separate intChecked fns
  constructor
  · intro hstable
    rw [or_iff_not_imp_left]
    intro hcount
    obtain ⟨report, t, t', hfirst, hsecond⟩ :=
      hsep.answers_eq (c := .gatewayInterface) (by omega) h hstable
    exact readsAgain_of_gateway rfl hfirst hsecond
  · intro hcond
    refine hsep.stable (fun call => ?_) h
    by_cases hcall : call = .gatewayInterface
    · subst hcall
      exact hcond.symm.imp (gateway_repeats rfl) id
    · exact Or.inl (meta_repeats hcall rfl)

def Env.single (name : String) (text : Bytes) : Env :=
  Function.update (fun _ => none) name (some text)

/-- A new response in an environment, with nothing in its block. -/
def newMetaState (env : Env) : MetaState Empty where
  this := newMeta ⟨0, 0, newContentType, ⟨0, 0⟩, fun _ => .null, .null, .null,
    0, ⟨0, 0, none⟩, none⟩ env none
  env := env

/-- `CGI/1.1` is reported alike twice, with the path in between. -/
theorem meta_stable_version :
    Stable [(MetaCall.gatewayInterface, MetaReport.gatewayInterface ⟨1, 1⟩),
      (.string .pathInfo, .string []),
      (.gatewayInterface, .gatewayInterface ⟨1, 1⟩)] := by
  refine (meta_stable_iff noStreams _
    (Env.single "GATEWAY_INTERFACE" (chars "CGI/1.1")) none
    [.gatewayInterface, .string .pathInfo, .gatewayInterface] _
    (⟨0, rfl⟩ : Returns (callAll (MetaState.call intChecked noStreams) _
      (newMetaState (Env.single "GATEWAY_INTERFACE" (chars "CGI/1.1")))) _)).mpr
    (Or.inr ?_)
  intro text part htext hpart
  cases htext
  exact absurd ((@zeroMajor_iff (chars "1.1") part).mp hpart) (by
    have hmajor : (readMajor 0 (chars "1.1")).1 = 1 := by decide
    intro heq
    rw [heq] at hmajor
    cases hmajor)

/-- `CGI/0.5` is reported as version 0.5 and then as version 0.55. -/
theorem meta_not_stable :
    ¬ ∀ trace, Returns (callAll (MetaState.call intChecked noStreams)
        [.gatewayInterface, .gatewayInterface]
        (newMetaState (Env.single "GATEWAY_INTERFACE" (chars "CGI/0.5"))))
        trace → Stable trace := by
  intro hall
  have hstable := hall [(.gatewayInterface, .gatewayInterface ⟨0, 5⟩),
    (.gatewayInterface, .gatewayInterface ⟨0, 55⟩)] ⟨0, rfl⟩
  have heq := hstable .gatewayInterface (.gatewayInterface ⟨0, 5⟩)
    (.gatewayInterface ⟨0, 55⟩) (by simp) (by simp)
  exact absurd (MetaReport.gatewayInterface.inj heq) (by decide)

end Libcad
