/-
The decoder of query strings and forms, and the form encoding it undoes.

The hash table is used through its interface; `Dict` is what the interface
promises, and `cad_hash_strings` compares keys as C strings.
-/
import Libcad.Dict
import Libcad.Proc
import Libcad.Stream
import Mathlib.Data.List.Induction
import Mathlib.Tactic.FinCases

namespace Libcad

/-- The comparison of `cad_hash_strings`: `strcmp` answers 0. -/
def stringsEqual (a b : Bytes) : Bool := decide (a = b)

theorem stringsEqual_equiv : KeyEquiv stringsEqual := KeyEquiv.beq

/-- A `cad_hash_t` from C strings to `char*`; `none` is the NULL pointer. -/
abbrev StringHash := Dict Bytes (Option Bytes)

/-- `get` of the hash table: NULL for an absent key. -/
def StringHash.get (hash : StringHash) (key : Bytes) : Option Bytes :=
  (Dict.get stringsEqual hash key).join

/-- `set` of the hash table; hashing the NULL key dereferences it. -/
def StringHash.set (hash : StringHash) (key value : Option Bytes) :
    Proc StringHash :=
  match key with
  | none => Proc.undefined
  | some key =>
      pure (Dict.set stringsEqual (cString key) (cString key)
        (value.map cString) hash)

/-- The `int` value of an ASCII character constant. -/
def chr (c : Char) : Int := c.toNat

/-- The variable whose address the output string stream holds. -/
inductive Target
  | attr
  | value
deriving Repr, DecidableEq

/-- The local variables of `parse_query_or_form`.  A buffer is NULL until the
first byte is put into it. -/
structure QueryState (τ : Type) where
  result : StringHash
  s : Int
  attr : Option Bytes
  value : Option Bytes
  out : Target
  encoded : UInt8
  input : InputStream τ
  c : Int

variable {τ : Type}

/-- `out->put(out, "%c", c)` -/
def QueryState.put (st : QueryState τ) (c : UInt8) : QueryState τ :=
  match st.out with
  | .attr => { st with attr := some (st.attr.getD [] ++ [c]) }
  | .value => { st with value := some (st.value.getD [] ++ [c]) }

/-- `no_value`, when nothing was put into the value. -/
def QueryState.noValue (st : QueryState τ) : QueryState τ :=
  { st with value := some (st.value.getD []) }

/-- The value of a hexadecimal digit of either case. -/
def hexDigit (c : Int) : Option Int :=
  if chr '0' ≤ c ∧ c ≤ chr '9' then some (c - chr '0')
  else if chr 'A' ≤ c ∧ c ≤ chr 'F' then some (c + 10 - chr 'A')
  else if chr 'a' ≤ c ∧ c ≤ chr 'f' then some (c + 10 - chr 'a')
  else none

/-- The `switch` of `parse_query_or_form` on one byte. -/
def queryChar (st : QueryState τ) : Proc (QueryState τ) :=
  if st.s = 1 then
    if st.c = chr '=' then
      if st.attr = none then pure { st with s := -st.s }
      else pure { st with value := none, out := .value, s := 11 }
    else if st.c = chr '%' then pure { st with encoded := 0, s := 2 }
    else if st.c = chr '+' then pure (st.put (ascii ' '))
    else pure (st.put (intToChar st.c))
  else if st.s = 11 then
    if st.c = chr '&' ∨ st.c = chr '\n' then do
      let st := st.noValue
      let result ← st.result.set st.attr st.value
      pure { st with
        result := result, attr := none, value := none, out := .attr,
        s := 1 }
    else if st.c = chr '%' then pure { st with encoded := 0, s := 12 }
    else if st.c = chr '+' then pure (st.put (ascii ' '))
    else pure (st.put (intToChar st.c))
  else if st.s = 2 ∨ st.s = 12 then
    match hexDigit st.c with
    | some d => pure { st with encoded := intToChar d, s := st.s + 1 }
    | none => pure { st with s := -st.s }
  else if st.s = 3 ∨ st.s = 13 then
    match hexDigit st.c with
    | some d =>
        let high := intToChar (charToInt st.encoded * 16)
        let encoded := intToChar (charToInt high + d)
        pure ({ st with encoded := encoded, s := st.s - 2 }.put encoded)
    | none => pure { st with s := -st.s }
  else pure st

/-- One iteration of the loop of `parse_query_or_form`. -/
def queryStep (fns : StreamFns τ) (st : QueryState τ) :
    Proc (QueryState τ ⊕ QueryState τ) :=
  if st.c ≠ eof ∧ st.s > 0 then do
    let st ← queryChar st
    let (failed, input) := st.input.next fns
    if failed ≠ 0 then pure (.inl { st with input := input, s := -st.s })
    else pure (.inl { st with input := input, c := input.item fns })
  else pure (.inr st)

def parseQueryOrForm (fns : StreamFns τ) (input : InputStream τ) :
    Proc StringHash := do
  let st ← Proc.loop (queryStep fns)
    { result := [], s := 1, attr := none, value := none,
      out := .attr, encoded := 0, input := input, c := input.item fns }
  if st.s = 11 ∨ st.s = -11 then
    let st := st.noValue
    st.result.set st.attr st.value
  else pure st.result

/-- The bytes an encoder may keep: letters, digits and `- _ . ~`. -/
def unreserved (b : UInt8) : Prop :=
  (48 ≤ b.toNat ∧ b.toNat ≤ 57) ∨ (65 ≤ b.toNat ∧ b.toNat ≤ 90) ∨
    (97 ≤ b.toNat ∧ b.toNat ≤ 122) ∨
    b.toNat ∈ [45, 46, 95, 126]

instance (b : UInt8) : Decidable (unreserved b) := by
  unfold unreserved
  infer_instance

/-- `Encodes plain text`: every byte of `plain` is kept, written as an escape
with digits of either case, or a blank written as `+`. -/
inductive Encodes : Bytes → Bytes → Prop
  | nil : Encodes [] []
  | kept {b : UInt8} {plain text : Bytes} : unreserved b →
      Encodes plain text → Encodes (b :: plain) (b :: text)
  | escaped {b h l : UInt8} {high low : Int} {plain text : Bytes} :
      hexDigit (charToInt h) = some high → hexDigit (charToInt l) = some low →
      (b.toNat : Int) = 16 * high + low → Encodes plain text →
      Encodes (b :: plain) (ascii '%' :: h :: l :: text)
  | plus {plain text : Bytes} : Encodes plain text →
      Encodes (ascii ' ' :: plain) (ascii '+' :: text)

/-- `text` is `key=value` with both sides encoded. -/
def EncodesPair (pair : Bytes × Bytes) (text : Bytes) : Prop :=
  ∃ key value, Encodes pair.1 key ∧ Encodes pair.2 value ∧
    text = key ++ ascii '=' :: value

/-- A pair the law is about: no NUL anywhere and a key that is not empty. -/
structure FormPair (pair : Bytes × Bytes) : Prop where
  key_ne_nil : pair.1 ≠ []
  key_nul : (0 : UInt8) ∉ pair.1
  value_nul : (0 : UInt8) ∉ pair.2

open Proc

/-- `s` is one of the two states that copy bytes, and `out` fills the variable
this state is about. -/
def QueryState.Copying (st : QueryState τ) : Prop :=
  (st.s = 1 ∧ st.out = .attr) ∨ (st.s = 11 ∧ st.out = .value)

theorem unreserved_toInt {b : UInt8} (h : unreserved b) :
    charToInt b = b.toNat ∧ b.toNat ≠ 61 ∧ b.toNat ≠ 37 ∧ b.toNat ≠ 43 ∧
      b.toNat ≠ 38 ∧ b.toNat ≠ 10 := by
  have hb : b.toNat < 128 ∧ b.toNat ≠ 61 ∧ b.toNat ≠ 37 ∧ b.toNat ≠ 43 ∧
      b.toNat ≠ 38 ∧ b.toNat ≠ 10 := by
    rcases h with h | h | h | h
    · omega
    · omega
    · omega
    · simp only [List.mem_cons, List.not_mem_nil, or_false] at h
      omega
  exact ⟨by simp [charToInt, hb.1], hb.2⟩

theorem queryChar_kept {st : QueryState τ} {b : UInt8} (hst : st.Copying)
    (hc : st.c = charToInt b) (hb : unreserved b) :
    queryChar st = pure (st.put b) := by
  obtain ⟨hint, h61, h37, h43, h38, h10⟩ := unreserved_toInt hb
  have hne : st.c ≠ chr '=' ∧ st.c ≠ chr '%' ∧ st.c ≠ chr '+' ∧
      st.c ≠ chr '&' ∧ st.c ≠ chr '\n' := by
    simp only [hc, hint, chr, Char.reduceToNat]
    omega
  obtain ⟨h1, h2, h3, h4, h5⟩ := hne
  have hback : intToChar st.c = b := by rw [hc, intToChar_charToInt]
  rcases hst with ⟨hs, _⟩ | ⟨hs, _⟩
  · simp [queryChar, hs, h1, h2, h3, hback]
  · simp [queryChar, hs, h2, h3, h4, h5, hback]

theorem queryChar_plus {st : QueryState τ} (hst : st.Copying)
    (hc : st.c = charToInt (ascii '+')) :
    queryChar st = pure (st.put (ascii ' ')) := by
  have hc' : st.c = 43 := hc
  rcases hst with ⟨hs, _⟩ | ⟨hs, _⟩
  · simp [queryChar, hs, hc', chr]
  · simp [queryChar, hs, hc', chr]

theorem queryChar_percent {st : QueryState τ} (hst : st.Copying)
    (hc : st.c = charToInt (ascii '%')) :
    queryChar st = pure { st with encoded := 0, s := st.s + 1 } := by
  have hc' : st.c = 37 := hc
  rcases hst with ⟨hs, _⟩ | ⟨hs, _⟩
  · simp [queryChar, hs, hc', chr]
  · simp [queryChar, hs, hc', chr]

theorem queryChar_high {st : QueryState τ} {d : Int}
    (hs : st.s = 2 ∨ st.s = 12) (hc : hexDigit st.c = some d) :
    queryChar st = pure { st with encoded := intToChar d, s := st.s + 1 } := by
  rcases hs with hs | hs
  · simp [queryChar, hs, hc]
  · simp [queryChar, hs, hc]

theorem intToChar_of_toNat {b : UInt8} {n : Int} (h : (b.toNat : Int) = n) :
    intToChar n = b := by
  have hb : b.toNat < 256 := b.toNat_lt
  apply UInt8.toNat_inj.mp
  rw [intToChar, UInt8.toNat_ofNat']
  omega

/-- The arithmetic on `char` puts the two digits together, whatever the sign
of the intermediate values. -/
theorem encoded_eq (high low : Int) :
    intToChar (charToInt (intToChar (charToInt (intToChar high) * 16)) + low) =
      intToChar (16 * high + low) := by
  have hto : ∀ n : Int, (intToChar n).toNat = (n % 256).toNat := by
    intro n
    rw [intToChar, UInt8.toNat_ofNat']
    exact Nat.mod_eq_of_lt (by omega)
  have hmod : ∀ n : Int, charToInt (intToChar n) % 256 = n % 256 := by
    intro n
    have := hto n
    rcases charToInt_eq (intToChar n) with h | h <;> rw [h] <;> omega
  apply UInt8.toNat_inj.mp
  rw [hto, hto]
  have h1 := hmod high
  have h2 := hmod (charToInt (intToChar high) * 16)
  omega

theorem queryChar_low {st : QueryState τ} {high low : Int}
    (hs : st.s = 3 ∨ st.s = 13) (he : st.encoded = intToChar high)
    (hc : hexDigit st.c = some low) :
    queryChar st =
      pure ({ st with encoded := intToChar (16 * high + low),
                      s := st.s - 2 }.put (intToChar (16 * high + low))) := by
  have hcode := encoded_eq high low
  rcases hs with hs | hs
  · simp [queryChar, hs, hc, he, hcode]
  · simp [queryChar, hs, hc, he, hcode]

/-- The loop head with these bytes still to come. -/
structure QueryState.Scanning (fns : StreamFns τ) (st : QueryState τ)
    (rest : Bytes) : Prop where
  delivers : st.input.Delivers fns rest
  current : st.c = st.input.item fns

def QueryState.advance (fns : StreamFns τ) (st : QueryState τ) :
    QueryState τ :=
  { st with
    input := (st.input.next fns).2, c := (st.input.next fns).2.item fns }

theorem QueryState.Scanning.char {fns : StreamFns τ} {st : QueryState τ}
    {b : UInt8} {rest : Bytes} (h : st.Scanning fns (b :: rest)) :
    st.c = charToInt b :=
  h.current.trans h.delivers.1

/-- One iteration in a live state: the byte is handled, the stream moves. -/
theorem queryStep_returns {fns : StreamFns τ} {st st' : QueryState τ}
    {b : UInt8} {rest : Bytes} (h : st.Scanning fns (b :: rest))
    (hs : 0 < st.s) (hchar : queryChar st = pure st')
    (hinput : st'.input = st.input) :
    Returns (queryStep fns st) (.inl (st'.advance fns)) ∧
      (st'.advance fns).Scanning fns rest := by
  obtain ⟨hitem, hb, hnext, hrest⟩ := h.delivers
  have hc : st.c ≠ eof := by
    rw [h.current, hitem, ne_eq, charToInt_eq_eof_iff]
    exact hb
  constructor
  · rw [queryStep, if_pos ⟨hc, hs⟩, hchar]
    refine (returns_pure_self st').bind ?_
    simp only [hinput, hnext, ne_eq, not_true_eq_false, ↓reduceIte,
      QueryState.advance]
    exact returns_pure_self _
  · exact ⟨by simpa [QueryState.advance, hinput] using hrest, rfl⟩

/-- `put` byte after byte. -/
def QueryState.puts (st : QueryState τ) (bytes : Bytes) : QueryState τ :=
  bytes.foldl QueryState.put st

theorem QueryState.puts_of_update (st : QueryState τ) (bytes : Bytes)
    (e : UInt8) (i : InputStream τ) (c : Int) :
    ({ st with encoded := e, input := i, c := c } : QueryState τ).puts bytes =
      { st.puts bytes with encoded := e, input := i, c := c } := by
  induction bytes generalizing st with
  | nil => rfl
  | cons b bytes ih =>
      cases hout : st.out with
      | attr => simpa [puts, put, hout] using ih (st.put b)
      | value => simpa [puts, put, hout] using ih (st.put b)

theorem QueryState.Copying.put {st : QueryState τ} (h : st.Copying)
    (b : UInt8) : (st.put b).Copying := by
  rcases h with ⟨hs, ho⟩ | ⟨hs, ho⟩
  · exact Or.inl ⟨by simp [QueryState.put, ho, hs], by simp [QueryState.put, ho]⟩
  · exact Or.inr ⟨by simp [QueryState.put, ho, hs], by simp [QueryState.put, ho]⟩

theorem QueryState.put_input (st : QueryState τ) (b : UInt8) :
    (st.put b).input = st.input := by
  rw [QueryState.put]
  split <;> rfl

theorem reaches_escape {fns : StreamFns τ} {st : QueryState τ} {b h l : UInt8}
    {high low : Int} (hst : st.Copying) (hh : hexDigit (charToInt h) = some high)
    (hl : hexDigit (charToInt l) = some low)
    (hb : (b.toNat : Int) = 16 * high + low) {rest : Bytes}
    (hscan : st.Scanning fns (ascii '%' :: h :: l :: rest)) :
    ∃ e i c, Reaches (queryStep fns) st
        { st.put b with encoded := e, input := i, c := c } ∧
      ({ st.put b with encoded := e, input := i, c := c } :
        QueryState τ).Scanning fns rest := by
  have hs : st.s = 1 ∨ st.s = 11 := hst.imp And.left And.left
  obtain ⟨hstep₁, hscan₁⟩ := queryStep_returns hscan (by omega)
    (queryChar_percent hst hscan.char) rfl
  obtain ⟨hstep₂, hscan₂⟩ := queryStep_returns hscan₁
    (by simp only [QueryState.advance]; omega)
    (queryChar_high (by simp only [QueryState.advance]; omega)
      (by rw [hscan₁.char]; exact hh)) rfl
  obtain ⟨hstep₃, hscan₃⟩ := queryStep_returns hscan₂
    (by simp only [QueryState.advance]; omega)
    (queryChar_low (by simp only [QueryState.advance]; omega) rfl
      (by rw [hscan₂.char]; exact hl))
    (QueryState.put_input _ _)
  have hreach := ((Reaches.step hstep₁).trans (Reaches.step hstep₂)).trans
    (Reaches.step hstep₃)
  rw [intToChar_of_toNat hb] at hreach hscan₃
  have hback : st.s + 1 + 1 - 2 = st.s := by omega
  rcases hst with ⟨_, ho⟩ | ⟨_, ho⟩
  all_goals
    simp only [QueryState.advance, QueryState.put, ho, hback] at hreach hscan₃ ⊢
    exact ⟨_, _, _, hreach, hscan₃⟩

/-- Reading the encoding of `plain` puts `plain` into the current buffer. -/
theorem reaches_encoded {fns : StreamFns τ} {plain text : Bytes}
    (h : Encodes plain text) {st : QueryState τ} (hst : st.Copying)
    {rest : Bytes} (hscan : st.Scanning fns (text ++ rest)) :
    ∃ e i c, Reaches (queryStep fns) st
        { st.puts plain with encoded := e, input := i, c := c } ∧
      ({ st.puts plain with encoded := e, input := i, c := c } :
        QueryState τ).Scanning fns rest := by
  induction h generalizing st with
  | nil => exact ⟨st.encoded, st.input, st.c, Reaches.refl _, hscan⟩
  | @kept b plain text hb _ ih =>
      have hs : st.s = 1 ∨ st.s = 11 := hst.imp And.left And.left
      obtain ⟨hstep, hscan'⟩ := queryStep_returns hscan (by omega)
        (queryChar_kept hst hscan.char hb) (QueryState.put_input st b)
      obtain ⟨e, i, c, hreach, hend⟩ :=
        ih (show ((st.put b).advance fns).Copying from hst.put b) hscan'
      rw [QueryState.advance, QueryState.puts_of_update] at hreach hend
      exact ⟨e, i, c, (Reaches.step hstep).trans hreach, hend⟩
  | @plus plain text _ ih =>
      have hs : st.s = 1 ∨ st.s = 11 := hst.imp And.left And.left
      obtain ⟨hstep, hscan'⟩ := queryStep_returns hscan (by omega)
        (queryChar_plus hst hscan.char) (QueryState.put_input st _)
      obtain ⟨e, i, c, hreach, hend⟩ :=
        ih (show ((st.put (ascii ' ')).advance fns).Copying from hst.put _)
          hscan'
      rw [QueryState.advance, QueryState.puts_of_update] at hreach hend
      exact ⟨e, i, c, (Reaches.step hstep).trans hreach, hend⟩
  | @escaped b h l high low plain text hh hl hb _ ih =>
      obtain ⟨e₀, i₀, c₀, hstep, hscan'⟩ := reaches_escape hst hh hl hb hscan
      have hmid : QueryState.Copying
          { st.put b with encoded := e₀, input := i₀, c := c₀ } := hst.put b
      obtain ⟨e, i, c, hreach, hend⟩ := ih hmid hscan'
      rw [QueryState.puts_of_update] at hreach hend
      exact ⟨e, i, c, hstep.trans hreach, hend⟩

/-- What a buffer holds after these bytes were put into it. -/
def filled (buffer : Option Bytes) (bytes : Bytes) : Option Bytes :=
  if bytes = [] then buffer else some (buffer.getD [] ++ bytes)

theorem filled_cons (buffer : Option Bytes) (b : UInt8) (bytes : Bytes) :
    filled (some (buffer.getD [] ++ [b])) bytes = filled buffer (b :: bytes) := by
  by_cases h : bytes = []
  · simp [filled, h]
  · simp [filled, h]

theorem QueryState.puts_attr {st : QueryState τ} (ho : st.out = .attr)
    (bytes : Bytes) : st.puts bytes = { st with attr := filled st.attr bytes } := by
  induction bytes generalizing st with
  | nil => rfl
  | cons b bytes ih =>
      have hput : st.put b =
          { st with attr := some (st.attr.getD [] ++ [b]) } := by
        rw [QueryState.put, ho]
      have hfold : st.puts (b :: bytes) = (st.put b).puts bytes := rfl
      have hmid : ({ st with attr := some (st.attr.getD [] ++ [b]) } :
          QueryState τ).out = .attr := ho
      rw [hfold, hput, ih hmid, filled_cons]

theorem QueryState.puts_value {st : QueryState τ} (ho : st.out = .value)
    (bytes : Bytes) :
    st.puts bytes = { st with value := filled st.value bytes } := by
  induction bytes generalizing st with
  | nil => rfl
  | cons b bytes ih =>
      have hput : st.put b =
          { st with value := some (st.value.getD [] ++ [b]) } := by
        rw [QueryState.put, ho]
      have hfold : st.puts (b :: bytes) = (st.put b).puts bytes := rfl
      have hmid : ({ st with value := some (st.value.getD [] ++ [b]) } :
          QueryState τ).out = .value := ho
      rw [hfold, hput, ih hmid, filled_cons]

/-- The state in which a segment starts. -/
structure QueryState.Fresh (st : QueryState τ) : Prop where
  s_eq : st.s = 1
  out_eq : st.out = .attr
  attr_eq : st.attr = none

/-- The state after a complete pair: the pair is in the two buffers. -/
structure QueryState.Complete (st : QueryState τ) (pair : Bytes × Bytes) :
    Prop where
  s_eq : st.s = 11
  attr_eq : st.attr = some pair.1
  value_eq : st.noValue.value = some pair.2

theorem reaches_pair {fns : StreamFns τ} {pair : Bytes × Bytes} {text : Bytes}
    (h : EncodesPair pair text) (hne : pair.1 ≠ []) {st : QueryState τ}
    (hst : st.Fresh) {rest : Bytes} (hscan : st.Scanning fns (text ++ rest)) :
    ∃ st', Reaches (queryStep fns) st st' ∧ st'.Scanning fns rest ∧
      st'.Complete pair ∧ st'.result = st.result := by
  obtain ⟨key, value, hkey, hvalue, rfl⟩ := h
  rw [List.append_assoc, List.cons_append] at hscan
  -- the key, up to the separator
  obtain ⟨e, i, c, hreach, hscan₁⟩ :=
    reaches_encoded hkey (Or.inl ⟨hst.s_eq, hst.out_eq⟩) hscan
  rw [QueryState.puts_attr hst.out_eq] at hreach hscan₁
  have hfilled : filled st.attr pair.1 = some pair.1 := by
    simp [filled, hne, hst.attr_eq]
  rw [hfilled] at hreach hscan₁
  -- the separator
  have hchar : queryChar { st with
        attr := some pair.1, encoded := e, input := i, c := c } = pure { st with
        attr := some pair.1, value := none, out := .value, s := 11,
        encoded := e, input := i, c := c } := by
    have hc : c = 61 := hscan₁.char
    simp [queryChar, hst.s_eq, hc, chr]
  obtain ⟨hstep, hscan₂⟩ := queryStep_returns hscan₁ (by simp [hst.s_eq])
    hchar rfl
  -- the value, up to the end of the segment
  obtain ⟨e', i', c', hreach', hscan₃⟩ :=
    reaches_encoded hvalue (Or.inr ⟨rfl, rfl⟩) hscan₂
  rw [QueryState.puts_value rfl] at hreach' hscan₃
  refine ⟨_, (hreach.trans (Reaches.step hstep)).trans hreach', hscan₃,
    ⟨rfl, rfl, ?_⟩, rfl⟩
  by_cases hv : pair.2 = []
  · simp [QueryState.noValue, QueryState.advance, filled, hv]
  · simp [QueryState.noValue, QueryState.advance, filled, hv]

/-- `result->set` for one pair. -/
def store (hash : StringHash) (pair : Bytes × Bytes) : StringHash :=
  Dict.set stringsEqual pair.1 pair.1 (some pair.2) hash

theorem StringHash.set_eq_store {pair : Bytes × Bytes} (h : FormPair pair)
    (hash : StringHash) :
    hash.set (some pair.1) (some pair.2) = pure (store hash pair) := by
  rw [StringHash.set, store, Option.map_some, cString_of_not_mem h.key_nul,
    cString_of_not_mem h.value_nul]

/-- At `&` the pair is stored and the next segment starts. -/
theorem reaches_separator {fns : StreamFns τ} {pair : Bytes × Bytes}
    (hform : FormPair pair) {st : QueryState τ} (hst : st.Complete pair)
    {rest : Bytes} (hscan : st.Scanning fns (ascii '&' :: rest)) :
    ∃ st', Reaches (queryStep fns) st st' ∧ st'.Scanning fns rest ∧
      st'.Fresh ∧ st'.result = store st.result pair := by
  have hset : st.noValue.result.set st.noValue.attr st.noValue.value =
      pure (store st.result pair) := by
    rw [hst.value_eq]
    exact hst.attr_eq ▸ StringHash.set_eq_store hform st.result
  have hchar : queryChar st = pure { st.noValue with
      result := store st.result pair, attr := none, value := none,
      out := .attr, s := 1 } := by
    have hc : st.c = 38 := hscan.char
    simp only [queryChar, hst.s_eq, hc, chr, Char.reduceToNat]
    rw [hset]
    rfl
  obtain ⟨hstep, hscan'⟩ := queryStep_returns hscan (by simp [hst.s_eq])
    hchar rfl
  exact ⟨_, Reaches.step hstep, hscan', ⟨rfl, rfl, rfl⟩, rfl⟩

/-- All segments: at the end of the input the last pair is in the buffers and
the others are stored. -/
theorem reaches_pairs {fns : StreamFns τ} {pairs : List (Bytes × Bytes)}
    {texts : List Bytes} (henc : List.Forall₂ EncodesPair pairs texts)
    (hform : ∀ pair ∈ pairs, FormPair pair) (hne : pairs ≠ [])
    {st : QueryState τ} (hst : st.Fresh)
    (hscan : st.Scanning fns (List.intercalate [ascii '&'] texts)) :
    ∃ st' pair, Reaches (queryStep fns) st st' ∧ st'.Scanning fns [] ∧
      st'.Complete pair ∧ FormPair pair ∧
      store st'.result pair = pairs.foldl store st.result := by
  induction henc generalizing st with
  | nil => exact absurd rfl hne
  | @cons pair text pairs texts hpair htail ih =>
      have hp := hform pair List.mem_cons_self
      cases htail with
      | nil =>
          obtain ⟨st', hreach, hscan', hcomplete, hresult⟩ :=
            reaches_pair hpair hp.key_ne_nil hst
              (show st.Scanning fns (text ++ []) by
                simpa [List.intercalate] using hscan)
          exact ⟨st', pair, hreach, hscan', hcomplete, hp, by simp [hresult]⟩
      | @cons pair' text' pairs texts hpair' htail =>
          obtain ⟨st₁, hreach₁, hscan₁, hcomplete, hresult₁⟩ :=
            reaches_pair hpair hp.key_ne_nil hst
              (show st.Scanning fns (text ++ ascii '&' ::
                  List.intercalate [ascii '&'] (text' :: texts)) by
                simpa [List.intercalate] using hscan)
          obtain ⟨st₂, hreach₂, hscan₂, hfresh, hresult₂⟩ :=
            reaches_separator hp hcomplete hscan₁
          obtain ⟨st₃, last, hreach₃, hscan₃, hlast, hlform, hfold⟩ :=
            ih (fun q hq => hform q (List.mem_cons_of_mem pair hq))
              (List.cons_ne_nil _ _) hfresh hscan₂
          refine ⟨st₃, last, (hreach₁.trans hreach₂).trans hreach₃, hscan₃,
            hlast, hlform, ?_⟩
          rw [hfold, hresult₂, hresult₁]
          rfl

theorem get_foldl_store (pairs : List (Bytes × Bytes)) (key : Bytes) :
    Dict.get stringsEqual (pairs.foldl store []) key =
      (pairs.reverse.lookup key).map some := by
  induction pairs using List.reverseRecOn with
  | nil => rfl
  | append_singleton pairs pair ih =>
      rw [List.foldl_append, List.foldl_cons, List.foldl_nil, store,
        Dict.get_set stringsEqual_equiv _ _ (stringsEqual_equiv.refl _), ih,
        List.reverse_append, List.reverse_singleton, List.singleton_append,
        List.lookup_cons, stringsEqual]
      by_cases hk : pair.1 = key
      · simp [hk]
      · have hk' : (key == pair.1) = false := by
          simpa using fun h => hk h.symm
        simp [hk, hk']

theorem distinct_foldl_store (pairs : List (Bytes × Bytes)) :
    Dict.Distinct stringsEqual (pairs.foldl store []) := by
  induction pairs using List.reverseRecOn with
  | nil => exact List.Pairwise.nil
  | append_singleton pairs pair ih =>
      rw [List.foldl_append]
      exact ih.set stringsEqual_equiv _ (stringsEqual_equiv.refl _)

theorem Encodes.bytes {plain text : Bytes} (h : Encodes plain text) :
    ∀ b ∈ text, b ≠ 0 ∧ b ≠ 255 := by
  have hdigit : ∀ {c : UInt8} {d : Int}, hexDigit (charToInt c) = some d →
      c ≠ 0 ∧ c ≠ 255 := by
    intro c d hc
    constructor
    · rintro rfl
      cases hc
    · rintro rfl
      cases hc
  induction h with
  | nil => simp
  | @kept b plain text hb _ ih =>
      refine List.forall_mem_cons.mpr ⟨⟨?_, ?_⟩, ih⟩
      · rintro rfl
        exact absurd hb (by decide)
      · rintro rfl
        exact absurd hb (by decide)
  | @escaped b h l high low plain text hh hl _ _ ih =>
      exact List.forall_mem_cons.mpr ⟨by decide, List.forall_mem_cons.mpr
        ⟨hdigit hh, List.forall_mem_cons.mpr ⟨hdigit hl, ih⟩⟩⟩
  | plus _ ih => exact List.forall_mem_cons.mpr ⟨by decide, ih⟩

theorem encodesPairs_bytes {pairs : List (Bytes × Bytes)} {texts : List Bytes}
    (henc : List.Forall₂ EncodesPair pairs texts) :
    ∀ b ∈ List.intercalate [ascii '&'] texts, b ≠ 0 ∧ b ≠ 255 := by
  have htexts : ∀ text ∈ texts, ∀ b ∈ text, b ≠ 0 ∧ b ≠ 255 := by
    induction henc with
    | nil => simp
    | cons hpair _ ih =>
        obtain ⟨key, value, hkey, hvalue, rfl⟩ := hpair
        refine List.forall_mem_cons.mpr ⟨?_, ih⟩
        intro b hb
        rcases List.mem_append.mp hb with hb | hb
        · exact hkey.bytes b hb
        · rcases List.mem_cons.mp hb with rfl | hb
          · decide
          · exact hvalue.bytes b hb
  clear henc
  induction texts with
  | nil => simp [List.intercalate]
  | cons text texts ih =>
      have hrest := ih fun t ht => htexts t (List.mem_cons_of_mem text ht)
      have hhead := htexts text List.mem_cons_self
      cases texts with
      | nil => simpa [List.intercalate] using hhead
      | cons text' texts =>
          intro b hb
          have hb' : b ∈ text ++ ascii '&' ::
              List.intercalate [ascii '&'] (text' :: texts) := by
            simpa [List.intercalate] using hb
          rcases List.mem_append.mp hb' with hb | hb
          · exact hhead b hb
          · rcases List.mem_cons.mp hb with rfl | hb
            · decide
            · exact hrest b hb

/-- Decoding undoes encoding: whatever form encoding of the pairs is read, the
table holds for each key the value of its last occurrence, and nothing else. -/
theorem parseQueryOrForm_decodes (fns : StreamFns τ)
    (pairs : List (Bytes × Bytes)) (texts : List Bytes)
    (hform : ∀ pair ∈ pairs, FormPair pair)
    (henc : List.Forall₂ EncodesPair pairs texts) :
    ∃ hash, Returns (parseQueryOrForm fns (newInputStreamFromString
        (List.intercalate [ascii '&'] texts))) hash ∧
      Dict.Distinct stringsEqual hash ∧
      ∀ key, Dict.get stringsEqual hash key =
        (pairs.reverse.lookup key).map some := by
  refine ⟨pairs.foldl store [], ?_, distinct_foldl_store pairs,
    get_foldl_store pairs⟩
  have hbytes := encodesPairs_bytes henc
  have hdelivers := newInputStreamFromString_delivers fns
    (List.intercalate [ascii '&'] texts) (fun h => (hbytes 0 h).1 rfl)
    (fun h => (hbytes 255 h).2 rfl)
  have hexit : ∀ st : QueryState τ, st.Scanning fns [] →
      Returns (queryStep fns st) (.inr st) := by
    intro st hscan
    have hc : st.c = eof := hscan.current.trans hscan.delivers
    rw [queryStep, if_neg (by simp [hc])]
    exact returns_pure_self _
  rw [parseQueryOrForm]
  by_cases hne : pairs = []
  · subst hne
    cases henc
    refine (Returns.loop_exit (hexit _ ⟨hdelivers, rfl⟩)).bind ?_
    exact returns_pure_self _
  · generalize newInputStreamFromString
      (List.intercalate [ascii '&'] texts) = input at hdelivers ⊢
    have hfresh : QueryState.Fresh
        { result := [], s := 1, attr := none, value := none, out := .attr,
          encoded := 0, input := input, c := input.item fns } := ⟨rfl, rfl, rfl⟩
    obtain ⟨st, pair, hreach, hscan, hcomplete, hp, hfold⟩ :=
      reaches_pairs henc hform hne hfresh ⟨hdelivers, rfl⟩
    refine (hreach.returns_iff.mpr (Returns.loop_exit (hexit st hscan))).bind ?_
    rw [if_pos (Or.inl hcomplete.s_eq)]
    simp only [hcomplete.value_eq]
    rw [← hfold, show st.noValue.attr = some pair.1 from hcomplete.attr_eq,
      StringHash.set_eq_store hp]
    exact returns_pure_self _

/-- `a=b&a=+%3d`: the second value of `a` wins. -/
theorem parseQueryOrForm_decodes_repeated :
    ∃ hash, Returns (parseQueryOrForm noStreams (newInputStreamFromString
        (List.intercalate [ascii '&']
          [[97, 61, 98], [97, 61, 43, 37, 51, 100]]))) hash ∧
      Dict.Distinct stringsEqual hash ∧
      ∀ key, Dict.get stringsEqual hash key =
        ([([97], [98]), ([97], [32, 61])].reverse.lookup key).map some :=
  parseQueryOrForm_decodes noStreams [([97], [98]), ([97], [32, 61])]
    [[97, 61, 98], [97, 61, 43, 37, 51, 100]]
    (by
      intro pair hpair
      fin_cases hpair
      · exact ⟨by decide, by decide, by decide⟩
      · exact ⟨by decide, by decide, by decide⟩)
    (by
      have ha : Encodes [97] [97] := .kept (by decide) .nil
      have hb : Encodes [98] [98] := .kept (by decide) .nil
      have hblank : Encodes [32, 61] [43, 37, 51, 100] :=
        .plus (.escaped (show hexDigit (charToInt 51) = some 3 by decide)
          (show hexDigit (charToInt 100) = some 13 by decide) (by decide)
          .nil)
      exact .cons ⟨_, _, ha, hb, rfl⟩ (.cons ⟨_, _, ha, hblank, rfl⟩ .nil))

end Libcad
