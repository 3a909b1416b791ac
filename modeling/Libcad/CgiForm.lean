/-
The forms: what a reader of one has in hand after each item, and the pairs it
yields.  `parse_query_or_form` reads that way.
-/
import Libcad.CgiQuery

namespace Libcad

open Proc

/-- Where a reader of a form is: in a name, of which it has seen something or
not, in a value, or before a digit of an escape in one of them. -/
inductive Place
  | name (seen : Bool)
  | nameHigh (seen : Bool)
  | nameLow (seen : Bool)
  | value
  | valueHigh
  | valueLow
deriving Repr, DecidableEq

namespace Place

/-- The place after an item; a malformed item leads nowhere. -/
def next : Place → Int → Option Place
  | .name seen, c =>
      if c = chr '=' then (if seen then some .value else none)
      else if c = chr '%' then some (.nameHigh seen)
      else some (.name true)
  | .nameHigh seen, c =>
      if (hexDigit c).isSome then some (.nameLow seen) else none
  | .nameLow _, c => if (hexDigit c).isSome then some (.name true) else none
  | .value, c =>
      if c = chr '&' ∨ c = chr '\n' then some (.name false)
      else if c = chr '%' then some .valueHigh
      else some .value
  | .valueHigh, c => if (hexDigit c).isSome then some .valueLow else none
  | .valueLow, c => if (hexDigit c).isSome then some .value else none

/-- `s` -/
def number : Place → Int
  | .name _ => 1
  | .nameHigh _ => 2
  | .nameLow _ => 3
  | .value => 11
  | .valueHigh => 12
  | .valueLow => 13

/-- Whether `attribute` is not NULL. -/
def named : Place → Bool
  | .name seen | .nameHigh seen | .nameLow seen => seen
  | .value | .valueHigh | .valueLow => true

/-- What `out` fills. -/
def target : Place → Target
  | .name _ | .nameHigh _ | .nameLow _ => .attr
  | .value | .valueHigh | .valueLow => .value

/-- Whether the second digit of an escape is due. -/
def second : Place → Bool
  | .nameLow _ | .valueLow => true
  | _ => false

theorem number_pos (place : Place) : 0 < place.number := by
  cases place <;> simp [number]

end Place

/-- The name and the value as far as they are read, and the first digit of the
current escape. -/
structure FormReader where
  place : Place
  name : Bytes
  value : Bytes
  high : Int
deriving Repr, DecidableEq

/-- The byte an item outside of escapes stands for. -/
def plainByte (c : Int) : UInt8 :=
  if c = chr '+' then ascii ' ' else intToChar c

def escapedByte (high low : Int) : UInt8 := intToChar (16 * high + low)

namespace FormReader

/-- The reader at the beginning of a pair. -/
def fresh : FormReader := ⟨.name false, [], [], 0⟩

def put (r : FormReader) (b : UInt8) : FormReader :=
  match r.place.target with
  | .attr => { r with name := r.name ++ [b] }
  | .value => { r with value := r.value ++ [b] }

/-- The pairs an item completes, and the reader after it. -/
def next (r : FormReader) (c : Int) :
    Option (List (Bytes × Bytes) × FormReader) :=
  (r.place.next c).map fun place =>
    let digit := (hexDigit c).getD 0
    match r.place, place with
    | .name _, .name _ | .value, .value =>
        ([], { r.put (plainByte c) with place := place })
    | .value, .name _ => ([(r.name, r.value)], fresh)
    | .nameHigh _, _ | .valueHigh, _ =>
        ([], { r with place := place, high := digit })
    | .nameLow _, _ | .valueLow, _ =>
        ([], { r.put (escapedByte r.high digit) with place := place, high := 0 })
    | _, _ => ([], { r with place := place })

/-- The pairs some items complete, and the reader after them, if none of them
is malformed. -/
def run : FormReader → List Int → List (Bytes × Bytes) × Option FormReader
  | r, [] => ([], some r)
  | r, c :: items =>
      match r.next c with
      | some (pairs, r') => (pairs ++ (r'.run items).1, (r'.run items).2)
      | none => ([], none)

/-- The pair that the end of the input completes. -/
def pending (r : FormReader) : List (Bytes × Bytes) :=
  if r.place = .value then [(r.name, r.value)] else []

/-- The pairs in some items up to the end of the input or to a malformed
item. -/
def read (r : FormReader) (items : List Int) : List (Bytes × Bytes) :=
  (r.run items).1 ++ ((r.run items).2.map pending).getD []

theorem next_place (r : FormReader) (c : Int) :
    (r.next c).map (fun after => after.2.place) = r.place.next c := by
  rw [next, Option.map_map]
  cases hplace : r.place.next c with
  | none => rfl
  | some place =>
      rw [Option.map_some, Option.some.injEq]
      cases hr : r.place with
      | value =>
          rw [hr, Place.next] at hplace
          split at hplace
          next => cases hplace; rfl
          next => split at hplace <;> cases hplace <;> rfl
      | name seen => cases place <;> rfl
      | _ => rfl

theorem next_eq_none_iff {r : FormReader} {c : Int} :
    r.next c = none ↔ r.place.next c = none := by
  rw [next, Option.map_eq_none_iff]

theorem run_cons {r r' : FormReader} {c : Int} {pairs : List (Bytes × Bytes)}
    (h : r.next c = some (pairs, r')) (items : List Int) :
    r.run (c :: items) = (pairs ++ (r'.run items).1, (r'.run items).2) := by
  rw [run, h]

theorem run_cons_none {r : FormReader} {c : Int} (h : r.next c = none)
    (items : List Int) : r.run (c :: items) = ([], none) := by
  rw [run, h]

theorem read_cons {r r' : FormReader} {c : Int} {pairs : List (Bytes × Bytes)}
    (h : r.next c = some (pairs, r')) (items : List Int) :
    r.read (c :: items) = pairs ++ r'.read items := by
  rw [read, run_cons h, read, List.append_assoc]

theorem pending_of_next_eq_none {r : FormReader} {c : Int}
    (h : r.next c = none) : r.pending = [] := by
  rw [pending, if_neg]
  intro hr
  rw [next_eq_none_iff, hr, Place.next] at h
  split at h
  next => cases h
  next => split at h <;> cases h

end FormReader

section

variable {τ : Type}

/-- `result->set` for a pair of C strings. -/
def commit (hash : StringHash) (pair : Bytes × Bytes) : StringHash :=
  store hash (cString pair.1, cString pair.2)

/-- The variables of the decoder hold what the reader has in hand. -/
structure QueryState.Shows (st : QueryState τ) (r : FormReader) : Prop where
  s_eq : st.s = r.place.number
  out_eq : st.out = r.place.target
  attr_isSome : st.attr.isSome = r.place.named
  attr_eq : st.attr.getD [] = r.name
  value_eq_none : r.place.target = .attr → st.value = none
  value_eq : st.value.getD [] = r.value
  encoded_eq : r.place.second = true → st.encoded = intToChar r.high

namespace QueryState.Shows

variable {st : QueryState τ} {r : FormReader} {q : Place}

theorem attr_some (h : st.Shows r) (hnamed : r.place.named = true) :
    st.attr = some r.name := by
  obtain ⟨attr, hattr⟩ :=
    Option.isSome_iff_exists.mp (h.attr_isSome.trans hnamed)
  rw [hattr, ← h.attr_eq, hattr]
  rfl

theorem moved (h : st.Shows r) {encoded : UInt8} {high : Int}
    (htarget : q.target = r.place.target)
    (hnamed : q.named = r.place.named)
    (hencoded : q.second = true → encoded = intToChar high) :
    ({ st with s := q.number, encoded := encoded } :
      QueryState τ).Shows { r with place := q, high := high } where
  s_eq := rfl
  out_eq := h.out_eq.trans htarget.symm
  attr_isSome := h.attr_isSome.trans hnamed.symm
  attr_eq := h.attr_eq
  value_eq_none hattr := h.value_eq_none (htarget.symm.trans hattr)
  value_eq := h.value_eq
  encoded_eq := hencoded

theorem put (h : st.Shows r) (b encoded : UInt8) (high : Int)
    (htarget : q.target = r.place.target)
    (hnamed : q.named = true) (hsecond : q.second = false) :
    ({ st.put b with s := q.number, encoded := encoded } :
      QueryState τ).Shows
      { r.put b with place := q, high := high } := by
  have hencoded : q.second = true → encoded = intToChar high := by
    intro h
    rw [hsecond] at h
    cases h
  cases hout : r.place.target with
  | attr =>
      have hst : st.out = .attr := h.out_eq.trans hout
      simp only [QueryState.put, hst, FormReader.put, hout]
      exact ⟨rfl, (htarget.trans hout).symm, hnamed.symm,
        congrArg (· ++ [b]) h.attr_eq, fun _ => h.value_eq_none hout,
        h.value_eq, hencoded⟩
  | value =>
      have hst : st.out = .value := h.out_eq.trans hout
      have hsome : r.place.named = true := by
        cases hr : r.place <;> rw [hr] at hout <;> first | rfl | cases hout
      simp only [QueryState.put, hst, FormReader.put, hout]
      refine ⟨rfl, (htarget.trans hout).symm, ?_, h.attr_eq, ?_,
        congrArg (· ++ [b]) h.value_eq, hencoded⟩
      · exact (h.attr_isSome.trans hsome).trans hnamed.symm
      · intro hattr
        rw [htarget, hout] at hattr
        cases hattr

end QueryState.Shows

theorem QueryState.put_update (st : QueryState τ) (b encoded : UInt8)
    (n : Int) :
    ({ st with s := n, encoded := encoded } : QueryState τ).put b =
      { st.put b with s := n, encoded := encoded } := by
  cases hout : st.out <;> simp only [QueryState.put, hout]

theorem QueryState.put_s (st : QueryState τ) (b : UInt8) :
    (st.put b).s = st.s := by
  cases hout : st.out <;> simp only [QueryState.put, hout]

theorem QueryState.put_encoded (st : QueryState τ) (b : UInt8) :
    (st.put b).encoded = st.encoded := by
  cases hout : st.out <;> simp only [QueryState.put, hout]

theorem QueryState.put_result (st : QueryState τ) (b : UInt8) :
    (st.put b).result = st.result := by
  cases hout : st.out <;> simp only [QueryState.put, hout]

/-- What the decoder makes of one item: it shows the reader after the item,
and the completed pairs are in the table. -/
def QueryState.Decodes (st : QueryState τ)
    (after : List (Bytes × Bytes) × FormReader) : Prop :=
  ∃ st', queryChar st = pure st' ∧ st'.Shows after.2 ∧
    st'.result = after.1.foldl commit st.result ∧ st'.input = st.input

variable {st : QueryState τ} {r : FormReader}

/-- An item outside of escapes that stands for itself or for a blank. -/
theorem QueryState.Shows.decodes_plain (hst : st.Shows r) {q : Place}
    (hnumber : q.number = r.place.number)
    (htarget : q.target = r.place.target)
    (hnamed : q.named = true) (hsecond : q.second = false)
    (hchar : queryChar st = pure (st.put (plainByte st.c))) :
    st.Decodes ([], { r.put (plainByte st.c) with place := q }) := by
  refine ⟨_, hchar, ?_, QueryState.put_result _ _, QueryState.put_input _ _⟩
  have hput := hst.put (plainByte st.c) st.encoded
    (r.put (plainByte st.c)).high htarget hnamed hsecond
  rwa [hnumber, ← hst.s_eq, ← QueryState.put_s st (plainByte st.c),
    ← QueryState.put_encoded st (plainByte st.c)] at hput

theorem QueryState.Shows.decodes_high (hst : st.Shows r) {q : Place}
    (hs : st.s = 2 ∨ st.s = 12)
    (hnumber : q.number = r.place.number + 1)
    (htarget : q.target = r.place.target)
    (hnamed : q.named = r.place.named)
    {d : Int} (hd : hexDigit st.c = some d) :
    st.Decodes ([], { r with place := q, high := d }) := by
  refine ⟨_, queryChar_high hs hd, ?_, rfl, rfl⟩
  have hmoved := @QueryState.Shows.moved _ _ _ q hst (intToChar d) d htarget
    hnamed (fun _ => rfl)
  rwa [hnumber, ← hst.s_eq] at hmoved

theorem QueryState.Shows.decodes_low (hst : st.Shows r) {q : Place}
    (hs : st.s = 3 ∨ st.s = 13) (hcode : r.place.second = true)
    (hnumber : q.number = r.place.number - 2)
    (htarget : q.target = r.place.target)
    (hnamed : q.named = true) (hsecond : q.second = false)
    {d : Int} (hd : hexDigit st.c = some d) :
    st.Decodes ([], { r.put (escapedByte r.high d) with
      place := q, high := 0 }) := by
  refine ⟨_, queryChar_low hs (hst.encoded_eq hcode) hd, ?_,
    QueryState.put_result _ _, QueryState.put_input _ _⟩
  have hput := hst.put (escapedByte r.high d) (escapedByte r.high d) 0 htarget
    hnamed hsecond
  rwa [hnumber, ← hst.s_eq, ← QueryState.put_update] at hput

theorem QueryState.Shows.decodes_equals (hst : st.Shows r) (hs : st.s = 1)
    (hnamed : r.place.named = true) (htarget : r.place.target = .attr)
    (hc : st.c = chr '=') : st.Decodes ([], { r with place := .value }) := by
  have hattr := hst.attr_some hnamed
  have hchar : queryChar st =
      pure { st with value := none, out := .value, s := 11 } := by
    rw [queryChar, if_pos hs, if_pos hc, if_neg (by simp [hattr])]
  refine ⟨_, hchar, ?_, rfl, rfl⟩
  exact {
    s_eq := rfl
    out_eq := rfl
    attr_isSome := congrArg Option.isSome hattr
    attr_eq := hst.attr_eq
    value_eq_none := fun h => by cases h
    value_eq := by rw [← hst.value_eq, hst.value_eq_none htarget]
    encoded_eq := fun h => by cases h }

theorem QueryState.Shows.decodes_end (hst : st.Shows r)
    (hr : r.place = .value) (hc : st.c = chr '&' ∨ st.c = chr '\n') :
    st.Decodes ([(r.name, r.value)], .fresh) := by
  have hs : st.s = 11 := by rw [hst.s_eq, hr]; rfl
  have hattr : st.noValue.attr = some r.name :=
    hst.attr_some (by rw [hr]; rfl)
  have hvalue : st.noValue.value = some r.value :=
    congrArg some hst.value_eq
  have hset : st.noValue.result.set st.noValue.attr st.noValue.value =
      pure (commit st.result (r.name, r.value)) := by
    rw [hattr, hvalue]
    rfl
  have hchar : queryChar st = pure { st.noValue with
      result := commit st.result (r.name, r.value),
      attr := none, value := none, out := .attr, s := 1 } := by
    rw [queryChar, if_neg (by omega), if_pos hs, if_pos hc]
    dsimp only
    rw [hset]
    rfl
  refine ⟨_, hchar, ⟨rfl, rfl, rfl, rfl, fun _ => rfl, rfl, ?_⟩, rfl, rfl⟩
  intro h
  cases h

/-- The decoder follows the reader over a well-formed item. -/
theorem QueryState.Shows.decodes (hst : st.Shows r)
    {after : List (Bytes × Bytes) × FormReader}
    (h : r.next st.c = some after) : st.Decodes after := by
  have hs := hst.s_eq
  rw [FormReader.next] at h
  obtain ⟨q, hplace, rfl⟩ := Option.map_eq_some_iff.mp h
  clear h
  cases hr : r.place with
  | name seen =>
      rw [hr] at hs hplace
      have hs : st.s = 1 := hs
      rw [Place.next] at hplace
      split at hplace
      next hequals =>
        split at hplace
        next hseen =>
          cases hplace
          exact hst.decodes_equals hs (by rw [hr]; exact hseen)
            (by rw [hr]; rfl) hequals
        next => cases hplace
      next hequals =>
        split at hplace
        next hpercent =>
          cases hplace
          refine ⟨{ st with encoded := 0, s := 2 }, ?_, ?_, rfl, rfl⟩
          · rw [queryChar, if_pos hs, if_neg hequals, if_pos hpercent]
          · exact hst.moved (q := .nameHigh seen) (by rw [hr]; rfl)
              (by rw [hr]; rfl) (fun h => by cases h)
        next hpercent =>
          cases hplace
          refine hst.decodes_plain (q := .name true) (by rw [hr]; rfl)
            (by rw [hr]; rfl) rfl rfl ?_
          rw [queryChar, if_pos hs, if_neg hequals, if_neg hpercent, plainByte]
          split <;> rfl
  | nameHigh seen =>
      rw [hr] at hs hplace
      rw [Place.next] at hplace
      split at hplace
      next hdigit =>
        cases hplace
        obtain ⟨d, hd⟩ := Option.isSome_iff_exists.mp hdigit
        rw [hd]
        exact hst.decodes_high (Or.inl hs) (by rw [hr]; rfl) (by rw [hr]; rfl)
          (by rw [hr]; rfl) hd
      next => cases hplace
  | nameLow seen =>
      rw [hr] at hs hplace
      rw [Place.next] at hplace
      split at hplace
      next hdigit =>
        cases hplace
        obtain ⟨d, hd⟩ := Option.isSome_iff_exists.mp hdigit
        rw [hd]
        exact hst.decodes_low (q := .name true) (Or.inl hs)
          (by rw [hr]; rfl) (by rw [hr]; rfl) (by rw [hr]; rfl) rfl rfl hd
      next => cases hplace
  | value =>
      rw [hr] at hs hplace
      have hs : st.s = 11 := hs
      have hs' : st.s ≠ 1 := by omega
      rw [Place.next] at hplace
      split at hplace
      next hend =>
        cases hplace
        exact hst.decodes_end hr hend
      next hend =>
        split at hplace
        next hpercent =>
          cases hplace
          refine ⟨{ st with encoded := 0, s := 12 }, ?_, ?_, rfl, rfl⟩
          · rw [queryChar, if_neg hs', if_pos hs, if_neg hend,
              if_pos hpercent]
          · exact hst.moved (q := .valueHigh) (by rw [hr]; rfl)
              (by rw [hr]; rfl) (fun h => by cases h)
        next hpercent =>
          cases hplace
          refine hst.decodes_plain (q := .value) (by rw [hr])
            (by rw [hr]) rfl rfl ?_
          rw [queryChar, if_neg hs', if_pos hs, if_neg hend,
            if_neg hpercent, plainByte]
          split <;> rfl
  | valueHigh =>
      rw [hr] at hs hplace
      rw [Place.next] at hplace
      split at hplace
      next hdigit =>
        cases hplace
        obtain ⟨d, hd⟩ := Option.isSome_iff_exists.mp hdigit
        rw [hd]
        exact hst.decodes_high (Or.inr hs) (by rw [hr]; rfl) (by rw [hr]; rfl)
          (by rw [hr]; rfl) hd
      next => cases hplace
  | valueLow =>
      rw [hr] at hs hplace
      rw [Place.next] at hplace
      split at hplace
      next hdigit =>
        cases hplace
        obtain ⟨d, hd⟩ := Option.isSome_iff_exists.mp hdigit
        rw [hd]
        exact hst.decodes_low (q := .value) (Or.inr hs)
          (by rw [hr]; rfl) (by rw [hr]; rfl) (by rw [hr]; rfl) rfl rfl hd
      next => cases hplace

/-- A malformed item turns the sign of the state and does nothing else. -/
theorem QueryState.Shows.malformed (hst : st.Shows r)
    (h : r.place.next st.c = none) :
    queryChar st = pure { st with s := -st.s } := by
  have hs := hst.s_eq
  have hdigit : ∀ {q : Place},
      (if (hexDigit st.c).isSome then some q else none) = none →
      hexDigit st.c = none := by
    intro q h
    split at h
    next => cases h
    next hnone => exact Option.not_isSome_iff_eq_none.mp hnone
  cases hr : r.place with
  | name seen =>
      rw [hr, Place.next] at h
      split at h
      next hequals =>
        split at h
        next => cases h
        next hseen =>
          have hattr : st.attr = none := by
            rw [← Option.not_isSome_iff_eq_none, hst.attr_isSome, hr]
            exact hseen
          have hs : st.s = 1 := by rw [hs, hr]; rfl
          rw [queryChar, if_pos hs, if_pos hequals, if_pos hattr]
      next => split at h <;> cases h
  | nameHigh seen =>
      have hs2 : st.s = 2 := by rw [hs, hr]; rfl
      simp [queryChar, hs2, hdigit (hr ▸ h)]
  | nameLow seen =>
      have hs3 : st.s = 3 := by rw [hs, hr]; rfl
      simp [queryChar, hs3, hdigit (hr ▸ h)]
  | value =>
      rw [hr, Place.next] at h
      split at h
      next => cases h
      next => split at h <;> cases h
  | valueHigh =>
      have hs12 : st.s = 12 := by rw [hs, hr]; rfl
      simp [queryChar, hs12, hdigit (hr ▸ h)]
  | valueLow =>
      have hs13 : st.s = 13 := by rw [hs, hr]; rfl
      simp [queryChar, hs13, hdigit (hr ▸ h)]

variable {fns : StreamFns τ} {st' : QueryState τ}

theorem queryStep_exit (h : st.c = eof ∨ st.s ≤ 0) :
    Returns (queryStep fns st) (.inr st) := by
  rw [queryStep, if_neg (by omega)]
  exact returns_pure_self _

theorem queryStep_moves (hc : st.c ≠ eof) (hs : 0 < st.s)
    (hchar : queryChar st = pure st') (hinput : st'.input = st.input)
    (hnext : (st.input.next fns).1 = 0) :
    Returns (queryStep fns st) (.inl (st'.advance fns)) := by
  rw [queryStep, if_pos ⟨hc, hs⟩, hchar]
  refine (returns_pure_self st').bind ?_
  simp only [hinput, hnext, ne_eq, not_true_eq_false, ↓reduceIte,
    QueryState.advance]
  exact returns_pure_self _

theorem queryStep_fails (hc : st.c ≠ eof) (hs : 0 < st.s)
    (hchar : queryChar st = pure st') (hinput : st'.input = st.input)
    (hnext : (st.input.next fns).1 ≠ 0) :
    Returns (queryStep fns st)
      (.inl { st' with input := (st.input.next fns).2, s := -st'.s }) := by
  rw [queryStep, if_pos ⟨hc, hs⟩, hchar]
  refine (returns_pure_self st').bind ?_
  simp only [hinput, if_pos hnext]
  exact returns_pure_self _

def QueryState.start (fns : StreamFns τ) (input : InputStream τ) :
    QueryState τ :=
  { result := [], s := 1, attr := none, value := none, out := .attr,
    encoded := 0, input := input, c := input.item fns }

theorem start_shows (fns : StreamFns τ) (input : InputStream τ) :
    (QueryState.start fns input).Shows .fresh where
  s_eq := rfl
  out_eq := rfl
  attr_isSome := rfl
  attr_eq := rfl
  value_eq_none _ := rfl
  value_eq := rfl
  encoded_eq h := by cases h

def QueryState.last (st : QueryState τ) : Proc StringHash :=
  if st.s = 11 ∨ st.s = -11 then
    st.noValue.result.set st.noValue.attr st.noValue.value
  else pure st.result

theorem parseQueryOrForm_eq (fns : StreamFns τ) (input : InputStream τ) :
    parseQueryOrForm fns input =
      Proc.loop (queryStep fns) (.start fns input) >>= QueryState.last := rfl

/-- The last pair counts when its value is not in the middle of an escape,
after a failure too. -/
theorem QueryState.Shows.last (hst : st.Shows r) {n : Int}
    (hn : n = st.s ∨ n = -st.s) :
    Returns ({ st with s := n } : QueryState τ).last
      (r.pending.foldl commit st.result) := by
  have hs := hst.s_eq
  have hiff : (n = 11 ∨ n = -11) ↔ r.place = .value := by
    cases hr : r.place with
    | value =>
        rw [hr] at hs
        have hs : st.s = 11 := hs
        exact iff_of_true (by omega) rfl
    | _ =>
        rw [hr, Place.number] at hs
        exact iff_of_false (by omega) (fun h => by cases h)
  rw [QueryState.last, FormReader.pending]
  by_cases hr : r.place = .value
  · rw [if_pos (hiff.mpr hr), if_pos hr]
    have hattr : st.noValue.attr = some r.name :=
      hst.attr_some (by rw [hr]; rfl)
    have hvalue : st.noValue.value = some r.value :=
      congrArg some hst.value_eq
    have hset : st.noValue.result.set st.noValue.attr st.noValue.value =
        pure (commit st.result (r.name, r.value)) := by
      rw [hattr, hvalue]
      rfl
    exact hset ▸ returns_pure_self _
  · rw [if_neg (fun h => hr (hiff.mp h)), if_neg hr]
    exact returns_pure_self _

/-- Taking these items, with a `next` that succeeds after each of them, leads
from one stream to another. -/
def InputStream.Reads (fns : StreamFns τ) :
    List Int → InputStream τ → InputStream τ → Prop
  | [], input, last => input = last
  | c :: items, input, last => input.item fns = c ∧ (input.next fns).1 = 0 ∧
      InputStream.Reads fns items (input.next fns).2 last

theorem InputStream.Delivers.reads {bytes : Bytes} :
    ∀ {input : InputStream τ}, input.Delivers fns bytes →
      ∃ last, input.Reads fns (bytes.map charToInt) last ∧
        last.item fns = eof ∧ eof ∉ bytes.map charToInt := by
  induction bytes with
  | nil => exact fun {input} h => ⟨input, rfl, h, List.not_mem_nil⟩
  | cons b bytes ih =>
      rintro input ⟨hitem, hb, hok, hrest⟩
      obtain ⟨last, hreads, heof, hmem⟩ := ih hrest
      refine ⟨last, ⟨hitem, hok, hreads⟩, heof, ?_⟩
      rw [List.map_cons, List.mem_cons, not_or]
      exact ⟨fun h => hb ((charToInt_eq_eof_iff b).mp h.symm), hmem⟩

theorem QueryState.Shows.advance (hst : st.Shows r) :
    (st.advance fns).Shows r :=
  ⟨hst.s_eq, hst.out_eq, hst.attr_isSome, hst.attr_eq, hst.value_eq_none,
    hst.value_eq, hst.encoded_eq⟩

theorem QueryState.Shows.s_pos (hst : st.Shows r) : 0 < st.s :=
  hst.s_eq ▸ r.place.number_pos

/-- On a stream that comes to its end the loop ends, the completed pairs and
the pending one are what the reader yields, and the decoder is left in a value
when the reader is. -/
theorem loop_reads (items : List Int) {last : InputStream τ}
    (hend : last.item fns = eof) (heof : eof ∉ items) :
    ∀ {st : QueryState τ} {r : FormReader}, st.Shows r →
      st.c = st.input.item fns → st.input.Reads fns items last →
      ∃ st', Returns (Proc.loop (queryStep fns) st) st' ∧
        Returns st'.last ((r.read items).foldl commit st.result) ∧
        (st'.s = 11 ↔
          ∃ r', (r.run items).2 = some r' ∧ r'.place = .value) := by
  induction items with
  | nil =>
      intro st r hst hc hreads
      cases hreads
      refine ⟨st, (queryStep_exit (Or.inl (hc.trans hend))).loop_exit, ?_, ?_⟩
      · exact hst.last (Or.inl rfl)
      · rw [FormReader.run]
        have hs := hst.s_eq
        constructor
        · intro h
          refine ⟨r, rfl, ?_⟩
          cases hr : r.place with
          | value => rfl
          | _ => rw [hr, Place.number] at hs; omega
        · rintro ⟨r', hr', hvalue⟩
          cases hr'
          rw [hs, hvalue]
          rfl
  | cons c items ih =>
      intro st r hst hc hreads
      obtain ⟨hitem, hok, hrest⟩ := hreads
      obtain ⟨hne, heof⟩ := not_or.mp (List.mem_cons.not.mp heof)
      have hcur : st.c = c := hc.trans hitem
      have hlive : st.c ≠ eof := fun h => hne (h.symm.trans hcur)
      cases hnext : r.next c with
      | some after =>
          obtain ⟨pairs, r'⟩ := after
          obtain ⟨st', hchar, hst', hresult, hinput⟩ :=
            hst.decodes (hcur ▸ hnext)
          have hmoves := queryStep_moves hlive hst.s_pos hchar hinput hok
          have hinput' : (st'.advance fns).input = (st.input.next fns).2 := by
            rw [QueryState.advance, hinput]
          obtain ⟨st'', hloop, hlast, hs⟩ :=
            ih heof hst'.advance rfl (hinput' ▸ hrest)
          refine ⟨st'', hmoves.loop_next.mpr hloop, ?_, ?_⟩
          · rw [FormReader.read_cons hnext, List.foldl_append]
            exact hresult ▸ hlast
          · rwa [FormReader.run_cons hnext]
      | none =>
          have hchar := hst.malformed
            (hcur ▸ FormReader.next_eq_none_iff.mp hnext)
          have hmoves := queryStep_moves hlive hst.s_pos hchar rfl hok
          have hpos := hst.s_pos
          have hexit := @queryStep_exit _ ({ st with s := -st.s }.advance fns)
            fns
            (Or.inr (by simp only [QueryState.advance]; omega))
          refine ⟨_, hmoves.loop_next.mpr hexit.loop_exit, ?_, ?_⟩
          · have hadvance : (st.advance fns).Shows r := hst.advance
            have hlast := hadvance.last (n := -st.s) (Or.inr rfl)
            rw [FormReader.pending_of_next_eq_none hnext] at hlast
            rw [FormReader.read, FormReader.run_cons_none hnext]
            exact hlast
          · rw [FormReader.run_cons_none hnext]
            refine iff_of_false ?_ ?_
            · simp only [QueryState.advance]
              omega
            · rintro ⟨r', hr', -⟩
              cases hr'

def formPairs (text : Bytes) : List (Bytes × Bytes) :=
  (FormReader.fresh.read (text.map charToInt)).map
    fun pair => (cString pair.1, cString pair.2)

theorem parseQueryOrForm_reads {input : InputStream τ} {text : Bytes}
    (h : input.Delivers fns text) :
    Returns (parseQueryOrForm fns input) ((formPairs text).foldl store []) := by
  obtain ⟨last, hreads, hend, heof⟩ := h.reads
  obtain ⟨st, hloop, hlast, -⟩ :=
    loop_reads _ hend heof (start_shows fns input) rfl hreads
  rw [formPairs, List.foldl_map]
  exact hloop.bind hlast

end

end Libcad
