/-
`parse_cookies` reads back the header that joins encoded cookies, when the
blocks of the cookies are not stale.
-/
import Libcad.CgiCookies
import Mathlib.Data.Bool.AllAny

namespace Libcad

open Proc

/-- Every byte comes back, and the counted size is that of the value. -/
theorem foldl_valueChar_encodeByte (c : UInt8) (d : Int) (result : Bytes) :
    ∃ d', (encodeByte c).foldl valueChar ⟨0, d, result⟩ =
      ⟨0, d', result ++ [c]⟩ := by
  rw [encodeByte]
  split
  next h => exact ⟨37, h ▸ rfl⟩
  next hpercent =>
    split
    next h => exact ⟨61, h ▸ rfl⟩
    next hequals =>
      split
      next h => exact ⟨59, h ▸ rfl⟩
      next hsemicolon =>
        refine ⟨d, ?_⟩
        simp only [List.foldl_cons, List.foldl_nil, valueChar, if_neg hpercent]

theorem valueSize_encodeByte (c : UInt8) (rest : Bytes) :
    valueSize 0 (encodeByte c ++ rest) = valueSize 0 rest + 1 := by
  rw [encodeByte]
  split
  next => rfl
  next hpercent =>
    split
    next => rfl
    next hequals =>
      split
      next => rfl
      next hsemicolon =>
        simp only [List.cons_append, List.nil_append, valueSize,
          if_neg hpercent]

theorem foldl_valueChar_encoded (value : Bytes) (d : Int) (result : Bytes) :
    ∃ d', (encoded value).foldl valueChar ⟨0, d, result⟩ =
      ⟨0, d', result ++ value⟩ := by
  induction value generalizing d result with
  | nil => exact ⟨d, by simp [encoded]⟩
  | cons c value ih =>
      obtain ⟨d₁, hbyte⟩ := foldl_valueChar_encodeByte c d result
      obtain ⟨d₂, hrest⟩ := ih d₁ (result ++ [c])
      refine ⟨d₂, ?_⟩
      rw [encoded, List.flatMap_cons, List.foldl_append, hbyte]
      simpa [encoded] using hrest

theorem valueSize_encoded (value : Bytes) :
    valueSize 0 (encoded value) = value.length := by
  induction value with
  | nil => rfl
  | cons c value ih =>
      rw [encoded, List.flatMap_cons, valueSize_encodeByte]
      exact congrArg (· + 1) ih

theorem parseCookieValue_encoded (value : Bytes) :
    Returns (parseCookieValue (encoded value)) value := by
  obtain ⟨d, hfold⟩ := foldl_valueChar_encoded value 0 []
  rw [parseCookieValue, hfold, valueSize_encoded, List.nil_append, if_pos (Nat.le_refl _)]
  exact returns_pure_self _

theorem length_encodeByte (c : UInt8) :
    (encodeByte c).length =
      if c = ascii '%' ∨ c = ascii '=' ∨ c = ascii ';' then 3 else 1 := by
  rw [encodeByte]
  split
  next hpercent =>
    rw [if_pos (Or.inl hpercent)]
    rfl
  next hpercent =>
    split
    next hequals =>
      rw [if_pos (Or.inr (Or.inl hequals))]
      rfl
    next hequals =>
      split
      next hsemicolon =>
        rw [if_pos (Or.inr (Or.inr hsemicolon))]
        rfl
      next hsemicolon =>
        rw [if_neg (by simp [hpercent, hequals, hsemicolon])]
        rfl

theorem encodedSize_eq (value : Bytes) :
    encodedSize value = (encoded value).length + 1 := by
  have hfold : ∀ count, value.foldl (fun count c =>
      if c = ascii '%' ∨ c = ascii '=' ∨ c = ascii ';' then count + 3
      else count + 1) count = count + (encoded value).length := by
    induction value with
    | nil => exact fun _ => rfl
    | cons c value ih =>
        intro count
        rw [List.foldl_cons, ih, encoded, encoded, List.flatMap_cons,
          List.length_append, length_encodeByte]
        split <;> omega
  rw [encodedSize, hfold 1]
  omega

theorem encodeValue_returns (value : Bytes) :
    Returns (encodeValue (.string value)) (encoded value) := by
  rw [encodeValue, encodedSize_eq, if_pos (Nat.le_refl _)]
  exact returns_pure_self _

theorem mem_encoded {value : Bytes} (hnul : (0 : UInt8) ∉ value) :
    ∀ b ∈ encoded value, b ≠ 0 ∧ b ≠ ascii ';' := by
  intro b hb
  obtain ⟨c, hc, hb⟩ := List.mem_flatMap.mp hb
  rw [encodeByte] at hb
  split at hb
  next =>
    have hall : ∀ b ∈ chars "%25", b ≠ 0 ∧ b ≠ ascii ';' :=
      List.all_iff_forall_prop.mp (by decide)
    exact hall b hb
  next =>
    split at hb
    next =>
      have hall : ∀ b ∈ chars "%3d", b ≠ 0 ∧ b ≠ ascii ';' :=
        List.all_iff_forall_prop.mp (by decide)
      exact hall b hb
    next =>
      split at hb
      next =>
        have hall : ∀ b ∈ chars "%3b", b ≠ 0 ∧ b ≠ ascii ';' :=
          List.all_iff_forall_prop.mp (by decide)
        exact hall b hb
      next hsemicolon =>
        rw [List.mem_singleton.mp hb]
        exact ⟨fun h => hnul (h ▸ hc), hsemicolon⟩

/-- A name and a value a cookie may have. -/
structure CookiePair (pair : Bytes × Bytes) : Prop where
  name_ne_nil : pair.1 ≠ []
  name_nul : (0 : UInt8) ∉ pair.1
  name_equals : ascii '=' ∉ pair.1
  name_semicolon : ascii ';' ∉ pair.1
  name_blank : pair.1.head? ≠ some (ascii ' ')
  value_nul : (0 : UInt8) ∉ pair.2

/-- A cookie in the header: the name and the encoded value. -/
def CookieText (pair : Bytes × Bytes) (text : Bytes) : Prop :=
  ∃ value, Returns (encodeValue (.string pair.2)) value ∧
    text = pair.1 ++ ascii '=' :: value

theorem bytesBetween_append (a b : Bytes) : bytesBetween (a ++ b) b = a := by
  rw [bytesBetween, List.length_append, Nat.add_sub_cancel]
  exact List.take_left

namespace CookieJar

def added (this : CookieJar) (pair : Bytes × Bytes) : CookieJar where
  objects := this.objects ++ [some { newCadCgiCookie false pair.1 with
    value := .string pair.2 }]
  jar := Dict.set stringsEqual pair.1 pair.1 this.objects.length this.jar

/-- Setting the value of a new cookie frees what its block held. -/
theorem add_returns_iff {stale : Nat → Bool} {this that : CookieJar}
    {name value : Bytes} (hnul : (0 : UInt8) ∉ value) :
    Returns (this.add stale name (some value)) that ↔
      stale this.objects.length = false ∧ that = this.added (name, value) := by
  rw [add]
  dsimp only [allocate]
  cases hstale : stale this.objects.length with
  | true =>
      refine iff_of_false ?_ (by simp)
      intro hrun
      obtain ⟨cookie, hset, -⟩ := returns_bind.mp hrun
      obtain ⟨_, hfree, -⟩ := returns_bind.mp hset
      exact not_returns_undefined hfree
  | false =>
      have hset : Returns (Cookie.setValue true (newCadCgiCookie false name)
          (cString value)) (0, { newCadCgiCookie false name with
            value := .string value, changed := true }) := by
        rw [cString_of_not_mem hnul]
        exact Returns.bind (returns_pure_self ()) (returns_pure_self _)
      rw [hset.bind_iff]
      dsimp only
      rw [(returns_pure_self _).bind_iff, returns_pure]
      simp only [store, added, true_and, newCadCgiCookie,
        Bool.false_eq_true, ↓reduceIte]
      rw [List.set_append_right _ _ (Nat.le_refl _), Nat.sub_self,
        List.set_cons_zero]
      exact eq_comm

end CookieJar

variable {stale : Nat → Bool}

/-- Bytes the `switch` does nothing for are passed over. -/
theorem reaches_skip {text rest : Bytes} {st : CookieScan}
    (hstate : st.state ≠ 0) (htext : st.httpCookie = text ++ rest)
    (hskip : ∀ b ∈ text, ∀ tail,
      cookieChar stale { st with httpCookie := b :: tail } =
        pure { st with httpCookie := b :: tail }) :
    Reaches (cookieStep stale) st { st with httpCookie := rest } := by
  induction text generalizing st with
  | nil =>
      rw [List.nil_append] at htext
      rw [← htext]
      exact Reaches.refl _
  | cons b text ih =>
      obtain ⟨hhead, htail⟩ := List.forall_mem_cons.mp hskip
      have hsame : cookieChar stale st = pure st := by
        have hst : { st with httpCookie := b :: (text ++ rest) } = st := by
          rw [← List.cons_append, ← htext]
        have := hhead (text ++ rest)
        rwa [hst] at this
      have hstep : Returns (cookieStep stale st)
          (.inl { st with httpCookie := text ++ rest }) := by
        rw [cookieStep, if_neg hstate, hsame]
        refine (returns_pure_self st).bind ?_
        rw [if_neg hstate, htext]
        exact returns_pure_self _
      exact (Reaches.step hstep).trans
        (@ih { st with httpCookie := text ++ rest } hstate rfl htail)

/-- The scan stands in the name of a cookie, with its header text after it. -/
structure CookieScan.InName (st : CookieScan) (pair : Bytes × Bytes)
    (tail : Bytes) : Prop where
  state_eq : st.state = 1
  name_eq : st.name = pair.1 ++ ascii '=' :: (encoded pair.2 ++ tail)
  rest : ∃ text, (∀ b ∈ text, b ∈ pair.1) ∧
    st.httpCookie = text ++ ascii '=' :: (encoded pair.2 ++ tail)

/-- The scan at the end of the value of a cookie. -/
def CookieScan.atEnd (st : CookieScan) (pair : Bytes × Bytes) (tail : Bytes) :
    CookieScan :=
  { st with
    state := 2, httpCookie := tail, value := some (encoded pair.2 ++ tail) }

theorem CookieScan.InName.reaches {st : CookieScan} {pair : Bytes × Bytes}
    {tail : Bytes} (h : st.InName pair tail) (hpair : CookiePair pair) :
    Reaches (cookieStep stale) st (st.atEnd pair tail) := by
  obtain ⟨text, hmem, hrest⟩ := h.rest
  have hstate := h.state_eq
  -- the name
  have hname : Reaches (cookieStep stale) st
      { st with httpCookie := ascii '=' :: (encoded pair.2 ++ tail) } := by
    apply reaches_skip (by simp [hstate]) hrest
    intro b hb next
    have hne : b ≠ 0 := fun h => hpair.name_nul (h ▸ hmem b hb)
    have hequals : b ≠ ascii '=' := fun h => hpair.name_equals (h ▸ hmem b hb)
    have hsemicolon : b ≠ ascii ';' :=
      fun h => hpair.name_semicolon (h ▸ hmem b hb)
    simp [cookieChar, CookieScan.char, hstate, hne, hequals, hsemicolon]
  -- the equals sign
  have hequals : Returns (cookieStep stale
      { st with httpCookie := ascii '=' :: (encoded pair.2 ++ tail) })
      (.inl { st with
        state := 2, httpCookie := encoded pair.2 ++ tail,
        value := some (encoded pair.2 ++ tail) }) := by
    have hchar : cookieChar stale
        { st with httpCookie := ascii '=' :: (encoded pair.2 ++ tail) } =
        pure { st with
          state := 2, httpCookie := ascii '=' :: (encoded pair.2 ++ tail),
          value := some (encoded pair.2 ++ tail) } := by
      simp [cookieChar, CookieScan.char, hstate]
    rw [cookieStep, if_neg (by simp [hstate]), hchar]
    exact (returns_pure_self _).bind (returns_pure_self _)
  -- the value
  have hvalue : Reaches (cookieStep stale)
      { st with
        state := 2, httpCookie := encoded pair.2 ++ tail,
        value := some (encoded pair.2 ++ tail) }
      (st.atEnd pair tail) := by
    refine reaches_skip (by simp) rfl ?_
    intro b hb next
    obtain ⟨hne, hsemicolon⟩ := mem_encoded hpair.value_nul b hb
    simp [cookieChar, CookieScan.char, hne, hsemicolon]
  exact (hname.trans (Reaches.step hequals)).trans hvalue

theorem cookieChar_value {st : CookieScan} {value : Bytes}
    (hstate : st.state = 2) (hvalue : st.value = some value)
    (hend : st.char = 0 ∨ st.char = ascii ';') :
    cookieChar stale st =
      (do
        let name := parseCookieName st.name (ascii '=' :: value)
        let v ← parseCookieValue (bytesBetween value st.httpCookie)
        let jar ← CookieJar.add stale st.jar name (some v)
        pure { st with jar := jar, state := if st.char = 0 then 0 else 3 }) := by
  rw [cookieChar]
  simp only [hstate]
  rw [if_pos hend]
  simp only [hvalue]

/-- At the end of a value the cookie goes into the jar. -/
theorem cookieChar_atEnd_returns_iff {st next : CookieScan}
    {pair : Bytes × Bytes} {tail : Bytes} (h : st.InName pair tail)
    (hpair : CookiePair pair)
    (hend : (st.atEnd pair tail).char = 0 ∨
      (st.atEnd pair tail).char = ascii ';') :
    Returns (cookieChar stale (st.atEnd pair tail)) next ↔
      stale st.jar.objects.length = false ∧
        next = { st.atEnd pair tail with
          jar := st.jar.added pair
          state := if (st.atEnd pair tail).char = 0 then 0 else 3 } := by
  have hname : parseCookieName (st.atEnd pair tail).name
      (ascii '=' :: (encoded pair.2 ++ tail)) = pair.1 := by
    rw [parseCookieName, CookieScan.atEnd, h.name_eq, bytesBetween_append]
  have hvalue : Returns (parseCookieValue
      (bytesBetween (encoded pair.2 ++ tail) (st.atEnd pair tail).httpCookie))
      pair.2 := by
    rw [CookieScan.atEnd, bytesBetween_append]
    exact parseCookieValue_encoded pair.2
  rw [cookieChar_value rfl rfl hend, hname, hvalue.bind_iff, returns_bind]
  constructor
  · rintro ⟨jar, hadd, hrun⟩
    obtain ⟨hfresh, rfl⟩ := (CookieJar.add_returns_iff hpair.value_nul).mp hadd
    exact ⟨hfresh, (returns_pure.mp hrun).symm⟩
  · rintro ⟨hfresh, rfl⟩
    exact ⟨_, (CookieJar.add_returns_iff hpair.value_nul).mpr ⟨hfresh, rfl⟩,
      returns_pure_self _⟩

theorem scan_returns_iff {st : CookieScan} (hstate : st.state ≠ 0)
    {jar : CookieJar} :
    Returns (loop (cookieStep stale) st) jar ↔
      ∃ next, Returns (cookieChar stale st) next ∧
        Returns (loop (cookieStep stale) (if next.state = 0 then next
          else { next with httpCookie := next.httpCookie.tail })) jar := by
  have hstep : ∀ next, Returns (cookieChar stale st) next →
      Returns (cookieStep stale st) (.inl (if next.state = 0 then next
        else { next with httpCookie := next.httpCookie.tail })) := by
    intro next hchar
    rw [cookieStep, if_neg hstate]
    refine hchar.bind ?_
    by_cases hzero : next.state = 0
    · rw [if_pos hzero, if_pos hzero]
      exact returns_pure_self _
    · rw [if_neg hzero, if_neg hzero]
      exact returns_pure_self _
  constructor
  · intro hrun
    have hchar : ∃ next, Returns (cookieChar stale st) next := by
      rcases returns_loop_iff.mp hrun with ⟨s', hbody, -⟩ | hbody
      · rw [cookieStep, if_neg hstate] at hbody
        obtain ⟨next, hchar, -⟩ := returns_bind.mp hbody
        exact ⟨next, hchar⟩
      · rw [cookieStep, if_neg hstate] at hbody
        obtain ⟨next, hchar, -⟩ := returns_bind.mp hbody
        exact ⟨next, hchar⟩
    obtain ⟨next, hchar⟩ := hchar
    exact ⟨next, hchar, (hstep next hchar).loop_next.mp hrun⟩
  · rintro ⟨next, hchar, hrun⟩
    exact (hstep next hchar).loop_next.mpr hrun

theorem scan_end_returns_iff {st : CookieScan} (hstate : st.state = 0)
    {jar : CookieJar} :
    Returns (loop (cookieStep stale) st) jar ↔ jar = st.jar := by
  have hexit : Returns (loop (cookieStep stale) st) st.jar := by
    apply Returns.loop_exit
    rw [cookieStep, if_pos hstate]
    exact returns_pure_self _
  constructor
  · exact fun h => h.unique hexit
  · rintro rfl
    exact hexit

theorem CookieScan.InName.returns_iff_last {st : CookieScan}
    {pair : Bytes × Bytes} (h : st.InName pair []) (hpair : CookiePair pair)
    {jar : CookieJar} :
    Returns (loop (cookieStep stale) st) jar ↔
      stale st.jar.objects.length = false ∧ jar = st.jar.added pair := by
  rw [(h.reaches hpair).returns_iff, scan_returns_iff (by simp [atEnd])]
  simp only [cookieChar_atEnd_returns_iff h hpair (Or.inl rfl)]
  constructor
  · rintro ⟨next, ⟨hfresh, rfl⟩, hrun⟩
    exact ⟨hfresh, (scan_end_returns_iff rfl).mp hrun⟩
  · rintro ⟨hfresh, rfl⟩
    exact ⟨_, ⟨hfresh, rfl⟩, (scan_end_returns_iff rfl).mpr rfl⟩

/-- After a cookie the blank is skipped and the next name starts. -/
theorem reaches_next {st : CookieScan} {c : UInt8} {rest : Bytes}
    (hstate : st.state = 3) (htext : st.httpCookie = ascii ' ' :: c :: rest)
    (hblank : c ≠ ascii ' ') (hnul : c ≠ 0) :
    Reaches (cookieStep stale) st { st with
      state := 1, httpCookie := rest, name := c :: rest, value := none } := by
  have hskip : Returns (cookieStep stale st)
      (.inl { st with httpCookie := c :: rest }) := by
    have hchar : cookieChar stale st = pure st := by
      simp [cookieChar, CookieScan.char, hstate, htext]
    rw [cookieStep, if_neg (by simp [hstate]), hchar]
    refine (returns_pure_self _).bind ?_
    rw [if_neg (by simp [hstate]), htext]
    exact returns_pure_self _
  have hstart : Returns (cookieStep stale { st with httpCookie := c :: rest })
      (.inl { st with
        state := 1, httpCookie := rest, name := c :: rest,
        value := none }) := by
    have hchar : cookieChar stale { st with httpCookie := c :: rest } =
        pure { st with
          state := 1, httpCookie := c :: rest, name := c :: rest,
          value := none } := by
      simp [cookieChar, CookieScan.char, hstate, hblank, hnul]
    rw [cookieStep, if_neg (by simp [hstate]), hchar]
    exact (returns_pure_self _).bind (returns_pure_self _)
  exact (Reaches.step hskip).trans (Reaches.step hstart)

theorem CookieScan.InName.returns_iff_next {st : CookieScan}
    {pair pair' : Bytes × Bytes} {tail : Bytes}
    (h : st.InName pair (chars "; " ++
      (pair'.1 ++ ascii '=' :: (encoded pair'.2 ++ tail))))
    (hpair : CookiePair pair) (hpair' : CookiePair pair') :
    ∃ next : CookieScan, next.InName pair' tail ∧
      next.jar = st.jar.added pair ∧ ∀ {jar : CookieJar},
        Returns (loop (cookieStep stale) st) jar ↔
          stale st.jar.objects.length = false ∧
            Returns (loop (cookieStep stale) next) jar := by
  obtain ⟨c, name, hname⟩ := List.exists_cons_of_ne_nil hpair'.name_ne_nil
  have hblank : c ≠ ascii ' ' := by
    intro hc
    apply hpair'.name_blank
    rw [hname, hc]
    rfl
  have hnul : c ≠ 0 := by
    intro hc
    apply hpair'.name_nul
    rw [hname, hc]
    exact List.mem_cons_self
  have hend : (st.atEnd pair (chars "; " ++
      (pair'.1 ++ ascii '=' :: (encoded pair'.2 ++ tail)))).char =
      ascii ';' := rfl
  have hchar := fun next =>
    @cookieChar_atEnd_returns_iff stale st next pair _ h hpair (Or.inr hend)
  have hreach : Reaches (cookieStep stale)
      { st with
        state := 3,
        httpCookie := ascii ' ' ::
          (pair'.1 ++ ascii '=' :: (encoded pair'.2 ++ tail)),
        value := some (encoded pair.2 ++ (chars "; " ++
          (pair'.1 ++ ascii '=' :: (encoded pair'.2 ++ tail)))),
        jar := st.jar.added pair }
      { st with
        state := 1, httpCookie := name ++ ascii '=' :: (encoded pair'.2 ++ tail),
        name := pair'.1 ++ ascii '=' :: (encoded pair'.2 ++ tail),
        value := none, jar := st.jar.added pair } := by
    rw [hname]
    exact reaches_next rfl rfl hblank hnul
  refine ⟨{ st with
    state := 1, httpCookie := name ++ ascii '=' :: (encoded pair'.2 ++ tail),
    name := pair'.1 ++ ascii '=' :: (encoded pair'.2 ++ tail), value := none,
    jar := st.jar.added pair }, ⟨rfl, rfl, name, ?_, rfl⟩, rfl, ?_⟩
  · intro b hb
    rw [hname]
    exact List.mem_cons_of_mem c hb
  · intro jar
    rw [(h.reaches hpair).returns_iff, scan_returns_iff (by simp [atEnd])]
    constructor
    · rintro ⟨next, hnext, hrun⟩
      obtain ⟨hfresh, rfl⟩ := (hchar next).mp hnext
      exact ⟨hfresh, hreach.returns_iff.mp hrun⟩
    · rintro ⟨hfresh, hrun⟩
      exact ⟨_, (hchar _).mpr ⟨hfresh, rfl⟩, hreach.returns_iff.mpr hrun⟩

def headerRest : List (Bytes × Bytes) → Bytes
  | [] => []
  | pair :: pairs => chars "; " ++
      (pair.1 ++ ascii '=' :: (encoded pair.2 ++ headerRest pairs))

theorem intercalate_texts {pair : Bytes × Bytes} {text : Bytes}
    (htext : CookieText pair text) {pairs : List (Bytes × Bytes)}
    {texts : List Bytes} (htexts : List.Forall₂ CookieText pairs texts) :
    List.intercalate (chars "; ") (text :: texts) =
      pair.1 ++ ascii '=' :: (encoded pair.2 ++ headerRest pairs) := by
  induction htexts generalizing pair text with
  | nil =>
      obtain ⟨value, hvalue, rfl⟩ := htext
      cases hvalue.unique (encodeValue_returns pair.2)
      simp [List.intercalate, headerRest]
  | @cons pair' text' pairs texts htext' htexts ih =>
      have hrest := ih htext'
      obtain ⟨value, hvalue, rfl⟩ := htext
      cases hvalue.unique (encodeValue_returns pair.2)
      have hsplit : List.intercalate (chars "; ")
          ((pair.1 ++ ascii '=' :: encoded pair.2) :: text' :: texts) =
          (pair.1 ++ ascii '=' :: encoded pair.2) ++ (chars "; " ++
            List.intercalate (chars "; ") (text' :: texts)) := by
        simp [List.intercalate]
      rw [hsplit, hrest, headerRest]
      simp

theorem CookieScan.InName.returns_iff {pairs : List (Bytes × Bytes)} :
    ∀ {pair : Bytes × Bytes} {st : CookieScan},
      st.InName pair (headerRest pairs) →
      (∀ p ∈ pair :: pairs, CookiePair p) → ∀ {jar : CookieJar},
      Returns (loop (cookieStep stale) st) jar ↔
        (∀ i < pairs.length + 1, stale (st.jar.objects.length + i) = false) ∧
          jar = (pair :: pairs).foldl CookieJar.added st.jar := by
  induction pairs with
  | nil =>
      intro pair st h hpairs jar
      rw [h.returns_iff_last (hpairs pair List.mem_cons_self)]
      constructor
      · rintro ⟨hfresh, rfl⟩
        refine ⟨?_, rfl⟩
        intro i hi
        have hzero : i = 0 := by simpa using hi
        rwa [hzero]
      · rintro ⟨hfresh, rfl⟩
        exact ⟨hfresh 0 (Nat.zero_lt_succ _), rfl⟩
  | cons pair' pairs ih =>
      intro pair st h hpairs jar
      have hpair := hpairs pair List.mem_cons_self
      have hrest : ∀ p ∈ pair' :: pairs, CookiePair p :=
        fun p hp => hpairs p (List.mem_cons_of_mem pair hp)
      obtain ⟨next, hnext, hjar, hiff⟩ :=
        @CookieScan.InName.returns_iff_next stale _ _ _ _ h hpair
          (hrest pair' List.mem_cons_self)
      have hlength : next.jar.objects.length =
          st.jar.objects.length + 1 := by
        rw [hjar, CookieJar.added, List.length_append, List.length_singleton]
      rw [hiff, ih hnext hrest, hlength, hjar, ← List.foldl_cons]
      constructor
      · rintro ⟨hfresh, hfreshes, rfl⟩
        refine ⟨?_, rfl⟩
        intro i hi
        cases i with
        | zero => exact hfresh
        | succ i =>
            have := hfreshes i (by simpa using hi)
            rwa [Nat.add_right_comm] at this
      · rintro ⟨hfreshes, rfl⟩
        refine ⟨hfreshes 0 (Nat.zero_lt_succ _), ?_, rfl⟩
        intro i hi
        have := hfreshes (i + 1) (by simpa using hi)
        rwa [Nat.add_right_comm]

namespace CookieJar

/-- The jar holds an unchanged cookie for each pair, the last one of a name,
and nothing else. -/
structure Holds (this : CookieJar) (pairs : List (Bytes × Bytes)) : Prop where
  distinct : Dict.Distinct stringsEqual this.jar
  found : ∀ name value, pairs.reverse.lookup name = some value →
    ∃ pointer cookie, this.get name = some pointer ∧
      this.cookie pointer = some cookie ∧ cookie.name = name ∧
      cookie.value = .string value ∧ cookie.changed = false
  absent : ∀ name, pairs.reverse.lookup name = none → this.get name = none

theorem cookie_added {this : CookieJar} {pair : Bytes × Bytes} {pointer : Nat}
    {cookie : Cookie} (h : this.cookie pointer = some cookie) :
    (this.added pair).cookie pointer = some cookie := by
  have hlt : pointer < this.objects.length := by
    by_contra hge
    rw [CookieJar.cookie, List.getElem?_eq_none (by omega)] at h
    cases h
  rw [CookieJar.cookie, added, List.getElem?_append_left hlt]
  exact h

theorem get_insert (this : CookieJar) (pointer : Nat) (key name : Bytes) :
    Dict.get stringsEqual
        (Dict.set stringsEqual key key pointer this.jar) name =
      if key = name then some pointer else this.get name := by
  rw [Dict.get_set stringsEqual_equiv _ _ (stringsEqual_equiv.refl _),
    stringsEqual]
  by_cases h : key = name
  · simp [h]
  · simp [h, get]

theorem get_added (this : CookieJar) (pair : Bytes × Bytes) (name : Bytes) :
    (this.added pair).get name =
      if pair.1 = name then some this.objects.length else this.get name :=
  get_insert this this.objects.length pair.1 name

theorem lookup_reverse_append (pairs : List (Bytes × Bytes))
    (pair : Bytes × Bytes) (name : Bytes) :
    (pairs ++ [pair]).reverse.lookup name =
      if pair.1 = name then some pair.2 else pairs.reverse.lookup name := by
  rw [List.reverse_append, List.reverse_singleton, List.singleton_append,
    List.lookup_cons]
  by_cases hname : pair.1 = name
  · simp [hname]
  · have hbeq : (name == pair.1) = false := by
      simpa using fun h => hname h.symm
    simp [hname, hbeq]

theorem Holds.added {this : CookieJar} {pairs : List (Bytes × Bytes)}
    (h : this.Holds pairs) (pair : Bytes × Bytes) :
    (this.added pair).Holds (pairs ++ [pair]) where
  distinct := h.distinct.set stringsEqual_equiv _ (stringsEqual_equiv.refl _)
  found name value hlookup := by
    rw [lookup_reverse_append] at hlookup
    rw [get_added]
    by_cases hname : pair.1 = name
    · rw [if_pos hname]
      rw [if_pos hname] at hlookup
      refine ⟨_, { newCadCgiCookie false pair.1 with
        value := .string pair.2 }, rfl, ?_, hname, ?_, rfl⟩
      · rw [CookieJar.cookie, CookieJar.added,
          List.getElem?_append_right (Nat.le_refl _), Nat.sub_self]
        rfl
      · rw [Option.some.inj hlookup]
    · rw [if_neg hname]
      rw [if_neg hname] at hlookup
      obtain ⟨pointer, cookie, hget, hcookie, hrest⟩ :=
        h.found name value hlookup
      exact ⟨pointer, cookie, hget, cookie_added hcookie, hrest⟩
  absent name hlookup := by
    rw [lookup_reverse_append] at hlookup
    rw [get_added]
    by_cases hname : pair.1 = name
    · rw [if_pos hname] at hlookup
      cases hlookup
    · rw [if_neg hname]
      rw [if_neg hname] at hlookup
      exact h.absent name hlookup

theorem holds_foldl_added (pairs : List (Bytes × Bytes)) :
    (pairs.foldl added ⟨[], []⟩).Holds pairs := by
  induction pairs using List.reverseRecOn with
  | nil => exact ⟨List.Pairwise.nil, nofun, fun _ _ => rfl⟩
  | append_singleton pairs pair ih =>
      rw [List.foldl_append]
      exact ih.added pair

end CookieJar

/-- The header of the encoded cookies is read back into the jar exactly when
none of the blocks of these cookies is stale. -/
theorem parseCookies_reads_iff (stale : Nat → Bool)
    (pairs : List (Bytes × Bytes)) (texts : List Bytes)
    (hpairs : ∀ pair ∈ pairs, CookiePair pair)
    (htexts : List.Forall₂ CookieText pairs texts) :
    (∃ jar, Returns (parseCookies stale
        (List.intercalate (chars "; ") texts) ⟨[], []⟩) jar ∧
      jar.Holds pairs) ↔
      ∀ i < pairs.length, stale i = false := by
  cases htexts with
  | nil =>
      refine iff_of_true ⟨⟨[], []⟩, ?_, CookieJar.holds_foldl_added []⟩ nofun
      exact (scan_end_returns_iff rfl).mpr rfl
  | @cons pair text pairs texts htext htexts =>
      rw [intercalate_texts htext htexts, parseCookies]
      have hname : CookieScan.InName
          { state := 1,
            httpCookie := pair.1 ++ ascii '=' ::
              (encoded pair.2 ++ headerRest pairs),
            name := pair.1 ++ ascii '=' ::
              (encoded pair.2 ++ headerRest pairs),
            value := none, jar := ⟨[], []⟩ } pair (headerRest pairs) :=
        ⟨rfl, rfl, pair.1, fun _ hb => hb, rfl⟩
      rw [if_neg (by simp)]
      have hiff := fun jar =>
        @CookieScan.InName.returns_iff stale pairs pair _ hname hpairs jar
      simp only [List.length_nil, Nat.zero_add] at hiff
      simp only [hiff, List.length_cons]
      constructor
      · rintro ⟨jar, ⟨hfresh, -⟩, -⟩
        exact hfresh
      · intro hfresh
        exact ⟨_, ⟨hfresh, rfl⟩, CookieJar.holds_foldl_added (pair :: pairs)⟩

/-- `a=b; a=%3b`: the second value of `a` wins. -/
theorem parseCookies_reads_repeated :
    ∃ jar, Returns (parseCookies (fun _ => false)
        (List.intercalate (chars "; ") [[97, 61, 98], [97, 61, 37, 51, 98]])
        ⟨[], []⟩) jar ∧
      jar.Holds [([97], [98]), ([97], [59])] :=
  (parseCookies_reads_iff (fun _ => false) [([97], [98]), ([97], [59])]
    [[97, 61, 98], [97, 61, 37, 51, 98]]
    (by
      intro pair hpair
      fin_cases hpair
      · exact ⟨by decide, by decide, by decide, by decide, by decide,
          by decide⟩
      · exact ⟨by decide, by decide, by decide, by decide, by decide,
          by decide⟩)
    (.cons ⟨_, encodeValue_returns [98], rfl⟩
      (.cons ⟨_, encodeValue_returns [59], rfl⟩ .nil))).mpr
    (fun _ _ => rfl)

/-- The only cookie of `a=b` is made in a stale block. -/
theorem parseCookies_frees_stale :
    CookiePair ([97], [98]) ∧ CookieText ([97], [98]) [97, 61, 98] ∧
      ¬ ∃ jar, Returns (parseCookies (fun _ => true)
          (List.intercalate (chars "; ") [[97, 61, 98]]) ⟨[], []⟩) jar ∧
        jar.Holds [([97], [98])] := by
  refine ⟨⟨by decide, by decide, by decide, by decide, by decide, by decide⟩,
    ⟨_, encodeValue_returns [98], rfl⟩, ?_⟩
  rintro ⟨jar, hrun, -⟩
  exact hrun.defined 10 rfl

end Libcad
