/-
Setters that report a failure: which of them have changed something all the
same.
-/
import Libcad.CgiJar

namespace Libcad

open Proc

/-- A setter of a cookie that fails after it has freed an old value. -/
def Cookie.Loses (this : Cookie) : CookieCall → Prop
  | .setValue allocated _ => allocated = false ∧ this.value ≠ .null
  | .setDomain allocated _ => allocated = false ∧ this.domain ≠ none
  | .setPath allocated _ => allocated = false ∧ this.path ≠ none
  | _ => False

/-- A setter of a response or of a cookie that does. -/
def Handling.Loses {τ : Type} (st : Handling τ) : ResponseCall → Prop
  | .redirect pathAllocated fragmentAllocated path fragment =>
      st.response.body = none ∧ path ≠ none ∧ fragment ≠ none ∧
        ¬ (pathAllocated = true ∧ fragmentAllocated = true) ∧
        (st.response.redirectPath ≠ none ∨
          st.response.redirectFragment ≠ none)
  | .setContentType allocated contentType =>
      allocated = false ∧ contentType ≠ none ∧ st.response.contentType ≠ none
  | .cookie pointer call =>
      ∃ cookie, st.jar.cookie pointer = some cookie ∧ cookie.Loses call
  | _ => False

def CookieReport.Failed (report : CookieReport) : Prop := report = .number (-1)

/-- The same of a response or of one of its cookies. -/
def ResponseReport.Failed : ResponseReport → Prop
  | .number n => n = -1
  | .cookie report => report.Failed
  | _ => False

/-- A call of a cookie that fails leaves it as it was unless it loses a
value. -/
theorem Cookie.unchanged_iff {this next : Cookie} {call : CookieCall}
    {report : CookieReport} (h : Returns (this.call call) (report, next))
    (hfailed : report.Failed) : next = this ↔ ¬ this.Loses call := by
  rcases this with ⟨changed, name, value, expires, maxAge, flag, domain, path⟩
  cases call with
  | setValue allocated text =>
      obtain ⟨⟨result, set⟩, hset, h⟩ := returns_bind.mp h
      cases returns_pure.mp h
      obtain ⟨_, -, hset⟩ := returns_bind.mp hset
      cases allocated with
      | true =>
          cases returns_pure.mp hset
          cases hfailed
      | false =>
          cases returns_pure.mp hset
          simp [Loses, eq_comm]
  | setDomain allocated text =>
      cases allocated with
      | true =>
          cases returns_pure.mp h
          cases hfailed
      | false =>
          cases returns_pure.mp h
          simp [Loses, eq_comm]
  | setPath allocated text =>
      cases allocated with
      | true =>
          cases returns_pure.mp h
          cases hfailed
      | false =>
          cases returns_pure.mp h
          simp [Loses, eq_comm]
  | value =>
      obtain ⟨value, -, h⟩ := returns_bind.mp h
      cases returns_pure.mp h
      simp [Loses]
  | setExpires time =>
      by_cases hage : maxAge = 0
      · simp only [Cookie.call, setExpires, hage, if_true] at h
        cases returns_pure.mp h
        cases hfailed
      · simp only [Cookie.call, setExpires, hage, if_false] at h
        cases returns_pure.mp h
        simp [Loses]
  | setMaxAge age =>
      by_cases hexpires : expires = 0
      · simp only [Cookie.call, setMaxAge, hexpires, if_true] at h
        cases returns_pure.mp h
        cases hfailed
      · simp only [Cookie.call, setMaxAge, hexpires, if_false] at h
        cases returns_pure.mp h
        simp [Loses]
  | setFlag flag =>
      cases returns_pure.mp h
      cases hfailed
  | _ =>
      cases returns_pure.mp h
      simp [Loses]

theorem CookieJar.store_eq_iff {this : CookieJar} {pointer : Nat}
    {old cookie : Cookie} (hold : this.cookie pointer = some old) :
    this.store pointer cookie = this ↔ cookie = old := by
  constructor
  · intro heq
    have hcookie := cookie_store this (cookie_lt hold) cookie pointer
    rw [heq, if_pos rfl, hold] at hcookie
    exact (Option.some.inj hcookie).symm
  · rintro rfl
    have hget : this.objects[pointer]? = some (some cookie) :=
      Option.join_eq_some_iff.mp hold
    obtain ⟨hlt, heq⟩ := List.getElem?_eq_some_iff.mp hget
    rw [store, ← heq, List.set_getElem_self]

theorem CookieJar.set_code {this that : CookieJar} {pointer : Nat} {code : Int}
    (h : Returns (this.set pointer) (code, that)) : code = 0 := by
  obtain ⟨cookie, -, h⟩ := returns_bind.mp h
  dsimp only at h
  cases hget : this.get cookie.name with
  | none =>
      rw [hget] at h
      exact (Prod.mk.inj (returns_pure.mp h)).1.symm
  | some old =>
      rw [hget] at h
      obtain ⟨freed, -, h⟩ := returns_bind.mp h
      exact (Prod.mk.inj (returns_pure.mp h)).1.symm

namespace Response

variable {this : Response}

theorem redirect_failed_iff {pathAllocated fragmentAllocated : Bool}
    {path fragment : Option Bytes}
    (hfailed : (this.redirect pathAllocated fragmentAllocated path
      fragment).1 = -1) :
    (this.redirect pathAllocated fragmentAllocated path fragment).2 = this ↔
      ¬ (this.body = none ∧ path ≠ none ∧ fragment ≠ none ∧
        ¬ (pathAllocated = true ∧ fragmentAllocated = true) ∧
        (this.redirectPath ≠ none ∨ this.redirectFragment ≠ none)) := by
  rcases this with ⟨cookies, body, redirectPath, redirectFragment, status,
    contentType, headers⟩
  rw [redirect.eq_def] at hfailed ⊢
  split
  next _ _ _ path fragment hbody =>
    have hbody' : body = none := hbody
    cases pathAllocated with
    | false => simp [hbody', eq_comm]
    | true =>
        cases fragmentAllocated with
        | false => simp [hbody', eq_comm]
        | true => simp [hbody'] at hfailed
  next hcase =>
    simp only [true_iff]
    rintro ⟨hbody, hpath, hfragment, -⟩
    obtain ⟨path, rfl⟩ := Option.ne_none_iff_exists'.mp hpath
    obtain ⟨fragment, rfl⟩ := Option.ne_none_iff_exists'.mp hfragment
    exact hcase path fragment hbody rfl rfl

theorem setContentType_failed_iff {allocated : Bool}
    {contentType : Option Bytes}
    (hfailed : (this.setContentType allocated contentType).1 = -1) :
    (this.setContentType allocated contentType).2 = this ↔
      ¬ (allocated = false ∧ contentType ≠ none ∧ this.contentType ≠ none) := by
  rcases this with ⟨cookies, body, redirectPath, redirectFragment, status,
    old, headers⟩
  cases contentType with
  | none => simp [setContentType]
  | some text =>
      cases allocated with
      | false => simp [setContentType, eq_comm]
      | true => simp [setContentType] at hfailed

theorem setHeader_failed {allocated : Bool} {field value : Option Bytes}
    {that : Response}
    (h : Returns (this.setHeader allocated field value) (-1, that)) :
    that = this := by
  rw [setHeader.eq_def] at h
  split at h
  next =>
    split at h
    next =>
      split at h
      next =>
        obtain ⟨headers, -, h⟩ := returns_bind.mp h
        cases (Prod.mk.inj (returns_pure.mp h)).1
      next => exact (Prod.mk.inj (returns_pure.mp h)).2.symm
    next => exact (Prod.mk.inj (returns_pure.mp h)).2.symm
  next => exact (Prod.mk.inj (returns_pure.mp h)).2.symm

end Response

namespace Handling

variable {τ : Type} {arith : IntArith} {fns : StreamFns τ}
  {order : VisitOrder} {stale : Nat → Bool} {st next : Handling τ}
  {report : ResponseReport} {c : ResponseCall}

theorem withResponse_eq_iff {response : Response} :
    { st with response := response } = st ↔ response = st.response := by
  rcases st with ⟨old, metaState, fd⟩
  simp

theorem withCookies_eq_iff {cookies : CookieJar} :
    st.withCookies cookies = st ↔ cookies = st.jar := by
  rcases st with ⟨⟨old, body, redirectPath, redirectFragment, status,
    contentType, headers⟩, metaState, fd⟩
  simp [withCookies, jar]

/-- A call that fails changes nothing unless it loses an old value: it has
freed it before the allocation that fails. -/
theorem failed_call_iff
    (h : Returns (st.call arith fns order stale c) (report, next))
    (hfailed : report.Failed) : next = st ↔ ¬ st.Loses c := by
  cases c with
  | redirect pathAllocated fragmentAllocated path fragment =>
      cases returns_pure.mp h
      rw [withResponse_eq_iff, Response.redirect_failed_iff hfailed, Loses]
  | setContentType allocated contentType =>
      cases returns_pure.mp h
      rw [withResponse_eq_iff, Response.setContentType_failed_iff hfailed,
        Loses]
  | setHeader allocated field value =>
      obtain ⟨⟨result, response⟩, hset, h⟩ := returns_bind.mp h
      cases returns_pure.mp h
      have hresult : result = -1 := hfailed
      rw [hresult] at hset
      simp [Response.setHeader_failed hset, Loses]
  | cookie pointer call =>
      obtain ⟨cookie, hcookie, h⟩ := returns_bind.mp h
      obtain ⟨⟨answer, changed⟩, hcall, h⟩ := returns_bind.mp h
      cases returns_pure.mp h
      have hold := returns_ofOption.mp hcookie
      rw [withCookies_eq_iff]
      have hjar : st.jar.cookie pointer = some cookie := hold
      have hstore : st.response.cookies.store pointer changed = st.jar ↔
          changed = cookie := CookieJar.store_eq_iff hold
      rw [hstore, Cookie.unchanged_iff hcall hfailed]
      simp [Loses, hjar]
  | fd =>
      cases returns_pure.mp h
      simp [Loses]
  | setStatus status =>
      cases returns_pure.mp h
      cases hfailed
  | putBody text =>
      cases returns_pure.mp h
      cases hfailed
  | flush =>
      obtain ⟨result, -, h⟩ := returns_bind.mp h
      cases returns_pure.mp h
      exact absurd hfailed id
  | metaVariables call =>
      obtain ⟨result, -, h⟩ := returns_bind.mp h
      cases returns_pure.mp h
      exact absurd hfailed id
  | setCookie pointer =>
      obtain ⟨⟨result, cookies⟩, hset, h⟩ := returns_bind.mp h
      cases returns_pure.mp h
      rw [CookieJar.set_code hset] at hfailed
      cases hfailed
  | freeCookie pointer =>
      obtain ⟨result, -, h⟩ := returns_bind.mp h
      cases returns_pure.mp h
      exact absurd hfailed id
  | getCookie name =>
      cases returns_pure.mp h
      exact absurd hfailed id
  | iterateCookies =>
      cases returns_pure.mp h
      exact absurd hfailed id
  | newCookie name =>
      cases returns_pure.mp h
      exact absurd hfailed id

/-- A first type that cannot be stored changes nothing. -/
theorem failed_call_first :
    ∃ first next, Returns (newHandling (HeapContents.zero StringStream)
        (fun _ => none) none 1) first ∧
      Returns (first.call intChecked stringFns .entries (fun _ => false)
        (.setContentType false (some (chars "a/b")))) (.number (-1), next) ∧
      next = first := by
  have hnew : ∃ first, Returns (newHandling (HeapContents.zero StringStream)
      (fun _ => none) none 1) first ∧ first.response.contentType = none :=
    ⟨_, ⟨0, rfl⟩, rfl⟩
  obtain ⟨first, hfirst, hnone⟩ := hnew
  have hcall : Returns (first.call intChecked stringFns .entries
      (fun _ => false) (.setContentType false (some (chars "a/b"))))
      (.number (-1), _) := ⟨0, rfl⟩
  have hfailed : ResponseReport.Failed (.number (-1)) := Eq.refl (-1)
  exact ⟨first, _, hfirst, hcall,
    (failed_call_iff hcall hfailed).mpr fun hloses => hloses.2.2 hnone⟩

/-- A second one that cannot be stored takes the first along. -/
theorem failed_call_loses :
    ∃ first st next, Returns (newHandling (HeapContents.zero StringStream)
        (fun _ => none) none 1) first ∧
      LeadsTo (Handling.call intChecked stringFns .entries (fun _ => false))
        [.setContentType true (some (chars "a/b"))] first [] st ∧
      Returns (st.call intChecked stringFns .entries (fun _ => false)
        (.setContentType false (some (chars "c/d")))) (.number (-1), next) ∧
      st.response.contentType = some (chars "a/b") ∧
      next.response.contentType = none :=
  ⟨_, _, _, ⟨0, rfl⟩, .call ⟨0, rfl⟩ (.here _ _), ⟨0, rfl⟩, rfl, rfl⟩

end Handling

end Libcad
