/-
Runs of handlers: what every response they leave keeps, and when it can be
flushed.
-/
import Libcad.CgiFlush

namespace Libcad

open Proc

namespace CookieJar

variable {stale : Nat → Bool} {this that : CookieJar}

/-- The cookies of the entries may change, but not their names. -/
theorem Valid.objects (hv : this.Valid) (hjar : that.jar = this.jar)
    (hlength : this.objects.length ≤ that.objects.length)
    (hcookie : ∀ pointer cookie, pointer < this.objects.length →
      that.cookie pointer = some cookie →
      ∃ old, this.cookie pointer = some old ∧ old.name = cookie.name) :
    that.Valid where
  distinct := hjar ▸ hv.distinct
  bounded name pointer hget := by
    rw [get, hjar] at hget
    exact Nat.lt_of_lt_of_le (hv.bounded name pointer hget) hlength
  named name pointer cookie hget hlive := by
    rw [get, hjar] at hget
    obtain ⟨old, hold, hname⟩ :=
      hcookie pointer cookie (hv.bounded name pointer hget) hlive
    rw [← hname]
    exact hv.named name pointer old hget hold

theorem Valid.store (hv : this.Valid) {pointer : Nat} {old cookie : Cookie}
    (hold : this.cookie pointer = some old) (hname : cookie.name = old.name) :
    (this.store pointer cookie).Valid := by
  refine hv.objects rfl (Nat.le_of_eq (List.length_set).symm) ?_
  intro q other _ hlive
  rw [cookie_store this (cookie_lt hold)] at hlive
  by_cases hq : q = pointer
  · rw [if_pos hq] at hlive
    cases hlive
    exact ⟨old, hq ▸ hold, hname.symm⟩
  · rw [if_neg hq] at hlive
    exact ⟨other, hlive, rfl⟩

theorem cookie_allocate (name : Bytes) (pointer : Nat) :
    (this.allocate stale name).2.cookie pointer =
      if pointer = this.objects.length then
        some (newCadCgiCookie (stale pointer) name)
      else this.cookie pointer := by
  rw [CookieJar.cookie, allocate]
  dsimp only
  by_cases hp : pointer = this.objects.length
  · subst hp
    simp
  · rw [if_neg hp]
    by_cases hlt : pointer < this.objects.length
    · rw [List.getElem?_append_left hlt]
      rfl
    · rw [CookieJar.cookie, List.getElem?_append_right (by omega),
        List.getElem?_eq_none (by simp; omega),
        List.getElem?_eq_none (by omega)]

theorem Valid.allocate (hv : this.Valid) (name : Bytes) :
    (this.allocate stale name).2.Valid := by
  refine hv.objects rfl ?_ ?_
  · rw [CookieJar.allocate]
    simp
  · intro pointer cookie hlt hlive
    rw [cookie_allocate, if_neg (by omega)] at hlive
    exact ⟨cookie, hlive, rfl⟩

theorem Valid.insert (hv : this.Valid) {pointer : Nat} {cookie : Cookie}
    (hlive : this.cookie pointer = some cookie) :
    CookieJar.Valid { this with
      jar := Dict.set stringsEqual cookie.name cookie.name pointer
        this.jar } := by
  constructor
  · exact hv.distinct.set stringsEqual_equiv _ (stringsEqual_equiv.refl _)
  · intro name q hq
    rw [get, get_insert this] at hq
    split at hq
    next =>
      cases hq
      exact cookie_lt hlive
    next => exact hv.bounded name q hq
  · intro name q other hq hother
    rw [get, get_insert this] at hq
    split at hq
    next hname =>
      cases hq
      cases hlive.symm.trans hother
      exact hname
    next => exact hv.named name q other hq hother

theorem Valid.freeCookie (hv : this.Valid) {pointer : Nat}
    (hrun : Returns (this.freeCookie pointer) that) : that.Valid := by
  obtain ⟨cookie, -, hrun⟩ := returns_bind.mp hrun
  obtain ⟨-, -, hrun⟩ := returns_bind.mp hrun
  cases returns_pure.mp hrun
  refine hv.objects rfl (Nat.le_of_eq (List.length_set).symm) ?_
  intro q other _ hlive
  rw [CookieJar.cookie, List.getElem?_set] at hlive
  by_cases hq : pointer = q
  · rw [if_pos hq] at hlive
    split at hlive <;> cases hlive
  · rw [if_neg hq] at hlive
    exact ⟨other, hlive, rfl⟩

theorem Valid.set (hv : this.Valid) {pointer : Nat} {code : Int}
    (hrun : Returns (this.set pointer) (code, that)) : that.Valid := by
  obtain ⟨cookie, hlive, hrun⟩ := returns_bind.mp hrun
  have hinsert := hv.insert (returns_ofOption.mp hlive)
  dsimp only at hrun
  cases hold : this.get cookie.name with
  | none =>
      rw [hold] at hrun
      cases returns_pure.mp hrun
      exact hinsert
  | some old =>
      rw [hold] at hrun
      obtain ⟨freed, hfree, hrun⟩ := returns_bind.mp hrun
      cases returns_pure.mp hrun
      exact hinsert.freeCookie hfree

theorem setValue_name {cookie : Cookie} {allocated : Bool} {value : Bytes}
    {r : Int × Cookie} (hrun : Returns (cookie.setValue allocated value) r) :
    r.2.name = cookie.name := by
  obtain ⟨-, -, hrun⟩ := returns_bind.mp hrun
  split at hrun <;> cases returns_pure.mp hrun <;> rfl

theorem setExpires_name (cookie : Cookie) (expires : Int) :
    (cookie.setExpires expires).2.name = cookie.name := by
  rw [Cookie.setExpires]
  split <;> rfl

theorem setMaxAge_name (cookie : Cookie) (maxAge : Int) :
    (cookie.setMaxAge maxAge).2.name = cookie.name := by
  rw [Cookie.setMaxAge]
  split <;> rfl

/-- A new cookie is stored and put under its name. -/
def withNew (this : CookieJar) (cookie : Cookie) : CookieJar where
  objects := this.objects ++ [some cookie]
  jar := Dict.set stringsEqual cookie.name cookie.name this.objects.length
    this.jar

theorem get_withNew (cookie : Cookie) (name : Bytes) :
    (this.withNew cookie).get name =
      if cookie.name = name then some this.objects.length
      else this.get name :=
  get_insert this this.objects.length cookie.name name

theorem cookie_withNew (new : Cookie) (pointer : Nat) :
    (this.withNew new).cookie pointer =
      if pointer = this.objects.length then some new
      else this.cookie pointer := by
  rw [CookieJar.cookie, withNew, List.getElem?_append]
  by_cases hlt : pointer < this.objects.length
  · rw [if_pos hlt, if_neg (Nat.ne_of_lt hlt)]
    rfl
  · rw [if_neg hlt, List.getElem?_singleton]
    by_cases hp : pointer = this.objects.length
    · rw [if_pos hp, if_pos (by omega)]
      rfl
    · rw [if_neg hp, if_neg (by omega), CookieJar.cookie,
        List.getElem?_eq_none (by omega)]

/-- The parser adds a cookie that is not changed. -/
theorem add_returns {name : Bytes} {value : Option Bytes}
    (hrun : Returns (this.add stale name value) that) :
    ∃ cookie, cookie.name = name ∧ cookie.changed = false ∧
      that = this.withNew cookie := by
  have hstored : ∀ new cookie : Cookie,
      CookieJar.store { this with objects := this.objects ++ [some new] }
        this.objects.length cookie =
        { this with objects := this.objects ++ [some cookie] } := by
    intro new cookie
    rw [store, List.set_append_right _ _ (Nat.le_refl _), Nat.sub_self,
      List.set_cons_zero]
  rw [CookieJar.add] at hrun
  cases value with
  | none =>
      refine ⟨{ newCadCgiCookie (stale this.objects.length) name with
        changed := false }, rfl, rfl, ?_⟩
      rw [← returns_pure.mp hrun]
      dsimp only [CookieJar.allocate]
      rw [hstored]
      rfl
  | some value =>
      obtain ⟨r, hset, hrun⟩ := returns_bind.mp hrun
      have hname : r.2.name = name := setValue_name hset
      refine ⟨{ r.2 with changed := false }, hname, rfl, ?_⟩
      rw [← returns_pure.mp hrun]
      dsimp only [CookieJar.allocate, withNew]
      rw [hstored, hname]

theorem Valid.withNew (hv : this.Valid) (cookie : Cookie) :
    (this.withNew cookie).Valid where
  distinct := hv.distinct.set stringsEqual_equiv _ (stringsEqual_equiv.refl _)
  bounded name pointer hget := by
    rw [get_withNew] at hget
    rw [CookieJar.withNew, List.length_append, List.length_singleton]
    split at hget
    next =>
      cases hget
      omega
    next =>
      have hlt := hv.bounded name pointer hget
      omega
  named name pointer other hget hother := by
    rw [get_withNew] at hget
    rw [cookie_withNew] at hother
    split at hget
    next hname =>
      cases hget
      rw [if_pos rfl] at hother
      cases hother
      exact hname
    next =>
      rw [if_neg (Nat.ne_of_lt (hv.bounded name pointer hget))] at hother
      exact hv.named name pointer other hget hother

theorem Valid.add (hv : this.Valid) {name : Bytes} {value : Option Bytes}
    (hrun : Returns (this.add stale name value) that) : that.Valid := by
  obtain ⟨cookie, -, -, rfl⟩ := add_returns hrun
  exact hv.withNew cookie

end CookieJar

/-- A step of the parser leaves the jar or adds a cookie to it. -/
theorem cookieChar_adds {stale : Nat → Bool} {st next : CookieScan}
    (hrun : Returns (cookieChar stale st) next) :
    next.jar = st.jar ∨
      ∃ name value, Returns (st.jar.add stale name value) next.jar := by
  rw [cookieChar] at hrun
  dsimp only at hrun
  split at hrun
  next =>
    split at hrun
    next => exact Or.inl (returns_pure.mp hrun ▸ rfl)
    next =>
      split at hrun
      next =>
        obtain ⟨jar, hadd, hrun⟩ := returns_bind.mp hrun
        cases returns_pure.mp hrun
        exact Or.inr ⟨_, _, hadd⟩
      next => exact Or.inl (returns_pure.mp hrun ▸ rfl)
  next =>
    split at hrun
    next =>
      split at hrun
      next => exact absurd hrun not_returns_undefined
      next =>
        obtain ⟨v, -, hrun⟩ := returns_bind.mp hrun
        obtain ⟨jar, hadd, hrun⟩ := returns_bind.mp hrun
        cases returns_pure.mp hrun
        exact Or.inr ⟨_, _, hadd⟩
    next => exact Or.inl (returns_pure.mp hrun ▸ rfl)
  next =>
    split at hrun
    next => exact Or.inl (returns_pure.mp hrun ▸ rfl)
    next => exact Or.inl (returns_pure.mp hrun ▸ rfl)

theorem cookieStep_adds {stale : Nat → Bool} {st next : CookieScan}
    (hrun : Returns (cookieStep stale st) (.inl next)) :
    next.jar = st.jar ∨
      ∃ name value, Returns (st.jar.add stale name value) next.jar := by
  rw [cookieStep] at hrun
  split at hrun
  next => cases returns_pure.mp hrun
  next =>
    obtain ⟨st', hchar, hrun⟩ := returns_bind.mp hrun
    have hadds := cookieChar_adds hchar
    split at hrun
    next => cases returns_pure.mp hrun; exact hadds
    next => cases returns_pure.mp hrun; exact hadds

theorem cookieStep_exit {stale : Nat → Bool} {st : CookieScan}
    {jar : CookieJar} (hrun : Returns (cookieStep stale st) (.inr jar)) :
    jar = st.jar := by
  rw [cookieStep] at hrun
  split at hrun
  next => cases returns_pure.mp hrun; rfl
  next =>
    obtain ⟨st', -, hrun⟩ := returns_bind.mp hrun
    split at hrun <;> cases returns_pure.mp hrun

theorem CookieJar.valid_empty : CookieJar.Valid ⟨[], []⟩ where
  distinct := List.Pairwise.nil
  bounded _ _ hget := by cases hget
  named _ _ _ hget := by cases hget

/-- What every added cookie preserves holds of the parsed jar. -/
theorem parse_invariant {stale : Nat → Bool} {I : CookieJar → Prop}
    (hadd : ∀ {this that : CookieJar} {name value}, I this →
      Returns (this.add stale name value) that → I that)
    {st : CookieScan} {jar : CookieJar} (hI : I st.jar)
    (hrun : Returns (loop (cookieStep stale) st) jar) : I jar := by
  refine Returns.loop_invariant (I := fun st => I st.jar) ?_ ?_ hI hrun
  · intro st next hst hnext
    rcases cookieStep_adds hnext with heq | ⟨name, value, hnew⟩
    · rw [heq]
      exact hst
    · exact hadd hst hnew
  · intro st r hst hexit
    rw [cookieStep_exit hexit]
    exact hst

theorem newCookies_invariant {stale : Nat → Bool} {I : CookieJar → Prop}
    (hempty : I ⟨[], []⟩)
    (hadd : ∀ {this that : CookieJar} {name value}, I this →
      Returns (this.add stale name value) that → I that)
    {httpCookie : Option Bytes} {jar : CookieJar}
    (hrun : Returns (newCookies stale httpCookie) jar) : I jar := by
  cases httpCookie with
  | none =>
      cases returns_pure.mp hrun
      exact hempty
  | some httpCookie => exact parse_invariant hadd hempty hrun

/-- The jar of a request is valid, whatever its header. -/
theorem newCookies_valid {stale : Nat → Bool} {httpCookie : Option Bytes}
    {jar : CookieJar} (hrun : Returns (newCookies stale httpCookie) jar) :
    jar.Valid :=
  newCookies_invariant CookieJar.valid_empty (fun hv hadd => hv.add hadd) hrun

def VisitOrder.entries : VisitOrder where
  visits d := d
  perm _ := List.Perm.refl _

namespace Response

variable {stale : Nat → Bool} {this that : Response}

theorem newCadCgiResponse_valid {httpCookie : Option Bytes}
    (hrun : Returns (newCadCgiResponse stale httpCookie) this) :
    this.Valid := by
  obtain ⟨cookies, hcookies, hrun⟩ := returns_bind.mp hrun
  cases returns_pure.mp hrun
  exact ⟨newCookies_valid hcookies, rfl⟩

theorem Valid.withCookie (hv : this.Valid) {pointer : Nat}
    {setter : Cookie → Proc (Int × Cookie)}
    (hname : ∀ cookie r, Returns (setter cookie) r → r.2.name = cookie.name)
    (hrun : Returns (this.withCookie pointer setter) that) : that.Valid := by
  obtain ⟨cookie, hcookie, hrun⟩ := returns_bind.mp hrun
  obtain ⟨r, hset, hrun⟩ := returns_bind.mp hrun
  cases returns_pure.mp hrun
  exact ⟨hv.cookies.store (returns_ofOption.mp hcookie) (hname _ _ hset),
    hv.redirect⟩

/-- A redirection is refused, or there is no body and it is set or taken
back. -/
theorem redirect_cases (this : Response)
    (pathAllocated fragmentAllocated : Bool) (path fragment : Option Bytes) :
    (this.redirect pathAllocated fragmentAllocated path fragment).2 = this ∨
      this.body = none ∧ ∃ target : Option (Bytes × Bytes),
        (this.redirect pathAllocated fragmentAllocated path fragment).2 =
          { this with
            redirectPath := target.map Prod.fst
            redirectFragment := target.map Prod.snd } := by
  rw [Response.redirect.eq_def]
  split
  next _ _ _ path fragment hbody =>
    refine Or.inr ⟨hbody, ?_⟩
    cases pathAllocated with
    | false => exact ⟨none, rfl⟩
    | true =>
        cases fragmentAllocated with
        | false => exact ⟨none, rfl⟩
        | true => exact ⟨some (path, fragment), rfl⟩
  next => exact Or.inl rfl

theorem Valid.redirect_step (hv : this.Valid)
    (pathAllocated fragmentAllocated : Bool) (path fragment : Option Bytes) :
    (this.redirect pathAllocated fragmentAllocated path fragment).2.Valid := by
  rcases this.redirect_cases pathAllocated fragmentAllocated path fragment with
    heq | ⟨-, target, heq⟩
  · rw [heq]
    exact hv
  · rw [heq]
    refine ⟨hv.cookies, ?_⟩
    show (target.map Prod.fst).isSome = (target.map Prod.snd).isSome
    rw [Option.isSome_map, Option.isSome_map]

theorem setHeader_frame {allocated : Bool} {field value : Option Bytes}
    {r : Int × Response}
    (hrun : Returns (this.setHeader allocated field value) r) :
    ∃ headers, r.2 = { this with headers := headers } := by
  rw [Response.setHeader.eq_def] at hrun
  split at hrun
  next =>
    split at hrun
    next =>
      split at hrun
      next =>
        obtain ⟨headers, -, hrun⟩ := returns_bind.mp hrun
        cases returns_pure.mp hrun
        exact ⟨headers, rfl⟩
      next => exact returns_pure.mp hrun ▸ ⟨this.headers, rfl⟩
    next => exact returns_pure.mp hrun ▸ ⟨this.headers, rfl⟩
  next => exact returns_pure.mp hrun ▸ ⟨this.headers, rfl⟩

theorem Valid.setHeader (hv : this.Valid) {allocated : Bool}
    {field value : Option Bytes} {r : Int × Response}
    (hrun : Returns (this.setHeader allocated field value) r) :
    r.2.Valid := by
  obtain ⟨headers, heq⟩ := setHeader_frame hrun
  rw [heq]
  exact ⟨hv.cookies, hv.redirect⟩

theorem Valid.step (hv : this.Valid) {op : ResponseOp}
    (hrun : Returns (this.step stale op) that) : that.Valid := by
  cases op with
  | redirect path fragment =>
      exact returns_pure.mp hrun ▸ hv.redirect_step true true path fragment
  | setStatus status =>
      exact returns_pure.mp hrun ▸ ⟨hv.cookies, hv.redirect⟩
  | setContentType contentType =>
      cases contentType with
      | none => exact returns_pure.mp hrun ▸ hv
      | some contentType =>
          exact returns_pure.mp hrun ▸ ⟨hv.cookies, hv.redirect⟩
  | setHeader field value =>
      obtain ⟨r, hset, hrun⟩ := returns_bind.mp hrun
      exact returns_pure.mp hrun ▸ hv.setHeader hset
  | putBody text => exact returns_pure.mp hrun ▸ ⟨hv.cookies, hv.redirect⟩
  | newCookie name =>
      exact returns_pure.mp hrun ▸ ⟨hv.cookies.allocate name, hv.redirect⟩
  | setValue pointer value =>
      exact hv.withCookie (fun _ _ => CookieJar.setValue_name) hrun
  | setExpires pointer expires =>
      refine hv.withCookie (fun cookie r hset => ?_) hrun
      rw [← returns_pure.mp hset]
      exact CookieJar.setExpires_name cookie _
  | setMaxAge pointer maxAge =>
      refine hv.withCookie (fun cookie r hset => ?_) hrun
      rw [← returns_pure.mp hset]
      exact CookieJar.setMaxAge_name cookie _
  | setDomain pointer domain =>
      exact hv.withCookie (fun _ _ hset => returns_pure.mp hset ▸ rfl) hrun
  | setPath pointer path =>
      exact hv.withCookie (fun _ _ hset => returns_pure.mp hset ▸ rfl) hrun
  | setFlag pointer flag =>
      exact hv.withCookie (fun _ _ hset => returns_pure.mp hset ▸ rfl) hrun
  | setCookie pointer =>
      obtain ⟨r, hset, hrun⟩ := returns_bind.mp hrun
      exact returns_pure.mp hrun ▸ ⟨hv.cookies.set hset, hv.redirect⟩

theorem Valid.run {ops : List ResponseOp} (hv : this.Valid)
    (hrun : Returns (run stale ops this) that) : that.Valid := by
  induction ops generalizing this with
  | nil => exact returns_pure.mp hrun ▸ hv
  | cons op ops ih =>
      obtain ⟨next, hstep, hrun⟩ := returns_bind.mp hrun
      exact ih (hv.step hstep) hrun

theorem Reachable.valid (h : this.Reachable) : this.Valid := by
  obtain ⟨stale, httpCookie, ops, initial, hnew, hrun⟩ := h
  exact (newCadCgiResponse_valid hnew).run hrun

/-- The flush of a response that a handler leaves is as it should be exactly
when the body and the cookies of the jar are there and can be written. -/
theorem reachable_flushes_iff (order : VisitOrder) (h : this.Reachable) :
    this.Flushes order ↔ this.Flushable := h.valid.flushes_iff order

/-- A handler that sets the cookie `a=b` and writes `hi`. -/
theorem reachable_flushes_greeting :
    ∃ this : Response,
      (∃ initial, Returns (newCadCgiResponse (fun _ => false) none) initial ∧
        Returns (run (fun _ => false)
          [.newCookie (chars "a"), .setValue 0 (chars "b"), .setCookie 0,
            .putBody (chars "hi")] initial) this) ∧
      this.Flushes VisitOrder.entries := by
  have hrun : Returns (run (fun _ => false)
      [.newCookie (chars "a"), .setValue 0 (chars "b"), .setCookie 0,
        .putBody (chars "hi")] ⟨⟨[], []⟩, none, none, none, 0, none, []⟩)
      ⟨⟨[some ⟨true, chars "a", .string (chars "b"), 0, 0, 0, none, none⟩],
        [(chars "a", 0)]⟩, some (chars "hi"), none, none, 0, none, []⟩ :=
    ⟨0, rfl⟩
  refine ⟨_, ⟨_, ⟨0, rfl⟩, hrun⟩, (reachable_flushes_iff VisitOrder.entries
    ⟨fun _ => false, none, _, _, ⟨0, rfl⟩, hrun⟩).mpr ⟨⟨_, rfl, by decide⟩, ?_⟩⟩
  intro visit hvisit
  cases List.mem_singleton.mp hvisit
  exact ⟨_, rfl, fun _ => ⟨⟨_, rfl⟩, fun hdate => absurd hdate (by decide)⟩⟩

/-- A redirection, which is refused once there is a body, leaves none. -/
theorem reachable_not_flushes_redirect :
    ∃ this : Response,
      (∃ initial, Returns (newCadCgiResponse (fun _ => false) none) initial ∧
        Returns (run (fun _ => false)
          [.redirect (some (chars "/a")) (some [])] initial) this) ∧
      ¬ (∃ r, Returns (this.flush VisitOrder.entries) r) ∧
      ¬ this.Flushes VisitOrder.entries := by
  refine ⟨⟨⟨[], []⟩, none, some (chars "/a"), some [], 0, none, []⟩,
    ⟨_, ⟨0, rfl⟩, ⟨0, rfl⟩⟩, ?_, ?_⟩
  · rintro ⟨r, hrun⟩
    exact hrun.defined 0 rfl
  · rintro ⟨body, -, hbody, -⟩
    cases hbody

end Response

end Libcad
