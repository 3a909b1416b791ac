/-
The cookies that a jar holds while a handler gets, sets, changes and iterates
them: which of them are live.
-/
import Libcad.CgiLeftovers
import Libcad.CgiRuns
import Libcad.StreamInput

namespace Libcad

open Proc

namespace CookieJar

variable {stale : Nat → Bool} {order : VisitOrder} {this that other : CookieJar}
  {pointer : Nat} {code : Int}

/-- No cookie stored in the jar has been freed. -/
def Live (this : CookieJar) : Prop :=
  ∀ name pointer, this.get name = some pointer → (this.cookie pointer).isSome

def Has (this : CookieJar) (pointer : Nat) : Prop :=
  ∃ name, this.get name = some pointer

/-- `set` leaves the cookie in the jar, alive and unchanged. -/
def SetKeeps (this : CookieJar) (pointer : Nat) : Prop :=
  ∃ code that cookie, Returns (this.set pointer) (code, that) ∧
    that.Has pointer ∧ this.cookie pointer = some cookie ∧
    that.cookie pointer = some cookie

/-- The same cookies under the same names. -/
structure SameNames (this that : CookieJar) : Prop where
  jar_eq : that.jar = this.jar
  length_eq : that.objects.length = this.objects.length
  names : ∀ q, (that.cookie q).map Cookie.name =
    (this.cookie q).map Cookie.name

theorem SameNames.refl (this : CookieJar) : this.SameNames this :=
  ⟨rfl, rfl, fun _ => rfl⟩

theorem SameNames.trans (h : this.SameNames that) (h' : that.SameNames other) :
    this.SameNames other where
  jar_eq := h'.jar_eq.trans h.jar_eq
  length_eq := h'.length_eq.trans h.length_eq
  names q := (h'.names q).trans (h.names q)

theorem SameNames.store {old cookie : Cookie}
    (hold : this.cookie pointer = some old) (hname : cookie.name = old.name) :
    this.SameNames (this.store pointer cookie) where
  jar_eq := rfl
  length_eq := List.length_set
  names q := by
    rw [cookie_store this (cookie_lt hold)]
    by_cases hq : q = pointer
    · rw [if_pos hq, hq, hold]
      exact congrArg some hname
    · rw [if_neg hq]

theorem SameNames.valid (h : this.SameNames that) (hv : this.Valid) :
    that.Valid := by
  refine hv.objects h.jar_eq (Nat.le_of_eq h.length_eq.symm) ?_
  intro q cookie _ hcookie
  have hnames := h.names q
  rw [hcookie] at hnames
  exact Option.map_eq_some_iff.mp hnames.symm

theorem SameNames.live (h : this.SameNames that) (hlive : this.Live) :
    that.Live := by
  intro name q hget
  rw [get, h.jar_eq] at hget
  have hsome := congrArg Option.isSome (h.names q)
  rw [Option.isSome_map, Option.isSome_map] at hsome
  rw [hsome]
  exact hlive name q hget

theorem SameNames.flushVisits {visits : Dict Bytes Nat} :
    ∀ {this : CookieJar} {text : Bytes},
      Returns (flushVisits visits this) (text, that) → this.SameNames that := by
  induction visits with
  | nil =>
      intro this text h
      cases returns_pure.mp h
      exact SameNames.refl _
  | cons visit rest ih =>
      intro this text h
      obtain ⟨cookie, hcookie, h⟩ := returns_bind.mp h
      obtain ⟨⟨line, flushed⟩, hflush, h⟩ := returns_bind.mp h
      obtain ⟨⟨lines, last⟩, hrest, h⟩ := returns_bind.mp h
      cases returns_pure.mp h
      obtain ⟨hready, heq⟩ := flushCookie_returns_iff.mp hflush
      refine (SameNames.store (returns_ofOption.mp hcookie) ?_).trans (ih hrest)
      rw [(Prod.mk.inj heq).2]

theorem Live.allocate (hv : this.Valid) (h : this.Live) (name : Bytes) :
    (this.allocate stale name).2.Live := by
  intro key q hget
  have hlt := hv.bounded key q hget
  rw [cookie_allocate, if_neg (Nat.ne_of_lt hlt)]
  exact h key q hget

theorem freeCookie_eq (h : Returns (this.freeCookie pointer) that) :
    that = { this with objects := this.objects.set pointer none } := by
  obtain ⟨_, -, h⟩ := returns_bind.mp h
  obtain ⟨_, -, h⟩ := returns_bind.mp h
  exact (returns_pure.mp h).symm

theorem freeCookie_freed (h : Returns (this.freeCookie pointer) that) :
    that.cookie pointer = none := by
  rw [freeCookie_eq h, CookieJar.cookie, List.getElem?_set_self']
  cases this.objects[pointer]? with
  | none => rfl
  | some o => rfl

/-- What `set` does: the cookie is put under its name, and the one that was
there is freed. -/
theorem set_returns (h : Returns (this.set pointer) (code, that)) :
    ∃ cookie, this.cookie pointer = some cookie ∧
      (∀ name, that.get name =
        if cookie.name = name then some pointer else this.get name) ∧
      (∀ q, this.get cookie.name ≠ some q → that.cookie q = this.cookie q) ∧
      (∀ q, this.get cookie.name = some q → that.cookie q = none) := by
  obtain ⟨cookie, hcookie, h⟩ := returns_bind.mp h
  refine ⟨cookie, returns_ofOption.mp hcookie, ?_⟩
  dsimp only at h
  cases hget : this.get cookie.name with
  | none =>
      rw [hget] at h
      cases returns_pure.mp h
      exact ⟨get_insert this pointer cookie.name, fun q _ => rfl,
        fun q hq => by cases hq⟩
  | some old =>
      rw [hget] at h
      obtain ⟨freed, hfree, h⟩ := returns_bind.mp h
      cases returns_pure.mp h
      refine ⟨?_, ?_, ?_⟩
      · intro name
        rw [freeCookie_eq hfree]
        exact get_insert this pointer cookie.name name
      · intro q hq
        have hne : q ≠ old := fun heq => hq (congrArg some heq.symm)
        have hsame := freeCookie_cookie hfree hne
        exact hsame
      · intro q hq
        cases hq
        exact freeCookie_freed hfree

theorem Live.set (hv : this.Valid) (h : this.Live) (hnew : ¬ this.Has pointer)
    (hset : Returns (this.set pointer) (code, that)) : that.Live := by
  obtain ⟨cookie, hcookie, hget, hsame, -⟩ := set_returns hset
  intro name q hq
  rw [hget] at hq
  split at hq
  next =>
    cases hq
    rw [hsame pointer fun heq => hnew ⟨_, heq⟩, hcookie]
    rfl
  next hne =>
    have hlive := h name q hq
    rw [hsame q, hlive]
    -- a live cookie stands under its own name only
    intro hold
    obtain ⟨other, hother⟩ := Option.isSome_iff_exists.mp hlive
    exact hne ((hv.named _ q other hold hother).symm.trans
      (hv.named name q other hq hother))

/-- Setting a cookie that is in the jar frees it, and the jar still has it. -/
theorem set_stored (hv : this.Valid) (hhas : this.Has pointer)
    (hset : Returns (this.set pointer) (code, that)) :
    that.Has pointer ∧ that.cookie pointer = none := by
  obtain ⟨cookie, hcookie, hget, -, hfreed⟩ := set_returns hset
  obtain ⟨name, hname⟩ := hhas
  have heq := hv.named name pointer cookie hname hcookie
  subst heq
  refine ⟨⟨cookie.name, ?_⟩, hfreed pointer hname⟩
  rw [hget, if_pos rfl]

theorem not_setKeeps (hv : this.Valid) (hhas : this.Has pointer) :
    ¬ this.SetKeeps pointer := by
  rintro ⟨code, that, cookie, hset, -, -, hcookie⟩
  rw [(set_stored hv hhas hset).2] at hcookie
  cases hcookie

theorem Live.withNew (hv : this.Valid) (h : this.Live) (cookie : Cookie) :
    (this.withNew cookie).Live := by
  intro name q hget
  rw [get_withNew] at hget
  rw [cookie_withNew]
  split at hget
  next =>
    cases hget
    rw [if_pos rfl]
    rfl
  next =>
    rw [if_neg (Nat.ne_of_lt (hv.bounded name q hget))]
    exact h name q hget

end CookieJar

theorem newCookies_live {stale : Nat → Bool} {httpCookie : Option Bytes}
    {jar : CookieJar} (h : Returns (newCookies stale httpCookie) jar) :
    jar.Valid ∧ jar.Live := by
  refine newCookies_invariant (I := fun jar => jar.Valid ∧ jar.Live) ?_ ?_ h
  · refine ⟨CookieJar.valid_empty, ?_⟩
    intro name q hget
    cases hget
  · rintro this that name value ⟨hv, hlive⟩ hadd
    obtain ⟨cookie, -, -, rfl⟩ := CookieJar.add_returns hadd
    exact ⟨hv.withNew cookie, hlive.withNew hv cookie⟩

theorem Cookie.call_name {this next : Cookie} {call : CookieCall}
    {report : CookieReport} (h : Returns (this.call call) (report, next)) :
    next.name = this.name := by
  cases call with
  | value =>
      obtain ⟨value, -, h⟩ := returns_bind.mp h
      cases returns_pure.mp h
      rfl
  | setValue allocated value =>
      obtain ⟨⟨result, set⟩, hset, h⟩ := returns_bind.mp h
      cases returns_pure.mp h
      exact CookieJar.setValue_name hset
  | setExpires expires =>
      rw [← (Prod.mk.inj (returns_pure.mp h)).2]
      exact CookieJar.setExpires_name this expires
  | setMaxAge maxAge =>
      rw [← (Prod.mk.inj (returns_pure.mp h)).2]
      exact CookieJar.setMaxAge_name this maxAge
  | setDomain allocated domain =>
      cases returns_pure.mp h
      cases allocated <;> rfl
  | setPath allocated path =>
      cases returns_pure.mp h
      cases allocated <;> rfl
  | _ =>
      cases returns_pure.mp h
      rfl

/-- What a call does to the response. -/
inductive ResponseStep (stale : Nat → Bool) :
    ResponseCall → Response → Response → Prop
  | same (c : ResponseCall) (this : Response) : ResponseStep stale c this this
  | fields (c : ResponseCall) (this : Response) (status : Int)
      (contentType : Option Bytes) (headers : StringHash) :
      ResponseStep stale c this
        { this with
          status := status, contentType := contentType, headers := headers }
  | redirect (pathAllocated fragmentAllocated : Bool)
      (path fragment : Option Bytes) (this : Response) :
      ResponseStep stale
        (.redirect pathAllocated fragmentAllocated path fragment) this
        (this.redirect pathAllocated fragmentAllocated path fragment).2
  | put (text : Bytes) (this : Response) :
      ResponseStep stale (.putBody text) this (this.putBody text)
  | flush {visits : Dict Bytes Nat} {this : Response} {lines : Bytes}
      {cookies : CookieJar} :
      Returns (flushVisits visits this.cookies) (lines, cookies) →
        ResponseStep stale .flush this { this with cookies := cookies }
  | newCookie (name : Bytes) (this : Response) :
      ResponseStep stale (.newCookie name) this
        { this with cookies := (this.cookies.allocate stale name).2 }
  | cookie {pointer : Nat} {call : CookieCall} {this : Response}
      {old cookie : Cookie} :
      this.cookies.cookie pointer = some old → cookie.name = old.name →
        ResponseStep stale (.cookie pointer call) this
          { this with cookies := this.cookies.store pointer cookie }
  | setCookie {pointer : Nat} {code : Int} {this : Response}
      {cookies : CookieJar} :
      Returns (this.cookies.set pointer) (code, cookies) →
        ResponseStep stale (.setCookie pointer) this
          { this with cookies := cookies }
  | freeCookie {pointer : Nat} {this : Response} {cookies : CookieJar} :
      Returns (this.cookies.freeCookie pointer) cookies →
        ResponseStep stale (.freeCookie pointer) this
          { this with cookies := cookies }

namespace ResponseStep

variable {stale : Nat → Bool} {c : ResponseCall} {this that : Response}

theorem valid (h : ResponseStep stale c this that) (hv : this.Valid) :
    that.Valid := by
  cases h with
  | same => exact hv
  | fields => exact ⟨hv.cookies, hv.redirect⟩
  | redirect => exact hv.redirect_step _ _ _ _
  | put => exact ⟨hv.cookies, hv.redirect⟩
  | flush hflush =>
      exact ⟨(CookieJar.SameNames.flushVisits hflush).valid hv.cookies,
        hv.redirect⟩
  | newCookie name => exact ⟨hv.cookies.allocate name, hv.redirect⟩
  | cookie hold hname => exact ⟨hv.cookies.store hold hname, hv.redirect⟩
  | setCookie hset => exact ⟨hv.cookies.set hset, hv.redirect⟩
  | freeCookie hfree => exact ⟨hv.cookies.freeCookie hfree, hv.redirect⟩

/-- A call that frees a cookie of the jar: the cookie itself is freed, or it is
set while the jar has it. -/
def Frees (this : CookieJar) : ResponseCall → Prop
  | .freeCookie _ => True
  | .setCookie pointer => this.Has pointer
  | _ => False

theorem live (h : ResponseStep stale c this that) (hv : this.cookies.Valid)
    (hlive : this.cookies.Live) (hc : ¬ Frees this.cookies c) :
    that.cookies.Live := by
  cases h with
  | same => exact hlive
  | fields => exact hlive
  | redirect pathAllocated fragmentAllocated path fragment =>
      rcases this.redirect_cases pathAllocated fragmentAllocated path
        fragment with heq | ⟨-, target, heq⟩
      · rw [heq]
        exact hlive
      · rw [heq]
        exact hlive
  | put => exact hlive
  | flush hflush => exact (CookieJar.SameNames.flushVisits hflush).live hlive
  | newCookie name => exact hlive.allocate hv name
  | cookie hold hname => exact (CookieJar.SameNames.store hold hname).live hlive
  | setCookie hset => exact hlive.set hv hc hset
  | freeCookie hfree => exact absurd trivial hc

end ResponseStep

namespace Handling

variable {τ : Type} {arith : IntArith} {fns : StreamFns τ}
  {order : VisitOrder} {stale : Nat → Bool} {st next : Handling τ}
  {report : ResponseReport} {c : ResponseCall}

def jar (st : Handling τ) : CookieJar := st.response.cookies

theorem call_response
    (h : Returns (st.call arith fns order stale c) (report, next)) :
    ResponseStep stale c st.response next.response := by
  cases c with
  | redirect pathAllocated fragmentAllocated path fragment =>
      rw [← (Prod.mk.inj (returns_pure.mp h)).2]
      exact .redirect _ _ _ _ _
  | setStatus status =>
      cases returns_pure.mp h
      exact .fields _ _ _ _ _
  | setContentType allocated contentType =>
      rw [← (Prod.mk.inj (returns_pure.mp h)).2]
      cases contentType with
      | none => exact .same _ _
      | some contentType => cases allocated <;> exact .fields _ _ _ _ _
  | setHeader allocated field value =>
      obtain ⟨result, hset, h⟩ := returns_bind.mp h
      rw [← (Prod.mk.inj (returns_pure.mp h)).2]
      obtain ⟨headers, heq⟩ := Response.setHeader_frame hset
      show ResponseStep stale _ st.response result.2
      rw [heq]
      exact .fields _ _ _ _ _
  | putBody text =>
      cases returns_pure.mp h
      exact .put _ _
  | flush =>
      obtain ⟨⟨text, response⟩, hflush, h⟩ := returns_bind.mp h
      cases returns_pure.mp h
      obtain ⟨location, -, hflush⟩ := returns_bind.mp hflush
      obtain ⟨⟨lines, cookies⟩, hcookies, hflush⟩ := returns_bind.mp hflush
      obtain ⟨body, -, hflush⟩ := returns_bind.mp hflush
      cases returns_pure.mp hflush
      exact .flush hcookies
  | metaVariables call =>
      obtain ⟨⟨answer, metaState⟩, -, h⟩ := returns_bind.mp h
      cases returns_pure.mp h
      exact .same _ _
  | setCookie pointer =>
      obtain ⟨⟨result, cookies⟩, hset, h⟩ := returns_bind.mp h
      cases returns_pure.mp h
      exact .setCookie hset
  | newCookie name =>
      cases returns_pure.mp h
      exact .newCookie _ _
  | cookie pointer call =>
      obtain ⟨cookie, hcookie, h⟩ := returns_bind.mp h
      obtain ⟨⟨answer, changed⟩, hcall, h⟩ := returns_bind.mp h
      cases returns_pure.mp h
      exact .cookie (returns_ofOption.mp hcookie) (Cookie.call_name hcall)
  | freeCookie pointer =>
      obtain ⟨⟨freed, cookies⟩, hfree, h⟩ := returns_bind.mp h
      cases returns_pure.mp h
      exact .freeCookie (CookieJar.freeCookie_of_free hfree)
  | _ =>
      cases returns_pure.mp h
      exact .same _ _

/-- On the way of a response whatever is called, it stays valid. -/
theorem leadsTo_valid {calls rest : List ResponseCall} {first : Handling τ}
    (h : LeadsTo (call arith fns order stale) calls first rest st)
    (hv : first.response.Valid) : st.response.Valid :=
  h.invariant (I := fun st => st.response.Valid) (P := fun _ _ => True)
    (fun hv _ hcall => (call_response hcall).valid hv) hv fun _ _ _ _ => trivial

end Handling

theorem newHandling_live {τ : Type} {heap : HeapContents τ} {env : Env}
    {input : Option (InputStream τ)} {fd : Int} {st : Handling τ}
    (h : Returns (newHandling heap env input fd) st) :
    st.response.Valid ∧ st.jar.Live := by
  obtain ⟨response, hresponse, h⟩ := returns_bind.mp h
  cases returns_pure.mp h
  have hv := Response.newCadCgiResponse_valid hresponse
  obtain ⟨cookies, hcookies, hresponse⟩ := returns_bind.mp hresponse
  cases returns_pure.mp hresponse
  exact ⟨hv, (newCookies_live hcookies).2⟩

open Handling in
/-- In every course of calls that free no cookie by themselves, the jar holds
live cookies only and a cookie that is set again stays in it, alive and
unchanged, exactly when no cookie is set again. -/
theorem jar_live_iff {τ : Type} {arith : IntArith} {fns : StreamFns τ}
    {order : VisitOrder} {heap : HeapContents τ} {env : Env}
    {input : Option (InputStream τ)} {fd : Int} {first : Handling τ}
    (hnew : Returns (newHandling heap env input fd) first)
    {calls : List ResponseCall}
    (hcalls : ∀ pointer, ResponseCall.freeCookie pointer ∉ calls) :
    (∀ rest st, LeadsTo (call arith fns order heap.cookies) calls first rest st →
        st.jar.Live ∧ ∀ pointer later, rest = .setCookie pointer :: later →
          st.jar.Has pointer → st.jar.SetKeeps pointer) ↔
      ∀ pointer later st,
        LeadsTo (call arith fns order heap.cookies) calls first
          (.setCookie pointer :: later) st →
        ¬ st.jar.Has pointer := by
  have hfirst := newHandling_live hnew
  constructor
  · intro hkept pointer later st hleads hhas
    have hkeeps := (hkept _ st hleads).2 pointer later rfl hhas
    have hv := (leadsTo_valid hleads hfirst.1).cookies
    exact CookieJar.not_setKeeps hv hhas hkeeps
  · intro hnone rest st hleads
    have hboth := hleads.invariant
      (I := fun st => st.response.Valid ∧ st.jar.Live)
      (P := fun st c => ¬ ResponseStep.Frees st.jar c) ?_ hfirst ?_
    · refine ⟨hboth.2, ?_⟩
      rintro pointer later rfl hhas
      exact absurd hhas (hnone pointer later st hleads)
    · rintro s c r t ⟨hv, hlive⟩ hc hcall
      have hstep := call_response hcall
      exact ⟨hstep.valid hv, hstep.live hv.cookies hlive hc⟩
    · intro c later t ht hfrees
      cases c with
      | setCookie pointer => exact hnone pointer later t ht hfrees
      | freeCookie pointer =>
          exact hcalls pointer (ht.rest_subset List.mem_cons_self)
      | _ => exact hfrees

/-- `Cookie: a=1`, and the cookie is replaced by a new one. -/
theorem jar_live_replaced :
    ∃ first, Returns (newHandling (HeapContents.zero StringStream)
        (fun name => if name = "HTTP_COOKIE" then some [97, 61, 49] else none)
        none 1) first ∧
      ∀ rest st, LeadsTo (Handling.call intChecked stringFns .entries
          (HeapContents.zero StringStream).cookies)
          [.getCookie [97], .newCookie [97], .setCookie 1] first rest st →
        st.jar.Live ∧ ∀ pointer later, rest = .setCookie pointer :: later →
          st.jar.Has pointer → st.jar.SetKeeps pointer := by
  refine ⟨_, ⟨9, rfl⟩, ?_⟩
  refine (jar_live_iff (show Returns (newHandling (HeapContents.zero StringStream)
    (fun name => if name = "HTTP_COOKIE" then some [97, 61, 49] else none)
    none 1) _ from ⟨9, rfl⟩) ?_).mpr ?_
  · intro pointer hmem
    simp at hmem
  · intro pointer later st hleads
    cases hleads with
    | call hget hleads =>
      cases hget.unique ⟨0, rfl⟩
      cases hleads with
      | call hnew hleads =>
        cases hnew.unique ⟨0, rfl⟩
        cases hleads with
        | here =>
          -- the jar still has the old cookie under the only name
          rintro ⟨name, hname⟩
          change (if stringsEqual [97] name then some 0 else none) = some 1
            at hname
          split at hname
          next => cases hname
          next => cases hname
        | call hset hleads => cases hleads

/-- `Cookie: a=1`, and the cookie is found, changed and set. -/
theorem jar_not_live :
    ∃ first st, Returns (newHandling (HeapContents.zero StringStream)
        (fun name => if name = "HTTP_COOKIE" then some [97, 61, 49] else none)
        none 1) first ∧
      LeadsTo (Handling.call intChecked stringFns .entries (fun _ => false))
        [.getCookie [97], .cookie 0 (.setValue true [50]), .setCookie 0]
        first [] st ∧
      st.jar.get [97] = some 0 ∧ st.jar.cookie 0 = none ∧ ¬ st.jar.Live := by
  refine ⟨_, _, ⟨9, rfl⟩, .call ⟨0, rfl⟩ (.call ⟨0, rfl⟩ (.call ⟨0, rfl⟩
    (.here _ _))), rfl, rfl, ?_⟩
  intro hlive
  cases hlive [97] 0 rfl

end Libcad
