/-
Redirections and bodies: which of them a flush writes, after the calls of a
handler in any order.
-/
import Libcad.CgiJar

namespace Libcad

open Proc

namespace CookieJar

variable {stale : Nat → Bool} {this that : CookieJar}

/-- No cookie was changed since the header was parsed. -/
def Unchanged (this : CookieJar) : Prop :=
  ∀ pointer cookie, this.cookie pointer = some cookie → cookie.changed = false

theorem Unchanged.withNew (h : this.Unchanged) {new : Cookie}
    (hnew : new.changed = false) : (this.withNew new).Unchanged := by
  intro pointer cookie hcookie
  rw [cookie_withNew] at hcookie
  split at hcookie
  next =>
    cases hcookie
    exact hnew
  next => exact h pointer cookie hcookie

theorem Unchanged.flushVisits {visits : Dict Bytes Nat} :
    ∀ {this : CookieJar} {text : Bytes}, this.Unchanged →
      Returns (flushVisits visits this) (text, that) → that.Unchanged := by
  induction visits with
  | nil =>
      intro this text hthis h
      cases returns_pure.mp h
      exact hthis
  | cons visit rest ih =>
      intro this text hthis h
      obtain ⟨cookie, hcookie, h⟩ := returns_bind.mp h
      obtain ⟨⟨line, flushed⟩, hflush, h⟩ := returns_bind.mp h
      obtain ⟨⟨lines, last⟩, hrest, h⟩ := returns_bind.mp h
      cases returns_pure.mp h
      have heq := (flushCookie_returns_iff.mp hflush).2
      refine ih ?_ hrest
      intro q other hother
      rw [cookie_store this (cookie_lt (returns_ofOption.mp hcookie))] at hother
      split at hother
      next =>
        cases hother
        rw [(Prod.mk.inj heq).2]
      next => exact hthis q other hother

/-- Live cookies that are not changed can be flushed. -/
theorem Unchanged.ready (h : this.Unchanged) (hv : this.Valid)
    (hlive : this.Live) : this.Ready this.jar := by
  intro visit hvisit
  have hget : this.get visit.1 = some visit.2 :=
    Dict.get_of_mem stringsEqual_equiv hv.distinct hvisit
      (stringsEqual_equiv.refl _)
  obtain ⟨cookie, hcookie⟩ :=
    Option.isSome_iff_exists.mp (hlive visit.1 visit.2 hget)
  refine ⟨cookie, hcookie, fun hchanged => ?_⟩
  rw [h visit.2 cookie hcookie] at hchanged
  cases hchanged

theorem newCookies_unchanged {httpCookie : Option Bytes}
    (h : Returns (newCookies stale httpCookie) this) : this.Unchanged := by
  refine newCookies_invariant ?_ ?_ h
  · intro pointer cookie hcookie
    cases hcookie
  · intro jar that name value hjar hadd
    obtain ⟨cookie, -, hcookie, rfl⟩ := add_returns hadd
    exact hjar.withNew hcookie

end CookieJar

namespace Response

variable {stale : Nat → Bool} {order : VisitOrder} {this that : Response}
  {c : ResponseCall}

theorem bodyChars_eq_nil_iff (body : Bytes) :
    bodyChars 0 body = [] ↔ body = [] := by
  cases body with
  | nil => exact iff_of_true rfl rfl
  | cons c rest =>
      refine iff_of_false ?_ (List.cons_ne_nil c rest)
      rw [bodyChars, bodyChar]
      split
      next => exact List.cons_ne_nil _ _
      next =>
        split
        next => exact List.cons_ne_nil _ _
        next => exact List.cons_ne_nil _ _

/-- What the body stream has been given, as a string. -/
def bodyText (this : Response) : Bytes := cString (this.body.getD [])

/-- What a flush writes does not contain both a `Location` line and a body
that is not empty. -/
def Excludes (order : VisitOrder) (this : Response) : Prop :=
  ∀ text after body, Returns (this.flush order) (text, after) →
    text = unlines (this.headLines order) ++ crlf ++ body →
      this.locationLines = [] ∨ body = []

/-- The response is not a redirection or has nothing in its body. -/
def Exclusive (this : Response) : Prop :=
  this.redirectPath = none ∨ this.bodyText = []

theorem Exclusive.excludes (h : this.Exclusive) (hv : this.Valid) :
    this.Excludes order := by
  intro text after body hflush htext
  obtain ⟨written, hwritten, -, hflushed⟩ :=
    (hv.flush_returns_iff order).mp ⟨after, hflush⟩
  rcases h with hpath | hbody
  · refine Or.inl ?_
    rw [locationLines, hpath]
  · refine Or.inr ?_
    rw [bodyText, hwritten] at hbody
    rw [htext, show cString written = [] from hbody] at hflushed
    exact List.append_cancel_left hflushed

/-- Where the cookies can be flushed and there is a body, a flush shows both. -/
theorem Excludes.exclusive (h : this.Excludes order) (hv : this.Valid)
    (hready : this.cookies.Ready this.cookies.jar)
    (hbody : this.body.isSome) : this.Exclusive := by
  obtain ⟨body, hbody⟩ := Option.isSome_iff_exists.mp hbody
  obtain ⟨after, hflush⟩ := (hv.flush_returns_iff order).mpr
    ⟨body, hbody, hready, rfl⟩
  rcases h _ after _ hflush rfl with hlines | hempty
  · refine Or.inl ?_
    have hredirect := hv.redirect
    rw [locationLines] at hlines
    cases hpath : this.redirectPath with
    | none => rfl
    | some path =>
        cases hfragment : this.redirectFragment with
        | none => simp [hpath, hfragment] at hredirect
        | some fragment => simp [hpath, hfragment] at hlines
  · refine Or.inr ?_
    rw [bodyText, hbody]
    exact (bodyChars_eq_nil_iff _).mp hempty

/-- A write that gives a redirection a body. -/
def Mixes (this : Response) : ResponseCall → Prop
  | .putBody text =>
      this.redirectPath ≠ none ∧ cString (this.body.getD [] ++ text) ≠ []
  | _ => False

/-- A call that makes, sets, changes or frees a cookie. -/
def ChangesCookies : ResponseCall → Prop
  | .newCookie _ | .setCookie _ | .cookie _ _ | .freeCookie _ => True
  | _ => False

end Response

namespace ResponseStep

variable {stale : Nat → Bool} {c : ResponseCall} {this that : Response}

/-- The calls other than a write keep the two apart: a redirection is refused
once there is a body. -/
theorem exclusive (h : ResponseStep stale c this that)
    (hthis : this.Exclusive) (hc : ¬ this.Mixes c) : that.Exclusive := by
  cases h with
  | redirect pathAllocated fragmentAllocated path fragment =>
      rcases this.redirect_cases pathAllocated fragmentAllocated path
        fragment with heq | ⟨hbody, target, heq⟩
      · rw [heq]
        exact hthis
      · rw [heq]
        refine Or.inr ?_
        rw [Response.bodyText]
        dsimp only
        rw [hbody]
        rfl
  | put text =>
      by_cases hpath : this.redirectPath = none
      · exact Or.inl hpath
      · exact Or.inr (not_not.mp fun hbody => hc ⟨hpath, hbody⟩)
  | _ => exact hthis

theorem unchanged (h : ResponseStep stale c this that)
    (hthis : this.cookies.Unchanged) (hc : ¬ Response.ChangesCookies c) :
    that.cookies.Unchanged := by
  cases h with
  | redirect pathAllocated fragmentAllocated path fragment =>
      rcases this.redirect_cases pathAllocated fragmentAllocated path
        fragment with heq | ⟨-, target, heq⟩
      · rw [heq]
        exact hthis
      · rw [heq]
        exact hthis
  | flush hflush => exact CookieJar.Unchanged.flushVisits hthis hflush
  | newCookie => exact absurd trivial hc
  | cookie => exact absurd trivial hc
  | setCookie => exact absurd trivial hc
  | freeCookie => exact absurd trivial hc
  | _ => exact hthis

end ResponseStep

namespace Handling

variable {τ : Type} {arith : IntArith} {fns : StreamFns τ}
  {order : VisitOrder} {heap : HeapContents τ} {env : Env}
  {input : Option (InputStream τ)} {fd : Int} {first st : Handling τ}
  {calls rest : List ResponseCall}

/-- Where no cookie was changed, they can all be flushed. -/
theorem leadsTo_ready (hnew : Returns (newHandling heap env input fd) first)
    (hcalls : ∀ c ∈ calls, ¬ Response.ChangesCookies c)
    (h : LeadsTo (call arith fns order heap.cookies) calls first rest st) :
    st.jar.Ready st.jar.jar := by
  obtain ⟨hv, hlive⟩ := newHandling_live hnew
  have hunchanged : first.jar.Unchanged := by
    obtain ⟨response, hresponse, hnew⟩ := returns_bind.mp hnew
    cases returns_pure.mp hnew
    obtain ⟨cookies, hcookies, hresponse⟩ := returns_bind.mp hresponse
    cases returns_pure.mp hresponse
    exact CookieJar.newCookies_unchanged hcookies
  have hall := h.invariant
    (I := fun st => st.response.Valid ∧ st.jar.Live ∧ st.jar.Unchanged)
    (P := fun _ c => ¬ Response.ChangesCookies c) ?_ ⟨hv, hlive, hunchanged⟩ ?_
  · exact hall.2.2.ready hall.1.cookies hall.2.1
  · rintro s c r t ⟨hs, hlive, hunchanged⟩ hc hcall
    have hstep := call_response hcall
    refine ⟨hstep.valid hs, hstep.live hs.cookies hlive ?_,
      hstep.unchanged hunchanged hc⟩
    intro hfrees
    cases c with
    | setCookie pointer => exact hc trivial
    | freeCookie pointer => exact hc trivial
    | _ => exact hfrees
  · intro c later t ht
    exact hcalls c (ht.rest_subset List.mem_cons_self)

end Handling

theorem newHandling_exclusive {τ : Type} {heap : HeapContents τ} {env : Env}
    {input : Option (InputStream τ)} {fd : Int} {st : Handling τ}
    (h : Returns (newHandling heap env input fd) st) :
    st.response.Exclusive := by
  obtain ⟨response, hresponse, h⟩ := returns_bind.mp h
  cases returns_pure.mp h
  obtain ⟨cookies, -, hresponse⟩ := returns_bind.mp hresponse
  cases returns_pure.mp hresponse
  exact Or.inl rfl

open Handling in
/-- In a course of calls in which no write gives a redirection a body, no flush
shows both; and a handler that leaves the cookies alone has to keep to that. -/
theorem redirect_excludes_body_iff {τ : Type} {arith : IntArith}
    {fns : StreamFns τ} {order : VisitOrder} {heap : HeapContents τ}
    {env : Env} {input : Option (InputStream τ)} {fd : Int}
    {first : Handling τ} (hnew : Returns (newHandling heap env input fd) first)
    (calls : List ResponseCall) :
    ((∀ c rest st, LeadsTo (call arith fns order heap.cookies) calls first
        (c :: rest) st → ¬ st.response.Mixes c) →
      ∀ rest st, LeadsTo (call arith fns order heap.cookies) calls first rest st →
        st.response.Excludes order) ∧
    ((∀ c ∈ calls, ¬ Response.ChangesCookies c) →
      (∀ rest st, LeadsTo (call arith fns order heap.cookies) calls first rest st →
        st.response.Excludes order) →
      ∀ c rest st, LeadsTo (call arith fns order heap.cookies) calls first
        (c :: rest) st → ¬ st.response.Mixes c) := by
  have hv := (newHandling_live hnew).1
  constructor
  · intro hnone rest st hleads
    have hexclusive := hleads.invariant (I := fun st => st.response.Exclusive)
      (P := fun st c => ¬ st.response.Mixes c) ?_ (newHandling_exclusive hnew) ?_
    · exact hexclusive.excludes (leadsTo_valid hleads hv)
    · intro s c r t hs hc hcall
      exact (call_response hcall).exclusive hs hc
    · intro c later t ht
      exact hnone c later t ht
  · intro hcalls hexcludes c rest st hleads hmixes
    cases c with
    | putBody text =>
        -- after the write a flush shows the redirection and the body
        have hput := hleads.snoc (returns_pure_self _)
        have hexclusive := (hexcludes rest _ hput).exclusive
          (leadsTo_valid hput hv) (leadsTo_ready hnew hcalls hput) rfl
        rcases hexclusive with hpath | hbody
        · exact hmixes.1 hpath
        · exact hmixes.2 hbody
    | _ => exact hmixes

/-- A redirection with an empty body. -/
theorem redirect_excludes_body_empty :
    ∃ first, Returns (newHandling (HeapContents.zero StringStream)
        (fun _ => none) none 1) first ∧
      ∀ rest st, LeadsTo (Handling.call intChecked stringFns .entries
          (HeapContents.zero StringStream).cookies)
          [.redirect true true (some (chars "/a")) (some []), .putBody []]
          first rest st → st.response.Excludes .entries := by
  refine ⟨_, ⟨0, rfl⟩, ?_⟩
  refine (redirect_excludes_body_iff (show Returns (newHandling
    (HeapContents.zero StringStream) (fun _ => none) none 1) _
    from ⟨0, rfl⟩) _).1 ?_
  intro c rest st hleads hmixes
  cases hleads with
  | here => exact hmixes
  | call hredirect hleads =>
      cases hredirect.unique ⟨0, rfl⟩
      cases hleads with
      | here => exact hmixes.2 rfl
      | call hput hleads => cases hleads

/-- A redirection, and then a write. -/
theorem redirect_not_excludes :
    ∃ first st text after, Returns (newHandling (HeapContents.zero StringStream)
        (fun _ => none) none 1) first ∧
      LeadsTo (Handling.call intChecked stringFns .entries (fun _ => false))
        [.redirect true true (some (chars "/a")) (some []),
          .putBody (chars "x")] first [] st ∧
      Returns (st.response.flush .entries) (text, after) ∧
      text = chars "Content-Type: text/plain\r\nStatus: 200\r\n" ++
        chars "Location: /a\r\n\r\nx" ∧
      ¬ st.response.Excludes .entries := by
  refine ⟨_, _, _, _, ⟨0, rfl⟩, .call ⟨0, rfl⟩ (.call ⟨0, rfl⟩ (.here _ _)),
    ⟨0, rfl⟩, by decide, ?_⟩
  intro hexcludes
  rcases hexcludes _ _ (chars "x") ⟨0, rfl⟩ (by decide) with hlines | hbody
  · cases hlines
  · cases hbody

end Libcad
