/-
What is flushed after any course of operations on a jar and its cookies: the
cookies on which a setter succeeded since they were last flushed.
-/
import Libcad.CgiHeaders
import Libcad.CgiJar
import Libcad.CgiSplit

namespace Libcad

open Proc

/-- The operations on a jar and on the cookies of a handler. -/
inductive CookieOp
  | newCookie (name : Bytes)
  | cookie (pointer : Nat) (call : CookieCall)
  | free (pointer : Nat)
  | get (name : Bytes)
  | set (pointer : Nat)
  | iterate
  | flush
deriving DecidableEq

/-- A jar, with what happened to its cookies: `touched` are those on which a
setter succeeded since they were made or last flushed, `put` those that were put
into the jar. -/
structure JarState where
  jar : CookieJar
  touched : Nat → Bool
  put : Nat → Bool

def CookieCall.sets : CookieCall → Bool
  | .setValue _ _ | .setExpires _ | .setMaxAge _ | .setDomain _ _
  | .setPath _ _ | .setFlag _ => true
  | _ => false

namespace JarState

/-- The jar of a request; the parser has put its cookies into it. -/
def start (jar : CookieJar) : JarState where
  jar := jar
  touched _ := false
  put pointer := pointer < jar.objects.length

def step (order : VisitOrder) (stale : Nat → Bool) (st : JarState) :
    CookieOp → Proc (ResponseReport × JarState)
  | .newCookie name =>
      let (pointer, jar) := st.jar.allocate stale name
      pure (.pointer (some pointer), {
        jar := jar
        touched := Function.update st.touched pointer false
        put := Function.update st.put pointer false })
  | .cookie pointer call => do
      let cookie ← Proc.ofOption (st.jar.cookie pointer)
      let (report, cookie) ← cookie.call call
      let touched :=
        if call.sets = true ∧ report = .number 0 then
          Function.update st.touched pointer true
        else st.touched
      pure (.cookie report,
        { st with jar := st.jar.store pointer cookie, touched := touched })
  | .free pointer => do
      let (freed, jar) ← st.jar.free pointer
      pure (.freed freed, { st with jar := jar })
  | .get name => pure (.pointer (st.jar.get name), st)
  | .set pointer => do
      let (result, jar) ← st.jar.set pointer
      pure (.number result,
        { st with jar := jar, put := Function.update st.put pointer true })
  | .iterate =>
      pure (.pointers ((order.visits st.jar.jar).map Prod.snd), st)
  | .flush => do
      let (text, jar) ← flushCookies order st.jar
      let visited := (order.visits st.jar.jar).map Prod.snd
      pure (.output text, { st with
        jar := jar
        touched := fun pointer =>
          if pointer ∈ visited then false else st.touched pointer })

/-- A cookie is put into the jar only once, and belongs to it from then on. -/
def Keeps (st : JarState) : CookieOp → Prop
  | .set pointer => st.put pointer = false
  | .free pointer => ¬ st.jar.Has pointer
  | _ => True

/-- What the cookies keep. -/
structure Exact (st : JarState) : Prop where
  valid : st.jar.Valid
  live : st.jar.Live
  put : ∀ pointer, st.jar.Has pointer → st.put pointer = true
  marks : ∀ pointer cookie, st.jar.cookie pointer = some cookie →
    cookie.changed = st.touched pointer
  exclusive : ∀ pointer cookie, st.jar.cookie pointer = some cookie →
    cookie.expires = 0 ∨ cookie.maxAge = 0

end JarState

/-- A call marks the cookie if it sets a field, and the two dates go on
excluding each other. -/
theorem Cookie.call_marks {this next : Cookie} {call : CookieCall}
    {report : CookieReport} (h : Returns (this.call call) (report, next)) :
    (next.changed =
      if call.sets = true ∧ report = .number 0 then true else this.changed) ∧
    (this.expires = 0 ∨ this.maxAge = 0 →
      next.expires = 0 ∨ next.maxAge = 0) := by
  cases call with
  | setValue allocated value =>
      obtain ⟨⟨result, set⟩, hset, h⟩ := returns_bind.mp h
      cases returns_pure.mp h
      obtain ⟨_, -, hset⟩ := returns_bind.mp hset
      cases allocated with
      | true =>
          cases returns_pure.mp hset
          simp [CookieCall.sets]
      | false =>
          cases returns_pure.mp hset
          simp [CookieCall.sets]
  | value =>
      obtain ⟨value, -, h⟩ := returns_bind.mp h
      cases returns_pure.mp h
      simp [CookieCall.sets]
  | setExpires time =>
      by_cases hage : this.maxAge = 0
      · simp only [Cookie.call, setExpires, hage, if_true] at h
        cases returns_pure.mp h
        simp [CookieCall.sets, hage]
      · simp only [Cookie.call, setExpires, hage, if_false] at h
        cases returns_pure.mp h
        simp [CookieCall.sets]
  | setMaxAge age =>
      by_cases hexpires : this.expires = 0
      · simp only [Cookie.call, setMaxAge, hexpires, if_true] at h
        cases returns_pure.mp h
        simp [CookieCall.sets, hexpires]
      · simp only [Cookie.call, setMaxAge, hexpires, if_false] at h
        cases returns_pure.mp h
        simp [CookieCall.sets]
  | setDomain allocated text =>
      cases allocated with
      | true =>
          cases returns_pure.mp h
          simp [CookieCall.sets]
      | false =>
          cases returns_pure.mp h
          simp [CookieCall.sets]
  | setPath allocated text =>
      cases allocated with
      | true =>
          cases returns_pure.mp h
          simp [CookieCall.sets]
      | false =>
          cases returns_pure.mp h
          simp [CookieCall.sets]
  | _ =>
      cases returns_pure.mp h
      simp [CookieCall.sets]

def Cookie.unmarked (this : Cookie) : Cookie := { this with changed := false }

/-- A flush takes the marks of the cookies it visits, and changes nothing
else. -/
theorem flushVisits_after {visits : Dict Bytes Nat} :
    ∀ {this that : CookieJar} {text : Bytes},
      Returns (flushVisits visits this) (text, that) →
      that.jar = this.jar ∧ ∀ q, that.cookie q =
        if q ∈ visits.map Prod.snd then (this.cookie q).map Cookie.unmarked
        else this.cookie q := by
  induction visits with
  | nil =>
      intro this that text h
      cases returns_pure.mp h
      simp
  | cons visit rest ih =>
      intro this that text h
      obtain ⟨cookie, hcookie, h⟩ := returns_bind.mp h
      obtain ⟨⟨line, flushed⟩, hflush, h⟩ := returns_bind.mp h
      obtain ⟨⟨lines, last⟩, hrest, h⟩ := returns_bind.mp h
      cases returns_pure.mp h
      have hold := returns_ofOption.mp hcookie
      have hflushed : flushed = cookie.unmarked :=
        (Prod.mk.inj (flushCookie_returns_iff.mp hflush).2).2
      obtain ⟨hjar, hsame⟩ := ih hrest
      refine ⟨hjar, fun q => ?_⟩
      rw [hsame, CookieJar.cookie_store this (CookieJar.cookie_lt hold),
        hflushed]
      have hmem : q ∈ (visit :: rest).map Prod.snd ↔
          q = visit.2 ∨ q ∈ rest.map Prod.snd := List.mem_cons
      by_cases hq : q = visit.2
      · simp [hq, hold, Cookie.unmarked]
      · rw [or_iff_right hq] at hmem
        simp only [hmem, if_neg hq]

namespace JarState

variable {order : VisitOrder} {stale : Nat → Bool} {st next : JarState}
  {op : CookieOp} {report : ResponseReport}

theorem Exact.newCookie (h : st.Exact) (name : Bytes) :
    Exact {
      jar := (st.jar.allocate stale name).2
      touched := Function.update st.touched st.jar.objects.length false
      put := Function.update st.put st.jar.objects.length false } where
  valid := h.valid.allocate name
  live := h.live.allocate h.valid name
  put := by
    rintro pointer ⟨key, hget⟩
    have hlt := h.valid.bounded key pointer hget
    have hput := h.put pointer ⟨key, hget⟩
    simpa [Function.update_of_ne (Nat.ne_of_lt hlt)] using hput
  marks := by
    intro pointer cookie hcookie
    rw [CookieJar.cookie_allocate] at hcookie
    by_cases hp : pointer = st.jar.objects.length
    · rw [if_pos hp] at hcookie
      cases hcookie
      simp [hp, newCadCgiCookie]
    · rw [if_neg hp] at hcookie
      simpa [Function.update_of_ne hp] using h.marks pointer cookie hcookie
  exclusive := by
    intro pointer cookie hcookie
    rw [CookieJar.cookie_allocate] at hcookie
    split at hcookie
    next =>
      cases hcookie
      exact Or.inl rfl
    next => exact h.exclusive pointer cookie hcookie

theorem Exact.cookie (h : st.Exact) {pointer : Nat} {old new : Cookie}
    {call : CookieCall} {answer : CookieReport}
    (hold : st.jar.cookie pointer = some old)
    (hcall : Returns (old.call call) (answer, new)) :
    Exact { st with
      jar := st.jar.store pointer new
      touched :=
        if call.sets = true ∧ answer = .number 0 then
          Function.update st.touched pointer true
        else st.touched } := by
  have hnames := CookieJar.SameNames.store hold (Cookie.call_name hcall)
  obtain ⟨hchanged, hexclusive⟩ := Cookie.call_marks hcall
  have hstore := CookieJar.cookie_store st.jar (CookieJar.cookie_lt hold) new
  refine ⟨hnames.valid h.valid, hnames.live h.live, h.put, ?_, ?_⟩
  · intro q cookie hq
    rw [hstore] at hq
    by_cases heq : q = pointer
    · rw [if_pos heq] at hq
      cases hq
      rw [hchanged, h.marks pointer old hold]
      split
      next => simp [heq]
      next => simp [heq]
    · rw [if_neg heq] at hq
      rw [h.marks q cookie hq]
      split
      next => simp [heq]
      next => rfl
  · intro q cookie hq
    rw [hstore] at hq
    split at hq
    next =>
      cases hq
      exact hexclusive (h.exclusive pointer old hold)
    next => exact h.exclusive q cookie hq

theorem Exact.free (h : st.Exact) {pointer : Nat} {jar : CookieJar}
    (hnot : ¬ st.jar.Has pointer)
    (hfree : Returns (st.jar.freeCookie pointer) jar) :
    Exact { st with jar := jar } := by
  have hjar : jar.jar = st.jar.jar := by
    rw [CookieJar.freeCookie_eq hfree]
  have hcookie : ∀ q cookie, jar.cookie q = some cookie →
      st.jar.cookie q = some cookie := by
    intro q cookie hq
    by_cases heq : q = pointer
    · rw [heq, CookieJar.freeCookie_freed hfree] at hq
      cases hq
    · rwa [CookieJar.freeCookie_cookie hfree heq] at hq
  refine ⟨h.valid.freeCookie hfree, ?_, ?_, ?_, ?_⟩
  · intro name q hget
    rw [CookieJar.get, hjar] at hget
    have hne : q ≠ pointer := fun heq => hnot ⟨name, heq ▸ hget⟩
    rw [CookieJar.freeCookie_cookie hfree hne]
    exact h.live name q hget
  · rintro q ⟨name, hget⟩
    rw [CookieJar.get, hjar] at hget
    exact h.put q ⟨name, hget⟩
  · exact fun q cookie hq => h.marks q cookie (hcookie q cookie hq)
  · exact fun q cookie hq => h.exclusive q cookie (hcookie q cookie hq)

theorem Exact.set (h : st.Exact) {pointer : Nat} {code : Int}
    {jar : CookieJar} (hput : st.put pointer = false)
    (hset : Returns (st.jar.set pointer) (code, jar)) :
    Exact { st with
      jar := jar, put := Function.update st.put pointer true } := by
  have hnot : ¬ st.jar.Has pointer := by
    intro hhas
    rw [h.put pointer hhas] at hput
    cases hput
  obtain ⟨cookie, hcookie, hget, hsame, hfreed⟩ := CookieJar.set_returns hset
  have hold : ∀ q other, jar.cookie q = some other →
      st.jar.cookie q = some other := by
    intro q other hq
    by_cases heq : st.jar.get cookie.name = some q
    · rw [hfreed q heq] at hq
      cases hq
    · rwa [hsame q heq] at hq
  refine ⟨h.valid.set hset, h.live.set h.valid hnot hset, ?_, ?_, ?_⟩
  · rintro q ⟨name, hq⟩
    by_cases heq : q = pointer
    · simp [heq]
    · rw [hget] at hq
      split at hq
      next => exact absurd (Option.some.inj hq).symm heq
      next => simpa [heq] using h.put q ⟨name, hq⟩
  · exact fun q other hq => h.marks q other (hold q other hq)
  · exact fun q other hq => h.exclusive q other (hold q other hq)

theorem Exact.flush (h : st.Exact) {text : Bytes} {jar : CookieJar}
    (hflush : Returns (flushCookies order st.jar) (text, jar)) :
    Exact { st with
      jar := jar
      touched := fun pointer =>
        if pointer ∈ (order.visits st.jar.jar).map Prod.snd then false
        else st.touched pointer } := by
  obtain ⟨hjar, hafter⟩ := flushVisits_after hflush
  have hnames := CookieJar.SameNames.flushVisits hflush
  refine ⟨hnames.valid h.valid, hnames.live h.live, ?_, ?_, ?_⟩
  · rintro q ⟨name, hget⟩
    rw [CookieJar.get, hjar] at hget
    exact h.put q ⟨name, hget⟩
  · intro q cookie hq
    rw [hafter] at hq
    split at hq
    next hvisit =>
      obtain ⟨old, -, rfl⟩ := Option.map_eq_some_iff.mp hq
      simp [hvisit, Cookie.unmarked]
    next hvisit =>
      simpa [hvisit] using h.marks q cookie hq
  · intro q cookie hq
    rw [hafter] at hq
    split at hq
    next =>
      obtain ⟨old, hold, rfl⟩ := Option.map_eq_some_iff.mp hq
      exact h.exclusive q old hold
    next => exact h.exclusive q cookie hq

theorem Exact.step (h : st.Exact) (hop : st.Keeps op)
    (hrun : Returns (st.step order stale op) (report, next)) : next.Exact := by
  cases op with
  | newCookie name =>
      have hnext := (Prod.mk.inj (returns_pure.mp hrun)).2
      rw [← hnext]
      exact h.newCookie name
  | cookie pointer call =>
      obtain ⟨old, hcookie, hrun⟩ := returns_bind.mp hrun
      obtain ⟨⟨answer, new⟩, hcall, hrun⟩ := returns_bind.mp hrun
      rw [← (Prod.mk.inj (returns_pure.mp hrun)).2]
      exact h.cookie (returns_ofOption.mp hcookie) hcall
  | free pointer =>
      obtain ⟨⟨freed, jar⟩, hfree, hrun⟩ := returns_bind.mp hrun
      rw [← (Prod.mk.inj (returns_pure.mp hrun)).2]
      obtain ⟨cookie, -, hfree⟩ := returns_bind.mp hfree
      obtain ⟨blocks, -, hfree⟩ := returns_bind.mp hfree
      obtain ⟨freedJar, hjar, hfree⟩ := returns_bind.mp hfree
      rw [← (Prod.mk.inj (returns_pure.mp hfree)).2]
      exact h.free hop hjar
  | get name =>
      rw [← (Prod.mk.inj (returns_pure.mp hrun)).2]
      exact h
  | iterate =>
      rw [← (Prod.mk.inj (returns_pure.mp hrun)).2]
      exact h
  | set pointer =>
      obtain ⟨⟨result, jar⟩, hset, hrun⟩ := returns_bind.mp hrun
      rw [← (Prod.mk.inj (returns_pure.mp hrun)).2]
      exact h.set hop hset
  | flush =>
      obtain ⟨⟨text, jar⟩, hflush, hrun⟩ := returns_bind.mp hrun
      rw [← (Prod.mk.inj (returns_pure.mp hrun)).2]
      exact h.flush hflush

/-- The cookies of a request are neither changed nor dated. -/
theorem start_exact {httpCookie : Option Bytes} {jar : CookieJar}
    (h : Returns (newCookies stale httpCookie) jar) : (start jar).Exact := by
  obtain ⟨hvalid, hlive⟩ := newCookies_live h
  have hnew : ∀ pointer cookie, jar.cookie pointer = some cookie →
      cookie.changed = false ∧ cookie.expires = 0 := by
    refine newCookies_invariant (I := fun jar => ∀ pointer cookie,
      jar.cookie pointer = some cookie →
        cookie.changed = false ∧ cookie.expires = 0) ?_ ?_ h
    · intro pointer cookie hcookie
      cases hcookie
    · intro this that name value hthis hadd pointer cookie hcookie
      obtain ⟨-, rfl⟩ := (@CookieJar.add_part_returns_iff stale this that
        (name, value)).mp hadd
      rw [CookieJar.cookie_withNew] at hcookie
      split at hcookie
      next =>
        cases hcookie
        exact ⟨rfl, rfl⟩
      next => exact hthis pointer cookie hcookie
  refine ⟨hvalid, hlive, ?_, ?_, ?_⟩
  · rintro pointer ⟨name, hget⟩
    exact decide_eq_true (hvalid.bounded name pointer hget)
  · exact fun pointer cookie hcookie => (hnew pointer cookie hcookie).1
  · exact fun pointer cookie hcookie => Or.inl (hnew pointer cookie hcookie).2

theorem leadsTo_exact {httpCookie : Option Bytes} {jar : CookieJar}
    {ops : List CookieOp} (hnew : Returns (newCookies stale httpCookie) jar)
    (hkeeps : ∀ op rest st, LeadsTo (step order stale) ops (start jar)
      (op :: rest) st → st.Keeps op)
    (h : LeadsTo (step order stale) ops (start jar) [] st) : st.Exact :=
  h.invariant (fun hs hop hrun => hs.step hop hrun) (start_exact hnew) hkeeps

end JarState

namespace Cookie

/-- The `Max-Age` part of the line. -/
def maxAgeText (this : Cookie) : Bytes :=
  optionPart (chars "; Max-Age=")
    (if this.maxAge > 0 then some (decimal this.maxAge) else none)

theorem line_dates (this : Cookie) : ∃ rest, this.line =
    chars "Set-Cookie: " ++ this.name ++ chars "=" ++ encoded this.valueText ++
      this.expiresText ++ this.maxAgeText ++ rest := by
  refine ⟨optionPart (chars "; Domain=") this.domain ++
    optionPart (chars "; Path=") this.path ++
    optionPart (chars "; Secure")
      (if this.flag &&& cookieSecure ≠ 0 then some [] else none) ++
    optionPart (chars "; HttpOnly")
      (if this.flag &&& cookieHttpOnly ≠ 0 then some [] else none), ?_⟩
  rw [line, attributes_eq, maxAgeText]
  simp only [List.append_assoc]

/-- The line of the cookie carries at most one of the two dates. -/
def OneDate (this : Cookie) : Prop :=
  this.expiresText = [] ∨ this.maxAgeText = []

theorem oneDate_of_exclusive {this : Cookie}
    (h : this.expires = 0 ∨ this.maxAge = 0) : this.OneDate := by
  rcases h with h | h
  · exact Or.inl (by simp [expiresText, h])
  · exact Or.inr (by simp [maxAgeText, h, optionPart])

end Cookie

namespace JarState

variable {order : VisitOrder} {stale : Nat → Bool} {st : JarState}

/-- The visits of the cookies on which a setter succeeded. -/
def touchedVisits (order : VisitOrder) (st : JarState) : Dict Bytes Nat :=
  (order.visits st.jar.jar).filter fun visit => st.touched visit.2

def VisitLine (st : JarState) (visit : Bytes × Nat) (line : Bytes) : Prop :=
  ∃ cookie, st.jar.cookie visit.2 = some cookie ∧ line = cookie.line ∧
    cookie.OneDate ∧ ¬ HasCrlf line

/-- A flush writes one line for each of these cookies and no other, takes the
marks of the cookies and changes nothing else, and another flush writes
nothing. -/
def FlushExact (order : VisitOrder) (st : JarState) : Prop :=
  ∃ lines after, Returns (flushCookies order st.jar) (unlines lines, after) ∧
    List.Forall₂ st.VisitLine (st.touchedVisits order) lines ∧
    after.jar = st.jar.jar ∧
    (∀ q, (after.cookie q).map Cookie.unmarked =
      (st.jar.cookie q).map Cookie.unmarked) ∧
    ∃ last, Returns (flushCookies order after) ([], last)

/-- The dates of these cookies can be printed, and none of their texts has a CR
LF in it. -/
def FlushFits (st : JarState) : Prop :=
  ∀ pointer cookie, st.jar.Has pointer →
    st.jar.cookie pointer = some cookie → st.touched pointer = true →
    cookie.DateFits ∧ ¬ Broken cookie.texts

theorem Exact.visit_iff (h : st.Exact) {visit : Bytes × Nat} :
    visit ∈ order.visits st.jar.jar ↔ st.jar.get visit.1 = some visit.2 := by
  rw [(order.perm st.jar.jar).mem_iff]
  constructor
  · intro hmem
    exact Dict.get_of_mem stringsEqual_equiv h.valid.distinct hmem
      (stringsEqual_equiv.refl _)
  · intro hget
    obtain ⟨entry, hmem, hkey, hvalue⟩ := Dict.mem_of_get_eq_some hget
    have heq : entry = visit := Prod.ext (by simpa [stringsEqual] using hkey) hvalue
    rwa [heq] at hmem

theorem Exact.visit_live (h : st.Exact) {visit : Bytes × Nat}
    (hvisit : visit ∈ order.visits st.jar.jar) :
    ∃ cookie, st.jar.cookie visit.2 = some cookie :=
  Option.isSome_iff_exists.mp (h.live _ _ (h.visit_iff.mp hvisit))

theorem exists_of_forall₂ {α β : Type} {R : α → β → Prop} {as : List α}
    {bs : List β} (h : List.Forall₂ R as bs) : ∀ a ∈ as, ∃ b, R a b := by
  induction h with
  | nil => exact nofun
  | cons hab _ ih => exact List.forall_mem_cons.mpr ⟨⟨_, hab⟩, ih⟩

/-- The lines a flush writes are those of the touched cookies. -/
theorem Exact.lines_filter (h : st.Exact) {visits : Dict Bytes Nat}
    (hlive : ∀ visit ∈ visits, ∃ cookie, st.jar.cookie visit.2 = some cookie) :
    List.Forall₂
      (fun visit line => ∃ cookie, st.jar.cookie visit.2 = some cookie ∧
        line = cookie.line)
      (visits.filter fun visit => st.touched visit.2) (st.jar.lines visits) := by
  induction visits with
  | nil => exact .nil
  | cons visit rest ih =>
      obtain ⟨⟨cookie, hcookie⟩, hrest⟩ := List.forall_mem_cons.mp hlive
      rw [CookieJar.lines_cons hcookie, List.filter_cons, Cookie.lines,
        ← h.marks visit.2 cookie hcookie]
      cases hchanged : cookie.changed with
      | true => exact .cons ⟨cookie, hcookie, rfl⟩ (ih hrest)
      | false => exact ih hrest

theorem Exact.flush_again (h : st.Exact) {text : Bytes} {after : CookieJar}
    (hflush : Returns (flushCookies order st.jar) (text, after)) :
    ∃ last, Returns (flushCookies order after) ([], last) := by
  obtain ⟨hjar, hafter⟩ := flushVisits_after hflush
  have hvalid := (CookieJar.SameNames.flushVisits hflush).valid h.valid
  have hvisited : ∀ visit ∈ order.visits st.jar.jar, ∃ cookie,
      after.cookie visit.2 = some cookie ∧ cookie.changed = false := by
    intro visit hvisit
    obtain ⟨cookie, hcookie⟩ := h.visit_live hvisit
    refine ⟨cookie.unmarked, ?_, rfl⟩
    rw [hafter, if_pos (List.mem_map_of_mem hvisit), hcookie]
    rfl
  refine (hvalid.flushCookies_returns_iff order).mpr ⟨?_, ?_⟩
  · intro visit hvisit
    rw [hjar, ← (order.perm st.jar.jar).mem_iff] at hvisit
    obtain ⟨cookie, hcookie, hclean⟩ := hvisited visit hvisit
    refine ⟨cookie, hcookie, fun hchanged => ?_⟩
    rw [hclean] at hchanged
    cases hchanged
  · have hnone : after.lines (order.visits after.jar) = [] := by
      rw [hjar, CookieJar.lines, List.flatMap_eq_nil_iff]
      intro visit hvisit
      obtain ⟨cookie, hcookie, hclean⟩ := hvisited visit hvisit
      simp [hcookie, Cookie.lines, hclean]
    rw [hnone]
    rfl

theorem Exact.flushExact_iff (h : st.Exact)
    (hvalues : ∀ pointer cookie, st.jar.Has pointer →
      st.jar.cookie pointer = some cookie → cookie.changed = true →
      ∃ value, cookie.value = .string value) :
    st.FlushExact order ↔ st.FlushFits := by
  constructor
  · rintro ⟨lines, after, hflush, hlines, -⟩ pointer cookie ⟨name, hget⟩ hcookie
      htouched
    have hvisit : (name, pointer) ∈ order.visits st.jar.jar :=
      h.visit_iff.mpr hget
    have hmem : (name, pointer) ∈ st.touchedVisits order :=
      List.mem_filter.mpr ⟨hvisit, htouched⟩
    constructor
    · have hready := ((h.valid.flushCookies_returns_iff order).mp
        ⟨after, hflush⟩).1 (name, pointer)
        ((order.perm st.jar.jar).mem_iff.mp hvisit)
      obtain ⟨other, hother, hready⟩ := hready
      rw [hcookie] at hother
      cases hother
      exact (hready ((h.marks pointer cookie hcookie).trans htouched)).2
    · obtain ⟨line, other, hother, rfl, -, hwhole⟩ :=
        exists_of_forall₂ hlines _ hmem
      rw [hcookie] at hother
      cases hother
      rwa [Cookie.hasCrlf_line] at hwhole
  · intro hfits
    have hready : st.jar.Ready st.jar.jar := by
      intro visit hvisit
      rw [← (order.perm st.jar.jar).mem_iff] at hvisit
      obtain ⟨cookie, hcookie⟩ := h.visit_live hvisit
      have hhas : st.jar.Has visit.2 := ⟨visit.1, h.visit_iff.mp hvisit⟩
      refine ⟨cookie, hcookie, fun hchanged => ?_⟩
      refine ⟨hvalues visit.2 cookie hhas hcookie hchanged, ?_⟩
      rw [h.marks visit.2 cookie hcookie] at hchanged
      exact (hfits visit.2 cookie hhas hcookie hchanged).1
    obtain ⟨after, hflush⟩ := (h.valid.flushCookies_returns_iff order).mpr
      ⟨hready, rfl⟩
    obtain ⟨hjar, hafter⟩ := flushVisits_after hflush
    have hlive : ∀ visit ∈ order.visits st.jar.jar,
        ∃ cookie, st.jar.cookie visit.2 = some cookie :=
      fun visit hvisit => h.visit_live hvisit
    have hlines := h.lines_filter hlive
    refine ⟨_, after, hflush, ?_, hjar, ?_, h.flush_again hflush⟩
    · refine List.Forall₂.imp ?_ ((List.forall₂_and_left _ _).mpr
        ⟨fun visit hvisit => hvisit, hlines⟩)
      rintro visit line ⟨hvisit, cookie, hcookie, rfl⟩
      obtain ⟨hmem, htouched⟩ := List.mem_filter.mp hvisit
      have hhas : st.jar.Has visit.2 := ⟨visit.1, h.visit_iff.mp hmem⟩
      refine ⟨cookie, hcookie, rfl,
        Cookie.oneDate_of_exclusive (h.exclusive visit.2 cookie hcookie), ?_⟩
      rw [Cookie.hasCrlf_line]
      exact (hfits visit.2 cookie hhas hcookie htouched).2
    · intro q
      rw [hafter]
      split
      next =>
        cases st.jar.cookie q with
        | none => rfl
        | some cookie => rfl
      next => rfl

/-- After any course of operations that puts a cookie into the jar at most once,
a flush is exact if and only if the dates of the touched cookies can be printed
and their texts have no CR LF. -/
theorem flush_exact_iff {httpCookie : Option Bytes} {jar : CookieJar}
    {ops : List CookieOp} (hnew : Returns (newCookies stale httpCookie) jar)
    (hkeeps : ∀ op rest st, LeadsTo (step order stale) ops (start jar)
      (op :: rest) st → st.Keeps op)
    (hleads : LeadsTo (step order stale) ops (start jar) [] st)
    (hvalues : ∀ pointer cookie, st.jar.Has pointer →
      st.jar.cookie pointer = some cookie → cookie.changed = true →
      ∃ value, cookie.value = .string value) :
    st.FlushExact order ↔ st.FlushFits :=
  (leadsTo_exact hnew hkeeps hleads).flushExact_iff hvalues

/-- The jar of `a=b`. -/
def parsed : CookieJar :=
  ⟨[some ⟨false, chars "a", .string (chars "b"), 0, 0, 0, none, none⟩],
    [(chars "a", 0)]⟩

def single (cookie : Cookie) : JarState where
  jar := ⟨[some cookie], [(chars "a", 0)]⟩
  touched := Function.update (fun _ => false) 0 true
  put pointer := pointer < 1

theorem single_cookie {cookie other : Cookie} {pointer : Nat}
    (h : (single cookie).jar.cookie pointer = some other) : other = cookie := by
  cases pointer with
  | zero => exact (Option.some.inj h).symm
  | succ pointer => cases h

/-- The path of a cookie of the request is set. -/
theorem flush_exact_path :
    ∃ jar st, Returns (newCookies (fun _ => false) (some (chars "a=b"))) jar ∧
      LeadsTo (step .entries (fun _ => false))
        [.cookie 0 (.setPath true (chars "/"))] (start jar) [] st ∧
      st.FlushExact .entries := by
  have hnew : Returns (newCookies (fun _ => false) (some (chars "a=b")))
      parsed := ⟨5, rfl⟩
  have hleads : LeadsTo (step .entries (fun _ => false))
      [.cookie 0 (.setPath true (chars "/"))] (start parsed) []
      (single ⟨true, chars "a", .string (chars "b"), 0, 0, 0, none,
        some (chars "/")⟩) := .call ⟨0, rfl⟩ (.here _ _)
  refine ⟨_, _, hnew, hleads, (flush_exact_iff hnew ?_ hleads ?_).mpr ?_⟩
  · intro op rest st hst
    cases hst with
    | here => trivial
    | call _ hst => cases hst
  · intro pointer cookie _ hcookie _
    rw [single_cookie hcookie]
    exact ⟨_, rfl⟩
  · intro pointer cookie _ hcookie _
    rw [single_cookie hcookie]
    exact ⟨fun hpos => absurd hpos (by decide), by decide⟩

/-- A cookie of the request that is to expire in the year 10000. -/
theorem flush_not_exact :
    ∃ jar st, Returns (newCookies (fun _ => false) (some (chars "a=b"))) jar ∧
      LeadsTo (step .entries (fun _ => false))
        [.cookie 0 (.setExpires 253402300800)] (start jar) [] st ∧
      ¬ st.FlushExact .entries := by
  have hnew : Returns (newCookies (fun _ => false) (some (chars "a=b")))
      parsed := ⟨5, rfl⟩
  have hleads : LeadsTo (step .entries (fun _ => false))
      [.cookie 0 (.setExpires 253402300800)] (start parsed) []
      (single ⟨true, chars "a", .string (chars "b"), 253402300800, 0, 0, none,
        none⟩) := .call ⟨0, rfl⟩ (.here _ _)
  refine ⟨_, _, hnew, hleads, ?_⟩
  rintro ⟨lines, after, hflush, -⟩
  exact hflush.defined 0 rfl

end JarState

end Libcad
