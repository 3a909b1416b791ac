/-
Sessions: the cookies that the handlers of earlier requests left in their jars
are in the jar of the next request, when a user agent sends back what it was
given.
-/
import Libcad.CgiCookiesRead
import Libcad.CgiJarRuns

namespace Libcad

open Proc

/-- The cookies of a user agent: the text it was given for each name. -/
abbrev UserAgent := Dict Bytes Bytes

namespace UserAgent

/-- The name and the text of the value in a `Set-Cookie` line.  The attributes
after them are not kept. -/
def pairOf (line : Bytes) : Bytes × Bytes :=
  let pair := (line.drop (chars "Set-Cookie: ").length).takeWhile
    (· ≠ ascii ';')
  (pair.takeWhile (· ≠ ascii '='), (pair.dropWhile (· ≠ ascii '=')).tail)

def receive (agent : UserAgent) (text : Bytes) : UserAgent :=
  Dict.setAll stringsEqual ((readHead [] (text ++ crlf)).1.map pairOf) agent

/-- HTTP_COOKIE of the next request; it is not set when there is no cookie. -/
def httpCookie (agent : UserAgent) : Option Bytes :=
  if agent = [] then none
  else some (List.intercalate (chars "; ")
    (agent.map fun e => e.1 ++ ascii '=' :: e.2))

end UserAgent

namespace JarState

/-- The names and the values of the cookies that the next flush writes. -/
def written (order : VisitOrder) (st : JarState) : List (Bytes × Bytes) :=
  (st.touchedVisits order).filterMap fun visit =>
    (st.jar.cookie visit.2).map fun cookie => (cookie.name, cookie.valueText)

/-- The cookies to write have a name and a value that HTTP_COOKIE can carry,
and no text that breaks their line. -/
def Sendable (st : JarState) : Prop :=
  ∀ pointer cookie, st.jar.Has pointer →
    st.jar.cookie pointer = some cookie → st.touched pointer = true →
    CookiePair (cookie.name, cookie.valueText) ∧ ¬ Broken cookie.texts

end JarState

/-- Requests of one user agent, one after the other: what all flushes wrote so
far, the cookies of the agent, and the jar of the request that is handled, if
there is one.  The blocks of new cookies are zero. -/
inductive CookieSession :
    List (Bytes × Bytes) → UserAgent → Option JarState → Prop
  | start : CookieSession [] [] none
  | request {log : List (Bytes × Bytes)} {agent : UserAgent}
      {earlier : Option JarState} {jar : CookieJar} :
      CookieSession log agent earlier →
      Returns (newCookies (fun _ => false) agent.httpCookie) jar →
      CookieSession log agent (some (.start jar))
  | call {log : List (Bytes × Bytes)} {agent : UserAgent} {st next : JarState}
      {report : ResponseReport} (order : VisitOrder) (op : CookieOp) :
      CookieSession log agent (some st) → op ≠ .flush → st.Keeps op →
      Returns (st.step order (fun _ => false) op) (report, next) →
      CookieSession log agent (some next)
  | flush {log : List (Bytes × Bytes)} {agent : UserAgent} {st next : JarState}
      {text : Bytes} (order : VisitOrder) :
      CookieSession log agent (some st) → st.Sendable →
      Returns (st.step order (fun _ => false) .flush) (.output text, next) →
      CookieSession (log ++ st.written order) (agent.receive text) (some next)

theorem lookup_eq_get {V : Type} (d : Dict Bytes V) (name : Bytes) :
    d.lookup name = Dict.get stringsEqual d name := by
  induction d with
  | nil => rfl
  | cons e d ih =>
      rw [List.lookup_cons, Dict.get, ih, stringsEqual]
      by_cases hname : e.1 = name
      · simp [hname]
      · have hbeq : (name == e.1) = false := by
          simpa using fun h => hname h.symm
        simp [hname, hbeq]

/-- The last value of a name is the one that stays. -/
theorem lookup_reverse (log : List (Bytes × Bytes)) (name : Bytes) :
    log.reverse.lookup name =
      Dict.get stringsEqual (Dict.setAll stringsEqual log []) name := by
  induction log using List.reverseRecOn with
  | nil => rfl
  | append_singleton log pair ih =>
      rw [CookieJar.lookup_reverse_append, Dict.setAll_append, ih]
      change _ = Dict.get stringsEqual
        (Dict.set stringsEqual pair.1 pair.1 pair.2 _) name
      rw [Dict.get_set stringsEqual_equiv _ _ (stringsEqual_equiv.refl _),
        stringsEqual]
      simp

theorem mem_of_mem_setAll {log : List (Bytes × Bytes)} {pair : Bytes × Bytes}
    (h : pair ∈ Dict.setAll stringsEqual log []) : pair ∈ log := by
  induction log using List.reverseRecOn with
  | nil => cases h
  | append_singleton log last ih =>
      rw [Dict.setAll_append] at h
      change pair ∈ Dict.set stringsEqual last.1 last.1 last.2 _ at h
      rw [Dict.set] at h
      rw [List.mem_append, List.mem_singleton]
      split at h
      · obtain ⟨e, he, heq⟩ := List.mem_map.mp h
        split at heq
        next hkey =>
          rw [← heq]
          exact Or.inr (Prod.ext (of_decide_eq_true hkey) rfl)
        next => exact Or.inl (ih (heq ▸ he))
      · rcases List.mem_append.mp h with h | h
        · exact Or.inl (ih h)
        · exact Or.inr (List.mem_singleton.mp h)

def encodePair (pair : Bytes × Bytes) : Bytes × Bytes :=
  (pair.1, encoded pair.2)

theorem takeWhile_append_cons {p : UInt8 → Bool} {a b : Bytes}
    (ha : ∀ c ∈ a, p c = true) (hb : ∀ c ∈ b.head?, p c = false) :
    (a ++ b).takeWhile p = a ∧ (a ++ b).dropWhile p = b := by
  induction a with
  | nil =>
      cases b with
      | nil => exact ⟨rfl, rfl⟩
      | cons c b =>
          have hc := hb c rfl
          simp [hc]
  | cons c a ih =>
      obtain ⟨hc, ha⟩ := List.forall_mem_cons.mp ha
      obtain ⟨htake, hdrop⟩ := ih ha
      simp [hc, htake, hdrop]

/-- The text is empty or begins with a semicolon. -/
def Attribute (text : Bytes) : Prop := ∀ c ∈ text.head?, c = ascii ';'

theorem Attribute.append {a b : Bytes} (ha : Attribute a) (hb : Attribute b) :
    Attribute (a ++ b) := by
  cases a with
  | nil => exact hb
  | cons c a => exact ha

theorem attribute_label {label : Bytes} (h : label.head? = some (ascii ';'))
    (text : Bytes) : Attribute (label ++ text) := by
  obtain ⟨rest, rfl⟩ := List.head?_eq_some_iff.mp h
  intro c hc
  exact (Option.some.inj hc).symm

theorem attribute_optionPart {label : Bytes}
    (h : label.head? = some (ascii ';')) (part : Option Bytes) :
    Attribute (optionPart label part) := by
  cases part with
  | none =>
      intro c hc
      cases hc
  | some text => exact attribute_label h text

theorem Cookie.attribute_expiresText (this : Cookie) :
    Attribute this.expiresText := by
  rw [expiresText]
  split
  next =>
    cases gmtime this.expires.toNat with
    | none =>
        intro c hc
        cases hc
    | some tm => exact attribute_label rfl _
  next =>
    intro c hc
    cases hc

theorem Cookie.attribute_attributes (this : Cookie) :
    Attribute this.attributes := by
  have hpart := fun label hlabel => @attribute_optionPart label hlabel
  rw [attributes_eq]
  exact ((((hpart _ rfl _).append (hpart _ rfl _)).append
    (hpart _ rfl _)).append (hpart _ rfl _)).append (hpart _ rfl _)

theorem Cookie.pairOf_line {this : Cookie}
    (h : CookiePair (this.name, this.valueText)) :
    UserAgent.pairOf this.line = encodePair (this.name, this.valueText) := by
  have hname : ∀ c ∈ this.name, c ≠ ascii ';' ∧ c ≠ ascii '=' :=
    fun c hc => ⟨fun heq => h.name_semicolon (heq ▸ hc),
      fun heq => h.name_equals (heq ▸ hc)⟩
  have hpair : ∀ c ∈ this.name ++ chars "=" ++ encoded this.valueText,
      decide (c ≠ ascii ';') = true := by
    intro c hc
    rcases List.mem_append.mp hc with hc | hc
    · rcases List.mem_append.mp hc with hc | hc
      · exact decide_eq_true (hname c hc).1
      · rw [List.mem_singleton.mp hc]
        rfl
    · exact decide_eq_true (mem_encoded h.value_nul c hc).2
  have hline : this.line.drop (chars "Set-Cookie: ").length =
      (this.name ++ chars "=" ++ encoded this.valueText) ++
        (this.expiresText ++ this.attributes) := by
    rw [line]
    simp only [List.append_assoc]
    exact List.drop_left
  have hattributes := this.attribute_expiresText.append
    this.attribute_attributes
  obtain ⟨htake, -⟩ := takeWhile_append_cons hpair fun c hc => by
    rw [hattributes c hc]
    rfl
  obtain ⟨hbefore, hafter⟩ := takeWhile_append_cons
    (p := (· ≠ ascii '=')) (a := this.name)
    (b := chars "=" ++ encoded this.valueText)
    (fun c hc => decide_eq_true (hname c hc).2)
    (fun c hc => by
      cases hc
      rfl)
  rw [UserAgent.pairOf, hline, htake, List.append_assoc, hbefore, hafter]
  rfl

namespace JarState

variable {order : VisitOrder} {st : JarState}

theorem Exact.lines_written (order : VisitOrder) (h : st.Exact)
    (hsend : st.Sendable) :
    (st.jar.lines (order.visits st.jar.jar)).map UserAgent.pairOf =
        (st.written order).map encodePair ∧
      (∀ line ∈ st.jar.lines (order.visits st.jar.jar),
        line ≠ [] ∧ ¬ HasCrlf line) ∧
      ∀ pair ∈ st.written order, CookiePair pair := by
  have hlive : ∀ visit ∈ order.visits st.jar.jar,
      ∃ cookie, st.jar.cookie visit.2 = some cookie :=
    fun visit hvisit => h.visit_live hvisit
  have hlines := h.lines_filter hlive
  have hhas : ∀ visit ∈ st.touchedVisits order,
      st.jar.Has visit.2 ∧ st.touched visit.2 = true := by
    intro visit hvisit
    obtain ⟨hmem, htouched⟩ := List.mem_filter.mp hvisit
    exact ⟨⟨visit.1, h.visit_iff.mp hmem⟩, htouched⟩
  rw [written]
  change List.Forall₂ _ (st.touchedVisits order) _ at hlines
  generalize st.jar.lines (order.visits st.jar.jar) = lines at hlines
  generalize st.touchedVisits order = visits at hlines hhas
  induction hlines with
  | nil => exact ⟨rfl, nofun, nofun⟩
  | @cons visit line visits lines hline hlines ih =>
      obtain ⟨cookie, hcookie, rfl⟩ := hline
      obtain ⟨⟨hin, htouched⟩, hrest⟩ := List.forall_mem_cons.mp hhas
      obtain ⟨hpairs, hwhole, hgood⟩ := ih hrest
      obtain ⟨hpair, hbroken⟩ := hsend visit.2 cookie hin hcookie htouched
      simp only [List.filterMap_cons, hcookie, Option.map_some]
      refine ⟨?_, List.forall_mem_cons.mpr ⟨⟨?_, ?_⟩, hwhole⟩,
        List.forall_mem_cons.mpr ⟨hpair, hgood⟩⟩
      · rw [List.map_cons, List.map_cons, Cookie.pairOf_line hpair, hpairs]
      · rw [Cookie.line]
        simp [chars]
      · rwa [Cookie.hasCrlf_line]

theorem Exact.receive (h : st.Exact) (hsend : st.Sendable) {text : Bytes}
    {after : CookieJar}
    (hflush : Returns (flushCookies order st.jar) (text, after))
    (agent : UserAgent) :
    agent.receive text = Dict.setAll stringsEqual
      ((st.written order).map encodePair) agent := by
  obtain ⟨hpairs, hwhole, -⟩ := h.lines_written order hsend
  obtain ⟨-, rfl⟩ := (h.valid.flushCookies_returns_iff order).mp
    ⟨after, hflush⟩
  have hread : readHead [] (unlines
      (st.jar.lines (order.visits st.jar.jar)) ++ crlf ++ []) = (_, []) :=
    (readHead_unlines_iff fun line hline => (hwhole line hline).1).mpr
      fun line hline => (hwhole line hline).2
  rw [List.append_nil] at hread
  rw [UserAgent.receive, hread, hpairs]

end JarState

/-- The jar of a request holds what the user agent keeps. -/
theorem newCookies_holds {pairs : List (Bytes × Bytes)}
    (hpairs : ∀ pair ∈ pairs, CookiePair pair) :
    ∃ jar, Returns (newCookies (fun _ => false)
        (UserAgent.httpCookie (pairs.map encodePair))) jar ∧
      jar.Holds pairs := by
  cases pairs with
  | nil =>
      exact ⟨⟨[], []⟩, returns_pure_self _, CookieJar.holds_foldl_added []⟩
  | cons pair pairs =>
      have htexts : List.Forall₂ CookieText pairs
          ((pairs.map encodePair).map fun e => e.1 ++ ascii '=' :: e.2) := by
        clear hpairs
        induction pairs with
        | nil => exact .nil
        | cons pair pairs ih =>
            exact .cons ⟨_, encodeValue_returns pair.2, rfl⟩ ih
      have htext : CookieText pair (pair.1 ++ ascii '=' :: encoded pair.2) :=
        ⟨_, encodeValue_returns pair.2, rfl⟩
      have hheader := intercalate_texts htext htexts
      have hname : CookieScan.InName
          { state := 1,
            httpCookie := pair.1 ++ ascii '=' ::
              (encoded pair.2 ++ headerRest pairs),
            name := pair.1 ++ ascii '=' ::
              (encoded pair.2 ++ headerRest pairs),
            value := none, jar := ⟨[], []⟩ } pair (headerRest pairs) :=
        ⟨rfl, rfl, pair.1, fun _ hb => hb, rfl⟩
      refine ⟨_, ?_, CookieJar.holds_foldl_added (pair :: pairs)⟩
      rw [UserAgent.httpCookie, if_neg (by simp), List.map_cons,
        List.map_cons, encodePair, hheader, newCookies, parseCookies,
        if_neg (by simp)]
      exact (hname.returns_iff hpairs).mpr ⟨fun _ _ => rfl, rfl⟩

theorem CookieJar.Holds.log {jar : CookieJar} {log : List (Bytes × Bytes)}
    (h : jar.Holds (Dict.setAll stringsEqual log [])) : jar.Holds log := by
  have hdistinct : Dict.Distinct stringsEqual
      (Dict.setAll stringsEqual log []) :=
    Dict.Distinct.setAll stringsEqual_equiv log List.Pairwise.nil
  have hlookup : ∀ name,
      (Dict.setAll stringsEqual log []).reverse.lookup name =
        log.reverse.lookup name := by
    intro name
    rw [lookup_reverse log, lookup_eq_get]
    exact (Dict.get_perm stringsEqual_equiv hdistinct
      (List.reverse_perm _).symm name).symm
  refine ⟨h.distinct, ?_, ?_⟩
  · intro name value hvalue
    exact h.found name value ((hlookup name).trans hvalue)
  · intro name hnone
    exact h.absent name ((hlookup name).trans hnone)

/-- The jar of a request is as its handler made it. -/
theorem CookieSession.exact {log : List (Bytes × Bytes)} {agent : UserAgent}
    {current : Option JarState} (h : CookieSession log agent current) :
    ∀ st ∈ current, st.Exact := by
  induction h with
  | start => exact nofun
  | request _ hnew =>
      rintro st hst
      cases hst
      exact JarState.start_exact hnew
  | call order op _ _ hkeeps hstep ih =>
      rintro st hst
      cases hst
      exact (ih _ rfl).step hkeeps hstep
  | @flush log agent st next text order _ _ hstep ih =>
      rintro st' hst
      cases hst
      have hkeeps : st.Keeps .flush := trivial
      exact (ih st rfl).step hkeeps hstep

/-- The user agent keeps the last values that were written. -/
theorem CookieSession.kept {log : List (Bytes × Bytes)} {agent : UserAgent}
    {current : Option JarState} (h : CookieSession log agent current) :
    agent = (Dict.setAll stringsEqual log []).map encodePair ∧
      ∀ pair ∈ log, CookiePair pair := by
  induction h with
  | start => exact ⟨rfl, nofun⟩
  | request _ _ ih => exact ih
  | call _ _ _ _ _ _ ih => exact ih
  | @flush log agent st next text order hsession hsend hstep ih =>
      obtain ⟨hagent, hlog⟩ := ih
      have hexact := hsession.exact st rfl
      obtain ⟨⟨written, jar⟩, hflush, hstep⟩ := returns_bind.mp hstep
      cases returns_pure.mp hstep
      obtain ⟨-, -, hwritten⟩ := hexact.lines_written order hsend
      refine ⟨?_, ?_⟩
      · rw [hexact.receive hsend hflush, hagent, Dict.setAll_append]
        exact (Dict.setAll_map encoded _ _).symm
      · intro pair hpair
        rcases List.mem_append.mp hpair with hpair | hpair
        · exact hlog pair hpair
        · exact hwritten pair hpair

/-- After any requests the jar of the next one holds the last value that was
written for each name, and no other cookie. -/
theorem session_holds {log : List (Bytes × Bytes)} {agent : UserAgent}
    {current : Option JarState} (h : CookieSession log agent current) :
    ∃ jar, Returns (newCookies (fun _ => false) agent.httpCookie) jar ∧
      jar.Holds log := by
  obtain ⟨hagent, hlog⟩ := h.kept
  obtain ⟨jar, hnew, hholds⟩ := newCookies_holds fun pair hpair =>
    hlog pair (mem_of_mem_setAll hpair)
  exact ⟨jar, hagent ▸ hnew, hholds.log⟩

theorem JarState.sendable_single {st : JarState} {cookie : Cookie}
    (hobjects : st.jar.objects = [some cookie])
    (hpair : CookiePair (cookie.name, cookie.valueText))
    (hbroken : ¬ Broken cookie.texts) : st.Sendable := by
  rintro pointer other - hother -
  rw [CookieJar.cookie, hobjects] at hother
  cases pointer with
  | zero =>
      cases Option.some.inj hother
      exact ⟨hpair, hbroken⟩
  | succ pointer => cases hother

/-- A handler that makes the cookie `a`, flushes, changes it and flushes again,
and one that finds it and changes it. -/
theorem session_holds_changed :
    ∃ agent current jar, CookieSession [(chars "a", chars "b;"),
        (chars "a", chars "c"), (chars "a", chars "d")] agent current ∧
      Returns (newCookies (fun _ => false) agent.httpCookie) jar ∧
      jar.Holds [(chars "a", chars "b;"), (chars "a", chars "c"),
        (chars "a", chars "d")] := by
  have hput := CookieSession.call .entries (.set 0)
    (.call .entries (.cookie 0 (.setValue true (chars "b;")))
      (.call .entries (.newCookie (chars "a")) (.request .start ⟨0, rfl⟩)
        (by decide) trivial ⟨0, rfl⟩) (by decide) trivial ⟨0, rfl⟩)
    (by decide) rfl ⟨0, rfl⟩
  have hfirst : CookieSession [(chars "a", chars "b;")]
      [(chars "a", chars "b%3b")] _ := CookieSession.flush .entries hput
    (JarState.sendable_single rfl ⟨by decide, by decide, by decide, by decide,
      by decide, by decide⟩ (by decide)) ⟨0, rfl⟩
  have hsecond : CookieSession
      [(chars "a", chars "b;"), (chars "a", chars "c")]
      [(chars "a", chars "c")] _ := CookieSession.flush .entries
    (.call .entries (.cookie 0 (.setValue true (chars "c"))) hfirst
      (by decide) trivial ⟨0, rfl⟩)
    (JarState.sendable_single rfl ⟨by decide, by decide, by decide, by decide,
      by decide, by decide⟩ (by decide)) ⟨0, rfl⟩
  have hthird : CookieSession [(chars "a", chars "b;"), (chars "a", chars "c"),
      (chars "a", chars "d")] [(chars "a", chars "d")] _ :=
    CookieSession.flush .entries
      (.call .entries (.cookie 0 (.setValue true (chars "d")))
        (.request hsecond ⟨10, rfl⟩) (by decide) trivial ⟨0, rfl⟩)
      (JarState.sendable_single rfl ⟨by decide, by decide, by decide,
        by decide, by decide, by decide⟩ (by decide)) ⟨0, rfl⟩
  obtain ⟨jar, hnew, hholds⟩ := session_holds hthird
  exact ⟨_, _, jar, hthird, hnew, hholds⟩

end Libcad
