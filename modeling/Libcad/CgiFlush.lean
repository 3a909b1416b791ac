/-
What `flush_response` writes, and when it is defined.
-/
import Libcad.CgiCookiesRead
import Libcad.CgiResponse
import Mathlib.Algebra.Group.Nat.Defs

namespace Libcad

open Proc

/-- A year has at most 366 days, so its months are numbered below 12. -/
theorem month_lt (day : Nat) :
    (5 * (day % 1461 - min (day % 1461 / 365) 3 * 365) + 2) / 153 < 12 := by
  omega

/-- The names of the day and the month are found. -/
theorem gmtime_ranges {t : Nat} {tm : Tm} (h : gmtime t = some tm) :
    tm.wday < 7 ∧ tm.mon < 12 := by
  simp only [gmtime, Option.ite_none_right_eq_some, Option.some.injEq] at h
  obtain ⟨-, rfl⟩ := h
  refine ⟨by dsimp only; omega, ?_⟩
  have hmonth := month_lt ((t / 86400 + 719468) % 146097 -
    min ((t / 86400 + 719468) % 146097 / 36524) 3 * 36524)
  dsimp only
  split <;> omega

def httpDate (tm : Tm) : Bytes :=
  dayNames.getD tm.wday [] ++ chars ", " ++ twoDigits tm.mday ++ chars " " ++
    monthNames.getD tm.mon [] ++ chars " " ++ decimal tm.year ++ chars " " ++
    twoDigits tm.hour ++ chars ":" ++ twoDigits tm.min ++ chars ":" ++
    twoDigits tm.sec ++ chars " GMT"

theorem length_decimal_le {n k : Nat} (hk : 0 < k) :
    (decimal n).length ≤ k ↔ n < 10 ^ k := by
  rw [decimal, if_neg (by omega), List.nil_append, List.length_map,
    Int.natAbs_natCast]
  exact Nat.length_toDigits_le_iff (by decide) hk

/-- The buffer of 30 bytes has room for years of four digits. -/
theorem strftime_eq_some_iff {tm : Tm} {buf : Bytes} :
    strftime 30 tm = some buf ↔
      tm.year < 10000 ∧ buf = chars "---, " ++ twoDigits tm.mday ++
        chars " --- " ++ decimal tm.year ++ chars " " ++ twoDigits tm.hour ++
        chars ":" ++ twoDigits tm.min ++ chars ":" ++ twoDigits tm.sec ++
        chars " GMT" := by
  have hyear := @length_decimal_le tm.year 4 (by decide)
  rw [strftime, Option.ite_none_right_eq_some, Option.some.injEq,
    @eq_comm _ _ buf]
  apply and_congr_left
  rintro rfl
  simp only [List.length_append, chars, twoDigits, List.length_map,
    String.reduceToList, List.length_cons, List.length_nil]
  omega

/-- The two names go over the places of `strftime`. -/
theorem date_eq (tm : Tm) (day month : Bytes) :
    let buf := chars "---, " ++ twoDigits tm.mday ++ chars " --- " ++
      decimal tm.year ++ chars " " ++ twoDigits tm.hour ++ chars ":" ++
      twoDigits tm.min ++ chars ":" ++ twoDigits tm.sec ++ chars " GMT"
    day ++ (buf.drop 3).take 5 ++ month ++ buf.drop 11 =
      day ++ chars ", " ++ twoDigits tm.mday ++ chars " " ++ month ++
        chars " " ++ decimal tm.year ++ chars " " ++ twoDigits tm.hour ++
        chars ":" ++ twoDigits tm.min ++ chars ":" ++ twoDigits tm.sec ++
        chars " GMT" := by
  simp [chars, twoDigits]

theorem rfc1123_returns_iff {t : Nat} {buf : Bytes} :
    Returns (rfc1123 t 30) buf ↔
      ∃ tm, gmtime t = some tm ∧ tm.year < 10000 ∧ buf = httpDate tm := by
  simp only [rfc1123, returns_bind, returns_ofOption, returns_pure,
    strftime_eq_some_iff]
  constructor
  · rintro ⟨tm, hgmtime, _, ⟨hyear, rfl⟩, day, hday, month, hmonth, rfl⟩
    refine ⟨tm, hgmtime, hyear, ?_⟩
    rw [date_eq, httpDate, List.getD_eq_getElem?_getD, hday,
      List.getD_eq_getElem?_getD, hmonth]
    rfl
  · rintro ⟨tm, hgmtime, hyear, rfl⟩
    obtain ⟨hwday, hmon⟩ := gmtime_ranges hgmtime
    have hday : dayNames[tm.wday]? = some (dayNames.getD tm.wday []) := by
      rw [List.getD_eq_getElem?_getD, List.getElem?_eq_getElem hwday]
      rfl
    have hmonth : monthNames[tm.mon]? = some (monthNames.getD tm.mon []) := by
      rw [List.getD_eq_getElem?_getD, List.getElem?_eq_getElem hmon]
      rfl
    refine ⟨tm, hgmtime, _, ⟨hyear, rfl⟩, _, hday, _, hmonth, ?_⟩
    rw [date_eq, httpDate]

namespace Cookie

def valueText (this : Cookie) : Bytes :=
  match this.value with
  | .string value => value
  | .null | .wild => []

/-- The date of the cookie, if it has one. -/
def expiresText (this : Cookie) : Bytes :=
  if this.expires > 0 then
    (gmtime this.expires.toNat).elim [] fun tm =>
      chars "; Expires=" ++ httpDate tm
  else []

/-- The `Set-Cookie` line, without its end. -/
def line (this : Cookie) : Bytes :=
  chars "Set-Cookie: " ++ this.name ++ chars "=" ++ encoded this.valueText ++
    this.expiresText ++ this.attributes

/-- The expiry date, if there is one, lies before the year 10000. -/
def DateFits (this : Cookie) : Prop :=
  0 < this.expires →
    ∃ tm, gmtime this.expires.toNat = some tm ∧ tm.year < 10000

/-- A changed cookie has a value, and a date that can be printed. -/
def Ready (this : Cookie) : Prop :=
  this.changed = true →
    (∃ value, this.value = .string value) ∧ this.DateFits

/-- The lines a flush writes for the cookie: one if it is changed. -/
def lines (this : Cookie) : List Bytes :=
  if this.changed then [this.line] else []

end Cookie

/-- Text made of lines that end in CR LF. -/
def unlines (lines : List Bytes) : Bytes := lines.flatMap (· ++ crlf)

theorem unlines_append (a b : List Bytes) :
    unlines (a ++ b) = unlines a ++ unlines b := List.flatMap_append

theorem encodeValue_returns_iff {value : CharPtr} {text : Bytes} :
    Returns (encodeValue value) text ↔
      ∃ s, value = .string s ∧ text = encoded s := by
  cases value with
  | string s =>
      constructor
      · exact fun h => ⟨s, rfl, h.unique (encodeValue_returns s)⟩
      · rintro ⟨_, hs, rfl⟩
        cases hs
        exact encodeValue_returns s
  | null => simp [encodeValue]
  | wild => simp [encodeValue]

theorem flushExpires_returns_iff {cookie : Cookie} {text : Bytes} :
    Returns (flushExpires cookie) text ↔
      cookie.DateFits ∧ text = cookie.expiresText := by
  rw [flushExpires, Cookie.DateFits, Cookie.expiresText]
  by_cases hdate : 0 < cookie.expires
  · rw [if_pos hdate, if_pos hdate, returns_bind]
    constructor
    · rintro ⟨buf, hbuf, htext⟩
      obtain ⟨tm, hgmtime, hyear, rfl⟩ := rfc1123_returns_iff.mp hbuf
      rw [hgmtime]
      exact ⟨fun _ => ⟨tm, rfl, hyear⟩, (returns_pure.mp htext).symm⟩
    · rintro ⟨hfits, rfl⟩
      obtain ⟨tm, hgmtime, hyear⟩ := hfits hdate
      rw [hgmtime]
      exact ⟨_, rfc1123_returns_iff.mpr ⟨tm, hgmtime, hyear, rfl⟩,
        returns_pure_self _⟩
  · rw [if_neg hdate, if_neg hdate, returns_pure]
    simp [hdate, eq_comm]

theorem flushCookie_returns_iff {cookie : Cookie} {r : Bytes × Cookie} :
    Returns (flushCookie cookie) r ↔
      cookie.Ready ∧
        r = (unlines cookie.lines, { cookie with changed := false }) := by
  rw [flushCookie, Cookie.Ready, Cookie.lines]
  by_cases hchanged : cookie.changed = true
  · rw [if_pos hchanged, if_pos hchanged, returns_bind]
    simp only [hchanged, forall_const, returns_bind, returns_pure,
      encodeValue_returns_iff, flushExpires_returns_iff]
    constructor
    · rintro ⟨_, ⟨value, hvalue, rfl⟩, _, ⟨hdate, rfl⟩, rfl⟩
      refine ⟨⟨⟨value, hvalue⟩, hdate⟩, ?_⟩
      simp [unlines, Cookie.line, Cookie.valueText, hvalue]
    · rintro ⟨⟨⟨value, hvalue⟩, hdate⟩, rfl⟩
      refine ⟨_, ⟨value, hvalue, rfl⟩, _, ⟨hdate, rfl⟩, ?_⟩
      simp [unlines, Cookie.line, Cookie.valueText, hvalue]
  · rw [if_neg hchanged, if_neg hchanged, returns_pure]
    simp [hchanged, unlines, eq_comm]

namespace CookieJar

/-- What every jar of a response keeps: the cookies in it were allocated, and
those not freed stand under their names. -/
structure Valid (this : CookieJar) : Prop where
  distinct : Dict.Distinct stringsEqual this.jar
  bounded : ∀ name pointer, this.get name = some pointer →
    pointer < this.objects.length
  named : ∀ name pointer cookie, this.get name = some pointer →
    this.cookie pointer = some cookie → cookie.name = name

theorem cookie_store (this : CookieJar) {pointer : Nat}
    (hlt : pointer < this.objects.length) (cookie : Cookie) (q : Nat) :
    (this.store pointer cookie).cookie q =
      if q = pointer then some cookie else this.cookie q := by
  rw [CookieJar.cookie, store, List.getElem?_set]
  by_cases hq : q = pointer
  · subst hq
    simp [hlt]
  · rw [if_neg (Ne.symm hq), if_neg hq]
    rfl

theorem cookie_lt {this : CookieJar} {pointer : Nat} {cookie : Cookie}
    (h : this.cookie pointer = some cookie) : pointer < this.objects.length := by
  by_contra hge
  rw [CookieJar.cookie, List.getElem?_eq_none (by omega)] at h
  cases h

/-- The cookies that the entries point to are live and ready. -/
def Ready (this : CookieJar) (visits : Dict Bytes Nat) : Prop :=
  ∀ visit ∈ visits, ∃ cookie, this.cookie visit.2 = some cookie ∧ cookie.Ready

/-- The lines of the cookies that the entries point to. -/
def lines (this : CookieJar) (visits : Dict Bytes Nat) : List Bytes :=
  visits.flatMap fun visit =>
    match this.cookie visit.2 with
    | some cookie => cookie.lines
    | none => []

theorem ready_congr {this that : CookieJar} {visits : Dict Bytes Nat}
    (h : ∀ visit ∈ visits, this.cookie visit.2 = that.cookie visit.2) :
    this.Ready visits ↔ that.Ready visits := by
  apply forall₂_congr
  intro visit hvisit
  rw [h visit hvisit]

theorem lines_congr {this that : CookieJar} {visits : Dict Bytes Nat}
    (h : ∀ visit ∈ visits, this.cookie visit.2 = that.cookie visit.2) :
    this.lines visits = that.lines visits := by
  apply List.flatMap_congr
  intro visit hvisit
  rw [h visit hvisit]

theorem lines_cons {this : CookieJar} {visit : Bytes × Nat} {cookie : Cookie}
    (hcookie : this.cookie visit.2 = some cookie) (rest : Dict Bytes Nat) :
    this.lines (visit :: rest) = cookie.lines ++ this.lines rest := by
  rw [lines, List.flatMap_cons, hcookie]
  rfl

/-- A flush of different cookies is defined when they are all ready. -/
theorem flushVisits_returns_iff {visits : Dict Bytes Nat} :
    ∀ {this : CookieJar}, visits.Pairwise (fun a b => a.2 ≠ b.2) →
      ∀ {text : Bytes},
      (∃ after, Returns (flushVisits visits this) (text, after)) ↔
        this.Ready visits ∧ text = unlines (this.lines visits) := by
  induction visits with
  | nil =>
      intro this _ text
      simp [flushVisits, Ready, lines, unlines, eq_comm]
  | cons visit rest ih =>
      intro this hpairs text
      obtain ⟨hhead, htail⟩ := List.pairwise_cons.mp hpairs
      simp only [flushVisits, returns_bind, returns_ofOption, returns_pure,
        flushCookie_returns_iff]
      -- the other cookies are not concerned by the first one
      have hsame : ∀ cookie, this.cookie visit.2 = some cookie →
          ∀ changed other, other ∈ rest →
            (this.store visit.2 changed).cookie other.2 =
              this.cookie other.2 := by
        intro cookie hcookie changed other hother
        rw [cookie_store this (cookie_lt hcookie) changed,
          if_neg (Ne.symm (hhead other hother))]
      constructor
      · rintro ⟨after, cookie, hcookie, _, ⟨hready, rfl⟩, r, hrest, heq⟩
        obtain ⟨hreadys, htext⟩ := (ih htail).mp ⟨r.2, hrest⟩
        rw [ready_congr (hsame cookie hcookie _)] at hreadys
        rw [lines_congr (hsame cookie hcookie _)] at htext
        refine ⟨List.forall_mem_cons.mpr ⟨⟨cookie, hcookie, hready⟩, hreadys⟩,
          ?_⟩
        obtain ⟨rfl, -⟩ := Prod.mk.inj heq
        rw [htext, lines_cons hcookie, unlines_append]
      · rintro ⟨hall, rfl⟩
        obtain ⟨⟨cookie, hcookie, hready⟩, hreadys⟩ :=
          List.forall_mem_cons.mp hall
        have hnext := (ready_congr (hsame cookie hcookie
          { cookie with changed := false })).mpr hreadys
        obtain ⟨after, hrest⟩ := (ih htail).mpr ⟨hnext, rfl⟩
        refine ⟨after, cookie, hcookie, _, ⟨hready, rfl⟩, _, hrest, ?_⟩
        rw [lines_congr (hsame cookie hcookie _), lines_cons hcookie,
          unlines_append]

/-- Two entries of a valid jar that point to live cookies do not point to the
same. -/
theorem Valid.pairwise_ne {this : CookieJar} (hv : this.Valid)
    {visits : Dict Bytes Nat} (hperm : visits.Perm this.jar)
    (hlive : ∀ visit ∈ visits, (this.cookie visit.2).isSome) :
    visits.Pairwise (fun a b => a.2 ≠ b.2) := by
  have hget : ∀ visit ∈ visits, this.get visit.1 = some visit.2 := by
    intro visit hvisit
    exact Dict.get_of_mem stringsEqual_equiv hv.distinct
      (hperm.mem_iff.mp hvisit) (stringsEqual_equiv.refl _)
  have hdistinct := hv.distinct.perm stringsEqual_equiv hperm.symm
  refine List.Pairwise.imp_of_mem ?_ hdistinct
  intro a b ha hb hne heq
  obtain ⟨cookie, hcookie⟩ := Option.isSome_iff_exists.mp (hlive a ha)
  have hname := hv.named a.1 a.2 cookie (hget a ha) hcookie
  rw [heq] at hcookie
  have hname' := hv.named b.1 b.2 cookie (hget b hb) hcookie
  simp [stringsEqual, ← hname, ← hname'] at hne

theorem flushVisits_live {visits : Dict Bytes Nat} :
    ∀ {this : CookieJar} {r : Bytes × CookieJar},
      Returns (flushVisits visits this) r →
      ∀ visit ∈ visits, (this.cookie visit.2).isSome := by
  induction visits with
  | nil => exact fun _ => nofun
  | cons visit rest ih =>
      intro this r hrun
      obtain ⟨cookie, hcookie, hrun⟩ := returns_bind.mp hrun
      rw [returns_ofOption] at hcookie
      obtain ⟨line, -, hrun⟩ := returns_bind.mp hrun
      obtain ⟨lines, hrest, -⟩ := returns_bind.mp hrun
      refine List.forall_mem_cons.mpr ⟨by simp [hcookie], ?_⟩
      intro other hother
      have hlive := ih hrest other hother
      rw [cookie_store this (cookie_lt hcookie)] at hlive
      by_cases heq : other.2 = visit.2
      · simp [heq, hcookie]
      · rwa [if_neg heq] at hlive

theorem Valid.flushCookies_returns_iff {this : CookieJar} (hv : this.Valid)
    (order : VisitOrder) {text : Bytes} :
    (∃ after, Returns (flushCookies order this) (text, after)) ↔
      this.Ready this.jar ∧ text = unlines (this.lines (order.visits this.jar)) := by
  have hperm := order.perm this.jar
  have hready : this.Ready (order.visits this.jar) ↔ this.Ready this.jar :=
    forall_congr' fun visit => imp_congr_left hperm.mem_iff
  rw [flushCookies, ← hready]
  constructor
  · rintro ⟨after, hrun⟩
    exact (flushVisits_returns_iff
      (hv.pairwise_ne hperm (flushVisits_live hrun))).mp ⟨after, hrun⟩
  · rintro ⟨hall, htext⟩
    refine (flushVisits_returns_iff (hv.pairwise_ne hperm ?_)).mpr ⟨hall, htext⟩
    intro visit hvisit
    obtain ⟨cookie, hcookie, -⟩ := hall visit hvisit
    simp [hcookie]

end CookieJar

/-- The body with every line end (CR LF, a CR without LF, an LF without CR)
written as CR LF. -/
def normalise : Bytes → Bytes
  | [] => []
  | c :: rest =>
      if c = 13 then
        match rest with
        | [] => crlf
        | d :: tail =>
            if d = 10 then crlf ++ normalise tail
            else crlf ++ normalise (d :: tail)
      else if c = 10 then crlf ++ normalise rest
      else c :: normalise rest

theorem normalise_cr {d : UInt8} (h : d ≠ 10) (rest : Bytes) :
    normalise (13 :: d :: rest) = crlf ++ normalise (d :: rest) := by
  rw [normalise.eq_def]
  exact (if_pos rfl).trans (if_neg h)

theorem normalise_lf (rest : Bytes) :
    normalise (10 :: rest) = crlf ++ normalise rest := by
  rw [normalise.eq_def]
  exact (if_neg (by decide)).trans (if_pos rfl)

theorem normalise_byte {c : UInt8} (hcr : c ≠ 13) (hlf : c ≠ 10)
    (rest : Bytes) : normalise (c :: rest) = c :: normalise rest := by
  rw [normalise.eq_def]
  exact (if_neg hcr).trans (if_neg hlf)

namespace Response

/-- What `flush_body` still owes at the end. -/
def missing : Nat → Bytes → Bytes
  | status, [] => if status = 1 then [10] else []
  | status, c :: body => missing (bodyChar status c).2 body

/-- In status 1 a CR is written, and its LF is not. -/
theorem bodyChars_missing (body : Bytes) :
    bodyChars 0 body ++ missing 0 body = normalise body ∧
      13 :: (bodyChars 1 body ++ missing 1 body) = normalise (13 :: body) := by
  induction body with
  | nil => exact ⟨rfl, rfl⟩
  | cons c body ih =>
      obtain ⟨ih₀, ih₁⟩ := ih
      by_cases hcr : c = 13
      · subst hcr
        constructor
        · exact ih₁
        · rw [normalise_cr (by decide), ← ih₁]
          rfl
      · by_cases hlf : c = 10
        · subst hlf
          constructor
          · rw [normalise_lf, ← ih₀]
            rfl
          · change 13 :: (10 :: (bodyChars 0 body ++ missing 0 body)) = _
            rw [ih₀]
            rfl
        · have hchar : bodyChar 0 c = ([c], 0) ∧
              bodyChar 1 c = ([10, c], 0) := by
            simp [bodyChar, hcr, hlf]
          constructor
          · rw [normalise_byte hcr hlf, ← ih₀, bodyChars, missing, hchar.1]
            rfl
          · rw [normalise_cr hlf, normalise_byte hcr hlf, ← ih₀, bodyChars,
              missing, hchar.2]
            rfl

theorem missing_eq_nil_iff (body : Bytes) :
    (missing 0 body = [] ↔ body.getLast? ≠ some 13) ∧
      (missing 1 body = [] ↔ (13 :: body).getLast? ≠ some 13) := by
  induction body with
  | nil => simp [missing]
  | cons c body ih =>
      obtain ⟨ih₀, ih₁⟩ := ih
      rw [List.getLast?_cons_cons]
      by_cases hcr : c = 13
      · subst hcr
        exact ⟨ih₁, ih₁⟩
      · have hstatus : (bodyChar 0 c).2 = 0 ∧ (bodyChar 1 c).2 = 0 := by
          by_cases hlf : c = 10 <;> simp [bodyChar, hcr, hlf]
        have hlast : (c :: body).getLast? ≠ some 13 ↔
            body.getLast? ≠ some 13 := by
          cases body with
          | nil => simp [hcr]
          | cons d body => rw [List.getLast?_cons_cons]
        rw [missing, missing, hstatus.1, hstatus.2, hlast]
        exact ⟨ih₀, ih₀⟩

theorem bodyChars_eq_normalise_iff (body : Bytes) :
    bodyChars 0 body = normalise body ↔ body.getLast? ≠ some 13 := by
  rw [← (bodyChars_missing body).1, List.self_eq_append_right]
  exact (missing_eq_nil_iff body).1

/-- The `Location` line of a redirection. -/
def locationLines (this : Response) : List Bytes :=
  match this.redirectPath, this.redirectFragment with
  | some path, some fragment =>
      [chars "Location: " ++ path ++
        if fragment = [] then [] else chars "#" ++ fragment]
  | _, _ => []

def headerLine (header : Bytes × Option Bytes) : Bytes :=
  header.1 ++ chars ": " ++ header.2.getD []

/-- The lines of the header section, without their ends. -/
def headLines (order : VisitOrder) (this : Response) : List Bytes :=
  [chars "Content-Type: " ++ this.contentType.getD (chars "text/plain"),
    chars "Status: " ++
      decimal (if this.status = 0 then 200 else this.status)] ++
    this.locationLines ++ (order.visits this.headers).map headerLine ++
    this.cookies.lines (order.visits this.cookies.jar)

/-- What every response of a handler keeps. -/
structure Valid (this : Response) : Prop where
  cookies : this.cookies.Valid
  redirect : this.redirectPath.isSome = this.redirectFragment.isSome

theorem Valid.flushLocation_returns {this : Response} (hv : this.Valid) :
    Returns this.flushLocation (unlines this.locationLines) := by
  have hredirect := hv.redirect
  rw [flushLocation, locationLines]
  cases hpath : this.redirectPath with
  | none => exact returns_pure_self _
  | some path =>
      cases hfragment : this.redirectFragment with
      | none => simp [hpath, hfragment] at hredirect
      | some fragment =>
          refine (returns_ofOption.mpr rfl).bind ?_
          cases fragment with
          | nil => simp [unlines]
          | cons c fragment => simp [unlines]

/-- The flush is defined when there is a body and the cookies are ready. -/
theorem Valid.flush_returns_iff {this : Response} (hv : this.Valid)
    (order : VisitOrder) {text : Bytes} :
    (∃ after, Returns (this.flush order) (text, after)) ↔
      ∃ body, this.body = some body ∧ this.cookies.Ready this.cookies.jar ∧
        text = unlines (this.headLines order) ++ crlf ++
          bodyChars 0 (cString body) := by
  have hcookies := fun lines =>
    @CookieJar.Valid.flushCookies_returns_iff _ hv.cookies order lines
  have hheaders : (order.visits this.headers).flatMap flushHeader =
      unlines ((order.visits this.headers).map headerLine) := by
    rw [unlines, List.flatMap_map]
    rfl
  have htext : ∀ lines body, chars "Content-Type: " ++
      this.contentType.getD (chars "text/plain") ++ crlf ++
      (chars "Status: " ++
        decimal (if this.status = 0 then 200 else this.status) ++ crlf) ++
      unlines this.locationLines ++
      (order.visits this.headers).flatMap flushHeader ++ lines ++ crlf ++
      body = unlines ([chars "Content-Type: " ++
        this.contentType.getD (chars "text/plain"), chars "Status: " ++
        decimal (if this.status = 0 then 200 else this.status)] ++
        this.locationLines ++ (order.visits this.headers).map headerLine) ++
        lines ++ crlf ++ body := by
    intro lines body
    rw [hheaders, unlines_append, unlines_append]
    simp [unlines]
  rw [flush]
  dsimp only
  constructor
  · rintro ⟨after, hrun⟩
    rw [hv.flushLocation_returns.bind_iff] at hrun
    obtain ⟨r, hlines, hrun⟩ := returns_bind.mp hrun
    obtain ⟨hready, hr⟩ := (hcookies r.1).mp ⟨r.2, hlines⟩
    obtain ⟨body, hbody, hrun⟩ := returns_bind.mp hrun
    cases hthis : this.body with
    | none =>
        rw [hthis] at hbody
        exact absurd hbody not_returns_undefined
    | some b =>
        rw [hthis, flushBody, returns_pure] at hbody
        obtain ⟨rfl, -⟩ := Prod.mk.inj (returns_pure.mp hrun)
        refine ⟨b, rfl, hready, ?_⟩
        rw [htext, hr, hbody, headLines, unlines_append _ (this.cookies.lines _)]
  · rintro ⟨body, hbody, hready, rfl⟩
    obtain ⟨cookies, hlines⟩ := (hcookies _).mpr ⟨hready, rfl⟩
    refine ⟨{ this with cookies := cookies },
      hv.flushLocation_returns.bind (hlines.bind ?_)⟩
    rw [hbody]
    refine (returns_pure_self _).bind ?_
    rw [htext, headLines, unlines_append _ (this.cookies.lines _)]
    exact returns_pure_self _

/-- The flush is defined, and writes the lines of the header section, an empty
line and the normalised body. -/
def Flushes (order : VisitOrder) (this : Response) : Prop :=
  ∃ body after, this.body = some body ∧
    Returns (this.flush order)
      (unlines (this.headLines order) ++ crlf ++ normalise (cString body), after)

/-- There is a body, which does not end in a CR, and the cookies of the jar are
live and ready. -/
def Flushable (this : Response) : Prop :=
  (∃ body, this.body = some body ∧ (cString body).getLast? ≠ some 13) ∧
    this.cookies.Ready this.cookies.jar

theorem Valid.flushes_iff {this : Response} (hv : this.Valid)
    (order : VisitOrder) : this.Flushes order ↔ this.Flushable := by
  constructor
  · rintro ⟨body, after, hbody, hrun⟩
    obtain ⟨body', hbody', hready, htext⟩ :=
      (hv.flush_returns_iff order).mp ⟨after, hrun⟩
    rw [hbody] at hbody'
    cases hbody'
    have hnormal := List.append_cancel_left htext
    exact ⟨⟨body, hbody, (bodyChars_eq_normalise_iff _).mp hnormal.symm⟩,
      hready⟩
  · rintro ⟨⟨body, hbody, hlast⟩, hready⟩
    have hnormal := (bodyChars_eq_normalise_iff _).mpr hlast
    obtain ⟨after, hrun⟩ :=
      (hv.flush_returns_iff order).mpr ⟨body, hbody, hready, rfl⟩
    exact ⟨body, after, hbody, hnormal ▸ hrun⟩

end Response

end Libcad
