/-
The cookies of `cad_cgi_cookies.c`: the cookie objects, the jar, the parser of
HTTP_COOKIE and the lines of a flush.

The jar is a hash table used through its interface; its iteration visits the
entries in an order of its own.
-/
import Libcad.CgiQuery

namespace Libcad

/-- A `char *` field: what the block held before it was allocated, NULL, or a
string. -/
inductive CharPtr
  | wild
  | null
  | string (s : Bytes)
deriving Repr, DecidableEq

def CharPtr.free : CharPtr → Proc Unit
  | .wild => Proc.undefined
  | .null | .string _ => pure ()

/-- `cookie_impl`.  `flag` is made of the bits of `cad_cgi_cookie_flag_e`. -/
structure Cookie where
  changed : Bool
  name : Bytes
  value : CharPtr
  expires : Int
  maxAge : Int
  flag : Nat
  domain : Option Bytes
  path : Option Bytes
deriving Repr, DecidableEq

/-- `Cookie_secure` -/
def cookieSecure : Nat := 1

/-- `Cookie_http_only` -/
def cookieHttpOnly : Nat := 2

/-- `new_cad_cgi_cookie`, in a block whose bytes of `value` are not those of
NULL when it is stale. -/
def newCadCgiCookie (stale : Bool) (name : Bytes) : Cookie where
  changed := false
  name := name
  value := if stale then .wild else .null
  expires := 0
  maxAge := 0
  flag := 0
  domain := none
  path := none

namespace Cookie

/-- `set_value`; `allocated` says whether `malloc` answers a block. -/
def setValue (allocated : Bool) (this : Cookie) (value : Bytes) :
    Proc (Int × Cookie) := do
  this.value.free
  if allocated then
    pure (0, { this with value := .string value, changed := true })
  else pure (-1, { this with value := .null })

def setExpires (this : Cookie) (expires : Int) : Int × Cookie :=
  if this.maxAge = 0 then
    (0, { this with expires := expires, changed := true })
  else (-1, this)

def setMaxAge (this : Cookie) (maxAge : Int) : Int × Cookie :=
  if this.expires = 0 then (0, { this with maxAge := maxAge, changed := true })
  else (-1, this)

def setDomain (allocated : Bool) (this : Cookie) (domain : Bytes) :
    Int × Cookie :=
  if allocated then (0, { this with domain := some domain, changed := true })
  else (-1, { this with domain := none })

def setPath (allocated : Bool) (this : Cookie) (path : Bytes) :
    Int × Cookie :=
  if allocated then (0, { this with path := some path, changed := true })
  else (-1, { this with path := none })

def setFlag (this : Cookie) (flag : Nat) : Int × Cookie :=
  (0, { this with flag := flag, changed := true })

end Cookie

/-- The cookies allocated so far, in the order of their allocation, freed ones
as `none`, and the `jar` of `cookies_impl`. -/
structure CookieJar where
  objects : List (Option Cookie)
  jar : Dict Bytes Nat

namespace CookieJar

/-- The live cookie a pointer points to.  A pointer to a freed cookie must not
be followed. -/
def cookie (this : CookieJar) (pointer : Nat) : Option Cookie :=
  this.objects[pointer]?.join

def store (this : CookieJar) (pointer : Nat) (cookie : Cookie) : CookieJar :=
  { this with objects := this.objects.set pointer (some cookie) }

/-- `new_cad_cgi_cookie` in the next block. -/
def allocate (stale : Nat → Bool) (this : CookieJar) (name : Bytes) :
    Nat × CookieJar :=
  let pointer := this.objects.length
  let cookie := newCadCgiCookie (stale pointer) name
  (pointer, { this with objects := this.objects ++ [some cookie] })

def freeCookie (this : CookieJar) (pointer : Nat) : Proc CookieJar := do
  let cookie ← Proc.ofOption (this.cookie pointer)
  cookie.value.free
  pure { this with objects := this.objects.set pointer none }

def get (this : CookieJar) (name : Bytes) : Option Nat :=
  Dict.get stringsEqual this.jar name

def set (this : CookieJar) (pointer : Nat) : Proc (Int × CookieJar) := do
  let cookie ← Proc.ofOption (this.cookie pointer)
  let name := cookie.name
  let jar := Dict.set stringsEqual name name pointer this.jar
  match this.get name with
  | some old => do
      let this ← { this with jar := jar }.freeCookie old
      pure (0, this)
  | none => pure (0, { this with jar := jar })

end CookieJar

def hex (c : UInt8) : Int := (hexDigit (charToInt c)).getD 0

/-- The first loop of `parse_cookie_value`: the bytes it counts, after those it
skips. -/
def valueSize : Nat → Bytes → Nat
  | _, [] => 0
  | skip + 1, _ :: rest => valueSize skip rest
  | 0, c :: rest =>
      if c = ascii '%' then valueSize 2 rest + 1 else valueSize 0 rest + 1

/-- The local variables of the second loop of `parse_cookie_value`. -/
structure ValueState where
  s : Nat
  d : Int
  result : Bytes
deriving Repr, DecidableEq

/-- The `switch` of `parse_cookie_value`.  The low four bits of `d << 4` are
free for the second digit. -/
def valueChar (st : ValueState) (c : UInt8) : ValueState :=
  match st.s with
  | 0 =>
      if c = ascii '%' then { st with s := 1 }
      else { st with result := st.result ++ [c] }
  | 1 => { st with d := hex c, s := 2 }
  | _ =>
      let d := st.d * 16 + hex c
      { st with d := d, result := st.result ++ [intToChar d], s := 0 }

/-- `parse_cookie_value` on the bytes between `start` and `end`; `d` is set
before it is read. -/
def parseCookieValue (text : Bytes) : Proc Bytes :=
  let st := text.foldl valueChar ⟨0, 0, []⟩
  if st.result.length ≤ valueSize 0 text then pure st.result
  else Proc.undefined

def bytesBetween (start stop : Bytes) : Bytes :=
  start.take (start.length - stop.length)

def parseCookieName (start stop : Bytes) : Bytes := bytesBetween start stop

/-- The variables of `parse_cookies`; a pointer into the header is the rest of
the header from there on. -/
structure CookieScan where
  state : Nat
  httpCookie : Bytes
  name : Bytes
  value : Option Bytes
  jar : CookieJar

/-- `*http_cookie` -/
def CookieScan.char (st : CookieScan) : UInt8 := st.httpCookie.head?.getD 0

/-- A parsed cookie goes into the jar, unchanged; the cookie it displaces is
not freed. -/
def CookieJar.add (stale : Nat → Bool) (jar : CookieJar) (name : Bytes)
    (value : Option Bytes) : Proc CookieJar := do
  let (pointer, jar) := jar.allocate stale name
  let cookie := newCadCgiCookie (stale pointer) name
  let cookie ← match value with
    | none => pure cookie
    | some value => do
        let (_, cookie) ← cookie.setValue true (cString value)
        pure cookie
  let jar := jar.store pointer { cookie with changed := false }
  pure { jar with jar := Dict.set stringsEqual name name pointer jar.jar }

/-- The `switch` of `parse_cookies` on one byte. -/
def cookieChar (stale : Nat → Bool) (st : CookieScan) : Proc CookieScan :=
  let after := if st.char = 0 then 0 else 3
  match st.state with
  | 1 =>
      if st.char = ascii '=' then
        pure { st with state := 2, value := some st.httpCookie.tail }
      else if st.char = 0 ∨ st.char = ascii ';' then do
        let name := parseCookieName st.name st.httpCookie
        let jar ← CookieJar.add stale st.jar name none
        pure { st with jar := jar, state := after }
      else pure st
  | 2 =>
      if st.char = 0 ∨ st.char = ascii ';' then
        match st.value with
        | none => Proc.undefined
        | some value => do
            let name := parseCookieName st.name (ascii '=' :: value)
            let v ← parseCookieValue (bytesBetween value st.httpCookie)
            let jar ← CookieJar.add stale st.jar name (some v)
            pure { st with jar := jar, state := after }
      else pure st
  | _ =>
      if st.char = ascii ' ' then pure st
      else
        pure { st with
          name := st.httpCookie, value := none,
          state := if st.char = 0 then 0 else 1 }

/-- One iteration of the loop of `parse_cookies`. -/
def cookieStep (stale : Nat → Bool) (st : CookieScan) :
    Proc (CookieScan ⊕ CookieJar) :=
  if st.state = 0 then pure (.inr st.jar)
  else do
    let st ← cookieChar stale st
    if st.state = 0 then pure (.inl st)
    else pure (.inl { st with httpCookie := st.httpCookie.tail })

def parseCookies (stale : Nat → Bool) (httpCookie : Bytes)
    (jar : CookieJar) : Proc CookieJar :=
  Proc.loop (cookieStep stale)
    { state := if httpCookie = [] then 0 else 1, httpCookie := httpCookie,
      name := httpCookie, value := none, jar := jar }

/-- `new_cookies`, with the value of HTTP_COOKIE if it is set. -/
def newCookies (stale : Nat → Bool) (httpCookie : Option Bytes) :
    Proc CookieJar :=
  match httpCookie with
  | none => pure ⟨[], []⟩
  | some httpCookie => parseCookies stale httpCookie ⟨[], []⟩

/-- `encode_value`, one byte -/
def encodeByte (c : UInt8) : Bytes :=
  if c = ascii '%' then chars "%25"
  else if c = ascii '=' then chars "%3d"
  else if c = ascii ';' then chars "%3b"
  else [c]

/-- The first loop of `encode_value`: the size of the block. -/
def encodedSize (value : Bytes) : Nat :=
  value.foldl (fun count c =>
    if c = ascii '%' ∨ c = ascii '=' ∨ c = ascii ';' then count + 3
    else count + 1) 1

def encoded (value : Bytes) : Bytes := value.flatMap encodeByte

/-- `encode_value`; the second loop stores the bytes and a NUL. -/
def encodeValue : CharPtr → Proc Bytes
  | .string value =>
      let result := encoded value
      if result.length + 1 ≤ encodedSize value then pure result
      else Proc.undefined
  | .null | .wild => Proc.undefined

/-- `struct tm`, with the year itself. -/
structure Tm where
  year : Nat
  mon : Nat
  mday : Nat
  hour : Nat
  min : Nat
  sec : Nat
  wday : Nat
deriving Repr, DecidableEq

/-- `gmtime_r`; it fails when the year does not fit an `int`.  Years start in
March, so that a leap day ends its year, its four years and its 400 years. -/
def gmtime (t : Nat) : Option Tm :=
  let days := t / 86400
  let dayOfEra := (days + 719468) % 146097
  let century := min (dayOfEra / 36524) 3
  let dayOfCentury := dayOfEra - century * 36524
  let yearOfFour := min (dayOfCentury % 1461 / 365) 3
  let dayOfYear := dayOfCentury % 1461 - yearOfFour * 365
  let month := (5 * dayOfYear + 2) / 153
  let year := (days + 719468) / 146097 * 400 + century * 100 +
    dayOfCentury / 1461 * 4 + yearOfFour + if month < 10 then 0 else 1
  if year ≤ 2147483647 + 1900 then
    some {
      year := year
      mon := if month < 10 then month + 2 else month - 10
      mday := dayOfYear - (153 * month + 2) / 5 + 1
      hour := t % 86400 / 3600
      min := t % 3600 / 60
      sec := t % 60
      wday := (days + 4) % 7 }
  else none

/-- `DAY_NAMES` -/
def dayNames : List Bytes :=
  ["Sun", "Mon", "Tue", "Wed", "Thu", "Fri", "Sat"].map chars

/-- `MONTH_NAMES` -/
def monthNames : List Bytes :=
  ["Jan", "Feb", "Mar", "Apr", "May", "Jun",
    "Jul", "Aug", "Sep", "Oct", "Nov", "Dec"].map chars

/-- Two digits of a `strftime` conversion. -/
def twoDigits (n : Nat) : Bytes :=
  [UInt8.ofNat (48 + n / 10), UInt8.ofNat (48 + n % 10)]

/-- `strftime(buf, buflen, "---, %d --- %Y %H:%M:%S GMT", &tm)`: the text it
makes, if that fits. -/
def strftime (buflen : Nat) (tm : Tm) : Option Bytes :=
  let text := chars "---, " ++ twoDigits tm.mday ++ chars " --- " ++
    decimal tm.year ++ chars " " ++ twoDigits tm.hour ++ chars ":" ++
    twoDigits tm.min ++ chars ":" ++ twoDigits tm.sec ++ chars " GMT"
  if text.length < buflen then some text else none

/-- `rfc1123`, and the buffer as a string.  A date `gmtime_r` cannot break
down leaves `tm` unset, a date that does not fit leaves the buffer unset. -/
def rfc1123 (t : Nat) (buflen : Nat) : Proc Bytes := do
  let tm ← Proc.ofOption (gmtime t)
  let buf ← Proc.ofOption (strftime buflen tm)
  let day ← Proc.ofOption dayNames[tm.wday]?
  let month ← Proc.ofOption monthNames[tm.mon]?
  pure (day ++ (buf.drop 3).take 5 ++ month ++ buf.drop 11)

/-- `\r\n` -/
def crlf : Bytes := [13, 10]

/-- What `flush_cookie` puts after the date. -/
def Cookie.attributes (this : Cookie) : Bytes :=
  let maxAge :=
    if this.maxAge > 0 then chars "; Max-Age=" ++ decimal this.maxAge else []
  let domain :=
    match this.domain with
    | some domain => chars "; Domain=" ++ domain
    | none => []
  let path :=
    match this.path with
    | some path => chars "; Path=" ++ path
    | none => []
  let secure := if this.flag &&& cookieSecure ≠ 0 then chars "; Secure" else []
  let httpOnly :=
    if this.flag &&& cookieHttpOnly ≠ 0 then chars "; HttpOnly" else []
  maxAge ++ domain ++ path ++ secure ++ httpOnly

/-- The `Expires` part of `flush_cookie`. -/
def flushExpires (cookie : Cookie) : Proc Bytes :=
  if cookie.expires > 0 then do
    let buf ← rfc1123 cookie.expires.toNat 30
    pure (chars "; Expires=" ++ buf)
  else pure []

/-- `flush_cookie`: what it puts, and the cookie after it. -/
def flushCookie (cookie : Cookie) : Proc (Bytes × Cookie) :=
  if cookie.changed then do
    let encodedValue ← encodeValue cookie.value
    let value := if cookie.value = .null then [] else encodedValue
    let expires ← flushExpires cookie
    pure (chars "Set-Cookie: " ++ cookie.name ++ chars "=" ++ value ++
      expires ++ cookie.attributes ++ crlf, { cookie with changed := false })
  else pure ([], { cookie with changed := false })

/-- The order in which a hash table visits its entries. -/
structure VisitOrder where
  visits : ∀ {V : Type}, Dict Bytes V → Dict Bytes V
  perm : ∀ {V : Type} (d : Dict Bytes V), (visits d).Perm d

/-- `flush_cookie` on the visits of the jar in turn. -/
def flushVisits : Dict Bytes Nat → CookieJar → Proc (Bytes × CookieJar)
  | [], this => pure ([], this)
  | visit :: rest, this => do
      let cookie ← Proc.ofOption (this.cookie visit.2)
      let (line, cookie) ← flushCookie cookie
      let (lines, this) ← flushVisits rest (this.store visit.2 cookie)
      pure (line ++ lines, this)

def flushCookies (order : VisitOrder) (this : CookieJar) :
    Proc (Bytes × CookieJar) :=
  flushVisits (order.visits this.jar) this

end Libcad
