/-
Cookies and responses from their creation to their end: every function of their
interfaces, with what it answers.  What the allocated blocks held before is a
parameter.
-/
import Libcad.CgiMeta
import Libcad.CgiResponse
import Libcad.Lifetime

namespace Libcad

open Proc

/-- A pointer that is NULL or a string can be read. -/
def CharPtr.load : CharPtr → Proc (Option Bytes)
  | .wild => Proc.undefined
  | .null => pure none
  | .string s => pure (some s)

/-- The functions of `cad_cgi_cookie_t`, but for `free`; a flag says whether
the `malloc` of a setter answers a block. -/
inductive CookieCall
  | name
  | value
  | setValue (allocated : Bool) (value : Bytes)
  | expires
  | setExpires (expires : Int)
  | maxAge
  | setMaxAge (maxAge : Int)
  | domain
  | setDomain (allocated : Bool) (domain : Bytes)
  | path
  | setPath (allocated : Bool) (path : Bytes)
  | flag
  | setFlag (flag : Nat)
deriving Repr, DecidableEq

/-- What they answer. -/
inductive CookieReport
  | number (n : Int)
  | text (s : Option Bytes)
deriving Repr, DecidableEq

namespace Cookie

def call (this : Cookie) : CookieCall → Proc (CookieReport × Cookie)
  | .name => pure (.text (some this.name), this)
  | .value => do
      let value ← this.value.load
      pure (.text value, this)
  | .setValue allocated value => do
      let (result, this) ← this.setValue allocated value
      pure (.number result, this)
  | .expires => pure (.number this.expires, this)
  | .setExpires expires =>
      let (result, this) := this.setExpires expires
      pure (.number result, this)
  | .maxAge => pure (.number this.maxAge, this)
  | .setMaxAge maxAge =>
      let (result, this) := this.setMaxAge maxAge
      pure (.number result, this)
  | .domain => pure (.text this.domain, this)
  | .setDomain allocated domain =>
      let (result, this) := this.setDomain allocated domain
      pure (.number result, this)
  | .path => pure (.text this.path, this)
  | .setPath allocated path =>
      let (result, this) := this.setPath allocated path
      pure (.number result, this)
  | .flag => pure (.number this.flag, this)
  | .setFlag flag =>
      let (result, this) := this.setFlag flag
      pure (.number result, this)

/-- `free_cookie`: what the blocks it gives to `free` hold. -/
def free (this : Cookie) : Proc (List (Option Bytes)) := do
  let value ← this.value.load
  pure [this.domain, this.path, value]

end Cookie

namespace CookieJar

/-- `free_cookie` of a cookie that is known by its pointer. -/
def free (this : CookieJar) (pointer : Nat) :
    Proc (List (Option Bytes) × CookieJar) := do
  let cookie ← Proc.ofOption (this.cookie pointer)
  let freed ← cookie.free
  let this ← this.freeCookie pointer
  pure (freed, this)

/-- `clean_cookie` on the visits of the jar in turn. -/
def freeVisits : Dict Bytes Nat → CookieJar → Proc (List (Option Bytes))
  | [], _ => pure []
  | visit :: rest, this => do
      let (freed, this) ← this.free visit.2
      let more ← freeVisits rest this
      pure (freed ++ more)

def freeCookies (order : VisitOrder) (this : CookieJar) :
    Proc (List (Option Bytes)) :=
  freeVisits (order.visits this.jar) this

end CookieJar

/-- `clean` of a table of strings. -/
def cleanStrings (order : VisitOrder) (hash : StringHash) :
    List (Option Bytes) :=
  (order.visits hash).map Prod.snd

/-- `clean` and `free` of a table that may be NULL. -/
def HashPtr.free (order : VisitOrder) : HashPtr → Proc (List (Option Bytes))
  | .wild => Proc.undefined
  | .null => pure []
  | .table hash => pure (cleanStrings order hash)

/-- The strings `free_meta` frees, before and after that of
`server_protocol`; `server_name` is not one of them. -/
def freedFields : List StringField :=
  [.pathInfo, .pathTranslated, .remoteAddr, .remoteHost, .remoteIdent,
    .remoteUser, .requestMethod, .scriptName]

/-- A row of calls of `free`. -/
def freeStrings (strings : StringField → CharPtr) :
    List StringField → Proc (List (Option Bytes))
  | [] => pure []
  | field :: fields => do
      let text ← (strings field).load
      let more ← freeStrings strings fields
      pure (text :: more)

/-- `free_meta`: what the strings it frees hold. -/
def freeMeta {τ : Type} (order : VisitOrder) (this : MetaImpl τ) :
    Proc (List (Option Bytes)) := do
  let form ← this.inputAsForm.free order
  let query ← this.queryString.free order
  let strings ← freeStrings this.strings freedFields
  let software ← freeStrings this.strings [.serverSoftware]
  pure (form ++ query ++ [this.contentType.type, this.contentType.subtype] ++
    cleanStrings order this.contentType.parameters ++ strings ++
    [this.serverProtocol.protocol] ++ software)

/-- A response with its meta variables and its descriptor. -/
structure Handling (τ : Type) where
  response : Response
  metaState : MetaState τ
  fd : Int

/-- What the allocator's blocks happen to hold: which of the blocks of cookies
have bytes in `value` that are not those of NULL, and the block of the meta
variables.  What is left in a pointer is not a pointer to go by. -/
structure HeapContents (τ : Type) where
  cookies : Nat → Bool
  block : MetaImpl τ
  inputAsForm_left : ∀ hash, block.inputAsForm ≠ .table hash
  serverName_left : ∀ text, block.strings .serverName ≠ .string text

def HeapContents.zero (τ : Type) : HeapContents τ where
  cookies _ := false
  block := ⟨0, 0, newContentType, ⟨0, 0⟩, fun _ => .null, .null, .null, 0,
    ⟨0, 0, none⟩, none⟩
  inputAsForm_left := nofun
  serverName_left := nofun

/-- The functions of `cad_cgi_response_t`, of its cookies, of its stream and of
its meta variables, but for `free`. -/
inductive ResponseCall
  | redirect (pathAllocated fragmentAllocated : Bool)
      (path fragment : Option Bytes)
  | setStatus (status : Int)
  | setContentType (allocated : Bool) (contentType : Option Bytes)
  | setHeader (allocated : Bool) (field value : Option Bytes)
  | putBody (text : Bytes)
  | fd
  | flush
  | metaVariables (call : MetaCall)
  | getCookie (name : Bytes)
  | setCookie (pointer : Nat)
  | iterateCookies
  | newCookie (name : Bytes)
  | cookie (pointer : Nat) (call : CookieCall)
  | freeCookie (pointer : Nat)
deriving DecidableEq

/-- What they answer, put or give to `free`. -/
inductive ResponseReport
  | number (n : Int)
  | output (text : Bytes)
  | metaVariables (report : MetaReport)
  | pointer (cookie : Option Nat)
  | pointers (cookies : List Nat)
  | cookie (report : CookieReport)
  | freed (blocks : List (Option Bytes))

namespace Handling

variable {τ : Type}

/-- The response is left with another one in its place. -/
def answer (st : Handling τ) (result : Int × Response) :
    Proc (ResponseReport × Handling τ) :=
  pure (.number result.1, { st with response := result.2 })

def withCookies (st : Handling τ) (cookies : CookieJar) : Handling τ :=
  { st with response := { st.response with cookies := cookies } }

/-- One call; `stale` says what the blocks of new cookies hold. -/
def call (arith : IntArith) (fns : StreamFns τ) (order : VisitOrder)
    (stale : Nat → Bool) (st : Handling τ) :
    ResponseCall → Proc (ResponseReport × Handling τ)
  | .redirect pathAllocated fragmentAllocated path fragment =>
      st.answer (st.response.redirect pathAllocated fragmentAllocated path
        fragment)
  | .setStatus status => st.answer (st.response.setStatus status)
  | .setContentType allocated contentType =>
      st.answer (st.response.setContentType allocated contentType)
  | .setHeader allocated field value => do
      let result ← st.response.setHeader allocated field value
      st.answer result
  | .putBody text => st.answer (0, st.response.putBody text)
  | .fd => pure (.number st.fd, st)
  | .flush => do
      let (text, response) ← st.response.flush order
      pure (.output text, { st with response := response })
  | .metaVariables call => do
      let (report, metaState) ← st.metaState.call arith fns call
      pure (.metaVariables report, { st with metaState := metaState })
  | .getCookie name => pure (.pointer (st.response.cookies.get name), st)
  | .setCookie pointer => do
      let (result, cookies) ← st.response.cookies.set pointer
      pure (.number result, st.withCookies cookies)
  | .iterateCookies =>
      pure (.pointers ((order.visits st.response.cookies.jar).map Prod.snd),
        st)
  | .newCookie name =>
      let (pointer, cookies) := st.response.cookies.allocate stale name
      pure (.pointer (some pointer), st.withCookies cookies)
  | .cookie pointer call => do
      let cookie ← Proc.ofOption (st.response.cookies.cookie pointer)
      let (report, cookie) ← cookie.call call
      pure (.cookie report,
        st.withCookies (st.response.cookies.store pointer cookie))
  | .freeCookie pointer => do
      let (freed, cookies) ← st.response.cookies.free pointer
      pure (.freed freed, st.withCookies cookies)

/-- The call that an operation of a handler is. -/
def op : ResponseOp → ResponseCall
  | .redirect path fragment => .redirect true true path fragment
  | .setStatus status => .setStatus status
  | .setContentType contentType => .setContentType true contentType
  | .setHeader field value => .setHeader true field value
  | .putBody text => .putBody text
  | .newCookie name => .newCookie name
  | .setValue pointer value => .cookie pointer (.setValue true value)
  | .setExpires pointer expires => .cookie pointer (.setExpires expires)
  | .setMaxAge pointer maxAge => .cookie pointer (.setMaxAge maxAge)
  | .setDomain pointer domain => .cookie pointer (.setDomain true domain)
  | .setPath pointer path => .cookie pointer (.setPath true path)
  | .setFlag pointer flag => .cookie pointer (.setFlag flag)
  | .setCookie pointer => .setCookie pointer

theorem call_cookie {arith : IntArith} {fns : StreamFns τ} {order : VisitOrder}
    {stale : Nat → Bool} {st : Handling τ} {pointer : Nat} {call : CookieCall}
    {setter : Cookie → Proc (Int × Cookie)}
    (hsetter : ∀ cookie : Cookie,
      Agree (fun a b => a.2 = b.2) (cookie.call call) (setter cookie)) :
    Agree (fun a response => a.2 = { st with response := response })
      (st.call arith fns order stale (.cookie pointer call))
      (st.response.withCookie pointer setter) := by
  refine (Agree.refl _).bind fun cookie cookie' hcookie => ?_
  rw [show cookie = cookie' from hcookie]
  refine (hsetter cookie').bind ?_
  rintro ⟨report, next⟩ ⟨result, next'⟩ hnext
  exact Agree.pure (by rw [show next = next' from hnext]; rfl)

/-- A handler leaves the response that it leaves when its operations answer
nothing. -/
theorem call_op {arith : IntArith} {fns : StreamFns τ} {order : VisitOrder}
    {stale : Nat → Bool} {st : Handling τ} (o : ResponseOp) :
    Agree (fun a response => a.2 = { st with response := response })
      (st.call arith fns order stale (op o)) (st.response.step stale o) := by
  cases o with
  | setHeader field value =>
      refine (Agree.refl _).bind fun result result' hresult => ?_
      rw [show result = result' from hresult]
      exact Agree.pure rfl
  | setValue pointer value =>
      refine call_cookie fun cookie => ?_
      exact (Agree.refl _).map_left fun a b hab => congrArg Prod.snd hab
  | setCookie pointer =>
      refine (Agree.refl _).bind fun result result' hresult => ?_
      rw [show result = result' from hresult]
      exact Agree.pure rfl
  | setExpires pointer expires => exact call_cookie fun _ => Agree.pure rfl
  | setMaxAge pointer maxAge => exact call_cookie fun _ => Agree.pure rfl
  | setDomain pointer domain => exact call_cookie fun _ => Agree.pure rfl
  | setPath pointer path => exact call_cookie fun _ => Agree.pure rfl
  | setFlag pointer flag => exact call_cookie fun _ => Agree.pure rfl
  | _ => exact Agree.pure rfl

/-- `free_response`: what the blocks it gives to `free` hold. -/
def free (order : VisitOrder) (st : Handling τ) :
    Proc (List (Option Bytes)) := do
  let cookies ← st.response.cookies.freeCookies order
  let strings ← freeMeta order st.metaState.this
  pure (cookies ++ strings ++ [st.response.body, st.response.redirectPath,
    st.response.redirectFragment, st.response.contentType] ++
    cleanStrings order st.response.headers)

end Handling

/-- `new_cad_cgi_response` with its `new_meta`. -/
def newHandling {τ : Type} (heap : HeapContents τ) (env : Env)
    (input : Option (InputStream τ)) (fd : Int) : Proc (Handling τ) := do
  let response ← Response.newCadCgiResponse heap.cookies (env "HTTP_COOKIE")
  pure {
    response := response,
    metaState := { this := newMeta heap.block env input, env := env },
    fd := fd }

/-- A response from its creation to its end. -/
def handle {τ : Type} (arith : IntArith) (fns : StreamFns τ)
    (order : VisitOrder) (heap : HeapContents τ) (env : Env)
    (input : Option (InputStream τ)) (fd : Int) (calls : List ResponseCall) :
    Proc (List ResponseReport × List (Option Bytes)) := do
  let st ← newHandling heap env input fd
  lifetime (Handling.call arith fns order heap.cookies) (Handling.free order)
    calls st

end Libcad
