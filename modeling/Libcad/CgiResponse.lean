/-
The response of `cad_cgi.c`: the operations of a handler and the flush.
-/
import Libcad.CgiCookies

namespace Libcad

open Proc

/-- `response_impl`, less what no operation here reads.  The body is NULL until
the first `put` of its stream. -/
structure Response where
  cookies : CookieJar
  body : Option Bytes
  redirectPath : Option Bytes
  redirectFragment : Option Bytes
  status : Int
  contentType : Option Bytes
  headers : StringHash

namespace Response

/-- `redirect`; the two flags say whether its two `malloc`s answer a block. -/
def redirect (pathAllocated fragmentAllocated : Bool) (this : Response)
    (path fragment : Option Bytes) : Int × Response :=
  match this.body, path, fragment with
  | none, some path, some fragment =>
      if pathAllocated then
        if fragmentAllocated then
          (0, { this with
            redirectPath := some path, redirectFragment := some fragment })
        else
          (-1, { this with redirectPath := none, redirectFragment := none })
      else (-1, { this with redirectPath := none, redirectFragment := none })
  | _, _, _ => (-1, this)

def setStatus (this : Response) (status : Int) : Int × Response :=
  (0, { this with status := status })

def setContentType (allocated : Bool) (this : Response)
    (contentType : Option Bytes) : Int × Response :=
  match contentType with
  | none => (-1, this)
  | some contentType =>
      if allocated then (0, { this with contentType := some contentType })
      else (-1, { this with contentType := none })

/-- The fields `set_header` refuses. -/
def refusedFields : List Bytes :=
  [chars "Status", chars "Content-Type", chars "Location", chars "Cookie",
    chars "Set-Cookie"]

def setHeader (allocated : Bool) (this : Response)
    (field value : Option Bytes) : Proc (Int × Response) :=
  match field, value with
  | some field, some value =>
      if ∀ refused ∈ refusedFields, strcasecmp (cString field) refused ≠ 0 then
        if allocated then do
          let headers ← this.headers.set (some field) (some value)
          pure (0, { this with headers := headers })
        else pure (-1, this)
      else pure (-1, this)
  | _, _ => pure (-1, this)

/-- `put` on the stream of `body`, of a text already formatted. -/
def putBody (this : Response) (text : Bytes) : Response :=
  { this with body := some (this.body.getD [] ++ text) }

/-- `new_cad_cgi_response`, with the value of HTTP_COOKIE if it is set. -/
def newCadCgiResponse (stale : Nat → Bool) (httpCookie : Option Bytes) :
    Proc Response := do
  let cookies ← newCookies stale httpCookie
  pure {
    cookies := cookies, body := none, redirectPath := none,
    redirectFragment := none, status := 0, contentType := none, headers := [] }

/-- The `switch` of `flush_body`: what is put for a byte, and the next
status. -/
def bodyChar (status : Nat) (c : UInt8) : Bytes × Nat :=
  match status with
  | 0 => if c = 13 then ([13], 1) else if c = 10 then ([13, 10], 0) else ([c], 0)
  | 1 => if c = 13 then ([10, 13], 1) else if c = 10 then ([10], 0)
      else ([10, c], 0)
  | status => ([], status)

/-- The loop of `flush_body`. -/
def bodyChars : Nat → Bytes → Bytes
  | _, [] => []
  | status, c :: body =>
      (bodyChar status c).1 ++ bodyChars (bodyChar status c).2 body

/-- `flush_body`; the NULL body is dereferenced. -/
def flushBody : Option Bytes → Proc Bytes
  | none => Proc.undefined
  | some body => pure (bodyChars 0 (cString body))

def flushHeader (header : Bytes × Option Bytes) : Bytes :=
  header.1 ++ chars ": " ++ header.2.getD [] ++ crlf

/-- The `Location` line of `flush_response`. -/
def flushLocation (this : Response) : Proc Bytes :=
  match this.redirectPath with
  | none => pure []
  | some path => do
      let fragment ← Proc.ofOption this.redirectFragment
      if fragment.length > 0 then
        pure (chars "Location: " ++ path ++ chars "#" ++ fragment ++ crlf)
      else pure (chars "Location: " ++ path ++ crlf)

/-- `flush_response`: what it puts, and the response after it. -/
def flush (order : VisitOrder) (this : Response) :
    Proc (Bytes × Response) := do
  let contentType :=
    chars "Content-Type: " ++ this.contentType.getD (chars "text/plain") ++ crlf
  let status := chars "Status: " ++
    decimal (if this.status = 0 then 200 else this.status) ++ crlf
  let location ← this.flushLocation
  let headers := (order.visits this.headers).flatMap flushHeader
  let (cookieLines, cookies) ← flushCookies order this.cookies
  let body ← flushBody this.body
  pure (contentType ++ status ++ location ++ headers ++ cookieLines ++ crlf ++
    body, { this with cookies := cookies })

end Response

/-- What a handler does to its response.  A cookie is known by its pointer. -/
inductive ResponseOp
  | redirect (path fragment : Option Bytes)
  | setStatus (status : Int)
  | setContentType (contentType : Option Bytes)
  | setHeader (field value : Option Bytes)
  | putBody (text : Bytes)
  | newCookie (name : Bytes)
  | setValue (pointer : Nat) (value : Bytes)
  | setExpires (pointer : Nat) (expires : Int)
  | setMaxAge (pointer : Nat) (maxAge : Int)
  | setDomain (pointer : Nat) (domain : Bytes)
  | setPath (pointer : Nat) (path : Bytes)
  | setFlag (pointer : Nat) (flag : Nat)
  | setCookie (pointer : Nat)
deriving DecidableEq

namespace Response

def withCookie (this : Response) (pointer : Nat)
    (setter : Cookie → Proc (Int × Cookie)) : Proc Response := do
  let cookie ← Proc.ofOption (this.cookies.cookie pointer)
  let (_, cookie) ← setter cookie
  pure { this with cookies := this.cookies.store pointer cookie }

/-- One operation, with allocation succeeding. -/
def step (stale : Nat → Bool) (this : Response) : ResponseOp → Proc Response
  | .redirect path fragment => pure (this.redirect true true path fragment).2
  | .setStatus status => pure (this.setStatus status).2
  | .setContentType contentType => pure (this.setContentType true contentType).2
  | .setHeader field value => do
      let (_, this) ← this.setHeader true field value
      pure this
  | .putBody text => pure (this.putBody text)
  | .newCookie name =>
      pure { this with cookies := (this.cookies.allocate stale name).2 }
  | .setValue pointer value =>
      this.withCookie pointer fun cookie => cookie.setValue true value
  | .setExpires pointer expires =>
      this.withCookie pointer fun cookie => pure (cookie.setExpires expires)
  | .setMaxAge pointer maxAge =>
      this.withCookie pointer fun cookie => pure (cookie.setMaxAge maxAge)
  | .setDomain pointer domain =>
      this.withCookie pointer fun cookie => pure (cookie.setDomain true domain)
  | .setPath pointer path =>
      this.withCookie pointer fun cookie => pure (cookie.setPath true path)
  | .setFlag pointer flag =>
      this.withCookie pointer fun cookie => pure (cookie.setFlag flag)
  | .setCookie pointer => do
      let (_, cookies) ← this.cookies.set pointer
      pure { this with cookies := cookies }

def run (stale : Nat → Bool) : List ResponseOp → Response → Proc Response
  | [], this => pure this
  | op :: ops, this => do
      let this ← this.step stale op
      run stale ops this

/-- The response some handler leaves, for some environment and heap. -/
def Reachable (this : Response) : Prop :=
  ∃ stale httpCookie ops initial,
    Returns (newCadCgiResponse stale httpCookie) initial ∧
      Returns (run stale ops initial) this

end Response

end Libcad
