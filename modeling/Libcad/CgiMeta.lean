/-
The meta variables of a response: one accessor for each variable, each with its
own way of telling that it was not called before.
-/
import Libcad.CgiContentType
import Libcad.CgiCookies
import Libcad.Machine

namespace Libcad

open Proc

/-- What `getenv` answers. -/
abbrev Env := String → Option Bytes

/-- `cad_cgi_gateway_interface_t` -/
structure GatewayInterface where
  major : Int
  minor : Int
deriving Repr, DecidableEq

/-- `cad_cgi_server_protocol_t` -/
structure ServerProtocol where
  major : Int
  minor : Int
  protocol : Option Bytes
deriving Repr, DecidableEq

/-- The members of `meta_impl` that hold a copy of one variable. -/
inductive StringField
  | pathInfo
  | pathTranslated
  | remoteAddr
  | remoteHost
  | remoteIdent
  | remoteUser
  | requestMethod
  | scriptName
  | serverName
  | serverSoftware
deriving Repr, DecidableEq

def StringField.variable : StringField → String
  | .pathInfo => "PATH_INFO"
  | .pathTranslated => "PATH_TRANSLATED"
  | .remoteAddr => "REMOTE_ADDR"
  | .remoteHost => "REMOTE_HOST"
  | .remoteIdent => "REMOTE_IDENT"
  | .remoteUser => "REMOTE_USER"
  | .requestMethod => "REQUEST_METHOD"
  | .scriptName => "SCRIPT_NAME"
  | .serverName => "SERVER_NAME"
  | .serverSoftware => "SERVER_SOFTWARE"

/-- A `cad_hash_t *` field: what the block held before it was allocated, NULL,
or a table. -/
inductive HashPtr
  | wild
  | null
  | table (hash : StringHash)
deriving DecidableEq

/-- What `get` answers, if there is a table. -/
def HashPtr.get : HashPtr → Option (Bytes → Option Bytes)
  | .table hash => some hash.get
  | .null | .wild => none

/-- `meta_impl`; NULL is `none` where the field is set when it is created. -/
structure MetaImpl (τ : Type) where
  authType : Int
  contentLength : Nat
  contentType : ContentType
  gatewayInterface : GatewayInterface
  strings : StringField → CharPtr
  queryString : HashPtr
  inputAsForm : HashPtr
  serverPort : Int
  serverProtocol : ServerProtocol
  input : Option (InputStream τ)

/-- A response's meta variables and the environment of the process. -/
structure MetaState (τ : Type) where
  this : MetaImpl τ
  env : Env

section

variable {τ : Type}

/-- What `isspace` accepts in the C locale. -/
def isSpace (c : UInt8) : Bool := c = 32 || (9 ≤ c && c ≤ 13)

/-- The value of the decimal digits a text begins with. -/
def leadingDigits (value : Nat) : Bytes → Nat
  | [] => value
  | c :: rest =>
      if 48 ≤ c ∧ c ≤ 57 then
        leadingDigits (value * 10 + (c.toNat - 48)) rest
      else value

/-- `strtol(text, NULL, 10)`, with a `long` of 64 bits. -/
def strtol (text : Bytes) : Int :=
  let value : Int :=
    match text.dropWhile isSpace with
    | 45 :: rest => -(leadingDigits 0 rest : Int)
    | 43 :: rest => leadingDigits 0 rest
    | rest => leadingDigits 0 rest
  max (-9223372036854775808) (min 9223372036854775807 value)

/-- `n * 10 + c - '0'` -/
def nextDigit (arith : IntArith) (n : Int) (c : UInt8) : Proc Int := do
  let tens ← arith (n * 10)
  let sum ← arith (tens + charToInt c)
  arith (sum - charToInt (ascii '0'))

def authType (st : MetaState τ) : Int :=
  if st.this.authType = -2 then
    match st.env "AUTH_TYPE" with
    | none => 0
    | some [] => 0
    | some text =>
        if strcmp text (chars "Basic") = 0 then 1
        else if strcmp text (chars "Digest") = 0 then 2
        else -1
  else st.this.authType

/-- The `switch` of `gateway_interface` on one byte. -/
def gatewayChar (arith : IntArith) (s : Int) (result : GatewayInterface)
    (c : UInt8) : Proc (Int × GatewayInterface) :=
  match s with
  | 0 => pure (if c = ascii 'C' then 1 else -1, result)
  | 1 => pure (if c = ascii 'G' then 2 else -1, result)
  | 2 => pure (if c = ascii 'I' then 3 else -1, result)
  | 3 => pure (if c = ascii '/' then 4 else -1, result)
  | 4 =>
      if c = ascii '.' then pure (5, result)
      else do
        let major ← nextDigit arith result.major c
        pure (if major < 0 then -1 else 4, { result with major := major })
  | 5 => do
      let minor ← nextDigit arith result.minor c
      pure (if minor < 0 then -1 else 5, { result with minor := minor })
  | _ => pure (-1, result)

/-- The loop of `gateway_interface`. -/
def gatewayLoop (arith : IntArith) (s : Int) (result : GatewayInterface) :
    Bytes → Proc GatewayInterface
  | [] => pure result
  | c :: rest =>
      if 0 ≤ s then do
        let (s, result) ← gatewayChar arith s result c
        gatewayLoop arith s result rest
      else pure result

/-- What `gateway_interface` makes of its member; it looks at `major` to know
whether it was called before, and starts from what it finds. -/
def gatewayOnce (arith : IntArith) (cached : GatewayInterface)
    (value : Option Bytes) : Proc GatewayInterface :=
  if cached.major = 0 then
    match value with
    | none => pure cached
    | some text => gatewayLoop arith 0 cached text
  else pure cached

def gatewayInterface (arith : IntArith) (st : MetaState τ) :
    Proc (GatewayInterface × MetaState τ) := do
  let result ← gatewayOnce arith st.this.gatewayInterface
    (st.env "GATEWAY_INTERFACE")
  pure (result, { st with this.gatewayInterface := result })

/-- What the accessors of strings have in common. -/
def stringAccessor (field : StringField) (st : MetaState τ) :
    Proc (Bytes × MetaState τ) :=
  match st.this.strings field with
  | .wild => Proc.undefined
  | .string result => pure (result, st)
  | .null =>
      let result := (st.env field.variable).getD []
      pure (result, { st with
        this.strings :=
          Function.update st.this.strings field (.string result) })

def pathInfo (st : MetaState τ) := stringAccessor .pathInfo st

def pathTranslated (st : MetaState τ) := stringAccessor .pathTranslated st

def remoteAddr (st : MetaState τ) := stringAccessor .remoteAddr st

def remoteHost (st : MetaState τ) := stringAccessor .remoteHost st

def remoteIdent (st : MetaState τ) := stringAccessor .remoteIdent st

def remoteUser (st : MetaState τ) := stringAccessor .remoteUser st

def requestMethod (st : MetaState τ) := stringAccessor .requestMethod st

def scriptName (st : MetaState τ) := stringAccessor .scriptName st

def serverName (st : MetaState τ) := stringAccessor .serverName st

def serverSoftware (st : MetaState τ) := stringAccessor .serverSoftware st

/-- What the two functions below have in common: the table, which is parsed
once if there is something to parse. -/
def parseOnce (fns : StreamFns τ) (cached : HashPtr)
    (input : Option (InputStream τ)) : Proc HashPtr :=
  match cached, input with
  | .wild, _ => Proc.undefined
  | .table result, _ => pure (.table result)
  | .null, none => pure .null
  | .null, some input => do
      let result ← parseQueryOrForm fns input
      pure (.table result)

def queryString (fns : StreamFns τ) (st : MetaState τ) :
    Proc (HashPtr × MetaState τ) := do
  let result ← parseOnce fns st.this.queryString
    ((st.env "QUERY_STRING").map newInputStreamFromString)
  pure (result, { st with this.queryString := result })

def inputAsForm (fns : StreamFns τ) (st : MetaState τ) :
    Proc (HashPtr × MetaState τ) := do
  let result ← parseOnce fns st.this.inputAsForm st.this.input
  pure (result, { st with this.inputAsForm := result })

/-- `server_port`; only a positive number is kept. -/
def serverPort (st : MetaState τ) : Int × MetaState τ :=
  if st.this.serverPort = -1 then
    match st.env "SERVER_PORT" with
    | none => (-1, st)
    | some text =>
        let sp := strtol text
        if sp > intMax then (intMax, { st with this.serverPort := intMax })
        else if sp > 0 then (sp, { st with this.serverPort := sp })
        else (-1, st)
  else (st.this.serverPort, st)

/-- The loop of `server_protocol`. -/
def protocolLoop (arith : IntArith) (s : Int) (result : GatewayInterface) :
    Bytes → Proc GatewayInterface
  | [] => pure result
  | c :: rest =>
      if s = 0 then
        if c = ascii '.' then protocolLoop arith 1 result rest
        else do
          let major ← nextDigit arith result.major c
          protocolLoop arith (if major < 0 then -1 else 0)
            { result with major := major } rest
      else if s = 1 then do
        let minor ← nextDigit arith result.minor c
        protocolLoop arith (if minor < 0 then -1 else 1)
          { result with minor := minor } rest
      else pure result

/-- What `server_protocol` makes of its member and of the variable; the slash it
finds becomes the end of the variable. -/
def protocolOnce (arith : IntArith) (cached : ServerProtocol)
    (value : Option Bytes) : Proc (ServerProtocol × Option Bytes) :=
  if cached.protocol = none then
    match value with
    | none => pure ({ cached with protocol := some [] }, none)
    | some text =>
        let name := text.takeWhile (· ≠ ascii '/')
        match text.drop name.length with
        | [] => pure ({ cached with protocol := some name }, some name)
        | _ :: version => do
            let number ← protocolLoop arith 0 ⟨0, 0⟩ version
            pure (⟨number.major, number.minor, some name⟩, some name)
  else pure (cached, value)

def serverProtocol (arith : IntArith) (st : MetaState τ) :
    Proc (ServerProtocol × MetaState τ) := do
  let (result, value) ← protocolOnce arith st.this.serverProtocol
    (st.env "SERVER_PROTOCOL")
  pure (result, {
    this := { st.this with serverProtocol := result },
    env := Function.update st.env "SERVER_PROTOCOL" value })

/-- `new_meta`; `block` is what the allocated block happens to hold.
`input_as_form` and `server_name` stay as they are. -/
def newMeta (block : MetaImpl τ) (env : Env)
    (input : Option (InputStream τ)) : MetaImpl τ where
  authType := -2
  contentLength :=
    match env "CONTENT_LENGTH" with
    | none => 0
    | some text => (min (strtol text) intMax).toNat
  contentType := newContentType
  gatewayInterface := ⟨0, 0⟩
  strings := fun field =>
    if field = .serverName then block.strings field else .null
  queryString := .null
  inputAsForm := block.inputAsForm
  serverPort := -1
  serverProtocol := ⟨0, 0, none⟩
  input := input

/-- The functions of `cad_cgi_meta_t`. -/
inductive MetaCall
  | authType
  | contentLength
  | contentType
  | gatewayInterface
  | string (field : StringField)
  | queryString
  | inputAsForm
  | serverPort
  | serverProtocol
deriving Repr, DecidableEq

/-- What they report; of a hash table, the pointer and what `get` answers. -/
inductive MetaReport
  | number (n : Int)
  | contentType (type subtype : Option Bytes)
      (parameters : Bytes → Option Bytes)
  | gatewayInterface (result : GatewayInterface)
  | string (text : Bytes)
  | hash (get : Option (Bytes → Option Bytes))
  | serverProtocol (result : ServerProtocol)

def MetaState.call (arith : IntArith) (fns : StreamFns τ) (st : MetaState τ) :
    MetaCall → Proc (MetaReport × MetaState τ)
  | .authType => pure (.number (Libcad.authType st), st)
  | .contentLength => pure (.number st.this.contentLength, st)
  | .contentType => do
      let result ← Libcad.contentType st.this.contentType
        (st.env "CONTENT_TYPE")
      pure (.contentType result.type result.subtype result.parameters.get,
        { st with this.contentType := result })
  | .gatewayInterface => do
      let (result, st) ← Libcad.gatewayInterface arith st
      pure (.gatewayInterface result, st)
  | .string field => do
      let (result, st) ← stringAccessor field st
      pure (.string result, st)
  | .queryString => do
      let (result, st) ← Libcad.queryString fns st
      pure (.hash result.get, st)
  | .inputAsForm => do
      let (result, st) ← Libcad.inputAsForm fns st
      pure (.hash result.get, st)
  | .serverPort =>
      let (result, st) := Libcad.serverPort st
      pure (.number result, st)
  | .serverProtocol => do
      let (result, st) ← Libcad.serverProtocol arith st
      pure (.serverProtocol result, st)

end

end Libcad
