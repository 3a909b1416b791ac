/-
Templates as lists of tokens, and a machine that renders them.

The machine knows nothing of bytes, buffers and callbacks: an answer is what a
lookup comes to for a name and a stack of open lists, and an inclusion is
replaced by the tokens of what it includes.  The tokens before the frontier
have been read once; with the last one the input has ended, and nothing can be
read again.
-/
import Libcad.Stache
import Mathlib.Data.List.TakeDrop

namespace Libcad

/-- The pieces of a template. -/
inductive Token
  | text (c : UInt8)
  | escaped (name : Bytes)
  | raw (name : Bytes)
  | comment (body : Bytes)
  | opening (type : LoopType) (name : Bytes)
  | closing (name : Bytes)
  | inclusion (name : Bytes)
deriving Repr, DecidableEq

def tagOpen : Bytes := [ascii '{', ascii '{']

def tagClose : Bytes := [ascii '}', ascii '}']

def LoopType.sigil : LoopType → UInt8
  | .loopWhile => ascii '#'
  | .loopElse => ascii '^'

/-- The bytes that give a tag its meaning. -/
def sigils : Bytes :=
  [ascii '{', ascii '#', ascii '/', ascii '^', ascii '=', ascii '!', ascii '>']

def Token.bytes : Token → Bytes
  | .text c => [c]
  | .escaped name => tagOpen ++ name ++ tagClose
  | .raw name => tagOpen ++ ascii '{' :: name ++ ascii '}' :: tagClose
  | .comment body => tagOpen ++ ascii '!' :: body ++ tagClose
  | .opening type name => tagOpen ++ type.sigil :: name ++ tagClose
  | .closing name => tagOpen ++ ascii '/' :: name ++ tagClose
  | .inclusion name => tagOpen ++ ascii '>' :: name ++ tagClose

def tokenBytes (toks : List Token) : Bytes := toks.flatMap Token.bytes

/-- The bytes an input stream delivers as they are. -/
def Readable (c : UInt8) : Prop := c ≠ 0 ∧ c ≠ 255

/-- A name that is read as it is written. -/
structure NameValid (name : Bytes) : Prop where
  ne_nil : name ≠ []
  readable : ∀ c ∈ name, Readable c
  brace : ascii '}' ∉ name
  head : ∀ c ∈ name.head?, isBlank c = false

def Token.Valid : Token → Prop
  | .text c => Readable c ∧ c ≠ ascii '{'
  | .escaped name => NameValid name ∧ ∀ c ∈ name.head?, c ∉ sigils
  | .comment body => (∀ c ∈ body, Readable c) ∧ ascii '}' ∉ body
  | .raw name | .opening _ name | .closing name | .inclusion name =>
      NameValid name

instance (c : UInt8) : Decidable (Readable c) :=
  inferInstanceAs (Decidable (c ≠ 0 ∧ c ≠ 255))

theorem nameValid_iff (name : Bytes) :
    NameValid name ↔ name ≠ [] ∧ (∀ c ∈ name, Readable c) ∧
      ascii '}' ∉ name ∧ ∀ c ∈ name.head?, isBlank c = false :=
  ⟨fun h => ⟨h.ne_nil, h.readable, h.brace, h.head⟩,
    fun ⟨hne, hreadable, hbrace, hhead⟩ => ⟨hne, hreadable, hbrace, hhead⟩⟩

-- The quantifiers range over the bytes of the name, not over all bytes.
instance (name : Bytes) : Decidable (NameValid name) :=
  have : Decidable (∀ c ∈ name, Readable c) :=
    List.decidableBAll (fun c => Readable c) name
  have : Decidable (∀ c ∈ name.head?, isBlank c = false) :=
    Option.decidableForallMem name.head?
  decidable_of_iff _ (nameValid_iff name).symm

instance : (tok : Token) → Decidable tok.Valid
  | .text c => inferInstanceAs (Decidable (Readable c ∧ c ≠ ascii '{'))
  | .escaped name =>
      have : Decidable (∀ c ∈ name.head?, c ∉ sigils) :=
        Option.decidableForallMem name.head?
      inferInstanceAs
        (Decidable (NameValid name ∧ ∀ c ∈ name.head?, c ∉ sigils))
  | .comment body =>
      have : Decidable (∀ c ∈ body, Readable c) :=
        List.decidableBAll (fun c => Readable c) body
      inferInstanceAs
        (Decidable ((∀ c ∈ body, Readable c) ∧ ascii '}' ∉ body))
  | .raw name | .opening _ name | .closing name | .inclusion name =>
      inferInstanceAs (Decidable (NameValid name))

def Token.includes : Token → Bool
  | .inclusion _ => true
  | _ => false

/-- What a lookup comes to; the outer `none` is a NULL function pointer, and
releases answer whether they succeeded. -/
inductive Answer (τ : Type)
  | notFound
  | string (get : Option (Option Bytes)) (free : Option Bool)
  | list (get : Option (Int → Bool)) (close : Option Bool)
  | stream (get : Option (Option (InputStream τ))) (free : Option Bool)
  | invalid

/-- An open list section: its name and the index last asked for. -/
structure Frame where
  name : Bytes
  index : Int
deriving Repr, DecidableEq

/-- The answers to every name, for the open list sections, innermost first. -/
abbrev Answers (τ : Type) := List Frame → Bytes → Answer τ

/-- What an inclusion comes to. -/
inductive Inclusion
  | found (content : List Token)
  | missing

/-- What the names of inclusions come to; `none` for the other names. -/
abbrev Inclusions := Bytes → Option Inclusion

/-- How a section treats an answer: whether rendering goes on, whether there
is nothing to show, and the list to go through. -/
structure Opened where
  accepted : Bool
  empty : Bool
  list : Option (Option (Int → Bool) × Option Bool)

variable {τ : Type}

def Answer.opened (fns : StreamFns τ) : Answer τ → Opened
  | .notFound => ⟨true, true, none⟩
  | .string get free =>
      ⟨free.getD false, (get.join.map cString).getD [] = [], none⟩
  | .list get close => ⟨true, !(get.map (· 0)).getD false, some (get, close)⟩
  | .stream get free =>
      match streamEmpty fns get.join with
      | some empty => ⟨free.getD false, empty, none⟩
      | none => ⟨false, false, none⟩
  | .invalid => ⟨false, false, none⟩

/-- An open section; `mark` is the position of its body. -/
structure TokenLoop where
  type : LoopType
  name : Bytes
  list : Option (Option (Int → Bool) × Option Bool)
  mark : Nat
  index : Int
  empty : Bool

/-- Whether an open section suppresses output. -/
def TokenLoop.skips (loop : TokenLoop) : Bool :=
  match loop.type with
  | .loopWhile => loop.empty
  | .loopElse => !loop.empty

def framesOf (loops : List TokenLoop) : List Frame :=
  loops.filterMap fun loop =>
    if loop.list.isSome then some ⟨loop.name, loop.index⟩ else none

def TokenLoop.next (loop : TokenLoop) : TokenLoop :=
  { loop with index := loop.index + 1 }

def nextItem (get : Option (Int → Bool)) (index : Int) : LoopType → Proc Bool
  | .loopElse => pure false
  | .loopWhile =>
      match get with
      | none => Proc.undefined
      | some get => pure (get index)

/-- The state of the machine. -/
structure TokenState where
  toks : List Token
  frontier : Nat
  pos : Nat
  loops : List TokenLoop
  out : Bytes

/-- The code and the output of a rendering. -/
structure Verdict where
  code : Int
  output : Bytes
deriving Repr, DecidableEq

namespace TokenState

def skips (t : TokenState) : Bool := t.loops.any TokenLoop.skips

def write (t : TokenState) (text : Bytes) : TokenState :=
  if t.skips then t else { t with out := t.out ++ text }

def advance (t : TokenState) : TokenState :=
  { t with pos := t.pos + 1, frontier := max t.frontier (t.pos + 1) }

def failed (t : TokenState) : TokenState ⊕ Verdict := .inr ⟨-1, t.out⟩

def goOn (t : TokenState) (accepted : Bool) : TokenState ⊕ Verdict :=
  if accepted then .inl t else t.failed

def writeRaw (t : TokenState) (c : Option Bytes) : Proc TokenState :=
  if t.skips then pure t
  else
    match c with
    | none => Proc.undefined
    | some c => pure (t.write (cString c))

def writeEscaped (t : TokenState) (c : Option Bytes) : Proc TokenState :=
  match c with
  | none => Proc.undefined
  | some c => pure (t.write ((cString c).flatMap escapeChar))

def writeVariable (t : TokenState) (answer : Answer τ)
    (write : TokenState → Option Bytes → Proc TokenState) :
    Proc (TokenState ⊕ Verdict) :=
  match answer with
  | .notFound => pure (.inl t)
  | .string (some c) (some free) => do
      let t ← write t c
      pure (t.goOn free)
  | .string (some c) none => do
      let _ ← write t c
      Proc.undefined
  | .string none _ => Proc.undefined
  | .list _ _ | .stream _ _ | .invalid => pure t.failed

def openSection (t : TokenState) (fns : StreamFns τ) (type : LoopType)
    (name : Bytes) (answer : Answer τ) : TokenState ⊕ Verdict :=
  let opened := answer.opened fns
  let loop : TokenLoop :=
    { type := type, name := name, list := opened.list, mark := t.pos,
      index := 0, empty := opened.empty }
  { t with loops := loop :: t.loops }.goOn opened.accepted

/-- The closing tag of a list section: back to its body, or close the list. -/
def endSection (t : TokenState) (loop : TokenLoop) (loops : List TokenLoop)
    (get : Option (Int → Bool)) (close : Option Bool) :
    Proc (TokenState ⊕ Verdict) := do
  let found ← nextItem get loop.next.index loop.type
  if found then
    pure (.inl { t with loops := loop.next :: loops, pos := loop.mark })
  else pure ({ t with loops := loops }.goOn (close.getD false))

def closeSection (t : TokenState) (name : Bytes) :
    Proc (TokenState ⊕ Verdict) :=
  match t.loops with
  | [] => pure t.failed
  | loop :: loops =>
      if name ≠ loop.name then pure t.failed
      else
        match loop.list with
        | none => pure (.inl { t with loops := loops })
        | some (get, close) => t.endSection loop loops get close

/-- An inclusion, always met at the frontier.  A missing one takes the text
byte after it along; before a tag there is no token left to go on with. -/
def enter (t : TokenState) (inclusion : Option Inclusion) :
    Proc (TokenState ⊕ Verdict) :=
  if t.pos + 1 = t.toks.length then pure t.failed
  else
    match inclusion with
    | none => Proc.undefined
    | some (.found content) =>
        pure (.inl { t with
          toks := t.toks.take t.pos ++ content ++ t.toks.drop (t.pos + 1) })
    | some .missing =>
        match t.toks[t.pos + 1]? with
        | some (.text _) =>
            pure (.inl { t with
              toks := t.toks.take t.pos ++ t.toks.drop (t.pos + 2) })
        | _ => Proc.undefined

def Leaves (t : TokenState) : Prop :=
  ∃ name, t.toks[t.pos]? = some (.inclusion name) ∧ t.pos + 1 = t.toks.length

/-- A missing inclusion with a tag after it. -/
def Torn (inclusions : Inclusions) (t : TokenState) : Prop :=
  ∃ name, t.toks[t.pos]? = some (.inclusion name) ∧
    inclusions name = some .missing ∧ t.pos + 1 < t.toks.length ∧
    ∀ c, t.toks[t.pos + 1]? ≠ some (.text c)

section Run

variable (fns : StreamFns τ) (answers : Answers τ) (inclusions : Inclusions)

def exec (t : TokenState) : Token → Proc (TokenState ⊕ Verdict)
  | .text c => pure (.inl (t.write [c]))
  | .escaped name => t.writeVariable (answers (framesOf t.loops) name) writeEscaped
  | .raw name => t.writeVariable (answers (framesOf t.loops) name) writeRaw
  | .comment _ => pure (.inl t)
  | .opening type name =>
      pure (t.openSection fns type name (answers (framesOf t.loops) name))
  | .closing name => t.closeSection name
  | .inclusion name => t.enter (inclusions name)

def step (t : TokenState) : Proc (TokenState ⊕ Verdict) :=
  match t.toks[t.pos]? with
  | none => pure (.inr ⟨if t.loops.isEmpty then 0 else -1, t.out⟩)
  | some tok =>
      if t.frontier = t.toks.length then
        pure (t.write (tok.bytes.take 1)).failed
      else if tok.includes then t.exec fns answers inclusions tok
      else t.advance.exec fns answers inclusions tok

def start (toks : List Token) : TokenState :=
  { toks := toks, frontier := 0, pos := 0, loops := [], out := [] }

def rendered (toks : List Token) : Proc Verdict :=
  Proc.loop (step fns answers inclusions) (start toks)

end Run

end TokenState

end Libcad
