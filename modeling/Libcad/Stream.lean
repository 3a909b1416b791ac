/-
Bytes, C characters and the input streams.

A C string is the list of its bytes before the terminating NUL.  `char` is
signed, so a byte from 128 on is a negative `int`.
-/
import Mathlib.Data.List.TakeWhile

namespace Libcad

abbrev Bytes := List UInt8

def ascii (c : Char) : UInt8 := UInt8.ofNat c.toNat

/-- `EOF`, what `item` answers at the end of a stream. -/
def eof : Int := -1

/-- The conversion from `char` to `int`. -/
def charToInt (c : UInt8) : Int :=
  if c.toNat < 128 then c.toNat else c.toNat - 256

/-- The conversion from `int` to `char`. -/
def intToChar (n : Int) : UInt8 := UInt8.ofNat (n % 256).toNat

/-- The C string held by a buffer: what comes before the first NUL. -/
def cString (b : Bytes) : Bytes := b.takeWhile (· ≠ 0)

theorem charToInt_eq (c : UInt8) :
    charToInt c = c.toNat ∨ charToInt c = (c.toNat : Int) - 256 := by
  rw [charToInt]
  split
  · exact Or.inl rfl
  · exact Or.inr rfl

@[simp] theorem intToChar_charToInt (c : UInt8) :
    intToChar (charToInt c) = c := by
  have hlt : c.toNat < 256 := c.toNat_lt
  have hmod : (charToInt c % 256).toNat = c.toNat := by
    rcases charToInt_eq c with h | h <;> rw [h] <;> omega
  rw [intToChar, hmod, UInt8.ofNat_toNat]

/-- The only byte a stream cannot tell from its end is 0xFF. -/
theorem charToInt_eq_eof_iff (c : UInt8) : charToInt c = eof ↔ c = 255 := by
  constructor
  · intro h
    rw [← intToChar_charToInt c, h]
    rfl
  · rintro rfl
    rfl

theorem cString_of_not_mem {b : Bytes} (h : (0 : UInt8) ∉ b) :
    cString b = b := by
  rw [cString, List.takeWhile_eq_self_iff]
  intro x hx
  simp only [ne_eq, decide_not, Bool.not_eq_eq_eq_not, Bool.not_true,
    decide_eq_false_iff_not]
  rintro rfl
  exact h hx

theorem not_mem_cString (b : Bytes) : (0 : UInt8) ∉ cString b := by
  intro hmem
  simpa using List.mem_takeWhile_imp hmem

def chars (s : String) : Bytes := s.toList.map ascii

/-- `strcmp`, of which only the sign is specified. -/
def strcmp : Bytes → Bytes → Int
  | [], [] => 0
  | [], _ :: _ => -1
  | _ :: _, [] => 1
  | a :: s, b :: t => if a = b then strcmp s t else if a < b then -1 else 1

theorem strcmp_eq_zero {s t : Bytes} : strcmp s t = 0 ↔ s = t := by
  induction s generalizing t with
  | nil => cases t <;> simp [strcmp]
  | cons a s ih =>
      cases t with
      | nil => simp [strcmp]
      | cons b t =>
          by_cases hab : a = b
          · simp [strcmp, hab, ih]
          · by_cases hlt : a < b
            · simp [strcmp, hab, hlt]
            · simp [strcmp, hab, hlt]

/-- `tolower`, in the C locale -/
def toLower (b : UInt8) : UInt8 :=
  if ascii 'A' ≤ b ∧ b ≤ ascii 'Z' then b + 32 else b

def strcasecmp (s t : Bytes) : Int := strcmp (s.map toLower) (t.map toLower)

/-- What `%d` prints. -/
def decimal (n : Int) : Bytes :=
  (if n < 0 then [ascii '-'] else []) ++ (Nat.toDigits 10 n.natAbs).map ascii

/-- `struct cad_input_stream_string` -/
structure StringStream where
  string : Bytes
  index : Nat
deriving Repr, DecidableEq

/-- `next` of the string stream: the returned code and the stream after it. -/
def StringStream.next (this : StringStream) : Int × StringStream :=
  match this.string[this.index]? with
  | some c =>
      if c = 0 then (-1, this) else (0, { this with index := this.index + 1 })
  | none => (-1, this)

/-- `item` of the string stream. -/
def StringStream.item (this : StringStream) : Int :=
  match this.string[this.index]? with
  | some c => if c = 0 then eof else charToInt c
  | none => eof

/-- The functions of the input streams that are not string streams, over their
own states. -/
structure StreamFns (τ : Type) where
  item : τ → Int
  next : τ → Int × τ

/-- The functions of other streams where there are none. -/
def noStreams : StreamFns Empty := ⟨Empty.elim, Empty.elim⟩

/-- `cad_input_stream_t`: a string stream or any other implementation. -/
inductive InputStream (τ : Type)
  | string (stream : StringStream)
  | other (stream : τ)

variable {τ : Type} (fns : StreamFns τ)

def InputStream.item : InputStream τ → Int
  | .string stream => stream.item
  | .other stream => fns.item stream

def InputStream.next : InputStream τ → Int × InputStream τ
  | .string stream => (stream.next.1, .string stream.next.2)
  | .other stream => ((fns.next stream).1, .other (fns.next stream).2)

/-- `new_cad_input_stream_from_string` -/
def newInputStreamFromString (string : Bytes) : InputStream τ :=
  .string ⟨string, 0⟩

/-- Taking `item` and calling `next` in turn yields these bytes, none of them
mistaken for the end of the stream, and then the end. -/
def InputStream.Delivers : InputStream τ → Bytes → Prop
  | stream, [] => stream.item fns = eof
  | stream, b :: rest =>
      stream.item fns = charToInt b ∧ b ≠ 255 ∧ (stream.next fns).1 = 0 ∧
        InputStream.Delivers (stream.next fns).2 rest

theorem InputStream.Delivers.unique {text : Bytes} :
    ∀ {stream : InputStream τ} {text' : Bytes}, stream.Delivers fns text →
      stream.Delivers fns text' → text = text' := by
  induction text with
  | nil =>
      intro stream text' h h'
      cases text' with
      | nil => rfl
      | cons b rest =>
          obtain ⟨hitem, hb, -⟩ := h'
          have heof : charToInt b = eof := hitem.symm.trans h
          exact absurd ((charToInt_eq_eof_iff _).mp heof) hb
  | cons b rest ih =>
      intro stream text' h h'
      obtain ⟨hitem, hb, -, hrest⟩ := h
      cases text' with
      | nil =>
          have heof : charToInt b = eof := hitem.symm.trans h'
          exact absurd ((charToInt_eq_eof_iff _).mp heof) hb
      | cons b' rest' =>
          obtain ⟨hitem', -, -, hrest'⟩ := h'
          have hsame : b = b' := by
            rw [← intToChar_charToInt b, ← intToChar_charToInt b', ← hitem,
              hitem']
          rw [hsame, ih hrest hrest']

theorem StringStream.delivers (string : Bytes) (index : Nat)
    (h0 : (0 : UInt8) ∉ string) (h255 : (255 : UInt8) ∉ string) :
    (InputStream.string ⟨string, index⟩ : InputStream τ).Delivers fns
      (string.drop index) := by
  induction hrest : string.drop index generalizing index with
  | nil =>
      have hlen : string.length ≤ index := List.drop_eq_nil_iff.mp hrest
      simp [InputStream.Delivers, InputStream.item, StringStream.item, hlen]
  | cons b rest ih =>
      have hget : string[index]? = some b := by
        rw [← List.head?_drop, hrest]
        rfl
      have hmem : b ∈ string := List.mem_of_getElem? hget
      have hb0 : b ≠ 0 := fun h => h0 (h ▸ hmem)
      have hb255 : b ≠ 255 := fun h => h255 (h ▸ hmem)
      have hdrop : string.drop (index + 1) = rest := by
        rw [← List.tail_drop, hrest]
        rfl
      refine ⟨?_, hb255, ?_, ?_⟩
      · simp [InputStream.item, StringStream.item, hget, hb0]
      · simp [InputStream.next, StringStream.next, hget, hb0]
      · simp only [InputStream.next, StringStream.next, hget, hb0, ↓reduceIte]
        exact ih (index + 1) hdrop

theorem newInputStreamFromString_delivers (string : Bytes)
    (h0 : (0 : UInt8) ∉ string) (h255 : (255 : UInt8) ∉ string) :
    (newInputStreamFromString string : InputStream τ).Delivers fns string :=
  StringStream.delivers fns string 0 h0 h255

end Libcad
