/-
A block of memory, the calls of the C library that write into it, and the
accesses they made.  A write past the end of the block changes none of its
bytes, and its access says that it went past the end.
-/
import Mathlib.Data.Nat.Basic
import Mathlib.Tactic.Common

namespace Libcad

/-- The bytes a call touched, and the size of the block at that time. -/
structure Access where
  start : Nat
  length : Nat
  size : Nat
deriving Repr, DecidableEq

def Access.Within (access : Access) : Prop :=
  access.start + access.length ≤ access.size

instance (access : Access) : Decidable access.Within :=
  inferInstanceAs (Decidable (_ ≤ _))

/-- A block; NULL is the block of size zero. -/
structure Block where
  size : Nat
  bytes : Nat → UInt8
  accesses : List Access

namespace Block

/-- `NULL` -/
def null : Block := ⟨0, fun _ => 0, []⟩

/-- A new block in the place of the old one, with unspecified contents. -/
def malloc (this : Block) (size : Nat) (fresh : Nat → UInt8) : Block :=
  { this with size := size, bytes := fresh }

/-- The block with another size; the bytes added are unspecified. -/
def realloc (this : Block) (size : Nat) (fresh : Nat → UInt8) : Block :=
  { this with
    size := size
    bytes := fun i => if i < this.size then this.bytes i else fresh i }

def touch (this : Block) (start length : Nat) : Block :=
  { this with accesses := this.accesses ++ [⟨start, length, this.size⟩] }

/-- Write `length` bytes of `value` from `start` on. -/
def write (this : Block) (start length : Nat) (value : Nat → UInt8) : Block :=
  { this with
    bytes := fun i =>
      if start ≤ i ∧ i < start + length ∧ i < this.size then value (i - start)
      else this.bytes i }

def memset (this : Block) (start : Nat) (value : UInt8) (length : Nat) :
    Block :=
  (this.touch start length).write start length fun _ => value

/-- `memcpy`, from another object. -/
def memcpy {length : Nat} (this : Block) (start : Nat)
    (value : Vector UInt8 length) : Block :=
  (this.touch start length).write start length fun i => value[i]?.getD 0

/-- `bcopy`, inside the block; the two ranges may overlap. -/
def bcopy (this : Block) (source start length : Nat) : Block :=
  ((this.touch source length).touch start length).write start length
    fun i => this.bytes (source + i)

/-- `length` bytes from `start` on. -/
def read (this : Block) (length start : Nat) : Vector UInt8 length :=
  Vector.ofFn fun j => this.bytes (start + j)

/-- The slot number `i` of a block with slots of `n` bytes. -/
def slot (this : Block) (n i : Nat) : Vector UInt8 n := this.read n (i * n)

variable {this : Block} {n slots : Nat}

theorem slot_congr {that : Block} {i k : Nat}
    (h : ∀ j < n, this.bytes (i * n + j) = that.bytes (k * n + j)) :
    this.slot n i = that.slot n k := by
  apply Vector.ext
  intro j hj
  simp only [slot, read, Vector.getElem_ofFn]
  exact h j hj

theorem slot_eq_replicate {i : Nat} {value : UInt8} :
    this.slot n i = Vector.replicate n value ↔
      ∀ j < n, this.bytes (i * n + j) = value := by
  constructor
  · intro h j hj
    have hget := congrArg (fun v : Vector UInt8 n => v[j]) h
    simpa [slot, read] using hget
  · intro h
    apply Vector.ext
    intro j hj
    simpa [slot, read] using h j hj

/-- A byte of slot `i` lies before slot `b` exactly when slot `i` does. -/
theorem offset_lt {i j b : Nat} (hj : j < n) :
    i * n + j < b * n ↔ i < b := by
  constructor
  · intro h
    by_contra hle
    have hmul : b * n ≤ i * n := Nat.mul_le_mul_right n (by omega)
    omega
  · intro h
    have hmul : (i + 1) * n ≤ b * n := Nat.mul_le_mul_right n h
    rw [Nat.add_mul, Nat.one_mul] at hmul
    omega

theorem offset_le {a i j : Nat} (hj : j < n) :
    a * n ≤ i * n + j ↔ a ≤ i := by
  have h := offset_lt (i := i) (b := a) hj
  omega

/-- A byte of a block into which whole slots are written. -/
theorem bytes_write (hsize : this.size = slots * n) {a k i j : Nat}
    {value : Nat → UInt8} (hi : i < slots) (hj : j < n) :
    (this.write (a * n) (k * n) value).bytes (i * n + j) =
      if a ≤ i ∧ i < a + k then value ((i - a) * n + j)
      else this.bytes (i * n + j) := by
  have hinside : i * n + j < this.size := by
    rw [hsize]
    exact (offset_lt hj).mpr hi
  simp only [write, hinside, and_true, offset_le hj, ← Nat.add_mul,
    offset_lt hj]
  by_cases hrange : a ≤ i ∧ i < a + k
  · have hoffset : i * n + j - a * n = (i - a) * n + j := by
      have hle : a * n ≤ i * n := Nat.mul_le_mul_right n hrange.1
      rw [Nat.sub_mul]
      omega
    rw [if_pos hrange, if_pos hrange, hoffset]
  · rw [if_neg hrange, if_neg hrange]

theorem slot_memset (hsize : this.size = slots * n) (a k : Nat)
    (value : UInt8) {i : Nat} (hi : i < slots) :
    (this.memset (a * n) value (k * n)).slot n i =
      if a ≤ i ∧ i < a + k then Vector.replicate n value
      else this.slot n i := by
  have hsize' : (this.touch (a * n) (k * n)).size = slots * n := hsize
  split
  next hrange =>
    rw [slot_eq_replicate]
    intro j hj
    rw [memset, bytes_write hsize' hi hj, if_pos hrange]
  next hrange =>
    apply slot_congr
    intro j hj
    rw [memset, bytes_write hsize' hi hj, if_neg hrange]
    rfl

theorem slot_memcpy (hsize : this.size = slots * n) (a : Nat)
    (value : Vector UInt8 n) {i : Nat} (hi : i < slots) :
    (this.memcpy (a * n) value).slot n i =
      if i = a then value else this.slot n i := by
  have hsize' : (this.touch (a * n) n).size = slots * n := hsize
  have hbytes := fun j (hj : j < n) =>
    @bytes_write _ _ _ hsize' a 1 _ _ (fun i => value[i]?.getD 0) hi hj
  rw [Nat.one_mul] at hbytes
  split
  next hia =>
    apply Vector.ext
    intro j hj
    have hrange : a ≤ i ∧ i < a + 1 := by omega
    have hzero : i - a = 0 := by omega
    have hget := hbytes j hj
    rw [if_pos hrange, hzero, Nat.zero_mul, Nat.zero_add,
      Vector.getElem?_eq_getElem hj] at hget
    simpa [slot, read, memcpy] using hget
  next hia =>
    apply slot_congr
    intro j hj
    have hrange : ¬ (a ≤ i ∧ i < a + 1) := by omega
    rw [memcpy, hbytes j hj, if_neg hrange]
    rfl

theorem slot_bcopy (hsize : this.size = slots * n) (s a k : Nat) {i : Nat}
    (hi : i < slots) :
    (this.bcopy (s * n) (a * n) (k * n)).slot n i =
      if a ≤ i ∧ i < a + k then this.slot n (s + (i - a))
      else this.slot n i := by
  have hsize' : ((this.touch (s * n) (k * n)).touch (a * n) (k * n)).size =
      slots * n := hsize
  split
  next hrange =>
    apply slot_congr
    intro j hj
    rw [bcopy, bytes_write hsize' hi hj, if_pos hrange, Nat.add_mul,
      Nat.add_assoc]
  next hrange =>
    apply slot_congr
    intro j hj
    rw [bcopy, bytes_write hsize' hi hj, if_neg hrange]
    rfl

theorem slot_realloc (hsize : this.size = slots * n) (size : Nat)
    (fresh : Nat → UInt8) {i : Nat} (hi : i < slots) :
    (this.realloc size fresh).slot n i = this.slot n i := by
  apply slot_congr
  intro j hj
  have hinside : i * n + j < this.size := by
    rw [hsize]
    exact (offset_lt hj).mpr hi
  simp only [realloc, hinside, ↓reduceIte]

/-- The slots added by a growing block are unspecified. -/
theorem slot_realloc_fresh (hsize : this.size = slots * n) (size : Nat)
    (fresh : Nat → UInt8) {i : Nat} (hi : slots ≤ i) :
    (this.realloc size fresh).slot n i =
      Vector.ofFn fun j => fresh (i * n + j) := by
  apply Vector.ext
  intro j hj
  have houtside : ¬ i * n + j < this.size := by
    rw [hsize, offset_lt hj]
    omega
  simp only [slot, read, realloc, Vector.getElem_ofFn, houtside, ↓reduceIte]

/-- The first `length` bytes. -/
def take (this : Block) (length : Nat) : List UInt8 :=
  (List.range length).map this.bytes

/-- Write some bytes from `start` on. -/
def store (this : Block) (start : Nat) (text : List UInt8) : Block :=
  (this.touch start text.length).write start text.length fun i => text.getD i 0

/-- The string in the block, if there is a NUL in it. -/
def string (this : Block) : Option (List UInt8) :=
  if 0 ∈ this.take this.size then
    some ((this.take this.size).takeWhile (· ≠ 0))
  else none

/-- The block begins with this text and a NUL. -/
structure Spells (this : Block) (text : List UInt8) : Prop where
  fits : text.length < this.size
  take_eq : this.take (text.length + 1) = text ++ [0]

theorem take_succ (this : Block) (length : Nat) :
    this.take (length + 1) = this.take length ++ [this.bytes length] := by
  rw [take, take, List.range_succ, List.map_append, List.map_singleton]

theorem take_add (this : Block) (a b : Nat) :
    this.take (a + b) =
      this.take a ++ (List.range b).map fun i => this.bytes (a + i) := by
  rw [take, List.range_add, List.map_append, List.map_map]
  rfl

theorem take_take (this : Block) {a b : Nat} (h : a ≤ b) :
    (this.take b).take a = this.take a := by
  rw [take, take, ← List.map_take, List.take_range, Nat.min_eq_left h]

theorem take_store {start : Nat} {text : List UInt8}
    (hfits : start + text.length ≤ this.size) :
    (this.store start text).take (start + text.length) =
      this.take start ++ text := by
  rw [take_add]
  congr 1
  · refine List.map_congr_left fun i hi => ?_
    have hbefore : ¬ start ≤ i := Nat.not_le.mpr (List.mem_range.mp hi)
    simp only [store, write, touch, hbefore, false_and, ↓reduceIte]
  · apply List.ext_getElem
    · simp
    · intro i hi hi'
      have hinside : start + i < this.size := by omega
      simp [store, write, touch, hinside, hi']

theorem take_store_inside {start length : Nat} {text : List UInt8}
    (hinside : start + text.length ≤ length) (hfits : length ≤ this.size) :
    (this.store start text).take length =
      this.take start ++ text ++
        (this.take length).drop (start + text.length) := by
  obtain ⟨rest, rfl⟩ := Nat.exists_eq_add_of_le hinside
  rw [take_add, take_store (by omega), take_add _ (start + text.length)]
  congr 1
  rw [List.drop_left' (by simp [take])]
  refine List.map_congr_left fun i _ => ?_
  have hafter : ¬ start + text.length + i < start + text.length := by omega
  simp only [store, write, touch, hafter, false_and, and_false, ↓reduceIte]

theorem Spells.take_length {text : List UInt8} (h : this.Spells text) :
    this.take text.length = text := by
  have htake := h.take_eq
  rw [take_succ] at htake
  exact (List.append_inj' htake rfl).1

theorem Spells.getElem? {text : List UInt8} (h : this.Spells text) {i : Nat}
    (hi : i < text.length) : text[i]? = some (this.bytes i) := by
  rw [← h.take_length, take, List.getElem?_map, List.getElem?_range hi]
  rfl

theorem Spells.append {text more : List UInt8}
    (htake : this.take text.length = text)
    (hfits : text.length + more.length < this.size) :
    (this.store text.length (more ++ [0])).Spells (text ++ more) := by
  have hlength : (text ++ more).length + 1 =
      text.length + (more ++ [0]).length := by
    simp [Nat.add_assoc]
  have hroom : text.length + (more ++ [0]).length ≤ this.size := by
    rw [List.length_append]
    exact hfits
  refine ⟨by rw [List.length_append]; exact hfits, ?_⟩
  rw [hlength, take_store hroom, htake, List.append_assoc]

theorem Spells.string {text : List UInt8} (h : this.Spells text)
    (hnul : 0 ∉ text) : this.string = some text := by
  obtain ⟨rest, hsize⟩ := Nat.exists_eq_add_of_le
    (show text.length + 1 ≤ this.size from h.fits)
  have htake : this.take this.size = text ++ 0 ::
      (List.range rest).map fun i => this.bytes (text.length + 1 + i) := by
    rw [hsize, take_add, h.take_eq, List.append_assoc]
    rfl
  have hall : ∀ c ∈ text, decide (c ≠ 0) = true := by
    intro c hc
    exact decide_eq_true fun hzero => hnul (hzero ▸ hc)
  rw [Block.string, htake, if_pos (by simp), List.takeWhile_append_of_pos hall,
    List.takeWhile_cons_of_neg (by decide), List.append_nil]

end Block

end Libcad
