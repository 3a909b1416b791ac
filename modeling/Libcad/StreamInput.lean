/-
The input streams over a descriptor and over a file, and what is read from any
input stream by taking `item` and calling `next` up to the end.
-/
import Libcad.Proc
import Libcad.Stream
import Mathlib.Data.List.Forall2

namespace Libcad

open Proc

/-- `BUFFER_SIZE` -/
def bufferSize : Nat := 4096

/-- `struct cad_input_stream_file_descriptor` and `struct cad_input_stream_file`
with the results of the reads to come; after the last one there is the end. -/
structure BlockInput (ρ : Type) where
  reads : List ρ
  buffer : Nat → UInt8
  max : Int
  index : Nat

/-- What one read puts into the buffer and into `max`, and what `next` returns
after it. -/
structure Refill where
  bytes : Bytes
  max : Int
  code : Int

def fillBuffer (buffer : Nat → UInt8) (bytes : Bytes) (k : Nat) : UInt8 :=
  (bytes[k]?).getD (buffer k)

variable {ρ : Type}

/-- The common body of the two functions `next`. -/
def BlockInput.next (refill : Option ρ → Refill) (this : BlockInput ρ) :
    Int × BlockInput ρ :=
  if this.max = 0 then (0, this)
  else if this.max ≤ (this.index + 1 : Nat) then
    let read := refill this.reads.head?
    (read.code,
      { reads := this.reads.tail, buffer := fillBuffer this.buffer read.bytes,
        max := read.max, index := 0 })
  else (0, { this with index := this.index + 1 })

/-- `item` of both streams. -/
def BlockInput.item (this : BlockInput ρ) : Int :=
  if this.max = 0 then eof else charToInt (this.buffer this.index)

/-- The stream as the constructors leave it; `stale` is what was in the block. -/
def newBlockInput (refill : Option ρ → Refill) (reads : List ρ)
    (stale : Nat → UInt8) : BlockInput ρ :=
  (BlockInput.next refill
    { reads := reads, buffer := stale, max := -1, index := 0 }).2

/-- `read`: the bytes, or -1. -/
def descriptorRefill : Option (Option Bytes) → Refill
  | none => { bytes := [], max := 0, code := 0 }
  | some none => { bytes := [], max := -1, code := -1 }
  | some (some bytes) => { bytes := bytes, max := bytes.length, code := 0 }

/-- `fread`: the bytes, and whether `ferror` holds after it. -/
def fileRefill : Option (Bytes × Bool) → Refill
  | none => { bytes := [], max := 0, code := 0 }
  | some (bytes, error) =>
      { bytes := bytes, max := bytes.length,
        code := if bytes = [] ∧ error then -1 else 0 }

/-- The functions of the stream over a descriptor. -/
def descriptorFns : StreamFns (BlockInput (Option Bytes)) :=
  ⟨BlockInput.item, BlockInput.next descriptorRefill⟩

def fileFns : StreamFns (BlockInput (Bytes × Bool)) :=
  ⟨BlockInput.item, BlockInput.next fileRefill⟩

def stringFns : StreamFns StringStream := ⟨StringStream.item, StringStream.next⟩

/-- `new_cad_input_stream_from_file_descriptor` -/
def newInputStreamFromFileDescriptor (reads : List (Option Bytes))
    (stale : Nat → UInt8) : BlockInput (Option Bytes) :=
  newBlockInput descriptorRefill reads stale

/-- `new_cad_input_stream_from_file` -/
def newInputStreamFromFile (reads : List (Bytes × Bool))
    (stale : Nat → UInt8) : BlockInput (Bytes × Bool) :=
  newBlockInput fileRefill reads stale

variable {τ : Type} {fns : StreamFns τ}

/-- One turn of a reader: `item`, then `next`. -/
def drainStep (fns : StreamFns τ) (s : Bytes × τ) :
    Proc ((Bytes × τ) ⊕ Bytes) :=
  if fns.item s.2 = eof then pure (.inr s.1)
  else pure (.inl (s.1 ++ [intToChar (fns.item s.2)], (fns.next s.2).2))

/-- Take `item` and call `next` until `item` answers `EOF`. -/
def drain (fns : StreamFns τ) (stream : τ) : Proc Bytes :=
  Proc.loop (drainStep fns) ([], stream)

/-- The cursor stands before these bytes and then the end. -/
def Cursor (fns : StreamFns τ) : τ → Bytes → Prop
  | stream, [] => fns.item stream = eof
  | stream, b :: rest =>
      fns.item stream = charToInt b ∧ Cursor fns (fns.next stream).2 rest

/-- A reader gets the bytes before the first 0xFF. -/
theorem Cursor.drain_loop {bytes : Bytes} : ∀ {stream : τ} (taken : Bytes),
    Cursor fns stream bytes →
    Returns (Proc.loop (drainStep fns) (taken, stream))
      (taken ++ bytes.takeWhile (· ≠ 255)) := by
  induction bytes with
  | nil =>
      intro stream taken h
      refine Returns.loop_exit ?_
      have h : fns.item stream = eof := h
      rw [drainStep, if_pos h, List.takeWhile_nil, List.append_nil]
      exact returns_pure_self _
  | cons b rest ih =>
      intro stream taken h
      obtain ⟨hitem, hrest⟩ := h
      by_cases hb : b = 255
      · refine Returns.loop_exit ?_
        have heof : fns.item stream = eof :=
          hitem.trans ((charToInt_eq_eof_iff b).mpr hb)
        rw [drainStep, if_pos heof, List.takeWhile_cons, hb]
        simp only [ne_eq, not_true_eq_false, decide_false, Bool.false_eq_true,
          ↓reduceIte, List.append_nil]
        exact returns_pure_self _
      · have hne : fns.item stream ≠ eof := by
          rw [hitem]
          exact fun h => hb ((charToInt_eq_eof_iff b).mp h)
        have hstep : Returns (drainStep fns (taken, stream))
            (.inl (taken ++ [b], (fns.next stream).2)) := by
          rw [drainStep, if_neg hne, hitem, intToChar_charToInt]
          exact returns_pure_self _
        have hloop := ih (taken ++ [b]) hrest
        rw [List.append_assoc, List.singleton_append] at hloop
        rw [List.takeWhile_cons, if_pos (by simpa using hb)]
        exact hstep.loop_next.mpr hloop

/-- A reader gets exactly the bytes when none of them is 0xFF. -/
theorem Cursor.drain_iff {stream : τ} {bytes : Bytes}
    (h : Cursor fns stream bytes) :
    Returns (drain fns stream) bytes ↔ (255 : UInt8) ∉ bytes := by
  have hdrain : Returns (drain fns stream) (bytes.takeWhile (· ≠ 255)) :=
    h.drain_loop []
  have heq : bytes.takeWhile (· ≠ 255) = bytes ↔ (255 : UInt8) ∉ bytes := by
    rw [List.takeWhile_eq_self_iff]
    constructor
    · intro hall hmem
      simpa using hall 255 hmem
    · intro hnot b hb
      simp only [ne_eq, decide_not, Bool.not_eq_eq_eq_not, Bool.not_true,
        decide_eq_false_iff_not]
      rintro rfl
      exact hnot hb
  rw [← heq]
  exact ⟨fun h => hdrain.unique h, fun h => h ▸ hdrain⟩

theorem StringStream.cursor (string : Bytes) (index : Nat)
    (h0 : (0 : UInt8) ∉ string) :
    Cursor stringFns ⟨string, index⟩ (string.drop index) := by
  induction hrest : string.drop index generalizing index with
  | nil =>
      have hlen : string.length ≤ index := List.drop_eq_nil_iff.mp hrest
      change StringStream.item _ = eof
      simp [StringStream.item, hlen]
  | cons b rest ih =>
      have hget : string[index]? = some b := by
        rw [← List.head?_drop, hrest]
        rfl
      have hb0 : b ≠ 0 := fun h => h0 (h ▸ List.mem_of_getElem? hget)
      have hdrop : string.drop (index + 1) = rest := by
        rw [← List.tail_drop, hrest]
        rfl
      constructor
      · change StringStream.item _ = charToInt b
        simp [StringStream.item, hget, hb0]
      · change Cursor stringFns (StringStream.next _).2 rest
        simp only [StringStream.next, hget, hb0, ↓reduceIte]
        exact ih (index + 1) hdrop

/-- The reads of a split: each of them fills a part of the buffer. -/
def SplitInto (bytes : Bytes) (chunks : List Bytes) : Prop :=
  chunks.flatten = bytes ∧
    ∀ chunk ∈ chunks, chunk ≠ [] ∧ chunk.length ≤ bufferSize

def Brings (refill : Option ρ → Refill) (read : Option ρ) (bytes : Bytes) :
    Prop :=
  (refill read).bytes = bytes ∧ (refill read).max = bytes.length

/-- The buffer holds a chunk and the index stands in it, or the end was
reached. -/
structure BlockInput.Holds (this : BlockInput ρ) (chunk : Bytes) : Prop where
  max_eq : this.max = chunk.length
  index_lt : this.index < chunk.length ∨ chunk = []
  buffer : ∀ k b, chunk[k]? = some b → this.buffer k = b

/-- A read at the end of a chunk brings the next chunk, or the end. -/
theorem BlockInput.next_holds (refill : Option ρ → Refill)
    (this : BlockInput ρ) (chunk : Bytes) (hmax : this.max ≠ 0)
    (hend : this.max ≤ (this.index + 1 : Nat))
    (hbrings : Brings refill this.reads.head? chunk) :
    ((this.next refill).2).Holds chunk ∧ ((this.next refill).2).index = 0 ∧
      ((this.next refill).2).reads = this.reads.tail := by
  rw [BlockInput.next, if_neg hmax, if_pos hend]
  refine ⟨⟨hbrings.2, ?_, ?_⟩, rfl, rfl⟩
  · cases chunk with
    | nil => exact Or.inr rfl
    | cons b rest => exact Or.inl (Nat.succ_pos _)
  · intro k b hk
    change fillBuffer _ _ k = b
    rw [fillBuffer, hbrings.1, hk]
    rfl

/-- The reads to come bring these chunks, none of them empty. -/
def BringsAll (refill : Option ρ → Refill) : List ρ → List Bytes → Prop :=
  List.Forall₂ fun read chunk => Brings refill (some read) chunk ∧ chunk ≠ []

theorem BlockInput.Holds.item_nil {this : BlockInput ρ} (h : this.Holds []) :
    this.item = eof := if_pos h.max_eq

/-- The rest of a chunk is read before what the next read brings. -/
theorem BlockInput.Holds.cursor_chunk {refill : Option ρ → Refill}
    {chunk tail : Bytes} {reads : List ρ} (hne : chunk ≠ [])
    (hafter : ∀ last : BlockInput ρ, last.Holds chunk → last.reads = reads →
      last.max ≤ (last.index + 1 : Nat) →
      Cursor ⟨BlockInput.item, BlockInput.next refill⟩ (last.next refill).2
        tail) (rest : Bytes) :
    ∀ {this : BlockInput ρ}, this.Holds chunk → this.reads = reads →
      chunk.drop this.index = rest →
      Cursor ⟨BlockInput.item, BlockInput.next refill⟩ this (rest ++ tail) := by
  induction rest with
  | nil =>
      intro this h _ hrest
      rcases h.index_lt with hlt | hnil
      · have hle := List.drop_eq_nil_iff.mp hrest
        omega
      · exact absurd hnil hne
  | cons b rest ih =>
      intro this h hreads hrest
      have hget : chunk[this.index]? = some b := by
        rw [← List.head?_drop, hrest]
        rfl
      have hmax : this.max ≠ 0 := by
        rw [h.max_eq]
        exact fun hzero => hne (List.length_eq_zero_iff.mp (by omega))
      refine ⟨?_, ?_⟩
      · change this.item = charToInt b
        rw [BlockInput.item, if_neg hmax, h.buffer _ b hget]
      · change Cursor _ (this.next refill).2 (rest ++ tail)
        have hdrop : chunk.drop (this.index + 1) = rest := by
          rw [← List.tail_drop, hrest]
          rfl
        by_cases hlast : this.max ≤ (this.index + 1 : Nat)
        · have hnil : rest = [] := by
            rw [← hdrop, List.drop_eq_nil_iff]
            have hmaxEq := h.max_eq
            omega
          rw [hnil]
          exact hafter this h hreads hlast
        · rw [BlockInput.next, if_neg hmax, if_neg hlast]
          refine ih ⟨h.max_eq, Or.inl ?_, h.buffer⟩ hreads hdrop
          have hmaxEq := h.max_eq
          dsimp only
          omega

/-- A buffered stream stands before the rest of its chunk and the chunks that
are still to be read. -/
theorem BlockInput.Holds.cursor {refill : Option ρ → Refill}
    (hend : Brings refill none []) (chunks : List Bytes) :
    ∀ {this : BlockInput ρ} {chunk : Bytes}, this.Holds chunk →
      BringsAll refill this.reads chunks → (chunk = [] → chunks = []) →
      Cursor ⟨BlockInput.item, BlockInput.next refill⟩ this
        (chunk.drop this.index ++ chunks.flatten) := by
  induction chunks with
  | nil =>
      intro this chunk h hreads _
      cases chunk with
      | nil =>
          rw [List.drop_nil, List.flatten_nil]
          exact h.item_nil
      | cons b rest =>
          refine h.cursor_chunk (List.cons_ne_nil _ _) ?_ _ rfl rfl
          intro last hlast hreadsLast hmax
          have hnone : last.reads = [] := by
            rw [hreadsLast]
            exact List.forall₂_nil_right_iff.mp hreads
          have hpos : last.max ≠ 0 := by
            rw [hlast.max_eq, List.length_cons]
            omega
          have hnext := BlockInput.next_holds refill last [] hpos hmax
            (by rw [hnone]; exact hend)
          exact hnext.1.item_nil
  | cons next chunks ih =>
      intro this chunk h hreads hfirst
      have hne : chunk ≠ [] := fun hnil => nomatch hfirst hnil
      obtain ⟨read, reads, ⟨hbrings, hnextNe⟩, hrest, hreadsEq⟩ :=
        List.forall₂_cons_right_iff.mp hreads
      refine h.cursor_chunk hne ?_ _ rfl rfl
      intro last hlast hreadsLast hmax
      have hpos : last.max ≠ 0 := by
        rw [hlast.max_eq]
        exact fun hzero => hne (List.length_eq_zero_iff.mp (by omega))
      have hlastReads : last.reads = read :: reads := hreadsLast.trans hreadsEq
      obtain ⟨hholds, hindex, htail⟩ := BlockInput.next_holds refill last
        next hpos hmax (by rw [hlastReads]; exact hbrings)
      have hcursor := ih hholds (by rw [htail, hlastReads]; exact hrest)
        (fun hnil => absurd hnil hnextNe)
      rwa [hindex, List.drop_zero] at hcursor

/-- A new buffered stream stands before all the chunks. -/
theorem newBlockInput_cursor {refill : Option ρ → Refill}
    (hend : Brings refill none []) {reads : List ρ} {chunks : List Bytes}
    (hreads : BringsAll refill reads chunks) (stale : Nat → UInt8) :
    Cursor ⟨BlockInput.item, BlockInput.next refill⟩
      (newBlockInput refill reads stale) chunks.flatten := by
  have hmax : (-1 : Int) ≠ 0 := by decide
  have hle : (-1 : Int) ≤ ((0 + 1 : Nat) : Int) := by decide
  cases hreads with
  | nil =>
      have hnext := BlockInput.next_holds refill ⟨[], stale, -1, 0⟩ [] hmax
        hle hend
      exact hnext.1.item_nil
  | @cons read chunk reads chunks hread hrest =>
      obtain ⟨hholds, hindex, htail⟩ := BlockInput.next_holds refill
        ⟨read :: reads, stale, -1, 0⟩ chunk hmax hle hread.1
      have hcursor := hholds.cursor hend chunks (by rw [htail]; exact hrest)
        (fun hnil => absurd hnil hread.2)
      rwa [hindex, List.drop_zero] at hcursor

/-- All three streams deliver exactly their bytes when none of the bytes is
0xFF, and only then. -/
theorem inputStreams_deliver_iff (bytes : Bytes) :
    ((0 : UInt8) ∉ bytes →
      (Returns (drain stringFns ⟨bytes, 0⟩) bytes ↔ (255 : UInt8) ∉ bytes)) ∧
    (∀ chunks stale, SplitInto bytes chunks →
      (Returns (drain descriptorFns (newInputStreamFromFileDescriptor
        (chunks.map some) stale)) bytes ↔ (255 : UInt8) ∉ bytes)) ∧
    (∀ chunks stale, SplitInto bytes chunks →
      (Returns (drain fileFns (newInputStreamFromFile
        (chunks.map fun chunk => (chunk, false)) stale)) bytes ↔
          (255 : UInt8) ∉ bytes)) := by
  refine ⟨fun h0 => (StringStream.cursor bytes 0 h0).drain_iff, ?_, ?_⟩
  · rintro chunks stale ⟨rfl, hchunks⟩
    refine Cursor.drain_iff (newBlockInput_cursor ⟨rfl, rfl⟩ ?_ stale)
    rw [BringsAll, List.forall₂_map_left_iff, List.forall₂_same]
    exact fun chunk hchunk => ⟨⟨rfl, rfl⟩, (hchunks chunk hchunk).1⟩
  · rintro chunks stale ⟨rfl, hchunks⟩
    refine Cursor.drain_iff (newBlockInput_cursor ⟨rfl, rfl⟩ ?_ stale)
    rw [BringsAll, List.forall₂_map_left_iff, List.forall₂_same]
    exact fun chunk hchunk => ⟨⟨rfl, rfl⟩, (hchunks chunk hchunk).1⟩

/-- Three bytes, in two reads. -/
theorem inputStreams_deliver_text :
    Returns (drain stringFns ⟨chars "abc", 0⟩) (chars "abc") ∧
    Returns (drain descriptorFns (newInputStreamFromFileDescriptor
      ([chars "a", chars "bc"].map some) fun _ => 0)) (chars "abc") ∧
    Returns (drain fileFns (newInputStreamFromFile
      ([chars "a", chars "bc"].map fun chunk => (chunk, false)) fun _ => 0))
      (chars "abc") :=
  ⟨((inputStreams_deliver_iff (chars "abc")).1 (by decide)).mpr (by decide),
    ((inputStreams_deliver_iff (chars "abc")).2.1 _ _
      ⟨rfl, by decide⟩).mpr (by decide),
    ((inputStreams_deliver_iff (chars "abc")).2.2 _ _
      ⟨rfl, by decide⟩).mpr (by decide)⟩

/-- A single byte 0xFF is not delivered by any of them. -/
theorem inputStreams_not_deliver :
    ¬ Returns (drain stringFns ⟨[255], 0⟩) [255] ∧
    ¬ Returns (drain descriptorFns
      (newInputStreamFromFileDescriptor [some [255]] fun _ => 0)) [255] ∧
    ¬ Returns (drain fileFns
      (newInputStreamFromFile [([255], false)] fun _ => 0)) [255] := by
  have hempty : ∀ {τ : Type} (fns : StreamFns τ) (stream : τ),
      fns.item stream = eof → ¬ Returns (drain fns stream) [255] := by
    intro τ fns stream h hreturns
    have hnil := @Cursor.drain_loop τ fns [] stream [] h
    cases hnil.unique hreturns
  exact ⟨hempty _ _ rfl, hempty _ _ rfl, hempty _ _ rfl⟩

end Libcad
