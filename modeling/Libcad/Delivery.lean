/-
How a text is handed over: as a string, or in any number of reads from a
descriptor or a file.  All three input streams present the same bytes.
-/
import Libcad.StreamInput

namespace Libcad

variable {ρ τ : Type}

/-- Taking `item` and calling `next`, which succeeds, shows these bytes, and
then the end. -/
def InputStream.Presents (fns : StreamFns τ) : InputStream τ → Bytes → Prop
  | stream, [] => stream.item fns = eof
  | stream, b :: rest => stream.item fns = charToInt b ∧
      (stream.next fns).1 = 0 ∧
        InputStream.Presents fns (stream.next fns).2 rest

theorem InputStream.Presents.item_eq {fns : StreamFns τ} {fns' : StreamFns ρ}
    {stream : InputStream τ} {stream' : InputStream ρ} {text : Bytes}
    (h : stream.Presents fns text) (h' : stream'.Presents fns' text) :
    stream.item fns = stream'.item fns' := by
  cases text with
  | nil => exact h.trans h'.symm
  | cons b rest => exact h.1.trans h'.1.symm

/-- What the cursor stands before is presented, where `next` succeeds. -/
theorem Cursor.presents {fns : StreamFns ρ} {fns' : StreamFns τ}
    {text : Bytes} {stream : ρ} (h : Cursor fns stream text)
    (wrap : ρ → InputStream τ)
    (hitem : ∀ stream, (wrap stream).item fns' = fns.item stream)
    (hnext : ∀ stream, (wrap stream).next fns' =
      ((fns.next stream).1, wrap (fns.next stream).2))
    {Sound : ρ → Prop}
    (hkeep : ∀ stream, Sound stream →
      (fns.next stream).1 = 0 ∧ Sound (fns.next stream).2)
    (hsound : Sound stream) : (wrap stream).Presents fns' text := by
  induction text generalizing stream with
  | nil => exact (hitem stream).trans h
  | cons b rest ih =>
      obtain ⟨hb, hrest⟩ := h
      obtain ⟨hok, hsound'⟩ := hkeep stream hsound
      refine ⟨(hitem stream).trans hb, ?_, ?_⟩
      · rw [hnext]
        exact hok
      · rw [hnext]
        exact ih hrest hsound'

theorem StringStream.presents (fns : StreamFns τ) {string : Bytes}
    (h0 : (0 : UInt8) ∉ string) (index : Nat) :
    (InputStream.string ⟨string, index⟩).Presents fns (string.drop index) := by
  induction hrest : string.drop index generalizing index with
  | nil =>
      have hlen : string.length ≤ index := List.drop_eq_nil_iff.mp hrest
      change StringStream.item _ = eof
      simp [StringStream.item, hlen]
  | cons b rest ih =>
      have hget : string[index]? = some b := by
        rw [← List.head?_drop, hrest]
        rfl
      have hb0 : b ≠ 0 := fun h => h0 (h ▸ List.mem_of_getElem? hget)
      have hdrop : string.drop (index + 1) = rest := by
        rw [← List.tail_drop, hrest]
        rfl
      refine ⟨?_, ?_, ?_⟩
      · change StringStream.item _ = charToInt b
        simp [StringStream.item, hget, hb0]
      · change (StringStream.next _).1 = 0
        simp [StringStream.next, hget, hb0]
      · change (InputStream.string (StringStream.next _).2).Presents fns rest
        simp only [StringStream.next, hget, hb0, ↓reduceIte]
        exact ih (index + 1) hdrop

/-- The streams over a descriptor and over a file. -/
abbrev LibraryStream : Type :=
  BlockInput (Option Bytes) ⊕ BlockInput (Bytes × Bool)

def libraryFns : StreamFns LibraryStream where
  item := Sum.elim BlockInput.item BlockInput.item
  next := Sum.elim
    (fun stream => (stream.next descriptorRefill).map id .inl)
    (fun stream => (stream.next fileRefill).map id .inr)

/-- How a text is handed over; the reads bring its chunks, and `stale` is what
was in the block of the stream. -/
inductive Delivery
  | string
  | descriptor (chunks : List Bytes) (stale : Nat → UInt8)
  | file (chunks : List Bytes) (stale : Nat → UInt8)

def Delivery.Of (text : Bytes) : Delivery → Prop
  | .string => (0 : UInt8) ∉ text
  | .descriptor chunks _ | .file chunks _ => SplitInto text chunks

def Delivery.stream (text : Bytes) : Delivery → InputStream LibraryStream
  | .string => newInputStreamFromString text
  | .descriptor chunks stale =>
      .other (.inl (newInputStreamFromFileDescriptor (chunks.map some) stale))
  | .file chunks stale =>
      .other (.inr (newInputStreamFromFile
        (chunks.map fun chunk => (chunk, false)) stale))

def BlockInput.Succeeds (refill : Option ρ → Refill) (this : BlockInput ρ) :
    Prop :=
  ∀ read ∈ this.reads, (refill (some read)).code = 0

theorem BlockInput.Succeeds.next {refill : Option ρ → Refill}
    {this : BlockInput ρ} (hend : (refill none).code = 0)
    (h : this.Succeeds refill) :
    (this.next refill).1 = 0 ∧ (this.next refill).2.Succeeds refill := by
  rw [BlockInput.next]
  split
  next => exact ⟨rfl, h⟩
  next =>
    split
    next =>
      refine ⟨?_, fun read hread => h read (List.mem_of_mem_tail hread)⟩
      cases hreads : this.reads with
      | nil => exact hend
      | cons read reads => exact h read (hreads ▸ List.mem_cons_self)
    next => exact ⟨rfl, h⟩

/-- A new buffered stream whose reads succeed presents the chunks. -/
theorem newBlockInput_presents (refill : Option ρ → Refill)
    (wrap : BlockInput ρ → LibraryStream)
    (hitem : ∀ stream, libraryFns.item (wrap stream) = stream.item)
    (hnext : ∀ stream, libraryFns.next (wrap stream) =
      (stream.next refill).map id wrap)
    (hend : Brings refill none []) (hcode : (refill none).code = 0)
    {reads : List ρ} {chunks : List Bytes}
    (hreads : BringsAll refill reads chunks)
    (hok : ∀ read ∈ reads, (refill (some read)).code = 0)
    (stale : Nat → UInt8) :
    (InputStream.other (wrap (newBlockInput refill reads stale))).Presents
      libraryFns chunks.flatten := by
  have hnew : BlockInput.Succeeds refill ⟨reads, stale, -1, 0⟩ := hok
  have hcursor : Cursor ⟨BlockInput.item, BlockInput.next refill⟩
      (newBlockInput refill reads stale) chunks.flatten :=
    newBlockInput_cursor hend hreads stale
  refine hcursor.presents (fun stream => .other (wrap stream)) hitem ?_
    (fun stream => BlockInput.Succeeds.next hcode) (hnew.next hcode).2
  intro stream
  change ((libraryFns.next (wrap stream)).1,
    InputStream.other (libraryFns.next (wrap stream)).2) = _
  rw [hnext]
  rfl

/-- Handed over in any way, the text is presented. -/
theorem Delivery.Of.presents {text : Bytes} {delivery : Delivery}
    (h : delivery.Of text) :
    (delivery.stream text).Presents libraryFns text := by
  cases delivery with
  | string => exact StringStream.presents libraryFns h 0
  | descriptor chunks stale =>
      obtain ⟨rfl, hchunks⟩ := h
      refine newBlockInput_presents descriptorRefill .inl
        (fun _ => rfl) (fun _ => rfl) ⟨rfl, rfl⟩ rfl ?_ ?_ stale
      · rw [BringsAll, List.forall₂_map_left_iff, List.forall₂_same]
        exact fun chunk hchunk => ⟨⟨rfl, rfl⟩, (hchunks chunk hchunk).1⟩
      · intro read hread
        obtain ⟨chunk, -, rfl⟩ := List.mem_map.mp hread
        rfl
  | file chunks stale =>
      obtain ⟨rfl, hchunks⟩ := h
      refine newBlockInput_presents fileRefill .inr
        (fun _ => rfl) (fun _ => rfl) ⟨rfl, rfl⟩ rfl ?_ ?_ stale
      · rw [BringsAll, List.forall₂_map_left_iff, List.forall₂_same]
        exact fun chunk hchunk => ⟨⟨rfl, rfl⟩, (hchunks chunk hchunk).1⟩
      · intro read hread
        obtain ⟨chunk, -, rfl⟩ := List.mem_map.mp hread
        refine if_neg fun h => ?_
        cases h.2

end Libcad
