/-
Strings in memory, read byte by byte as the C library reads them.  A block
says where its bytes end; its contents go on behind that, as memory does.
-/
import Libcad.Block
import Libcad.Proc

namespace Libcad

open Proc

namespace Block

def load (this : Block) (i : Nat) : UInt8 × Block :=
  (this.bytes i, this.touch i 1)

/-- One byte of a search for the first byte that is `stop`. -/
def scanStep (stop : UInt8 → Bool) (s : Nat × Block) :
    Proc ((Nat × Block) ⊕ (Nat × Block)) :=
  let (c, block) := s.2.load s.1
  pure (if stop c then .inr (s.1, block) else .inl (s.1 + 1, block))

/-- Read from `start` on, up to the first byte that is `stop`. -/
def scan (stop : UInt8 → Bool) (this : Block) (start : Nat) :
    Proc (Nat × Block) :=
  Proc.loop (scanStep stop) (start, this)

def strlen (this : Block) (start : Nat) : Proc (Nat × Block) := do
  let (last, block) ← this.scan (· == 0) start
  pure (last - start, block)

/-- `strchr`, for a byte that is not NUL. -/
def strchr (this : Block) (start : Nat) (c : UInt8) :
    Proc (Option Nat × Block) := do
  let (last, block) ← this.scan (fun b => b == c || b == 0) start
  pure (if block.bytes last = c then some last else none, block)

/-- `sprintf` of `"%s"` into another block: what it writes there. -/
def copied (this : Block) (start : Nat) : Proc (List UInt8 × Block) := do
  let (length, block) ← this.strlen start
  pure ((List.range length).map fun i => block.bytes (start + i), block)

/-- The text lies in memory from `start` on. -/
def Holds (this : Block) : Nat → List UInt8 → Prop
  | _, [] => True
  | start, c :: text => this.bytes start = c ∧ Holds this (start + 1) text

/-- Only bytes before `limit` were touched. -/
structure Stays (limit : Nat) (before after : Block) : Prop where
  size_eq : after.size = before.size
  accesses : ∀ access ∈ after.accesses, access ∈ before.accesses ∨
    access.start + access.length ≤ limit ∧ access.size = before.size

/-- The bytes before `limit` were read, and none changed. -/
structure Reads (limit : Nat) (before after : Block) : Prop extends
    Stays limit before after where
  bytes_eq : after.bytes = before.bytes

variable {this before after : Block} {limit start : Nat}
  {text rest : List UInt8} {c : UInt8} {stop : UInt8 → Bool}

theorem Holds.congr (h : this.Holds start text)
    (hbytes : after.bytes = this.bytes) : after.Holds start text := by
  induction text generalizing start with
  | nil => trivial
  | cons c text ih => exact ⟨(congrFun hbytes start).trans h.1, ih h.2⟩

theorem holds_of_getElem? (h : ∀ i c, text[i]? = some c →
    this.bytes (start + i) = c) : this.Holds start text := by
  induction text generalizing start with
  | nil => trivial
  | cons c text ih =>
      refine ⟨h 0 c rfl, ih fun i b hb => ?_⟩
      have hnext := h (i + 1) b hb
      rwa [Nat.add_comm i, ← Nat.add_assoc] at hnext

theorem holds_append : this.Holds start (text ++ rest) ↔
    this.Holds start text ∧ this.Holds (start + text.length) rest := by
  induction text generalizing start with
  | nil => exact (iff_of_eq (true_and _)).symm
  | cons c text ih =>
      rw [List.cons_append, Holds, Holds, ih, and_assoc, List.length_cons,
        Nat.add_right_comm, Nat.add_assoc]

/-- A byte stored behind the text, or before it, leaves it in its place. -/
theorem Holds.store (h : this.Holds start text) {i : Nat} (b : UInt8)
    (hi : i < start ∨ start + text.length ≤ i) :
    (this.store i [b]).Holds start text := by
  induction text generalizing start with
  | nil => trivial
  | cons c text ih =>
      rw [List.length_cons] at hi
      refine ⟨?_, ih h.2 (by omega)⟩
      have hother : ¬ (i ≤ start ∧ start < i + 1) := by omega
      rw [← h.1]
      simp only [Block.store, write, touch, List.length_singleton,
        ← and_assoc, hother, false_and, ↓reduceIte]

theorem bytes_store {i : Nat} (b : UInt8) (hi : i < this.size) :
    (this.store i [b]).bytes i = b := by
  simp [Block.store, write, touch, hi]

theorem Holds.map_range (h : this.Holds start text) :
    ((List.range text.length).map fun i => this.bytes (start + i)) = text := by
  induction text generalizing start with
  | nil => rfl
  | cons c text ih =>
      rw [List.length_cons, List.range_succ_eq_map, List.map_cons, List.map_map,
        Nat.add_zero, h.1]
      congr 1
      refine Eq.trans ?_ (ih h.2)
      refine List.map_congr_left fun i _ => ?_
      rw [Function.comp_apply, Nat.succ_eq_add_one, Nat.add_assoc,
        Nat.add_comm 1]

/-- A string with its last byte overwritten by a NUL. -/
theorem Holds.truncate (h : this.Holds start (text ++ [c]))
    (hfits : start + text.length < this.size) :
    (this.store (start + text.length) [0]).Holds start (text ++ [0]) :=
  holds_append.mpr ⟨(holds_append.mp h).1.store 0 (Or.inr (Nat.le_refl _)),
    bytes_store 0 hfits, trivial⟩

theorem Stays.refl (limit : Nat) (this : Block) : Stays limit this this :=
  ⟨rfl, fun _ h => Or.inl h⟩

theorem Stays.trans {last : Block} {limit' : Nat}
    (h : Stays limit before after) (h' : Stays limit' after last)
    (hle : limit ≤ limit') : Stays limit' before last := by
  refine ⟨h'.size_eq.trans h.size_eq, fun access haccess => ?_⟩
  rcases h'.accesses access haccess with hold | ⟨hinside, hsize⟩
  · rcases h.accesses access hold with hold | ⟨hinside, hsize⟩
    · exact Or.inl hold
    · exact Or.inr ⟨Nat.le_trans hinside hle, hsize⟩
  · exact Or.inr ⟨hinside, hsize.trans h.size_eq⟩

theorem Stays.mono (h : Stays limit before after) {limit' : Nat}
    (hle : limit ≤ limit') : Stays limit' before after :=
  h.trans (Stays.refl limit' after) hle

theorem touch_stays {i length : Nat} (h : i + length ≤ limit) :
    Stays limit this (this.touch i length) := by
  refine ⟨rfl, fun access haccess => ?_⟩
  rcases List.mem_append.mp haccess with hold | hnew
  · exact Or.inl hold
  · cases List.mem_singleton.mp hnew
    exact Or.inr ⟨h, rfl⟩

theorem store_stays {i : Nat} (b : UInt8) (h : i < limit) :
    Stays limit this (this.store i [b]) := by
  have htouch : Stays limit this (this.touch i [b].length) := touch_stays h
  exact ⟨htouch.size_eq, htouch.accesses⟩

theorem load_reads {i : Nat} (h : i < limit) :
    Reads limit this (this.load i).2 :=
  ⟨touch_stays h, rfl⟩

theorem Reads.refl (limit : Nat) (this : Block) : Reads limit this this :=
  ⟨Stays.refl limit this, rfl⟩

theorem Reads.trans {last : Block} {limit' : Nat}
    (h : Reads limit before after) (h' : Reads limit' after last)
    (hle : limit ≤ limit') : Reads limit' before last :=
  ⟨h.toStays.trans h'.toStays hle, h'.bytes_eq.trans h.bytes_eq⟩

theorem Reads.holds (h : Reads limit this after)
    (hholds : this.Holds start text) : after.Holds start text :=
  hholds.congr h.bytes_eq

/-- The search ends at the first byte that is `stop`. -/
theorem scan_returns (htext : ∀ b ∈ text, stop b = false)
    (hstop : stop c = true) (h : this.Holds start (text ++ [c])) :
    ∃ after, Returns (this.scan stop start) (start + text.length, after) ∧
      Reads (start + text.length + 1) this after := by
  induction text generalizing this start with
  | nil =>
      have hstep : Returns (scanStep stop (start, this))
          (.inr (start, this.touch start 1)) := by
        refine returns_pure.mpr ?_
        change (if stop (this.bytes start) then _ else _) = _
        rw [h.1, if_pos hstop]
      exact ⟨_, hstep.loop_exit, load_reads (Nat.lt_succ_self start)⟩
  | cons b text ih =>
      have hb : stop b = false := htext b List.mem_cons_self
      have hstep : Returns (scanStep stop (start, this))
          (.inl (start + 1, this.touch start 1)) := by
        refine returns_pure.mpr ?_
        change (if stop (this.bytes start) then _ else _) = _
        rw [h.1, hb]
        rfl
      obtain ⟨after, hrun, hreads⟩ := ih
        (fun b hb => htext b (List.mem_cons_of_mem _ hb))
        (Holds.congr h.2 rfl : (this.touch start 1).Holds (start + 1) _)
      have hlast : start + (b :: text).length = start + 1 + text.length := by
        rw [List.length_cons]
        omega
      rw [hlast]
      refine ⟨after, hstep.loop_next.mpr hrun, ?_⟩
      have hfirst : Reads (start + 1) this (this.touch start 1) :=
        load_reads (Nat.lt_succ_self start)
      exact hfirst.trans hreads (by omega)

def HoldsString (this : Block) (start : Nat) (text : List UInt8) : Prop :=
  this.Holds start (text ++ [0]) ∧ 0 ∉ text

theorem Reads.holdsString (h : Reads limit this after)
    (hholds : this.HoldsString start text) : after.HoldsString start text :=
  ⟨h.holds hholds.1, hholds.2⟩

theorem strlen_returns (h : this.HoldsString start text) :
    ∃ after, Returns (this.strlen start) (text.length, after) ∧
      Reads (start + text.length + 1) this after := by
  have htext : ∀ b ∈ text, (b == 0) = false := by
    intro b hb
    exact beq_false_of_ne fun hzero => h.2 (hzero ▸ hb)
  obtain ⟨after, hrun, hreads⟩ := scan_returns htext rfl h.1
  refine ⟨after, hrun.bind (returns_pure.mpr ?_), hreads⟩
  rw [Nat.add_sub_cancel_left]

theorem copied_returns (h : this.HoldsString start text) :
    ∃ after, Returns (this.copied start) (text, after) ∧
      Reads (start + text.length + 1) this after := by
  obtain ⟨after, hrun, hreads⟩ := strlen_returns h
  refine ⟨after, hrun.bind (returns_pure.mpr ?_), hreads⟩
  have htext := (holds_append.mp (hreads.holds h.1)).1
  rw [htext.map_range]

theorem strchr_returns (h : this.HoldsString start text) (hc : c ≠ 0) :
    ∃ found after, Returns (this.strchr start c) (found, after) ∧
      Reads (start + text.length + 1) this after ∧
      (found.isSome = true ↔ c ∈ text) := by
  by_cases hmem : c ∈ text
  · obtain ⟨before, rest, rfl, hbefore⟩ := List.eq_append_cons_of_mem hmem
    have hscan : ∀ b ∈ before, (b == c || b == 0) = false := by
      intro b hb
      have hother : b ≠ c := fun heq => hbefore (heq ▸ hb)
      have hzero : b ≠ 0 := fun heq =>
        h.2 (heq ▸ List.mem_append_left _ hb)
      rw [beq_false_of_ne hother, beq_false_of_ne hzero]
      rfl
    have hfirst : this.Holds start (before ++ [c]) := by
      have hall := h.1
      rw [List.append_assoc, List.cons_append,
        List.append_cons before c] at hall
      exact (holds_append.mp hall).1
    obtain ⟨after, hrun, hreads⟩ :=
      scan_returns hscan (by rw [beq_self_eq_true]; rfl) hfirst
    have hbyte := (holds_append.mp (hreads.holds hfirst)).2.1
    refine ⟨_, after, hrun.bind (returns_pure_self _), ?_, ?_⟩
    · refine hreads.trans (Reads.refl _ _) ?_
      rw [List.length_append, List.length_cons]
      omega
    · rw [if_pos hbyte]
      exact iff_of_true rfl hmem
  · have hscan : ∀ b ∈ text, (b == c || b == 0) = false := by
      intro b hb
      have hother : b ≠ c := fun heq => hmem (heq ▸ hb)
      have hzero : b ≠ 0 := fun heq => h.2 (heq ▸ hb)
      rw [beq_false_of_ne hother, beq_false_of_ne hzero]
      rfl
    obtain ⟨after, hrun, hreads⟩ :=
      scan_returns hscan (by rw [Bool.or_eq_true]; exact Or.inr rfl) h.1
    have hbyte := (holds_append.mp (hreads.holds h.1)).2.1
    refine ⟨_, after, hrun.bind (returns_pure_self _), hreads, ?_⟩
    rw [hbyte, if_neg hc.symm]
    exact iff_of_false Bool.false_ne_true hmem

end Block

end Libcad
