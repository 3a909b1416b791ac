/-
The output stream over a descriptor: `vput` with its loop of writes, for every
value of the local that is not initialised and every pattern of results of
`write`.
-/
import Libcad.Machine
import Libcad.Stream
import Mathlib.Algebra.Group.Nat.Defs
import Mathlib.Data.List.Forall2

namespace Libcad

open Proc

/-- What `write` returns, by the number of writes before it and the number of
bytes it is asked for. -/
abbrev Kernel := Nat → Nat → Int

/-- A write accepts between one and all of the bytes, or fails. -/
def Kernel.Fair (kernel : Kernel) : Prop :=
  ∀ k count, 0 < count → kernel k count = -1 ∨
    (1 ≤ kernel k count ∧ kernel k count ≤ count)

/-- `struct cad_output_stream_file_descriptor`; `writes` counts the writes to
the descriptor. -/
structure DescriptorOutput where
  capacity : Nat
  writes : Nat
deriving Repr, DecidableEq

/-- `new_cad_output_stream_from_file_descriptor` -/
def newOutputStreamFromFileDescriptor : DescriptorOutput :=
  { capacity := 128, writes := 0 }

/-- What one call of `vput` came to: what it returned, the bytes the descriptor
accepted, and the offset and size of what was passed to each write. -/
structure Written where
  returned : Int
  accepted : Bytes
  ranges : List (Int × Int)
deriving Repr, DecidableEq

/-- What `vsnprintf` returns for an output: its length, if that is an `int`. -/
def printedLength (text : Bytes) : Int :=
  if text.length ≤ intMax then text.length else -1

/-- The memory around the buffer once the text is in it. -/
def printed (stale : Int → UInt8) (text : Bytes) (k : Int) : UInt8 :=
  if 0 ≤ k ∧ k < text.length then text.getD k.toNat 0
  else if k = text.length then 0 else stale k

def bytesAt (data : Int → UInt8) (offset : Int) (count : Nat) : Bytes :=
  (List.range count).map fun k : Nat => data (offset + k)

/-- The body of the loop that doubles the capacity. -/
def growStep (n : Int) (capacity : Nat) : Proc (Nat ⊕ Nat) := do
  let capacity ← intMul capacity 2
  pure (if (capacity : Int) ≤ n then .inl capacity else .inr capacity)

/-- The locals of the loop of `vput`. -/
structure Writing where
  m : Int
  writes : Nat
  written : Written

/-- The body of the loop of `vput`. -/
def writeStep (kernel : Kernel) (data : Int → UInt8) (n : Int) (s : Writing) :
    Proc (Writing ⊕ Written × Nat) :=
  if s.m < n then
    let i := kernel s.writes (n - s.m).toNat
    let written : Written :=
      { s.written with
        accepted := s.written.accepted ++ bytesAt data s.m i.toNat,
        ranges := s.written.ranges ++ [(s.m, n - s.m)] }
    if i = 0 then pure (.inr (written, s.writes + 1))
    else
      pure (.inl { m := s.m + i, writes := s.writes + 1,
                   written := { written with
                     returned := written.returned + i } })
  else pure (.inr (s.written, s.writes))

/-- `vput` of a text; `m` is what the local of that name happens to hold. -/
def vput (kernel : Kernel) (stale : Int → UInt8) (text : Bytes) (m : Int)
    (this : DescriptorOutput) : Proc (Written × DescriptorOutput) := do
  let n := printedLength text
  let capacity ← (
    if (this.capacity : Int) ≤ n then Proc.loop (growStep n) this.capacity
    else pure this.capacity : Proc Nat)
  let (written, writes) ← Proc.loop (writeStep kernel (printed stale text) n)
    { m := m, writes := this.writes,
      written := { returned := 0, accepted := [], ranges := [] } }
  pure (written, { capacity := capacity, writes := writes })

/-- A sequence of calls of `put` and `vput`: their texts, and what `m` holds in
each of them. -/
def putAll (kernel : Kernel) (stale : Int → UInt8) :
    List (Bytes × Int) → DescriptorOutput → Proc (List Written)
  | [], _ => pure []
  | (text, m) :: calls, this => do
      let (written, this) ← vput kernel stale text m this
      let rest ← putAll kernel stale calls this
      pure (written :: rest)

/-- All that was passed to `write` lies in the text. -/
def Written.Inside (record : Written) (text : Bytes) : Prop :=
  ∀ r ∈ record.ranges, 0 ≤ r.1 ∧ r.1 + r.2 ≤ (text.length : Int)

/-- Every byte is written once, from inside the texts, and every call returns
how many bytes it wrote. -/
structure WritesOnce (texts : List Bytes) (records : List Written) : Prop where
  accepted : (records.map Written.accepted).flatten = texts.flatten
  ranges : List.Forall₂ (fun text record => record.Inside text) texts records
  returned : ∀ record ∈ records, record.returned = record.accepted.length

/-- Without a failure, the writes from the `k`-th on accept `n` bytes and end
before the `last`-th. -/
inductive Kernel.Accepts (kernel : Kernel) : Nat → Nat → Nat → Prop
  | done (k : Nat) : Kernel.Accepts kernel k 0 k
  | write {k n last : Nat} (pos : 0 < n) (ok : kernel k n ≠ -1)
      (rest : Kernel.Accepts kernel (k + 1) (n - (kernel k n).toNat) last) :
      Kernel.Accepts kernel k n last

/-- The local happens to hold 0, or there is nothing to write and it is not
negative. -/
def Lucky (text : Bytes) (m : Int) : Prop :=
  m = 0 ∨ text = [] ∧ 0 ≤ m

/-- In every call the text is shorter than 2^30 bytes, the local is lucky, and
none of the writes that take the text fails. -/
def Untroubled (kernel : Kernel) : Nat → List (Bytes × Int) → Prop
  | _, [] => True
  | k, (text, m) :: calls =>
      text.length < 1073741824 ∧ Lucky text m ∧
        ∃ last, kernel.Accepts k text.length last ∧
          Untroubled kernel last calls

def DoublesUp (capacity : Nat) : Prop := ∃ j, capacity * 2 ^ j = 1073741824

theorem DoublesUp.le {capacity : Nat} (h : DoublesUp capacity) :
    capacity ≤ 1073741824 := by
  obtain ⟨j, hj⟩ := h
  rw [← hj]
  exact Nat.le_mul_of_pos_right capacity (Nat.two_pow_pos j)

theorem DoublesUp.pos {capacity : Nat} (h : DoublesUp capacity) :
    0 < capacity := by
  obtain ⟨j, hj⟩ := h
  refine Nat.pos_of_ne_zero fun hzero => ?_
  rw [hzero, Nat.zero_mul] at hj
  omega

theorem DoublesUp.double {capacity : Nat} (h : DoublesUp capacity)
    (hlt : capacity < 1073741824) : DoublesUp (capacity * 2) := by
  obtain ⟨j, hj⟩ := h
  cases j with
  | zero => omega
  | succ j => exact ⟨j, by rw [← hj, Nat.pow_succ', Nat.mul_assoc]⟩

/-- One more doubling has a meaning below 2^30 only. -/
theorem growStep_returns {n : Int} {capacity : Nat} {o : Nat ⊕ Nat} :
    Returns (growStep n capacity) o ↔ capacity * 2 ≤ intMax ∧
      o = if ((capacity * 2 : Nat) : Int) ≤ n then .inl (capacity * 2)
        else .inr (capacity * 2) := by
  rw [growStep, intMul]
  split
  next hle =>
    rw [(returns_pure_self _).bind_iff, returns_pure]
    exact ⟨fun h => ⟨hle, h.symm⟩, fun h => h.2.symm⟩
  next hlarge =>
    refine iff_of_false (fun h => ?_) fun h => hlarge h.1
    obtain ⟨a, ha, -⟩ := returns_bind.mp h
    exact not_returns_undefined ha

/-- The capacity that is found holds the text with its NUL. -/
theorem grow_bound {n : Int} {capacity capacity' : Nat}
    (h : Returns (Proc.loop (growStep n) capacity) capacity')
    (hc : DoublesUp capacity) : DoublesUp capacity' ∧ n < capacity' := by
  refine Returns.loop_invariant (I := DoublesUp)
    (Q := fun c => DoublesUp c ∧ n < c) ?_ ?_ hc h
  · intro c c' hc hstep
    obtain ⟨hle, heq⟩ := growStep_returns.mp hstep
    split at heq
    next =>
      cases heq
      rw [intMax] at hle
      exact hc.double (by omega)
    next => cases heq
  · intro c c' hc hstep
    obtain ⟨hle, heq⟩ := growStep_returns.mp hstep
    split at heq
    next => cases heq
    next hlt =>
      cases heq
      rw [intMax] at hle
      exact ⟨hc.double (by omega), by omega⟩

/-- A capacity for a text shorter than 2^30 bytes is found. -/
theorem grow_returns {n : Int} {capacity : Nat} (hc : DoublesUp capacity)
    (hpos : 0 < capacity) (hle : (capacity : Int) ≤ n) (hn : n < 1073741824) :
    ∃ capacity', Returns (Proc.loop (growStep n) capacity) capacity' := by
  have hloop := @Proc.loop_returns _ _ (growStep n) capacity
    (fun c => DoublesUp c ∧ 0 < c ∧ (c : Int) ≤ n) (fun _ => True)
    (fun c => 1073741824 - c) ?_ ⟨hc, hpos, hle⟩
  · obtain ⟨c, hreturns, -⟩ := hloop
    exact ⟨c, hreturns⟩
  · rintro c ⟨hc, hpos, hle⟩
    have hdouble := hc.double (by omega)
    have hmax : c * 2 ≤ intMax := by
      have hbound := hdouble.le
      rw [intMax]
      omega
    by_cases hagain : ((c * 2 : Nat) : Int) ≤ n
    · exact Or.inl ⟨c * 2, growStep_returns.mpr ⟨hmax, (if_pos hagain).symm⟩,
        ⟨hdouble, by omega, hagain⟩, by omega⟩
    · exact Or.inr ⟨c * 2, growStep_returns.mpr ⟨hmax, (if_neg hagain).symm⟩,
        trivial⟩

section

variable {kernel : Kernel} {stale : Int → UInt8} {text : Bytes}

theorem bytesAt_printed {m : Int} {count : Nat} (hm : 0 ≤ m)
    (hcount : m + count ≤ text.length) :
    bytesAt (printed stale text) m count =
      (text.drop m.toNat).take count := by
  apply List.ext_getElem?
  intro k
  by_cases hk : k < count
  · have hlt : m.toNat + k < text.length := by omega
    rw [bytesAt, List.getElem?_map, List.getElem?_range hk,
      List.getElem?_take_of_lt hk, List.getElem?_drop,
      List.getElem?_eq_getElem hlt]
    have hin : 0 ≤ m + (k : Int) ∧ m + (k : Int) < text.length := by omega
    have hindex : (m + (k : Int)).toNat = m.toNat + k := by omega
    rw [Option.map_some, printed, if_pos hin, hindex,
      List.getD_eq_getElem?_getD, List.getElem?_eq_getElem hlt,
      Option.getD_some]
  · rw [List.getElem?_eq_none, List.getElem?_eq_none]
    · rw [List.length_take]
      omega
    · rw [bytesAt, List.length_map, List.length_range]
      omega

def Writing.after (kernel : Kernel) (data : Int → UInt8) (n : Int)
    (s : Writing) : Writing :=
  let i := kernel s.writes (n - s.m).toNat
  { m := s.m + i, writes := s.writes + 1,
    written := {
      returned := s.written.returned + i,
      accepted := s.written.accepted ++ bytesAt data s.m i.toNat,
      ranges := s.written.ranges ++ [(s.m, n - s.m)] } }

/-- The loop goes on while there is something to write. -/
theorem writeStep_eq (hfair : kernel.Fair) (data : Int → UInt8) (n : Int)
    (s : Writing) : writeStep kernel data n s =
      if s.m < n then pure (.inl (s.after kernel data n))
      else pure (.inr (s.written, s.writes)) := by
  rw [writeStep]
  split
  next hlt =>
    have hne : kernel s.writes (n - s.m).toNat ≠ 0 := by
      rcases hfair s.writes (n - s.m).toNat (by omega) with h | h <;> omega
    exact if_neg hne
  next => rfl

/-- Writes without a failure take the rest of the text. -/
theorem Kernel.Accepts.returns {k left last : Nat}
    (h : kernel.Accepts k left last) (hfair : kernel.Fair) :
    ∀ s : Writing, s.writes = k → 0 ≤ s.m → s.m + left = text.length →
      s.written.Inside text →
      ∃ written, Returns (Proc.loop
          (writeStep kernel (printed stale text) text.length) s)
          (written, last) ∧
        written.accepted = s.written.accepted ++ text.drop s.m.toNat ∧
        written.returned = s.written.returned + left ∧
        written.Inside text := by
  induction h with
  | done k =>
      intro s hk hm hleft hinside
      refine ⟨s.written, Returns.loop_exit ?_, ?_, by simp, hinside⟩
      · rw [writeStep, if_neg (by omega), hk]
        exact returns_pure_self _
      · rw [List.drop_of_length_le (by omega), List.append_nil]
  | @write k left last hpos hok _ ih =>
      intro s hk hm hleft hinside
      obtain hfail | ⟨hone, hle⟩ := hfair k left hpos
      · exact absurd hfail hok
      have hcount : (text.length - s.m).toNat = left := by omega
      have hstep : Returns
          (writeStep kernel (printed stale text) text.length s)
          (.inl (s.after kernel (printed stale text) text.length)) := by
        rw [writeStep_eq hfair, if_pos (by omega)]
        exact returns_pure_self _
      have hafter : (s.after kernel (printed stale text) text.length).m =
          s.m + kernel k left := by
        rw [Writing.after]
        dsimp only
        rw [hcount, hk]
      have hnext : Written.Inside
          (s.after kernel (printed stale text) text.length).written text := by
        intro r hr
        rcases List.mem_append.mp hr with hr | hr
        · exact hinside r hr
        · rw [List.mem_singleton.mp hr]
          dsimp only
          omega
      obtain ⟨written, hreturns, haccepted, hreturned, hinside'⟩ :=
        ih (s.after kernel (printed stale text) text.length) (by rw [← hk]; rfl)
          (by omega) (by omega) hnext
      refine ⟨written, hstep.loop_next.mpr hreturns, ?_, ?_, hinside'⟩
      · have hto : (s.m + kernel k left).toNat =
            s.m.toNat + (kernel k left).toNat := by omega
        rw [haccepted, hafter, hto, ← List.drop_drop, Writing.after]
        dsimp only
        rw [hcount, hk, bytesAt_printed hm (by omega), List.append_assoc,
          List.take_append_drop]
      · rw [hreturned, Writing.after]
        dsimp only
        rw [hcount, hk]
        omega

/-- Where the loop of writes ends: it was never entered, or it began at the
value of the local, and then it returned as many bytes as were accepted only if
no write failed. -/
theorem write_loop {data : Int → UInt8} {n m : Int} {k last : Nat}
    {written : Written} (hfair : kernel.Fair)
    (h : Returns (Proc.loop (writeStep kernel data n) ⟨m, k, ⟨0, [], []⟩⟩)
      (written, last)) :
    (n ≤ m ∧ written.accepted = [] ∧ last = k) ∨
      (m < n ∧ (m, n - m) ∈ written.ranges ∧
        (written.returned = written.accepted.length →
          written.accepted.length = n - m ∧
            kernel.Accepts k (n - m).toNat last)) := by
  let first : Writing := ⟨m, k, ⟨0, [], []⟩⟩
  let I : Writing → Prop := fun s => s = first ∨
    (m < n ∧ (m, n - m) ∈ s.written.ranges ∧ s.written.returned = s.m - m ∧
      s.written.returned ≤ s.written.accepted.length ∧
      (s.written.returned = s.written.accepted.length → s.m ≤ n ∧
        ∀ last, kernel.Accepts s.writes (n - s.m).toNat last →
          kernel.Accepts k (n - m).toNat last))
  refine Returns.loop_invariant (I := I) (Q := fun r =>
    (n ≤ m ∧ r.1.accepted = [] ∧ r.2 = k) ∨
      (m < n ∧ (m, n - m) ∈ r.1.ranges ∧
        (r.1.returned = r.1.accepted.length →
          r.1.accepted.length = n - m ∧
            kernel.Accepts k (n - m).toNat r.2))) ?_ ?_ (Or.inl rfl) h
  · intro s s' hs hstep
    rw [writeStep_eq hfair] at hstep
    split at hstep
    next hlt =>
      cases returns_pure.mp hstep
      refine Or.inr ?_
      have hfirst : m < n ∧ s.written.returned = s.m - m ∧
          s.written.returned ≤ s.written.accepted.length ∧
          (s.written.returned = s.written.accepted.length → s.m ≤ n ∧
            ∀ last, kernel.Accepts s.writes (n - s.m).toNat last →
              kernel.Accepts k (n - m).toNat last) ∧
          (m, n - m) ∈ (s.after kernel data n).written.ranges := by
        rcases hs with rfl | ⟨hmn, hmem, hreturned, hle, heq⟩
        · refine ⟨hlt, by simp [first], by simp [first], fun _ =>
            ⟨Int.le_of_lt hlt, fun _ h => h⟩, ?_⟩
          simp [Writing.after, first]
        · exact ⟨hmn, hreturned, hle, heq, List.mem_append_left _ hmem⟩
      obtain ⟨hmn, hreturned, hle, heq, hmem⟩ := hfirst
      have hlength : (s.after kernel data n).written.accepted.length =
          s.written.accepted.length +
            (kernel s.writes (n - s.m).toNat).toNat := by
        rw [Writing.after]
        dsimp only
        rw [List.length_append, bytesAt, List.length_map, List.length_range]
      have hi := hfair s.writes (n - s.m).toNat (by omega)
      have hafter : (s.after kernel data n).m =
          s.m + kernel s.writes (n - s.m).toNat := rfl
      have hafter' : (s.after kernel data n).written.returned =
          s.written.returned + kernel s.writes (n - s.m).toNat := rfl
      refine ⟨hmn, hmem, by omega, by omega, fun hall => ?_⟩
      -- A failure makes the result smaller than what was accepted.
      have hok : kernel s.writes (n - s.m).toNat ≠ -1 := by
        intro hfail
        rw [hfail] at hlength hafter'
        omega
      obtain ⟨hsn, haccepts⟩ := heq (by omega)
      refine ⟨by omega, fun last hlast => haccepts last ?_⟩
      refine .write (by omega) hok ?_
      have hleft : (n - s.m).toNat - (kernel s.writes (n - s.m).toNat).toNat =
          (n - (s.after kernel data n).m).toNat := by omega
      rw [hleft]
      exact hlast
    next => cases returns_pure.mp hstep
  · intro s r hs hstep
    rw [writeStep_eq hfair] at hstep
    split at hstep
    next => cases returns_pure.mp hstep
    next hge =>
      cases returns_pure.mp hstep
      rcases hs with rfl | ⟨hlt, hmem, hreturned, -, heq⟩
      · exact Or.inl ⟨by simpa [first] using hge, rfl, rfl⟩
      · refine Or.inr ⟨hlt, hmem, fun hall => ?_⟩
        obtain ⟨hle, haccepts⟩ := heq hall
        have hall' : s.written.returned = s.written.accepted.length := hall
        refine ⟨?_, haccepts s.writes ?_⟩
        · dsimp only
          omega
        · rw [show (n - s.m).toNat = 0 by omega]
          exact .done _

variable {this this' : DescriptorOutput} {m : Int} {record : Written}

theorem vput_capacity {n : Int} {capacity : Nat}
    (hc : DoublesUp this.capacity)
    (h : Returns (if (this.capacity : Int) ≤ n then
      Proc.loop (growStep n) this.capacity else pure this.capacity) capacity) :
    DoublesUp capacity ∧ n < 1073741824 := by
  split at h
  next hle =>
    obtain ⟨hcapacity, hlt⟩ := grow_bound h hc
    have hbound := hcapacity.le
    exact ⟨hcapacity, by omega⟩
  next hlt =>
    have hbound := hc.le
    rw [returns_pure.mp h] at hc hlt
    rw [returns_pure.mp h] at hbound
    exact ⟨hc, by omega⟩

/-- A call that writes inside its text and returns how much it wrote wrote the
whole text only if it was lucky and met no failure. -/
theorem vput_returns (hfair : kernel.Fair) (hc : DoublesUp this.capacity)
    (h : Returns (vput kernel stale text m this) (record, this'))
    (hinside : record.Inside text)
    (hreturned : record.returned = record.accepted.length) :
    DoublesUp this'.capacity ∧ record.accepted.length ≤ text.length ∧
      (record.accepted.length = text.length →
        text.length < 1073741824 ∧ Lucky text m ∧
          kernel.Accepts this.writes text.length this'.writes) := by
  rw [vput] at h
  obtain ⟨capacity, hgrow, h⟩ := returns_bind.mp h
  obtain ⟨⟨written, writes⟩, hloop, h⟩ := returns_bind.mp h
  cases returns_pure.mp h
  obtain ⟨hcapacity, hsmall⟩ := vput_capacity hc hgrow
  refine ⟨hcapacity, ?_⟩
  have hnonneg : ∀ n : Int, (m, n - m) ∈ record.ranges → 0 ≤ m :=
    fun n hmem => (hinside (m, n - m) hmem).1
  rw [printedLength] at hloop hsmall
  split at hloop
  next hint =>
    rw [if_pos hint] at hsmall
    rcases write_loop hfair hloop with ⟨hle, hnil, hlast⟩ | ⟨hlt, hmem, hall⟩
    · rw [hnil]
      refine ⟨Nat.zero_le _, fun hzero => ?_⟩
      have htext : text = [] := List.length_eq_zero_iff.mp hzero.symm
      refine ⟨by omega, Or.inr ⟨htext, by omega⟩, ?_⟩
      rw [← hzero, List.length_nil]
      dsimp only
      rw [hlast]
      exact .done _
    · have hm := hnonneg _ hmem
      obtain ⟨hlength, haccepts⟩ := hall hreturned
      refine ⟨by omega, fun hfull => ?_⟩
      have hzero : m = 0 := by omega
      refine ⟨by omega, Or.inl hzero, ?_⟩
      rw [hzero, Int.sub_zero, Int.toNat_natCast] at haccepts
      exact haccepts
  next hlarge =>
    rcases write_loop hfair hloop with ⟨-, hnil, -⟩ | ⟨hlt, hmem, -⟩
    · rw [hnil]
      refine ⟨Nat.zero_le _, fun hzero => ?_⟩
      rw [List.length_nil] at hzero
      omega
    · have hm := hnonneg _ hmem
      omega

/-- A lucky call that meets no failure writes its text. -/
theorem vput_writes (hfair : kernel.Fair) (hc : DoublesUp this.capacity)
    (hsmall : text.length < 1073741824) (hlucky : Lucky text m) {last : Nat}
    (haccepts : kernel.Accepts this.writes text.length last) :
    ∃ record this', Returns (vput kernel stale text m this) (record, this') ∧
      record.accepted = text ∧ record.Inside text ∧
      record.returned = text.length ∧ this'.writes = last ∧
      DoublesUp this'.capacity := by
  have hn : printedLength text = text.length := by
    rw [printedLength, if_pos]
    rw [intMax]
    omega
  have hgrow : ∃ capacity, Returns
      (if (this.capacity : Int) ≤ (text.length : Int) then
        Proc.loop (growStep text.length) this.capacity
      else pure this.capacity) capacity := by
    split
    next hle => exact grow_returns hc hc.pos hle (by omega)
    next => exact ⟨_, returns_pure_self _⟩
  obtain ⟨capacity, hgrow⟩ := hgrow
  have hloop : ∃ written, Returns
      (Proc.loop (writeStep kernel (printed stale text) text.length)
        ⟨m, this.writes, ⟨0, [], []⟩⟩) (written, last) ∧
      written.accepted = text ∧ written.Inside text ∧
      written.returned = text.length := by
    rcases hlucky with rfl | ⟨rfl, hm⟩
    · obtain ⟨written, hreturns, haccepted, hreturned, hinside⟩ :=
        @Kernel.Accepts.returns kernel stale text _ _ _ haccepts hfair
          ⟨0, this.writes, ⟨0, [], []⟩⟩ rfl (Int.le_refl _) (by simp)
          fun _ hmem => absurd hmem List.not_mem_nil
      exact ⟨written, hreturns, by simpa using haccepted, hinside,
        by simpa using hreturned⟩
    · refine ⟨⟨0, [], []⟩, Returns.loop_exit ?_, rfl,
        fun _ hmem => absurd hmem List.not_mem_nil, rfl⟩
      have hlast : last = this.writes := by
        cases haccepts with
        | done => rfl
        | write hlt => exact absurd hlt (Nat.lt_irrefl 0)
      rw [writeStep, if_neg (by simpa using hm), hlast]
      exact returns_pure_self _
  obtain ⟨written, hloop, haccepted, hinside, hreturned⟩ := hloop
  refine ⟨written, ⟨capacity, last⟩, ?_, haccepted, hinside, hreturned, rfl,
    (vput_capacity hc hgrow).1⟩
  rw [vput, hn]
  exact hgrow.bind (hloop.bind (returns_pure_self _))

end

/-- Texts of which every one is at least as long as what was accepted of it. -/
theorem accepted_length_le {texts : List Bytes} {records : List Written}
    (h : List.Forall₂ (fun text record => (record : Written).accepted.length ≤
      (text : Bytes).length) texts records) :
    (records.map Written.accepted).flatten.length ≤ texts.flatten.length := by
  induction h with
  | nil => exact Nat.le_refl _
  | cons hle _ ih =>
      simp only [List.map_cons, List.flatten_cons, List.length_append]
      omega

section

variable {kernel : Kernel} {stale : Int → UInt8}

/-- Calls that write nothing outside and return how much they wrote wrote all
of it only if they were untroubled. -/
theorem putAll_returns (hfair : kernel.Fair) (calls : List (Bytes × Int)) :
    ∀ {this : DescriptorOutput} {records : List Written},
      DoublesUp this.capacity →
      Returns (putAll kernel stale calls this) records →
      List.Forall₂ (fun text record => record.Inside text)
        (calls.map Prod.fst) records →
      (∀ record ∈ records, record.returned = record.accepted.length) →
      List.Forall₂ (fun text record => (record : Written).accepted.length ≤
          (text : Bytes).length) (calls.map Prod.fst) records ∧
        ((records.map Written.accepted).flatten =
            (calls.map Prod.fst).flatten →
          Untroubled kernel this.writes calls) := by
  induction calls with
  | nil =>
      intro this records _ h _ _
      cases returns_pure.mp h
      exact ⟨.nil, fun _ => trivial⟩
  | cons call calls ih =>
      intro this records hc h hinside hreturned
      obtain ⟨text, m⟩ := call
      rw [putAll] at h
      obtain ⟨⟨record, this'⟩, hput, h⟩ := returns_bind.mp h
      obtain ⟨rest, hrest, h⟩ := returns_bind.mp h
      cases returns_pure.mp h
      rw [List.map_cons] at hinside
      cases hinside with
      | cons hfirst hothers =>
          obtain ⟨hc', hle, hfull⟩ := vput_returns hfair hc hput hfirst
            (hreturned record List.mem_cons_self)
          obtain ⟨hles, huntroubled⟩ := ih hc' hrest hothers
            fun r hr => hreturned r (List.mem_cons_of_mem _ hr)
          refine ⟨.cons hle hles, fun hall => ?_⟩
          rw [List.map_cons, List.map_cons, List.flatten_cons,
            List.flatten_cons] at hall
          have hlengths := congrArg List.length hall
          rw [List.length_append, List.length_append] at hlengths
          have hlesLength := accepted_length_le hles
          have hlength : record.accepted.length = text.length := by
            dsimp only at hlengths
            omega
          obtain ⟨hsmall, hlucky, haccepts⟩ := hfull hlength
          exact ⟨hsmall, hlucky, _, haccepts,
            huntroubled (List.append_inj_right hall hlength)⟩

theorem putAll_writes (hfair : kernel.Fair) (calls : List (Bytes × Int)) :
    ∀ {this : DescriptorOutput}, DoublesUp this.capacity →
      Untroubled kernel this.writes calls →
      ∃ records, Returns (putAll kernel stale calls this) records ∧
        WritesOnce (calls.map Prod.fst) records := by
  induction calls with
  | nil =>
      intro this _ _
      exact ⟨[], returns_pure_self _, rfl, .nil, nofun⟩
  | cons call calls ih =>
      intro this hc h
      obtain ⟨text, m⟩ := call
      obtain ⟨hsmall, hlucky, last, haccepts, hrest⟩ := h
      obtain ⟨record, this', hput, haccepted, hinside, hreturned, hlast,
        hc'⟩ := @vput_writes kernel stale text this m hfair hc hsmall hlucky
          last haccepts
      obtain ⟨records, hreturns, honce⟩ := ih hc' (hlast ▸ hrest)
      refine ⟨record :: records, hput.bind (hreturns.bind
        (returns_pure_self _)), ?_, ?_, ?_⟩
      · rw [List.map_cons, List.map_cons, List.flatten_cons, List.flatten_cons,
          honce.accepted, haccepted]
      · exact .cons hinside honce.ranges
      · rintro r (_ | ⟨_, hr⟩)
        · rw [hreturned, haccepted]
        · exact honce.returned r hr

theorem doublesUp_new :
    DoublesUp newOutputStreamFromFileDescriptor.capacity :=
  ⟨23, rfl⟩

/-- The descriptor gets every byte once exactly when the calls are
untroubled. -/
theorem outputStream_writesOnce_iff (hfair : kernel.Fair)
    (calls : List (Bytes × Int)) :
    (∃ records, Returns
        (putAll kernel stale calls newOutputStreamFromFileDescriptor) records ∧
      WritesOnce (calls.map Prod.fst) records) ↔
    Untroubled kernel 0 calls := by
  constructor
  · rintro ⟨records, hreturns, honce⟩
    exact (putAll_returns hfair calls doublesUp_new hreturns honce.ranges
      honce.returned).2 honce.accepted
  · exact putAll_writes hfair calls doublesUp_new

end

/-- Two texts, of which the first takes two writes. -/
theorem outputStream_writesOnce_partial :
    (∃ records, Returns
        (putAll (fun k count => if k = 0 then 1 else count) (fun _ => 0)
          [(chars "ab", 0), (chars "c", 0)] newOutputStreamFromFileDescriptor)
        records ∧
      WritesOnce [chars "ab", chars "c"] records) := by
  have hfair : Kernel.Fair fun k count => if k = 0 then 1 else count := by
    intro k count hcount
    right
    dsimp only
    split <;> omega
  refine (outputStream_writesOnce_iff hfair
    [(chars "ab", 0), (chars "c", 0)]).mpr ?_
  refine ⟨by decide, Or.inl rfl, 2, ?_, by decide, Or.inl rfl, 3, ?_, trivial⟩
  · exact .write (by decide) (by decide)
      (.write (by decide) (by decide) (.done 2))
  · exact .write (by decide) (by decide) (.done 3)

/-- One byte is lost when the local happens to hold 1, and when its first write
fails the next one begins before the buffer. -/
theorem outputStream_not_writesOnce :
    (¬ ∃ records, Returns
        (putAll (fun _ count => count) (fun _ => 0) [(chars "a", 1)]
          newOutputStreamFromFileDescriptor) records ∧
      WritesOnce [chars "a"] records) ∧
    ¬ ∃ records, Returns
        (putAll (fun k count => if k = 0 then -1 else count) (fun _ => 0)
          [(chars "a", 0)] newOutputStreamFromFileDescriptor) records ∧
      WritesOnce [chars "a"] records := by
  constructor
  · rintro ⟨records, hreturns, honce⟩
    have hlost : Returns
        (putAll (fun _ count => count) (fun _ => 0) [(chars "a", 1)]
          newOutputStreamFromFileDescriptor) [⟨0, [], []⟩] :=
      ⟨1, by decide +kernel⟩
    rw [hreturns.unique hlost] at honce
    exact absurd honce.accepted (by decide)
  · rintro ⟨records, hreturns, honce⟩
    have hbefore : Returns
        (putAll (fun k count => if k = 0 then -1 else count) (fun _ => 0)
          [(chars "a", 0)] newOutputStreamFromFileDescriptor)
        [⟨1, 0 :: chars "a", [(0, 1), (-1, 2)]⟩] :=
      ⟨3, by decide +kernel⟩
    rw [hreturns.unique hbefore] at honce
    exact absurd honce.accepted (by decide)

end Libcad
