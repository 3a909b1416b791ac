/-
The representation invariant of the hash table.  The slots of a table form an
open addressing table over the probe sequence of `index_of`; `rehash` restores
it after a removal and `grow` builds it anew.
-/
import Libcad.HashProbe
import Libcad.ProbeTable

namespace Libcad

open Proc

variable {K V : Type}

/-- Two keys the key manager does not tell apart. -/
def HashKeys.same (keys : HashKeys K) (a b : K) : Bool :=
  keys.compare a b == 0

/-- What `cad_hash_keys_t` promises. -/
structure HashKeys.Lawful (keys : HashKeys K) : Prop where
  equiv : KeyEquiv keys.same
  hash_eq : ∀ a b, keys.same a b = true → keys.hash a = keys.hash b
  clone_same : ∀ k, keys.same (keys.clone k) k = true

/-- The probe sequences of `index_of`. -/
def probing (keys : HashKeys K) (capacity : Nat) : Probing (HashKey K) where
  same a b := keys.same a.key b.key
  slot key n := (probe key.hash n).slot capacity

theorem probing_equiv {keys : HashKeys K} (he : KeyEquiv keys.same)
    (capacity : Nat) : KeyEquiv (probing keys capacity).same where
  refl a := he.refl a.key
  symm h := he.symm h
  trans h h' := he.trans h h'

theorem probing_covers (keys : HashKeys K) {k : Nat} (hk : k ≤ 30) :
    (probing keys (2 ^ k)).Covers (2 ^ k) where
  lt key n := Nat.mod_lt _ (Nat.two_pow_pos k)
  slot key i hi := by
    obtain ⟨n, -, hn⟩ := probe_slot_surjective key.hash hk hi
    exact ⟨n, hn⟩

/-- The entries of a table whose key is not NULL. -/
def slotsOf (entries : Nat → HashEntry K V) : Slots (HashKey K) (Option V) :=
  fun i => (entries i).key.map fun k => (⟨k, (entries i).hash⟩, (entries i).value)

theorem slotsOf_eq_none {entries : Nat → HashEntry K V} {i : Nat} :
    slotsOf entries i = none ↔ (entries i).key = none := by
  rw [slotsOf, Option.map_eq_none_iff]

theorem slotsOf_eq_some {entries : Nat → HashEntry K V} {i : Nat}
    {e : HashKey K × Option V} :
    slotsOf entries i = some e ↔
      (entries i).key = some e.1.key ∧ (entries i).hash = e.1.hash ∧
        (entries i).value = e.2 := by
  rw [slotsOf, Option.map_eq_some_iff]
  constructor
  · rintro ⟨k, hk, rfl⟩
    exact ⟨hk, rfl, rfl⟩
  · rintro ⟨hk, hhash, hvalue⟩
    refine ⟨e.1.key, hk, ?_⟩
    rw [hhash, hvalue]

theorem slotsOf_update (entries : Nat → HashEntry K V) (i : Nat)
    (entry : HashEntry K V) :
    slotsOf (Function.update entries i entry) =
      Function.update (slotsOf entries) i
        (entry.key.map fun k => (⟨k, entry.hash⟩, entry.value)) := by
  funext j
  by_cases hj : j = i
  · rw [hj, Function.update_self, slotsOf, Function.update_self]
  · rw [Function.update_of_ne hj, slotsOf, Function.update_of_ne hj, slotsOf]

variable {keys : HashKeys K} {capacity : Nat} {entries : Nat → HashEntry K V}
  {key : HashKey K} {n : Nat}

theorem indexOfStep_next
    (h : ¬ (probing keys capacity).Stops (slotsOf entries) key n) :
    Returns (indexOfStep entries keys capacity key (probe key.hash n))
      (.inl (probe key.hash (n + 1))) := by
  rw [Probing.Stops] at h
  push Not at h
  obtain ⟨e, he, hne⟩ := h
  obtain ⟨hkey, -, -⟩ := slotsOf_eq_some.mp he
  have hcmp : ¬ keys.compare key.key e.1.key = 0 := by
    simpa [probing, HashKeys.same] using hne
  have hslot : (entries ((probe key.hash n).slot capacity)).key =
      some e.1.key := hkey
  rw [indexOfStep, hslot]
  simp only [hcmp, ↓reduceIte, probe_succ]
  exact returns_pure_self _

/-- `index_of` comes to the slot where the walk first stops. -/
theorem indexOf_reaches (hcap : capacity ≠ 0)
    (hn : (probing keys capacity).FirstStop (slotsOf entries) key n)
    (index : Int)
    (hstop : Returns
      (indexOfStep entries keys capacity key (probe key.hash n))
      (.inr index)) :
    Returns (indexOf entries keys capacity key) index := by
  rw [indexOf, if_neg hcap]
  have hreach : ∀ m, m ≤ n → Reaches (indexOfStep entries keys capacity key)
      (probe key.hash 0) (probe key.hash m) := by
    intro m
    induction m with
    | zero => exact fun _ => Reaches.refl _
    | succ m ih =>
        intro hm
        have hprev := ih (Nat.le_of_succ_le hm)
        exact hprev.trans (Reaches.step (indexOfStep_next (hn.least m hm)))
  exact (hreach n (Nat.le_refl n)).returns_iff.mpr hstop.loop_exit

theorem indexOf_free (hcap : capacity ≠ 0)
    (hn : (probing keys capacity).FirstStop (slotsOf entries) key n)
    (hnone : slotsOf entries ((probing keys capacity).slot key n) = none) :
    Returns (indexOf entries keys capacity key)
      (-((probing keys capacity).slot key n : Int) - 1) := by
  apply indexOf_reaches hcap hn
  have hslot : (entries ((probe key.hash n).slot capacity)).key = none :=
    slotsOf_eq_none.mp hnone
  rw [indexOfStep, hslot]
  exact returns_pure_self _

theorem indexOf_found (hcap : capacity ≠ 0)
    (hn : (probing keys capacity).FirstStop (slotsOf entries) key n)
    {e : HashKey K × Option V}
    (hsome : slotsOf entries ((probing keys capacity).slot key n) = some e) :
    Returns (indexOf entries keys capacity key)
      ((probing keys capacity).slot key n : Int) := by
  apply indexOf_reaches hcap hn
  have hslot : (entries ((probe key.hash n).slot capacity)).key =
      some e.1.key := (slotsOf_eq_some.mp hsome).1
  have hcmp : keys.compare key.key e.1.key = 0 := by
    simpa [probing, HashKeys.same] using hn.stops e hsome
  rw [indexOfStep, hslot]
  simp only [hcmp, ↓reduceIte]
  exact returns_pure_self _

/-- What `index_of` may answer: the slot of an equal key, or `-i - 1` for the
free slot `i`. -/
inductive IndexAnswer (entries : Nat → HashEntry K V) (keys : HashKeys K)
    (capacity : Nat) (key : HashKey K) : Int → Prop
  | found {i : Nat} {k : K} : i < capacity → (entries i).key = some k →
      keys.compare key.key k = 0 → IndexAnswer entries keys capacity key i
  | free {i : Nat} : i < capacity → (entries i).key = none →
      IndexAnswer entries keys capacity key (-(i : Int) - 1)

theorem indexOf_answers {k : Nat} (hk : k ≤ 30) (key : HashKey K) {i : Nat}
    (hi : i < 2 ^ k) (hfree : (entries i).key = none) :
    ∃ index, Returns (indexOf entries keys (2 ^ k) key) index ∧
      IndexAnswer entries keys (2 ^ k) key index := by
  have hcap : 2 ^ k ≠ 0 := Nat.ne_of_gt (Nat.two_pow_pos k)
  have hcovers := probing_covers keys hk
  obtain ⟨n, hn⟩ := hcovers.exists_firstStop hi (slotsOf_eq_none.mpr hfree) key
  have hlt := hcovers.lt key n
  cases hslot : slotsOf entries ((probing keys (2 ^ k)).slot key n) with
  | none =>
      exact ⟨_, indexOf_free hcap hn hslot,
        .free hlt (slotsOf_eq_none.mp hslot)⟩
  | some e =>
      have hcmp : keys.compare key.key e.1.key = 0 := by
        simpa [probing, HashKeys.same] using hn.stops e hslot
      exact ⟨_, indexOf_found hcap hn hslot,
        .found hlt (slotsOf_eq_some.mp hslot).1 hcmp⟩

/-- The first `capacity + 7` slots of a probe sequence are all the slots, so
`index_of` ends on every table with a free slot. -/
theorem probing_covers_table {k : Nat} (hk : 2 ≤ k ∧ k ≤ 30) :
    (∀ (hash : UInt32) (i : Nat), i < 2 ^ k →
      ∃ n < 2 ^ k + 7, (probe hash n).slot (2 ^ k) = i) ∧
    ∀ (entries : Nat → HashEntry K V) (keys : HashKeys K) (key : HashKey K),
      (∃ i < 2 ^ k, (entries i).key = none) →
      ∃ index, Returns (indexOf entries keys (2 ^ k) key) index ∧
        IndexAnswer entries keys (2 ^ k) key index := by
  refine ⟨fun hash i hi => probe_slot_surjective hash hk.2 hi, ?_⟩
  rintro entries keys key ⟨i, hi, hfree⟩
  exact indexOf_answers hk.2 key hi hfree

/-- A table of four slots, of which the last is free. -/
theorem probing_covers_four :
    ∃ index, Returns (indexOf
        (fun i => ⟨if i < 3 then some [97] else none, 0, some i⟩) hashStrings 4
        ⟨[98], 5⟩) index ∧
      IndexAnswer (fun i => ⟨if i < 3 then some [97] else none, 0, some i⟩)
        hashStrings 4 ⟨[98], 5⟩ index := by
  exact (@probing_covers_table Bytes Nat 2 (by decide)).2 _ hashStrings
    ⟨[98], 5⟩ ⟨3, by decide, rfl⟩

namespace HashTable

def slots (this : HashTable K V) : Slots (HashKey K) (Option V) :=
  slotsOf this.entries

def liveEntries (this : HashTable K V) : Dict (HashKey K) (Option V) :=
  Slots.live this.slots this.capacity

def pairOf (e : HashKey K × Option V) : K × Option V := (e.1.key, e.2)

/-- The pairs of a table, in slot order. -/
def contents (this : HashTable K V) : Dict K (Option V) :=
  this.liveEntries.map pairOf

/-- The invariant of a table that has been allocated. -/
structure Filled (keys : HashKeys K) (this : HashTable K V) : Prop where
  capacity_eq : ∃ k, 2 ≤ k ∧ k ≤ 30 ∧ this.capacity = 2 ^ k
  sound : (probing keys this.capacity).Sound this.slots this.capacity
  hashes : ∀ e ∈ this.liveEntries, e.1.hash = keys.hash e.1.key + this.salt
  count_eq : this.count = this.liveEntries.length
  count_lt : this.count < this.capacity

/-- The invariant of every reachable table. -/
def Valid (keys : HashKeys K) (this : HashTable K V) : Prop :=
  this.capacity = 0 ∧ this.count = 0 ∨ this.Filled keys

theorem contents_of_capacity_zero {this : HashTable K V}
    (h : this.capacity = 0) : this.contents = [] := by
  rw [contents, liveEntries, h]
  rfl

namespace Filled

variable {this : HashTable K V}

theorem capacity_ne_zero (hf : this.Filled keys) : this.capacity ≠ 0 := by
  obtain ⟨k, -, -, hcap⟩ := hf.capacity_eq
  rw [hcap]
  exact Nat.ne_of_gt (Nat.two_pow_pos k)

theorem covers (hf : this.Filled keys) :
    (probing keys this.capacity).Covers this.capacity := by
  obtain ⟨k, -, hk, hcap⟩ := hf.capacity_eq
  rw [hcap]
  exact probing_covers keys hk

theorem distinct (hf : this.Filled keys) :
    Dict.Distinct keys.same this.contents :=
  List.pairwise_map.mpr hf.sound.unique.distinct

theorem exists_firstStop (hf : this.Filled keys) (key : HashKey K) :
    ∃ n, (probing keys this.capacity).FirstStop this.slots key n := by
  have hlt := hf.count_lt
  rw [hf.count_eq] at hlt
  obtain ⟨i, hi, hnone⟩ := Slots.exists_empty hlt
  exact hf.covers.exists_firstStop hi hnone key

theorem lookup (hk : keys.Lawful) (hf : this.Filled keys) (k : K) :
    (∃ i e, i < this.capacity ∧ this.slots i = some e ∧
      keys.same e.1.key k = true ∧
      Returns (indexOf this.entries keys this.capacity
        (hashKey k keys this.salt)) (i : Int)) ∨
    (∃ n, (probing keys this.capacity).FirstStop this.slots
        (hashKey k keys this.salt) n ∧
      this.slots ((probing keys this.capacity).slot
        (hashKey k keys this.salt) n) = none ∧
      (∀ e ∈ this.liveEntries, keys.same e.1.key k = false) ∧
      Returns (indexOf this.entries keys this.capacity
        (hashKey k keys this.salt))
        (-((probing keys this.capacity).slot
          (hashKey k keys this.salt) n : Int) - 1)) := by
  obtain ⟨n, hn⟩ := hf.exists_firstStop (hashKey k keys this.salt)
  cases hslot : this.slots ((probing keys this.capacity).slot
      (hashKey k keys this.salt) n) with
  | some e =>
      refine Or.inl ⟨_, e, hf.covers.lt _ n, hslot, ?_,
        indexOf_found hf.capacity_ne_zero hn hslot⟩
      exact hk.equiv.symm (hn.stops e hslot)
  | none =>
      refine Or.inr ⟨n, hn, hslot, ?_,
        indexOf_free hf.capacity_ne_zero hn hslot⟩
      -- Equal keys have equal hashes, hence the same probe sequence.
      refine hf.sound.absent (probing_equiv hk.equiv _) ?_ hn hslot
      intro e hmem hsame
      have hhash : e.1.hash = (hashKey k keys this.salt).hash := by
        rw [hf.hashes e hmem, hashKey, hk.hash_eq k e.1.key hsame]
      simp only [probing, hhash]

def others (this : HashTable K V) (i : Nat) : Dict K (Option V) :=
  (Slots.live (Function.update this.slots i none) this.capacity).map pairOf

theorem contents_split (hf : this.Filled keys) (hk : keys.Lawful) {i : Nat}
    {e : HashKey K × Option V} {k : K} (hi : i < this.capacity)
    (he : this.slots i = some e) (hsame : keys.same e.1.key k = true) :
    this.contents.Perm (pairOf e :: others this i) ∧
      ∀ a ∈ others this i, keys.same a.1 k = false := by
  have hperm : this.contents.Perm (pairOf e :: others this i) :=
    (Slots.live_of_some hi he).map pairOf
  refine ⟨hperm, ?_⟩
  intro a ha
  have hd := hf.distinct.perm hk.equiv hperm
  have hne := (List.pairwise_cons.mp hd).1 a ha
  rw [Bool.eq_false_iff] at hne ⊢
  exact fun h => hne (hk.equiv.trans hsame (hk.equiv.symm h))

end Filled

/-- The parts of a table `rehash` leaves alone, and what it keeps of the
slots. -/
structure Rehashing (keys : HashKeys K) (start this : HashTable K V) :
    Prop where
  capacity_eq : this.capacity = start.capacity
  count_eq : this.count = start.count
  salt_eq : this.salt = start.salt
  unique : (probing keys start.capacity).Unique this.slots start.capacity
  live_perm : this.liveEntries.Perm start.liveEntries

/-- The walk for every stored key up to slot `i` ends at a stored key. -/
def Repaired (keys : HashKeys K) (this : HashTable K V) (i : Nat) : Prop :=
  ∀ j < i, ∀ e, this.slots j = some e →
    ∃ n, (probing keys this.capacity).FirstStop this.slots e.1 n ∧
      this.slots ((probing keys this.capacity).slot e.1 n) ≠ none

theorem Repaired.succ {this : HashTable K V} {i : Nat}
    (h : this.Repaired keys i)
    (hi : ∀ e, this.slots i = some e →
      ∃ n, (probing keys this.capacity).FirstStop this.slots e.1 n ∧
        this.slots ((probing keys this.capacity).slot e.1 n) ≠ none) :
    this.Repaired keys (i + 1) := by
  intro j hj e he
  rcases Nat.lt_succ_iff_lt_or_eq.mp hj with hlt | rfl
  · exact h j hlt e he
  · exact hi e he

/-- One iteration of `rehash` goes on to the next slot, or moves an entry
nearer to the start of its walk. -/
theorem rehashStep_returns (he : KeyEquiv keys.same)
    {start this : HashTable K V} {i : Nat}
    (hcov : (probing keys start.capacity).Covers start.capacity)
    (hempty : start.liveEntries.length < start.capacity)
    (hr : Rehashing keys start this) (hrep : this.Repaired keys i)
    (hi : i < start.capacity) :
    ∃ this' i', Returns (rehashStep keys (this, i)) (.inl (this', i')) ∧
      Rehashing keys start this' ∧ this'.Repaired keys i' ∧
      i' ≤ start.capacity ∧
      (this' = this ∧ i' = i + 1 ∨
        (probing keys start.capacity).displacement this'.slots start.capacity <
          (probing keys start.capacity).displacement this.slots
            start.capacity) := by
  have hcap := hr.capacity_eq
  have hi' : i < this.capacity := hcap ▸ hi
  cases hkey : (this.entries i).key with
  | none =>
      refine ⟨this, i + 1, ?_, hr, hrep.succ ?_, hi, Or.inl ⟨rfl, rfl⟩⟩
      · simp only [rehashStep, hi', ↓reduceIte, hkey]
        exact returns_pure_self _
      · intro e he
        rw [slots, slotsOf_eq_none.mpr hkey] at he
        cases he
  | some k =>
      let key : HashKey K := ⟨k, (this.entries i).hash⟩
      have hslot : this.slots i = some (key, (this.entries i).value) :=
        slotsOf_eq_some.mpr ⟨hkey, rfl, rfl⟩
      have hlive : (Slots.live this.slots start.capacity).length <
          start.capacity := by
        have hlen := hr.live_perm.length_eq
        rw [liveEntries, hcap] at hlen
        omega
      obtain ⟨j, hj, hnone⟩ := Slots.exists_empty hlive
      obtain ⟨n, hn⟩ := hcov.exists_firstStop hj hnone key
      have hne : start.capacity ≠ 0 := Nat.ne_of_gt (Nat.lt_of_le_of_lt
        (Nat.zero_le i) hi)
      cases hend : this.slots ((probing keys start.capacity).slot key n) with
      | some a =>
          have hfound := indexOf_found hne hn hend
          refine ⟨this, i + 1, ?_, hr, hrep.succ ?_, hi, Or.inl ⟨rfl, rfl⟩⟩
          · simp only [rehashStep, hi', ↓reduceIte, hkey]
            rw [hcap]
            refine hfound.bind ?_
            rw [if_neg (by omega)]
            exact returns_pure_self _
          · intro e he
            rw [hslot] at he
            cases he
            rw [hcap]
            exact ⟨n, hn, by rw [hend]; simp⟩
      | none =>
          have hfree := indexOf_free hne hn hend
          have hlt : (probing keys start.capacity).slot key n <
            start.capacity := hcov.lt key n
          generalize hm : (probing keys start.capacity).slot key n = m at *
          let entries := Function.update this.entries m
            ⟨some k, (this.entries i).hash, (this.entries i).value⟩
          let this' : HashTable K V := { this with
            entries := Function.update entries i ⟨none, (entries i).hash, none⟩ }
          have hslots : this'.slots =
              Probing.move this.slots (key, (this.entries i).value) i m := by
            rw [slots, slotsOf_update, slotsOf_update]
            rfl
          refine ⟨this', 0, ?_, ⟨hcap, hr.count_eq, hr.salt_eq, ?_, ?_⟩, ?_,
            Nat.zero_le _, Or.inr ?_⟩
          · simp only [rehashStep, hi', ↓reduceIte, hkey]
            rw [← hcap] at hfree
            refine hfree.bind ?_
            rw [if_pos (by omega), show (-(-(m : Int) - 1) - 1).toNat = m by
              omega]
            exact returns_pure_self _
          · rw [hslots]
            exact hr.unique.move hi hslot
          · refine List.Perm.trans ?_ hr.live_perm
            rw [liveEntries, hslots, liveEntries, hcap]
            exact Probing.live_move hi hlt hslot hend
          · intro j hj
            exact absurd hj (Nat.not_lt_zero j)
          · rw [hslots, ← hm]
            exact Probing.displacement_move (probing_equiv he _) hcov hi hslot
              hn (hm ▸ hend)

theorem rehash_returns (he : KeyEquiv keys.same) {start : HashTable K V}
    (hcov : (probing keys start.capacity).Covers start.capacity)
    (hempty : start.liveEntries.length < start.capacity)
    (hu : (probing keys start.capacity).Unique start.slots start.capacity) :
    ∃ this, Returns (rehash keys start) this ∧
      Rehashing keys start this ∧
      (probing keys start.capacity).Sound this.slots start.capacity := by
  let D := fun this : HashTable K V =>
    (probing keys start.capacity).displacement this.slots start.capacity
  refine loop_returns
    (I := fun s => Rehashing keys start s.1 ∧ s.1.Repaired keys s.2 ∧
      s.2 ≤ start.capacity)
    (fun s => D s.1 * (start.capacity + 1) + (start.capacity - s.2)) ?_
    ⟨⟨rfl, rfl, rfl, hu, List.Perm.refl _⟩,
      fun j hj => absurd hj (Nat.not_lt_zero j), Nat.zero_le _⟩
  rintro ⟨this, i⟩ ⟨hr, hrep, hle⟩
  dsimp only at hr hrep hle
  by_cases hi : i < start.capacity
  · obtain ⟨this', i', hstep, hr', hrep', hle', hdec⟩ :=
      rehashStep_returns he hcov hempty hr hrep hi
    refine Or.inl ⟨(this', i'), hstep, ⟨hr', hrep', hle'⟩, ?_⟩
    dsimp only
    rcases hdec with ⟨rfl, rfl⟩ | hlt
    · omega
    · -- A restart is paid for by the smaller displacement.
      have hmul : (D this' + 1) * (start.capacity + 1) ≤
          D this * (start.capacity + 1) :=
        Nat.mul_le_mul_right _ (Nat.succ_le_of_lt hlt)
      rw [Nat.succ_mul] at hmul
      omega
  · refine Or.inr ⟨this, ?_, hr, ?_⟩
    · have hi' : ¬ i < this.capacity := hr.capacity_eq ▸ hi
      simp only [rehashStep, hi', ↓reduceIte]
      exact returns_pure_self _
    · refine hr.unique.reachable (probing_equiv he _) hcov ?_
      intro j e hj hslot
      have h := hrep j (by omega) e hslot
      rwa [hr.capacity_eq] at h

/-- What `del` hands to `rehash`: the slot is freed and no longer counted. -/
def without (this : HashTable K V) (i : Nat) : HashTable K V :=
  { this with
    count := this.count - 1,
    entries := Function.update this.entries i
      ⟨none, (this.entries i).hash, none⟩ }

theorem slots_without (this : HashTable K V) (i : Nat) :
    (this.without i).slots = Function.update this.slots i none := by
  rw [slots, without, slotsOf_update]
  rfl

/-- Once an entry was taken out, `rehash` restores the invariant. -/
theorem Filled.rehash_without (hk : keys.Lawful) {this : HashTable K V}
    (hf : this.Filled keys) {i : Nat} {e : HashKey K × Option V}
    (hi : i < this.capacity) (he : this.slots i = some e) :
    ∃ this', Returns (rehash keys (this.without i)) this' ∧
      this'.Filled keys ∧ this'.capacity = this.capacity ∧
      this'.liveEntries.Perm (this.without i).liveEntries := by
  have hold := Slots.live_of_some hi he
  have hslots := slots_without this i
  have hlen : (this.without i).liveEntries.length + 1 = this.count := by
    rw [hf.count_eq, liveEntries, hslots, liveEntries, hold.length_eq]
    rfl
  have hlt := hf.count_lt
  have hroom : (this.without i).liveEntries.length <
      (this.without i).capacity := by
    show (this.without i).liveEntries.length < this.capacity
    omega
  have hunique : (probing keys (this.without i).capacity).Unique
      (this.without i).slots (this.without i).capacity := by
    rw [hslots]
    exact hf.sound.unique.erase i
  have hcovers : (probing keys (this.without i).capacity).Covers
      (this.without i).capacity := hf.covers
  obtain ⟨this', hrun, hr, hsound⟩ :=
    rehash_returns hk.equiv hcovers hroom hunique
  have hcap : this'.capacity = this.capacity := hr.capacity_eq
  refine ⟨this', hrun, ⟨?_, ?_, ?_, ?_, ?_⟩, hcap, hr.live_perm⟩
  · rw [hcap]
    exact hf.capacity_eq
  · rw [hcap]
    exact hsound
  · intro a ha
    have hmem := hr.live_perm.mem_iff.mp ha
    rw [liveEntries, hslots] at hmem
    rw [hr.salt_eq]
    exact hf.hashes a (hold.mem_iff.mpr (List.mem_cons_of_mem e hmem))
  · rw [hr.count_eq, hr.live_perm.length_eq]
    show this.count - 1 = (this.without i).liveEntries.length
    omega
  · rw [hr.count_eq, hcap]
    show this.count - 1 < this.capacity
    omega

/-- Copying entries into a sound table with room for them. -/
theorem growEntries_returns (hk : keys.Lawful) (this : HashTable K V)
    {newCapacity : Nat} (hne : newCapacity ≠ 0)
    (hcov : (probing keys newCapacity).Covers newCapacity) (todo : List Nat)
    (newEntries : Nat → HashEntry K V)
    (hsound : (probing keys newCapacity).Sound (slotsOf newEntries)
      newCapacity)
    (hdistinct : Dict.Distinct (probing keys newCapacity).same
      (Slots.live (slotsOf newEntries) newCapacity ++
        todo.filterMap this.slots))
    (hroom : (Slots.live (slotsOf newEntries) newCapacity ++
      todo.filterMap this.slots).length < newCapacity) :
    ∃ result, Returns
        (todo.foldlM (growEntry this keys newCapacity) newEntries) result ∧
      (probing keys newCapacity).Sound (slotsOf result) newCapacity ∧
      (Slots.live (slotsOf result) newCapacity).Perm
        (Slots.live (slotsOf newEntries) newCapacity ++
          todo.filterMap this.slots) := by
  induction todo generalizing newEntries with
  | nil =>
      refine ⟨newEntries, returns_pure_self _, hsound, ?_⟩
      rw [List.filterMap_nil, List.append_nil]
  | cons i todo ih =>
      rw [List.foldlM_cons]
      cases hslot : this.slots i with
      | none =>
          rw [List.filterMap_cons_none hslot] at hdistinct hroom ⊢
          obtain ⟨result, hrun, hresult⟩ :=
            ih newEntries hsound hdistinct hroom
          refine ⟨result, Returns.bind (a := newEntries) ?_ hrun, hresult⟩
          rw [growEntry, slotsOf_eq_none.mp hslot]
          exact returns_pure_self _
      | some e =>
          rw [List.filterMap_cons_some hslot] at hdistinct hroom ⊢
          have habsent : ∀ a ∈ Slots.live (slotsOf newEntries) newCapacity,
              (probing keys newCapacity).same a.1 e.1 = false := fun a ha =>
            (List.pairwise_append.mp hdistinct).2.2 a ha e List.mem_cons_self
          have hlive : (Slots.live (slotsOf newEntries) newCapacity).length <
              newCapacity := by
            rw [List.length_append] at hroom
            omega
          obtain ⟨j, hj, hnone⟩ := Slots.exists_empty hlive
          obtain ⟨n, hn⟩ := hcov.exists_firstStop hj hnone e.1
          have hlt := hcov.lt e.1 n
          have hend : slotsOf newEntries
              ((probing keys newCapacity).slot e.1 n) = none := by
            cases h : slotsOf newEntries
                ((probing keys newCapacity).slot e.1 n) with
            | none => rfl
            | some a =>
                have hsame := (probing_equiv hk.equiv _).symm (hn.stops a h)
                rw [habsent a (Slots.mem_live.mpr ⟨_, hlt, h⟩)] at hsame
                cases hsame
          obtain ⟨hkey, hhash, hvalue⟩ := slotsOf_eq_some.mp hslot
          have hfree := indexOf_free hne hn hend
          have hsound' := hsound.insert (probing_equiv hk.equiv _) habsent
            (fun m hm => hn.ne_none_of_lt hm)
          have hinsert := Slots.live_insert e hlt hend
          generalize (probing keys newCapacity).slot e.1 n = m at *
          have hslots : slotsOf (Function.update newEntries m
              (this.entries i)) =
              Function.update (slotsOf newEntries) m (some e) := by
            rw [slotsOf_update, hkey, hhash, hvalue]
            rfl
          have hperm : (Slots.live (slotsOf (Function.update newEntries m
              (this.entries i))) newCapacity ++
              todo.filterMap this.slots).Perm
              (Slots.live (slotsOf newEntries) newCapacity ++
                e :: todo.filterMap this.slots) := by
            rw [hslots]
            exact (hinsert.append_right _).trans List.perm_middle.symm
          obtain ⟨result, hrun, hres, hresult⟩ :=
            ih (Function.update newEntries m (this.entries i))
              (hslots ▸ hsound')
              (hdistinct.perm (probing_equiv hk.equiv _) hperm.symm)
              (hperm.length_eq ▸ hroom)
          refine ⟨result, Returns.bind ?_ hrun, hres, hresult.trans hperm⟩
          rw [growEntry, hkey]
          dsimp only
          rw [hhash]
          refine hfree.bind ?_
          rw [if_pos (by omega), show (-(-(m : Int) - 1) - 1).toNat = m by
            omega]
          exact returns_pure_self _

/-- A capacity that can be doubled is far below the greatest `int`. -/
theorem Filled.capacity_le {this : HashTable K V} (hf : this.Filled keys)
    (hfits : this.capacity * 2 ≤ intMax) :
    ∃ k, 2 ≤ k ∧ k ≤ 29 ∧ this.capacity = 2 ^ k := by
  obtain ⟨k, hlow, hhigh, hcap⟩ := hf.capacity_eq
  refine ⟨k, hlow, ?_, hcap⟩
  rcases Nat.lt_or_eq_of_le hhigh with hlt | rfl
  · exact Nat.le_of_lt_succ hlt
  · rw [hcap, intMax] at hfits
    omega

theorem Filled.grow_returns (hk : keys.Lawful) {this : HashTable K V}
    (hf : this.Filled keys) (hfits : this.capacity * 2 ≤ intMax) :
    ∃ this', Returns (grow keys this 2) this' ∧ this'.Filled keys ∧
      this'.capacity = this.capacity * 2 ∧ this'.count = this.count ∧
      this'.salt = this.salt ∧
      this'.liveEntries.Perm this.liveEntries := by
  obtain ⟨k, hlow, hhigh, hcap⟩ := hf.capacity_le hfits
  have hcap2 : this.capacity * 2 = 2 ^ (k + 1) := by rw [hcap, pow_succ]
  have hcov : (probing keys (this.capacity * 2)).Covers
      (this.capacity * 2) := by
    rw [hcap2]
    exact probing_covers keys (by omega)
  have hne : this.capacity * 2 ≠ 0 := by
    have := hf.capacity_ne_zero
    omega
  have hlive : (List.range this.capacity).filterMap this.slots =
      this.liveEntries := (Slots.live_eq_filterMap _ _).symm
  have hzero : Slots.live (slotsOf fun _ => HashEntry.zero K V)
      (this.capacity * 2) = [] := Slots.live_empty _
  obtain ⟨entries, hrun, hsound, hperm⟩ := growEntries_returns hk this hne
    hcov (List.range this.capacity) (fun _ => HashEntry.zero K V)
    Probing.Sound.empty (by
      rw [hzero, hlive]
      exact hf.sound.unique.distinct)
    (by
      have hlt := hf.count_lt
      rw [hf.count_eq] at hlt
      rw [hzero, hlive, List.nil_append]
      omega)
  rw [hzero, hlive, List.nil_append] at hperm
  refine ⟨{ this with capacity := this.capacity * 2, entries := entries }, ?_,
    ⟨⟨k + 1, by omega, by omega, hcap2⟩, hsound, ?_, ?_, ?_⟩, rfl, rfl, rfl,
    hperm⟩
  · rw [grow, if_neg hf.capacity_ne_zero]
    exact (intMul_returns hfits).bind (hrun.bind (returns_pure_self _))
  · exact fun e he => hf.hashes e (hperm.mem_iff.mp he)
  · exact hf.count_eq.trans hperm.length_eq.symm
  · have hlt := hf.count_lt
    show this.count < this.capacity * 2
    omega

theorem grow_first (keys : HashKeys K) {this : HashTable K V}
    (hcap : this.capacity = 0) (hcount : this.count = 0) :
    ∃ this', Returns (grow keys this 2) this' ∧ this'.Filled keys ∧
      this'.capacity = 4 ∧ this'.contents = [] := by
  refine ⟨{ this with
      capacity := 2 * 2, entries := fun _ => HashEntry.zero K V }, ?_,
    ⟨⟨2, by decide, by decide, rfl⟩,
      Probing.Sound.empty, ?_, ?_, ?_⟩,
    rfl, rfl⟩
  · rw [grow, if_pos hcap]
    exact (intMul_returns (by decide)).bind (returns_pure_self _)
  · intro e he
    cases he
  · exact hcount
  · show this.count < 4
    omega

end HashTable

end Libcad
