/-
What is true of every table that can be reached, said slot by slot, and what
`grow` and `rehash` keep of it.
-/
import Libcad.HashRefines

namespace Libcad

open Proc

variable {K V : Type} {keys : HashKeys K}

namespace HashTable

def Holds (this : HashTable K V) (i : Nat) (key : HashKey K) : Prop :=
  i < this.capacity ∧ (this.entries i).key = some key.key ∧
    (this.entries i).hash = key.hash

def used (this : HashTable K V) : List Nat :=
  (List.range this.capacity).filter fun i => (this.entries i).key.isSome

def Unequal (keys : HashKeys K) (this : HashTable K V) : Prop :=
  ∀ i j a b, this.Holds i a → this.Holds j b → i ≠ j →
    keys.compare a.key b.key ≠ 0

/-- The probe sequence of every stored key meets its slot before any empty
slot. -/
def Findable (this : HashTable K V) : Prop :=
  ∀ i key, this.Holds i key → ∃ n, (probe key.hash n).slot this.capacity = i ∧
    ∀ m < n, (this.entries ((probe key.hash m).slot this.capacity)).key ≠ none

/-- A table as the calls of its interface leave it. -/
structure WellFormed (keys : HashKeys K) (this : HashTable K V) : Prop where
  capacity_eq : this.capacity = 0 ∨ ∃ k, 2 ≤ k ∧ this.capacity = 2 ^ k
  count_eq : this.count = this.used.length
  count_lt : this.capacity ≠ 0 → this.count < this.capacity
  unequal : this.Unequal keys
  hashes : ∀ i key, this.Holds i key →
    key.hash = keys.hash key.key + this.salt
  findable : this.Findable

/-- The tables that some calls make of a new one. -/
inductive Reachable (keys : HashKeys K) : HashTable K V → Prop
  | new (salt : UInt32) : Reachable keys (newHash K V salt)
  | step {this this' : HashTable K V} {op : HashOp K V}
      {reply : HashReply K V} : Reachable keys this →
      Returns (this.step keys op) (reply, this') → Reachable keys this'

variable {this : HashTable K V}

theorem holds_iff {i : Nat} {key : HashKey K} :
    this.Holds i key ↔
      i < this.capacity ∧ ∃ value, this.slots i = some (key, value) := by
  rw [Holds]
  refine and_congr_right fun _ => ⟨?_, ?_⟩
  · rintro ⟨hkey, hhash⟩
    exact ⟨_, slotsOf_eq_some.mpr ⟨hkey, hhash, rfl⟩⟩
  · rintro ⟨value, hslot⟩
    obtain ⟨hkey, hhash, -⟩ := slotsOf_eq_some.mp hslot
    exact ⟨hkey, hhash⟩

theorem length_used : this.used.length = this.liveEntries.length := by
  have hsome : ∀ i, (this.entries i).key.isSome = (this.slots i).isSome := by
    intro i
    rw [slots, slotsOf, Option.isSome_map]
  rw [used, liveEntries, Slots.live_eq_filterMap,
    List.length_filterMap_eq_countP, List.countP_eq_length_filter]
  simp only [hsome]

theorem unequal_iff :
    this.Unequal keys ↔
      (probing keys this.capacity).Unique this.slots this.capacity := by
  constructor
  · intro h i j e e' hi hj he he' hsame
    by_contra hij
    refine h i j e.1 e'.1 (holds_iff.mpr ⟨hi, _, he⟩)
      (holds_iff.mpr ⟨hj, _, he'⟩) hij ?_
    exact beq_iff_eq.mp hsame
  · intro h i j a b hi hj hij hcompare
    obtain ⟨hi, x, hx⟩ := holds_iff.mp hi
    obtain ⟨hj, y, hy⟩ := holds_iff.mp hj
    exact hij (h i j _ _ hi hj hx hy (beq_iff_eq.mpr hcompare))

theorem findable_iff :
    this.Findable ↔
      (probing keys this.capacity).Reachable this.slots this.capacity := by
  have hempty : ∀ i, (this.entries i).key ≠ none ↔ this.slots i ≠ none :=
    fun i => not_congr slotsOf_eq_none.symm
  constructor
  · intro h i e hi he
    obtain ⟨n, hn, hbefore⟩ := h i e.1 (holds_iff.mpr ⟨hi, _, he⟩)
    exact ⟨n, hn, fun m hm => (hempty _).mp (hbefore m hm)⟩
  · intro h i key hholds
    obtain ⟨hi, value, he⟩ := holds_iff.mp hholds
    obtain ⟨n, hn, hbefore⟩ := h i (key, value) hi he
    exact ⟨n, hn, fun m hm => (hempty _).mpr (hbefore m hm)⟩

theorem wellFormed_of_capacity_zero (hcap : this.capacity = 0)
    (hcount : this.count = 0) : this.WellFormed keys := by
  have hnone : ∀ i key, ¬ this.Holds i key := by
    intro i key hholds
    have hlt := hholds.1
    omega
  refine ⟨Or.inl hcap, ?_, fun h => absurd hcap h, ?_, ?_, ?_⟩
  · rw [hcount, used, hcap]
    rfl
  · exact fun i _ a _ ha => absurd ha (hnone i a)
  · exact fun i key hholds => absurd hholds (hnone i key)
  · exact fun i key hholds => absurd hholds (hnone i key)

theorem Filled.wellFormed (hf : this.Filled keys) : this.WellFormed keys where
  capacity_eq := by
    obtain ⟨k, hlow, -, hcap⟩ := hf.capacity_eq
    exact Or.inr ⟨k, hlow, hcap⟩
  count_eq := hf.count_eq.trans length_used.symm
  count_lt _ := hf.count_lt
  unequal := unequal_iff.mpr hf.sound.unique
  hashes := by
    intro i key hholds
    obtain ⟨hi, value, he⟩ := holds_iff.mp hholds
    exact hf.hashes (key, value) (Slots.mem_live.mpr ⟨i, hi, he⟩)
  findable := findable_iff.mpr hf.sound.reachable

theorem Valid.wellFormed (hv : this.Valid keys) : this.WellFormed keys := by
  rcases hv with ⟨hcap, hcount⟩ | hf
  · exact wellFormed_of_capacity_zero hcap hcount
  · exact hf.wellFormed

/-- A `set` that returns did not leave the range of `int`. -/
theorem Filled.setAllocated_filled (hk : keys.Lawful) (hf : this.Filled keys)
    {key : K} {value old : Option V} {this' : HashTable K V}
    (h : Returns (this.setAllocated keys key value) (old, this')) :
    this'.Filled keys := by
  by_cases hfits : this.capacity * 2 ≤ intMax
  · obtain ⟨next, hrun, hfilled, -⟩ :=
      hf.setAllocated_returns hk hfits key value
    cases h.unique hrun
    exact hfilled
  · obtain ⟨index, hindex, h⟩ := returns_bind.mp h
    rcases hf.lookup hk key with ⟨i, e, hi, he, hsame, hfound⟩ |
      ⟨n, -, -, -, hfree⟩
    · cases hindex.unique hfound
      rw [if_pos (Int.natCast_nonneg i), Int.toNat_natCast] at h
      cases returns_pure.mp h
      exact (hf.overwrite hk hi he hsame value).1
    · cases hindex.unique hfree
      rw [if_neg (by omega)] at h
      obtain ⟨threefold, -, h⟩ := returns_bind.mp h
      obtain ⟨twofold, htwofold, -⟩ := returns_bind.mp h
      rw [intMul, if_neg hfits] at htwofold
      exact absurd htwofold not_returns_undefined

theorem Valid.step (hk : keys.Lawful) (hv : this.Valid keys)
    {op : HashOp K V} {reply : HashReply K V} {this' : HashTable K V}
    (h : Returns (this.step keys op) (reply, this')) : this'.Valid keys := by
  cases op with
  | get key =>
      obtain ⟨value, -, h⟩ := returns_bind.mp h
      cases returns_pure.mp h
      exact hv
  | set key value =>
      obtain ⟨⟨old, next⟩, hset, h⟩ := returns_bind.mp h
      cases returns_pure.mp h
      rcases hv with ⟨hcap, hcount⟩ | hf
      · obtain ⟨first, hgrow, hf, -⟩ := grow_first keys hcap hcount
        rw [set, if_pos hcap, hgrow.bind_iff] at hset
        exact Or.inr (hf.setAllocated_filled hk hset)
      · rw [set, if_neg hf.capacity_ne_zero] at hset
        exact Or.inr (hf.setAllocated_filled hk hset)
  | del key =>
      obtain ⟨next, hdel, hvalid, -⟩ := del_returns hk hv key
      obtain ⟨old, hold, h⟩ := returns_bind.mp h
      cases returns_pure.mp h
      cases hold.unique hdel
      exact hvalid
  | count =>
      cases returns_pure.mp h
      exact hv
  | iterate =>
      obtain ⟨visits, -, h⟩ := returns_bind.mp h
      cases returns_pure.mp h
      exact hv
  | clean =>
      obtain ⟨next, hclean, hvalid, -⟩ := clean_returns hv
      obtain ⟨visits, hvisits, h⟩ := returns_bind.mp h
      cases returns_pure.mp h
      cases hvisits.unique hclean
      exact hvalid

theorem Reachable.valid (hk : keys.Lawful) (h : this.Reachable keys) :
    this.Valid keys := by
  induction h with
  | new salt => exact Or.inl ⟨rfl, rfl⟩
  | step _ hstep ih => exact ih.step hk hstep

/-- From any table whose capacity is a power of two, whose keys are pairwise
unequal and which has an empty slot, `rehash` comes to an end, with the same
entries in slots where they are found. -/
theorem rehash_repairs (he : KeyEquiv keys.same) (this : HashTable K V)
    (hpower : ∃ k, this.capacity = 2 ^ k) (hint : this.capacity ≤ intMax)
    (hunequal : this.Unequal keys)
    (hempty : ∃ i < this.capacity, (this.entries i).key = none) :
    ∃ this', Returns (rehash keys this) this' ∧ this'.Findable ∧
      this'.Unequal keys ∧ this'.capacity = this.capacity ∧
      this'.count = this.count ∧
      this'.liveEntries.Perm this.liveEntries := by
  obtain ⟨k, hcap⟩ := hpower
  have hk : k ≤ 30 := by
    by_contra hlarge
    have hpow : 2 ^ 31 ≤ 2 ^ k := Nat.pow_le_pow_right (by decide) (by omega)
    rw [hcap, intMax] at hint
    omega
  have hcov : (probing keys this.capacity).Covers this.capacity := by
    rw [hcap]
    exact probing_covers keys hk
  have hroom : this.liveEntries.length < this.capacity := by
    obtain ⟨i, hi, hnone⟩ := hempty
    have hnone' : ¬ (this.entries i).key.isSome = true := by
      rw [hnone]
      exact Bool.false_ne_true
    have hlt : this.used.length < (List.range this.capacity).length :=
      List.length_filter_lt_length_iff_exists.mpr
        ⟨i, List.mem_range.mpr hi, hnone'⟩
    rwa [length_used, List.length_range] at hlt
  obtain ⟨this', hrun, hr, hsound⟩ :=
    rehash_returns he hcov hroom (unequal_iff.mp hunequal)
  have hcap' := hr.capacity_eq
  rw [← hcap'] at hsound
  exact ⟨this', hrun, findable_iff.mpr hsound.reachable,
    unequal_iff.mpr hsound.unique, hcap', hr.count_eq, hr.live_perm⟩

/-- One key, whose walk begins at slot 1, is in slot 2. -/
def misplaced : HashTable Bytes Nat :=
  ⟨4, 1, 0, Function.update (fun _ => HashEntry.zero Bytes Nat) 2
    ⟨some [97], 97, some 1⟩⟩

theorem rehash_repairs_misplaced :
    ∃ this', Returns (rehash hashStrings misplaced) this' ∧
      this'.Findable := by
  have hslot : ∀ i a, misplaced.Holds i a → i = 2 := by
    intro i a hholds
    by_contra hi
    have hkey := hholds.2.1
    dsimp only [misplaced] at hkey
    rw [Function.update_of_ne hi] at hkey
    cases hkey
  have hunequal : misplaced.Unequal hashStrings := fun i j a b ha hb hij =>
    absurd ((hslot i a ha).trans (hslot j b hb).symm) hij
  obtain ⟨this', hrun, hfindable, -⟩ := rehash_repairs
    hashStrings_lawful.equiv misplaced ⟨2, rfl⟩ (by decide) hunequal
    ⟨0, by decide, rfl⟩
  exact ⟨this', hrun, hfindable⟩

/-- Growing a table keeps the invariant and its entries. -/
theorem Valid.grow (hk : keys.Lawful) (hv : this.Valid keys)
    {this' : HashTable K V} (h : Returns (grow keys this 2) this') :
    this'.Valid keys ∧ this'.liveEntries.Perm this.liveEntries := by
  rcases hv with ⟨hcap, hcount⟩ | hf
  · obtain ⟨first, hgrow, hfilled, -, hcontents⟩ :=
      grow_first keys hcap hcount
    cases h.unique hgrow
    have hnil : this.liveEntries = [] :=
      List.map_eq_nil_iff.mp (contents_of_capacity_zero hcap)
    rw [hnil, List.map_eq_nil_iff.mp hcontents]
    exact ⟨Or.inr hfilled, List.Perm.nil⟩
  · by_cases hfits : this.capacity * 2 ≤ intMax
    · obtain ⟨next, hgrow, hfilled, -, -, -, hperm⟩ :=
        hf.grow_returns hk hfits
      cases h.unique hgrow
      exact ⟨Or.inr hfilled, hperm⟩
    · rw [Libcad.grow, if_neg hf.capacity_ne_zero] at h
      obtain ⟨newCapacity, hmul, -⟩ := returns_bind.mp h
      rw [intMul, if_neg hfits] at hmul
      exact absurd hmul not_returns_undefined

end HashTable

/-- The invariant of every table that can be reached.  `grow` keeps it, and so
does `rehash` once an entry was taken out; neither loses an entry. -/
theorem hash_wellFormed (hk : keys.Lawful) {this : HashTable K V}
    (hreach : this.Reachable keys) :
    this.WellFormed keys ∧
    (∀ this', Returns (grow keys this 2) this' →
      this'.WellFormed keys ∧ this'.liveEntries.Perm this.liveEntries) ∧
    ∀ i key, this.Holds i key →
      ∃ this', Returns (rehash keys (this.without i)) this' ∧
        this'.WellFormed keys ∧
        this'.liveEntries.Perm (this.without i).liveEntries := by
  have hv := hreach.valid hk
  refine ⟨hv.wellFormed, ?_, ?_⟩
  · intro this' hgrow
    obtain ⟨hvalid, hperm⟩ := hv.grow hk hgrow
    exact ⟨hvalid.wellFormed, hperm⟩
  · intro i key hholds
    obtain ⟨hi, value, he⟩ := HashTable.holds_iff.mp hholds
    have hf : this.Filled keys := by
      refine hv.resolve_left fun hzero => ?_
      have hcap := hzero.1
      omega
    obtain ⟨this', hrun, hfilled, -, hperm⟩ := hf.rehash_without hk hi he
    exact ⟨this', hrun, hfilled.wellFormed, hperm⟩

/-- A table of strings after two calls. -/
theorem hash_wellFormed_strings :
    ∃ this : HashTable Bytes Nat, Returns
        ((newHash Bytes Nat 7).step hashStrings (.set [97] (some 1)))
        (.value none, this) ∧ this.WellFormed hashStrings := by
  have hset : Returns
      ((newHash Bytes Nat 7).step hashStrings (.set [97] (some 1)))
      (.value none, _) := ⟨5, rfl⟩
  exact ⟨_, hset, (hash_wellFormed hashStrings_lawful (.step (.new 7) hset)).1⟩

end Libcad
