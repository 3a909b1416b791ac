/-
The hash table refines a finite map: any sequence of operations on a new table
is answered as a dictionary over the keys of the manager answers it.
-/
import Libcad.HashInvariant

namespace Libcad

open Proc

/-- The calls of `cad_hash_t`. -/
inductive HashOp (K V : Type)
  | get (key : K)
  | set (key : K) (value : Option V)
  | del (key : K)
  | count
  | iterate
  | clean

/-- What a call returns, or the calls it makes to its iterator. -/
inductive HashReply (K V : Type)
  | value (value : Option V)
  | count (count : Nat)
  | visits (visits : List (Visit K V))
deriving DecidableEq

variable {K V : Type} {keys : HashKeys K}

namespace HashTable

def step (keys : HashKeys K) (this : HashTable K V) :
    HashOp K V → Proc (HashReply K V × HashTable K V)
  | .get key => do
      let value ← this.get keys key
      pure (.value value, this)
  | .set key value => do
      let (old, this) ← this.set keys key value
      pure (.value old, this)
  | .del key => do
      let (old, this) ← this.del keys key
      pure (.value old, this)
  | .count => pure (.count this.count, this)
  | .iterate => do
      let visits ← this.iterate
      pure (.visits visits, this)
  | .clean => do
      let (visits, this) ← this.clean
      pure (.visits visits, this)

/-- A sequence of calls with their replies. -/
def run (keys : HashKeys K) :
    List (HashOp K V) → HashTable K V → Proc (List (HashReply K V))
  | [], _ => pure []
  | op :: ops, this => do
      let (reply, this) ← this.step keys op
      let replies ← run keys ops this
      pure (reply :: replies)

/-- The capacity stays small enough for the products of `set` and `grow`. -/
def CapacityFits (keys : HashKeys K) :
    List (HashOp K V) → HashTable K V → Prop
  | [], _ => True
  | op :: ops, this => this.capacity * 2 ≤ intMax ∧
      ∀ reply this', Returns (this.step keys op) (reply, this') →
        CapacityFits keys ops this'

end HashTable

/-- The iterator calls that go through a list of pairs. -/
def visitsOf (d : Dict K (Option V)) : List (Visit K V) :=
  d.zipIdx.map fun p => ⟨p.2, p.1.1, p.1.2⟩

def HashOp.after (keys : HashKeys K) (d : Dict K (Option V)) :
    HashOp K V → Dict K (Option V)
  | .set key value => Dict.set keys.same (keys.clone key) key value d
  | .del key => Dict.erase keys.same key d
  | .clean => []
  | .get _ | .count | .iterate => d

/-- The replies the map allows: iteration visits its pairs in any order. -/
def HashOp.Answers (keys : HashKeys K) (d : Dict K (Option V))
    (reply : HashReply K V) : HashOp K V → Prop
  | .get key | .set key _ | .del key =>
      reply = .value (Dict.get keys.same d key).join
  | .count => reply = .count d.length
  | .iterate | .clean => ∃ d', d'.Perm d ∧ reply = .visits (visitsOf d')

/-- Every call is answered by the map as it is at that time. -/
def Answered (keys : HashKeys K) :
    Dict K (Option V) → List (HashOp K V) → List (HashReply K V) → Prop
  | _, [], [] => True
  | d, op :: ops, reply :: replies =>
      op.Answers keys d reply ∧ Answered keys (op.after keys d) ops replies
  | _, _, _ => False

namespace HashTable

/-- In the contents a stored key has the value of its slot. -/
theorem Filled.get_found (hk : keys.Lawful) {this : HashTable K V}
    (hf : this.Filled keys) {i : Nat} {e : HashKey K × Option V} {k : K}
    (hi : i < this.capacity) (he : this.slots i = some e)
    (hsame : keys.same e.1.key k = true) :
    Dict.get keys.same this.contents k = some e.2 := by
  have hmem : pairOf e ∈ this.contents :=
    List.mem_map.mpr ⟨e, Slots.mem_live.mpr ⟨i, hi, he⟩, rfl⟩
  exact Dict.get_of_mem hk.equiv hf.distinct hmem hsame

theorem get_absent {this : HashTable K V} {k : K}
    (habsent : ∀ e ∈ this.liveEntries, keys.same e.1.key k = false) :
    Dict.get keys.same this.contents k = none := by
  rw [Dict.get_eq_none_iff]
  intro a ha
  obtain ⟨e, he, rfl⟩ := List.mem_map.mp ha
  exact habsent e he

theorem get_returns (hk : keys.Lawful) {this : HashTable K V}
    (hv : this.Valid keys) (key : K) :
    Returns (this.get keys key)
      (Dict.get keys.same this.contents key).join := by
  by_cases hcount : this.count = 0
  · have hempty : this.contents = [] := by
      rcases hv with ⟨hcap, -⟩ | hf
      · exact contents_of_capacity_zero hcap
      · have hlen := hf.count_eq
        rw [hcount] at hlen
        rw [contents, List.eq_nil_of_length_eq_zero hlen.symm]
        rfl
    rw [get, if_pos hcount, hempty]
    exact returns_pure_self _
  · rcases hv with ⟨-, hzero⟩ | hf
    · exact absurd hzero hcount
    rw [get, if_neg hcount]
    rcases hf.lookup hk key with ⟨i, e, hi, he, hsame, hrun⟩ |
      ⟨n, -, -, habsent, hrun⟩
    · refine hrun.bind ?_
      rw [if_pos (Int.natCast_nonneg i), hf.get_found hk hi he hsame,
        Int.toNat_natCast, (slotsOf_eq_some.mp he).2.2]
      exact returns_pure_self _
    · refine hrun.bind ?_
      rw [if_neg (by omega), get_absent habsent]
      exact returns_pure_self _

theorem Filled.overwrite (hk : keys.Lawful) {this : HashTable K V}
    (hf : this.Filled keys) {i : Nat} {e : HashKey K × Option V} {k : K}
    (hi : i < this.capacity) (he : this.slots i = some e)
    (hsame : keys.same e.1.key k = true) (value : Option V) :
    let this' : HashTable K V := { this with
      entries := Function.update this.entries i
        { this.entries i with value := value } }
    this'.Filled keys ∧
      this'.contents.Perm
        (Dict.set keys.same (keys.clone k) k value this.contents) := by
  intro this'
  obtain ⟨hkey, hhash, -⟩ := slotsOf_eq_some.mp he
  have hslots : this'.slots =
      Function.update this.slots i (some (e.1, value)) := by
    rw [slots, slotsOf_update, hkey, hhash]
    rfl
  have hlive : this'.liveEntries.Perm
      ((e.1, value) :: Slots.live (Function.update this.slots i none)
        this.capacity) := by
    rw [liveEntries, hslots]
    exact Slots.live_update _ _ hi
  have hold := Slots.live_of_some hi he
  obtain ⟨hsplit, hothers⟩ := hf.contents_split hk hi he hsame
  refine ⟨⟨hf.capacity_eq, ?_, ?_, ?_, hf.count_lt⟩, ?_⟩
  · refine hf.sound.congr ?_
    intro j
    rw [hslots]
    by_cases hj : j = i
    · rw [hj, Function.update_self, he]
      rfl
    · rw [Function.update_of_ne hj]
  · intro a ha
    rcases List.mem_cons.mp (hlive.mem_iff.mp ha) with rfl | ha
    · exact hf.hashes e (Slots.mem_live.mpr ⟨i, hi, he⟩)
    · exact hf.hashes a (hold.mem_iff.mpr (List.mem_cons_of_mem e ha))
  · exact hf.count_eq.trans (hold.length_eq.trans hlive.length_eq.symm)
  · refine (hlive.map pairOf).trans ?_
    have hset := Dict.set_perm hk.equiv hf.distinct hsplit (keys.clone k) k
      value
    rw [Dict.set_head value hsame hothers] at hset
    exact hset.symm

theorem Filled.setNew_returns (hk : keys.Lawful) {this : HashTable K V}
    (hf : this.Filled keys) {key : K} {n : Nat} (value : Option V)
    (hroom : this.count + 1 < this.capacity)
    (hn : (probing keys this.capacity).FirstStop this.slots
      (hashKey key keys this.salt) n)
    (hnone : this.slots ((probing keys this.capacity).slot
      (hashKey key keys this.salt) n) = none)
    (habsent : ∀ e ∈ this.liveEntries, keys.same e.1.key key = false) :
    ∃ this', Returns (this.setNew keys key value
        (-((probing keys this.capacity).slot
          (hashKey key keys this.salt) n : Int) - 1)) (none, this') ∧
      this'.Filled keys ∧ this'.capacity = this.capacity ∧
      this'.contents.Perm ((keys.clone key, value) :: this.contents) := by
  let e : HashKey K × Option V :=
    (⟨keys.clone key, keys.hash key + this.salt⟩, value)
  have hclone := hk.clone_same key
  have hfresh : ∀ a ∈ this.liveEntries,
      (probing keys this.capacity).same a.1 e.1 = false := by
    intro a ha
    have hne := habsent a ha
    rw [Bool.eq_false_iff] at hne ⊢
    exact fun h => hne (hk.equiv.trans h hclone)
  -- The clone has the hash, and so the walk, of the key it was cloned from.
  have hsound := hf.sound.insert (probing_equiv hk.equiv _) (e := e) (n := n) hfresh
    (fun m hm => hn.ne_none_of_lt hm)
  have hi := hf.covers.lt (hashKey key keys this.salt) n
  change (probing keys this.capacity).Sound (Function.update this.slots
    ((probing keys this.capacity).slot (hashKey key keys this.salt) n)
    (some e)) this.capacity at hsound
  generalize (probing keys this.capacity).slot
    (hashKey key keys this.salt) n = i at *
  have hlive := Slots.live_insert e hi hnone
  let entry : HashEntry K V :=
    ⟨some (keys.clone key), keys.hash key + this.salt, value⟩
  let this' : HashTable K V := { this with
    count := this.count + 1,
    entries := Function.update this.entries i entry }
  have hslots : this'.slots = Function.update this.slots i (some e) := by
    rw [slots, slotsOf_update]
    rfl
  refine ⟨this', ?_, ⟨hf.capacity_eq, hslots ▸ hsound, ?_, ?_, hroom⟩, rfl, ?_⟩
  · rw [setNew, if_neg (by omega), show (-(-(i : Int) - 1) - 1).toNat = i by
      omega]
    exact returns_pure_self _
  · intro a ha
    rw [liveEntries, hslots] at ha
    rcases List.mem_cons.mp (hlive.mem_iff.mp ha) with rfl | ha
    · rw [hk.hash_eq _ _ hclone]
    · exact hf.hashes a ha
  · rw [liveEntries, hslots, hlive.length_eq, List.length_cons]
    exact congrArg (· + 1) hf.count_eq
  · rw [contents, liveEntries, hslots]
    exact hlive.map pairOf

/-- How far `set` lets the capacity grow. -/
def capacityBound (this : HashTable K V) : Nat :=
  max this.capacity (max 4 (this.count * 3))

theorem Filled.setAllocated_returns (hk : keys.Lawful) {this : HashTable K V}
    (hf : this.Filled keys) (hfits : this.capacity * 2 ≤ intMax) (key : K)
    (value : Option V) :
    ∃ this', Returns (this.setAllocated keys key value)
        ((Dict.get keys.same this.contents key).join, this') ∧
      this'.Filled keys ∧ this'.capacity ≤ this.capacityBound ∧
      this'.contents.Perm
        (Dict.set keys.same (keys.clone key) key value this.contents) := by
  rcases hf.lookup hk key with ⟨i, e, hi, he, hsame, hrun⟩ |
    ⟨n, hn, hnone, habsent, hrun⟩
  · obtain ⟨hfilled, hperm⟩ := hf.overwrite hk hi he hsame value
    refine ⟨_, ?_, hfilled, Nat.le_max_left _ _, hperm⟩
    rw [setAllocated, hf.get_found hk hi he hsame,
      ← (slotsOf_eq_some.mp he).2.2]
    refine hrun.bind ?_
    rw [if_pos (Int.natCast_nonneg i), Int.toNat_natCast]
    exact returns_pure_self _
  · obtain ⟨k, hlow, hhigh, hcap⟩ := hf.capacity_le hfits
    have hpow : 2 ^ k ≤ 2 ^ 29 := Nat.pow_le_pow_right (by decide) hhigh
    have hfour : 2 ^ 2 ≤ 2 ^ k := Nat.pow_le_pow_right (by decide) hlow
    have hused := intMul_returns (a := this.count) (b := 3) (by
      have := hf.count_lt
      rw [intMax]
      omega)
    have hget := get_absent habsent
    have hset : Dict.set keys.same (keys.clone key) key value this.contents =
        this.contents ++ [(keys.clone key, value)] := by
      rw [Dict.set, hget]
    rw [hset, hget]
    by_cases hload : this.capacity * 2 ≤ this.count * 3
    · -- The table is grown, and the key is looked for once more.
      obtain ⟨grown, hgrow, hf', hcap', hcount', hsalt', hlive'⟩ :=
        hf.grow_returns hk hfits
      have habsent' : ∀ e ∈ grown.liveEntries,
          keys.same e.1.key key = false :=
        fun e he => habsent e (hlive'.mem_iff.mp he)
      rcases hf'.lookup hk key with ⟨i, e, hi, he, hsame, -⟩ |
        ⟨m, hm, hmnone, -, hrun'⟩
      · have hno := habsent' e (Slots.mem_live.mpr ⟨i, hi, he⟩)
        rw [hsame] at hno
        cases hno
      obtain ⟨this', hnew, hfilled, hsame, hperm⟩ := hf'.setNew_returns hk value
        (by
          have := hf.count_lt
          omega) hm hmnone habsent'
      have hbound : this'.capacity ≤ this.capacityBound := by
        rw [capacityBound]
        omega
      refine ⟨this', ?_, hfilled, hbound, ?_⟩
      · rw [setAllocated]
        refine hrun.bind ?_
        rw [if_neg (by omega)]
        refine hused.bind ((intMul_returns hfits).bind ?_)
        rw [if_pos hload]
        rw [hsalt'] at hrun' hnew
        exact hgrow.bind (hrun'.bind hnew)
      · refine hperm.trans (List.Perm.trans ?_ (List.perm_append_singleton _ _).symm)
        exact (hlive'.map pairOf).cons _
    · obtain ⟨this', hnew, hfilled, hsame, hperm⟩ := hf.setNew_returns hk value
        (by omega) hn hnone habsent
      refine ⟨this', ?_, hfilled, hsame ▸ Nat.le_max_left _ _,
        hperm.trans (List.perm_append_singleton _ _).symm⟩
      rw [setAllocated]
      refine hrun.bind ?_
      rw [if_neg (by omega)]
      refine hused.bind ((intMul_returns hfits).bind ?_)
      rw [if_neg hload]
      exact hnew

theorem set_returns (hk : keys.Lawful) {this : HashTable K V}
    (hv : this.Valid keys) (hfits : this.capacity * 2 ≤ intMax) (key : K)
    (value : Option V) :
    ∃ this', Returns (this.set keys key value)
        ((Dict.get keys.same this.contents key).join, this') ∧
      this'.Filled keys ∧ this'.capacity ≤ this.capacityBound ∧
      this'.contents.Perm
        (Dict.set keys.same (keys.clone key) key value this.contents) := by
  rcases hv with ⟨hcap, hcount⟩ | hf
  · obtain ⟨first, hgrow, hf, hfour, hcontents⟩ :=
      grow_first keys hcap hcount
    obtain ⟨this', hrun, hfilled, hbound, hperm⟩ := hf.setAllocated_returns hk
      (by rw [hfour]; decide) key value
    have hzero : first.count = 0 := by
      rw [hf.count_eq, ← List.length_map pairOf]
      exact congrArg List.length hcontents
    rw [hcontents] at hrun hperm
    rw [capacityBound, hfour, hzero] at hbound
    rw [contents_of_capacity_zero hcap]
    refine ⟨this', ?_, hfilled, ?_, hperm⟩
    rotate_left
    · rw [capacityBound]
      omega
    rw [set, if_pos hcap]
    exact hgrow.bind hrun
  · rw [set, if_neg hf.capacity_ne_zero]
    exact hf.setAllocated_returns hk hfits key value

theorem del_returns (hk : keys.Lawful) {this : HashTable K V}
    (hv : this.Valid keys) (key : K) :
    ∃ this', Returns (this.del keys key)
        ((Dict.get keys.same this.contents key).join, this') ∧
      this'.Valid keys ∧ this'.capacity = this.capacity ∧
      this'.contents.Perm (Dict.erase keys.same key this.contents) := by
  by_cases hcount : this.count = 0
  · have hempty : this.contents = [] := by
      rcases hv with ⟨hcap, -⟩ | hf
      · exact contents_of_capacity_zero hcap
      · have hlen := hf.count_eq
        rw [hcount] at hlen
        rw [contents, List.eq_nil_of_length_eq_zero hlen.symm]
        rfl
    refine ⟨this, ?_, hv, rfl, ?_⟩
    · rw [del, if_pos hcount, hempty]
      exact returns_pure_self _
    · rw [hempty]
      exact List.Perm.refl _
  · rcases hv with ⟨-, hzero⟩ | hf
    · exact absurd hzero hcount
    rcases hf.lookup hk key with ⟨i, e, hi, he, hsame, hrun⟩ |
      ⟨n, -, -, habsent, hrun⟩
    · obtain ⟨hsplit, hothers⟩ := hf.contents_split hk hi he hsame
      obtain ⟨this', hrehash, hfilled, hcap, hperm⟩ :=
        hf.rehash_without hk hi he
      refine ⟨this', ?_, Or.inr hfilled, hcap, ?_⟩
      · rw [del, if_neg hcount, hf.get_found hk hi he hsame,
          ← (slotsOf_eq_some.mp he).2.2]
        refine hrun.bind ?_
        rw [if_pos (Int.natCast_nonneg i), Int.toNat_natCast]
        exact hrehash.bind (returns_pure_self _)
      · refine (hperm.map pairOf).trans ?_
        have herase : (Dict.erase keys.same key this.contents).Perm
            (Dict.erase keys.same key (pairOf e :: Filled.others this i)) :=
          Dict.erase_perm hsplit key
        rw [Dict.erase_head hsame hothers] at herase
        rw [liveEntries, slots_without]
        exact herase.symm
    · have hget := get_absent habsent
      refine ⟨this, ?_, Or.inr hf, rfl, ?_⟩
      · rw [del, if_neg hcount, hget]
        refine hrun.bind ?_
        rw [if_neg (by omega)]
        exact returns_pure_self _
      · rw [Dict.get_eq_none_iff] at hget
        rw [Dict.erase, List.filter_eq_self.mpr (fun a ha => by
          rw [hget a ha]
          rfl)]

/-- The pairs in the slots from `i` on. -/
def contentsFrom (this : HashTable K V) (i : Nat) : Dict K (Option V) :=
  ((List.range' i (this.capacity - i)).filterMap this.slots).map pairOf

theorem contentsFrom_zero (this : HashTable K V) :
    this.contentsFrom 0 = this.contents := by
  rw [contentsFrom, contents, liveEntries, Slots.live_eq_filterMap,
    Nat.sub_zero, List.range_eq_range']

theorem contentsFrom_step {this : HashTable K V} {i : Nat}
    (hi : i < this.capacity) :
    this.contentsFrom i =
      ((this.slots i).map pairOf).toList ++ this.contentsFrom (i + 1) := by
  have hlen : this.capacity - i = this.capacity - (i + 1) + 1 := by omega
  rw [contentsFrom, hlen, List.range'_succ, List.filterMap_cons]
  cases this.slots i with
  | none => rfl
  | some e => rfl

/-- `iterate_` visits what is left in slot order. -/
theorem iterate_from (this : HashTable K V) (i index : Nat)
    (visits : List (Visit K V))
    (hcount : index + (this.contentsFrom i).length = this.count) :
    Returns (loop (iterateStep this) (i, index, visits))
      (visits ++ ((this.contentsFrom i).zipIdx index).map
        fun p => ⟨p.2, p.1.1, p.1.2⟩) := by
  induction hn : this.capacity - i generalizing i index visits with
  | zero =>
      have hnil : this.contentsFrom i = [] := by rw [contentsFrom, hn]; rfl
      rw [hnil] at hcount ⊢
      apply Returns.loop_exit
      have hdone : ¬ index < this.count := by
        rw [← hcount]
        exact Nat.lt_irrefl _
      simp only [iterateStep, hdone, ↓reduceIte, List.zipIdx_nil,
        List.map_nil, List.append_nil]
      exact returns_pure_self _
  | succ n ih =>
      have hi : i < this.capacity := by omega
      have hstep := contentsFrom_step hi
      by_cases hmore : index < this.count
      · cases hkey : (this.entries i).key with
        | none =>
            have hslot : this.slots i = none := slotsOf_eq_none.mpr hkey
            rw [hslot] at hstep
            rw [hstep] at hcount ⊢
            have hrest := ih (i + 1) index visits hcount (by omega)
            refine (Returns.loop_next ?_).mpr hrest
            simp only [iterateStep, hmore, hi, ↓reduceIte, hkey]
            exact returns_pure_self _
        | some k =>
            have hslot : this.slots i =
                some (⟨k, (this.entries i).hash⟩, (this.entries i).value) :=
              slotsOf_eq_some.mpr ⟨hkey, rfl, rfl⟩
            rw [hslot] at hstep
            rw [hstep] at hcount ⊢
            have hrest := ih (i + 1) (index + 1)
              (visits ++ [⟨index, k, (this.entries i).value⟩])
              (by
                rw [← hcount, List.length_append]
                show _ = index + (1 + _)
                omega) (by omega)
            rw [List.append_assoc] at hrest
            refine (Returns.loop_next ?_).mpr hrest
            simp only [iterateStep, hmore, hi, ↓reduceIte, hkey]
            exact returns_pure_self _
      · have hnil : this.contentsFrom i = [] :=
          List.eq_nil_of_length_eq_zero (by omega)
        rw [hnil]
        apply Returns.loop_exit
        simp only [iterateStep, hmore, ↓reduceIte, List.zipIdx_nil,
          List.map_nil, List.append_nil]
        exact returns_pure_self _

theorem Valid.count_eq {this : HashTable K V} (hv : this.Valid keys) :
    this.count = this.contents.length := by
  rcases hv with ⟨hcap, hcount⟩ | hf
  · rw [contents_of_capacity_zero hcap, hcount]
    rfl
  · rw [contents, List.length_map]
    exact hf.count_eq

theorem iterate_returns {this : HashTable K V} (hv : this.Valid keys) :
    Returns this.iterate (visitsOf this.contents) := by
  have h := iterate_from this 0 0 [] (by
    rw [contentsFrom_zero, hv.count_eq]
    omega)
  rw [contentsFrom_zero] at h
  exact h

theorem clean_returns {this : HashTable K V} (hv : this.Valid keys) :
    ∃ this', Returns this.clean (visitsOf this.contents, this') ∧
      this'.Valid keys ∧ this'.capacity = this.capacity ∧
      this'.contents = [] := by
  let this' : HashTable K V := { this with
    count := 0, entries := fun _ => HashEntry.zero K V }
  have hlive : this'.liveEntries = [] := Slots.live_empty _
  refine ⟨this', (iterate_returns hv).bind (returns_pure_self _), ?_, rfl, ?_⟩
  · rcases hv with ⟨hcap, -⟩ | hf
    · exact Or.inl ⟨hcap, rfl⟩
    · refine Or.inr ⟨hf.capacity_eq, Probing.Sound.empty, ?_, ?_, ?_⟩
      · intro e he
        rw [hlive] at he
        cases he
      · rw [hlive]
        rfl
      · exact Nat.pos_of_ne_zero hf.capacity_ne_zero
  · rw [contents, hlive]
    rfl

/-- The table stands for the map. -/
structure Represents (keys : HashKeys K) (this : HashTable K V)
    (d : Dict K (Option V)) : Prop where
  valid : this.Valid keys
  perm : this.contents.Perm d

theorem Valid.distinct {this : HashTable K V} (hv : this.Valid keys) :
    Dict.Distinct keys.same this.contents := by
  rcases hv with ⟨hcap, -⟩ | hf
  · rw [contents_of_capacity_zero hcap]
    exact List.Pairwise.nil
  · exact hf.distinct

theorem Represents.get_eq (hk : keys.Lawful) {this : HashTable K V}
    {d : Dict K (Option V)} (hr : this.Represents keys d) (k : K) :
    Dict.get keys.same this.contents k = Dict.get keys.same d k :=
  Dict.get_perm hk.equiv hr.valid.distinct hr.perm k

/-- Every call is answered by the map, and the table after it stands for the
map after it. -/
theorem Represents.step (hk : keys.Lawful) {this : HashTable K V}
    {d : Dict K (Option V)} (hr : this.Represents keys d)
    (hfits : this.capacity * 2 ≤ intMax) (op : HashOp K V) :
    ∃ reply this', Returns (this.step keys op) (reply, this') ∧
      op.Answers keys d reply ∧ this'.Represents keys (op.after keys d) ∧
      this'.capacity ≤ this.capacityBound := by
  have hv := hr.valid
  have hkeep : this.capacity ≤ this.capacityBound := Nat.le_max_left _ _
  cases op with
  | get key =>
      refine ⟨_, this, (get_returns hk hv key).bind (returns_pure_self _), ?_,
        hr, hkeep⟩
      rw [HashOp.Answers, hr.get_eq hk]
  | set key value =>
      obtain ⟨this', hrun, hf, hbound, hperm⟩ :=
        set_returns hk hv hfits key value
      refine ⟨_, this', hrun.bind (returns_pure_self _), ?_, ⟨Or.inr hf, ?_⟩,
        hbound⟩
      · rw [HashOp.Answers, hr.get_eq hk]
      · exact hperm.trans
          (Dict.set_perm hk.equiv hv.distinct hr.perm _ key value)
  | del key =>
      obtain ⟨this', hrun, hvalid, hcap, hperm⟩ := del_returns hk hv key
      refine ⟨_, this', hrun.bind (returns_pure_self _), ?_, ⟨hvalid, ?_⟩,
        hcap ▸ hkeep⟩
      · rw [HashOp.Answers, hr.get_eq hk]
      · exact hperm.trans (Dict.erase_perm hr.perm key)
  | count =>
      refine ⟨_, this, returns_pure_self _, ?_, hr, hkeep⟩
      rw [HashOp.Answers, hv.count_eq, hr.perm.length_eq]
  | iterate =>
      exact ⟨_, this, (iterate_returns hv).bind (returns_pure_self _),
        ⟨_, hr.perm, rfl⟩, hr, hkeep⟩
  | clean =>
      obtain ⟨this', hrun, hvalid, hcap, hempty⟩ := clean_returns hv
      refine ⟨_, this', hrun.bind (returns_pure_self _), ⟨_, hr.perm, rfl⟩,
        ⟨hvalid, ?_⟩, hcap ▸ hkeep⟩
      rw [hempty, HashOp.after]

theorem Represents.run (hk : keys.Lawful) (ops : List (HashOp K V)) :
    ∀ {this : HashTable K V} {d : Dict K (Option V)},
      this.Represents keys d → CapacityFits keys ops this →
      ∃ replies, Returns (HashTable.run keys ops this) replies ∧
        Answered keys d ops replies := by
  induction ops with
  | nil =>
      intro this d _ _
      exact ⟨[], returns_pure_self _, trivial⟩
  | cons op ops ih =>
      intro this d hr hfits
      obtain ⟨reply, this', hstep, hanswers, hr', -⟩ :=
        hr.step hk hfits.1 op
      obtain ⟨replies, hrun, hanswered⟩ := ih hr' (hfits.2 reply this' hstep)
      exact ⟨reply :: replies, hstep.bind (hrun.bind (returns_pure_self _)),
        hanswers, hanswered⟩

theorem length_after_le (d : Dict K (Option V)) (op : HashOp K V) :
    (op.after keys d).length ≤ d.length + 1 := by
  cases op with
  | set key value =>
      rw [HashOp.after, Dict.set]
      cases Dict.get keys.same d key with
      | some old =>
          rw [List.length_map]
          exact Nat.le_succ _
      | none =>
          rw [List.length_append]
          exact Nat.le_refl _
  | del key => exact Nat.le_succ_of_le (List.length_filter_le _ _)
  | clean => exact Nat.zero_le _
  | get key => exact Nat.le_succ _
  | count => exact Nat.le_succ _
  | iterate => exact Nat.le_succ _

/-- The capacity follows the number of pairs, so a run that is not too long
always fits. -/
theorem Represents.capacityFits (hk : keys.Lawful) (ops : List (HashOp K V)) :
    ∀ {this : HashTable K V} {d : Dict K (Option V)},
      this.Represents keys d → ∀ {bound : Nat}, 4 ≤ bound →
      bound * 2 ≤ intMax → this.capacity ≤ bound →
      (d.length + ops.length) * 3 ≤ bound → CapacityFits keys ops this := by
  induction ops with
  | nil => exact fun _ _ _ _ _ _ => trivial
  | cons op ops ih =>
      intro this d hr bound hfour hfits hcap hlen
      rw [List.length_cons] at hlen
      have hfit : this.capacity * 2 ≤ intMax := by omega
      refine ⟨hfit, ?_⟩
      intro reply this' hrun
      obtain ⟨reply', next, hstep, -, hr', hbound⟩ := hr.step hk hfit op
      cases hrun.unique hstep
      have hcount : this.count = d.length :=
        hr.valid.count_eq.trans hr.perm.length_eq
      have hnext : (op.after keys d).length ≤ d.length + 1 :=
        length_after_le d op
      rw [capacityBound] at hbound
      exact ih hr' hfour hfits (by omega) (by omega)

end HashTable

theorem newHash_represents (keys : HashKeys K) (salt : UInt32) :
    (newHash K V salt).Represents keys [] :=
  ⟨Or.inl ⟨rfl, rfl⟩, List.Perm.refl _⟩

theorem newHash_capacityFits (hk : keys.Lawful) (salt : UInt32)
    (ops : List (HashOp K V)) (hlen : ops.length ≤ 300000000) :
    HashTable.CapacityFits keys ops (newHash K V salt) := by
  have hbound : ([] : Dict K (Option V)).length + ops.length ≤ 300000000 := by
    rwa [List.length_nil, Nat.zero_add]
  exact (newHash_represents keys salt).capacityFits hk ops
    (show 4 ≤ 900000000 by decide) (by decide) (Nat.zero_le _)
    (Nat.mul_le_mul_right 3 hbound)

/-- A new table refines the empty map under every sequence of calls. -/
theorem hash_refines_dict (hk : keys.Lawful) (salt : UInt32)
    (ops : List (HashOp K V))
    (hfits : HashTable.CapacityFits keys ops (newHash K V salt)) :
    ∃ replies, Returns (HashTable.run keys ops (newHash K V salt)) replies ∧
      Answered keys [] ops replies :=
  (newHash_represents keys salt).run hk ops hfits

theorem hashStrings_same {a b : Bytes} :
    hashStrings.same a b = true ↔ a = b := by
  rw [HashKeys.same, beq_iff_eq]
  exact strcmp_eq_zero

/-- The key manager for strings keeps its promises. -/
theorem hashStrings_lawful : hashStrings.Lawful where
  equiv := {
    refl := fun _ => hashStrings_same.mpr rfl
    symm := fun h => hashStrings_same.mpr (hashStrings_same.mp h).symm
    trans := fun h h' => hashStrings_same.mpr
      ((hashStrings_same.mp h).trans (hashStrings_same.mp h')) }
  hash_eq _ _ h := congrArg stringHash (hashStrings_same.mp h)
  clone_same _ := hashStrings_same.mpr rfl

/-- Setting, replacing and removing two keys of a table of strings. -/
theorem hash_refines_dict_strings :
    ∃ replies, Returns (HashTable.run hashStrings
        [.set [97] (some 1), .set [98] (some 2), .set [97] (some 3),
          .del [98], .get [97], .iterate] (newHash Bytes Nat 7)) replies ∧
      Answered hashStrings [] [.set [97] (some 1), .set [98] (some 2),
        .set [97] (some 3), .del [98], .get [97], .iterate] replies :=
  hash_refines_dict hashStrings_lawful 7 _
    (newHash_capacityFits hashStrings_lawful 7 _ (by decide))

end Libcad
