/-
The blocks of a hash table: the table itself, its entries, and a clone for each
key it holds.  `malloc` always finds memory, and the clone of a key is a block
of its own.
-/
import Libcad.Client
import Libcad.HashRefines
import Libcad.Ledger

namespace Libcad

open Proc Ledger

variable {K V α : Type}

/-- What a key of an entry points to. -/
structure KeyClone (K : Type) where
  key : K
  block : Nat
deriving Repr, DecidableEq

/-- The key manager, with `block` for the next clone. -/
def HashKeys.cloning (keys : HashKeys K) (block : Nat) :
    HashKeys (KeyClone K) where
  hash k := keys.hash k.key
  compare a b := keys.compare a.key b.key
  clone k := ⟨keys.clone k.key, block⟩

/-- A key of the caller, whose block is none of the table's. -/
def KeyClone.lent (key : K) : KeyClone K := ⟨key, 0⟩

/-- A pair of the table, as the caller sees it. -/
def KeyClone.seen (e : KeyClone K × Option V) : K × Option V := (e.1.key, e.2)

/-- A call of the iterator, as the caller sees it. -/
def Visit.seen (visit : Visit (KeyClone K) V) : Visit K V :=
  ⟨visit.index, visit.key.key, visit.value⟩

/-- `struct cad_hash_impl` with its blocks; NULL entries are no block. -/
structure HashMemory (K V : Type) where
  table : HashTable (KeyClone K) V
  self : Nat
  entries : Option Nat
  ledger : Ledger

/-- `cad_new_hash`, with the salt it draws. -/
def newHashMemory (K V : Type) (salt : UInt32) (ledger : Ledger) :
    HashMemory K V :=
  let (self, ledger) := ledger.malloc
  ⟨newHash (KeyClone K) V salt, self, none, ledger⟩

/-- The body of the loops of `iterate_` and `free_`: what they do to an entry
goes into `a`. -/
def sweepStep (this : HashTable K V) (act : Nat → K → Option V → α → α)
    (s : Nat × Nat × α) : Proc ((Nat × Nat × α) ⊕ α) :=
  let (i, index, a) := s
  if index < this.count then
    if i < this.capacity then
      match (this.entries i).key with
      | none => pure (.inl (i + 1, index, a))
      | some k =>
          pure (.inl (i + 1, index + 1, act index k (this.entries i).value a))
    else Proc.undefined
  else pure (.inr a)

/-- The loops of `iterate_` and `free_`. -/
def sweep (this : HashTable K V) (act : Nat → K → Option V → α → α) (a : α) :
    Proc α :=
  Proc.loop (sweepStep this act) (0, 0, a)

namespace HashMemory

def manager (keys : HashKeys K) (this : HashMemory K V) :
    HashKeys (KeyClone K) :=
  keys.cloning this.ledger.malloc.1

/-- `index_of` for a key of the caller. -/
def indexOf (keys : HashKeys K) (this : HashMemory K V) (key : K) : Proc Int :=
  Libcad.indexOf this.table.entries (this.manager keys) this.table.capacity
    (hashKey (.lent key) (this.manager keys) this.table.salt)

/-- `grow`; the old entries are released once they are copied. -/
def grow (keys : HashKeys K) (this : HashMemory K V) (growFactor : Nat) :
    Proc (HashMemory K V) := do
  let (block, ledger) := this.ledger.malloc
  let table ← Libcad.grow (this.manager keys) this.table growFactor
  let ledger := if this.table.capacity = 0 then ledger
    else ledger.freeAll this.entries.toList
  pure { this with table := table, entries := some block, ledger := ledger }

def get (keys : HashKeys K) (this : HashMemory K V) (key : K) :
    Proc (Option V) :=
  this.table.get (this.manager keys) (.lent key)

/-- The part of `set` that stores a key for the first time. -/
def setNew (keys : HashKeys K) (this : HashMemory K V) (key : K)
    (value : Option V) (index : Int) : Proc (Option V × HashMemory K V) := do
  let (old, table) ←
    this.table.setNew (this.manager keys) (.lent key) value index
  pure (old, { this with table := table, ledger := this.ledger.malloc.2 })

/-- The part of `set` that finds entries allocated. -/
def setAllocated (keys : HashKeys K) (this : HashMemory K V) (key : K)
    (value : Option V) : Proc (Option V × HashMemory K V) := do
  let index ← this.indexOf keys key
  if 0 ≤ index then
    let entry := this.table.entries index.toNat
    let entries := Function.update this.table.entries index.toNat
      { entry with value := value }
    pure (entry.value,
      { this with table := { this.table with entries := entries } })
  else
    let used ← intMul this.table.count 3
    let limit ← intMul this.table.capacity 2
    if limit ≤ used then
      let this ← this.grow keys 2
      let index ← this.indexOf keys key
      this.setNew keys key value index
    else this.setNew keys key value index

def set (keys : HashKeys K) (this : HashMemory K V) (key : K)
    (value : Option V) : Proc (Option V × HashMemory K V) :=
  if this.table.capacity = 0 then do
    let this ← this.grow keys 2
    this.setAllocated keys key value
  else this.setAllocated keys key value

/-- `del`; the clone is released before its slot is given up. -/
def del (keys : HashKeys K) (this : HashMemory K V) (key : K) :
    Proc (Option V × HashMemory K V) :=
  if this.table.count = 0 then pure (none, this)
  else do
    let index ← this.indexOf keys key
    if 0 ≤ index then
      let entry := this.table.entries index.toNat
      let ledger :=
        this.ledger.freeAll (entry.key.map KeyClone.block).toList
      let table ← rehash (this.manager keys) (this.table.without index.toNat)
      pure (entry.value, { this with table := table, ledger := ledger })
    else pure (none, this)

/-- `clean`; each clone is released after its visit. -/
def clean (this : HashMemory K V) :
    Proc (List (Visit K V) × HashMemory K V) := do
  let (visits, ledger) ← sweep this.table
    (fun index k value a =>
      (a.1 ++ [⟨index, k.key, value⟩], a.2.free k.block)) ([], this.ledger)
  let table := { this.table with
    count := 0, entries := fun _ => HashEntry.zero (KeyClone K) V }
  pure (visits, { this with table := table, ledger := ledger })

/-- `free_`; the ledger is all that is left. -/
def free (this : HashMemory K V) : Proc Ledger := do
  let ledger ← sweep this.table
    (fun _ k _ ledger => ledger.free k.block) this.ledger
  pure ((ledger.freeAll this.entries.toList).free this.self)

def step (keys : HashKeys K) (this : HashMemory K V) :
    HashOp K V → Proc (HashReply K V × HashMemory K V)
  | .get key => do
      let value ← this.get keys key
      pure (.value value, this)
  | .set key value => do
      let (old, this) ← this.set keys key value
      pure (.value old, this)
  | .del key => do
      let (old, this) ← this.del keys key
      pure (.value old, this)
  | .count => pure (.count this.table.count, this)
  | .iterate => do
      let visits ← this.table.iterate
      pure (.visits (visits.map Visit.seen), this)
  | .clean => do
      let (visits, this) ← this.clean
      pure (.visits visits, this)

end HashMemory

/-- The map answers a call and is changed by it. -/
def HashOp.Serves (keys : HashKeys K) (d : Dict K (Option V))
    (op : HashOp K V) (reply : HashReply K V) (d' : Dict K (Option V)) :
    Prop :=
  op.Answers keys d reply ∧ d' = op.after keys d

theorem HashKeys.Lawful.cloning {keys : HashKeys K} (hk : keys.Lawful)
    (block : Nat) : (keys.cloning block).Lawful where
  equiv := {
    refl := fun a => hk.equiv.refl a.key
    symm := fun h => hk.equiv.symm h
    trans := fun h h' => hk.equiv.trans h h' }
  hash_eq a b h := hk.hash_eq a.key b.key h
  clone_same k := hk.clone_same k.key

/-- The invariant of a table does not depend on how keys are cloned. -/
theorem HashTable.Filled.congr {keys keys' : HashKeys K}
    {this : HashTable K V} (hhash : keys.hash = keys'.hash)
    (hcompare : keys.compare = keys'.compare) (hf : this.Filled keys) :
    this.Filled keys' := by
  obtain ⟨hash, compare, clone⟩ := keys
  obtain ⟨hash', compare', clone'⟩ := keys'
  cases hhash
  cases hcompare
  exact ⟨hf.capacity_eq, hf.sound, hf.hashes, hf.count_eq, hf.count_lt⟩

theorem HashTable.Filled.cloning {keys : HashKeys K}
    {this : HashTable (KeyClone K) V} {block block' : Nat}
    (hf : this.Filled (keys.cloning block)) :
    this.Filled (keys.cloning block') := by
  refine HashTable.Filled.congr ?_ ?_ hf
  · rfl
  · rfl

theorem HashTable.Valid.cloning {keys : HashKeys K}
    {this : HashTable (KeyClone K) V} {block block' : Nat}
    (hv : this.Valid (keys.cloning block)) :
    this.Valid (keys.cloning block') :=
  hv.imp_right HashTable.Filled.cloning

section

variable (keys : HashKeys K) (block : Nat) (d : Dict (KeyClone K) (Option V))

theorem get_seen (key : K) :
    Dict.get (keys.cloning block).same d (.lent key) =
      Dict.get keys.same (d.map KeyClone.seen) key := by
  induction d with
  | nil => rfl
  | cons e d ih =>
      rw [List.map_cons, Dict.get, Dict.get, ih]
      rfl

theorem set_seen (stored : KeyClone K) (key : K) (value : Option V) :
    (Dict.set (keys.cloning block).same stored (.lent key) value d).map
        KeyClone.seen =
      Dict.set keys.same stored.key key value (d.map KeyClone.seen) := by
  rw [Dict.set, Dict.set, get_seen]
  cases Dict.get keys.same (d.map KeyClone.seen) key with
  | some old =>
      rw [List.map_map, List.map_map]
      refine List.map_congr_left fun e _ => ?_
      show KeyClone.seen (if keys.same e.1.key key = true then _ else _) =
        if keys.same e.1.key key = true then _ else _
      split
      next => rfl
      next => rfl
  | none =>
      rw [List.map_append]
      rfl

theorem erase_seen (key : K) :
    (Dict.erase (keys.cloning block).same (.lent key) d).map KeyClone.seen =
      Dict.erase keys.same key (d.map KeyClone.seen) := by
  rw [Dict.erase, Dict.erase, List.filter_map]
  rfl

theorem visitsOf_seen :
    (visitsOf d).map Visit.seen = visitsOf (d.map KeyClone.seen) := by
  rw [visitsOf, visitsOf, List.zipIdx_map, List.map_map, List.map_map]
  rfl

end

theorem sweep_from (this : HashTable K V)
    (act : Nat → K → Option V → α → α) (i index : Nat) (a : α)
    (hcount : index + (this.contentsFrom i).length = this.count) :
    Returns (loop (sweepStep this act) (i, index, a))
      (((this.contentsFrom i).zipIdx index).foldl
        (fun a p => act p.2 p.1.1 p.1.2 a) a) := by
  induction hn : this.capacity - i generalizing i index a with
  | zero =>
      have hnil : this.contentsFrom i = [] := by
        rw [HashTable.contentsFrom, hn]
        rfl
      rw [hnil] at hcount ⊢
      apply Returns.loop_exit
      have hdone : ¬ index < this.count := by
        rw [← hcount]
        exact Nat.lt_irrefl _
      simp only [sweepStep, hdone, ↓reduceIte, List.zipIdx_nil,
        List.foldl_nil]
      exact returns_pure_self _
  | succ n ih =>
      have hi : i < this.capacity := by omega
      have hstep := HashTable.contentsFrom_step hi
      by_cases hmore : index < this.count
      · cases hkey : (this.entries i).key with
        | none =>
            have hslot : this.slots i = none := slotsOf_eq_none.mpr hkey
            rw [hslot] at hstep
            rw [hstep] at hcount ⊢
            have hrest := ih (i + 1) index a hcount (by omega)
            refine (Returns.loop_next ?_).mpr hrest
            simp only [sweepStep, hmore, hi, ↓reduceIte, hkey]
            exact returns_pure_self _
        | some k =>
            have hslot : this.slots i =
                some (⟨k, (this.entries i).hash⟩, (this.entries i).value) :=
              slotsOf_eq_some.mpr ⟨hkey, rfl, rfl⟩
            rw [hslot] at hstep
            rw [hstep] at hcount ⊢
            have hrest := ih (i + 1) (index + 1)
              (act index k (this.entries i).value a) (by
                rw [← hcount, List.length_append]
                show _ = index + (1 + _)
                omega) (by omega)
            refine (Returns.loop_next ?_).mpr hrest
            simp only [sweepStep, hmore, hi, ↓reduceIte, hkey]
            exact returns_pure_self _
      · have hnil : this.contentsFrom i = [] :=
          List.eq_nil_of_length_eq_zero (by omega)
        rw [hnil]
        apply Returns.loop_exit
        simp only [sweepStep, hmore, ↓reduceIte, List.zipIdx_nil,
          List.foldl_nil]
        exact returns_pure_self _

theorem sweep_returns {keys : HashKeys K} {this : HashTable K V}
    (hv : this.Valid keys) (act : Nat → K → Option V → α → α) (a : α) :
    Returns (sweep this act a)
      (this.contents.zipIdx.foldl (fun a p => act p.2 p.1.1 p.1.2 a) a) := by
  have h := sweep_from this act 0 0 a (by
    rw [HashTable.contentsFrom_zero, hv.count_eq]
    omega)
  rw [HashTable.contentsFrom_zero] at h
  exact h

def clones (d : Dict (KeyClone K) (Option V)) : List Nat :=
  d.map fun e => e.1.block

theorem clones_perm {d d' : Dict (KeyClone K) (Option V)} (h : d.Perm d') :
    (clones d).Perm (clones d') := h.map _

theorem freed_clones (d : Dict (KeyClone K) (Option V)) (index : Nat)
    (ledger : Ledger) :
    (d.zipIdx index).foldl (fun ledger p => ledger.free p.1.1.block) ledger =
      ledger.freeAll (clones d) := by
  induction d generalizing index ledger with
  | nil => rfl
  | cons e d ih => exact ih (index + 1) (ledger.free e.1.block)

theorem cleaned_clones (d : Dict (KeyClone K) (Option V)) (index : Nat)
    (visits : List (Visit K V)) (ledger : Ledger) :
    (d.zipIdx index).foldl
        (fun a p => (a.1 ++ [⟨p.2, p.1.1.key, p.1.2⟩],
          a.2.free p.1.1.block)) (visits, ledger) =
      (visits ++ ((d.map KeyClone.seen).zipIdx index).map
        (fun p => ⟨p.2, p.1.1, p.1.2⟩), ledger.freeAll (clones d)) := by
  induction d generalizing index visits ledger with
  | nil =>
      rw [List.zipIdx_nil, List.map_nil, List.zipIdx_nil, List.map_nil,
        List.append_nil]
      rfl
  | cons e d ih =>
      rw [List.zipIdx_cons, List.foldl_cons, ih, List.append_assoc]
      rfl

theorem clones_set {keys : HashKeys (KeyClone K)}
    {d : Dict (KeyClone K) (Option V)} {k stored : KeyClone K}
    {old value : Option V} (hget : Dict.get keys.same d k = some old) :
    clones (Dict.set keys.same stored k value d) = clones d := by
  rw [Dict.set, hget, clones, List.map_map]
  refine List.map_congr_left fun e _ => ?_
  rw [Function.comp_apply]
  split
  next => rfl
  next => rfl

namespace HashMemory

def blocks (this : HashMemory K V) : List Nat :=
  clones this.table.contents ++ (this.entries.toList ++ [this.self])

/-- The table stands for the map, and its blocks and those of the others are
the ones in hand. -/
structure Keeps (keys : HashKeys K) (others : List Nat)
    (this : HashMemory K V) (d : Dict K (Option V)) : Prop where
  valid : this.table.Valid (this.manager keys)
  entries_eq : this.table.capacity = 0 → this.entries = none
  holds : this.ledger.Holds (this.blocks ++ others)
  perm : (this.table.contents.map KeyClone.seen).Perm d

variable {keys : HashKeys K} {others : List Nat} {this : HashMemory K V}
  {d : Dict K (Option V)}

theorem manager_lawful (hk : keys.Lawful) (this : HashMemory K V) :
    (this.manager keys).Lawful := hk.cloning _

theorem Keeps.distinct (h : this.Keeps keys others d) :
    Dict.Distinct keys.same (this.table.contents.map KeyClone.seen) :=
  List.pairwise_map.mpr h.valid.distinct

theorem Keeps.get_eq (hk : keys.Lawful) (h : this.Keeps keys others d)
    (key : K) :
    Dict.get (this.manager keys).same this.table.contents (.lent key) =
      Dict.get keys.same d key :=
  (get_seen keys _ _ key).trans (Dict.get_perm hk.equiv h.distinct h.perm key)

theorem newHashMemory_keeps (keys : HashKeys K) (salt : UInt32)
    {ledger : Ledger} (hledger : ledger.Holds others) :
    (newHashMemory K V salt ledger).Keeps keys others [] where
  valid := Or.inl ⟨rfl, rfl⟩
  entries_eq _ := rfl
  holds := hledger.malloc
  perm := List.Perm.refl _

/-- A change of the value of a stored key takes and gives back no block. -/
theorem Keeps.overwrite (hk : keys.Lawful) (h : this.Keeps keys others d)
    (hf : this.table.Filled (this.manager keys)) {i : Nat}
    {e : HashKey (KeyClone K) × Option V} {key : K}
    (hi : i < this.table.capacity) (he : this.table.slots i = some e)
    (hsame : (this.manager keys).same e.1.key (.lent key) = true)
    (value : Option V) :
    Keeps keys others
      { this with table := { this.table with
          entries := Function.update this.table.entries i
            { this.table.entries i with value := value } } }
      (Dict.set keys.same (keys.clone key) key value d) := by
  have hfound := hf.get_found (manager_lawful hk this) hi he hsame
  obtain ⟨hfilled, hperm⟩ :=
    hf.overwrite (manager_lawful hk this) hi he hsame value
  refine ⟨Or.inr hfilled, h.entries_eq, h.holds.perm ?_, ?_⟩
  · have hclones := clones_perm hperm
    rw [clones_set hfound] at hclones
    exact ((hclones.symm.append_right _).append_right _)
  · refine (hperm.map KeyClone.seen).trans ?_
    rw [manager, set_seen]
    exact Dict.set_perm hk.equiv h.distinct h.perm _ key value

/-- The clone of a new key is in a block of its own. -/
theorem Keeps.setNew (hk : keys.Lawful) (h : this.Keeps keys others d)
    (hf : this.table.Filled (this.manager keys)) {key : K} {n : Nat}
    (value : Option V) (hroom : this.table.count + 1 < this.table.capacity)
    (hn : (probing (this.manager keys) this.table.capacity).FirstStop
      this.table.slots
      (hashKey (.lent key) (this.manager keys) this.table.salt) n)
    (hnone : this.table.slots
      ((probing (this.manager keys) this.table.capacity).slot
        (hashKey (.lent key) (this.manager keys) this.table.salt) n) = none)
    (habsent : ∀ e ∈ this.table.liveEntries,
      (this.manager keys).same e.1.key (.lent key) = false) :
    ∃ this', Returns (this.setNew keys key value
        (-((probing (this.manager keys) this.table.capacity).slot
          (hashKey (.lent key) (this.manager keys) this.table.salt) n
            : Int) - 1)) (none, this') ∧
      this'.Keeps keys others (d ++ [(keys.clone key, value)]) ∧
      this'.table.capacity = this.table.capacity := by
  obtain ⟨table, hrun, hfilled, hcap, hperm⟩ :=
    hf.setNew_returns (manager_lawful hk this) value hroom hn hnone habsent
  refine ⟨_, hrun.bind (returns_pure_self _),
    ⟨Or.inr hfilled.cloning, ?_, ?_, ?_⟩, hcap⟩
  · intro hzero
    exact absurd hzero hfilled.capacity_ne_zero
  · refine h.holds.malloc.perm ?_
    exact ((clones_perm hperm).symm.append_right _).append_right _
  · refine (hperm.map KeyClone.seen).trans ?_
    refine (h.perm.cons _).trans ?_
    exact (List.perm_append_singleton _ _).symm

/-- The new entries are in a block of their own, and the old block is given
back. -/
theorem Keeps.grow (hk : keys.Lawful) (h : this.Keeps keys others d)
    (hf : this.table.Filled (this.manager keys))
    (hfits : this.table.capacity * 2 ≤ intMax) :
    ∃ this', Returns (this.grow keys 2) this' ∧
      this'.Keeps keys others d ∧
      this'.table.Filled (this'.manager keys) ∧
      this'.table.capacity = this.table.capacity * 2 ∧
      this'.table.count = this.table.count ∧
      this'.table.liveEntries.Perm this.table.liveEntries := by
  obtain ⟨table, hrun, hfilled, hcap, hcount, -, hlive⟩ :=
    hf.grow_returns (manager_lawful hk this) hfits
  have hcontents : table.contents.Perm this.table.contents :=
    hlive.map HashTable.pairOf
  refine ⟨_, hrun.bind (returns_pure_self _),
    ⟨Or.inr hfilled.cloning, ?_, ?_, ?_⟩, hfilled.cloning, hcap, hcount,
    hlive⟩
  · intro hzero
    exact absurd hzero hfilled.capacity_ne_zero
  · rw [if_neg hf.capacity_ne_zero]
    have hold : this.ledger.malloc.2.Holds
        (this.entries.toList ++ (clones table.contents ++
          ([this.ledger.malloc.1] ++ [this.self]) ++ others)) := by
      refine h.holds.malloc.perm (List.perm_iff_count.mpr fun block => ?_)
      have hclones : (clones table.contents).count block =
          (clones this.table.contents).count block :=
        (clones_perm hcontents).count_eq block
      simp only [blocks, List.count_append, List.count_cons, List.count_nil]
      omega
    exact hold.freeAll
  · exact (hcontents.map KeyClone.seen).trans h.perm

theorem Keeps.grow_first (h : this.Keeps keys others d)
    (hcap : this.table.capacity = 0) (hcount : this.table.count = 0) :
    ∃ this', Returns (this.grow keys 2) this' ∧
      this'.Keeps keys others d ∧
      this'.table.Filled (this'.manager keys) ∧ this'.table.capacity = 4 ∧
      this'.table.count = 0 := by
  obtain ⟨table, hrun, hfilled, hfour, hcontents⟩ :=
    HashTable.grow_first (this.manager keys) hcap hcount
  have hbefore := HashTable.contents_of_capacity_zero hcap
  refine ⟨_, hrun.bind (returns_pure_self _),
    ⟨Or.inr hfilled.cloning, ?_, ?_, ?_⟩, hfilled.cloning, hfour, ?_⟩
  · intro hzero
    exact absurd hzero hfilled.capacity_ne_zero
  · rw [if_pos hcap]
    have hheld := h.holds
    rw [blocks, hbefore, h.entries_eq hcap] at hheld
    rw [blocks, hcontents]
    exact hheld.malloc
  · have hperm := h.perm
    rw [hbefore] at hperm
    rw [hcontents]
    exact hperm
  · rw [hfilled.count_eq, ← List.length_map HashTable.pairOf]
    exact congrArg List.length hcontents

/-- What the map says about a key whose walk ends in a free slot. -/
theorem Keeps.absent (hk : keys.Lawful) (h : this.Keeps keys others d)
    {key : K} (habsent : ∀ e ∈ this.table.liveEntries,
      (this.manager keys).same e.1.key (.lent key) = false) :
    Dict.get keys.same d key = none :=
  (h.get_eq hk key).symm.trans (HashTable.get_absent habsent)

theorem Keeps.found (hk : keys.Lawful) (h : this.Keeps keys others d)
    (hf : this.table.Filled (this.manager keys)) {i : Nat}
    {e : HashKey (KeyClone K) × Option V} {key : K}
    (hi : i < this.table.capacity) (he : this.table.slots i = some e)
    (hsame : (this.manager keys).same e.1.key (.lent key) = true) :
    (Dict.get keys.same d key).join = (this.table.entries i).value := by
  rw [← h.get_eq hk, hf.get_found (manager_lawful hk this) hi he hsame,
    (slotsOf_eq_some.mp he).2.2]
  rfl

theorem Keeps.setAllocated (hk : keys.Lawful) (h : this.Keeps keys others d)
    (hf : this.table.Filled (this.manager keys))
    (hfits : this.table.capacity * 2 ≤ intMax) (key : K)
    (value : Option V) :
    ∃ this', Returns (this.setAllocated keys key value)
        ((Dict.get keys.same d key).join, this') ∧
      this'.Keeps keys others
        (Dict.set keys.same (keys.clone key) key value d) ∧
      this'.table.capacity ≤ this.table.capacityBound := by
  rcases hf.lookup (manager_lawful hk this) (.lent key) with
    ⟨i, e, hi, he, hsame, hrun⟩ | ⟨n, hn, hnone, habsent, hrun⟩
  · refine ⟨_, ?_, h.overwrite hk hf hi he hsame value, Nat.le_max_left _ _⟩
    rw [h.found hk hf hi he hsame]
    refine hrun.bind ?_
    rw [if_pos (Int.natCast_nonneg i), Int.toNat_natCast]
    exact returns_pure_self _
  · have hget := h.absent hk habsent
    have hset : Dict.set keys.same (keys.clone key) key value d =
        d ++ [(keys.clone key, value)] := by
      rw [Dict.set, hget]
    have hlow := hf.count_lt
    have hused := intMul_returns (a := this.table.count) (b := 3) (by
      obtain ⟨k, -, hhigh, hcap⟩ := hf.capacity_le hfits
      have hpow : 2 ^ k ≤ 2 ^ 29 := Nat.pow_le_pow_right (by decide) hhigh
      rw [intMax]
      omega)
    rw [hset, hget]
    by_cases hload : this.table.capacity * 2 ≤ this.table.count * 3
    · -- The table is grown, and the key is looked for once more.
      obtain ⟨grown, hgrow, hgrown, hf', hcap', hcount', hlive'⟩ :=
        h.grow hk hf hfits
      have habsent' : ∀ e ∈ grown.table.liveEntries,
          (grown.manager keys).same e.1.key (.lent key) = false :=
        fun e he => habsent e (hlive'.mem_iff.mp he)
      rcases hf'.lookup (manager_lawful hk grown) (.lent key) with
        ⟨i, e, hi, he, hsame, -⟩ | ⟨m, hm, hmnone, -, hrun'⟩
      · have hno := habsent' e (Slots.mem_live.mpr ⟨i, hi, he⟩)
        rw [hsame] at hno
        cases hno
      obtain ⟨this', hnew, hkeeps, hsame⟩ := hgrown.setNew hk hf' value
        (by omega) hm hmnone habsent'
      refine ⟨this', ?_, hkeeps, ?_⟩
      · refine hrun.bind ?_
        rw [if_neg (by omega)]
        refine hused.bind ((intMul_returns hfits).bind ?_)
        rw [if_pos hload]
        exact hgrow.bind (hrun'.bind hnew)
      · rw [HashTable.capacityBound]
        omega
    · obtain ⟨this', hnew, hkeeps, hsame⟩ := h.setNew hk hf value
        (by
          have hfour := hf.capacity_ne_zero
          obtain ⟨k, hlow, -, hcap⟩ := hf.capacity_le hfits
          have hpow : 2 ^ 2 ≤ 2 ^ k := Nat.pow_le_pow_right (by decide) hlow
          omega) hn hnone habsent
      refine ⟨this', ?_, hkeeps, hsame ▸ Nat.le_max_left _ _⟩
      refine hrun.bind ?_
      rw [if_neg (by omega)]
      refine hused.bind ((intMul_returns hfits).bind ?_)
      rw [if_neg hload]
      exact hnew

theorem Keeps.set (hk : keys.Lawful) (h : this.Keeps keys others d)
    (hfits : this.table.capacity * 2 ≤ intMax) (key : K)
    (value : Option V) :
    ∃ this', Returns (this.set keys key value)
        ((Dict.get keys.same d key).join, this') ∧
      this'.Keeps keys others
        (Dict.set keys.same (keys.clone key) key value d) ∧
      this'.table.capacity ≤ this.table.capacityBound := by
  rcases h.valid with ⟨hcap, hcount⟩ | hf
  · obtain ⟨first, hgrow, hfirst, hf, hfour, hzero⟩ :=
      h.grow_first hcap hcount
    obtain ⟨this', hrun, hkeeps, hbound⟩ := hfirst.setAllocated hk hf
      (by rw [hfour]; decide) key value
    refine ⟨this', ?_, hkeeps, ?_⟩
    · rw [HashMemory.set, if_pos hcap]
      exact hgrow.bind hrun
    · rw [HashTable.capacityBound, hfour, hzero] at hbound
      rw [HashTable.capacityBound]
      omega
  · rw [HashMemory.set, if_neg hf.capacity_ne_zero]
    exact h.setAllocated hk hf hfits key value

theorem Keeps.empty (h : this.Keeps keys others d)
    (hcount : this.table.count = 0) : d = [] := by
  have hlen := h.perm.length_eq
  rw [List.length_map, ← h.valid.count_eq, hcount] at hlen
  exact List.eq_nil_of_length_eq_zero hlen.symm

theorem Keeps.get (hk : keys.Lawful) (h : this.Keeps keys others d)
    (key : K) :
    Returns (this.get keys key) (Dict.get keys.same d key).join := by
  rw [← h.get_eq hk]
  exact HashTable.get_returns (manager_lawful hk this) h.valid (.lent key)

/-- The clone of a removed key is given back, and no other. -/
theorem Keeps.del (hk : keys.Lawful) (h : this.Keeps keys others d)
    (key : K) :
    ∃ this', Returns (this.del keys key)
        ((Dict.get keys.same d key).join, this') ∧
      this'.Keeps keys others (Dict.erase keys.same key d) ∧
      this'.table.capacity = this.table.capacity := by
  by_cases hcount : this.table.count = 0
  · cases h.empty hcount
    refine ⟨this, ?_, h, rfl⟩
    rw [HashMemory.del, if_pos hcount]
    exact returns_pure_self _
  rcases h.valid with ⟨-, hzero⟩ | hf
  · exact absurd hzero hcount
  have hlawful := manager_lawful hk this
  rcases hf.lookup hlawful (.lent key) with
    ⟨i, e, hi, he, hsame, hrun⟩ | ⟨n, -, -, habsent, hrun⟩
  · obtain ⟨hsplit, hothers⟩ := hf.contents_split hlawful hi he hsame
    obtain ⟨table, hrehash, hfilled, hcap, hlive⟩ :=
      hf.rehash_without hlawful hi he
    have hleft : table.contents.Perm
        (HashTable.Filled.others this.table i) := by
      refine (hlive.map HashTable.pairOf).trans ?_
      rw [HashTable.liveEntries, HashTable.slots_without]
      exact List.Perm.refl _
    let released := ((this.table.entries i).key.map KeyClone.block).toList
    refine ⟨{ this with
      table := table, ledger := this.ledger.freeAll released }, ?_,
      ⟨Or.inr hfilled.cloning, ?_, ?_, ?_⟩, hcap⟩
    · rw [h.found hk hf hi he hsame, HashMemory.del, if_neg hcount]
      refine hrun.bind ?_
      rw [if_pos (Int.natCast_nonneg i), Int.toNat_natCast]
      exact hrehash.bind (returns_pure_self _)
    · intro hzero
      exact absurd hzero hfilled.capacity_ne_zero
    · have hreleased : released = [e.1.key.block] := by
        rw [show released = ((this.table.entries i).key.map
          KeyClone.block).toList from rfl, (slotsOf_eq_some.mp he).1]
        rfl
      rw [hreleased]
      refine Holds.free (h.holds.perm ?_)
      have hclones := clones_perm (hsplit.trans (hleft.symm.cons _))
      exact (hclones.append_right _).append_right _
    · refine (hleft.map KeyClone.seen).trans ?_
      rw [← Dict.erase_head (e := HashTable.pairOf e) hsame hothers]
      refine ((Dict.erase_perm hsplit.symm _).map KeyClone.seen).trans ?_
      rw [manager, erase_seen]
      exact Dict.erase_perm h.perm key
  · have hget := h.absent hk habsent
    refine ⟨this, ?_, ?_, rfl⟩
    · rw [HashMemory.del, if_neg hcount, hget]
      refine hrun.bind ?_
      rw [if_neg (by omega)]
      exact returns_pure_self _
    · rw [Dict.get_eq_none_iff] at hget
      rw [Dict.erase, List.filter_eq_self.mpr (fun a ha => by
        rw [hget a ha]
        rfl)]
      exact h

/-- `clean` gives back every clone and keeps the entries. -/
theorem Keeps.clean (h : this.Keeps keys others d) :
    ∃ d' this', d'.Perm d ∧ Returns this.clean (visitsOf d', this') ∧
      this'.Keeps keys others [] ∧
      this'.table.capacity = this.table.capacity := by
  obtain ⟨table, hrun, hvalid, hcap, hempty⟩ :=
    HashTable.clean_returns h.valid
  have hsweep := sweep_returns h.valid
    (fun index k value a => (a.1 ++ [⟨index, k.key, value⟩],
      a.2.free k.block)) (([] : List (Visit K V)), this.ledger)
  rw [cleaned_clones, List.nil_append] at hsweep
  have htable := (HashTable.iterate_returns h.valid).bind_iff.mp hrun
  cases (returns_pure.mp htable)
  refine ⟨_, _, h.perm, hsweep.bind (returns_pure_self _),
    ⟨hvalid.cloning, h.entries_eq, ?_, ?_⟩, hcap⟩
  · rw [blocks, hempty]
    refine Holds.freeAll (h.holds.perm ?_)
    rw [blocks, List.append_assoc]
    exact List.Perm.refl _
  · rw [hempty]
    exact List.Perm.refl _

/-- `free` gives back every block of the table, and no other. -/
theorem Keeps.free (h : this.Keeps keys others d) :
    ∃ ledger, Returns this.free ledger ∧ ledger.Holds others := by
  have hsweep := sweep_returns h.valid
    (fun _ k _ ledger => ledger.free k.block) this.ledger
  rw [freed_clones] at hsweep
  refine ⟨_, hsweep.bind (returns_pure_self _), ?_⟩
  refine Holds.free (Holds.freeAll (Holds.freeAll (h.holds.perm ?_)))
  rw [blocks, List.append_assoc, List.append_assoc]
  exact List.Perm.refl _

theorem Keeps.step (hk : keys.Lawful) (h : this.Keeps keys others d)
    (hfits : this.table.capacity * 2 ≤ intMax) (op : HashOp K V) :
    ∃ reply this', Returns (this.step keys op) (reply, this') ∧
      op.Answers keys d reply ∧
      this'.Keeps keys others (op.after keys d) ∧
      this'.table.capacity ≤ this.table.capacityBound := by
  have hkeep : this.table.capacity ≤ this.table.capacityBound :=
    Nat.le_max_left _ _
  cases op with
  | get key =>
      exact ⟨_, this, (h.get hk key).bind (returns_pure_self _), rfl, h,
        hkeep⟩
  | set key value =>
      obtain ⟨this', hrun, hkeeps, hbound⟩ := h.set hk hfits key value
      exact ⟨_, this', hrun.bind (returns_pure_self _), rfl, hkeeps, hbound⟩
  | del key =>
      obtain ⟨this', hrun, hkeeps, hcap⟩ := h.del hk key
      exact ⟨_, this', hrun.bind (returns_pure_self _), rfl, hkeeps,
        hcap ▸ hkeep⟩
  | count =>
      refine ⟨_, this, returns_pure_self _, ?_, h, hkeep⟩
      rw [HashOp.Answers, h.valid.count_eq, ← h.perm.length_eq,
        List.length_map]
  | iterate =>
      refine ⟨_, this,
        (HashTable.iterate_returns h.valid).bind (returns_pure_self _),
        ⟨_, h.perm, ?_⟩, h, hkeep⟩
      rw [visitsOf_seen]
  | clean =>
      obtain ⟨d', this', hperm, hrun, hkeeps, hcap⟩ := h.clean
      exact ⟨_, this', hrun.bind (returns_pure_self _), ⟨d', hperm, rfl⟩,
        hkeeps, hcap ▸ hkeep⟩

/-- The capacity follows the number of keys, so that it stays within a bound
for some more calls. -/
def Room (keys : HashKeys K) (others : List Nat) (bound n : Nat)
    (this : HashMemory K V) (d : Dict K (Option V)) : Prop :=
  this.Keeps keys others d ∧ this.table.capacity ≤ bound ∧
    (d.length + n) * 3 ≤ bound

theorem serves (hk : keys.Lawful) (others : List Nat) {bound : Nat}
    (hfour : 4 ≤ bound) (hfits : bound * 2 ≤ intMax) :
    ServesClients (step (V := V) keys) (HashOp.Serves keys) (fun _ _ => True)
      (Room keys others bound) where
  call := by
    rintro n this d op ⟨h, hcap, hlen⟩ -
    obtain ⟨reply, next, hstep, hanswers, hnext, hbound⟩ :=
      h.step hk (by omega) op
    have hcount : this.table.count = d.length := by
      rw [h.valid.count_eq, ← h.perm.length_eq, List.length_map]
    have hafter : (op.after keys d).length ≤ d.length + 1 :=
      HashTable.length_after_le d op
    rw [HashTable.capacityBound] at hbound
    exact ⟨reply, next, _, hstep, ⟨hanswers, rfl⟩, hnext, by omega, by omega⟩

end HashMemory

/-- A table of a program that holds `others`, in the hands of any client: it is
answered as by a finite map, the blocks in hand are those of `others`, the
table, its entries and one clone for each key, and `free` leaves `others`. -/
theorem hash_gives_back {keys : HashKeys K} (hk : keys.Lawful) (salt : UInt32)
    (client : Client (HashOp K V) (HashReply K V) α)
    (hclient : client.Obeys (HashOp.Serves keys) (fun _ _ => True) 300000000 [])
    {ledger : Ledger} {others : List Nat} (hledger : ledger.Holds others) :
    ∃ a d this ledger', Returns (client.run (HashMemory.step keys)
        (newHashMemory K V salt ledger)) (a, this) ∧
      client.Ends (HashOp.Serves keys) [] a d ∧
      this.ledger.Holds (this.blocks ++ others) ∧
      Returns this.free ledger' ∧ ledger'.Holds others := by
  have hserves := HashMemory.serves (V := V) hk others
    (show 4 ≤ 900000000 by decide) (by decide)
  have hnew : HashMemory.Room keys others 900000000 300000000
      (newHashMemory K V salt ledger) [] :=
    ⟨HashMemory.newHashMemory_keeps keys salt hledger, Nat.zero_le _,
      by rw [List.length_nil]⟩
  obtain ⟨a, n, this, d, hrun, hends, hkeeps, -⟩ :=
    hserves.run client hnew hclient
  obtain ⟨ledger', hfree, hothers⟩ := hkeeps.free
  exact ⟨a, d, this, ledger', hrun, hends, hkeeps.holds, hfree, hothers⟩

/-- Set two keys, and remove the one that is visited first. -/
def dropFirst : Client (HashOp Bytes Nat) (HashReply Bytes Nat) Unit :=
  .call (.set [97] (some 1)) fun _ =>
    .call (.set [98] (some 2)) fun _ =>
      .call .iterate fun reply =>
        match reply with
        | .visits (visit :: _) => .call (.del visit.key) fun _ => .done ()
        | _ => .done ()

/-- This client, in a program that holds a block of its own. -/
theorem hash_gives_back_strings :
    ∃ a d this ledger', Returns (dropFirst.run (HashMemory.step hashStrings)
        (newHashMemory Bytes Nat 7 empty.malloc.2)) (a, this) ∧
      dropFirst.Ends (HashOp.Serves hashStrings) [] a d ∧
      this.ledger.Holds (this.blocks ++ [0]) ∧
      Returns this.free ledger' ∧ ledger'.Holds [0] := by
  refine hash_gives_back hashStrings_lawful 7 dropFirst ?_ holds_empty.malloc
  refine ⟨trivial, fun _ _ _ => ⟨trivial, fun _ _ _ => ⟨trivial, ?_⟩⟩⟩
  intro reply d _
  cases reply with
  | visits visits =>
      cases visits with
      | nil => trivial
      | cons visit visits => exact ⟨trivial, fun _ _ _ => trivial⟩
  | value value => trivial
  | count n => trivial

end Libcad
