/-
The hash table of `cad_hash.c`: open addressing without tombstones, with a
probe sequence that mixes the whole hash in and a repair of the collision
cycles after each removal.
-/
import Libcad.Machine
import Libcad.Stream
import Mathlib.Logic.Function.Basic

namespace Libcad

universe u

/-- `cad_hash_keys_t`, less `free`, which changes no table. -/
structure HashKeys (K : Type) where
  hash : K → UInt32
  compare : K → K → Int
  clone : K → K

/-- `cad_hash_key_t`, for a key that is not NULL. -/
structure HashKey (K : Type) where
  key : K
  hash : UInt32

/-- `cad_hash_entry_t`; a NULL key marks a free slot, whose hash is stale. -/
structure HashEntry (K V : Type) where
  key : Option K
  hash : UInt32
  value : Option V

def HashEntry.zero (K V : Type) : HashEntry K V := ⟨none, 0, none⟩

/-- `struct cad_hash_impl` -/
structure HashTable (K V : Type) where
  capacity : Nat
  count : Nat
  salt : UInt32
  entries : Nat → HashEntry K V

/-- `index_context_t` -/
structure IndexContext where
  index : UInt32
  perturb : UInt32
deriving Repr, DecidableEq

variable {K V : Type}

/-- `hash` -/
def hashKey (key : K) (keys : HashKeys K) (salt : UInt32) : HashKey K :=
  ⟨key, keys.hash key + salt⟩

def nextIndexOf (context : IndexContext) : IndexContext :=
  ⟨5 * context.index + 1 + context.perturb, context.perturb >>> 5⟩

def IndexContext.slot (context : IndexContext) (capacity : Nat) : Nat :=
  context.index.toNat % capacity

/-- One probe of `index_of`. -/
def indexOfStep (entries : Nat → HashEntry K V) (keys : HashKeys K)
    (capacity : Nat) (key : HashKey K) (context : IndexContext) :
    Proc (IndexContext ⊕ Int) :=
  let result : Int := context.slot capacity
  match (entries (context.slot capacity)).key with
  | none => pure (.inr (-result - 1))
  | some k =>
      if keys.compare key.key k = 0 then pure (.inr result)
      else pure (.inl (nextIndexOf context))

/-- `index_of`: the slot of the key, or `-i - 1` for the free slot `i`. -/
def indexOf (entries : Nat → HashEntry K V) (keys : HashKeys K)
    (capacity : Nat) (key : HashKey K) : Proc Int :=
  if capacity = 0 then Proc.undefined
  else Proc.loop (indexOfStep entries keys capacity key) ⟨key.hash, key.hash⟩

/-- The body of the loop of `rehash`: a moved entry restarts it. -/
def rehashStep (keys : HashKeys K) (s : HashTable K V × Nat) :
    Proc ((HashTable K V × Nat) ⊕ HashTable K V) :=
  let (this, i) := s
  if i < this.capacity then
    match (this.entries i).key with
    | none => pure (.inl (this, i + 1))
    | some k => do
        let key : HashKey K := ⟨k, (this.entries i).hash⟩
        let index ← indexOf this.entries keys this.capacity key
        if index < 0 then
          let moved : HashEntry K V := ⟨some k, key.hash, (this.entries i).value⟩
          let entries := Function.update this.entries (-index - 1).toNat moved
          let freed : HashEntry K V := ⟨none, (entries i).hash, none⟩
          pure (.inl
            ({ this with entries := Function.update entries i freed }, 0))
        else pure (.inl (this, i + 1))
  else pure (.inr this)

def rehash (keys : HashKeys K) (this : HashTable K V) : Proc (HashTable K V) :=
  Proc.loop (rehashStep keys) (this, 0)

/-- Copy one entry into the new entries of `grow`. -/
def growEntry (this : HashTable K V) (keys : HashKeys K) (newCapacity : Nat)
    (newEntries : Nat → HashEntry K V) (i : Nat) :
    Proc (Nat → HashEntry K V) :=
  match (this.entries i).key with
  | none => pure newEntries
  | some k => do
      let found ← indexOf newEntries keys newCapacity ⟨k, (this.entries i).hash⟩
      let index := -found - 1
      if 0 ≤ index then
        pure (Function.update newEntries index.toNat (this.entries i))
      else Proc.undefined

def grow (keys : HashKeys K) (this : HashTable K V) (growFactor : Nat) :
    Proc (HashTable K V) :=
  if this.capacity = 0 then do
    let newCapacity ← intMul growFactor growFactor
    pure { this with
      capacity := newCapacity, entries := fun _ => HashEntry.zero K V }
  else do
    let newCapacity ← intMul this.capacity growFactor
    let newEntries ← (List.range this.capacity).foldlM
      (growEntry this keys newCapacity) (fun _ => HashEntry.zero K V)
    pure { this with capacity := newCapacity, entries := newEntries }

/-- One call of the iterator. -/
structure Visit (K V : Type) where
  index : Nat
  key : K
  value : Option V
deriving Repr, DecidableEq

/-- The body of the loop of `iterate_`, over `i`, `index` and the calls of the
iterator so far. -/
def iterateStep (this : HashTable K V) (s : Nat × Nat × List (Visit K V)) :
    Proc ((Nat × Nat × List (Visit K V)) ⊕ List (Visit K V)) :=
  let (i, index, visits) := s
  if index < this.count then
    if i < this.capacity then
      match (this.entries i).key with
      | none => pure (.inl (i + 1, index, visits))
      | some k =>
          pure (.inl (i + 1, index + 1,
            visits ++ [⟨index, k, (this.entries i).value⟩]))
    else Proc.undefined
  else pure (.inr visits)

namespace HashTable

def iterate (this : HashTable K V) : Proc (List (Visit K V)) :=
  Proc.loop (iterateStep this) (0, 0, [])

def clean (this : HashTable K V) :
    Proc (List (Visit K V) × HashTable K V) := do
  let visits ← this.iterate
  pure (visits, { this with count := 0, entries := fun _ => HashEntry.zero K V })

def get (keys : HashKeys K) (this : HashTable K V) (key : K) :
    Proc (Option V) :=
  if this.count = 0 then pure none
  else do
    let index ← indexOf this.entries keys this.capacity
      (hashKey key keys this.salt)
    if 0 ≤ index then pure (this.entries index.toNat).value else pure none

/-- The part of `set` that stores a key for the first time at the free slot
`index`. -/
def setNew (keys : HashKeys K) (this : HashTable K V) (key : K)
    (value : Option V) (index : Int) : Proc (Option V × HashTable K V) :=
  let hkey := hashKey key keys this.salt
  let entry : HashEntry K V := ⟨some (keys.clone key), hkey.hash, value⟩
  if -index - 1 < 0 then Proc.undefined
  else
    pure (none, { this with
      count := this.count + 1,
      entries := Function.update this.entries (-index - 1).toNat entry })

/-- The part of `set` that finds entries allocated. -/
def setAllocated (keys : HashKeys K) (this : HashTable K V) (key : K)
    (value : Option V) : Proc (Option V × HashTable K V) := do
  let hkey := hashKey key keys this.salt
  let index ← indexOf this.entries keys this.capacity hkey
  if 0 ≤ index then
    let entry := this.entries index.toNat
    let entries :=
      Function.update this.entries index.toNat { entry with value := value }
    pure (entry.value, { this with entries := entries })
  else
    let used ← intMul this.count 3
    let limit ← intMul this.capacity 2
    if limit ≤ used then
      let this ← grow keys this 2
      let index ← indexOf this.entries keys this.capacity hkey
      this.setNew keys key value index
    else this.setNew keys key value index

def set (keys : HashKeys K) (this : HashTable K V) (key : K)
    (value : Option V) : Proc (Option V × HashTable K V) :=
  if this.capacity = 0 then do
    let this ← grow keys this 2
    this.setAllocated keys key value
  else this.setAllocated keys key value

def del (keys : HashKeys K) (this : HashTable K V) (key : K) :
    Proc (Option V × HashTable K V) :=
  if this.count = 0 then pure (none, this)
  else do
    let index ← indexOf this.entries keys this.capacity
      (hashKey key keys this.salt)
    if 0 ≤ index then
      let entry := this.entries index.toNat
      let freed : HashEntry K V := ⟨none, entry.hash, none⟩
      let this ← rehash keys { this with
        count := this.count - 1,
        entries := Function.update this.entries index.toNat freed }
      pure (entry.value, this)
    else pure (none, this)

end HashTable

/-- `cad_new_hash`, with the salt it draws. -/
def newHash (K V : Type) (salt : UInt32) : HashTable K V :=
  ⟨0, 0, salt, fun _ => HashEntry.zero K V⟩

/-- `string_hash`; each `char` is added with its sign. -/
def stringHash (key : Bytes) : UInt32 :=
  key.foldl (fun result c => result * 92821 + UInt32.ofInt (charToInt c)) 0

/-- `cad_hash_strings` -/
def hashStrings : HashKeys Bytes := ⟨stringHash, strcmp, id⟩

end Libcad
