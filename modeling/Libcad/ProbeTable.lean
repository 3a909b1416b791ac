/-
Open addressing.  A table maps slots to entries, and every key has a probe
sequence of slots.  A lookup walks the sequence of its key up to the first slot
which is empty or holds an equivalent key, so lookups are right as long as no
stored key hides behind an empty slot of its own sequence.
-/
import Libcad.Dict
import Mathlib.Algebra.BigOperators.Group.List.Basic
import Mathlib.Algebra.Ring.Nat
import Mathlib.Order.Lattice.Nat

namespace Libcad

universe u v

/-- The comparison of keys and the slots where each key is looked for. -/
structure Probing (K : Type u) where
  same : K → K → Bool
  slot : K → Nat → Nat

/-- The entries of a table, by slot. -/
abbrev Slots (K : Type u) (V : Type v) := Nat → Option (K × V)

namespace Slots

variable {K : Type u} {V : Type v}

/-- The occupied slots below `size` with their entries. -/
def occupied (t : Slots K V) (size : Nat) : List (Nat × (K × V)) :=
  (List.range size).filterMap fun i => (t i).map fun e => (i, e)

/-- The entries below `size`, in slot order. -/
def live (t : Slots K V) (size : Nat) : Dict K V :=
  (occupied t size).map Prod.snd

theorem mem_occupied {t : Slots K V} {size i : Nat} {e : K × V} :
    (i, e) ∈ occupied t size ↔ i < size ∧ t i = some e := by
  simp only [occupied, List.mem_filterMap, List.mem_range,
    Option.map_eq_some_iff, Prod.mk.injEq]
  constructor
  · rintro ⟨j, hj, a, ha, rfl, rfl⟩
    exact ⟨hj, ha⟩
  · rintro ⟨hi, he⟩
    exact ⟨i, hi, e, he, rfl, rfl⟩

theorem mem_live {t : Slots K V} {size : Nat} {e : K × V} :
    e ∈ live t size ↔ ∃ i < size, t i = some e := by
  rw [live, List.mem_map]
  constructor
  · rintro ⟨o, hmem, rfl⟩
    exact ⟨o.1, mem_occupied.mp hmem⟩
  · rintro ⟨i, hi, he⟩
    exact ⟨(i, e), mem_occupied.mpr ⟨hi, he⟩, rfl⟩

/-- One slot can be taken out of the occupied slots. -/
theorem occupied_split (t : Slots K V) {size i : Nat} (hi : i < size) :
    (occupied t size).Perm (((t i).map fun e => (i, e)).toList ++
      occupied (Function.update t i none) size) := by
  have hrange : (List.range size).Perm (i :: (List.range size).erase i) :=
    List.perm_cons_erase (List.mem_range.mpr hi)
  have hne : ∀ j ∈ (List.range size).erase i, j ≠ i := by
    intro j hj h
    exact List.Nodup.not_mem_erase List.nodup_range (h ▸ hj)
  have hrest : ((List.range size).erase i).filterMap
        (fun j => (Function.update t i none j).map fun e => (j, e)) =
      ((List.range size).erase i).filterMap
        (fun j => (t j).map fun e => (j, e)) := by
    apply List.filterMap_congr
    intro j hj
    rw [Function.update_of_ne (hne j hj)]
  have hcleared : (occupied (Function.update t i none) size).Perm
      (((List.range size).erase i).filterMap
        (fun j => (t j).map fun e => (j, e))) := by
    refine (hrange.filterMap _).trans ?_
    rw [List.filterMap_cons, Function.update_self, hrest]
    exact List.Perm.refl _
  refine (hrange.filterMap _).trans ?_
  rw [List.filterMap_cons]
  cases t i with
  | none => exact hcleared.symm
  | some e => exact hcleared.symm.cons (i, e)

theorem occupied_of_some {t : Slots K V} {size i : Nat} {e : K × V}
    (hi : i < size) (he : t i = some e) :
    (occupied t size).Perm
      ((i, e) :: occupied (Function.update t i none) size) := by
  have h := occupied_split t hi
  rw [he] at h
  exact h

theorem live_of_some {t : Slots K V} {size i : Nat} {e : K × V}
    (hi : i < size) (he : t i = some e) :
    (live t size).Perm (e :: live (Function.update t i none) size) :=
  (occupied_of_some hi he).map Prod.snd

/-- Storing an entry replaces whatever its slot held. -/
theorem live_update (t : Slots K V) {size i : Nat} (e : K × V)
    (hi : i < size) :
    (live (Function.update t i (some e)) size).Perm
      (e :: live (Function.update t i none) size) := by
  have h := live_of_some (t := Function.update t i (some e)) hi
    (Function.update_self ..)
  rwa [Function.update_idem] at h

theorem live_insert {t : Slots K V} {size i : Nat} (e : K × V)
    (hi : i < size) (hnone : t i = none) :
    (live (Function.update t i (some e)) size).Perm (e :: live t size) := by
  have h := live_update t e hi
  rwa [← hnone, Function.update_eq_self] at h

theorem live_eq_filterMap (t : Slots K V) (size : Nat) :
    live t size = (List.range size).filterMap t := by
  rw [live, occupied, List.map_filterMap]
  congr 1
  funext i
  cases t i with
  | none => rfl
  | some e => rfl

theorem live_empty (size : Nat) :
    live (fun _ => none : Slots K V) size = [] := by
  simp [live, occupied]

/-- A table with fewer entries than slots has an empty slot. -/
theorem exists_empty {t : Slots K V} {size : Nat}
    (h : (live t size).length < size) : ∃ i < size, t i = none := by
  by_contra hno
  have hall : ∀ i ∈ List.range size,
      ((t i).map fun e => (i, e)).isSome = true := by
    intro i hi
    cases ht : t i with
    | none => exact absurd ⟨i, List.mem_range.mp hi, ht⟩ hno
    | some e => rfl
  have hlen : (occupied t size).length = size := by
    rw [occupied, List.length_filterMap_eq_countP,
      List.countP_eq_length.mpr hall, List.length_range]
  rw [live, List.length_map, hlen] at h
  exact Nat.lt_irrefl _ h

end Slots

namespace Probing

open Slots

variable {K : Type u} {V : Type v} (p : Probing K)

/-- The walk for `k` ends at its `n`th slot: it is empty or holds `k`. -/
def Stops (t : Slots K V) (k : K) (n : Nat) : Prop :=
  ∀ e, t (p.slot k n) = some e → p.same k e.1 = true

/-- The step at which the walk for `k` ends. -/
structure FirstStop (t : Slots K V) (k : K) (n : Nat) : Prop where
  stops : p.Stops t k n
  least : ∀ m < n, ¬ p.Stops t k m

/-- The walk for `k` comes to slot `i` before any empty slot. -/
def Meets (t : Slots K V) (k : K) (i : Nat) : Prop :=
  ∃ n, p.slot k n = i ∧ ∀ m < n, t (p.slot k m) ≠ none

/-- The slots of every probe sequence are below `size`, and all of them
occur. -/
structure Covers (size : Nat) : Prop where
  lt : ∀ k n, p.slot k n < size
  slot : ∀ k i, i < size → ∃ n, p.slot k n = i

/-- The keys stored below `size` are pairwise different. -/
def Unique (t : Slots K V) (size : Nat) : Prop :=
  ∀ i j e e', i < size → j < size → t i = some e → t j = some e' →
    p.same e.1 e'.1 = true → i = j

/-- No stored key hides behind an empty slot. -/
def Reachable (t : Slots K V) (size : Nat) : Prop :=
  ∀ i e, i < size → t i = some e → p.Meets t e.1 i

structure Sound (t : Slots K V) (size : Nat) : Prop where
  unique : p.Unique t size
  reachable : p.Reachable t size

variable {p} {t : Slots K V} {size : Nat} {k : K} {n i : Nat}

theorem Sound.empty : p.Sound (fun _ => none : Slots K V) size where
  unique i j e e' hi hj he := by cases he
  reachable i e hi he := by cases he

theorem FirstStop.ne_none_of_lt (h : p.FirstStop t k n) {m : Nat}
    (hm : m < n) : t (p.slot k m) ≠ none := by
  intro hnone
  apply h.least m hm
  intro e he
  rw [hnone] at he
  cases he

theorem Covers.exists_firstStop (hc : p.Covers size) (hi : i < size)
    (hnone : t i = none) (k : K) : ∃ n, p.FirstStop t k n := by
  classical
  obtain ⟨n, hn⟩ := hc.slot k i hi
  have hex : ∃ n, p.Stops t k n := by
    refine ⟨n, ?_⟩
    intro e he
    rw [hn, hnone] at he
    cases he
  exact ⟨Nat.find hex, Nat.find_spec hex, fun m hm => Nat.find_min hex hm⟩

/-- A walk that ends at an empty slot has shown that its key is absent. -/
theorem Sound.absent (he : KeyEquiv p.same) (hs : p.Sound t size)
    (hslot : ∀ e ∈ live t size, p.same k e.1 = true → p.slot e.1 = p.slot k)
    (hn : p.FirstStop t k n) (hnone : t (p.slot k n) = none) :
    ∀ e ∈ live t size, p.same e.1 k = false := by
  intro e hmem
  obtain ⟨i, hi, hti⟩ := mem_live.mp hmem
  rw [Bool.eq_false_iff]
  intro hsame
  have hke : p.same k e.1 = true := he.symm hsame
  obtain ⟨m, hm, hfull⟩ := hs.reachable i e hi hti
  rw [hslot e hmem hke] at hm hfull
  have hstop : p.Stops t k m := by
    intro e' he'
    rw [hm, hti] at he'
    cases he'
    exact hke
  rcases Nat.lt_trichotomy n m with hlt | rfl | hgt
  · exact hfull n hlt hnone
  · rw [hm, hti] at hnone
    cases hnone
  · exact hn.least m hgt hstop

theorem Unique.distinct (hu : p.Unique t size) :
    Dict.Distinct p.same (live t size) := by
  rw [Dict.Distinct, live, List.pairwise_map, occupied,
    List.pairwise_filterMap]
  refine List.Pairwise.imp_of_mem ?_
    (List.nodup_iff_pairwise_ne.mp (List.nodup_range (n := size)))
  intro i j hi hj hij a ha b hb
  obtain ⟨e, hei, rfl⟩ := Option.map_eq_some_iff.mp ha
  obtain ⟨e', hej, rfl⟩ := Option.map_eq_some_iff.mp hb
  rw [Bool.eq_false_iff]
  intro hsame
  exact hij (hu i j e e' (List.mem_range.mp hi) (List.mem_range.mp hj) hei hej
    hsame)

/-- Only the keys of a table and their slots matter for its soundness. -/
theorem Sound.congr {t' : Slots K V} (hs : p.Sound t size)
    (h : ∀ i, (t' i).map Prod.fst = (t i).map Prod.fst) :
    p.Sound t' size := by
  have hkey : ∀ {i e}, t' i = some e → ∃ a, t i = some a ∧ a.1 = e.1 := by
    intro i e he
    have hi := h i
    rw [he, Option.map_some] at hi
    exact Option.map_eq_some_iff.mp hi.symm
  have hnone : ∀ {i}, t i ≠ none → t' i ≠ none := by
    intro i hne hi
    have hmap := h i
    rw [hi, Option.map_none] at hmap
    exact hne (Option.map_eq_none_iff.mp hmap.symm)
  constructor
  · intro i j e e' hi hj hei hej hsame
    obtain ⟨a, ha, hae⟩ := hkey hei
    obtain ⟨b, hb, hbe⟩ := hkey hej
    rw [← hae, ← hbe] at hsame
    exact hs.unique i j a b hi hj ha hb hsame
  · intro i e hi hei
    obtain ⟨a, ha, hae⟩ := hkey hei
    rw [← hae]
    obtain ⟨n, hn, hfull⟩ := hs.reachable i a hi ha
    exact ⟨n, hn, fun m hm => hnone (hfull m hm)⟩

theorem Unique.erase (hu : p.Unique t size) (i : Nat) :
    p.Unique (Function.update t i none) size := by
  intro a b e e' ha hb hea heb hsame
  have hne : ∀ {c f}, Function.update t i none c = some f →
      t c = some f := by
    intro c f hf
    by_cases hc : c = i
    · rw [hc, Function.update_self] at hf
      cases hf
    · rwa [Function.update_of_ne hc] at hf
  exact hu a b e e' ha hb (hne hea) (hne heb) hsame

/-- A key stored nowhere may be put into any slot. -/
theorem Unique.insert (he : KeyEquiv p.same) (hu : p.Unique t size)
    {e : K × V} (habsent : ∀ a ∈ live t size, p.same a.1 e.1 = false)
    (i : Nat) : p.Unique (Function.update t i (some e)) size := by
  have hnew : ∀ {c f}, c < size → c ≠ i →
      Function.update t i (some e) c = some f → p.same f.1 e.1 = false := by
    intro c f hc hne hf
    rw [Function.update_of_ne hne] at hf
    exact habsent f (mem_live.mpr ⟨c, hc, hf⟩)
  intro a b f g ha hb hfa hgb hsame
  by_cases hai : a = i
  · by_cases hbi : b = i
    · rw [hai, hbi]
    · have hg := hnew hb hbi hgb
      rw [hai, Function.update_self] at hfa
      cases hfa
      rw [he.symm hsame] at hg
      cases hg
  · by_cases hbi : b = i
    · have hf := hnew ha hai hfa
      rw [hbi, Function.update_self] at hgb
      cases hgb
      rw [hsame] at hf
      cases hf
    · rw [Function.update_of_ne hai] at hfa
      rw [Function.update_of_ne hbi] at hgb
      exact hu a b f g ha hb hfa hgb hsame

/-- Putting an absent key where its walk ends keeps the table sound. -/
theorem Sound.insert (he : KeyEquiv p.same) (hs : p.Sound t size)
    {e : K × V} (habsent : ∀ a ∈ live t size, p.same a.1 e.1 = false)
    (hfull : ∀ m < n, t (p.slot e.1 m) ≠ none) :
    p.Sound (Function.update t (p.slot e.1 n) (some e)) size := by
  have hgrow : ∀ {c}, t c ≠ none →
      Function.update t (p.slot e.1 n) (some e) c ≠ none := by
    intro c hc
    by_cases hce : c = p.slot e.1 n
    · rw [hce, Function.update_self]
      simp
    · rwa [Function.update_of_ne hce]
  refine ⟨hs.unique.insert he habsent _, ?_⟩
  intro i a hi hai
  by_cases hie : i = p.slot e.1 n
  · rw [hie, Function.update_self] at hai
    cases hai
    exact ⟨n, hie.symm, fun m hm => hgrow (hfull m hm)⟩
  · rw [Function.update_of_ne hie] at hai
    obtain ⟨m, hm, hmfull⟩ := hs.reachable i a hi hai
    exact ⟨m, hm, fun l hl => hgrow (hmfull l hl)⟩

/-- Take the entry of slot `i` to slot `j`. -/
def move (t : Slots K V) (e : K × V) (i j : Nat) : Slots K V :=
  Function.update (Function.update t j (some e)) i none

theorem move_erase {e : K × V} {i j : Nat} (hi : t i = some e)
    (hj : t j = none) :
    Function.update (move t e i j) j none = Function.update t i none := by
  funext c
  by_cases hcj : c = j
  · by_cases hci : c = i
    · rw [hci] at hcj
      rw [← hcj, hi] at hj
      cases hj
    · rw [hcj, Function.update_self]
      rw [hcj] at hci
      rw [Function.update_of_ne hci, hj]
  · rw [Function.update_of_ne hcj, move]
    by_cases hci : c = i
    · rw [hci, Function.update_self, Function.update_self]
    · rw [Function.update_of_ne hci, Function.update_of_ne hcj,
        Function.update_of_ne hci]

theorem move_target {e : K × V} {i j : Nat} (hi : t i = some e)
    (hj : t j = none) : move t e i j j = some e := by
  have hne : j ≠ i := by
    rintro rfl
    rw [hi] at hj
    cases hj
  rw [move, Function.update_of_ne hne, Function.update_self]

theorem occupied_move {e : K × V} {i j : Nat} (hjs : j < size)
    (hi : t i = some e) (hj : t j = none) :
    (occupied (move t e i j) size).Perm
      ((j, e) :: occupied (Function.update t i none) size) := by
  have h := occupied_of_some hjs (move_target hi hj)
  rwa [move_erase hi hj] at h

theorem live_move {e : K × V} {i j : Nat} (his : i < size) (hjs : j < size)
    (hi : t i = some e) (hj : t j = none) :
    (live (move t e i j) size).Perm (live t size) :=
  ((occupied_move hjs hi hj).map Prod.snd).trans (live_of_some his hi).symm

theorem Unique.move {e : K × V} {i j : Nat} (hu : p.Unique t size)
    (his : i < size) (hi : t i = some e) :
    p.Unique (move t e i j) size := by
  -- Every entry of the new table stood in the old one, `e` at slot `i`.
  have hold : ∀ {c f}, c < size → Probing.move t e i j c = some f →
      ∃ b, b < size ∧ t b = some f ∧ c ≠ i ∧
        (c = j ∧ b = i ∨ c ≠ j ∧ b = c) := by
    intro c f hc hf
    rw [Probing.move] at hf
    by_cases hci : c = i
    · rw [hci, Function.update_self] at hf
      cases hf
    · rw [Function.update_of_ne hci] at hf
      by_cases hcj : c = j
      · rw [hcj, Function.update_self] at hf
        cases hf
        exact ⟨i, his, hi, hci, Or.inl ⟨hcj, rfl⟩⟩
      · rw [Function.update_of_ne hcj] at hf
        exact ⟨c, hc, hf, hci, Or.inr ⟨hcj, rfl⟩⟩
  intro a b f g ha hb hfa hgb hsame
  obtain ⟨a', ha', hfa', hai, haj⟩ := hold ha hfa
  obtain ⟨b', hb', hgb', hbi, hbj⟩ := hold hb hgb
  have heq := hu a' b' f g ha' hb' hfa' hgb' hsame
  omega

/-- How far slot `i` is from the start of the walk for `k`. -/
noncomputable def distance (p : Probing K) (k : K) (i : Nat) : Nat :=
  sInf {n | p.slot k n = i}

/-- The sum of all distances, which the repair decreases. -/
noncomputable def displacement (p : Probing K) (t : Slots K V)
    (size : Nat) : Nat :=
  ((occupied t size).map fun o => p.distance o.2.1 o.1).sum

/-- An entry whose walk ends at an empty slot comes nearer by moving there. -/
theorem displacement_move (he : KeyEquiv p.same) (hc : p.Covers size)
    {e : K × V} (his : i < size) (hi : t i = some e)
    (hn : p.FirstStop t e.1 n) (hnone : t (p.slot e.1 n) = none) :
    p.displacement (move t e i (p.slot e.1 n)) size <
      p.displacement t size := by
  have hat : p.slot e.1 (p.distance e.1 i) = i :=
    Nat.sInf_mem (s := {n | p.slot e.1 n = i}) (hc.slot e.1 i his)
  have hstop : p.Stops t e.1 (p.distance e.1 i) := by
    intro a ha
    rw [hat, hi] at ha
    cases ha
    exact he.refl e.1
  have hle : n ≤ p.distance e.1 i := by
    by_contra hlt
    exact hn.least _ (Nat.lt_of_not_le hlt) hstop
  have hne : n ≠ p.distance e.1 i := by
    intro h
    rw [h, hat, hi] at hnone
    cases hnone
  have hnear : p.distance e.1 (p.slot e.1 n) ≤ n :=
    Nat.sInf_le (s := {m | p.slot e.1 m = p.slot e.1 n}) rfl
  have hnew := ((occupied_move (hc.lt e.1 n) hi hnone).map
    fun o => p.distance o.2.1 o.1).sum_eq
  have hold := ((occupied_of_some his hi).map
    fun o => p.distance o.2.1 o.1).sum_eq
  rw [List.map_cons, List.sum_cons] at hnew hold
  rw [displacement, displacement, hnew, hold]
  dsimp only
  omega

/-- A table is repaired once the walk for every stored key ends at a stored
key. -/
theorem Unique.reachable (he : KeyEquiv p.same) (hc : p.Covers size)
    (hu : p.Unique t size)
    (hends : ∀ i e, i < size → t i = some e →
      ∃ n, p.FirstStop t e.1 n ∧ t (p.slot e.1 n) ≠ none) :
    p.Sound t size := by
  refine ⟨hu, ?_⟩
  intro i e hi hei
  obtain ⟨n, hn, hne⟩ := hends i e hi hei
  obtain ⟨a, ha⟩ := Option.ne_none_iff_exists'.mp hne
  have hslot : p.slot e.1 n = i :=
    hu _ i a e (hc.lt e.1 n) hi ha hei (he.symm (hn.stops a ha))
  exact ⟨n, hslot, fun m hm => hn.ne_none_of_lt hm⟩

end Probing

end Libcad
