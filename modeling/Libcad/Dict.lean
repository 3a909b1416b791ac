/-
Finite maps as association lists.  Keys are compared by an arbitrary Boolean
equivalence, so that two different representations of one key name one entry.
-/
import Mathlib.Data.List.Induction
import Mathlib.Data.List.Perm.Basic
import Mathlib.Data.List.Pairwise

namespace Libcad

universe u v w

/-- An association list; at most one entry for each class of keys when it is
`Distinct`. -/
abbrev Dict (K : Type u) (V : Type v) := List (K × V)

/-- The comparison of keys is an equivalence. -/
structure KeyEquiv {K : Type u} (eqv : K → K → Bool) : Prop where
  refl : ∀ a, eqv a a = true
  symm : ∀ {a b}, eqv a b = true → eqv b a = true
  trans : ∀ {a b c}, eqv a b = true → eqv b c = true → eqv a c = true

theorem KeyEquiv.beq {K : Type u} [DecidableEq K] :
    KeyEquiv (fun a b : K => decide (a = b)) where
  refl a := by simp
  symm h := by simpa using (of_decide_eq_true h).symm
  trans h h' := by simpa using (of_decide_eq_true h).trans (of_decide_eq_true h')

namespace Dict

variable {K : Type u} {V : Type v} (eqv : K → K → Bool)

/-- The value of the entry whose key is equivalent to `k`. -/
def get : Dict K V → K → Option V
  | [], _ => none
  | e :: d, k => if eqv e.1 k then some e.2 else get d k

/-- Give `k` the value `v`: an existing entry keeps its key, a new entry gets
the key `stored`. -/
def set (stored k : K) (v : V) (d : Dict K V) : Dict K V :=
  match get eqv d k with
  | some _ => d.map fun e => if eqv e.1 k then (e.1, v) else e
  | none => d ++ [(stored, v)]

/-- Remove the entry whose key is equivalent to `k`. -/
def erase (k : K) (d : Dict K V) : Dict K V :=
  d.filter fun e => !eqv e.1 k

/-- No two entries have equivalent keys. -/
def Distinct (d : Dict K V) : Prop :=
  d.Pairwise fun a b => eqv a.1 b.1 = false

variable {eqv}

theorem get_congr (he : KeyEquiv eqv) (d : Dict K V) {k k' : K}
    (h : eqv k k' = true) : get eqv d k = get eqv d k' := by
  induction d with
  | nil => rfl
  | cons e d ih =>
      have hiff : eqv e.1 k = eqv e.1 k' := by
        rw [Bool.eq_iff_iff]
        exact ⟨fun hk => he.trans hk h, fun hk => he.trans hk (he.symm h)⟩
      simp only [get, hiff, ih]

theorem get_append (d d' : Dict K V) (k : K) :
    get eqv (d ++ d') k = (get eqv d k).or (get eqv d' k) := by
  induction d with
  | nil => rfl
  | cons e d ih =>
      by_cases hk : eqv e.1 k = true
      · simp [get, hk]
      · simp [get, hk, ih]

/-- Overwriting the value of a class of keys shows at the keys of that class
which are present, and nowhere else. -/
theorem get_overwrite (he : KeyEquiv eqv) (d : Dict K V) (k : K) (v : V)
    (k' : K) :
    get eqv (d.map fun e => if eqv e.1 k then (e.1, v) else e) k' =
      if eqv k k' then (get eqv d k').map fun _ => v else get eqv d k' := by
  induction d with
  | nil => simp [get]
  | cons e d ih =>
      by_cases hk : eqv e.1 k = true
      · have hiff : eqv e.1 k' = eqv k k' := by
          rw [Bool.eq_iff_iff]
          exact ⟨fun h => he.trans (he.symm hk) h, fun h => he.trans hk h⟩
        by_cases hkk : eqv k k' = true
        · simp [get, hk, hiff, hkk]
        · simp only [List.map_cons, hk, ↓reduceIte, get, hiff, hkk, ih]
          simp
      · by_cases hek : eqv e.1 k' = true
        · have hkk : eqv k k' = false := by
            rw [Bool.eq_false_iff]
            exact fun h => hk (he.trans hek (he.symm h))
          simp [get, hk, hek, hkk]
        · simp [get, hk, hek, ih]

theorem get_set (he : KeyEquiv eqv) (d : Dict K V) {stored k : K} (v : V)
    (hs : eqv stored k = true) (k' : K) :
    get eqv (set eqv stored k v d) k' =
      if eqv k k' then some v else get eqv d k' := by
  cases hg : get eqv d k with
  | some old =>
      simp only [set, hg, get_overwrite he]
      by_cases hkk : eqv k k' = true
      · rw [get_congr he d hkk] at hg
        simp [hkk, hg]
      · simp [hkk]
  | none =>
      simp only [set, hg, get_append, get]
      by_cases hkk : eqv k k' = true
      · rw [get_congr he d hkk] at hg
        simp [hg, hkk, he.trans hs hkk]
      · have hsk : eqv stored k' = false := by
          rw [Bool.eq_false_iff]
          exact fun h => hkk (he.trans (he.symm hs) h)
        simp [hkk, hsk]

theorem get_eq_none_iff (d : Dict K V) (k : K) :
    get eqv d k = none ↔ ∀ e ∈ d, eqv e.1 k = false := by
  induction d with
  | nil => simp [get]
  | cons e d ih =>
      by_cases hk : eqv e.1 k = true
      · simp [get, hk]
      · simp [get, hk, ih]

theorem mem_of_get_eq_some {d : Dict K V} {k : K} {v : V}
    (h : get eqv d k = some v) : ∃ e ∈ d, eqv e.1 k = true ∧ e.2 = v := by
  induction d with
  | nil => simp [get] at h
  | cons e d ih =>
      by_cases hk : eqv e.1 k = true
      · simp only [get, hk, ↓reduceIte, Option.some.injEq] at h
        exact ⟨e, List.mem_cons_self, hk, h⟩
      · simp only [get, hk, Bool.false_eq_true, ↓reduceIte] at h
        obtain ⟨e', hmem, heq⟩ := ih h
        exact ⟨e', List.mem_cons_of_mem e hmem, heq⟩

/-- In a distinct list an entry is what `get` finds under its key. -/
theorem get_of_mem (he : KeyEquiv eqv) {d : Dict K V} (hd : Distinct eqv d)
    {e : K × V} (hmem : e ∈ d) {k : K} (hk : eqv e.1 k = true) :
    get eqv d k = some e.2 := by
  induction d with
  | nil => cases hmem
  | cons a d ih =>
      obtain ⟨hhead, htail⟩ := List.pairwise_cons.mp hd
      rcases List.mem_cons.mp hmem with rfl | hmem
      · simp [get, hk]
      · have hne : eqv a.1 k = false := by
          rw [Bool.eq_false_iff]
          intro hak
          have := he.trans hak (he.symm hk)
          rw [hhead e hmem] at this
          cases this
        simp [get, hne, ih htail hmem]

theorem Distinct.perm (he : KeyEquiv eqv) {d d' : Dict K V}
    (hd : Distinct eqv d) (hp : d.Perm d') : Distinct eqv d' := by
  refine List.Perm.pairwise hp hd ?_
  intro a b hab
  rw [Bool.eq_false_iff] at hab ⊢
  exact fun hba => hab (he.symm hba)

/-- `get` does not depend on the order of the entries. -/
theorem get_perm (he : KeyEquiv eqv) {d d' : Dict K V}
    (hd : Distinct eqv d) (hp : d.Perm d') (k : K) :
    get eqv d k = get eqv d' k := by
  cases hk : get eqv d' k with
  | none =>
      rw [get_eq_none_iff] at hk ⊢
      exact fun e hmem => hk e (hp.mem_iff.mp hmem)
  | some v =>
      obtain ⟨e, hmem, hek, rfl⟩ := mem_of_get_eq_some hk
      exact get_of_mem he hd (hp.mem_iff.mpr hmem) hek

theorem mem_set {d : Dict K V} {stored k : K} {v : V} {e : K × V}
    (h : e ∈ set eqv stored k v d) : e.2 = v ∨ e ∈ d := by
  rw [set] at h
  split at h
  · obtain ⟨a, ha, rfl⟩ := List.mem_map.mp h
    split
    · exact Or.inl rfl
    · exact Or.inr ha
  · rcases List.mem_append.mp h with h | h
    · exact Or.inr h
    · rw [List.mem_singleton.mp h]
      exact Or.inl rfl

theorem key_of_mem_set {d : Dict K V} {stored k : K} {v : V} {e : K × V}
    (h : e ∈ set eqv stored k v d) :
    e.1 = stored ∨ ∃ a ∈ d, e.1 = a.1 := by
  rw [set] at h
  split at h
  · obtain ⟨a, ha, rfl⟩ := List.mem_map.mp h
    exact Or.inr ⟨a, ha, by split <;> rfl⟩
  · rcases List.mem_append.mp h with h | h
    · exact Or.inr ⟨e, h, rfl⟩
    · rw [List.mem_singleton.mp h]
      exact Or.inl rfl

/-- Setting the key of the only matching entry overwrites that entry. -/
theorem set_head {e : K × V} {rest : Dict K V} {stored k : K} (v : V)
    (hk : eqv e.1 k = true) (hrest : ∀ a ∈ rest, eqv a.1 k = false) :
    set eqv stored k v (e :: rest) = (e.1, v) :: rest := by
  have hmap : rest.map (fun a => if eqv a.1 k then (a.1, v) else a) = rest := by
    refine (List.map_congr_left ?_).trans (List.map_id rest)
    intro a ha
    rw [hrest a ha]
    rfl
  simp only [set, get, hk, ↓reduceIte, List.map_cons, hmap]

theorem erase_head {e : K × V} {rest : Dict K V} {k : K}
    (hk : eqv e.1 k = true) (hrest : ∀ a ∈ rest, eqv a.1 k = false) :
    erase eqv k (e :: rest) = rest := by
  rw [erase, List.filter_cons_of_neg (by simp [hk]), List.filter_eq_self]
  intro a ha
  rw [hrest a ha]
  rfl

theorem set_perm (he : KeyEquiv eqv) {d d' : Dict K V}
    (hd : Distinct eqv d) (hp : d.Perm d') (stored k : K) (v : V) :
    (set eqv stored k v d).Perm (set eqv stored k v d') := by
  rw [set, set, get_perm he hd hp]
  cases get eqv d' k with
  | some _ => exact hp.map _
  | none => exact hp.append_right _

theorem erase_perm {d d' : Dict K V} (hp : d.Perm d') (k : K) :
    (erase eqv k d).Perm (erase eqv k d') := hp.filter _

theorem Distinct.set (he : KeyEquiv eqv) {d : Dict K V}
    (hd : Distinct eqv d) {stored k : K} (v : V) (hs : eqv stored k = true) :
    Distinct eqv (Dict.set eqv stored k v d) := by
  cases hg : get eqv d k with
  | some old =>
      simp only [Dict.set, hg]
      refine List.Pairwise.map _ ?_ hd
      intro a b hab
      split <;> split <;> exact hab
  | none =>
      simp only [Dict.set, hg]
      refine List.pairwise_append.mpr ⟨hd, List.pairwise_singleton _ _, ?_⟩
      intro a ha b hb
      rw [List.mem_singleton.mp hb]
      have hak := (get_eq_none_iff d k).mp hg a ha
      rw [Bool.eq_false_iff] at hak ⊢
      exact fun h => hak (he.trans h hs)

/-- Give each key of a list its value, in the order of the list. -/
def setAll (eqv : K → K → Bool) (ops : List (K × V)) (d : Dict K V) :
    Dict K V :=
  ops.foldl (fun d op => set eqv op.1 op.1 op.2 d) d

theorem setAll_append (ops ops' : List (K × V)) (d : Dict K V) :
    setAll eqv (ops ++ ops') d = setAll eqv ops' (setAll eqv ops d) :=
  List.foldl_append

theorem Distinct.setAll (he : KeyEquiv eqv) (ops : List (K × V)) :
    ∀ {d : Dict K V}, Distinct eqv d → Distinct eqv (Dict.setAll eqv ops d) := by
  induction ops with
  | nil => exact fun hd => hd
  | cons op ops ih => exact fun hd => ih (hd.set he op.2 (he.refl op.1))

/-- What was set last shows, and what was there before shows elsewhere. -/
theorem get_setAll (he : KeyEquiv eqv) (ops : List (K × V)) (d : Dict K V)
    (k : K) : get eqv (setAll eqv ops d) k =
      (get eqv (setAll eqv ops []) k).or (get eqv d k) := by
  induction ops using List.reverseRecOn with
  | nil => rfl
  | append_singleton ops op ih =>
      rw [setAll_append, setAll_append]
      change get eqv (set eqv op.1 op.1 op.2 _) k =
        (get eqv (set eqv op.1 op.1 op.2 _) k).or _
      rw [get_set he _ _ (he.refl op.1), get_set he _ _ (he.refl op.1), ih]
      by_cases hk : eqv op.1 k = true
      · rw [if_pos hk, if_pos hk]
        rfl
      · rw [if_neg hk, if_neg hk]

theorem keys_setAll (he : KeyEquiv eqv) (ops : List (K × V)) :
    ∀ {d : Dict K V}, (∀ op ∈ ops, get eqv d op.1 ≠ none) →
      (setAll eqv ops d).map Prod.fst = d.map Prod.fst := by
  induction ops with
  | nil => exact fun _ => rfl
  | cons op ops ih =>
      intro d hpresent
      have hkeys : (set eqv op.1 op.1 op.2 d).map Prod.fst =
          d.map Prod.fst := by
        cases hg : get eqv d op.1 with
        | none => exact absurd hg (hpresent op List.mem_cons_self)
        | some old =>
            rw [set, hg, List.map_map]
            refine List.map_congr_left fun e _ => ?_
            simp only [Function.comp]
            split <;> rfl
      refine (ih fun op' hop' => ?_).trans hkeys
      rw [get_set he _ _ (he.refl op.1)]
      split
      next => exact Option.some_ne_none _
      next => exact hpresent op' (List.mem_cons_of_mem _ hop')

theorem get_setAll_ne_none (he : KeyEquiv eqv) {ops : List (K × V)}
    {op : K × V} (hop : op ∈ ops) (d : Dict K V) :
    get eqv (setAll eqv ops d) op.1 ≠ none := by
  induction ops using List.reverseRecOn with
  | nil => cases hop
  | append_singleton ops op' ih =>
      rw [setAll_append]
      change get eqv (set eqv op'.1 op'.1 op'.2 _) op.1 ≠ none
      rw [get_set he _ _ (he.refl op'.1)]
      split
      next => exact Option.some_ne_none _
      next hne =>
        rcases List.mem_append.mp hop with hop | hop
        · exact ih hop
        · rw [List.mem_singleton.mp hop, he.refl] at hne
          exact absurd rfl hne

/-- Maps with the same keys in the same order and the same values are the
same. -/
theorem Distinct.ext (he : KeyEquiv eqv) {d d' : Dict K V}
    (hd : Distinct eqv d) (hkeys : d.map Prod.fst = d'.map Prod.fst)
    (hget : ∀ k, get eqv d k = get eqv d' k) : d = d' := by
  induction d generalizing d' with
  | nil => exact (List.map_eq_nil_iff.mp hkeys.symm).symm
  | cons e d ih =>
      cases d' with
      | nil => cases hkeys
      | cons e' d' =>
          obtain ⟨hkey, hrest⟩ := List.cons.inj hkeys
          have hvalue := hget e.1
          rw [get, get, if_pos (he.refl _), ← hkey, if_pos (he.refl _)] at hvalue
          have heq : e = e' := Prod.ext hkey (Option.some.inj hvalue)
          subst heq
          rw [Distinct, List.pairwise_cons] at hd
          refine congrArg (e :: ·) (ih hd.2 hrest fun k => ?_)
          have htail := hget k
          rw [get, get] at htail
          by_cases hk : eqv e.1 k = true
          · have habsent : ∀ d₀ : Dict K V,
                d₀.map Prod.fst = d.map Prod.fst → get eqv d₀ k = none := by
              intro d₀ hd₀
              rw [get_eq_none_iff]
              intro a ha
              have hmem : a.1 ∈ d.map Prod.fst :=
                hd₀ ▸ List.mem_map_of_mem ha
              obtain ⟨b, hb, hba⟩ := List.mem_map.mp hmem
              have hne := hd.1 b hb
              rw [Bool.eq_false_iff] at hne ⊢
              exact fun hak => hne (he.trans hk (he.symm (hba ▸ hak)))
            rw [habsent d rfl, habsent d' hrest.symm]
          · rwa [if_neg hk, if_neg hk] at htail

theorem setAll_again (he : KeyEquiv eqv) (ops : List (K × V))
    {d : Dict K V} (hd : Distinct eqv d) :
    setAll eqv ops (setAll eqv ops d) = setAll eqv ops d := by
  refine Distinct.ext he ((hd.setAll he ops).setAll he ops)
    (keys_setAll he ops fun op hop => get_setAll_ne_none he hop d) fun k => ?_
  rw [get_setAll he ops (setAll eqv ops d), get_setAll he ops d]
  cases get eqv (setAll eqv ops []) k <;> rfl

section

variable {W : Type w}

theorem get_map (f : V → W) (d : Dict K V) (k : K) :
    get eqv (d.map fun e => (e.1, f e.2)) k = (get eqv d k).map f := by
  induction d with
  | nil => rfl
  | cons e d ih =>
      rw [List.map_cons, get, get, ih]
      split
      next => rfl
      next => rfl

theorem set_map (f : V → W) (stored k : K) (v : V) (d : Dict K V) :
    (set eqv stored k v d).map (fun e => (e.1, f e.2)) =
      set eqv stored k (f v) (d.map fun e => (e.1, f e.2)) := by
  rw [set, set, get_map]
  cases get eqv d k with
  | none => exact List.map_append
  | some old =>
      rw [Option.map_some, List.map_map, List.map_map]
      refine List.map_congr_left fun e _ => ?_
      rw [Function.comp_apply, Function.comp_apply]
      split
      next => rfl
      next => rfl

theorem setAll_map (f : V → W) (ops : List (K × V)) (d : Dict K V) :
    (setAll eqv ops d).map (fun e => (e.1, f e.2)) =
      setAll eqv (ops.map fun e => (e.1, f e.2))
        (d.map fun e => (e.1, f e.2)) := by
  induction ops generalizing d with
  | nil => rfl
  | cons op ops ih =>
      have hset := @set_map K V eqv W f op.1 op.1 op.2 d
      rw [List.map_cons, setAll, setAll, List.foldl_cons, List.foldl_cons,
        ← hset]
      exact ih _

end

end Dict

end Libcad
