/-
Operations on a state of which each one depends on a part of its own: what one
of them answers in a sequence is what it answers when the others are left out.
-/
import Libcad.Proc

namespace Libcad

namespace Proc

variable {C σ ρ : Type}

/-- A sequence of operations, with what each of them answered. -/
def callAll (call : σ → C → Proc (ρ × σ)) : List C → σ → Proc (List (C × ρ))
  | [], _ => pure []
  | c :: cs, s => do
      let (r, s) ← call s c
      let rest ← callAll call cs s
      pure ((c, r) :: rest)

/-- States that agree on the part of `c` answer `c` alike, and the other
operations leave that part as it is. -/
structure Separate (call : σ → C → Proc (ρ × σ)) (agree : C → σ → σ → Prop) :
    Prop where
  refl : ∀ c s, agree c s s
  trans : ∀ {c s s' s''}, agree c s s' → agree c s' s'' → agree c s s''
  local_returns : ∀ {c s s' r t}, agree c s s' → Returns (call s c) (r, t) →
    ∃ t', Returns (call s' c) (r, t') ∧ agree c t t'
  frame : ∀ {c c' s r t}, c ≠ c' → Returns (call s c') (r, t) → agree c t s

variable {call : σ → C → Proc (ρ × σ)} {agree : C → σ → σ → Prop}

theorem callAll_cons {c : C} {cs : List C} {s : σ} {trace : List (C × ρ)} :
    Returns (callAll call (c :: cs) s) trace ↔
      ∃ r t rest, Returns (call s c) (r, t) ∧
        Returns (callAll call cs t) rest ∧ trace = (c, r) :: rest := by
  rw [callAll, returns_bind]
  constructor
  · rintro ⟨⟨r, t⟩, hcall, h⟩
    obtain ⟨rest, hrest, h⟩ := returns_bind.mp h
    exact ⟨r, t, rest, hcall, hrest, (returns_pure.mp h).symm⟩
  · rintro ⟨r, t, rest, hcall, hrest, rfl⟩
    exact ⟨(r, t), hcall, hrest.bind (returns_pure_self _)⟩

/-- The calls of one operation are a sequence of their own. -/
theorem Separate.callAll_filter [DecidableEq C] (hsep : Separate call agree)
    (c : C) (cs : List C) :
    ∀ {s s' : σ} {trace : List (C × ρ)}, agree c s s' →
      Returns (callAll call cs s) trace →
      Returns (callAll call (cs.filter (· = c)) s')
        (trace.filter (·.1 = c)) := by
  induction cs with
  | nil =>
      intro s s' trace _ h
      rw [← returns_pure.mp h]
      exact returns_pure_self _
  | cons d cs ih =>
      intro s s' trace hagree h
      obtain ⟨r, t, rest, hcall, hrest, rfl⟩ := callAll_cons.mp h
      by_cases hd : d = c
      · subst hd
        obtain ⟨t', hcall', hagree'⟩ := hsep.local_returns hagree hcall
        rw [List.filter_cons_of_pos (by simp), List.filter_cons_of_pos (by simp)]
        exact callAll_cons.mpr ⟨r, t', _, hcall', ih hagree' hrest, rfl⟩
      · rw [List.filter_cons_of_neg (by simpa using hd),
          List.filter_cons_of_neg (by simpa using hd)]
        exact ih (hsep.trans (hsep.frame (Ne.symm hd) hcall) hagree) hrest

/-- Every operation answers alike each time. -/
def Stable (trace : List (C × ρ)) : Prop :=
  ∀ c r r', (c, r) ∈ trace → (c, r') ∈ trace → r = r'

/-- After its first answer, the operation only ever gives that answer again. -/
def Repeats (call : σ → C → Proc (ρ × σ)) (c : C) (s : σ) : Prop :=
  ∀ r t, Returns (call s c) (r, t) →
    ∀ r' t', Returns (call t c) (r', t') → r' = r ∧ t' = t

/-- An operation that can give its answer again repeats. -/
theorem Repeats.of_returns {c : C} {s : σ}
    (h : ∀ r t, Returns (call s c) (r, t) → Returns (call t c) (r, t)) :
    Repeats call c s := by
  intro r t hrt r' t' hrt'
  exact Prod.mk.inj (hrt'.unique (h r t hrt))

theorem fixed_answers {c : C} {r : ρ} {t : σ}
    (hfixed : ∀ r' t', Returns (call t c) (r', t') → r' = r ∧ t' = t)
    (n : Nat) : ∀ {trace : List (C × ρ)},
      Returns (callAll call (List.replicate n c) t) trace →
      ∀ e ∈ trace, e = (c, r) := by
  induction n with
  | zero =>
      intro trace h
      rw [← returns_pure.mp h]
      nofun
  | succ n ih =>
      intro trace h
      obtain ⟨r', t', rest, hcall, hrest, rfl⟩ := callAll_cons.mp h
      obtain ⟨rfl, rfl⟩ := hfixed r' t' hcall
      intro e he
      rcases List.mem_cons.mp he with rfl | he
      · rfl
      · exact ih hrest e he

/-- The answers of an operation that repeats, or that is called once, are all
the same. -/
theorem replicate_answers {c : C} {s : σ} {n : Nat} {trace : List (C × ρ)}
    (hrepeats : Repeats call c s ∨ n ≤ 1)
    (h : Returns (callAll call (List.replicate n c) s) trace) :
    ∀ e ∈ trace, ∀ e' ∈ trace, e = e' := by
  cases n with
  | zero =>
      rw [← returns_pure.mp h]
      nofun
  | succ n =>
      obtain ⟨r, t, rest, hcall, hrest, rfl⟩ := callAll_cons.mp h
      have hall : ∀ e ∈ rest, e = (c, r) := by
        rcases hrepeats with hrepeats | hn
        · exact fixed_answers (hrepeats r t hcall) n hrest
        · have hzero : n = 0 := by omega
          subst hzero
          rw [← returns_pure.mp hrest]
          nofun
      have hall' : ∀ e ∈ (c, r) :: rest, e = (c, r) := by
        intro e he
        rcases List.mem_cons.mp he with rfl | he
        · rfl
        · exact hall e he
      exact fun e he e' he' => (hall' e he).trans (hall' e' he').symm

section

variable [DecidableEq C] {cs : List C} {s : σ} {trace : List (C × ρ)}

theorem Separate.callAll_count (hsep : Separate call agree) (c : C)
    (h : Returns (callAll call cs s) trace) :
    Returns (callAll call (List.replicate (cs.count c) c) s)
      (trace.filter (·.1 = c)) := by
  rw [← List.filter_eq]
  exact hsep.callAll_filter c cs (hsep.refl c s) h

/-- A sequence is stable if each of its operations repeats or is called at most
once. -/
theorem Separate.stable (hsep : Separate call agree)
    (hrepeats : ∀ c, Repeats call c s ∨ cs.count c ≤ 1)
    (h : Returns (callAll call cs s) trace) : Stable trace := by
  intro c r r' hr hr'
  have hmem : ∀ a, (c, a) ∈ trace → (c, a) ∈ trace.filter (·.1 = c) :=
    fun a ha => List.mem_filter.mpr ⟨ha, by simp⟩
  have heq := replicate_answers (hrepeats c) (hsep.callAll_count c h)
    (c, r) (hmem r hr) (c, r') (hmem r' hr')
  exact (Prod.mk.inj heq).2

/-- In a stable sequence the first two answers of an operation are the same. -/
theorem Separate.answers_eq (hsep : Separate call agree) {c : C}
    (hcount : 1 < cs.count c) (h : Returns (callAll call cs s) trace)
    (hstable : Stable trace) :
    ∃ r t t', Returns (call s c) (r, t) ∧ Returns (call t c) (r, t') := by
  have hcalls := hsep.callAll_count c h
  obtain ⟨n, hn⟩ : ∃ n, cs.count c = n + 1 + 1 := ⟨cs.count c - 2, by omega⟩
  rw [hn] at hcalls
  obtain ⟨r, t, rest, hcall, hrest, htrace⟩ := callAll_cons.mp hcalls
  obtain ⟨r', t', rest', hcall', -, hrest'⟩ := callAll_cons.mp hrest
  have hmem : ∀ a, (c, a) ∈ trace.filter (·.1 = c) → (c, a) ∈ trace :=
    fun a ha => (List.mem_filter.mp ha).1
  rw [htrace, hrest'] at hmem
  have heq : r = r' := hstable c r r' (hmem r (by simp)) (hmem r' (by simp))
  exact ⟨r, t, t', hcall, heq ▸ hcall'⟩

end

end Proc

end Libcad
