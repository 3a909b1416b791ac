/-
What a step of the token machine can do, and what every run keeps: the position
never passes the frontier, nothing before the frontier includes anything, and
bodies start before the frontier.
-/
import Libcad.StacheTokens
import Mathlib.Data.List.Basic

namespace Libcad

open Proc

variable {τ : Type} {fns : StreamFns τ} {answers : Answers τ}
  {inclusions : Inclusions} {t t' : TokenState} {tok : Token}

namespace TokenState

theorem write_nil (t : TokenState) : t.write [] = t := by
  rw [write, List.append_nil]
  split <;> rfl

theorem write_out (t : TokenState) (text : Bytes) :
    t.write text =
      { t with out := if t.skips then t.out else t.out ++ text } := by
  rw [write]
  split <;> rfl

theorem step_live (htok : t.toks[t.pos]? = some tok)
    (hlive : t.frontier ≠ t.toks.length) :
    t.step fns answers inclusions =
      if tok.includes then t.exec fns answers inclusions tok
      else t.advance.exec fns answers inclusions tok := by
  rw [step, htok]
  dsimp only
  rw [if_neg hlive]

def opened (fns : StreamFns τ) (answers : Answers τ) (t : TokenState)
    (type : LoopType) (name : Bytes) : TokenLoop :=
  let opened := (answers (framesOf t.loops) name).opened fns
  { type := type, name := name, list := opened.list, mark := t.pos,
    index := 0, empty := opened.empty }

/-- What a token that includes nothing does when rendering goes on. -/
inductive Moves (fns : StreamFns τ) (answers : Answers τ) (t : TokenState) :
    Token → TokenState → Prop
  | text (c : UInt8) : Moves fns answers t (.text c) (t.write [c])
  | escaped (name text : Bytes) :
      Moves fns answers t (.escaped name) (t.write text)
  | raw (name text : Bytes) : Moves fns answers t (.raw name) (t.write text)
  | comment (body : Bytes) : Moves fns answers t (.comment body) t
  | opening (type : LoopType) (name : Bytes) :
      Moves fns answers t (.opening type name)
        { t with loops := t.opened fns answers type name :: t.loops }
  | closed {m : TokenLoop} {ms : List TokenLoop} (name : Bytes) :
      t.loops = m :: ms →
      Moves fns answers t (.closing name) { t with loops := ms }
  | again {m : TokenLoop} {ms : List TokenLoop} {get : Int → Bool}
      {close : Option Bool} (name : Bytes) :
      t.loops = m :: ms → m.type = .loopWhile →
      m.list = some (some get, close) → get m.next.index = true →
      Moves fns answers t (.closing name)
        { t with loops := m.next :: ms, pos := m.mark }

theorem goOn_inl {accepted : Bool} (h : t.goOn accepted = .inl t') :
    accepted = true ∧ t' = t := by
  rw [goOn] at h
  split at h
  · rename_i hyes
    exact ⟨hyes, (Sum.inl.inj h).symm⟩
  · cases h

theorem writeVariable_inl {answer : Answer τ}
    {write : TokenState → Option Bytes → Proc TokenState}
    (hwrite : ∀ c t₁, Returns (write t c) t₁ → ∃ text, t₁ = t.write text)
    (h : Returns (t.writeVariable answer write) (.inl t')) :
    ∃ text, t' = t.write text := by
  cases answer with
  | notFound =>
      cases returns_pure.mp h
      exact ⟨[], t.write_nil.symm⟩
  | list get close => cases returns_pure.mp h
  | stream get free => cases returns_pure.mp h
  | invalid => cases returns_pure.mp h
  | string get free =>
      cases get with
      | none => exact absurd h not_returns_undefined
      | some c =>
          cases free with
          | none =>
              obtain ⟨_, -, h⟩ := returns_bind.mp h
              exact absurd h not_returns_undefined
          | some freed =>
              obtain ⟨t₁, ht₁, h⟩ := returns_bind.mp h
              obtain ⟨-, rfl⟩ := goOn_inl (returns_pure.mp h)
              exact hwrite c _ ht₁

theorem writeRaw_inl (c : Option Bytes) (t₁ : TokenState)
    (h : Returns (t.writeRaw c) t₁) : ∃ text, t₁ = t.write text := by
  rw [writeRaw.eq_def] at h
  split at h
  · cases returns_pure.mp h
    exact ⟨[], t.write_nil.symm⟩
  · cases c with
    | none => exact absurd h not_returns_undefined
    | some c => exact ⟨_, (returns_pure.mp h).symm⟩

theorem writeEscaped_inl (c : Option Bytes) (t₁ : TokenState)
    (h : Returns (t.writeEscaped c) t₁) : ∃ text, t₁ = t.write text := by
  cases c with
  | none => exact absurd h not_returns_undefined
  | some c => exact ⟨_, (returns_pure.mp h).symm⟩

theorem closeSection_inl {name : Bytes}
    (h : Returns (t.closeSection name) (.inl t')) :
    Moves fns answers t (.closing name) t' := by
  rw [closeSection.eq_def] at h
  cases hloops : t.loops with
  | nil =>
      rw [hloops] at h
      cases returns_pure.mp h
  | cons m ms =>
      rw [hloops] at h
      dsimp only at h
      split at h
      · cases returns_pure.mp h
      · cases hlist : m.list with
        | none =>
            rw [hlist] at h
            cases returns_pure.mp h
            exact .closed name hloops
        | some list =>
            obtain ⟨get, close⟩ := list
            rw [hlist] at h
            obtain ⟨found, hfound, h⟩ := returns_bind.mp h
            cases found with
            | false =>
                obtain ⟨-, rfl⟩ := goOn_inl (returns_pure.mp h)
                exact .closed name hloops
            | true =>
                cases returns_pure.mp h
                cases htype : m.type with
                | loopElse =>
                    rw [htype] at hfound
                    cases returns_pure.mp hfound
                | loopWhile =>
                    rw [htype] at hfound
                    cases get with
                    | none => exact absurd hfound not_returns_undefined
                    | some get =>
                        exact .again name hloops htype hlist
                          (returns_pure.mp hfound)

theorem exec_moves (hplain : tok.includes = false)
    (h : Returns (t.exec fns answers inclusions tok) (.inl t')) :
    Moves fns answers t tok t' := by
  cases tok with
  | text c =>
      cases returns_pure.mp h
      exact .text c
  | escaped name =>
      obtain ⟨text, rfl⟩ := writeVariable_inl writeEscaped_inl h
      exact .escaped name text
  | raw name =>
      obtain ⟨text, rfl⟩ := writeVariable_inl writeRaw_inl h
      exact .raw name text
  | comment body =>
      cases returns_pure.mp h
      exact .comment body
  | opening type name =>
      obtain ⟨-, rfl⟩ := goOn_inl (returns_pure.mp h)
      exact .opening type name
  | closing name => exact closeSection_inl h
  | inclusion name => cases hplain

/-- A step that goes on steps over a token or enters an inclusion. -/
theorem step_inl (h : Returns (t.step fns answers inclusions) (.inl t')) :
    ∃ tok, t.toks[t.pos]? = some tok ∧ t.frontier ≠ t.toks.length ∧
      ((tok.includes = false ∧ Moves fns answers t.advance tok t') ∨
        ∃ name, tok = .inclusion name ∧
          Returns (t.enter (inclusions name)) (.inl t')) := by
  rw [step.eq_def] at h
  cases htok : t.toks[t.pos]? with
  | none =>
      rw [htok] at h
      cases returns_pure.mp h
  | some tok =>
      rw [htok] at h
      dsimp only at h
      by_cases hended : t.frontier = t.toks.length
      · rw [if_pos hended] at h
        cases returns_pure.mp h
      · rw [if_neg hended] at h
        refine ⟨tok, rfl, hended, ?_⟩
        cases hincludes : tok.includes with
        | false =>
            rw [hincludes, if_neg Bool.false_ne_true] at h
            exact Or.inl ⟨rfl, exec_moves hincludes h⟩
        | true =>
            rw [hincludes, if_pos rfl] at h
            cases tok with
            | inclusion name => exact Or.inr ⟨name, rfl, h⟩
            | _ => cases hincludes

/-- An inclusion that goes on is replaced, or left out with the byte after
it. -/
theorem enter_inl {inclusion : Option Inclusion}
    (h : Returns (t.enter inclusion) (.inl t')) :
    t.pos + 1 ≠ t.toks.length ∧
      ((∃ content, inclusion = some (.found content) ∧
        t' = { t with
          toks := t.toks.take t.pos ++ content ++ t.toks.drop (t.pos + 1) }) ∨
      (inclusion = some .missing ∧
        (∃ c, t.toks[t.pos + 1]? = some (.text c)) ∧
        t' = { t with
          toks := t.toks.take t.pos ++ t.toks.drop (t.pos + 2) })) := by
  rw [enter.eq_def] at h
  split at h
  · cases returns_pure.mp h
  · rename_i hmore
    refine ⟨hmore, ?_⟩
    cases inclusion with
    | none => exact absurd h not_returns_undefined
    | some inclusion =>
        cases inclusion with
        | found content =>
            cases returns_pure.mp h
            exact Or.inl ⟨content, rfl, rfl⟩
        | missing =>
            dsimp only at h
            split at h
            · rename_i c hc
              cases returns_pure.mp h
              exact Or.inr ⟨rfl, ⟨c, hc⟩, rfl⟩
            · exact absurd h not_returns_undefined

theorem goOn_inr {accepted : Bool} {v : Verdict}
    (h : t.goOn accepted = .inr v) : v.code = -1 := by
  rw [goOn] at h
  split at h
  · cases h
  · cases h
    rfl

theorem writeVariable_inr {answer : Answer τ} {v : Verdict}
    {write : TokenState → Option Bytes → Proc TokenState}
    (h : Returns (t.writeVariable answer write) (.inr v)) : v.code = -1 := by
  have hfailed : ∀ {v : Verdict}, Returns (pure t.failed) (.inr v) →
      v.code = -1 := by
    intro v h
    cases returns_pure.mp h
    rfl
  cases answer with
  | notFound => cases returns_pure.mp h
  | list get close => exact hfailed h
  | stream get free => exact hfailed h
  | invalid => exact hfailed h
  | string get free =>
      cases get with
      | none => exact absurd h not_returns_undefined
      | some c =>
          cases free with
          | none =>
              obtain ⟨_, -, h⟩ := returns_bind.mp h
              exact absurd h not_returns_undefined
          | some freed =>
              obtain ⟨t₁, -, h⟩ := returns_bind.mp h
              exact goOn_inr (returns_pure.mp h)

theorem closeSection_inr {name : Bytes} {v : Verdict}
    (h : Returns (t.closeSection name) (.inr v)) : v.code = -1 := by
  rw [closeSection.eq_def] at h
  split at h
  · cases returns_pure.mp h
    rfl
  · split at h
    · cases returns_pure.mp h
      rfl
    · split at h
      · cases returns_pure.mp h
      · obtain ⟨found, -, h⟩ := returns_bind.mp h
        split at h
        · cases returns_pure.mp h
        · exact goOn_inr (returns_pure.mp h)

theorem enter_inr {inclusion : Option Inclusion} {v : Verdict}
    (h : Returns (t.enter inclusion) (.inr v)) : v.code = -1 := by
  rw [enter.eq_def] at h
  split at h
  · cases returns_pure.mp h
    rfl
  · cases inclusion with
    | none => exact absurd h not_returns_undefined
    | some inclusion =>
        cases inclusion with
        | found content => cases returns_pure.mp h
        | missing =>
            dsimp only at h
            split at h
            · cases returns_pure.mp h
            · exact absurd h not_returns_undefined

theorem exec_inr {v : Verdict}
    (h : Returns (t.exec fns answers inclusions tok) (.inr v)) :
    v.code = -1 := by
  cases tok with
  | text c => cases returns_pure.mp h
  | escaped name => exact writeVariable_inr h
  | raw name => exact writeVariable_inr h
  | comment body => cases returns_pure.mp h
  | opening type name => exact goOn_inr (returns_pure.mp h)
  | closing name => exact closeSection_inr h
  | inclusion name => exact enter_inr h

theorem step_inr {v : Verdict}
    (h : Returns (t.step fns answers inclusions) (.inr v)) :
    (t.toks[t.pos]? = none ∧ v = ⟨if t.loops.isEmpty then 0 else -1, t.out⟩) ∨
      v.code = -1 := by
  rw [step.eq_def] at h
  cases htok : t.toks[t.pos]? with
  | none =>
      rw [htok] at h
      cases returns_pure.mp h
      exact Or.inl ⟨rfl, rfl⟩
  | some tok =>
      rw [htok] at h
      dsimp only at h
      split at h
      · cases returns_pure.mp h
        exact Or.inr rfl
      · split at h
        · exact Or.inr (exec_inr h)
        · exact Or.inr (exec_inr h)

/-- The places of a state are in order. -/
structure Placed (t : TokenState) : Prop where
  pos_le : t.pos ≤ t.frontier
  frontier_le : t.frontier ≤ t.toks.length
  plain : ∀ tok ∈ t.toks.take t.frontier, tok.includes = false
  mark_le : ∀ m ∈ t.loops, m.mark ≤ t.frontier

theorem start_placed (toks : List Token) : (start toks).Placed :=
  ⟨Nat.le_refl _, Nat.zero_le _, fun _ h => absurd h List.not_mem_nil,
    fun _ h => absurd h List.not_mem_nil⟩

theorem frontier_eq_of_plain (hle : t.pos ≤ t.frontier)
    (hplain : ∀ tok ∈ t.toks.take t.frontier, tok.includes = false)
    (htok : t.toks[t.pos]? = some tok) (hincludes : tok.includes = true) :
    t.frontier = t.pos := by
  by_contra hne
  have hlt : t.pos < t.frontier := Nat.lt_of_le_of_ne hle (Ne.symm hne)
  have hget : (t.toks.take t.frontier)[t.pos]? = some tok := by
    rw [List.getElem?_take_of_lt hlt, htok]
  rw [hplain tok (List.mem_of_getElem? hget)] at hincludes
  cases hincludes

theorem Placed.frontier_eq (h : t.Placed) (htok : t.toks[t.pos]? = some tok)
    (hincludes : tok.includes = true) : t.frontier = t.pos :=
  frontier_eq_of_plain h.pos_le h.plain htok hincludes

theorem Placed.advance (h : t.Placed) (htok : t.toks[t.pos]? = some tok)
    (hplain : tok.includes = false) : t.advance.Placed := by
  have hpos : t.pos < t.toks.length := (List.getElem?_eq_some_iff.mp htok).1
  refine ⟨Nat.le_max_right _ _, ?_, ?_, ?_⟩
  · exact Nat.max_le.mpr ⟨h.frontier_le, hpos⟩
  · intro x hx
    change x ∈ t.toks.take (max t.frontier (t.pos + 1)) at hx
    rcases Nat.le_total (t.pos + 1) t.frontier with hold | hnew
    · rw [Nat.max_eq_left hold] at hx
      exact h.plain x hx
    · rw [Nat.max_eq_right hnew, List.take_add_one, htok] at hx
      rcases List.mem_append.mp hx with hx | hx
      · have hpre : t.toks.take t.pos <+: t.toks.take t.frontier :=
          List.take_prefix_take_left h.pos_le
        exact h.plain x (hpre.subset hx)
      · rw [Option.toList_some, List.mem_singleton] at hx
        rw [hx]
        exact hplain
  · intro m hm
    exact Nat.le_trans (h.mark_le m hm) (Nat.le_max_left _ _)

theorem Moves.toks_eq (h : Moves fns answers t tok t') : t'.toks = t.toks := by
  cases h <;> simp only [write_out]

theorem Moves.frontier_eq (h : Moves fns answers t tok t') :
    t'.frontier = t.frontier := by
  cases h <;> simp only [write_out]

theorem Moves.placed (h : Moves fns answers t tok t') (ht : t.Placed) :
    t'.Placed := by
  have htoks := h.toks_eq
  have hfrontier := h.frontier_eq
  have hpos : t'.pos ≤ t.frontier ∧ ∀ m ∈ t'.loops, m.mark ≤ t.frontier := by
    have hle := ht.pos_le
    have hmarks := ht.mark_le
    cases h with
    | text c => simpa only [write_out] using ⟨hle, hmarks⟩
    | escaped name text => simpa only [write_out] using ⟨hle, hmarks⟩
    | raw name text => simpa only [write_out] using ⟨hle, hmarks⟩
    | comment body => exact ⟨hle, hmarks⟩
    | opening type name =>
        exact ⟨hle, List.forall_mem_cons.mpr ⟨hle, hmarks⟩⟩
    | closed name hloops =>
        rw [hloops] at hmarks
        exact ⟨hle, (List.forall_mem_cons.mp hmarks).2⟩
    | again name hloops htype hlist hget =>
        rw [hloops] at hmarks
        obtain ⟨hm, hms⟩ := List.forall_mem_cons.mp hmarks
        exact ⟨hm, List.forall_mem_cons.mpr ⟨hm, hms⟩⟩
  exact ⟨hfrontier ▸ hpos.1, by rw [hfrontier, htoks]; exact ht.frontier_le,
    by rw [hfrontier, htoks]; exact ht.plain, hfrontier ▸ hpos.2⟩

/-- The tokens before the position stay when an inclusion is entered. -/
theorem Placed.retain (h : t.Placed) (hfrontier : t.frontier = t.pos)
    (rest : List Token) :
    { t with toks := t.toks.take t.pos ++ rest }.Placed := by
  have hpos : (t.toks.take t.pos).length = t.pos :=
    List.length_take_of_le (hfrontier ▸ h.frontier_le)
  refine ⟨h.pos_le, ?_, ?_, h.mark_le⟩
  · show t.frontier ≤ (t.toks.take t.pos ++ rest).length
    rw [List.length_append, hpos, hfrontier]
    exact Nat.le_add_right _ _
  · show ∀ tok ∈ (t.toks.take t.pos ++ rest).take t.frontier,
      tok.includes = false
    rw [hfrontier, List.take_left' hpos, ← hfrontier]
    exact h.plain

theorem Placed.step (h : t.Placed)
    (hstep : Returns (t.step fns answers inclusions) (.inl t')) :
    t'.Placed := by
  obtain ⟨tok, htok, -, hplain | hincludes⟩ := step_inl hstep
  · exact hplain.2.placed (h.advance htok hplain.1)
  · obtain ⟨name, rfl, henter⟩ := hincludes
    have hfrontier := h.frontier_eq htok rfl
    obtain ⟨-, hfound | hmissing⟩ := enter_inl henter
    · obtain ⟨content, -, rfl⟩ := hfound
      rw [List.append_assoc]
      exact h.retain hfrontier _
    · obtain ⟨-, -, rfl⟩ := hmissing
      exact h.retain hfrontier _

def EndsPlain (toks : List Token) : Prop :=
  ∀ tok ∈ toks.getLast?, tok.includes = false

/-- A step leaves the last token where it is, or takes it along with a missing
inclusion. -/
theorem step_last (h : t.Placed)
    (hstep : Returns (t.step fns answers inclusions) (.inl t')) :
    t'.toks.getLast? = t.toks.getLast? ∨
      (EndsPlain t.toks ∧ EndsPlain t'.toks) := by
  obtain ⟨tok, htok, -, hplain | hincludes⟩ := step_inl hstep
  · have htoks : t'.toks = t.toks := hplain.2.toks_eq
    exact Or.inl (congrArg List.getLast? htoks)
  · obtain ⟨name, rfl, henter⟩ := hincludes
    have hpos : t.pos < t.toks.length := (List.getElem?_eq_some_iff.mp htok).1
    obtain ⟨hmore, hfound | hmissing⟩ := enter_inl henter
    · obtain ⟨content, -, rfl⟩ := hfound
      have hrest : t.toks.drop (t.pos + 1) ≠ [] := by
        rw [ne_eq, List.drop_eq_nil_iff]
        omega
      left
      change (t.toks.take t.pos ++ content ++
        t.toks.drop (t.pos + 1)).getLast? = t.toks.getLast?
      rw [List.getLast?_append_of_ne_nil _ hrest, List.getLast?_drop,
        if_neg (by omega)]
    · obtain ⟨-, ⟨c, hc⟩, rfl⟩ := hmissing
      by_cases hrest : t.toks.drop (t.pos + 2) = []
      · right
        refine ⟨fun tok' htok' => ?_, fun tok' htok' => ?_⟩
        · have hlen := (List.getElem?_eq_some_iff.mp hc).1
          rw [List.drop_eq_nil_iff] at hrest
          rw [List.getLast?_eq_getElem?,
            show t.toks.length - 1 = t.pos + 1 by omega, hc] at htok'
          cases htok'
          rfl
        · change tok' ∈ (t.toks.take t.pos ++
            t.toks.drop (t.pos + 2)).getLast? at htok'
          rw [hrest, List.append_nil] at htok'
          have hfrontier := h.frontier_eq htok rfl
          apply h.plain
          rw [hfrontier]
          exact List.mem_of_getLast? htok'
      · left
        change (t.toks.take t.pos ++ t.toks.drop (t.pos + 2)).getLast? =
          t.toks.getLast?
        rw [List.getLast?_append_of_ne_nil _ hrest, List.getLast?_drop]
        rw [List.drop_eq_nil_iff] at hrest
        rw [if_neg (by omega)]

theorem step_endsPlain (h : t.Placed) (hlast : EndsPlain t.toks)
    (hstep : Returns (t.step fns answers inclusions) (.inl t')) :
    EndsPlain t'.toks := by
  rcases step_last h hstep with hsame | ⟨-, hplain⟩
  · rw [EndsPlain, hsame]
    exact hlast
  · exact hplain

/-- The states the machine reaches. -/
abbrev ReachedFrom (fns : StreamFns τ) (answers : Answers τ)
    (inclusions : Inclusions) (toks : List Token) (t : TokenState) : Prop :=
  Reaches (step fns answers inclusions) (start toks) t

/-- No inclusion with nothing after it is ever met. -/
def NeverLeaves (fns : StreamFns τ) (answers : Answers τ)
    (inclusions : Inclusions) (toks : List Token) : Prop :=
  ∀ t : TokenState, t.ReachedFrom fns answers inclusions toks → ¬ t.Leaves

/-- No missing inclusion with a tag after it is ever met. -/
def NeverTorn (fns : StreamFns τ) (answers : Answers τ)
    (inclusions : Inclusions) (toks : List Token) : Prop :=
  ∀ t : TokenState, t.ReachedFrom fns answers inclusions toks →
    ¬ t.Torn inclusions

theorem neverLeaves_of_endsPlain {toks : List Token}
    (hlast : EndsPlain toks) : NeverLeaves fns answers inclusions toks := by
  intro t hreached hleaves
  have hinvariant : t.Placed ∧ EndsPlain t.toks :=
    hreached.invariant (I := fun t => t.Placed ∧ EndsPlain t.toks)
      (fun _ _ hs hstep => ⟨hs.1.step hstep, step_endsPlain hs.1 hs.2 hstep⟩)
      ⟨start_placed toks, hlast⟩
  obtain ⟨name, htok, hend⟩ := hleaves
  have hget : t.toks.getLast? = some (.inclusion name) := by
    rw [List.getLast?_eq_getElem?, ← hend, Nat.add_sub_cancel, htok]
  have hincludes := hinvariant.2 _ hget
  cases hincludes

theorem neverTorn_of_found (h : ∀ name, inclusions name ≠ some .missing)
    (toks : List Token) : NeverTorn fns answers inclusions toks := by
  rintro t - ⟨name, -, hmissing, -⟩
  exact h name hmissing

end TokenState

end Libcad
