/-
The nesting of sections.  A run that goes back and forth over tokens keeps its
open sections in step with the depth of its position, and an open section has
not been left since its body was entered.
-/
import Libcad.StacheTemplate
import Mathlib.Algebra.BigOperators.Group.List.Basic
import Mathlib.Algebra.Ring.Int.Defs

namespace Libcad

open Proc TokenState

/-- `+1` for an opening tag, `-1` for a closing tag. -/
def Token.nesting : Token → Int
  | .opening _ _ => 1
  | .closing _ => -1
  | _ => 0

/-- How many sections some tokens leave open. -/
def depth (toks : List Token) : Int := (toks.map Token.nesting).sum

@[simp] theorem depth_nil : depth [] = 0 := rfl

@[simp] theorem depth_cons (tok : Token) (toks : List Token) :
    depth (tok :: toks) = tok.nesting + depth toks := by
  rw [depth, List.map_cons, List.sum_cons]
  rfl

@[simp] theorem depth_append (a b : List Token) :
    depth (a ++ b) = depth a + depth b := by
  rw [depth, List.map_append, List.sum_append]
  rfl

theorem depth_take_succ {toks : List Token} {n : Nat} {tok : Token}
    (h : toks[n]? = some tok) :
    depth (toks.take (n + 1)) = depth (toks.take n) + tok.nesting := by
  rw [List.take_add_one, h, Option.toList_some, depth_append, depth_cons,
    depth_nil]
  omega

/-- No section is closed that is not open, and none is left open. -/
structure WellNested (toks : List Token) : Prop where
  depth_eq : depth toks = 0
  depth_nonneg : ∀ n, 0 ≤ depth (toks.take n)

theorem wellNested_nil : WellNested [] :=
  ⟨rfl, fun n => by rw [List.take_nil]; exact Int.le_refl 0⟩

theorem WellNested.append {a b : List Token} (ha : WellNested a)
    (hb : WellNested b) : WellNested (a ++ b) where
  depth_eq := by rw [depth_append, ha.depth_eq, hb.depth_eq]; rfl
  depth_nonneg n := by
    rw [List.take_append, depth_append]
    exact Int.add_nonneg (ha.depth_nonneg n) (hb.depth_nonneg _)

theorem wellNested_singleton {tok : Token} (h : tok.nesting = 0) :
    WellNested [tok] where
  depth_eq := by rw [depth_cons, h]; rfl
  depth_nonneg n := by
    cases n with
    | zero => exact Int.le_refl 0
    | succ n =>
        rw [List.take_succ_cons, List.take_nil, depth_cons, h]
        exact Int.le_refl 0

theorem WellNested.cons {tok : Token} {toks : List Token}
    (htok : tok.nesting = 0) (h : WellNested toks) : WellNested (tok :: toks) :=
  (wellNested_singleton htok).append h

theorem WellNested.enclose {body : List Token} (h : WellNested body)
    (type : LoopType) (name name' : Bytes) :
    WellNested (.opening type name :: (body ++ [.closing name'])) where
  depth_eq := by
    simp only [depth_cons, depth_append, depth_nil, h.depth_eq, Token.nesting]
    rfl
  depth_nonneg n := by
    cases n with
    | zero => exact Int.le_refl 0
    | succ n =>
        rw [List.take_succ_cons, List.take_append, depth_cons, depth_append]
        have hbody := h.depth_nonneg n
        have hclosing : -1 ≤ depth
            ([Token.closing name'].take (n - body.length)) := by
          cases n - body.length with
          | zero => exact Int.neg_nonpos_of_nonneg (by decide)
          | succ k =>
              rw [List.take_succ_cons, List.take_nil]
              exact Int.le_refl _
        simp only [Token.nesting]
        omega

theorem Template.wellNested (template : Template) :
    WellNested template.tokens := by
  induction template with
  | nil => exact wellNested_nil
  | text c rest ih => exact ih.cons rfl
  | escaped name rest ih => exact ih.cons rfl
  | raw name rest ih => exact ih.cons rfl
  | comment body rest ih => exact ih.cons rfl
  | loop type name body rest ihb ihr =>
      have h := (ihb.enclose type name name).append ihr
      rw [List.cons_append, List.append_assoc] at h
      exact h
  | inclusion name rest ih => exact ih.cons rfl

variable {τ : Type}

/-- The run is inside the section `m`, which is inside `level` others: it has
not left it since its body was entered, and an item other than the first means
that its end has been reached before. -/
structure Inside (toks : List Token) (frontier pos : Nat) (m : TokenLoop)
    (level : Nat) : Prop where
  mark_le : m.mark ≤ pos
  opening : ∃ start, m.mark = start + 1 ∧
    toks[start]? = some (.opening m.type m.name)
  depth_mark : depth (toks.take m.mark) = level + 1
  deeper : ∀ n, m.mark ≤ n → n ≤ pos → level + 1 ≤ depth (toks.take n)
  rewound : m.index ≠ 0 → ∃ n, m.mark ≤ n ∧ n ≤ frontier ∧
    depth (toks.take n) = level

/-- The run is inside its open sections, and lists are what the lookups of
their names came to. -/
inductive Nested (fns : StreamFns τ) (answers : Answers τ)
    (toks : List Token) (frontier pos : Nat) : List TokenLoop → Prop
  | nil : Nested fns answers toks frontier pos []
  | cons {m : TokenLoop} {ms : List TokenLoop} :
      Inside toks frontier pos m ms.length →
      (∀ outer ∈ ms, TokenLoop.mark outer ≤ m.mark) →
      m.list = ((answers (framesOf ms) m.name).opened fns).list →
      Nested fns answers toks frontier pos ms →
      Nested fns answers toks frontier pos (m :: ms)

/-- The open sections of a state are in step with its position. -/
structure InStep (fns : StreamFns τ) (answers : Answers τ) (t : TokenState) :
    Prop where
  length_eq : depth (t.toks.take t.pos) = t.loops.length
  nested : Nested fns answers t.toks t.frontier t.pos t.loops

section

variable {fns : StreamFns τ} {answers : Answers τ} {toks : List Token}
  {frontier pos : Nat} {m : TokenLoop} {ms : List TokenLoop}
  {t t' : TokenState} {tok : Token}

theorem start_inStep (toks : List Token) :
    InStep fns answers (start toks) :=
  ⟨rfl, .nil⟩

/-- Forward over a token that leaves the sections open. -/
theorem Inside.forward {level : Nat} (h : Inside toks frontier pos m level)
    {frontier' : Nat} (hfrontier : frontier ≤ frontier')
    (hdepth : level + 1 ≤ depth (toks.take (pos + 1))) :
    Inside toks frontier' (pos + 1) m level where
  mark_le := Nat.le_succ_of_le h.mark_le
  opening := h.opening
  depth_mark := h.depth_mark
  deeper n hle hn := by
    rcases Nat.lt_or_eq_of_le hn with hlt | heq
    · exact h.deeper n hle (Nat.le_of_lt_succ hlt)
    · rw [heq]
      exact hdepth
  rewound hindex := by
    obtain ⟨n, hle, hn, heq⟩ := h.rewound hindex
    exact ⟨n, hle, Nat.le_trans hn hfrontier, heq⟩

theorem Nested.forward (h : Nested fns answers toks frontier pos ms)
    {frontier' : Nat} (hfrontier : frontier ≤ frontier')
    (hdepth : ms.length ≤ depth (toks.take (pos + 1))) :
    Nested fns answers toks frontier' (pos + 1) ms := by
  induction h with
  | nil => exact .nil
  | cons hinside hmarks hlist _ ih =>
      rw [List.length_cons, Int.natCast_add_one] at hdepth
      exact .cons (hinside.forward hfrontier hdepth) hmarks hlist
        (ih (by omega))

/-- Back to a place between the bodies and the position. -/
theorem Nested.backward (h : Nested fns answers toks frontier pos ms)
    {frontier' pos' : Nat} (hfrontier : frontier ≤ frontier')
    (hpos : pos' ≤ pos) (hmarks : ∀ outer ∈ ms, TokenLoop.mark outer ≤ pos') :
    Nested fns answers toks frontier' pos' ms := by
  induction h with
  | nil => exact .nil
  | cons hinside hmarks' hlist _ ih =>
      obtain ⟨hm, hms⟩ := List.forall_mem_cons.mp hmarks
      refine .cons ⟨hm, hinside.opening, hinside.depth_mark, ?_, ?_⟩ hmarks'
        hlist (ih hms)
      · intro n hle hn
        exact hinside.deeper n hle (Nat.le_trans hn hpos)
      · intro hindex
        obtain ⟨n, hle, hn, heq⟩ := hinside.rewound hindex
        exact ⟨n, hle, Nat.le_trans hn hfrontier, heq⟩

theorem Nested.mark_le (h : Nested fns answers toks frontier pos ms) :
    ∀ outer ∈ ms, TokenLoop.mark outer ≤ pos := by
  induction h with
  | nil => exact fun _ h => absurd h List.not_mem_nil
  | cons hinside _ _ _ ih => exact List.forall_mem_cons.mpr ⟨hinside.mark_le, ih⟩

/-- A token that includes nothing keeps the sections in step. -/
theorem InStep.moves (h : InStep fns answers t)
    (htok : t.toks[t.pos]? = some tok)
    (hmoves : Moves fns answers t.advance tok t') :
    InStep fns answers t' := by
  have hdepth := depth_take_succ htok
  have hlength := h.length_eq
  have hfrontier : t.frontier ≤ max t.frontier (t.pos + 1) :=
    Nat.le_max_left _ _
  have hwrite : ∀ text, tok.nesting = 0 →
      InStep fns answers (t.advance.write text) := by
    intro text hplain
    rw [write_out]
    refine ⟨?_, ?_⟩
    · show depth (t.toks.take (t.pos + 1)) = t.loops.length
      omega
    · exact h.nested.forward hfrontier (by omega)
  cases hmoves with
  | text c => exact hwrite [c] rfl
  | escaped name text => exact hwrite text rfl
  | raw name text => exact hwrite text rfl
  | comment body =>
      have hsame := hwrite [] rfl
      rw [write_nil] at hsame
      exact hsame
  | opening type name =>
      have hnesting : (Token.opening type name).nesting = 1 := rfl
      refine ⟨?_, .cons ⟨Nat.le_refl _, ⟨t.pos, rfl, htok⟩, ?_, ?_, ?_⟩ ?_ rfl
        (h.nested.forward hfrontier (by omega))⟩
      · show depth (t.toks.take (t.pos + 1)) = ((t.loops.length + 1 : Nat) : Int)
        omega
      · show depth (t.toks.take (t.pos + 1)) = (t.loops.length : Int) + 1
        omega
      · intro n hle hn
        have heq : n = t.pos + 1 := Nat.le_antisymm hn hle
        rw [heq]
        show (t.loops.length : Int) + 1 ≤ depth (t.toks.take (t.pos + 1))
        omega
      · exact fun hindex => absurd rfl hindex
      · intro outer houter
        exact Nat.le_succ_of_le (h.nested.mark_le outer houter)
  | @closed m ms name hloops =>
      have hloops : t.loops = m :: ms := hloops
      have hnesting : (Token.closing name).nesting = -1 := rfl
      have hnested := h.nested
      rw [hloops] at hnested hlength
      rw [List.length_cons] at hlength
      cases hnested with
      | cons _ _ _ hrest =>
          refine ⟨?_, hrest.forward hfrontier (by omega)⟩
          show depth (t.toks.take (t.pos + 1)) = ms.length
          omega
  | @again m ms get close name hloops htype hlist hget =>
      have hloops : t.loops = m :: ms := hloops
      have hnesting : (Token.closing name).nesting = -1 := rfl
      have hnested := h.nested
      rw [hloops] at hnested hlength
      rw [List.length_cons] at hlength
      cases hnested with
      | cons hinside hmarks hlist' hrest =>
          have hmark := hinside.mark_le
          refine ⟨?_, .cons ⟨Nat.le_refl _, hinside.opening,
            hinside.depth_mark, ?_, ?_⟩ hmarks hlist'
            (hrest.backward hfrontier hmark hmarks)⟩
          · show depth (t.toks.take m.mark) = ((ms.length + 1 : Nat) : Int)
            rw [hinside.depth_mark]
            rfl
          · intro n hle hn
            exact hinside.deeper n hle (Nat.le_trans hn hmark)
          · intro _
            refine ⟨t.pos + 1, Nat.le_succ_of_le hmark,
              Nat.le_max_right _ _, ?_⟩
            show depth (t.toks.take (t.pos + 1)) = ms.length
            omega

end

end Libcad
