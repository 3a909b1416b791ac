/-
The log of the calls that ask numbered sources for their items.  A source is
asked in order when the indices are 0, 1, 2 and so on, and no call follows one
that found nothing.
-/
import Mathlib.Data.List.Range

namespace Libcad

/-- One call: the source, the index asked for, and whether it was found. -/
structure ItemCall where
  source : Nat
  index : Int
  found : Bool
deriving Repr, DecidableEq

/-- The calls of one source, the oldest one first. -/
def callsOf (calls : List ItemCall) (source : Nat) : List ItemCall :=
  calls.filter fun call => call.source = source

def foundItems (source n : Nat) : List ItemCall :=
  (List.range n).map fun index => ⟨source, index, true⟩

/-- 0, 1, 2 and so on, each once, and nothing after an answer 0. -/
def InOrder (source : Nat) (calls : List ItemCall) : Prop :=
  ∃ n, calls = foundItems source n ∨
    calls = foundItems source n ++ [⟨source, n, false⟩]

def Orderly (calls : List ItemCall) : Prop :=
  ∀ source, InOrder source (callsOf calls source)

variable {calls : List ItemCall} {call : ItemCall} {source n : Nat}

theorem callsOf_own (hsource : call.source = source) :
    callsOf (calls ++ [call]) source = callsOf calls source ++ [call] := by
  simp [callsOf, hsource]

theorem callsOf_other (hsource : call.source ≠ source) :
    callsOf (calls ++ [call]) source = callsOf calls source := by
  simp [callsOf, hsource]

theorem callsOf_fresh (h : ∀ call ∈ calls, call.source < source) :
    callsOf calls source = [] := by
  refine List.filter_eq_nil_iff.mpr ?_
  intro call hmem
  have hlt := h call hmem
  simp only [decide_eq_true_eq]
  omega

theorem foundItems_succ (source n : Nat) :
    foundItems source (n + 1) = foundItems source n ++ [⟨source, n, true⟩] := by
  simp [foundItems, List.range_succ]

theorem foundItems_inOrder (source n : Nat) :
    InOrder source (foundItems source n) :=
  ⟨n, Or.inl rfl⟩

/-- The last of the calls in order may find nothing. -/
theorem inOrder_last (source n : Nat) (found : Bool) :
    InOrder source (foundItems source n ++ [⟨source, n, found⟩]) := by
  cases found with
  | true => exact ⟨n + 1, Or.inl (foundItems_succ source n).symm⟩
  | false => exact ⟨n, Or.inr rfl⟩

theorem inOrder_nil (source : Nat) : InOrder source [] :=
  foundItems_inOrder source 0

theorem orderly_nil : Orderly [] := fun source => inOrder_nil source

theorem not_inOrder_after {first second : ItemCall}
    (hfirst : first.found = false) : ¬ InOrder source [first, second] := by
  rintro ⟨n, hcalls | hcalls⟩
  · have hmem : first ∈ foundItems source n := by
      rw [← hcalls]
      exact List.mem_cons_self
    obtain ⟨index, -, rfl⟩ := List.mem_map.mp hmem
    cases hfirst
  · have hsplit : [first] ++ [second] =
        foundItems source n ++ [⟨source, n, false⟩] := hcalls
    have hinit : [first] = foundItems source n :=
      (List.append_inj' hsplit rfl).1
    have hmem : first ∈ foundItems source n := by
      rw [← hinit]
      exact List.mem_cons_self
    obtain ⟨index, -, rfl⟩ := List.mem_map.mp hmem
    cases hfirst

/-- A call that keeps its own source in order keeps all of them in order. -/
theorem Orderly.record (h : Orderly calls)
    (hcall : InOrder call.source (callsOf calls call.source ++ [call])) :
    Orderly (calls ++ [call]) := by
  intro source
  by_cases hsource : call.source = source
  · rw [callsOf_own hsource, ← hsource]
    exact hcall
  · rw [callsOf_other hsource]
    exact h source

end Libcad
