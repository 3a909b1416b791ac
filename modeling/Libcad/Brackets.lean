/-
Brackets with names along a text.  A text is laid out in cells, some of which
open or close a bracket; whoever goes over the cells from left to right, and
back to where an open bracket was opened, has the same brackets open at the
same place every time.
-/
import Mathlib.Data.List.Induction
import Mathlib.Tactic.Common

namespace Libcad

universe u

variable {α : Type u}

/-- A bracket with a name. -/
inductive Bracket (α : Type u)
  | opening (name : α)
  | closing (name : α)
deriving Repr, DecidableEq

section

variable [DecidableEq α]

/-- The brackets left open, innermost first; nothing where a bracket closes
none, or not the innermost one. -/
def nest : List α → List (Bracket α) → Option (List α)
  | names, [] => some names
  | names, .opening name :: brackets => nest (name :: names) brackets
  | [], .closing _ :: _ => none
  | top :: names, .closing name :: brackets =>
      if name = top then nest names brackets else none

/-- Each bracket closes the innermost open one, and none is left open. -/
def Balanced (brackets : List (Bracket α)) : Prop := nest [] brackets = some []

instance (brackets : List (Bracket α)) : Decidable (Balanced brackets) :=
  inferInstanceAs (Decidable (_ = _))

end

/-- A part of the text, from `start` to before `stop`. -/
structure Cell (α : Type u) where
  start : Int
  stop : Int
  bracket : Option (Bracket α)
deriving Repr, DecidableEq

def bracketsOf (cells : List (Cell α)) : List (Bracket α) :=
  cells.filterMap Cell.bracket

theorem bracketsOf_concat (cells : List (Cell α)) (cell : Cell α) :
    bracketsOf (cells ++ [cell]) = bracketsOf cells ++ cell.bracket.toList := by
  obtain ⟨start, stop, bracket⟩ := cell
  rw [bracketsOf, List.filterMap_append]
  cases bracket <;> rfl

/-- The cells lie one after the other between two places. -/
inductive Laid : Int → List (Cell α) → Int → Prop
  | nil (place : Int) : Laid place [] place
  | cons {cell : Cell α} {cells : List (Cell α)} {stop : Int} :
      cell.start < cell.stop → Laid cell.stop cells stop →
        Laid cell.start (cell :: cells) stop

variable {start place stop : Int} {cell : Cell α} {cells cells' : List (Cell α)}

theorem Laid.le (h : Laid start cells stop) : start ≤ stop := by
  induction h with
  | nil => exact Int.le_refl _
  | cons hlt _ ih => exact Int.le_trans (Int.le_of_lt hlt) ih

theorem Laid.eq_nil (h : Laid start cells stop) (hle : stop ≤ start) :
    cells = [] := by
  cases h with
  | nil => rfl
  | cons hlt hrest =>
      have hlast := hrest.le
      omega

theorem laid_nil : Laid start ([] : List (Cell α)) stop ↔ start = stop := by
  constructor
  · intro h
    cases h
    rfl
  · rintro rfl
    exact .nil start

theorem laid_cons :
    Laid start (cell :: cells) stop ↔
      cell.start = start ∧ start < cell.stop ∧ Laid cell.stop cells stop := by
  constructor
  · intro h
    cases h with
    | cons hlt hrest => exact ⟨rfl, hlt, hrest⟩
  · rintro ⟨rfl, hlt, hrest⟩
    exact .cons hlt hrest

theorem Laid.append (h : Laid start cells place) (h' : Laid place cells' stop) :
    Laid start (cells ++ cells') stop := by
  induction h with
  | nil => exact h'
  | cons hlt _ ih => exact .cons hlt (ih h')

theorem laid_append :
    Laid start (cells ++ cells') stop ↔
      ∃ place, Laid start cells place ∧ Laid place cells' stop := by
  constructor
  · intro h
    induction cells generalizing start with
    | nil => exact ⟨start, .nil start, h⟩
    | cons cell cells ih =>
        rw [List.cons_append, laid_cons] at h
        obtain ⟨rfl, hlt, hrest⟩ := h
        obtain ⟨place, hcells, hcells'⟩ := ih hrest
        exact ⟨place, .cons hlt hcells, hcells'⟩
  · rintro ⟨place, hcells, hcells'⟩
    exact hcells.append hcells'

theorem Laid.stop_le (h : Laid start cells stop) :
    ∀ cell ∈ cells, cell.stop ≤ stop := by
  induction h with
  | nil => exact fun _ h => absurd h List.not_mem_nil
  | cons _ hrest ih =>
      intro cell hcell
      rcases List.mem_cons.mp hcell with rfl | hcell
      · exact hrest.le
      · exact ih cell hcell

section

variable [DecidableEq α]

/-- The open brackets with the places after which they were opened, once the
cell was crossed. -/
def Cell.cross (cell : Cell α) (frames : List (α × Int)) :
    Option (List (α × Int)) :=
  match cell.bracket, frames with
  | none, frames => some frames
  | some (.opening name), frames => some ((name, cell.stop) :: frames)
  | some (.closing _), [] => none
  | some (.closing name), (top, _) :: frames =>
      if name = top then some frames else none

theorem Cell.cross_closing {start stop : Int} {name : α}
    {frames frames' : List (α × Int)} :
    (⟨start, stop, some (.closing name)⟩ : Cell α).cross frames =
        some frames' ↔ ∃ mark, frames = (name, mark) :: frames' := by
  cases frames with
  | nil => exact iff_of_false nofun nofun
  | cons frame frames =>
      obtain ⟨top, mark⟩ := frame
      change (if name = top then some frames else none) = some frames' ↔ _
      constructor
      · intro h
        split at h
        next htop =>
          cases h
          exact ⟨mark, htop ▸ rfl⟩
        next => cases h
      · rintro ⟨mark, heq⟩
        cases heq
        exact if_pos rfl

/-- The open brackets once some cells were crossed. -/
def crossAll : List (Cell α) → List (α × Int) → Option (List (α × Int))
  | [], frames => some frames
  | cell :: cells, frames => (cell.cross frames).bind (crossAll cells)

variable {frames frames' : List (α × Int)}

theorem crossAll_append (cells cells' : List (Cell α))
    (frames : List (α × Int)) :
    crossAll (cells ++ cells') frames =
      (crossAll cells frames).bind (crossAll cells') := by
  induction cells generalizing frames with
  | nil => rfl
  | cons cell cells ih =>
      rw [List.cons_append, crossAll, crossAll]
      cases cell.cross frames with
      | none => rfl
      | some next => exact ih next

theorem crossAll_concat (cells : List (Cell α)) (cell : Cell α)
    (frames : List (α × Int)) :
    crossAll (cells ++ [cell]) frames =
      (crossAll cells frames).bind cell.cross := by
  rw [crossAll_append]
  refine congrArg (crossAll cells frames).bind (funext fun next => ?_)
  rw [crossAll]
  cases cell.cross next <;> rfl

theorem crossAll_names (h : crossAll cells frames = some frames') :
    nest (frames.map Prod.fst) (bracketsOf cells) =
      some (frames'.map Prod.fst) := by
  induction cells generalizing frames with
  | nil =>
      cases h
      rfl
  | cons cell cells ih =>
      rw [crossAll] at h
      obtain ⟨next, hcross, hrest⟩ := Option.bind_eq_some_iff.mp h
      rw [← ih hrest]
      obtain ⟨start, stop, bracket⟩ := cell
      cases bracket with
      | none =>
          cases hcross
          rfl
      | some bracket =>
          cases bracket with
          | opening name =>
              cases hcross
              rfl
          | closing name =>
              obtain ⟨mark, rfl⟩ := Cell.cross_closing.mp hcross
              exact if_pos rfl

/-- An open bracket was opened by one of the cells, and what was open then is
open around it. -/
theorem opened_before {frame : α × Int} {above rest : List (α × Int)}
    (hlaid : Laid start cells stop)
    (h : crossAll cells [] = some (above ++ frame :: rest)) :
    ∃ before after, cells = before ++ after ∧ Laid start before frame.2 ∧
      Laid frame.2 after stop ∧ crossAll before [] = some (frame :: rest) := by
  induction cells using List.reverseRecOn generalizing above stop with
  | nil =>
      have hnil : above ++ frame :: rest = [] := (Option.some.inj h).symm
      exact absurd hnil (List.append_ne_nil_of_right_ne_nil _
        (List.cons_ne_nil _ _))
  | append_singleton cells cell ih =>
      rw [crossAll_concat] at h
      obtain ⟨frames, hcells, hcross⟩ := Option.bind_eq_some_iff.mp h
      obtain ⟨place, hplace, hcell⟩ := laid_append.mp hlaid
      -- The bracket was open before this cell already.
      have hearlier : ∀ above', frames = above' ++ frame :: rest →
          ∃ before after, cells ++ [cell] = before ++ after ∧
            Laid start before frame.2 ∧ Laid frame.2 after stop ∧
            crossAll before [] = some (frame :: rest) := by
        rintro above' rfl
        obtain ⟨before, after, rfl, hbefore, hafter, hopened⟩ :=
          ih hplace hcells
        exact ⟨before, after ++ [cell], List.append_assoc _ _ _, hbefore,
          hafter.append hcell, hopened⟩
      obtain ⟨first, last, bracket⟩ := cell
      cases bracket with
      | none => exact hearlier above (Option.some.inj hcross)
      | some bracket =>
          cases bracket with
          | opening name =>
              have hcons := Option.some.inj hcross
              cases above with
              | nil =>
                  obtain ⟨rfl, rfl⟩ := List.cons.inj hcons
                  obtain ⟨rfl, hlt, hstop⟩ := laid_cons.mp hcell
                  refine ⟨cells ++ [⟨first, last, _⟩], [],
                    (List.append_nil _).symm, ?_, hstop, ?_⟩
                  · exact hplace.append (.cons hlt (.nil last))
                  · rw [crossAll_concat, hcells]
                    rfl
              | cons frame' above => exact hearlier above (List.cons.inj hcons).2
          | closing name =>
              obtain ⟨mark, rfl⟩ := Cell.cross_closing.mp hcross
              exact hearlier ((name, mark) :: above) rfl

/-- The cells from 0 to `passed` were gone through; the walk is at a place
between two of them, with the brackets open that were opened before it. -/
structure Walk (done ahead : List (Cell α)) (place passed : Int)
    (frames : List (α × Int)) : Prop where
  behind : Laid 0 done place
  before : Laid place ahead passed
  opened : crossAll done [] = some frames
  crosses : (crossAll ahead frames).isSome

variable {done ahead : List (Cell α)} {passed : Int}

theorem walk_start (α : Type u) [DecidableEq α] :
    Walk ([] : List (Cell α)) [] 0 0 [] :=
  ⟨.nil 0, .nil 0, rfl, rfl⟩

theorem Walk.next (h : Walk done (cell :: ahead) place passed frames) :
    ∃ frames', cell.cross frames = some frames' ∧
      Walk (done ++ [cell]) ahead cell.stop passed frames' := by
  obtain ⟨rfl, hlt, hrest⟩ := laid_cons.mp h.before
  have hcrosses := h.crosses
  rw [crossAll] at hcrosses
  cases hcross : cell.cross frames with
  | none =>
      rw [hcross] at hcrosses
      cases hcrosses
  | some frames' =>
      rw [hcross] at hcrosses
      refine ⟨frames', rfl, h.behind.append (.cons hlt (.nil _)), hrest, ?_,
        hcrosses⟩
      rw [crossAll_concat, h.opened]
      exact hcross

theorem Walk.foresee (h : Walk done [] place passed frames)
    (hstart : cell.start = place) (hlt : cell.start < cell.stop)
    (hcrosses : (cell.cross frames).isSome) :
    Walk done [cell] place cell.stop frames := by
  subst hstart
  refine ⟨h.behind, .cons hlt (.nil _), h.opened, ?_⟩
  obtain ⟨frames', hcross⟩ := Option.isSome_iff_exists.mp hcrosses
  rw [crossAll, hcross]
  rfl

/-- Back to where the innermost open bracket was opened. -/
theorem Walk.back {frame : α × Int}
    (h : Walk done ahead place passed (frame :: frames)) :
    frame.2 ≤ place ∧ ∃ done' ahead', done' ++ ahead' = done ++ ahead ∧
      Walk done' ahead' frame.2 passed (frame :: frames) := by
  obtain ⟨before, after, rfl, hbefore, hafter, hopened⟩ :=
    @opened_before _ _ _ _ _ frame [] frames h.behind h.opened
  refine ⟨hafter.le, before, after ++ ahead, (List.append_assoc _ _ _).symm,
    hbefore, hafter.append h.before, hopened, ?_⟩
  have hframes := h.opened
  rw [crossAll_append, hopened] at hframes
  rw [crossAll_append]
  change crossAll after (frame :: frames) = _ at hframes
  rw [hframes]
  exact h.crosses

theorem Walk.ended (h : Walk done ahead place passed frames)
    (hle : passed ≤ place) : ahead = [] :=
  h.before.eq_nil hle

/-- The brackets are balanced where the walk ends with none open. -/
theorem Walk.balanced (h : Walk done [] place passed []) :
    Balanced (bracketsOf done) :=
  crossAll_names h.opened

end

end Libcad
