/-
Any sequence of text and tags, whether or not its sections match.  It goes
wrong at one place at most: a tag closes another section than the innermost
open one, or the end of the text is reached inside sections.  What stands
before that place is rendered, and what is wrong there is reported.
-/
import Libcad.StacheEffects

namespace Libcad

open Proc

variable {σ ο τ : Type}

/-- A sequence of tokens, as far as its sections match. -/
inductive Outline
  | ends (template : Template)
  | stray (before : Template) (name : Bytes) (more : List Token)
  | opens (before : Template) (type : LoopType) (name : Bytes)
      (inside : Outline)
deriving Repr, DecidableEq

namespace Outline

def tokens : Outline → List Token
  | ends template => template.tokens
  | stray before name more => before.tokens ++ .closing name :: more
  | opens before type name inside =>
      before.tokens ++ .opening type name :: inside.tokens

/-- In the section with this name, if in any, a stray tag has another name. -/
def Fits : Option Bytes → Outline → Prop
  | _, ends _ => True
  | innermost, stray _ name _ => innermost ≠ some name
  | _, opens _ _ name inside => inside.Fits (some name)

/-- The text does not end with a section. -/
def Trails : Outline → Prop
  | ends template => template.Trails
  | stray _ _ _ => True
  | opens _ _ _ inside => inside.Trails

end Outline

/-- A section that is open: what stands before it, and its opening tag. -/
abbrev OpenSection := Template × LoopType × Bytes

/-- Put an outline into the sections that are open, innermost first. -/
def Outline.within (sections : List OpenSection) (inside : Outline) : Outline :=
  sections.foldl (fun inside s => .opens s.1 s.2.1 s.2.2 inside) inside

/-- What the tokens are, after a template and in the open sections. -/
def outlineFrom (before : Template) (sections : List OpenSection) :
    List Token → Outline
  | [] => .within sections (.ends before)
  | .text c :: more => outlineFrom (before.append (.text c .nil)) sections more
  | .escaped name :: more =>
      outlineFrom (before.append (.escaped name .nil)) sections more
  | .raw name :: more =>
      outlineFrom (before.append (.raw name .nil)) sections more
  | .comment body :: more =>
      outlineFrom (before.append (.comment body .nil)) sections more
  | .inclusion name :: more =>
      outlineFrom (before.append (.inclusion name .nil)) sections more
  | .opening type name :: more =>
      outlineFrom .nil ((before, type, name) :: sections) more
  | .closing name :: more =>
      match sections with
      | [] => .stray before name more
      | (outer, type, opened) :: sections =>
          if opened = name then
            outlineFrom (outer.append (.loop type name before .nil)) sections
              more
          else
            .within ((outer, type, opened) :: sections)
              (.stray before name more)

def outlineOf (toks : List Token) : Outline := outlineFrom .nil [] toks

theorem Template.append_assoc (a b c : Template) :
    (a.append b).append c = a.append (b.append c) := by
  induction a with
  | nil => rfl
  | text byte rest ih | escaped name rest ih | raw name rest ih
  | comment body rest ih | inclusion name rest ih
  | loop type name body rest _ ih => simp only [Template.append, ih]

theorem Template.append_nil (template : Template) :
    template.append .nil = template := by
  induction template with
  | nil => rfl
  | text byte rest ih | escaped name rest ih | raw name rest ih
  | comment body rest ih | inclusion name rest ih
  | loop type name body rest _ ih => simp only [Template.append, ih]

theorem outlineFrom_template (template before : Template)
    (sections : List OpenSection) (more : List Token) :
    outlineFrom before sections (template.tokens ++ more) =
      outlineFrom (before.append template) sections more := by
  induction template generalizing before sections more with
  | nil => rw [Template.append_nil, Template.tokens, List.nil_append]
  | text c rest ih | escaped name rest ih | raw name rest ih
  | comment body rest ih | inclusion name rest ih =>
      rw [Template.tokens, List.cons_append, outlineFrom, ih,
        Template.append_assoc]
      rfl
  | loop type name body rest ihb ihr =>
      rw [Template.tokens, List.cons_append, List.append_assoc,
        List.cons_append, outlineFrom, ihb, outlineFrom, if_pos rfl, ihr,
        Template.append_assoc]
      rfl

theorem outlineFrom_outline (outline : Outline) (sections : List OpenSection)
    (h : outline.Fits (sections.head?.map fun s => s.2.2)) :
    outlineFrom .nil sections outline.tokens = outline.within sections := by
  induction outline generalizing sections with
  | ends template =>
      rw [Outline.tokens, ← List.append_nil template.tokens,
        outlineFrom_template]
      rfl
  | stray before name more =>
      rw [Outline.tokens, outlineFrom_template]
      cases sections with
      | nil => rfl
      | cons s sections => exact if_neg fun heq => h (congrArg some heq)
  | opens before type name inside ih =>
      rw [Outline.tokens, outlineFrom_template]
      exact ih ((before, type, name) :: sections) h

/-- There is only one way to read a sequence of tokens. -/
theorem outlineOf_unique {outline : Outline} (h : outline.Fits none) :
    outlineOf outline.tokens = outline :=
  outlineFrom_outline outline [] h

example (template : Template) : outlineOf template.tokens = .ends template :=
  outlineOf_unique (show (Outline.ends template).Fits none from trivial)

section

variable (fns : StreamFns τ) (cb : Callback σ ο τ)

/-- What is wrong with a closing tag that does not fit. -/
def strayFault (enclosed : Bool) : String :=
  if enclosed then "closing loop name different from opening loop name"
  else "closing non-open loop"

/-- What an outline comes to, in a section or outside all, shown or hidden. -/
def Outline.interpret :
    Outline → Bool → Bool → Progress σ → Proc (Fault × Progress σ)
  | ends template, enclosed, hidden, p => do
      let r ← template.interpret fns cb hidden p
      andGoOn r fun p =>
        pure (if enclosed then some "Unfinished loops" else none, p)
  | stray before _ _, enclosed, hidden, p => do
      let r ← before.interpret fns cb hidden p
      andGoOn r fun p =>
        pure (some (strayFault enclosed), p)
  | opens before type name inside, _, hidden, p => do
      let r ← before.interpret fns cb hidden p
      andGoOn r (interpretOpening fns cb name fun _ empty =>
        inside.interpret true (type.hides empty || hidden))

end

section

variable {fns : StreamFns τ} {cb : Callback σ ο τ} {toks : List Token}
  {pos frontier : Nat} {loops : List (StacheLoop ο)} {p : Progress σ}
  {a : Buffer σ ο τ} {mode : Mode}

end

end Libcad
