/-
Two interpretations side by side.  Their callbacks do the same, up to the
bytes of the strings they give; what has been written stays related as long as
each part of the template keeps it so.
-/
import Libcad.Agree
import Libcad.StacheInterpreter

namespace Libcad

open Proc

variable {σ ο τ : Type}

/-- Two functions that give related strings and leave the same state. -/
def GetAlike (C : Bytes → Bytes → Prop) (f g : σ → Option Bytes × σ) : Prop :=
  ∀ env, Option.Rel C (f env).1 (g env).1 ∧ (f env).2 = (g env).2

/-- Two callbacks that do the same for these names, up to the bytes of their
strings. -/
structure Callback.Alike (C : Bytes → Bytes → Prop) (names : Bytes → Prop)
    (cb cb' : Callback σ ο τ) : Prop where
  resolve : ∀ name, names name → ∀ env,
    cb.resolve env name = cb'.resolve env name
  stringGet : ∀ object,
    Option.Rel (GetAlike C) (cb.stringGet object) (cb'.stringGet object)
  stringFree : cb.stringFree = cb'.stringFree
  listGet : cb.listGet = cb'.listGet
  listClose : cb.listClose = cb'.listClose
  streamGet : cb.streamGet = cb'.streamGet
  streamFree : cb.streamFree = cb'.streamFree

theorem Callback.Alike.refl (cb : Callback σ ο τ)
    {C : Bytes → Bytes → Prop} (hC : ∀ c, C c c) (names : Bytes → Prop) :
    cb.Alike C names cb where
  resolve _ _ _ := rfl
  stringGet object := by
    cases cb.stringGet object with
    | none => exact .none
    | some f =>
        refine .some fun env => ⟨?_, rfl⟩
        cases (f env).1 with
        | none => exact .none
        | some c => exact .some (hC c)
  stringFree := rfl
  listGet := rfl
  listClose := rfl
  streamGet := rfl
  streamFree := rfl

/-- Writing these two texts keeps what has been written related. -/
def Writes (W : Bytes → Bytes → Prop) (text text' : Bytes) : Prop :=
  ∀ x y, W x y → W (x ++ text) (y ++ text')

/-- What one part of a template needs so that two interpretations stay side by
side. -/
def Token.Keeps (C W : Bytes → Bytes → Prop) (names : Bytes → Prop) :
    Token → Prop
  | .text c => Writes W [c] [c]
  | .escaped name => names name ∧ ∀ c c', C c c' →
      Writes W ((cString c).flatMap escapeChar)
        ((cString c').flatMap escapeChar)
  | .raw name => names name ∧ ∀ c c', C c c' →
      Writes W (cString c) (cString c')
  | .opening _ name => names name ∧ ∀ c c', C c c' →
      (cString c = [] ↔ cString c' = [])
  | .comment _ | .closing _ | .inclusion _ => True

def Token.asked : Token → Option Bytes
  | .escaped name | .raw name | .opening _ name | .inclusion name => some name
  | .text _ | .comment _ | .closing _ => none

def Template.Asks (template : Template) (name : Bytes) : Prop :=
  ∃ tok ∈ template.tokens, tok.asked = some name

/-- The same state, and related outputs. -/
structure Progress.Beside (W : Bytes → Bytes → Prop) (p q : Progress σ) :
    Prop where
  env : p.env = q.env
  output : W p.output q.output

/-- The same result on both sides. -/
structure BesideToo {β : Type} (W : Bytes → Bytes → Prop)
    (x y : β × Progress σ) : Prop where
  result : x.1 = y.1
  progress : x.2.Beside W y.2

section

variable {fns : StreamFns τ} {cb cb' : Callback σ ο τ}
  {C W : Bytes → Bytes → Prop} {names : Bytes → Prop} {p q : Progress σ}

theorem Progress.Beside.write (h : p.Beside W q) {text text' : Bytes}
    (htext : Writes W text text') (hidden : Bool) :
    (p.write hidden text).Beside W (q.write hidden text') := by
  cases hidden with
  | true => exact h
  | false => exact ⟨h.env, htext _ _ h.output⟩

theorem Progress.Beside.call {β : Type} (h : p.Beside W q)
    (f : Option (σ → β × σ)) : Agree (BesideToo W) (p.call f) (q.call f) := by
  cases f with
  | none => exact Agree.undefined
  | some f =>
      refine Agree.pure ⟨?_, ?_, h.output⟩
      · exact congrArg (fun env => (f env).1) h.env
      · exact congrArg (fun env => (f env).2) h.env

theorem Progress.Beside.callOr {β : Type} (h : p.Beside W q)
    (f : Option (σ → β × σ)) (default : β) :
    BesideToo W (p.callOr f default) (q.callOr f default) := by
  cases f with
  | none => exact ⟨rfl, h⟩
  | some f =>
      refine ⟨?_, ?_, h.output⟩
      · exact congrArg (fun env => (f env).1) h.env
      · exact congrArg (fun env => (f env).2) h.env

theorem Progress.Beside.lookup (h : p.Beside W q)
    (hcb : cb.Alike C names cb') {name : Bytes} (hname : names name) :
    BesideToo W (p.lookup cb name) (q.lookup cb' name) := by
  have hresolve : cb.resolve p.env name = cb'.resolve q.env name := by
    rw [hcb.resolve name hname, h.env]
  have hstate : (cb.resolve p.env name).2 = (cb'.resolve q.env name).2 :=
    congrArg Prod.snd hresolve
  exact ⟨congrArg (fun x : Lookup ο × σ => x.1) hresolve, hstate, h.output⟩

/-- Related strings are got on both sides. -/
structure GotBeside (C W : Bytes → Bytes → Prop)
    (x y : Option Bytes × Progress σ) : Prop where
  string : Option.Rel C x.1 y.1
  progress : x.2.Beside W y.2

theorem Progress.Beside.callGet (h : p.Beside W q)
    {f g : Option (σ → Option Bytes × σ)}
    (hget : Option.Rel (GetAlike C) f g) :
    Agree (GotBeside C W) (p.call f) (q.call g) := by
  cases hget with
  | none => exact Agree.undefined
  | @some f g hget =>
      obtain ⟨hrel, henv⟩ := hget p.env
      rw [h.env] at hrel henv
      refine Agree.pure ⟨?_, ?_, h.output⟩
      · rw [h.env]
        exact hrel
      · rw [h.env]
        exact henv

theorem Progress.Beside.callOrGet (h : p.Beside W q)
    {f g : Option (σ → Option Bytes × σ)}
    (hget : Option.Rel (GetAlike C) f g) :
    GotBeside C W (p.callOr f none) (q.callOr g none) := by
  cases hget with
  | none => exact ⟨.none, h⟩
  | @some f g hget =>
      obtain ⟨hrel, henv⟩ := hget p.env
      rw [h.env] at hrel henv
      refine ⟨?_, ?_, h.output⟩
      · rw [Progress.callOr, Progress.callOr, h.env]
        exact hrel
      · rw [Progress.callOr, Progress.callOr, h.env]
        exact henv

theorem showRaw_beside (h : p.Beside W q) {c c' : Option Bytes}
    (hc : Option.Rel C c c')
    (hwrites : ∀ c c', C c c' → Writes W (cString c) (cString c'))
    (hidden : Bool) :
    Agree (Progress.Beside W) (showRaw hidden c p) (showRaw hidden c' q) := by
  rw [showRaw.eq_def, showRaw.eq_def]
  split
  next => exact Agree.pure h
  next =>
    cases hc with
    | none => exact Agree.undefined
    | some hc => exact Agree.pure (h.write (hwrites _ _ hc) hidden)

theorem showEscaped_beside (h : p.Beside W q) {c c' : Option Bytes}
    (hc : Option.Rel C c c')
    (hwrites : ∀ c c', C c c' → Writes W ((cString c).flatMap escapeChar)
      ((cString c').flatMap escapeChar)) (hidden : Bool) :
    Agree (Progress.Beside W) (showEscaped hidden c p)
      (showEscaped hidden c' q) := by
  cases hc with
  | none => exact Agree.undefined
  | some hc => exact Agree.pure (h.write (hwrites _ _ hc) hidden)

theorem interpretVariable_beside (hcb : cb.Alike C names cb')
    {present : Option Bytes → Progress σ → Proc (Progress σ)}
    (hpresent : ∀ c c' p q, Option.Rel C c c' → Progress.Beside W p q →
      Agree (Progress.Beside W) (present c p) (present c' q))
    {name : Bytes} (hname : names name) (h : p.Beside W q) :
    Agree (BesideToo W) (interpretVariable cb present name p)
      (interpretVariable cb' present name q) := by
  rw [interpretVariable, interpretVariable]
  obtain ⟨hsame, hlooked⟩ := h.lookup hcb hname
  generalize p.lookup cb name = x at hsame hlooked
  generalize q.lookup cb' name = y at hsame hlooked
  obtain ⟨lookup, p⟩ := x
  obtain ⟨_, q⟩ := y
  cases hsame
  cases lookup with
  | notFound => exact Agree.pure ⟨rfl, hlooked⟩
  | list object => exact Agree.pure ⟨rfl, hlooked⟩
  | stream object => exact Agree.pure ⟨rfl, hlooked⟩
  | invalid => exact Agree.pure ⟨rfl, hlooked⟩
  | string object =>
      refine (hlooked.callGet (hcb.stringGet object)).bind ?_
      rintro ⟨c, p⟩ ⟨c', q⟩ ⟨hc, hgot⟩
      refine (hpresent c c' p q hc hgot).bind ?_
      intro p q hshown
      rw [hcb.stringFree]
      refine (hshown.call _).bind ?_
      rintro ⟨freed, p⟩ ⟨_, q⟩ ⟨rfl, hfreed⟩
      exact Agree.pure ⟨rfl, hfreed⟩

variable (fns) in
theorem enterSection_beside (hcb : cb.Alike C names cb')
    (hempty : ∀ c c', C c c' → (cString c = [] ↔ cString c' = []))
    (lookup : Lookup ο) (h : p.Beside W q) :
    (enterSection fns cb lookup p).1 = (enterSection fns cb' lookup q).1 ∧
      BesideToo W (enterSection fns cb lookup p).2
        (enterSection fns cb' lookup q).2 := by
  cases lookup with
  | notFound => exact ⟨rfl, rfl, h⟩
  | invalid => exact ⟨rfl, rfl, h⟩
  | list object =>
      rw [enterSection, enterSection, hcb.listGet]
      obtain ⟨hfound, hcalled⟩ :=
        h.callOr ((cb'.listGet object).map fun get env => get env 0) false
      exact ⟨rfl, congrArg Bool.not hfound, hcalled⟩
  | string object =>
      obtain ⟨hstring, hgot⟩ := h.callOrGet (hcb.stringGet object)
      have hshown :
          ((p.callOr (cb.stringGet object) none).1.map cString).getD [] = [] ↔
            ((q.callOr (cb'.stringGet object) none).1.map cString).getD [] =
              [] := by
        generalize (p.callOr (cb.stringGet object) none).1 = c at hstring
        generalize (q.callOr (cb'.stringGet object) none).1 = c' at hstring
        cases hstring with
        | none => exact Iff.rfl
        | some hc => exact hempty _ _ hc
      rw [enterSection, enterSection, hcb.stringFree]
      obtain ⟨hfreed, hcalled⟩ := hgot.callOr (cb'.stringFree object) false
      dsimp only
      rw [hfreed]
      exact ⟨rfl, decide_eq_decide.mpr hshown, hcalled⟩
  | stream object =>
      rw [enterSection, enterSection, hcb.streamGet, hcb.streamFree]
      obtain ⟨hgot, hcalled⟩ := h.callOr (cb'.streamGet object) none
      obtain ⟨hfreed, hafter⟩ :=
        hcalled.callOr (cb'.streamFree object) false
      dsimp only
      rw [hgot, hfreed]
      exact ⟨rfl, rfl, hafter⟩

/-- The body of a section has been gone through on both sides. -/
abbrev LeftBeside (W : Bytes → Bytes → Prop) :
    (Int × Progress σ) ⊕ (Fault × Progress σ) →
      (Int × Progress σ) ⊕ (Fault × Progress σ) → Prop :=
  SumRel (BesideToo W) (BesideToo W)

theorem leaveSection_beside (hcb : cb.Alike C names cb') (type : LoopType)
    (lookup : Lookup ο) (index : Int) (h : p.Beside W q) :
    Agree (LeftBeside W) (leaveSection cb type lookup index p)
      (leaveSection cb' type lookup index q) := by
  cases lookup with
  | notFound => exact Agree.pure (.inr ⟨rfl, h⟩)
  | string object => exact Agree.pure (.inr ⟨rfl, h⟩)
  | stream object => exact Agree.pure (.inr ⟨rfl, h⟩)
  | invalid => exact Agree.pure (.inr ⟨rfl, h⟩)
  | list object =>
      have hnext : Agree (BesideToo W) (nextOf cb object type index p)
          (nextOf cb' object type index q) := by
        cases type with
        | loopElse => exact Agree.pure ⟨rfl, h⟩
        | loopWhile =>
            rw [nextOf, nextOf, hcb.listGet]
            exact h.call _
      refine hnext.bind ?_
      rintro ⟨found, p⟩ ⟨_, q⟩ ⟨rfl, hfound⟩
      rw [hcb.listClose]
      cases found with
      | true => exact Agree.pure (.inl ⟨rfl, hfound⟩)
      | false =>
          obtain ⟨hclosed, hcalled⟩ :=
            hfound.callOr (cb'.listClose object) false
          dsimp only
          rw [if_neg Bool.false_ne_true, if_neg Bool.false_ne_true, hclosed]
          exact Agree.pure (.inr ⟨rfl, hcalled⟩)

theorem andGoOn_beside {x y : Fault × Progress σ}
    {rest rest' : Progress σ → Proc (Fault × Progress σ)}
    (hxy : BesideToo W x y)
    (hrest : ∀ p q, Progress.Beside W p q →
      Agree (BesideToo W) (rest p) (rest' q)) :
    Agree (BesideToo W) (andGoOn x rest) (andGoOn y rest') := by
  obtain ⟨fault, p⟩ := x
  obtain ⟨_, q⟩ := y
  obtain ⟨rfl, h⟩ := hxy
  cases fault with
  | none => exact hrest p q h
  | some message => exact Agree.pure ⟨rfl, h⟩

theorem interpretSection_beside (hcb : cb.Alike C names cb')
    {body body' : Bool → Progress σ → Proc (Fault × Progress σ)}
    (hbody : ∀ hidden p q, Progress.Beside W p q →
      Agree (BesideToo W) (body hidden p) (body' hidden q))
    (hempty : ∀ c c', C c c' → (cString c = [] ↔ cString c' = []))
    (type : LoopType) {name : Bytes} (hname : names name)
    (h : p.Beside W q) :
    Agree (BesideToo W) (interpretSection fns cb body type name p)
      (interpretSection fns cb' body' type name q) := by
  rw [interpretSection, interpretSection, interpretOpening, interpretOpening]
  obtain ⟨hsame, hlooked⟩ := h.lookup hcb hname
  generalize p.lookup cb name = x at hsame hlooked
  generalize q.lookup cb' name = y at hsame hlooked
  obtain ⟨lookup, p⟩ := x
  obtain ⟨_, q⟩ := y
  cases hsame
  dsimp only
  obtain ⟨hentered, hunshown, hin⟩ :=
    enterSection_beside fns hcb hempty lookup hlooked
  rw [hentered, hunshown]
  split
  next => exact Agree.pure ⟨rfl, hin⟩
  next =>
    refine Agree.loop (R := BesideToo W) ?_ ⟨rfl, hin⟩
    rintro ⟨index, p⟩ ⟨_, q⟩ ⟨rfl, h⟩
    refine (hbody _ p q h).bind ?_
    rintro ⟨fault, p⟩ ⟨_, q⟩ ⟨rfl, h⟩
    cases fault with
    | none => exact leaveSection_beside hcb type lookup index h
    | some message => exact Agree.pure (.inr ⟨rfl, h⟩)

/-- Two interpretations of a template stay side by side. -/
theorem interpret_beside (hcb : cb.Alike C names cb') (template : Template)
    (hkeeps : ∀ tok ∈ template.tokens, tok.Keeps C W names) :
    ∀ hidden p q, Progress.Beside W p q →
      Agree (BesideToo W) (template.interpret fns cb hidden p)
        (template.interpret fns cb' hidden q) := by
  induction template with
  | nil => exact fun hidden p q h => Agree.pure ⟨rfl, h⟩
  | text c rest ih =>
      obtain ⟨hhead, htail⟩ := List.forall_mem_cons.mp hkeeps
      exact fun hidden p q h => ih htail hidden _ _ (h.write hhead hidden)
  | comment body rest ih =>
      obtain ⟨-, htail⟩ := List.forall_mem_cons.mp hkeeps
      exact ih htail
  | escaped name rest ih =>
      obtain ⟨⟨hname, hwrites⟩, htail⟩ := List.forall_mem_cons.mp hkeeps
      intro hidden p q h
      exact (interpretVariable_beside hcb (fun c c' p q hc h =>
        showEscaped_beside h hc hwrites hidden) hname h).bind
        fun x y hxy => andGoOn_beside hxy (ih htail hidden)
  | raw name rest ih =>
      obtain ⟨⟨hname, hwrites⟩, htail⟩ := List.forall_mem_cons.mp hkeeps
      intro hidden p q h
      exact (interpretVariable_beside hcb (fun c c' p q hc h =>
        showRaw_beside h hc hwrites hidden) hname h).bind
        fun x y hxy => andGoOn_beside hxy (ih htail hidden)
  | loop type name body rest ihb ihr =>
      obtain ⟨⟨hname, hempty⟩, htail⟩ := List.forall_mem_cons.mp hkeeps
      obtain ⟨hbody, hrest⟩ := List.forall_mem_append.mp htail
      obtain ⟨-, hrest⟩ := List.forall_mem_cons.mp hrest
      intro hidden p q h
      exact (interpretSection_beside hcb (fun unshown p q h =>
        ihb hbody (unshown || hidden) p q h) hempty type hname h).bind
        fun x y hxy => andGoOn_beside hxy (ihr hrest hidden)
  | inclusion name rest ih => exact fun hidden p q h => Agree.undefined

end

end Libcad
