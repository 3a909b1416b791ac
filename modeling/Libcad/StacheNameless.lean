/-
Tags without a name.  A variable tag with an empty name fails; a section or a
partial with an empty name looks it up all the same.
-/
import Libcad.StacheNames
import Libcad.StacheSteps
import Libcad.StacheTerminates

namespace Libcad

open Proc

variable {σ ο τ : Type}

/-- The tags that look up their names. -/
inductive NamingTag
  | raw
  | loopWhile
  | loopElse
  | inclusion
  | escape
deriving Repr, DecidableEq

/-- The tag that the byte after the opening delimiter makes. -/
def NamingTag.ofByte (c : UInt8) : Option NamingTag :=
  if c = ascii '{' then some .raw
  else if c = ascii '#' then some .loopWhile
  else if c = ascii '/' then none
  else if c = ascii '^' then some .loopElse
  else if c = ascii '=' then none
  else if c = ascii '!' then none
  else if c = ascii '>' then some .inclusion
  else some .escape

/-- What stands between the name and the closing delimiter. -/
def NamingTag.suffix : NamingTag → Option Bytes
  | .raw => some [ascii '}']
  | .loopWhile | .loopElse | .inclusion | .escape => none

/-- Where the name begins: a variable tag has no byte of its own. -/
def NamingTag.start (tag : NamingTag) (buffer : Buffer σ ο τ) :
    Buffer σ ο τ :=
  match tag with
  | .escape => { buffer with index := buffer.index - 1 }
  | .raw | .loopWhile | .loopElse | .inclusion => buffer

def NamingTag.Checks : NamingTag → Prop
  | .raw | .escape => True
  | .loopWhile | .loopElse | .inclusion => False

section

variable (fns : StreamFns τ) (cb : Callback σ ο τ)

def Buffer.Names (buffer : Buffer σ ο τ) (tag : NamingTag) (name : Bytes) :
    Prop :=
  bufferEof buffer = false ∧ ∃ opened c start block after,
    Returns (bufferLookAt fns cb buffer.openDelimiter buffer) (true, opened) ∧
    bufferEof opened = false ∧ Returns (bufferItem opened) c ∧
    NamingTag.ofByte c = some tag ∧
    Returns (bufferNext fns cb opened) (true, start) ∧
    Returns (parseName fns cb tag.suffix (tag.start start))
      (some block, after) ∧ block.string = name

end

variable {fns : StreamFns τ} {cb : Callback σ ο τ}
  {buffer after : Buffer (Noted σ) ο τ} {name : Bytes} {tag : NamingTag}

theorem noted_callEnv {β : Type} (f : Option (σ → β × σ)) (t : Noted σ) :
    (callEnv (f.map Noted.call) t).names = t.names := by
  cases f <;> rfl

theorem noting_got (lookup : Lookup ο) (t : Noted σ) :
    (lookup.got cb.noting t).names = t.names := by
  cases lookup with
  | string resolved => exact noted_callEnv _ t
  | stream resolved => exact noted_callEnv _ t
  | list resolved =>
      rw [Lookup.got, Callback.noting]
      dsimp only
      cases cb.listGet resolved <;> rfl
  | notFound => rfl
  | invalid => rfl

theorem noting_freed (lookup : Lookup ο) (t : Noted σ) :
    (lookup.freed cb.noting t).names = t.names := by
  cases lookup with
  | string resolved => exact noted_callEnv _ t
  | stream resolved => exact noted_callEnv _ t
  | list resolved => exact noted_callEnv _ t
  | notFound => rfl
  | invalid => rfl

theorem noting_opened (lookup : Lookup ο) (t : Noted σ) :
    (lookup.opened cb.noting t).names = t.names := by
  cases lookup with
  | list resolved => exact noting_got _ t
  | string resolved => exact (noting_freed _ _).trans (noting_got _ t)
  | stream resolved => exact (noting_freed _ _).trans (noting_got _ t)
  | notFound => rfl
  | invalid => rfl

theorem NextStep.names {before after : Buffer (Noted σ) ο τ}
    (h : NextStep cb.noting before after) :
    after.env.names = before.env.names := by
  cases h with
  | release => exact noting_freed _ _
  | ended | next | finish | input | stream | drop => rfl

theorem names_closed : ReadClosed fns cb.noting
    fun before after => after.env.names = before.env.names where
  refl _ := rfl
  trans hab hbc := hbc.trans hab
  next h := (bufferNext_step h).names
  back h := h

theorem AsksNext.names {resolved : ο} {loop : StacheLoop ο} {t t' : Noted σ}
    {found : Bool} (h : AsksNext cb.noting resolved loop t t' found) :
    t'.names = t.names := by
  cases h with
  | inverted => rfl
  | asked =>
      rw [askItem, Callback.noting]
      dsimp only
      cases cb.listGet resolved <;> rfl

theorem Includes.names {lookup : Lookup ο} {t t' : Noted σ} {found : Bool}
    (h : Includes cb.noting lookup t t' found) : t'.names = t.names := by
  cases h with
  | nothing => rfl
  | refuse => exact noting_freed _ _
  | found => exact noting_got _ _
  | empty => exact (noting_freed _ _).trans (noting_got _ _)

/-- A tag that came to a name: an empty one makes a variable tag fail, any
other one is looked up. -/
inductive LooksUp (tag : NamingTag) (name : Bytes) (names : List Bytes) :
    Bool × Buffer (Noted σ) ο τ → Prop
  | refused {after : Buffer (Noted σ) ο τ} :
      tag.Checks → name = [] → after.env.names = names →
        LooksUp tag name names (false, after)
  | asked {result : Bool} {after : Buffer (Noted σ) ο τ} :
      (tag.Checks → name ≠ []) → after.env.names = names ++ [name] →
        LooksUp tag name names (result, after)

theorem noting_asked {t : Noted σ} {lookup : Lookup ο} {t' : Noted σ}
    (h : cb.noting.resolve t name = (lookup, t')) :
    t'.names = t.names ++ [name] := by
  cases h
  rfl

theorem renderVariable_names {suffix : Option Bytes} {invalidName : String}
    {write : Option Bytes → Buffer (Noted σ) ο τ → Proc (Buffer (Noted σ) ο τ)}
    {block : NameBlock} {r : Bool × Buffer (Noted σ) ο τ} (hchecks : tag.Checks)
    (hwrite : OnlyWrites write)
    (hparse : Returns (parseName fns cb.noting suffix buffer)
      (some block, after))
    (h : Returns
      (renderVariable fns cb.noting suffix invalidName write buffer) r) :
    LooksUp tag block.string after.env.names r := by
  rw [renderVariable, hparse.bind_iff] at h
  dsimp only at h
  split at h
  next hempty =>
    cases returns_pure.mp h
    exact .refused hchecks hempty rfl
  next hsome =>
    obtain ⟨result, last⟩ := r
    refine .asked (fun _ => hsome) ?_
    rcases hresolve : cb.noting.resolve after.env block.string with ⟨lookup, t⟩
    rw [← noting_asked hresolve]
    rw [Buffer.resolve_eq hresolve] at h
    cases lookup with
    | string resolved =>
        obtain ⟨⟨c, got⟩, hget, h⟩ := returns_bind.mp h
        obtain ⟨written, hwritten, h⟩ := returns_bind.mp h
        obtain ⟨output, rfl⟩ := hwrite hwritten
        obtain ⟨get, hsomeGet, -, rfl⟩ := call_returns_some hget
        obtain ⟨⟨freed, called⟩, hcall, h⟩ := returns_bind.mp h
        obtain ⟨free, hfree, -, rfl⟩ := call_returns_some hcall
        have hnames : (callEnv (cb.noting.stringFree resolved)
            (callEnv (cb.noting.stringGet resolved) t)).names = t.names :=
          (noted_callEnv _ _).trans (noted_callEnv _ t)
        cases freed <;> cases returns_pure.mp h <;> exact hnames
    | notFound =>
        cases returns_pure.mp h
        rfl
    | list resolved =>
        cases returns_pure.mp h
        rfl
    | stream resolved =>
        cases returns_pure.mp h
        rfl
    | invalid =>
        cases returns_pure.mp h
        rfl

theorem renderStacheLoop_names {type : LoopType} {block : NameBlock}
    {r : Bool × Buffer (Noted σ) ο τ} (hchecks : ¬ tag.Checks)
    (hparse : Returns (parseName fns cb.noting none buffer) (some block, after))
    (h : Returns (renderStacheLoop fns cb.noting type buffer) r) :
    LooksUp tag block.string after.env.names r := by
  rw [renderStacheLoop, hparse.bind_iff] at h
  rcases hresolve : cb.noting.resolve after.env block.string with ⟨lookup, t⟩
  obtain ⟨result, empty, error, hopen, -⟩ :=
    openLoop_env fns cb.noting lookup (after.setEnv t)
  dsimp only at h
  rw [Buffer.resolve_eq hresolve] at h
  dsimp only at h
  rw [hopen] at h
  cases returns_pure.mp h
  refine .asked (fun hcheck => absurd hcheck hchecks) ?_
  exact (noting_opened lookup t).trans (noting_asked hresolve)

theorem renderStachePartial_names {start : Int} {block : NameBlock}
    {r : Bool × Buffer (Noted σ) ο τ} (hchecks : ¬ tag.Checks)
    (hparse : Returns (parseName fns cb.noting none buffer) (some block, after))
    (h : Returns (renderStachePartial fns cb.noting start buffer) r) :
    LooksUp tag block.string after.env.names r := by
  rw [renderStachePartial, hparse.bind_iff] at h
  rcases hresolve : cb.noting.resolve after.env block.string with ⟨lookup, t⟩
  dsimp only at h
  rw [Buffer.resolve_eq hresolve] at h
  obtain ⟨⟨result, stream, opened⟩, hopen, h⟩ := returns_bind.mp h
  obtain ⟨t', error, hincludes, rfl, -⟩ := openPartial_includes hopen
  obtain ⟨pushed, hpush, h⟩ := returns_bind.mp h
  obtain ⟨s, save, rfl⟩ := pushPartial_stacks hpush
  obtain ⟨⟨more, next⟩, hnext, h⟩ := returns_bind.mp h
  have hnames : next.env.names = after.env.names ++ [block.string] :=
    (names_closed.next hnext).trans
      (hincludes.names.trans (noting_asked hresolve))
  cases more <;> cases returns_pure.mp h <;>
    exact .asked (fun hcheck => absurd hcheck hchecks) hnames

theorem parse_names {suffix : Option Bytes} {block : Option NameBlock}
    (h : Returns (parseName fns cb.noting suffix buffer) (block, after)) :
    after.env.names = buffer.env.names := by
  obtain ⟨skipped, hskip, h⟩ := returns_bind.mp h
  obtain ⟨⟨result, read⟩, hloop, h⟩ := returns_bind.mp h
  have hread := names_closed.parseLoop hskip hloop
  cases result <;> cases returns_pure.mp h <;> exact hread

theorem endList_names {resolved : ο} {loop : StacheLoop ο}
    {loops : List (StacheLoop ο)} {r : Bool × Buffer (Noted σ) ο τ}
    (h : Returns (endList cb.noting resolved loop loops buffer) r) :
    r.2.env.names = buffer.env.names := by
  obtain ⟨⟨found, asked⟩, hnext, h⟩ := returns_bind.mp h
  have hnext : Returns (listNext cb.noting resolved loop.next.loopIndex
      { buffer with loops := loop.next :: loops } loop.type) (found, asked) :=
    hnext
  obtain ⟨t, rfl, hasks⟩ := listNext_asks hnext
  cases found with
  | true =>
      cases returns_pure.mp h
      exact hasks.names
  | false =>
      have hclosed : (callEnv (cb.noting.listClose resolved) t).names =
          buffer.env.names := (noted_callEnv _ t).trans hasks.names
      obtain ⟨closed, hcalled, -⟩ := callOr_release
        ({ buffer with loops := loop.next :: loops }.setEnv t)
        (cb.noting.listClose resolved)
      dsimp only at h
      rw [if_neg Bool.false_ne_true, hcalled] at h
      cases closed <;> cases returns_pure.mp h <;> exact hclosed

theorem renderStacheEnd_names {r : Bool × Buffer (Noted σ) ο τ}
    (h : Returns (renderStacheEnd fns cb.noting buffer) r) :
    r.2.env.names = buffer.env.names := by
  obtain ⟨⟨block, parsed⟩, hparse, h⟩ := returns_bind.mp h
  rw [← parse_names hparse]
  cases block with
  | none =>
      cases returns_pure.mp h
      rfl
  | some block =>
      dsimp only at h
      split at h
      next =>
        cases returns_pure.mp h
        rfl
      next =>
        split at h
        next =>
          cases returns_pure.mp h
          rfl
        next =>
          split at h
          case h_4 => exact endList_names h
          all_goals
            cases returns_pure.mp h
            rfl

theorem renderStacheDelimiters_names {r : Bool × Buffer (Noted σ) ο τ}
    (h : Returns (renderStacheDelimiters fns cb.noting buffer) r) :
    r.2.env.names = buffer.env.names := by
  obtain ⟨⟨block, parsed⟩, hparse, h⟩ := returns_bind.mp h
  rw [← parse_names hparse]
  cases block with
  | none =>
      cases returns_pure.mp h
      rfl
  | some block =>
      obtain ⟨scanned, -, h⟩ := returns_bind.mp h
      cases scanned <;> cases returns_pure.mp h <;> rfl

def NamingTag.render (fns : StreamFns τ) (cb : Callback σ ο τ) (start : Int)
    (buffer : Buffer σ ο τ) : NamingTag → Proc (Bool × Buffer σ ο τ)
  | .raw => renderStacheRaw fns cb buffer
  | .loopWhile => renderStacheWhile fns cb buffer
  | .loopElse => renderStacheElse fns cb buffer
  | .inclusion => renderStachePartial fns cb start buffer
  | .escape => renderStacheEscape fns cb buffer

def renderUnnamed (fns : StreamFns τ) (cb : Callback σ ο τ) (c : UInt8)
    (buffer : Buffer σ ο τ) : Proc (Bool × Buffer σ ο τ) :=
  if c = ascii '/' then renderStacheEnd fns cb buffer
  else if c = ascii '=' then renderStacheDelimiters fns cb buffer
  else renderStacheComment fns cb buffer

theorem renderTag_eq (fns : StreamFns τ) (cb : Callback σ ο τ) (start : Int)
    (c : UInt8) (buffer : Buffer σ ο τ) :
    renderTag fns cb start c buffer =
      match NamingTag.ofByte c with
      | some tag => tag.render fns cb start (tag.start buffer)
      | none => renderUnnamed fns cb c buffer := by
  rw [renderTag, NamingTag.ofByte, renderUnnamed]
  split_ifs <;> rfl

theorem NamingTag.start_env (tag : NamingTag) (buffer : Buffer σ ο τ) :
    (tag.start buffer).env = buffer.env := by
  cases tag <;> rfl

theorem NamingTag.render_parses {cb : Callback σ ο τ} {start : Int}
    {buffer : Buffer σ ο τ} {r : Bool × Buffer σ ο τ}
    (h : Returns (tag.render fns cb start buffer) r) :
    ∃ block after,
      Returns (parseName fns cb tag.suffix buffer) (block, after) := by
  cases tag <;> obtain ⟨⟨block, after⟩, hparse, -⟩ := returns_bind.mp h <;>
    exact ⟨block, after, hparse⟩

/-- A tag that looks up its name, once the name is read. -/
theorem NamingTag.render_names {start : Int} {block : NameBlock}
    {r : Bool × Buffer (Noted σ) ο τ}
    (hparse : Returns (parseName fns cb.noting tag.suffix buffer)
      (some block, after))
    (h : Returns (tag.render fns cb.noting start buffer) r) :
    LooksUp tag block.string after.env.names r := by
  cases tag <;> simp only [NamingTag.render, NamingTag.suffix] at h hparse
  case raw => exact renderVariable_names trivial writeRaw_only hparse h
  case escape => exact renderVariable_names trivial writeEscaped_only hparse h
  case loopWhile => exact renderStacheLoop_names not_false hparse h
  case loopElse => exact renderStacheLoop_names not_false hparse h
  case inclusion => exact renderStachePartial_names not_false hparse h

theorem NamingTag.render_silent {start : Int} {r : Bool × Buffer (Noted σ) ο τ}
    (hparse : Returns (parseName fns cb.noting tag.suffix buffer)
      (none, after))
    (h : Returns (tag.render fns cb.noting start buffer) r) :
    r.2.env.names = after.env.names := by
  have hignored : r = (true, after) := by
    cases tag <;> simp only [NamingTag.render, NamingTag.suffix] at h hparse
    case raw =>
      rw [renderStacheRaw, renderVariable, hparse.bind_iff] at h
      exact (returns_pure.mp h).symm
    case escape =>
      rw [renderStacheEscape, renderVariable, hparse.bind_iff] at h
      exact (returns_pure.mp h).symm
    case loopWhile =>
      rw [renderStacheWhile, renderStacheLoop, hparse.bind_iff] at h
      exact (returns_pure.mp h).symm
    case loopElse =>
      rw [renderStacheElse, renderStacheLoop, hparse.bind_iff] at h
      exact (returns_pure.mp h).symm
    case inclusion =>
      rw [renderStachePartial, hparse.bind_iff] at h
      exact (returns_pure.mp h).symm
  rw [hignored]

theorem renderUnnamed_names {c : UInt8} {r : Bool × Buffer (Noted σ) ο τ}
    (h : Returns (renderUnnamed fns cb.noting c buffer) r) :
    r.2.env.names = buffer.env.names := by
  rw [renderUnnamed] at h
  split at h
  next => exact renderStacheEnd_names h
  next =>
    split at h
    next => exact renderStacheDelimiters_names h
    next => exact names_closed.comment h

/-- The buffer an iteration of `render_template` leaves. -/
def stepBuffer : Buffer σ ο τ ⊕ (Bool × Buffer σ ο τ) → Buffer σ ο τ :=
  Sum.elim id Prod.snd

theorem stepBuffer_outcome (r : Bool × Buffer σ ο τ) :
    stepBuffer (if r.1 then .inl r.2 else .inr (false, r.2)) = r.2 := by
  cases r.1 <;> rfl

/-- What an iteration does at a tag with this name. -/
theorem renderStep_named
    {o : Buffer (Noted σ) ο τ ⊕ (Bool × Buffer (Noted σ) ο τ)}
    (hname : buffer.Names fns cb.noting tag name)
    (h : Returns (renderStep fns cb.noting buffer) o) :
    ∃ r, LooksUp tag name buffer.env.names r ∧
      o = if r.1 then .inl r.2 else .inr (false, r.2) := by
  obtain ⟨hbuffer, opened, c, start, block, after, hlook, hopened, hitem, hc,
    hnext, hparse, rfl⟩ := hname
  have htag : buffer.TagAt fns cb.noting c start :=
    ⟨hbuffer, opened, hlook, hopened, hitem, hnext⟩
  obtain ⟨r, hr, ho⟩ := htag.step h
  refine ⟨r, ?_, ho⟩
  rw [renderTag_eq, hc] at hr
  have hnames : after.env.names = buffer.env.names := by
    rw [parse_names hparse, NamingTag.start_env, names_closed.next hnext,
      names_closed.lookAt hlook]
  exact hnames ▸ NamingTag.render_names hparse hr

/-- An iteration looks up nothing, or stands at a tag with a name. -/
theorem renderStep_silent
    {o : Buffer (Noted σ) ο τ ⊕ (Bool × Buffer (Noted σ) ο τ)}
    (h : Returns (renderStep fns cb.noting buffer) o) :
    (stepBuffer o).env.names = buffer.env.names ∨
      ∃ tag name, buffer.Names fns cb.noting tag name := by
  rcases renderStep_cases h with ⟨-, rfl⟩ |
    ⟨-, looked, output, ⟨more, after⟩, hlook, hnext, rfl⟩ | ⟨c, start, htag⟩ |
    ⟨last, ⟨-, opened, hlook, hcut⟩, rfl⟩
  · exact Or.inl rfl
  · have hread := names_closed.next hnext
    rw [iterated, stepBuffer_outcome, ← names_closed.lookAt hlook]
    exact Or.inl hread
  · obtain ⟨r, hr, rfl⟩ := htag.step h
    obtain ⟨hbuffer, opened, hlook, hopened, hitem, hnext⟩ := htag
    rw [iterated, stepBuffer_outcome, ← names_closed.lookAt hlook,
      ← names_closed.next hnext]
    rw [renderTag_eq] at hr
    cases hc : NamingTag.ofByte c with
    | none =>
        rw [hc] at hr
        exact Or.inl (renderUnnamed_names hr)
    | some tag =>
        rw [hc] at hr
        obtain ⟨block, after, hparse⟩ := NamingTag.render_parses hr
        cases block with
        | none =>
            rw [NamingTag.render_silent hparse hr, parse_names hparse,
              NamingTag.start_env]
            exact Or.inl rfl
        | some block =>
            exact Or.inr ⟨tag, block.string, hbuffer, opened, c, start, block,
              after, hlook, hopened, hitem, hc, hnext, hparse, rfl⟩
  · rw [← names_closed.lookAt hlook]
    rcases hcut with ⟨-, rfl⟩ | ⟨-, -, hnext⟩
    · exact Or.inl rfl
    · have hread := names_closed.next hnext
      exact Or.inl hread

def Buffer.AsksNameless (fns : StreamFns τ) (cb : Callback σ ο τ)
    (buffer : Buffer σ ο τ) : Prop :=
  ∃ tag : NamingTag, ¬ tag.Checks ∧ buffer.Names fns cb tag []

theorem renderStep_keeps_names
    {o : Buffer (Noted σ) ο τ ⊕ (Bool × Buffer (Noted σ) ο τ)}
    (h : Returns (renderStep fns cb.noting buffer) o) :
    buffer.env.names ⊆ (stepBuffer o).env.names := by
  rcases renderStep_silent h with hsilent | ⟨tag, name, hname⟩
  · rw [hsilent]
    exact List.Subset.refl _
  · obtain ⟨r, hlooks, rfl⟩ := renderStep_named hname h
    rw [stepBuffer_outcome]
    cases hlooks with
    | refused _ _ hnames =>
        rw [hnames]
        exact List.Subset.refl _
    | asked _ hnames =>
        rw [hnames]
        exact List.subset_append_left _ _

/-- Only an unchecked tag without a name adds an empty name. -/
theorem renderStep_asks_named
    {o : Buffer (Noted σ) ο τ ⊕ (Bool × Buffer (Noted σ) ο τ)}
    (hstep : ¬ buffer.AsksNameless fns cb.noting)
    (hnamed : [] ∉ buffer.env.names)
    (h : Returns (renderStep fns cb.noting buffer) o) :
    [] ∉ (stepBuffer o).env.names := by
  rcases renderStep_silent h with hsilent | ⟨tag, name, hname⟩
  · rwa [hsilent]
  · obtain ⟨r, hlooks, rfl⟩ := renderStep_named hname h
    rw [stepBuffer_outcome]
    cases hlooks with
    | refused _ _ hnames => rwa [hnames]
    | asked hchecked hnames =>
        dsimp only
        rw [hnames]
        intro hmem
        rcases List.mem_append.mp hmem with hold | hnew
        · exact hnamed hold
        · cases List.mem_singleton.mp hnew
          exact hstep ⟨tag, fun hchecks => hchecked hchecks rfl, hname⟩

theorem renderStep_asks_nameless
    {o : Buffer (Noted σ) ο τ ⊕ (Bool × Buffer (Noted σ) ο τ)}
    (hstep : buffer.AsksNameless fns cb.noting)
    (h : Returns (renderStep fns cb.noting buffer) o) :
    [] ∈ (stepBuffer o).env.names := by
  obtain ⟨tag, hchecks, hname⟩ := hstep
  obtain ⟨r, hlooks, rfl⟩ := renderStep_named hname h
  rw [stepBuffer_outcome]
  cases hlooks with
  | refused hchecked => exact absurd hchecked hchecks
  | asked _ hnames =>
      dsimp only
      rw [hnames]
      exact List.mem_append_right _ (List.mem_singleton_self [])

/-- A checked tag without a name ends the rendering. -/
theorem renderStep_refuses
    {o : Buffer (Noted σ) ο τ ⊕ (Bool × Buffer (Noted σ) ο τ)}
    (hchecks : tag.Checks) (hname : buffer.Names fns cb.noting tag [])
    (h : Returns (renderStep fns cb.noting buffer) o) :
    ∃ after, o = .inr (false, after) := by
  obtain ⟨r, hlooks, rfl⟩ := renderStep_named hname h
  cases hlooks with
  | refused => exact ⟨_, rfl⟩
  | asked hchecked => exact absurd rfl (hchecked hchecks)

section

variable {env : Noted σ} {input : InputStream τ} {data : Int → UInt8}
  {r : Rendered (Noted σ)}

/-- The names noted at a state are noted to the end. -/
theorem Rendering.names_subset
    (h : Rendering fns cb.noting env input data buffer)
    (hr : Returns (render fns cb.noting env input data) r) :
    buffer.env.names ⊆ r.env.names := by
  obtain ⟨result, last, htemplate, rfl⟩ := h.returns hr
  refine Returns.loop_ensures
    (I := fun b : Buffer (Noted σ) ο τ => buffer.env.names ⊆ b.env.names)
    (Q := fun r : Bool × Buffer (Noted σ) ο τ =>
      buffer.env.names ⊆ r.2.env.names) ?_ (List.Subset.refl _) htemplate
  intro b o hb hstep
  have hnext := List.Subset.trans hb (renderStep_keeps_names hstep)
  cases o with
  | inl b' => exact hnext
  | inr r => exact hnext

/-- The state after a state of a rendering that returned. -/
theorem Rendering.steps
    (h : Rendering fns cb.noting env input data buffer)
    (hr : Returns (render fns cb.noting env input data) r) :
    ∃ o, Returns (renderStep fns cb.noting buffer) o ∧
      (stepBuffer o).env.names ⊆ r.env.names ∧
      (∀ after, o = .inr (false, after) → r.code = -1) := by
  obtain ⟨result, last, htemplate, hlast⟩ := h.returns hr
  rcases returns_loop_iff.mp htemplate with ⟨next, hstep, -⟩ | hstep
  · refine ⟨.inl next, hstep, (h.next hstep).names_subset hr, ?_⟩
    rintro after heq
    cases heq
  · refine ⟨.inr (result, last), hstep, ?_, ?_⟩
    · rw [hlast]
      exact List.Subset.refl _
    · rintro after heq
      cases heq
      rw [hlast]
      rfl

/-- As long as every section and every partial met has a name, no empty name
is looked up. -/
theorem Rendering.asks_named
    (hnamed : ∀ b, Rendering fns cb.noting env input data b →
      ¬ b.AsksNameless fns cb.noting)
    (henv : [] ∉ env.names)
    (h : Rendering fns cb.noting env input data buffer) :
    [] ∉ buffer.env.names := by
  obtain ⟨first, hfirst, hreach⟩ := h
  have hstart : [] ∉ first.env.names := by
    rwa [names_closed.next hfirst]
  refine (hreach.invariant
    (I := fun b : Buffer (Noted σ) ο τ =>
      Rendering fns cb.noting env input data b ∧ [] ∉ b.env.names) ?_
    ⟨⟨first, hfirst, Reaches.refl first⟩, hstart⟩).2
  rintro b b' ⟨hb, hnames⟩ hstep
  exact ⟨hb.next hstep, renderStep_asks_named (hnamed b hb) hnames hstep⟩

end

/-- No empty name is looked up, and a tag with an empty name fails. -/
def LooksUpNamed (fns : StreamFns τ) (cb : Callback σ ο τ) (env : σ)
    (input : InputStream τ) (data : Int → UInt8) (r : Rendered (Noted σ)) :
    Prop :=
  [] ∉ r.env.names ∧
    ∀ buffer, Rendering fns cb.noting ⟨env, []⟩ input data buffer →
      ∀ tag, buffer.Names fns cb.noting tag [] → r.code = -1

/-- A rendering looks up no empty name exactly when it meets no section and no
partial without a name. -/
theorem lookups_named_iff (fns : StreamFns τ) (cb : Callback σ ο τ) (env : σ)
    (input : InputStream τ) (data : Int → UInt8) :
    (∀ r, Returns (render fns cb.noting ⟨env, []⟩ input data) r →
      (LooksUpNamed fns cb env input data r ↔
        ∀ buffer, Rendering fns cb.noting ⟨env, []⟩ input data buffer →
          ¬ buffer.AsksNameless fns cb.noting)) ∧
    ((∀ buffer, Rendering fns cb.noting ⟨env, []⟩ input data buffer →
        ¬ buffer.AsksNameless fns cb.noting) →
      ∀ buffer, Rendering fns cb.noting ⟨env, []⟩ input data buffer →
        [] ∉ buffer.env.names) := by
  refine ⟨fun r hr => ⟨?_, ?_⟩, fun hnamed buffer hbuffer =>
    hbuffer.asks_named hnamed List.not_mem_nil⟩
  · rintro ⟨hnames, -⟩ buffer hbuffer hasks
    obtain ⟨o, hstep, hsubset, -⟩ := hbuffer.steps hr
    exact hnames (hsubset (renderStep_asks_nameless hasks hstep))
  · intro hnamed
    refine ⟨?_, ?_⟩
    · obtain ⟨before, result, last, hbefore, hstep, rfl⟩ := rendered_leaves hr
      exact renderStep_asks_named (hnamed before hbefore)
        (hbefore.asks_named hnamed List.not_mem_nil) hstep
    · intro buffer hbuffer tag hname
      obtain ⟨o, hstep, -, hfails⟩ := hbuffer.steps hr
      by_cases hchecks : tag.Checks
      · obtain ⟨after, rfl⟩ := renderStep_refuses hchecks hname hstep
        exact hfails after rfl
      · exact absurd ⟨tag, hchecks, hname⟩ (hnamed buffer hbuffer)

/-- A section without a name looks it up, and the rendering succeeds. -/
theorem nameless_section_looked_up :
    ∃ r, Returns (render noStreams (answering oneName).noting ⟨[], []⟩
        (newInputStreamFromString (chars "{{#}}x{{/}}.")) fun _ => 0) r ∧
      r.env.names = [[]] ∧ r.code = 0 ∧
      ¬ LooksUpNamed noStreams (answering oneName) []
        (newInputStreamFromString (chars "{{#}}x{{/}}.")) (fun _ => 0) r := by
  refine ⟨_, ⟨30, rfl⟩, rfl, rfl, ?_⟩
  rintro ⟨hnames, -⟩
  exact hnames (List.mem_singleton_self [])

end Libcad
