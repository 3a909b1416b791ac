/-
The engine does what the interpreter of templates does.  It is compared with
what is left of the interpretation, one token at a time: the sections that are
open are the loops the interpreter is in, and a list section goes back to its
first token where the interpreter goes around again.
-/
import Libcad.StacheBlanks
import Libcad.StacheInterpreter
import Libcad.Weaving

namespace Libcad

open Proc

variable {σ ο τ : Type}

/-- The engine stands at a token, has these sections open, and has done what
the interpreter has done. -/
structure Plays (fns : StreamFns τ) (cb : Callback σ ο τ) (toks : List Token)
    (pos frontier : Nat) (loops : List (StacheLoop ο)) (p : Progress σ)
    (buffer : Buffer σ ο τ) : Prop where
  stands : StandsAt fns cb toks pos frontier buffer
  partials : buffer.partials = []
  loops : buffer.loops = loops
  env : buffer.env = p.env
  output : buffer.output = p.output

/-- What is hidden under the open sections. -/
abbrev hiddenBy (loops : List (StacheLoop ο)) : Bool :=
  loops.any StacheLoop.skips

/-- What is wrong once the engine has stopped. -/
def faultOf (r : Bool × Buffer σ ο τ) : Fault :=
  if r.1 then if r.2.loops = [] then none else some "Unfinished loops"
  else some r.2.error

/-- The engine stops with what the interpreter has come to. -/
structure StopsAs (r : Bool × Buffer σ ο τ) (t : Fault × Progress σ) :
    Prop where
  fault : faultOf r = t.1
  env : r.2.env = t.2.env
  output : r.2.output = t.2.output

/-- A tag has been dealt with, and so has what it stands for. -/
inductive TagsAs (fns : StreamFns τ) (cb : Callback σ ο τ) (toks : List Token)
    (pos frontier : Nat) (loops : List (StacheLoop ο)) :
    Bool × Buffer σ ο τ → Fault × Progress σ → Prop
  | goes {a p} : Plays fns cb toks pos frontier loops p a →
      TagsAs fns cb toks pos frontier loops (true, a) (none, p)
  | fails {a p} : a.env = p.env → a.output = p.output →
      TagsAs fns cb toks pos frontier loops (false, a) (some a.error, p)

/-- A closing tag has been dealt with: the engine has gone back to the first
token of the section for the next item, or has left it. -/
inductive ClosesAs (fns : StreamFns τ) (cb : Callback σ ο τ)
    (toks : List Token) (mark pos frontier : Nat)
    (again : Int → StacheLoop ο) (loops : List (StacheLoop ο)) :
    Bool × Buffer σ ο τ → (Int × Progress σ) ⊕ (Fault × Progress σ) → Prop
  | again {a p index} :
      Plays fns cb toks mark frontier (again index :: loops) p a →
      ClosesAs fns cb toks mark pos frontier again loops (true, a)
        (.inl (index, p))
  | leaves {a p} : Plays fns cb toks pos frontier loops p a →
      ClosesAs fns cb toks mark pos frontier again loops (true, a)
        (.inr (none, p))
  | fails {a p} : a.env = p.env → a.output = p.output →
      ClosesAs fns cb toks mark pos frontier again loops (false, a)
        (.inr (some a.error, p))

/-- The state behind the callback becomes the same. -/
inductive CallsAs {β : Type} (a : Buffer σ ο τ) (p : Progress σ) :
    β × Buffer σ ο τ → β × Progress σ → Prop
  | mk (result : β) (env : σ) :
      CallsAs a p (result, a.setEnv env) (result, { p with env := env })

section

variable {fns : StreamFns τ} {cb : Callback σ ο τ} {toks : List Token}
  {pos frontier : Nat} {loops : List (StacheLoop ο)} {p : Progress σ}
  {a b start : Buffer σ ο τ} {block : NameBlock} {name : Bytes}

theorem Plays.cross (h : Plays fns cb toks pos frontier loops p a)
    (hcross : Crosses fns cb toks pos frontier a b) :
    Plays fns cb toks (pos + 1) (max frontier (pos + 1)) loops p b := by
  have hincluded := (hcross.reads _ fetches_closed).of_nil h.partials
  exact ⟨hcross.stands, (congrArg Prod.snd hincluded).trans h.partials,
    hcross.frame.loops.trans h.loops,
    (congrArg Prod.fst hincluded).trans h.env,
    hcross.frame.output.trans h.output⟩

theorem Plays.setEnv (h : Plays fns cb toks pos frontier loops p a) (env : σ) :
    Plays fns cb toks pos frontier loops { p with env := env }
      (a.setEnv env) :=
  ⟨h.stands.congr rfl rfl rfl rfl rfl rfl rfl rfl rfl, h.partials, h.loops,
    rfl, h.output⟩

theorem Plays.skips (h : Plays fns cb toks pos frontier loops p a) :
    bufferSkipOutput a = hiddenBy loops := by
  rw [bufferSkipOutput, h.loops]

theorem Plays.writes (h : Plays fns cb toks pos frontier loops p a)
    (text : Bytes) :
    Plays fns cb toks pos frontier loops (p.write (hiddenBy loops) text)
      (bufferOutput a text) := by
  rw [bufferOutput, h.skips, Progress.write]
  split
  next => exact h
  next =>
    exact ⟨h.stands.congr rfl rfl rfl rfl rfl rfl rfl rfl rfl, h.partials,
      h.loops, h.env, congrArg (· ++ text) h.output⟩

theorem call_as {β : Type} (henv : a.env = p.env) (f : Option (σ → β × σ)) :
    Agree (CallsAs a p) (a.call f) (p.call f) := by
  cases f with
  | none => exact Agree.undefined
  | some f =>
      rw [Buffer.call, Progress.call, henv]
      exact Agree.pure (.mk _ _)

theorem callOr_as {β : Type} (henv : a.env = p.env) (f : Option (σ → β × σ))
    (default : β) :
    ∃ result env, a.callOr f default = (result, a.setEnv env) ∧
      p.callOr f default = (result, { p with env := env }) := by
  cases f with
  | none =>
      refine ⟨default, a.env, rfl, ?_⟩
      rw [henv]
      rfl
  | some f =>
      rw [Buffer.callOr, Progress.callOr, henv]
      exact ⟨_, _, rfl, rfl⟩

/-- A tag and what it stands for, before what is left of both. -/
theorem woven_tag {γ : Type} {R : Bool × Buffer σ ο τ → γ → Prop}
    {x : Proc (Bool × Buffer σ ο τ)} {y : Proc γ}
    {f : γ → Proc (Fault × Progress σ)} {mode : Mode}
    (hx : ∀ o, Returns (renderStep fns cb b) o ↔
      Returns (x >>= fun r => pure (stepOutcome r)) o)
    (h : Agree R x y)
    (hnext : ∀ a c, R (true, a) c → ∀ mode', mode.Later mode' →
      Woven (renderStep fns cb) StopsAs mode' a (f c))
    (hexit : ∀ a c, R (false, a) c →
      ∃ t, Returns (f c) t ∧ StopsAs (false, a) t) :
    Woven (renderStep fns cb) StopsAs mode b (y >>= f) := by
  have hstep : Agree (fun o c => ∃ r, o = stepOutcome r ∧ R r c)
      (renderStep fns cb b) y :=
    Agree.congr_left hx (h.map_left fun r c hr => ⟨r, rfl, hr⟩)
  refine Woven.step hstep ?_ ?_
  · rintro a c ⟨⟨_ | _, a'⟩, ho, hr⟩ mode' hlater
    · cases ho
    · cases ho
      exact hnext a' c hr mode' hlater
  · rintro r c ⟨⟨_ | _, a'⟩, ho, hr⟩
    · cases ho
      exact hexit a' c hr
    · cases ho

theorem writeRaw_as (h : Plays fns cb toks pos frontier loops p a)
    (c : Option Bytes) :
    Agree (fun a p => Plays fns cb toks pos frontier loops p a) (writeRaw c a)
      (showRaw (hiddenBy loops) c p) := by
  rw [writeRaw.eq_def, showRaw.eq_def, h.skips]
  split
  next => exact Agree.pure h
  next =>
    cases c with
    | none => exact Agree.undefined
    | some c => exact Agree.pure (h.writes _)

theorem Progress.write_append (p : Progress σ) (hidden : Bool)
    (text more : Bytes) :
    (p.write hidden text).write hidden more = p.write hidden (text ++ more) := by
  cases hidden with
  | true => rfl
  | false =>
      simp only [Progress.write, Bool.false_eq_true, if_false,
        List.append_assoc]

theorem writeEscaped_as (h : Plays fns cb toks pos frontier loops p a)
    (c : Option Bytes) :
    Agree (fun a p => Plays fns cb toks pos frontier loops p a)
      (writeEscaped c a) (showEscaped (hiddenBy loops) c p) := by
  cases c with
  | none => exact Agree.undefined
  | some c =>
      apply Agree.pure
      induction cString c generalizing a p with
      | nil =>
          have hnil : p.write (hiddenBy loops) [] = p := by
            rw [Progress.write, List.append_nil, ite_self]
          rw [List.flatMap_nil, hnil]
          exact h
      | cons byte text ih =>
          rw [List.flatMap_cons, ← Progress.write_append]
          exact ih (h.writes (escapeChar byte))

theorem renderVariable_as (h : Plays fns cb toks pos frontier loops p a)
    {suffix : Option Bytes} {invalidName : String}
    {write : Option Bytes → Buffer σ ο τ → Proc (Buffer σ ο τ)}
    {present : Option Bytes → Progress σ → Proc (Progress σ)}
    (hwrite : ∀ c {a p}, Plays fns cb toks pos frontier loops p a →
      Agree (fun a p => Plays fns cb toks pos frontier loops p a) (write c a)
        (present c p))
    (hparse : Returns (parseName fns cb suffix start) (some block, a))
    (hblock : block.string = name) (hname : name ≠ []) :
    Agree (TagsAs fns cb toks pos frontier loops)
      (renderVariable fns cb suffix invalidName write start)
      (interpretVariable cb present name p) := by
  refine Agree.run_left hparse ?_
  dsimp only
  rw [hblock, if_neg hname, Buffer.resolve, interpretVariable,
    Progress.lookup, h.env]
  rcases cb.resolve p.env name with ⟨lookup, env⟩
  have hresolved := h.setEnv env
  cases lookup with
  | notFound => exact Agree.pure (.goes hresolved)
  | list object => exact Agree.pure (.fails rfl h.output)
  | stream object => exact Agree.pure (.fails rfl h.output)
  | invalid => exact Agree.pure (.fails rfl h.output)
  | string object =>
      refine (call_as hresolved.env (cb.stringGet object)).bind ?_
      rintro _ _ ⟨c, env'⟩
      refine (hwrite c (hresolved.setEnv env')).bind ?_
      intro a p hwritten
      refine (call_as hwritten.env (cb.stringFree object)).bind ?_
      rintro _ _ ⟨freed, env''⟩
      cases freed with
      | true => exact Agree.pure (.goes (hwritten.setEnv env''))
      | false => exact Agree.pure (.fails rfl hwritten.output)

/-- A section is entered: the same value of `empty` and the same state, or the
same refusal. -/
inductive EntersAs (a : Buffer σ ο τ) (p : Progress σ) :
    Bool × Bool × Buffer σ ο τ → Fault × Bool × Progress σ → Prop
  | goes (empty : Bool) (env : σ) (error : String) :
      EntersAs a p (true, empty, { a with env := env, error := error })
        (none, empty, { p with env := env })
  | fails (empty empty' : Bool) (env : σ) (error : String) :
      EntersAs a p (false, empty, { a with env := env, error := error })
        (some error, empty', { p with env := env })

theorem readSection_eq (s : Option (InputStream τ)) (a : Buffer σ ο τ) :
    ∃ error, readSection fns s a = ((streamEmpty fns s).isSome,
        (streamEmpty fns s).getD false, { a with error := error }) ∧
      (streamEmpty fns s = none → error = "error while reading partial") := by
  rw [readSection]
  cases streamEmpty fns s with
  | none => exact ⟨_, rfl, fun _ => rfl⟩
  | some empty =>
      refine ⟨a.error, rfl, ?_⟩
      intro h
      cases h

theorem openLoop_as (henv : a.env = p.env) (lookup : Lookup ο) :
    EntersAs a p (openLoop fns cb lookup a) (enterSection fns cb lookup p) := by
  have hp : p = { p with env := a.env } := by rw [henv]
  cases lookup with
  | notFound =>
      rw [openLoop, enterSection, hp]
      exact .goes true a.env a.error
  | invalid =>
      rw [openLoop, enterSection, hp]
      exact .fails false false a.env "invalid type"
  | list object =>
      rw [openLoop, enterSection]
      obtain ⟨found, env, ha, hb⟩ := callOr_as henv
        ((cb.listGet object).map fun get env => get env 0) false
      rw [ha, hb]
      exact .goes (!found) env a.error
  | string object =>
      rw [openLoop, enterSection]
      obtain ⟨c, env, ha, hb⟩ := callOr_as henv (cb.stringGet object) none
      rw [ha, hb]
      dsimp only
      obtain ⟨freed, env', ha', hb'⟩ := @callOr_as σ ο τ { p with env := env }
        (a.setEnv env) Bool rfl (cb.stringFree object) false
      rw [releaseSection, ha', hb']
      cases freed with
      | true => exact .goes _ env' a.error
      | false => exact .fails _ _ env' "could not free string"
  | stream object =>
      rw [openLoop, enterSection]
      obtain ⟨s, env, ha, hb⟩ := callOr_as henv (cb.streamGet object) none
      rw [ha, hb]
      dsimp only
      obtain ⟨error, hread, hrefused⟩ :=
        @readSection_eq σ ο τ fns s (a.setEnv env)
      obtain ⟨freed, env', ha', hb'⟩ := @callOr_as σ ο τ { p with env := env }
        { a.setEnv env with error := error } Bool rfl (cb.streamFree object)
        false
      rw [hread, releaseSection, ha', hb']
      cases freed with
      | false => exact .fails _ _ env' "could not free partial"
      | true =>
          cases hempty : streamEmpty fns s with
          | some empty => exact .goes empty env' error
          | none =>
              rw [hrefused hempty]
              exact .fails false false env' "error while reading partial"

def sectionLoop (type : LoopType) (name : Bytes) (lookup : Lookup ο)
    (bufferIndex loopIndex : Int) (empty : Bool) : StacheLoop ο :=
  { type := type, name := name, lookup := lookup, bufferIndex := bufferIndex,
    loopIndex := loopIndex, empty := empty }

theorem renderStacheLoop_returns {type : LoopType} {lookup : Lookup ο}
    {env : σ} {result empty : Bool}
    (hparse : Returns (parseName fns cb none start) (some block, a))
    (hblock : block.string = name)
    (hresolve : cb.resolve a.env name = (lookup, env))
    (hopen : openLoop fns cb lookup (a.setEnv env) = (result, empty, b)) :
    Returns (renderStacheLoop fns cb type start)
      (result, { b with
        loops := sectionLoop type name lookup b.index 0 empty :: b.loops }) := by
  refine hparse.bind ?_
  dsimp only
  rw [hblock, Buffer.resolve, hresolve]
  dsimp only
  rw [hopen]
  exact returns_pure_self _

/-- An opening tag is refused, or the interpreter comes to its loop. -/
theorem renderLoop_as (h : Plays fns cb toks pos frontier loops p a)
    (type : LoopType)
    (hparse : Returns (parseName fns cb none start) (some block, a))
    (hblock : block.string = name) :
    (∃ lookup empty p' a', lookup ≠ .invalid ∧
      (∀ inside, interpretOpening fns cb name inside p =
        inside lookup empty p') ∧
      Returns (renderStacheLoop fns cb type start) (true, a') ∧
      Plays fns cb toks pos frontier
        (sectionLoop type name lookup (offset toks pos) 0 empty :: loops) p'
        a') ∨
    ∃ p' a', (∀ inside, interpretOpening fns cb name inside p =
        pure (some a'.error, p')) ∧
      Returns (renderStacheLoop fns cb type start) (false, a') ∧
      a'.env = p'.env ∧ a'.output = p'.output := by
  rcases hresolve : cb.resolve p.env name with ⟨lookup, env⟩
  have hresolved := h.setEnv env
  have hlooked : p.lookup cb name = (lookup, { p with env := env }) := by
    rw [Progress.lookup, hresolve]
  have henters : EntersAs (a.setEnv env) { p with env := env }
      (openLoop fns cb lookup (a.setEnv env))
      (enterSection fns cb lookup { p with env := env }) :=
    openLoop_as hresolved.env lookup
  have hvalid : lookup = .invalid →
      (openLoop fns cb lookup (a.setEnv env)).1 = false := by
    rintro rfl
    rfl
  rw [← h.env] at hresolve
  rcases hopen : openLoop fns cb lookup (a.setEnv env) with ⟨result, empty, b⟩
  rcases henter : enterSection fns cb lookup { p with env := env } with
    ⟨fault, empty', p'⟩
  have hreturns : Returns (renderStacheLoop fns cb type start) _ :=
    renderStacheLoop_returns hparse hblock hresolve hopen
  have hopening : ∀ inside, interpretOpening fns cb name inside p =
      if fault.isSome then pure (fault, p') else inside lookup empty' p' := by
    intro inside
    rw [interpretOpening, hlooked]
    dsimp only
    rw [henter]
  rw [hopen, henter] at henters
  rw [hopen] at hvalid
  cases henters with
  | goes empty env' error =>
      left
      refine ⟨lookup, empty, _, _, fun hinvalid => ?_, hopening, hreturns, ?_⟩
      · cases hvalid hinvalid
      · rw [← h.stands.index_eq]
        exact ⟨h.stands.congr rfl rfl rfl rfl rfl rfl rfl rfl rfl, h.partials,
          congrArg (_ :: ·) h.loops, rfl, h.output⟩
  | fails empty empty' env' error =>
      right
      refine ⟨⟨env', p.output⟩, _, fun inside => ?_, hreturns, rfl, h.output⟩
      rw [hopening]
      rfl

/-- An opening tag is one iteration of the engine. -/
theorem Plays.opening {type : LoopType}
    (h : Plays fns cb toks pos frontier loops p a)
    (hlive : frontier ≠ toks.length)
    (htok : toks[pos]? = some (.opening type name)) (hvalid : NameValid name) :
    (∃ lookup empty p' a', lookup ≠ .invalid ∧
      (∀ inside, interpretOpening fns cb name inside p =
        inside lookup empty p') ∧
      Returns (renderStep fns cb a) (.inl a') ∧
      Plays fns cb toks (pos + 1) (max frontier (pos + 1))
        (sectionLoop type name lookup (offset toks (pos + 1)) 0 empty :: loops)
        p' a') ∨
    ∃ p' a', (∀ inside, interpretOpening fns cb name inside p =
        pure (some a'.error, p')) ∧
      Returns (renderStep fns cb a) (.inr (false, a')) ∧
      a'.env = p'.env ∧ a'.output = p'.output := by
  have hbytes : (Token.opening type name).bytes = tagOpen ++
      type.sigil :: ([] ++ (name ++ nameEnd none)) := by
    simp [Token.bytes, nameEnd]
  obtain ⟨start, block, after, hparse, hname, hcross, hstep⟩ :=
    h.stands.reads_name hlive htok (Or.inl rfl) hbytes blanks_nil hvalid
  have htag : renderTag fns cb a.index type.sigil start =
      renderStacheLoop fns cb type start := by
    cases type <;> rfl
  rw [htag] at hstep
  rcases renderLoop_as (h.cross hcross) type hparse hname with
    ⟨lookup, empty, p', a', hlookup, hopening, hopens, hplays⟩ |
    ⟨p', a', hopening, hrefused, hstate⟩
  · exact Or.inl ⟨lookup, empty, p', a', hlookup, hopening,
      (hstep _).mpr (hopens.bind (returns_pure_self _)), hplays⟩
  · exact Or.inr ⟨p', a', hopening,
      (hstep _).mpr (hrefused.bind (returns_pure_self _)), hstate⟩

theorem endList_as {type : LoopType} {mark : Nat} {index : Int} {empty : Bool}
    {resolved : ο}
    (h : Plays fns cb toks pos frontier
      (sectionLoop type name (.list resolved) (offset toks mark) index empty ::
        loops) p a)
    (hmark : mark ≤ frontier) :
    Agree (ClosesAs fns cb toks mark pos frontier
        (fun index => sectionLoop type name (.list resolved)
          (offset toks mark) index empty) loops)
      (endList cb resolved
        (sectionLoop type name (.list resolved) (offset toks mark) index empty)
        loops a)
      (leaveSection cb type (.list resolved) index p) := by
  let again := fun index => sectionLoop type name (.list resolved)
    (offset toks mark) index empty
  have hnext : Plays fns cb toks pos frontier (again (index + 1) :: loops) p
      { a with loops := again (index + 1) :: loops } :=
    ⟨h.stands.congr rfl rfl rfl rfl rfl rfl rfl rfl rfl, h.partials, rfl,
      h.env, h.output⟩
  have hasked : Agree (CallsAs
        { a with loops := again (index + 1) :: loops } p)
      (listNext cb resolved (index + 1)
        { a with loops := again (index + 1) :: loops } type)
      (nextOf cb resolved type index p) := by
    cases type with
    | loopElse =>
        apply Agree.pure
        have hcalls := CallsAs.mk (a := { a with
          loops := again (index + 1) :: loops }) (p := p) false p.env
        have hsame : Buffer.setEnv
            { a with loops := again (index + 1) :: loops } p.env =
            { a with loops := again (index + 1) :: loops } := by
          rw [← h.env]
          rfl
        rw [hsame] at hcalls
        exact hcalls
    | loopWhile => exact call_as hnext.env _
  refine hasked.bind ?_
  rintro _ _ ⟨found, env⟩
  have hafter := hnext.setEnv env
  cases found with
  | true =>
      apply Agree.pure
      have hrewound := hafter.stands.rewind hmark
      exact .again ⟨hrewound, h.partials, rfl, rfl, h.output⟩
  | false =>
      dsimp only
      rw [if_neg Bool.false_ne_true, if_neg Bool.false_ne_true]
      obtain ⟨closed, env', ha, hb⟩ :=
        callOr_as hafter.env (cb.listClose resolved) false
      rw [ha, hb]
      apply Agree.pure
      cases closed with
      | false => exact .fails rfl h.output
      | true =>
          exact .leaves ⟨h.stands.congr rfl rfl rfl rfl rfl rfl rfl rfl rfl,
            h.partials, rfl, rfl, h.output⟩

theorem renderEnd_as {type : LoopType} {lookup : Lookup ο} {mark : Nat}
    {index : Int} {empty : Bool}
    (h : Plays fns cb toks pos frontier
      (sectionLoop type name lookup (offset toks mark) index empty :: loops)
      p a)
    (hlookup : lookup ≠ .invalid) (hmark : mark ≤ frontier)
    (hparse : Returns (parseName fns cb none start) (some block, a))
    (hblock : block.string = name) :
    Agree (ClosesAs fns cb toks mark pos frontier
        (fun index => sectionLoop type name lookup (offset toks mark) index
          empty) loops)
      (renderStacheEnd fns cb start) (leaveSection cb type lookup index p) := by
  have hleft : Plays fns cb toks pos frontier loops p
      { a with loops := loops } :=
    ⟨h.stands.congr rfl rfl rfl rfl rfl rfl rfl rfl rfl, h.partials, rfl,
      h.env, h.output⟩
  refine Agree.run_left hparse ?_
  dsimp only
  rw [h.loops, hblock]
  dsimp only
  rw [if_neg (fun hne => hne rfl)]
  cases lookup with
  | notFound | string object | stream object =>
      exact Agree.pure (.leaves hleft)
  | list resolved => exact endList_as h hmark
  | invalid => exact absurd rfl hlookup

/-- There is more to read after a token that is followed by something. -/
theorem live_after {rest : List Token} (hlive : frontier ≠ toks.length)
    (hdrop : toks.drop (pos + 1) = rest)
    (hrest : rest ≠ []) : max frontier (pos + 1) ≠ toks.length := by
  have hlt : pos + 1 < toks.length := by
    by_contra hge
    rw [List.drop_eq_nil_of_le (by omega)] at hdrop
    exact hrest hdrop.symm
  omega

theorem getElem?_of_drop {tok : Token} {rest : List Token}
    (h : toks.drop pos = tok :: rest) :
    toks[pos]? = some tok ∧ toks.drop (pos + 1) = rest := by
  constructor
  · rw [← List.head?_drop, h, List.head?_cons]
  · rw [← List.tail_drop, h, List.tail_cons]

theorem drop_after {part more : List Token}
    (h : toks.drop pos = part ++ more) :
    toks.drop (pos + part.length) = more := by
  rw [← List.drop_drop, h, List.drop_left]

def KeepsFault (f : Fault × Progress σ → Proc (Fault × Progress σ)) : Prop :=
  ∀ message p, Returns (f (some message, p)) (some message, p)

theorem KeepsFault.andGoOn {f : Fault × Progress σ → Proc (Fault × Progress σ)}
    (hfail : KeepsFault f) (rest : Progress σ → Proc (Fault × Progress σ))
    (message : String) (p : Progress σ) :
    Returns (andGoOn (some message, p) rest >>= f) (some message, p) :=
  Returns.bind (returns_pure_self _) (hfail message p)

/-- The engine goes through a template while the interpreter does, whatever is
left of both after it. -/
def Performs (fns : StreamFns τ) (cb : Callback σ ο τ) (toks : List Token)
    (template : Template) : Prop :=
  ∀ {pos frontier : Nat} {loops : List (StacheLoop ο)} {p : Progress σ}
    {a : Buffer σ ο τ} {more : List Token} {mode : Mode}
    {f : Fault × Progress σ → Proc (Fault × Progress σ)},
    toks.drop pos = template.tokens ++ more →
    template.Trails ∨ more ≠ [] →
    (template.tokens ++ more ≠ [] → frontier ≠ toks.length) →
    Plays fns cb toks pos frontier loops p a →
    (∀ mode', mode.To mode' → ∀ frontier' p' a', frontier ≤ frontier' →
      (more ≠ [] → frontier' ≠ toks.length) →
      Plays fns cb toks (pos + template.tokens.length) frontier' loops p' a' →
      Woven (renderStep fns cb) StopsAs mode' a' (f (none, p'))) →
    KeepsFault f →
    Woven (renderStep fns cb) StopsAs mode a
      (template.interpret fns cb (hiddenBy loops) p >>= f)

theorem performs_nil : Performs fns cb toks .nil := by
  intro pos frontier loops p a more mode f _ _ hlive h hgo _
  exact Woven.run (returns_pure_self _)
    (hgo mode Mode.To.refl frontier p a (Nat.le_refl _) hlive h)

/-- The rest of a template, after its first token. -/
theorem Performs.rest {rest : Template} {tok : Token} {more : List Token}
    {mode mode' : Mode} {f : Fault × Progress σ → Proc (Fault × Progress σ)}
    (hrest : Performs fns cb toks rest)
    (hdrop : toks.drop pos = tok :: (rest.tokens ++ more))
    (htrails : rest.Trails ∨ more ≠ []) (hlive : frontier ≠ toks.length)
    (hto : mode.To mode')
    (h : Plays fns cb toks (pos + 1) (max frontier (pos + 1)) loops p a)
    (hgo : ∀ mode', mode.To mode' → ∀ frontier' p' a', frontier ≤ frontier' →
      (more ≠ [] → frontier' ≠ toks.length) →
      Plays fns cb toks (pos + (rest.tokens.length + 1)) frontier' loops p' a' →
      Woven (renderStep fns cb) StopsAs mode' a' (f (none, p')))
    (hfail : KeepsFault f) :
    Woven (renderStep fns cb) StopsAs mode' a
      (rest.interpret fns cb (hiddenBy loops) p >>= f) := by
  obtain ⟨-, hafter⟩ := getElem?_of_drop hdrop
  refine hrest hafter htrails (live_after hlive hafter) h ?_ hfail
  intro mode'' hto' frontier' p' a' hle hmore hplays
  rw [Nat.add_assoc, Nat.add_comm 1] at hplays
  exact hgo mode'' (hto.trans hto') frontier' p' a'
    (Nat.le_trans (Nat.le_max_left _ _) hle) hmore hplays

theorem performs_text {c : UInt8} {rest : Template}
    (hvalid : (Token.text c).Valid) (hrest : Performs fns cb toks rest) :
    Performs fns cb toks (.text c rest) := by
  intro pos frontier loops p a more mode f hdrop htrails hlive h hgo hfail
  have hlive := hlive (List.cons_ne_nil _ _)
  obtain ⟨htok, -⟩ := getElem?_of_drop hdrop
  obtain ⟨after, hstep, hcross⟩ := h.stands.reads_text hlive htok hvalid.2
  refine Woven.next hstep fun mode' hlater => ?_
  exact hrest.rest hdrop htrails hlive hlater.to ((h.writes [c]).cross hcross)
    hgo hfail

theorem performs_comment {body : Bytes} {rest : Template}
    (hvalid : (Token.comment body).Valid) (hrest : Performs fns cb toks rest) :
    Performs fns cb toks (.comment body rest) := by
  intro pos frontier loops p a more mode f hdrop htrails hlive h hgo hfail
  have hlive := hlive (List.cons_ne_nil _ _)
  obtain ⟨htok, -⟩ := getElem?_of_drop hdrop
  obtain ⟨after, hstep, hcross⟩ := h.stands.reads_comment hlive htok hvalid.2
  refine Woven.next hstep fun mode' hlater => ?_
  exact hrest.rest hdrop htrails hlive hlater.to (h.cross hcross) hgo hfail

theorem Performs.variable {rest : Template} {tok : Token} {more : List Token}
    {mode : Mode} {f : Fault × Progress σ → Proc (Fault × Progress σ)}
    {x : Proc (Bool × Buffer σ ο τ)} {y : Proc (Fault × Progress σ)}
    (hrest : Performs fns cb toks rest)
    (hdrop : toks.drop pos = tok :: (rest.tokens ++ more))
    (htrails : rest.Trails ∨ more ≠ []) (hlive : frontier ≠ toks.length)
    (hx : ∀ o, Returns (renderStep fns cb a) o ↔
      Returns (x >>= fun r => pure (stepOutcome r)) o)
    (hxy : Agree
      (TagsAs fns cb toks (pos + 1) (max frontier (pos + 1)) loops) x y)
    (hgo : ∀ mode', mode.To mode' → ∀ frontier' p' a', frontier ≤ frontier' →
      (more ≠ [] → frontier' ≠ toks.length) →
      Plays fns cb toks (pos + (rest.tokens.length + 1)) frontier' loops p' a' →
      Woven (renderStep fns cb) StopsAs mode' a' (f (none, p')))
    (hfail : KeepsFault f) :
    Woven (renderStep fns cb) StopsAs mode a
      ((y >>= fun r => andGoOn r (rest.interpret fns cb (hiddenBy loops))) >>=
        f) := by
  refine (woven_tag hx hxy ?_ ?_).assoc
  · rintro a' ⟨_, p'⟩ (hplays | _) mode' hlater
    exact hrest.rest hdrop htrails hlive hlater.to hplays hgo hfail
  · rintro a' ⟨_, p'⟩ (_ | ⟨henv, houtput⟩)
    exact ⟨_, hfail.andGoOn _ _ p', rfl, henv, houtput⟩

theorem performs_escaped {name : Bytes} {rest : Template}
    (hvalid : (Token.escaped name).Valid) (hrest : Performs fns cb toks rest) :
    Performs fns cb toks (.escaped name rest) := by
  intro pos frontier loops p a more mode f hdrop htrails hlive h hgo hfail
  have hlive := hlive (List.cons_ne_nil _ _)
  obtain ⟨htok, -⟩ := getElem?_of_drop hdrop
  have hbare : toks[pos]? = some (.escaped ([] ++ name)) := htok
  obtain ⟨start, block, after, hparse, hname, hcross, hstep⟩ :=
    h.stands.reads_plain hlive hbare blanks_nil hvalid.1 hvalid.2
  have hshown : Agree
      (TagsAs fns cb toks (pos + 1) (max frontier (pos + 1)) loops)
      (renderStacheEscape fns cb start)
      (interpretVariable cb (showEscaped (hiddenBy loops)) name p) :=
    renderVariable_as (h.cross hcross) (fun c _ _ hab => writeEscaped_as hab c)
      hparse hname hvalid.1.ne_nil
  exact hrest.variable hdrop htrails hlive hstep hshown hgo hfail

theorem performs_raw {name : Bytes} {rest : Template}
    (hvalid : (Token.raw name).Valid) (hrest : Performs fns cb toks rest) :
    Performs fns cb toks (.raw name rest) := by
  intro pos frontier loops p a more mode f hdrop htrails hlive h hgo hfail
  have hlive := hlive (List.cons_ne_nil _ _)
  obtain ⟨htok, -⟩ := getElem?_of_drop hdrop
  have hbytes : (Token.raw name).bytes = tagOpen ++
      ascii '{' :: ([] ++ (name ++ nameEnd (some [ascii '}']))) := by
    simp [Token.bytes, nameEnd]
  obtain ⟨start, block, after, hparse, hname, hcross, hstep⟩ :=
    h.stands.reads_name hlive htok (Or.inr rfl) hbytes blanks_nil hvalid
  have hshown : Agree
      (TagsAs fns cb toks (pos + 1) (max frontier (pos + 1)) loops)
      (renderStacheRaw fns cb start)
      (interpretVariable cb (showRaw (hiddenBy loops)) name p) :=
    renderVariable_as (h.cross hcross) (fun c _ _ hab => writeRaw_as hab c)
      hparse hname hvalid.ne_nil
  exact hrest.variable hdrop htrails hlive hstep hshown hgo hfail

/-- The engine is at the first token of the body of a section, with one of its
items. -/
def AtItem (fns : StreamFns τ) (cb : Callback σ ο τ) (toks : List Token)
    (mark frontier : Nat) (loops : List (StacheLoop ο))
    (item : Int → StacheLoop ο) (a : Buffer σ ο τ) (s : Int × Progress σ) :
    Prop :=
  ∃ frontier', frontier ≤ frontier' ∧ frontier' ≠ toks.length ∧
    Plays fns cb toks mark frontier' (item s.1 :: loops) s.2 a

/-- One time through the body of a section, up to its closing tag. -/
theorem Performs.item {type : LoopType} {lookup : Lookup ο} {empty : Bool}
    {body : Template} {rest : List Token} {mode : Mode} {index : Int}
    {f : (Int × Progress σ) ⊕ (Fault × Progress σ) → Proc (Fault × Progress σ)}
    (hbody : Performs fns cb toks body) (hlookup : lookup ≠ .invalid)
    (hvalid : (Token.closing name).Valid)
    (hdrop : toks.drop pos = body.tokens ++ .closing name :: rest)
    (hlive : frontier ≠ toks.length)
    (h : Plays fns cb toks pos frontier
      (sectionLoop type name lookup (offset toks pos) index empty :: loops) p a)
    (hnext : ∀ mode', mode.Later mode' → ∀ frontier' a' c,
      frontier ≤ frontier' → frontier' ≠ toks.length →
      ClosesAs fns cb toks pos (pos + body.tokens.length + 1)
        (max frontier' (pos + body.tokens.length + 1))
        (fun index => sectionLoop type name lookup (offset toks pos) index
          empty) loops (true, a') c →
      Woven (renderStep fns cb) StopsAs mode' a' (f c))
    (hfail : KeepsFault fun r => f (.inr r)) :
    Woven (renderStep fns cb) StopsAs mode a
      (throughBody cb (body.interpret fns cb (type.hides empty || hiddenBy loops))
        type lookup (index, p) >>= f) := by
  refine Woven.assoc ?_
  refine hbody hdrop (Or.inr (List.cons_ne_nil _ _)) (fun _ => hlive) h ?_ ?_
  · intro mode' hto frontier' p' a' hle hmore hplays
    have hlive' := hmore (List.cons_ne_nil _ _)
    have hclosing := drop_after hdrop
    obtain ⟨htok, -⟩ := getElem?_of_drop hclosing
    have hbytes : (Token.closing name).bytes = tagOpen ++
        ascii '/' :: ([] ++ (name ++ nameEnd none)) := by
      simp [Token.bytes, nameEnd]
    obtain ⟨start, block, after, hparse, hname, hcross, hstep⟩ :=
      hplays.stands.reads_name hlive' htok (Or.inl rfl) hbytes blanks_nil hvalid
    have hmark := hplays.stands.pos_le
    have hend := renderEnd_as (hplays.cross hcross) hlookup
      (show pos ≤ max frontier' _ by omega) hparse hname
    refine woven_tag hstep hend ?_ ?_
    · intro a'' c hc mode'' hlater
      exact hnext mode'' (hto.later hlater) frontier' a'' c hle hlive' hc
    · rintro a'' c (_ | _ | ⟨henv, houtput⟩)
      exact ⟨_, hfail _ _, rfl, henv, houtput⟩
  · intro message p'
    exact Returns.bind (returns_pure_self _) (hfail message p')

theorem performs_loop {type : LoopType} {name : Bytes} {body rest : Template}
    (hvalid : NameValid name) (hbody : Performs fns cb toks body)
    (hrest : Performs fns cb toks rest) :
    Performs fns cb toks (.loop type name body rest) := by
  intro pos frontier loops p a more mode f hdrop htrails hlive h hgo hfail
  have hlive := hlive (List.cons_ne_nil _ _)
  have hdrop' : toks.drop pos = .opening type name ::
      (body.tokens ++ .closing name :: (rest.tokens ++ more)) := by
    rw [hdrop, Template.tokens, List.cons_append, List.append_assoc,
      List.cons_append]
  have hmore : rest.tokens ++ more ≠ [] := by
    rcases htrails with ⟨hne, -⟩ | hmore
    · exact List.append_ne_nil_of_left_ne_nil (Template.tokens_ne_nil hne) _
    · exact List.append_ne_nil_of_right_ne_nil _ hmore
  have htrails' : rest.Trails ∨ more ≠ [] := htrails.imp_left And.right
  obtain ⟨htok, hinside⟩ := getElem?_of_drop hdrop'
  refine Woven.assoc ?_
  rcases h.opening hlive htok hvalid with
    ⟨lookup, empty, p', a', hlookup, hopening, hopens, hplays⟩ |
    ⟨p', a', hopening, hrefused, henv, houtput⟩
  · rw [interpretSection, hopening]
    refine Woven.next hopens fun mode' hlater => ?_
    refine Woven.loop (I := AtItem fns cb toks (pos + 1) frontier loops
      fun index => sectionLoop type name lookup (offset toks (pos + 1)) index
        empty) ?_ ⟨_, Nat.le_max_left _ _, live_after hlive hinside
          (List.append_ne_nil_of_right_ne_nil _ (List.cons_ne_nil _ _)),
        hplays⟩
    rintro mode₁ hto₁ s ⟨index, q⟩ ⟨frontier', hle, hlive', hs⟩ again hagain
    refine hbody.item hlookup hvalid hinside hlive' hs ?_ ?_
    · intro mode₂ hlater₂ frontier₂ a₂ c hle₂ hlive₂ hc
      have hclosing := drop_after hinside
      obtain ⟨-, hafter⟩ := getElem?_of_drop hclosing
      have hlive₃ := live_after hlive₂ hafter hmore
      cases hc with
      | again hplays' =>
          exact hagain mode₂ hlater₂ a₂ _ ⟨_, by omega, hlive₃, hplays'⟩
      | leaves hplays' =>
          have hlater' := hlater.trans_to (hto₁.trans hlater₂.to)
          refine hrest.rest hclosing htrails' hlive₂ hlater'.to hplays' ?_ hfail
          intro mode₄ hto₄ frontier₄ p₄ a₄ hle₄ hmore₄ hplays₄
          refine hgo mode₄ hto₄ frontier₄ p₄ a₄ (by omega) hmore₄ ?_
          have hlen : pos + (Template.loop type name body rest).tokens.length =
              pos + 1 + body.tokens.length + (rest.tokens.length + 1) := by
            simp only [Template.tokens, List.length_cons, List.length_append]
            omega
          rw [hlen]
          exact hplays₄
    · intro message p'
      exact hfail.andGoOn _ message p'
  · rw [interpretSection, hopening]
    refine Woven.exit hrefused
      (Returns.bind (returns_pure_self _) (hfail.andGoOn _ _ p')) ?_
    exact ⟨rfl, henv, houtput⟩

/-- The engine goes through every template without inclusions. -/
theorem performs (template : Template)
    (hvalid : ∀ tok ∈ template.tokens, tok.Valid) (hplain : template.Plain) :
    Performs fns cb toks template := by
  induction template with
  | nil => exact performs_nil
  | text c rest ih =>
      obtain ⟨hhead, htail⟩ := List.forall_mem_cons.mp hvalid
      exact performs_text hhead (ih htail (List.forall_mem_cons.mp hplain).2)
  | escaped name rest ih =>
      obtain ⟨hhead, htail⟩ := List.forall_mem_cons.mp hvalid
      exact performs_escaped hhead (ih htail (List.forall_mem_cons.mp hplain).2)
  | raw name rest ih =>
      obtain ⟨hhead, htail⟩ := List.forall_mem_cons.mp hvalid
      exact performs_raw hhead (ih htail (List.forall_mem_cons.mp hplain).2)
  | comment body rest ih =>
      obtain ⟨hhead, htail⟩ := List.forall_mem_cons.mp hvalid
      exact performs_comment hhead (ih htail (List.forall_mem_cons.mp hplain).2)
  | loop type name body rest ihb ihr =>
      obtain ⟨hhead, htail⟩ := List.forall_mem_cons.mp hvalid
      obtain ⟨hb, hr⟩ := List.forall_mem_append.mp htail
      obtain ⟨-, hplain⟩ := List.forall_mem_cons.mp hplain
      obtain ⟨hpb, hpr⟩ := List.forall_mem_append.mp hplain
      exact performs_loop hhead (ihb hb hpb)
        (ihr (List.forall_mem_cons.mp hr).2 (List.forall_mem_cons.mp hpr).2)
  | inclusion name rest ih =>
      cases (List.forall_mem_cons.mp hplain).1

/-- A rendering has come to what an interpretation has come to. -/
structure Rendered.Is (r : Rendered σ) (t : Fault × Progress σ) : Prop where
  code : r.code = if t.1.isNone then 0 else -1
  output : r.output = t.2.output
  onError : r.onError.map Prod.fst = t.1
  env : r.env = t.2.env

theorem newBuffer_plays (env : σ) {input : InputStream τ}
    (hinput : input.Delivers fns (tokenBytes toks)) (data : Int → UInt8) :
    ∃ a, Returns (bufferNext fns cb (newBuffer env input data)) (true, a) ∧
      Plays fns cb toks 0 0 [] ⟨env, []⟩ a := by
  obtain ⟨a, hnext, hstands, hframe, hincluded⟩ :=
    @newBuffer_stands _ _ _ fns cb _ env _ hinput data
  exact ⟨a, hnext, hstands, congrArg Prod.snd hincluded, hframe.loops,
    congrArg Prod.fst hincluded, hframe.output⟩

theorem Rendered.Is.of_stops {r : Bool × Buffer σ ο τ} {t : Fault × Progress σ}
    (h : StopsAs r t) : (r.2.rendered r.1).Is t := by
  obtain ⟨result, last⟩ := r
  obtain ⟨fault, p⟩ := t
  obtain ⟨hfault, henv, houtput⟩ := h
  dsimp only at hfault
  subst hfault
  cases result with
  | false => exact ⟨rfl, houtput, rfl, henv⟩
  | true =>
      refine ⟨?_, houtput, ?_, henv⟩
      · cases hopen : last.loops with
        | nil => simp [Buffer.rendered, faultOf, hopen]
        | cons loop loops => simp [Buffer.rendered, faultOf, hopen]
      · cases hopen : last.loops with
        | nil => simp [Buffer.rendered, faultOf, hopen]
        | cons loop loops => simp [Buffer.rendered, faultOf, hopen]

/-- What goes through the tokens as the engine does is a rendering of them. -/
theorem render_woven {f : Progress σ → Proc (Fault × Progress σ)} (env : σ)
    {input : InputStream τ} (hinput : input.Delivers fns (tokenBytes toks))
    (data : Int → UInt8)
    (h : ∀ mode a, Plays fns cb toks 0 0 [] ⟨env, []⟩ a →
      Woven (renderStep fns cb) StopsAs mode a (f ⟨env, []⟩)) :
    Agree Rendered.Is (render fns cb env input data) (f ⟨env, []⟩) := by
  obtain ⟨a, hnext, hplays⟩ := @newBuffer_plays _ _ _ fns cb _ env _ hinput data
  refine Agree.run_left hnext ?_
  dsimp only
  rw [if_pos rfl]
  exact (agree_of_woven fun mode => h mode a hplays).map_left
    fun r t hrt => Rendered.Is.of_stops hrt

/-- Whatever its callback does, rendering a template without inclusions makes
the calls and writes what the interpreter does, reports the same fault, and
goes on as long. -/
theorem render_interprets (template : Template)
    (hvalid : ∀ tok ∈ template.tokens, tok.Valid) (hplain : template.Plain)
    (htrails : template.Trails) (env : σ) {input : InputStream τ}
    (hinput : input.Delivers fns (tokenBytes template.tokens))
    (data : Int → UInt8) :
    Agree Rendered.Is (render fns cb env input data)
      (template.interpret fns cb false ⟨env, []⟩) := by
  refine render_woven env hinput data fun mode a hplays => ?_
  refine Woven.congr (fun t => returns_bind_pure) ?_
  refine performs template hvalid hplain
    (show template.tokens.drop 0 = template.tokens ++ [] by
      rw [List.append_nil, List.drop_zero])
    (Or.inl htrails) ?_ hplays ?_ (fun message p => returns_pure_self _)
  · intro hne hzero
    rw [List.append_nil] at hne
    exact hne (List.length_eq_zero_iff.mp hzero.symm)
  · intro mode' _ frontier' p' a' _ _ h
    rw [Nat.zero_add] at h
    refine Woven.exit (h.stands.reads_end rfl) (returns_pure_self _)
      ⟨?_, h.env, h.output⟩
    rw [faultOf, if_pos rfl, if_pos h.loops]

end

/-- A list with as many items as there are numbers below three; each string
that is handed out is the next number. -/
def counting : Callback Nat Bytes Empty where
  resolve env name :=
    (if name = chars "n" then .list name else .string name, env)
  stringGet _ := some fun env => (some [ascii '0' + UInt8.ofNat env], env + 1)
  stringFree _ := some fun env => (true, env)
  listGet _ := some fun env _ => (decide (env < 3), env)
  listClose _ := some fun env => (true, env)
  streamGet _ := none
  streamFree _ := none

/-- The template `{{#n}}{{v}},{{/n}}.` -/
def countingTemplate : Template :=
  .loop .loopWhile (chars "n")
    (.escaped (chars "v") (.text (ascii ',') .nil)) (.text (ascii '.') .nil)

theorem render_counting :
    ∃ r, Returns (render noStreams counting 0
        (newInputStreamFromString (tokenBytes countingTemplate.tokens))
        fun _ => 0) r ∧
      r.Is (none, ⟨3, chars "0,1,2,."⟩) :=
  (render_interprets countingTemplate (by decide) (by decide)
    ⟨by decide, trivial⟩ 0 (delivers_tokenBytes noStreams (by decide))
    fun _ => 0).back _ ⟨20, rfl⟩

end Libcad
