/-
Blanks before names.  Two engines, one with a template and one with the same
template and blanks between the sigils and the names of its tags, go from token
to token together: they look up the same names, write the same and fail
together, whatever the callback does.
-/
import Libcad.StacheAligned
import Mathlib.Data.List.Chain

namespace Libcad

open Proc

variable {σ ο τ : Type}

/-- For a name there is nothing to include: it is not found, or the object that
is found hands out NULL. -/
def Callback.Misses (cb : Callback σ ο τ) (name : Bytes) (env : σ) : Prop :=
  match cb.resolve env name with
  | (.notFound, _) | (.invalid, _) => True
  | (.list _, _) => False
  | (.string object, env) =>
      ∃ get, cb.stringGet object = some get ∧ (get env).1 = none
  | (.stream object, env) =>
      ∃ get, cb.streamGet object = some get ∧ (get env).1 = none

/-- Before another tag a partial is found, whenever it is looked up. -/
def FoundBefore (cb : Callback σ ο τ) (tok next : Token) : Prop :=
  ∀ name, tok = .inclusion name →
    (∃ c, next = .text c) ∨ ∀ env, ¬ cb.Misses name env

/-- A template of the engine's grammar, whose partials have these names. -/
structure InGrammar (cb : Callback σ ο τ) (partials : Bytes → Prop)
    (toks : List Token) : Prop where
  valid : ∀ tok ∈ toks, tok.Valid
  known : ∀ name, Token.inclusion name ∈ toks → partials name
  found : toks.IsChain (FoundBefore cb)

/-- What a partial may hold: such a template, which does not end with a partial
that may be missing. -/
structure PartialInGrammar (cb : Callback σ ο τ) (partials : Bytes → Prop)
    (content : List Token) : Prop extends InGrammar cb partials content where
  last : ∀ tok ∈ content.getLast?, ∀ next, FoundBefore cb tok next

/-- The objects found for the names of partials can be released, and hold
templates. -/
structure Callback.HoldsTemplates (fns : StreamFns τ) (cb : Callback σ ο τ)
    (partials : Bytes → Prop) : Prop where
  string : ∀ {name env object env' get c}, partials name →
    cb.resolve env name = (.string object, env') →
    cb.stringGet object = some get → (get env').1 = some c →
    (cb.stringFree object).isSome ∧
      ∃ content, PartialInGrammar cb partials content ∧ c = tokenBytes content
  stream : ∀ {name env object env' get s}, partials name →
    cb.resolve env name = (.stream object, env') →
    cb.streamGet object = some get → (get env').1 = some s →
    (cb.streamFree object).isSome ∧
      ∃ content, PartialInGrammar cb partials content ∧
        s.Delivers fns (tokenBytes content)

/-- The tokens before the frontier include nothing; those after it can be
read. -/
structure Unread (cb : Callback σ ο τ) (partials : Bytes → Prop)
    (toks : List Token) (frontier : Nat) : Prop where
  plain : ∀ tok ∈ toks.take frontier, tok.includes = false
  valid : ∀ tok ∈ toks, tok.Valid
  known : ∀ name, Token.inclusion name ∈ toks → partials name
  found : (toks.drop frontier).IsChain (FoundBefore cb)

/-- Both engines are at the same place of the same template. -/
def Beside (fns : StreamFns τ) (cb : Callback σ ο τ) (partials : Bytes → Prop)
    (a b : Buffer σ ο τ) : Prop :=
  ∃ toks spelled pos frontier, Unread cb partials toks frontier ∧
    Aligned fns cb toks spelled pos frontier a b

/-- Both engines have dealt with a tag. -/
inductive TagsAlike (fns : StreamFns τ) (cb : Callback σ ο τ)
    (partials : Bytes → Prop) :
    Bool × Buffer σ ο τ → Bool × Buffer σ ο τ → Prop
  | goes {a b} : Beside fns cb partials a b →
      TagsAlike fns cb partials (true, a) (true, b)
  | fails {a b} : b.env = a.env → b.output = a.output →
      TagsAlike fns cb partials (false, a) (false, b)

/-- Both renderings have come to the same. -/
structure EndsAlike (r r' : Bool × Buffer σ ο τ) : Prop where
  result : r'.1 = r.1
  env : r'.2.env = r.2.env
  output : r'.2.output = r.2.output
  loops : r.1 = true → (r'.2.loops = [] ↔ r.2.loops = [])

section

variable {fns : StreamFns τ} {cb : Callback σ ο τ} {partials : Bytes → Prop}
  {toks spelled : List Token} {pos frontier : Nat} {a b : Buffer σ ο τ}
  {start start' : Buffer σ ο τ} {block block' : NameBlock} {name : Bytes}

theorem TagsAlike.outcome {r r' : Bool × Buffer σ ο τ}
    (h : TagsAlike fns cb partials r r') :
    SumRel (Beside fns cb partials) EndsAlike (stepOutcome r)
      (stepOutcome r') := by
  cases h with
  | goes h => exact .inl h
  | fails henv houtput => exact .inr ⟨rfl, henv, houtput, nofun⟩

/-- The state behind the callback becomes the same. -/
inductive CallsAlike {β : Type} (a b : Buffer σ ο τ) :
    β × Buffer σ ο τ → β × Buffer σ ο τ → Prop
  | mk (result : β) (env : σ) :
      CallsAlike a b (result, a.setEnv env) (result, b.setEnv env)

theorem call_alike {β : Type} (henv : b.env = a.env)
    (f : Option (σ → β × σ)) :
    Agree (CallsAlike a b) (a.call f) (b.call f) := by
  cases f with
  | none => exact Agree.undefined
  | some f =>
      rw [Buffer.call, Buffer.call, henv]
      exact Agree.pure (.mk _ _)

theorem callOr_alike {β : Type} (henv : b.env = a.env)
    (f : Option (σ → β × σ)) (default : β) :
    CallsAlike a b (a.callOr f default) (b.callOr f default) := by
  cases f with
  | none =>
      have hcall : CallsAlike a b (default, a.setEnv a.env)
          (default, b.setEnv a.env) := .mk _ _
      have hb : b.setEnv a.env = b := by
        rw [← henv]
        rfl
      rw [hb] at hcall
      exact hcall
  | some f =>
      rw [Buffer.callOr, Buffer.callOr, henv]
      exact .mk _ _

theorem freeString_alike (hunread : Unread cb partials toks frontier)
    (h : Aligned fns cb toks spelled pos frontier a b) (resolved : ο) :
    Agree (TagsAlike fns cb partials) (freeString cb resolved a)
      (freeString cb resolved b) := by
  refine (call_alike h.env (cb.stringFree resolved)).bind ?_
  rintro _ _ ⟨freed, env⟩
  apply Agree.pure
  cases freed with
  | true => exact .goes ⟨toks, spelled, pos, frontier, hunread, h.setEnv env⟩
  | false => exact .fails rfl h.output

theorem writeRaw_beside (h : Aligned fns cb toks spelled pos frontier a b)
    (c : Option Bytes) :
    Agree (Aligned fns cb toks spelled pos frontier) (writeRaw c a)
      (writeRaw c b) := by
  rw [writeRaw.eq_def, writeRaw.eq_def, h.skips]
  split
  next => exact Agree.pure h
  next =>
    cases c with
    | none => exact Agree.undefined
    | some c => exact Agree.pure (h.writes _)

theorem writeEscaped_beside (h : Aligned fns cb toks spelled pos frontier a b)
    (c : Option Bytes) :
    Agree (Aligned fns cb toks spelled pos frontier) (writeEscaped c a)
      (writeEscaped c b) := by
  cases c with
  | none => exact Agree.undefined
  | some c =>
      apply Agree.pure
      induction cString c generalizing a b with
      | nil => exact h
      | cons byte text ih => exact ih (h.writes (escapeChar byte))

theorem renderVariable_alike (hunread : Unread cb partials toks frontier)
    (h : Aligned fns cb toks spelled pos frontier a b)
    {suffix : Option Bytes} {invalidName : String}
    {write : Option Bytes → Buffer σ ο τ → Proc (Buffer σ ο τ)}
    (hwrite : ∀ c {a b}, Aligned fns cb toks spelled pos frontier a b →
      Agree (Aligned fns cb toks spelled pos frontier) (write c a) (write c b))
    (hparse : Returns (parseName fns cb suffix start) (some block, a))
    (hparse' : Returns (parseName fns cb suffix start') (some block', b))
    (hname : block.string = name) (hname' : block'.string = name) :
    Agree (TagsAlike fns cb partials)
      (renderVariable fns cb suffix invalidName write start)
      (renderVariable fns cb suffix invalidName write start') := by
  refine Agree.run_left hparse (Agree.run_right hparse' ?_)
  dsimp only
  rw [hname, hname']
  split
  next => exact Agree.pure (.fails h.env h.output)
  next =>
    rw [Buffer.resolve, Buffer.resolve, h.env]
    rcases cb.resolve a.env name with ⟨lookup, env⟩
    have hresolved := h.setEnv env
    cases lookup with
    | notFound =>
        exact Agree.pure
          (.goes ⟨toks, spelled, pos, frontier, hunread, hresolved⟩)
    | list object => exact Agree.pure (.fails rfl h.output)
    | stream object => exact Agree.pure (.fails rfl h.output)
    | invalid => exact Agree.pure (.fails rfl h.output)
    | string object =>
        refine (call_alike hresolved.env (cb.stringGet object)).bind ?_
        rintro _ _ ⟨c, env'⟩
        refine (hwrite c (hresolved.setEnv env')).bind ?_
        intro a b hwritten
        exact freeString_alike hunread hwritten object

/-- A section is opened alike: the result, the value of `empty`, and besides
the error message the same state. -/
inductive OpensAlike (a b : Buffer σ ο τ) :
    Bool × Bool × Buffer σ ο τ → Bool × Bool × Buffer σ ο τ → Prop
  | mk (result empty : Bool) (env : σ) (error error' : String) :
      OpensAlike a b (result, empty, { a with env := env, error := error })
        (result, empty, { b with env := env, error := error' })

theorem releaseSection_alike (free : Option (σ → Bool × σ)) (message : String)
    {opened opened' : Bool × Bool × Buffer σ ο τ}
    (h : OpensAlike a b opened opened') :
    OpensAlike a b (releaseSection free message opened)
      (releaseSection free message opened') := by
  obtain ⟨result, empty, env, error, error'⟩ := h
  let a' : Buffer σ ο τ := { a with env := env, error := error }
  let b' : Buffer σ ο τ := { b with env := env, error := error' }
  have hcall : CallsAlike a' b' (a'.callOr free false)
      (b'.callOr free false) :=
    callOr_alike (show b'.env = a'.env from rfl) free false
  show OpensAlike a b (releaseSection free message (result, empty, a'))
    (releaseSection free message (result, empty, b'))
  rw [releaseSection, releaseSection]
  dsimp only
  generalize a'.callOr free false = called at hcall
  generalize b'.callOr free false = called' at hcall
  obtain ⟨freed, env'⟩ := hcall
  cases freed with
  | true => exact .mk result empty env' error error'
  | false => exact .mk false empty env' message message

theorem callOr_opens {β : Type} (henv : b.env = a.env)
    (f : Option (σ → β × σ)) (default : β) :
    ∃ result env, a.callOr f default = (result, a.setEnv env) ∧
      b.callOr f default = (result, b.setEnv env) := by
  have hcall := callOr_alike henv f default
  generalize a.callOr f default = called at hcall
  generalize b.callOr f default = called' at hcall
  obtain ⟨result, env⟩ := hcall
  exact ⟨result, env, rfl, rfl⟩

theorem readSection_alike (stream : Option (InputStream τ)) (env : σ) :
    OpensAlike a b (readSection fns stream (a.setEnv env))
      (readSection fns stream (b.setEnv env)) := by
  rw [readSection, readSection]
  cases streamEmpty fns stream with
  | some empty => exact .mk true empty env a.error b.error
  | none => exact .mk false false env _ _

theorem openLoop_alike (henv : b.env = a.env) (lookup : Lookup ο) :
    OpensAlike a b (openLoop fns cb lookup a) (openLoop fns cb lookup b) := by
  have hb : ∀ error, { b with error := error } =
      { b with env := a.env, error := error } := by
    intro error
    rw [← henv]
  cases lookup with
  | notFound =>
      have hopen : OpensAlike a b (true, true, a)
          (true, true, { b with env := a.env, error := b.error }) :=
        .mk true true a.env a.error b.error
      rw [← hb] at hopen
      exact hopen
  | invalid =>
      have hopen : OpensAlike a b
          (false, false, { a with error := "invalid type" })
          (false, false,
            { b with env := a.env, error := "invalid type" }) :=
        .mk false false a.env _ _
      rw [← hb] at hopen
      exact hopen
  | list object =>
      rw [openLoop, openLoop]
      obtain ⟨found, env, ha, hb⟩ := callOr_opens henv
        ((cb.listGet object).map fun get env => get env 0) false
      rw [ha, hb]
      exact .mk true (!found) env a.error b.error
  | string object =>
      rw [openLoop, openLoop]
      obtain ⟨c, env, ha, hb⟩ := callOr_opens henv (cb.stringGet object) none
      rw [ha, hb]
      exact releaseSection_alike _ _ (.mk _ _ env a.error b.error)
  | stream object =>
      rw [openLoop, openLoop]
      obtain ⟨s, env, ha, hb⟩ := callOr_opens henv (cb.streamGet object) none
      rw [ha, hb]
      exact releaseSection_alike _ _ (readSection_alike s env)

theorem renderLoop_alike (hunread : Unread cb partials toks frontier)
    (h : Aligned fns cb toks spelled pos frontier a b) (type : LoopType)
    (hparse : Returns (parseName fns cb none start) (some block, a))
    (hparse' : Returns (parseName fns cb none start') (some block', b))
    (hname : block.string = name) (hname' : block'.string = name) :
    Agree (TagsAlike fns cb partials) (renderStacheLoop fns cb type start)
      (renderStacheLoop fns cb type start') := by
  refine Agree.run_left hparse (Agree.run_right hparse' ?_)
  dsimp only
  rw [hname, hname', Buffer.resolve, Buffer.resolve, h.env]
  rcases cb.resolve a.env name with ⟨lookup, env⟩
  dsimp only
  have hresolved := h.setEnv env
  have hopen : OpensAlike (a.setEnv env) (b.setEnv env)
      (openLoop fns cb lookup (a.setEnv env))
      (openLoop fns cb lookup (b.setEnv env)) :=
    openLoop_alike hresolved.env lookup
  generalize openLoop fns cb lookup (a.setEnv env) = opened at hopen
  generalize openLoop fns cb lookup (b.setEnv env) = opened' at hopen
  obtain ⟨result, empty, env', error, error'⟩ := hopen
  apply Agree.pure
  cases result with
  | false => exact .fails rfl h.output
  | true =>
      have hwritten : Aligned fns cb toks spelled pos frontier
          { a with env := env', error := error }
          { b with env := env', error := error' } :=
        h.written rfl h.output error error'
      refine .goes ⟨toks, spelled, pos, frontier, hunread,
        hwritten.setLoops (.cons ⟨pos, h.left.pos_le, h.left.index_eq, ?_⟩
          h.loops)⟩
      show StacheLoop.mk type name lookup b.index 0 empty =
        StacheLoop.mk type name lookup (offset spelled pos) 0 empty
      rw [h.right.index_eq]

theorem listNext_alike (henv : b.env = a.env) (resolved : ο) (index : Int)
    (type : LoopType) :
    Agree (CallsAlike a b) (listNext cb resolved index a type)
      (listNext cb resolved index b type) := by
  cases type with
  | loopElse =>
      have hcall : CallsAlike a b (false, a.setEnv a.env)
          (false, b.setEnv a.env) := .mk _ _
      have hb : b.setEnv a.env = b := by
        rw [← henv]
        rfl
      rw [hb] at hcall
      exact Agree.pure hcall
  | loopWhile => exact call_alike henv _

theorem endList_alike (hunread : Unread cb partials toks frontier)
    (h : Aligned fns cb toks spelled pos frontier a b) (resolved : ο)
    {loop loop' : StacheLoop ο} {loops loops' : List (StacheLoop ο)}
    (hloop : loop.SameAs toks spelled frontier loop')
    (hloops : List.Forall₂ (StacheLoop.SameAs toks spelled frontier) loops
      loops') :
    Agree (TagsAlike fns cb partials) (endList cb resolved loop loops a)
      (endList cb resolved loop' loops' b) := by
  obtain ⟨mark, hmark, hindex, rfl⟩ := hloop
  let loop' : StacheLoop ο :=
    { loop.next with bufferIndex := offset spelled mark }
  have hnext : Aligned fns cb toks spelled pos frontier
      { a with loops := loop.next :: loops }
      { b with loops := loop' :: loops' } :=
    h.setLoops (.cons ⟨mark, hmark, hindex, rfl⟩ hloops)
  refine (listNext_alike hnext.env resolved loop.next.loopIndex
    loop.next.type).bind ?_
  rintro _ _ ⟨found, env⟩
  have hasked := hnext.setEnv env
  cases found with
  | true =>
      apply Agree.pure
      have hrewound := hasked.rewind hmark
      rw [← hindex] at hrewound
      exact .goes ⟨toks, spelled, mark, frontier, hunread, hrewound⟩
  | false =>
      dsimp only
      rw [if_neg Bool.false_ne_true]
      obtain ⟨closed, env', ha, hb⟩ := callOr_opens hasked.env
        (cb.listClose resolved) false
      rw [ha, hb]
      apply Agree.pure
      cases closed with
      | true =>
          exact .goes ⟨toks, spelled, pos, frontier, hunread,
            (hasked.setEnv env').setLoops hloops⟩
      | false => exact .fails rfl h.output

theorem renderEnd_alike (hunread : Unread cb partials toks frontier)
    (h : Aligned fns cb toks spelled pos frontier a b)
    (hparse : Returns (parseName fns cb none start) (some block, a))
    (hparse' : Returns (parseName fns cb none start') (some block', b))
    (hname : block.string = name) (hname' : block'.string = name) :
    Agree (TagsAlike fns cb partials) (renderStacheEnd fns cb start)
      (renderStacheEnd fns cb start') := by
  refine Agree.run_left hparse (Agree.run_right hparse' ?_)
  dsimp only
  rw [hname, hname']
  have hloops := h.loops
  cases ha : a.loops with
  | nil =>
      rw [ha] at hloops
      rw [List.forall₂_nil_left_iff.mp hloops]
      exact Agree.pure (.fails h.env h.output)
  | cons loop loops =>
      rw [ha] at hloops
      obtain ⟨loop', loops', hloop, hrest, hb⟩ :=
        List.forall₂_cons_left_iff.mp hloops
      rw [hb]
      dsimp only
      have hsame : loop'.name = loop.name ∧ loop'.lookup = loop.lookup := by
        obtain ⟨mark, -, -, rfl⟩ := hloop
        exact ⟨rfl, rfl⟩
      rw [hsame.1, hsame.2]
      split
      next => exact Agree.pure (.fails h.env h.output)
      next =>
        cases loop.lookup with
        | notFound | string object | stream object =>
            exact Agree.pure (.goes ⟨toks, spelled, pos, frontier, hunread,
              h.setLoops hrest⟩)
        | list object => exact endList_alike hunread h object hloop hrest
        | invalid =>
            exact Agree.pure (.goes ⟨toks, spelled, pos, frontier, hunread, h⟩)

theorem Unread.cross {tok : Token} (h : Unread cb partials toks frontier)
    (hpos : pos ≤ frontier) (htok : toks[pos]? = some tok)
    (hplain : tok.includes = false) :
    Unread cb partials toks (max frontier (pos + 1)) where
  plain := by
    intro x hx
    rcases Nat.lt_or_eq_of_le hpos with hold | rfl
    · rw [Nat.max_eq_left (show pos + 1 ≤ frontier from hold)] at hx
      exact h.plain x hx
    · rw [Nat.max_eq_right (Nat.le_succ pos), List.take_add_one, htok] at hx
      rcases List.mem_append.mp hx with hx | hx
      · exact h.plain x hx
      · rw [Option.toList_some, List.mem_singleton] at hx
        rw [hx]
        exact hplain
  valid := h.valid
  known := h.known
  found := by
    refine h.found.suffix ?_
    exact List.drop_suffix_drop_left toks (Nat.le_max_left _ _)

theorem drop_splice {content rest : List Token} (hpos : pos ≤ toks.length) :
    (toks.take pos ++ content ++ rest).drop pos = content ++ rest ∧
      (toks.take pos ++ content ++ rest).take pos = toks.take pos := by
  have hlen : (toks.take pos).length = pos := List.length_take_of_le hpos
  rw [List.append_assoc]
  exact ⟨List.drop_left' hlen, List.take_left' hlen⟩

/-- The template of a partial takes the place of its tag. -/
theorem Unread.include (h : Unread cb partials toks pos)
    (htok : toks[pos]? = some (.inclusion name)) {content : List Token}
    (hcontent : PartialInGrammar cb partials content) :
    Unread cb partials (toks.take pos ++ content ++ toks.drop (pos + 1))
      pos := by
  have hpos := Nat.le_of_lt (List.getElem?_eq_some_iff.mp htok).1
  obtain ⟨hdrop, htake⟩ :=
    @drop_splice toks pos content (toks.drop (pos + 1)) hpos
  have hmem : ∀ tok ∈ toks.take pos ++ content ++ toks.drop (pos + 1),
      tok ∈ toks ∨ tok ∈ content := by
    intro tok hx
    rcases List.mem_append.mp hx with hx | hx
    · rcases List.mem_append.mp hx with hx | hx
      · exact Or.inl (List.mem_of_mem_take hx)
      · exact Or.inr hx
    · exact Or.inl (List.mem_of_mem_drop hx)
  refine ⟨?_, ?_, ?_, ?_⟩
  · rw [htake]
    exact h.plain
  · exact fun tok hx => (hmem tok hx).elim (h.valid tok) (hcontent.valid tok)
  · exact fun name hx => (hmem _ hx).elim (h.known name) (hcontent.known name)
  · rw [hdrop]
    have htail := h.found.tail
    rw [List.tail_drop] at htail
    exact hcontent.found.append htail
      fun tok htok next _ => hcontent.last tok htok next

/-- A partial that is missing takes the byte after its tag along. -/
theorem Unread.skip (h : Unread cb partials toks pos)
    (hpos : pos ≤ toks.length) :
    Unread cb partials (toks.take pos ++ [] ++ toks.drop (pos + 2)) pos := by
  obtain ⟨hdrop, htake⟩ := @drop_splice toks pos [] (toks.drop (pos + 2)) hpos
  have hmem : ∀ tok ∈ toks.take pos ++ [] ++ toks.drop (pos + 2),
      tok ∈ toks := by
    intro tok hx
    rw [List.append_nil] at hx
    rcases List.mem_append.mp hx with hx | hx
    · exact List.mem_of_mem_take hx
    · exact List.mem_of_mem_drop hx
  refine ⟨?_, fun tok hx => h.valid tok (hmem tok hx),
    fun name hx => h.known name (hmem _ hx), ?_⟩
  · rw [htake]
    exact h.plain
  · rw [hdrop]
    exact h.found.suffix
      (List.drop_suffix_drop_left toks (Nat.le_add_right pos 2))

/-- A partial is opened alike: there is a template to read, or nothing, or the
tag is refused. -/
inductive IncludesAlike (fns : StreamFns τ) (cb : Callback σ ο τ)
    (partials : Bytes → Prop) (name : Bytes) (env₀ : σ) (lookup : Lookup ο)
    (a b : Buffer σ ο τ) :
    Bool × Option (InputStream τ) × Buffer σ ο τ →
    Bool × Option (InputStream τ) × Buffer σ ο τ → Prop
  | found {content : List Token} (stream : InputStream τ) (env : σ) :
      PartialInGrammar cb partials content →
      stream.Delivers fns (tokenBytes content) →
      lookup.Included → (lookup.free cb).isSome →
      IncludesAlike fns cb partials name env₀ lookup a b
        (true, some stream, a.setEnv env) (true, some stream, b.setEnv env)
  | missing (env : σ) : cb.Misses name env₀ →
      IncludesAlike fns cb partials name env₀ lookup a b
        (true, none, a.setEnv env) (true, none, b.setEnv env)
  | refused (env : σ) (error : String) :
      IncludesAlike fns cb partials name env₀ lookup a b
        (false, none, { a with env := env, error := error })
        (false, none, { b with env := env, error := error })

theorem openPartial_alike (hcb : cb.HoldsTemplates fns partials)
    (hname : partials name) {env₀ env : σ} {lookup : Lookup ο}
    (hlookup : cb.resolve env₀ name = (lookup, env)) :
    Agree (IncludesAlike fns cb partials name env₀ lookup a b)
      (openPartial cb lookup (a.setEnv env))
      (openPartial cb lookup (b.setEnv env)) := by
  have hmisses : cb.Misses name env₀ ↔
      match (lookup, env) with
      | (.notFound, _) | (.invalid, _) => True
      | (.list _, _) => False
      | (.string object, env) =>
          ∃ get, cb.stringGet object = some get ∧ (get env).1 = none
      | (.stream object, env) =>
          ∃ get, cb.streamGet object = some get ∧ (get env).1 = none := by
    rw [Callback.Misses, hlookup]
  cases lookup with
  | notFound | invalid =>
      exact Agree.pure (.missing env (hmisses.mpr trivial))
  | list object =>
      rw [openPartial, openPartial]
      let a' : Buffer σ ο τ :=
        { a.setEnv env with error := "unexpected list for partial" }
      let b' : Buffer σ ο τ :=
        { b.setEnv env with error := "unexpected list for partial" }
      refine (call_alike (show b'.env = a'.env from rfl)
        (cb.listClose object)).bind ?_
      rintro _ _ ⟨closed, env'⟩
      exact Agree.pure (.refused env' _)
  | string object =>
      rw [openPartial, openPartial]
      refine (call_alike (show (b.setEnv env).env = (a.setEnv env).env from rfl)
        (cb.stringGet object)).with_returns.bind ?_
      rintro _ _ ⟨⟨c, env'⟩, hget, -⟩
      obtain ⟨get, hfun, hc, -⟩ := call_returns_some hget
      cases c with
      | some c =>
          obtain ⟨hfree, content, hcontent, rfl⟩ :=
            hcb.string hname hlookup hfun hc.symm
          exact Agree.pure (.found _ env' hcontent
            (delivers_tokenBytes fns hcontent.valid) trivial hfree)
      | none =>
          refine (call_alike (show (b.setEnv env').env = (a.setEnv env').env
            from rfl) (cb.stringFree object)).bind ?_
          rintro _ _ ⟨freed, env''⟩
          exact Agree.pure
            (.missing env'' (hmisses.mpr ⟨get, hfun, hc.symm⟩))
  | stream object =>
      rw [openPartial, openPartial]
      refine (call_alike (show (b.setEnv env).env = (a.setEnv env).env from rfl)
        (cb.streamGet object)).with_returns.bind ?_
      rintro _ _ ⟨⟨s, env'⟩, hget, -⟩
      obtain ⟨get, hfun, hs, -⟩ := call_returns_some hget
      cases s with
      | some s =>
          obtain ⟨hfree, content, hcontent, hdelivers⟩ :=
            hcb.stream hname hlookup hfun hs.symm
          exact Agree.pure (.found s env' hcontent hdelivers trivial hfree)
      | none =>
          refine (call_alike (show (b.setEnv env').env = (a.setEnv env').env
            from rfl) (cb.streamFree object)).bind ?_
          rintro _ _ ⟨freed, env''⟩
          exact Agree.pure
            (.missing env'' (hmisses.mpr ⟨get, hfun, hs.symm⟩))

theorem StandsAt.item {tok : Token} {c : UInt8} {rest : Bytes}
    (h : StandsAt fns cb toks pos pos a) (hlive : pos ≠ toks.length)
    (htok : toks[pos]? = some tok) (hbytes : tok.bytes = c :: rest) :
    Returns (bufferItem a) c := by
  obtain ⟨held, hreading⟩ := h.reading
  obtain ⟨hlt, -⟩ := hreading.live (h.live hlive)
  have hrest := drop_offset_getElem htok
  rw [hbytes, List.cons_append] at hrest
  exact hreading.item hlt hrest

/-- What follows the tag of a partial, once its first byte was saved. -/
theorem saved_eq {tok : Token} {c : UInt8} {rest : Bytes}
    (htok : toks[pos]? = some tok) (hbytes : tok.bytes = c :: rest) :
    tokenBytes (toks.drop pos) = c :: (tokenBytes (toks.drop pos)).tail := by
  obtain ⟨hpos, hget⟩ := List.getElem?_eq_some_iff.mp htok
  rw [List.drop_eq_getElem_cons hpos, hget, tokenBytes_cons, hbytes]
  rfl

theorem Pending.stack {input : InputStream τ}
    {parts : List (StachePartial ο τ)} {lookup : Lookup ο}
    {stream : InputStream τ} {own rest : Bytes} (save : UInt8) (env : σ)
    (hincluded : lookup.Included) (hfree : (lookup.free cb).isSome)
    (hstream : stream.Delivers fns own)
    (h : ∀ env, Pending fns input parts
      (heldBy cb (parts.map StachePartial.lookup) env) rest) :
    Pending fns input (⟨lookup, stream, save⟩ :: parts)
      (heldBy cb (lookup :: parts.map StachePartial.lookup) env)
      (own ++ save :: rest) := by
  cases lookup with
  | notFound => exact hincluded.elim
  | list object => exact hincluded.elim
  | invalid => exact hincluded.elim
  | string object =>
      exact ⟨⟨rfl, by rw [Option.isSome_map]; exact hfree⟩, own, rest,
        hstream, rfl, h _⟩
  | stream object =>
      exact ⟨⟨rfl, by rw [Option.isSome_map]; exact hfree⟩, own, rest,
        hstream, rfl, h _⟩

theorem includePartial_ended {place place' : Int} {env₀ : σ}
    {lookup : Lookup ο} {x y : Bool × Option (InputStream τ) × Buffer σ ο τ}
    (hxy : IncludesAlike fns cb partials name env₀ lookup a b x y)
    (hroom : HasRoom a) (hroom' : HasRoom b) (he : a.eof = true)
    (he' : b.eof = true) (houtput : b.output = a.output) :
    Agree (TagsAlike fns cb partials)
      (do
        let buffer ← pushPartial lookup x.2.1 x.2.2
        let (more, buffer) ← bufferNext fns cb { buffer with
          index := place - 1, fill := place }
        pure (if more then (x.1, buffer)
          else buffer.fail "BUG: no next at partial start"))
      (do
        let buffer ← pushPartial lookup y.2.1 y.2.2
        let (more, buffer) ← bufferNext fns cb { buffer with
          index := place' - 1, fill := place' }
        pure (if more then (y.1, buffer)
          else buffer.fail "BUG: no next at partial start")) := by
  have hpush : ∀ {buffer : Buffer σ ο τ} (stream : Option (InputStream τ)),
      HasRoom buffer → ∃ pushed,
        Returns (pushPartial lookup stream buffer) pushed ∧
        pushed.env = buffer.env ∧ pushed.output = buffer.output ∧
        pushed.eof = buffer.eof := by
    intro buffer stream hroom
    cases stream with
    | none => exact ⟨buffer, returns_pure_self _, rfl, rfl, rfl⟩
    | some stream =>
        obtain ⟨save, hsave⟩ := hroom.item
        exact ⟨_, hsave.bind (returns_pure_self _), rfl, rfl, rfl⟩
  have hopened : y.2.1 = x.2.1 ∧ y.2.2.env = x.2.2.env ∧
      y.2.2.output = x.2.2.output ∧ HasRoom x.2.2 ∧ HasRoom y.2.2 ∧
      x.2.2.eof = true ∧ y.2.2.eof = true := by
    have hroom₁ : ∀ env error, HasRoom
        ({ a with env := env, error := error } : Buffer σ ο τ) := fun _ _ =>
      ⟨hroom.index_nonneg, hroom.fill_le, hroom.index_le, hroom.index_lt,
        hroom.live⟩
    have hroom₂ : ∀ env error, HasRoom
        ({ b with env := env, error := error } : Buffer σ ο τ) := fun _ _ =>
      ⟨hroom'.index_nonneg, hroom'.fill_le, hroom'.index_le, hroom'.index_lt,
        hroom'.live⟩
    cases hxy with
    | found stream env => exact ⟨rfl, rfl, houtput, hroom₁ _ _, hroom₂ _ _, he, he'⟩
    | missing env => exact ⟨rfl, rfl, houtput, hroom₁ _ _, hroom₂ _ _, he, he'⟩
    | refused env error => exact ⟨rfl, rfl, houtput, hroom₁ _ _, hroom₂ _ _, he, he'⟩
  obtain ⟨hstream, henv, hout, hroom₁, hroom₂, he₁, he₂⟩ := hopened
  obtain ⟨pushed, hpushed, hpenv, hpout, hpeof⟩ := hpush x.2.1 hroom₁
  obtain ⟨pushed', hpushed', hpenv', hpout', hpeof'⟩ := hpush y.2.1 hroom₂
  refine Agree.run_left hpushed (Agree.run_right hpushed' ?_)
  let before : Buffer σ ο τ := { pushed with index := place - 1, fill := place }
  let before' : Buffer σ ο τ :=
    { pushed' with index := place' - 1, fill := place' }
  have hnext : Returns (bufferNext fns cb before)
      (false, { before with error := "Buffer end reached" }) :=
    bufferNext_ended (hpeof.trans he₁)
  have hnext' : Returns (bufferNext fns cb before')
      (false, { before' with error := "Buffer end reached" }) :=
    bufferNext_ended (hpeof'.trans he₂)
  refine Agree.run_left hnext (Agree.run_right hnext' (Agree.pure ?_))
  rw [if_neg Bool.false_ne_true, if_neg Bool.false_ne_true]
  refine .fails ?_ ?_
  · show pushed'.env = pushed.env
    rw [hpenv, hpenv', henv]
  · show pushed'.output = pushed.output
    rw [hpout, hpout', hout]

/-- A partial that is there: its template takes the place of the tag. -/
theorem includePartial_found (hunread : Unread cb partials toks pos)
    (h : Aligned fns cb toks spelled (pos + 1) (pos + 1) a b)
    (hlive : pos + 1 ≠ toks.length)
    (hloops : List.Forall₂ (StacheLoop.SameAs toks spelled pos) a.loops b.loops)
    (htok : toks[pos]? = some (.inclusion name)) {content : List Token}
    (hcontent : PartialInGrammar cb partials content)
    {lookup : Lookup ο} {stream : InputStream τ} (env : σ)
    (hstream : stream.Delivers fns (tokenBytes content))
    (hincluded : lookup.Included) (hfree : (lookup.free cb).isSome) :
    ∃ save last last',
      Returns (pushPartial lookup (some stream) (a.setEnv env))
        { a.setEnv env with
          partials := ⟨lookup, stream, save⟩ :: a.partials } ∧
      Returns (pushPartial lookup (some stream) (b.setEnv env))
        { b.setEnv env with
          partials := ⟨lookup, stream, save⟩ :: b.partials } ∧
      Returns (bufferNext fns cb { a.setEnv env with
        partials := ⟨lookup, stream, save⟩ :: a.partials
        index := (offset toks pos : Int) - 1
        fill := offset toks pos }) (true, last) ∧
      Returns (bufferNext fns cb { b.setEnv env with
        partials := ⟨lookup, stream, save⟩ :: b.partials
        index := (offset spelled pos : Int) - 1
        fill := offset spelled pos }) (true, last') ∧
      Beside fns cb partials last last' := by
  have hpos : pos < toks.length := (List.getElem?_eq_some_iff.mp htok).1
  have hlen := h.length_eq
  have hlive' : pos + 1 ≠ spelled.length := hlen ▸ hlive
  obtain ⟨next, hnext⟩ : ∃ next, toks[pos + 1]? = some next :=
    ⟨_, List.getElem?_eq_getElem (by omega)⟩
  obtain ⟨next', hnext', hspaced⟩ := h.spelled_tok hnext
  obtain ⟨save, rest, rest', hbytes, hbytes'⟩ := hspaced.head
  have hitem : Returns (bufferItem (a.setEnv env)) save :=
    h.left.item hlive hnext hbytes
  have hitem' : Returns (bufferItem (b.setEnv env)) save :=
    h.right.item hlive' hnext' hbytes'
  let toks' := toks.take pos ++ content ++ toks.drop (pos + 1)
  let spelled' := spelled.take pos ++ content ++ spelled.drop (pos + 1)
  obtain ⟨hdrop, htake⟩ :=
    @drop_splice toks pos content (toks.drop (pos + 1)) (by omega)
  obtain ⟨hdrop', htake'⟩ :=
    @drop_splice spelled pos content (spelled.drop (pos + 1)) (by omega)
  have htokens : List.Forall₂ Token.SpacedAs toks' spelled' :=
    List.rel_append (List.rel_append (List.forall₂_take pos h.tokens)
      (List.forall₂_same.mpr fun tok _ => Token.SpacedAs.refl tok))
      (List.forall₂_drop (pos + 1) h.tokens)
  have hpending := Pending.stack save env hincluded hfree hstream
    (h.left.pending hlive)
  rw [← saved_eq hnext hbytes, ← tokenBytes_append, ← hdrop] at hpending
  have hpending' := Pending.stack save env hincluded hfree hstream
    (h.right.pending hlive')
  rw [← saved_eq hnext' hbytes', ← tokenBytes_append, ← hdrop'] at hpending'
  let a₁ : Buffer σ ο τ := { a.setEnv env with
    partials := ⟨lookup, stream, save⟩ :: a.partials
    index := (offset toks pos : Int) - 1
    fill := offset toks pos }
  let b₁ : Buffer σ ο τ := { b.setEnv env with
    partials := ⟨lookup, stream, save⟩ :: b.partials
    index := (offset spelled pos : Int) - 1
    fill := offset spelled pos }
  have hsame : b₁.included = a₁.included := by
    show (env, _ :: b.partials) = (env, _ :: a.partials)
    rw [h.partials]
  have hinside : SameInside fns a.input (toks'.drop pos)
      (spelled'.drop pos) := by
    rw [hdrop, hdrop']
    by_cases hnil : a.partials = []
    · have hinput := h.left.pending hlive env
      rw [hnil] at hinput
      exact ⟨content, _, _, rfl, rfl, hinput⟩
    · obtain ⟨own, more, more', htoks, hspelled, hinput⟩ := h.inside hlive hnil
      refine ⟨content ++ own, more, more', ?_, ?_, hinput⟩
      · rw [htoks, List.append_assoc]
      · rw [hspelled, List.append_assoc]
  have ha : Dropped (offset toks pos) a a₁ :=
    ⟨rfl, rfl, rfl, rfl, rfl, rfl, rfl, rfl, rfl⟩
  have hb : Dropped (offset spelled pos) b b₁ :=
    ⟨rfl, rfl, rfl, rfl, rfl, rfl, rfl, rfl, rfl⟩
  have hle : pos ≤ toks'.length := by
    simp only [toks', List.length_append, List.length_take]
    omega
  obtain ⟨last, last', hread, hread', haligned⟩ := h.resume hlive hloops
    htokens htake htake' hle ha hb hsame hpending hpending' fun _ => hinside
  exact ⟨save, last, last', hitem.bind (returns_pure_self _),
    hitem'.bind (returns_pure_self _), hread, hread', toks', spelled', pos, pos,
    hunread.include htok hcontent, haligned⟩

/-- A partial that is missing, before a byte of text: the byte goes with the
tag, on both sides. -/
theorem includePartial_missing (hunread : Unread cb partials toks pos)
    (h : Aligned fns cb toks spelled (pos + 1) (pos + 1) a b)
    (hloops : List.Forall₂ (StacheLoop.SameAs toks spelled pos) a.loops b.loops)
    {c : UInt8} (hnext : toks[pos + 1]? = some (.text c)) (env : σ) :
    ∃ last last',
      Returns (bufferNext fns cb { a.setEnv env with
        index := (offset toks pos : Int) - 1
        fill := offset toks pos }) (true, last) ∧
      Returns (bufferNext fns cb { b.setEnv env with
        index := (offset spelled pos : Int) - 1
        fill := offset spelled pos }) (true, last') ∧
      Beside fns cb partials last last' := by
  have hpos := (List.getElem?_eq_some_iff.mp hnext).1
  have hlive : pos + 1 ≠ toks.length := by omega
  have hlen := h.length_eq
  have hlive' : pos + 1 ≠ spelled.length := hlen ▸ hlive
  obtain ⟨next', hnext', hspaced⟩ := h.spelled_tok hnext
  cases hspaced with
  | text c =>
  let toks' := toks.take pos ++ [] ++ toks.drop (pos + 2)
  let spelled' := spelled.take pos ++ [] ++ spelled.drop (pos + 2)
  obtain ⟨hdrop, htake⟩ :=
    @drop_splice toks pos [] (toks.drop (pos + 2)) (by omega)
  obtain ⟨hdrop', htake'⟩ :=
    @drop_splice spelled pos [] (spelled.drop (pos + 2)) (by omega)
  rw [List.nil_append] at hdrop hdrop'
  have htokens : List.Forall₂ Token.SpacedAs toks' spelled' :=
    List.rel_append (List.rel_append (List.forall₂_take pos h.tokens) .nil)
      (List.forall₂_drop (pos + 2) h.tokens)
  have htail : ∀ {l : List Token}, l[pos + 1]? = some (.text c) →
      l.drop (pos + 1) = .text c :: l.drop (pos + 2) := by
    intro l hl
    obtain ⟨hlt, hget⟩ := List.getElem?_eq_some_iff.mp hl
    rw [List.drop_eq_getElem_cons hlt, hget]
  have hpending := h.left.pending hlive env
  rw [htail hnext, tokenBytes_cons, show (Token.text c).bytes = [c] from rfl,
    List.singleton_append, List.tail_cons, ← hdrop] at hpending
  have hpending' := h.right.pending hlive' env
  rw [htail hnext', tokenBytes_cons, show (Token.text c).bytes = [c] from rfl,
    List.singleton_append, List.tail_cons, ← hdrop'] at hpending'
  let a₁ : Buffer σ ο τ := { a.setEnv env with
    index := (offset toks pos : Int) - 1
    fill := offset toks pos }
  let b₁ : Buffer σ ο τ := { b.setEnv env with
    index := (offset spelled pos : Int) - 1
    fill := offset spelled pos }
  have ha : Dropped (offset toks pos) a a₁ :=
    ⟨rfl, rfl, rfl, rfl, rfl, rfl, rfl, rfl, rfl⟩
  have hb : Dropped (offset spelled pos) b b₁ :=
    ⟨rfl, rfl, rfl, rfl, rfl, rfl, rfl, rfl, rfl⟩
  have hsame : b₁.included = a₁.included := (h.setEnv env).included
  have hle : pos ≤ toks'.length := by
    simp only [toks', List.length_append, List.length_take]
    omega
  have hinside : a₁.partials ≠ [] → SameInside fns a.input (toks'.drop pos)
      (spelled'.drop pos) := by
    intro hpartials
    obtain ⟨own, more, more', htoks, hspelled, hinput⟩ :=
      h.inside hlive hpartials
    have hown := SameInside.own_ne_nil h.left hlive hpartials htoks hinput
    obtain ⟨head, own, rfl⟩ := List.exists_cons_of_ne_nil hown
    rw [htail hnext, List.cons_append] at htoks
    rw [htail hnext', List.cons_append] at hspelled
    obtain ⟨-, htoks⟩ := List.cons_eq_cons.mp htoks
    obtain ⟨-, hspelled⟩ := List.cons_eq_cons.mp hspelled
    rw [hdrop, hdrop']
    exact ⟨own, more, more', htoks, hspelled, hinput⟩
  obtain ⟨last, last', hread, hread', haligned⟩ := h.resume hlive hloops
    htokens htake htake' hle ha hb hsame hpending hpending' hinside
  exact ⟨last, last', hread, hread', toks', spelled', pos, pos,
    hunread.skip (by omega), haligned⟩

/-- A partial that is refused: one more byte is read before rendering fails. -/
theorem includePartial_refused
    (h : Aligned fns cb toks spelled (pos + 1) (pos + 1) a b)
    (hlive : pos + 1 ≠ toks.length) (env : σ) (error : String) :
    ∃ last last',
      Returns (bufferNext fns cb { a with
        env := env, error := error
        index := (offset toks pos : Int) - 1
        fill := offset toks pos }) (true, last) ∧
      Returns (bufferNext fns cb { b with
        env := env, error := error
        index := (offset spelled pos : Int) - 1
        fill := offset spelled pos }) (true, last') ∧
      last'.env = last.env ∧ last'.output = last.output := by
  have hlive' : pos + 1 ≠ spelled.length := h.length_eq ▸ hlive
  let a₁ : Buffer σ ο τ := { a with
    env := env, error := error
    index := (offset toks pos : Int) - 1
    fill := offset toks pos }
  let b₁ : Buffer σ ο τ := { b with
    env := env, error := error
    index := (offset spelled pos : Int) - 1
    fill := offset spelled pos }
  have ha : Dropped (offset toks pos) a a₁ :=
    ⟨rfl, rfl, rfl, rfl, rfl, rfl, rfl, rfl, rfl⟩
  have hb : Dropped (offset spelled pos) b b₁ :=
    ⟨rfl, rfl, rfl, rfl, rfl, rfl, rfl, rfl, rfl⟩
  obtain ⟨last, hread, hmoved⟩ :=
    h.left.resumes hlive ha (h.left.pending hlive env)
  obtain ⟨last', hread', hmoved'⟩ :=
    h.right.resumes hlive' hb (h.right.pending hlive' env)
  have hincluded : last'.included = last.included :=
    ha.included hb (h.left.live hlive) (h.right.live hlive')
      (congrArg (Prod.mk env) h.partials) hread hread'
  refine ⟨last, last', hread, hread', congrArg Prod.fst hincluded, ?_⟩
  rw [hmoved.frame.output, hmoved'.frame.output]
  exact h.output

theorem renderPartial_alike (hcb : cb.HoldsTemplates fns partials)
    (hunread : Unread cb partials toks pos) {a₀ b₀ : Buffer σ ο τ}
    (h₀ : Aligned fns cb toks spelled pos pos a₀ b₀)
    (htok : toks[pos]? = some (.inclusion name))
    (ha : Crosses fns cb toks pos pos a₀ a)
    (hb : Crosses fns cb spelled pos pos b₀ b)
    (hparse : Returns (parseName fns cb none start) (some block, a))
    (hparse' : Returns (parseName fns cb none start') (some block', b))
    (hname : block.string = name) (hname' : block'.string = name) :
    Agree (TagsAlike fns cb partials)
      (renderStachePartial fns cb a₀.index start)
      (renderStachePartial fns cb b₀.index start') := by
  have hpos : pos < toks.length := (List.getElem?_eq_some_iff.mp htok).1
  have hat : pos ≠ toks.length := by omega
  have hat' : pos ≠ spelled.length := h₀.length_eq ▸ hat
  have h : Aligned fns cb toks spelled (pos + 1) (pos + 1) a b := by
    have hcross := h₀.cross hat htok ha hb
    rw [Nat.max_eq_right (Nat.le_succ pos)] at hcross
    exact hcross
  have hloops : List.Forall₂ (StacheLoop.SameAs toks spelled pos) a.loops
      b.loops := by
    rw [ha.frame.loops, hb.frame.loops]
    exact h₀.loops
  refine Agree.run_left hparse (Agree.run_right hparse' ?_)
  dsimp only
  rw [hname, hname', Buffer.resolve, Buffer.resolve, h.env, h₀.left.index_eq,
    h₀.right.index_eq]
  rcases hlookup : cb.resolve a.env name with ⟨lookup, env⟩
  dsimp only
  refine (openPartial_alike hcb
    (hunread.known name (List.mem_of_getElem? htok)) hlookup).bind ?_
  intro x y hxy
  by_cases hend : pos + 1 = toks.length
  · have he : a.eof = true := by
      rw [h.left.eof_eq, decide_eq_true hend]
    have he' : b.eof = true := by
      rw [h.right.eof_eq, decide_eq_true (h.length_eq ▸ hend)]
    have hroom := (ha.reads _ hasRoom_closed (h₀.left.hasRoom hat)).1
    have hroom' := (hb.reads _ hasRoom_closed (h₀.right.hasRoom hat')).1
    exact includePartial_ended hxy hroom hroom' he he' h.output
  · cases hxy with
    | @found content stream env' hcontent hstream hincluded hfree =>
        obtain ⟨save, last, last', hpush, hpush', hread, hread', hbeside⟩ :=
          includePartial_found hunread h hend hloops htok hcontent env' hstream
            hincluded hfree
        refine Agree.run_left hpush (Agree.run_right hpush' ?_)
        exact Agree.run_left hread (Agree.run_right hread'
          (Agree.pure (.goes hbeside)))
    | missing env' hmisses =>
        obtain ⟨c, hc⟩ : ∃ c, toks[pos + 1]? = some (.text c) := by
          have hlt : pos + 1 < toks.length := by omega
          have hfound := hunread.found
          rw [List.drop_eq_getElem_cons hpos,
            List.drop_eq_getElem_cons hlt] at hfound
          have hbefore := (List.isChain_cons_cons.mp hfound).1
          have hget := (List.getElem?_eq_some_iff.mp htok).2
          rcases hbefore name hget with ⟨c, hc⟩ | hnever
          · exact ⟨c, by rw [List.getElem?_eq_getElem hlt, hc]⟩
          · exact absurd hmisses (hnever a.env)
        obtain ⟨last, last', hread, hread', hbeside⟩ :=
          includePartial_missing hunread h hloops hc env'
        refine Agree.run_left (returns_pure_self _)
          (Agree.run_right (returns_pure_self _) ?_)
        exact Agree.run_left hread (Agree.run_right hread'
          (Agree.pure (.goes hbeside)))
    | refused env' error =>
        obtain ⟨last, last', hread, hread', henv, houtput⟩ :=
          includePartial_refused h hend env' error
        refine Agree.run_left (returns_pure_self _)
          (Agree.run_right (returns_pure_self _) ?_)
        exact Agree.run_left hread (Agree.run_right hread'
          (Agree.pure (.fails henv houtput)))

theorem step_of_tags {x y : Proc (Bool × Buffer σ ο τ)}
    (hx : ∀ o, Returns (renderStep fns cb a) o ↔
      Returns (x >>= fun r => pure (stepOutcome r)) o)
    (hy : ∀ o, Returns (renderStep fns cb b) o ↔
      Returns (y >>= fun r => pure (stepOutcome r)) o)
    (h : Agree (TagsAlike fns cb partials) x y) :
    Agree (SumRel (Beside fns cb partials) EndsAlike) (renderStep fns cb a)
      (renderStep fns cb b) := by
  have hsteps : Agree (SumRel (Beside fns cb partials) EndsAlike)
      (x >>= fun r => pure (stepOutcome r))
      (y >>= fun r => pure (stepOutcome r)) :=
    h.bind fun r r' hr => Agree.pure hr.outcome
  constructor
  · intro o ho
    obtain ⟨o', ho', hrel⟩ := hsteps.forth o ((hx o).mp ho)
    exact ⟨o', (hy o').mpr ho', hrel⟩
  · intro o' ho'
    obtain ⟨o, ho, hrel⟩ := hsteps.back o' ((hy o').mp ho')
    exact ⟨o, (hx o).mpr ho, hrel⟩

theorem step_ends (h : Aligned fns cb toks spelled pos frontier a b)
    (hend : pos = toks.length) :
    Agree (SumRel (Beside fns cb partials) EndsAlike) (renderStep fns cb a)
      (renderStep fns cb b) := by
  have hleft := h.left.reads_end hend
  have hright := h.right.reads_end (h.length_eq ▸ hend)
  have hloops : b.loops = [] ↔ a.loops = [] := by
    rw [← List.length_eq_zero_iff, ← List.length_eq_zero_iff,
      h.loops.length_eq]
  exact Agree.of_both hleft hright
    (.inr ⟨rfl, h.env, h.output, fun _ => hloops⟩)

/-- Before the last token both renderings fail once all was read. -/
theorem step_sticks (h : Aligned fns cb toks spelled pos frontier a b)
    (hended : frontier = toks.length) {tok : Token}
    (htok : toks[pos]? = some tok) :
    Agree (SumRel (Beside fns cb partials) EndsAlike) (renderStep fns cb a)
      (renderStep fns cb b) := by
  obtain ⟨tok', htok', hspaced⟩ := h.spelled_tok htok
  obtain ⟨c, rest, rest', hbytes, hbytes'⟩ := hspaced.head
  obtain ⟨error, hleft⟩ := h.left.sticks hended htok hbytes
  obtain ⟨error', hright⟩ :=
    h.right.sticks (hended.trans h.length_eq) htok' hbytes'
  have hwritten : Aligned fns cb toks spelled pos frontier
      { a with error := error } { b with error := error' } :=
    h.written h.env h.output error error'
  have hout := hwritten.writes [c]
  exact Agree.of_both hleft hright
    (.inr ⟨rfl, hout.env, hout.output, nofun⟩)

theorem step_alike (hcb : cb.HoldsTemplates fns partials)
    (hunread : Unread cb partials toks frontier)
    (h : Aligned fns cb toks spelled pos frontier a b)
    (hlive : frontier ≠ toks.length) {tok : Token}
    (htok : toks[pos]? = some tok) :
    Agree (SumRel (Beside fns cb partials) EndsAlike) (renderStep fns cb a)
      (renderStep fns cb b) := by
  obtain ⟨tok', htok', hspaced⟩ := h.spelled_tok htok
  have hlive' : frontier ≠ spelled.length := h.length_eq ▸ hlive
  have hvalid := hunread.valid tok (List.mem_of_getElem? htok)
  have hnext := fun hplain => hunread.cross h.left.pos_le htok hplain
  cases hspaced with
  | text c =>
      obtain ⟨after, hstep, hcross⟩ :=
        h.left.reads_text hlive htok hvalid.2
      obtain ⟨after', hstep', hcross'⟩ :=
        h.right.reads_text hlive' htok' hvalid.2
      exact Agree.of_both hstep hstep' (.inl ⟨toks, spelled, pos + 1, _,
        hnext rfl, (h.writes [c]).cross hlive htok hcross hcross'⟩)
  | comment body =>
      obtain ⟨after, hstep, hcross⟩ :=
        h.left.reads_comment hlive htok hvalid.2
      obtain ⟨after', hstep', hcross'⟩ :=
        h.right.reads_comment hlive' htok' hvalid.2
      exact Agree.of_both hstep hstep' (.inl ⟨toks, spelled, pos + 1, _,
        hnext rfl, h.cross hlive htok hcross hcross'⟩)
  | @escaped gap name hgap =>
      have hbare : toks[pos]? = some (.escaped ([] ++ name)) := htok
      obtain ⟨start, block, after, hparse, hname, hcross, hstep⟩ :=
        h.left.reads_plain hlive hbare blanks_nil hvalid.1 hvalid.2
      obtain ⟨start', block', after', hparse', hname', hcross', hstep'⟩ :=
        h.right.reads_plain hlive' htok' hgap hvalid.1 hvalid.2
      have hafter := h.cross hlive htok hcross hcross'
      exact step_of_tags hstep hstep' (renderVariable_alike (hnext rfl) hafter
        (fun c _ _ hab => writeEscaped_beside hab c) hparse hparse' hname
        hname')
  | @raw gap name hgap =>
      have hbytes : ∀ gap : Bytes, (Token.raw (gap ++ name)).bytes = tagOpen ++
          ascii '{' :: (gap ++ (name ++ nameEnd (some [ascii '}']))) := by
        intro gap
        simp [Token.bytes, nameEnd]
      obtain ⟨start, block, after, hparse, hname, hcross, hstep⟩ :=
        h.left.reads_name hlive htok (Or.inr rfl) (hbytes []) blanks_nil hvalid
      obtain ⟨start', block', after', hparse', hname', hcross', hstep'⟩ :=
        h.right.reads_name hlive' htok' (Or.inr rfl) (hbytes gap) hgap hvalid
      have hafter := h.cross hlive htok hcross hcross'
      exact step_of_tags hstep hstep' (renderVariable_alike (hnext rfl) hafter
        (fun c _ _ hab => writeRaw_beside hab c) hparse hparse' hname hname')
  | @opening gap type name hgap =>
      have hbytes : ∀ gap : Bytes, (Token.opening type (gap ++ name)).bytes =
          tagOpen ++ type.sigil :: (gap ++ (name ++ nameEnd none)) := by
        intro gap
        simp [Token.bytes, nameEnd]
      obtain ⟨start, block, after, hparse, hname, hcross, hstep⟩ :=
        h.left.reads_name hlive htok (Or.inl rfl) (hbytes []) blanks_nil hvalid
      obtain ⟨start', block', after', hparse', hname', hcross', hstep'⟩ :=
        h.right.reads_name hlive' htok' (Or.inl rfl) (hbytes gap) hgap hvalid
      have hafter := h.cross hlive htok hcross hcross'
      have htags : ∀ type : LoopType, Agree (TagsAlike fns cb partials)
          (renderStacheLoop fns cb type start)
          (renderStacheLoop fns cb type start') := fun type =>
        renderLoop_alike (hnext rfl) hafter type hparse hparse' hname hname'
      cases type with
      | loopWhile => exact step_of_tags hstep hstep' (htags .loopWhile)
      | loopElse => exact step_of_tags hstep hstep' (htags .loopElse)
  | @closing gap name hgap =>
      have hbytes : ∀ gap : Bytes, (Token.closing (gap ++ name)).bytes =
          tagOpen ++ ascii '/' :: (gap ++ (name ++ nameEnd none)) := by
        intro gap
        simp [Token.bytes, nameEnd]
      obtain ⟨start, block, after, hparse, hname, hcross, hstep⟩ :=
        h.left.reads_name hlive htok (Or.inl rfl) (hbytes []) blanks_nil hvalid
      obtain ⟨start', block', after', hparse', hname', hcross', hstep'⟩ :=
        h.right.reads_name hlive' htok' (Or.inl rfl) (hbytes gap) hgap hvalid
      have hafter := h.cross hlive htok hcross hcross'
      exact step_of_tags hstep hstep'
        (renderEnd_alike (hnext rfl) hafter hparse hparse' hname hname')
  | @inclusion gap name hgap =>
      have hbytes : ∀ gap : Bytes, (Token.inclusion (gap ++ name)).bytes =
          tagOpen ++ ascii '>' :: (gap ++ (name ++ nameEnd none)) := by
        intro gap
        simp [Token.bytes, nameEnd]
      have hfrontier : frontier = pos :=
        @TokenState.frontier_eq_of_plain ⟨toks, frontier, pos, [], []⟩ _
          h.left.pos_le hunread.plain htok rfl
      subst hfrontier
      obtain ⟨start, block, after, hparse, hname, hcross, hstep⟩ :=
        h.left.reads_name hlive htok (Or.inl rfl) (hbytes []) blanks_nil hvalid
      obtain ⟨start', block', after', hparse', hname', hcross', hstep'⟩ :=
        h.right.reads_name hlive' htok' (Or.inl rfl) (hbytes gap) hgap hvalid
      exact step_of_tags hstep hstep' (renderPartial_alike hcb hunread h htok
        hcross hcross' hparse hparse' hname hname')

theorem renderStep_alike (hcb : cb.HoldsTemplates fns partials)
    (h : Beside fns cb partials a b) :
    Agree (SumRel (Beside fns cb partials) EndsAlike) (renderStep fns cb a)
      (renderStep fns cb b) := by
  obtain ⟨toks, spelled, pos, frontier, hunread, h⟩ := h
  cases htok : toks[pos]? with
  | none =>
      have hle := Nat.le_trans h.left.pos_le h.left.frontier_le
      have hend := List.getElem?_eq_none_iff.mp htok
      exact step_ends h (Nat.le_antisymm hle hend)
  | some tok =>
      by_cases hended : frontier = toks.length
      · exact step_sticks h hended htok
      · exact step_alike hcb hunread h hended htok

theorem newBuffer_stands {env : σ} {input : InputStream τ}
    (hinput : input.Delivers fns (tokenBytes toks)) (data : Int → UInt8) :
    ∃ buffer, Returns (bufferNext fns cb (newBuffer env input data))
        (true, buffer) ∧
      StandsAt fns cb toks 0 0 buffer ∧
      SameFrame (newBuffer env input data) buffer ∧
      buffer.included = (env, []) := by
  have hpending : Pending fns input ([] : List (StachePartial ο τ))
      (heldBy cb [] env) ((tokenBytes toks).drop 0) := hinput
  obtain ⟨buffer, hnext, hmoved⟩ := bufferNext_fetches (unwinds_releases cb)
    (show Unwinds cb (newBuffer env input data).env [] _ from ⟨[], rfl⟩)
    (show (newBuffer env input data).index + 1 = ((0 : Nat) : Int) from rfl)
    rfl (Nat.zero_le _) (show (0 : Int) ≤ 4096 by decide)
    (show (0 : Int) < 4096 by decide)
    (fun j hj => absurd hj (Nat.not_lt_zero j)) rfl hpending
  refine ⟨buffer, hnext, ⟨Nat.le_refl 0, Nat.zero_le _, hmoved.reading, ?_,
    hmoved.frame.openDelimiter, hmoved.frame.closeDelimiter⟩, hmoved.frame,
    (bufferNext_fetched hnext).of_nil rfl⟩
  rw [hmoved.eof_eq, ← offset_zero toks]
  exact decide_eq_decide.mpr (offset_eq_length (Nat.zero_le toks.length))

/-- Two renderings of a template, with and without blanks before its names. -/
theorem render_alike (hcb : cb.HoldsTemplates fns partials)
    (htoks : InGrammar cb partials toks)
    (hspelled : List.Forall₂ Token.SpacedAs toks spelled) (env : σ)
    {input input' : InputStream τ}
    (hinput : input.Delivers fns (tokenBytes toks))
    (hinput' : input'.Delivers fns (tokenBytes spelled))
    (data data' : Int → UInt8) :
    Agree (fun r r' => r'.code = r.code ∧ r'.output = r.output ∧
        r'.env = r.env)
      (render fns cb env input data) (render fns cb env input' data') := by
  obtain ⟨a, hnext, hstands, hframe, hincluded⟩ :=
    @newBuffer_stands _ _ _ fns cb _ env _ hinput data
  obtain ⟨b, hnext', hstands', hframe', hincluded'⟩ :=
    @newBuffer_stands _ _ _ fns cb _ env _ hinput' data'
  have hbeside : Beside fns cb partials a b := by
    refine ⟨toks, spelled, 0, 0, ⟨?_, htoks.valid, htoks.known, htoks.found⟩,
      hspelled, hstands, hstands', hincluded'.trans hincluded.symm, ?_, ?_, ?_⟩
    · exact fun tok hx => absurd hx List.not_mem_nil
    · rw [hframe.output, hframe'.output]
      rfl
    · rw [hframe.loops, hframe'.loops]
      exact .nil
    · exact fun _ hpartials => absurd (congrArg Prod.snd hincluded) hpartials
  have hrun : Agree EndsAlike (renderTemplate fns cb a)
      (renderTemplate fns cb b) :=
    Agree.loop (fun _ _ h => renderStep_alike hcb h) hbeside
  refine Agree.run_left hnext (Agree.run_right hnext' ?_)
  dsimp only
  rw [if_pos rfl, if_pos rfl]
  refine hrun.bind ?_
  rintro ⟨result, last⟩ ⟨result', last'⟩ ⟨hresult, henv, houtput, hloops⟩
  apply Agree.pure
  cases hresult
  refine ⟨?_, houtput, henv⟩
  cases result with
  | false => rfl
  | true =>
      have hloops : last'.loops = [] ↔ last.loops = [] := hloops rfl
      by_cases hopen : last.loops = []
      · simp [Buffer.rendered, hopen, hloops.mpr hopen]
      · simp [Buffer.rendered, hopen, mt hloops.mp hopen]

end

end Libcad
