/-
Every kind of tag, once its name has been read: the engine and the token
machine go on together, fail together, or are both without a meaning.
-/
import Libcad.Agree
import Libcad.StacheFollows
import Mathlib.Data.Bool.AllAny

namespace Libcad

open Proc

variable {σ ο τ : Type}

section

variable {fns : StreamFns τ} {cb : Callback σ ο τ} {answers : Answers τ}
  {R : Session σ ο τ} {inclusions : Inclusions} {t : TokenState}
  {lists : List (OpenList ο)} {held : List (Held ο τ)}
  {buffer : Buffer σ ο τ}

/-- Writing a variable on both sides: the same text, or no meaning. -/
def WriteMatch (t : TokenState)
    (write : Option Bytes → Buffer σ ο τ → Proc (Buffer σ ο τ))
    (writeToken : TokenState → Option Bytes → Proc TokenState) : Prop :=
  ∀ c, (∃ text, writeToken t c = pure (t.write text) ∧
      ∀ buffer, bufferSkipOutput buffer = t.skips →
        write c buffer = pure (bufferOutput buffer text)) ∨
    (writeToken t c = Proc.undefined ∧
      ∀ buffer, bufferSkipOutput buffer = t.skips →
        write c buffer = Proc.undefined)

theorem writeRaw_match (t : TokenState) :
    WriteMatch t (writeRaw : _ → Buffer σ ο τ → _) TokenState.writeRaw := by
  intro c
  by_cases hskip : t.skips = true
  · refine Or.inl ⟨[], ?_, ?_⟩
    · rw [TokenState.writeRaw.eq_def, TokenState.write, if_pos hskip,
        if_pos hskip]
    · intro buffer hbuffer
      rw [writeRaw.eq_def, bufferOutput, hbuffer, if_pos hskip, if_pos hskip]
  · cases c with
    | none =>
        refine Or.inr ⟨?_, ?_⟩
        · rw [TokenState.writeRaw, if_neg hskip]
        · intro buffer hbuffer
          rw [writeRaw, hbuffer, if_neg hskip]
    | some c =>
        refine Or.inl ⟨cString c, ?_, ?_⟩
        · rw [TokenState.writeRaw, if_neg hskip]
        · intro buffer hbuffer
          rw [writeRaw, hbuffer, if_neg hskip]

/-- Writing byte by byte comes to writing at once. -/
theorem foldl_bufferOutput (text : Bytes) (f : UInt8 → Bytes) :
    ∀ buffer : Buffer σ ο τ,
      text.foldl (fun buffer c => bufferOutput buffer (f c)) buffer =
        bufferOutput buffer (text.flatMap f) := by
  induction text with
  | nil =>
      intro buffer
      rw [List.foldl_nil, List.flatMap_nil, bufferOutput]
      split
      · rfl
      · rw [List.append_nil]
  | cons c text ih =>
      intro buffer
      rw [List.foldl_cons, ih, List.flatMap_cons]
      by_cases hskip : bufferSkipOutput buffer = true
      · have hsame : ∀ text, bufferOutput buffer text = buffer := by
          intro text
          rw [bufferOutput, if_pos hskip]
        rw [hsame, hsame, hsame]
      · have hwrite : ∀ text, bufferOutput buffer text =
            { buffer with output := buffer.output ++ text } := by
          intro text
          rw [bufferOutput, if_neg hskip]
        rw [hwrite, hwrite, bufferOutput]
        rw [if_neg (show ¬ bufferSkipOutput { buffer with
          output := buffer.output ++ f c } = true from hskip)]
        simp only [List.append_assoc]

theorem writeEscaped_match (t : TokenState) :
    WriteMatch t (writeEscaped : _ → Buffer σ ο τ → _)
      TokenState.writeEscaped := by
  intro c
  cases c with
  | none => exact Or.inr ⟨rfl, fun _ _ => rfl⟩
  | some c =>
      refine Or.inl ⟨(cString c).flatMap escapeChar, rfl, ?_⟩
      intro buffer _
      rw [writeEscaped, foldl_bufferOutput]

theorem freeString_agrees (hs : Serves cb answers R)
    (h : Follows fns R inclusions t lists held buffer) {object : ο}
    {get : Option (Option Bytes)} {free : Option Bool} {env : σ}
    (hsession : R env lists (.string object get free :: held)) :
    Agree (TagMatch fns R inclusions)
      (freeString cb object (buffer.setEnv env))
      (match free with
        | none => Proc.undefined
        | some free => pure (t.goOn free)) := by
  have hfree := hs.stringFree hsession
  rw [freeString]
  cases free with
  | none =>
      have hnull : (buffer.setEnv env).call (cb.stringFree object) =
          Proc.undefined := Matches.call_null _ hfree
      rw [hnull]
      refine Agree.stuck (fun a ha => ?_) fun b => not_returns_undefined
      obtain ⟨_, hcall, -⟩ := returns_bind.mp ha
      exact not_returns_undefined hcall
  | some freed =>
      obtain ⟨env', hcall, hsession'⟩ :=
        Matches.call (buffer.setEnv env) hfree
      apply Agree.run_left hcall
      apply Agree.pure
      cases freed with
      | true => exact .goes (h.setEnv hsession')
      | false => exact TagMatch.failed h.output_eq

theorem renderString_agrees (hs : Serves cb answers R)
    {write : Option Bytes → Buffer σ ο τ → Proc (Buffer σ ο τ)}
    {writeToken : TokenState → Option Bytes → Proc TokenState}
    (h : Follows fns R inclusions t lists held buffer) {object : ο}
    {get : Option (Option Bytes)} {free : Option Bool} {env : σ}
    (hsession : R env lists (.string object get free :: held))
    (hwrite : WriteMatch t write writeToken) :
    Agree (TagMatch fns R inclusions)
      (do
        let (c, buffer) ← (buffer.setEnv env).call (cb.stringGet object)
        let buffer ← write c buffer
        freeString cb object buffer)
      (t.writeVariable (.string get free : Answer τ) writeToken) := by
  have hget := hs.stringGet hsession
  have hstuck : ∀ {α β : Type} {x : Proc α} {f : α → Proc β},
      x = Proc.undefined → ∀ b, ¬ Returns (x >>= f) b := by
    intro α β x f hx b hb
    obtain ⟨_, hundefined, -⟩ := returns_bind.mp hb
    rw [hx] at hundefined
    exact not_returns_undefined hundefined
  cases get with
  | none =>
      exact Agree.stuck
        (hstuck (Matches.call_null (buffer.setEnv env) hget))
        fun b => not_returns_undefined
  | some c =>
      obtain ⟨env₁, hcall, hsession₁⟩ :=
        Matches.call (buffer.setEnv env) hget
      apply Agree.run_left hcall
      dsimp only
      rcases hwrite c with ⟨text, htoken, hbuffer⟩ | ⟨htoken, hbuffer⟩
      · have hwritten : write c (buffer.setEnv env₁) =
            pure ((bufferOutput buffer text).setEnv env₁) := by
          rw [hbuffer (buffer.setEnv env₁) h.skips, bufferOutput_setEnv]
        change Agree _ (write c (buffer.setEnv env₁) >>= _) _
        rw [hwritten]
        apply Agree.run_left (returns_pure_self _)
        have hfree := freeString_agrees hs (h.write text) hsession₁
        cases free with
        | none =>
            rw [TokenState.writeVariable, htoken]
            exact Agree.run_right (returns_pure_self _) hfree
        | some freed =>
            rw [TokenState.writeVariable, htoken]
            exact Agree.run_right (returns_pure_self _) hfree
      · refine Agree.stuck (hstuck (hbuffer _ h.skips)) ?_
        cases free with
        | none => exact hstuck htoken
        | some freed => exact hstuck htoken

theorem renderVariable_agrees (hs : Serves cb answers R)
    {suffix : Option Bytes} {error : String}
    {write : Option Bytes → Buffer σ ο τ → Proc (Buffer σ ο τ)}
    {writeToken : TokenState → Option Bytes → Proc TokenState}
    {start : Buffer σ ο τ} {block : NameBlock} {name : Bytes}
    (hparse : Returns (parseName fns cb suffix start) (some block, buffer))
    (hname : block.string = name) (hne : name ≠ [])
    (h : Follows fns R inclusions t lists held buffer)
    (hwrite : WriteMatch t write writeToken) :
    Agree (TagMatch fns R inclusions)
      (renderVariable fns cb suffix error write start)
      (t.writeVariable (answers (framesOf t.loops) name) writeToken) := by
  rw [renderVariable]
  apply Agree.run_left hparse
  dsimp only
  rw [hname, if_neg hne, Buffer.resolve]
  have hresolve := hs.resolve name h.reading.session
  rw [h.loops.frames] at hresolve
  generalize answers (framesOf t.loops) name = answer at hresolve ⊢
  rcases hlookup : cb.resolve buffer.env name with ⟨lookup, env⟩
  rw [hlookup] at hresolve
  have hfails : ∀ error : String, Agree (TagMatch fns R inclusions)
      (pure ((buffer.setEnv env).fail error)) (pure t.failed) :=
    fun error => Agree.pure (TagMatch.failed h.output_eq)
  cases answer with
  | notFound =>
      cases lookup with
      | notFound => exact Agree.pure (.goes (h.setEnv hresolve))
      | _ => exact hresolve.elim
  | invalid =>
      cases lookup with
      | invalid => exact hfails _
      | _ => exact hresolve.elim
  | list get close =>
      cases lookup with
      | list object => exact hfails _
      | _ => exact hresolve.elim
  | stream get free =>
      cases lookup with
      | stream object => exact hfails _
      | _ => exact hresolve.elim
  | string get free =>
      cases lookup with
      | string object => exact renderString_agrees hs h hresolve hwrite
      | _ => exact hresolve.elim

/-- A section that is neither a list nor refused. -/
theorem Follows.open_plain (h : Follows fns R inclusions t lists held buffer)
    (type : LoopType) (name : Bytes) {lookup : Lookup ο}
    (hlookup : lookup.isPlain = true) (empty : Bool) (error : String)
    {env : σ} (hsession : R env lists held) :
    TagMatch fns R inclusions
      (true, { buffer.setEnv env with
        error := error,
        loops := ⟨type, name, lookup, buffer.index, 0, empty⟩ ::
          buffer.loops })
      (.inl { t with loops := ⟨type, name, none, t.pos, 0, empty⟩ :: t.loops }) :=
  .goes (h.push hsession error (.plain
    (h.sameLoop type name lookup empty none) hlookup rfl h.loops))

theorem releaseSection_matches
    (h : Follows fns R inclusions t lists held buffer) (type : LoopType)
    (name : Bytes) {lookup : Lookup ο} (hlookup : lookup.isPlain = true)
    {free : Option (σ → Bool × σ)} {freed : Option Bool} {env : σ}
    (error error' : String)
    (hfree : Matches free freed env fun env => R env lists held)
    (result empty : Bool) :
    let opened := releaseSection free error'
      (result, empty, { buffer.setEnv env with error := error })
    TagMatch fns R inclusions
      (opened.1, { opened.2.2 with
        loops := ⟨type, name, lookup, opened.2.2.index, 0, opened.2.1⟩ ::
          opened.2.2.loops })
      ({ t with loops := ⟨type, name, none, t.pos, 0, empty⟩ :: t.loops }.goOn
        (result && freed.getD false)) := by
  intro opened
  obtain ⟨env', hcall, hsession⟩ :=
    Matches.release { buffer.setEnv env with error := error } hfree
  simp only [opened, releaseSection, hcall]
  by_cases hfreed : freed.getD false = true
  · rw [if_pos hfreed, hfreed, Bool.and_true]
    cases result with
    | true => exact h.open_plain type name hlookup empty error (hsession hfreed)
    | false => exact TagMatch.failed h.output_eq
  · rw [if_neg hfreed, (Bool.not_eq_true _).mp hfreed, Bool.and_false]
    exact TagMatch.failed h.output_eq

theorem openString_agrees (hs : Serves cb answers R)
    (h : Follows fns R inclusions t lists held buffer) (type : LoopType)
    (name : Bytes) {object : ο} {get : Option (Option Bytes)}
    {free : Option Bool} {env : σ}
    (hsession : R env lists (.string object get free :: held)) :
    let opened := openLoop fns cb (.string object) (buffer.setEnv env)
    TagMatch fns R inclusions
      (opened.1, { opened.2.2 with
        loops := ⟨type, name, .string object, opened.2.2.index, 0,
          opened.2.1⟩ :: opened.2.2.loops })
      (t.openSection fns type name (.string get free)) := by
  intro opened
  obtain ⟨env₁, hget, hsession₁⟩ := (hs.stringGet hsession).callOr
    (buffer.setEnv env) none fun _ => hsession
  have hc : get.getD none = get.join := by cases get <;> rfl
  simp only [opened, openLoop, hget, hc, TokenState.openSection, Answer.opened]
  exact releaseSection_matches h type name rfl buffer.error _
    (hs.stringFree hsession₁) true _

theorem openStream_agrees (hs : Serves cb answers R)
    (h : Follows fns R inclusions t lists held buffer) (type : LoopType)
    (name : Bytes) {object : ο} {get : Option (Option (InputStream τ))}
    {free : Option Bool} {env : σ}
    (hsession : R env lists (.stream object get free :: held)) :
    let opened := openLoop fns cb (.stream object) (buffer.setEnv env)
    TagMatch fns R inclusions
      (opened.1, { opened.2.2 with
        loops := ⟨type, name, .stream object, opened.2.2.index, 0,
          opened.2.1⟩ :: opened.2.2.loops })
      (t.openSection fns type name (.stream get free)) := by
  intro opened
  obtain ⟨env₁, hget, hsession₁⟩ := (hs.streamGet hsession).callOr
    (buffer.setEnv env) none fun _ => hsession
  have hs' : get.getD none = get.join := by cases get <;> rfl
  simp only [opened, openLoop, hget, hs', TokenState.openSection,
    Answer.opened, readSection]
  have hfree := hs.streamFree hsession₁
  cases streamEmpty fns get.join with
  | none =>
      exact releaseSection_matches h type name rfl
        "error while reading partial" _ hfree false false
  | some empty =>
      exact releaseSection_matches h type name rfl buffer.error _ hfree true
        empty

theorem openList_agrees (hs : Serves cb answers R)
    (h : Follows fns R inclusions t lists held buffer) (type : LoopType)
    (name : Bytes) {object : ο} {get : Option (Int → Bool)}
    {close : Option Bool} {env : σ}
    (hsession : R env (⟨object, ⟨name, 0⟩, get, close⟩ :: lists) held) :
    let opened := openLoop fns cb (.list object) (buffer.setEnv env)
    TagMatch fns R inclusions
      (opened.1, { opened.2.2 with
        loops := ⟨type, name, .list object, opened.2.2.index, 0,
          opened.2.1⟩ :: opened.2.2.loops })
      (t.openSection fns type name (.list get close)) := by
  intro opened
  obtain ⟨env₁, hget, hsession₁⟩ := (hs.listGet 0 hsession).callOr
    (buffer.setEnv env) false fun _ => hsession
  simp only [opened, openLoop, hget, TokenState.openSection, Answer.opened]
  exact .goes (h.push hsession₁ buffer.error (.list
    (h.sameLoop type name (.list object) _ (some (get, close))) rfl rfl
    h.loops))

theorem renderLoop_agrees (hs : Serves cb answers R) (type : LoopType)
    {start : Buffer σ ο τ} {block : NameBlock} {name : Bytes}
    (hparse : Returns (parseName fns cb none start) (some block, buffer))
    (hname : block.string = name)
    (h : Follows fns R inclusions t lists held buffer) :
    Agree (TagMatch fns R inclusions) (renderStacheLoop fns cb type start)
      (pure (t.openSection fns type name
        (answers (framesOf t.loops) name))) := by
  rw [renderStacheLoop]
  apply Agree.run_left hparse
  dsimp only
  rw [hname, Buffer.resolve]
  have hresolve := hs.resolve name h.reading.session
  rw [h.loops.frames] at hresolve
  generalize answers (framesOf t.loops) name = answer at hresolve ⊢
  rcases hlookup : cb.resolve buffer.env name with ⟨lookup, env⟩
  rw [hlookup] at hresolve
  apply Agree.pure
  have hout := h.output_eq
  cases answer with
  | notFound =>
      cases lookup with
      | notFound => exact h.open_plain type name rfl true buffer.error hresolve
      | _ => exact hresolve.elim
  | invalid =>
      cases lookup with
      | invalid => exact TagMatch.failed hout
      | _ => exact hresolve.elim
  | string get free =>
      cases lookup with
      | string object =>
          exact openString_agrees hs h type name hresolve
      | _ => exact hresolve.elim
  | list get close =>
      cases lookup with
      | list object => exact openList_agrees hs h type name hresolve
      | _ => exact hresolve.elim
  | stream get free =>
      cases lookup with
      | stream object => exact openStream_agrees hs h type name hresolve
      | _ => exact hresolve.elim

/-- The end of a list section without a further item. -/
theorem closeList_agrees (hs : Serves cb answers R)
    (h : Follows fns R inclusions t lists held buffer) {object : ο}
    {frame : Frame} {get : Option (Int → Bool)} {close : Option Bool}
    {loops : List (StacheLoop ο)} {ms : List TokenLoop}
    {tail : List (OpenList ο)} {after : Buffer σ ο τ}
    (hafter : ∃ loops', after = { buffer.setEnv after.env with loops := loops' })
    (hsession : R after.env (⟨object, frame, get, close⟩ :: tail) held)
    (hloops : LoopsMatch t loops ms tail) :
    let closed := after.callOr (cb.listClose object) false
    TagMatch fns R inclusions
      (if closed.1 then (true, { closed.2 with loops := loops })
        else closed.2.fail "could not close loop list")
      ({ t with loops := ms }.goOn (close.getD false)) := by
  intro closed
  obtain ⟨loops', hafter⟩ := hafter
  obtain ⟨env, hcall, hsession'⟩ := (hs.listClose hsession).release after
  simp only [closed, hcall]
  by_cases hclosed : close.getD false = true
  · rw [if_pos hclosed, TokenState.goOn, if_pos hclosed, hafter]
    exact .goes (h.setLoops (hsession' hclosed) hloops)
  · rw [if_neg hclosed, TokenState.goOn, if_neg hclosed, hafter]
    exact TagMatch.failed h.output_eq

theorem endList_agrees (hs : Serves cb answers R)
    (h : Follows fns R inclusions t lists held buffer)
    {loop : StacheLoop ο} {m : TokenLoop} {loops : List (StacheLoop ο)}
    {ms : List TokenLoop} {tail : List (OpenList ο)} {object : ο}
    {get : Option (Int → Bool)} {close : Option Bool}
    (hlookup : loop.lookup = .list object) (hlist : m.list = some (get, close))
    (hsame : SameLoop t loop m)
    (hlists : lists = ⟨object, ⟨m.name, m.index⟩, get, close⟩ :: tail)
    (hloops : LoopsMatch t loops ms tail) :
    Agree (TagMatch fns R inclusions) (endList cb object loop loops buffer)
      (t.endSection m ms get close) := by
  have hsession := h.reading.session
  rw [hlists] at hsession
  have hnext := hsame.next
  have htype : loop.next.type = m.type := hnext.type_eq
  rw [endList, TokenState.endSection]
  dsimp only
  rw [htype, hnext.loopIndex_eq]
  cases m.type with
  | loopElse =>
      apply Agree.run_left (returns_pure_self _)
      apply Agree.run_right (returns_pure_self _)
      exact Agree.pure (closeList_agrees hs h ⟨_, rfl⟩ hsession hloops)
  | loopWhile =>
      let counted := { buffer with loops := loop.next :: loops }
      have hcounted : R counted.env _ held := hsession
      have hget := hs.listGet m.next.index hcounted
      cases get with
      | none =>
          refine Agree.stuck (fun a ha => ?_) fun b hb => ?_
          · obtain ⟨_, hcall, -⟩ := returns_bind.mp ha
            exact Matches.call_stuck counted hget _ hcall
          · obtain ⟨_, hcall, -⟩ := returns_bind.mp hb
            exact not_returns_undefined hcall
      | some get =>
          obtain ⟨env, hcall, hsession'⟩ := Matches.call counted hget
          apply Agree.run_left hcall
          apply Agree.run_right (returns_pure_self _)
          dsimp only
          by_cases hfound : get m.next.index = true
          · rw [if_pos hfound, if_pos hfound]
            have hset := h.setLoops hsession'
              (.list hnext hlookup hlist hloops)
            exact Agree.pure
              (.goes (hset.rewind hsame.mark_le hsame.index_eq))
          · rw [if_neg hfound, if_neg hfound]
            exact Agree.pure (closeList_agrees hs h ⟨_, rfl⟩ hsession' hloops)

/-- The closing tag of a section whose name has been read. -/
theorem renderEnd_agrees (hs : Serves cb answers R) {start : Buffer σ ο τ}
    {block : NameBlock} {name : Bytes}
    (hparse : Returns (parseName fns cb none start) (some block, buffer))
    (hname : block.string = name)
    (h : Follows fns R inclusions t lists held buffer) :
    Agree (TagMatch fns R inclusions) (renderStacheEnd fns cb start)
      (t.closeSection name) := by
  rw [renderStacheEnd]
  apply Agree.run_left hparse
  dsimp only
  rw [hname, TokenState.closeSection]
  have hloops := h.loops
  generalize hms : t.loops = ms at hloops
  generalize hbs : buffer.loops = loops at hloops
  cases hloops with
  | nil => exact Agree.pure (TagMatch.failed h.output_eq)
  | @plain loop m loops ms _ hsame hplain hlist hrest =>
      dsimp only
      rw [hsame.name_eq]
      by_cases hother : name ≠ m.name
      · rw [if_pos hother, if_pos hother]
        exact Agree.pure (TagMatch.failed h.output_eq)
      · rw [if_neg hother, if_neg hother, hlist]
        have hgoes := TagMatch.goes (h.setLoops h.reading.session hrest)
        cases hlookup : loop.lookup with
        | notFound => exact Agree.pure hgoes
        | string object => exact Agree.pure hgoes
        | stream object => exact Agree.pure hgoes
        | list object => rw [hlookup] at hplain; cases hplain
        | invalid => rw [hlookup] at hplain; cases hplain
  | @list loop m loops ms tail object get close hsame hlookup hlist hrest =>
      dsimp only
      rw [hsame.name_eq]
      by_cases hother : name ≠ m.name
      · rw [if_pos hother, if_pos hother]
        exact Agree.pure (TagMatch.failed h.output_eq)
      · rw [if_neg hother, if_neg hother, hlookup, hlist]
        exact endList_agrees hs h hlookup hlist hsame rfl hrest

theorem Token.bytes_readable {tok : Token} (h : tok.Valid) :
    ∀ c ∈ tok.bytes, Readable c := by
  have hascii : ∀ c : UInt8, c ∈ (tagOpen ++ tagClose ++ sigils) →
      Readable c := by
    intro c hc
    simp only [tagOpen, tagClose, sigils, List.cons_append, List.nil_append,
      List.mem_cons, List.not_mem_nil, or_false] at hc
    rcases hc with h | h | h | h | h | h | h | h | h | h | h <;>
      exact h ▸ ⟨by decide, by decide⟩
  have htag : ∀ {sigil body suffix : Bytes}, (∀ c ∈ sigil, c ∈ sigils) →
      (∀ c ∈ body, Readable c) →
      (∀ c ∈ suffix, c ∈ tagOpen ++ tagClose ++ sigils) →
      ∀ c ∈ tagOpen ++ (sigil ++ (body ++ suffix)), Readable c := by
    intro sigil body suffix hsigil hbody hsuffix c hc
    rcases List.mem_append.mp hc with hc | hc
    · exact hascii c (by simp [hc])
    rcases List.mem_append.mp hc with hc | hc
    · exact hascii c (List.mem_append_right _ (hsigil c hc))
    rcases List.mem_append.mp hc with hc | hc
    · exact hbody c hc
    · exact hascii c (hsuffix c hc)
  have hclose : ∀ c ∈ tagClose, c ∈ tagOpen ++ tagClose ++ sigils :=
    List.all_iff_forall_prop.mp (by decide)
  cases tok with
  | text c =>
      intro d hd
      rw [List.mem_singleton.mp hd]
      exact h.1
  | escaped name =>
      have hsigil : ∀ c ∈ ([] : Bytes), c ∈ sigils := by simp
      have := htag hsigil h.1.readable hclose
      simpa [Token.bytes] using this
  | raw name =>
      have hsigil : ∀ c ∈ [ascii '{'], c ∈ sigils :=
        List.all_iff_forall_prop.mp (by decide)
      have hsuffix : ∀ c ∈ ascii '}' :: tagClose,
          c ∈ tagOpen ++ tagClose ++ sigils :=
        List.all_iff_forall_prop.mp (by decide)
      have := htag hsigil h.readable hsuffix
      simpa [Token.bytes] using this
  | comment body =>
      have hsigil : ∀ c ∈ [ascii '!'], c ∈ sigils :=
        List.all_iff_forall_prop.mp (by decide)
      have := htag hsigil h.1 hclose
      simpa [Token.bytes] using this
  | opening type name =>
      have hsigil : ∀ c ∈ [type.sigil], c ∈ sigils :=
        List.all_iff_forall_prop.mp (by cases type <;> decide)
      have := htag hsigil h.readable hclose
      simpa [Token.bytes] using this
  | closing name =>
      have hsigil : ∀ c ∈ [ascii '/'], c ∈ sigils :=
        List.all_iff_forall_prop.mp (by decide)
      have := htag hsigil h.readable hclose
      simpa [Token.bytes] using this
  | inclusion name =>
      have hsigil : ∀ c ∈ [ascii '>'], c ∈ sigils :=
        List.all_iff_forall_prop.mp (by decide)
      have := htag hsigil h.readable hclose
      simpa [Token.bytes] using this

theorem tokenBytes_readable {toks : List Token}
    (h : ∀ tok ∈ toks, tok.Valid) : ∀ c ∈ tokenBytes toks, Readable c := by
  intro c hc
  obtain ⟨tok, htok, hc⟩ := List.mem_flatMap.mp hc
  exact Token.bytes_readable (h tok htok) c hc

/-- A string stream delivers the text of valid tokens. -/
theorem delivers_tokenBytes (fns : StreamFns τ) {toks : List Token}
    (h : ∀ tok ∈ toks, tok.Valid) :
    (newInputStreamFromString (tokenBytes toks) : InputStream τ).Delivers fns
      (tokenBytes toks) :=
  newInputStreamFromString_delivers fns _
    (fun hmem => (tokenBytes_readable h 0 hmem).1 rfl)
    (fun hmem => (tokenBytes_readable h 255 hmem).2 rfl)

theorem openPartial_found (hs : Serves cb answers R) {content : List Token}
    (hcontent : ∀ tok ∈ content, tok.Valid) {answer : Answer τ}
    (hdelivers : answer.Delivers fns (tokenBytes content)) {name : Bytes}
    {lookup : Lookup ο} {env : σ}
    (hresolve : Resolves R lists held name answer (lookup, env))
    (buffer : Buffer σ ο τ) :
    ∃ stream env' h₀,
      Returns (openPartial cb lookup (buffer.setEnv env))
        (true, some stream, buffer.setEnv env') ∧
      R env' lists (h₀ :: held) ∧ Releasable lookup h₀ ∧
      stream.Delivers fns (tokenBytes content) := by
  cases answer with
  | notFound => exact hdelivers.elim
  | invalid => exact hdelivers.elim
  | list get close => exact hdelivers.elim
  | string get free =>
      cases lookup with
      | string object =>
          match get, free, hdelivers with
          | some (some c), some freed, hc =>
              obtain ⟨env', hcall, hsession⟩ :=
                (hs.stringGet hresolve).call (buffer.setEnv env)
              have hc : c = tokenBytes content := hc
              subst hc
              exact ⟨_, env', _, hcall.bind (returns_pure_self _), hsession,
                ⟨rfl, rfl⟩, delivers_tokenBytes fns hcontent⟩
      | _ => exact hresolve.elim
  | stream get free =>
      cases lookup with
      | stream object =>
          match get, free, hdelivers with
          | some (some s), some freed, hstream =>
              obtain ⟨env', hcall, hsession⟩ :=
                (hs.streamGet hresolve).call (buffer.setEnv env)
              exact ⟨s, env', _, hcall.bind (returns_pure_self _), hsession,
                ⟨rfl, rfl⟩, hstream⟩
      | _ => exact hresolve.elim

theorem openPartial_missing (hs : Serves cb answers R) {answer : Answer τ}
    (hmissing : answer.IsMissing) {name : Bytes} {lookup : Lookup ο} {env : σ}
    (hresolve : Resolves R lists held name answer (lookup, env))
    (buffer : Buffer σ ο τ) :
    ∃ env', Returns (openPartial cb lookup (buffer.setEnv env))
        (true, none, buffer.setEnv env') ∧ R env' lists held := by
  cases answer with
  | list get close => exact hmissing.elim
  | notFound =>
      cases lookup with
      | notFound => exact ⟨env, returns_pure_self _, hresolve⟩
      | _ => exact hresolve.elim
  | invalid =>
      cases lookup with
      | invalid => exact ⟨env, returns_pure_self _, hresolve⟩
      | _ => exact hresolve.elim
  | string get free =>
      cases lookup with
      | string object =>
          match get, free, hmissing with
          | some none, some freed, _ =>
              obtain ⟨env₁, hcall, hsession⟩ :=
                (hs.stringGet hresolve).call (buffer.setEnv env)
              obtain ⟨env₂, hfree, hsession'⟩ :=
                (hs.stringFree hsession).call (buffer.setEnv env₁)
              exact ⟨env₂, hcall.bind (hfree.bind (returns_pure_self _)),
                hsession'⟩
      | _ => exact hresolve.elim
  | stream get free =>
      cases lookup with
      | stream object =>
          match get, free, hmissing with
          | some none, some freed, _ =>
              obtain ⟨env₁, hcall, hsession⟩ :=
                (hs.streamGet hresolve).call (buffer.setEnv env)
              obtain ⟨env₂, hfree, hsession'⟩ :=
                (hs.streamFree hsession).call (buffer.setEnv env₁)
              exact ⟨env₂, hcall.bind (hfree.bind (returns_pure_self _)),
                hsession'⟩
      | _ => exact hresolve.elim

/-- Reading goes on with the tokens that take the place of an inclusion. -/
theorem Follows.resume (hs : Serves cb answers R)
    (h : Follows fns R inclusions t lists held buffer)
    (hfrontier : t.frontier = t.pos) (toks : List Token)
    (htake : toks.take t.pos = t.toks.take t.pos)
    (hlen : t.pos ≤ toks.length) (hok : ∀ tok ∈ toks, TokenOk inclusions tok)
    (before : Buffer σ ο τ) {held' : List (Held ο τ)}
    (hsession : R before.env lists held') (hframe : SameFrame buffer before)
    (hindex : before.index = buffer.index - 1)
    (hfill : before.fill = buffer.index)
    (hcap : before.fill < before.capacity) (he : before.eof = false)
    (hdata : ∀ j, j < offset t.toks t.pos →
      (tokenBytes t.toks)[j]? = some (before.data j))
    (hpending : Pending fns before.input before.partials held'
      (tokenBytes (toks.drop t.pos))) :
    ∃ last, Returns (bufferNext fns cb before) (true, last) ∧
      TagMatch fns R inclusions (true, last) (.inl { t with toks := toks }) := by
  have hoffset : ∀ n ≤ t.pos, offset toks n = offset t.toks n := by
    intro n hn
    have hmin : min n t.pos = n := Nat.min_eq_left hn
    have hsame := congrArg (List.take n) htake
    rw [List.take_take, List.take_take, hmin] at hsame
    rw [offset, offset, hsame]
  have hat := h.reading.index_eq
  have hbytes : (tokenBytes toks).take (offset t.toks t.pos) =
      (tokenBytes t.toks).take (offset t.toks t.pos) := by
    rw [take_offset, ← hoffset t.pos (Nat.le_refl _), take_offset, htake]
  have hle : offset t.toks t.pos ≤ (tokenBytes toks).length := by
    rw [← hoffset t.pos (Nat.le_refl _), ← offset_length]
    exact offset_mono toks hlen
  have hdata' : ∀ j, j < offset t.toks t.pos →
      (tokenBytes toks)[j]? = some (before.data j) := by
    intro j hj
    rw [← hdata j hj, ← List.getElem?_take_of_lt hj, hbytes,
      List.getElem?_take_of_lt hj]
  rw [← drop_offset, hoffset t.pos (Nat.le_refl _)] at hpending
  obtain ⟨last, hnext, hmoved⟩ := bufferNext_fetches hs.releases hsession
    (show before.index + 1 = _ by rw [hindex, hat]; omega)
    (hfill.trans hat) hle (by omega) (by omega) hdata' he hpending
  obtain ⟨held'', hreading⟩ := hmoved.reading
  have hfollows : Follows fns R inclusions { t with toks := toks } lists held''
      last := ?_
  · exact ⟨last, hnext, .goes hfollows⟩
  refine ⟨h.pos_le, ?_, ?_, hok, ?_, ?_, ?_, ?_, ?_, ?_⟩
  · show t.frontier ≤ toks.length
    rw [hfrontier]
    exact hlen
  · show ∀ tok ∈ toks.take t.frontier, tok.includes = false
    rw [hfrontier, htake, ← hfrontier]
    exact h.plain
  · rw [hmoved.frame.loops, hframe.loops]
    exact h.loops.congr (Nat.le_refl _) fun n hn =>
      hoffset n (hfrontier ▸ hn)
  · show Reading fns R lists (tokenBytes toks) (offset toks t.pos)
      (readAhead (tokenBytes toks) 0 (offset toks t.frontier)) last held''
    have hahead : readAhead (tokenBytes toks) (offset t.toks t.pos)
        (offset t.toks t.pos) =
        readAhead (tokenBytes toks) 0 (offset t.toks t.pos) := by
      rw [readAhead, readAhead]
      omega
    rw [hfrontier, hoffset t.pos (Nat.le_refl _), ← hahead]
    exact hreading
  · show last.eof = decide (t.frontier = toks.length)
    rw [hmoved.eof_eq, hfrontier, ← hoffset t.pos (Nat.le_refl _)]
    exact decide_eq_decide.mpr (offset_eq_length hlen)
  · exact (hmoved.frame.output.trans hframe.output).trans h.output_eq
  · exact (hmoved.frame.openDelimiter.trans hframe.openDelimiter).trans
      h.openDelimiter
  · exact (hmoved.frame.closeDelimiter.trans hframe.closeDelimiter).trans
      h.closeDelimiter

/-- A partial whose name has been read, with more text after it. -/
structure AtPartial (fns : StreamFns τ) (cb : Callback σ ο τ)
    (R : Session σ ο τ) (inclusions : Inclusions) (t : TokenState)
    (lists : List (OpenList ο)) (held : List (Held ο τ)) (name : Bytes)
    (buffer start after : Buffer σ ο τ) : Prop where
  follows : Follows fns R inclusions t lists held buffer
  tok_eq : t.toks[t.pos]? = some (.inclusion name)
  frontier_eq : t.frontier = t.pos
  more : t.pos + 1 < t.toks.length
  parse : ∃ block, Returns (parseName fns cb none start) (some block, after) ∧
    block.string = name
  moved : Moved fns R lists (tokenBytes t.toks)
    (readAhead (tokenBytes t.toks) 0 (offset t.toks t.frontier))
    (offset t.toks (t.pos + 1)) buffer after

variable {name : Bytes} {start after : Buffer σ ο τ}

theorem AtPartial.offset_lt
    (h : AtPartial fns cb R inclusions t lists held name buffer start after) :
    offset t.toks (t.pos + 1) < (tokenBytes t.toks).length := by
  rw [← offset_length]
  exact Libcad.offset_lt h.more (Nat.le_refl _)

/-- The buffer is live and has read one byte past the tag. -/
theorem AtPartial.reading
    (h : AtPartial fns cb R inclusions t lists held name buffer start after) :
    after.eof = false ∧ ∃ held', Reading fns R lists (tokenBytes t.toks)
      (offset t.toks (t.pos + 1)) (offset t.toks (t.pos + 1) + 1) after
      held' := by
  obtain ⟨held', hreading⟩ := h.moved.reading
  have hlt := h.offset_lt
  have hmono := offset_le_succ t.toks t.pos
  have hahead : readAhead (tokenBytes t.toks)
      (readAhead (tokenBytes t.toks) 0 (offset t.toks t.frontier))
      (offset t.toks (t.pos + 1)) = offset t.toks (t.pos + 1) + 1 := by
    rw [h.frontier_eq, readAhead, readAhead]
    omega
  rw [hahead] at hreading
  exact ⟨h.moved.eof_eq_false hlt, held', hreading⟩

theorem AtPartial.data
    (h : AtPartial fns cb R inclusions t lists held name buffer start after) :
    ∀ j, j < offset t.toks t.pos →
      (tokenBytes t.toks)[j]? = some (after.data j) := by
  obtain ⟨-, held', hreading⟩ := h.reading
  have hmono := offset_le_succ t.toks t.pos
  exact fun j hj => hreading.data j (by omega)

theorem AtPartial.capacity
    (h : AtPartial fns cb R inclusions t lists held name buffer start after) :
    buffer.index < after.capacity := by
  obtain ⟨-, held', hreading⟩ := h.reading
  have hmono := offset_le_succ t.toks t.pos
  have hcap := hreading.fill_le_capacity
  rw [h.follows.reading.index_eq]
  omega

theorem renderPartial_found (hs : Serves cb answers R)
    (h : AtPartial fns cb R inclusions t lists held name buffer start after)
    {content : List Token}
    (hdelivers : ∀ frames,
      (answers frames name).Delivers fns (tokenBytes content))
    (hcontent : ∀ tok ∈ content, TokenOk inclusions tok) :
    Agree (TagMatch fns R inclusions)
      (renderStachePartial fns cb buffer.index start)
      (t.enter (some (.found content))) := by
  obtain ⟨block, hparse, hblock⟩ := h.parse
  obtain ⟨hlive, held', hreading⟩ := h.reading
  have hmore := h.more
  rw [renderStachePartial, TokenState.enter, if_neg (by omega)]
  apply Agree.run_left hparse
  dsimp only
  rw [hblock, Buffer.resolve]
  have hresolve := hs.resolve name hreading.session
  rcases hlookup : cb.resolve after.env name with ⟨lookup, env⟩
  rw [hlookup] at hresolve
  obtain ⟨stream, env', h₀, hopen, hsession, hrelease, hstream⟩ :=
    openPartial_found hs (fun tok htok => (hcontent tok htok).valid)
      (hdelivers _) hresolve after
  apply Agree.run_left hopen
  dsimp only
  obtain ⟨save, tail, htail⟩ : ∃ save tail,
      (tokenBytes t.toks).drop (offset t.toks (t.pos + 1)) = save :: tail :=
    List.exists_cons_of_ne_nil fun hnil =>
      absurd (List.drop_eq_nil_iff.mp hnil) (Nat.not_le.mpr h.offset_lt)
  have hitem : Returns (bufferItem (after.setEnv env')) save :=
    hreading.item (Nat.lt_succ_self _) htail
  have hpush : Returns
      (pushPartial lookup (some stream) (after.setEnv env'))
      { after.setEnv env' with
        partials := ⟨lookup, stream, save⟩ :: after.partials } :=
    hitem.bind (returns_pure_self _)
  apply Agree.run_left hpush
  dsimp only
  let before : Buffer σ ο τ :=
    { after.setEnv env' with
      partials := ⟨lookup, stream, save⟩ :: after.partials,
      index := buffer.index - 1, fill := buffer.index }
  have hpos : (t.toks.take t.pos).length = t.pos :=
    List.length_take_of_le (by omega)
  have hpending : Pending fns before.input before.partials (h₀ :: held')
      (tokenBytes ((t.toks.take t.pos ++ content ++
        t.toks.drop (t.pos + 1)).drop t.pos)) := by
    refine ⟨hrelease, tokenBytes content, tail, hstream, ?_, ?_⟩
    · rw [List.append_assoc, List.drop_left' hpos, tokenBytes_append,
        ← drop_offset, htail]
    · rw [← drop_succ htail]
      exact (hreading.live hlive).2
  have hok : ∀ tok ∈ t.toks.take t.pos ++ content ++ t.toks.drop (t.pos + 1),
      TokenOk inclusions tok := by
    intro tok htok
    rcases List.mem_append.mp htok with htok | htok
    · rcases List.mem_append.mp htok with htok | htok
      · exact h.follows.ok tok (List.mem_of_mem_take htok)
      · exact hcontent tok htok
    · exact h.follows.ok tok (List.mem_of_mem_drop htok)
  obtain ⟨last, hnext, hgoes⟩ := h.follows.resume hs h.frontier_eq
    (t.toks.take t.pos ++ content ++ t.toks.drop (t.pos + 1))
    (by rw [List.append_assoc, List.take_left' hpos])
    (by simp only [List.length_append]; omega) hok
    before hsession
    (h.moved.frame.trans ⟨rfl, rfl, rfl, rfl⟩) rfl rfl h.capacity hlive h.data
    hpending
  apply Agree.run_left hnext
  dsimp only
  rw [if_pos rfl]
  exact Agree.pure hgoes

/-- A partial that is not there, before a text byte, on both sides. -/
theorem renderPartial_missing (hs : Serves cb answers R)
    (h : AtPartial fns cb R inclusions t lists held name buffer start after)
    (hmissing : ∀ frames, (answers frames name).IsMissing) {c : UInt8}
    (htext : t.toks[t.pos + 1]? = some (.text c)) :
    Agree (TagMatch fns R inclusions)
      (renderStachePartial fns cb buffer.index start)
      (t.enter (some .missing)) := by
  obtain ⟨block, hparse, hblock⟩ := h.parse
  obtain ⟨hlive, held', hreading⟩ := h.reading
  have hmore := h.more
  rw [renderStachePartial, TokenState.enter, if_neg (by omega)]
  dsimp only
  rw [htext]
  apply Agree.run_left hparse
  dsimp only
  rw [hblock, Buffer.resolve]
  have hresolve := hs.resolve name hreading.session
  rcases hlookup : cb.resolve after.env name with ⟨lookup, env⟩
  rw [hlookup] at hresolve
  obtain ⟨env', hopen, hsession⟩ :=
    openPartial_missing hs (hmissing _) hresolve after
  apply Agree.run_left hopen
  apply Agree.run_left (returns_pure_self _)
  dsimp only
  let before : Buffer σ ο τ :=
    { after.setEnv env' with
      index := buffer.index - 1, fill := buffer.index }
  have hpos : (t.toks.take t.pos).length = t.pos :=
    List.length_take_of_le (by omega)
  have hpending : Pending fns before.input before.partials held'
      (tokenBytes ((t.toks.take t.pos ++ t.toks.drop (t.pos + 2)).drop
        t.pos)) := by
    have hnext := offset_succ htext
    rw [List.drop_left' hpos, ← drop_offset, hnext]
    exact (hreading.live hlive).2
  have hok : ∀ tok ∈ t.toks.take t.pos ++ t.toks.drop (t.pos + 2),
      TokenOk inclusions tok := by
    intro tok htok
    rcases List.mem_append.mp htok with htok | htok
    · exact h.follows.ok tok (List.mem_of_mem_take htok)
    · exact h.follows.ok tok (List.mem_of_mem_drop htok)
  obtain ⟨last, hnext, hgoes⟩ := h.follows.resume hs h.frontier_eq
    (t.toks.take t.pos ++ t.toks.drop (t.pos + 2))
    (by rw [List.take_left' hpos])
    (by simp only [List.length_append]; omega) hok
    before hsession
    (h.moved.frame.trans ⟨rfl, rfl, rfl, rfl⟩) rfl rfl h.capacity hlive h.data
    hpending
  apply Agree.run_left hnext
  dsimp only
  rw [if_pos rfl]
  exact Agree.pure hgoes

/-- A call touches nothing but the state behind the callback. -/
theorem Buffer.call_eq {β : Type} {f : Option (σ → β × σ)} {b : β}
    (h : Returns (buffer.call f) (b, after)) :
    ∃ env, after = buffer.setEnv env := by
  cases f with
  | none => exact absurd h not_returns_undefined
  | some f =>
      have heq := returns_pure.mp h
      exact ⟨(f buffer.env).2, (congrArg Prod.snd heq).symm⟩

theorem openPartial_text {lookup : Lookup ο} {result : Bool}
    {stream : Option (InputStream τ)}
    (h : Returns (openPartial cb lookup buffer) (result, stream, after)) :
    after.eof = buffer.eof ∧ after.output = buffer.output := by
  cases lookup with
  | notFound =>
      cases returns_pure.mp h
      exact ⟨rfl, rfl⟩
  | invalid =>
      cases returns_pure.mp h
      exact ⟨rfl, rfl⟩
  | string object =>
      obtain ⟨⟨c, buffer₁⟩, hget, h⟩ := returns_bind.mp h
      obtain ⟨env₁, rfl⟩ := Buffer.call_eq hget
      cases c with
      | some c =>
          cases returns_pure.mp h
          exact ⟨rfl, rfl⟩
      | none =>
          obtain ⟨⟨_, buffer₂⟩, hfree, h⟩ := returns_bind.mp h
          obtain ⟨env₂, rfl⟩ := Buffer.call_eq hfree
          cases returns_pure.mp h
          exact ⟨rfl, rfl⟩
  | list object =>
      obtain ⟨⟨_, buffer₁⟩, hclose, h⟩ := returns_bind.mp h
      obtain ⟨env₁, rfl⟩ := Buffer.call_eq hclose
      cases returns_pure.mp h
      exact ⟨rfl, rfl⟩
  | stream object =>
      obtain ⟨⟨s, buffer₁⟩, hget, h⟩ := returns_bind.mp h
      obtain ⟨env₁, rfl⟩ := Buffer.call_eq hget
      cases s with
      | some s =>
          cases returns_pure.mp h
          exact ⟨rfl, rfl⟩
      | none =>
          obtain ⟨⟨_, buffer₂⟩, hfree, h⟩ := returns_bind.mp h
          obtain ⟨env₂, rfl⟩ := Buffer.call_eq hfree
          cases returns_pure.mp h
          exact ⟨rfl, rfl⟩

/-- After the last byte of the input there is no reading on. -/
theorem bufferNext_ended (he : buffer.eof = true) :
    Returns (bufferNext fns cb buffer)
      (false, { buffer with error := "Buffer end reached" }) := by
  rw [bufferNext, if_pos he]
  exact returns_pure_self _

/-- A partial with nothing after it fails, whatever it is. -/
theorem renderPartial_leaves {block : NameBlock} {index : Int}
    (hparse : Returns (parseName fns cb none start) (some block, after))
    (he : after.eof = true) {r : Bool × Buffer σ ο τ}
    (hr : Returns (renderStachePartial fns cb index start) r) :
    r.1 = false ∧ r.2.output = after.output := by
  rw [renderStachePartial, hparse.bind_iff] at hr
  dsimp only at hr
  obtain ⟨⟨result, stream, opened⟩, hopen, hr⟩ := returns_bind.mp hr
  obtain ⟨heof, hout⟩ := openPartial_text hopen
  obtain ⟨pushed, hpush, hr⟩ := returns_bind.mp hr
  have hpushed : pushed.eof = opened.eof ∧ pushed.output = opened.output := by
    cases stream with
    | none =>
        cases returns_pure.mp hpush
        exact ⟨rfl, rfl⟩
    | some stream =>
        obtain ⟨save, -, hpush⟩ := returns_bind.mp hpush
        cases returns_pure.mp hpush
        exact ⟨rfl, rfl⟩
  have hended : pushed.eof = true := hpushed.1.trans (heof.trans he)
  have hnext : Returns (bufferNext fns cb
      { pushed with index := index - 1, fill := index }) _ :=
    bufferNext_ended hended
  rw [hnext.bind_iff] at hr
  dsimp only at hr
  rw [if_neg Bool.false_ne_true] at hr
  cases returns_pure.mp hr
  exact ⟨rfl, hpushed.2.trans hout⟩

end

end Libcad
