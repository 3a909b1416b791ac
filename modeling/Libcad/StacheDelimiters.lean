/-
The delimiter tag: `parse_name` takes the `=` that closes the tag, and
`render_stache_delimiters` looks for it again.
-/
import Libcad.StacheReference

namespace Libcad

open Proc

variable {σ ο τ : Type}

/-- A delimiter that is read as it is written in a delimiter tag. -/
structure DelimiterValid (delimiter : Bytes) : Prop where
  ne_nil : delimiter ≠ []
  readable : ∀ b ∈ delimiter, Readable b
  blank : ∀ b ∈ delimiter, isBlank b = false
  equals : ascii '=' ∉ delimiter
  opening : ascii '{' ∉ delimiter
  closing : ascii '}' ∉ delimiter

def delimiterTag (o c : Bytes) : Bytes :=
  tagOpen ++ ascii '=' :: (o ++ ascii ' ' :: c) ++ ascii '=' :: tagClose

def Token.Simple : Token → Prop
  | .text _ | .escaped _ => True
  | _ => False

/-- The bytes of a variable written with other delimiters. -/
def Token.delimited (o c : Bytes) : Token → Bytes
  | .escaped name => o ++ name ++ c
  | tok => tok.bytes

/-- The session of a rendering that has no partial: any callback keeps it. -/
def Idle (env : σ) : Session σ ο τ := fun env' _ held => env' = env ∧ held = []

theorem idle_releases (cb : Callback σ ο τ) (env : σ) :
    Releases cb (Idle env) where
  stringFree h := absurd h.2 (List.cons_ne_nil _ _)
  streamFree h := absurd h.2 (List.cons_ne_nil _ _)

/-- What a variable comes to outside sections: whether rendering goes on, what
is written and the state left; `none` where a call has no meaning. -/
def variableOutcome (cb : Callback σ ο τ) (env : σ) (name : Bytes) :
    Option (Bool × Bytes × σ) :=
  match cb.resolve env name with
  | (.notFound, env) => some (true, [], env)
  | (.string resolved, env) =>
      match cb.stringGet resolved with
      | none => none
      | some get =>
          match get env with
          | (none, _) => none
          | (some c, env) =>
              match cb.stringFree resolved with
              | none => none
              | some free => some ((free env).1,
                  (cString c).flatMap escapeChar, (free env).2)
  | (.list _, env) | (.stream _, env) | (.invalid, env) => some (false, [], env)

/-- The rest fails before it has written a byte. -/
def Stops (cb : Callback σ ο τ) : σ → List Token → Prop
  | env, .escaped name :: toks =>
      match variableOutcome cb env name with
      | some (true, text, env) => text = [] ∧ Stops cb env toks
      | some (false, text, _) => text = []
      | none => False
  | _, _ => False

section

variable {fns : StreamFns τ} {cb : Callback σ ο τ}
  {start after : Buffer σ ο τ} {block : NameBlock} {name : Bytes}

theorem bufferOutput_of_nil (hloops : after.loops = []) (text : Bytes) :
    bufferOutput after text = { after with output := after.output ++ text } := by
  rw [bufferOutput, if_neg (by simp [bufferSkipOutput, hloops])]

/-- A variable outside sections does what its outcome says. -/
theorem renderEscape_outcome
    (hparse : Returns (parseName fns cb none start) (some block, after))
    (hname : block.string = name) (hne : name ≠ [])
    (hloops : after.loops = []) :
    match variableOutcome cb after.env name with
    | some (accepted, text, env) =>
        ∃ error, Returns (renderStacheEscape fns cb start)
          (accepted, { after with
            env := env, output := after.output ++ text, error := error })
    | none => ∀ r, ¬ Returns (renderStacheEscape fns cb start) r := by
  have hset : ∀ (env : σ) (error : String), { after with
      env := env, output := after.output ++ [], error := error } =
      { after.setEnv env with error := error } := by
    intro env error
    rw [List.append_nil]
    rfl
  rw [variableOutcome]
  rcases hresolve : cb.resolve after.env name with ⟨lookup, env⟩
  cases lookup <;> simp only [renderStacheEscape, renderVariable,
    hparse.bind_iff, hname, if_neg hne, Buffer.resolve, hresolve]
  case notFound =>
    refine ⟨after.error, ?_⟩
    rw [hset]
    exact returns_pure_self _
  case list resolved =>
    refine ⟨"unexpected list", ?_⟩
    rw [hset]
    exact returns_pure_self _
  case stream resolved =>
    refine ⟨"unexpected partial", ?_⟩
    rw [hset]
    exact returns_pure_self _
  case invalid =>
    refine ⟨"invalid type", ?_⟩
    rw [hset]
    exact returns_pure_self _
  case string resolved =>
    cases hget : cb.stringGet resolved with
    | none =>
        intro r hrun
        exact not_returns_undefined (returns_bind.mp hrun).choose_spec.1
    | some get =>
        have hcall : Returns ((after.setEnv env).call (some get))
            ((get env).1, after.setEnv (get env).2) := returns_pure_self _
        simp only [hcall.bind_iff]
        rcases get env with ⟨c, env₁⟩
        cases c with
        | none =>
            intro r hrun
            exact not_returns_undefined (returns_bind.mp hrun).choose_spec.1
        | some c =>
            have hwrite : Returns (writeEscaped (some c) (after.setEnv env₁))
                { after with
                  env := env₁,
                  output := after.output ++
                    (cString c).flatMap escapeChar } := by
              rw [writeEscaped, foldl_bufferOutput,
                bufferOutput_of_nil (show (after.setEnv env₁).loops = [] from
                  hloops)]
              exact returns_pure_self _
            dsimp only
            simp only [hwrite.bind_iff, freeString]
            cases cb.stringFree resolved with
            | none =>
                intro r hrun
                exact not_returns_undefined
                  (returns_bind.mp hrun).choose_spec.1
            | some free =>
                dsimp only
                refine ⟨if (free env₁).1 then after.error
                  else "could not free string",
                  Returns.bind (returns_pure_self _) ?_⟩
                cases (free env₁).1
                · exact returns_pure_self _
                · exact returns_pure_self _

/-- The buffer stands before tokens, outside sections and partials. -/
structure Standing (fns : StreamFns τ) (toks : List Token)
    (buffer : Buffer σ ο τ) : Prop where
  reading : ∃ v i f, Reading fns (Idle buffer.env) [] v i f buffer [] ∧
    v.drop i = tokenBytes toks ∧ buffer.eof = decide (i = v.length)
  loops : buffer.loops = []
  openDelimiter : buffer.openDelimiter = tagOpen
  closeDelimiter : buffer.closeDelimiter = tagClose

variable {buffer : Buffer σ ο τ} {tok : Token} {toks : List Token}

/-- The buffer after a token, possibly with another state and output. -/
theorem Moved.standing {env : σ} {v : Bytes} {i f : Nat}
    (h : Moved fns (Idle env) [] v f i buffer after)
    (hdrop : v.drop i = tokenBytes toks) (hloops : buffer.loops = [])
    (hopen : buffer.openDelimiter = tagOpen)
    (hclose : buffer.closeDelimiter = tagClose) (env' : σ) (output : Bytes)
    (error : String) : Standing fns toks
      { after with env := env', output := output, error := error } := by
  obtain ⟨held, hreading⟩ := h.reading
  obtain ⟨rfl, rfl⟩ := hreading.session
  have hidle : Reading fns (Idle env') [] v i (readAhead v f i)
      { after with env := env', output := output, error := error } [] :=
    { hreading with session := ⟨rfl, rfl⟩ }
  exact ⟨⟨v, i, _, hidle, hdrop, h.eof_eq⟩, h.frame.loops.trans hloops,
    h.frame.openDelimiter.trans hopen, h.frame.closeDelimiter.trans hclose⟩

theorem Standing.live (h : Standing fns (tok :: toks) buffer) :
    buffer.eof = false := by
  obtain ⟨v, i, f, -, hdrop, heof⟩ := h.reading
  obtain ⟨c, rest, hbytes⟩ := List.exists_cons_of_ne_nil tok.bytes_ne_nil
  rw [tokenBytes_cons, hbytes, List.cons_append] at hdrop
  have hlt := lt_length_of_drop hdrop
  rw [heof]
  simp [Nat.ne_of_lt hlt]

theorem Standing.renderStep_nil (h : Standing fns [] buffer) :
    Returns (renderStep fns cb buffer) (.inr (true, buffer)) := by
  obtain ⟨v, i, f, hreading, hdrop, heof⟩ := h.reading
  have hge : v.length ≤ i := List.drop_eq_nil_iff.mp hdrop
  have hend : buffer.eof = true := by
    by_contra hlive
    have hlt := hreading.eof_eq_false (Bool.not_eq_true _ ▸ hlive)
    omega
  obtain ⟨hfill, hindex⟩ := hreading.ended hend
  have hover : bufferEof buffer = true := by
    rw [bufferEof, hend, hreading.index_eq, hreading.fill_eq]
    simp
    omega
  rw [renderStep, hover]
  exact returns_pure_self _

theorem Standing.renderStep_text {c : UInt8}
    (h : Standing fns (.text c :: toks) buffer) (hc : c ≠ ascii '{') :
    ∃ after, Returns (renderStep fns cb buffer) (.inl after) ∧
      Standing fns toks after ∧ after.output = buffer.output ++ [c] := by
  obtain ⟨v, i, f, hreading, hdrop, heof⟩ := h.reading
  obtain ⟨after, hstep, hmoved⟩ := hreading.renderStep_text
    (idle_releases cb buffer.env) h.live h.openDelimiter hc hdrop
  rw [bufferOutput_of_nil h.loops] at hmoved
  exact ⟨after, hstep, hmoved.standing (drop_succ hdrop) h.loops
    h.openDelimiter h.closeDelimiter after.env after.output after.error,
    hmoved.frame.output⟩

theorem Standing.renderStep_escaped
    (h : Standing fns (.escaped name :: toks) buffer)
    (hvalid : (Token.escaped name).Valid) :
    match variableOutcome cb buffer.env name with
    | some (true, text, env) => ∃ after,
        Returns (renderStep fns cb buffer) (.inl after) ∧
        Standing fns toks after ∧ after.output = buffer.output ++ text ∧
        after.env = env
    | some (false, text, _) => ∃ after,
        Returns (renderStep fns cb buffer) (.inr (false, after)) ∧
        after.output = buffer.output ++ text
    | none => ∀ o, ¬ Returns (renderStep fns cb buffer) o := by
  obtain ⟨v, i, f, hreading, hdrop, heof⟩ := h.reading
  obtain ⟨hname, hhead⟩ : NameValid name ∧ ∀ c ∈ name.head?, c ∉ sigils :=
    hvalid
  have hrest : v.drop i =
      tagOpen ++ (name ++ nameEnd none ++ tokenBytes toks) := by
    rw [hdrop, tokenBytes_cons]
    simp [Token.bytes, nameEnd]
  obtain ⟨start, block, after, hparse, hblock, hmoved, hstep⟩ :=
    hreading.renderStep_escaped (idle_releases cb buffer.env) h.live
      h.openDelimiter h.closeDelimiter hname hhead hrest
  have hnext : v.drop (i + 2 + name.length + (nameEnd none).length) =
      tokenBytes toks := by
    have hsplit : tagOpen ++ (name ++ nameEnd none ++ tokenBytes toks) =
        (tagOpen ++ name ++ nameEnd none) ++ tokenBytes toks := by simp
    have hlen : i + 2 + name.length + (nameEnd none).length =
        i + (tagOpen ++ name ++ nameEnd none).length := by
      simp [tagOpen]
      omega
    rw [hlen, ← List.drop_drop, hrest, hsplit, List.drop_left]
  obtain ⟨held, hafter⟩ := hmoved.reading
  have houtcome := renderEscape_outcome hparse hblock hname.ne_nil
    (hmoved.frame.loops.trans h.loops)
  rw [hafter.session.1, hmoved.frame.output] at houtcome
  simp only [hstep]
  revert houtcome
  cases variableOutcome cb buffer.env name with
  | none =>
      intro houtcome o hrun
      obtain ⟨r, hr, -⟩ := returns_bind.mp hrun
      exact houtcome r hr
  | some outcome =>
      obtain ⟨accepted, text, env⟩ := outcome
      rintro ⟨error, hrun⟩
      cases accepted with
      | true =>
          exact ⟨_, hrun.bind (returns_pure_self _), hmoved.standing hnext
            h.loops h.openDelimiter h.closeDelimiter env _ error, rfl, rfl⟩
      | false => exact ⟨_, hrun.bind (returns_pure_self _), rfl⟩

/-- A run only adds to the output, and fails without adding to it exactly when
the rest stops. -/
theorem Standing.run (h : Standing fns toks buffer)
    (hvalid : ∀ tok ∈ toks, tok.Valid ∧ tok.Simple) :
    (∀ r, Returns (renderTemplate fns cb buffer) r →
      buffer.output <+: r.2.output ∧ (r.1 = true → r.2.loops = [])) ∧
    ((∃ r, Returns (renderTemplate fns cb buffer) r ∧ r.1 = false ∧
      r.2.output = buffer.output) ↔ Stops cb buffer.env toks) := by
  induction toks generalizing buffer with
  | nil =>
      have hexit : Returns (renderTemplate fns cb buffer) (true, buffer) :=
        h.renderStep_nil.loop_exit
      refine ⟨?_, ?_⟩
      · intro r hr
        cases hr.unique hexit
        exact ⟨List.prefix_refl _, fun _ => h.loops⟩
      · rw [Stops.eq_def]
        refine iff_of_false ?_ id
        rintro ⟨r, hr, hfalse, -⟩
        cases hr.unique hexit
        cases hfalse
  | cons tok toks ih =>
      obtain ⟨⟨htok, hsimple⟩, hrest⟩ := List.forall_mem_cons.mp hvalid
      cases tok with
      | text c =>
          obtain ⟨after, hstep, hstanding, hout⟩ :=
            @Standing.renderStep_text _ _ _ fns cb _ _ _ h htok.2
          obtain ⟨hpre, -⟩ := ih hstanding hrest
          have hall : ∀ r, Returns (renderTemplate fns cb buffer) r →
              buffer.output ++ [c] <+: r.2.output ∧
                (r.1 = true → r.2.loops = []) := by
            intro r hr
            rw [← hout]
            exact hpre r (hstep.loop_next.mp hr)
          refine ⟨fun r hr => ⟨(List.prefix_append _ _).trans (hall r hr).1,
            (hall r hr).2⟩, ?_⟩
          rw [Stops.eq_def]
          refine iff_of_false ?_ id
          rintro ⟨r, hr, -, hsame⟩
          have hle := (hall r hr).1.length_le
          rw [hsame, List.length_append, List.length_singleton] at hle
          omega
      | escaped name =>
          have hstep := @Standing.renderStep_escaped _ _ _ fns cb _ _ _ h htok
          rw [Stops]
          revert hstep
          cases variableOutcome cb buffer.env name with
          | none =>
              intro hstep
              have hstuck : ∀ r, ¬ Returns (renderTemplate fns cb buffer) r := by
                intro r hr
                rcases returns_loop_iff.mp hr with ⟨_, hbody, -⟩ | hbody
                · exact hstep _ hbody
                · exact hstep _ hbody
              exact ⟨fun r hr => absurd hr (hstuck r),
                iff_of_false (fun ⟨r, hr, _⟩ => hstuck r hr) id⟩
          | some outcome =>
              obtain ⟨accepted, text, env⟩ := outcome
              cases accepted with
              | true =>
                  rintro ⟨after, hstep, hstanding, hout, rfl⟩
                  obtain ⟨hpre, hiff⟩ := ih hstanding hrest
                  have hall : ∀ r, Returns (renderTemplate fns cb buffer) r →
                      buffer.output ++ text <+: r.2.output ∧
                        (r.1 = true → r.2.loops = []) := by
                    intro r hr
                    rw [← hout]
                    exact hpre r (hstep.loop_next.mp hr)
                  refine ⟨fun r hr => ⟨(List.prefix_append _ _).trans
                    (hall r hr).1, (hall r hr).2⟩, ?_⟩
                  dsimp only
                  rw [← hiff]
                  constructor
                  · rintro ⟨r, hr, hfalse, hsame⟩
                    have hle := (hall r hr).1.length_le
                    rw [hsame, List.length_append] at hle
                    have hnil : text = [] := List.length_eq_zero_iff.mp (by omega)
                    refine ⟨hnil, r, hstep.loop_next.mp hr, hfalse, ?_⟩
                    rw [hsame, hout, hnil, List.append_nil]
                  · rintro ⟨hnil, r, hr, hfalse, hsame⟩
                    refine ⟨r, hstep.loop_next.mpr hr, hfalse, ?_⟩
                    rw [hsame, hout, hnil, List.append_nil]
              | false =>
                  rintro ⟨after, hstep, hout⟩
                  have hexit := hstep.loop_exit
                  refine ⟨?_, ?_⟩
                  · intro r hr
                    cases hr.unique hexit
                    rw [hout]
                    exact ⟨List.prefix_append _ _, nofun⟩
                  · constructor
                    · rintro ⟨r, hr, -, hsame⟩
                      cases hr.unique hexit
                      exact List.append_right_eq_self.mp (hout.symm.trans hsame)
                    · intro hnil
                      refine ⟨_, hexit, rfl, ?_⟩
                      rw [hout, show text = [] from hnil, List.append_nil]
      | _ => exact hsimple.elim

/-- What `parse_name` hands to the scan has lost its equals sign. -/
theorem scanDelimiters_missing {o c : Bytes} (ho : DelimiterValid o)
    (hc : DelimiterValid c) :
    scanDelimiters (o ++ ascii ' ' :: c) =
      pure (.error "invalid delimiter change: missing closing equal sign") := by
  have hblank : (o ++ ascii ' ' :: c).any isBlank = true := by
    rw [List.any_append, List.any_cons]
    simp [isBlank]
  have hword : ∀ b ∈ o, (!isBlank b) = true := by
    intro b hb
    simp [ho.blank b hb]
  have hdrop : (o ++ ascii ' ' :: c).dropWhile (fun b => !isBlank b) =
      ascii ' ' :: c := by
    rw [List.dropWhile_append_of_pos hword]
    rfl
  have hclose : c.dropWhile isBlank = c := by
    obtain ⟨b, rest, rfl⟩ := List.exists_cons_of_ne_nil hc.ne_nil
    rw [List.dropWhile_cons_of_neg]
    simp [hc.blank b List.mem_cons_self]
  have hstring : cString c = c :=
    cString_of_not_mem fun h => (hc.readable 0 h).1 rfl
  have hany : c.any isBlank = false := by
    rw [List.any_eq_false]
    intro b hb
    simp [hc.blank b hb]
  have hlast : c.getLast? ≠ some (ascii '=') :=
    fun h => hc.equals (List.mem_of_getLast? h)
  rw [scanDelimiters, if_pos hblank]
  simp only [hdrop, List.drop_succ_cons, List.drop_zero, hclose, hstring]
  rw [if_neg hc.ne_nil, hany, if_neg Bool.false_ne_true,
    if_neg (fun h => hlast h.2)]

/-- The buffer `render` goes on with, standing before the text. -/
theorem newBuffer_reading (env : σ) {input : InputStream τ} {v : Bytes}
    (hinput : input.Delivers fns v) (data : Int → UInt8) :
    ∃ buffer, Returns (bufferNext fns cb (newBuffer env input data))
        (true, buffer) ∧
      Moved fns (Idle env) [] v 0 0 (newBuffer env input data) buffer := by
  have hpending : Pending fns input ([] : List (StachePartial ο τ)) []
      (v.drop 0) := hinput
  exact bufferNext_fetches (idle_releases cb env)
    (show Idle env (newBuffer env input data).env [] [] from ⟨rfl, rfl⟩)
    (show (newBuffer env input data).index + 1 = ((0 : Nat) : Int) from rfl)
    rfl (Nat.zero_le _) (show (0 : Int) ≤ 4096 by decide)
    (show (0 : Int) < 4096 by decide)
    (fun j hj => absurd hj (Nat.not_lt_zero j)) rfl hpending

/-- A delimiter tag fails, whatever comes after it. -/
theorem render_delimiterTag {o c rest : Bytes} (ho : DelimiterValid o)
    (hc : DelimiterValid c) (env : σ) {input : InputStream τ}
    (hinput : input.Delivers fns (delimiterTag o c ++ rest))
    (data : Int → UInt8) :
    ∃ r, Returns (render fns cb env input data) r ∧ r.code = -1 ∧
      r.output = [] ∧ r.env = env := by
  obtain ⟨first, hnext, hmoved⟩ :=
    @newBuffer_reading _ _ _ fns cb env _ _ hinput data
  obtain ⟨held, hreading⟩ := hmoved.reading
  have htext : ∀ x ∈ o ++ ascii ' ' :: c, x ≠ ascii '=' ∧ x ≠ ascii '}' := by
    intro x hx
    rcases List.mem_append.mp hx with hx | hx
    · exact ⟨fun h => ho.equals (h ▸ hx), fun h => ho.closing (h ▸ hx)⟩
    · rcases List.mem_cons.mp hx with rfl | hx
      · decide
      · exact ⟨fun h => hc.equals (h ▸ hx), fun h => hc.closing (h ▸ hx)⟩
  have hscan := scanDelimiters_missing ho hc
  obtain ⟨b, tail, rfl⟩ := List.exists_cons_of_ne_nil ho.ne_nil
  have hrest : (delimiterTag (b :: tail) c ++ rest).drop 0 = tagOpen ++
      ascii '=' :: (b :: (tail ++ ascii ' ' :: c) ++
        nameEnd (some [ascii '=']) ++ rest) := by
    simp [delimiterTag, nameEnd]
  have hlive := hmoved.eof_eq_false (lt_length_of_drop hrest)
  obtain ⟨start, hmoved', hlive', hstart, hstep⟩ := hreading.renderStep_tag
    (idle_releases cb env) hlive hmoved.frame.openDelimiter hrest (by simp)
  obtain ⟨held', hreading'⟩ := hmoved'.reading
  have hends : ∀ x ∈ b :: (tail ++ ascii ' ' :: c),
      x ∉ nameEnd (some [ascii '=']) := by
    intro x hx
    simpa [nameEnd, tagClose] using htext x hx
  -- `parse_name` takes the equals sign with the closing delimiter
  obtain ⟨block, after, hparse, hblock, hmoved''⟩ := hreading'.parseText
    (idle_releases cb env) (suffixValid_some _) hlive'
    (hmoved'.frame.closeDelimiter.trans hmoved.frame.closeDelimiter) hends
    (ho.blank b List.mem_cons_self) hstart
  obtain ⟨held'', hreading''⟩ := hmoved''.reading
  have htag : Returns (renderStacheDelimiters fns cb start) (after.fail
      "invalid delimiter change: missing closing equal sign") := by
    rw [renderStacheDelimiters, hparse.bind_iff]
    dsimp only
    rw [hblock, ← List.cons_append, hscan]
    exact (returns_pure_self _).bind (returns_pure_self _)
  have hexit := ((hstep _).mpr (htag.bind (returns_pure_self _))).loop_exit
  refine ⟨_, (render_of_start hnext).mpr ⟨_, hexit, rfl⟩, rfl, ?_, ?_⟩
  · exact (hmoved''.frame.output.trans hmoved'.frame.output).trans
      hmoved.frame.output
  · exact hreading''.session.1

/-- Both renderings return the same code and write the same output. -/
def RendersAlike (x y : Proc (Rendered σ)) : Prop :=
  ∃ r r', Returns x r ∧ Returns y r' ∧ r.code = r'.code ∧ r.output = r'.output

/-- The code and the output of a failure before any output. -/
theorem Buffer.rendered_failed_iff {result : Bool} {buffer : Buffer σ ο τ}
    (hloops : result = true → buffer.loops = []) :
    (buffer.rendered result).code = -1 ↔ result = false := by
  cases result with
  | true => simp [Buffer.rendered, hloops rfl]
  | false => simp [Buffer.rendered]

/-- A template after a delimiter tag renders like the same template with the
delimiters of the engine only where that one fails without writing. -/
theorem delimiters_alike_iff {o c : Bytes} (ho : DelimiterValid o)
    (hc : DelimiterValid c) (cb : Callback σ ο τ) (env : σ)
    (htoks : ∀ tok ∈ toks, tok.Valid ∧ tok.Simple)
    {changed plain : InputStream τ}
    (hchanged : changed.Delivers fns
      (delimiterTag o c ++ toks.flatMap (Token.delimited o c)))
    (hplain : plain.Delivers fns (tokenBytes toks)) (data data' : Int → UInt8) :
    RendersAlike (render fns cb env changed data)
      (render fns cb env plain data') ↔ Stops cb env toks := by
  obtain ⟨r, hr, hcode, hout, -⟩ :=
    @render_delimiterTag _ _ _ fns cb _ _ _ ho hc env _ hchanged data
  obtain ⟨first, hnext, hmoved⟩ :=
    @newBuffer_reading _ _ _ fns cb env _ _ hplain data'
  have hstanding := hmoved.standing (List.drop_zero) rfl rfl rfl first.env
    first.output first.error
  obtain ⟨hall, hiff⟩ := @Standing.run _ _ _ fns cb first _ hstanding htoks
  obtain ⟨held, hreading⟩ := hmoved.reading
  rw [hmoved.frame.output, hreading.session.1] at hiff
  rw [← hiff]
  constructor
  · rintro ⟨r₁, r', hr₁, hr', hcode', hout'⟩
    cases hr₁.unique hr
    obtain ⟨a, ha, rfl⟩ := (render_of_start hnext).mp hr'
    exact ⟨a, ha, (Buffer.rendered_failed_iff (hall a ha).2).mp
      (hcode'.symm.trans hcode), hout'.symm.trans hout⟩
  · rintro ⟨a, ha, hfalse, hsame⟩
    refine ⟨r, _, hr, (render_of_start hnext).mpr ⟨a, ha, rfl⟩, ?_, ?_⟩
    · rw [hcode, (Buffer.rendered_failed_iff (hall a ha).2).mpr hfalse]
    · rw [hout]
      exact hsame.symm

end

/-- The rest `<v>x` of a template, and the same with the delimiters of the
engine. -/
def angleTokens : List Token := [.escaped (chars "v"), .text (ascii 'x')]

def angleTemplate : InputStream Empty :=
  newInputStreamFromString (chars "{{=< >=}}<v>x")

def braceTemplate : InputStream Empty :=
  newInputStreamFromString (chars "{{v}}x")

theorem angleTokens_valid : ∀ tok ∈ angleTokens, tok.Valid := by decide

theorem angleTemplate_delivers (fns : StreamFns Empty) :
    angleTemplate.Delivers fns (delimiterTag (chars "<") (chars ">") ++
      angleTokens.flatMap (Token.delimited (chars "<") (chars ">"))) :=
  newInputStreamFromString_delivers fns _ (by decide) (by decide)

theorem braceTemplate_delivers (fns : StreamFns Empty) :
    braceTemplate.Delivers fns (tokenBytes angleTokens) :=
  newInputStreamFromString_delivers fns _ (by decide) (by decide)

theorem angle_valid :
    DelimiterValid (chars "<") ∧ DelimiterValid (chars ">") := by
  have hreadable : ∀ b ∈ chars "<>", Readable b :=
    List.all_iff_forall_prop.mp (by decide)
  have hblank : ∀ b ∈ chars "<>", isBlank b = false :=
    List.all_iff_forall_prop.mp (by decide)
  have hsub : ∀ b, b ∈ chars "<" ∨ b ∈ chars ">" → b ∈ chars "<>" := by
    intro b hb
    simpa [chars] using hb
  exact ⟨⟨by decide, fun b hb => hreadable b (hsub b (.inl hb)),
      fun b hb => hblank b (hsub b (.inl hb)), by decide, by decide, by decide⟩,
    ⟨by decide, fun b hb => hreadable b (hsub b (.inr hb)),
      fun b hb => hblank b (hsub b (.inr hb)), by decide, by decide, by decide⟩⟩

theorem delimiters_alike_list :
    RendersAlike
      (render noStreams (answering fun _ _ => .list none none) []
        angleTemplate fun _ => 0)
      (render noStreams (answering fun _ _ => .list none none) []
        braceTemplate fun _ => 0) := by
  refine (delimiters_alike_iff angle_valid.1 angle_valid.2 _ _ ?_
    (angleTemplate_delivers _) (braceTemplate_delivers _) _ _).mpr rfl
  intro tok htok
  refine ⟨angleTokens_valid tok htok, ?_⟩
  rcases List.mem_pair.mp htok with rfl | rfl
  · trivial
  · trivial

/-- With a string for the variable only the second template renders. -/
theorem delimiters_not_alike :
    ¬ RendersAlike
      (render noStreams
        (answering fun _ _ => .string (some (some (chars "s"))) (some true)) []
        angleTemplate fun _ => 0)
      (render noStreams
        (answering fun _ _ => .string (some (some (chars "s"))) (some true)) []
        braceTemplate fun _ => 0) := by
  let answers : Answers Empty :=
    fun _ _ => .string (some (some (chars "s"))) (some true)
  have hfirst : ∃ r, Returns (render noStreams (answering answers) []
      angleTemplate fun _ => 0) r ∧ r.code = -1 ∧ r.output = [] ∧ r.env = [] :=
    render_delimiterTag angle_valid.1 angle_valid.2 []
      (angleTemplate_delivers _) _
  have hlast : TokenState.EndsPlain angleTokens := by
    rintro tok htok
    cases htok
    rfl
  obtain ⟨r₁, hr₁, hcode₁, -⟩ := hfirst
  obtain ⟨r₂, hr₂, hcode₂, -⟩ := render_of_rendered (answering_serves answers)
    provides_none answeringSession_nil (braceTemplate_delivers noStreams)
    (tokenOk_plain angleTokens_valid (by decide)) (fun _ => 0)
    (TokenState.neverLeaves_of_endsPlain hlast) ⟨0, chars "sx"⟩ ⟨4, rfl⟩
  rintro ⟨r, r', hr, hr', hcode, -⟩
  rw [hr.unique hr₁, hr'.unique hr₂, hcode₁, hcode₂] at hcode
  cases hcode

end Libcad
