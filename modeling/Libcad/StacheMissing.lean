/-
Missing partials.  The tag of a partial that is not there takes the byte after
it along: a rendering with the tag and one without it go in lockstep, except
for that byte, which only the second one writes.
-/
import Libcad.StacheAccesses
import Libcad.StacheEnding

namespace Libcad

open Proc TokenState

variable {σ ο τ : Type}

section

variable {fns : StreamFns τ} {cb : Callback σ ο τ} {answers : Answers τ}
  {R : Session σ ο τ} {inclusions : Inclusions} {t : TokenState}
  {lists : List (OpenList ο)} {held : List (Held ο τ)}
  {buffer start after : Buffer σ ο τ} {name : Bytes}

theorem openPartial_returns (hs : Serves cb answers R)
    (hprovides : Provides fns answers inclusions)
    (hknown : (inclusions name).isSome) {env : σ} (hsession : R env lists held)
    (buffer : Buffer σ ο τ) :
    ∃ stream env', Returns (openPartial cb (cb.resolve env name).1
      (buffer.setEnv (cb.resolve env name).2))
      (true, stream, buffer.setEnv env') := by
  have hresolve := hs.resolve name hsession
  rcases hlookup : cb.resolve env name with ⟨lookup, env₁⟩
  rw [hlookup] at hresolve
  obtain ⟨inclusion, hinclusion⟩ := Option.isSome_iff_exists.mp hknown
  cases inclusion with
  | found content =>
      obtain ⟨hdelivers, hcontent⟩ := hprovides.found name content hinclusion
      obtain ⟨stream, env', -, hopen, -⟩ := openPartial_found hs
        (fun tok htok => (hcontent tok htok).valid) (hdelivers _) hresolve
        buffer
      exact ⟨some stream, env', hopen⟩
  | missing =>
      obtain ⟨env', hopen, -⟩ := openPartial_missing hs
        (hprovides.missing name hinclusion _) hresolve buffer
      exact ⟨none, env', hopen⟩

/-- A partial tag with nothing after it is gone through. -/
theorem renderPartial_returns (hs : Serves cb answers R)
    (hprovides : Provides fns answers inclusions)
    (hknown : (inclusions name).isSome) {block : NameBlock}
    (hparse : Returns (parseName fns cb none start) (some block, after))
    (hblock : block.string = name) (hsession : R after.env lists held)
    (hroom : HasRoom after) (he : after.eof = true) (index : Int) :
    ∃ r, Returns (renderStachePartial fns cb index start) r := by
  obtain ⟨stream, env, hopen⟩ :=
    openPartial_returns hs hprovides hknown hsession after
  have hpush : ∃ pushed, Returns
      (pushPartial (cb.resolve after.env name).1 stream (after.setEnv env))
      pushed ∧ pushed.eof = true := by
    cases stream with
    | none => exact ⟨_, returns_pure_self _, he⟩
    | some stream =>
        obtain ⟨save, hsave⟩ := hroom.item
        exact ⟨_, Returns.bind hsave (returns_pure_self _), he⟩
  obtain ⟨pushed, hpushed, hended⟩ := hpush
  have hnext : Returns (bufferNext fns cb
      { pushed with index := index - 1, fill := index }) _ :=
    bufferNext_ended hended
  rw [renderStachePartial]
  simp only [hparse.bind_iff, hblock, Buffer.resolve]
  exact ⟨_, hopen.bind (hpushed.bind (hnext.bind (returns_pure_self _)))⟩

theorem renderStep_leaves_simulates (hs : Serves cb answers R)
    (hprovides : Provides fns answers inclusions)
    (h : Follows fns R inclusions t lists held buffer)
    (hroom : HasRoom buffer) (hlive : t.frontier ≠ t.toks.length)
    (hleaves : t.Leaves) :
    Simulates (SumRel (Related fns R inclusions) Concludes)
      (renderStep fns cb buffer) (t.step fns answers inclusions) := by
  obtain ⟨name, htok, hlast⟩ := hleaves
  obtain ⟨start, block, after, hparse, hblock, hmoved, hreads, hstep⟩ :=
    h.read_inclusion hs hlive htok
  have he : after.eof = true := by
    rw [hmoved.eof_eq, hlast, offset_length]
    exact decide_eq_true rfl
  obtain ⟨held', hreading⟩ := hmoved.reading
  have hknown := (h.ok _ (List.mem_of_getElem? htok)).known name rfl
  obtain ⟨r, hr⟩ := renderPartial_returns hs hprovides hknown hparse hblock
    hreading.session (hreads _ hasRoom_closed hroom).1 he buffer.index
  have ho : Returns (renderStep fns cb buffer) (stepOutcome r) :=
    (hstep _).mpr (Returns.bind hr (returns_pure_self _))
  obtain ⟨b, hb, hrel⟩ :=
    renderStep_leaves hs h hlive ⟨name, htok, hlast⟩ ho
  intro b' hb'
  rw [hb'.unique hb]
  exact ⟨_, ho, hrel⟩

def MooredRun (fns : StreamFns τ) (answers : Answers τ) (R : Session σ ο τ)
    (inclusions : Inclusions) (toks : List Token) (buffer : Buffer σ ο τ)
    (t : TokenState) : Prop :=
  RunRelated fns answers R inclusions toks buffer t ∧ Moored buffer

/-- Whatever the machine does, the engine does, wherever the inclusions
stand. -/
theorem renderStep_simulates_moored (hs : Serves cb answers R)
    (hprovides : Provides fns answers inclusions) {toks : List Token}
    (hsound : NeverTorn fns answers inclusions toks)
    (h : MooredRun fns answers R inclusions toks buffer t) :
    Simulates (SumRel (MooredRun fns answers R inclusions toks) Concludes)
      (renderStep fns cb buffer) (t.step fns answers inclusions) := by
  obtain ⟨⟨⟨lists, held, hfollows⟩, hreached⟩, hmoored⟩ := h
  intro b hb
  have hback : ∃ o, Returns (renderStep fns cb buffer) o ∧
      SumRel (Related fns R inclusions) Concludes o b := by
    by_cases hleaves : t.frontier ≠ t.toks.length ∧ t.Leaves
    · exact renderStep_leaves_simulates hs hprovides hfollows hmoored.room
        hleaves.1 hleaves.2 b hb
    · by_cases hlive : t.frontier = t.toks.length
      · cases htok : t.toks[t.pos]? with
        | none => exact (step_end hfollows htok).back b hb
        | some tok => exact (step_sticky hfollows hlive htok).back b hb
      · have hstay : ¬ t.Leaves := fun h => hleaves ⟨hlive, h⟩
        exact (renderStep_agrees hs hprovides hfollows hstay
          (hsound t hreached)).back b hb
  obtain ⟨o, ho, hrel⟩ := hback
  refine ⟨o, ho, ?_⟩
  cases sumRel_reached hrel hreached hb with
  | inl hnext => exact .inl ⟨hnext, hmoored.step ho⟩
  | inr hresult => exact .inr hresult

/-- The engine and the machine come to the same, wherever the inclusions
stand. -/
theorem rendersTo_iff_moored (hs : Serves cb answers R)
    (hprovides : Provides fns answers inclusions) {env : σ}
    (hsession : R env [] []) {input : InputStream τ} {toks : List Token}
    (hinput : input.Delivers fns (tokenBytes toks))
    (hok : ∀ tok ∈ toks, TokenOk inclusions tok) (data : Int → UInt8)
    (hsound : NeverTorn fns answers inclusions toks) (verdict : Verdict) :
    RendersTo fns cb env input data verdict ↔
      Returns (TokenState.rendered fns answers inclusions toks) verdict := by
  constructor
  · exact rendered_of_rendersTo hs hprovides hsession hinput hok hsound
  · intro hverdict
    obtain ⟨buffer, hnext, hstart⟩ :=
      newBuffer_follows hs hsession hinput hok data
    obtain ⟨a, ha, hcode, hout⟩ := Simulates.loop
      (fun _ _ h => renderStep_simulates_moored hs hprovides hsound h)
      (show MooredRun fns answers R inclusions toks buffer (start toks) from
        ⟨hstart, moored_start hnext⟩) verdict hverdict
    exact ⟨_, (render_of_start hnext).mpr ⟨a, ha, rfl⟩, hcode, hout⟩

end

section

variable (fns : StreamFns τ) (answers : Answers τ) (inclusions : Inclusions)

/-- The place after a step: it moves with the inclusions before it. -/
def TokenState.watch (t : TokenState) (place : Nat) :
    TokenState ⊕ Verdict → (TokenState × Nat) ⊕ Verdict
  | .inl t' => .inl (t',
      if t.pos < place then place + t'.toks.length - t.toks.length else place)
  | .inr verdict => .inr verdict

def stepWatched (s : TokenState × Nat) :
    Proc ((TokenState × Nat) ⊕ Verdict) := do
  let o ← s.1.step fns answers inclusions
  pure (s.1.watch s.2 o)

/-- One more byte before the token that comes next would make no difference:
output is suppressed, or nothing can be read any more, and that same byte is
written before the rendering fails. -/
def TokenState.Indifferent (t : TokenState) (byte : Option UInt8) : Prop :=
  t.skips = true ∨ (t.frontier = t.toks.length ∧
    ∃ tok, t.toks[t.pos]? = some tok ∧ tok.bytes.head? = byte)

/-- Wherever the rendering comes to the place, the byte makes no
difference. -/
def NeverNoticed (byte : Option UInt8) (s : TokenState × Nat) : Prop :=
  ∀ s', Reaches (stepWatched fns answers inclusions) s s' → s'.1.pos = s'.2 →
    s'.1.Indifferent byte

end

section

variable {fns : StreamFns τ} {answers : Answers τ} {inclusions : Inclusions}
  {t t' t₁ t₁' : TokenState} {tok : Token} {k : Nat} {c : UInt8}
  {byte : Option UInt8} {s s' : TokenState × Nat} {v : Verdict}
  {name : Bytes} {post : List Token}

theorem neverNoticed_next
    (h : Returns (t.step fns answers inclusions) (.inl t₁)) :
    NeverNoticed fns answers inclusions byte (t, k) ↔
      (t.pos = k → t.Indifferent byte) ∧
        NeverNoticed fns answers inclusions byte (t₁,
          if t.pos < k then k + t₁.toks.length - t.toks.length else k) := by
  have hstep : Returns (stepWatched fns answers inclusions (t, k)) (.inl (t₁,
      if t.pos < k then k + t₁.toks.length - t.toks.length else k)) :=
    h.bind (returns_pure_self _)
  simp only [NeverNoticed, Reaches.next_iff hstep, or_imp, forall_and,
    forall_eq]

theorem neverNoticed_exit
    (h : Returns (t.step fns answers inclusions) (.inr v)) :
    NeverNoticed fns answers inclusions byte (t, k) ↔
      (t.pos = k → t.Indifferent byte) := by
  have hstep : Returns (stepWatched fns answers inclusions (t, k)) (.inr v) :=
    h.bind (returns_pure_self _)
  simp only [NeverNoticed, Reaches.exit_iff hstep, forall_eq]

/-- Marks on both sides of the byte at `k`, which only the second run has. -/
def MarkShift (k m m' : Nat) : Prop := (m' = m ∧ m ≤ k) ∨ (m' = m + 1 ∧ k < m)

/-- The second state has a text byte at `k` that the first one has not. -/
structure Shifted (k : Nat) (c : UInt8) (t t' : TokenState) : Prop where
  placed : t.Placed
  toks : ∃ a rest, a.length = k ∧ t.toks = a ++ rest ∧
    t'.toks = a ++ .text c :: rest
  le_frontier : k ≤ t.frontier
  frontier_eq : t'.frontier = t.frontier + 1
  pos : (t'.pos = t.pos ∧ t.pos ≤ k) ∨ (t'.pos = t.pos + 1 ∧ k ≤ t.pos)
  loops : SameSections (MarkShift k) t.loops t'.loops
  out_le : t.out.length ≤ t'.out.length
  out_eq : t'.out.length = t.out.length → t'.out = t.out
  passed : t'.pos = k + 1 → t.skips = true ∨ t'.out ≠ t.out
  crossed : t.toks.length = k → t'.pos = k + 1

theorem Shifted.length_eq (h : Shifted k c t t') :
    t'.toks.length = t.toks.length + 1 := by
  obtain ⟨a, rest, -, htoks, htoks'⟩ := h.toks
  rw [htoks, htoks', List.length_append, List.length_append, List.length_cons]
  rfl

theorem Shifted.ended_iff (h : Shifted k c t t') :
    t'.frontier = t'.toks.length ↔ t.frontier = t.toks.length := by
  rw [h.frontier_eq, h.length_eq]
  omega

theorem Shifted.skips (h : Shifted k c t t') : t'.skips = t.skips :=
  SameSections.skips h.loops

theorem Shifted.tok_place (h : Shifted k c t t') (hpos : t'.pos = k) :
    t.pos = k ∧ t'.toks[t'.pos]? = some (.text c) := by
  obtain ⟨a, rest, rfl, htoks, htoks'⟩ := h.toks
  have hpos' := h.pos
  refine ⟨by omega, ?_⟩
  rw [htoks', hpos, List.getElem?_append_right (Nat.le_refl _), Nat.sub_self]
  rfl

theorem Shifted.tok_eq (h : Shifted k c t t') (hpos : t'.pos ≠ k) :
    t'.toks[t'.pos]? = t.toks[t.pos]? := by
  obtain ⟨a, rest, rfl, htoks, htoks'⟩ := h.toks
  rw [htoks, htoks']
  rcases h.pos with ⟨hsame, hle⟩ | ⟨hnext, hle⟩
  · rw [hsame, List.getElem?_append_left (by omega),
      List.getElem?_append_left (by omega)]
  · rw [hnext, List.getElem?_append_right (by omega),
      List.getElem?_append_right hle, Nat.succ_sub hle, List.getElem?_cons_succ]

theorem Shifted.drop_eq (h : Shifted k c t t') (hpos : t'.pos = t.pos + 1)
    (hle : k ≤ t.pos) (j : Nat) :
    t'.toks.drop (t'.pos + j) = t.toks.drop (t.pos + j) := by
  obtain ⟨a, rest, rfl, htoks, htoks'⟩ := h.toks
  rw [htoks, htoks', hpos, List.drop_append, List.drop_append,
    List.drop_of_length_le (show a.length ≤ t.pos + 1 + j by omega),
    List.drop_of_length_le (show a.length ≤ t.pos + j by omega),
    show t.pos + 1 + j - a.length = (t.pos + j - a.length) + 1 by omega,
    List.drop_succ_cons]

theorem Shifted.replaced (h : Shifted k c t t') (hpos : t'.pos = t.pos + 1)
    (hle : k ≤ t.pos) (hfrontier : t.frontier = t.pos) (rest : List Token) :
    Shifted k c { t with toks := t.toks.take t.pos ++ rest }
      { t' with toks := t'.toks.take t'.pos ++ rest } where
  placed := h.placed.retain hfrontier rest
  toks := by
    obtain ⟨a, old, rfl, htoks, htoks'⟩ := h.toks
    refine ⟨a, old.take (t.pos - a.length) ++ rest, rfl, ?_, ?_⟩
    · change t.toks.take t.pos ++ rest = _
      rw [htoks, List.take_append, List.take_of_length_le hle,
        List.append_assoc]
    · change t'.toks.take t'.pos ++ rest = _
      rw [htoks', hpos, List.take_append, List.take_of_length_le (by omega),
        Nat.succ_sub hle, List.take_succ_cons, List.append_assoc]
      rfl
  le_frontier := h.le_frontier
  frontier_eq := h.frontier_eq
  pos := h.pos
  loops := h.loops
  out_le := h.out_le
  out_eq := h.out_eq
  passed := h.passed
  crossed hlength := by
    have hlen := h.placed.frontier_le
    change (t.toks.take t.pos ++ rest).length = k at hlength
    change t'.pos = k + 1
    rw [List.length_append, List.length_take_of_le (by omega)] at hlength
    omega

theorem Shifted.moved (h : Shifted k c t t') (hpos : t'.pos ≠ k)
    (htok : t.toks[t.pos]? = some tok)
    (hnext : Returns (t.step fns answers inclusions) (.inl t₁))
    {loops loops' : List TokenLoop} {pos pos' : Nat} {text : Bytes}
    (ht₁ : t₁ = { t.advance with
      loops := loops, pos := pos, out := t.advance.out ++ text })
    (hloops : SameSections (MarkShift k) loops loops')
    (hshift : MarkShift k pos pos') :
    Shifted k c t₁ { t'.advance with
      loops := loops', pos := pos', out := t'.advance.out ++ text } where
  placed := h.placed.step hnext
  toks := by
    rw [ht₁]
    exact h.toks
  le_frontier := by
    rw [ht₁]
    exact Nat.le_trans h.le_frontier (Nat.le_max_left _ _)
  frontier_eq := by
    have hfrontier := h.frontier_eq
    have hle := h.le_frontier
    have hold := h.pos
    rw [ht₁]
    change max t'.frontier (t'.pos + 1) = max t.frontier (t.pos + 1) + 1
    omega
  pos := by
    rw [ht₁]
    exact hshift.imp id fun h => ⟨h.1, Nat.le_of_lt h.2⟩
  loops := by
    rw [ht₁]
    exact hloops
  out_le := by
    rw [ht₁]
    change (t.out ++ text).length ≤ (t'.out ++ text).length
    rw [List.length_append, List.length_append]
    exact Nat.add_le_add_right h.out_le _
  out_eq := by
    rw [ht₁]
    change (t'.out ++ text).length = (t.out ++ text).length →
      t'.out ++ text = t.out ++ text
    rw [List.length_append, List.length_append]
    exact fun hlength => congrArg (· ++ text)
      (h.out_eq (Nat.add_right_cancel hlength))
  passed hat := by
    change pos' = k + 1 at hat
    rcases hshift with ⟨rfl, hle⟩ | ⟨rfl, hlt⟩
    · exact absurd hat (by omega)
    · exact absurd hat (by omega)
  crossed hlength := by
    rw [ht₁] at hlength
    have hat := h.crossed hlength
    have hlt := (List.getElem?_eq_some_iff.mp htok).1
    have hold := h.pos
    change t.toks.length = k at hlength
    omega

/-- Both runs stand at the same token, which includes nothing. -/
theorem Shifted.lockstep (h : Shifted k c t t') (hpos : t'.pos ≠ k)
    (htok : t.toks[t.pos]? = some tok) (hplain : tok.includes = false)
    (hlive : t.frontier ≠ t.toks.length) :
    Agree (TokenState.Outcome (MarkShift k) t.advance t'.advance)
      (t.step fns answers inclusions) (t'.step fns answers inclusions) := by
  have hold := h.pos
  have hnext : MarkShift k (t.pos + 1) (t'.pos + 1) := by
    rcases hold with ⟨hsame, hle⟩ | ⟨hsucc, hle⟩
    · exact Or.inl ⟨congrArg (· + 1) hsame, by omega⟩
    · exact Or.inr ⟨congrArg (· + 1) hsucc, by omega⟩
  exact step_lockstep htok ((h.tok_eq hpos).trans htok) hplain hlive
    (mt h.ended_iff.mp hlive) h.loops hnext

theorem Shifted.at_inclusion (h : Shifted k c t t') (hpos : t'.pos ≠ k)
    (htok : t.toks[t.pos]? = some (.inclusion name)) :
    t.frontier = t.pos ∧ k ≤ t.pos ∧ t'.pos = t.pos + 1 := by
  have hfrontier := h.placed.frontier_eq htok rfl
  have hle := h.le_frontier
  have hold := h.pos
  omega

theorem Shifted.torn (h : Shifted k c t t') (htorn : t'.Torn inclusions) :
    t.Torn inclusions := by
  obtain ⟨name, htok', hmissing, hmore, htext⟩ := htorn
  have hpos : t'.pos ≠ k := by
    intro hpos
    rw [(h.tok_place hpos).2] at htok'
    cases htok'
  have htok := (h.tok_eq hpos).symm.trans htok'
  obtain ⟨-, hle, hnext⟩ := h.at_inclusion hpos htok
  rw [h.length_eq, hnext] at hmore
  refine ⟨name, htok, hmissing, by omega, fun d hd => htext d ?_⟩
  rw [← List.head?_drop, h.drop_eq hnext hle, List.head?_drop]
  exact hd

/-- Both runs do the same, and write the same. -/
abbrev Together (k : Nat) (c : UInt8) (t t' : TokenState) :
    TokenState ⊕ Verdict → TokenState ⊕ Verdict → Prop :=
  SumRel
    (fun t₁ t₁' => Shifted k c t₁ t₁' ∧ (t₁'.out = t₁.out ↔ t'.out = t.out))
    (fun v v' => v.code = v'.code ∧ (v'.output = v.output ↔ t'.out = t.out))

theorem Shifted.enter (h : Shifted k c t t') (hpos : t'.pos ≠ k)
    (htok : t.toks[t.pos]? = some (.inclusion name))
    (hsound : ¬ t.Torn inclusions) :
    Agree (Together k c t t') (t.enter (inclusions name))
      (t'.enter (inclusions name)) := by
  obtain ⟨hfrontier, hle, hnext⟩ := h.at_inclusion hpos htok
  have hlt := (List.getElem?_eq_some_iff.mp htok).1
  rw [TokenState.enter.eq_def, TokenState.enter.eq_def, h.length_eq, hnext]
  by_cases hlast : t.pos + 1 = t.toks.length
  · rw [if_pos hlast, if_pos (by omega)]
    exact Agree.pure (.inr ⟨rfl, Iff.rfl⟩)
  · have hdrop : ∀ j, t'.toks.drop (t.pos + 1 + j) =
        t.toks.drop (t.pos + j) := hnext ▸ h.drop_eq hnext hle
    have hgoes := fun rest => h.replaced hnext hle hfrontier rest
    rw [hnext] at hgoes
    rw [if_neg hlast, if_neg (by omega)]
    cases hinclusion : inclusions name with
    | none => exact Agree.undefined
    | some inclusion =>
        cases inclusion with
        | found content =>
            dsimp only
            rw [hdrop 1, List.append_assoc, List.append_assoc]
            exact Agree.pure (.inl ⟨hgoes _, Iff.rfl⟩)
        | missing =>
            obtain ⟨d, hd⟩ : ∃ d, t.toks[t.pos + 1]? = some (.text d) := by
              by_contra hother
              exact hsound ⟨name, htok, hinclusion, by omega,
                fun d hd => hother ⟨d, hd⟩⟩
            have hd' : t'.toks[t.pos + 1 + 1]? = some (.text d) := by
              rw [← List.head?_drop, hdrop 1, List.head?_drop, hd]
            dsimp only
            rw [hd, hd', hdrop 2]
            exact Agree.pure (.inl ⟨hgoes _, Iff.rfl⟩)

/-- Where both runs stand at the same token they do the same. -/
theorem Shifted.together (h : Shifted k c t t') (hpos : t'.pos ≠ k)
    (hsound : ¬ t.Torn inclusions) :
    Agree (Together k c t t') (t.step fns answers inclusions)
      (t'.step fns answers inclusions) := by
  have hsame := h.tok_eq hpos
  cases htok : t.toks[t.pos]? with
  | none =>
      have hempty : t'.loops.isEmpty = t.loops.isEmpty := by
        have hloops := h.loops
        generalize t.loops = ms at hloops
        generalize t'.loops = ms' at hloops
        cases hloops <;> rfl
      rw [step, step, hsame, htok]
      exact Agree.pure (.inr ⟨by rw [hempty], Iff.rfl⟩)
  | some tok =>
      by_cases hended : t.frontier = t.toks.length
      · rw [step, step, hsame, htok]
        dsimp only
        rw [if_pos hended, if_pos (h.ended_iff.mpr hended), failed, failed,
          write_out, write_out, h.skips]
        refine Agree.pure (.inr ⟨rfl, ?_⟩)
        cases t.skips with
        | true => exact Iff.rfl
        | false => exact List.append_left_inj _
      · cases hplain : tok.includes with
        | false =>
            refine (h.lockstep hpos htok hplain hended).with_returns.mono ?_
            rintro o o' ⟨houtcome, ho, -⟩
            cases houtcome with
            | fails text => exact .inr ⟨rfl, List.append_left_inj _⟩
            | goes text hloops hshift =>
                exact .inl ⟨h.moved hpos htok ho rfl hloops hshift,
                  List.append_left_inj _⟩
        | true =>
            cases tok with
            | inclusion name =>
                rw [step_live htok hended, step_live (hsame.trans htok)
                  (mt h.ended_iff.mp hended)]
                exact h.enter hpos htok hsound
            | _ => cases hplain

/-- The second run goes over the byte, which leaves the outputs as they were
where output is suppressed and makes them differ elsewhere. -/
theorem Shifted.cross {a rest : List Token} (ht : t.Placed)
    (hk : a.length = k) (htoks : t.toks = a ++ rest)
    (htoks' : t'.toks = a ++ .text c :: rest) (hle : k ≤ t.frontier)
    (hfrontier : max t'.frontier (k + 1) = t.frontier + 1) (hat : t.pos = k)
    (hpos : t'.pos = k) (hloops : SameSections (MarkShift k) t.loops t'.loops)
    (hlonger : t.out.length ≤ t'.out.length)
    (hout_eq : t'.out.length = t.out.length → t'.out = t.out) :
    Shifted k c t (t'.advance.write [c]) ∧
      ((t'.advance.write [c]).out = t.out ↔
        t'.out = t.out ∧ t.skips = true) := by
  have hskips : t'.advance.skips = t.skips := SameSections.skips hloops
  have hout : (t'.advance.write [c]).out =
      if t.skips then t'.out else t'.out ++ [c] := by
    rw [write_out, hskips]
    rfl
  have hdiffers : t'.out ++ [c] ≠ t.out := by
    intro heq
    have hlength := congrArg List.length heq
    rw [List.length_append, List.length_singleton] at hlength
    omega
  constructor
  · refine ⟨ht, ⟨a, rest, hk, htoks, ?_⟩, hle, ?_, Or.inr ⟨?_, hat.ge⟩, ?_,
      ?_, ?_, fun _ => ?_, fun _ => ?_⟩
    · rw [write_out]
      exact htoks'
    · rw [write_out, ← hfrontier, ← hpos]
      rfl
    · rw [write_out, hat, ← hpos]
      rfl
    · rw [write_out]
      exact hloops
    · rw [hout]
      split
      · exact hlonger
      · rw [List.length_append]
        exact Nat.le_add_right_of_le hlonger
    · rw [hout]
      split
      · exact hout_eq
      · rw [List.length_append, List.length_singleton]
        omega
    · rw [hout]
      cases hskip : t.skips with
      | true => exact Or.inl rfl
      | false => exact Or.inr hdiffers
    · rw [write_out, ← hpos]
      rfl
  · rw [hout]
    cases t.skips with
    | true => exact (and_iff_left rfl).symm
    | false =>
        exact iff_of_false hdiffers fun h => Bool.false_ne_true h.2

theorem TokenState.indifferent_iff (hlive : t.frontier ≠ t.toks.length) :
    t.Indifferent byte ↔ t.skips = true :=
  or_iff_left fun hended => hlive hended.1

theorem goes_text (htok : t.toks[t.pos]? = some (.text c))
    (hlive : t.frontier ≠ t.toks.length) :
    Returns (t.step fns answers inclusions) (.inl (t.advance.write [c])) := by
  rw [step_live htok hlive]
  exact returns_pure_self _

theorem Shifted.crosses (h : Shifted k c t t') (hpos : t'.pos = k)
    (hlive : t.frontier ≠ t.toks.length) :
    Shifted k c t (t'.advance.write [c]) ∧
      ((t'.advance.write [c]).out = t.out ↔
        t'.out = t.out ∧ t.Indifferent (some c)) := by
  obtain ⟨a, rest, hk, htoks, htoks'⟩ := h.toks
  have hfrontier : max t'.frontier (k + 1) = t.frontier + 1 := by
    rw [h.frontier_eq]
    exact max_eq_left (Nat.succ_le_succ h.le_frontier)
  rw [TokenState.indifferent_iff hlive]
  exact Shifted.cross h.placed hk htoks htoks' h.le_frontier hfrontier
    (h.tok_place hpos).1 hpos h.loops h.out_le h.out_eq

/-- Nothing can be read any more: both runs fail at the place. -/
theorem Shifted.fails (h : Shifted k c t t') (hpos : t'.pos = k)
    (hended : t.frontier = t.toks.length) :
    ∃ v v', Returns (t.step fns answers inclusions) (.inr v) ∧
      Returns (t'.step fns answers inclusions) (.inr v') ∧ v.code = v'.code ∧
      (v'.output = v.output ↔ t'.out = t.out ∧ t.Indifferent (some c)) := by
  obtain ⟨hat, htok'⟩ := h.tok_place hpos
  have hlt : t.pos < t.toks.length := by
    have hle := h.placed.pos_le
    rcases Nat.lt_or_eq_of_le (hended ▸ hle) with hlt | heq
    · exact hlt
    · have hnext := h.crossed (heq.symm.trans hat)
      omega
  obtain ⟨tok, htok⟩ : ∃ tok, t.toks[t.pos]? = some tok :=
    ⟨_, List.getElem?_eq_getElem hlt⟩
  obtain ⟨b, rest, hbytes⟩ := List.exists_cons_of_ne_nil tok.bytes_ne_nil
  have hv : Returns (t.step fns answers inclusions)
      (.inr ⟨-1, (t.write [b]).out⟩) := by
    rw [step, htok]
    dsimp only
    rw [if_pos hended, hbytes]
    exact returns_pure_self _
  have hv' : Returns (t'.step fns answers inclusions)
      (.inr ⟨-1, (t'.write [c]).out⟩) := by
    rw [step, htok']
    dsimp only
    rw [if_pos (h.ended_iff.mpr hended)]
    exact returns_pure_self _
  refine ⟨_, _, hv, hv', rfl, ?_⟩
  have hindifferent : t.Indifferent (some c) ↔ t.skips = true ∨ b = c := by
    rw [Indifferent, htok]
    simp [hended, hbytes]
  rw [write_out, write_out, h.skips, hindifferent]
  cases t.skips with
  | true => exact (and_iff_left (Or.inl rfl)).symm
  | false =>
      have hsplit : t'.out ++ [c] = t.out ++ [b] ↔ t'.out = t.out ∧ c = b := by
        constructor
        · intro heq
          obtain ⟨hout, hbyte⟩ := List.append_inj' heq rfl
          exact ⟨hout, (List.cons.inj hbyte).1⟩
        · rintro ⟨hout, rfl⟩
          rw [hout]
      simp [hsplit, eq_comm]

/-- The place is behind the second run only where the byte made no
difference. -/
theorem Shifted.indifferent (h : Shifted k c t t') (hpos : t'.pos ≠ k)
    (hout : t'.out = t.out) (hat : t.pos = k) : t.Indifferent (some c) := by
  have hold := h.pos
  exact Or.inl ((h.passed (by omega)).resolve_right fun hne => hne hout)

theorem Shifted.place_eq (h : Shifted k c t t')
    (hnext : Returns (t.step fns answers inclusions) (.inl t₁)) :
    (if t.pos < k then k + t₁.toks.length - t.toks.length else k) = k := by
  by_cases hlt : t.pos < k
  · obtain ⟨tok, htok, -, ⟨-, hmoves⟩ | ⟨name, rfl, -⟩⟩ := step_inl hnext
    · have htoks : t₁.toks = t.toks := hmoves.toks_eq
      rw [if_pos hlt, htoks, Nat.add_sub_cancel]
    · have hfrontier := h.placed.frontier_eq htok rfl
      have hle := h.le_frontier
      omega
  · exact if_neg hlt

/-- The two runs wrote the same so far, and the byte will not be noticed. -/
def SameSoFar (fns : StreamFns τ) (answers : Answers τ)
    (inclusions : Inclusions) (byte : Option UInt8) (k : Nat)
    (t t' : TokenState) : Prop :=
  t'.out = t.out ∧ NeverNoticed fns answers inclusions byte (t, k)

theorem Shifted.next (h : Shifted k c t t') (hsound : ¬ t.Torn inclusions)
    (hnext : Returns (t'.step fns answers inclusions) (.inl t₁')) :
    ∃ t₁, Reaches (step fns answers inclusions) t t₁ ∧ Shifted k c t₁ t₁' ∧
      (SameSoFar fns answers inclusions (some c) k t₁ t₁' ↔
        SameSoFar fns answers inclusions (some c) k t t') := by
  by_cases hpos : t'.pos = k
  · obtain ⟨hat, htok'⟩ := h.tok_place hpos
    by_cases hended : t.frontier = t.toks.length
    · obtain ⟨-, v', -, hv', -⟩ :=
        @Shifted.fails _ fns answers inclusions _ _ _ _ h hpos hended
      cases hnext.unique hv'
    · obtain ⟨hshifted, hout⟩ := h.crosses hpos hended
      cases hnext.unique (goes_text htok' (mt h.ended_iff.mp hended))
      refine ⟨t, Reaches.refl t, hshifted, ?_⟩
      rw [SameSoFar, SameSoFar, hout, and_assoc]
      refine and_congr_right fun _ => and_iff_right_of_imp fun hnever => ?_
      exact hnever (t, k) (Reaches.refl _) hat
  · obtain ⟨o, ho, hrel⟩ := (h.together hpos hsound).back _ hnext
    cases hrel with
    | @inl t₁ _ hsame =>
        obtain ⟨hshifted, hout⟩ := hsame
        refine ⟨t₁, Reaches.step ho, hshifted, ?_⟩
        rw [SameSoFar, SameSoFar, hout, neverNoticed_next ho, h.place_eq ho]
        refine and_congr_right fun hsame => ?_
        exact (and_iff_right fun hat => h.indifferent hpos hsame hat).symm

theorem Shifted.exit (h : Shifted k c t t') (hsound : ¬ t.Torn inclusions)
    (hexit : Returns (t'.step fns answers inclusions) (.inr v)) :
    ∃ v₀, Returns (t.step fns answers inclusions) (.inr v₀) ∧
      v₀.code = v.code ∧ (v.output = v₀.output ↔
        SameSoFar fns answers inclusions (some c) k t t') := by
  by_cases hpos : t'.pos = k
  · obtain ⟨hat, htok'⟩ := h.tok_place hpos
    by_cases hended : t.frontier = t.toks.length
    · obtain ⟨v₀, v', hv₀, hv', hcode, hout⟩ :=
        @Shifted.fails _ fns answers inclusions _ _ _ _ h hpos hended
      cases hv'.unique hexit
      refine ⟨v₀, hv₀, hcode, hout.trans ?_⟩
      rw [SameSoFar, neverNoticed_exit hv₀, forall_prop_of_true hat]
    · cases hexit.unique (goes_text htok' (mt h.ended_iff.mp hended))
  · obtain ⟨o, ho, hrel⟩ := (h.together hpos hsound).back _ hexit
    cases hrel with
    | inr hsame =>
        refine ⟨_, ho, hsame.1, hsame.2.trans ?_⟩
        rw [SameSoFar, neverNoticed_exit ho]
        exact (and_iff_left_of_imp fun hout => h.indifferent hpos hout).symm

/-- Both states are in front of the tag, which only the first one has. -/
structure Ahead (name : Bytes) (post : List Token) (k : Nat)
    (t t' : TokenState) : Prop where
  placed : t.Placed
  toks : ∃ a, a.length = k ∧ t.toks = a ++ .inclusion name :: post ∧
    t'.toks = a ++ post
  same : t' = { t with toks := t'.toks }

theorem Ahead.frontier_le (h : Ahead name post k t t') : t.frontier ≤ k := by
  obtain ⟨a, rfl, htoks, -⟩ := h.toks
  by_contra hlt
  have hmem : Token.inclusion name ∈ t.toks.take t.frontier := by
    rw [htoks, List.take_append, List.mem_append]
    right
    obtain ⟨n, hn⟩ : ∃ n, t.frontier - a.length = n + 1 :=
      ⟨t.frontier - a.length - 1, by omega⟩
    rw [hn, List.take_succ_cons]
    exact List.mem_cons_self
  cases h.placed.plain _ hmem

theorem Ahead.live (h : Ahead name post k t t') (hpost : post ≠ []) :
    t.frontier ≠ t.toks.length ∧ t'.frontier ≠ t'.toks.length := by
  have hle := h.frontier_le
  have hlength := List.length_pos_iff.mpr hpost
  obtain ⟨a, rfl, htoks, htoks'⟩ := h.toks
  have hfrontier : t'.frontier = t.frontier := by rw [h.same]
  rw [hfrontier, htoks, htoks', List.length_append, List.length_append,
    List.length_cons]
  omega

theorem Ahead.tok_eq (h : Ahead name post k t t') {n : Nat} (hn : n < k) :
    t'.toks[n]? = t.toks[n]? := by
  obtain ⟨a, rfl, htoks, htoks'⟩ := h.toks
  rw [htoks, htoks', List.getElem?_append_left hn,
    List.getElem?_append_left hn]

theorem Ahead.tok_behind (h : Ahead name post k t t') (n : Nat) :
    t.toks[k + n]? = (Token.inclusion name :: post)[n]? ∧
      t'.toks[k + n]? = post[n]? := by
  obtain ⟨a, rfl, htoks, htoks'⟩ := h.toks
  rw [htoks, htoks', List.getElem?_append_right (Nat.le_add_right _ _),
    List.getElem?_append_right (Nat.le_add_right _ _),
    Nat.add_sub_cancel_left]
  exact ⟨rfl, rfl⟩

theorem Ahead.tok_at (h : Ahead name post k t t') :
    t.toks[k]? = some (.inclusion name) ∧ t'.toks[k]? = post[0]? :=
  h.tok_behind 0

theorem Ahead.pos_eq (h : Ahead name post k t t') : t'.pos = t.pos := by
  rw [h.same]

theorem Ahead.out_eq (h : Ahead name post k t t') : t'.out = t.out := by
  rw [h.same]

theorem Ahead.pos_le (h : Ahead name post k t t') : t.pos ≤ k :=
  Nat.le_trans h.placed.pos_le h.frontier_le

theorem Ahead.length_eq (h : Ahead name post k t t') :
    t.toks.length = k + 1 + post.length ∧
      t'.toks.length = k + post.length := by
  obtain ⟨a, rfl, htoks, htoks'⟩ := h.toks
  rw [htoks, htoks', List.length_append, List.length_append, List.length_cons]
  omega

theorem Ahead.torn (h : Ahead name post k t t') (hpost : post ≠ [])
    (hmissing : inclusions name = some .missing)
    (htorn : t'.Torn inclusions) : t.Torn inclusions := by
  obtain ⟨other, htok', hother, -, htext⟩ := htorn
  have hlength := h.length_eq.1
  have hmore := List.length_pos_iff.mpr hpost
  rw [h.pos_eq] at htok' htext
  rcases Nat.lt_or_eq_of_le h.pos_le with hlt | hat
  · have htok := (h.tok_eq hlt).symm.trans htok'
    refine ⟨other, htok, hother, by omega, fun c hc => ?_⟩
    rcases Nat.lt_or_eq_of_le (show t.pos + 1 ≤ k from hlt) with hnext | hnext
    · exact htext c ((h.tok_eq hnext).trans hc)
    · rw [hnext, h.tok_at.1] at hc
      cases hc
  · rw [hat, h.tok_at.2] at htok'
    refine ⟨name, ?_, hmissing, by omega, fun c hc => ?_⟩
    · rw [hat]
      exact h.tok_at.1
    · rw [hat, (h.tok_behind 1).1, List.getElem?_cons_succ, htok'] at hc
      cases hc

theorem sameSections_before {ms : List TokenLoop}
    (h : ∀ m ∈ ms, m.mark ≤ k) : SameSections (MarkShift k) ms ms := by
  induction ms with
  | nil => exact .nil
  | cons m ms ih =>
      obtain ⟨hmark, hrest⟩ := List.forall_mem_cons.mp h
      exact .cons ⟨rfl, rfl, rfl, rfl, rfl, Or.inl ⟨rfl, hmark⟩⟩ (ih hrest)

/-- The first run takes the tag and the byte after it, and the second one
writes that byte. -/
theorem Ahead.takes (h : Ahead name post k t t') (hpost : post ≠ [])
    (hmissing : inclusions name = some .missing) (hat : t.pos = k)
    (hsound : ¬ t.Torn inclusions) :
    ∃ c t₁ t₁', (tokenBytes post).head? = some c ∧
      Returns (t.step fns answers inclusions) (.inl t₁) ∧
      Returns (t'.step fns answers inclusions) (.inl t₁') ∧
      Shifted k c t₁ t₁' ∧
      (SameSoFar fns answers inclusions (some c) k t₁ t₁' ↔
        SameSoFar fns answers inclusions (some c) k t t') := by
  obtain ⟨hlive, hlive'⟩ := h.live hpost
  have hpos := h.pos_eq.trans hat
  have hfrontier : t.frontier = k :=
    Nat.le_antisymm h.frontier_le (hat ▸ h.placed.pos_le)
  have hfrontier' : t'.frontier = k := by
    rw [h.same]
    exact hfrontier
  have htok : t.toks[t.pos]? = some (.inclusion name) := by
    rw [hat]
    exact h.tok_at.1
  have hmore : t.pos + 1 ≠ t.toks.length := by
    have hlength := h.length_eq.1
    have hmore := List.length_pos_iff.mpr hpost
    omega
  -- what comes after the tag is a text byte
  obtain ⟨c, hc⟩ : ∃ c, t.toks[t.pos + 1]? = some (.text c) := by
    have hlt := (List.getElem?_eq_some_iff.mp htok).1
    by_contra hother
    exact hsound ⟨name, htok, hmissing, by omega,
      fun d hd => hother ⟨d, hd⟩⟩
  have hhead : post[0]? = some (.text c) := by
    rw [hat, (h.tok_behind 1).1] at hc
    exact hc
  obtain ⟨rest, rfl⟩ : ∃ rest, post = .text c :: rest := by
    cases post with
    | nil => cases hhead
    | cons tok rest =>
        cases hhead
        exact ⟨rest, rfl⟩
  obtain ⟨a, hk, htoks, htoks'⟩ := h.toks
  have hnext : Returns (t.step fns answers inclusions)
      (.inl { t with toks := a ++ rest }) := by
    have hcut : t.toks.take t.pos ++ t.toks.drop (t.pos + 2) = a ++ rest := by
      rw [htoks, hat, ← hk, List.take_left, List.drop_append]
      simp
    rw [step_live htok hlive]
    change Returns (t.enter (inclusions name)) _
    rw [TokenState.enter.eq_def, if_neg hmore, hmissing, hc]
    dsimp only
    rw [hcut]
    exact returns_pure_self _
  have htok' : t'.toks[t'.pos]? = some (.text c) := by
    rw [hpos]
    exact h.tok_at.2.trans hhead
  have hloops : SameSections (MarkShift k) t.loops t'.loops := by
    rw [h.same]
    exact sameSections_before (hfrontier ▸ h.placed.mark_le)
  obtain ⟨hshifted, hout⟩ := @Shifted.cross { t with toks := a ++ rest } t' k c
    a rest (h.placed.step hnext) hk rfl htoks' hfrontier.ge
    (by rw [hfrontier', hfrontier]; exact max_eq_right (Nat.le_succ k)) hat
    hpos hloops (by rw [h.out_eq]) fun _ => h.out_eq
  refine ⟨c, _, _, rfl, hnext, goes_text htok' hlive', hshifted, ?_⟩
  rw [SameSoFar, SameSoFar, hout, neverNoticed_next hnext,
    forall_prop_of_true hat, TokenState.indifferent_iff hlive,
    if_neg (Nat.not_lt.mpr hat.ge), and_assoc]
  rfl

/-- An inclusion in front of the place is replaced. -/
theorem Ahead.replaced (h : Ahead name post k t t')
    (hfrontier : t.frontier = t.pos) {n : Nat} (hn : t.pos + n ≤ k)
    (content : List Token) :
    Ahead name post (k - n + content.length)
      { t with toks := t.toks.take t.pos ++ content ++ t.toks.drop (t.pos + n) }
      { t' with
        toks := t'.toks.take t'.pos ++ content ++ t'.toks.drop (t'.pos + n) }
    where
  placed := by
    rw [List.append_assoc]
    exact h.placed.retain hfrontier _
  toks := by
    obtain ⟨a, rfl, htoks, htoks'⟩ := h.toks
    refine ⟨a.take t.pos ++ content ++ a.drop (t.pos + n), ?_, ?_, ?_⟩
    · rw [List.length_append, List.length_append, List.length_drop,
        List.length_take_of_le (by omega)]
      omega
    · change t.toks.take t.pos ++ content ++ t.toks.drop (t.pos + n) = _
      rw [htoks, List.take_append_of_le_length (by omega),
        List.drop_append_of_le_length hn]
      simp only [List.append_assoc]
    · change t'.toks.take t'.pos ++ content ++ t'.toks.drop (t'.pos + n) = _
      rw [htoks', h.pos_eq, List.take_append_of_le_length (by omega),
        List.drop_append_of_le_length hn]
      simp only [List.append_assoc]
  same := by
    rw [h.same]

theorem Ahead.together (h : Ahead name post k t t') (hpost : post ≠ [])
    (hlt : t.pos < k) (hsound : ¬ t.Torn inclusions) :
    Agree
      (SumRel (fun t₁ t₁' => Ahead name post
        (k + t₁.toks.length - t.toks.length) t₁ t₁') Eq)
      (t.step fns answers inclusions) (t'.step fns answers inclusions) := by
  obtain ⟨hlive, hlive'⟩ := h.live hpost
  obtain ⟨hlength, hlength'⟩ := h.length_eq
  have hmore := List.length_pos_iff.mpr hpost
  have hpos := h.pos_eq
  obtain ⟨tok, htok⟩ : ∃ tok, t.toks[t.pos]? = some tok :=
    ⟨_, List.getElem?_eq_getElem (by omega)⟩
  have htok' := (h.tok_eq hlt).trans htok
  cases hplain : tok.includes with
  | false =>
      have hfrontier : t'.frontier = t.frontier := by rw [h.same]
      have hsteps : Agree _ (t.step fns answers inclusions)
          (({ t with toks := t'.toks } : TokenState).step
            fns answers inclusions) :=
        step_retoken htok htok' hplain hlive (hfrontier ▸ hlive')
      rw [← h.same] at hsteps
      refine hsteps.with_returns.mono ?_
      rintro _ _ ⟨⟨htoks₁, rfl⟩ | rfl, ho, -⟩
      · left
        rw [htoks₁, Nat.add_sub_cancel]
        exact ⟨h.placed.step ho, htoks₁ ▸ h.toks, rfl⟩
      · exact .inr rfl
  | true =>
      cases tok with
      | inclusion other =>
          have hfrontier := h.placed.frontier_eq htok rfl
          -- the place moves with the tokens
          have hplace : ∀ (n : Nat) (content : List Token), 0 < n →
              t.pos + n ≤ k → k - n + content.length =
                k + (t.toks.take t.pos ++ content ++
                  t.toks.drop (t.pos + n)).length - t.toks.length := by
            intro n content hn hle
            rw [List.length_append, List.length_append, List.length_drop,
              List.length_take_of_le (by omega)]
            omega
          rw [step_live htok hlive, step_live (hpos ▸ htok') hlive']
          change Agree _ (t.enter (inclusions other))
            (t'.enter (inclusions other))
          rw [TokenState.enter.eq_def, TokenState.enter.eq_def,
            if_neg (by omega), if_neg (by omega)]
          cases hinclusion : inclusions other with
          | none => exact Agree.undefined
          | some inclusion =>
              cases inclusion with
              | found content =>
                  dsimp only
                  refine Agree.pure (.inl ?_)
                  have hgoes := h.replaced hfrontier (show t.pos + 1 ≤ k from hlt) content
                  rw [hplace 1 content Nat.one_pos hlt] at hgoes
                  exact hgoes
              | missing =>
                  obtain ⟨d, hd⟩ : ∃ d, t.toks[t.pos + 1]? = some (.text d) := by
                    by_contra hother
                    exact hsound ⟨other, htok, hinclusion, by omega,
                      fun d hd => hother ⟨d, hd⟩⟩
                  have hnext : t.pos + 1 < k := by
                    refine Nat.lt_of_le_of_ne hlt fun heq => ?_
                    rw [heq, h.tok_at.1] at hd
                    cases hd
                  have hgoes := h.replaced hfrontier (show t.pos + 2 ≤ k from hnext) []
                  rw [hplace 2 [] Nat.two_pos hnext, List.append_nil,
                    List.append_nil] at hgoes
                  rw [hd, hpos, (h.tok_eq hnext).trans hd]
                  rw [hpos] at hgoes
                  exact Agree.pure (.inl hgoes)
      | _ => cases hplain

/-- The two runs are in front of the place, or behind it. -/
inductive Compared (name : Bytes) (post : List Token) (k : Nat)
    (t t' : TokenState) : Prop
  | ahead : Ahead name post k t t' → Compared name post k t t'
  | behind (c : UInt8) : (tokenBytes post).head? = some c →
      Shifted k c t t' → Compared name post k t t'

theorem start_compared (pre : List Token) :
    Compared name post pre.length (start (pre ++ .inclusion name :: post))
      (start (pre ++ post)) :=
  .ahead ⟨start_placed _, ⟨pre, rfl, rfl, rfl⟩, rfl⟩

theorem Compared.torn (h : Compared name post k t t') (hpost : post ≠ [])
    (hmissing : inclusions name = some .missing)
    (htorn : t'.Torn inclusions) : t.Torn inclusions := by
  cases h with
  | ahead h => exact h.torn hpost hmissing htorn
  | behind c _ h => exact h.torn htorn

/-- Whatever the second run does, the first one does in one step or in none. -/
theorem Compared.next (h : Compared name post k t t') (hpost : post ≠ [])
    (hmissing : inclusions name = some .missing)
    (hsound : ¬ t.Torn inclusions)
    (hnext : Returns (t'.step fns answers inclusions) (.inl t₁')) :
    ∃ k₁ t₁, Reaches (step fns answers inclusions) t t₁ ∧
      Compared name post k₁ t₁ t₁' ∧
      (SameSoFar fns answers inclusions (tokenBytes post).head? k₁ t₁ t₁' ↔
        SameSoFar fns answers inclusions (tokenBytes post).head? k t t') := by
  cases h with
  | ahead h =>
      rcases Nat.lt_or_eq_of_le h.pos_le with hlt | hat
      · obtain ⟨o, ho, hrel⟩ := (h.together hpost hlt hsound).back _ hnext
        cases hrel with
        | @inl t₁ _ hahead =>
            refine ⟨_, t₁, Reaches.step ho, .ahead hahead, ?_⟩
            rw [SameSoFar, SameSoFar, neverNoticed_next ho, if_pos hlt,
              hahead.out_eq, h.out_eq]
            simp [Nat.ne_of_lt hlt]
      · obtain ⟨c, t₁, t₂, hc, ho, ho', hshifted, hsame⟩ :=
          @Ahead.takes _ fns answers _ _ _ _ _ _ h hpost hmissing hat hsound
        cases hnext.unique ho'
        exact ⟨k, t₁, Reaches.step ho, .behind c hc hshifted, hc ▸ hsame⟩
  | behind c hc h =>
      obtain ⟨t₁, hreach, hshifted, hsame⟩ := h.next hsound hnext
      exact ⟨k, t₁, hreach, .behind c hc hshifted, hc ▸ hsame⟩

theorem Compared.exit (h : Compared name post k t t') (hpost : post ≠ [])
    (hmissing : inclusions name = some .missing)
    (hsound : ¬ t.Torn inclusions)
    (hexit : Returns (t'.step fns answers inclusions) (.inr v)) :
    ∃ v₀, Returns (t.step fns answers inclusions) (.inr v₀) ∧
      v₀.code = v.code ∧ (v.output = v₀.output ↔
        SameSoFar fns answers inclusions (tokenBytes post).head? k t t') := by
  cases h with
  | ahead h =>
      rcases Nat.lt_or_eq_of_le h.pos_le with hlt | hat
      · obtain ⟨o, ho, hrel⟩ := (h.together hpost hlt hsound).back _ hexit
        cases hrel with
        | inr hsame =>
            subst hsame
            refine ⟨_, ho, rfl, ?_⟩
            rw [SameSoFar, neverNoticed_exit ho, h.out_eq]
            simp [Nat.ne_of_lt hlt]
      · obtain ⟨c, t₁, t₂, -, -, ho', -⟩ :=
          @Ahead.takes _ fns answers _ _ _ _ _ _ h hpost hmissing hat hsound
        cases hexit.unique ho'
  | behind c hc h =>
      obtain ⟨v₀, hv₀, hcode, hout⟩ := h.exit hsound hexit
      exact ⟨v₀, hv₀, hcode, hc ▸ hout⟩

/-- The runs come to the same code, and to the same output exactly when they
wrote the same so far and the byte is never noticed. -/
theorem Compared.finishes (h : Compared name post k t t') (hpost : post ≠ [])
    (hmissing : inclusions name = some .missing)
    (hsound : ∀ s, Reaches (step fns answers inclusions) t s →
      ¬ s.Torn inclusions)
    (hv : Returns (loop (step fns answers inclusions) t') v) :
    ∃ v₀, Returns (loop (step fns answers inclusions) t) v₀ ∧
      v₀.code = v.code ∧ (v.output = v₀.output ↔
        SameSoFar fns answers inclusions (tokenBytes post).head? k t t') := by
  refine Returns.loop_induction
    (P := fun t' v => ∀ k t, Compared name post k t t' →
      (∀ s, Reaches (step fns answers inclusions) t s →
        ¬ s.Torn inclusions) →
      ∃ v₀, Returns (loop (step fns answers inclusions) t) v₀ ∧
        v₀.code = v.code ∧ (v.output = v₀.output ↔
          SameSoFar fns answers inclusions (tokenBytes post).head? k t t'))
    ?_ ?_ hv k t h hsound
  · intro t' v hexit k t h hsound
    obtain ⟨v₀, hv₀, hverdict⟩ :=
      h.exit hpost hmissing (hsound t (Reaches.refl t)) hexit
    exact ⟨v₀, hv₀.loop_exit, hverdict⟩
  · intro t' t₁' v hnext _ ih k t h hsound
    obtain ⟨k₁, t₁, hreach, hcompared, hsame⟩ :=
      h.next hpost hmissing (hsound t (Reaches.refl t)) hnext
    obtain ⟨v₀, hv₀, hcode, hout⟩ :=
      ih k₁ t₁ hcompared fun s hs => hsound s (hreach.trans hs)
    exact ⟨v₀, (Reaches.returns_iff hreach).mpr hv₀, hcode, hout.trans hsame⟩

theorem neverTorn_without {pre : List Token} (hpost : post ≠ [])
    (hmissing : inclusions name = some .missing)
    (hsound : NeverTorn fns answers inclusions
      (pre ++ .inclusion name :: post)) :
    NeverTorn fns answers inclusions (pre ++ post) := by
  intro t' hreached
  have hcompared : ∃ k t, t.ReachedFrom fns answers inclusions
      (pre ++ .inclusion name :: post) ∧ Compared name post k t t' := by
    induction hreached with
    | refl => exact ⟨_, _, Reaches.refl _, start_compared pre⟩
    | tail _ hnext ih =>
        obtain ⟨k, t, hreach, hcompared⟩ := ih
        obtain ⟨k₁, t₁, hsteps, hcompared', -⟩ :=
          hcompared.next hpost hmissing (hsound t hreach) hnext
        exact ⟨k₁, t₁, hreach.trans hsteps, hcompared'⟩
  obtain ⟨k, t, hreach, hcompared⟩ := hcompared
  exact fun htorn => hsound t hreach (hcompared.torn hpost hmissing htorn)

/-- A missing inclusion is followed by a text byte. -/
def SpacedOut (inclusions : Inclusions) (tok next : Token) : Prop :=
  ∀ name, tok = .inclusion name → inclusions name = some .missing →
    ∃ c, next = .text c

/-- An inclusion gives way to its content, or to nothing. -/
theorem SpacedOut.replace {a content gone rest : List Token}
    (h : (a ++ .inclusion name :: (gone ++ rest)).IsChain
      (SpacedOut inclusions))
    (hcontent : content.IsChain (SpacedOut inclusions))
    (hlast : ∀ other, content.getLast? = some (.inclusion other) →
      inclusions other ≠ some .missing) :
    (a ++ content ++ rest).IsChain (SpacedOut inclusions) := by
  obtain ⟨ha, hbehind, hjoin⟩ := List.isChain_append.mp h
  have hrest : rest.IsChain (SpacedOut inclusions) := by
    change ([Token.inclusion name] ++ gone ++ rest).IsChain _ at hbehind
    exact hbehind.right_of_append
  rw [List.append_assoc]
  refine ha.append (hcontent.append hrest ?_) ?_
  · intro tok htok next _ other hother hmissing
    subst hother
    exact absurd hmissing (hlast other htok)
  · -- what stands before an inclusion may stand before anything
    intro tok htok next _ other hother hmissing
    obtain ⟨c, hc⟩ := hjoin tok htok _ rfl other hother hmissing
    cases hc

/-- No inclusion of these tokens tears the tag after it. -/
theorem neverTorn_of_spacedOut {toks : List Token}
    (hcontent : ∀ name content, inclusions name = some (.found content) →
      content.IsChain (SpacedOut inclusions) ∧
        ∀ other, content.getLast? = some (.inclusion other) →
          inclusions other ≠ some .missing)
    (h : toks.IsChain (SpacedOut inclusions)) :
    NeverTorn fns answers inclusions toks := by
  have hsplit : ∀ {t : TokenState} {name : Bytes},
      t.toks[t.pos]? = some (.inclusion name) →
      t.toks = t.toks.take t.pos ++
        .inclusion name :: t.toks.drop (t.pos + 1) := by
    intro t name htok
    obtain ⟨hlt, hget⟩ := List.getElem?_eq_some_iff.mp htok
    rw [← hget, ← List.drop_eq_getElem_cons hlt, List.take_append_drop]
  intro t hreached
  have hchain : t.toks.IsChain (SpacedOut inclusions) := by
    refine hreached.invariant
      (I := fun t => t.toks.IsChain (SpacedOut inclusions)) ?_ h
    intro t t₁ hchain hnext
    obtain ⟨tok, htok, -, ⟨-, hmoves⟩ | ⟨name, rfl, henter⟩⟩ := step_inl hnext
    · have htoks : t₁.toks = t.toks := hmoves.toks_eq
      rw [htoks]
      exact hchain
    · rw [hsplit htok] at hchain
      obtain ⟨-, hfound | hmissing⟩ := enter_inl henter
      · obtain ⟨content, hname, rfl⟩ := hfound
        obtain ⟨hspaced, hlast⟩ := hcontent name content hname
        exact @SpacedOut.replace _ _ _ _ [] _ hchain hspaced hlast
      · obtain ⟨-, -, rfl⟩ := hmissing
        have hrest : t.toks.drop (t.pos + 1) =
            (t.toks.drop (t.pos + 1)).take 1 ++ t.toks.drop (t.pos + 2) := by
          rw [← List.drop_drop (i := 1) (j := t.pos + 1),
            List.take_append_drop]
        rw [hrest] at hchain
        have hgoes := @SpacedOut.replace _ _ _ [] _ _ hchain .nil
          fun other hother => by cases hother
        rw [List.append_nil] at hgoes
        exact hgoes
  rintro ⟨name, htok, hmissing, hmore, htext⟩
  rw [hsplit htok, List.drop_eq_getElem_cons hmore] at hchain
  obtain ⟨-, hnext, -⟩ := List.isChain_append_cons_cons.mp hchain
  obtain ⟨c, hc⟩ := hnext name rfl hmissing
  exact htext c (by rw [List.getElem?_eq_getElem hmore, hc])

end

/-- A missing partial renders as nothing exactly when the byte after its tag is
never noticed. -/
theorem missing_partial_iff {fns : StreamFns τ} {cb : Callback σ ο τ}
    {answers : Answers τ} {R : Session σ ο τ} {inclusions : Inclusions}
    (hs : Serves cb answers R) (hprovides : Provides fns answers inclusions)
    {pre post : List Token} {name : Bytes}
    (hmissing : inclusions name = some .missing) (hpost : post ≠ [])
    (hok : ∀ tok ∈ pre ++ .inclusion name :: post, TokenOk inclusions tok)
    {env env' : σ} (hsession : R env [] []) (hsession' : R env' [] [])
    {input input' : InputStream τ}
    (hinput : input.Delivers fns
      (tokenBytes (pre ++ .inclusion name :: post)))
    (hinput' : input'.Delivers fns (tokenBytes (pre ++ post)))
    (data data' : Int → UInt8)
    (hsound : NeverTorn fns answers inclusions
      (pre ++ .inclusion name :: post))
    {verdict : Verdict}
    (hwithout : RendersTo fns cb env' input' data' verdict) :
    RendersTo fns cb env input data verdict ↔
      NeverNoticed fns answers inclusions (tokenBytes post).head?
        (start (pre ++ .inclusion name :: post), pre.length) := by
  have hok' : ∀ tok ∈ pre ++ post, TokenOk inclusions tok := by
    intro tok htok
    refine hok tok (List.mem_append.mpr ?_)
    exact (List.mem_append.mp htok).imp_right (List.mem_cons_of_mem _)
  have hrun := rendered_of_rendersTo hs hprovides hsession' hinput' hok'
    (neverTorn_without hpost hmissing hsound) hwithout
  obtain ⟨v₀, hv₀, hcode, hout⟩ :=
    (start_compared pre).finishes hpost hmissing hsound hrun
  rw [rendersTo_iff_moored hs hprovides hsession hinput hok data hsound,
    ← (show SameSoFar fns answers inclusions (tokenBytes post).head? pre.length
        (start (pre ++ .inclusion name :: post)) (start (pre ++ post)) ↔ _ from
      and_iff_right rfl), ← hout]
  constructor
  · intro hrendered
    rw [hrendered.unique hv₀]
  · intro heq
    have hverdict : verdict = v₀ := by
      cases verdict
      cases v₀
      rw [Verdict.mk.injEq]
      exact ⟨hcode.symm, heq⟩
    rw [hverdict]
    exact hv₀

def nothingFound : Answers Empty := fun _ _ => .notFound

def nothingIncluded : Inclusions := fun _ => some .missing

theorem nothingFound_provides :
    Provides noStreams nothingFound nothingIncluded where
  found name content h := by cases h
  missing name _ frames := trivial

/-- In `{{#x}}{{>p}}b{{/x}}c` the byte is not noticed. -/
theorem missing_partial_suppressed :
    RendersTo noStreams (answering nothingFound) []
      (newInputStreamFromString (chars "{{#x}}{{>p}}b{{/x}}c")) (fun _ => 0)
      ⟨0, chars "c"⟩ := by
  let pre : List Token := [.opening .loopWhile (chars "x")]
  let post : List Token :=
    [.text (ascii 'b'), .closing (chars "x"), .text (ascii 'c')]
  have hvalid : ∀ tok ∈ pre ++ .inclusion (chars "p") :: post,
      tok.Valid := by decide
  have hsound : NeverTorn noStreams nothingFound nothingIncluded
      (pre ++ .inclusion (chars "p") :: post) := by
    refine neverTorn_of_spacedOut (fun name content h => by cases h) ?_
    simp [pre, post, SpacedOut]
  have hnever : NeverNoticed noStreams nothingFound nothingIncluded
      (tokenBytes post).head?
      (start (pre ++ .inclusion (chars "p") :: post), pre.length) := by
    -- the section is opened, the tag is taken, the section is closed
    refine (neverNoticed_next ⟨1, rfl⟩).mpr ⟨fun h => (by cases h), ?_⟩
    refine (neverNoticed_next ⟨1, rfl⟩).mpr ⟨fun _ => Or.inl rfl, ?_⟩
    refine (neverNoticed_next ⟨1, rfl⟩).mpr ⟨fun _ => Or.inl rfl, ?_⟩
    refine (neverNoticed_next ⟨1, rfl⟩).mpr ⟨fun h => (by cases h), ?_⟩
    exact (neverNoticed_exit ⟨1, rfl⟩).mpr fun h => by cases h
  have hinput := delivers_tokenBytes noStreams hvalid
  have hinput' := @delivers_tokenBytes _ noStreams (pre ++ post) (by decide)
  rw [show tokenBytes (pre ++ .inclusion (chars "p") :: post) =
    chars "{{#x}}{{>p}}b{{/x}}c" by decide] at hinput
  rw [show tokenBytes (pre ++ post) = chars "{{#x}}b{{/x}}c" by decide]
    at hinput'
  have hwithout : RendersTo noStreams (answering nothingFound) []
      (newInputStreamFromString (chars "{{#x}}b{{/x}}c")) (fun _ => 0)
      ⟨0, chars "c"⟩ := ⟨_, ⟨20, rfl⟩, rfl, rfl⟩
  exact (missing_partial_iff (answering_serves nothingFound)
    nothingFound_provides rfl (List.cons_ne_nil _ _)
    (fun tok htok => ⟨hvalid tok htok, fun _ _ => rfl⟩) answeringSession_nil
    answeringSession_nil hinput hinput' (fun _ => 0) (fun _ => 0) hsound
    hwithout).mpr hnever

/-- The byte after the tag is lost, or the tag after it is torn. -/
theorem missing_partial_noticed :
    (RendersTo noStreams (answering nothingFound) []
        (newInputStreamFromString (chars "abc")) (fun _ => 0)
        ⟨0, chars "abc"⟩ ∧
      ¬ RendersTo noStreams (answering nothingFound) []
        (newInputStreamFromString (chars "a{{>p}}bc")) (fun _ => 0)
        ⟨0, chars "abc"⟩) ∧
    RendersTo noStreams (answering nothingFound) []
        (newInputStreamFromString (chars "a{{x}}c")) (fun _ => 0)
        ⟨0, chars "ac"⟩ ∧
      ¬ RendersTo noStreams (answering nothingFound) []
        (newInputStreamFromString (chars "a{{>p}}{{x}}c")) (fun _ => 0)
        ⟨0, chars "ac"⟩ := by
  have hlost : Returns (render noStreams (answering nothingFound) []
      (newInputStreamFromString (chars "a{{>p}}bc")) fun _ => 0) _ :=
    ⟨20, rfl⟩
  have htorn : Returns (render noStreams (answering nothingFound) []
      (newInputStreamFromString (chars "a{{>p}}{{x}}c")) fun _ => 0) _ :=
    ⟨20, rfl⟩
  refine ⟨⟨⟨_, ⟨20, rfl⟩, rfl, rfl⟩, ?_⟩, ⟨_, ⟨20, rfl⟩, rfl, rfl⟩, ?_⟩
  · rintro ⟨r, hr, -, hout⟩
    rw [hr.unique hlost] at hout
    revert hout
    decide
  · rintro ⟨r, hr, -, hout⟩
    rw [hr.unique htorn] at hout
    revert hout
    decide

end Libcad
