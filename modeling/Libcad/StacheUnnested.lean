/-
Callbacks that never render.  An engine that knows of renderings in its lookups
does with such a callback what the engine without them does.
-/
import Libcad.StacheAccesses
import Libcad.StacheNested

namespace Libcad

open Proc

variable {σ ο τ : Type}

def Callback.unnested (cb : Callback σ ο τ) : NestingCallback σ ο τ where
  objects := cb
  resolve env name :=
    .answer (cb.resolve env name).1 (cb.resolve env name).2

section

variable {fns : StreamFns τ} {cb : Callback σ ο τ}
  {buffer start after next : Buffer σ ο τ}

def SameDelimiters (before after : Buffer σ ο τ) : Prop :=
  after.openDelimiter = before.openDelimiter ∧
    after.closeDelimiter = before.closeDelimiter

theorem Advances.sameDelimiters (h : Advances start after) :
    SameDelimiters start after :=
  ⟨h.openDelimiter, h.closeDelimiter⟩

theorem SameDelimiters.trans (h : SameDelimiters start after)
    (h' : SameDelimiters after next) : SameDelimiters start next :=
  ⟨h'.1.trans h.1, h'.2.trans h.2⟩

theorem Parses.sameDelimiters {suffix : Option Bytes}
    {effect : NameBlock → Buffer σ ο τ → Buffer σ ο τ → Prop}
    (hparses : Parses fns cb suffix start effect (true, next))
    (heffect : ∀ {name after}, Advances start after →
      effect name after next → SameDelimiters after next) :
    SameDelimiters start next := by
  cases hparses with
  | refused hparse =>
      obtain ⟨read, hread, -, rfl, -⟩ := parseName_refused hparse
      exact hread.sameDelimiters
  | named hparse hresult =>
      have hread := advances_closed.parseName hparse
      exact hread.sameDelimiters.trans (heffect hread (hresult rfl))

theorem renderTag_sameDelimiters {place : Int} {c : UInt8}
    (hvalid : start.Valid) (hc : c ≠ ascii '=')
    (h : Returns (renderTag fns cb place c start) (true, next)) :
    SameDelimiters start next := by
  rw [renderTag] at h
  split_ifs at h
  · exact (renderVariable_parses writeRaw_only h).sameDelimiters
      fun _ hacts => ⟨hacts.1.openDelimiter, hacts.1.closeDelimiter⟩
  · exact (renderStacheLoop_parses h).sameDelimiters
      fun _ hacts => ⟨hacts.1.openDelimiter, hacts.1.closeDelimiter⟩
  · refine (renderStacheEnd_parses h).sameDelimiters fun hread heffect => ?_
    obtain ⟨hsame, -⟩ :=
      heffect fun loop hloop => hvalid loop (hread.loops ▸ hloop)
    exact ⟨hsame.openDelimiter, hsame.closeDelimiter⟩
  · exact (renderStacheLoop_parses h).sameDelimiters
      fun _ hacts => ⟨hacts.1.openDelimiter, hacts.1.closeDelimiter⟩
  · exact (advances_closed.comment h).sameDelimiters
  · exact (renderStachePartial_parses h).sameDelimiters
      fun _ hincluded => ⟨hincluded.openDelimiter, hincluded.closeDelimiter⟩
  · exact (renderVariable_parses writeEscaped_only h).sameDelimiters
      fun _ hacts => ⟨hacts.1.openDelimiter, hacts.1.closeDelimiter⟩

end

section

variable {fns : StreamFns τ} {cb : Callback σ ο τ}
  {check : LookupCheck} {nested : NestedRender σ τ}
  {buffer start : Buffer σ ο τ} {this : CadStache} {first second : Bytes}

theorem CadStache.Live.checks (h : this.Live first second)
    (check : LookupCheck) (lookup : Lookup ο) (env : σ) :
    check.Holds (.answer lookup env : Script σ ο τ) this this := by
  cases check with
  | delimiters => exact h.keeps
  | unnested => rfl

/-- The same result and buffer, on an engine that stays as it is. -/
def TagTracks (this : CadStache) (a : Bool × CadStache × Buffer σ ο τ)
    (b : Bool × Buffer σ ο τ) : Prop :=
  a.1 = b.1 ∧ a.2.2 = b.2 ∧ a.2.1 = this

theorem withoutLookup_tracks
    (part : Buffer σ ο τ → Proc (Bool × Buffer σ ο τ)) :
    Checked.Tracks (TagTracks this) (withoutLookup part this buffer)
      (part buffer) :=
  Checked.Tracks.lift_then _ fun _ =>
    ⟨_, returns_pure_self _, rfl, rfl, rfl⟩

theorem withLookup_tracks (hlive : this.Live first second)
    {suffix : Option Bytes} {invalid : NameBlock → Option String}
    {found : Lookup ο → σ → NameBlock → Buffer σ ο τ →
      Proc (Bool × Buffer σ ο τ)}
    {rest : Option NameBlock × Buffer σ ο τ → Proc (Bool × Buffer σ ο τ)}
    (hunnamed : ∀ after, rest (none, after) = pure (true, after))
    (hinvalid : ∀ name after error, invalid name = some error →
      rest (some name, after) = pure (after.fail error))
    (hfound : ∀ name after, invalid name = none →
      rest (some name, after) =
        found (cb.resolve after.env name.string).1
          (cb.resolve after.env name.string).2 name after) :
    Checked.Tracks (TagTracks this)
      (withLookup fns cb.unnested (lookUp check cb.unnested nested) suffix
        invalid found this buffer)
      (parseName fns cb suffix buffer >>= rest) := by
  refine (Checked.Tracks.lift (Agree.refl _)).bind ?_
  rintro ⟨result, after⟩ b rfl -
  cases result with
  | none =>
      rw [hunnamed]
      exact Checked.Tracks.pure ⟨rfl, rfl, rfl⟩
  | some name =>
      dsimp only
      cases hname : invalid name with
      | some error =>
          rw [hinvalid name after error hname]
          exact Checked.Tracks.pure ⟨rfl, rfl, rfl⟩
      | none =>
          rw [hfound name after hname, lookUp_answer check this rfl
            (hlive.checks check _ _)]
          exact Checked.Tracks.lift_then _ fun _ =>
            ⟨_, returns_pure_self _, rfl, rfl, rfl⟩

/-- The same result and buffer, with the delimiters of the buffer. -/
structure TagAlike (a : Bool × CadStache × Buffer σ ο τ)
    (b : Bool × Buffer σ ο τ) : Prop where
  result : a.1 = b.1
  buffer : a.2.2 = b.2
  alive : ∃ first second, a.2.1.Live first second
  delimiters : b.1 = true →
    a.2.1.Live b.2.openDelimiter b.2.closeDelimiter

theorem CadStache.Live.failed (h : this.Live first second)
    (after : Buffer σ ο τ) : TagAlike (false, this, after) (false, after) where
  result := rfl
  buffer := rfl
  alive := ⟨first, second, h⟩
  delimiters htrue := by cases htrue

theorem renderDelimitersOn_tracks (hlive : this.Live first second) :
    Checked.Tracks TagAlike (renderDelimitersOn fns cb.unnested this start)
      (renderStacheDelimiters fns cb start) := by
  refine Checked.Tracks.lift_then _ ?_
  rintro ⟨result, after⟩
  cases result with
  | false =>
      exact ⟨_, returns_pure_self _, hlive.failed after⟩
  | true =>
      obtain ⟨freed, hfreed, -⟩ := hlive.freeDelimiters
      have hset := freed.live_setDelimiters after.openDelimiter
        after.closeDelimiter
      refine ⟨_, Checked.returns_bind_ok.mpr ⟨freed, ?_, returns_pure_self _⟩,
        rfl, rfl, ⟨_, _, hset⟩, fun _ => hset⟩
      exact Checked.returns_lift.mpr ⟨freed, hfreed, rfl⟩

/-- A tag that is no delimiter tag does without the lookup what it did. -/
theorem renderTagOn_same {place : Int} {c : UInt8} (hc : c ≠ ascii '=')
    (hlive : this.Live first second) :
    Checked.Tracks (TagTracks this)
      (renderTagOn fns cb.unnested (lookUp check cb.unnested nested) place c
        this start)
      (renderTag fns cb place c start) := by
  have hname : ∀ {name : NameBlock} {error invalidName : String},
      (if name.string = [] then some invalidName else none) = some error →
        name.string = [] ∧ invalidName = error := by
    intro name error invalidName h
    split at h
    next hempty => exact ⟨hempty, Option.some.inj h⟩
    next => cases h
  rw [renderTagOn, renderTag]
  split_ifs
  · refine withLookup_tracks hlive (fun _ => rfl) ?_ ?_
    · intro name after error h
      obtain ⟨hempty, rfl⟩ := hname h
      dsimp only
      rw [if_pos hempty]
    · intro name after h
      rfl
  · exact withLookup_tracks hlive (fun _ => rfl)
      (fun _ _ _ h => by cases h) fun _ _ _ => rfl
  · exact withoutLookup_tracks _
  · exact withLookup_tracks hlive (fun _ => rfl)
      (fun _ _ _ h => by cases h) fun _ _ _ => rfl
  · exact withoutLookup_tracks _
  · exact withLookup_tracks hlive (fun _ => rfl)
      (fun _ _ _ h => by cases h) fun _ _ _ => rfl
  · refine withLookup_tracks hlive (fun _ => rfl) ?_ ?_
    · intro name after error h
      obtain ⟨hempty, rfl⟩ := hname h
      dsimp only
      rw [if_pos hempty]
    · intro name after h
      rfl

theorem renderTagOn_tracks {place : Int} {c : UInt8} (hvalid : start.Valid)
    (hlive : this.Live start.openDelimiter start.closeDelimiter) :
    Checked.Tracks TagAlike
      (renderTagOn fns cb.unnested (lookUp check cb.unnested nested) place c
        this start)
      (renderTag fns cb place c start) := by
  by_cases hc : c = ascii '='
  · subst hc
    exact renderDelimitersOn_tracks hlive
  · refine (renderTagOn_same hc hlive).mono ?_
    rintro ⟨result, this', after⟩ ⟨result', next⟩ ⟨hresult, hafter, hthis⟩ hb
    subst hthis
    refine ⟨hresult, hafter, ⟨_, _, hlive⟩, fun htrue => ?_⟩
    change result' = true at htrue
    subst htrue
    obtain ⟨hopen, hclose⟩ := renderTag_sameDelimiters hvalid hc hb
    dsimp only
    rw [hopen, hclose]
    exact hlive

theorem renderStacheOn_tracks {place : Int} (hvalid : buffer.Valid)
    (hlive : this.Live buffer.openDelimiter buffer.closeDelimiter) :
    Checked.Tracks TagAlike
      (renderStacheOn fns cb.unnested (lookUp check cb.unnested nested) place
        this buffer)
      (renderStache fns cb place buffer) := by
  rw [renderStacheOn, renderStache]
  split
  next => exact Checked.Tracks.pure (hlive.failed _)
  next =>
    refine (Checked.Tracks.lift (Agree.refl _)).bind ?_
    rintro c - rfl -
    refine (Checked.Tracks.lift (Agree.refl _)).bind ?_
    rintro ⟨more, start⟩ - rfl hnext
    cases more with
    | false => exact Checked.Tracks.pure (hlive.failed _)
    | true =>
        have hread := advances_closed.next hnext
        refine renderTagOn_tracks ?_ ?_
        · exact fun loop hloop => hvalid loop (hread.loops ▸ hloop)
        · rw [hread.openDelimiter, hread.closeDelimiter]
          exact hlive

/-- The buffer of the engine without the lookups, whose delimiters are alive in
the engine with them. -/
structure Accompanies (s : CadStache × Buffer σ ο τ) (t : Buffer σ ο τ) :
    Prop where
  buffer : s.2 = t
  live : s.1.Live t.openDelimiter t.closeDelimiter

/-- The iteration reads the delimiters it already has. -/
theorem CadStache.Live.load
    (h : this.Live buffer.openDelimiter buffer.closeDelimiter) :
    this.load buffer = pure buffer := by
  rw [CadStache.load, h.delimiters]

theorem renderStepOn_tracks {s : CadStache × Buffer σ ο τ}
    (h : Accompanies s buffer) (hvalid : buffer.Valid) :
    Checked.Tracks (SumRel Accompanies TagAlike)
      (renderStepOn fns cb.unnested (lookUp check cb.unnested nested) s)
      (renderStep fns cb buffer) := by
  obtain ⟨this, standing⟩ := s
  obtain ⟨hbuffer, hlive⟩ := h
  dsimp only at hbuffer hlive
  subst hbuffer
  rw [renderStepOn, renderStep]
  dsimp only
  split
  next =>
    exact Checked.Tracks.pure
      (.inr ⟨rfl, rfl, ⟨_, _, hlive⟩, fun _ => hlive⟩)
  next =>
    refine Agree.run_left (Checked.returns_lift.mpr
      ⟨standing, hlive.load ▸ returns_pure_self _, rfl⟩) ?_
    refine (Checked.Tracks.lift (Agree.refl _)).bind ?_
    rintro ⟨opened, looked⟩ - rfl hlook
    have hread := advances_closed.lookAt hlook
    have hready : this.Live looked.openDelimiter looked.closeDelimiter := by
      rw [hread.openDelimiter, hread.closeDelimiter]
      exact hlive
    have htag : Checked.Tracks TagAlike
        (if opened then
          renderStacheOn fns cb.unnested (lookUp check cb.unnested nested)
            standing.index this looked
          else do
            let c ← bufferItem looked
            withoutLookup (bufferNext fns cb.unnested.objects) this
              (bufferOutput looked [c]))
        (if opened then renderStache fns cb standing.index looked
          else do
            let c ← bufferItem looked
            bufferNext fns cb (bufferOutput looked [c])) := by
      cases opened with
      | true =>
          exact renderStacheOn_tracks
            (fun loop hloop => hvalid loop (hread.loops ▸ hloop)) hready
      | false =>
          refine (Checked.Tracks.lift (Agree.refl _)).bind ?_
          rintro c - rfl -
          obtain ⟨output, houtput⟩ := bufferOutput_only looked [c]
          rw [houtput]
          refine (withoutLookup_tracks _).mono ?_
          rintro ⟨result, this', after⟩ ⟨result', next⟩ ⟨hresult, hafter, hthis⟩
            hnext
          dsimp only at hthis
          subst hthis
          refine ⟨hresult, hafter, ⟨_, _, hlive⟩, fun _ => ?_⟩
          have hout := advances_closed.next hnext
          dsimp only
          rw [hout.openDelimiter, hout.closeDelimiter]
          exact hready
    refine htag.bind ?_
    rintro ⟨result, this', after⟩ ⟨result', next⟩ h' -
    obtain ⟨rfl, rfl, ⟨_, _, halive⟩, hdelimiters⟩ := h'
    dsimp only at halive hdelimiters ⊢
    cases result with
    | true => exact Checked.Tracks.pure (.inl ⟨rfl, hdelimiters rfl⟩)
    | false => exact Checked.Tracks.pure (.inr (halive.failed _))

/-- With a callback that never renders, an engine renders as one that knows of
no renderings in its lookups. -/
theorem renderShared_unnested (check : LookupCheck) (depth : Nat)
    (this : CadStache) (env : σ) (input : InputStream τ)
    (data : Int → UInt8) :
    Checked.Tracks (fun a b => a.1 = b)
      (renderShared check fns cb.unnested data (depth + 1) this env input)
      (render fns cb env input data) := by
  have hset := this.live_setDelimiters tagOpen tagClose
  refine (Checked.Tracks.lift (Agree.refl _)).bind ?_
  rintro ⟨more, start⟩ - rfl hstart
  cases more with
  | false =>
      obtain ⟨freed, hfreed, -⟩ := hset.freeDelimiters
      refine Agree.run_left (Checked.returns_lift.mpr ⟨freed, hfreed, rfl⟩) ?_
      exact Checked.Tracks.pure rfl
  | true =>
      have hmoored := moored_start hstart
      have hread := advances_closed.next hstart
      have hlive : (this.setDelimiters tagOpen tagClose).Live
          start.openDelimiter start.closeDelimiter := by
        rw [hread.openDelimiter, hread.closeDelimiter]
        exact hset
      have hloop : Checked.Tracks TagAlike
          (Checked.loop (renderStepOn fns cb.unnested
            (lookUp check cb.unnested
              (renderShared check fns cb.unnested data depth)))
            (this.setDelimiters tagOpen tagClose, start))
          (renderTemplate fns cb start) := by
        refine Checked.Tracks.loop
          (R := fun s t => Accompanies s t ∧ Moored t) ?_
          ⟨⟨rfl, hlive⟩, hmoored⟩
        rintro s buffer ⟨hs, hbuffer⟩
        refine (renderStepOn_tracks hs hbuffer.valid).mono ?_
        rintro (s' | r) (next | r') hrel hstep
        · cases hrel with
          | inl hnext => exact .inl ⟨hnext, hbuffer.step hstep⟩
        · cases hrel
        · cases hrel
        · cases hrel with
          | inr hresult => exact .inr hresult
      refine hloop.bind ?_
      rintro ⟨result, this', after⟩ ⟨result', next⟩ h' -
      obtain ⟨hresult, hafter, ⟨first, second, hended⟩, -⟩ := h'
      dsimp only at hresult hafter hended ⊢
      subst hresult hafter
      obtain ⟨freed, hfreed, -⟩ := hended.freeDelimiters
      refine Agree.run_left (Checked.returns_lift.mpr ⟨freed, hfreed, rfl⟩) ?_
      exact Checked.Tracks.pure rfl

end

end Libcad
