/-
Whether the content of a section is empty, for a string and for a stream that
delivers the same bytes.  The engine calls `next` of the stream before it looks
at `item`, so it asks about the second byte, and about the end of an empty
stream.
-/
import Libcad.StacheReleases
import Libcad.StreamInput

namespace Libcad

open Proc

variable {σ ο τ : Type} {fns : StreamFns τ} {cb : Callback σ ο τ}

/-- To ask for another byte is not an error, and there is none. -/
def InputStream.StaysEnded (fns : StreamFns τ) (stream : InputStream τ) :
    Prop :=
  (stream.next fns).1 = 0 ∧ (stream.next fns).2.item fns = eof

theorem newInputStreamFromString_not_staysEnded {string : Bytes}
    (h : cString string = []) :
    ¬ (newInputStreamFromString string : InputStream τ).StaysEnded fns := by
  rintro ⟨hcode, -⟩
  cases string with
  | nil => simp [newInputStreamFromString, InputStream.next,
      StringStream.next] at hcode
  | cons b rest =>
      have hb : b = 0 := by
        by_contra hb
        simp [cString, hb] at h
      simp [newInputStreamFromString, InputStream.next, StringStream.next,
        hb] at hcode

/-- The streams over a descriptor and over a file do not. -/
theorem newBlockInput_staysEnded {ρ : Type} {refill : Option ρ → Refill}
    (hend : Brings refill none []) (stale : Nat → UInt8) :
    (InputStream.other (newBlockInput refill [] stale)).StaysEnded
      ⟨BlockInput.item, BlockInput.next refill⟩ := by
  have hmax : (newBlockInput refill [] stale).max = 0 := hend.2
  constructor
  · simp [InputStream.next, BlockInput.next, hmax]
  · simp [InputStream.next, InputStream.item, BlockInput.next, BlockInput.item,
      hmax]

/-- When the engine finds a stream empty exactly if it delivers nothing. -/
theorem streamEmpty_iff {stream : InputStream τ} {s : Bytes}
    (h : stream.Delivers fns s) :
    streamEmpty fns (some stream) = some (decide (s = [])) ↔
      2 ≤ s.length ∨ (s = [] ∧ stream.StaysEnded fns) := by
  rw [streamEmpty]
  dsimp only
  cases s with
  | nil =>
      by_cases hcode : (stream.next fns).1 = 0
      · simp [InputStream.StaysEnded, hcode]
      · simp [InputStream.StaysEnded, hcode]
  | cons b rest =>
      obtain ⟨-, -, hcode, hrest⟩ := h
      cases rest with
      | nil =>
          have hend : (stream.next fns).2.item fns = eof := hrest
          simp [hcode, hend]
      | cons c rest =>
          obtain ⟨hitem, hc, -, -⟩ := hrest
          have hmore : (stream.next fns).2.item fns ≠ eof :=
            fun hend => hc ((charToInt_eq_eof_iff c).mp (hitem ▸ hend))
          simp [hcode, hmore]

/-- The name stands for this string, and the object can be released. -/
def StandsForString (cb : Callback σ ο τ) (env : σ) (name string : Bytes) :
    Prop :=
  ∃ resolved env' get free,
    cb.resolve env name = (.string resolved, env') ∧
      cb.stringGet resolved = some get ∧ (get env').1 = some string ∧
      cb.stringFree resolved = some free ∧ (free (get env').2).1 = true

/-- The name stands for this stream, and the object can be released. -/
def StandsForStream (cb : Callback σ ο τ) (env : σ) (name : Bytes)
    (stream : InputStream τ) : Prop :=
  ∃ resolved env' get free,
    cb.resolve env name = (.stream resolved, env') ∧
      cb.streamGet resolved = some get ∧ (get env').1 = some stream ∧
      cb.streamFree resolved = some free ∧ (free (get env').2).1 = true

/-- The opening tag is accepted, and whether its section is passed over. -/
def Opens (fns : StreamFns τ) (cb : Callback σ ο τ) (type : LoopType)
    (buffer : Buffer σ ο τ) (skipped : Bool) : Prop :=
  ∃ after loop, Returns (renderStacheLoop fns cb type buffer) (true, after) ∧
    after.loops = loop :: buffer.loops ∧ loop.skips = skipped

/-- At two tags sections of both kinds are accepted, and show or hide their
bodies alike. -/
def SectionsAlike (fns : StreamFns τ) (cb : Callback σ ο τ)
    (buffer buffer' : Buffer σ ο τ) : Prop :=
  ∀ type, ∃ skipped, Opens fns cb type buffer skipped ∧
    Opens fns cb type buffer' skipped

/-- What a section over empty or other content passes over. -/
def LoopType.skips (type : LoopType) (empty : Bool) : Bool :=
  match type with
  | .loopWhile => empty
  | .loopElse => !empty

variable {type : LoopType} {buffer parsed : Buffer σ ο τ} {name : NameBlock}
  {skipped : Bool}

theorem LoopType.skips_injective {empty empty' : Bool}
    (h : type.skips empty = type.skips empty') : empty = empty' := by
  cases type with
  | loopWhile => exact h
  | loopElse => exact Bool.not_inj h

/-- What the opening tag comes to, once its object was looked at. -/
theorem opens_iff {lookup : Lookup ο} {env env' : σ} {result empty : Bool}
    {error : String}
    (hname : Returns (parseName fns cb none buffer) (some name, parsed))
    (hresolve : cb.resolve parsed.env name.string = (lookup, env))
    (hopen : openLoop fns cb lookup (parsed.setEnv env) =
      (result, empty, { parsed with env := env', error := error })) :
    Opens fns cb type buffer skipped ↔
      result = true ∧ skipped = type.skips empty := by
  have hread : ReadsTo cb buffer.index buffer parsed :=
    parseName_some (Int.le_refl _) hname
  have hrun : ∃ loop : StacheLoop ο, loop.skips = type.skips empty ∧
      Returns (renderStacheLoop fns cb type buffer)
        (result, { parsed with
          env := env', error := error, loops := loop :: parsed.loops }) := by
    refine ⟨⟨type, name.string, lookup, parsed.index, 0, empty⟩, ?_, ?_⟩
    · cases type <;> rfl
    · refine returns_bind.mpr ⟨_, hname, ?_⟩
      dsimp only
      rw [Buffer.resolve_eq hresolve]
      dsimp only
      rw [hopen]
      exact returns_pure_self _
  obtain ⟨loop, hskips, hloop⟩ := hrun
  constructor
  · rintro ⟨after, loop', hafter, hloops, rfl⟩
    cases hafter.unique hloop
    have heq : loop :: parsed.loops = loop' :: buffer.loops := hloops
    cases (List.cons_eq_cons.mp heq).1
    exact ⟨rfl, hskips⟩
  · rintro ⟨rfl, rfl⟩
    refine ⟨_, loop, hloop, ?_, hskips⟩
    rw [← hread.loops]

theorem opens_string_iff {string : Bytes}
    (hname : Returns (parseName fns cb none buffer) (some name, parsed))
    (hstands : StandsForString cb parsed.env name.string string) :
    Opens fns cb type buffer skipped ↔
      skipped = type.skips (decide (cString string = [])) := by
  obtain ⟨resolved, env, get, free, hresolve, hget, hstring, hfree, hfreed⟩ :=
    hstands
  have hopen : openLoop fns cb (.string resolved) (parsed.setEnv env) =
      (true, decide (cString string = []), { parsed with
        env := (free (get env).2).2, error := parsed.error }) := by
    simp [openLoop, Buffer.callOr, releaseSection, Buffer.setEnv, hget,
      hstring, hfree, hfreed]
  rw [opens_iff hname hresolve hopen]
  exact and_iff_right rfl

theorem opens_stream_iff {stream : InputStream τ}
    (hname : Returns (parseName fns cb none buffer) (some name, parsed))
    (hstands : StandsForStream cb parsed.env name.string stream) :
    Opens fns cb type buffer skipped ↔
      ∃ empty, streamEmpty fns (some stream) = some empty ∧
        skipped = type.skips empty := by
  obtain ⟨resolved, env, get, free, hresolve, hget, hstream, hfree, hfreed⟩ :=
    hstands
  cases hread : streamEmpty fns (some stream) with
  | none =>
      have hopen : openLoop fns cb (.stream resolved) (parsed.setEnv env) =
          (false, false, { parsed with
            env := (free (get env).2).2,
            error := "error while reading partial" }) := by
        simp [openLoop, Buffer.callOr, releaseSection, readSection,
          Buffer.setEnv, hget, hstream, hread, hfree, hfreed]
      simp [opens_iff hname hresolve hopen]
  | some empty =>
      have hopen : openLoop fns cb (.stream resolved) (parsed.setEnv env) =
          (true, empty, { parsed with
            env := (free (get env).2).2, error := parsed.error }) := by
        simp [openLoop, Buffer.callOr, releaseSection, readSection,
          Buffer.setEnv, hget, hstream, hread, hfree, hfreed]
      simp [opens_iff hname hresolve hopen]

/-- A string and a stream that delivers it make sections of both kinds show
and hide their bodies alike, and without a failure, when they have two bytes or
more, or none and the stream bears to be asked beyond its end. -/
theorem sections_alike_iff {buffer' parsed' : Buffer σ ο τ}
    {name' : NameBlock} {s : Bytes} {stream : InputStream τ}
    (h0 : (0 : UInt8) ∉ s) (hdelivers : stream.Delivers fns s)
    (hname : Returns (parseName fns cb none buffer) (some name, parsed))
    (hstring : StandsForString cb parsed.env name.string s)
    (hname' : Returns (parseName fns cb none buffer') (some name', parsed'))
    (hstream : StandsForStream cb parsed'.env name'.string stream) :
    SectionsAlike fns cb buffer buffer' ↔
      2 ≤ s.length ∨ (s = [] ∧ stream.StaysEnded fns) := by
  rw [← streamEmpty_iff hdelivers]
  constructor
  · intro hall
    obtain ⟨skipped, hopens, hopens'⟩ := hall .loopWhile
    rw [opens_string_iff hname hstring, cString_of_not_mem h0] at hopens
    obtain ⟨empty, hempty, hskipped⟩ :=
      (opens_stream_iff hname' hstream).mp hopens'
    rw [hempty, LoopType.skips_injective (hskipped.symm.trans hopens)]
  · intro hempty type
    refine ⟨type.skips (decide (s = [])), ?_, ?_⟩
    · rw [opens_string_iff hname hstring, cString_of_not_mem h0]
    · exact (opens_stream_iff hname' hstream).mpr ⟨_, hempty, rfl⟩

/-- `s` stands for these bytes as a string, any other name for a stream. -/
def deliveredAnswers (bytes : Bytes) : Answers Empty := fun _ name =>
  if name = chars "s" then .string (some (some bytes)) (some true)
  else .stream (some (some (newInputStreamFromString bytes))) (some true)

/-- The engine stands at a name of one byte, before the closing delimiter. -/
def atName (name : UInt8) : Buffer (List Frame) (Answer Empty) Empty :=
  { newBuffer [] (newInputStreamFromString (chars "\x7d\x7d.")) fun _ => name with
    index := 0, fill := 1 }

theorem sections_alike_two :
    SectionsAlike noStreams (answering (deliveredAnswers (chars "ab")))
      (atName (ascii 's')) (atName (ascii 'p')) := by
  have hstring : Returns (parseName noStreams
      (answering (deliveredAnswers (chars "ab"))) none (atName (ascii 's')))
      (some ⟨chars "s", 16⟩, _) := ⟨4, rfl⟩
  have hstream : Returns (parseName noStreams
      (answering (deliveredAnswers (chars "ab"))) none (atName (ascii 'p')))
      (some ⟨chars "p", 16⟩, _) := ⟨4, rfl⟩
  have hdelivers := newInputStreamFromString_delivers noStreams (chars "ab")
    (by decide) (by decide)
  exact (sections_alike_iff (by decide) hdelivers hstring
    ⟨_, _, _, _, rfl, rfl, rfl, rfl, rfl⟩ hstream
    ⟨_, _, _, _, rfl, rfl, rfl, rfl, rfl⟩).mpr (Or.inl (by decide))

/-- What a template comes to where its names stand for these bytes. -/
def deliveredRun (bytes : Bytes) (template : String) :
    Proc (Rendered (List Frame)) :=
  render noStreams (answering (deliveredAnswers bytes)) []
    (newInputStreamFromString (chars template)) fun _ => 0

/-- The stream of one byte makes an empty section, and that of none an error. -/
theorem sections_not_alike :
    (∃ r, Returns (deliveredRun (chars "x") "{{#s}}.{{/s}}!") r ∧
      r.code = 0 ∧ r.output = chars ".!") ∧
    (∃ r, Returns (deliveredRun (chars "x") "{{#p}}.{{/p}}!") r ∧
      r.code = 0 ∧ r.output = chars "!") ∧
    (∃ r, Returns (deliveredRun [] "{{#s}}.{{/s}}!") r ∧ r.code = 0) ∧
    (∃ r, Returns (deliveredRun [] "{{#p}}.{{/p}}!") r ∧ r.code = -1) :=
  ⟨⟨_, ⟨20, rfl⟩, rfl, rfl⟩, ⟨_, ⟨20, rfl⟩, rfl, rfl⟩, ⟨_, ⟨20, rfl⟩, rfl⟩,
    ⟨_, ⟨20, rfl⟩, rfl⟩⟩

end Libcad
