/-
Rendering comes to an end: for every input that ends and every callback whose
lists end, when the run meets no partial tag and no delimiter tag.
-/
import Libcad.NestedLoops
import Libcad.StacheBounds
import Libcad.StacheSteps

namespace Libcad

open Proc

variable {σ ο τ : Type}

/-- No function pointer is NULL, and `get` of a string does not answer NULL. -/
structure Callback.Complete (cb : Callback σ ο τ) : Prop where
  stringGet : ∀ resolved, ∃ get, cb.stringGet resolved = some get ∧
    ∀ env, (get env).1 ≠ none
  stringFree : ∀ resolved, cb.stringFree resolved ≠ none
  listGet : ∀ resolved, cb.listGet resolved ≠ none

section

variable (fns : StreamFns τ) (cb : Callback σ ο τ)

/-- The buffer stands at a tag with this byte after the opening delimiter. -/
def Buffer.Meets (buffer : Buffer σ ο τ) (c : UInt8) : Prop :=
  ∃ opened, Returns (bufferLookAt fns cb buffer.openDelimiter buffer)
      (true, opened) ∧ bufferEof opened = false ∧
    Returns (bufferItem opened) c

/-- While the section of a list is open, the list answers 0 from some index
on; the index may be another one whenever a section is opened. -/
def FiniteLists (env : σ) (input : InputStream τ) (data : Int → UInt8) :
    Prop :=
  ∀ s, Rendering fns cb env input data s →
    ∀ loop outer resolved, s.loops = loop :: outer →
      loop.lookup = .list resolved →
      ∃ bound : Int, ∀ t,
        Staying (renderStep fns cb) Buffer.loops s.loops.length s t →
        ∀ get, cb.listGet resolved = some get →
          ∀ index, bound ≤ index → (get t.env index).1 = false

/-- The sections of a template as loops in a loop. -/
def sections (size : Int) : Nested (Buffer σ ο τ) (StacheLoop ο) where
  room := room size
  stack := Buffer.loops
  start loop := (size - loop.bufferIndex).toNat
  next := StacheLoop.next
  repeats buffer loop := ∃ resolved get, loop.lookup = .list resolved ∧
    cb.listGet resolved = some get ∧
    (get buffer.env loop.next.loopIndex).1 = true

end

/-- The buffer is confined, and so are the places its sections go back to. -/
structure Sectioned (fns : StreamFns τ) (size : Int)
    (buffer : Buffer σ ο τ) : Prop where
  confined : Confined fns size buffer
  openDelimiter : buffer.openDelimiter ≠ []
  ordered : buffer.loops.Pairwise fun inner outer =>
    outer.bufferIndex ≤ inner.bufferIndex
  place : ∀ loop ∈ buffer.loops,
    0 ≤ loop.bufferIndex ∧ loop.bufferIndex ≤ buffer.index

/-- One iteration went on, and did not go round for ever. -/
def Goes (fns : StreamFns τ) (cb : Callback σ ο τ) (size : Int)
    (before after : Buffer σ ο τ) : Prop :=
  Sectioned fns size after ∧ (sections cb size).Moves before after

/-- A tag of the buffer `before` is being read. -/
def Entered (fns : StreamFns τ) (size : Int) (before start : Buffer σ ο τ) :
    Prop :=
  ReadOn fns size before start ∧ before.index < start.index

section

variable {fns : StreamFns τ} {cb : Callback σ ο τ} {size : Int}
  {before start buffer after : Buffer σ ο τ}

theorem Sectioned.entered (h : Sectioned fns size before)
    (hstart : Entered fns size before start) : Sectioned fns size start where
  confined := hstart.1.1.confined
  openDelimiter := hstart.1.1.kept.openDelimiter.symm ▸ h.openDelimiter
  ordered := hstart.1.1.kept.loops.symm ▸ h.ordered
  place loop hloop :=
    have hbefore := h.place loop (hstart.1.1.kept.loops ▸ hloop)
    ⟨hbefore.1, Int.le_trans hbefore.2 (Int.le_of_lt hstart.2)⟩

theorem Entered.read (h : Entered fns size before start)
    (hread : ReadOn fns size start after) : Entered fns size before after :=
  ⟨h.1.trans hread, Int.lt_of_lt_of_le h.2 hread.2⟩

theorem Confined.congr (h : Confined fns size buffer) (env : σ)
    (loops : List (StacheLoop ο)) (error : String) (output : Bytes) :
    Confined fns size { buffer with
      env := env, loops := loops, error := error, output := output } :=
  ⟨h.partials, h.index_nonneg, h.index_le, h.index_lt, h.fill_le_capacity,
    h.fill_le, h.live⟩

theorem Sectioned.congr (h : Sectioned fns size buffer) (env : σ)
    (error : String) (output : Bytes) :
    Sectioned fns size
      { buffer with env := env, error := error, output := output } where
  confined := h.confined.congr env buffer.loops error output
  openDelimiter := h.openDelimiter
  ordered := h.ordered
  place := h.place

/-- A tag that only calls and writes has been passed. -/
theorem Entered.passed (h : Entered fns size before start)
    (hs : Sectioned fns size before) (env : σ) (error : String)
    (output : Bytes) :
    Goes fns cb size before
      { start with env := env, error := error, output := output } :=
  ⟨(hs.entered h).congr env error output,
    .forward h.1.1.kept.loops (h.1.1.confined.room_lt h.2)⟩

/-- The call of a function pointer that may be NULL only with an excuse. -/
theorem Buffer.call_settles {β : Type} {excuse : Prop}
    {f : Option (σ → β × σ)} (buffer : Buffer σ ο τ)
    (hf : f = none → excuse) :
    Settles excuse (buffer.call f) fun r =>
      ∃ g, f = some g ∧ r.1 = (g buffer.env).1 ∧
        r.2 = { buffer with env := (g buffer.env).2 } := by
  cases f with
  | none => exact Settles.undefined (hf rfl)
  | some g => exact Settles.pure ⟨g, rfl, rfl, rfl⟩

theorem writeRaw_settles {excuse : Prop} (c : Option Bytes)
    (buffer : Buffer σ ο τ) (hc : c = none → excuse) :
    Settles excuse (writeRaw c buffer) fun r =>
      ∃ output, r = { buffer with output := output } := by
  rw [writeRaw.eq_def]
  split
  · exact Settles.pure ⟨buffer.output, rfl⟩
  · cases c with
    | none => exact Settles.undefined (hc rfl)
    | some c => exact Settles.pure (bufferOutput_only buffer _)

theorem writeEscaped_settles {excuse : Prop} (c : Option Bytes)
    (buffer : Buffer σ ο τ) (hc : c = none → excuse) :
    Settles excuse (writeEscaped c buffer) fun r =>
      ∃ output, r = { buffer with output := output } := by
  cases c with
  | none => exact Settles.undefined (hc rfl)
  | some c =>
      rw [writeEscaped]
      refine Settles.pure ?_
      induction cString c generalizing buffer with
      | nil => exact ⟨buffer.output, rfl⟩
      | cons b text ih =>
          obtain ⟨output, houtput⟩ := bufferOutput_only buffer (escapeChar b)
          obtain ⟨last, hlast⟩ := ih (bufferOutput buffer (escapeChar b))
          rw [List.foldl_cons, hlast, houtput]
          exact ⟨last, rfl⟩

theorem renderVariable_settles (hs : Sectioned fns size before)
    (h : Entered fns size before start) (suffix : Option Bytes)
    (invalidName : String)
    {write : Option Bytes → Buffer σ ο τ → Proc (Buffer σ ο τ)}
    (hwrite : ∀ c b, (c = none → ¬ cb.Complete) →
      Settles (¬ cb.Complete) (write c b) fun r =>
        ∃ output, r = { b with output := output }) :
    Settles (¬ cb.Complete)
      (renderVariable fns cb suffix invalidName write start) fun r =>
      r.1 = true → Goes fns cb size before r.2 := by
  rw [renderVariable]
  refine (h.1.1.confined.parseName suffix).bind ?_
  rintro ⟨name, b⟩ _ hread
  have hb : Entered fns size before b := h.read hread
  cases name with
  | none => exact Settles.pure fun _ => hb.passed hs b.env b.error b.output
  | some name =>
      dsimp only [Buffer.resolve]
      split
      next => exact Settles.pure nofun
      next =>
        cases (cb.resolve b.env name.string).1 with
        | notFound => exact Settles.pure fun _ => hb.passed hs _ b.error b.output
        | list resolved => exact Settles.pure nofun
        | stream resolved => exact Settles.pure nofun
        | invalid => exact Settles.pure nofun
        | string resolved =>
            refine (Buffer.call_settles _ ?_).bind ?_
            · intro hnone hcomplete
              obtain ⟨get, hget, -⟩ := hcomplete.stringGet resolved
              rw [hnone] at hget
              cases hget
            rintro ⟨c, b₁⟩ _ ⟨get, hget, hc, rfl⟩
            refine (hwrite c _ ?_).bind ?_
            · rintro rfl hcomplete
              obtain ⟨get', hget', hsome⟩ := hcomplete.stringGet resolved
              cases hget.symm.trans hget'
              exact hsome _ hc.symm
            rintro b₂ _ ⟨output, rfl⟩
            rw [freeString]
            refine (Buffer.call_settles _ ?_).bind ?_
            · exact fun hnone hcomplete => hcomplete.stringFree resolved hnone
            rintro ⟨freed, b₃⟩ _ ⟨free, -, -, rfl⟩
            cases freed with
            | true => exact Settles.pure fun _ => hb.passed hs _ b.error output
            | false => exact Settles.pure nofun

/-- The switch of `render_stache_loop` calls and may note an error. -/
theorem openLoop_eq (lookup : Lookup ο) (buffer : Buffer σ ο τ) :
    ∃ env error, (openLoop fns cb lookup buffer).2.2 =
      { buffer with env := env, error := error } := by
  have hcallOr : ∀ {β : Type} (b : Buffer σ ο τ) (f : Option (σ → β × σ))
      (default : β), ∃ env, (b.callOr f default).2 = { b with env := env } := by
    intro β b f default
    cases f with
    | none => exact ⟨b.env, rfl⟩
    | some f => exact ⟨(f b.env).2, rfl⟩
  have hrelease : ∀ (free : Option (σ → Bool × σ)) (message : String)
      (opened : Bool × Bool × Buffer σ ο τ), ∃ env error,
      (releaseSection free message opened).2.2 =
        { opened.2.2 with env := env, error := error } := by
    intro free message opened
    obtain ⟨env, henv⟩ := hcallOr opened.2.2 free false
    rw [releaseSection]
    dsimp only
    split
    · exact ⟨env, opened.2.2.error, henv⟩
    · exact ⟨env, message, by rw [henv]⟩
  cases lookup with
  | notFound => exact ⟨buffer.env, buffer.error, rfl⟩
  | invalid => exact ⟨buffer.env, _, rfl⟩
  | list resolved =>
      obtain ⟨env, henv⟩ := hcallOr buffer
        ((cb.listGet resolved).map fun get env => get env 0) false
      exact ⟨env, buffer.error, henv⟩
  | string resolved =>
      obtain ⟨env, henv⟩ := hcallOr buffer (cb.stringGet resolved) none
      obtain ⟨env', error, hrel⟩ := hrelease (cb.stringFree resolved)
        "could not free string"
        (true, ((buffer.callOr (cb.stringGet resolved) none).1.map
          cString).getD [] = [], (buffer.callOr (cb.stringGet resolved) none).2)
      exact ⟨env', error, hrel.trans (by rw [henv])⟩
  | stream resolved =>
      obtain ⟨env, henv⟩ := hcallOr buffer (cb.streamGet resolved) none
      obtain ⟨env', error, hrel⟩ := hrelease (cb.streamFree resolved)
        "could not free partial"
        (readSection fns (buffer.callOr (cb.streamGet resolved) none).1
          (buffer.callOr (cb.streamGet resolved) none).2)
      have hread : ∃ error, (readSection fns
          (buffer.callOr (cb.streamGet resolved) none).1
          (buffer.callOr (cb.streamGet resolved) none).2).2.2 =
          { buffer with env := env, error := error } := by
        rw [readSection, henv]
        split
        · exact ⟨buffer.error, rfl⟩
        · exact ⟨_, rfl⟩
      obtain ⟨error', hread⟩ := hread
      exact ⟨env', error, hrel.trans (by rw [hread])⟩

theorem renderLoop_settles (hs : Sectioned fns size before)
    (h : Entered fns size before start) (type : LoopType) :
    Settles (¬ cb.Complete) (renderStacheLoop fns cb type start) fun r =>
      r.1 = true → Goes fns cb size before r.2 := by
  rw [renderStacheLoop]
  refine (h.1.1.confined.parseName none).bind ?_
  rintro ⟨name, b⟩ _ hread
  have hb : Entered fns size before b := h.read hread
  cases name with
  | none => exact Settles.pure fun _ => hb.passed hs b.env b.error b.output
  | some name =>
      dsimp only [Buffer.resolve]
      obtain ⟨env, error, hopen⟩ := @openLoop_eq σ ο τ fns cb
        (cb.resolve b.env name.string).1
        (b.setEnv (cb.resolve b.env name.string).2)
      rw [hopen]
      refine Settles.pure fun _ => ⟨⟨?_, ?_, ?_, ?_⟩, ?_⟩
      · exact hb.1.1.confined.congr env _ error b.output
      · exact (hs.entered hb).openDelimiter
      · exact List.pairwise_cons.mpr
          ⟨fun loop hloop => ((hs.entered hb).place loop hloop).2,
            (hs.entered hb).ordered⟩
      · rintro loop (_ | ⟨_, hloop⟩)
        · exact ⟨hb.1.1.confined.index_nonneg, Int.le_refl _⟩
        · exact (hs.entered hb).place loop hloop
      · exact .opened _ (congrArg _ hb.1.1.kept.loops) rfl
          (hb.1.1.confined.room_lt hb.2)

theorem Entered.closed (h : Entered fns size before start)
    (hs : Sectioned fns size before) {loop : StacheLoop ο}
    {loops : List (StacheLoop ο)} (hloops : before.loops = loop :: loops)
    (env : σ) : Goes fns cb size before
      { start with env := env, loops := loops } := by
  have hstart := hs.entered h
  have hbefore := hloops
  rw [← h.1.1.kept.loops] at hloops
  refine ⟨⟨h.1.1.confined.congr env loops start.error start.output,
    hstart.openDelimiter, ?_, ?_⟩, .closed loop ?_ ?_⟩
  · have hordered := hstart.ordered
    rw [hloops] at hordered
    exact hordered.of_cons
  · exact fun l hl => hstart.place l (hloops ▸ List.mem_cons_of_mem _ hl)
  · exact hbefore
  · exact h.1.1.confined.room_lt h.2

theorem Entered.again (h : Entered fns size before start)
    (hs : Sectioned fns size before) {loop : StacheLoop ο}
    {loops : List (StacheLoop ο)} (hloops : before.loops = loop :: loops)
    (hrepeats : (sections cb size).repeats before loop) (env : σ) :
    Goes fns cb size before
      { start with
        env := env, loops := loop.next :: loops, index := loop.bufferIndex } := by
  have hstart := hs.entered h
  have hplace := hs.place loop (hloops ▸ List.mem_cons_self)
  have hordered := hs.ordered
  rw [hloops] at hordered
  refine ⟨⟨?_, hstart.openDelimiter, ?_, ?_⟩, .again loop loops hloops rfl ?_
    hrepeats⟩
  · exact (h.1.1.confined.congr env (loop.next :: loops) start.error
      start.output).rewind hplace.1 (Int.le_trans hplace.2 h.1.2) start.error
      start.rejections
  · exact List.pairwise_cons.mpr (List.pairwise_cons.mp hordered)
  · rintro l (_ | ⟨_, hl⟩)
    · exact ⟨hplace.1, Int.le_refl _⟩
    · exact ⟨(hs.place l (hloops ▸ List.mem_cons_of_mem _ hl)).1,
        (List.pairwise_cons.mp hordered).1 l hl⟩
  · rfl

/-- The end tag of a list section repeats it or closes it. -/
theorem endList_settles (hs : Sectioned fns size before)
    (h : Entered fns size before start) {loop : StacheLoop ο}
    {loops : List (StacheLoop ο)} (hloops : before.loops = loop :: loops)
    {resolved : ο} (hlookup : loop.lookup = .list resolved) :
    Settles (¬ cb.Complete) (endList cb resolved loop loops start) fun r =>
      r.1 = true → Goes fns cb size before r.2 := by
  have hnext : Settles (¬ cb.Complete) (listNext cb resolved
      loop.next.loopIndex { start with loops := loop.next :: loops }
      loop.next.type) fun r =>
      (r.1 = true → (sections cb size).repeats before loop) ∧
        ∃ env, r.2 = { start with env := env, loops := loop.next :: loops } := by
    rw [listNext.eq_def]
    cases loop.next.type with
    | loopElse => exact Settles.pure ⟨nofun, start.env, rfl⟩
    | loopWhile =>
        refine (Buffer.call_settles _ ?_).mono ?_
        · exact fun hnone hcomplete => hcomplete.listGet resolved
            (Option.map_eq_none_iff.mp hnone)
        · rintro ⟨found, b⟩ _ ⟨g, hg, hfound, hb⟩
          refine ⟨fun htrue => ?_, _, hb⟩
          obtain ⟨get, hget, rfl⟩ := Option.map_eq_some_iff.mp hg
          refine ⟨resolved, get, hlookup, hget, ?_⟩
          rw [← h.1.1.kept.env]
          exact hfound.symm.trans htrue
  rw [endList]
  refine hnext.bind ?_
  rintro ⟨found, b⟩ _ ⟨hfound, env, rfl⟩
  cases found with
  | true => exact Settles.pure fun _ => h.again hs hloops (hfound rfl) env
  | false =>
      refine Settles.pure ?_
      cases cb.listClose resolved with
      | none => exact nofun
      | some close =>
          dsimp only [Buffer.callOr]
          split
          · exact fun _ => h.closed hs hloops _
          · exact nofun

/-- An end tag closes or repeats the innermost section, or ends the
rendering. -/
theorem renderEnd_settles (hs : Sectioned fns size before)
    (h : Entered fns size before start) :
    Settles (¬ cb.Complete) (renderStacheEnd fns cb start) fun r =>
      r.1 = true → Goes fns cb size before r.2 := by
  rw [renderStacheEnd]
  refine (h.1.1.confined.parseName none).bind ?_
  rintro ⟨name, b⟩ _ hread
  have hb : Entered fns size before b := h.read hread
  have hkept := hb.1.1.kept.loops
  cases name with
  | none => exact Settles.pure fun _ => hb.passed hs b.env b.error b.output
  | some name =>
      dsimp only
      split
      next => exact Settles.pure nofun
      next loop loops hloops =>
        rw [hkept] at hloops
        split
        next => exact Settles.pure nofun
        next =>
          split
          next => exact Settles.pure fun _ => hb.closed hs hloops b.env
          next => exact Settles.pure fun _ => hb.closed hs hloops b.env
          next => exact Settles.pure fun _ => hb.closed hs hloops b.env
          next resolved hlookup => exact endList_settles hs hb hloops hlookup
          next =>
            exact Settles.pure fun _ => hb.passed hs b.env b.error b.output

theorem renderComment_settles (hs : Sectioned fns size before)
    (h : Entered fns size before start) :
    Settles (¬ cb.Complete) (renderStacheComment fns cb start) fun r =>
      r.1 = true → Goes fns cb size before r.2 := by
  refine h.1.1.confined.renderComment.mono ?_
  rintro ⟨result, b⟩ _ hread _
  exact (h.read hread).passed hs b.env b.error b.output

theorem renderTag_settles (hs : Sectioned fns size before)
    (h : Entered fns size before start) (hback : before.index + 1 < start.index)
    {next : UInt8} (hplain : next ≠ ascii '>' ∧ next ≠ ascii '=')
    (startIndex : Int) :
    Settles (¬ cb.Complete) (renderTag fns cb startIndex next start) fun r =>
      r.1 = true → Goes fns cb size before r.2 := by
  rw [renderTag, if_neg hplain.1, if_neg hplain.2]
  split
  next => exact renderVariable_settles hs h _ _ writeRaw_settles
  split
  next => exact renderLoop_settles hs h _
  split
  next => exact renderEnd_settles hs h
  split
  next => exact renderLoop_settles hs h _
  split
  next => exact renderComment_settles hs h
  next =>
    refine renderVariable_settles hs ?_ _ _ writeEscaped_settles
    have hnonneg := hs.confined.index_nonneg
    refine ⟨⟨⟨h.1.1.confined.rewind ?_ ?_ start.error start.rejections,
      ⟨h.1.1.kept.env, h.1.1.kept.loops, h.1.1.kept.openDelimiter,
        h.1.1.kept.closeDelimiter⟩, rfl⟩, ?_⟩, ?_⟩
    · omega
    · omega
    · dsimp only
      omega
    · dsimp only
      omega

theorem renderStep_settles (hs : Sectioned fns size before)
    (hplain : ∀ c, before.Meets fns cb c → c ≠ ascii '>' ∧ c ≠ ascii '=') :
    Settles (¬ cb.Complete) (renderStep fns cb before) fun o => match o with
      | .inl after => Goes fns cb size before after
      | .inr _ => True := by
  rw [renderStep]
  split
  next => exact Settles.pure trivial
  next =>
    refine (hs.confined.lookAt before.openDelimiter).bind ?_
    rintro ⟨found, b⟩ hlook hread
    have hresult : Settles (¬ cb.Complete) (
        if found then renderStache fns cb before.index b
        else do
          let c ← bufferItem b
          bufferNext fns cb (bufferOutput b [c])) fun r =>
        r.1 = true → Goes fns cb size before r.2 := by
      cases found with
      | true =>
          have hindex : b.index = before.index + before.openDelimiter.length :=
            hread.index_eq
          have hlength := List.length_pos_iff.mpr hs.openDelimiter
          rw [if_pos rfl, renderStache]
          split
          next => exact Settles.pure fun htrue => absurd htrue Bool.false_ne_true
          next hend =>
            refine hread.confined.item.bind fun c hitem _ => ?_
            refine hread.confined.next.bind ?_
            rintro ⟨more, start⟩ _ hnext
            cases more with
            | false => exact Settles.pure fun htrue => absurd htrue Bool.false_ne_true
            | true =>
                obtain ⟨hstart, -⟩ := hnext
                have hstartIndex : start.index = b.index + 1 := hstart.index_eq
                have hmeets := hplain c
                  ⟨b, hlook, Bool.not_eq_true _ ▸ hend, hitem⟩
                refine renderTag_settles hs ⟨?_, by omega⟩ (by omega) hmeets _
                have hopened : ReadOn fns size before b :=
                  hread.readOn (by rw [if_pos rfl]; omega)
                exact hopened.trans (hstart.readOn (Int.le_add_one
                  (Int.le_refl _)))
      | false =>
          have hindex : b.index = before.index := hread.index_eq
          rw [if_neg Bool.false_ne_true]
          refine hread.confined.item.bind fun c _ _ => ?_
          obtain ⟨output, houtput⟩ := bufferOutput_only b [c]
          rw [houtput]
          have hwritten : ReadOn fns size before b :=
            hread.readOn (Int.le_of_eq rfl)
          refine (hread.confined.congr b.env b.loops b.error output).next.mono ?_
          rintro ⟨more, after⟩ _ hnext htrue
          cases more with
          | false => cases htrue
          | true =>
              obtain ⟨hafter, -⟩ := hnext
              have hafterIndex : after.index = b.index + 1 := hafter.index_eq
              have hentered : Entered fns size before after :=
                ⟨⟨⟨hafter.confined, ⟨hafter.kept.env.trans hread.kept.env,
                  hafter.kept.loops.trans hread.kept.loops,
                  hafter.kept.openDelimiter.trans hread.kept.openDelimiter,
                  hafter.kept.closeDelimiter.trans hread.kept.closeDelimiter⟩,
                  rfl⟩, by omega⟩, by omega⟩
              exact hentered.passed hs after.env after.error after.output
    refine hresult.bind ?_
    rintro ⟨result, after⟩ _ hgoes
    cases result with
    | true => exact Settles.pure (hgoes rfl)
    | false => exact Settles.pure trivial

/-- The sections of a rendering are repeated finitely often. -/
theorem FiniteLists.bounded {env : σ} {input : InputStream τ}
    {data : Int → UInt8} (h : FiniteLists fns cb env input data) :
    (sections cb size).Bounded (renderStep fns cb) fun s =>
      Sectioned fns size s ∧ Rendering fns cb env input data s := by
  have hiterate : ∀ (loop : StacheLoop ο) k,
      (StacheLoop.next^[k] loop).lookup = loop.lookup ∧
      (StacheLoop.next^[k] loop).loopIndex = loop.loopIndex + k := by
    intro loop k
    induction k with
    | zero => exact ⟨rfl, by simp⟩
    | succ k ih =>
        rw [Function.iterate_succ_apply']
        refine ⟨ih.1, ?_⟩
        rw [StacheLoop.next, ih.2]
        push_cast
        omega
  rintro s inner outer ⟨-, hs⟩ hstack
  have hstack : s.loops = inner :: outer := hstack
  cases hlookup : inner.lookup with
  | list resolved =>
      obtain ⟨bound, hbound⟩ := h s hs inner outer resolved hstack hlookup
      rw [hstack, List.length_cons] at hbound
      refine ⟨(bound - inner.loopIndex).toNat, fun k t ht _ hrepeats => ?_⟩
      obtain ⟨resolved', get, hlist, hget, htrue⟩ := hrepeats
      have hlist : (StacheLoop.next^[k] inner).lookup = .list resolved' := hlist
      rw [(hiterate inner k).1, hlookup] at hlist
      cases hlist
      by_contra hge
      have hindex : bound ≤ (StacheLoop.next^[k] inner).next.loopIndex := by
        rw [StacheLoop.next]
        dsimp only
        rw [(hiterate inner k).2]
        omega
      have hfalse := hbound t ht get hget _ hindex
      rw [show (get t.env (StacheLoop.next^[k] inner).next.loopIndex).1 = true
        from htrue] at hfalse
      cases hfalse
  | notFound | string | stream | invalid =>
      refine ⟨0, fun k t _ _ hrepeats => ?_⟩
      obtain ⟨resolved', get, hlist, -⟩ := hrepeats
      have hlist : (StacheLoop.next^[k] inner).lookup = .list resolved' := hlist
      rw [(hiterate inner k).1, hlookup] at hlist
      cases hlist

theorem newBuffer_settles {excuse : Prop} {env : σ} {input : InputStream τ}
    {data : Int → UInt8} {k : Nat} (hk : input.EndsIn fns k) :
    Settles excuse (bufferNext fns cb (newBuffer env input data)) fun r =>
      if r.1 then
        ReadTo fns (k + 1) (newBuffer env input data) r.2 (-1 + 1) ∧
          (newBuffer env input data : Buffer σ ο τ).eof = false
      else r.2 = { newBuffer env input data with
          error := "Buffer end reached" } ∧
        (newBuffer env input data : Buffer σ ο τ).eof = true := by
  refine bufferNext_settles rfl (Int.le_refl _) ?_ ?_ fun _ => ⟨?_, k, hk, ?_⟩
  all_goals
    dsimp only [newBuffer]
    omega

end

/-- A rendering that meets no partial tag and no delimiter tag comes to an end,
unless a function pointer or string that is called for is NULL. -/
theorem rendering_settles (fns : StreamFns τ) (cb : Callback σ ο τ) (env : σ)
    (input : InputStream τ) (data : Int → UInt8) (hends : input.Ends fns)
    (hplain : ∀ s, Rendering fns cb env input data s → ∀ c,
      s.Meets fns cb c → c ≠ ascii '>' ∧ c ≠ ascii '=')
    (hlists : FiniteLists fns cb env input data) :
    Settles (¬ cb.Complete) (render fns cb env input data) fun _ => True := by
  obtain ⟨k, hk⟩ := hends
  rw [render]
  refine (newBuffer_settles hk).bind ?_
  rintro ⟨more, first⟩ hreturns hread
  cases more with
  | false => exact Settles.pure trivial
  | true =>
      obtain ⟨hread, -⟩ := hread
      have hloops : first.loops = [] := hread.kept.loops
      refine Settles.bind (P := fun _ => True) ?_ fun _ _ _ => Settles.pure trivial
      refine @Nested.settles _ _ _ _ _ (sections cb (k + 1))
        (fun s => Sectioned fns (k + 1) s ∧
          Rendering fns cb env input data s) _ ?_ ?_ (fun _ => rfl)
        hlists.bounded _ ?_ hloops
      · rintro s ⟨hs, first', hfirst', hreach⟩
        refine (renderStep_settles hs (hplain s ⟨first', hfirst', hreach⟩)).mono
          ?_
        intro o ho hgoes
        cases o with
        | inl s' =>
            exact ⟨⟨hgoes.1, first', hfirst', hreach.trans (Reaches.step ho)⟩,
              hgoes.2⟩
        | inr r => trivial
      · rintro s loop ⟨hs, -⟩ hloop
        have hplace := (hs.place loop hloop).2
        have hindex := hs.confined.index_le
        change (_ : Int).toNat ≤ (_ : Int).toNat
        omega
      · refine ⟨⟨hread.confined, ?_, ?_, ?_⟩, first, hreturns, Reaches.refl _⟩
        · have hopen : first.openDelimiter = [ascii '{', ascii '{'] :=
            hread.kept.openDelimiter
          rw [hopen]
          exact List.cons_ne_nil _ _
        · rw [hloops]
          exact List.Pairwise.nil
        · rw [hloops]
          exact nofun

def pairLists : Callback Unit Unit Empty where
  resolve env _ := (.list (), env)
  stringGet _ := some fun env => (some [], env)
  stringFree _ := some fun env => (true, env)
  listGet _ := some fun env index => (decide (index < 2), env)
  listClose _ := some fun env => (true, env)
  streamGet _ := some fun env => (none, env)
  streamFree _ := some fun env => (true, env)

end Libcad
