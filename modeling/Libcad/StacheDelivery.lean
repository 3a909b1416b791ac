/-
Rendering does not notice how its input is delivered, nor what is behind the
callback.  Two input streams that read alike, and two callbacks of which one
mirrors the other, lead the engine through the same steps: any template, also
one with errors, with partials and with other delimiters.
-/
import Libcad.Agree
import Libcad.Delivery
import Libcad.StacheSteps

namespace Libcad

open Proc

variable {σ σ' ο ο' τ τ' : Type}

/-- The same is read from related streams, as long as it is not the end. -/
structure Bisimulation (fns : StreamFns τ) (fns' : StreamFns τ')
    (R : InputStream τ → InputStream τ' → Prop) : Prop where
  item : ∀ s s', R s s' → s.item fns = s'.item fns'
  code : ∀ s s', R s s' → s.item fns ≠ eof →
    ((s.next fns).1 = 0 ↔ (s'.next fns').1 = 0)
  next : ∀ s s', R s s' → s.item fns ≠ eof → (s.next fns).1 = 0 →
    R (s.next fns).2 (s'.next fns').2

def InputStream.Mirrors (fns : StreamFns τ) (fns' : StreamFns τ')
    (s : InputStream τ) (s' : InputStream τ') : Prop :=
  ∃ R, Bisimulation fns fns' R ∧ R s s'

section

variable {fns : StreamFns τ} {fns' : StreamFns τ'} {s : InputStream τ}
  {s' : InputStream τ'}

theorem InputStream.Mirrors.item (h : s.Mirrors fns fns' s') :
    s.item fns = s'.item fns' := by
  obtain ⟨R, hR, hs⟩ := h
  exact hR.item s s' hs

theorem InputStream.Mirrors.code (h : s.Mirrors fns fns' s')
    (hitem : s.item fns ≠ eof) :
    (s.next fns).1 = 0 ↔ (s'.next fns').1 = 0 := by
  obtain ⟨R, hR, hs⟩ := h
  exact hR.code s s' hs hitem

theorem InputStream.Mirrors.next (h : s.Mirrors fns fns' s')
    (hitem : s.item fns ≠ eof) (hcode : (s.next fns).1 = 0) :
    (s.next fns).2.Mirrors fns fns' (s'.next fns').2 := by
  obtain ⟨R, hR, hs⟩ := h
  exact ⟨R, hR, hR.next s s' hs hitem hcode⟩

/-- Streams that present the same bytes read alike. -/
theorem InputStream.Presents.mirrors {text : Bytes}
    (h : s.Presents fns text) (h' : s'.Presents fns' text) :
    s.Mirrors fns fns' s' := by
  refine ⟨fun s s' => ∃ text, s.Presents fns text ∧ s'.Presents fns' text,
    ⟨?_, ?_, ?_⟩, text, h, h'⟩
  · rintro s s' ⟨text, h, h'⟩
    exact h.item_eq h'
  · rintro s s' ⟨text, h, h'⟩ hitem
    cases text with
    | nil => exact absurd h hitem
    | cons c rest => exact ⟨fun _ => h'.2.1, fun _ => h.2.1⟩
  · rintro s s' ⟨text, h, h'⟩ hitem _
    cases text with
    | nil => exact absurd h hitem
    | cons c rest => exact ⟨rest, h.2.2, h'.2.2⟩

/-- Whether a text that is not empty is taken for empty depends on its bytes
only. -/
theorem InputStream.Presents.streamEmpty_eq {text : Bytes} (hne : text ≠ [])
    (h : s.Presents fns text) (h' : s'.Presents fns' text) :
    streamEmpty fns (some s) = streamEmpty fns' (some s') := by
  cases text with
  | nil => exact absurd rfl hne
  | cons c rest =>
      obtain ⟨-, hok, hrest⟩ := h
      obtain ⟨-, hok', hrest'⟩ := h'
      simp only [streamEmpty]
      rw [if_neg (not_not.mpr hok), if_neg (not_not.mpr hok'),
        hrest.item_eq hrest']

end

/-- The same kind of lookup, with related objects. -/
inductive Lookup.Mirrors (O : ο → ο' → Prop) : Lookup ο → Lookup ο' → Prop
  | notFound : Lookup.Mirrors O .notFound .notFound
  | string {o o'} : O o o' → Lookup.Mirrors O (.string o) (.string o')
  | list {o o'} : O o o' → Lookup.Mirrors O (.list o) (.list o')
  | stream {o o'} : O o o' → Lookup.Mirrors O (.stream o) (.stream o')
  | invalid : Lookup.Mirrors O .invalid .invalid

/-- Two functions of resolved objects that answer alike. -/
def CallMirrors {β β' : Type} (E : σ → σ' → Prop) (B : β → β' → Prop)
    (f : σ → β × σ) (g : σ' → β' × σ') : Prop :=
  ∀ e e', E e e' → B (f e).1 (g e').1 ∧ E (f e).2 (g e').2

/-- Streams that partials may have in each other's place: they read alike, also
where a section asks whether they are empty. -/
structure PartialMirrors (fns : StreamFns τ) (fns' : StreamFns τ')
    (s : InputStream τ) (s' : InputStream τ') : Prop where
  reads : s.Mirrors fns fns' s'
  empty : streamEmpty fns (some s) = streamEmpty fns' (some s')

/-- One callback mirrors another one: related states stay related, related
objects answer alike. -/
structure Callback.Mirrors (E : σ → σ' → Prop) (O : ο → ο' → Prop)
    (fns : StreamFns τ) (fns' : StreamFns τ') (cb : Callback σ ο τ)
    (cb' : Callback σ' ο' τ') : Prop where
  resolve : ∀ e e' name, E e e' →
    Lookup.Mirrors O (cb.resolve e name).1 (cb'.resolve e' name).1 ∧
      E (cb.resolve e name).2 (cb'.resolve e' name).2
  stringGet : ∀ o o', O o o' →
    Option.Rel (CallMirrors E Eq) (cb.stringGet o) (cb'.stringGet o')
  stringFree : ∀ o o', O o o' →
    Option.Rel (CallMirrors E Eq) (cb.stringFree o) (cb'.stringFree o')
  listGet : ∀ o o', O o o' →
    Option.Rel (fun f g => ∀ n : Int, CallMirrors E Eq (f · n) (g · n))
      (cb.listGet o) (cb'.listGet o')
  listClose : ∀ o o', O o o' →
    Option.Rel (CallMirrors E Eq) (cb.listClose o) (cb'.listClose o')
  streamGet : ∀ o o', O o o' →
    Option.Rel (CallMirrors E (Option.Rel (PartialMirrors fns fns')))
      (cb.streamGet o) (cb'.streamGet o')
  streamFree : ∀ o o', O o o' →
    Option.Rel (CallMirrors E Eq) (cb.streamFree o) (cb'.streamFree o')

/-- Related loops. -/
structure StacheLoop.Mirrors (O : ο → ο' → Prop) (a : StacheLoop ο)
    (b : StacheLoop ο') : Prop where
  type : a.type = b.type
  name : a.name = b.name
  lookup : Lookup.Mirrors O a.lookup b.lookup
  bufferIndex : a.bufferIndex = b.bufferIndex
  loopIndex : a.loopIndex = b.loopIndex
  empty : a.empty = b.empty

/-- Related partials. -/
structure StachePartial.Mirrors (O : ο → ο' → Prop) (fns : StreamFns τ)
    (fns' : StreamFns τ') (a : StachePartial ο τ) (b : StachePartial ο' τ') :
    Prop where
  lookup : Lookup.Mirrors O a.lookup b.lookup
  stream : a.stream.Mirrors fns fns' b.stream
  save : a.save = b.save

/-- Related buffers; once the end was reached nothing is read any more. -/
structure Buffer.Mirrors (E : σ → σ' → Prop) (O : ο → ο' → Prop)
    (fns : StreamFns τ) (fns' : StreamFns τ') (a : Buffer σ ο τ)
    (b : Buffer σ' ο' τ') : Prop where
  env : E a.env b.env
  input : a.eof = false → a.input.Mirrors fns fns' b.input
  partials : a.eof = false →
    List.Forall₂ (StachePartial.Mirrors O fns fns') a.partials b.partials
  data : a.data = b.data
  index : a.index = b.index
  fill : a.fill = b.fill
  capacity : a.capacity = b.capacity
  eof : a.eof = b.eof
  loops : List.Forall₂ (StacheLoop.Mirrors O) a.loops b.loops
  error : a.error = b.error
  openDelimiter : a.openDelimiter = b.openDelimiter
  closeDelimiter : a.closeDelimiter = b.closeDelimiter
  output : a.output = b.output
  rejections : a.rejections = b.rejections

/-- Related results, and related buffers after them. -/
structure ResultMirrors {β β' : Type} (E : σ → σ' → Prop) (O : ο → ο' → Prop)
    (fns : StreamFns τ) (fns' : StreamFns τ') (B : β → β' → Prop)
    (x : β × Buffer σ ο τ) (y : β' × Buffer σ' ο' τ') : Prop where
  result : B x.1 y.1
  buffer : x.2.Mirrors E O fns fns' y.2

section Engine

variable {E : σ → σ' → Prop} {O : ο → ο' → Prop} {fns : StreamFns τ}
  {fns' : StreamFns τ'} {cb : Callback σ ο τ} {cb' : Callback σ' ο' τ'}
  {a : Buffer σ ο τ} {b : Buffer σ' ο' τ'}

theorem Buffer.Mirrors.setEnv (h : a.Mirrors E O fns fns' b) {e : σ} {e' : σ'}
    (he : E e e') : (a.setEnv e).Mirrors E O fns fns' (b.setEnv e') :=
  { h with env := he }

theorem Buffer.Mirrors.setError (h : a.Mirrors E O fns fns' b)
    (error : String) :
    Buffer.Mirrors E O fns fns' { a with error := error }
      { b with error := error } :=
  { h with error := rfl }

theorem Buffer.Mirrors.put (h : a.Mirrors E O fns fns' b) (c : UInt8) :
    (a.put c).Mirrors E O fns fns' (b.put c) :=
  { h with
    data := by rw [Buffer.put, Buffer.put, h.data, h.fill]
    fill := by rw [Buffer.put, Buffer.put, h.fill] }

theorem Buffer.Mirrors.call {β β' : Type} {B : β → β' → Prop}
    (h : a.Mirrors E O fns fns' b) {f : Option (σ → β × σ)}
    {g : Option (σ' → β' × σ')} (hfg : Option.Rel (CallMirrors E B) f g) :
    Agree (ResultMirrors E O fns fns' B) (a.call f) (b.call g) := by
  cases hfg with
  | none => exact Agree.undefined
  | some hfg =>
      obtain ⟨hresult, henv⟩ := hfg _ _ h.env
      exact Agree.pure ⟨hresult, h.setEnv henv⟩

theorem Buffer.Mirrors.callOr {β β' : Type} {B : β → β' → Prop}
    (h : a.Mirrors E O fns fns' b) {f : Option (σ → β × σ)}
    {g : Option (σ' → β' × σ')} (hfg : Option.Rel (CallMirrors E B) f g)
    (default : β) (default' : β') (hdefault : B default default') :
    ResultMirrors E O fns fns' B (a.callOr f default)
      (b.callOr g default') := by
  cases hfg with
  | none => exact ⟨hdefault, h⟩
  | some hfg =>
      obtain ⟨hresult, henv⟩ := hfg _ _ h.env
      exact ⟨hresult, h.setEnv henv⟩

theorem Buffer.Mirrors.resolve (hcb : cb.Mirrors E O fns fns' cb')
    (h : a.Mirrors E O fns fns' b) (name : Bytes) :
    ResultMirrors E O fns fns' (Lookup.Mirrors O) (a.resolve cb name)
      (b.resolve cb' name) := by
  obtain ⟨hlookup, henv⟩ := hcb.resolve _ _ name h.env
  exact ⟨hlookup, h.setEnv henv⟩

theorem bufferRead_mirrors (h : a.Mirrors E O fns fns' b)
    (heof : a.eof = false) :
    (bufferRead fns a).Mirrors E O fns fns' (bufferRead fns' b) := by
  have hinput := h.input heof
  rw [bufferRead, bufferRead, ← hinput.item]
  split
  next =>
    refine { h with input := ?_, partials := ?_, eof := rfl }
    · intro hlive
      cases hlive
    · intro hlive
      cases hlive
  next hitem =>
    have hput := h.put (intToChar (a.input.item fns))
    refine { hput with input := ?_, partials := ?_, eof := ?_ }
    · intro hend
      exact hinput.next hitem (by simpa using hend)
    · exact fun _ => h.partials heof
    · exact decide_eq_decide.mpr (not_congr (hinput.code hitem))

theorem bufferReadPartial_mirrors (hcb : cb.Mirrors E O fns fns' cb')
    (h : a.Mirrors E O fns fns' b) (heof : a.eof = false)
    {part : StachePartial ο τ} {part' : StachePartial ο' τ'}
    (hpart : part.Mirrors O fns fns' part')
    {partials : List (StachePartial ο τ)}
    {partials' : List (StachePartial ο' τ')}
    (hpartials : List.Forall₂ (StachePartial.Mirrors O fns fns') partials
      partials') :
    Agree (Buffer.Mirrors E O fns fns')
      (bufferReadPartial fns cb part partials a)
      (bufferReadPartial fns' cb' part' partials' b) := by
  have hpop : ∀ {a : Buffer σ ο τ} {b : Buffer σ' ο' τ'},
      a.Mirrors E O fns fns' b → ∀ error error' c, error = error' →
      Buffer.Mirrors E O fns fns'
        (Buffer.put { a with partials := partials, error := error } c)
        (Buffer.put { b with partials := partials', error := error' } c) := by
    intro a b h error error' c herror
    have hpopped : Buffer.Mirrors E O fns fns'
        { a with partials := partials, error := error }
        { b with partials := partials', error := error' } :=
      { h with partials := fun _ => hpartials, error := herror }
    exact hpopped.put c
  rw [bufferReadPartial, bufferReadPartial, ← hpart.stream.item]
  dsimp only
  split
  next =>
    cases part with
    | mk lookup stream save =>
        cases part' with
        | mk lookup' stream' save' =>
            obtain ⟨hlookup, -, hsave⟩ := hpart
            cases hsave
            cases hlookup with
            | notFound => exact Agree.pure (hpop h _ _ _ rfl)
            | list ho => exact Agree.pure (hpop h _ _ _ rfl)
            | invalid => exact Agree.pure (hpop h _ _ _ h.error)
            | string ho =>
                refine (h.call (hcb.stringFree _ _ ho)).bind ?_
                rintro ⟨_, a⟩ ⟨_, b⟩ ⟨-, h⟩
                exact Agree.pure (hpop h _ _ _ h.error)
            | stream ho =>
                refine (h.call (hcb.streamFree _ _ ho)).bind ?_
                rintro ⟨_, a⟩ ⟨_, b⟩ ⟨-, h⟩
                exact Agree.pure (hpop h _ _ _ h.error)
  next hitem =>
    have hput := h.put (intToChar (part.stream.item fns))
    refine Agree.pure { hput with input := ?_, partials := ?_, eof := ?_ }
    · exact fun _ => h.input heof
    · intro hend
      refine List.Forall₂.cons ⟨hpart.lookup, ?_, hpart.save⟩ hpartials
      exact hpart.stream.next hitem (by simpa using hend)
    · exact decide_eq_decide.mpr (not_congr (hpart.stream.code hitem))

theorem Buffer.Mirrors.grow (h : a.Mirrors E O fns fns' b) :
    a.grow.Mirrors E O fns fns' b.grow := by
  rw [Buffer.grow, Buffer.grow]
  by_cases hfull : a.fill = a.capacity
  · have hfull' : b.fill = b.capacity := by rwa [← h.fill, ← h.capacity]
    rw [if_pos hfull, if_pos hfull']
    exact { h with capacity := congrArg (· * 2) h.capacity }
  · have hfull' : b.fill ≠ b.capacity := by rwa [← h.fill, ← h.capacity]
    rw [if_neg hfull, if_neg hfull']
    exact h

theorem bufferFetch_mirrors (hcb : cb.Mirrors E O fns fns' cb')
    (h : a.Mirrors E O fns fns' b) (heof : a.eof = false) :
    Agree (Buffer.Mirrors E O fns fns') (bufferFetch fns cb a)
      (bufferFetch fns' cb' b) := by
  have hpartials := h.partials heof
  rw [bufferFetch.eq_def, bufferFetch.eq_def]
  cases ha : a.partials with
  | nil =>
      rw [ha] at hpartials
      rw [List.forall₂_nil_left_iff.mp hpartials]
      exact Agree.pure (bufferRead_mirrors h heof)
  | cons part partials =>
      rw [ha] at hpartials
      obtain ⟨part', partials', hpart, hrest, hb⟩ :=
        List.forall₂_cons_left_iff.mp hpartials
      rw [hb]
      exact bufferReadPartial_mirrors hcb h heof hpart hrest

theorem grow_eof (buffer : Buffer σ ο τ) : buffer.grow.eof = buffer.eof := by
  rw [Buffer.grow]
  split <;> rfl

theorem bufferNext_mirrors (hcb : cb.Mirrors E O fns fns' cb')
    (h : a.Mirrors E O fns fns' b) :
    Agree (ResultMirrors E O fns fns' Eq) (bufferNext fns cb a)
      (bufferNext fns' cb' b) := by
  refine Agree.ite (by rw [h.eof]) (fun _ => ?_) (fun heof => ?_)
  · exact Agree.pure ⟨rfl, h.setError _⟩
  · have hstep : Buffer.Mirrors E O fns fns' { a with index := a.index + 1 }
        { b with index := b.index + 1 } :=
      { h with index := congrArg (· + 1) h.index }
    refine Agree.ite (by rw [hstep.index, hstep.fill]) (fun _ => ?_)
      (fun _ => ?_)
    · refine (bufferFetch_mirrors hcb hstep.grow ?_).bind ?_
      · exact (grow_eof _).trans (Bool.eq_false_iff.mpr heof)
      · exact fun a b h => Agree.pure ⟨rfl, h⟩
    · exact Agree.pure ⟨rfl, hstep⟩

theorem bufferEof_mirrors (h : a.Mirrors E O fns fns' b) :
    bufferEof a = bufferEof b := by
  rw [bufferEof, bufferEof, h.eof, h.fill, h.index]

theorem bufferItem_mirrors (h : a.Mirrors E O fns fns' b) :
    bufferItem a = bufferItem b := by
  rw [bufferItem, bufferItem, h.index, h.capacity, h.data]

theorem bufferMatch_mirrors (hcb : cb.Mirrors E O fns fns' cb')
    (expected : Bytes) : ∀ {a : Buffer σ ο τ} {b : Buffer σ' ο' τ'},
    a.Mirrors E O fns fns' b →
      Agree (ResultMirrors E O fns fns' Eq) (bufferMatch fns cb expected a)
        (bufferMatch fns' cb' expected b) := by
  induction expected with
  | nil => exact fun h => Agree.pure ⟨rfl, h⟩
  | cons c expected ih =>
      intro a b h
      rw [bufferMatch, bufferMatch, bufferItem_mirrors h]
      refine (Agree.refl (bufferItem b)).bind ?_
      rintro item _ rfl
      refine Agree.ite Iff.rfl (fun _ => ?_) (fun _ => Agree.pure ⟨rfl, h⟩)
      refine (bufferNext_mirrors hcb h).bind ?_
      rintro ⟨more, a⟩ ⟨_, b⟩ ⟨rfl, h⟩
      exact Agree.ite Iff.rfl (fun _ => ih h) (fun _ => Agree.pure ⟨rfl, h⟩)

theorem bufferLookAt_mirrors (hcb : cb.Mirrors E O fns fns' cb')
    (h : a.Mirrors E O fns fns' b) (expected : Bytes) :
    Agree (ResultMirrors E O fns fns' Eq) (bufferLookAt fns cb expected a)
      (bufferLookAt fns' cb' expected b) := by
  refine (bufferMatch_mirrors hcb expected h).bind ?_
  rintro ⟨result, after⟩ ⟨_, after'⟩ ⟨rfl, hafter⟩
  refine Agree.ite Iff.rfl (fun _ => Agree.pure ⟨rfl, hafter⟩) (fun _ => ?_)
  exact Agree.pure ⟨rfl, { hafter with index := h.index }⟩

theorem skips_mirrors {loop : StacheLoop ο} {loop' : StacheLoop ο'}
    (h : loop.Mirrors O loop') : loop.skips = loop'.skips := by
  rw [StacheLoop.skips, StacheLoop.skips, h.type, h.empty]

theorem bufferSkipOutput_mirrors (h : a.Mirrors E O fns fns' b) :
    bufferSkipOutput a = bufferSkipOutput b := by
  rw [bufferSkipOutput, bufferSkipOutput]
  have hloops := h.loops
  generalize a.loops = loops at hloops
  generalize b.loops = loops' at hloops
  induction hloops with
  | nil => rfl
  | cons hloop _ ih => rw [List.any_cons, List.any_cons, skips_mirrors hloop, ih]

theorem bufferOutput_mirrors (h : a.Mirrors E O fns fns' b) (text : Bytes) :
    (bufferOutput a text).Mirrors E O fns fns' (bufferOutput b text) := by
  rw [bufferOutput, bufferOutput, bufferSkipOutput_mirrors h]
  split
  next => exact h
  next => exact { h with output := congrArg (· ++ text) h.output }

/-- The outcome of one iteration over related buffers. -/
abbrev StepMirrors {ρ ρ' : Type} (E : σ → σ' → Prop) (O : ο → ο' → Prop)
    (fns : StreamFns τ) (fns' : StreamFns τ') (Q : ρ → ρ' → Prop) :
    Buffer σ ο τ ⊕ ρ → Buffer σ' ο' τ' ⊕ ρ' → Prop :=
  SumRel (Buffer.Mirrors E O fns fns') Q

theorem bufferSkipBlanks_mirrors (hcb : cb.Mirrors E O fns fns' cb')
    (h : a.Mirrors E O fns fns' b) :
    Agree (Buffer.Mirrors E O fns fns') (bufferSkipBlanks fns cb a)
      (bufferSkipBlanks fns' cb' b) := by
  refine Agree.loop (R := Buffer.Mirrors E O fns fns') ?_ h
  intro a b h
  refine Agree.ite (by rw [bufferEof_mirrors h])
    (fun _ => Agree.pure (.inr h)) (fun _ => ?_)
  rw [bufferItem_mirrors h]
  refine (Agree.refl (bufferItem b)).bind ?_
  rintro c _ rfl
  refine Agree.ite Iff.rfl (fun _ => ?_) (fun _ => Agree.pure (.inr h))
  refine (bufferNext_mirrors hcb h).bind ?_
  rintro ⟨again, a⟩ ⟨_, b⟩ ⟨rfl, h⟩
  cases again with
  | true => exact Agree.pure (.inl h)
  | false => exact Agree.pure (.inr h)

theorem bufferLookAtSuffix_mirrors (hcb : cb.Mirrors E O fns fns' cb')
    (h : a.Mirrors E O fns fns' b) (suffix : Option Bytes) :
    Agree (ResultMirrors E O fns fns' Eq) (bufferLookAtSuffix fns cb suffix a)
      (bufferLookAtSuffix fns' cb' suffix b) := by
  cases suffix with
  | none => exact Agree.pure ⟨rfl, h⟩
  | some suffix => exact bufferLookAt_mirrors hcb h suffix

theorem parseNameStep_mirrors (hcb : cb.Mirrors E O fns fns' cb')
    (h : a.Mirrors E O fns fns' b) (suffix : Option Bytes)
    (name : NameBlock) :
    Agree (SumRel (ResultMirrors E O fns fns' Eq)
        (ResultMirrors E O fns fns' Eq))
      (parseNameStep fns cb suffix (name, a))
      (parseNameStep fns' cb' suffix (name, b)) := by
  refine Agree.ite (by rw [bufferEof_mirrors h])
    (fun _ => Agree.pure (.inr ⟨rfl, h⟩)) (fun _ => ?_)
  refine (bufferLookAtSuffix_mirrors hcb h suffix).bind ?_
  rintro ⟨suffixed, a⟩ ⟨_, b⟩ ⟨rfl, h⟩
  have hclose : Agree (ResultMirrors E O fns fns' Eq)
      (bufferLookAt fns cb a.closeDelimiter a)
      (bufferLookAt fns' cb' b.closeDelimiter b) := by
    rw [h.closeDelimiter]
    exact bufferLookAt_mirrors hcb h _
  refine Agree.ite Iff.rfl (fun _ => ?_) (fun _ => ?_)
  · refine hclose.bind ?_
    rintro ⟨closed, a⟩ ⟨_, b⟩ ⟨rfl, h⟩
    exact Agree.pure (.inr ⟨rfl, h⟩)
  · refine hclose.bind ?_
    rintro ⟨closed, a⟩ ⟨_, b⟩ ⟨rfl, h⟩
    refine Agree.ite Iff.rfl (fun _ => Agree.pure (.inr ⟨rfl, h⟩))
      (fun _ => ?_)
    rw [bufferItem_mirrors h]
    refine (Agree.refl (bufferItem b)).bind ?_
    rintro c _ rfl
    refine (bufferNext_mirrors hcb h).bind ?_
    rintro ⟨more, a⟩ ⟨_, b⟩ ⟨rfl, h⟩
    exact Agree.ite Iff.rfl (fun _ => Agree.pure (.inl ⟨rfl, h⟩))
      (fun _ => Agree.pure (.inr ⟨rfl, h⟩))

theorem Buffer.Mirrors.reject (h : a.Mirrors E O fns fns' b)
    (suffix : Option Bytes) (index : Int) :
    (a.reject suffix index).Mirrors E O fns fns' (b.reject suffix index) :=
  { h with
    error := rfl
    index := rfl
    rejections := by
      rw [Buffer.reject, Buffer.reject, h.fill, h.eof, h.rejections] }

theorem parseName_mirrors (hcb : cb.Mirrors E O fns fns' cb')
    (h : a.Mirrors E O fns fns' b) (suffix : Option Bytes) :
    Agree (ResultMirrors E O fns fns' Eq) (parseName fns cb suffix a)
      (parseName fns' cb' suffix b) := by
  refine (bufferSkipBlanks_mirrors hcb h).bind ?_
  intro start start' hstart
  refine (Agree.loop (R := ResultMirrors E O fns fns' Eq)
    (Q := ResultMirrors E O fns fns' Eq) ?_ ⟨rfl, hstart⟩).bind ?_
  · rintro ⟨name, a⟩ ⟨_, b⟩ ⟨rfl, h⟩
    exact parseNameStep_mirrors hcb h suffix name
  · rintro ⟨name, after⟩ ⟨_, after'⟩ ⟨rfl, hafter⟩
    cases name with
    | some name => exact Agree.pure ⟨rfl, hafter⟩
    | none =>
        rw [h.index]
        exact Agree.pure ⟨rfl, hafter.reject suffix b.index⟩

theorem Buffer.Mirrors.fail (h : a.Mirrors E O fns fns' b) (error : String) :
    ResultMirrors E O fns fns' Eq (a.fail error) (b.fail error) :=
  ⟨rfl, h.setError error⟩

theorem renderVariable_mirrors (hcb : cb.Mirrors E O fns fns' cb')
    (h : a.Mirrors E O fns fns' b) (suffix : Option Bytes)
    (invalidName : String)
    {write : Option Bytes → Buffer σ ο τ → Proc (Buffer σ ο τ)}
    {write' : Option Bytes → Buffer σ' ο' τ' → Proc (Buffer σ' ο' τ')}
    (hwrite : ∀ c a b, Buffer.Mirrors E O fns fns' a b →
      Agree (Buffer.Mirrors E O fns fns') (write c a) (write' c b)) :
    Agree (ResultMirrors E O fns fns' Eq)
      (renderVariable fns cb suffix invalidName write a)
      (renderVariable fns' cb' suffix invalidName write' b) := by
  refine (parseName_mirrors hcb h suffix).bind ?_
  rintro ⟨name, a⟩ ⟨_, b⟩ ⟨rfl, h⟩
  cases name with
  | none => exact Agree.pure ⟨rfl, h⟩
  | some name =>
      refine Agree.ite Iff.rfl (fun _ => Agree.pure (h.fail _)) (fun _ => ?_)
      obtain ⟨hlookup, h⟩ := h.resolve hcb name.string
      revert hlookup h
      generalize a.resolve cb name.string = x
      generalize b.resolve cb' name.string = y
      obtain ⟨lookup, a⟩ := x
      obtain ⟨lookup', b⟩ := y
      intro hlookup h
      cases hlookup with
      | notFound => exact Agree.pure ⟨rfl, h⟩
      | list _ => exact Agree.pure (h.fail _)
      | stream _ => exact Agree.pure (h.fail _)
      | invalid => exact Agree.pure (h.fail _)
      | string ho =>
          refine (h.call (hcb.stringGet _ _ ho)).bind ?_
          rintro ⟨c, a⟩ ⟨_, b⟩ ⟨rfl, h⟩
          refine (hwrite c a b h).bind ?_
          intro a b h
          refine (h.call (hcb.stringFree _ _ ho)).bind ?_
          rintro ⟨freed, a⟩ ⟨_, b⟩ ⟨rfl, h⟩
          cases freed with
          | true => exact Agree.pure ⟨rfl, h⟩
          | false => exact Agree.pure (h.fail _)

theorem writeRaw_mirrors (c : Option Bytes) (h : a.Mirrors E O fns fns' b) :
    Agree (Buffer.Mirrors E O fns fns') (writeRaw c a) (writeRaw c b) := by
  refine Agree.ite (by rw [bufferSkipOutput_mirrors h])
    (fun _ => Agree.pure h) (fun _ => ?_)
  cases c with
  | none => exact Agree.undefined
  | some c => exact Agree.pure (bufferOutput_mirrors h _)

theorem writeEscaped_mirrors (c : Option Bytes)
    (h : a.Mirrors E O fns fns' b) :
    Agree (Buffer.Mirrors E O fns fns') (writeEscaped c a)
      (writeEscaped c b) := by
  cases c with
  | none => exact Agree.undefined
  | some c =>
      refine Agree.pure ?_
      induction cString c generalizing a b with
      | nil => exact h
      | cons c text ih => exact ih (bufferOutput_mirrors h (escapeChar c))

/-- Related results of the switch of `render_stache_loop`. -/
abbrev OpenedMirrors (E : σ → σ' → Prop) (O : ο → ο' → Prop)
    (fns : StreamFns τ) (fns' : StreamFns τ')
    (x : Bool × Bool × Buffer σ ο τ) (y : Bool × Bool × Buffer σ' ο' τ') :
    Prop :=
  x.1 = y.1 ∧ ResultMirrors E O fns fns' Eq x.2 y.2

theorem releaseSection_mirrors {free : Option (σ → Bool × σ)}
    {free' : Option (σ' → Bool × σ')}
    (hfree : Option.Rel (CallMirrors E Eq) free free') (error : String)
    {x : Bool × Bool × Buffer σ ο τ} {y : Bool × Bool × Buffer σ' ο' τ'}
    (h : OpenedMirrors E O fns fns' x y) :
    OpenedMirrors E O fns fns' (releaseSection free error x)
      (releaseSection free' error y) := by
  obtain ⟨result, empty, a⟩ := x
  obtain ⟨_, _, b⟩ := y
  obtain ⟨rfl, rfl, h⟩ := h
  obtain ⟨hfreed, h⟩ := h.callOr (B := Eq) hfree false false rfl
  rw [releaseSection, releaseSection]
  dsimp only
  rw [hfreed]
  split
  next => exact ⟨rfl, rfl, h⟩
  next => exact ⟨rfl, rfl, h.setError _⟩

theorem readSection_mirrors (h : a.Mirrors E O fns fns' b)
    {s : Option (InputStream τ)} {s' : Option (InputStream τ')}
    (hs : Option.Rel (PartialMirrors fns fns') s s') :
    OpenedMirrors E O fns fns' (readSection fns s a)
      (readSection fns' s' b) := by
  have hempty : streamEmpty fns s = streamEmpty fns' s' := by
    cases hs with
    | none => rfl
    | some hs => exact hs.empty
  rw [readSection, readSection, hempty]
  split
  next => exact ⟨rfl, rfl, h⟩
  next => exact ⟨rfl, rfl, h.setError _⟩

theorem Callback.Mirrors.listGetAt (hcb : cb.Mirrors E O fns fns' cb') {o : ο}
    {o' : ο'} (ho : O o o') (n : Int) :
    Option.Rel (CallMirrors E Eq)
      ((cb.listGet o).map fun get env => get env n)
      ((cb'.listGet o').map fun get env => get env n) := by
  have hget := hcb.listGet o o' ho
  generalize cb.listGet o = f at hget
  generalize cb'.listGet o' = g at hget
  cases hget with
  | none => exact .none
  | some hget => exact .some (hget n)

theorem openLoop_mirrors (hcb : cb.Mirrors E O fns fns' cb')
    (h : a.Mirrors E O fns fns' b) {lookup : Lookup ο} {lookup' : Lookup ο'}
    (hlookup : Lookup.Mirrors O lookup lookup') :
    OpenedMirrors E O fns fns' (openLoop fns cb lookup a)
      (openLoop fns' cb' lookup' b) := by
  cases hlookup with
  | notFound => exact ⟨rfl, rfl, h⟩
  | invalid => exact ⟨rfl, rfl, h.setError _⟩
  | list ho =>
      obtain ⟨hfound, h⟩ := h.callOr (B := Eq) (hcb.listGetAt ho 0) false
        false rfl
      exact ⟨rfl, congrArg Bool.not hfound, h⟩
  | string ho =>
      obtain ⟨hc, h⟩ := h.callOr (B := Eq) (hcb.stringGet _ _ ho) none none
        rfl
      rw [openLoop, openLoop]
      dsimp only
      rw [hc]
      exact releaseSection_mirrors (hcb.stringFree _ _ ho) _ ⟨rfl, rfl, h⟩
  | stream ho =>
      obtain ⟨hs, h⟩ := h.callOr (hcb.streamGet _ _ ho) none none .none
      exact releaseSection_mirrors (hcb.streamFree _ _ ho) _
        (readSection_mirrors h hs)

theorem renderStacheLoop_mirrors (hcb : cb.Mirrors E O fns fns' cb')
    (h : a.Mirrors E O fns fns' b) (type : LoopType) :
    Agree (ResultMirrors E O fns fns' Eq) (renderStacheLoop fns cb type a)
      (renderStacheLoop fns' cb' type b) := by
  refine (parseName_mirrors hcb h none).bind ?_
  rintro ⟨name, a⟩ ⟨_, b⟩ ⟨rfl, h⟩
  cases name with
  | none => exact Agree.pure ⟨rfl, h⟩
  | some name =>
      obtain ⟨hlookup, h⟩ := h.resolve hcb name.string
      obtain ⟨hresult, hempty, h⟩ := openLoop_mirrors hcb h hlookup
      refine Agree.pure ⟨hresult, { h with loops := ?_ }⟩
      exact .cons ⟨rfl, rfl, hlookup, h.index, rfl, hempty⟩ h.loops

theorem listNext_mirrors (hcb : cb.Mirrors E O fns fns' cb')
    (h : a.Mirrors E O fns fns' b) {o : ο} {o' : ο'} (ho : O o o')
    (index : Int) (type : LoopType) :
    Agree (ResultMirrors E O fns fns' Eq) (listNext cb o index a type)
      (listNext cb' o' index b type) := by
  cases type with
  | loopElse => exact Agree.pure ⟨rfl, h⟩
  | loopWhile => exact h.call (hcb.listGetAt ho index)

theorem endList_mirrors (hcb : cb.Mirrors E O fns fns' cb')
    (h : a.Mirrors E O fns fns' b) {o : ο} {o' : ο'} (ho : O o o')
    {loop : StacheLoop ο} {loop' : StacheLoop ο'}
    (hloop : loop.Mirrors O loop') {loops : List (StacheLoop ο)}
    {loops' : List (StacheLoop ο')}
    (hloops : List.Forall₂ (StacheLoop.Mirrors O) loops loops') :
    Agree (ResultMirrors E O fns fns' Eq) (endList cb o loop loops a)
      (endList cb' o' loop' loops' b) := by
  have hnext : loop.next.Mirrors O loop'.next :=
    { hloop with loopIndex := congrArg (· + 1) hloop.loopIndex }
  have hcounted : Buffer.Mirrors E O fns fns'
      { a with loops := loop.next :: loops }
      { b with loops := loop'.next :: loops' } :=
    { h with loops := .cons hnext hloops }
  rw [endList, endList, hnext.loopIndex, hnext.type]
  refine (listNext_mirrors hcb hcounted ho _ _).bind ?_
  rintro ⟨found, a⟩ ⟨_, b⟩ ⟨rfl, h⟩
  refine Agree.ite Iff.rfl (fun _ => ?_) (fun _ => ?_)
  · exact Agree.pure ⟨rfl, { h with index := hnext.bufferIndex }⟩
  · have hclose : ResultMirrors E O fns fns' Eq
        (a.callOr (cb.listClose o) false)
        (b.callOr (cb'.listClose o') false) :=
      h.callOr (hcb.listClose _ _ ho) false false rfl
    dsimp only
    generalize a.callOr (cb.listClose o) false = x at hclose
    generalize b.callOr (cb'.listClose o') false = y at hclose
    obtain ⟨closed, a⟩ := x
    obtain ⟨_, b⟩ := y
    obtain ⟨rfl, h⟩ := hclose
    cases closed with
    | true => exact Agree.pure ⟨rfl, { h with loops := hloops }⟩
    | false => exact Agree.pure (h.fail _)

theorem renderStacheEnd_mirrors (hcb : cb.Mirrors E O fns fns' cb')
    (h : a.Mirrors E O fns fns' b) :
    Agree (ResultMirrors E O fns fns' Eq) (renderStacheEnd fns cb a)
      (renderStacheEnd fns' cb' b) := by
  refine (parseName_mirrors hcb h none).bind ?_
  rintro ⟨name, a⟩ ⟨_, b⟩ ⟨rfl, h⟩
  cases name with
  | none => exact Agree.pure ⟨rfl, h⟩
  | some name =>
      have hloops := h.loops
      dsimp only
      generalize ha : a.loops = loops at hloops
      generalize hb : b.loops = loops' at hloops
      cases hloops with
      | nil => exact Agree.pure (h.fail _)
      | @cons loop loop' loops loops' hloop hloops =>
          refine Agree.ite (by rw [hloop.name])
            (fun _ => Agree.pure (h.fail _)) (fun _ => ?_)
          have hleft : ResultMirrors E O fns fns' Eq
              (true, { a with loops := loops })
              (true, { b with loops := loops' }) :=
            ⟨rfl, { h with loops := hloops }⟩
          cases loop with
          | mk type name lookup bufferIndex loopIndex empty =>
              cases loop' with
              | mk type' name' lookup' bufferIndex' loopIndex' empty' =>
                  have hlookup := hloop.lookup
                  cases hlookup with
                  | notFound => exact Agree.pure hleft
                  | string ho => exact Agree.pure hleft
                  | stream ho => exact Agree.pure hleft
                  | invalid => exact Agree.pure ⟨rfl, h⟩
                  | list ho => exact endList_mirrors hcb h ho hloop hloops

theorem renderStacheDelimiters_mirrors (hcb : cb.Mirrors E O fns fns' cb')
    (h : a.Mirrors E O fns fns' b) :
    Agree (ResultMirrors E O fns fns' Eq) (renderStacheDelimiters fns cb a)
      (renderStacheDelimiters fns' cb' b) := by
  refine (parseName_mirrors hcb h _).bind ?_
  rintro ⟨delimiters, a⟩ ⟨_, b⟩ ⟨rfl, h⟩
  cases delimiters with
  | none => exact Agree.pure ⟨rfl, h⟩
  | some delimiters =>
      refine (Agree.refl (scanDelimiters delimiters.bytes)).bind ?_
      rintro scanned _ rfl
      cases scanned with
      | error error => exact Agree.pure (h.fail error)
      | ok delimiters =>
          exact Agree.pure ⟨rfl,
            { h with openDelimiter := rfl, closeDelimiter := rfl }⟩

theorem renderStacheComment_mirrors (hcb : cb.Mirrors E O fns fns' cb')
    (h : a.Mirrors E O fns fns' b) :
    Agree (ResultMirrors E O fns fns' Eq) (renderStacheComment fns cb a)
      (renderStacheComment fns' cb' b) := by
  refine Agree.loop (R := Buffer.Mirrors E O fns fns') ?_ h
  intro a b h
  rw [commentStep, commentStep, h.closeDelimiter]
  refine (bufferLookAt_mirrors hcb h _).bind ?_
  rintro ⟨closed, a⟩ ⟨_, b⟩ ⟨rfl, h⟩
  refine Agree.ite Iff.rfl (fun _ => Agree.pure (.inr ⟨rfl, h⟩))
    (fun _ => ?_)
  refine (bufferNext_mirrors hcb h).bind ?_
  rintro ⟨more, a⟩ ⟨_, b⟩ ⟨rfl, h⟩
  exact Agree.ite Iff.rfl (fun _ => Agree.pure (.inl h))
    (fun _ => Agree.pure (.inr ⟨rfl, h⟩))

/-- Related results of the switch of `render_stache_partial`. -/
abbrev FoundMirrors (E : σ → σ' → Prop) (O : ο → ο' → Prop)
    (fns : StreamFns τ) (fns' : StreamFns τ')
    (x : Bool × Option (InputStream τ) × Buffer σ ο τ)
    (y : Bool × Option (InputStream τ') × Buffer σ' ο' τ') : Prop :=
  x.1 = y.1 ∧ ResultMirrors E O fns fns'
    (Option.Rel (InputStream.Mirrors fns fns')) x.2 y.2

theorem StringStream.mirrors (stream : StringStream) :
    InputStream.Mirrors fns fns' (.string stream) (.string stream) := by
  refine ⟨fun s s' => ∃ stream, s = .string stream ∧ s' = .string stream,
    ⟨?_, ?_, ?_⟩, stream, rfl, rfl⟩
  · rintro _ _ ⟨stream, rfl, rfl⟩
    rfl
  · rintro _ _ ⟨stream, rfl, rfl⟩ _
    exact Iff.rfl
  · rintro _ _ ⟨stream, rfl, rfl⟩ _ _
    exact ⟨stream.next.2, rfl, rfl⟩

theorem openPartial_mirrors (hcb : cb.Mirrors E O fns fns' cb')
    (h : a.Mirrors E O fns fns' b) {lookup : Lookup ο} {lookup' : Lookup ο'}
    (hlookup : Lookup.Mirrors O lookup lookup') :
    Agree (FoundMirrors E O fns fns') (openPartial cb lookup a)
      (openPartial cb' lookup' b) := by
  cases hlookup with
  | notFound => exact Agree.pure ⟨rfl, .none, h⟩
  | invalid => exact Agree.pure ⟨rfl, .none, h⟩
  | list ho =>
      refine ((h.setError _).call (hcb.listClose _ _ ho)).bind ?_
      rintro ⟨_, a⟩ ⟨_, b⟩ ⟨-, h⟩
      exact Agree.pure ⟨rfl, .none, h⟩
  | string ho =>
      refine (h.call (hcb.stringGet _ _ ho)).bind ?_
      rintro ⟨c, a⟩ ⟨_, b⟩ ⟨rfl, h⟩
      cases c with
      | some c => exact Agree.pure ⟨rfl, .some (StringStream.mirrors _), h⟩
      | none =>
          refine (h.call (hcb.stringFree _ _ ho)).bind ?_
          rintro ⟨_, a⟩ ⟨_, b⟩ ⟨-, h⟩
          exact Agree.pure ⟨rfl, .none, h⟩
  | stream ho =>
      refine (h.call (hcb.streamGet _ _ ho)).bind ?_
      rintro ⟨s, a⟩ ⟨s', b⟩ ⟨hs, h⟩
      cases hs with
      | some hs => exact Agree.pure ⟨rfl, .some hs.reads, h⟩
      | none =>
          refine (h.call (hcb.streamFree _ _ ho)).bind ?_
          rintro ⟨_, a⟩ ⟨_, b⟩ ⟨-, h⟩
          exact Agree.pure ⟨rfl, .none, h⟩

theorem pushPartial_mirrors (h : a.Mirrors E O fns fns' b)
    {lookup : Lookup ο} {lookup' : Lookup ο'}
    (hlookup : Lookup.Mirrors O lookup lookup')
    {s : Option (InputStream τ)} {s' : Option (InputStream τ')}
    (hs : Option.Rel (InputStream.Mirrors fns fns') s s') :
    Agree (Buffer.Mirrors E O fns fns') (pushPartial lookup s a)
      (pushPartial lookup' s' b) := by
  cases hs with
  | none => exact Agree.pure h
  | some hs =>
      rw [pushPartial, pushPartial, bufferItem_mirrors h]
      refine (Agree.refl (bufferItem b)).bind ?_
      rintro save _ rfl
      exact Agree.pure { h with
        partials := fun heof => .cons ⟨hlookup, hs, rfl⟩ (h.partials heof) }

theorem renderStachePartial_mirrors (hcb : cb.Mirrors E O fns fns' cb')
    (h : a.Mirrors E O fns fns' b) (startIndex : Int) :
    Agree (ResultMirrors E O fns fns' Eq)
      (renderStachePartial fns cb startIndex a)
      (renderStachePartial fns' cb' startIndex b) := by
  refine (parseName_mirrors hcb h none).bind ?_
  rintro ⟨name, a⟩ ⟨_, b⟩ ⟨rfl, h⟩
  cases name with
  | none => exact Agree.pure ⟨rfl, h⟩
  | some name =>
      obtain ⟨hlookup, h⟩ := h.resolve hcb name.string
      refine (openPartial_mirrors hcb h hlookup).bind ?_
      rintro ⟨result, s, a⟩ ⟨_, s', b⟩ ⟨rfl, hs, h⟩
      refine (pushPartial_mirrors h hlookup hs).bind ?_
      intro a b h
      have hcut : Buffer.Mirrors E O fns fns'
          { a with index := startIndex - 1, fill := startIndex }
          { b with index := startIndex - 1, fill := startIndex } :=
        { h with index := rfl, fill := rfl }
      refine (bufferNext_mirrors hcb hcut).bind ?_
      rintro ⟨more, a⟩ ⟨_, b⟩ ⟨rfl, h⟩
      cases more with
      | true => exact Agree.pure ⟨rfl, h⟩
      | false => exact Agree.pure (h.fail _)

theorem renderTag_mirrors (hcb : cb.Mirrors E O fns fns' cb')
    (h : a.Mirrors E O fns fns' b) (startIndex : Int) (next : UInt8) :
    Agree (ResultMirrors E O fns fns' Eq) (renderTag fns cb startIndex next a)
      (renderTag fns' cb' startIndex next b) := by
  refine Agree.ite Iff.rfl (fun _ => ?_) (fun _ => ?_)
  · exact renderVariable_mirrors hcb h _ _ fun c a b h => writeRaw_mirrors c h
  refine Agree.ite Iff.rfl (fun _ => renderStacheLoop_mirrors hcb h _)
    (fun _ => ?_)
  refine Agree.ite Iff.rfl (fun _ => renderStacheEnd_mirrors hcb h)
    (fun _ => ?_)
  refine Agree.ite Iff.rfl (fun _ => renderStacheLoop_mirrors hcb h _)
    (fun _ => ?_)
  refine Agree.ite Iff.rfl (fun _ => renderStacheDelimiters_mirrors hcb h)
    (fun _ => ?_)
  refine Agree.ite Iff.rfl (fun _ => renderStacheComment_mirrors hcb h)
    (fun _ => ?_)
  refine Agree.ite Iff.rfl (fun _ => renderStachePartial_mirrors hcb h _)
    (fun _ => ?_)
  have hback : Buffer.Mirrors E O fns fns' { a with index := a.index - 1 }
      { b with index := b.index - 1 } :=
    { h with index := congrArg (· - 1) h.index }
  exact renderVariable_mirrors hcb hback _ _ fun c a b h =>
    writeEscaped_mirrors c h

theorem renderStache_mirrors (hcb : cb.Mirrors E O fns fns' cb')
    (h : a.Mirrors E O fns fns' b) (startIndex : Int) :
    Agree (ResultMirrors E O fns fns' Eq) (renderStache fns cb startIndex a)
      (renderStache fns' cb' startIndex b) := by
  refine Agree.ite (by rw [bufferEof_mirrors h])
    (fun _ => Agree.pure (h.fail _)) (fun _ => ?_)
  rw [bufferItem_mirrors h]
  refine (Agree.refl (bufferItem b)).bind ?_
  rintro next _ rfl
  refine (bufferNext_mirrors hcb h).bind ?_
  rintro ⟨more, a⟩ ⟨_, b⟩ ⟨rfl, h⟩
  exact Agree.ite Iff.rfl (fun _ => renderTag_mirrors hcb h startIndex next)
    (fun _ => Agree.pure (h.fail _))

theorem renderStep_mirrors (hcb : cb.Mirrors E O fns fns' cb')
    (h : a.Mirrors E O fns fns' b) :
    Agree (StepMirrors E O fns fns' (ResultMirrors E O fns fns' Eq))
      (renderStep fns cb a) (renderStep fns' cb' b) := by
  refine Agree.ite (by rw [bufferEof_mirrors h])
    (fun _ => Agree.pure (.inr ⟨rfl, h⟩)) (fun _ => ?_)
  dsimp only
  rw [h.openDelimiter, h.index]
  refine (bufferLookAt_mirrors hcb h _).bind ?_
  rintro ⟨opened, a'⟩ ⟨_, b'⟩ ⟨rfl, h'⟩
  refine Agree.bind (R := ResultMirrors E O fns fns' Eq) ?_ ?_
  · refine Agree.ite Iff.rfl (fun _ => renderStache_mirrors hcb h' _)
      (fun _ => ?_)
    rw [bufferItem_mirrors h']
    refine (Agree.refl (bufferItem b')).bind ?_
    rintro c _ rfl
    exact bufferNext_mirrors hcb (bufferOutput_mirrors h' [c])
  · rintro ⟨result, a⟩ ⟨_, b⟩ ⟨rfl, h⟩
    cases result with
    | true => exact Agree.pure (.inl h)
    | false => exact Agree.pure (.inr ⟨rfl, h⟩)

/-- Two renderings have come to the same, up to what is behind the
callbacks. -/
structure Rendered.Mirrors (E : σ → σ' → Prop) (r : Rendered σ)
    (r' : Rendered σ') : Prop where
  code : r.code = r'.code
  output : r.output = r'.output
  onError : r.onError = r'.onError
  env : E r.env r'.env
  rejections : r.rejections = r'.rejections

theorem Buffer.Mirrors.rendered (h : a.Mirrors E O fns fns' b)
    (result : Bool) : (a.rendered result).Mirrors E (b.rendered result) := by
  have hreport : (a.rendered result).onError = (b.rendered result).onError := by
    have hloops : a.loops = [] ↔ b.loops = [] := by
      constructor
      · intro ha
        exact List.forall₂_nil_left_iff.mp (ha ▸ h.loops)
      · intro hb
        exact List.forall₂_nil_right_iff.mp (hb ▸ h.loops)
    simp only [Buffer.rendered, hloops, h.index, h.error]
  refine ⟨?_, h.output, hreport, h.env, h.rejections⟩
  exact congrArg (fun report : Option (String × Int) =>
    if report.isNone then 0 else -1) hreport

theorem newBuffer_mirrors {env : σ} {env' : σ'} (henv : E env env')
    {input : InputStream τ} {input' : InputStream τ'}
    (hinput : input.Mirrors fns fns' input') (data : Int → UInt8) :
    (newBuffer env input data : Buffer σ ο τ).Mirrors E O fns fns'
      (newBuffer env' input' data) :=
  ⟨henv, fun _ => hinput, fun _ => .nil, rfl, rfl, rfl, rfl, rfl, .nil, rfl,
    rfl, rfl, rfl, rfl⟩

/-- Rendering does not notice what is behind its input and its callback. -/
theorem render_mirrors (hcb : cb.Mirrors E O fns fns' cb') {env : σ}
    {env' : σ'} (henv : E env env') {input : InputStream τ}
    {input' : InputStream τ'} (hinput : input.Mirrors fns fns' input')
    (data : Int → UInt8) :
    Agree (Rendered.Mirrors E) (render fns cb env input data)
      (render fns' cb' env' input' data) := by
  refine (bufferNext_mirrors hcb (newBuffer_mirrors henv hinput data)).bind ?_
  rintro ⟨more, a⟩ ⟨_, b⟩ ⟨rfl, h⟩
  refine Agree.ite Iff.rfl (fun _ => ?_) (fun _ => ?_)
  · refine (Agree.loop (R := Buffer.Mirrors E O fns fns')
      (fun a b h => renderStep_mirrors hcb h) h).bind ?_
    rintro ⟨result, a⟩ ⟨_, b⟩ ⟨rfl, h⟩
    exact Agree.pure (h.rendered result)
  · exact Agree.pure { h.rendered false with onError := rfl }

/-- The engine stands at a delimiter tag with this text. -/
def Buffer.AtDelimiters (fns : StreamFns τ) (cb : Callback σ ο τ)
    (buffer : Buffer σ ο τ) (text : Bytes) : Prop :=
  ∃ start name after, buffer.TagAt fns cb (ascii '=') start ∧
    Returns (parseName fns cb (some [ascii '=']) start) (some name, after) ∧
    name.bytes = text

/-- The scan of a delimiter tag stays inside its text: every one that the
rendering meets has a blank. -/
def DelimitersSpaced (fns : StreamFns τ) (cb : Callback σ ο τ) (env : σ)
    (input : InputStream τ) (data : Int → UInt8) : Prop :=
  ∀ buffer text, Rendering fns cb env input data buffer →
    buffer.AtDelimiters fns cb text → text.any isBlank = true

/-- A rendering that has come to its end met no other delimiter tag. -/
theorem DelimitersSpaced.of_returns {env : σ} {input : InputStream τ}
    {data : Int → UInt8} {r : Rendered σ}
    (h : Returns (render fns cb env input data) r) :
    DelimitersSpaced fns cb env input data := by
  rintro buffer text hbuffer ⟨start, name, after, htag, hparse, rfl⟩
  obtain ⟨result, last, htemplate, -⟩ := hbuffer.returns h
  obtain ⟨o, hstep⟩ : ∃ o, Returns (renderStep fns cb buffer) o := by
    rcases returns_loop_iff.mp htemplate with ⟨next, hstep, -⟩ | hstep
    · exact ⟨_, hstep⟩
    · exact ⟨_, hstep⟩
  obtain ⟨r, hdelimiters, -⟩ := htag.step hstep
  have hdelimiters : Returns (renderStacheDelimiters fns cb start) r :=
    hdelimiters
  rw [renderStacheDelimiters, hparse.bind_iff] at hdelimiters
  obtain ⟨scanned, hscan, -⟩ := returns_bind.mp hdelimiters
  rw [scanDelimiters] at hscan
  split at hscan
  next hblank => exact hblank
  next => exact absurd hscan not_returns_undefined

theorem Buffer.Mirrors.tagAt (hcb : cb.Mirrors E O fns fns' cb')
    (h : a.Mirrors E O fns fns' b) {c : UInt8} {start' : Buffer σ' ο' τ'}
    (htag : b.TagAt fns' cb' c start') :
    ∃ start, a.TagAt fns cb c start ∧ start.Mirrors E O fns fns' start' := by
  obtain ⟨hlive, opened', hlook', hopened, hitem, hnext'⟩ := htag
  rw [← bufferEof_mirrors h] at hlive
  obtain ⟨⟨looked, opened⟩, hlook, hlooked, hmirrors⟩ :=
    (bufferLookAt_mirrors hcb h b.openDelimiter).back _ hlook'
  cases hlooked
  rw [← h.openDelimiter] at hlook
  rw [← bufferEof_mirrors hmirrors] at hopened
  rw [← bufferItem_mirrors hmirrors] at hitem
  obtain ⟨⟨more, start⟩, hnext, hmore, hstart⟩ :=
    (bufferNext_mirrors hcb hmirrors).back _ hnext'
  cases hmore
  exact ⟨start, ⟨hlive, opened, hlook, hopened, hitem, hnext⟩, hstart⟩

theorem Buffer.Mirrors.atDelimiters (hcb : cb.Mirrors E O fns fns' cb')
    (h : a.Mirrors E O fns fns' b) {text : Bytes}
    (ht : b.AtDelimiters fns' cb' text) : a.AtDelimiters fns cb text := by
  obtain ⟨start', name, after', htag', hparse', htext⟩ := ht
  obtain ⟨start, htag, hstart⟩ := h.tagAt hcb htag'
  obtain ⟨⟨name', after⟩, hparse, hname, -⟩ :=
    (parseName_mirrors hcb hstart (some [ascii '='])).back _ hparse'
  cases hname
  exact ⟨start, name, after, htag, hparse, htext⟩

section

variable {env : σ} {env' : σ'} {input : InputStream τ}
  {input' : InputStream τ'} {data : Int → UInt8}

theorem Rendering.mirrors (hcb : cb.Mirrors E O fns fns' cb')
    (henv : E env env') (hinput : input.Mirrors fns fns' input')
    (h : Rendering fns' cb' env' input' data b) :
    ∃ a, Rendering fns cb env input data a ∧ a.Mirrors E O fns fns' b := by
  obtain ⟨first', hfirst', hreach⟩ := h
  obtain ⟨⟨more, first⟩, hfirst, hmore, hmirrors⟩ := (bufferNext_mirrors hcb
    (newBuffer_mirrors henv hinput data)).back _ hfirst'
  cases hmore
  refine hreach.invariant (I := fun b => ∃ a,
    Rendering fns cb env input data a ∧ a.Mirrors E O fns fns' b) ?_
    ⟨first, ⟨first, hfirst, Reaches.refl first⟩, hmirrors⟩
  rintro s s' ⟨a, ⟨first, hfirst, hreach⟩, hmirrors⟩ hstep'
  obtain ⟨o, hstep, hafter⟩ := (renderStep_mirrors hcb hmirrors).back _ hstep'
  cases hafter with
  | inl hafter =>
      exact ⟨_, ⟨first, hfirst, hreach.trans (Reaches.step hstep)⟩, hafter⟩

theorem DelimitersSpaced.mirrors (hcb : cb.Mirrors E O fns fns' cb')
    (henv : E env env') (hinput : input.Mirrors fns fns' input')
    (h : DelimitersSpaced fns cb env input data) :
    DelimitersSpaced fns' cb' env' input' data := by
  intro b text hb ht
  obtain ⟨a, ha, hmirrors⟩ := hb.mirrors hcb henv hinput
  exact h a text ha (hmirrors.atDelimiters hcb ht)

end

end Engine

/-- A callback that has the texts of its partials. -/
structure TextCallback (σ ο : Type) where
  resolve : σ → Bytes → Lookup ο × σ
  stringGet : ο → Option (σ → Option Bytes × σ)
  stringFree : ο → Option (σ → Bool × σ)
  listGet : ο → Option (σ → Int → Bool × σ)
  listClose : ο → Option (σ → Bool × σ)
  partialGet : ο → Option (σ → Option Bytes × σ)
  partialFree : ο → Option (σ → Bool × σ)

/-- The callback that hands these texts over in some way. -/
def TextCallback.through (cb : TextCallback σ ο) (way : σ → Bytes → Delivery) :
    Callback σ ο LibraryStream where
  resolve := cb.resolve
  stringGet := cb.stringGet
  stringFree := cb.stringFree
  listGet := cb.listGet
  listClose := cb.listClose
  streamGet object := (cb.partialGet object).map fun get env =>
    ((get env).1.map fun text => (way env text).stream text, (get env).2)
  streamFree := cb.partialFree

/-- The texts of the partials can be handed over so, and none is empty. -/
def TextCallback.Allows (cb : TextCallback σ ο) (way : σ → Bytes → Delivery) :
    Prop :=
  ∀ object get env text, cb.partialGet object = some get →
    (get env).1 = some text → text ≠ [] ∧ (way env text).Of text

theorem callMirrors_refl {β : Type} (f : Option (σ → β × σ)) :
    Option.Rel (CallMirrors Eq Eq) f f := by
  cases f with
  | none => exact .none
  | some f =>
      refine .some ?_
      rintro e _ rfl
      exact ⟨rfl, rfl⟩

/-- Two ways to hand over the same texts mirror each other. -/
theorem TextCallback.through_mirrors {cb : TextCallback σ ο}
    {way way' : σ → Bytes → Delivery} (hway : cb.Allows way)
    (hway' : cb.Allows way') :
    (cb.through way).Mirrors Eq Eq libraryFns libraryFns (cb.through way') where
  resolve := by
    rintro e _ name rfl
    refine ⟨?_, rfl⟩
    change Lookup.Mirrors Eq (cb.resolve e name).1 (cb.resolve e name).1
    cases (cb.resolve e name).1 with
    | notFound => exact .notFound
    | string o => exact .string rfl
    | list o => exact .list rfl
    | stream o => exact .stream rfl
    | invalid => exact .invalid
  stringGet := by
    rintro o _ rfl
    exact callMirrors_refl _
  stringFree := by
    rintro o _ rfl
    exact callMirrors_refl _
  listGet := by
    rintro o _ rfl
    change Option.Rel _ (cb.listGet o) (cb.listGet o)
    cases cb.listGet o with
    | none => exact .none
    | some f =>
        refine .some fun n => ?_
        rintro e _ rfl
        exact ⟨rfl, rfl⟩
  listClose := by
    rintro o _ rfl
    exact callMirrors_refl _
  streamGet := by
    rintro o _ rfl
    change Option.Rel _ ((cb.partialGet o).map _) ((cb.partialGet o).map _)
    cases hget : cb.partialGet o with
    | none => exact .none
    | some get =>
        refine .some ?_
        rintro e _ rfl
        refine ⟨?_, rfl⟩
        dsimp only
        cases htext : (get e).1 with
        | none => exact .none
        | some text =>
            obtain ⟨hne, hof⟩ := hway o get e text hget htext
            obtain ⟨-, hof'⟩ := hway' o get e text hget htext
            exact .some ⟨hof.presents.mirrors hof'.presents,
              hof.presents.streamEmpty_eq hne hof'.presents⟩
  streamFree := by
    rintro o _ rfl
    exact callMirrors_refl _

/-- However a template and its partials are handed over, rendering meets the
same delimiter tags, and where these have a blank it comes to the same. -/
theorem render_delivered {cb : TextCallback σ ο}
    {way way' : σ → Bytes → Delivery} (hway : cb.Allows way)
    (hway' : cb.Allows way') {template : Bytes} {delivery delivery' : Delivery}
    (hof : delivery.Of template) (hof' : delivery'.Of template) (env : σ)
    (data : Int → UInt8) :
    (DelimitersSpaced libraryFns (cb.through way) env
        (delivery.stream template) data ↔
      DelimitersSpaced libraryFns (cb.through way') env
        (delivery'.stream template) data) ∧
    (DelimitersSpaced libraryFns (cb.through way) env
        (delivery.stream template) data →
      Agree (Rendered.Mirrors Eq)
        (render libraryFns (cb.through way) env (delivery.stream template)
          data)
        (render libraryFns (cb.through way') env (delivery'.stream template)
          data)) := by
  have hcb := TextCallback.through_mirrors hway hway'
  have hback := TextCallback.through_mirrors hway' hway
  have hinput := hof.presents.mirrors hof'.presents
  refine ⟨⟨fun h => h.mirrors hcb rfl hinput, fun h => ?_⟩, fun _ => ?_⟩
  · exact h.mirrors hback rfl (hof'.presents.mirrors hof.presents)
  · exact render_mirrors hcb rfl hinput data

/-- A callback with the partial `p`, which has a delimiter tag. -/
def onePartial : TextCallback Unit Unit where
  resolve env name :=
    (if name = chars "p" then .stream () else .string (), env)
  stringGet _ := some fun env => (some (chars "b"), env)
  stringFree _ := some fun env => (true, env)
  listGet _ := none
  listClose _ := none
  partialGet _ := some fun env => (some (chars "a{{v}}{{=c d=}}"), env)
  partialFree _ := some fun env => (true, env)

/-- The template `{{>p}}.`, from a string and in two reads. -/
theorem render_delivered_reads :
    ∃ r r' : Rendered Unit, Returns (render libraryFns
        (onePartial.through fun _ text => .descriptor [text] fun _ => 0) ()
        ((Delivery.descriptor [(chars "{{>p}}.").take 3,
          (chars "{{>p}}.").drop 3] fun _ => 0).stream
          (chars "{{>p}}.")) fun _ => 0) r' ∧
      r.Mirrors Eq r' ∧ r.output = chars "ab" ∧ r.onError = some
        ("invalid delimiter change: missing closing equal sign", 15) := by
  have hway : onePartial.Allows fun _ _ => .string := by
    rintro object get env text hget htext
    cases hget
    cases htext
    exact ⟨by decide, (by decide : (0 : UInt8) ∉ chars "a{{v}}{{=c d=}}")⟩
  have hway' : onePartial.Allows
      fun _ text => .descriptor [text] fun _ => 0 := by
    rintro object get env text hget htext
    cases hget
    cases htext
    exact ⟨by decide, rfl, by decide⟩
  have hof : Delivery.string.Of (chars "{{>p}}.") :=
    (by decide : (0 : UInt8) ∉ chars "{{>p}}.")
  have hof' : (Delivery.descriptor
      [(chars "{{>p}}.").take 3, (chars "{{>p}}.").drop 3] fun _ => 0).Of
        (chars "{{>p}}.") := ⟨rfl, by decide⟩
  have hrun : Returns (render libraryFns (onePartial.through fun _ _ => .string)
      () (Delivery.string.stream (chars "{{>p}}.")) fun _ => 0) _ := ⟨100, rfl⟩
  obtain ⟨r', hr', hsame⟩ := ((render_delivered hway hway' hof hof' ()
    fun _ => 0).2 (.of_returns hrun)).forth _ hrun
  exact ⟨_, r', hr', hsame, rfl, rfl⟩

end Libcad
