/-
What a failing rendering drops.  Nothing is released after the step that fails,
so its objects are settled when, once its tag has been read, no section over a
list is open, no partial is pending, and the answer to the tag is used.
-/
import Libcad.StacheNameless
import Libcad.StacheReleases

namespace Libcad

open Proc Ledger

variable {σ ο τ : Type}

section

variable (fns : StreamFns τ) (cb : Callback σ ο τ)

def readName (c : UInt8) (buffer : Buffer σ ο τ) :
    Proc (Option NameBlock × Buffer σ ο τ) :=
  if c = ascii '{' then parseName fns cb (some [ascii '}']) buffer
  else if c = ascii '=' then parseName fns cb (some [ascii '=']) buffer
  else if c ∈ [ascii '#', ascii '/', ascii '^', ascii '>'] then
    parseName fns cb none buffer
  else parseName fns cb none { buffer with index := buffer.index - 1 }

/-- What an iteration of `render_template` reads before it does anything: a tag
with a name, if one is complete, and the buffer behind it. -/
def readTag (buffer : Buffer σ ο τ) :
    Proc (Option (UInt8 × Bytes) × Buffer σ ο τ) :=
  if bufferEof buffer then pure (none, buffer)
  else do
    let (opened, buffer) ← bufferLookAt fns cb buffer.openDelimiter buffer
    if !opened || bufferEof buffer then pure (none, buffer)
    else do
      let c ← bufferItem buffer
      let (more, buffer) ← bufferNext fns cb buffer
      if !more then pure (none, buffer)
      else if c = ascii '!' then do
        let (_, buffer) ← renderStacheComment fns cb buffer
        pure (none, buffer)
      else do
        let (name, buffer) ← readName fns cb c buffer
        pure (name.map fun name => (c, name.string), buffer)

end

/-- The tags `render_stache_raw` and `render_stache_escape` are called for. -/
def IsVariable (c : UInt8) : Prop :=
  c ∉ [ascii '#', ascii '/', ascii '^', ascii '=', ascii '!', ascii '>']

instance (c : UInt8) : Decidable (IsVariable c) :=
  inferInstanceAs (Decidable (_ ∉ _))

theorem IsVariable.ne {c d : UInt8} (hc : IsVariable c)
    (hd : ¬ IsVariable d) : c ≠ d := by
  rintro rfl
  exact hd hc

/-- None of the objects has a function that releases it. -/
def Unreleasable (owned : List Owned) : Prop :=
  ∀ o ∈ owned, o.releasable = false

/-- The open sections, but for the innermost one where the tag closes it. -/
def Buffer.sectionsAt (tag : Option (UInt8 × Bytes)) (buffer : Buffer σ ο τ) :
    List (StacheLoop ο) :=
  match tag, buffer.loops with
  | some (c, name), loop :: loops =>
      if c = ascii '/' ∧ name = loop.name then loops else loop :: loops
  | _, loops => loops

/-- The pending partials; the byte read in the place of a partial tag that is
refused ends a partial that has come to its end. -/
def Buffer.partialsAt (fns : StreamFns τ) (tag : Option (UInt8 × Bytes))
    (buffer : Buffer σ ο τ) : List (StachePartial ο τ) :=
  match tag, buffer.partials with
  | some (c, _), part :: partials =>
      if c = ascii '>' ∧ buffer.eof = false ∧
          part.stream.item fns = Libcad.eof then
        partials
      else part :: partials
  | _, partials => partials

/-- The tag has no use for the answer to its name: a variable for a list or a
partial, and at the end of the input a partial tag for something to include. -/
def Buffer.Wastes (cb : Callback σ ο τ) (tag : Option (UInt8 × Bytes))
    (buffer : Buffer σ ο τ) (lookup : Lookup ο) : Prop :=
  ∃ c name env, tag = some (c, name) ∧
    cb.resolve buffer.env name = (lookup, env) ∧
    ((IsVariable c ∧ name ≠ [] ∧
        ∃ resolved, lookup = .list resolved ∨ lookup = .stream resolved) ∨
      (c = ascii '>' ∧ buffer.eof = true ∧ ∃ result stream after,
        Returns (openPartial cb lookup (buffer.setEnv env))
          (result, some stream, after)))

/-- Once the tag has been read, nothing that can be released is left to the
engine. -/
structure HandsFree (fns : StreamFns τ) (cb : Callback σ ο τ)
    (tag : Option (UInt8 × Bytes)) (buffer : Buffer (Traced σ) (Nat × ο) τ) :
    Prop where
  sections : ∀ loop ∈ buffer.sectionsAt tag, Unreleasable (loop.owned cb)
  partials : ∀ part ∈ buffer.partialsAt fns tag,
    Unreleasable (part.lookup.owned cb)
  answer : ∀ lookup, buffer.Wastes cb.traced tag lookup →
    Unreleasable (lookup.owned cb)

section

variable {fns : StreamFns τ} {cb : Callback σ ο τ} {c : UInt8}
  {tag : Option (UInt8 × Bytes)}
  {before start read last : Buffer (Traced σ) (Nat × ο) τ}

theorem unreleasable_append {owned owned' : List Owned} :
    Unreleasable (owned ++ owned') ↔
      Unreleasable owned ∧ Unreleasable owned' :=
  List.forall_mem_append

theorem unreleasable_flatMap {α : Type} {l : List α} {f : α → List Owned} :
    Unreleasable (l.flatMap f) ↔ ∀ a ∈ l, Unreleasable (f a) := by
  simp only [Unreleasable, List.mem_flatMap, forall_exists_index, and_imp]
  exact ⟨fun h a ha o ho => h o a ha ho, fun h o a ha ho => h a ha o ho⟩

theorem unreleasable_ownedBy {loops : List (StacheLoop (Nat × ο))}
    {partials : List (StachePartial (Nat × ο) τ)} :
    Unreleasable (ownedBy cb loops partials) ↔
      (∀ loop ∈ loops, Unreleasable (loop.owned cb)) ∧
        ∀ part ∈ partials, Unreleasable (part.lookup.owned cb) := by
  rw [ownedBy, unreleasable_append, unreleasable_flatMap, unreleasable_flatMap]

/-- Where the tag wastes nothing, the sections and the partials count. -/
theorem handsFree_iff (hnone : ∀ lookup, ¬ read.Wastes cb.traced tag lookup) :
    HandsFree fns cb tag read ↔ Unreleasable
      (ownedBy cb (read.sectionsAt tag) (read.partialsAt fns tag)) := by
  rw [unreleasable_ownedBy]
  exact ⟨fun h => ⟨h.sections, h.partials⟩,
    fun h => ⟨h.1, h.2, fun lookup hwastes => absurd hwastes (hnone lookup)⟩⟩

theorem Buffer.sectionsAt_eq (hc : ∀ name, tag ≠ some (ascii '/', name)) :
    read.sectionsAt tag = read.loops := by
  rw [sectionsAt.eq_def]
  split
  next hloops =>
    rw [if_neg (fun h => hc _ (congrArg (fun c => some (c, _)) h.1)), hloops]
  next => rfl

theorem Buffer.partialsAt_eq (hc : ∀ name, tag ≠ some (ascii '>', name)) :
    read.partialsAt fns tag = read.partials := by
  rw [partialsAt.eq_def]
  split
  next hpartials =>
    rw [if_neg (fun h => hc _ (congrArg (fun c => some (c, _)) h.1)), hpartials]
  next => rfl

theorem Buffer.partialsAt_ended (heof : read.eof = true) :
    read.partialsAt fns tag = read.partials := by
  rw [partialsAt.eq_def]
  split
  next hpartials =>
    have hlive : ¬ read.eof = false := Bool.not_eq_false _ ▸ heof
    rw [if_neg (fun h => hlive h.2.1), hpartials]
  next => rfl

/-- A tag that is no variable and includes nothing wastes no answer. -/
theorem Buffer.not_wastes (hvariable : ¬ IsVariable c)
    (hincluding : c ≠ ascii '>') {name : Bytes} (lookup : Lookup (Nat × ο)) :
    ¬ read.Wastes cb.traced (some (c, name)) lookup := by
  rintro ⟨c', name', env, htag, -, hwastes⟩
  cases htag
  rcases hwastes with ⟨hc, -⟩ | ⟨hc, -⟩
  · exact hvariable hc
  · exact hincluding hc

/-- A variable has a use for what is no list and no partial. -/
theorem Buffer.not_wastes_used (hincluding : c ≠ ascii '>') {name : Bytes}
    {lookup : Lookup (Nat × ο)} {t : Traced σ}
    (hresolve : cb.traced.resolve read.env name = (lookup, t))
    (hused : ∀ o, lookup ≠ .list o ∧ lookup ≠ .stream o)
    (lookup' : Lookup (Nat × ο)) :
    ¬ read.Wastes cb.traced (some (c, name)) lookup' := by
  rintro ⟨c', name', env, htag, hresolve', ⟨-, -, o, ho⟩ | ⟨hc, -⟩⟩
  · cases htag
    cases hresolve.symm.trans hresolve'
    exact ho.elim (hused o).1 (hused o).2
  · cases htag
    exact hincluding hc

theorem Buffer.not_wastes_none (lookup : Lookup (Nat × ο)) :
    ¬ read.Wastes cb.traced none lookup := by
  rintro ⟨c, name, env, htag, -⟩
  cases htag

/-- Nothing but the error and the state behind the callback differs in what the
engine holds. -/
structure SameHands (cb : Callback σ ο τ)
    (read last : Buffer (Traced σ) (Nat × ο) τ) : Prop where
  harmless : Harmless last.error
  owned : ownedBy cb last.loops last.partials =
    ownedBy cb read.loops read.partials

theorem SameHands.unreleasable (h : SameHands cb read last) :
    Unreleasable (last.owned cb) ↔
      Unreleasable (ownedBy cb read.loops read.partials) := by
  rw [last.owned_eq h.harmless, h.owned]

/-- Without a whole tag, what is held is held on. -/
theorem SameHands.unnamed (h : SameHands cb read last) :
    Unreleasable (last.owned cb) ↔ HandsFree fns cb none read := by
  rw [h.unreleasable, handsFree_iff Buffer.not_wastes_none]
  rfl

/-- The same for a tag that is read and then not accepted. -/
theorem SameHands.named (h : SameHands cb read last) {name : Bytes}
    (hend : c ≠ ascii '/') (hincluding : c ≠ ascii '>')
    (hnone : ∀ lookup, ¬ read.Wastes cb.traced (some (c, name)) lookup) :
    Unreleasable (last.owned cb) ↔
      HandsFree fns cb (some (c, name)) read := by
  rw [h.unreleasable, handsFree_iff hnone, Buffer.sectionsAt_eq,
    Buffer.partialsAt_eq]
  · rintro name' heq
    cases heq
    exact hincluding rfl
  · rintro name' heq
    cases heq
    exact hend rfl

/-- A variable that was answered with a list or a partial. -/
theorem Running.wasted (h : Running cb read) (hc : IsVariable c)
    {name : Bytes} {error : String} {lookup : Lookup (Nat × ο)} {o : Nat × ο}
    {t : Traced σ} (hname : name ≠ [])
    (hlookup : lookup = .list o ∨ lookup = .stream o)
    (hresolve : cb.traced.resolve read.env name = (lookup, t))
    (herror : error = "unexpected list" ∨ error = "unexpected partial") :
    Unreleasable (Buffer.owned cb { read with env := t, error := error }) ↔
      HandsFree fns cb (some (c, name)) read := by
  have hmisused : Buffer.Misused { read with env := t, error := error } :=
    herror
  have hopen : error ≠ "could not close loop list" := by
    rcases herror with rfl | rfl <;> decide
  rw [Buffer.owned, Buffer.misused, if_pos hmisused, Buffer.unclosed,
    if_neg hopen]
  dsimp only
  rw [← last_owned hlookup h.accounts hresolve, unreleasable_append,
    unreleasable_ownedBy]
  have hsections : read.sectionsAt (some (c, name)) = read.loops := by
    refine Buffer.sectionsAt_eq fun name' heq => ?_
    cases heq
    exact hc.ne (by decide) rfl
  have hpartials : read.partialsAt fns (some (c, name)) = read.partials := by
    refine Buffer.partialsAt_eq fun name' heq => ?_
    cases heq
    exact hc.ne (by decide) rfl
  constructor
  · rintro ⟨hanswer, hloops, hparts⟩
    refine ⟨hsections ▸ hloops, hpartials ▸ hparts, ?_⟩
    rintro lookup' ⟨c', name', env', htag, hresolve', -⟩
    cases htag
    cases hresolve.symm.trans hresolve'
    exact hanswer
  · intro hfree
    refine ⟨hfree.answer lookup ⟨c, name, t, rfl, hresolve,
      Or.inl ⟨hc, hname, o, hlookup⟩⟩, ?_, ?_⟩
    · exact hsections ▸ hfree.sections
    · exact hpartials ▸ hfree.partials

theorem renderVariable_drops {suffix : Option Bytes} {invalidName : String}
    {write : Option Bytes → Buffer (Traced σ) (Nat × ο) τ →
      Proc (Buffer (Traced σ) (Nat × ο) τ)}
    (hinvalid : Harmless invalidName) (hwrite : OnlyWrites write)
    (hc : IsVariable c) (hstart : Running cb start)
    (h : Returns (renderVariable fns cb.traced suffix invalidName write start)
      (false, last)) :
    ∃ name read, Returns (parseName fns cb.traced suffix start)
        (some name, read) ∧
      (Unreleasable (last.owned cb) ↔
        HandsFree fns cb (some (c, name.string)) read) := by
  have hend : c ≠ ascii '/' := hc.ne (by decide)
  have hincluding : c ≠ ascii '>' := hc.ne (by decide)
  obtain ⟨⟨name, read⟩, hparse, h⟩ := returns_bind.mp h
  cases name with
  | none => cases returns_pure.mp h
  | some name =>
      have hread := hstart.reads (parseName_some (Int.le_refl _) hparse)
      refine ⟨name, read, hparse, ?_⟩
      dsimp only at h
      split at h
      next hempty =>
        cases returns_pure.mp h
        have hhands : SameHands cb read (read.fail invalidName).2 :=
          ⟨hinvalid, rfl⟩
        refine hhands.named hend hincluding ?_
        rintro lookup ⟨c', name', env, htag, -, ⟨-, hname, -⟩ | ⟨hc', -⟩⟩
        · cases htag
          exact hname hempty
        · cases htag
          exact hincluding hc'
      next hname =>
        rcases hresolve : cb.traced.resolve read.env name.string with
          ⟨lookup, t⟩
        have hwaste := Buffer.not_wastes_used hincluding hresolve
        rw [Buffer.resolve_eq hresolve] at h
        cases lookup with
        | notFound => cases returns_pure.mp h
        | string o =>
            have hfreed : Harmless "could not free string" := by decide
            obtain ⟨⟨text, got⟩, hget, h⟩ := returns_bind.mp h
            obtain ⟨get, -, -, rfl⟩ := call_returns_some hget
            obtain ⟨written, hwritten, h⟩ := returns_bind.mp h
            obtain ⟨output, rfl⟩ := hwrite hwritten
            obtain ⟨⟨freed, called⟩, hcall, h⟩ := returns_bind.mp h
            obtain ⟨free, -, -, rfl⟩ := call_returns_some hcall
            cases freed with
            | true => cases returns_pure.mp h
            | false =>
                cases returns_pure.mp h
                have hhands : SameHands cb read { read with
                    env := callEnv (cb.traced.stringFree o)
                      (callEnv (cb.traced.stringGet o) t),
                    output := output, error := "could not free string" } :=
                  ⟨hfreed, rfl⟩
                refine hhands.named hend hincluding (hwaste fun o => ?_)
                constructor <;> rintro ⟨⟩
        | list o =>
            cases returns_pure.mp h
            exact hread.wasted hc hname (Or.inl rfl) hresolve (Or.inl rfl)
        | stream o =>
            cases returns_pure.mp h
            exact hread.wasted hc hname (Or.inr rfl) hresolve (Or.inr rfl)
        | invalid =>
            have herror : Harmless "invalid type" := by decide
            cases returns_pure.mp h
            have hhands : SameHands cb read
                { read with env := t, error := "invalid type" } :=
              ⟨herror, rfl⟩
            refine hhands.named hend hincluding (hwaste fun o => ?_)
            constructor <;> rintro ⟨⟩

theorem renderStacheLoop_drops {type : LoopType}
    (hc : c ∈ [ascii '#', ascii '^']) (hstart : Running cb start)
    (h : Returns (renderStacheLoop fns cb.traced type start) (false, last)) :
    ∃ name read, Returns (parseName fns cb.traced none start)
        (some name, read) ∧
      (Unreleasable (last.owned cb) ↔
        HandsFree fns cb (some (c, name.string)) read) := by
  obtain ⟨⟨name, read⟩, hparse, h⟩ := returns_bind.mp h
  cases name with
  | none => cases returns_pure.mp h
  | some name =>
      have hread := hstart.reads (parseName_some (Int.le_refl _) hparse)
      refine ⟨name, read, hparse, ?_⟩
      rcases hresolve : cb.traced.resolve read.env name.string with ⟨lookup, t⟩
      obtain ⟨result, empty, error, hopen, herror⟩ :=
        openLoop_env fns cb.traced lookup (read.setEnv t)
      dsimp only at h
      rw [Buffer.resolve_eq hresolve] at h
      dsimp only at h
      rw [hopen] at h
      cases returns_pure.mp h
      have hplain : ∀ o, lookup ≠ .list o := by
        rintro o rfl
        cases hopen
      refine SameHands.named ⟨harmless_of hread.harmless herror, ?_⟩ ?_ ?_ ?_
      · have hnone : StacheLoop.owned cb
            ⟨type, name.string, lookup, read.index, 0, empty⟩ = [] := by
          rw [StacheLoop.owned]
          split
          next o heq => exact absurd heq (hplain o)
          next => rfl
        rw [ownedBy, List.flatMap_cons]
        exact congrArg (· ++ _ ++ _) hnone
      · rintro rfl
        exact absurd hc (by decide)
      · rintro rfl
        exact absurd hc (by decide)
      · refine Buffer.not_wastes (fun hvariable => hvariable ?_) ?_
        · rcases List.mem_cons.mp hc with rfl | hc
          · decide
          · rw [List.mem_singleton.mp hc]
            decide
        · rintro rfl
          exact absurd hc (by decide)

/-- The end tag of another section, or of a list that refuses to close. -/
theorem renderStacheEnd_drops
    (h : Returns (renderStacheEnd fns cb.traced start) (false, last)) :
    ∃ name read, Returns (parseName fns cb.traced none start)
        (some name, read) ∧
      (Unreleasable (last.owned cb) ↔
        HandsFree fns cb (some (ascii '/', name.string)) read) := by
  have hnone : Harmless "closing non-open loop" := by decide
  have hother : Harmless
      "closing loop name different from opening loop name" := by decide
  obtain ⟨⟨name, read⟩, hparse, h⟩ := returns_bind.mp h
  cases name with
  | none => cases returns_pure.mp h
  | some name =>
      refine ⟨name, read, hparse, ?_⟩
      have hwaste := @Buffer.not_wastes _ _ _ cb (ascii '/') read
        (fun hvariable => hvariable (by decide)) (by decide) name.string
      have hpartials : read.partialsAt fns (some (ascii '/', name.string)) =
          read.partials := Buffer.partialsAt_eq fun name' heq => by cases heq
      rw [handsFree_iff hwaste, hpartials, Buffer.sectionsAt.eq_def]
      dsimp only at h ⊢
      cases hloops : read.loops with
      | nil =>
          rw [hloops] at h
          cases returns_pure.mp h
          have hhands : SameHands cb read (read.fail _).2 := ⟨hnone, rfl⟩
          have hiff := hhands.unreleasable
          rwa [hloops] at hiff
      | cons loop loops =>
          rw [hloops] at h
          dsimp only at h ⊢
          split at h
          next hname =>
            cases returns_pure.mp h
            have hhands : SameHands cb read (read.fail _).2 := ⟨hother, rfl⟩
            have hiff := hhands.unreleasable
            rw [hloops] at hiff
            rwa [if_neg (fun heq => hname heq.2)]
          next hname =>
            rw [if_pos ⟨rfl, not_not.mp hname⟩]
            cases hlookup : loop.lookup with
            | list o =>
                rw [hlookup] at h
                obtain ⟨⟨found, asked⟩, hnext, h⟩ := returns_bind.mp h
                have hnext : Returns (listNext cb.traced o loop.next.loopIndex
                    { read with loops := loop.next :: loops } loop.type)
                    (found, asked) := hnext
                obtain ⟨t, rfl, -⟩ := listNext_asks hnext
                cases found with
                | true => cases returns_pure.mp h
                | false =>
                    obtain ⟨closed, hcalled, -⟩ := callOr_release
                      ({ read with loops := loop.next :: loops }.setEnv t)
                      (cb.traced.listClose o)
                    dsimp only at h
                    rw [if_neg Bool.false_ne_true, hcalled] at h
                    cases closed with
                    | true => cases returns_pure.mp h
                    | false =>
                        cases returns_pure.mp h
                        exact Iff.rfl
            | notFound | string o | stream o | invalid =>
                rw [hlookup] at h
                cases returns_pure.mp h

theorem renderStacheDelimiters_drops
    (h : Returns (renderStacheDelimiters fns cb.traced start) (false, last)) :
    ∃ name read, Returns (parseName fns cb.traced (some [ascii '=']) start)
        (name, read) ∧
      (Unreleasable (last.owned cb) ↔ HandsFree fns cb
        (name.map fun name => (ascii '=', name.string)) read) := by
  obtain ⟨⟨name, read⟩, hparse, h⟩ := returns_bind.mp h
  refine ⟨name, read, hparse, ?_⟩
  cases name with
  | none =>
      cases returns_pure.mp h
      obtain ⟨read, hread, -, rfl⟩ := parseName_none (Int.le_refl _) hparse
      have herror : Harmless "Unclosed or invalid 'stache" := by decide
      exact SameHands.unnamed ⟨herror, rfl⟩
  | some name =>
      obtain ⟨scanned, hscan, h⟩ := returns_bind.mp h
      cases scanned with
      | ok delimiters => cases returns_pure.mp h
      | error error =>
          cases returns_pure.mp h
          have hhands : SameHands cb read (read.fail error).2 :=
            ⟨scanDelimiters_harmless hscan, rfl⟩
          refine hhands.named (by decide) (by decide) (Buffer.not_wastes ?_ ?_)
          · exact fun hvariable => hvariable (by decide)
          · decide

/-- The byte read in the place of a partial tag ends a partial that has come to
its end. -/
theorem bufferNext_pending {more : Bool} (name : Bytes)
    (hlive : read.eof = false) (hplace : read.index + 1 = read.fill)
    (h : Returns (bufferNext fns cb.traced read) (more, last)) :
    last.loops = read.loops ∧ last.partials.map StachePartial.lookup =
      (read.partialsAt fns (some (ascii '>', name))).map
        StachePartial.lookup := by
  refine ⟨(bufferNext_step h).loops, ?_⟩
  rw [bufferNext, if_neg (Bool.not_eq_true _ ▸ hlive)] at h
  dsimp only at h
  rw [if_pos hplace] at h
  obtain ⟨fetched, hfetch, h⟩ := returns_bind.mp h
  cases returns_pure.mp h
  obtain ⟨capacity, hgrown⟩ := Buffer.grow_step
    { read with index := read.index + 1 }
  rw [hgrown, bufferFetch] at hfetch
  rw [Buffer.partialsAt.eq_def]
  cases hpartials : read.partials with
  | nil =>
      rw [hpartials] at hfetch
      cases returns_pure.mp hfetch
      rw [bufferRead]
      dsimp only
      split <;> rfl
  | cons part partials =>
      rw [hpartials] at hfetch
      dsimp only at hfetch ⊢
      rw [bufferReadPartial] at hfetch
      dsimp only at hfetch
      split at hfetch
      next hended =>
        rw [if_pos ⟨rfl, hlive, hended⟩]
        split at hfetch
        next =>
          obtain ⟨⟨freed, called⟩, hcall, hfetch⟩ := returns_bind.mp hfetch
          cases returns_pure.mp hfetch
          rfl
        next =>
          obtain ⟨⟨freed, called⟩, hcall, hfetch⟩ := returns_bind.mp hfetch
          cases returns_pure.mp hfetch
          rfl
        all_goals
          cases returns_pure.mp hfetch
          rfl
      next hmore =>
        rw [if_neg fun h => hmore h.2.2]
        cases returns_pure.mp hfetch
        rfl

theorem unreleasable_lookups {partials partials' :
      List (StachePartial (Nat × ο) τ)}
    (h : partials.map StachePartial.lookup =
      partials'.map StachePartial.lookup) :
    (∀ part ∈ partials, Unreleasable (part.lookup.owned cb)) ↔
      ∀ part ∈ partials', Unreleasable (part.lookup.owned cb) := by
  have hlookups (l : List (StachePartial (Nat × ο) τ)) :
      (∀ part ∈ l, Unreleasable (part.lookup.owned cb)) ↔
        ∀ lookup ∈ l.map StachePartial.lookup,
          Unreleasable (lookup.owned cb) := by
    rw [List.forall_mem_map]
  rw [hlookups, hlookups, h]

theorem openPartial_refuses {cb : Callback σ ο τ} {lookup : Lookup ο}
    {stream : Option (InputStream τ)} {buffer after : Buffer σ ο τ}
    (h : Returns (openPartial cb lookup buffer) (false, stream, after)) :
    stream = none := by
  cases lookup with
  | notFound | invalid => cases returns_pure.mp h
  | list resolved =>
      obtain ⟨⟨closed, called⟩, hcall, h⟩ := returns_bind.mp h
      cases returns_pure.mp h
      rfl
  | string resolved =>
      obtain ⟨⟨c, got⟩, hget, h⟩ := returns_bind.mp h
      cases c with
      | some c => cases returns_pure.mp h
      | none =>
          obtain ⟨⟨freed, called⟩, hcall, h⟩ := returns_bind.mp h
          cases returns_pure.mp h
  | stream resolved =>
      obtain ⟨⟨s, got⟩, hget, h⟩ := returns_bind.mp h
      cases s with
      | some s => cases returns_pure.mp h
      | none =>
          obtain ⟨⟨freed, called⟩, hcall, h⟩ := returns_bind.mp h
          cases returns_pure.mp h

/-- At the end of the input a partial tag wastes what it finds. -/
theorem wastes_partial_iff {name : Bytes} {lookup : Lookup (Nat × ο)}
    {t : Traced σ} {result : Bool} {stream : Option (InputStream τ)}
    (hresolve : cb.traced.resolve read.env name = (lookup, t))
    (hopen : Returns (openPartial cb.traced lookup (read.setEnv t))
      (result, stream, last)) (lookup' : Lookup (Nat × ο)) :
    read.Wastes cb.traced (some (ascii '>', name)) lookup' ↔
      lookup' = lookup ∧ read.eof = true ∧ stream.isSome := by
  constructor
  · rintro ⟨c, name', t', htag, hresolve', ⟨hc, -⟩ | ⟨-, heof, hsome⟩⟩
    · cases htag
      exact absurd (show ascii '>' ∈ _ by decide) hc
    · cases htag
      cases hresolve.symm.trans hresolve'
      obtain ⟨result', found, after, hfound⟩ := hsome
      cases hopen.unique hfound
      exact ⟨rfl, heof, rfl⟩
  · rintro ⟨rfl, heof, hsome⟩
    obtain ⟨found, rfl⟩ := Option.isSome_iff_exists.mp hsome
    exact ⟨_, name, t, rfl, hresolve,
      Or.inr ⟨rfl, heof, result, found, last, hopen⟩⟩

theorem not_wastes_inclusion {name : Bytes} {lookup : Lookup (Nat × ο)}
    {t : Traced σ} {result : Bool}
    (hresolve : cb.traced.resolve read.env name = (lookup, t))
    (hopen : Returns (openPartial cb.traced lookup (read.setEnv t))
      (result, none, last)) (lookup' : Lookup (Nat × ο)) :
    ¬ read.Wastes cb.traced (some (ascii '>', name)) lookup' := by
  rw [wastes_partial_iff hresolve hopen]
  rintro ⟨-, -, hsome⟩
  cases hsome

theorem Buffer.sectionsAt_inclusion (name : Bytes) :
    read.sectionsAt (some (ascii '>', name)) = read.loops :=
  sectionsAt_eq fun name' heq => by cases heq

/-- At the end of the input, what was found for a partial tag is pending. -/
theorem partialEnded_drops {name : Bytes} {lookup : Lookup (Nat × ο)}
    {t : Traced σ} {result : Bool} {stream : Option (InputStream τ)}
    (heof : read.eof = true)
    (hresolve : cb.traced.resolve read.env name = (lookup, t))
    (hopen : Returns (openPartial cb.traced lookup (read.setEnv t))
      (result, stream, last)) (s : InputStream τ) (save : UInt8) :
    Unreleasable (ownedBy cb read.loops
        (if stream.isSome then ⟨lookup, s, save⟩ :: read.partials
          else read.partials)) ↔
      HandsFree fns cb (some (ascii '>', name)) read := by
  have hsections : read.sectionsAt (some (ascii '>', name)) = read.loops :=
    Buffer.sectionsAt_inclusion name
  have hpartials : read.partialsAt fns (some (ascii '>', name)) =
      read.partials := Buffer.partialsAt_ended heof
  cases stream with
  | none =>
      rw [handsFree_iff (not_wastes_inclusion hresolve hopen), hsections,
        hpartials]
      exact Iff.rfl
  | some found =>
      rw [Option.isSome_some, if_pos rfl, unreleasable_ownedBy,
        List.forall_mem_cons]
      constructor
      · rintro ⟨hloops, hanswer, hparts⟩
        refine ⟨hsections ▸ hloops, hpartials ▸ hparts, ?_⟩
        intro lookup' hwasted
        rw [((wastes_partial_iff hresolve hopen lookup').mp hwasted).1]
        exact hanswer
      · intro hfree
        have hwasted := (wastes_partial_iff hresolve hopen lookup).mpr
          ⟨rfl, heof, rfl⟩
        exact ⟨hsections ▸ hfree.sections, hfree.answer lookup hwasted,
          hpartials ▸ hfree.partials⟩

/-- Where the tag is refused, the byte in its place is read. -/
theorem partialRefused_drops {name : Bytes} {lookup : Lookup (Nat × ο)}
    {place : Int} {t t' : Traced σ} {error : String} {result : Bool}
    {opened : Buffer (Traced σ) (Nat × ο) τ}
    (hresolve : cb.traced.resolve read.env name = (lookup, t))
    (hopen : Returns (openPartial cb.traced lookup (read.setEnv t))
      (result, none, opened))
    (hnext : Returns (bufferNext fns cb.traced { read with
      env := t', index := place - 1, fill := place, error := error })
      (true, last)) :
    Unreleasable (ownedBy cb last.loops last.partials) ↔
      HandsFree fns cb (some (ascii '>', name)) read := by
  have hlive := (bufferNext_more hnext).1
  have hplace : place - 1 + 1 = place := by omega
  obtain ⟨hloops, hlookups⟩ := bufferNext_pending name hlive hplace hnext
  rw [unreleasable_ownedBy, hloops, unreleasable_lookups hlookups,
    handsFree_iff (not_wastes_inclusion hresolve hopen), unreleasable_ownedBy,
    Buffer.sectionsAt_inclusion]
  exact Iff.rfl

/-- A partial tag that is refused, or that nothing can be read after. -/
theorem renderStachePartial_drops {place : Int} (hstart : Running cb start)
    (h : Returns (renderStachePartial fns cb.traced place start) (false, last)) :
    ∃ name read, Returns (parseName fns cb.traced none start)
        (some name, read) ∧
      (Unreleasable (last.owned cb) ↔
        HandsFree fns cb (some (ascii '>', name.string)) read) := by
  obtain ⟨⟨name, read⟩, hparse, h⟩ := returns_bind.mp h
  cases name with
  | none => cases returns_pure.mp h
  | some name =>
      have hread := hstart.reads (parseName_some (Int.le_refl _) hparse)
      refine ⟨name, read, hparse, ?_⟩
      rcases hresolve : cb.traced.resolve read.env name.string with ⟨lookup, t⟩
      dsimp only at h
      rw [Buffer.resolve_eq hresolve] at h
      obtain ⟨⟨result, stream, opened⟩, hopen, h⟩ := returns_bind.mp h
      have hrefused := fun (hfalse : result = false) =>
        openPartial_refuses (hfalse ▸ hopen)
      obtain ⟨t', error, hincludes, rfl, herror⟩ := openPartial_includes hopen
      obtain ⟨pushed, hpush, h⟩ := returns_bind.mp h
      obtain ⟨s, save, rfl⟩ := pushPartial_stacks hpush
      obtain ⟨⟨more, next⟩, hnext, h⟩ := returns_bind.mp h
      cases more with
      | false =>
          have hbug : Harmless "BUG: no next at partial start" := by decide
          have hended := bufferNext_fails hnext
          have heof : read.eof = true := hended
          rw [bufferNext, if_pos hended] at hnext
          cases returns_pure.mp hnext
          cases returns_pure.mp h
          rw [Buffer.owned_eq _ hbug]
          exact partialEnded_drops heof hresolve hopen s save
      | true =>
          cases returns_pure.mp h
          cases hrefused rfl
          have hnext : Returns (bufferNext fns cb.traced { read with
              env := t', index := place - 1, fill := place, error := error })
              (true, next) := hnext
          have haccounts := (includes_accounts
            (traced_resolve hread.accounts hresolve) hincludes).1
          have hopened : Running cb { read with
              env := t', index := place - 1, fill := place, error := error } :=
            ⟨haccounts, hread.included, harmless_of hread.harmless herror⟩
          rw [Buffer.owned_eq _ (hopened.next (bufferNext_step hnext)).harmless]
          exact partialRefused_drops hresolve hopen hnext

theorem renderTag_drops {place : Int} (hc : c ≠ ascii '!')
    (hstart : Running cb start)
    (h : Returns (renderTag fns cb.traced place c start) (false, last)) :
    ∃ name read, Returns (readName fns cb.traced c start) (name, read) ∧
      (Unreleasable (last.owned cb) ↔
        HandsFree fns cb (name.map fun name => (c, name.string)) read) := by
  have hnamed {suffix : Option Bytes}
      {parsed : Buffer (Traced σ) (Nat × ο) τ}
      (h : ∃ name read, Returns (parseName fns cb.traced suffix parsed)
        (some name, read) ∧ (Unreleasable (last.owned cb) ↔
          HandsFree fns cb (some (c, name.string)) read)) :
      ∃ name read, Returns (parseName fns cb.traced suffix parsed)
        (name, read) ∧ (Unreleasable (last.owned cb) ↔
          HandsFree fns cb (name.map fun name => (c, name.string)) read) := by
    obtain ⟨name, read, hparse, hiff⟩ := h
    exact ⟨some name, read, hparse, hiff⟩
  have hraw : Harmless "invalid raw name" := by decide
  have hescape : Harmless "invalid escape name" := by decide
  rw [renderTag] at h
  split at h
  next heq =>
    cases heq
    exact hnamed (renderVariable_drops hraw writeRaw_only (by decide) hstart h)
  next hraw =>
  split at h
  next heq =>
    cases heq
    exact hnamed (renderStacheLoop_drops (by decide) hstart h)
  next hwhile =>
  split at h
  next heq =>
    cases heq
    exact hnamed (renderStacheEnd_drops h)
  next hend =>
  split at h
  next heq =>
    cases heq
    exact hnamed (renderStacheLoop_drops (by decide) hstart h)
  next helse =>
  split at h
  next heq =>
    cases heq
    exact renderStacheDelimiters_drops h
  next hdelimiters =>
  split at h
  next heq =>
    cases heq
    exact hnamed (renderStachePartial_drops hstart h)
  next hincluding =>
    have hname : c ∉ [ascii '#', ascii '/', ascii '^', ascii '>'] := by
      simp only [List.mem_cons, List.not_mem_nil, or_false, not_or]
      exact ⟨hwhile, hend, helse, hincluding⟩
    have hvariable : IsVariable c := by
      rw [IsVariable]
      simp only [List.mem_cons, List.not_mem_nil, or_false, not_or]
      exact ⟨hwhile, hend, helse, hdelimiters, hc, hincluding⟩
    have hback : Running cb { start with index := start.index - 1 } :=
      ⟨hstart.accounts, hstart.included, hstart.harmless⟩
    rw [readName, if_neg hraw, if_neg hdelimiters, if_neg hname]
    exact hnamed
      (renderVariable_drops hescape writeEscaped_only hvariable hback h)

theorem readTag_ended {cb : Callback σ ο τ} {buffer : Buffer σ ο τ}
    (hended : bufferEof buffer = true) :
    Returns (readTag fns cb buffer) (none, buffer) := by
  rw [readTag, if_pos hended]
  exact returns_pure_self _

theorem readTag_text {cb : Callback σ ο τ} {buffer looked : Buffer σ ο τ}
    (hlive : bufferEof buffer = false)
    (hlook : Returns (bufferLookAt fns cb buffer.openDelimiter buffer)
      (false, looked)) :
    Returns (readTag fns cb buffer) (none, looked) := by
  rw [readTag, if_neg (Bool.not_eq_true _ ▸ hlive), hlook.bind_iff]
  exact returns_pure_self _

theorem Buffer.EndsTag.reads {cb : Callback σ ο τ}
    {buffer after : Buffer σ ο τ} (h : buffer.EndsTag fns cb after) :
    Returns (readTag fns cb buffer) (none, after) := by
  obtain ⟨hlive, opened, hlook, hcut⟩ := h
  rw [readTag, if_neg (Bool.not_eq_true _ ▸ hlive), hlook.bind_iff]
  rcases hcut with ⟨hended, rfl⟩ | ⟨hopened, ⟨c, hitem⟩, hnext⟩
  · dsimp only
    rw [hended]
    exact returns_pure_self _
  · dsimp only
    rw [hopened, if_neg (by decide), hitem.bind_iff, hnext.bind_iff]
    exact returns_pure_self _

/-- Behind the opening delimiter the byte decides. -/
theorem Buffer.TagAt.readTag_iff {cb : Callback σ ο τ}
    {buffer start after : Buffer σ ο τ} {tag : Option (UInt8 × Bytes)}
    (h : buffer.TagAt fns cb c start) :
    Returns (readTag fns cb buffer) (tag, after) ↔
      Returns (if c = ascii '!' then do
          let (_, buffer) ← renderStacheComment fns cb start
          pure (none, buffer)
        else do
          let (name, buffer) ← readName fns cb c start
          pure (name.map fun name => (c, name.string), buffer))
        (tag, after) := by
  obtain ⟨hlive, opened, hlook, hopened, hitem, hnext⟩ := h
  rw [readTag, if_neg (Bool.not_eq_true _ ▸ hlive), hlook.bind_iff]
  dsimp only
  rw [hopened, if_neg (by decide), hitem.bind_iff, hnext.bind_iff]
  dsimp only
  rw [if_neg (by decide)]

theorem Buffer.TagAt.skips {cb : Callback σ ο τ}
    {buffer start after : Buffer σ ο τ} {closed : Bool}
    (h : buffer.TagAt fns cb (ascii '!') start)
    (hcomment : Returns (renderStacheComment fns cb start) (closed, after)) :
    Returns (readTag fns cb buffer) (none, after) := by
  rw [h.readTag_iff, if_pos rfl, hcomment.bind_iff]
  exact returns_pure_self _

theorem Buffer.TagAt.reads {cb : Callback σ ο τ}
    {buffer start read : Buffer σ ο τ} {name : Option NameBlock}
    (h : buffer.TagAt fns cb c start) (hc : c ≠ ascii '!')
    (hname : Returns (readName fns cb c start) (name, read)) :
    Returns (readTag fns cb buffer)
      (name.map fun name => (c, name.string), read) := by
  rw [h.readTag_iff, if_neg hc, hname.bind_iff]
  exact returns_pure_self _

theorem renderStep_drops {result : Bool} (hbefore : Running cb before)
    (h : Returns (renderStep fns cb.traced before) (.inr (result, last))) :
    ∃ tag read, Returns (readTag fns cb.traced before) (tag, read) ∧
      (Unreleasable (last.owned cb) ↔ HandsFree fns cb tag read) := by
  rcases renderStep_cases h with ⟨hended, ho⟩ |
    ⟨hlive, looked, output, ⟨more, after⟩, hlook, hnext, ho⟩ |
    ⟨c, start, htag⟩ | ⟨after, hcut, ho⟩
  · cases ho
    have hhands : SameHands cb before before := ⟨hbefore.harmless, rfl⟩
    exact ⟨none, before, readTag_ended hended, hhands.unnamed⟩
  · cases more with
    | true => cases ho
    | false =>
        cases ho
        have hend : Harmless "Buffer end reached" := by decide
        rw [bufferNext, if_pos (bufferNext_fails hnext)] at hnext
        cases returns_pure.mp hnext
        have hhands : SameHands cb looked { looked with
            output := output, error := "Buffer end reached" } := ⟨hend, rfl⟩
        exact ⟨none, looked, readTag_text hlive hlook, hhands.unnamed⟩
  · obtain ⟨⟨going, after⟩, hr, ho⟩ := htag.step h
    have hstart : Running cb start := by
      obtain ⟨-, opened, hlook, -, -, hnext⟩ := htag
      exact (hbefore.reads (bufferLookAt_reads (Int.le_refl _) hlook)).next
        (bufferNext_step hnext)
    cases going with
    | true => cases ho
    | false =>
        cases ho
        by_cases hc : c = ascii '!'
        · cases hc
          have hskip : Returns (renderStacheComment fns cb.traced start)
              (false, after) := hr
          have hread := hstart.reads
            (renderStacheComment_reads (Int.le_refl _) hskip)
          have hhands : SameHands cb after after := ⟨hread.harmless, rfl⟩
          exact ⟨none, after, htag.skips hskip, hhands.unnamed⟩
        · obtain ⟨name, read, hname, hiff⟩ := renderTag_drops hc hstart hr
          exact ⟨_, read, htag.reads hc hname, hiff⟩
  · cases ho
    have hnothing : Harmless
        "Invalid 'stache: nothing found after 'stache opening" := by decide
    have hhands : SameHands cb after (after.fail
        "Invalid 'stache: nothing found after 'stache opening").2 :=
      ⟨hnothing, rfl⟩
    exact ⟨none, after, hcut.reads, hhands.unnamed⟩

/-- The step that ends `render_template`. -/
def Buffer.Leaves (fns : StreamFns τ) (cb : Callback σ ο τ)
    (buffer : Buffer σ ο τ) : Prop :=
  ∃ result last, Returns (renderStep fns cb buffer) (.inr (result, last))

end

section

variable {fns : StreamFns τ} {cb : Callback σ ο τ}
  {before read last : Buffer (Traced σ) (Nat × ο) τ} {env : σ}
  {input : InputStream τ} {data : Int → UInt8}

theorem Rendering.between
    (h : Rendering fns cb.traced ⟨env, Ledger.empty⟩ input data before) :
    Between cb before := by
  obtain ⟨first, hfirst, hreach⟩ := h
  exact hreach.invariant (fun _ _ hb hstep => hb.step hstep)
    (between_start hfirst)

/-- What is released in the end is decided before the last step acts. -/
theorem Rendering.settled_iff {result : Bool} {tag : Option (UInt8 × Bytes)}
    (h : Rendering fns cb.traced ⟨env, Ledger.empty⟩ input data before)
    (hstep : Returns (renderStep fns cb.traced before) (.inr (result, last)))
    (hread : Returns (readTag fns cb.traced before) (tag, read)) :
    Settled last.env.ledger.trace ↔ HandsFree fns cb tag read := by
  have hleft : Left cb (result, last) := h.between.step hstep
  obtain ⟨tag', read', hread', hiff⟩ :=
    renderStep_drops h.between.running hstep
  cases hread.unique hread'
  exact hleft.accounted.accounts.settled_iff.trans hiff

/-- A rendering has released every object, also if it fails, exactly when none
that can be released is left to the engine at its last tag. -/
theorem render_fails_releases_iff {r : Rendered (Traced σ)}
    (h : Returns (render fns cb.traced ⟨env, Ledger.empty⟩ input data) r) :
    Settled r.env.ledger.trace ↔ ∀ before tag read,
      Rendering fns cb.traced ⟨env, Ledger.empty⟩ input data before →
      before.Leaves fns cb.traced →
      Returns (readTag fns cb.traced before) (tag, read) →
      HandsFree fns cb tag read := by
  constructor
  · rintro hsettled before tag read hbefore ⟨result, last, hstep⟩ hread
    obtain ⟨result', last', htemplate, rfl⟩ := hbefore.returns h
    cases htemplate.unique (Returns.loop_exit hstep)
    exact (hbefore.settled_iff hstep hread).mp hsettled
  · intro hfree
    obtain ⟨before, result, last, hbefore, hstep, rfl⟩ := rendered_leaves h
    obtain ⟨tag, read, hread, -⟩ :=
      renderStep_drops hbefore.between.running hstep
    exact (hbefore.settled_iff hstep hread).mpr
      (hfree before tag read hbefore ⟨result, last, hstep⟩ hread)

/-- `{{v}}{{/x}}` fails with nothing left. -/
theorem render_fails_releases_string :
    ∃ r, Returns (render noStreams (answering stringAnswers).traced
        ⟨[], Ledger.empty⟩ (newInputStreamFromString (chars "{{v}}{{/x}}"))
        fun _ => 0) r ∧
      r.onError = some ("closing non-open loop", 11) ∧
      Settled r.env.ledger.trace := by
  have hrun : Returns (render noStreams (answering stringAnswers).traced
      ⟨[], Ledger.empty⟩ (newInputStreamFromString (chars "{{v}}{{/x}}"))
      fun _ => 0) _ := ⟨9, rfl⟩
  refine ⟨_, hrun, rfl, (render_fails_releases_iff hrun).mpr ?_⟩
  rintro before tag read ⟨first, hfirst, hreach⟩ ⟨result, last, hstep⟩ hread
  cases hfirst.unique ⟨0, rfl⟩
  rw [Reaches.next_iff ⟨9, rfl⟩, Reaches.exit_iff ⟨9, rfl⟩] at hreach
  rcases hreach with rfl | rfl
  · cases hstep.unique ⟨9, rfl⟩
  · cases hread.unique ⟨9, rfl⟩
    refine ⟨?_, ?_, ?_⟩
    · exact fun loop hmem => absurd hmem List.not_mem_nil
    · exact fun part hmem => absurd hmem List.not_mem_nil
    · have hvariable : ¬ IsVariable (ascii '/') := by decide
      exact fun lookup hwastes => absurd hwastes
        (Buffer.not_wastes hvariable (by decide) lookup)

/-- The list of a section that is not closed stays open. -/
theorem render_fails_not_releases :
    ∃ r, Returns (render noStreams (answering emptyListAnswers).traced
        ⟨[], Ledger.empty⟩ (newInputStreamFromString (chars "{{#l}}"))
        fun _ => 0) r ∧
      r.code = -1 ∧ ¬ Settled r.env.ledger.trace :=
  ⟨_, ⟨9, rfl⟩, rfl, fun h => absurd (h 0 (by decide)) (by decide)⟩

end

end Libcad
