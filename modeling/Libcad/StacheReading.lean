/-
Reading the buffer.  What is in the buffer, what the stacked partials still
hold and what is left of the input make up one text, which `buffer_next` goes
through byte by byte; popping an exhausted partial does not show in it.
-/
import Libcad.StacheServes

namespace Libcad

open Proc

variable {σ ο τ : Type}

/-- A stacked partial whose object can be released. -/
def Releasable : Lookup ο → Held ο τ → Prop
  | .string object, .string object' _ free => object = object' ∧ free.isSome
  | .stream object, .stream object' _ free => object = object' ∧ free.isSome
  | _, _ => False

/-- What is still to be read: each partial ends with the byte it saved. -/
def Pending (fns : StreamFns τ) (input : InputStream τ) :
    List (StachePartial ο τ) → List (Held ο τ) → Bytes → Prop
  | [], [], rest => input.Delivers fns rest
  | part :: partials, h :: held, rest =>
      Releasable part.lookup h ∧
        ∃ own tail, part.stream.Delivers fns own ∧
          rest = own ++ part.save :: tail ∧
          Pending fns input partials held tail
  | _, _, _ => False

/-- The buffer stands at byte `i` of the text `v`, of which `f` bytes have been
read. -/
structure Reading (fns : StreamFns τ) (R : Session σ ο τ)
    (lists : List (OpenList ο)) (v : Bytes) (i f : Nat)
    (buffer : Buffer σ ο τ) (held : List (Held ο τ)) : Prop where
  session : R buffer.env lists held
  index_eq : buffer.index = i
  fill_eq : buffer.fill = f
  fill_le : f ≤ v.length
  fill_le_capacity : (f : Int) ≤ buffer.capacity
  data : ∀ j, j < f → v[j]? = some (buffer.data j)
  live : buffer.eof = false →
    i < f ∧ Pending fns buffer.input buffer.partials held (v.drop f)
  ended : buffer.eof = true → f = v.length ∧ i ≤ f

/-- How much has been read once the buffer stands at byte `i`. -/
def readAhead (v : Bytes) (f i : Nat) : Nat := max f (min (i + 1) v.length)

/-- The fields that reading does not touch. -/
structure SameFrame (before after : Buffer σ ο τ) : Prop where
  loops : after.loops = before.loops
  output : after.output = before.output
  openDelimiter : after.openDelimiter = before.openDelimiter
  closeDelimiter : after.closeDelimiter = before.closeDelimiter

theorem SameFrame.refl (buffer : Buffer σ ο τ) : SameFrame buffer buffer :=
  ⟨rfl, rfl, rfl, rfl⟩

theorem SameFrame.trans {a b c : Buffer σ ο τ} (hab : SameFrame a b)
    (hbc : SameFrame b c) : SameFrame a c :=
  ⟨hbc.loops.trans hab.loops, hbc.output.trans hab.output,
    hbc.openDelimiter.trans hab.openDelimiter,
    hbc.closeDelimiter.trans hab.closeDelimiter⟩

/-- The buffer has been moved forward to byte `i`. -/
structure Moved (fns : StreamFns τ) (R : Session σ ο τ)
    (lists : List (OpenList ο)) (v : Bytes) (f i : Nat)
    (before after : Buffer σ ο τ) : Prop where
  reading : ∃ held, Reading fns R lists v i (readAhead v f i) after held
  eof_eq : after.eof = decide (i = v.length)
  frame : SameFrame before after

theorem readAhead_readAhead (v : Bytes) (f : Nat) {i j : Nat} (h : i ≤ j) :
    readAhead v (readAhead v f i) j = readAhead v f j := by
  rw [readAhead, readAhead, readAhead]
  omega

section

variable {fns : StreamFns τ} {cb : Callback σ ο τ} {R : Session σ ο τ} {lists : List (OpenList ο)} {v : Bytes} {i f : Nat}
  {buffer : Buffer σ ο τ} {held : List (Held ο τ)}

theorem Reading.eof_eq_false (h : Reading fns R lists v i f buffer held)
    (he : buffer.eof = false) : i < v.length :=
  Nat.lt_of_lt_of_le (h.live he).1 h.fill_le

theorem Reading.moved (h : Reading fns R lists v i f buffer held)
    (he : buffer.eof = false) : Moved fns R lists v f i buffer buffer := by
  have hi := (h.live he).1
  have hle := h.fill_le
  have hf : readAhead v f i = f := by
    rw [readAhead]
    omega
  refine ⟨⟨held, hf.symm ▸ h⟩, ?_, SameFrame.refl _⟩
  rw [he]
  have hne : i ≠ v.length := by omega
  simp [hne]

theorem Moved.trans {j : Nat} {after last : Buffer σ ο τ}
    (h : Moved fns R lists v f i buffer after)
    (h' : Moved fns R lists v (readAhead v f i) j after last) (hij : i ≤ j) :
    Moved fns R lists v f j buffer last := by
  obtain ⟨held', hr⟩ := h'.reading
  rw [readAhead_readAhead v f hij] at hr
  exact ⟨⟨held', hr⟩, h'.eof_eq, h.frame.trans h'.frame⟩

theorem Reading.item (h : Reading fns R lists v i f buffer held)
    (he : i < f) {c : UInt8} {rest : Bytes} (hc : v.drop i = c :: rest) :
    Returns (bufferItem buffer) c := by
  have hcap := h.fill_le_capacity
  have hget : v[i]? = some c := by
    rw [← List.head?_drop, hc]
    rfl
  have hdata := h.data i he
  rw [hget] at hdata
  have hbounds : 0 ≤ buffer.index ∧ buffer.index < buffer.capacity := by
    rw [h.index_eq]
    omega
  rw [bufferItem, if_pos hbounds, h.index_eq, ← Option.some.inj hdata]
  exact returns_pure_self _

/-- One byte of the text is put at the end of the buffer. -/
theorem put_data {data : Int → UInt8} {c : UInt8} {rest : Bytes}
    (hdata : ∀ j, j < f → v[j]? = some (data j))
    (hc : v.drop f = c :: rest) :
    ∀ j, j < f + 1 → v[j]? = some (Function.update data (f : Int) c j) := by
  intro j hj
  by_cases hjf : j = f
  · rw [hjf, Function.update_self, ← List.head?_drop, hc]
    rfl
  · have hne : (j : Int) ≠ f := by omega
    rw [Function.update_of_ne hne]
    exact hdata j (by omega)

/-- A buffer whose next byte has to be fetched. -/
structure Fetching (fns : StreamFns τ) (R : Session σ ο τ)
    (lists : List (OpenList ο)) (v : Bytes) (f : Nat)
    (buffer : Buffer σ ο τ) (held : List (Held ο τ)) : Prop where
  session : R buffer.env lists held
  index_eq : buffer.index = f
  fill_eq : buffer.fill = f
  fill_le : f ≤ v.length
  fill_lt_capacity : (f : Int) < buffer.capacity
  data : ∀ j, j < f → v[j]? = some (buffer.data j)
  eof_eq : buffer.eof = false
  pending : Pending fns buffer.input buffer.partials held (v.drop f)

theorem Fetching.put (h : Fetching fns R lists v f buffer held) {c : UInt8}
    {rest : Bytes} (hc : v.drop f = c :: rest) {after : Buffer σ ο τ}
    (held' : List (Held ο τ)) (hsession : R after.env lists held')
    (hindex : after.index = buffer.index)
    (hfill : after.fill = buffer.fill + 1)
    (hcapacity : after.capacity = buffer.capacity)
    (hdata : after.data = Function.update buffer.data buffer.fill c)
    (heof : after.eof = false)
    (hpending : Pending fns after.input after.partials held' rest)
    (hframe : SameFrame buffer after) :
    Moved fns R lists v f f buffer after := by
  have hlen : f < v.length := by
    by_contra hge
    rw [List.drop_eq_nil_of_le (by omega)] at hc
    cases hc
  have hahead : readAhead v f f = f + 1 := by
    rw [readAhead]
    omega
  have hrest : v.drop (f + 1) = rest := by
    rw [← List.tail_drop, hc]
    rfl
  have hcap := h.fill_lt_capacity
  refine ⟨⟨held', ?_⟩, ?_, hframe⟩
  · rw [hahead]
    refine ⟨hsession, hindex.trans h.index_eq, ?_, hlen, ?_, ?_, ?_, ?_⟩
    · rw [hfill, h.fill_eq]
      rfl
    · rw [hcapacity]
      omega
    · rw [hdata, h.fill_eq]
      exact put_data h.data hc
    · intro _
      rw [hrest]
      exact ⟨Nat.lt_succ_self f, hpending⟩
    · intro hend
      rw [heof] at hend
      cases hend
  · rw [heof]
    have hne : f ≠ v.length := by omega
    simp [hne]

theorem Fetching.fetch_input (h : Fetching fns R lists v f buffer held)
    (hp : buffer.partials = []) :
    ∃ after, Returns (bufferFetch fns cb buffer) after ∧
      Moved fns R lists v f f buffer after := by
  have hpending := h.pending
  rw [hp] at hpending
  cases held with
  | cons held₀ held => exact hpending.elim
  | nil =>
      have hdelivers : buffer.input.Delivers fns (v.drop f) := hpending
      refine ⟨bufferRead fns buffer, ?_, ?_⟩
      · rw [bufferFetch, hp]
        exact returns_pure_self _
      cases hrest : v.drop f with
      | nil =>
          have hitem : buffer.input.item fns = eof := by
            rw [hrest] at hdelivers
            exact hdelivers
          have hlen : f = v.length :=
            Nat.le_antisymm h.fill_le (List.drop_eq_nil_iff.mp hrest)
          have hahead : readAhead v f f = f := by
            rw [readAhead]
            omega
          rw [bufferRead, if_pos hitem]
          refine ⟨⟨[], ?_⟩, ?_, ⟨rfl, rfl, rfl, rfl⟩⟩
          · rw [hahead]
            refine ⟨h.session, h.index_eq, h.fill_eq, h.fill_le,
              Int.le_of_lt h.fill_lt_capacity, h.data, ?_, ?_⟩
            · intro hlive
              cases hlive
            · exact fun _ => ⟨hlen, Nat.le_refl f⟩
          · simp [hlen]
      | cons c rest =>
          rw [hrest] at hdelivers
          obtain ⟨hitem, hc, hnext, htail⟩ := hdelivers
          have hne : charToInt c ≠ eof := by
            rw [ne_eq, charToInt_eq_eof_iff]
            exact hc
          rw [bufferRead, hitem, if_neg hne]
          refine h.put hrest [] h.session rfl rfl rfl ?_ ?_ ?_
            ⟨rfl, rfl, rfl, rfl⟩
          · simp only [Buffer.put, intToChar_charToInt]
          · simp [hnext]
          · simp only [Buffer.put, hp]
            exact htail

/-- The end of a stacked partial: it is released, and the byte it saved is
read. -/
theorem Fetching.fetch_saved (hr : Releases cb R)
    {held₀ : Held ο τ} (h : Fetching fns R lists v f buffer (held₀ :: held))
    {part : StachePartial ο τ} {partials : List (StachePartial ο τ)}
    (hrelease : Releasable part.lookup held₀)
    (hitem : part.stream.item fns = eof) {tail : Bytes}
    (hrest : v.drop f = part.save :: tail)
    (hpending : Pending fns buffer.input partials held tail) :
    ∃ after, Returns (bufferReadPartial fns cb part partials buffer) after ∧
      Moved fns R lists v f f buffer after := by
  rcases part with ⟨lookup, stream, save⟩
  cases lookup with
  | notFound => exact hrelease.elim
  | list object => exact hrelease.elim
  | invalid => exact hrelease.elim
  | string object =>
      cases held₀ with
      | stream object' get free => exact hrelease.elim
      | string object' get free =>
          obtain ⟨rfl, hfree⟩ := hrelease
          obtain ⟨freed, rfl⟩ := Option.isSome_iff_exists.mp hfree
          obtain ⟨env, hcall, hsession⟩ := (hr.stringFree h.session).call buffer
          let after := Buffer.put
            { buffer.setEnv env with partials := partials } save
          have hmoved : Moved fns R lists v f f buffer after :=
            h.put hrest held hsession rfl rfl rfl rfl h.eof_eq hpending
              ⟨rfl, rfl, rfl, rfl⟩
          refine ⟨after, ?_, hmoved⟩
          rw [bufferReadPartial, if_pos hitem]
          exact hcall.bind (returns_pure_self _)
  | stream object =>
      cases held₀ with
      | string object' get free => exact hrelease.elim
      | stream object' get free =>
          obtain ⟨rfl, hfree⟩ := hrelease
          obtain ⟨freed, rfl⟩ := Option.isSome_iff_exists.mp hfree
          obtain ⟨env, hcall, hsession⟩ := (hr.streamFree h.session).call buffer
          let after := Buffer.put
            { buffer.setEnv env with partials := partials } save
          have hmoved : Moved fns R lists v f f buffer after :=
            h.put hrest held hsession rfl rfl rfl rfl h.eof_eq hpending
              ⟨rfl, rfl, rfl, rfl⟩
          refine ⟨after, ?_, hmoved⟩
          rw [bufferReadPartial, if_pos hitem]
          exact hcall.bind (returns_pure_self _)

theorem Fetching.fetch (hr : Releases cb R)
    (h : Fetching fns R lists v f buffer held) :
    ∃ after, Returns (bufferFetch fns cb buffer) after ∧
      Moved fns R lists v f f buffer after := by
  cases hp : buffer.partials with
  | nil => exact h.fetch_input hp
  | cons part partials =>
      have hpending := h.pending
      rw [hp] at hpending
      cases held with
      | nil => exact hpending.elim
      | cons held₀ held =>
          obtain ⟨hrelease, own, tail, hown, hrest, htail⟩ := hpending
          rw [bufferFetch, hp]
          cases own with
          | nil => exact h.fetch_saved hr hrelease hown hrest htail
          | cons c own =>
              obtain ⟨hitem, hc, hnext, hdelivers⟩ := hown
              have hne : charToInt c ≠ eof := by
                rw [ne_eq, charToInt_eq_eof_iff]
                exact hc
              let after : Buffer σ ο τ := { buffer.put c with
                partials :=
                  { part with stream := (part.stream.next fns).2 } :: partials,
                eof := decide ((part.stream.next fns).1 ≠ 0) }
              have hread : bufferReadPartial fns cb part partials buffer =
                  pure after := by
                rw [bufferReadPartial, hitem, if_neg hne, intToChar_charToInt]
              refine ⟨after, ?_, ?_⟩
              · change Returns (bufferReadPartial fns cb part partials buffer) _
                rw [hread]
                exact returns_pure_self _
              refine h.put hrest (held₀ :: held) h.session rfl rfl rfl ?_ ?_
                ?_ ⟨rfl, rfl, rfl, rfl⟩
              · rfl
              · simp [after, hnext]
              · exact ⟨hrelease, own, tail, hdelivers, rfl, htail⟩

theorem bufferNext_fetches (hr : Releases cb R)
    (hsession : R buffer.env lists held) (hindex : buffer.index + 1 = f)
    (hfill : buffer.fill = f) (hle : f ≤ v.length)
    (hcap : (f : Int) ≤ buffer.capacity) (hpos : 0 < buffer.capacity)
    (hdata : ∀ j, j < f → v[j]? = some (buffer.data j))
    (he : buffer.eof = false)
    (hpending : Pending fns buffer.input buffer.partials held (v.drop f)) :
    ∃ after, Returns (bufferNext fns cb buffer) (true, after) ∧
      Moved fns R lists v f f buffer after := by
  let fetching := Buffer.grow { buffer with index := buffer.index + 1 }
  have hfetching : Fetching fns R lists v f fetching held := by
    refine ⟨?_, ?_, ?_, hle, ?_, ?_, ?_, ?_⟩
    all_goals simp only [fetching, Buffer.grow]
    · split <;> exact hsession
    · split <;> exact hindex
    · split <;> exact hfill
    · split
      · rename_i hfull
        dsimp only at hfull ⊢
        omega
      · rename_i hfull
        dsimp only at hfull ⊢
        omega
    · split <;> exact hdata
    · split <;> exact he
    · split <;> exact hpending
  have hframe : SameFrame buffer fetching := by
    simp only [fetching, Buffer.grow]
    split <;> exact ⟨rfl, rfl, rfl, rfl⟩
  obtain ⟨after, hfetch, hmoved⟩ := hfetching.fetch hr
  refine ⟨after, ?_,
    ⟨hmoved.reading, hmoved.eof_eq, hframe.trans hmoved.frame⟩⟩
  rw [bufferNext, if_neg (by simp [he])]
  dsimp only
  rw [if_pos (hindex.trans hfill.symm)]
  exact hfetch.bind (returns_pure_self _)

/-- `buffer_next` on a live buffer moves it by one byte. -/
theorem Reading.next (hr : Releases cb R)
    (h : Reading fns R lists v i f buffer held) (he : buffer.eof = false) :
    ∃ after, Returns (bufferNext fns cb buffer) (true, after) ∧
      Moved fns R lists v f (i + 1) buffer after := by
  obtain ⟨hif, hpending⟩ := h.live he
  have hcap := h.fill_le_capacity
  by_cases hlast : i + 1 = f
  · have hindex : buffer.index + 1 = f := by
      rw [h.index_eq]
      omega
    rw [hlast]
    exact bufferNext_fetches hr h.session hindex h.fill_eq h.fill_le hcap
      (by omega) h.data he hpending
  · have hat : ¬ buffer.index + 1 = buffer.fill := by
      rw [h.index_eq, h.fill_eq]
      omega
    have hlen := h.fill_le
    have hahead : readAhead v f (i + 1) = f := by
      rw [readAhead]
      omega
    refine ⟨{ buffer with index := buffer.index + 1 }, ?_, ⟨held, ?_⟩, ?_,
      ⟨rfl, rfl, rfl, rfl⟩⟩
    · rw [bufferNext, he]
      simp only [Bool.false_eq_true, ↓reduceIte, hat]
      exact returns_pure_self _
    · rw [hahead]
      refine ⟨h.session, ?_, h.fill_eq, h.fill_le, hcap, h.data, ?_, ?_⟩
      · show buffer.index + 1 = ((i + 1 : Nat) : Int)
        rw [h.index_eq]
        rfl
      · exact fun _ => ⟨by omega, hpending⟩
      · intro hend
        rw [show buffer.eof = true from hend] at he
        cases he
    · have hne : i + 1 ≠ v.length := by omega
      show buffer.eof = _
      simp [he, hne]

theorem Moved.eof_eq_false {after : Buffer σ ο τ}
    (h : Moved fns R lists v f i buffer after) (hi : i < v.length) :
    after.eof = false := by
  rw [h.eof_eq]
  simp [Nat.ne_of_lt hi]

theorem lt_length_of_drop {c : UInt8} {rest : Bytes}
    (h : v.drop i = c :: rest) : i < v.length := by
  by_contra hge
  rw [List.drop_eq_nil_of_le (by omega)] at h
  cases h

theorem drop_succ {c : UInt8} {rest : Bytes} (h : v.drop i = c :: rest) :
    v.drop (i + 1) = rest := by
  rw [← List.tail_drop, h]
  rfl

theorem Reading.match (hr : Releases cb R) (expected : Bytes) :
    ∀ {i f : Nat} {buffer : Buffer σ ο τ} {held : List (Held ο τ)},
      Reading fns R lists v i f buffer held → buffer.eof = false →
      ∀ {rest : Bytes}, v.drop i = expected ++ rest →
      ∃ after, Returns (bufferMatch fns cb expected buffer) (true, after) ∧
        Moved fns R lists v f (i + expected.length) buffer after := by
  induction expected with
  | nil =>
      intro i f buffer held h he rest hrest
      exact ⟨buffer, returns_pure_self _, h.moved he⟩
  | cons c expected ih =>
      intro i f buffer held h he rest hrest
      obtain ⟨next, hnext, hmoved⟩ := h.next hr he
      have hitem := h.item (h.live he).1 hrest
      have htail : v.drop (i + 1) = expected ++ rest := drop_succ hrest
      have hlen : i + (c :: expected).length = i + 1 + expected.length := by
        rw [List.length_cons]
        omega
      have hfirst : ∀ {after}, Returns (bufferMatch fns cb expected next)
          (true, after) → Returns (bufferMatch fns cb (c :: expected) buffer)
          (true, after) := by
        intro after hafter
        rw [bufferMatch]
        refine hitem.bind ?_
        rw [if_pos rfl]
        refine hnext.bind ?_
        dsimp only
        rw [if_pos rfl]
        exact hafter
      cases expected with
      | nil =>
          exact ⟨next, hfirst (returns_pure_self _), hmoved⟩
      | cons d expected =>
          obtain ⟨held', hreading⟩ := hmoved.reading
          have hlive := hmoved.eof_eq_false (lt_length_of_drop htail)
          obtain ⟨after, hafter, hmoved'⟩ := ih hreading hlive htail
          refine ⟨after, hfirst hafter, ?_⟩
          rw [hlen]
          exact hmoved.trans hmoved' (by omega)

theorem Reading.lookAt (hr : Releases cb R)
    (h : Reading fns R lists v i f buffer held) (he : buffer.eof = false)
    {expected rest : Bytes} (hrest : v.drop i = expected ++ rest) :
    ∃ after, Returns (bufferLookAt fns cb expected buffer) (true, after) ∧
      Moved fns R lists v f (i + expected.length) buffer after := by
  obtain ⟨after, hmatch, hmoved⟩ := h.match hr expected he hrest
  exact ⟨after, hmatch.bind (returns_pure_self _), hmoved⟩

theorem Reading.lookAt_other (h : Reading fns R lists v i f buffer held)
    (hif : i < f) {c d : UInt8} {expected rest : Bytes}
    (hrest : v.drop i = c :: rest) (hne : c ≠ d) :
    Returns (bufferLookAt fns cb (d :: expected) buffer) (false, buffer) := by
  have hmatch : Returns (bufferMatch fns cb (d :: expected) buffer)
      (false, buffer) := by
    rw [bufferMatch]
    refine (h.item hif hrest).bind ?_
    rw [if_neg hne]
    exact returns_pure_self _
  exact hmatch.bind (returns_pure_self _)

theorem bufferEof_of_live (he : buffer.eof = false) :
    bufferEof buffer = false := by
  rw [bufferEof, he]
  rfl

theorem Reading.skipBlanks (h : Reading fns R lists v i f buffer held)
    (he : buffer.eof = false) {c : UInt8} {rest : Bytes}
    (hrest : v.drop i = c :: rest) (hc : isBlank c = false) :
    Returns (bufferSkipBlanks fns cb buffer) buffer := by
  apply Returns.loop_exit
  rw [skipBlanksStep, bufferEof_of_live he]
  refine (h.item (h.live he).1 hrest).bind ?_
  rw [hc]
  exact returns_pure_self _

/-- What follows a name: the suffix and the closing delimiter. -/
def nameEnd (suffix : Option Bytes) : Bytes := suffix.getD [] ++ tagClose

def SuffixValid (suffix : Option Bytes) : Prop := ∀ s ∈ suffix, ∃ d, s = [d]

theorem suffixValid_none : SuffixValid none := fun _ => nofun

theorem suffixValid_some (d : UInt8) : SuffixValid (some [d]) := by
  rintro s hs
  cases hs
  exact ⟨d, rfl⟩

theorem Reading.parse_byte (hr : Releases cb R)
    {suffix : Option Bytes} (hsuffix : SuffixValid suffix)
    (h : Reading fns R lists v i f buffer held) (he : buffer.eof = false)
    (hclose : buffer.closeDelimiter = tagClose) {c : UInt8} {rest : Bytes}
    (hrest : v.drop i = c :: rest) (hc : c ∉ nameEnd suffix)
    (name : NameBlock) :
    ∃ after, Returns (parseNameStep fns cb suffix (name, buffer))
        (.inl (name.push c, after)) ∧
      Moved fns R lists v f (i + 1) buffer after := by
  obtain ⟨after, hnext, hmoved⟩ := h.next hr he
  have hif := (h.live he).1
  have hsuffixed : Returns (bufferLookAtSuffix fns cb suffix buffer)
      (false, buffer) := by
    cases suffix with
    | none => exact returns_pure_self _
    | some s =>
        obtain ⟨d, rfl⟩ := hsuffix s rfl
        exact h.lookAt_other hif hrest (List.ne_of_not_mem_cons hc)
  have hclosed : Returns
      (bufferLookAt fns cb buffer.closeDelimiter buffer) (false, buffer) := by
    have hbrace : c ≠ ascii '}' := fun h => hc (h ▸ by simp [nameEnd, tagClose])
    rw [hclose]
    exact h.lookAt_other hif hrest hbrace
  refine ⟨after, ?_, hmoved⟩
  rw [parseNameStep]
  simp only [bufferEof_of_live he, Bool.false_eq_true, ↓reduceIte]
  refine hsuffixed.bind ?_
  rw [if_neg Bool.false_ne_true]
  refine hclosed.bind ?_
  rw [if_neg Bool.false_ne_true]
  refine (h.item hif hrest).bind (hnext.bind ?_)
  rw [if_pos rfl]
  exact returns_pure_self _

theorem Reading.parse_end (hr : Releases cb R)
    {suffix : Option Bytes} (hsuffix : SuffixValid suffix)
    (h : Reading fns R lists v i f buffer held) (he : buffer.eof = false)
    (hclose : buffer.closeDelimiter = tagClose) {rest : Bytes}
    (hrest : v.drop i = nameEnd suffix ++ rest) (name : NameBlock) :
    ∃ after, Returns (parseNameStep fns cb suffix (name, buffer))
        (.inr (some name, after)) ∧
      Moved fns R lists v f (i + (nameEnd suffix).length) buffer after := by
  cases suffix with
  | none =>
    obtain ⟨after, hlook, hmoved⟩ := h.lookAt hr he hrest
    refine ⟨after, ?_, hmoved⟩
    have hlook' : Returns (bufferLookAt fns cb buffer.closeDelimiter buffer)
        (true, after) := by
      rw [hclose]
      exact hlook
    rw [parseNameStep]
    simp only [bufferEof_of_live he, Bool.false_eq_true, ↓reduceIte]
    refine (returns_pure_self (false, buffer)).bind ?_
    rw [if_neg Bool.false_ne_true]
    refine hlook'.bind ?_
    rw [if_pos rfl]
    exact returns_pure_self _
  | some s =>
    obtain ⟨d, rfl⟩ := hsuffix s rfl
    have hrest' : v.drop i = [d] ++ (tagClose ++ rest) := hrest
    obtain ⟨mid, hlook, hmoved⟩ := h.lookAt hr he hrest'
    obtain ⟨held', hreading⟩ := hmoved.reading
    have htail : v.drop (i + 1) = tagClose ++ rest := drop_succ hrest'
    have hlive := hmoved.eof_eq_false (lt_length_of_drop htail)
    obtain ⟨after, hlook', hmoved'⟩ := hreading.lookAt hr hlive htail
    refine ⟨after, ?_, hmoved.trans hmoved' (by simp [nameEnd])⟩
    have hclosed : Returns (bufferLookAt fns cb mid.closeDelimiter mid)
        (true, after) := by
      rw [hmoved.frame.closeDelimiter, hclose]
      exact hlook'
    rw [parseNameStep]
    simp only [bufferEof_of_live he, Bool.false_eq_true, ↓reduceIte]
    refine hlook.bind ?_
    rw [if_pos rfl]
    refine hclosed.bind ?_
    exact returns_pure_self _

/-- The loop of `parse_name` over a name and its end. -/
theorem Reading.parse_loop (hr : Releases cb R)
    {suffix : Option Bytes} (hsuffix : SuffixValid suffix) (name : Bytes) :
    ∀ {i f : Nat} {buffer : Buffer σ ο τ} {held : List (Held ο τ)},
      Reading fns R lists v i f buffer held → buffer.eof = false →
      buffer.closeDelimiter = tagClose → (∀ c ∈ name, c ∉ nameEnd suffix) →
      ∀ {rest : Bytes}, v.drop i = name ++ nameEnd suffix ++ rest →
      ∀ block : NameBlock, ∃ block' after,
        Returns (loop (parseNameStep fns cb suffix) (block, buffer))
          (some block', after) ∧
        block'.bytes = block.bytes ++ name ∧
        Moved fns R lists v f (i + name.length + (nameEnd suffix).length)
          buffer after := by
  induction name with
  | nil =>
      intro i f buffer held h he hclose _ rest hrest block
      obtain ⟨after, hend, hmoved⟩ := h.parse_end hr hsuffix he hclose hrest block
      exact ⟨block, after, hend.loop_exit, (List.append_nil _).symm, hmoved⟩
  | cons c name ih =>
      intro i f buffer held h he hclose hends rest hrest block
      obtain ⟨hc, hname⟩ := List.forall_mem_cons.mp hends
      obtain ⟨next, hstep, hmoved⟩ :=
        h.parse_byte hr hsuffix he hclose hrest hc block
      obtain ⟨held', hreading⟩ := hmoved.reading
      have htail : v.drop (i + 1) = name ++ nameEnd suffix ++ rest :=
        drop_succ hrest
      have hlive : next.eof = false := by
        apply hmoved.eof_eq_false
        have hlen := congrArg List.length htail
        rw [List.length_drop, List.length_append, List.length_append,
          nameEnd, List.length_append] at hlen
        have htwo : tagClose.length = 2 := rfl
        omega
      obtain ⟨block', after, hloop, hbytes, hmoved'⟩ := ih hreading hlive
        (hmoved.frame.closeDelimiter.trans hclose) hname htail (block.push c)
      refine ⟨block', after, hstep.loop_next.mpr hloop, ?_, ?_⟩
      · rw [hbytes, NameBlock.push, List.append_assoc]
        rfl
      · have hall := hmoved.trans hmoved' (by omega)
        rw [List.length_cons]
        rw [show i + 1 + name.length = i + (name.length + 1) by omega] at hall
        exact hall

theorem Reading.parseText (hr : Releases cb R)
    {suffix : Option Bytes} (hsuffix : SuffixValid suffix)
    (h : Reading fns R lists v i f buffer held) (he : buffer.eof = false)
    (hclose : buffer.closeDelimiter = tagClose) {c : UInt8} {text rest : Bytes}
    (hends : ∀ b ∈ c :: text, b ∉ nameEnd suffix) (hblank : isBlank c = false)
    (hrest : v.drop i = c :: text ++ nameEnd suffix ++ rest) :
    ∃ block after, Returns (parseName fns cb suffix buffer)
        (some block, after) ∧ block.bytes = c :: text ∧
      Moved fns R lists v f (i + (c :: text).length + (nameEnd suffix).length)
        buffer after := by
  obtain ⟨block, after, hloop, hbytes, hmoved⟩ :=
    h.parse_loop hr hsuffix (c :: text) he hclose hends hrest ⟨[], 16⟩
  have hskip : Returns (bufferSkipBlanks fns cb buffer) buffer :=
    h.skipBlanks he hrest hblank
  exact ⟨block, after, hskip.bind (hloop.bind (returns_pure_self _)), hbytes,
    hmoved⟩

theorem Reading.parseName (hr : Releases cb R)
    {suffix : Option Bytes} (hsuffix : suffix = none ∨ suffix = some [ascii '}'])
    (h : Reading fns R lists v i f buffer held) (he : buffer.eof = false)
    (hclose : buffer.closeDelimiter = tagClose) {name rest : Bytes}
    (hname : NameValid name)
    (hrest : v.drop i = name ++ nameEnd suffix ++ rest) :
    ∃ block after, Returns (parseName fns cb suffix buffer)
        (some block, after) ∧ block.string = name ∧
      Moved fns R lists v f (i + name.length + (nameEnd suffix).length)
        buffer after := by
  have hvalid : SuffixValid suffix := by
    rcases hsuffix with rfl | rfl
    · exact suffixValid_none
    · exact suffixValid_some _
  have hends : ∀ b ∈ name, b ∉ nameEnd suffix := by
    intro b hb hmem
    have hbrace : b ≠ ascii '}' := fun h => hname.brace (h ▸ hb)
    rcases hsuffix with rfl | rfl
    · simp [nameEnd, tagClose, hbrace] at hmem
    · simp [nameEnd, tagClose, hbrace] at hmem
  obtain ⟨c, text, rfl⟩ := List.exists_cons_of_ne_nil hname.ne_nil
  obtain ⟨block, after, hparse, hbytes, hmoved⟩ :=
    h.parseText hr hvalid he hclose hends (hname.head c rfl) hrest
  refine ⟨block, after, hparse, ?_, hmoved⟩
  rw [NameBlock.string, hbytes]
  exact cString_of_not_mem fun hmem => (hname.readable 0 hmem).1 rfl

theorem Reading.renderComment (hr : Releases cb R) (text : Bytes) :
    ∀ {i f : Nat} {buffer : Buffer σ ο τ} {held : List (Held ο τ)},
      Reading fns R lists v i f buffer held → buffer.eof = false →
      buffer.closeDelimiter = tagClose → ascii '}' ∉ text →
      ∀ {rest : Bytes}, v.drop i = text ++ tagClose ++ rest →
      ∃ after, Returns (renderStacheComment fns cb buffer) (true, after) ∧
        Moved fns R lists v f (i + text.length + 2) buffer after := by
  induction text with
  | nil =>
      intro i f buffer held h he hclose _ rest hrest
      obtain ⟨after, hlook, hmoved⟩ := h.lookAt hr he hrest
      refine ⟨after, Returns.loop_exit ?_, hmoved⟩
      rw [commentStep, hclose]
      exact hlook.bind (returns_pure_self _)
  | cons c text ih =>
      intro i f buffer held h he hclose hbrace rest hrest
      obtain ⟨hc, htext⟩ := List.ne_and_not_mem_of_not_mem_cons hbrace
      obtain ⟨next, hnext, hmoved⟩ := h.next hr he
      obtain ⟨held', hreading⟩ := hmoved.reading
      have htail : v.drop (i + 1) = text ++ tagClose ++ rest :=
        drop_succ hrest
      have hlive : next.eof = false := by
        apply hmoved.eof_eq_false
        have hlen := congrArg List.length htail
        rw [List.length_drop, List.length_append, List.length_append] at hlen
        have htwo : tagClose.length = 2 := rfl
        omega
      obtain ⟨after, hcomment, hmoved'⟩ := ih hreading hlive
        (hmoved.frame.closeDelimiter.trans hclose) htext htail
      refine ⟨after, ?_, ?_⟩
      · have hstep : Returns (commentStep fns cb buffer) (.inl next) := by
          have hother : Returns
              (bufferLookAt fns cb buffer.closeDelimiter buffer)
              (false, buffer) := by
            rw [hclose]
            exact h.lookAt_other (h.live he).1 hrest (Ne.symm hc)
          rw [commentStep]
          refine hother.bind ?_
          dsimp only
          rw [if_neg Bool.false_ne_true]
          refine hnext.bind ?_
          dsimp only
          rw [if_pos rfl]
          exact returns_pure_self _
        exact hstep.loop_next.mpr hcomment
      · have hall := hmoved.trans hmoved' (by omega)
        rw [List.length_cons]
        rw [show i + 1 + text.length = i + (text.length + 1) by omega] at hall
        exact hall

/-- The fields that are written besides the text. -/
theorem Reading.congr {lists' : List (OpenList ο)}
    (h : Reading fns R lists v i f buffer held) {after : Buffer σ ο τ}
    (hsession : R after.env lists' held) (hinput : after.input = buffer.input)
    (hdata : after.data = buffer.data) (hindex : after.index = buffer.index)
    (hfill : after.fill = buffer.fill)
    (hcapacity : after.capacity = buffer.capacity)
    (heof : after.eof = buffer.eof)
    (hpartials : after.partials = buffer.partials) :
    Reading fns R lists' v i f after held := by
  refine ⟨hsession, hindex.trans h.index_eq, hfill.trans h.fill_eq,
    h.fill_le, hcapacity ▸ h.fill_le_capacity, hdata ▸ h.data, ?_, ?_⟩
  · rw [heof, hinput, hpartials]
    exact h.live
  · rw [heof]
    exact h.ended

/-- What an iteration of `render_template` makes of the result of a tag. -/
def stepOutcome (r : Bool × Buffer σ ο τ) :
    Buffer σ ο τ ⊕ (Bool × Buffer σ ο τ) :=
  if r.1 then .inl r.2 else .inr (false, r.2)

/-- The opening delimiter and the byte after it are read, and lead to
`render_stache`'s switch. -/
theorem Reading.opens (hr : Releases cb R)
    (h : Reading fns R lists v i f buffer held) (he : buffer.eof = false)
    (hopen : buffer.openDelimiter = tagOpen) {next : UInt8} {rest : Bytes}
    (hrest : v.drop i = tagOpen ++ next :: rest) (hne : rest ≠ []) :
    ∃ opened start,
      Returns (bufferLookAt fns cb tagOpen buffer) (true, opened) ∧
      Returns (bufferNext fns cb opened) (true, start) ∧
      Moved fns R lists v f (i + 3) buffer start ∧
      start.eof = false ∧ v.drop (i + 3) = rest ∧
      ∀ o, Returns (renderStep fns cb buffer) o ↔
        Returns (renderTag fns cb buffer.index next start >>= fun r =>
          pure (stepOutcome r)) o := by
  obtain ⟨opened, hlookAt, hmoved⟩ := h.lookAt hr he hrest
  obtain ⟨held₁, hreading⟩ := hmoved.reading
  have hopened : v.drop (i + 2) = next :: rest := by
    rw [← List.drop_drop, hrest]
    rfl
  have he₁ := hmoved.eof_eq_false (lt_length_of_drop hopened)
  have hitem := hreading.item (hreading.live he₁).1 hopened
  obtain ⟨start, hnext, hmoved'⟩ := hreading.next hr he₁
  have hstart := drop_succ hopened
  have he₂ : start.eof = false := by
    apply hmoved'.eof_eq_false
    cases rest with
    | nil => exact absurd rfl hne
    | cons c rest => exact lt_length_of_drop hstart
  refine ⟨opened, start, hlookAt, hnext,
    hmoved.trans hmoved' (Nat.le_succ _), he₂, hstart, ?_⟩
  intro o
  have hstache : ∀ r, Returns (renderStache fns cb buffer.index opened) r ↔
      Returns (renderTag fns cb buffer.index next start) r := by
    intro r
    rw [renderStache, bufferEof_of_live he₁, if_neg Bool.false_ne_true,
      hitem.bind_iff, hnext.bind_iff]
    exact Iff.rfl
  have hlook : Returns (bufferLookAt fns cb buffer.openDelimiter buffer)
      (true, opened) := by
    rw [hopen]
    exact hlookAt
  rw [renderStep, bufferEof_of_live he, if_neg Bool.false_ne_true,
    hlook.bind_iff]
  dsimp only
  rw [if_pos rfl, returns_bind, returns_bind]
  exact exists_congr fun r => and_congr_left' (hstache r)

/-- An opening delimiter leads to `render_stache`'s switch. -/
theorem Reading.renderStep_tag (hr : Releases cb R)
    (h : Reading fns R lists v i f buffer held) (he : buffer.eof = false)
    (hopen : buffer.openDelimiter = tagOpen) {next : UInt8} {rest : Bytes}
    (hrest : v.drop i = tagOpen ++ next :: rest) (hne : rest ≠ []) :
    ∃ start, Moved fns R lists v f (i + 3) buffer start ∧
      start.eof = false ∧ v.drop (i + 3) = rest ∧
      ∀ o, Returns (renderStep fns cb buffer) o ↔
        Returns (renderTag fns cb buffer.index next start >>= fun r =>
          pure (stepOutcome r)) o := by
  obtain ⟨_, start, -, -, htag⟩ := h.opens hr he hopen hrest hne
  exact ⟨start, htag⟩

/-- After the opening delimiter the byte that is no sigil is read, and gone
back over. -/
theorem Reading.opensPlain (hr : Releases cb R)
    (h : Reading fns R lists v i f buffer held) (he : buffer.eof = false)
    (hopen : buffer.openDelimiter = tagOpen) {next : UInt8} {rest : Bytes}
    (hsigil : next ∉ sigils)
    (hrest : v.drop i = tagOpen ++ next :: rest) (hne : rest ≠ []) :
    ∃ opened start back held',
      Returns (bufferLookAt fns cb tagOpen buffer) (true, opened) ∧
      Returns (bufferNext fns cb opened) (true, start) ∧
      back = { start with index := start.index - 1 } ∧
      Reading fns R lists v (i + 2) (readAhead v f (i + 3)) back held' ∧
      back.eof = false ∧ SameFrame buffer back ∧
      v.drop (i + 2) = next :: rest ∧
      ∀ o, Returns (renderStep fns cb buffer) o ↔
        Returns (renderStacheEscape fns cb back >>= fun r =>
          pure (stepOutcome r)) o := by
  obtain ⟨opened, start, hlook, hnext, hmoved, hlive, hstart, hstep⟩ :=
    h.opens hr he hopen hrest hne
  obtain ⟨held₁, hreading⟩ := hmoved.reading
  let back : Buffer σ ο τ := { start with index := start.index - 1 }
  have hback : Reading fns R lists v (i + 2) (readAhead v f (i + 3)) back
      held₁ := by
    obtain ⟨hlt, hpending⟩ := hreading.live hlive
    refine ⟨hreading.session, ?_, hreading.fill_eq, hreading.fill_le,
      hreading.fill_le_capacity, hreading.data, ?_, ?_⟩
    · show start.index - 1 = _
      rw [hreading.index_eq]
      omega
    · exact fun _ => ⟨by omega, hpending⟩
    · intro hend
      have hend' : start.eof = true := hend
      rw [hlive] at hend'
      cases hend'
  have hdrop : v.drop (i + 2) = next :: rest := by
    rw [← List.drop_drop, hrest]
    rfl
  have hframe : SameFrame buffer back :=
    ⟨hmoved.frame.loops, hmoved.frame.output, hmoved.frame.openDelimiter,
      hmoved.frame.closeDelimiter⟩
  refine ⟨opened, start, back, held₁, hlook, hnext, rfl, hback, hlive, hframe,
    hdrop, ?_⟩
  have htag : renderTag fns cb buffer.index next start =
      renderStacheEscape fns cb back := by
    simp only [sigils, List.mem_cons, List.not_mem_nil, or_false,
      not_or] at hsigil
    obtain ⟨h₁, h₂, h₃, h₄, h₅, h₆, h₇⟩ := hsigil
    rw [renderTag, if_neg h₁, if_neg h₂, if_neg h₃, if_neg h₄, if_neg h₅,
      if_neg h₆, if_neg h₇]
  rw [← htag]
  exact hstep

/-- An escaped variable: the byte that is no sigil is read again, with the
name. -/
theorem Reading.renderStep_escaped (hr : Releases cb R)
    (h : Reading fns R lists v i f buffer held) (he : buffer.eof = false)
    (hopen : buffer.openDelimiter = tagOpen)
    (hclose : buffer.closeDelimiter = tagClose) {name rest : Bytes}
    (hname : NameValid name) (hhead : ∀ c ∈ name.head?, c ∉ sigils)
    (hrest : v.drop i = tagOpen ++ (name ++ nameEnd none ++ rest)) :
    ∃ start block after,
      Returns (Libcad.parseName fns cb none start) (some block, after) ∧
      block.string = name ∧
      Moved fns R lists v f (i + 2 + name.length + (nameEnd none).length)
        buffer after ∧
      ∀ o, Returns (renderStep fns cb buffer) o ↔
        Returns (renderStacheEscape fns cb start >>= fun r =>
          pure (stepOutcome r)) o := by
  obtain ⟨c, tail, rfl⟩ := List.exists_cons_of_ne_nil hname.ne_nil
  have hne : tail ++ nameEnd none ++ rest ≠ [] := by simp [nameEnd, tagClose]
  obtain ⟨_, _, back, _, -, -, -, hback, hlive, hframe, hdrop, hstep⟩ :=
    h.opensPlain hr he hopen (hhead c rfl) hrest hne
  obtain ⟨block, after, hparse, hblock, hmoved⟩ := hback.parseName hr
    (Or.inl rfl) hlive (hframe.closeDelimiter.trans hclose) hname hdrop
  obtain ⟨held₂, hafter⟩ := hmoved.reading
  have hle : i + 3 ≤ i + 2 + (c :: tail).length + (nameEnd none).length := by
    rw [List.length_cons]
    omega
  rw [readAhead_readAhead _ _ hle] at hafter
  exact ⟨back, block, after, hparse, hblock,
    ⟨⟨held₂, hafter⟩, hmoved.eof_eq, hframe.trans hmoved.frame⟩, hstep⟩

/-- Where no tag is opened, the byte is written, and the next one is read. -/
theorem Reading.writes_after {looked : Buffer σ ο τ} (hr : Releases cb R)
    (he : buffer.eof = false)
    (hlook : Returns (bufferLookAt fns cb buffer.openDelimiter buffer)
      (false, looked))
    (h : Reading fns R lists v i f looked held) (hlive : looked.eof = false)
    {c : UInt8} {rest : Bytes} (hrest : v.drop i = c :: rest) :
    ∃ after, Returns (bufferNext fns cb (bufferOutput looked [c]))
        (true, after) ∧
      Returns (renderStep fns cb buffer) (.inl after) ∧
      Moved fns R lists v f (i + 1) (bufferOutput looked [c]) after := by
  have hitem := h.item (h.live hlive).1 hrest
  have hwrite : Reading fns R lists v i f (bufferOutput looked [c]) held ∧
      (bufferOutput looked [c]).eof = false := by
    rw [bufferOutput]
    split
    · exact ⟨h, hlive⟩
    · exact ⟨h.congr h.session rfl rfl rfl rfl rfl rfl rfl, hlive⟩
  obtain ⟨after, hnext, hmoved⟩ := hwrite.1.next hr hwrite.2
  refine ⟨after, hnext, ?_, hmoved⟩
  rw [renderStep, bufferEof_of_live he, if_neg Bool.false_ne_true]
  apply hlook.bind
  dsimp only
  rw [if_neg Bool.false_ne_true]
  exact (hitem.bind hnext).bind (returns_pure_self _)

/-- A byte of the text is written, and the next one is read. -/
theorem Reading.writes (hr : Releases cb R)
    (h : Reading fns R lists v i f buffer held) (he : buffer.eof = false)
    (hopen : buffer.openDelimiter = tagOpen) {c : UInt8} {rest : Bytes}
    (hc : c ≠ ascii '{') (hrest : v.drop i = c :: rest) :
    ∃ after, Returns (bufferNext fns cb (bufferOutput buffer [c]))
        (true, after) ∧
      Returns (renderStep fns cb buffer) (.inl after) ∧
      Moved fns R lists v f (i + 1) (bufferOutput buffer [c]) after := by
  have hlook : Returns (bufferLookAt fns cb buffer.openDelimiter buffer)
      (false, buffer) := by
    rw [hopen]
    exact h.lookAt_other (h.live he).1 hrest hc
  exact Reading.writes_after hr he hlook h he hrest

theorem Reading.renderStep_text (hr : Releases cb R)
    (h : Reading fns R lists v i f buffer held) (he : buffer.eof = false)
    (hopen : buffer.openDelimiter = tagOpen) {c : UInt8} {rest : Bytes}
    (hc : c ≠ ascii '{') (hrest : v.drop i = c :: rest) :
    ∃ after, Returns (renderStep fns cb buffer) (.inl after) ∧
      Moved fns R lists v f (i + 1) (bufferOutput buffer [c]) after := by
  obtain ⟨after, -, hstep⟩ := h.writes hr he hopen hc hrest
  exact ⟨after, hstep⟩

end

end Libcad
