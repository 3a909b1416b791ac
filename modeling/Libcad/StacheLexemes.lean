/-
The text in the buffer.  What the engine reads at a place depends on the bytes
it reads: a tag that was read once is read alike whenever the engine comes back
to it, as long as its bytes stay in the buffer.
-/
import Libcad.StacheRejects
import Libcad.StacheStands

namespace Libcad

open Proc

variable {σ ο τ : Type}

def Spelt (data : Int → UInt8) : Int → Bytes → Prop
  | _, [] => True
  | place, c :: text => data place = c ∧ Spelt data (place + 1) text

/-- There are blanks from one place to the other, and no blank there. -/
inductive BlanksTo (data : Int → UInt8) : Int → Int → Prop
  | here {place : Int} :
      isBlank (data place) = false → BlanksTo data place place
  | blank {place stop : Int} :
      isBlank (data place) = true → BlanksTo data (place + 1) stop →
        BlanksTo data place stop

/-- What makes the engine stop reading a name. -/
def AtEnd (data : Int → UInt8) (suffix : Option Bytes) (closing : Bytes)
    (place : Int) : Prop :=
  Spelt data place closing ∨ ∃ text, suffix = some text ∧ Spelt data place text

/-- A name with what follows it in a tag. -/
inductive NameText (data : Int → UInt8) (suffix : Option Bytes)
    (closing : Bytes) : Int → Bytes → Int → Prop
  | ended {place : Int} :
      Spelt data place (suffix.getD [] ++ closing) →
        NameText data suffix closing place []
          (place + (suffix.getD [] ++ closing).length)
  | byte {place stop : Int} {name : Bytes} :
      ¬ AtEnd data suffix closing place →
        NameText data suffix closing (place + 1) name stop →
        NameText data suffix closing place (data place :: name) stop

def NameAt (data : Int → UInt8) (suffix : Option Bytes) (closing : Bytes)
    (place : Int) (name : Bytes) (stop : Int) : Prop :=
  ∃ first, BlanksTo data place first ∧
    NameText data suffix closing first name stop

def SameBelow (bound : Int) (data data' : Int → UInt8) : Prop :=
  ∀ place < bound, data' place = data place

section

variable {data data' : Int → UInt8} {suffix : Option Bytes}
  {closing text name : Bytes} {place stop bound : Int}

theorem SameBelow.mono {bound' : Int} (h : SameBelow bound data data')
    (hle : bound' ≤ bound) : SameBelow bound' data data' :=
  fun place hplace => h place (Int.lt_of_lt_of_le hplace hle)

theorem SameBelow.trans {data'' : Int → UInt8} (h : SameBelow bound data data')
    (h' : SameBelow bound data' data'') : SameBelow bound data data'' :=
  fun place hplace => (h' place hplace).trans (h place hplace)

theorem spelt_append {text' : Bytes} :
    Spelt data place (text ++ text') ↔
      Spelt data place text ∧ Spelt data (place + text.length) text' := by
  induction text generalizing place with
  | nil => simp [Spelt]
  | cons c text ih =>
      rw [List.cons_append, Spelt, Spelt, ih, and_assoc, List.length_cons]
      have hplace : place + 1 + (text.length : Int) =
          place + ((text.length + 1 : Nat) : Int) := by omega
      rw [hplace]

theorem Spelt.congr (h : SameBelow bound data data')
    (hle : place + text.length ≤ bound) :
    Spelt data' place text ↔ Spelt data place text := by
  induction text generalizing place with
  | nil => exact Iff.rfl
  | cons c text ih =>
      rw [List.length_cons] at hle
      rw [Spelt, Spelt, h place (by omega), ih (by omega)]

theorem BlanksTo.le (h : BlanksTo data place stop) : place ≤ stop := by
  induction h with
  | here => exact Int.le_refl _
  | blank _ _ ih => omega

theorem BlanksTo.congr (h : BlanksTo data place stop)
    (hsame : SameBelow bound data data') (hlt : stop < bound) :
    BlanksTo data' place stop := by
  induction h with
  | here hitem =>
      refine .here ?_
      rw [hsame _ hlt]
      exact hitem
  | blank hitem hrest ih =>
      have hle := hrest.le
      refine .blank ?_ (ih hlt)
      rw [hsame _ (by omega)]
      exact hitem

theorem NameText.length_le (h : NameText data suffix closing place name stop) :
    place + (suffix.getD [] ++ closing).length ≤ stop := by
  induction h with
  | ended => exact Int.le_refl _
  | byte _ _ ih => omega

theorem AtEnd.congr (hsame : SameBelow bound data data')
    (hle : place + (suffix.getD [] ++ closing).length ≤ bound) :
    AtEnd data' suffix closing place ↔ AtEnd data suffix closing place := by
  rw [List.length_append, Int.natCast_add] at hle
  refine or_congr (Spelt.congr hsame (by omega)) ?_
  refine exists_congr fun text => and_congr_right fun hsuffix => ?_
  rw [hsuffix, Option.getD_some] at hle
  exact Spelt.congr hsame (by omega)

theorem NameText.congr (h : NameText data suffix closing place name stop)
    (hsame : SameBelow bound data data') (hle : stop ≤ bound) :
    NameText data' suffix closing place name stop := by
  induction h with
  | ended hspelt => exact .ended ((Spelt.congr hsame hle).mpr hspelt)
  | @byte place stop name hmore hrest ih =>
      have hlength := hrest.length_le
      have hitem : data' place = data place := hsame place (by omega)
      rw [← hitem]
      refine .byte (fun hend => hmore ((AtEnd.congr hsame ?_).mp hend)) (ih hle)
      omega

theorem NameAt.length_le (h : NameAt data suffix closing place name stop) :
    place + closing.length ≤ stop := by
  obtain ⟨first, hblanks, hname⟩ := h
  have hle := hblanks.le
  have hlength := hname.length_le
  rw [List.length_append] at hlength
  omega

theorem NameAt.congr (h : NameAt data suffix closing place name stop)
    (hclosing : closing ≠ []) (hsame : SameBelow bound data data')
    (hle : stop ≤ bound) : NameAt data' suffix closing place name stop := by
  obtain ⟨first, hblanks, hname⟩ := h
  have hlength := hname.length_le
  have hpos := List.length_pos_iff.mpr hclosing
  rw [List.length_append] at hlength
  exact ⟨first, hblanks.congr hsame (by omega), hname.congr hsame hle⟩

end

/-- Reading keeps the text that is in the buffer. -/
structure Advances (before after : Buffer σ ο τ) : Prop where
  fill_le : before.fill ≤ after.fill
  data : SameBelow before.fill before.data after.data
  eof : before.eof = true → after.eof = true
  loops : after.loops = before.loops
  openDelimiter : after.openDelimiter = before.openDelimiter
  closeDelimiter : after.closeDelimiter = before.closeDelimiter
  rejections : after.rejections = before.rejections

section

variable {fns : StreamFns τ} {cb : Callback σ ο τ}
  {before buffer after : Buffer σ ο τ} {data : Int → UInt8}

theorem Advances.refl (buffer : Buffer σ ο τ) : Advances buffer buffer :=
  ⟨Int.le_refl _, fun _ _ => rfl, id, rfl, rfl, rfl, rfl⟩

theorem Advances.trans (h : Advances before buffer)
    (h' : Advances buffer after) : Advances before after where
  fill_le := Int.le_trans h.fill_le h'.fill_le
  data := h.data.trans (h'.data.mono h.fill_le)
  eof hended := h'.eof (h.eof hended)
  loops := h'.loops.trans h.loops
  openDelimiter := h'.openDelimiter.trans h.openDelimiter
  closeDelimiter := h'.closeDelimiter.trans h.closeDelimiter
  rejections := h'.rejections.trans h.rejections

/-- Where the input has not ended, it had not ended before. -/
theorem Advances.live (h : Advances before after) (hlive : after.eof = false) :
    before.eof = false := by
  cases hbefore : before.eof with
  | false => rfl
  | true =>
      rw [h.eof hbefore] at hlive
      cases hlive

theorem sameBelow_put (data : Int → UInt8) (fill : Int) (c : UInt8) :
    SameBelow fill data (Function.update data fill c) :=
  fun _ hplace => Function.update_of_ne (Int.ne_of_lt hplace) c data

theorem bufferFetch_advances (hlive : buffer.eof = false)
    (h : Returns (bufferFetch fns cb buffer) after) :
    Advances buffer after := by
  have hended : buffer.eof = true → after.eof = true := by
    rw [hlive]
    exact nofun
  rw [bufferFetch] at h
  split at h
  next =>
    cases returns_pure.mp h
    rw [bufferRead] at hended ⊢
    dsimp only at hended ⊢
    split
    next => exact ⟨Int.le_refl _, fun _ _ => rfl, fun _ => rfl, rfl, rfl, rfl, rfl⟩
    next =>
      refine ⟨Int.le_of_lt (Int.lt_succ _), sameBelow_put _ _ _, ?_, rfl, rfl,
        rfl, rfl⟩
      rw [hlive]
      exact nofun
  next part partials hpartials =>
    obtain ⟨lookup, stream, save⟩ := part
    rw [bufferReadPartial] at h
    dsimp only at h
    split at h
    next =>
      cases lookup with
      | string resolved | stream resolved =>
          obtain ⟨⟨freed, called⟩, hcall, h⟩ := returns_bind.mp h
          cases returns_pure.mp h
          obtain ⟨free, -, -, rfl⟩ := call_returns_some hcall
          exact ⟨Int.le_of_lt (Int.lt_succ _), sameBelow_put _ _ _, hended, rfl,
            rfl, rfl, rfl⟩
      | notFound | list resolved | invalid =>
          cases returns_pure.mp h
          exact ⟨Int.le_of_lt (Int.lt_succ _), sameBelow_put _ _ _, hended, rfl,
            rfl, rfl, rfl⟩
    next =>
      cases returns_pure.mp h
      exact ⟨Int.le_of_lt (Int.lt_succ _), sameBelow_put _ _ _, hended, rfl,
        rfl, rfl, rfl⟩

theorem advances_closed : ReadClosed fns cb Advances where
  refl := Advances.refl
  trans := Advances.trans
  next := by
    intro before after more h
    rw [bufferNext] at h
    split at h
    next =>
      cases returns_pure.mp h
      exact ⟨Int.le_refl _, fun _ _ => rfl, id, rfl, rfl, rfl, rfl⟩
    next hlive =>
      dsimp only at h
      split at h
      next =>
        obtain ⟨read, hfetch, h⟩ := returns_bind.mp h
        cases returns_pure.mp h
        have hgrow : ∃ capacity,
            Buffer.grow { before with index := before.index + 1 } =
              { before with
                index := before.index + 1, capacity := capacity } := by
          rw [Buffer.grow]
          split
          next => exact ⟨_, rfl⟩
          next => exact ⟨before.capacity, rfl⟩
        obtain ⟨capacity, hgrow⟩ := hgrow
        rw [hgrow] at hfetch
        have hread := bufferFetch_advances (by simpa using hlive) hfetch
        exact ⟨hread.fill_le, hread.data, hread.eof, hread.loops,
          hread.openDelimiter, hread.closeDelimiter, hread.rejections⟩
      next =>
        cases returns_pure.mp h
        exact ⟨Int.le_refl _, fun _ _ => rfl, id, rfl, rfl, rfl, rfl⟩
  back h := ⟨h.fill_le, h.data, h.eof, h.loops, h.openDelimiter,
    h.closeDelimiter, h.rejections⟩

theorem bufferItem_eq {c : UInt8} (h : Returns (bufferItem buffer) c) :
    c = buffer.data buffer.index := by
  rw [bufferItem] at h
  split at h
  next => exact (returns_pure.mp h).symm
  next => exact absurd h not_returns_undefined

/-- Where the engine goes on, the byte it stood at is a byte of the text. -/
theorem HasRoom.stood (hroom : HasRoom buffer) (hlive : buffer.eof = false)
    (hadvances : Advances buffer after)
    (hdata : SameBelow after.fill after.data data) :
    data buffer.index = buffer.data buffer.index := by
  have hlt := hroom.live hlive
  rw [hdata _ (Int.lt_of_lt_of_le hlt hadvances.fill_le), hadvances.data _ hlt]

theorem bufferMatch_spelt {expected : Bytes} :
    ∀ {buffer : Buffer σ ο τ}, HasRoom buffer →
      Returns (bufferMatch fns cb expected buffer) (true, after) →
      SameBelow after.fill after.data data →
      Spelt data buffer.index expected ∧
        after.index = buffer.index + expected.length := by
  induction expected with
  | nil =>
      intro buffer _ h _
      cases returns_pure.mp h
      exact ⟨trivial, (Int.add_zero _).symm⟩
  | cons c expected ih =>
      intro buffer hroom h hdata
      obtain ⟨item, hitem, h⟩ := returns_bind.mp h
      split at h
      next hc =>
        obtain ⟨⟨more, next⟩, hnext, h⟩ := returns_bind.mp h
        cases more with
        | false => cases returns_pure.mp h
        | true =>
            obtain ⟨hlive, hindex⟩ := bufferNext_more hnext
            have hadvances : Advances buffer after :=
              (advances_closed.next hnext).trans (advances_closed.match h)
            obtain ⟨hspelt, hafter⟩ := ih (hroom.next hnext).1 h hdata
            rw [hindex] at hspelt hafter
            refine ⟨⟨?_, hspelt⟩, ?_⟩
            · rw [hroom.stood hlive hadvances hdata, ← bufferItem_eq hitem, hc]
            · rw [hafter, List.length_cons]
              omega
      next => cases returns_pure.mp h

theorem bufferLookAt_spelt {expected : Bytes} (hroom : HasRoom buffer)
    (h : Returns (bufferLookAt fns cb expected buffer) (true, after))
    (hdata : SameBelow after.fill after.data data) :
    Spelt data buffer.index expected ∧
      after.index = buffer.index + expected.length := by
  obtain ⟨⟨result, read⟩, hmatch, h⟩ := returns_bind.mp h
  cases result with
  | false => cases returns_pure.mp h
  | true =>
      cases returns_pure.mp h
      exact bufferMatch_spelt hroom hmatch hdata

theorem bufferMatch_unlike {expected : Bytes} :
    ∀ {buffer : Buffer σ ο τ}, HasRoom buffer →
      Returns (bufferMatch fns cb expected buffer) (false, after) →
      after.eof = false → SameBelow after.fill after.data data →
      ¬ Spelt data buffer.index expected := by
  induction expected with
  | nil =>
      intro buffer _ h
      cases returns_pure.mp h
  | cons c expected ih =>
      intro buffer hroom h hlive hdata hspelt
      obtain ⟨hhead, htail⟩ := hspelt
      obtain ⟨item, hitem, h⟩ := returns_bind.mp h
      split at h
      next hc =>
        obtain ⟨⟨more, next⟩, hnext, h⟩ := returns_bind.mp h
        cases more with
        | false =>
            cases returns_pure.mp h
            have hended := (advances_closed.next hnext).eof
              (bufferNext_fails hnext)
            rw [hlive] at hended
            cases hended
        | true =>
            rw [← (bufferNext_more hnext).2] at htail
            exact ih (hroom.next hnext).1 h hlive hdata htail
      next hc =>
        cases returns_pure.mp h
        rw [hroom.stood hlive (Advances.refl _) hdata,
          ← bufferItem_eq hitem] at hhead
        exact hc hhead

/-- A text that was looked for and not found, before the input ended. -/
theorem bufferLookAt_unlike {expected : Bytes} (hroom : HasRoom buffer)
    (h : Returns (bufferLookAt fns cb expected buffer) (false, after))
    (hlive : after.eof = false)
    (hdata : SameBelow after.fill after.data data) :
    ¬ Spelt data buffer.index expected := by
  obtain ⟨⟨result, read⟩, hmatch, h⟩ := returns_bind.mp h
  cases result with
  | true => cases returns_pure.mp h
  | false =>
      cases returns_pure.mp h
      exact bufferMatch_unlike hroom hmatch hlive hdata

theorem bufferLookAt_false_index {expected : Bytes}
    (h : Returns (bufferLookAt fns cb expected buffer) (false, after)) :
    after.index = buffer.index := by
  obtain ⟨⟨result, read⟩, -, h⟩ := returns_bind.mp h
  cases result with
  | true => cases returns_pure.mp h
  | false =>
      cases returns_pure.mp h
      rfl

/-- Only before the end of the input is a text passed. -/
theorem bufferLookAt_live {expected : Bytes} (hexpected : expected ≠ [])
    (h : Returns (bufferLookAt fns cb expected buffer) (true, after)) :
    buffer.eof = false := by
  cases expected with
  | nil => exact absurd rfl hexpected
  | cons c expected =>
      obtain ⟨⟨result, read⟩, hmatch, h⟩ := returns_bind.mp h
      cases result with
      | false => cases returns_pure.mp h
      | true =>
          obtain ⟨item, -, hmatch⟩ := returns_bind.mp hmatch
          split at hmatch
          next =>
            obtain ⟨⟨more, next⟩, hnext, hmatch⟩ := returns_bind.mp hmatch
            cases more with
            | false => cases returns_pure.mp hmatch
            | true => exact (bufferNext_more hnext).1
          next => cases returns_pure.mp hmatch

end

section

variable {fns : StreamFns τ} {cb : Callback σ ο τ}
  {buffer after : Buffer σ ο τ} {data : Int → UInt8} {suffix : Option Bytes}

theorem bufferLookAtSuffix_spelt (hroom : HasRoom buffer)
    (h : Returns (bufferLookAtSuffix fns cb suffix buffer) (true, after))
    (hdata : SameBelow after.fill after.data data) :
    Spelt data buffer.index (suffix.getD []) ∧ suffix ≠ none ∧
      after.index = buffer.index + (suffix.getD []).length := by
  cases suffix with
  | none => cases returns_pure.mp h
  | some text =>
      obtain ⟨hspelt, hindex⟩ := bufferLookAt_spelt hroom h hdata
      exact ⟨hspelt, nofun, hindex⟩

theorem bufferLookAtSuffix_unlike (hroom : HasRoom buffer)
    (h : Returns (bufferLookAtSuffix fns cb suffix buffer) (false, after))
    (hlive : after.eof = false)
    (hdata : SameBelow after.fill after.data data) :
    (¬ ∃ text, suffix = some text ∧ Spelt data buffer.index text) ∧
      after.index = buffer.index := by
  cases suffix with
  | none =>
      cases returns_pure.mp h
      exact ⟨nofun, rfl⟩
  | some text =>
      refine ⟨?_, bufferLookAt_false_index h⟩
      rintro ⟨text', hsuffix, hspelt⟩
      cases hsuffix
      exact bufferLookAt_unlike hroom h hlive hdata hspelt

theorem parseNameStep_goes {name name' : NameBlock} (hroom : HasRoom buffer)
    (h : Returns (parseNameStep fns cb suffix (name, buffer))
      (.inl (name', after)))
    (hdata : SameBelow after.fill after.data data) :
    buffer.eof = false ∧ after.index = buffer.index + 1 ∧
      name'.bytes = name.bytes ++ [data buffer.index] ∧
      ¬ AtEnd data suffix buffer.closeDelimiter buffer.index := by
  rw [parseNameStep] at h
  dsimp only at h
  split at h
  next => cases returns_pure.mp h
  next =>
  obtain ⟨⟨suffixed, b₁⟩, hsuffix, h⟩ := returns_bind.mp h
  have hread₁ := advances_closed.lookAtSuffix hsuffix
  have hroom₁ := (hasRoom_closed.lookAtSuffix hsuffix hroom).1
  cases suffixed with
  | true =>
      obtain ⟨⟨closed, b₂⟩, -, h⟩ := returns_bind.mp h
      cases returns_pure.mp h
  | false =>
  obtain ⟨⟨closed, b₂⟩, hclose, h⟩ := returns_bind.mp h
  have hread₂ := advances_closed.lookAt hclose
  have hroom₂ := (hasRoom_closed.lookAt hclose hroom₁).1
  cases closed with
  | true => cases returns_pure.mp h
  | false =>
  obtain ⟨c, hitem, h⟩ := returns_bind.mp h
  obtain ⟨⟨more, b₃⟩, hnext, h⟩ := returns_bind.mp h
  cases more with
  | false => cases returns_pure.mp h
  | true =>
  cases returns_pure.mp h
  -- The byte could be passed, so the input had not ended before.
  obtain ⟨hlive₂, hindex⟩ := bufferNext_more hnext
  have hread₃ := advances_closed.next hnext
  have hlive₁ := hread₂.live hlive₂
  have hdata₂ : SameBelow b₂.fill b₂.data data :=
    hread₃.data.trans (hdata.mono hread₃.fill_le)
  have hdata₁ : SameBelow b₁.fill b₁.data data :=
    hread₂.data.trans (hdata₂.mono hread₂.fill_le)
  obtain ⟨hno, hindex₁⟩ := bufferLookAtSuffix_unlike hroom hsuffix hlive₁ hdata₁
  have hnot := bufferLookAt_unlike hroom₁ hclose hlive₂ hdata₂
  have hindex₂ := bufferLookAt_false_index hclose
  rw [hindex₁, hread₁.closeDelimiter] at hnot
  rw [hindex₁] at hindex₂
  refine ⟨hread₁.live hlive₁, by rw [hindex, hindex₂], ?_, ?_⟩
  · rw [NameBlock.push, bufferItem_eq hitem,
      ← hroom₂.stood hlive₂ hread₃ hdata, hindex₂]
  · exact fun hend => hend.elim hnot hno

theorem parseNameStep_accepts {name accepted : NameBlock}
    (hroom : HasRoom buffer) (hclosing : buffer.closeDelimiter ≠ [])
    (h : Returns (parseNameStep fns cb suffix (name, buffer))
      (.inr (some accepted, after)))
    (hdata : SameBelow after.fill after.data data) :
    buffer.eof = false ∧ accepted = name ∧
      NameText data suffix buffer.closeDelimiter buffer.index [] after.index := by
  rw [parseNameStep] at h
  dsimp only at h
  split at h
  next => cases returns_pure.mp h
  next =>
  obtain ⟨⟨suffixed, b₁⟩, hsuffix, h⟩ := returns_bind.mp h
  have hread₁ := advances_closed.lookAtSuffix hsuffix
  have hroom₁ := (hasRoom_closed.lookAtSuffix hsuffix hroom).1
  cases suffixed with
  | true =>
      obtain ⟨⟨closed, b₂⟩, hclose, h⟩ := returns_bind.mp h
      have hread₂ := advances_closed.lookAt hclose
      cases closed with
      | false => cases returns_pure.mp h
      | true =>
          cases returns_pure.mp h
          have hlive₁ := bufferLookAt_live
            (hread₁.closeDelimiter ▸ hclosing) hclose
          obtain ⟨hspelt₁, -, hindex₁⟩ :=
            bufferLookAtSuffix_spelt hroom hsuffix
              (hread₂.data.trans (hdata.mono hread₂.fill_le))
          obtain ⟨hspelt₂, hindex₂⟩ := bufferLookAt_spelt hroom₁ hclose hdata
          rw [hindex₁, hread₁.closeDelimiter] at hspelt₂
          rw [hindex₁, hread₁.closeDelimiter] at hindex₂
          have hlength : b₂.index = buffer.index +
              (suffix.getD [] ++ buffer.closeDelimiter).length := by
            rw [hindex₂, List.length_append]
            omega
          exact ⟨hread₁.live hlive₁, rfl,
            hlength ▸ .ended (spelt_append.mpr ⟨hspelt₁, hspelt₂⟩)⟩
  | false =>
      obtain ⟨⟨closed, b₂⟩, hclose, hrest⟩ := returns_bind.mp h
      cases closed with
      | false =>
          obtain ⟨c, hitem, hrest⟩ := returns_bind.mp hrest
          obtain ⟨⟨more, b₃⟩, hnext, hrest⟩ := returns_bind.mp hrest
          cases more <;> cases returns_pure.mp hrest
      | true =>
          cases suffix with
          | some text => cases returns_pure.mp hrest
          | none =>
              cases returns_pure.mp hsuffix
              cases returns_pure.mp hrest
              obtain ⟨hspelt, hindex⟩ := bufferLookAt_spelt hroom hclose hdata
              exact ⟨bufferLookAt_live hclosing hclose, rfl,
                hindex ▸ .ended hspelt⟩

theorem parseLoop_text {s : NameBlock × Buffer σ ο τ}
    {r : Option NameBlock × Buffer σ ο τ}
    (h : Returns (Proc.loop (parseNameStep fns cb suffix) s) r)
    {accepted : NameBlock} (haccepted : r.1 = some accepted)
    (hroom : HasRoom s.2) (hclosing : s.2.closeDelimiter ≠ [])
    (hdata : SameBelow r.2.fill r.2.data data) :
    s.2.eof = false ∧ ∃ name, accepted.bytes = s.1.bytes ++ name ∧
      NameText data suffix s.2.closeDelimiter s.2.index name r.2.index := by
  refine Returns.loop_induction
    (P := fun s r => r.1 = some accepted → HasRoom s.2 →
      s.2.closeDelimiter ≠ [] → SameBelow r.2.fill r.2.data data →
      s.2.eof = false ∧ ∃ name, accepted.bytes = s.1.bytes ++ name ∧
        NameText data suffix s.2.closeDelimiter s.2.index name r.2.index)
    ?_ ?_ h haccepted hroom hclosing hdata
  · rintro ⟨name, buffer⟩ ⟨result, after⟩ hstep rfl hroom hclosing hdata
    obtain ⟨hlive, rfl, htext⟩ :=
      parseNameStep_accepts hroom hclosing hstep hdata
    exact ⟨hlive, [], (List.append_nil _).symm, htext⟩
  · rintro ⟨name, buffer⟩ ⟨name', next⟩ r hstep hrest ih hr hroom hclosing hdata
    have hread := advances_closed.parseNameStep hstep
    have hroom' := (hasRoom_closed.parseNameStep hstep hroom).1
    have hkept : next.closeDelimiter = buffer.closeDelimiter :=
      hread.closeDelimiter
    have hrest : Advances next r.2 := advances_closed.nameLoop hrest
    obtain ⟨-, text, hbytes, htext⟩ :=
      ih hr hroom' (hkept ▸ hclosing) hdata
    obtain ⟨hlive, hindex, hpush, hmore⟩ := parseNameStep_goes hroom hstep
      (hrest.data.trans (hdata.mono hrest.fill_le))
    refine ⟨hlive, data buffer.index :: text, ?_, ?_⟩
    · rw [hbytes, hpush, List.append_assoc, List.singleton_append]
    · change NameText data suffix next.closeDelimiter next.index text _ at htext
      rw [hkept, hindex] at htext
      exact .byte hmore htext

/-- Without a suffix only the end of the input keeps `parse_name` from
accepting a name. -/
theorem parseLoop_refuses {s : NameBlock × Buffer σ ο τ}
    {r : Option NameBlock × Buffer σ ο τ}
    (h : Returns (Proc.loop (parseNameStep fns cb none) s) r)
    (hrefused : r.1 = none) : r.2.eof = true := by
  refine Returns.loop_induction
    (P := fun _ (r : Option NameBlock × Buffer σ ο τ) =>
      r.1 = none → r.2.eof = true)
    ?_ (fun _ _ _ _ _ ih => ih) h hrefused
  rintro ⟨name, buffer⟩ ⟨result, after⟩ hstep rfl
  rw [parseNameStep] at hstep
  dsimp only at hstep
  split at hstep
  next hended =>
    cases returns_pure.mp hstep
    exact (Bool.and_eq_true _ _ ▸ hended).1
  next =>
    obtain ⟨⟨suffixed, b₁⟩, hsuffix, hstep⟩ := returns_bind.mp hstep
    cases returns_pure.mp hsuffix
    obtain ⟨⟨closed, b₂⟩, -, hstep⟩ := returns_bind.mp hstep
    cases closed with
    | true => cases returns_pure.mp hstep
    | false =>
        obtain ⟨c, -, hstep⟩ := returns_bind.mp hstep
        obtain ⟨⟨more, b₃⟩, hnext, hstep⟩ := returns_bind.mp hstep
        cases more with
        | true => cases returns_pure.mp hstep
        | false =>
            cases returns_pure.mp hstep
            exact (advances_closed.next hnext).eof (bufferNext_fails hnext)

theorem skipBlanks_text (h : Returns (bufferSkipBlanks fns cb buffer) after)
    (hroom : HasRoom buffer) (hlive : after.eof = false)
    (hdata : SameBelow after.fill after.data data) :
    BlanksTo data buffer.index after.index := by
  refine Returns.loop_induction
    (P := fun buffer (after : Buffer σ ο τ) => HasRoom buffer →
      after.eof = false → SameBelow after.fill after.data data →
      BlanksTo data buffer.index after.index)
    ?_ ?_ h hroom hlive hdata
  · intro buffer after hstep hroom hlive hdata
    rw [skipBlanksStep] at hstep
    split at hstep
    next hended =>
      cases returns_pure.mp hstep
      rw [bufferEof, hlive] at hended
      cases hended
    next =>
      obtain ⟨c, hitem, hstep⟩ := returns_bind.mp hstep
      split at hstep
      next =>
        obtain ⟨⟨again, next⟩, hnext, hstep⟩ := returns_bind.mp hstep
        cases again with
        | true => cases returns_pure.mp hstep
        | false =>
            cases returns_pure.mp hstep
            rw [(advances_closed.next hnext).eof (bufferNext_fails hnext)]
              at hlive
            cases hlive
      next hblank =>
        cases returns_pure.mp hstep
        refine .here ?_
        rw [hroom.stood hlive (Advances.refl _) hdata, ← bufferItem_eq hitem]
        exact Bool.not_eq_true _ ▸ hblank
  · intro buffer next after hstep hrest ih hroom hlive hdata
    have hrest : Advances next after := advances_closed.skipBlanks hrest
    rw [skipBlanksStep] at hstep
    split at hstep
    next => cases returns_pure.mp hstep
    next =>
      obtain ⟨c, hitem, hstep⟩ := returns_bind.mp hstep
      split at hstep
      next hblank =>
        obtain ⟨⟨again, b⟩, hnext, hstep⟩ := returns_bind.mp hstep
        cases again with
        | false => cases returns_pure.mp hstep
        | true =>
            cases returns_pure.mp hstep
            obtain ⟨hbefore, hindex⟩ := bufferNext_more hnext
            have hread := (advances_closed.next hnext).trans hrest
            have htail := ih (hroom.next hnext).1 hlive hdata
            rw [hindex] at htail
            refine .blank ?_ htail
            rw [hroom.stood hbefore hread hdata, ← bufferItem_eq hitem]
            exact hblank
      next => cases returns_pure.mp hstep

theorem parseName_text {name : NameBlock} (hroom : HasRoom buffer)
    (hclosing : buffer.closeDelimiter ≠ [])
    (h : Returns (parseName fns cb suffix buffer) (some name, after))
    (hdata : SameBelow after.fill after.data data) :
    NameAt data suffix buffer.closeDelimiter buffer.index name.bytes
      after.index := by
  obtain ⟨start, hskip, h⟩ := returns_bind.mp h
  obtain ⟨⟨result, read⟩, hloop, h⟩ := returns_bind.mp h
  cases result with
  | none => cases returns_pure.mp h
  | some accepted =>
      cases returns_pure.mp h
      have hskipped := advances_closed.skipBlanks hskip
      have hrest := advances_closed.nameLoop hloop
      have hkept : start.closeDelimiter = buffer.closeDelimiter :=
        hskipped.closeDelimiter
      obtain ⟨hlive, text, hbytes, htext⟩ := parseLoop_text hloop rfl
        (hasRoom_closed.skipBlanks hskip hroom).1 (hkept ▸ hclosing) hdata
      have hstart : SameBelow start.fill start.data data :=
        hrest.data.trans (hdata.mono hrest.fill_le)
      refine ⟨start.index, skipBlanks_text hskip hroom hlive hstart, ?_⟩
      rw [hbytes, List.nil_append, ← hkept]
      exact htext

/-- A name that was not accepted is gone back over; without a suffix the input
has ended. -/
theorem parseName_refused
    (h : Returns (parseName fns cb suffix buffer) (none, after)) :
    ∃ read, Advances buffer read ∧
      (HasRoom buffer → HasRoom read ∧ buffer.index ≤ read.index) ∧
      after = read.reject suffix buffer.index ∧
      (suffix = none → read.eof = true) := by
  obtain ⟨start, hskip, h⟩ := returns_bind.mp h
  obtain ⟨⟨result, read⟩, hloop, h⟩ := returns_bind.mp h
  cases result with
  | some accepted => cases returns_pure.mp h
  | none =>
      cases returns_pure.mp h
      refine ⟨read, advances_closed.parseLoop hskip hloop,
        hasRoom_closed.parseLoop hskip hloop, rfl, ?_⟩
      rintro rfl
      exact parseLoop_refuses hloop rfl

theorem comment_text (hroom : HasRoom buffer)
    (hclosing : buffer.closeDelimiter ≠ [])
    (h : Returns (renderStacheComment fns cb buffer) (true, after))
    (hdata : SameBelow after.fill after.data data) :
    ∃ text, NameText data none buffer.closeDelimiter buffer.index text
      after.index := by
  refine Returns.loop_induction
    (P := fun buffer (r : Bool × Buffer σ ο τ) => r.1 = true → HasRoom buffer →
      buffer.closeDelimiter ≠ [] → SameBelow r.2.fill r.2.data data →
      ∃ text, NameText data none buffer.closeDelimiter buffer.index text
        r.2.index)
    ?_ ?_ h rfl hroom hclosing hdata
  · rintro buffer ⟨result, after⟩ hstep rfl hroom hclosing hdata
    obtain ⟨⟨closed, b₁⟩, hclose, hstep⟩ := returns_bind.mp hstep
    cases closed with
    | true =>
        cases returns_pure.mp hstep
        obtain ⟨hspelt, hindex⟩ := bufferLookAt_spelt hroom hclose hdata
        exact ⟨[], hindex ▸ .ended hspelt⟩
    | false =>
        obtain ⟨⟨more, b₂⟩, hnext, hstep⟩ := returns_bind.mp hstep
        cases more <;> cases returns_pure.mp hstep
  · intro buffer next r hstep hrest ih hr hroom hclosing hdata
    obtain ⟨result, after⟩ := r
    have hrest : Advances next after := advances_closed.comment hrest
    obtain ⟨⟨closed, b₁⟩, hclose, hstep⟩ := returns_bind.mp hstep
    have hread₁ := advances_closed.lookAt hclose
    cases closed with
    | true => cases returns_pure.mp hstep
    | false =>
        obtain ⟨⟨more, b₂⟩, hnext, hstep⟩ := returns_bind.mp hstep
        cases more with
        | false => cases returns_pure.mp hstep
        | true =>
            cases returns_pure.mp hstep
            obtain ⟨hlive, hindex⟩ := bufferNext_more hnext
            have hread₂ := advances_closed.next hnext
            have hroom₁ := (hasRoom_closed.lookAt hclose hroom).1
            have hkept : next.closeDelimiter = buffer.closeDelimiter :=
              hread₂.closeDelimiter.trans hread₁.closeDelimiter
            have hdata₁ : SameBelow b₁.fill b₁.data data :=
              (hread₂.trans hrest).data.trans
                (hdata.mono (hread₂.trans hrest).fill_le)
            have hnot := bufferLookAt_unlike hroom hclose hlive hdata₁
            obtain ⟨text, htext⟩ := ih hr (hroom₁.next hnext).1
              (hkept ▸ hclosing) hdata
            rw [hkept, hindex, bufferLookAt_false_index hclose] at htext
            refine ⟨_, .byte ?_ htext⟩
            exact fun hend => hend.elim hnot nofun

end

/-- Ways to stand in a text: at each place before the bound its byte is looked
at and the next place is come to, and the engine can go back from each place
before the limit. -/
structure Legible (fns : StreamFns τ) (cb : Callback σ ο τ)
    (data : Int → UInt8) (closing : Bytes) (limit bound : Int)
    (At : Int → Buffer σ ο τ → Prop) : Prop where
  limit_le : limit ≤ bound
  bound_le : bound ≤ limit + 1
  item : ∀ {place buffer}, At place buffer → place < bound →
    Returns (bufferItem buffer) (data place)
  live : ∀ {place buffer}, At place buffer → place + 1 < bound →
    bufferEof buffer = false
  next : ∀ {place buffer}, At place buffer → place + 1 < bound →
    ∃ after, Returns (bufferNext fns cb buffer) (true, after) ∧
      At (place + 1) after
  back : ∀ {place last buffer after}, At place buffer → At last after →
    place ≤ last → last < limit → At place { after with index := buffer.index }
  closing : ∀ {place buffer}, At place buffer →
    buffer.closeDelimiter = closing

section

variable {fns : StreamFns τ} {cb : Callback σ ο τ} {data : Int → UInt8}
  {closing : Bytes} {limit bound : Int} {At : Int → Buffer σ ο τ → Prop}
  {buffer : Buffer σ ο τ} {place stop : Int} {suffix : Option Bytes}
  {text : Bytes}

theorem Legible.match (h : Legible fns cb data closing limit bound At)
    {expected : Bytes} (hat : At place buffer)
    (hspelt : Spelt data place expected)
    (hlt : place + expected.length < bound) :
    ∃ after, Returns (bufferMatch fns cb expected buffer) (true, after) ∧
      At (place + expected.length) after := by
  induction expected generalizing place buffer with
  | nil =>
      have hplace : place + (([] : Bytes).length : Int) = place := Int.add_zero _
      rw [hplace]
      exact ⟨buffer, returns_pure_self _, hat⟩
  | cons c expected ih =>
      obtain ⟨hc, hrest⟩ := hspelt
      rw [List.length_cons] at hlt ⊢
      have hplace : place + ((expected.length + 1 : Nat) : Int) =
          place + 1 + expected.length := by omega
      rw [hplace] at hlt ⊢
      have hitem := h.item hat (by omega)
      obtain ⟨next, hnext, hat'⟩ := h.next hat (by omega)
      obtain ⟨after, hmatch, hafter⟩ := ih hat' hrest hlt
      refine ⟨after, ?_, hafter⟩
      rw [bufferMatch, hitem.bind_iff, if_pos hc, hnext.bind_iff]
      exact hmatch

theorem Legible.mismatch (h : Legible fns cb data closing limit bound At)
    {expected : Bytes} (hat : At place buffer)
    (hunlike : ¬ Spelt data place expected)
    (hle : place + expected.length ≤ bound) :
    ∃ last after, Returns (bufferMatch fns cb expected buffer) (false, after) ∧
      At last after ∧ place ≤ last ∧ last < place + expected.length := by
  induction expected generalizing place buffer with
  | nil => exact absurd trivial hunlike
  | cons c expected ih =>
      rw [List.length_cons] at hle ⊢
      have hitem := h.item hat (by omega)
      by_cases hc : data place = c
      · have hrest : ¬ Spelt data (place + 1) expected :=
          fun hrest => hunlike ⟨hc, hrest⟩
        have hmore : expected ≠ [] := by
          rintro rfl
          exact hrest trivial
        have hpos := List.length_pos_iff.mpr hmore
        obtain ⟨next, hnext, hat'⟩ := h.next hat (by omega)
        obtain ⟨last, after, hmatch, hafter, hlast, hlt⟩ :=
          ih hat' hrest (by omega)
        refine ⟨last, after, ?_, hafter, by omega, by omega⟩
        rw [bufferMatch, hitem.bind_iff, if_pos hc, hnext.bind_iff]
        exact hmatch
      · refine ⟨place, buffer, ?_, hat, Int.le_refl _, by omega⟩
        rw [bufferMatch, hitem.bind_iff, if_neg hc]
        exact returns_pure_self _

theorem Legible.finds (h : Legible fns cb data closing limit bound At)
    {expected : Bytes} (hat : At place buffer)
    (hspelt : Spelt data place expected)
    (hlt : place + expected.length < bound) :
    ∃ after, Returns (bufferLookAt fns cb expected buffer) (true, after) ∧
      At (place + expected.length) after := by
  obtain ⟨after, hmatch, hafter⟩ := h.match hat hspelt hlt
  exact ⟨after, hmatch.bind (returns_pure_self _), hafter⟩

/-- A text that does not stand at the place is not found there. -/
theorem Legible.misses (h : Legible fns cb data closing limit bound At)
    {expected : Bytes} (hat : At place buffer)
    (hunlike : ¬ Spelt data place expected)
    (hle : place + expected.length ≤ limit) :
    ∃ after, Returns (bufferLookAt fns cb expected buffer) (false, after) ∧
      At place after := by
  obtain ⟨last, after, hmatch, hafter, hlast, hlt⟩ :=
    h.mismatch hat hunlike (Int.le_trans hle h.limit_le)
  exact ⟨_, hmatch.bind (returns_pure_self _),
    h.back hat hafter hlast (Int.lt_of_lt_of_le hlt hle)⟩

theorem Legible.skips (h : Legible fns cb data closing limit bound At)
    (hblanks : BlanksTo data place stop) (hat : At place buffer)
    (hlt : stop + 1 < bound) :
    ∃ after, Returns (bufferSkipBlanks fns cb buffer) after ∧
      At stop after := by
  induction hblanks generalizing buffer with
  | @here place hitem =>
      refine ⟨buffer, Returns.loop_exit ?_, hat⟩
      rw [skipBlanksStep, h.live hat hlt, if_neg Bool.false_ne_true,
        (h.item hat (by omega)).bind_iff, hitem, if_neg Bool.false_ne_true]
      exact returns_pure_self _
  | @blank place stop hitem hrest ih =>
      have hle := hrest.le
      obtain ⟨next, hnext, hat'⟩ := h.next hat (by omega)
      obtain ⟨after, hskip, hafter⟩ := ih hat' hlt
      refine ⟨after, (Returns.loop_next ?_).mpr hskip, hafter⟩
      rw [skipBlanksStep, h.live hat (by omega), if_neg Bool.false_ne_true,
        (h.item hat (by omega)).bind_iff, hitem, if_pos rfl, hnext.bind_iff]
      exact returns_pure_self _

theorem Legible.missesSuffix (h : Legible fns cb data closing limit bound At)
    (hat : At place buffer) (hunlike : ¬ AtEnd data suffix closing place)
    (hle : place + (suffix.getD []).length ≤ limit) :
    ∃ after, Returns (bufferLookAtSuffix fns cb suffix buffer)
      (false, after) ∧ At place after := by
  cases suffix with
  | none => exact ⟨buffer, returns_pure_self _, hat⟩
  | some text =>
      exact h.misses hat (fun hspelt => hunlike (Or.inr ⟨text, rfl, hspelt⟩)) hle

/-- An iteration of `parse_name` where the name ends. -/
theorem Legible.ends (h : Legible fns cb data closing limit bound At)
    (hclosing : closing ≠ []) (hat : At place buffer)
    (hspelt : Spelt data place (suffix.getD [] ++ closing))
    (hlt : place + (suffix.getD [] ++ closing).length < bound)
    (name : NameBlock) :
    ∃ after, Returns (parseNameStep fns cb suffix (name, buffer))
        (.inr (some name, after)) ∧
      At (place + (suffix.getD [] ++ closing).length) after := by
  obtain ⟨hsuffix, hend⟩ := spelt_append.mp hspelt
  have hpos := List.length_pos_iff.mpr hclosing
  rw [List.length_append, Int.natCast_add, ← Int.add_assoc] at hlt ⊢
  rw [parseNameStep]
  dsimp only
  rw [h.live hat (by omega), if_neg Bool.false_ne_true]
  cases suffix with
  | none =>
      have hplace : place + ((none.getD [] : Bytes).length : Int) = place :=
        Int.add_zero _
      rw [hplace] at hlt hend ⊢
      obtain ⟨after, hlook, hafter⟩ := h.finds hat hend hlt
      rw [← h.closing hat] at hlook
      exact ⟨after, (returns_pure_self _).bind
        (hlook.bind (returns_pure_self _)), hafter⟩
  | some text =>
      obtain ⟨middle, hlook, hmiddle⟩ := h.finds hat hsuffix (by omega)
      obtain ⟨after, hlook', hafter⟩ := h.finds hmiddle hend hlt
      rw [← h.closing hmiddle] at hlook'
      exact ⟨after, hlook.bind (hlook'.bind (returns_pure_self _)), hafter⟩

/-- An iteration of `parse_name` inside the name. -/
theorem Legible.goes (h : Legible fns cb data closing limit bound At)
    (hat : At place buffer) (hmore : ¬ AtEnd data suffix closing place)
    (hlt : place + 1 + (suffix.getD [] ++ closing).length < bound)
    (name : NameBlock) :
    ∃ after, Returns (parseNameStep fns cb suffix (name, buffer))
        (.inl (name.push (data place), after)) ∧ At (place + 1) after := by
  have hbound := h.bound_le
  rw [List.length_append, Int.natCast_add] at hlt
  have hend : ¬ Spelt data place closing := fun hspelt => hmore (Or.inl hspelt)
  obtain ⟨first, hsuffix, hfirst⟩ := h.missesSuffix hat hmore (by omega)
  obtain ⟨second, hclose, hsecond⟩ := h.misses hfirst hend (by omega)
  obtain ⟨after, hnext, hafter⟩ := h.next hsecond (by omega)
  have hitem := h.item hsecond (by omega)
  rw [← h.closing hfirst] at hclose
  refine ⟨after, ?_, hafter⟩
  rw [parseNameStep]
  dsimp only
  rw [h.live hat (by omega), if_neg Bool.false_ne_true]
  exact hsuffix.bind (hclose.bind (hitem.bind
    (hnext.bind (returns_pure_self _))))

theorem Legible.accepts (h : Legible fns cb data closing limit bound At)
    (hclosing : closing ≠ [])
    (htext : NameText data suffix closing place text stop)
    (hat : At place buffer) (hlt : stop < bound) (name : NameBlock) :
    ∃ (accepted : NameBlock) (after : Buffer σ ο τ),
      accepted.bytes = name.bytes ++ text ∧
      Returns (Proc.loop (parseNameStep fns cb suffix) (name, buffer))
        (some accepted, after) ∧ At stop after := by
  induction htext generalizing name buffer with
  | @ended place hspelt =>
      obtain ⟨after, hstep, hafter⟩ := h.ends hclosing hat hspelt hlt name
      exact ⟨name, after, (List.append_nil _).symm, hstep.loop_exit, hafter⟩
  | @byte place stop text hmore hrest ih =>
      have hlength := hrest.length_le
      obtain ⟨next, hstep, hat'⟩ := h.goes hat hmore (by omega) name
      obtain ⟨accepted, after, hbytes, hloop, hafter⟩ :=
        ih hat' hlt (name.push (data place))
      refine ⟨accepted, after, ?_, hstep.loop_next.mpr hloop, hafter⟩
      rw [hbytes, NameBlock.push, List.append_assoc, List.singleton_append]

theorem Legible.parses (h : Legible fns cb data closing limit bound At)
    (hname : NameAt data suffix closing place text stop)
    (hat : At place buffer) (hclosing : closing ≠ []) (hlt : stop < bound) :
    ∃ (name : NameBlock) (after : Buffer σ ο τ), name.bytes = text ∧
      Returns (parseName fns cb suffix buffer) (some name, after) ∧
      At stop after := by
  obtain ⟨first, hblanks, htext⟩ := hname
  have hlength := htext.length_le
  have hpos := List.length_pos_iff.mpr hclosing
  rw [List.length_append, Int.natCast_add] at hlength
  obtain ⟨start, hskip, hstart⟩ := h.skips hblanks hat (by omega)
  obtain ⟨name, after, hbytes, hloop, hafter⟩ :=
    h.accepts hclosing htext hstart hlt { bytes := [], capacity := 16 }
  exact ⟨name, after, hbytes,
    hskip.bind (hloop.bind (returns_pure_self _)), hafter⟩

theorem Legible.comment (h : Legible fns cb data closing limit bound At)
    (htext : NameText data none closing place text stop)
    (hat : At place buffer) (hlt : stop < bound) :
    ∃ after, Returns (renderStacheComment fns cb buffer) (true, after) ∧
      At stop after := by
  induction htext generalizing buffer with
  | @ended place hspelt =>
      obtain ⟨after, hlook, hafter⟩ := h.finds hat hspelt hlt
      refine ⟨after, Returns.loop_exit ?_, hafter⟩
      change Returns (bufferLookAt fns cb closing buffer) _ at hlook
      rw [← h.closing hat] at hlook
      exact hlook.bind (returns_pure_self _)
  | @byte place stop text hmore hrest ih =>
      have hlength := hrest.length_le
      have hbound := h.bound_le
      have hle : (closing.length : Int) ≤
          ((none.getD [] : Bytes) ++ closing).length := Int.le_refl _
      have hend : ¬ Spelt data place closing :=
        fun hspelt => hmore (Or.inl hspelt)
      obtain ⟨looked, hlook, hlooked⟩ := h.misses hat hend (by omega)
      obtain ⟨next, hnext, hat'⟩ := h.next hlooked (by omega)
      obtain ⟨after, hcomment, hafter⟩ := ih hat' hlt
      refine ⟨after, (Returns.loop_next ?_).mpr hcomment, hafter⟩
      rw [← h.closing hat] at hlook
      exact hlook.bind (hnext.bind (returns_pure_self _))

end

def Buffer.goTo (buffer : Buffer σ ο τ) (place : Int) : Buffer σ ο τ :=
  { buffer with index := place }

/-- There is more to read, and the text is inside its block. -/
structure Rereads (buffer : Buffer σ ο τ) : Prop where
  live : buffer.eof = false
  fill_le : buffer.fill ≤ buffer.capacity

section

variable {fns : StreamFns τ} {cb : Callback σ ο τ} {buffer : Buffer σ ο τ}
  {place stop : Int} {suffix : Option Bytes} {text : Bytes}

theorem Rereads.item (h : Rereads buffer) (hnonneg : 0 ≤ place)
    (hlt : place < buffer.fill) :
    Returns (bufferItem (buffer.goTo place)) (buffer.data place) := by
  rw [bufferItem, if_pos ⟨hnonneg, Int.lt_of_lt_of_le hlt h.fill_le⟩]
  exact returns_pure_self _

theorem Rereads.next (h : Rereads buffer) (hlt : place + 1 < buffer.fill) :
    Returns (bufferNext fns cb (buffer.goTo place))
      (true, buffer.goTo (place + 1)) := by
  have hlive : ¬ (buffer.goTo place).eof = true := by
    rw [Bool.not_eq_true]
    exact h.live
  rw [bufferNext, if_neg hlive]
  dsimp only
  split
  next hlast => exact absurd hlast (Int.ne_of_lt hlt)
  next => exact returns_pure_self _

theorem Rereads.bufferEof (h : Rereads buffer) (place : Int) :
    bufferEof (buffer.goTo place) = false := by
  rw [Libcad.bufferEof]
  exact Bool.and_eq_false_imp.mpr fun hended => by
    rw [Buffer.goTo, h.live] at hended
    cases hended

theorem Rereads.legible (h : Rereads buffer) :
    Legible fns cb buffer.data buffer.closeDelimiter buffer.fill buffer.fill
      fun place b => 0 ≤ place ∧ b = buffer.goTo place where
  limit_le := Int.le_refl _
  bound_le := Int.le_add_one (Int.le_refl _)
  item := by
    rintro place b ⟨hnonneg, rfl⟩ hlt
    exact h.item hnonneg hlt
  live := by
    rintro place b ⟨-, rfl⟩ -
    exact h.bufferEof place
  next := by
    rintro place b ⟨hnonneg, rfl⟩ hlt
    exact ⟨_, h.next hlt, Int.le_add_one hnonneg, rfl⟩
  back := by
    rintro place last b after ⟨hnonneg, rfl⟩ ⟨-, rfl⟩ - -
    exact ⟨hnonneg, rfl⟩
  closing := by
    rintro place b ⟨-, rfl⟩
    rfl

theorem Rereads.finds (h : Rereads buffer) {expected : Bytes}
    (hspelt : Spelt buffer.data place expected) (hnonneg : 0 ≤ place)
    (hlt : place + expected.length < buffer.fill) :
    Returns (bufferLookAt fns cb expected (buffer.goTo place))
      (true, buffer.goTo (place + expected.length)) := by
  obtain ⟨after, hlook, -, rfl⟩ :=
    h.legible.finds ⟨hnonneg, rfl⟩ hspelt hlt
  exact hlook

theorem Rereads.misses (h : Rereads buffer) {expected : Bytes}
    (hunlike : ¬ Spelt buffer.data place expected) (hnonneg : 0 ≤ place)
    (hle : place + expected.length ≤ buffer.fill) :
    Returns (bufferLookAt fns cb expected (buffer.goTo place))
      (false, buffer.goTo place) := by
  obtain ⟨after, hlook, -, rfl⟩ :=
    h.legible.misses ⟨hnonneg, rfl⟩ hunlike hle
  exact hlook

theorem Rereads.parses (h : Rereads buffer)
    (hname : NameAt buffer.data suffix buffer.closeDelimiter place text stop)
    (hnonneg : 0 ≤ place) (hclosing : buffer.closeDelimiter ≠ [])
    (hlt : stop < buffer.fill) :
    ∃ name : NameBlock, name.bytes = text ∧
      Returns (parseName fns cb suffix (buffer.goTo place))
        (some name, buffer.goTo stop) := by
  obtain ⟨name, after, hbytes, hparse, -, rfl⟩ :=
    h.legible.parses hname ⟨hnonneg, rfl⟩ hclosing hlt
  exact ⟨name, hbytes, hparse⟩

theorem Rereads.comment (h : Rereads buffer)
    (htext : NameText buffer.data none buffer.closeDelimiter place text stop)
    (hnonneg : 0 ≤ place) (hlt : stop < buffer.fill) :
    Returns (renderStacheComment fns cb (buffer.goTo place))
      (true, buffer.goTo stop) := by
  obtain ⟨after, hcomment, -, rfl⟩ :=
    h.legible.comment htext ⟨hnonneg, rfl⟩ hlt
  exact hcomment

end

end Libcad
