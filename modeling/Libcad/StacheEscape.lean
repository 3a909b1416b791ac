/-
What a variable writes.  The engine replaces five bytes by entities and leaves
the others as they are, so what it writes holds no markup, and decoding the
entities gives the value back.
-/
import Libcad.StacheTags

namespace Libcad

open Proc

/-- The five entities and the bytes they stand for. -/
def entities : List (UInt8 × Bytes) :=
  [(ascii '<', chars "&lt;"), (ascii '>', chars "&gt;"),
    (ascii '&', chars "&amp;"), (ascii '"', chars "&quot;"),
    (ascii '\'', chars "&apos;")]

def entityAt (text : Bytes) : Option (UInt8 × Bytes) :=
  entities.find? fun entity => entity.2.isPrefixOf text

/-- Decode the entities of a text, after a number of bytes that are left
out. -/
def decodeFrom : Nat → Bytes → Bytes
  | _, [] => []
  | skip + 1, _ :: rest => decodeFrom skip rest
  | 0, c :: rest =>
      match entityAt (c :: rest) with
      | some entity => entity.1 :: decodeFrom (entity.2.length - 1) rest
      | none => c :: decodeFrom 0 rest

/-- Decode the entities of a text; what is no entity is left as it is. -/
def decodeEntities (text : Bytes) : Bytes := decodeFrom 0 text

/-- The bytes that would open a tag or end an attribute. -/
def markup : Bytes := [ascii '<', ascii '>', ascii '"', ascii '\'']

/-- A text without markup, in which every ampersand begins an entity. -/
structure Escaped (text : Bytes) : Prop where
  safe : ∀ c ∈ text, c ∉ markup
  entity : ∀ before rest, text = before ++ ascii '&' :: rest →
    ∃ entity ∈ entities, entity.2 <+: ascii '&' :: rest

theorem decodeFrom_length (text rest : Bytes) :
    decodeFrom text.length (text ++ rest) = decodeFrom 0 rest := by
  induction text with
  | nil => rfl
  | cons c text ih => exact ih

set_option maxRecDepth 2000 in
/-- Every entity begins with the only ampersand in it. -/
theorem entity_cons {entity : UInt8 × Bytes} (h : entity ∈ entities) :
    ∃ name, entity.2 = ascii '&' :: name ∧ ascii '&' ∉ name ∧
      ∀ c ∈ entity.2, c ∉ markup := by
  have hall : ∀ entity ∈ entities, entity.2 = ascii '&' :: entity.2.tail ∧
      ascii '&' ∉ entity.2.tail ∧ ∀ c ∈ entity.2, c ∉ markup := by decide
  exact ⟨entity.2.tail, hall entity h⟩

theorem entityAt_entity {entity : UInt8 × Bytes} (h : entity ∈ entities)
    (rest : Bytes) : entityAt (entity.2 ++ rest) = some entity := by
  simp only [entities, List.mem_cons, List.not_mem_nil, or_false] at h
  rcases h with rfl | rfl | rfl | rfl | rfl <;> rfl

theorem entityAt_other {c : UInt8} (hc : c ≠ ascii '&') (rest : Bytes) :
    entityAt (c :: rest) = none := by
  refine List.find?_eq_none.mpr fun entity hmem => ?_
  obtain ⟨name, hname, -⟩ := entity_cons hmem
  rw [hname, List.isPrefixOf_iff_prefix, List.cons_prefix_cons]
  exact fun h => hc h.1.symm

/-- A byte is written as its entity, or as it is. -/
theorem escapeChar_cases (c : UInt8) :
    (∃ entity ∈ entities, entity.1 = c ∧ escapeChar c = entity.2) ∨
      (c ≠ ascii '&' ∧ c ∉ markup ∧ escapeChar c = [c]) := by
  by_cases h : c ∈ entities.map Prod.fst
  · left
    obtain ⟨entity, hmem, rfl⟩ := List.mem_map.mp h
    have hall : ∀ entity ∈ entities, escapeChar entity.1 = entity.2 := by decide
    exact ⟨entity, hmem, rfl, hall entity hmem⟩
  · right
    simp only [entities, List.map_cons, List.map_nil, List.mem_cons,
      List.not_mem_nil, or_false, not_or] at h
    obtain ⟨hlt, hgt, hamp, hquot, hapos⟩ := h
    refine ⟨hamp, ?_, ?_⟩
    · simp [markup, hlt, hgt, hquot, hapos]
    · rw [escapeChar, if_neg hlt, if_neg hgt, if_neg hamp, if_neg hquot,
        if_neg hapos]

theorem decodeFrom_escapeChar (c : UInt8) (rest : Bytes) :
    decodeFrom 0 (escapeChar c ++ rest) = c :: decodeFrom 0 rest := by
  rcases escapeChar_cases c with ⟨entity, hmem, rfl, hescape⟩ | ⟨hc, -, hescape⟩
  · obtain ⟨name, hname, -⟩ := entity_cons hmem
    have hat := entityAt_entity hmem rest
    rw [hname, List.cons_append] at hat
    rw [hescape, hname, List.cons_append, decodeFrom, hat]
    dsimp only
    rw [hname, List.length_cons, Nat.add_sub_cancel, decodeFrom_length]
  · rw [hescape, List.singleton_append, decodeFrom, entityAt_other hc]

theorem decodeEntities_escape (s : Bytes) :
    decodeEntities (s.flatMap escapeChar) = s := by
  rw [decodeEntities]
  induction s with
  | nil => rfl
  | cons c s ih => rw [List.flatMap_cons, decodeFrom_escapeChar, ih]

theorem Escaped.append {a b : Bytes} (ha : Escaped a) (hb : Escaped b) :
    Escaped (a ++ b) where
  safe c hc := (List.mem_append.mp hc).elim (ha.safe c) (hb.safe c)
  entity before rest h := by
    rcases List.append_eq_append_iff.mp h with
      ⟨between, hbefore, hrest⟩ | ⟨between, hbefore, hrest⟩
    · exact hb.entity between rest hrest
    · cases between with
      | nil =>
          exact hb.entity [] rest hrest.symm
      | cons c between =>
          rw [List.cons_append, List.cons.injEq] at hrest
          obtain ⟨rfl, rfl⟩ := hrest
          obtain ⟨entity, hmem, hprefix⟩ := ha.entity before between hbefore
          exact ⟨entity, hmem, hprefix.trans
            (List.prefix_append (ascii '&' :: between) b)⟩

theorem escapeChar_escaped (c : UInt8) : Escaped (escapeChar c) := by
  rcases escapeChar_cases c with
    ⟨entity, hmem, -, hescape⟩ | ⟨hc, hsafe, hescape⟩
  · obtain ⟨name, hname, hnone, hsafe⟩ := entity_cons hmem
    rw [hescape]
    refine ⟨hsafe, fun before rest h => ?_⟩
    rw [hname] at h
    cases before with
    | nil =>
        exact ⟨entity, hmem, by rw [hname, h]; exact List.prefix_rfl⟩
    | cons b before =>
        rw [List.cons_append, List.cons.injEq] at h
        exact absurd (h.2 ▸ List.mem_append_right before List.mem_cons_self)
          hnone
  · rw [hescape]
    refine ⟨fun b hb => List.mem_singleton.mp hb ▸ hsafe, ?_⟩
    intro before rest h
    have hmem : ascii '&' ∈ [c] := by
      rw [h]
      exact List.mem_append_right before List.mem_cons_self
    exact absurd (List.mem_singleton.mp hmem).symm hc

theorem escape_escaped (s : Bytes) : Escaped (s.flatMap escapeChar) := by
  induction s with
  | nil =>
      refine ⟨fun c hc => absurd hc List.not_mem_nil, fun before rest h => ?_⟩
      exact absurd h (by simp)
  | cons c s ih =>
      rw [List.flatMap_cons]
      exact (escapeChar_escaped c).append ih

variable {σ ο τ : Type} {fns : StreamFns τ} {cb : Callback σ ο τ}

/-- The name is looked up with success: its object hands out this string. -/
def HandsOut (cb : Callback σ ο τ) (env : σ) (name s : Bytes) : Prop :=
  ∃ resolved env' get free, cb.resolve env name = (.string resolved, env') ∧
    cb.stringGet resolved = some get ∧ (get env').1 = some s ∧
    cb.stringFree resolved = some free

/-- The tag is read up to its end and looks up a name that hands out this
string, while output is not suppressed. -/
structure TagReads (fns : StreamFns τ) (cb : Callback σ ο τ)
    (suffix : Option Bytes) (buffer parsed : Buffer σ ο τ) (s : Bytes) :
    Prop where
  name : ∃ name, Returns (parseName fns cb suffix buffer)
    (some name, parsed) ∧ name.string ≠ [] ∧
      HandsOut cb parsed.env name.string s
  shown : bufferSkipOutput parsed = false

def TagWrites (tag : Proc (Bool × Buffer σ ο τ)) (parsed : Buffer σ ο τ)
    (text : Bytes) : Prop :=
  ∃ r, Returns tag r ∧ r.2.output = parsed.output ++ text

theorem renderVariable_writes {suffix : Option Bytes} {error : String}
    {write : Option Bytes → Buffer σ ο τ → Proc (Buffer σ ο τ)}
    {buffer parsed : Buffer σ ο τ} {s text : Bytes}
    (h : TagReads fns cb suffix buffer parsed s)
    (hwrite : ∀ buffer, bufferSkipOutput buffer = false →
      Returns (write (some s) buffer) (bufferOutput buffer text)) :
    TagWrites (renderVariable fns cb suffix error write buffer) parsed text := by
  obtain ⟨name, hname, hne, resolved, env, get, free, hresolve, hget, hs,
    hfree⟩ := h.name
  let got := parsed.setEnv (get env).2
  have hshown : bufferSkipOutput got = false := h.shown
  have hwritten : Returns (write (some s) got) (bufferOutput got text) :=
    hwrite got hshown
  have houtput : (bufferOutput got text).output = parsed.output ++ text := by
    rw [bufferOutput, if_neg (ne_true_of_eq_false hshown)]
    rfl
  have hcall : Returns ((parsed.setEnv env).call (cb.stringGet resolved))
      (some s, got) := by
    rw [hget, ← hs]
    exact returns_pure_self _
  have hrelease : ∃ r, Returns (freeString cb resolved (bufferOutput got text))
      r ∧ r.2.output = parsed.output ++ text := by
    rw [freeString, hfree]
    refine ⟨_, (returns_pure_self _).bind (returns_pure_self _), ?_⟩
    split
    · exact houtput
    · exact houtput
  obtain ⟨r, hr, hout⟩ := hrelease
  refine ⟨r, ?_, hout⟩
  rw [renderVariable]
  apply hname.bind
  dsimp only
  rw [if_neg hne, Buffer.resolve, hresolve]
  exact hcall.bind (hwritten.bind hr)

/-- What `{{name}}` writes is safe and decodes to the value, which is what
`{{{name}}}` writes. -/
theorem escape_reversible {buffer parsed buffer' parsed' : Buffer σ ο τ}
    {s : Bytes} (hnul : 0 ∉ s)
    (hread : TagReads fns cb none buffer parsed s)
    (hread' : TagReads fns cb (some [ascii '}']) buffer' parsed' s) :
    ∃ text, TagWrites (renderStacheEscape fns cb buffer) parsed text ∧
      TagWrites (renderStacheRaw fns cb buffer') parsed' s ∧
      Escaped text ∧ decodeEntities text = s := by
  refine ⟨s.flatMap escapeChar, ?_, ?_, escape_escaped s,
    decodeEntities_escape s⟩
  · refine renderVariable_writes hread fun buffer _ => ?_
    rw [writeEscaped, foldl_bufferOutput, cString_of_not_mem hnul]
    exact returns_pure_self _
  · refine renderVariable_writes hread' fun buffer hshown => ?_
    rw [writeRaw, if_neg (ne_true_of_eq_false hshown), cString_of_not_mem hnul]
    exact returns_pure_self _

/-- Every name hands out a string that holds the text of an entity. -/
def entityAnswers : Answers Empty := fun _ _ =>
  .string (some (some (chars "<&lt;"))) (some true)

/-- The engine stands at a name of one byte; this is what follows it. -/
def beforeText (text : String) : Buffer (List Frame) (Answer Empty) Empty :=
  { newBuffer [] (newInputStreamFromString (chars text)) fun _ => ascii 'a' with
    index := 0, fill := 1 }

theorem escape_reversible_entity :
    ∃ parsed parsed' text, TagWrites
        (renderStacheEscape noStreams (answering entityAnswers)
          (beforeText "\x7d\x7d.")) parsed text ∧
      TagWrites
        (renderStacheRaw noStreams (answering entityAnswers)
          (beforeText "\x7d\x7d\x7d.")) parsed' (chars "<&lt;") ∧
      Escaped text ∧ decodeEntities text = chars "<&lt;" := by
  have hname : Returns (parseName noStreams (answering entityAnswers) none
      (beforeText "\x7d\x7d.")) (some ⟨chars "a", 16⟩, _) := ⟨4, rfl⟩
  have hraw : Returns (parseName noStreams (answering entityAnswers)
      (some [ascii '\x7d']) (beforeText "\x7d\x7d\x7d."))
      (some ⟨chars "a", 16⟩, _) := ⟨5, rfl⟩
  have hne : (⟨chars "a", 16⟩ : NameBlock).string ≠ [] := by decide
  have hands : ∀ env, HandsOut (answering entityAnswers) env
      (⟨chars "a", 16⟩ : NameBlock).string (chars "<&lt;") :=
    fun env => ⟨_, _, _, _, rfl, rfl, rfl, rfl⟩
  exact ⟨_, _, escape_reversible (by decide)
    ⟨⟨_, hname, hne, hands _⟩, rfl⟩ ⟨⟨_, hraw, hne, hands _⟩, rfl⟩⟩

end Libcad
