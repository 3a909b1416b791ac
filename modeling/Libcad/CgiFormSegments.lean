/-
Forms made of segments: pairs, names without a value, and nothing at all.
-/
import Libcad.CgiFormPairs

namespace Libcad

open Proc

/-- `text` spells `plain`: a byte stands for itself, unless it is one of
`stops`, or is written as an escape or, a blank, as `+`. -/
inductive Spells (stops : Bytes) : Bytes → Bytes → Prop
  | nil : Spells stops [] []
  | kept {b : UInt8} {plain text : Bytes} : b ∉ stops → b ≠ ascii '%' →
      b ≠ ascii '+' → Spells stops plain text →
      Spells stops (b :: plain) (b :: text)
  | escaped {b h l : UInt8} {high low : Int} {plain text : Bytes} :
      hexDigit (charToInt h) = some high → hexDigit (charToInt l) = some low →
      (b.toNat : Int) = 16 * high + low → Spells stops plain text →
      Spells stops (b :: plain) (ascii '%' :: h :: l :: text)
  | plus {plain text : Bytes} : Spells stops plain text →
      Spells stops (ascii ' ' :: plain) (ascii '+' :: text)

def nameStops : Bytes := [ascii '=', ascii '&']

def valueStops : Bytes := [ascii '&', ascii '\n']

/-- What stands between two `&`. -/
inductive Segment
  | pair (key value : Bytes)
  | bare (key : Bytes)
  | empty
deriving Repr, DecidableEq

namespace Segment

def Spelled : Segment → Bytes → Prop
  | .pair key value, text => key ≠ [] ∧ ∃ keyText valueText,
      Spells nameStops key keyText ∧ Spells valueStops value valueText ∧
        text = keyText ++ ascii '=' :: valueText
  | .bare key, text => key ≠ [] ∧ Spells nameStops key text
  | .empty, text => text = []

/-- The key and the value of a pair, as C strings. -/
def pair? : Segment → Option (Bytes × Bytes)
  | .pair key value => some (cString key, cString value)
  | _ => none

/-- The pairs as the decoder reads them: what stands directly before a pair
becomes a part of its name, the `&` included. -/
def absorbed : Bytes → List Segment → List (Bytes × Bytes)
  | _, [] => []
  | before, .pair key value :: segments =>
      (cString (before ++ key), cString value) :: absorbed [] segments
  | before, .bare key :: segments =>
      absorbed (before ++ key ++ [ascii '&']) segments
  | before, .empty :: segments => absorbed (before ++ [ascii '&']) segments

end Segment

theorem charToInt_ne_chr {b : UInt8} {c : Char} (hc : intToChar (chr c) = ascii c)
    (h : b ≠ ascii c) : charToInt b ≠ chr c := by
  intro heq
  rw [← intToChar_charToInt b, heq, hc] at h
  exact h rfl

namespace FormReader

/-- The readers that differ in the text of the current name or value take over
what a text spells. -/
structure Copies (stops : Bytes) (reader : Bytes → FormReader) : Prop where
  plain : ∀ (before : Bytes) (b : UInt8), b ∉ stops → b ≠ ascii '%' →
    (reader before).next (charToInt b) =
      some ([], reader (before ++ [plainByte (charToInt b)]))
  escaped : ∀ (before : Bytes) (h l high low : Int),
    hexDigit h = some high → hexDigit l = some low →
    (reader before).run [chr '%', h, l] =
      ([], some (reader (before ++ [escapedByte high low])))

theorem Copies.run {stops : Bytes} {reader : Bytes → FormReader}
    (hcopies : Copies stops reader) (hplus : ascii '+' ∉ stops)
    {plain text : Bytes} (h : Spells stops plain text) (before : Bytes) :
    (reader before).run (text.map charToInt) =
      ([], some (reader (before ++ plain))) := by
  induction h generalizing before with
  | nil => rw [List.append_nil]; rfl
  | @kept b plain text hstops hpercent hb _ ih =>
      have hplain : plainByte (charToInt b) = b := by
        rw [plainByte, if_neg (charToInt_ne_chr rfl hb), intToChar_charToInt]
      rw [List.map_cons, run_cons (hcopies.plain before b hstops hpercent), ih,
        hplain, List.append_assoc]
      rfl
  | @escaped b h l high low plain text hh hl hb _ ih =>
      have hrun := hcopies.escaped before _ _ high low hh hl
      have hbyte : escapedByte high low = b := intToChar_of_toNat hb
      rw [hbyte] at hrun
      have happend := run_append (congrArg Prod.snd hrun) (text.map charToInt)
      rw [hrun, ih, List.append_assoc] at happend
      exact happend
  | @plus plain text _ ih =>
      rw [List.map_cons, run_cons (hcopies.plain before _ hplus (by decide)), ih,
        List.append_assoc]
      rfl

def inName (before : Bytes) : FormReader :=
  ⟨.name (decide (before ≠ [])), before, [], 0⟩

def inValue (name before : Bytes) : FormReader := ⟨.value, name, before, 0⟩

theorem inName_append (before : Bytes) (b : UInt8) :
    inName (before ++ [b]) = ⟨.name true, before ++ [b], [], 0⟩ := by
  simp [inName]

theorem copies_inName : Copies nameStops inName where
  plain before b hstops hpercent := by
    have hequals : charToInt b ≠ chr '=' :=
      charToInt_ne_chr rfl fun h => hstops (by rw [h]; decide)
    rw [inName_append, next, inName, Place.next, if_neg hequals,
      if_neg (charToInt_ne_chr rfl hpercent)]
    rfl
  escaped before h l high low hh hl := by
    have hhigh : (inName before).run [chr '%', h, l] =
        (⟨.nameHigh (decide (before ≠ [])), before, [], 0⟩ :
          FormReader).run [h, l] := rfl
    rw [hhigh, inName_append, run, next, Place.next, hh]
    simp only [Option.isSome_some, ↓reduceIte, Option.map_some,
      Option.getD_some, List.nil_append]
    rw [run, next, Place.next, hl]
    rfl

theorem copies_inValue (name : Bytes) : Copies valueStops (inValue name) where
  plain before b hstops hpercent := by
    have hamp : charToInt b ≠ chr '&' :=
      charToInt_ne_chr rfl fun h => hstops (by rw [h]; decide)
    have hnewline : charToInt b ≠ chr '\n' :=
      charToInt_ne_chr rfl fun h => hstops (by rw [h]; decide)
    rw [next, inValue, Place.next, if_neg (not_or.mpr ⟨hamp, hnewline⟩),
      if_neg (charToInt_ne_chr rfl hpercent)]
    rfl
  escaped before h l high low hh hl := by
    have hhigh : (inValue name before).run [chr '%', h, l] =
        (⟨.valueHigh, name, before, 0⟩ : FormReader).run [h, l] := rfl
    rw [hhigh, run, next, Place.next, hh]
    simp only [Option.isSome_some, ↓reduceIte, Option.map_some,
      Option.getD_some, List.nil_append]
    rw [run, next, Place.next, hl]
    rfl

theorem next_equals {name : Bytes} (h : name ≠ []) :
    (inName name).next (chr '=') = some ([], inValue name []) := by
  rw [next, inName, decide_eq_true h]
  rfl

theorem next_ampersand (before : Bytes) :
    (inName before).next (chr '&') =
      some ([], inName (before ++ [ascii '&'])) := by
  rw [inName_append]
  rfl

theorem next_end_value (name value : Bytes) :
    (inValue name value).next (chr '&') = some ([(name, value)], inName []) :=
  rfl

end FormReader

def cPair (pair : Bytes × Bytes) : Bytes × Bytes :=
  (cString pair.1, cString pair.2)

open FormReader

/-- Reading one segment: what the end of the input makes of it, and what the
next `&` does. -/
theorem run_segment {segment : Segment} {text : Bytes}
    (h : segment.Spelled text) (before : Bytes) :
    ∃ r, (inName before).run (text.map charToInt) = ([], some r) ∧
      r.pending.map cPair = Segment.absorbed before [segment] ∧
      ∃ pairs after, r.next (chr '&') = some (pairs, inName after) ∧
        ∀ segments, Segment.absorbed before (segment :: segments) =
          pairs.map cPair ++ Segment.absorbed after segments := by
  cases segment with
  | pair key value =>
      obtain ⟨hne, keyText, valueText, hkey, hvalue, rfl⟩ := h
      have hrun := copies_inName.run (by decide) hkey before
      have hrest : (inName (before ++ key)).run
          ((ascii '=' :: valueText).map charToInt) =
            ([], some (inValue (before ++ key) value)) := by
        have hequals := @next_equals (before ++ key) (by simp [hne])
        rw [List.map_cons]
        exact (run_cons hequals _).trans (by
          rw [(copies_inValue _).run (by decide) hvalue]
          rfl)
      refine ⟨inValue (before ++ key) value, ?_, rfl, _, _,
        next_end_value _ _, fun segments => rfl⟩
      rw [List.map_append, run_append (congrArg Prod.snd hrun), hrun, hrest]
      rfl
  | bare key =>
      refine ⟨_, copies_inName.run (by decide) h.2 before, rfl, _, _,
        next_ampersand _, fun segments => rfl⟩
  | empty =>
      cases h
      exact ⟨inName before, rfl, rfl, _, _, next_ampersand _,
        fun segments => rfl⟩

theorem read_segments {segments : List Segment} {texts : List Bytes}
    (h : List.Forall₂ Segment.Spelled segments texts) (before : Bytes) :
    ((inName before).read
      ((List.intercalate [ascii '&'] texts).map charToInt)).map cPair =
        Segment.absorbed before segments := by
  induction h generalizing before with
  | nil => rfl
  | @cons segment text segments texts hsegment htail ih =>
      obtain ⟨r, hrun, hpending, pairs, after, hnext, habsorbed⟩ :=
        run_segment hsegment before
      cases htail with
      | nil =>
          rw [List.intercalate_singleton, read_eq_pending hrun]
          exact hpending
      | @cons segment' text' segments' texts' _ _ =>
          rw [List.intercalate_cons_cons, List.append_assoc, List.map_append,
            read_run hrun, List.singleton_append, List.map_cons,
            read_cons (show (r.next (charToInt (ascii '&'))) = _ from hnext),
            List.nil_append, List.map_append, ih, habsorbed]

/-- Where only segments without a value follow the pairs, nothing is absorbed. -/
theorem absorbed_of_trailing {segments : List Segment}
    (h : segments.Pairwise fun s s' => s'.pair?.isSome → s.pair?.isSome) :
    Segment.absorbed [] segments = segments.filterMap Segment.pair? := by
  have hnone : ∀ {segments : List Segment},
      (∀ s ∈ segments, s.pair? = none) → ∀ before,
      Segment.absorbed before segments = segments.filterMap Segment.pair? := by
    intro segments hnone
    induction segments with
    | nil => exact fun before => rfl
    | cons s segments ih =>
        intro before
        have hrest := ih fun s' hs' => hnone s' (List.mem_cons_of_mem s hs')
        cases s with
        | pair key value => cases hnone _ List.mem_cons_self
        | bare key => exact hrest _
        | empty => exact hrest _
  induction segments with
  | nil => rfl
  | cons s segments ih =>
      obtain ⟨hs, hsegments⟩ := List.pairwise_cons.mp h
      cases hpair : s.pair? with
      | some pair =>
          cases s with
          | pair key value => exact congrArg _ (ih hsegments)
          | _ => cases hpair
      | none =>
          refine hnone ?_ []
          intro s' hs'
          rcases List.mem_cons.mp hs' with rfl | hs'
          · exact hpair
          · have himp := hs s' hs'
            rw [hpair] at himp
            exact Option.not_isSome_iff_eq_none.mp fun h => by cases himp h

/-- The table has the last value of every pair exactly when the last pair with
the name of a pair and the last pair read under this name have the same value;
for one, when segments without a value come after all pairs. -/
theorem parseQueryOrForm_segments_iff {τ : Type} (fns : StreamFns τ)
    (segments : List Segment) (texts : List Bytes) (input : InputStream τ)
    (htexts : List.Forall₂ Segment.Spelled segments texts)
    (hinput : input.Delivers fns (List.intercalate [ascii '&'] texts)) :
    ((∃ hash, Returns (parseQueryOrForm fns input) hash ∧
        ∀ key value,
          (segments.filterMap Segment.pair?).reverse.lookup key = some value →
            Dict.get stringsEqual hash key = some (some value)) ↔
      ∀ key value,
        (segments.filterMap Segment.pair?).reverse.lookup key = some value →
          (Segment.absorbed [] segments).reverse.lookup key = some value) ∧
    ((segments.Pairwise fun s s' => s'.pair?.isSome → s.pair?.isSome) →
      ∃ hash, Returns (parseQueryOrForm fns input) hash ∧
        ∀ key, Dict.get stringsEqual hash key =
          ((segments.filterMap Segment.pair?).reverse.lookup key).map some) := by
  have hreads := parseQueryOrForm_reads hinput
  have hpairs : formPairs (List.intercalate [ascii '&'] texts) =
      Segment.absorbed [] segments := read_segments htexts []
  rw [hpairs] at hreads
  have hget := get_foldl_store (Segment.absorbed [] segments)
  refine ⟨⟨?_, fun h => ⟨_, hreads, fun key value hlast => ?_⟩⟩,
    fun htrailing => ⟨_, hreads, fun key => ?_⟩⟩
  · rintro ⟨hash, hreturns, h⟩ key value hlast
    have hvalue := h key value hlast
    rw [hreturns.unique hreads, hget] at hvalue
    obtain ⟨value', hlookup, heq⟩ := Option.map_eq_some_iff.mp hvalue
    exact Option.some.inj heq ▸ hlookup
  · rw [hget, h key value hlast]
    rfl
  · rw [hget, absorbed_of_trailing htrailing]

/-- `a=1&b`: the name without a value comes last. -/
theorem parseQueryOrForm_segments_iff_trailing :
    ((∃ hash, Returns (parseQueryOrForm noStreams
        (newInputStreamFromString [97, 61, 49, 38, 98])) hash ∧
        ∀ key value,
          ([Segment.pair [97] [49], .bare [98]].filterMap
            Segment.pair?).reverse.lookup key = some value →
            Dict.get stringsEqual hash key = some (some value)) ↔
      ∀ key value,
        ([Segment.pair [97] [49], .bare [98]].filterMap
          Segment.pair?).reverse.lookup key = some value →
          (Segment.absorbed [] [.pair [97] [49], .bare [98]]).reverse.lookup
            key = some value) ∧
    (([Segment.pair [97] [49], .bare [98]].Pairwise
        fun s s' => s'.pair?.isSome → s.pair?.isSome) →
      ∃ hash, Returns (parseQueryOrForm noStreams
        (newInputStreamFromString [97, 61, 49, 38, 98])) hash ∧
        ∀ key, Dict.get stringsEqual hash key =
          (([Segment.pair [97] [49], .bare [98]].filterMap
            Segment.pair?).reverse.lookup key).map some) :=
  parseQueryOrForm_segments_iff noStreams [.pair [97] [49], .bare [98]]
    [[97, 61, 49], [98]] (newInputStreamFromString [97, 61, 49, 38, 98])
    (.cons ⟨by decide, [97], [49],
        .kept (by decide) (by decide) (by decide) .nil,
        .kept (by decide) (by decide) (by decide) .nil, rfl⟩
      (.cons ⟨by decide, .kept (by decide) (by decide) (by decide) .nil⟩ .nil))
    (newInputStreamFromString_delivers _ _ (by decide) (by decide))

/-- `a&b=1`: there is no `b` in the table. -/
theorem parseQueryOrForm_bare_before :
    List.Forall₂ Segment.Spelled [.bare [97], .pair [98] [49]]
        [[97], [98, 61, 49]] ∧
      ([Segment.bare [97], .pair [98] [49]].filterMap
        Segment.pair?).reverse.lookup [98] = some [49] ∧
      ∃ hash, Returns (parseQueryOrForm noStreams (newInputStreamFromString
          (List.intercalate [ascii '&'] [[97], [98, 61, 49]]))) hash ∧
        Dict.get stringsEqual hash [98] = none := by
  refine ⟨?_, rfl, [([97, 38, 98], some [49])], ⟨7, rfl⟩, rfl⟩
  refine .cons ⟨by decide, .kept (by decide) (by decide) (by decide) .nil⟩
    (.cons ⟨by decide, [98], [49], ?_, ?_, rfl⟩ .nil)
  · exact .kept (by decide) (by decide) (by decide) .nil
  · exact .kept (by decide) (by decide) (by decide) .nil

end Libcad
