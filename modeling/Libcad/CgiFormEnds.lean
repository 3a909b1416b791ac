/-
The streams on which `parse_query_or_form` comes to an end.
-/
import Libcad.CgiForm

namespace Libcad

open Proc

variable {τ : Type} {fns : StreamFns τ} {st : QueryState τ} {r : FormReader}

def Place.walk : Place → List Int → Option Place
  | place, [] => some place
  | place, c :: items => (place.next c).bind fun place => place.walk items

/-- Every `next` from here on fails. -/
def InputStream.Stalled (fns : StreamFns τ) (input : InputStream τ) : Prop :=
  ∀ n, (((fun i => (i.next fns).2)^[n] input).next fns).1 ≠ 0

theorem InputStream.Stalled.next {input : InputStream τ}
    (h : input.Stalled fns) : (input.next fns).2.Stalled fns :=
  fun n => h (n + 1)

/-- A `next` fails for ever right at an item that is malformed where it
stands. -/
def FailsMalformed (fns : StreamFns τ) (place : Place) (items : List Int)
    (last : InputStream τ) : Prop :=
  last.Stalled fns ∧ last.item fns ≠ eof ∧ eof ∉ items ∧
    ∃ place', place.walk items = some place' ∧
      place'.next (last.item fns) = none

/-- The decoder shows a reader, or it did when it failed. -/
def QueryState.Stands (st : QueryState τ) : Prop :=
  ∃ r : FormReader, ({ st with s := r.place.number } : QueryState τ).Shows r ∧
    (st.s = r.place.number ∨ st.s = -r.place.number)

theorem QueryState.Shows.stands (hst : st.Shows r) (input : InputStream τ)
    (c : Int) {n : Int} (hn : n = st.s ∨ n = -st.s) :
    ({ st with s := n, input := input, c := c } : QueryState τ).Stands := by
  refine ⟨r, ⟨rfl, hst.out_eq, hst.attr_isSome, hst.attr_eq,
    hst.value_eq_none, hst.value_eq, hst.encoded_eq⟩, ?_⟩
  rwa [← hst.s_eq]

/-- Where there is something to read, the decoder has not failed. -/
theorem QueryState.Stands.shows (h : st.Stands) (hs : 0 < st.s) :
    ∃ r, st.Shows r := by
  obtain ⟨r, hst, hn | hn⟩ := h
  · exact ⟨r, hn, hst.out_eq, hst.attr_isSome, hst.attr_eq,
      hst.value_eq_none, hst.value_eq, hst.encoded_eq⟩
  · have hpos := r.place.number_pos
    omega

/-- An iteration leaves a decoder that shows a reader or did, or the loop is
left. -/
theorem queryStep_stands (fns : StreamFns τ) (h : st.Stands) :
    (∃ st', Returns (queryStep fns st) (.inl st') ∧ st'.Stands) ∨
      Returns (queryStep fns st) (.inr st) := by
  by_cases hlive : st.c = eof ∨ st.s ≤ 0
  · exact Or.inr (queryStep_exit hlive)
  · have hc : st.c ≠ eof := fun h => hlive (Or.inl h)
    have hs : 0 < st.s := by omega
    obtain ⟨r, hst⟩ := h.shows hs
    cases hnext : r.next st.c with
    | some after =>
        obtain ⟨st', hchar, hst', -, hinput⟩ := hst.decodes hnext
        by_cases hok : (st.input.next fns).1 = 0
        · exact Or.inl ⟨_, queryStep_moves hc hs hchar hinput hok,
            hst'.stands _ _ (Or.inl rfl)⟩
        · exact Or.inl ⟨_, queryStep_fails hc hs hchar hinput hok,
            hst'.stands _ _ (Or.inr rfl)⟩
    | none =>
        have hchar := hst.malformed (FormReader.next_eq_none_iff.mp hnext)
        by_cases hok : (st.input.next fns).1 = 0
        · exact Or.inl ⟨_, queryStep_moves hc hs hchar rfl hok,
            hst.stands _ _ (Or.inr rfl)⟩
        · exact Or.inl ⟨_, queryStep_fails hc hs hchar rfl hok,
            hst.stands _ _ (Or.inl (Int.neg_neg _))⟩

theorem parseQueryOrForm_returns_iff (input : InputStream τ) :
    (∃ hash, Returns (parseQueryOrForm fns input) hash) ↔
      ∃ st, Returns (Proc.loop (queryStep fns) (.start fns input)) st := by
  rw [parseQueryOrForm_eq]
  constructor
  · rintro ⟨hash, h⟩
    obtain ⟨st, hst, -⟩ := returns_bind.mp h
    exact ⟨st, hst⟩
  · rintro ⟨st, hst⟩
    have hstands : st.Stands := by
      refine Returns.loop_invariant (I := QueryState.Stands) ?_ ?_
        ((start_shows fns input).stands input (input.item fns) (Or.inl rfl))
        hst
      · intro s s' hs hstep
        rcases queryStep_stands fns hs with ⟨next, hnext, hstands⟩ | hexit
        · exact Sum.inl.inj (hnext.unique hstep) ▸ hstands
        · cases hexit.unique hstep
      · intro s s' hs hstep
        rcases queryStep_stands fns hs with ⟨next, hnext, -⟩ | hexit
        · cases hnext.unique hstep
        · exact Sum.inr.inj (hexit.unique hstep) ▸ hs
    obtain ⟨r, hshows, hn⟩ := hstands
    exact ⟨_, hst.bind (hshows.last hn)⟩

/-- Between a malformed item and a failing stream the loop turns the sign of
the state twice in every iteration. -/
theorem loop_stalled (hst : st.Shows r) (hc : st.c ≠ eof)
    (hmalformed : r.place.next st.c = none) (hstalled : st.input.Stalled fns) :
    ∀ st', ¬ Returns (Proc.loop (queryStep fns) st) st' := by
  intro st' h
  have hfails : ∀ s : QueryState τ, s.Shows r ∧ s.c = st.c ∧
      s.input.Stalled fns → Returns (queryStep fns s) (.inl
        { s with input := (s.input.next fns).2, s := - -s.s }) := by
    rintro s ⟨hs, hsc, hstalled⟩
    exact queryStep_fails (hsc ▸ hc) hs.s_pos (hs.malformed (hsc ▸ hmalformed))
      rfl (hstalled 0)
  refine Returns.loop_invariant
    (I := fun s => s.Shows r ∧ s.c = st.c ∧ s.input.Stalled fns)
    (Q := fun _ => False) ?_ ?_ ⟨hst, rfl, hstalled⟩ h
  · intro s s' hs hstep
    cases hstep.unique (hfails s hs)
    obtain ⟨hs, hsc, hstalled⟩ := hs
    exact ⟨⟨(Int.neg_neg _).trans hs.s_eq, hs.out_eq, hs.attr_isSome,
      hs.attr_eq, hs.value_eq_none, hs.value_eq, hs.encoded_eq⟩, hsc,
      hstalled.next⟩
  · intro s s' hs hstep
    cases hstep.unique (hfails s hs)

/-- Before a well-formed item the answer is the same as after it. -/
theorem failsMalformed_cons {place place' : Place} {c : Int} {items : List Int}
    {last : InputStream τ} (hc : c ≠ eof) (h : place.next c = some place') :
    FailsMalformed fns place (c :: items) last ↔
      FailsMalformed fns place' items last := by
  have hmem : eof ∉ c :: items ↔ eof ∉ items := by
    rw [List.mem_cons, not_or]
    exact and_iff_right (Ne.symm hc)
  have hwalk : place.walk (c :: items) = place'.walk items := by
    rw [Place.walk, h]
    rfl
  rw [FailsMalformed, FailsMalformed, hmem, hwalk]

/-- The loop comes to an end exactly when it is not kept between a malformed
item and a failing stream. -/
theorem loop_ends_iff (items : List Int) {last : InputStream τ}
    (hend : last.item fns = eof ∨ last.Stalled fns) :
    ∀ {st : QueryState τ} {r : FormReader}, st.Shows r →
      st.c = st.input.item fns → st.input.Reads fns items last →
      ((∃ st', Returns (Proc.loop (queryStep fns) st) st') ↔
        ¬ FailsMalformed fns r.place items last) := by
  induction items with
  | nil =>
      intro st r hst hc hreads
      cases hreads
      by_cases heof : st.c = eof
      · refine iff_of_true ⟨st, (queryStep_exit (Or.inl heof)).loop_exit⟩ ?_
        rintro ⟨-, hitem, -⟩
        exact hitem (hc ▸ heof)
      · have hstalled := hend.resolve_left (hc ▸ heof)
        cases hnext : r.next st.c with
        | some after =>
            obtain ⟨st', hchar, hst', -, hinput⟩ := hst.decodes hnext
            have hfails :=
              queryStep_fails heof hst.s_pos hchar hinput (hstalled 0)
            have hpos := hst'.s_pos
            have hexit := @queryStep_exit _
              { st' with input := (st.input.next fns).2, s := -st'.s } fns
              (Or.inr (by simp only; omega))
            refine iff_of_true ⟨_, hfails.loop_next.mpr hexit.loop_exit⟩ ?_
            rintro ⟨-, -, -, place, hwalk, hnone⟩
            cases hwalk
            rw [← hc, ← FormReader.next_eq_none_iff, hnext] at hnone
            cases hnone
        | none =>
            have hmalformed := FormReader.next_eq_none_iff.mp hnext
            refine iff_of_false ?_ (not_not.mpr
              ⟨hstalled, hc ▸ heof, List.not_mem_nil, r.place, rfl,
                hc ▸ hmalformed⟩)
            rintro ⟨st', h⟩
            exact loop_stalled hst heof hmalformed hstalled st' h
  | cons c items ih =>
      intro st r hst hc hreads
      obtain ⟨hitem, hok, hrest⟩ := hreads
      have hcur : st.c = c := hc.trans hitem
      by_cases heof : c = eof
      · refine iff_of_true
          ⟨st, (queryStep_exit (Or.inl (hcur.trans heof))).loop_exit⟩ ?_
        rintro ⟨-, -, hmem, -⟩
        exact hmem (heof ▸ List.mem_cons_self)
      · have hlive : st.c ≠ eof := hcur ▸ heof
        cases hnext : r.next c with
        | some after =>
            obtain ⟨pairs, r'⟩ := after
            obtain ⟨st', hchar, hst', -, hinput⟩ := hst.decodes (hcur ▸ hnext)
            have hmoves := queryStep_moves hlive hst.s_pos hchar hinput hok
            have hinput' : (st'.advance fns).input = (st.input.next fns).2 := by
              rw [QueryState.advance, hinput]
            have hplace : r.place.next c = some r'.place := by
              rw [← FormReader.next_place, hnext]
              rfl
            rw [failsMalformed_cons heof hplace,
              ← ih hst'.advance rfl (hinput' ▸ hrest)]
            exact exists_congr fun st' => hmoves.loop_next
        | none =>
            have hmalformed := FormReader.next_eq_none_iff.mp hnext
            have hchar := hst.malformed (hcur ▸ hmalformed)
            have hmoves := queryStep_moves hlive hst.s_pos hchar rfl hok
            have hpos := hst.s_pos
            have hexit := @queryStep_exit _
              ({ st with s := -st.s }.advance fns) fns
              (Or.inr (by simp only [QueryState.advance]; omega))
            refine iff_of_true ⟨_, hmoves.loop_next.mpr hexit.loop_exit⟩ ?_
            rintro ⟨-, -, -, place, hwalk, -⟩
            rw [Place.walk, hmalformed] at hwalk
            cases hwalk

/-- On a stream that yields finitely many items and then ends or fails for ever
the decoder returns, unless the failure comes right at a malformed item: the
item turns the sign of the state, the failed `next` turns it back. -/
theorem parseQueryOrForm_terminates_iff (fns : StreamFns τ) (items : List Int)
    (input last : InputStream τ) (hreads : input.Reads fns items last)
    (hend : last.item fns = eof ∨ last.Stalled fns) :
    (∃ hash, Returns (parseQueryOrForm fns input) hash) ↔
      ¬ FailsMalformed fns (.name false) items last := by
  rw [parseQueryOrForm_returns_iff]
  exact loop_ends_iff items hend (start_shows fns input) rfl hreads

/-- `a`, then the end. -/
theorem parseQueryOrForm_terminates_iff_ended :
    (∃ hash, Returns (parseQueryOrForm noStreams
        (.string ⟨[97], 0⟩)) hash) ↔
      ¬ FailsMalformed noStreams (.name false) [97] (.string ⟨[97], 1⟩) :=
  parseQueryOrForm_terminates_iff noStreams [97] (.string ⟨[97], 0⟩)
    (.string ⟨[97], 1⟩) ⟨rfl, rfl, rfl⟩ (Or.inl rfl)

/-- A stream whose `next` always fails. -/
def brokenFns : StreamFns UInt8 := ⟨charToInt, fun c => (-1, c)⟩

theorem brokenFns_stays (c : UInt8) (n : Nat) :
    (fun i => (InputStream.next brokenFns i).2)^[n] (.other c) = .other c :=
  Function.iterate_fixed rfl n

/-- `=`, then failures: the loop goes on for ever. -/
theorem parseQueryOrForm_broken_equals :
    (InputStream.other (ascii '=')).Reads brokenFns []
        (.other (ascii '=')) ∧
      (InputStream.other (ascii '=')).Stalled brokenFns ∧
      (∀ n, ((fun i => (InputStream.next brokenFns i).2)^[n]
        (.other (ascii '='))).item brokenFns = chr '=') ∧
      ¬ ∃ hash, Returns (parseQueryOrForm brokenFns
        (.other (ascii '='))) hash := by
  have hstalled : (InputStream.other (ascii '=')).Stalled brokenFns := by
    intro n hok
    rw [brokenFns_stays] at hok
    cases hok
  refine ⟨rfl, hstalled, fun n => ?_, ?_⟩
  · rw [brokenFns_stays]
    rfl
  · rw [parseQueryOrForm_returns_iff]
    rintro ⟨st, h⟩
    exact loop_stalled (start_shows brokenFns (.other (ascii '=')))
      (by decide) rfl hstalled st h

end Libcad
