/-
Forms put together from parts: a form after a complete pair, and segments of
which some are no pairs.
-/
import Libcad.CgiForm

namespace Libcad

open Proc

namespace FormReader

theorem run_append {r r' : FormReader} {items : List Int}
    (h : (r.run items).2 = some r') (more : List Int) :
    r.run (items ++ more) =
      ((r.run items).1 ++ (r'.run more).1, (r'.run more).2) := by
  induction items generalizing r with
  | nil =>
      cases h
      rfl
  | cons c items ih =>
      rw [List.cons_append]
      cases hnext : r.next c with
      | none =>
          rw [run_cons_none hnext] at h
          cases h
      | some after =>
          obtain ⟨pairs, r''⟩ := after
          rw [run_cons hnext] at h
          rw [run_cons hnext, run_cons hnext, ih h, List.append_assoc]

theorem next_end {r : FormReader} {c : Int} (hr : r.place = .value)
    (hc : c = chr '&' ∨ c = chr '\n') :
    r.next c = some ([(r.name, r.value)], fresh) := by
  rw [next, hr, Place.next, if_pos hc]
  rfl

theorem read_run {r r' : FormReader} {items : List Int}
    {pairs : List (Bytes × Bytes)} (h : r.run items = (pairs, some r'))
    (more : List Int) : r.read (items ++ more) = pairs ++ r'.read more := by
  rw [read, run_append (congrArg Prod.snd h), h, read, List.append_assoc]

theorem read_eq_pending {r r' : FormReader} {items : List Int}
    {pairs : List (Bytes × Bytes)} (h : r.run items = (pairs, some r')) :
    r.read items = pairs ++ r'.pending := by
  rw [read, h]
  rfl

/-- After a complete pair, reading goes on as from the beginning. -/
theorem read_append {r r' : FormReader} {items : List Int}
    (hrun : (r.run items).2 = some r') (hr : r'.place = .value) {c : Int}
    (hc : c = chr '&' ∨ c = chr '\n') (more : List Int) :
    r.read (items ++ c :: more) = r.read items ++ fresh.read more := by
  have hitems : r.run items = ((r.run items).1, some r') := by rw [← hrun]
  rw [read_run hitems, read_eq_pending hitems, read_cons (next_end hr hc),
    pending, if_pos hr, List.append_assoc]

end FormReader

variable {τ : Type}

theorem formPairs_append {u : Bytes} {r : FormReader}
    (hrun : (FormReader.fresh.run (u.map charToInt)).2 = some r)
    (hr : r.place = .value) {sep : UInt8}
    (hsep : sep = ascii '&' ∨ sep = ascii '\n') (v : Bytes) :
    formPairs (u ++ sep :: v) = formPairs u ++ formPairs v := by
  have hc : charToInt sep = chr '&' ∨ charToInt sep = chr '\n' := by
    rcases hsep with rfl | rfl
    · exact Or.inl rfl
    · exact Or.inr rfl
  rw [formPairs, List.map_append, List.map_cons,
    FormReader.read_append hrun hr hc, List.map_append]
  rfl

/-- A form after a complete pair overrides what came before it, and no error in
it takes anything of that away. -/
theorem parseQueryOrForm_composes (fns : StreamFns τ) (u v : Bytes)
    (sep : UInt8) (inputU inputV inputUV : InputStream τ)
    (hu : inputU.Delivers fns u) (hv : inputV.Delivers fns v)
    (huv : inputUV.Delivers fns (u ++ sep :: v))
    (hsep : sep = ascii '&' ∨ sep = ascii '\n')
    (hvalue : ∃ st,
      Returns (Proc.loop (queryStep fns) (.start fns inputU)) st ∧
        st.s = 11) :
    ∃ hashU hashV hashUV, Returns (parseQueryOrForm fns inputU) hashU ∧
      Returns (parseQueryOrForm fns inputV) hashV ∧
      Returns (parseQueryOrForm fns inputUV) hashUV ∧
      ∀ key, Dict.get stringsEqual hashUV key =
        (Dict.get stringsEqual hashV key).or
          (Dict.get stringsEqual hashU key) := by
  obtain ⟨st, hloop, hs⟩ := hvalue
  obtain ⟨last, hreads, hend, heof⟩ := hu.reads
  obtain ⟨st', hloop', -, hiff⟩ :=
    loop_reads _ hend heof (start_shows fns inputU) rfl hreads
  obtain ⟨r, hrun, hr⟩ := hiff.mp (hloop.unique hloop' ▸ hs)
  refine ⟨_, _, _, parseQueryOrForm_reads hu, parseQueryOrForm_reads hv,
    parseQueryOrForm_reads huv, fun key => ?_⟩
  rw [formPairs_append hrun hr hsep, get_foldl_store, get_foldl_store,
    get_foldl_store, List.reverse_append, List.lookup_append, Option.map_or]

/-- `a=1`, then `a=2&=`: the error at the end of the second form takes neither
pair away. -/
theorem parseQueryOrForm_composes_error :
    ∃ hashU hashV hashUV,
      Returns (parseQueryOrForm noStreams
        (newInputStreamFromString [97, 61, 49])) hashU ∧
      Returns (parseQueryOrForm noStreams
        (newInputStreamFromString [97, 61, 50, 38, 61])) hashV ∧
      Returns (parseQueryOrForm noStreams
        (newInputStreamFromString [97, 61, 49, 38, 97, 61, 50, 38, 61]))
        hashUV ∧
      ∀ key, Dict.get stringsEqual hashUV key =
        (Dict.get stringsEqual hashV key).or
          (Dict.get stringsEqual hashU key) :=
  parseQueryOrForm_composes noStreams [97, 61, 49] [97, 61, 50, 38, 61] 38
    _ _ _ (newInputStreamFromString_delivers _ _ (by decide) (by decide))
    (newInputStreamFromString_delivers _ _ (by decide) (by decide))
    (newInputStreamFromString_delivers _ _ (by decide) (by decide))
    (Or.inl rfl) ⟨_, ⟨5, rfl⟩, rfl⟩

end Libcad
