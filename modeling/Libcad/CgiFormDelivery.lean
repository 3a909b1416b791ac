/-
A form does not depend on how the body of the request is handed over: the
parser of `cad_cgi.c` takes one byte after the other, and the three input
streams present the same ones.
-/
import Libcad.Agree
import Libcad.CgiQuery
import Libcad.Delivery

namespace Libcad

open Proc

variable {τ τ' : Type}

namespace QueryState

/-- The same locals over another stream. -/
def reading (st : QueryState τ) (input : InputStream τ') :
    QueryState τ' where
  result := st.result
  s := st.s
  attr := st.attr
  value := st.value
  out := st.out
  encoded := st.encoded
  input := input
  c := st.c

/-- The same locals, and the stream of each side is still the one it was. -/
def OnInputs (input : InputStream τ) (input' : InputStream τ')
    (st : QueryState τ) (st' : QueryState τ') : Prop :=
  st.input = input ∧ st' = st.reading input'

variable {st : QueryState τ} {input' : InputStream τ'}

theorem put_reading (st : QueryState τ) (input' : InputStream τ')
    (c : UInt8) :
    (st.reading input').put c = (st.put c).reading input' := by
  cases hout : st.out <;> simp only [put, reading, hout]

theorem put_beside (st : QueryState τ) (input' : InputStream τ') (c : UInt8) :
    OnInputs st.input input' (st.put c) ((st.reading input').put c) :=
  ⟨st.put_input c, st.put_reading input' c⟩

end QueryState

open QueryState

section

variable {fns : StreamFns τ} {fns' : StreamFns τ'}

theorem queryChar_reading (st : QueryState τ) (input' : InputStream τ') :
    Agree (OnInputs st.input input') (queryChar st)
      (queryChar (st.reading input')) := by
  have hsame : ∀ next : QueryState τ, next.input = st.input →
      OnInputs st.input input' next (next.reading input') :=
    fun next h => ⟨h, rfl⟩
  have hc : (st.reading input').c = st.c := rfl
  refine Agree.ite Iff.rfl (fun _ => ?_) (fun _ => ?_)
  · -- an attribute
    refine Agree.ite Iff.rfl (fun _ => ?_) (fun _ => ?_)
    · refine Agree.ite Iff.rfl (fun _ => ?_) (fun _ => ?_)
      · exact Agree.pure (hsame { st with s := -st.s } rfl)
      · exact Agree.pure
          (hsame { st with value := none, out := .value, s := 11 } rfl)
    refine Agree.ite Iff.rfl (fun _ => ?_) (fun _ => ?_)
    · exact Agree.pure (hsame { st with encoded := 0, s := 2 } rfl)
    refine Agree.ite Iff.rfl (fun _ => ?_) (fun _ => ?_)
    · exact Agree.pure (put_beside st input' _)
    · exact Agree.pure (put_beside st input' _)
  refine Agree.ite Iff.rfl (fun _ => ?_) (fun _ => ?_)
  · -- a value
    refine Agree.ite Iff.rfl (fun _ => ?_) (fun _ => ?_)
    · refine (Agree.refl (st.noValue.result.set st.noValue.attr
        st.noValue.value)).bind ?_
      rintro result _ rfl
      exact Agree.pure (hsame { st.noValue with
        result := result, attr := none, value := none, out := .attr,
        s := 1 } rfl)
    refine Agree.ite Iff.rfl (fun _ => ?_) (fun _ => ?_)
    · exact Agree.pure (hsame { st with encoded := 0, s := 12 } rfl)
    refine Agree.ite Iff.rfl (fun _ => ?_) (fun _ => ?_)
    · exact Agree.pure (put_beside st input' _)
    · exact Agree.pure (put_beside st input' _)
  have hfail := hsame { st with s := -st.s } rfl
  refine Agree.ite Iff.rfl (fun _ => ?_) (fun _ => ?_)
  · rw [hc]
    cases hexDigit st.c with
    | some d =>
        exact Agree.pure
          (hsame { st with encoded := intToChar d, s := st.s + 1 } rfl)
    | none => exact Agree.pure hfail
  refine Agree.ite Iff.rfl (fun _ => ?_)
    (fun _ => Agree.pure (hsame st rfl))
  rw [hc]
  cases hexDigit st.c with
  | some d => exact Agree.pure (put_beside { st with
      encoded := intToChar (charToInt
        (intToChar (charToInt st.encoded * 16)) + d),
      s := st.s - 2 } input' _)
  | none => exact Agree.pure hfail

/-- The same locals over streams that present the same text, with its first
byte in `c`. -/
structure QueryState.Mirrors (fns : StreamFns τ) (fns' : StreamFns τ')
    (st : QueryState τ) (st' : QueryState τ') : Prop where
  same : st' = st.reading st'.input
  current : st.c = st.input.item fns
  presents : ∃ text, st.input.Presents fns text ∧
    st'.input.Presents fns' text

theorem queryStep_mirrors {st : QueryState τ} {st' : QueryState τ'}
    (h : st.Mirrors fns fns' st') :
    Agree (SumRel (QueryState.Mirrors fns fns') (QueryState.Mirrors fns fns'))
      (queryStep fns st) (queryStep fns' st') := by
  obtain ⟨hsame, hcurrent, text, htext, htext'⟩ := h
  generalize st'.input = input' at hsame htext'
  subst hsame
  refine Agree.ite Iff.rfl (fun hgo => ?_)
    (fun _ => Agree.pure (.inr ⟨rfl, hcurrent, text, htext, htext'⟩))
  cases text with
  | nil => exact absurd (hcurrent.trans htext) hgo.1
  | cons b rest =>
      obtain ⟨-, hok, hrest⟩ := htext
      obtain ⟨-, hok', hrest'⟩ := htext'
      refine (queryChar_reading st input').bind ?_
      rintro next _ ⟨hinput, rfl⟩
      change Agree _ (if (next.input.next fns).1 ≠ 0 then _ else _)
        (if (input'.next fns').1 ≠ 0 then _ else _)
      rw [hinput, if_neg (not_not.mpr hok), if_neg (not_not.mpr hok')]
      refine Agree.pure (.inl ⟨?_, rfl, rest, hrest, hrest'⟩)
      exact congrArg
        (fun c => { next.reading (input'.next fns').2 with c := c })
        (hrest.item_eq hrest').symm

/-- However the body of a request is handed over, the form read from it is the
same. -/
theorem form_delivered {text : Bytes} {delivery delivery' : Delivery}
    (hof : delivery.Of text) (hof' : delivery'.Of text) :
    Agree Eq (parseQueryOrForm libraryFns (delivery.stream text))
      (parseQueryOrForm libraryFns (delivery'.stream text)) := by
  refine (Agree.loop (R := QueryState.Mirrors libraryFns libraryFns)
    (fun _ _ h => queryStep_mirrors h)
    ⟨?_, rfl, text, hof.presents, hof'.presents⟩).bind ?_
  · rw [hof.presents.item_eq hof'.presents]
    rfl
  · rintro st st' ⟨hsame, -, -⟩
    rw [hsame]
    exact Agree.refl _

/-- `a=1`, in three reads and from a string. -/
theorem form_delivered_reads :
    ∃ hash, Returns (parseQueryOrForm libraryFns
        ((Delivery.descriptor [chars "a", chars "=", chars "1"]
          fun _ => 0).stream (chars "a=1"))) hash ∧
      Dict.get stringsEqual hash (chars "a") = some (some (chars "1")) := by
  have hof : (Delivery.descriptor [chars "a", chars "=", chars "1"]
      fun _ => 0).Of (chars "a=1") := ⟨rfl, by decide⟩
  have hof' : Delivery.string.Of (chars "a=1") :=
    (by decide : (0 : UInt8) ∉ chars "a=1")
  obtain ⟨hash, hr, rfl⟩ := (form_delivered hof hof').back _ ⟨100, rfl⟩
  exact ⟨_, hr, by decide⟩

end

end Libcad
