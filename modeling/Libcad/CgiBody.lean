/-
The body of a response as `flush_body` writes it: its line ends, and what a
second pass makes of them.
-/
import Libcad.CgiFlush

namespace Libcad

open Proc

/-- Every CR is followed by an LF and every LF comes after a CR. -/
structure Paired (text : Bytes) : Prop where
  cr : ∀ i : Nat, text[i]? = some 13 → text[i + 1]? = some 10
  lf : ∀ i : Nat, text[i]? = some 10 → ∃ j, i = j + 1 ∧ text[j]? = some 13

theorem Paired.nil : Paired [] where
  cr i h := by simp at h
  lf i h := by simp at h

theorem Paired.crlf {text : Bytes} (h : Paired text) :
    Paired (crlf ++ text) where
  cr i hi := by
    rcases i with _ | _ | i
    · rfl
    · simp [Libcad.crlf] at hi
    · exact h.cr i hi
  lf i hi := by
    rcases i with _ | _ | i
    · simp [Libcad.crlf] at hi
    · exact ⟨0, rfl, rfl⟩
    · obtain ⟨j, rfl, hj⟩ := h.lf i hi
      exact ⟨j + 2, rfl, hj⟩

theorem Paired.byte {text : Bytes} (h : Paired text) {c : UInt8}
    (hcr : c ≠ 13) (hlf : c ≠ 10) : Paired (c :: text) where
  cr i hi := by
    cases i with
    | zero => exact absurd (Option.some.inj hi) hcr
    | succ i => exact h.cr i hi
  lf i hi := by
    cases i with
    | zero => exact absurd (Option.some.inj hi) hlf
    | succ i =>
        obtain ⟨j, rfl, hj⟩ := h.lf i hi
        exact ⟨j + 1, rfl, hj⟩

/-- The second part is the first one for a body with a CR before it, which
takes an LF at the start along. -/
theorem paired_normalise (body : Bytes) :
    Paired (normalise body) ∧ Paired (normalise (13 :: body)) := by
  induction body with
  | nil => exact ⟨.nil, Paired.nil.crlf⟩
  | cons c body ih =>
      obtain ⟨hbody, hcr⟩ := ih
      have hcons : Paired (normalise (c :: body)) := by
        by_cases hc : c = 13
        · rw [hc]
          exact hcr
        · by_cases hl : c = 10
          · rw [hl, normalise_lf]
            exact hbody.crlf
          · rw [normalise_byte hc hl]
            exact hbody.byte hc hl
      refine ⟨hcons, ?_⟩
      by_cases hl : c = 10
      · rw [hl]
        exact hbody.crlf
      · rw [normalise_cr hl]
        exact hcons.crlf

/-- What `flush_body` writes is the body with its line ends normalised. -/
def NormalisesBody (body : Bytes) : Prop :=
  ∃ text, Returns (Response.flushBody (some body)) text ∧
    text = normalise (cString body) ∧ Paired text

/-- The line ends are normalised unless the last byte is a CR. -/
theorem flushBody_normalises_iff (body : Bytes) :
    NormalisesBody body ↔ (cString body).getLast? ≠ some 13 := by
  rw [← Response.bodyChars_eq_normalise_iff]
  constructor
  · rintro ⟨text, hflush, htext, -⟩
    rw [← htext]
    exact returns_pure.mp hflush
  · intro heq
    refine ⟨_, returns_pure_self _, heq, ?_⟩
    rw [heq]
    exact (paired_normalise _).1

/-- A single CR is written without the LF after it. -/
theorem flushBody_not_normalises :
    Returns (Response.flushBody (some [13])) [13] ∧ ¬ NormalisesBody [13] := by
  refine ⟨⟨0, rfl⟩, ?_⟩
  rintro ⟨text, hflush, htext, -⟩
  have hone : text = [13] := (returns_pure.mp hflush).symm
  rw [hone] at htext
  exact absurd htext (by decide)

namespace Response

/-- A pass over what was written writes the same, from either status. -/
theorem bodyChars_again (body : Bytes) :
    bodyChars 0 (bodyChars 0 body) = bodyChars 0 body ∧
      bodyChars 1 (bodyChars 1 body) = bodyChars 1 body := by
  induction body with
  | nil => exact ⟨rfl, rfl⟩
  | cons c body ih =>
      obtain ⟨ih₀, ih₁⟩ := ih
      by_cases hcr : c = 13
      · simp [bodyChars, bodyChar, hcr, ih₁]
      · by_cases hlf : c = 10
        · simp [bodyChars, bodyChar, hlf, ih₀]
        · simp [bodyChars, bodyChar, hcr, hlf, ih₀]

/-- The bytes that are not part of a line end. -/
def content (text : Bytes) : Bytes :=
  text.filter fun c => c ≠ 13 ∧ c ≠ 10

@[simp] theorem content_cr (text : Bytes) :
    content (13 :: text) = content text := rfl

@[simp] theorem content_lf (text : Bytes) :
    content (10 :: text) = content text := rfl

theorem content_byte {c : UInt8} (hcr : c ≠ 13) (hlf : c ≠ 10)
    (text : Bytes) : content (c :: text) = c :: content text :=
  List.filter_cons_of_pos (decide_eq_true ⟨hcr, hlf⟩)

theorem content_bodyChars (body : Bytes) :
    content (bodyChars 0 body) = content body ∧
      content (bodyChars 1 body) = content body := by
  induction body with
  | nil => exact ⟨rfl, rfl⟩
  | cons c body ih =>
      obtain ⟨ih₀, ih₁⟩ := ih
      by_cases hcr : c = 13
      · simp [bodyChars, bodyChar, hcr, ih₁]
      · by_cases hlf : c = 10
        · simp [bodyChars, bodyChar, hlf, ih₀]
        · simp [bodyChars, bodyChar, hcr, hlf, content_byte, ih₀]

theorem not_mem_bodyChars {body : Bytes} (h : (0 : UInt8) ∉ body) :
    (0 : UInt8) ∉ bodyChars 0 body := by
  intro hmem
  have hcontent : (0 : UInt8) ∈ content (bodyChars 0 body) :=
    List.mem_filter.mpr ⟨hmem, rfl⟩
  rw [(content_bodyChars body).1] at hcontent
  exact h (List.mem_of_mem_filter hcontent)

end Response

/-- What `flush_body` writes is written again as it is, and has the bytes of
the body besides the line ends. -/
theorem flushBody_idempotent (body : Bytes) :
    ∃ text, Returns (Response.flushBody (some body)) text ∧
      Returns (Response.flushBody (some text)) text ∧
      Response.content text = Response.content (cString body) := by
  refine ⟨_, returns_pure_self _, ?_, (Response.content_bodyChars _).1⟩
  have hnul := Response.not_mem_bodyChars (not_mem_cString body)
  rw [Response.flushBody, cString_of_not_mem hnul, returns_pure]
  exact (Response.bodyChars_again _).1

end Libcad
