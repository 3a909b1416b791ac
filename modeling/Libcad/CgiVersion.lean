/-
Version numbers as the accessors read them: digit by digit, up to the first
negative value.
-/
import Libcad.CgiMeta
import Mathlib.Algebra.Order.Ring.Int
import Mathlib.Tactic.Linarith
import Mathlib.Tactic.Ring

namespace Libcad

open Proc

def digitStep (n : Int) (c : UInt8) : Int := n * 10 + charToInt c - 48

/-- The value of a text read as digits after `n`. -/
def numeral (n : Int) (text : Bytes) : Int := text.foldl digitStep n

/-- Where the reading of a number stands at the end, or at its first negative
value. -/
def readNumber (n : Int) : Bytes → Int
  | [] => n
  | c :: rest =>
      if digitStep n c < 0 then digitStep n c
      else readNumber (digitStep n c) rest

/-- The reading of a number up to a dot; what follows the dot is for the next
number. -/
def readMajor (n : Int) : Bytes → Int × Option Bytes
  | [] => (n, none)
  | c :: rest =>
      if c = ascii '.' then (n, some rest)
      else if digitStep n c < 0 then (digitStep n c, none)
      else readMajor (digitStep n c) rest

theorem nextDigit_returns {n m : Int} {c : UInt8}
    (h : Returns (nextDigit intChecked n c) m) : m = digitStep n c := by
  obtain ⟨tens, htens, h⟩ := returns_bind.mp h
  obtain ⟨sum, hsum, h⟩ := returns_bind.mp h
  have hzero : charToInt (ascii '0') = 48 := by decide
  rw [intChecked_returns h, intChecked_returns hsum, intChecked_returns htens,
    digitStep, hzero]

theorem numeral_eq (n : Int) (text : Bytes) :
    numeral n text = n * 10 ^ text.length + numeral 0 text := by
  induction text using List.reverseRecOn with
  | nil => simp [numeral]
  | append_singleton text c ih =>
      have hstep : ∀ m, numeral m (text ++ [c]) = digitStep (numeral m text) c :=
        fun m => List.foldl_append
      rw [hstep, hstep, ih, digitStep, digitStep, List.length_append,
        List.length_singleton, pow_succ]
      ring

/-- No part of the text before the `i`-th byte is read as a negative value. -/
def NonNegative (n : Int) (text : Bytes) (i : Nat) : Prop :=
  ∀ k, 0 < k → k < i → 0 ≤ numeral n (text.take k)

theorem readNumber_stops {n : Int} {text : Bytes} {i : Nat} (hi : 0 < i)
    (hle : i ≤ text.length) (hbefore : NonNegative n text i)
    (hneg : numeral n (text.take i) < 0) :
    readNumber n text = numeral n (text.take i) := by
  induction text generalizing n i with
  | nil => exact absurd hle (by rw [List.length_nil]; omega)
  | cons c rest ih =>
      rw [readNumber]
      obtain ⟨i, rfl⟩ : ∃ k, i = k + 1 := ⟨i - 1, by omega⟩
      by_cases hc : digitStep n c < 0
      · rw [if_pos hc]
        cases i with
        | zero => rfl
        | succ i =>
            have hfirst := hbefore 1 (by decide) (by omega)
            exact absurd hc (Int.not_lt.mpr hfirst)
      · rw [if_neg hc]
        have hpos : 0 < i := by
          refine Nat.pos_of_ne_zero fun hzero => hc ?_
          rw [hzero] at hneg
          exact hneg
        refine ih hpos (by rw [List.length_cons] at hle; omega) ?_ hneg
        intro k hk hki
        exact hbefore (k + 1) (by omega) (by omega)

theorem readNumber_ends {n : Int} {text : Bytes}
    (hall : NonNegative n text (text.length + 1)) :
    readNumber n text = numeral n text := by
  induction text generalizing n with
  | nil => rfl
  | cons c rest ih =>
      have hfirst : 0 ≤ digitStep n c :=
        hall 1 (by decide) (by rw [List.length_cons]; omega)
      rw [readNumber, if_neg (Int.not_lt.mpr hfirst)]
      refine ih fun k hk hki => ?_
      exact hall (k + 1) (by omega) (by rw [List.length_cons]; omega)

/-- The first part of a text that is read as a negative value, if there is
one. -/
theorem first_negative (n : Int) (text : Bytes) (i : Nat) :
    NonNegative n text i ∨ ∃ k, 0 < k ∧ k < i ∧ NonNegative n text k ∧
      numeral n (text.take k) < 0 := by
  induction i with
  | zero => exact Or.inl fun k _ hk => absurd hk (Nat.not_lt_zero k)
  | succ i ih =>
      rcases ih with hall | ⟨k, hk, hki, h⟩
      · by_cases hi : 0 < i ∧ numeral n (text.take i) < 0
        · exact Or.inr ⟨i, hi.1, Nat.lt_succ_self i, hall, hi.2⟩
        · refine Or.inl fun k hk hki => ?_
          rcases Nat.lt_succ_iff_lt_or_eq.mp hki with hlt | rfl
          · exact hall k hk hlt
          · exact Int.not_lt.mp fun hneg => hi ⟨hk, hneg⟩
      · exact Or.inr ⟨k, hk, Nat.lt_succ_of_lt hki, h⟩

theorem ten_pos : (0 : Int) < 10 := by decide

/-- Read on from its own value, the number gives that value once more: it is 0,
or a negative value at the byte `i` that is reached again, from itself, at an
earlier byte `j`. -/
def ReadsAgain (text : Bytes) : Prop :=
  (NonNegative 0 text (text.length + 1) ∧ numeral 0 text = 0) ∨
    ∃ i j, 0 < j ∧ j < i ∧ i ≤ text.length ∧ NonNegative 0 text i ∧
      numeral 0 (text.take i) < 0 ∧
      numeral 0 (text.take j) =
        (10 ^ j - 1) * -numeral 0 (text.take i) ∧
      ∀ k, 0 < k → k < j →
        10 ^ k * -numeral 0 (text.take i) ≤ numeral 0 (text.take k)

theorem numeral_take (n : Int) {text : Bytes} {k : Nat}
    (hk : k ≤ text.length) :
    numeral n (text.take k) = n * 10 ^ k + numeral 0 (text.take k) := by
  rw [numeral_eq n, List.length_take, Nat.min_eq_left hk]

theorem readNumber_again (text : Bytes) :
    readNumber (readNumber 0 text) text = readNumber 0 text ↔
      ReadsAgain text := by
  rcases first_negative 0 text (text.length + 1) with
    hall | ⟨i, hi, hle, hbefore, hneg⟩
  · rw [readNumber_ends hall]
    have hpos : 0 ≤ numeral 0 text := by
      by_cases hnil : text = []
      · rw [hnil]
        exact Int.le_refl 0
      · have hlast := hall text.length (List.length_pos_iff.mpr hnil)
          (Nat.lt_succ_self _)
        rwa [List.take_length] at hlast
    have hagain : NonNegative (numeral 0 text) text (text.length + 1) := by
      intro k hk hki
      rw [numeral_take _ (by omega)]
      exact Int.add_nonneg (Int.mul_nonneg hpos (pow_pos ten_pos k).le)
        (hall k hk hki)
    rw [readNumber_ends hagain, numeral_eq]
    have hpow := pow_pos ten_pos text.length
    constructor
    · intro heq
      refine Or.inl ⟨hall, ?_⟩
      have hzero : numeral 0 text * 10 ^ text.length = 0 := by omega
      rcases Int.mul_eq_zero.mp hzero with h | h
      · exact h
      · omega
    · rintro (⟨-, hzero⟩ | ⟨i, j, hj, hji, hi, -, hneg, -⟩)
      · rw [hzero, Int.zero_mul]
        rfl
      · exact absurd (hall i (by omega) (by omega)) (by omega)
  · have hlen : i ≤ text.length := by omega
    rw [readNumber_stops hi hlen hbefore hneg]
    generalize hm : numeral 0 (text.take i) = m at hneg
    have hy : ∀ k, k ≤ text.length →
        numeral m (text.take k) = m * 10 ^ k + numeral 0 (text.take k) :=
      fun k hk => numeral_take m hk
    have hyi : numeral m (text.take i) < m := by
      have hscaled := Int.mul_neg_of_neg_of_pos hneg (pow_pos ten_pos i)
      rw [hy i hlen, hm]
      omega
    constructor
    · intro heq
      rcases first_negative m text (i + 1) with
        hall | ⟨j, hj, hji, hbefore', hneg'⟩
      · exact absurd (hall i hi (Nat.lt_succ_self i)) (by omega)
      · rw [readNumber_stops hj (by omega) hbefore' hneg'] at heq
        have hne : j ≠ i := by
          rintro rfl
          omega
        refine Or.inr ⟨i, j, hj, by omega, hlen, hbefore, by rwa [hm], ?_, ?_⟩
        · rw [hy j (by omega)] at heq
          rw [hm]
          linarith
        · intro k hk hkj
          have hpos := hbefore' k hk hkj
          rw [hy k (by omega)] at hpos
          rw [hm]
          linarith
    · rintro (⟨hall, -⟩ | ⟨i', j, hj, hji, hle', hbefore', hneg', hx, hk⟩)
      · have hpos := hall i hi hle
        omega
      · have hi' : i' = i := by
          rcases Nat.lt_trichotomy i' i with hlt | heq | hgt
          · exact absurd (hbefore i' (by omega) hlt) (by omega)
          · exact heq
          · exact absurd (hbefore' i hi hgt) (by omega)
        subst hi'
        rw [hm] at hx hk
        have hyj : numeral m (text.take j) = m := by
          rw [hy j (by omega), hx]
          ring
        rw [readNumber_stops hj (by omega) ?_ (by omega), hyj]
        intro k hk' hkj
        rw [hy k (by omega)]
        have hle := hk k hk' hkj
        linarith

/-- The text has the form `CGI/major.minor` with a major number read as 0. -/
def ZeroMajor (text minor : Bytes) : Prop :=
  ∃ major, text = chars "CGI/" ++ (major ++ ascii '.' :: minor) ∧
    ascii '.' ∉ major ∧ NonNegative 0 major (major.length + 1) ∧
    numeral 0 major = 0

theorem gatewayLoop_stopped (arith : IntArith) (result : GatewayInterface)
    (text : Bytes) : gatewayLoop arith (-1) result text = pure result := by
  cases text with
  | nil => rfl
  | cons c rest => rfl

theorem gatewayLoop_minor {result result' : GatewayInterface} {text : Bytes}
    (h : Returns (gatewayLoop intChecked 5 result text) result') :
    result' = { result with minor := readNumber result.minor text } := by
  induction text generalizing result with
  | nil => exact (returns_pure.mp h).symm
  | cons c rest ih =>
      obtain ⟨⟨s, next⟩, hchar, h⟩ := returns_bind.mp h
      obtain ⟨minor, hminor, hchar⟩ := returns_bind.mp hchar
      cases returns_pure.mp hchar
      cases nextDigit_returns hminor
      rw [readNumber]
      by_cases hneg : digitStep result.minor c < 0
      · simp only [if_pos hneg, gatewayLoop_stopped] at h ⊢
        exact (returns_pure.mp h).symm
      · simp only [if_neg hneg] at h ⊢
        exact ih h

theorem gatewayLoop_major {result result' : GatewayInterface} {text : Bytes}
    (h : Returns (gatewayLoop intChecked 4 result text) result') :
    result' = {
      major := (readMajor result.major text).1,
      minor :=
        match (readMajor result.major text).2 with
        | none => result.minor
        | some minor => readNumber result.minor minor } := by
  induction text generalizing result with
  | nil => exact (returns_pure.mp h).symm
  | cons c rest ih =>
      obtain ⟨⟨s, next⟩, hchar, h⟩ := returns_bind.mp h
      rw [readMajor]
      rw [gatewayChar] at hchar
      split at hchar
      next hdot =>
        cases returns_pure.mp hchar
        rw [if_pos hdot]
        exact gatewayLoop_minor h
      next hdot =>
        obtain ⟨major, hmajor, hchar⟩ := returns_bind.mp hchar
        cases returns_pure.mp hchar
        cases nextDigit_returns hmajor
        rw [if_neg hdot]
        by_cases hneg : digitStep result.major c < 0
        · simp only [if_pos hneg, gatewayLoop_stopped] at h ⊢
          exact (returns_pure.mp h).symm
        · simp only [if_neg hneg] at h ⊢
          exact ih h

/-- The loop reads what comes after `CGI/`, and nothing without it. -/
theorem gatewayLoop_start {result result' : GatewayInterface} {text : Bytes}
    (h : Returns (gatewayLoop intChecked 0 result text) result') :
    (∃ rest, text = chars "CGI/" ++ rest ∧
        Returns (gatewayLoop intChecked 4 result rest) result') ∨
      (∀ rest, text ≠ chars "CGI/" ++ rest) ∧ result' = result := by
  -- Each of the four bytes is there, or the loop stops with what it has.
  have hbyte : ∀ (s s' : Int) (b : UInt8) (text : Bytes), 0 ≤ s →
      (∀ c, gatewayChar intChecked s result c =
        pure (if c = b then s' else -1, result)) →
      Returns (gatewayLoop intChecked s result text) result' →
      (∃ rest, text = b :: rest ∧
          Returns (gatewayLoop intChecked s' result rest) result') ∨
        (∀ rest, text ≠ b :: rest) ∧ result' = result := by
    intro s s' b text hs hchar h
    cases text with
    | nil => exact Or.inr ⟨nofun, (returns_pure.mp h).symm⟩
    | cons c rest =>
        rw [gatewayLoop, if_pos hs, hchar] at h
        obtain ⟨⟨s'', next⟩, hpure, h⟩ := returns_bind.mp h
        cases returns_pure.mp hpure
        dsimp only at h
        split at h
        next heq => exact Or.inl ⟨rest, by rw [heq], h⟩
        next hne =>
          rw [gatewayLoop_stopped] at h
          refine Or.inr ⟨fun rest' heq => hne ?_, (returns_pure.mp h).symm⟩
          exact (List.cons.inj heq).1
  rcases hbyte 0 1 (ascii 'C') text (by decide) (fun _ => rfl) h with
    ⟨text, rfl, h⟩ | ⟨hne, heq⟩
  · rcases hbyte 1 2 (ascii 'G') text (by decide) (fun _ => rfl) h with
      ⟨text, rfl, h⟩ | ⟨hne, heq⟩
    · rcases hbyte 2 3 (ascii 'I') text (by decide) (fun _ => rfl) h with
        ⟨text, rfl, h⟩ | ⟨hne, heq⟩
      · rcases hbyte 3 4 (ascii '/') text (by decide) (fun _ => rfl) h with
          ⟨text, rfl, h⟩ | ⟨hne, heq⟩
        · exact Or.inl ⟨text, rfl, h⟩
        · refine Or.inr ⟨fun rest heq => hne rest ?_, heq⟩
          simpa [chars] using heq
      · refine Or.inr ⟨fun rest heq => hne (chars "/" ++ rest) ?_, heq⟩
        simpa [chars] using heq
    · refine Or.inr ⟨fun rest heq => hne (chars "I/" ++ rest) ?_, heq⟩
      simpa [chars] using heq
  · refine Or.inr ⟨fun rest heq => hne (chars "GI/" ++ rest) ?_, heq⟩
    simpa [chars] using heq

theorem readMajor_dot {n : Int} {text minor : Bytes} (hn : 0 ≤ n) :
    readMajor n text = (0, some minor) ↔
      ∃ major, text = major ++ ascii '.' :: minor ∧ ascii '.' ∉ major ∧
        NonNegative n major (major.length + 1) ∧ numeral n major = 0 := by
  induction text generalizing n with
  | nil =>
      refine iff_of_false nofun ?_
      rintro ⟨major, heq, -⟩
      exact absurd heq.symm (by simp)
  | cons c rest ih =>
      rw [readMajor]
      by_cases hdot : c = ascii '.'
      · rw [if_pos hdot, hdot]
        constructor
        · intro h
          cases h
          refine ⟨[], rfl, List.not_mem_nil, fun k hk hki => ?_, rfl⟩
          rw [List.length_nil] at hki
          omega
        · rintro ⟨major, heq, hmem, -, hzero⟩
          cases major with
          | nil =>
              cases heq
              rw [← hzero]
              rfl
          | cons d major =>
              cases (List.cons.inj heq).1
              exact absurd List.mem_cons_self hmem
      · rw [if_neg hdot]
        by_cases hneg : digitStep n c < 0
        · rw [if_pos hneg]
          refine iff_of_false (fun h => nomatch (Prod.mk.inj h).2) ?_
          rintro ⟨major, heq, -, hall, -⟩
          cases major with
          | nil => exact hdot (List.cons.inj heq).1
          | cons d major =>
              cases (List.cons.inj heq).1
              exact absurd (hall 1 (by decide)
                (by rw [List.length_cons]; omega)) (Int.not_le.mpr hneg)
        · rw [if_neg hneg, ih (Int.not_lt.mp hneg)]
          constructor
          · rintro ⟨major, rfl, hmem, hall, hzero⟩
            refine ⟨c :: major, rfl, ?_, fun k hk hki => ?_, hzero⟩
            · rw [List.mem_cons]
              exact fun h => h.elim (fun heq => hdot heq.symm) hmem
            · obtain ⟨k, rfl⟩ : ∃ i, k = i + 1 := ⟨k - 1, by omega⟩
              cases k with
              | zero => exact Int.not_lt.mp hneg
              | succ k =>
                  rw [List.length_cons] at hki
                  exact hall (k + 1) (by omega) (by omega)
          · rintro ⟨major, heq, hmem, hall, hzero⟩
            cases major with
            | nil => exact absurd (List.cons.inj heq).1 hdot
            | cons d major =>
                cases (List.cons.inj heq).1
                refine ⟨major, (List.cons.inj heq).2,
                  fun h => hmem (List.mem_cons_of_mem _ h),
                  fun k hk hki => ?_, hzero⟩
                exact hall (k + 1) (by omega)
                  (by rw [List.length_cons]; omega)

theorem zeroMajor_iff {rest part : Bytes} :
    ZeroMajor (chars "CGI/" ++ rest) part ↔
      readMajor 0 rest = (0, some part) := by
  rw [readMajor_dot (Int.le_refl 0), ZeroMajor]
  simp only [List.append_cancel_left_eq]

theorem ZeroMajor.unique {text part part' : Bytes} (h : ZeroMajor text part)
    (h' : ZeroMajor text part') : part = part' := by
  obtain ⟨major, rfl, -⟩ := id h
  have heq := (zeroMajor_iff.mp h).symm.trans (zeroMajor_iff.mp h')
  exact Option.some.inj (Prod.mk.inj heq).2

/-- What a call that parses the variable reports. -/
theorem gatewayLoop_reports {minor : Int} {text : Bytes}
    {result : GatewayInterface}
    (h : Returns (gatewayLoop intChecked 0 ⟨0, minor⟩ text) result) :
    (∃ part, ZeroMajor text part ∧ result = ⟨0, readNumber minor part⟩) ∨
      (∀ part, ¬ ZeroMajor text part) ∧
        (result.major ≠ 0 ∨ result = ⟨0, minor⟩) := by
  rcases gatewayLoop_start h with ⟨rest, rfl, hloop⟩ | ⟨hne, rfl⟩
  · have hresult := gatewayLoop_major hloop
    rcases hmajor : readMajor 0 rest with ⟨major, _ | part⟩
    · refine Or.inr ⟨fun part h => ?_, ?_⟩
      · rw [zeroMajor_iff, hmajor] at h
        cases h
      · dsimp only at hresult
        rw [hmajor] at hresult
        by_cases hnil : major = 0
        · rw [hnil] at hresult
          exact Or.inr hresult
        · exact Or.inl (by rw [hresult]; exact hnil)
    · dsimp only at hresult
      rw [hmajor] at hresult
      by_cases hnil : major = 0
      · rw [hnil] at hresult hmajor
        exact Or.inl ⟨part, zeroMajor_iff.mpr hmajor, hresult⟩
      · refine Or.inr ⟨fun part' h => ?_, Or.inl (by rw [hresult]; exact hnil)⟩
        rw [zeroMajor_iff, hmajor] at h
        exact hnil (Prod.mk.inj h).1
  · refine Or.inr ⟨fun part h => ?_, Or.inr rfl⟩
    obtain ⟨major, heq, -⟩ := h
    exact hne _ heq

/-- The variable, if it is there, reads the same minor number again. -/
def VersionReadsAgain (env : Env) : Prop :=
  ∀ text part, env "GATEWAY_INTERFACE" = some text → ZeroMajor text part →
    ReadsAgain part

end Libcad
