/-
Version numbers of any length, read with `int`s that wrap around: which of
them are exact, and which of the others come out negative.
-/
import Libcad.CgiMetaStable

namespace Libcad

open Proc

/-- An operation on `int`s that wraps around. -/
def intWrapped : IntArith := fun n => pure (wrap n)

@[simp] theorem wrap_wrap_add (n k : Int) : wrap (wrap n + k) = wrap (n + k) :=
  Int.bmod_add_bmod

@[simp] theorem wrap_digitStep (n : Int) (c : UInt8) :
    wrap (digitStep (wrap n) c) = wrap (digitStep n c) := by
  have hmul : ∀ k, wrap (wrap n * 10 + k) = wrap (n * 10 + k) := by
    intro k
    simp only [wrap]
    rw [← Int.bmod_add_bmod, Int.bmod_mul_bmod, Int.bmod_add_bmod]
  simp only [digitStep, Int.add_sub_assoc, hmul]

theorem pure_andThen {α β : Type} (a : α) (f : α → Proc β) :
    (pure a >>= f) = f a := rfl

theorem nextDigit_wrapped (n : Int) (c : UInt8) :
    nextDigit intWrapped n c = pure (wrap (digitStep n c)) := by
  have hzero : charToInt (ascii '0') = 48 := by decide
  simp [nextDigit, intWrapped, digitStep, hzero, pure_andThen,
    Int.sub_eq_add_neg, Int.add_assoc]

/-- Where the reading of a number stands at the end, or at its first negative
value. -/
def readWrapped (n : Int) : Bytes → Int
  | [] => n
  | c :: rest =>
      if wrap (digitStep n c) < 0 then wrap (digitStep n c)
      else readWrapped (wrap (digitStep n c)) rest

theorem gatewayLoop_minorWrapped (major minor : Int) (text : Bytes) :
    gatewayLoop intWrapped 5 ⟨major, minor⟩ text =
      pure ⟨major, readWrapped minor text⟩ := by
  induction text generalizing minor with
  | nil => rfl
  | cons c rest ih =>
      by_cases hneg : wrap (digitStep minor c) < 0
      · simp [gatewayLoop, gatewayChar, nextDigit_wrapped, readWrapped, hneg,
          gatewayLoop_stopped, pure_andThen]
      · simp [gatewayLoop, gatewayChar, nextDigit_wrapped, readWrapped, hneg,
          ih, pure_andThen]

/-- What both loops report of `major.minor`. -/
def versionWrapped (n : Int) (major minor : Bytes) : GatewayInterface :=
  if readWrapped n major < 0 then ⟨readWrapped n major, 0⟩
  else ⟨readWrapped n major, readWrapped 0 minor⟩

theorem versionWrapped_cons (n : Int) (c : UInt8) (major minor : Bytes) :
    versionWrapped n (c :: major) minor =
      if wrap (digitStep n c) < 0 then ⟨wrap (digitStep n c), 0⟩
      else versionWrapped (wrap (digitStep n c)) major minor := by
  by_cases hneg : wrap (digitStep n c) < 0
  · simp [versionWrapped, readWrapped, hneg]
  · simp [versionWrapped, readWrapped, hneg]

theorem gatewayLoop_majorWrapped {n : Int} {major : Bytes} (minor : Bytes)
    (hn : 0 ≤ n) (hdot : ascii '.' ∉ major) :
    gatewayLoop intWrapped 4 ⟨n, 0⟩ (major ++ ascii '.' :: minor) =
      pure (versionWrapped n major minor) := by
  induction major generalizing n with
  | nil =>
      have hpos : ¬ n < 0 := Int.not_lt.mpr hn
      simp [gatewayLoop, gatewayChar, gatewayLoop_minorWrapped, pure_andThen,
        versionWrapped, readWrapped, hpos]
  | cons c major ih =>
      have hc : c ≠ ascii '.' := fun heq => hdot (heq ▸ List.mem_cons_self)
      have hrest : ascii '.' ∉ major :=
        fun hmem => hdot (List.mem_cons_of_mem c hmem)
      rw [versionWrapped_cons]
      by_cases hneg : wrap (digitStep n c) < 0
      · simp [gatewayLoop, gatewayChar, nextDigit_wrapped, hc, hneg,
          gatewayLoop_stopped, pure_andThen]
      · simp [gatewayLoop, gatewayChar, nextDigit_wrapped, hc, hneg,
          ih (Int.not_lt.mp hneg) hrest, pure_andThen]

theorem gatewayLoop_wrapped {major : Bytes} (minor : Bytes)
    (hdot : ascii '.' ∉ major) :
    gatewayLoop intWrapped 0 ⟨0, 0⟩
        (chars "CGI/" ++ (major ++ ascii '.' :: minor)) =
      pure (versionWrapped 0 major minor) :=
  gatewayLoop_majorWrapped minor (Int.le_refl 0) hdot

theorem protocolLoop_stopped (arith : IntArith) (result : GatewayInterface)
    (text : Bytes) : protocolLoop arith (-1) result text = pure result := by
  cases text with
  | nil => rfl
  | cons c rest => rfl

theorem protocolLoop_minorWrapped (major minor : Int) (text : Bytes) :
    protocolLoop intWrapped 1 ⟨major, minor⟩ text =
      pure ⟨major, readWrapped minor text⟩ := by
  induction text generalizing minor with
  | nil => rfl
  | cons c rest ih =>
      by_cases hneg : wrap (digitStep minor c) < 0
      · simp [protocolLoop, nextDigit_wrapped, readWrapped, hneg,
          protocolLoop_stopped, pure_andThen]
      · simp [protocolLoop, nextDigit_wrapped, readWrapped, hneg, ih,
          pure_andThen]

theorem protocolLoop_wrapped {n : Int} {major : Bytes} (minor : Bytes)
    (hn : 0 ≤ n) (hdot : ascii '.' ∉ major) :
    protocolLoop intWrapped 0 ⟨n, 0⟩ (major ++ ascii '.' :: minor) =
      pure (versionWrapped n major minor) := by
  induction major generalizing n with
  | nil =>
      have hpos : ¬ n < 0 := Int.not_lt.mpr hn
      simp [protocolLoop, protocolLoop_minorWrapped, versionWrapped,
        readWrapped, hpos]
  | cons c major ih =>
      have hc : c ≠ ascii '.' := fun heq => hdot (heq ▸ List.mem_cons_self)
      have hrest : ascii '.' ∉ major :=
        fun hmem => hdot (List.mem_cons_of_mem c hmem)
      rw [versionWrapped_cons]
      by_cases hneg : wrap (digitStep n c) < 0
      · simp [protocolLoop, nextDigit_wrapped, hc, hneg, protocolLoop_stopped,
          pure_andThen]
      · simp [protocolLoop, nextDigit_wrapped, hc, hneg,
          ih (Int.not_lt.mp hneg) hrest, pure_andThen]

def Digits (text : Bytes) : Prop := ∀ c ∈ text, 48 ≤ c ∧ c ≤ 57

/-- The number is an `int`. -/
def FitsInt (text : Bytes) : Prop := numeral 0 text ≤ intMax

/-- A part of the digits, from the first one on, gives a negative `int`. -/
def Flagged (text : Bytes) : Prop :=
  ∃ k, k ≤ text.length ∧ wrap (numeral 0 (text.take k)) < 0

/-- A number is reported as it is, or as a negative one if it does not fit. -/
structure ReportsNumber (reported : Int) (text : Bytes) : Prop where
  exact : FitsInt text → reported = numeral 0 text
  flagged : ¬ FitsInt text → reported < 0

/-- A version is reported so; its minor number counts only if the major one
fits. -/
structure ReportsVersion (result : GatewayInterface) (major minor : Bytes) :
    Prop where
  reportsMajor : ReportsNumber result.major major
  reportsMinor : FitsInt major → ReportsNumber result.minor minor

def Told (text : Bytes) : Prop := FitsInt text ∨ Flagged text

theorem digitStep_le {n : Int} {c : UInt8} (hn : 0 ≤ n) (hlow : 48 ≤ c)
    (hhigh : c ≤ 57) : n ≤ digitStep n c := by
  have hlow' : 48 ≤ c.toNat := hlow
  have hhigh' : c.toNat ≤ 57 := hhigh
  have hchar : charToInt c = c.toNat := by
    simp only [charToInt]
    rw [if_pos (by omega)]
  rw [digitStep, hchar]
  omega

theorem numeral_ge {n : Int} {text : Bytes} (hn : 0 ≤ n) (h : Digits text) :
    n ≤ numeral n text := by
  induction text generalizing n with
  | nil => exact Int.le_refl n
  | cons c rest ih =>
      have hc := h c List.mem_cons_self
      have hstep := digitStep_le hn hc.1 hc.2
      have hrest : Digits rest := fun d hd => h d (List.mem_cons_of_mem c hd)
      exact Int.le_trans hstep (ih (Int.le_trans hn hstep) hrest)

theorem numeral_take_le {text : Bytes} (h : Digits text) (k : Nat) :
    0 ≤ numeral 0 (text.take k) ∧ numeral 0 (text.take k) ≤ numeral 0 text := by
  have htake : Digits (text.take k) := fun c hc => h c (List.mem_of_mem_take hc)
  have hdrop : Digits (text.drop k) := fun c hc => h c (List.mem_of_mem_drop hc)
  have hpos := numeral_ge (Int.le_refl 0) htake
  refine ⟨hpos, ?_⟩
  have hall : numeral 0 text = numeral (numeral 0 (text.take k)) (text.drop k) := by
    simp only [numeral]
    rw [← List.foldl_append, List.take_append_drop]
  rw [hall]
  exact numeral_ge hpos hdrop

/-- A number that fits never looks like one that does not. -/
theorem not_flagged_of_fits {text : Bytes} (h : Digits text)
    (hfits : FitsInt text) : ¬ Flagged text := by
  rintro ⟨k, -, hneg⟩
  have hk := numeral_take_le h k
  rw [wrap_of_fits hk.1 (Int.le_trans hk.2 hfits)] at hneg
  exact absurd hk.1 (Int.not_le.mpr hneg)

/-- Without a negative value on the way, the wrapped value of the number is
read. -/
theorem readWrapped_wrap {n : Int} {text : Bytes}
    (h : ∀ k, k ≤ text.length → 0 ≤ wrap (numeral n (text.take k))) :
    readWrapped (wrap n) text = wrap (numeral n text) := by
  induction text generalizing n with
  | nil => rfl
  | cons c rest ih =>
      have hfirst : 0 ≤ wrap (digitStep n c) := by
        simpa [numeral] using h 1 (by simp)
      rw [readWrapped, wrap_digitStep, if_neg (Int.not_lt.mpr hfirst)]
      apply ih
      intro k hk
      simpa [numeral] using h (k + 1) (by simpa using hk)

/-- The first negative value is the one that is read. -/
theorem readWrapped_neg {n : Int} {text : Bytes} {k : Nat} (hk : 0 < k)
    (hle : k ≤ text.length) (hneg : wrap (numeral n (text.take k)) < 0) :
    readWrapped (wrap n) text < 0 := by
  induction text generalizing n k with
  | nil => simp at hle; omega
  | cons c rest ih =>
      rw [readWrapped, wrap_digitStep]
      by_cases hfirst : wrap (digitStep n c) < 0
      · rwa [if_pos hfirst]
      · rw [if_neg hfirst]
        obtain ⟨k, rfl⟩ : ∃ i, k = i + 1 := ⟨k - 1, by omega⟩
        have hrest : wrap (numeral (digitStep n c) (rest.take k)) < 0 := by
          simpa [numeral] using hneg
        rcases k.eq_zero_or_pos with hzero | hpos
        · rw [hzero] at hrest
          exact absurd hrest hfirst
        · exact ih hpos (by simpa using hle) hrest

theorem readWrapped_flagged {text : Bytes} (h : Flagged text) :
    readWrapped 0 text < 0 := by
  obtain ⟨k, hle, hneg⟩ := h
  rcases k.eq_zero_or_pos with rfl | hpos
  · exact absurd hneg (by simp [numeral, wrap])
  · have hread := readWrapped_neg hpos hle hneg
    rwa [wrap_of_fits (Int.le_refl 0) (by decide)] at hread

theorem readWrapped_not_flagged {text : Bytes} (h : ¬ Flagged text) :
    readWrapped 0 text = wrap (numeral 0 text) ∧ 0 ≤ readWrapped 0 text := by
  have hall : ∀ k, k ≤ text.length → 0 ≤ wrap (numeral 0 (text.take k)) :=
    fun k hk => Int.not_lt.mp fun hneg => h ⟨k, hk, hneg⟩
  have hread := readWrapped_wrap hall
  rw [wrap_of_fits (Int.le_refl 0) (by decide)] at hread
  refine ⟨hread, ?_⟩
  rw [hread]
  simpa using hall text.length (Nat.le_refl _)

theorem reportsNumber_iff {text : Bytes} (h : Digits text) :
    ReportsNumber (readWrapped 0 text) text ↔ Told text := by
  constructor
  · intro hreports
    by_cases hfits : FitsInt text
    · exact Or.inl hfits
    · refine Or.inr (Classical.not_not.mp fun hflag => ?_)
      have hpos := (readWrapped_not_flagged hflag).2
      exact absurd (hreports.flagged hfits) (Int.not_lt.mpr hpos)
  · intro htold
    by_cases hfits : FitsInt text
    · have hflag := not_flagged_of_fits h hfits
      have hpos := numeral_ge (Int.le_refl 0) h
      refine ⟨fun _ => ?_, fun hnot => absurd hfits hnot⟩
      rw [(readWrapped_not_flagged hflag).1, wrap_of_fits hpos hfits]
    · exact ⟨fun hfits' => absurd hfits' hfits,
        fun _ => readWrapped_flagged (htold.resolve_left hfits)⟩

theorem reportsVersion_iff {major minor : Bytes} (hmajor : Digits major)
    (hminor : Digits minor) :
    ReportsVersion (versionWrapped 0 major minor) major minor ↔
      Told major ∧ (FitsInt major → Told minor) := by
  have hmaj : (versionWrapped 0 major minor).major = readWrapped 0 major := by
    simp only [versionWrapped]
    split
    · rfl
    · rfl
  have hmin : FitsInt major →
      (versionWrapped 0 major minor).minor = readWrapped 0 minor := by
    intro hfits
    have hpos := (readWrapped_not_flagged (not_flagged_of_fits hmajor hfits)).2
    rw [versionWrapped, if_neg (Int.not_lt.mpr hpos)]
  constructor
  · rintro ⟨hmajorReport, hminorReport⟩
    rw [hmaj, reportsNumber_iff hmajor] at hmajorReport
    refine ⟨hmajorReport, fun hfits => ?_⟩
    have hreport := hminorReport hfits
    rwa [hmin hfits, reportsNumber_iff hminor] at hreport
  · rintro ⟨hmajorTold, hminorTold⟩
    refine ⟨?_, fun hfits => ?_⟩
    · rw [hmaj, reportsNumber_iff hmajor]
      exact hmajorTold
    · rw [hmin hfits, reportsNumber_iff hminor]
      exact hminorTold hfits

variable {τ : Type}

/-- `major.minor` -/
def versionText (major minor : Bytes) : Bytes := major ++ ascii '.' :: minor

/-- `gateway_interface` reports the version as it is, or as negative. -/
def GatewayTold (st : MetaState τ) (major minor : Bytes) : Prop :=
  ∃ result st', Returns (gatewayInterface intWrapped st) (result, st') ∧
    ReportsVersion result major minor

/-- `server_protocol` does. -/
def ProtocolTold (st : MetaState τ) (major minor : Bytes) : Prop :=
  ∃ result st', Returns (serverProtocol intWrapped st) (result, st') ∧
    ReportsVersion ⟨result.major, result.minor⟩ major minor

theorem Digits.not_mem {text : Bytes} (h : Digits text) :
    ascii '.' ∉ text := by
  intro hmem
  exact absurd (h _ hmem).1 (by decide)

theorem gatewayTold_iff {st : MetaState τ} {major minor : Bytes}
    (hmajor : Digits major) (hminor : Digits minor)
    (hfresh : st.this.gatewayInterface = ⟨0, 0⟩)
    (henv : st.env "GATEWAY_INTERFACE" =
      some (chars "CGI/" ++ versionText major minor)) :
    GatewayTold st major minor ↔ Told major ∧ (FitsInt major → Told minor) := by
  have hcall : gatewayInterface intWrapped st =
      pure (versionWrapped 0 major minor,
        { st with this.gatewayInterface := versionWrapped 0 major minor }) := by
    simp only [gatewayInterface, gatewayOnce, hfresh, henv, if_true,
      versionText, gatewayLoop_wrapped minor hmajor.not_mem, pure_andThen]
  rw [← reportsVersion_iff hmajor hminor]
  constructor
  · rintro ⟨result, st', hreturns, hreport⟩
    rw [hcall] at hreturns
    cases returns_pure.mp hreturns
    exact hreport
  · intro hreport
    exact ⟨_, _, hcall ▸ returns_pure_self _, hreport⟩

theorem protocolTold_iff {st : MetaState τ} {protocol major minor : Bytes}
    (hmajor : Digits major) (hminor : Digits minor)
    (hfresh : st.this.serverProtocol = ⟨0, 0, none⟩)
    (hslash : ascii '/' ∉ protocol)
    (henv : st.env "SERVER_PROTOCOL" =
      some (protocol ++ ascii '/' :: versionText major minor)) :
    ProtocolTold st major minor ↔ Told major ∧ (FitsInt major → Told minor) := by
  have hname : (protocol ++ ascii '/' :: versionText major minor).takeWhile
      (· ≠ ascii '/') = protocol := by
    have hall : ∀ c ∈ protocol, decide (c ≠ ascii '/') = true := by
      intro c hc
      have hne : c ≠ ascii '/' := fun heq => hslash (heq ▸ hc)
      simp [hne]
    rw [List.takeWhile_append_of_pos hall]
    simp
  have honce : protocolOnce intWrapped st.this.serverProtocol
      (st.env "SERVER_PROTOCOL") =
        pure (⟨(versionWrapped 0 major minor).major,
          (versionWrapped 0 major minor).minor, some protocol⟩,
          some protocol) := by
    have hloop : protocolLoop intWrapped 0 ⟨0, 0⟩ (versionText major minor) =
        pure (versionWrapped 0 major minor) :=
      protocolLoop_wrapped minor (Int.le_refl 0) hmajor.not_mem
    simp only [protocolOnce, hfresh, henv, if_true, hname, List.drop_left,
      hloop, pure_andThen]
  have hcall : serverProtocol intWrapped st =
      pure (⟨(versionWrapped 0 major minor).major,
        (versionWrapped 0 major minor).minor, some protocol⟩, {
          this := { st.this with serverProtocol :=
            ⟨(versionWrapped 0 major minor).major,
              (versionWrapped 0 major minor).minor, some protocol⟩ },
          env := Function.update st.env "SERVER_PROTOCOL" (some protocol) }) := by
    simp only [serverProtocol, honce, pure_andThen]
  rw [← reportsVersion_iff hmajor hminor]
  constructor
  · rintro ⟨result, st', hreturns, hreport⟩
    rw [hcall] at hreturns
    cases returns_pure.mp hreturns
    exact hreport
  · intro hreport
    exact ⟨_, _, hcall ▸ returns_pure_self _, hreport⟩

/-- Both report a version as it is, or as negative, unless a number that is too
large stays positive all along. -/
theorem version_told_iff {major minor : Bytes} (hmajor : Digits major)
    (hminor : Digits minor) :
    (∀ st : MetaState τ, st.this.gatewayInterface = ⟨0, 0⟩ →
      st.env "GATEWAY_INTERFACE" =
        some (chars "CGI/" ++ versionText major minor) →
      (GatewayTold st major minor ↔
        Told major ∧ (FitsInt major → Told minor))) ∧
    (∀ (st : MetaState τ) (protocol : Bytes),
      st.this.serverProtocol = ⟨0, 0, none⟩ → ascii '/' ∉ protocol →
      st.env "SERVER_PROTOCOL" =
        some (protocol ++ ascii '/' :: versionText major minor) →
      (ProtocolTold st major minor ↔
        Told major ∧ (FitsInt major → Told minor))) :=
  ⟨fun _ hfresh henv => gatewayTold_iff hmajor hminor hfresh henv,
    fun _ _ hfresh hslash henv =>
      protocolTold_iff hmajor hminor hfresh hslash henv⟩

theorem digits_of_all {text : Bytes}
    (h : (text.all fun c => 48 ≤ c ∧ c ≤ 57) = true) : Digits text := by
  intro c hc
  simpa using List.all_eq_true.mp h c hc

theorem version_told_one :
    GatewayTold (newMetaState (Env.single "GATEWAY_INTERFACE"
      (chars "CGI/1.1"))) (chars "1") (chars "1") ∧
    ProtocolTold (newMetaState (Env.single "SERVER_PROTOCOL"
      (chars "HTTP/1.1"))) (chars "1") (chars "1") := by
  have hdigits : Digits (chars "1") := digits_of_all (by decide)
  have htold : Told (chars "1") := Or.inl (by unfold FitsInt; decide)
  have htold_iff := version_told_iff (τ := Empty) hdigits hdigits
  constructor
  · exact (htold_iff.1 _ rfl rfl).mpr ⟨htold, fun _ => htold⟩
  · exact (htold_iff.2 _ (chars "HTTP") rfl (by decide) rfl).mpr
      ⟨htold, fun _ => htold⟩

/-- `CGI/10000000000.0` is reported as version 1410065408.0. -/
theorem version_not_told :
    (∃ st, Returns (gatewayInterface intWrapped
      (newMetaState (Env.single "GATEWAY_INTERFACE"
        (chars "CGI/10000000000.0")))) (⟨1410065408, 0⟩, st)) ∧
    ¬ GatewayTold (newMetaState (Env.single "GATEWAY_INTERFACE"
      (chars "CGI/10000000000.0"))) (chars "10000000000") (chars "0") := by
  have hcall : Returns (gatewayInterface intWrapped
      (newMetaState (Env.single "GATEWAY_INTERFACE"
        (chars "CGI/10000000000.0")))) (⟨1410065408, 0⟩, _) := ⟨0, rfl⟩
  refine ⟨⟨_, hcall⟩, ?_⟩
  rintro ⟨result, st, hreturns, hreport⟩
  cases hreturns.unique hcall
  have hneg := hreport.reportsMajor.flagged (by unfold FitsInt; decide)
  exact absurd hneg (by decide)

end Libcad
