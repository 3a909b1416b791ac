/-
HTTP_COOKIE as `parse_cookies` cuts it into cookies, and as a header is cut at
its semicolons.
-/
import Libcad.CgiRuns

namespace Libcad

open Proc

/-- The bytes a value stands for; an escape that is cut off stands for none. -/
def decoded : Bytes → Bytes
  | [] => []
  | c :: rest =>
      if c = ascii '%' then
        match rest with
        | high :: low :: rest => intToChar (hex high * 16 + hex low) :: decoded rest
        | _ => []
      else c :: decoded rest

theorem decoded_cons {c : UInt8} (hc : c ≠ ascii '%') (rest : Bytes) :
    decoded (c :: rest) = c :: decoded rest := by
  rw [decoded.eq_def]
  simp [hc]

theorem foldl_valueChar_decoded (text : Bytes) (d : Int) (result : Bytes) :
    (text.foldl valueChar ⟨0, d, result⟩).result = result ++ decoded text ∧
      (decoded text).length ≤ valueSize 0 text := by
  induction text using decoded.induct generalizing d result with
  | case1 => simp [decoded, valueSize]
  | case2 high low rest ih =>
      have hrest := ih (hex high * 16 + hex low)
        (result ++ [intToChar (hex high * 16 + hex low)])
      simp [decoded, valueChar, valueSize, hrest.1]
      exact hrest.2
  | case3 rest hnot =>
      rcases rest with _ | ⟨a, _ | ⟨b, rest⟩⟩
      · simp [decoded, valueChar]
      · simp [decoded, valueChar]
      · exact absurd rfl (hnot a b rest)
  | case4 c rest hc ih =>
      have hrest := ih d (result ++ [c])
      rw [decoded_cons hc]
      simp [valueChar, valueSize, hc, hrest.1]
      exact hrest.2

theorem parseCookieValue_eq (text : Bytes) :
    parseCookieValue text = pure (decoded text) := by
  obtain ⟨hresult, hle⟩ := foldl_valueChar_decoded text 0 []
  rw [List.nil_append] at hresult
  rw [parseCookieValue]
  simp only [hresult, if_pos hle]

/-- A name and the value after it, if there is one. -/
abbrev CookiePart := Bytes × Option Bytes

/-- A segment cut at its first `=`. -/
def cutSegment (segment : Bytes) : CookiePart :=
  (segment.takeWhile (· ≠ ascii '='),
    match segment.dropWhile (· ≠ ascii '=') with
    | [] => none
    | _ :: value => some (decoded value))

def firstSegment (text : Bytes) : Bytes := text.takeWhile (· ≠ ascii ';')

def afterSegment (text : Bytes) : Bytes :=
  (text.dropWhile (· ≠ ascii ';')).tail

theorem length_afterSegment_le (text : Bytes) :
    (afterSegment text).length ≤ text.length := by
  have hdrop := (List.dropWhile_suffix (l := text) (· ≠ ascii ';')).length_le
  rw [afterSegment, List.length_tail]
  omega

def skipBlanks (text : Bytes) : Bytes := text.dropWhile (· = ascii ' ')

theorem length_skipBlanks_le (text : Bytes) :
    (skipBlanks text).length ≤ text.length :=
  (List.dropWhile_suffix _).length_le

/-- The cookies `parse_cookies` reads once it waits for one: the byte it finds
belongs to the name, whatever it is. -/
def waitingCookies (text : Bytes) : List CookiePart :=
  match _ : skipBlanks text with
  | [] => []
  | c :: rest =>
      let part := cutSegment (firstSegment rest)
      (c :: part.1, part.2) :: waitingCookies (afterSegment rest)
termination_by text.length
decreasing_by
  have hskip := length_skipBlanks_le text
  have hafter := length_afterSegment_le rest
  have h : skipBlanks text = c :: rest := by assumption
  rw [h, List.length_cons] at hskip
  omega

/-- The cookies `parse_cookies` reads. -/
def scannedCookies (text : Bytes) : List CookiePart :=
  if text = [] then []
  else cutSegment (firstSegment text) :: waitingCookies (afterSegment text)

def CookieJar.addAll (stale : Nat → Bool) :
    List CookiePart → CookieJar → Proc CookieJar
  | [], jar => pure jar
  | part :: parts, jar => do
      let jar ← jar.add stale part.1 part.2
      addAll stale parts jar

variable {stale : Nat → Bool}

/-- The scan from a state. -/
abbrev scan (stale : Nat → Bool) (st : CookieScan) : Proc CookieJar :=
  Proc.loop (cookieStep stale) st

/-- What ends a segment: the end of the header or a semicolon. -/
def SegmentEnd (tail : Bytes) : Prop :=
  tail = [] ∨ ∃ rest, tail = ascii ';' :: rest

/-- After a segment the scan stops or waits for the next cookie. -/
def CookieScan.after (st : CookieScan) (tail : Bytes) (value : Option Bytes)
    (jar : CookieJar) : CookieScan :=
  { st with
    state := if tail = [] then 0 else 3, httpCookie := tail.tail,
    value := value, jar := jar }

theorem segmentEnd_char {tail : Bytes} (h : SegmentEnd tail) :
    (tail.head?.getD 0 = 0 ∨ tail.head?.getD 0 = ascii ';') ∧
      (tail.head?.getD 0 = 0 ↔ tail = []) := by
  rcases h with rfl | ⟨rest, rfl⟩
  · exact ⟨Or.inl rfl, by simp⟩
  · have hne : ascii ';' ≠ 0 := by decide
    exact ⟨Or.inr rfl, by simp [hne]⟩

/-- What the scan makes of a cookie it adds at the end of a segment. -/
theorem scan_add {st : CookieScan} {name : Bytes} {value : Option Bytes}
    (hend : SegmentEnd st.httpCookie) (hstate : st.state ≠ 0)
    (hchar : cookieChar stale st = (do
      let jar ← st.jar.add stale name value
      pure { st with jar := jar, state := if st.char = 0 then 0 else 3 }))
    {jar : CookieJar} :
    Returns (scan stale st) jar ↔
      ∃ mid, Returns (st.jar.add stale name value) mid ∧
        Returns (scan stale (st.after st.httpCookie st.value mid)) jar := by
  have hnext : ∀ mid, (if (if st.char = 0 then 0 else 3) = 0 then
      { st with jar := mid, state := if st.char = 0 then 0 else 3 }
      else { st with
        jar := mid, state := if st.char = 0 then 0 else 3,
        httpCookie := st.httpCookie.tail }) =
      st.after st.httpCookie st.value mid := by
    intro mid
    have hzero : st.char = 0 ↔ st.httpCookie = [] := (segmentEnd_char hend).2
    by_cases hnil : st.httpCookie = []
    · simp [CookieScan.after, hzero, hnil]
    · simp [CookieScan.after, hzero, hnil]
  rw [scan, scan_returns_iff hstate, hchar]
  simp only [returns_bind]
  constructor
  · rintro ⟨next, ⟨mid, hadd, hpure⟩, hrun⟩
    cases returns_pure.mp hpure
    refine ⟨mid, hadd, ?_⟩
    rw [← hnext]
    exact hrun
  · rintro ⟨mid, hadd, hrun⟩
    refine ⟨_, ⟨mid, hadd, returns_pure_self _⟩, ?_⟩
    rw [← hnext] at hrun
    exact hrun

theorem mem_firstSegment {text : Bytes} (hnul : (0 : UInt8) ∉ text) :
    ∀ b ∈ firstSegment text, b ≠ 0 ∧ b ≠ ascii ';' := by
  intro b hb
  have hne : b ≠ ascii ';' := by simpa using List.mem_takeWhile_imp hb
  exact ⟨fun h => hnul (h ▸ (List.takeWhile_prefix _).subset hb), hne⟩

theorem segmentEnd_dropWhile (text : Bytes) :
    SegmentEnd (text.dropWhile (· ≠ ascii ';')) := by
  cases h : text.dropWhile (· ≠ ascii ';') with
  | nil => exact Or.inl rfl
  | cons c rest =>
      have hc := List.head?_dropWhile_not (· ≠ ascii ';') text
      rw [h] at hc
      simp at hc
      exact Or.inr ⟨rest, by rw [hc]⟩

/-- A segment that is read as a name, or as a name and a value. -/
theorem scan_named {st : CookieScan} {first text : Bytes}
    (hstate : st.state = 1) (hname : st.name = first ++ text)
    (htext : st.httpCookie = text) (hnul : (0 : UInt8) ∉ text) :
    ∃ value, ∀ jar, Returns (scan stale st) jar ↔
      ∃ mid, Returns (st.jar.add stale
          (first ++ (cutSegment (firstSegment text)).1)
          (cutSegment (firstSegment text)).2) mid ∧
        Returns (scan stale
          (st.after (text.dropWhile (· ≠ ascii ';')) value mid)) jar := by
  have hsplit : text = firstSegment text ++ text.dropWhile (· ≠ ascii ';') :=
    (List.takeWhile_append_dropWhile ..).symm
  have hmem := mem_firstSegment hnul
  have hend := segmentEnd_dropWhile text
  generalize firstSegment text = segment at hsplit hmem ⊢
  generalize text.dropWhile (· ≠ ascii ';') = tail at hsplit hend ⊢
  have hcut : segment = segment.takeWhile (· ≠ ascii '=') ++
      segment.dropWhile (· ≠ ascii '=') :=
    (List.takeWhile_append_dropWhile ..).symm
  have hleft : ∀ b ∈ segment.takeWhile (· ≠ ascii '='), b ≠ 0 ∧ b ≠ ascii ';' ∧
      b ≠ ascii '=' := by
    intro b hb
    have hb' := hmem b ((List.takeWhile_prefix _).subset hb)
    exact ⟨hb'.1, hb'.2, by simpa using List.mem_takeWhile_imp hb⟩
  have hhead := List.head?_dropWhile_not (· ≠ ascii '=') segment
  rw [cutSegment]
  generalize segment.takeWhile (· ≠ ascii '=') = before at hcut hleft ⊢
  -- the name is passed over
  have hreach : ∀ rest, st.httpCookie = before ++ rest →
      Reaches (cookieStep stale) st { st with httpCookie := rest } := by
    intro rest hrest
    apply reaches_skip (by simp [hstate]) hrest
    intro b hb next
    obtain ⟨hne, hsemicolon, hequals⟩ := hleft b hb
    simp [cookieChar, CookieScan.char, hstate, hne, hequals, hsemicolon]
  cases hdrop : segment.dropWhile (· ≠ ascii '=') with
  | nil =>
      rw [hdrop, List.append_nil] at hcut
      refine ⟨st.value, fun jar => ?_⟩
      rw [(hreach tail (by rw [htext, hsplit, hcut])).returns_iff]
      refine scan_add hend (by simp [hstate]) ?_
      have hchar := (segmentEnd_char hend).1
      have hequals : tail.head?.getD 0 ≠ ascii '=' := by
        rcases hchar with heq | heq
        · rw [heq]
          decide
        · rw [heq]
          decide
      have hparsed : parseCookieName st.name tail = first ++ before := by
        rw [parseCookieName, hname, hsplit, hcut, ← List.append_assoc,
          bytesBetween_append]
      simp only [cookieChar, CookieScan.char, hstate, if_neg hequals,
        if_pos hchar, hparsed]
  | cons c value =>
      rw [hdrop] at hcut hhead
      have hc : c = ascii '=' := by simpa using hhead
      rw [hc] at hcut
      have htext' : st.httpCookie = before ++ ascii '=' :: (value ++ tail) := by
        rw [htext, hsplit, hcut]
        simp
      have hequals : Returns (cookieStep stale
          { st with httpCookie := ascii '=' :: (value ++ tail) })
          (.inl { st with
            state := 2, httpCookie := value ++ tail,
            value := some (value ++ tail) }) := by
        have hchar : cookieChar stale
            { st with httpCookie := ascii '=' :: (value ++ tail) } =
            pure { st with
              state := 2, httpCookie := ascii '=' :: (value ++ tail),
              value := some (value ++ tail) } := by
          simp [cookieChar, CookieScan.char, hstate]
        rw [cookieStep, if_neg (by simp [hstate]), hchar]
        exact (returns_pure_self _).bind (returns_pure_self _)
      have hvalue : Reaches (cookieStep stale)
          { st with
            state := 2, httpCookie := value ++ tail,
            value := some (value ++ tail) }
          { st with
            state := 2, httpCookie := tail, value := some (value ++ tail) } := by
        refine reaches_skip (by simp) rfl ?_
        intro b hb next
        have hb' := hmem b (by rw [hcut]; simp [hb])
        simp [cookieChar, CookieScan.char, hb'.1, hb'.2]
      have hparsed : parseCookieName st.name (ascii '=' :: (value ++ tail)) =
          first ++ before := by
        rw [parseCookieName, hname, ← htext, htext', ← List.append_assoc,
          bytesBetween_append]
      refine ⟨some (value ++ tail), fun jar => ?_⟩
      rw [(((hreach _ htext').trans (Reaches.step hequals)).trans
        hvalue).returns_iff]
      refine scan_add hend (by simp) ?_
      have hchar := @cookieChar_value stale
        { st with
          state := 2, httpCookie := tail, value := some (value ++ tail) }
        (value ++ tail) rfl rfl (segmentEnd_char hend).1
      rw [bytesBetween_append, parseCookieValue_eq] at hchar
      dsimp only at hchar
      rw [hparsed] at hchar
      exact hchar

theorem waitingCookies_nil {text : Bytes} (h : skipBlanks text = []) :
    waitingCookies text = [] := by
  rw [waitingCookies]
  split
  next => rfl
  next c rest heq =>
    rw [h] at heq
    cases heq

theorem waitingCookies_cons {text rest : Bytes} {c : UInt8}
    (h : skipBlanks text = c :: rest) :
    waitingCookies text =
      (c :: (cutSegment (firstSegment rest)).1,
        (cutSegment (firstSegment rest)).2) ::
          waitingCookies (afterSegment rest) := by
  rw [waitingCookies]
  split
  next heq =>
    rw [h] at heq
    cases heq
  next c' rest' heq =>
    rw [h] at heq
    cases heq
    rfl

/-- A name is read, and then what comes after it. -/
theorem scan_part {st : CookieScan} {first text : Bytes}
    (hstate : st.state = 1) (hname : st.name = first ++ text)
    (htext : st.httpCookie = text) (hnul : (0 : UInt8) ∉ text)
    (hrest : ∀ (next : CookieScan) jar, next.state = 3 →
      next.httpCookie = afterSegment text → (Returns (scan stale next) jar ↔
        Returns (CookieJar.addAll stale
          (waitingCookies (afterSegment text)) next.jar) jar)) (jar : CookieJar) :
    Returns (scan stale st) jar ↔
      Returns (CookieJar.addAll stale
        ((first ++ (cutSegment (firstSegment text)).1,
          (cutSegment (firstSegment text)).2) ::
            waitingCookies (afterSegment text)) st.jar) jar := by
  obtain ⟨value, hnamed⟩ := @scan_named stale _ _ _ hstate hname htext hnul
  rw [hnamed, CookieJar.addAll, returns_bind]
  refine exists_congr fun mid => and_congr_right fun _ => ?_
  by_cases hnil : text.dropWhile (· ≠ ascii ';') = []
  · have hafter : afterSegment text = [] := by rw [afterSegment, hnil]; rfl
    rw [hafter, waitingCookies_nil rfl, scan, scan_end_returns_iff]
    · exact eq_comm.trans returns_pure.symm
    · exact if_pos hnil
  · exact hrest _ jar (if_neg hnil) rfl

/-- The blanks in front of a cookie are passed over. -/
theorem reaches_skipBlanks {st : CookieScan} (hstate : st.state = 3) :
    Reaches (cookieStep stale) st
      { st with httpCookie := skipBlanks st.httpCookie } := by
  apply reaches_skip (by simp [hstate])
    (List.takeWhile_append_dropWhile ..).symm
  intro b hb next
  have hblank : b = ascii ' ' := by simpa using List.mem_takeWhile_imp hb
  simp [cookieChar, CookieScan.char, hstate, hblank]

theorem skipBlanks_head {text rest : Bytes} {c : UInt8}
    (h : skipBlanks text = c :: rest) : c ≠ ascii ' ' := by
  have hhead := List.head?_dropWhile_not (· = ascii ' ') text
  rw [skipBlanks] at h
  rw [h] at hhead
  simpa using hhead

/-- The scan of a header without NUL reads the cookies it is said to. -/
theorem scan_waiting {st : CookieScan} {text : Bytes} (hstate : st.state = 3)
    (htext : st.httpCookie = text) (hnul : (0 : UInt8) ∉ text)
    (jar : CookieJar) :
    Returns (scan stale st) jar ↔
      Returns (CookieJar.addAll stale (waitingCookies text) st.jar) jar := by
  induction text using waitingCookies.induct generalizing st jar with
  | case1 text hskip =>
      have hchar : cookieChar stale { st with httpCookie := [] } =
          pure { st with
            state := 0, httpCookie := [], name := [], value := none } := by
        have hne : (0 : UInt8) ≠ ascii ' ' := by decide
        simp [cookieChar, CookieScan.char, hstate, hne]
      rw [scan, (reaches_skipBlanks hstate).returns_iff, htext, hskip,
        waitingCookies_nil hskip, scan_returns_iff (by simp [hstate]), hchar]
      simp only [returns_pure, exists_eq_left']
      exact (scan_end_returns_iff rfl).trans (eq_comm.trans returns_pure.symm)
  | case2 text c rest hskip ih =>
      have hmem : ∀ b ∈ c :: rest, b ∈ text := by
        intro b hb
        rw [← hskip] at hb
        exact (List.dropWhile_suffix _).subset hb
      have hblank := skipBlanks_head hskip
      have hzero : c ≠ 0 := fun h => hnul (h ▸ hmem c List.mem_cons_self)
      have hrest : (0 : UInt8) ∉ rest :=
        fun h => hnul (hmem 0 (List.mem_cons_of_mem c h))
      have hchar : cookieChar stale { st with httpCookie := c :: rest } =
          pure { st with
            state := 1, httpCookie := c :: rest, name := c :: rest,
            value := none } := by
        simp [cookieChar, CookieScan.char, hstate, hblank, hzero]
      rw [scan, (reaches_skipBlanks hstate).returns_iff, htext, hskip,
        waitingCookies_cons hskip, scan_returns_iff (by simp [hstate]), hchar]
      simp only [returns_pure, exists_eq_left']
      refine @scan_part stale _ [c] rest rfl rfl rfl hrest ?_ jar
      intro next jar hnext hafter
      refine ih hnext hafter ?_ jar
      intro h
      exact hrest ((List.dropWhile_suffix _).subset (List.mem_of_mem_tail h))

theorem parseCookies_scanned {httpCookie : Bytes}
    (hnul : (0 : UInt8) ∉ httpCookie) (this jar : CookieJar) :
    Returns (parseCookies stale httpCookie this) jar ↔
      Returns (CookieJar.addAll stale (scannedCookies httpCookie) this) jar := by
  rw [parseCookies, scannedCookies]
  by_cases hnil : httpCookie = []
  · rw [if_pos hnil, if_pos hnil, scan_end_returns_iff rfl]
    exact eq_comm.trans returns_pure.symm
  · rw [if_neg hnil, if_neg hnil]
    refine @scan_part stale _ [] httpCookie rfl rfl rfl hnul ?_ jar
    intro next jar hnext hafter
    refine scan_waiting hnext hafter ?_ jar
    intro h
    exact hnul ((List.dropWhile_suffix _).subset (List.mem_of_mem_tail h))

end Libcad
