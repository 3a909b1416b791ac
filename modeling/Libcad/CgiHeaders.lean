/-
The header section of a response as a reader of lines finds it, and the fields
that keep it as the handler built it.
-/
import Libcad.CgiRuns

namespace Libcad

open Proc

/-- Two neighbouring bytes are CR and LF. -/
def HasCrlf : Bytes → Prop
  | [] => False
  | c :: rest => (c = 13 ∧ rest.head? = some 10) ∨ HasCrlf rest

instance HasCrlf.decidable : DecidablePred HasCrlf
  | [] => inferInstanceAs (Decidable False)
  | c :: rest =>
      have := HasCrlf.decidable rest
      inferInstanceAs
        (Decidable ((c = 13 ∧ rest.head? = some 10) ∨ HasCrlf rest))

/-- The lines up to the first empty one, and what comes after it; `line` is
what has been read of the current line. -/
def readHead (line : Bytes) : Bytes → List Bytes × Bytes
  | [] => ([], [])
  | c :: rest =>
      if c = 10 ∧ line.getLast? = some 13 then
        if line.dropLast = [] then ([], rest)
        else
          let head := readHead [] rest
          (line.dropLast :: head.1, head.2)
      else readHead (line ++ [c]) rest

theorem hasCrlf_append {a b : Bytes} :
    HasCrlf (a ++ b) ↔ HasCrlf a ∨
      (a.getLast? = some 13 ∧ b.head? = some 10) ∨ HasCrlf b := by
  induction a with
  | nil => simp [HasCrlf]
  | cons c a ih =>
      rw [List.cons_append, HasCrlf, HasCrlf, ih]
      cases a with
      | nil => simp [HasCrlf]
      | cons d a =>
          rw [List.getLast?_cons_cons, List.cons_append, List.head?_cons,
            List.head?_cons, or_assoc]

theorem hasCrlf_append_of_head {a b : Bytes} (h : b.head? ≠ some 10) :
    HasCrlf (a ++ b) ↔ HasCrlf a ∨ HasCrlf b := by
  rw [hasCrlf_append]
  simp [h]

theorem hasCrlf_append_of_last {a b : Bytes} (h : a.getLast? ≠ some 13) :
    HasCrlf (a ++ b) ↔ HasCrlf a ∨ HasCrlf b := by
  rw [hasCrlf_append]
  simp [h]

theorem not_hasCrlf_of_not_mem {a : Bytes} (h : (13 : UInt8) ∉ a) :
    ¬ HasCrlf a := by
  induction a with
  | nil => exact id
  | cons c a ih =>
      rw [List.mem_cons, not_or] at h
      rw [HasCrlf, not_or]
      exact ⟨fun hc => h.1 hc.1.symm, ih h.2⟩

theorem HasCrlf.split {a : Bytes} (h : HasCrlf a) :
    ∃ before after, a = before ++ crlf ++ after ∧ ¬ HasCrlf before := by
  induction a with
  | nil => exact absurd h id
  | cons c a ih =>
      by_cases hc : c = 13 ∧ a.head? = some 10
      · obtain ⟨rest, rfl⟩ := List.head?_eq_some_iff.mp hc.2
        exact ⟨[], rest, by rw [hc.1]; rfl, id⟩
      · obtain ⟨before, after, rfl, hbefore⟩ := ih (h.resolve_left hc)
        refine ⟨c :: before, after, rfl, ?_⟩
        rw [HasCrlf, not_or]
        refine ⟨?_, hbefore⟩
        rintro ⟨hcr, hlf⟩
        refine hc ⟨hcr, ?_⟩
        cases before with
        | nil => cases hlf
        | cons d before => exact hlf

theorem readHead_line {line text : Bytes} (rest : Bytes)
    (h : ¬ HasCrlf (line ++ text)) :
    readHead line (text ++ crlf ++ rest) =
      if line ++ text = [] then ([], rest)
      else ((line ++ text) :: (readHead [] rest).1, (readHead [] rest).2) := by
  induction text generalizing line with
  | nil =>
      have hlast : (line ++ [13]).getLast? = some 13 := by simp
      have hcr : readHead line (crlf ++ rest) =
          readHead (line ++ [13]) (10 :: rest) := by
        rw [crlf, List.cons_append, readHead, if_neg (by simp)]
        rfl
      rw [List.nil_append, List.append_nil, hcr, readHead,
        if_pos ⟨rfl, hlast⟩, List.dropLast_concat]
  | cons c text ih =>
      have hne : ¬ (c = 10 ∧ line.getLast? = some 13) := by
        rintro ⟨rfl, hlast⟩
        exact h (hasCrlf_append.mpr (Or.inr (Or.inl ⟨hlast, rfl⟩)))
      have happend : line ++ c :: text = line ++ [c] ++ text := by simp
      rw [happend] at h ⊢
      rw [List.cons_append, List.cons_append, readHead, if_neg hne, ih h]

/-- The lines are read back exactly when none of them holds a CR LF. -/
theorem readHead_unlines_iff {lines : List Bytes} {body : Bytes}
    (hne : ∀ line ∈ lines, line ≠ []) :
    readHead [] (unlines lines ++ crlf ++ body) = (lines, body) ↔
      ∀ line ∈ lines, ¬ HasCrlf line := by
  induction lines with
  | nil =>
      refine iff_of_true ?_ (by simp)
      exact @readHead_line [] [] body id
  | cons line lines ih =>
      obtain ⟨hline, hlines⟩ := List.forall_mem_cons.mp hne
      have htext : unlines (line :: lines) ++ crlf ++ body =
          line ++ crlf ++ (unlines lines ++ crlf ++ body) := by
        simp [unlines]
      rw [List.forall_mem_cons, ← ih hlines, htext]
      by_cases hcrlf : HasCrlf line
      · -- the first line read is shorter than this one
        refine iff_of_false ?_ (fun h => h.1 hcrlf)
        obtain ⟨before, after, rfl, hbefore⟩ := hcrlf.split
        have hassoc : ∀ rest, before ++ crlf ++ after ++ crlf ++ rest =
            before ++ crlf ++ (after ++ crlf ++ rest) := by simp
        rw [hassoc, @readHead_line [] _ _ hbefore]
        intro hread
        split at hread
        next => cases hread
        next =>
          have hlength := congrArg List.length
            (List.cons.inj (Prod.mk.inj hread).1).1
          simp [crlf] at hlength
      · rw [@readHead_line [] _ _ hcrlf, List.nil_append, if_neg hline]
        simp [hcrlf, Prod.ext_iff]

theorem cr_not_mem_decimal (n : Int) : (13 : UInt8) ∉ decimal n := by
  intro h
  rcases List.mem_append.mp h with h | h
  · split at h
    next => exact absurd (List.mem_singleton.mp h) (by decide)
    next => cases h
  · obtain ⟨c, hc, hcr⟩ := List.mem_map.mp h
    have hdigit := Char.isDigit_iff_toNat.mp
      (Nat.isDigit_of_mem_toDigits (by decide) (by decide) hc)
    have hnat := congrArg UInt8.toNat hcr
    rw [ascii, UInt8.toNat_ofNat'] at hnat
    have hbounds : 48 ≤ c.toNat ∧ c.toNat ≤ 57 := hdigit
    change c.toNat % 256 = 13 at hnat
    omega

theorem cr_not_mem_twoDigits {n : Nat} (h : n < 100) :
    (13 : UInt8) ∉ twoDigits n := by
  have hdigit : ∀ d, d < 10 → (13 : UInt8) ≠ UInt8.ofNat (48 + d) := by
    decide
  simp only [twoDigits, List.mem_cons, List.not_mem_nil, or_false, not_or]
  exact ⟨hdigit _ (by omega), hdigit _ (by omega)⟩

theorem gmtime_clock {t : Nat} {tm : Tm} (h : gmtime t = some tm) :
    tm.mday < 100 ∧ tm.hour < 100 ∧ tm.min < 100 ∧ tm.sec < 100 := by
  simp only [gmtime, Option.ite_none_right_eq_some, Option.some.injEq] at h
  obtain ⟨-, rfl⟩ := h
  dsimp only
  omega

theorem cr_not_mem_httpDate {t : Nat} {tm : Tm} (h : gmtime t = some tm) :
    (13 : UInt8) ∉ httpDate tm := by
  have hnames : ∀ names ∈ [dayNames, monthNames], ∀ name ∈ names,
      (13 : UInt8) ∉ name := by decide
  have hname : ∀ names ∈ [dayNames, monthNames], ∀ n,
      (13 : UInt8) ∉ names.getD n [] := by
    intro names hmem n
    rw [List.getD_eq_getElem?_getD]
    cases hget : names[n]? with
    | none => simp
    | some name => exact hnames names hmem name (List.mem_of_getElem? hget)
  obtain ⟨hmday, hhour, hmin, hsec⟩ := gmtime_clock h
  simp only [httpDate, List.mem_append, not_or]
  exact ⟨⟨⟨⟨⟨⟨⟨⟨⟨⟨⟨⟨⟨hname dayNames (by simp) _, by decide⟩,
    cr_not_mem_twoDigits hmday⟩, by decide⟩, hname monthNames (by simp) _⟩,
    by decide⟩, cr_not_mem_decimal _⟩, by decide⟩,
    cr_not_mem_twoDigits hhour⟩, by decide⟩, cr_not_mem_twoDigits hmin⟩,
    by decide⟩, cr_not_mem_twoDigits hsec⟩, by decide⟩

theorem hasCrlf_label {label text : Bytes} (hlabel : (13 : UInt8) ∉ label) :
    HasCrlf (label ++ text) ↔ HasCrlf text := by
  have hlast : label.getLast? ≠ some 13 :=
    fun h => hlabel (List.mem_of_getLast? h)
  rw [hasCrlf_append_of_last hlast]
  exact or_iff_right (not_hasCrlf_of_not_mem hlabel)

theorem encodeByte_cases (c : UInt8) :
    encodeByte c = [c] ∨ (c ≠ 13 ∧ c ≠ 10 ∧ (13 : UInt8) ∉ encodeByte c ∧
      (encodeByte c).head? = some (ascii '%')) := by
  rw [encodeByte]
  split
  next h =>
    subst h
    exact Or.inr (by decide)
  next =>
    split
    next h =>
      subst h
      exact Or.inr (by decide)
    next =>
      split
      next h =>
        subst h
        exact Or.inr (by decide)
      next => exact Or.inl rfl

theorem head?_encoded (value : Bytes) :
    (encoded value).head? = some 10 ↔ value.head? = some 10 := by
  cases value with
  | nil => rfl
  | cons c value =>
      rw [encoded, List.flatMap_cons]
      rcases encodeByte_cases c with h | ⟨-, hlf, -, hhead⟩
      · rw [h]
        rfl
      · obtain ⟨rest, hrest⟩ := List.head?_eq_some_iff.mp hhead
        rw [hrest]
        simp [hlf, ascii]

theorem hasCrlf_encoded (value : Bytes) :
    HasCrlf (encoded value) ↔ HasCrlf value := by
  induction value with
  | nil => rfl
  | cons c value ih =>
      have hcons : encoded (c :: value) = encodeByte c ++ encoded value := by
        rw [encoded, List.flatMap_cons]
        rfl
      rw [hcons, HasCrlf, ← ih]
      rcases encodeByte_cases c with h | ⟨hcr, -, hmem, -⟩
      · rw [h, List.singleton_append, HasCrlf, head?_encoded]
      · rw [hasCrlf_label hmem]
        simp [hcr]

/-- One of the lines, or of the texts, holds a CR LF. -/
def Broken (lines : List Bytes) : Prop := ∃ line ∈ lines, HasCrlf line

instance : DecidablePred Broken := fun lines =>
  inferInstanceAs (Decidable (∃ line ∈ lines, HasCrlf line))

@[simp] theorem not_broken_nil : ¬ Broken [] := by simp [Broken]

@[simp] theorem broken_cons {line : Bytes} {lines : List Bytes} :
    Broken (line :: lines) ↔ HasCrlf line ∨ Broken lines := by
  simp [Broken]

@[simp] theorem broken_append {a b : List Bytes} :
    Broken (a ++ b) ↔ Broken a ∨ Broken b := by
  simp [Broken, or_and_right, exists_or]

theorem broken_flatMap {α : Type} {l : List α} {f : α → List Bytes} :
    Broken (l.flatMap f) ↔ ∃ a ∈ l, Broken (f a) := by
  simp only [Broken, List.mem_flatMap]
  constructor
  · rintro ⟨line, ⟨a, ha, hline⟩, hcrlf⟩
    exact ⟨a, ha, line, hline, hcrlf⟩
  · rintro ⟨a, ha, line, hline, hcrlf⟩
    exact ⟨line, ⟨a, ha, hline⟩, hcrlf⟩

/-- An optional part of a line that starts with a label. -/
def optionPart (label : Bytes) (part : Option Bytes) : Bytes :=
  match part with
  | some text => label ++ text
  | none => []

theorem hasCrlf_optionPart {label : Bytes} (hlabel : (13 : UInt8) ∉ label)
    (part : Option Bytes) :
    HasCrlf (optionPart label part) ↔ Broken part.toList := by
  cases part with
  | none => simp [optionPart, HasCrlf]
  | some text => simp [optionPart, hasCrlf_label hlabel]

theorem head?_optionPart {label : Bytes} (hne : label ≠ [])
    (hlabel : label.head? ≠ some 10) (part : Option Bytes) :
    (optionPart label part).head? ≠ some 10 := by
  cases part with
  | none => simp [optionPart]
  | some text =>
      rw [optionPart, List.head?_append_of_ne_nil _ hne]
      exact hlabel

namespace Cookie

def texts (this : Cookie) : List Bytes :=
  [this.name, this.valueText] ++ this.domain.toList ++ this.path.toList

theorem attributes_eq (this : Cookie) :
    this.attributes =
      optionPart (chars "; Max-Age=")
          (if this.maxAge > 0 then some (decimal this.maxAge) else none) ++
        optionPart (chars "; Domain=") this.domain ++
        optionPart (chars "; Path=") this.path ++
        optionPart (chars "; Secure")
          (if this.flag &&& cookieSecure ≠ 0 then some [] else none) ++
        optionPart (chars "; HttpOnly")
          (if this.flag &&& cookieHttpOnly ≠ 0 then some [] else none) := by
  rw [attributes]
  congr 1
  · congr 1
    · congr 1
      congr 1
      split <;> rfl
    · split <;> rfl
  · split <;> rfl

theorem hasCrlf_attributes (this : Cookie) :
    HasCrlf this.attributes ↔
      Broken this.domain.toList ∨ Broken this.path.toList := by
  have hmaxAge : ¬ Broken (if this.maxAge > 0 then
      some (decimal this.maxAge) else none).toList := by
    split
    next => simp [not_hasCrlf_of_not_mem (cr_not_mem_decimal _)]
    next => simp
  have hflag : ∀ flag : Prop, [Decidable flag] →
      ¬ Broken (if flag then some ([] : Bytes) else none).toList := by
    intro flag _
    split <;> simp [HasCrlf]
  rw [attributes_eq,
    hasCrlf_append_of_head (head?_optionPart (by decide) (by decide) _),
    hasCrlf_append_of_head (head?_optionPart (by decide) (by decide) _),
    hasCrlf_append_of_head (head?_optionPart (by decide) (by decide) _),
    hasCrlf_append_of_head (head?_optionPart (by decide) (by decide) _),
    hasCrlf_optionPart (by decide), hasCrlf_optionPart (by decide),
    hasCrlf_optionPart (by decide), hasCrlf_optionPart (by decide),
    hasCrlf_optionPart (by decide)]
  simp only [hmaxAge, hflag, or_false, false_or]

theorem cr_not_mem_expiresText (this : Cookie) :
    (13 : UInt8) ∉ this.expiresText := by
  rw [expiresText]
  split
  next =>
    cases h : gmtime this.expires.toNat with
    | none => exact List.not_mem_nil
    | some tm =>
        rw [Option.elim_some, List.mem_append, not_or]
        exact ⟨by decide, cr_not_mem_httpDate h⟩
  next => exact List.not_mem_nil

theorem head?_expiresText (this : Cookie) :
    this.expiresText.head? ≠ some 10 := by
  rw [expiresText]
  split
  next =>
    cases gmtime this.expires.toNat with
    | none => simp
    | some tm =>
        rw [Option.elim_some, List.head?_append_of_ne_nil _ (by decide)]
        decide
  next => simp

theorem head?_attributes (this : Cookie) :
    this.attributes.head? ≠ some 10 := by
  have happend : ∀ {a b : Bytes}, a.head? ≠ some 10 → b.head? ≠ some 10 →
      (a ++ b).head? ≠ some 10 := by
    intro a b ha hb
    cases a with
    | nil => exact hb
    | cons c a => exact ha
  have hpart := fun label hne hlabel => @head?_optionPart label hne hlabel
  rw [attributes_eq]
  exact happend (happend (happend (happend
    (hpart _ (by decide) (by decide) _) (hpart _ (by decide) (by decide) _))
    (hpart _ (by decide) (by decide) _)) (hpart _ (by decide) (by decide) _))
    (hpart _ (by decide) (by decide) _)

/-- A `Set-Cookie` line is broken by its own texts only. -/
theorem hasCrlf_line (this : Cookie) :
    HasCrlf this.line ↔ Broken this.texts := by
  have hexpires := not_hasCrlf_of_not_mem this.cr_not_mem_expiresText
  have hequals : HasCrlf (chars "Set-Cookie: " ++ this.name ++ chars "=" ++
      encoded this.valueText) ↔ HasCrlf this.name ∨ HasCrlf this.valueText := by
    rw [List.append_assoc (_ ++ this.name),
      hasCrlf_append_of_head (by simp [chars, ascii]),
      hasCrlf_label (by decide), hasCrlf_label (by decide), hasCrlf_encoded]
  rw [line, hasCrlf_append_of_head this.head?_attributes,
    hasCrlf_append_of_head this.head?_expiresText, hequals,
    hasCrlf_attributes, texts]
  simp [hexpires, or_assoc]

end Cookie

namespace Response

def redirectTexts (this : Response) : List Bytes :=
  match this.redirectPath, this.redirectFragment with
  | some path, some fragment => [path, fragment]
  | _, _ => []

def headerTexts (header : Bytes × Option Bytes) : List Bytes :=
  [header.1, header.2.getD []]

/-- The texts of the changed cookies that the entries point to. -/
def cookieTexts (this : Response) (visits : Dict Bytes Nat) : List Bytes :=
  visits.flatMap fun visit =>
    match this.cookies.cookie visit.2 with
    | some cookie => if cookie.changed then cookie.texts else []
    | none => []

/-- The texts of the response that reach its header section. -/
def texts (this : Response) : List Bytes :=
  this.contentType.toList ++ this.redirectTexts ++
    this.headers.flatMap headerTexts ++ this.cookieTexts this.cookies.jar

theorem broken_locationLines (this : Response) :
    Broken this.locationLines ↔ Broken this.redirectTexts := by
  rw [locationLines, redirectTexts]
  cases this.redirectPath with
  | none => rfl
  | some path =>
      cases this.redirectFragment with
      | none => rfl
      | some fragment =>
          simp only [broken_cons, not_broken_nil, or_false]
          by_cases hnil : fragment = []
          · rw [if_pos hnil, hnil, List.append_nil, hasCrlf_label (by decide)]
            exact (or_iff_left id).symm
          · rw [if_neg hnil, hasCrlf_append_of_head (by simp [chars, ascii]),
              hasCrlf_label (by decide), hasCrlf_label (by decide)]

theorem hasCrlf_headerLine (header : Bytes × Option Bytes) :
    HasCrlf (headerLine header) ↔ Broken (headerTexts header) := by
  rw [headerLine, List.append_assoc,
    hasCrlf_append_of_head (by simp [chars, ascii]), hasCrlf_label (by decide)]
  simp [headerTexts]

theorem broken_perm {α : Type} {l l' : List α} (h : l.Perm l')
    (f : α → List Bytes) : Broken (l.flatMap f) ↔ Broken (l'.flatMap f) := by
  rw [broken_flatMap, broken_flatMap]
  exact exists_congr fun a => and_congr_left fun _ => h.mem_iff

theorem broken_cookieLines (this : Response) (visits : Dict Bytes Nat) :
    Broken (this.cookies.lines visits) ↔ Broken (this.cookieTexts visits) := by
  rw [CookieJar.lines, cookieTexts, broken_flatMap, broken_flatMap]
  refine exists_congr fun visit => and_congr_right fun _ => ?_
  cases this.cookies.cookie visit.2 with
  | none => rfl
  | some cookie =>
      change Broken cookie.lines ↔ Broken (if cookie.changed then _ else _)
      rw [Cookie.lines]
      by_cases hchanged : cookie.changed = true
      · simp [hchanged, Cookie.hasCrlf_line]
      · simp [hchanged]

/-- The header section is broken by the texts of the response only. -/
theorem broken_headLines (order : VisitOrder) (this : Response) :
    Broken (this.headLines order) ↔ Broken this.texts := by
  have hdefault : HasCrlf (this.contentType.getD (chars "text/plain")) ↔
      Broken this.contentType.toList := by
    cases this.contentType with
    | none => exact iff_of_false (not_hasCrlf_of_not_mem (by decide)) (by simp)
    | some contentType => simp
  have hstatus : ¬ HasCrlf (chars "Status: " ++
      decimal (if this.status = 0 then 200 else this.status)) := by
    rw [hasCrlf_label (by decide)]
    exact not_hasCrlf_of_not_mem (cr_not_mem_decimal _)
  have hheaders : Broken ((order.visits this.headers).map headerLine) ↔
      Broken (this.headers.flatMap headerTexts) := by
    rw [← broken_perm (order.perm this.headers), List.map_eq_flatMap,
      broken_flatMap, broken_flatMap]
    exact exists_congr fun header => and_congr_right fun _ => by
      simp [hasCrlf_headerLine]
  have hcookies : Broken (this.cookies.lines (order.visits this.cookies.jar)) ↔
      Broken (this.cookieTexts this.cookies.jar) :=
    (this.broken_cookieLines _).trans (broken_perm (order.perm _) _)
  rw [headLines, texts]
  simp only [broken_append, broken_cons, not_broken_nil, or_false,
    hasCrlf_label (show (13 : UInt8) ∉ chars "Content-Type: " by decide),
    hdefault, hstatus, broken_locationLines, hheaders, hcookies]

/-- The name of a line: what comes before its colon. -/
def headerName (line : Bytes) : Bytes := line.takeWhile (· ≠ ascii ':')

/-- The names of the lines that have setters of their own. -/
def reservedNames : List Bytes :=
  [chars "Status", chars "Content-Type", chars "Location", chars "Set-Cookie"]

/-- In any case, the name is none of those. -/
def Unreserved (name : Bytes) : Prop :=
  ∀ reserved ∈ reservedNames, strcasecmp name reserved ≠ 0

/-- The fields of the headers have passed the test of `set_header`. -/
def Filtered (this : Response) : Prop :=
  ∀ header ∈ this.headers, ∀ refused ∈ refusedFields,
    strcasecmp header.1 refused ≠ 0

variable {stale : Nat → Bool} {this that : Response}

theorem Filtered.setHeader (hf : this.Filtered) {field value : Option Bytes}
    {r : Int × Response} (hrun : Returns (this.setHeader true field value) r) :
    r.2.Filtered := by
  rw [Response.setHeader.eq_def] at hrun
  split at hrun
  next field value =>
    split at hrun
    next hpass =>
      obtain ⟨headers, hset, hrun⟩ := returns_bind.mp hrun
      cases returns_pure.mp hrun
      cases returns_pure.mp hset
      intro header hmem
      rcases Dict.key_of_mem_set hmem with hkey | ⟨old, hold, hkey⟩
      · rw [hkey]
        exact hpass
      · rw [hkey]
        exact hf old hold
    next => exact returns_pure.mp hrun ▸ hf
  next => exact returns_pure.mp hrun ▸ hf

theorem step_headers {op : ResponseOp} (hrun : Returns (this.step stale op) that) :
    that.headers = this.headers ∨ ∃ field value code,
      op = .setHeader field value ∧
        Returns (this.setHeader true field value) (code, that) := by
  have hcookie : ∀ {pointer setter},
      Returns (this.withCookie pointer setter) that →
      that.headers = this.headers := by
    intro pointer setter hrun
    obtain ⟨cookie, -, hrun⟩ := returns_bind.mp hrun
    obtain ⟨r, -, hrun⟩ := returns_bind.mp hrun
    exact returns_pure.mp hrun ▸ rfl
  cases op with
  | redirect path fragment =>
      refine Or.inl (returns_pure.mp hrun ▸ ?_)
      rw [Response.redirect.eq_def]
      split <;> rfl
  | setStatus status => exact Or.inl (returns_pure.mp hrun ▸ rfl)
  | setContentType contentType =>
      refine Or.inl (returns_pure.mp hrun ▸ ?_)
      cases contentType <;> rfl
  | setHeader field value =>
      obtain ⟨⟨code, r⟩, hset, hrun⟩ := returns_bind.mp hrun
      cases returns_pure.mp hrun
      exact Or.inr ⟨field, value, code, rfl, hset⟩
  | putBody text => exact Or.inl (returns_pure.mp hrun ▸ rfl)
  | newCookie name => exact Or.inl (returns_pure.mp hrun ▸ rfl)
  | setValue pointer value => exact Or.inl (hcookie hrun)
  | setExpires pointer expires => exact Or.inl (hcookie hrun)
  | setMaxAge pointer maxAge => exact Or.inl (hcookie hrun)
  | setDomain pointer domain => exact Or.inl (hcookie hrun)
  | setPath pointer path => exact Or.inl (hcookie hrun)
  | setFlag pointer flag => exact Or.inl (hcookie hrun)
  | setCookie pointer =>
      obtain ⟨r, -, hrun⟩ := returns_bind.mp hrun
      exact Or.inl (returns_pure.mp hrun ▸ rfl)

theorem Filtered.run {ops : List ResponseOp} (hf : this.Filtered)
    (hrun : Returns (run stale ops this) that) : that.Filtered := by
  induction ops generalizing this with
  | nil => exact returns_pure.mp hrun ▸ hf
  | cons op ops ih =>
      obtain ⟨next, hstep, hrun⟩ := returns_bind.mp hrun
      refine ih ?_ hrun
      rcases step_headers hstep with hsame | ⟨field, value, code, -, hset⟩
      · rw [Filtered, hsame]
        exact hf
      · exact hf.setHeader hset

theorem Reachable.filtered (h : this.Reachable) : this.Filtered := by
  obtain ⟨stale, httpCookie, ops, initial, hnew, hrun⟩ := h
  refine Filtered.run ?_ hrun
  obtain ⟨cookies, -, hnew⟩ := returns_bind.mp hnew
  cases returns_pure.mp hnew
  exact fun _ => nofun

/-- A reader of the text finds the lines of the header section as the response
has them and then the body, and no header line has a reserved name. -/
def Intact (order : VisitOrder) (this : Response) (text : Bytes) : Prop :=
  (∃ body, this.body = some body ∧
    readHead [] text = (this.headLines order, bodyChars 0 (cString body))) ∧
  ∀ header ∈ this.headers, Unreserved (headerName (headerLine header))

/-- No text holds a CR LF, and no header field holds a colon after a reserved
name. -/
structure Clean (this : Response) : Prop where
  texts : ¬ Broken this.texts
  fields : ∀ header ∈ this.headers, ascii ':' ∈ header.1 →
    Unreserved (headerName header.1)

theorem headerName_headerLine (header : Bytes × Option Bytes) :
    headerName (headerLine header) = headerName header.1 := by
  have hcolon : (chars ": " ++ header.2.getD []).takeWhile
      (· ≠ ascii ':') = [] := rfl
  rw [headerLine, headerName, headerName, List.append_assoc,
    List.takeWhile_append]
  split
  next hall =>
    rw [hcolon, List.append_nil, List.takeWhile_prefix _ |>.eq_of_length hall]
  next => rfl

theorem headerName_of_not_mem {field : Bytes} (h : ascii ':' ∉ field) :
    headerName field = field := by
  rw [headerName, List.takeWhile_eq_self_iff]
  intro c hc
  exact decide_eq_true fun hcolon => h (hcolon ▸ hc)

/-- A field without a colon is the name, which has passed the test. -/
theorem Filtered.unreserved_iff (hf : this.Filtered) :
    (∀ header ∈ this.headers, Unreserved (headerName (headerLine header))) ↔
      ∀ header ∈ this.headers, ascii ':' ∈ header.1 →
        Unreserved (headerName header.1) := by
  refine forall₂_congr fun header hmem => ?_
  rw [headerName_headerLine]
  refine ⟨fun h _ => h, fun h => ?_⟩
  by_cases hcolon : ascii ':' ∈ header.1
  · exact h hcolon
  · rw [headerName_of_not_mem hcolon]
    intro reserved hreserved
    have hrefused : ∀ name ∈ reservedNames, name ∈ refusedFields := by decide
    exact hf header hmem reserved (hrefused reserved hreserved)

theorem headLines_ne_nil (order : VisitOrder) (this : Response) :
    ∀ line ∈ this.headLines order, line ≠ [] := by
  have hlabel : ∀ {label text : Bytes}, label ≠ [] → label ++ text ≠ [] :=
    fun h => by simp [h]
  have hlocation : ∀ line ∈ this.locationLines, line ≠ [] := by
    rw [locationLines.eq_def]
    split <;> simp [chars]
  have hcookies : ∀ line ∈ this.cookies.lines
      (order.visits this.cookies.jar), line ≠ [] := by
    intro line hline
    obtain ⟨visit, -, hline⟩ := List.mem_flatMap.mp hline
    split at hline
    next cookie _ =>
      rw [Cookie.lines] at hline
      split at hline
      next =>
        rw [List.mem_singleton.mp hline, Cookie.line]
        simp [chars]
      next => cases hline
    next => cases hline
  intro line hline
  rw [headLines] at hline
  rcases List.mem_append.mp hline with hline | hline
  · rcases List.mem_append.mp hline with hline | hline
    · rcases List.mem_append.mp hline with hline | hline
      · rcases List.mem_pair.mp hline with rfl | rfl
        · exact hlabel (by decide)
        · exact hlabel (by decide)
      · exact hlocation line hline
    · obtain ⟨header, -, rfl⟩ := List.mem_map.mp hline
      simp [headerLine, chars]
  · exact hcookies line hline

/-- What the flush of a response writes is read back as it was built exactly
when the response is clean. -/
theorem reachable_intact_iff (order : VisitOrder) (h : this.Reachable)
    {text : Bytes} {after : Response}
    (hflush : Returns (this.flush order) (text, after)) :
    this.Intact order text ↔ this.Clean := by
  obtain ⟨body, hbody, -, rfl⟩ :=
    (h.valid.flush_returns_iff order).mp ⟨after, hflush⟩
  have hread : (∃ body', this.body = some body' ∧
      readHead [] (unlines (this.headLines order) ++ crlf ++
        bodyChars 0 (cString body)) =
        (this.headLines order, bodyChars 0 (cString body'))) ↔
      ¬ Broken this.texts := by
    rw [← broken_headLines order, hbody]
    simp only [Option.some.injEq, exists_eq_left']
    rw [readHead_unlines_iff (headLines_ne_nil order this)]
    simp [Broken]
  rw [Intact, hread, h.filtered.unreserved_iff]
  exact ⟨fun h => ⟨h.1, h.2⟩, fun h => ⟨h.texts, h.fields⟩⟩

/-- A handler that sets the header `X: a` and writes `hi`. -/
theorem reachable_intact_header :
    ∃ (this : Response) (text : Bytes) (after : Response),
      (∃ initial, Returns (newCadCgiResponse (fun _ => false) none) initial ∧
        Returns (run (fun _ => false)
          [.setHeader (some (chars "X")) (some (chars "a")),
            .putBody (chars "hi")] initial) this) ∧
      Returns (this.flush VisitOrder.entries) (text, after) ∧
      this.Intact VisitOrder.entries text := by
  have hrun : Returns (run (fun _ => false)
      [.setHeader (some (chars "X")) (some (chars "a")),
        .putBody (chars "hi")] ⟨⟨[], []⟩, none, none, none, 0, none, []⟩)
      ⟨⟨[], []⟩, some (chars "hi"), none, none, 0, none,
        [(chars "X", some (chars "a"))]⟩ := ⟨0, rfl⟩
  refine ⟨_, _, _, ⟨_, ⟨0, rfl⟩, hrun⟩, ⟨0, rfl⟩, (reachable_intact_iff
    VisitOrder.entries ⟨fun _ => false, none, _, _, ⟨0, rfl⟩, hrun⟩
    ⟨0, rfl⟩).mpr ⟨by decide, ?_⟩⟩
  intro header hmem
  cases List.mem_singleton.mp hmem
  exact fun hcolon => absurd hcolon (by decide)

/-- The value of a header brings in a `Status` line of its own. -/
theorem reachable_not_intact_value :
    ∃ (this : Response) (text : Bytes) (after : Response),
      (∃ initial, Returns (newCadCgiResponse (fun _ => false) none) initial ∧
        Returns (run (fun _ => false)
          [.setHeader (some (chars "X")) (some (chars "a\r\nStatus: 500")),
            .putBody (chars "hi")] initial) this) ∧
      Returns (this.flush VisitOrder.entries) (text, after) ∧
      (readHead [] text).1 = [chars "Content-Type: text/plain",
        chars "Status: 200", chars "X: a", chars "Status: 500"] ∧
      ¬ this.Intact VisitOrder.entries text := by
  refine ⟨⟨⟨[], []⟩, some (chars "hi"), none, none, 0, none,
    [(chars "X", some (chars "a\r\nStatus: 500"))]⟩, _, _,
    ⟨_, ⟨0, rfl⟩, ⟨0, rfl⟩⟩, ⟨0, rfl⟩, by decide, ?_⟩
  rintro ⟨⟨body, -, hread⟩, -⟩
  have hlength : 4 = 3 :=
    congrArg (fun head : List Bytes × Bytes => head.1.length) hread
  exact absurd hlength (by decide)

end Response

end Libcad
