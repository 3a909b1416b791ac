/-
The expiry dates of cookies: which instants `rfc1123` prints as a date.
-/
import Libcad.Block
import Libcad.Calendar
import Libcad.CgiFlush

namespace Libcad

open Proc

/-- A year that starts in March, and the day in it. -/
structure MarchDay where
  year : Nat
  day : Nat
deriving Repr, DecidableEq

/-- The day with this number, from the first of March of the year 0 on. -/
def marchDay (number : Nat) : MarchDay :=
  let dayOfEra := number % 146097
  let century := min (dayOfEra / 36524) 3
  let dayOfCentury := dayOfEra - century * 36524
  let yearOfFour := min (dayOfCentury % 1461 / 365) 3
  { year := number / 146097 * 400 + century * 100 +
      dayOfCentury / 1461 * 4 + yearOfFour
    day := dayOfCentury % 1461 - yearOfFour * 365 }

/-- The leap days before a March year are those of the civil years up to
it. -/
theorem marchDay_eq (number : Nat) :
    number + (marchDay number).year / 100 =
      365 * (marchDay number).year + (marchDay number).year / 4 +
        (marchDay number).year / 400 + (marchDay number).day := by
  rw [marchDay]
  dsimp only
  generalize hera : number / 146097 = era
  generalize hcentury : min (number % 146097 / 36524) 3 = century
  generalize hday : number % 146097 - century * 36524 = dayOfCentury
  generalize hyear : min (dayOfCentury % 1461 / 365) 3 = yearOfFour
  have hdays : dayOfCentury ≤ 36524 := by omega
  generalize hfours : dayOfCentury / 1461 = fours
  have hcentury_le : century ≤ 3 := by omega
  have hfours_le : fours ≤ 24 := by omega
  have hyear_le : yearOfFour ≤ 3 := by omega
  have hfourth : (era * 400 + century * 100 + fours * 4 + yearOfFour) / 4 =
      era * 100 + century * 25 + fours := by omega
  have hhundredth : (era * 400 + century * 100 + fours * 4 + yearOfFour) / 100 =
      era * 4 + century := by omega
  have heras : (era * 400 + century * 100 + fours * 4 + yearOfFour) / 400 =
      era := by omega
  rw [hfourth, hhundredth, heras]
  omega

theorem marchDay_le (number : Nat) :
    (marchDay number).day ≤ 365 ∧
      ((marchDay number).day = 365 → IsLeapYear ((marchDay number).year + 1)) := by
  rw [marchDay, IsLeapYear]
  dsimp only
  generalize hera : number / 146097 = era
  generalize hcentury : min (number % 146097 / 36524) 3 = century
  generalize hday : number % 146097 - century * 36524 = dayOfCentury
  generalize hyear : min (dayOfCentury % 1461 / 365) 3 = yearOfFour
  have hdays : dayOfCentury ≤ 36524 := by omega
  have hfour : dayOfCentury / 1461 ≤ 24 := by omega
  refine ⟨by omega, fun hlast => ?_⟩
  have hthree : yearOfFour = 3 := by omega
  have hend : dayOfCentury % 1461 = 1460 := by omega
  -- The year ends a cycle of 400 years, or it is not the last of its century.
  have hcycle : dayOfCentury / 1461 < 24 ∨ century = 3 := by omega
  generalize dayOfCentury / 1461 = fours at hfour hcycle ⊢
  clear hera hcentury hday hyear hdays hend hlast
  subst hthree
  rcases hcycle with hlt | rfl <;> omega

/-- The months from March on, and how many days of the year lie before them. -/
theorem monthStart_march (year : Nat) {month : Nat} (h : month < 10) :
    monthStart year (month + 2) =
      (if IsLeapYear year then 60 else 59) + (153 * month + 2) / 5 := by
  induction month with
  | zero =>
      have hwinter : monthStart year 2 =
          31 + ((if IsLeapYear year then 29 else 28) + 0) := rfl
      rw [Nat.zero_add, hwinter]
      split <;> rfl
  | succ month ih =>
      rw [show month + 1 + 2 = month + 2 + 1 from rfl, monthStart_succ,
        ih (by omega)]
      have hlength : monthLength year (month + 2) =
          (153 * (month + 1) + 2) / 5 - (153 * month + 2) / 5 := by
        have hmonth : month < 9 := by omega
        interval_cases month <;> rfl
      omega

def MarchDay.month (march : MarchDay) : Nat := (5 * march.day + 2) / 153

theorem marchDay_civil (days : Nat) {march : MarchDay}
    (hmarch : marchDay (days + 719468) = march) :
    ∃ date : CivilDate, date.dayNumber = days ∧
      date.year = march.year + (if march.month < 10 then 0 else 1) ∧
      date.month =
        (if march.month < 10 then march.month + 2 else march.month - 10) ∧
      date.day = march.day - (153 * march.month + 2) / 5 + 1 := by
  have heq := marchDay_eq (days + 719468)
  obtain ⟨hday, hlast⟩ := marchDay_le (days + 719468)
  rw [hmarch] at heq hday hlast
  obtain ⟨year, day⟩ := march
  rw [MarchDay.month]
  dsimp only at heq hday hlast ⊢
  generalize hmonth : (5 * day + 2) / 153 = month
  have hmonth_le : month ≤ 11 := by omega
  by_cases hspring : month < 10
  · rw [if_pos hspring, if_pos hspring]
    have hepoch : 1970 ≤ year := by omega
    have hfits : day - (153 * month + 2) / 5 + 1 ≤
        monthLength year (month + 2) := by
      interval_cases month <;> simp only [monthLength] <;> omega
    refine ⟨⟨year, month + 2, _, hepoch, by omega, by omega, hfits⟩, ?_, rfl,
      rfl, rfl⟩
    have hyear := yearStart_eq hepoch
    have hmonths := monthStart_march year hspring
    rw [CivilDate.dayNumber]
    dsimp only
    by_cases hleap : IsLeapYear year
    · rw [if_pos hleap] at hmonths
      rw [IsLeapYear] at hleap
      omega
    · rw [if_neg hleap] at hmonths
      rw [IsLeapYear] at hleap
      omega
  · rw [if_neg hspring, if_neg hspring]
    have hepoch : 1970 ≤ year + 1 := by omega
    have hfits : day - (153 * month + 2) / 5 + 1 ≤
        monthLength (year + 1) (month - 10) := by
      have hwinter : month = 10 ∨ month = 11 := by omega
      rcases hwinter with rfl | rfl
      · change _ ≤ 31
        omega
      · change _ ≤ if IsLeapYear (year + 1) then 29 else 28
        by_cases hend : day = 365
        · rw [if_pos (hlast hend)]
          omega
        · split <;> omega
    refine ⟨⟨year + 1, month - 10, _, hepoch, by omega, by omega, hfits⟩, ?_,
      rfl, rfl, rfl⟩
    have hyear := yearStart_eq hepoch
    have hmonths : monthStart (year + 1) (month - 10) + 306 =
        (153 * month + 2) / 5 := by
      have hwinter : month = 10 ∨ month = 11 := by omega
      rcases hwinter with rfl | rfl <;> rfl
    rw [CivilDate.dayNumber]
    dsimp only
    omega

/-- What `gmtime_r` makes of a time. -/
def CivilTime.tm (time : CivilTime) : Tm where
  year := time.year
  mon := time.month
  mday := time.day
  hour := time.hour
  min := time.minute
  sec := time.second
  wday := time.weekday

theorem gmtime_eq (t : Nat) :
    gmtime t =
      let march := marchDay (t / 86400 + 719468)
      let month := march.month
      let year := march.year + if month < 10 then 0 else 1
      if year ≤ 2147483647 + 1900 then
        some {
          year := year
          mon := if month < 10 then month + 2 else month - 10
          mday := march.day - (153 * month + 2) / 5 + 1
          hour := t % 86400 / 3600
          min := t % 3600 / 60
          sec := t % 60
          wday := (t / 86400 + 4) % 7 }
      else none := rfl

theorem gmtime_civil {t : Nat} {tm : Tm} (h : gmtime t = some tm) :
    ∃ time : CivilTime, time.tm = tm ∧ time.instant = t := by
  obtain ⟨date, hnumber, hyear, hmonth, hday⟩ :=
    marchDay_civil (t / 86400) rfl
  rw [gmtime_eq, Option.ite_none_right_eq_some, Option.some.injEq] at h
  obtain ⟨-, rfl⟩ := h
  refine ⟨⟨date, t % 86400 / 3600, t % 3600 / 60, t % 60, by omega, by omega,
    by omega⟩, ?_, ?_⟩
  · rw [CivilTime.tm, CivilDate.weekday, hnumber, hyear, hmonth, hday]
  · rw [CivilTime.instant, hnumber]
    dsimp only
    omega

theorem gmtime_year_lt_iff (t : Nat) :
    (∃ tm, gmtime t = some tm ∧ tm.year < 10000) ↔ t < 253402300800 := by
  have heq := marchDay_eq (t / 86400 + 719468)
  have hday := (marchDay_le (t / 86400 + 719468)).1
  have hyear : (marchDay (t / 86400 + 719468)).year +
      (if (marchDay (t / 86400 + 719468)).month < 10 then 0 else 1) < 10000 ↔
        t < 253402300800 := by
    rw [MarchDay.month]
    split <;> omega
  rw [← hyear, gmtime_eq]
  constructor
  · rintro ⟨tm, h, hlt⟩
    rw [Option.ite_none_right_eq_some, Option.some.injEq] at h
    obtain ⟨-, rfl⟩ := h
    exact hlt
  · intro hlt
    exact ⟨_, if_pos (by omega), hlt⟩

/-- `rfc1123`, on the buffer itself; `unset` is what `strftime` leaves there
when the text does not fit. -/
def rfc1123In (unset : Nat → UInt8) (t : Nat) (buf : Block) : Proc Block := do
  let tm ← Proc.ofOption (gmtime t)
  let buf :=
    match strftime buf.size tm with
    | some text => buf.store 0 (text ++ [0])
    | none => { buf with bytes := unset }
  let day ← Proc.ofOption dayNames[tm.wday]?
  let month ← Proc.ofOption monthNames[tm.mon]?
  pure ((buf.store 0 (day.take 3)).store 8 (month.take 3))

/-- The text is the RFC 1123 date of this instant. -/
def IsDateOf (t : Nat) (text : Bytes) : Prop :=
  ∃ time : CivilTime, time.instant = t ∧ time.year < 10000 ∧
    text = httpDate time.tm

/-- Whatever is in the 30 bytes of `flush_cookie`, `rfc1123` finds its names,
stays inside the buffer and leaves the date there, with a NUL after it. -/
def LeavesDate (t : Nat) : Prop :=
  ∀ bytes unset, ∃ buf,
    Returns (rfc1123In unset t ⟨30, bytes, []⟩) buf ∧
    (∀ access ∈ buf.accesses, access.Within) ∧
    ∃ text, IsDateOf t text ∧ buf.Spells text

theorem names_length {names : List Bytes}
    (hnames : names = dayNames ∨ names = monthNames) :
    ∀ name ∈ names, name.length = 3 := by
  rcases hnames with rfl | rfl <;> decide

theorem spells_names {buf : Block} {text day month : Bytes}
    (hspells : buf.Spells text) (hlength : 11 ≤ text.length)
    (hday : day.length = 3) (hmonth : month.length = 3) :
    ((buf.store 0 day).store 8 month).Spells
      (day ++ (text.drop 3).take 5 ++ month ++ text.drop 11) := by
  have hfits : text.length + 1 ≤ buf.size := hspells.fits
  have hfirst : (buf.store 0 day).take 8 = day ++ (text.drop 3).take 5 := by
    rw [Block.take_store_inside (by omega) (by omega), Nat.zero_add, hday,
      ← buf.take_take (show 8 ≤ text.length by omega), hspells.take_length,
      List.drop_take]
    rfl
  have hnamed : (buf.store 0 day).take (text.length + 1) =
      day ++ (text ++ [0]).drop 3 := by
    rw [Block.take_store_inside (by omega) hfits, hspells.take_eq, Nat.zero_add,
      hday]
    rfl
  have hrest : (day ++ (text ++ [0]).drop 3).drop 11 = text.drop 11 ++ [0] := by
    rw [List.drop_append, List.drop_of_length_le (by omega), List.nil_append,
      hday, List.drop_drop, List.drop_append_of_le_length (by omega)]
  have hcount : (day ++ (text.drop 3).take 5 ++ month ++
      text.drop 11).length = text.length := by
    simp only [List.length_append, List.length_take, List.length_drop]
    omega
  refine ⟨by rw [hcount]; exact hspells.fits, ?_⟩
  have hsecond : 8 + month.length ≤ text.length + 1 := by omega
  have hroom : text.length + 1 ≤ (buf.store 0 day).size := hfits
  rw [hcount, Block.take_store_inside hsecond hroom, hfirst, hnamed, hmonth,
    hrest]
  simp only [List.append_assoc]

/-- The text of `strftime` for a year of four digits. -/
theorem strftime_some {tm : Tm} (hyear : tm.year < 10000) :
    ∃ text, strftime 30 tm = some text ∧ text.length < 30 ∧
      11 ≤ text.length ∧ ∀ day month : Bytes,
        day ++ (text.drop 3).take 5 ++ month ++ text.drop 11 =
          day ++ chars ", " ++ twoDigits tm.mday ++ chars " " ++ month ++
            chars " " ++ decimal tm.year ++ chars " " ++ twoDigits tm.hour ++
            chars ":" ++ twoDigits tm.min ++ chars ":" ++ twoDigits tm.sec ++
            chars " GMT" := by
  have hsome := strftime_eq_some_iff.mpr ⟨hyear, rfl⟩
  refine ⟨_, hsome, ?_, ?_, date_eq tm⟩
  · rw [strftime, Option.ite_none_right_eq_some] at hsome
    exact hsome.1
  · simp only [List.length_append, chars, twoDigits, List.length_map,
      String.reduceToList, List.length_cons, List.length_nil]
    omega

/-- The names of a day and a month that there are. -/
theorem names_some {names : List Bytes}
    (hnames : names = dayNames ∨ names = monthNames) {i : Nat}
    (h : i < names.length) :
    names[i]? = some (names.getD i []) ∧ (names.getD i []).length = 3 := by
  have hget : names[i]? = some names[i] := List.getElem?_eq_getElem h
  have hgetD : names.getD i [] = names[i] := by
    rw [List.getD_eq_getElem?_getD, hget]
    rfl
  rw [hgetD]
  exact ⟨hget, names_length hnames _ (List.getElem_mem h)⟩

theorem rfc1123In_returns {t : Nat} {tm : Tm} (hgmtime : gmtime t = some tm)
    (hyear : tm.year < 10000) (bytes unset : Nat → UInt8) :
    ∃ buf, Returns (rfc1123In unset t ⟨30, bytes, []⟩) buf ∧
      (∀ access ∈ buf.accesses, access.Within) ∧ buf.Spells (httpDate tm) := by
  obtain ⟨text, hstrftime, hshort, hlong, hdate⟩ := strftime_some hyear
  obtain ⟨hwday, hmon⟩ := gmtime_ranges hgmtime
  obtain ⟨hday, hdayLength⟩ := names_some (Or.inl rfl) hwday
  obtain ⟨hmonth, hmonthLength⟩ := names_some (Or.inr rfl) hmon
  have hdate := hdate (dayNames.getD tm.wday []) (monthNames.getD tm.mon [])
  rw [← httpDate] at hdate
  generalize dayNames.getD tm.wday [] = day at hday hdayLength hdate
  generalize monthNames.getD tm.mon [] = month at hmonth hmonthLength hdate
  generalize httpDate tm = date at hdate ⊢
  have hstored : (Block.store ⟨30, bytes, []⟩ 0 (text ++ [0])).Spells text :=
    @Block.Spells.append ⟨30, bytes, []⟩ [] text rfl (by simpa using hshort)
  have hspells := spells_names hstored hlong hdayLength hmonthLength
  rw [hdate] at hspells
  have hthree : day.take 3 = day := List.take_of_length_le hdayLength.le
  have hthree' : month.take 3 = month :=
    List.take_of_length_le hmonthLength.le
  refine ⟨_, ?_, ?_, hspells⟩
  · rw [rfc1123In, hgmtime]
    refine (returns_ofOption.mpr rfl).bind ?_
    dsimp only
    rw [hstrftime, hday, hmonth]
    refine (returns_ofOption.mpr rfl).bind
      ((returns_ofOption.mpr rfl).bind (returns_pure.mpr ?_))
    rw [hthree, hthree']
  · have hstore : (text ++ [0]).length ≤ 30 := by
      rw [List.length_append]
      exact hshort
    intro access haccess
    have hcases : access = ⟨0, (text ++ [0]).length, 30⟩ ∨
        access = ⟨0, day.length, 30⟩ ∨ access = ⟨8, month.length, 30⟩ := by
      simpa [Block.store, Block.touch, Block.write, or_assoc] using haccess
    rcases hcases with rfl | rfl | rfl
    · exact (Nat.zero_add _).trans_le hstore
    · rw [hdayLength]
      decide
    · rw [hmonthLength]
      decide

theorem httpDate_comma {tm : Tm} (hwday : tm.wday < 7) :
    3 < (httpDate tm).length ∧ (httpDate tm)[3]? = some (ascii ',') := by
  have hday := (names_some (Or.inl rfl) hwday).2
  have hcomma : httpDate tm = dayNames.getD tm.wday [] ++ ascii ',' ::
      (httpDate tm).drop 4 := by
    rw [httpDate]
    generalize dayNames.getD tm.wday [] = day at hday
    simp [chars, List.drop_append, hday]
  rw [hcomma]
  generalize (httpDate tm).drop 4 = rest
  refine ⟨?_, ?_⟩
  · rw [List.length_append, hday, List.length_cons]
    omega
  · rw [List.getElem?_append_right hday.le, hday]
    rfl

/-- The byte after the name of the day, when `strftime` left zeros. -/
theorem rfc1123In_unset {t : Nat} {tm : Tm} {bytes : Nat → UInt8}
    {buf : Block} (hgmtime : gmtime t = some tm) (hyear : ¬ tm.year < 10000)
    (h : Returns (rfc1123In (fun _ => 0) t ⟨30, bytes, []⟩) buf) :
    buf.bytes 3 = 0 := by
  have hnone : strftime 30 tm = none := by
    cases hsome : strftime 30 tm with
    | none => rfl
    | some text => exact absurd (strftime_eq_some_iff.mp hsome).1 hyear
  rw [rfc1123In, hgmtime] at h
  obtain ⟨tm', htm, h⟩ := returns_bind.mp h
  cases returns_ofOption.mp htm
  dsimp only at h
  rw [hnone] at h
  obtain ⟨day, -, h⟩ := returns_bind.mp h
  obtain ⟨month, -, h⟩ := returns_bind.mp h
  cases returns_pure.mp h
  simp [Block.store, Block.write, Block.touch]

theorem LeavesDate.year_lt {t : Nat} (h : LeavesDate t) :
    ∃ tm, gmtime t = some tm ∧ tm.year < 10000 := by
  -- `strftime` may leave zeros: then the name of the day is the whole text.
  obtain ⟨buf, hreturns, -, text, ⟨time, -, -, htext⟩, hspells⟩ :=
    h (fun _ => 0) (fun _ => 0)
  have hrun := hreturns
  rw [rfc1123In] at hrun
  obtain ⟨tm, hgmtime, -⟩ := returns_bind.mp hrun
  rw [returns_ofOption] at hgmtime
  refine ⟨tm, hgmtime, ?_⟩
  by_contra hyear
  have hzero := rfc1123In_unset hgmtime hyear hreturns
  have hwday : time.tm.wday < 7 := Nat.mod_lt _ (by decide)
  obtain ⟨hlong, hcomma⟩ := httpDate_comma hwday
  rw [← htext] at hlong hcomma
  rw [hspells.getElem? hlong, hzero] at hcomma
  exact absurd hcomma (by decide)

/-- The text that `rfc1123` returns is the one it leaves in the buffer. -/
theorem rfc1123_spells {t : Nat} {text : Bytes}
    (h : Returns (rfc1123 t 30) text) (bytes unset : Nat → UInt8) :
    ∃ buf, Returns (rfc1123In unset t ⟨30, bytes, []⟩) buf ∧
      buf.Spells text := by
  obtain ⟨tm, hgmtime, hyear, rfl⟩ := rfc1123_returns_iff.mp h
  obtain ⟨buf, hreturns, -, hspells⟩ :=
    rfc1123In_returns hgmtime hyear bytes unset
  exact ⟨buf, hreturns, hspells⟩

/-- `rfc1123` leaves the date of its instant exactly before the year 10000. -/
theorem expiry_date_iff (t : Nat) : LeavesDate t ↔ t < 253402300800 := by
  rw [← gmtime_year_lt_iff]
  constructor
  · exact LeavesDate.year_lt
  · rintro ⟨tm, hgmtime, hyear⟩ bytes unset
    obtain ⟨buf, hreturns, hwithin, hspells⟩ :=
      rfc1123In_returns hgmtime hyear bytes unset
    obtain ⟨time, rfl, hinstant⟩ := gmtime_civil hgmtime
    exact ⟨buf, hreturns, hwithin, _, ⟨time, hinstant, hyear, rfl⟩, hspells⟩

/-- The first second of the year 10000 does not fit. -/
theorem expiry_date_lost : ¬ LeavesDate 253402300800 := by
  intro hleaves
  have hlt := (gmtime_year_lt_iff 253402300800).mp hleaves.year_lt
  exact absurd hlt (by decide)

end Libcad
