import UmbraDB.Js.Numerals
import Mathlib.Tactic.Ring

/-! # Dates

A time value is a number of milliseconds since 1970 (`TimeValue`), and `toISOString` writes it in
the proleptic Gregorian calendar. The calendar counts years from March, so that the leap day is the
last day of a year: an era has 400 years and 146097 days.

* `readISO_toISOString` : the text of a date is read back. -/

namespace UmbraDB.Js.Date

open UmbraDB.Js.Text UmbraDB.Js.Numerals

/-- The time value of a valid `Date`. -/
structure TimeValue where
  ms : ℤ
  bound : -8640000000000000 ≤ ms ∧ ms ≤ 8640000000000000
  deriving DecidableEq

/-! ### The calendar -/

/-- A day: the year from March on, the month from March on and the day of the month, both from 0. -/
structure MarchDate where
  year : ℤ
  month : ℤ
  day : ℤ

/-- The days before a year of an era. -/
def daysBeforeYear (yoe : ℤ) : ℤ := 365 * yoe + yoe / 4 - yoe / 100

/-- The days before a month of a year from March on. -/
def daysBeforeMonth (month : ℤ) : ℤ := (153 * month + 2) / 5

/-- The year of an era that has the day of the era: by its centuries of 36524 days, its four years
of 1461 and its years of 365, where the last one of each may be a day longer. -/
def yearOfEra (doe : ℤ) : ℤ :=
  let century := min (doe / 36524) 3
  let fourYears := (doe - 36524 * century) / 1461
  let year := min ((doe - 36524 * century - 1461 * fourYears) / 365) 3
  100 * century + 4 * fourYears + year

/-- The date of a day, counted from 0000-03-01. -/
def ofDays (z : ℤ) : MarchDate :=
  let doe := z % 146097
  let yoe := yearOfEra doe
  let doy := doe - daysBeforeYear yoe
  let month := (5 * doy + 2) / 153
  ⟨yoe + 400 * (z / 146097), month, doy - daysBeforeMonth month⟩

def toDays (m : MarchDate) : ℤ :=
  146097 * (m.year / 400) + daysBeforeYear (m.year % 400) + daysBeforeMonth m.month + m.day

/-- The year of an era and what is left of the days after it. -/
theorem yearOfEra_spec {doe : ℤ} (h0 : 0 ≤ doe) (h1 : doe < 146097) :
    ∃ century fourYears year, yearOfEra doe = 100 * century + 4 * fourYears + year ∧
      (0 ≤ century ∧ century ≤ 3) ∧ (0 ≤ fourYears ∧ fourYears ≤ 24) ∧
      (0 ≤ year ∧ year ≤ 3) ∧ 0 ≤ doe - 36524 * century - 1461 * fourYears - 365 * year ∧
      doe - 36524 * century - 1461 * fourYears - 365 * year ≤ 365 := by
  refine ⟨_, _, _, rfl, ?_, ?_, ?_, ?_⟩ <;> omega

theorem yearOfEra_bounds (doe : ℤ) (h0 : 0 ≤ doe) (h1 : doe < 146097) :
    0 ≤ yearOfEra doe ∧ yearOfEra doe < 400 := by
  obtain ⟨c, q, y, he, hc, hq, hy, -⟩ := yearOfEra_spec h0 h1
  omega

theorem doy_bounds (doe : ℤ) (h0 : 0 ≤ doe) (h1 : doe < 146097) :
    0 ≤ doe - daysBeforeYear (yearOfEra doe) ∧ doe - daysBeforeYear (yearOfEra doe) ≤ 365 := by
  obtain ⟨c, q, y, he, hc, hq, hy, hr⟩ := yearOfEra_spec h0 h1
  unfold daysBeforeYear
  have h4 : yearOfEra doe / 4 = 25 * c + q := by omega
  have h100 : yearOfEra doe / 100 = c := by omega
  rw [h4, h100, he]
  omega

theorem toDays_ofDays (z : ℤ) : toDays (ofDays z) = z := by
  have hy := yearOfEra_bounds (z % 146097) (by omega) (by omega)
  unfold toDays ofDays
  dsimp only
  have h1 : (yearOfEra (z % 146097) + 400 * (z / 146097)) / 400 = z / 146097 := by omega
  have h2 : (yearOfEra (z % 146097) + 400 * (z / 146097)) % 400 = yearOfEra (z % 146097) := by
    omega
  rw [h1, h2]
  omega

/-! ### The text -/

/-- The fields of an ISO 8601 date and time. -/
structure IsoFields where
  year : ℤ
  month : ℕ
  day : ℕ
  hour : ℕ
  minute : ℕ
  second : ℕ
  milli : ℕ

/-- `YYYY`, or a sign and six digits. -/
def yearText (y : ℤ) : JsString :=
  if 0 ≤ y ∧ y ≤ 9999 then pad 4 y.natAbs
  else if y < 0 then 45 :: pad 6 y.natAbs
  else 43 :: pad 6 y.natAbs

/-- `YYYY-MM-DDTHH:mm:ss.sssZ`. -/
def IsoFields.text (x : IsoFields) : JsString :=
  yearText x.year ++ 45 :: (pad 2 x.month ++ 45 :: (pad 2 x.day ++ 84 :: (pad 2 x.hour ++
    58 :: (pad 2 x.minute ++ 58 :: (pad 2 x.second ++ 46 :: (pad 3 x.milli ++ [90]))))))

/-- The fields of a time value. -/
def isoFields (ms : ℤ) : IsoFields :=
  let m := ofDays (ms / 86400000 + 719468)
  let r := ms % 86400000
  { year := if m.month < 10 then m.year else m.year + 1
    month := (if m.month < 10 then m.month + 3 else m.month - 9).natAbs
    day := (m.day + 1).natAbs
    hour := (r / 3600000).natAbs
    minute := (r / 60000 % 60).natAbs
    second := (r / 1000 % 60).natAbs
    milli := (r % 1000).natAbs }

/-- `Date.prototype.toISOString`. -/
def toISOString (t : TimeValue) : JsString := (isoFields t.ms).text

/-- A numeral of the width and the separator after it. -/
def readField (w : ℕ) (s : JsString) : ℕ × JsString := (readNat (s.take w), s.drop (w + 1))

def readYear (s : JsString) : ℤ × JsString :=
  if s.head? = some 45 then (-(readField 6 s.tail).1, (readField 6 s.tail).2)
  else if s.head? = some 43 then ((readField 6 s.tail).1, (readField 6 s.tail).2)
  else ((readField 4 s).1, (readField 4 s).2)

def readIsoFields (s : JsString) : IsoFields :=
  let (year, s) := readYear s
  let (month, s) := readField 2 s
  let (day, s) := readField 2 s
  let (hour, s) := readField 2 s
  let (minute, s) := readField 2 s
  let (second, s) := readField 2 s
  let (milli, _) := readField 3 s
  ⟨year, month, day, hour, minute, second, milli⟩

/-- The time value of the fields. -/
def IsoFields.ms (x : IsoFields) : ℤ :=
  let days :=
    if x.month ≤ 2 then toDays ⟨x.year - 1, x.month + 9, x.day - 1⟩
    else toDays ⟨x.year, x.month - 3, x.day - 1⟩
  86400000 * (days - 719468) + 3600000 * x.hour + 60000 * x.minute + 1000 * x.second + x.milli

/-- The time value of a text in the form that `toISOString` writes. -/
def readISO (s : JsString) : ℤ := (readIsoFields s).ms

/-- `parseStoredDate`: `new Date(raw)`, if it is valid and `toISOString` gives `raw` again. Of a
text that `toISOString` does not write, `readISO` says nothing; the comparison rejects it. -/
def parseStoredDate (raw : JsString) : Option TimeValue :=
  if h : -8640000000000000 ≤ readISO raw ∧ readISO raw ≤ 8640000000000000 then
    if toISOString ⟨readISO raw, h⟩ = raw then some ⟨readISO raw, h⟩ else none
  else none

theorem readField_pad {w n : ℕ} (h : n < 10 ^ w) (u : UInt16) (s : JsString) :
    readField w (pad w n ++ u :: s) = (n, s) := by
  have htake : (pad w n ++ u :: s).take w = pad w n := by
    rw [List.take_append_of_le_length (by rw [length_pad]), List.take_of_length_le
      (by rw [length_pad])]
  have hdrop : (pad w n ++ u :: s).drop (w + 1) = s := by
    rw [List.drop_append, length_pad, List.drop_of_length_le (by rw [length_pad]; omega)]
    simp
  rw [readField, htake, hdrop, readNat_pad w n h]

theorem head_pad {w n : ℕ} (s : JsString) : ∃ d < 10, ((pad (w + 1) n) ++ s).head? = some (digit d)
    := by
  induction w generalizing n s with
  | zero => exact ⟨n % 10, by omega, rfl⟩
  | succ w ih =>
    rw [pad, List.append_assoc]
    exact ih _

theorem readYear_yearText {y : ℤ} (h : y.natAbs < 10 ^ 6) (u : UInt16) (s : JsString) :
    readYear (yearText y ++ u :: s) = (y, s) := by
  unfold yearText
  split_ifs with h1 h2
  · obtain ⟨d, hd, hhead⟩ := head_pad (w := 3) (n := y.natAbs) (u :: s)
    have hsign : ∀ v : UInt16, v.toNat < 48 → some (digit d) ≠ some v := by
      intro v hv e
      have := congrArg UInt16.toNat (Option.some.inj e)
      rw [toNat_digit hd] at this
      omega
    rw [readYear, hhead, if_neg (hsign 45 (by decide)), if_neg (hsign 43 (by decide)),
      readField_pad (by omega)]
    simp only [Prod.mk.injEq, and_true]
    omega
  · rw [readYear, List.cons_append, List.head?_cons, if_pos rfl, List.tail_cons, readField_pad h]
    simp only [Prod.mk.injEq, and_true]
    omega
  · rw [readYear, List.cons_append, List.head?_cons, if_neg (by decide), if_pos rfl,
      List.tail_cons, readField_pad h]
    simp only [Prod.mk.injEq, and_true]
    omega

theorem readIsoFields_text {x : IsoFields} (hy : x.year.natAbs < 10 ^ 6) (hmo : x.month < 10 ^ 2)
    (hd : x.day < 10 ^ 2) (hh : x.hour < 10 ^ 2) (hmi : x.minute < 10 ^ 2)
    (hs : x.second < 10 ^ 2) (hms : x.milli < 10 ^ 3) : readIsoFields x.text = x := by
  unfold readIsoFields IsoFields.text
  rw [readYear_yearText hy]
  simp only [readField_pad hmo, readField_pad hd, readField_pad hh, readField_pad hmi,
    readField_pad hs, readField_pad hms]

/-- The date of a day has a month and a day of the month. -/
theorem ofDays_bounds (z : ℤ) : (0 ≤ (ofDays z).month ∧ (ofDays z).month ≤ 11) ∧
    0 ≤ (ofDays z).day ∧ (ofDays z).day ≤ 30 := by
  have hdoy := doy_bounds (z % 146097) (by omega) (by omega)
  unfold ofDays daysBeforeMonth
  dsimp only
  omega

theorem ofDays_year (z : ℤ) : 400 * (z / 146097) ≤ (ofDays z).year ∧
    (ofDays z).year < 400 * (z / 146097) + 400 := by
  have hy := yearOfEra_bounds (z % 146097) (by omega) (by omega)
  unfold ofDays
  dsimp only
  omega

/-- The days of a date with its month and year counted from January. -/
theorem toDays_civil {m : MarchDate} {x : IsoFields} (hm : 0 ≤ m.month ∧ m.month ≤ 11)
    (hd : 0 ≤ m.day) (hyear : x.year = if m.month < 10 then m.year else m.year + 1)
    (hmonth : x.month = (if m.month < 10 then m.month + 3 else m.month - 9).natAbs)
    (hday : x.day = (m.day + 1).natAbs) :
    (if x.month ≤ 2 then toDays ⟨x.year - 1, x.month + 9, x.day - 1⟩
      else toDays ⟨x.year, x.month - 3, x.day - 1⟩) = toDays m := by
  have hd' : (x.day : ℤ) - 1 = m.day := by omega
  by_cases h : m.month < 10
  · rw [if_pos h] at hyear hmonth
    have hmo : (x.month : ℤ) - 3 = m.month := by omega
    rw [if_neg (by omega), hd', hmo, hyear]
  · rw [if_neg h] at hyear hmonth
    have hmo : (x.month : ℤ) + 9 = m.month := by omega
    rw [if_pos (by omega), hd', hmo, hyear, add_sub_cancel_right]

theorem ms_isoFields (ms : ℤ) : (isoFields ms).ms = ms := by
  obtain ⟨hm, hd⟩ := ofDays_bounds (ms / 86400000 + 719468)
  have hdays := toDays_civil (x := isoFields ms) hm hd.1 rfl rfl rfl
  rw [toDays_ofDays] at hdays
  unfold IsoFields.ms
  dsimp only
  rw [hdays]
  simp only [isoFields]
  omega

/-- The text of a date is read back. -/
theorem readISO_toISOString (t : TimeValue) : readISO (toISOString t) = t.ms := by
  obtain ⟨hm, hd⟩ := ofDays_bounds (t.ms / 86400000 + 719468)
  have hy := ofDays_year (t.ms / 86400000 + 719468)
  have hb := t.bound
  rw [readISO, toISOString, readIsoFields_text, ms_isoFields]
  · simp only [isoFields]
    split <;> omega
  · simp only [isoFields]
    split <;> omega
  all_goals
    simp only [isoFields]
    omega

theorem parseStoredDate_toISOString (t : TimeValue) :
    parseStoredDate (toISOString t) = some t := by
  have h := readISO_toISOString t
  have hb := t.bound
  rw [← h] at hb
  have he : (⟨readISO (toISOString t), hb⟩ : TimeValue) = t := by
    rcases t with ⟨ms, b⟩
    congr 1
  rw [parseStoredDate, dif_pos hb, he, if_pos rfl]

example : toISOString ⟨-62198755200001, by decide⟩ =
    "-000002-12-31T23:59:59.999Z".toList.map fun c => c.toNat.toUInt16 := by decide

end UmbraDB.Js.Date
