/-
The text of a time shows the instant: its numbers, in order, are the year, the month and the day of the only date
that stands behind as many whole days, and the hour, the minute, the second and the millisecond of that day.

The date can be reckoned in words of a fixed size, with a sign or without. Each sum, difference and product, and
each change from one kind of word to another, is taken only if the word holds its result. As long as the year is
below 2^31 every word does, and the date is that of the plain reckoning.
-/
import CoinScript.Proofs.Log.Calendar

namespace CoinScript.Log

/-! ## Words -/

/-- The number, if a word of so many bits holds it with a sign. -/
def signed? (bits : Nat) (n : Int) : Option Int :=
  if -2 ^ (bits - 1) ≤ n ∧ n < 2 ^ (bits - 1) then some n else none

/-- The number, if a word of so many bits holds it without a sign. -/
def unsigned? (bits : Nat) (n : Int) : Option Int :=
  if 0 ≤ n ∧ n < 2 ^ bits then some n else none

section Words

variable {α : Type} {bits : Nat} {n : Int}

theorem signed?_eq_some (hleast : -2 ^ (bits - 1) ≤ n) (hlt : n < 2 ^ (bits - 1)) : signed? bits n = some n :=
  if_pos ⟨hleast, hlt⟩

theorem unsigned?_eq_some (hleast : 0 ≤ n) (hlt : n < 2 ^ bits) : unsigned? bits n = some n :=
  if_pos ⟨hleast, hlt⟩

/-- What is done with a number that the word holds goes on with it. -/
theorem signed?_bind (hleast : -2 ^ (bits - 1) ≤ n) (hlt : n < 2 ^ (bits - 1)) (f : Int → Option α) :
    (signed? bits n >>= f) = f n := by
  rw [signed?_eq_some hleast hlt]
  rfl

theorem unsigned?_bind (hleast : 0 ≤ n) (hlt : n < 2 ^ bits) (f : Int → Option α) :
    (unsigned? bits n >>= f) = f n := by
  rw [unsigned?_eq_some hleast hlt]
  rfl

theorem bind_of_eq_some {β : Type} {found : Option β} {value : β} (h : found = some value) (f : β → Option α) :
    (found >>= f) = f value := by
  rw [h]
  rfl

end Words

namespace Date

/-! ## The reckoning in words -/

def yearOfEraInWords? (dayOfEra : Int) : Option Int := do
  let less ← unsigned? 32 (dayOfEra - dayOfEra / 1460)
  let more ← unsigned? 32 (less + dayOfEra / 36524)
  let even ← unsigned? 32 (more - dayOfEra / 146096)
  return even / 365

def dayOfYearInWords? (dayOfEra yearOfEra : Int) : Option Int := do
  let years ← unsigned? 32 (365 * yearOfEra)
  let more ← unsigned? 32 (years + yearOfEra / 4)
  let before ← unsigned? 32 (more - yearOfEra / 100)
  unsigned? 32 (dayOfEra - before)

def monthOfYearInWords? (dayOfYear : Int) : Option Int := do
  let fifths ← unsigned? 32 (5 * dayOfYear)
  let rounded ← unsigned? 32 (fifths + 2)
  return rounded / 153

def dayOfMonthInWords? (dayOfYear fromMarch : Int) : Option Int := do
  let fifths ← unsigned? 32 (153 * fromMarch)
  let rounded ← unsigned? 32 (fifths + 2)
  let before ← unsigned? 32 (dayOfYear - rounded / 5)
  unsigned? 32 (before + 1)

def monthInWords? (fromMarch : Int) : Option Int :=
  if fromMarch < 10 then unsigned? 32 (fromMarch + 3) else unsigned? 32 (fromMarch - 9)

def yearInWords? (yearOfEra era month : Int) : Option Int := do
  let yearOfEra ← signed? 32 yearOfEra
  let era ← signed? 32 era
  let eras ← signed? 32 (era * 400)
  let year ← signed? 32 (yearOfEra + eras)
  signed? 32 (year + if month ≤ 2 then 1 else 0)

/-- The era of a day from the first of March of the year 0. Division is towards zero, so an earlier day is moved
back first. -/
def eraInWords? (shifted : Int) : Option Int := do
  let start ← if 0 ≤ shifted then some shifted else signed? 64 (shifted - 146096)
  return start.tdiv 146097

def dayOfEraInWords? (shifted era : Int) : Option Int := do
  let before ← signed? 64 (era * 146097)
  let rest ← signed? 64 (shifted - before)
  unsigned? 32 rest

/-- Year, month and day of the date so many days after the start of 1970. -/
def ofDaysInWords? (days : Int) : Option (Int × Int × Int) := do
  let shifted ← signed? 64 (days + 719468)
  let era ← eraInWords? shifted
  let dayOfEra ← dayOfEraInWords? shifted era
  let yearOfEra ← yearOfEraInWords? dayOfEra
  let dayOfYear ← dayOfYearInWords? dayOfEra yearOfEra
  let fromMarch ← monthOfYearInWords? dayOfYear
  let day ← dayOfMonthInWords? dayOfYear fromMarch
  let month ← monthInWords? fromMarch
  let year ← yearInWords? yearOfEra era month
  return (year, month, day)

end Date

/-- The date of a time, its days changed to a word with a sign. -/
def Elapsed.dateInWords? (t : Elapsed) : Option (Int × Int × Int) := do
  let days ← signed? 64 (t.seconds / 86400 : Nat)
  Date.ofDaysInWords? days

namespace Date

variable (place : EraDay)

theorem yearOfEraInWords?_eq : yearOfEraInWords? place.dayOfEra = some (place.yearOfEra : Int) := by
  have hlt : place.dayOfEra < 146097 := place.dayOfEra_lt
  unfold yearOfEraInWords?
  rw [unsigned?_bind (by omega) (by omega), unsigned?_bind (by omega) (by omega),
    unsigned?_bind (by omega) (by omega), ← place.yearOfEra_dayOfEra, yearOfEra]
  refine congrArg some ?_
  omega

theorem dayOfYearInWords?_eq : dayOfYearInWords? place.dayOfEra place.yearOfEra = some (place.day : Int) := by
  have hlt := place.yearOfEra_lt
  have hle := place.day_le
  have hday := place.dayOfEra_eq
  unfold dayOfYearInWords?
  rw [unsigned?_bind (by omega) (by omega), unsigned?_bind (by omega) (by omega),
    unsigned?_bind (by omega) (by omega), unsigned?_eq_some (by omega) (by omega)]
  refine congrArg some ?_
  omega

theorem monthOfYearInWords?_eq {day : Nat} (h : day ≤ 365) :
    monthOfYearInWords? day = some (monthOfYear day : Int) := by
  unfold monthOfYearInWords?
  rw [unsigned?_bind (by omega) (by omega), unsigned?_bind (by omega) (by omega), monthOfYear]
  refine congrArg some ?_
  omega

theorem dayOfMonthInWords?_eq {day : Nat} (h : day ≤ 365) :
    dayOfMonthInWords? day (monthOfYear day) = some ((day - (153 * monthOfYear day + 2) / 5 + 1 : Nat) : Int) := by
  obtain ⟨hmonth, hstart, -⟩ := monthOfYear_bounds h
  unfold daysFromMarch at hstart
  unfold dayOfMonthInWords?
  rw [unsigned?_bind (by omega) (by omega), unsigned?_bind (by omega) (by omega),
    unsigned?_bind (by omega) (by omega), unsigned?_eq_some (by omega) (by omega)]
  refine congrArg some ?_
  omega

theorem monthInWords?_eq {month : Nat} (h : month ≤ 11) :
    monthInWords? month = some ((if month < 10 then month + 3 else month - 9 : Nat) : Int) := by
  unfold monthInWords?
  by_cases hten : month < 10
  · rw [if_pos (by omega), if_pos hten, unsigned?_eq_some (by omega) (by omega)]
    rfl
  · rw [if_neg (by omega), if_neg hten, unsigned?_eq_some (by omega) (by omega)]
    refine congrArg some ?_
    omega

theorem yearInWords?_eq {year era month : Nat} (h : year + 400 * era + (if month ≤ 2 then 1 else 0) < 2 ^ 31) :
    yearInWords? year era month = some ((year + 400 * era + if month ≤ 2 then 1 else 0 : Nat) : Int) := by
  have hcast : (if (month : Int) ≤ 2 then (1 : Int) else 0) = ((if month ≤ 2 then 1 else 0 : Nat) : Int) := by
    split_ifs <;> omega
  unfold yearInWords?
  rw [hcast]
  generalize (if month ≤ 2 then 1 else 0 : Nat) = more at h
  rw [signed?_bind (by omega) (by omega), signed?_bind (by omega) (by omega), signed?_bind (by omega) (by omega),
    signed?_bind (by omega) (by omega), signed?_eq_some (by omega) (by omega)]
  refine congrArg some ?_
  omega

theorem eraInWords?_eq (shifted : Nat) : eraInWords? shifted = some ((shifted / daysPerEra : Nat) : Int) := by
  unfold eraInWords?
  rw [if_pos (Int.natCast_nonneg shifted)]
  exact congrArg some (Int.tdiv_eq_ediv_of_nonneg (Int.natCast_nonneg shifted))

theorem dayOfEraInWords?_eq {shifted : Nat} (h : shifted < 2 ^ 63) :
    dayOfEraInWords? shifted (shifted / daysPerEra : Nat) = some ((shifted % daysPerEra : Nat) : Int) := by
  have hera : daysPerEra = 146097 := rfl
  unfold dayOfEraInWords?
  rw [hera, signed?_bind (by omega) (by omega), signed?_bind (by omega) (by omega),
    unsigned?_eq_some (by omega) (by omega)]
  refine congrArg some ?_
  omega

theorem add_epochDay_lt_of_year_lt {days : Nat} (h : (ofDays days).year < 2 ^ 31) : days + epochDay < 2 ^ 63 := by
  have hlt := add_epochDay_lt days
  unfold Calendar.daysToMarch at hlt
  omega

/-- As long as the year is below 2^31 every word holds what is reckoned. -/
theorem ofDaysInWords?_eq {days : Nat} (h : (ofDays days).year < 2 ^ 31) :
    ofDaysInWords? days =
      some (((ofDays days).year : Int), ((ofDays days).month : Int), ((ofDays days).day : Int)) := by
  have hlt := add_epochDay_lt_of_year_lt h
  have hshift : ((days + epochDay : Nat) : Int) = days + 719468 := by
    have hepoch : epochDay = 719468 := rfl
    omega
  obtain ⟨place, hplace⟩ :=
    EraDay.exists_dayOfEra_eq (Nat.mod_lt (days + epochDay) (by decide : 0 < daysPerEra))
  have hmonth := (monthOfYear_bounds place.day_le).1
  unfold ofDays at h ⊢
  unfold ofDaysInWords?
  rw [← hshift]
  -- from here on only the quotient and the rest of the sum matter
  generalize days + epochDay = shifted at h hplace hlt ⊢
  simp only [← hplace, place.yearOfEra_dayOfEra, place.dayOfYear_dayOfEra] at h ⊢
  rw [signed?_bind (by omega) (by omega), bind_of_eq_some (eraInWords?_eq shifted),
    bind_of_eq_some (dayOfEraInWords?_eq hlt), ← hplace, bind_of_eq_some (yearOfEraInWords?_eq place),
    bind_of_eq_some (dayOfYearInWords?_eq place), bind_of_eq_some (monthOfYearInWords?_eq place.day_le),
    bind_of_eq_some (dayOfMonthInWords?_eq place.day_le), bind_of_eq_some (monthInWords?_eq hmonth),
    bind_of_eq_some (yearInWords?_eq h)]
  rfl

end Date

/-! ## Reading a text -/

/-- The numbers in a text: its runs of decimal digits, in order. -/
def numbers (text : String) : List Nat :=
  ((text.toList.splitOnP fun c => !c.isDigit).filter fun run => !run.isEmpty).map (Nat.ofDigitChars 10 · 0)

/-- What stands in a text besides digits. -/
def marks (text : String) : String := String.ofList (text.toList.filter fun c => !c.isDigit)

/-- A date with a time of day. -/
structure Moment where
  date : Date
  hour : Nat
  minute : Nat
  second : Nat
  milli : Nat

/-- The moment that a text shows, if it has the form of a date with a time of day. -/
def Moment.read? (text : String) : Option Moment :=
  match numbers text with
  | [year, month, day, hour, minute, second, milli] =>
    if marks text = "--T::.Z" then some ⟨⟨year, month, day⟩, hour, minute, second, milli⟩ else none
  | _ => none

/-- A moment is the millisecond in which an instant lies. -/
structure Moment.Holds (moment : Moment) (t : Elapsed) : Prop where
  valid : moment.date.Valid
  not_before : 1970 ≤ moment.date.year
  days : moment.date.daysSinceEpoch = t.seconds / 86400
  minute_lt : moment.minute < 60
  second_lt : moment.second < 60
  ofDay : moment.hour * 3600 + moment.minute * 60 + moment.second = t.seconds % 86400
  milli_lt : moment.milli < 1000
  milli : moment.milli = t.nanos / 1000000

/-! ### Numbers that were written -/

section Decimal

variable (width n : Nat)

theorem ofDigitChars_replicate_zero (count : Nat) : Nat.ofDigitChars 10 (List.replicate count '0') 0 = 0 := by
  induction count with
  | zero => rfl
  | succ count ih => exact ih

theorem toList_decimal :
    (decimal width n).toList = List.replicate (width - (Nat.toDigits 10 n).length) '0' ++ Nat.toDigits 10 n :=
  String.toList_ofList

/-- Zeros in front do not change the number that is read. -/
theorem ofDigitChars_decimal : Nat.ofDigitChars 10 (decimal width n).toList 0 = n := by
  rw [toList_decimal, Nat.ofDigitChars_append, ofDigitChars_replicate_zero]
  exact Nat.ofDigitChars_toDigits (by decide) (by decide)

theorem isDigit_of_mem_decimal {c : Char} (h : c ∈ (decimal width n).toList) : c.isDigit = true := by
  rw [toList_decimal, List.mem_append] at h
  obtain hzero | hdigit := h
  · rw [List.eq_of_mem_replicate hzero]
    rfl
  · exact Nat.isDigit_of_mem_toDigits (by decide) (by decide) hdigit

theorem toList_decimal_ne_nil : (decimal width n).toList ≠ [] := by
  rw [toList_decimal]
  exact List.append_ne_nil_of_right_ne_nil _ Nat.toDigits_ne_nil

end Decimal

/-- A number in decimal with a mark behind it. -/
structure Field where
  width : Nat
  value : Nat
  mark : Char
  isDigit_mark : mark.isDigit = false

namespace Field

def chars (field : Field) : List Char := (decimal field.width field.value).toList ++ [field.mark]

theorem splitOnP_chars (field : Field) (rest : List Char) :
    (field.chars ++ rest).splitOnP (fun c => !c.isDigit) =
      (decimal field.width field.value).toList :: rest.splitOnP fun c => !c.isDigit := by
  rw [chars, List.append_assoc]
  refine List.splitOnP_append_cons_of_forall_mem (fun c hc => ?_) field.mark ?_ rest
  · rw [isDigit_of_mem_decimal _ _ hc]
    rfl
  · rw [field.isDigit_mark]
    rfl

theorem filter_chars (field : Field) : field.chars.filter (fun c => !c.isDigit) = [field.mark] := by
  have hnone : (decimal field.width field.value).toList.filter (fun c => !c.isDigit) = [] := by
    rw [List.filter_eq_nil_iff]
    intro c hc
    rw [isDigit_of_mem_decimal _ _ hc]
    decide
  rw [chars, List.filter_append, hnone, List.nil_append, List.filter_singleton, field.isDigit_mark]
  rfl

variable {text : String} {fields : List Field}

/-- The numbers of a text made of fields are their values. -/
theorem numbers_eq (h : text.toList = fields.flatMap chars) : numbers text = fields.map value := by
  unfold numbers
  rw [h]
  clear h
  induction fields with
  | nil => rfl
  | cons field fields ih =>
    have hne : (decimal field.width field.value).toList.isEmpty = false :=
      List.isEmpty_eq_false_iff.mpr (toList_decimal_ne_nil _ _)
    rw [List.flatMap_cons, splitOnP_chars, List.filter_cons_of_pos (by rw [hne]; rfl), List.map_cons, ih,
      ofDigitChars_decimal]
    rfl

theorem marks_eq (h : text.toList = fields.flatMap chars) : marks text = String.ofList (fields.map mark) := by
  unfold marks
  rw [h, List.filter_flatMap]
  simp only [filter_chars]
  rw [List.map_eq_flatMap]

end Field

namespace Moment

/-- The moment as a timestamp has it. -/
def text (moment : Moment) : String :=
  decimal 4 moment.date.year ++ "-" ++ decimal 2 moment.date.month ++ "-" ++ decimal 2 moment.date.day ++ "T" ++
    decimal 2 moment.hour ++ ":" ++ decimal 2 moment.minute ++ ":" ++ decimal 2 moment.second ++
    "." ++ decimal 3 moment.milli ++ "Z"

/-- A moment is read back from its text. -/
theorem read?_text (moment : Moment) : read? moment.text = some moment := by
  let fields : List Field :=
    [⟨4, moment.date.year, '-', rfl⟩, ⟨2, moment.date.month, '-', rfl⟩, ⟨2, moment.date.day, 'T', rfl⟩,
      ⟨2, moment.hour, ':', rfl⟩, ⟨2, moment.minute, ':', rfl⟩, ⟨2, moment.second, '.', rfl⟩,
      ⟨3, moment.milli, 'Z', rfl⟩]
  have htext : moment.text.toList = fields.flatMap Field.chars := by
    simp [text, fields, Field.chars]
  unfold read?
  rw [Field.numbers_eq htext, Field.marks_eq htext]
  exact if_pos rfl

end Moment

/-! ### The text of a time -/

namespace Elapsed

variable (t : Elapsed)

/-- The moment that the text of a time is made of. -/
def moment : Moment :=
  { date := Date.ofDays (t.seconds / 86400)
    hour := t.seconds % 86400 / 3600
    minute := t.seconds % 86400 % 3600 / 60
    second := t.seconds % 86400 % 60
    milli := t.nanos / 1000000 }

theorem timestamp_eq_text : t.timestamp = t.moment.text := rfl

theorem holds_moment (hnanos : t.nanos < 10 ^ 9) : t.moment.Holds t where
  valid := Date.valid_ofDays _
  not_before := Date.le_year_ofDays _
  days := Date.daysSinceEpoch_ofDays _
  minute_lt := by
    simp only [moment]
    omega
  second_lt := Nat.mod_lt _ (by decide)
  ofDay := by
    simp only [moment]
    omega
  milli_lt := Nat.div_lt_of_lt_mul hnanos
  milli := rfl

/-- In words the date is that of the plain reckoning. -/
theorem dateInWords?_eq (h : t.moment.date.year < 2 ^ 31) :
    t.dateInWords? = some (↑t.moment.date.year, ↑t.moment.date.month, ↑t.moment.date.day) := by
  have hdays : t.seconds / 86400 + Date.epochDay < 2 ^ 63 := Date.add_epochDay_lt_of_year_lt h
  unfold dateInWords?
  rw [signed?_bind (by omega) (by omega)]
  exact Date.ofDaysInWords?_eq h

end Elapsed

/-- The text of a time whose year is below 2^31 is read back as the moment in which the time lies, and its date can
also be reckoned in words; and from the start of 1970 on dates follow each other as in the calendar. -/
theorem timestamp_shows_instant (t : Elapsed) (hnanos : t.nanos < 10 ^ 9)
    (hyear : t.seconds / 86400 < Calendar.daysToYear (2 ^ 31)) :
    (∃ moment, Moment.read? t.timestamp = some moment ∧ moment.Holds t ∧
      t.dateInWords? = some (↑moment.date.year, ↑moment.date.month, ↑moment.date.day)) ∧
    Date.ofDays 0 = ⟨1970, 1, 1⟩ ∧ ∀ days, Date.ofDays (days + 1) = (Date.ofDays days).next := by
  have hlt : t.moment.date.year < 2 ^ 31 := Date.year_ofDays_lt hyear
  refine ⟨⟨t.moment, ?_, t.holds_moment hnanos, t.dateInWords?_eq hlt⟩, Date.ofDays_zero, Date.ofDays_succ⟩
  rw [t.timestamp_eq_text]
  exact t.moment.read?_text

/-- It does so to the last millisecond of the last year. -/
theorem timestamp_shows_instant_of_last :
    (10 ^ 9 - 1 < 10 ^ 9 ∧ 67767976233532799 / 86400 < Calendar.daysToYear (2 ^ 31)) ∧
    (∃ moment, Moment.read? (Elapsed.timestamp ⟨67767976233532799, 10 ^ 9 - 1⟩) = some moment ∧
      moment.Holds ⟨67767976233532799, 10 ^ 9 - 1⟩ ∧
      Elapsed.dateInWords? ⟨67767976233532799, 10 ^ 9 - 1⟩ =
        some (↑moment.date.year, ↑moment.date.month, ↑moment.date.day)) ∧
    Date.ofDays 0 = ⟨1970, 1, 1⟩ ∧ ∀ days, Date.ofDays (days + 1) = (Date.ofDays days).next := by
  have hyear : 67767976233532799 / 86400 < Calendar.daysToYear (2 ^ 31) := by
    have hend : Calendar.daysToYear (2147483647 + 1) + Date.epochDay = Calendar.daysToMarch 2147483647 + 306 :=
      Calendar.daysToYear_succ_add_epochDay (by decide)
    have hmarch : Calendar.daysToMarch 2147483647 = 784352295939 := rfl
    have hepoch : Date.epochDay = 719468 := rfl
    rw [show 2 ^ 31 = 2147483647 + 1 from rfl]
    omega
  exact ⟨⟨by decide, hyear⟩, timestamp_shows_instant ⟨67767976233532799, 10 ^ 9 - 1⟩ (by decide) hyear⟩

example : Elapsed.timestamp ⟨1700000000, 123000000⟩ = "2023-11-14T22:13:20.123Z" := by cbv

end CoinScript.Log
