/-
Dates follow the Gregorian calendar. The calendar here is the common one: which years are leap years, how long
each month is, how many days lie before a year and before a month, and which date comes next. The date of a
number of days after the start of 1970 is a date of that calendar, it stands behind just so many days, and a day
later comes the next date.

The reckoning in eras takes a day apart otherwise: into centuries, spans of four years, years and days, each
from March on, with the leap day last. Both ways are compared at the first of March, where the days before a
year have a closed form, and from there by months.
-/
import CoinScript.Log.Time
import Mathlib.Algebra.BigOperators.Intervals
import Mathlib.Algebra.Order.BigOperators.Group.Finset
import Mathlib.Tactic.IntervalCases

namespace CoinScript.Log

/-! ## The calendar -/

namespace Calendar

/-- Every fourth year is a leap year, but of the centuries only every fourth. -/
def isLeap (year : Nat) : Bool := 4 ∣ year ∧ (100 ∣ year → 400 ∣ year)

def daysInYear (year : Nat) : Nat := if isLeap year then 366 else 365

/-- The length of a month, counted from January as 1. -/
def daysInMonth (year month : Nat) : Nat :=
  match month with
  | 2 => if isLeap year then 29 else 28
  | 4 | 6 | 9 | 11 => 30
  | _ => 31

/-- The days from the start of 1970 to the start of a year that is not before it. -/
def daysToYear (year : Nat) : Nat := ∑ past ∈ Finset.Ico 1970 year, daysInYear past

/-- The days of a year before a month of it. -/
def daysToMonth (year month : Nat) : Nat := ∑ past ∈ Finset.Ico 1 month, daysInMonth year past

end Calendar

open Calendar

namespace Date

/-- A date that the calendar has. -/
structure Valid (date : Date) : Prop where
  month_pos : 1 ≤ date.month
  month_le : date.month ≤ 12
  day_pos : 1 ≤ date.day
  day_le : date.day ≤ daysInMonth date.year date.month

/-- The days from the start of 1970 to a date that is not before it. -/
def daysSinceEpoch (date : Date) : Nat :=
  daysToYear date.year + daysToMonth date.year date.month + (date.day - 1)

/-- The date a day later. -/
def next (date : Date) : Date :=
  if date.day < daysInMonth date.year date.month then { date with day := date.day + 1 }
  else if date.month < 12 then { date with month := date.month + 1, day := 1 }
  else { year := date.year + 1, month := 1, day := 1 }

end Date

/-! ## Days before years and months -/

namespace Calendar

theorem isLeap_iff {year : Nat} : isLeap year = true ↔ 4 ∣ year ∧ (100 ∣ year → 400 ∣ year) :=
  decide_eq_true_iff

theorem daysInMonth_pos (year month : Nat) : 1 ≤ daysInMonth year month := by
  unfold daysInMonth
  repeat' split
  all_goals decide

theorem daysToYear_succ {year : Nat} (h : 1970 ≤ year) :
    daysToYear (year + 1) = daysToYear year + daysInYear year :=
  Finset.sum_Ico_succ_top h daysInYear

theorem daysToYear_mono {a b : Nat} (h : a ≤ b) : daysToYear a ≤ daysToYear b :=
  Finset.sum_le_sum_of_subset (Finset.Ico_subset_Ico_right h)

theorem daysToMonth_succ (year : Nat) {month : Nat} (h : 1 ≤ month) :
    daysToMonth year (month + 1) = daysToMonth year month + daysInMonth year month :=
  Finset.sum_Ico_succ_top h (daysInMonth year)

theorem daysToMonth_mono (year : Nat) {a b : Nat} (h : a ≤ b) : daysToMonth year a ≤ daysToMonth year b :=
  Finset.sum_le_sum_of_subset (Finset.Ico_subset_Ico_right h)

theorem daysToMonth_thirteen (year : Nat) : daysToMonth year 13 = daysInYear year := by
  unfold daysInYear
  cases h : isLeap year <;> simp [daysToMonth, Finset.sum_Ico_succ_top, daysInMonth, h]

/-- The days from the first of March of the year 0 to that of a year. -/
def daysToMarch (year : Nat) : Nat := 365 * year + year / 4 - year / 100 + year / 400

/-- From March to March lies the leap day of the later year. -/
theorem daysToMarch_succ (year : Nat) : daysToMarch (year + 1) = daysToMarch year + daysInYear (year + 1) := by
  have hcenturies : year / 100 ≤ year := Nat.div_le_self year 100
  unfold daysToMarch daysInYear
  rw [Nat.succ_div, Nat.succ_div, Nat.succ_div]
  by_cases hfour : 4 ∣ year + 1
  · by_cases hcentury : 100 ∣ year + 1
    · by_cases hera : 400 ∣ year + 1
      · have hleap : isLeap (year + 1) = true := isLeap_iff.mpr ⟨hfour, fun _ => hera⟩
        rw [if_pos hfour, if_pos hcentury, if_pos hera, if_pos hleap]
        omega
      · have hcommon : ¬ isLeap (year + 1) = true := fun h => hera ((isLeap_iff.mp h).2 hcentury)
        rw [if_pos hfour, if_pos hcentury, if_neg hera, if_neg hcommon]
        omega
    · have hleap : isLeap (year + 1) = true := isLeap_iff.mpr ⟨hfour, fun h => absurd h hcentury⟩
      have hera : ¬ 400 ∣ year + 1 := fun h => hcentury (Nat.dvd_trans (by decide) h)
      rw [if_pos hfour, if_neg hcentury, if_neg hera, if_pos hleap]
      omega
  · have hcommon : ¬ isLeap (year + 1) = true := fun h => hfour (isLeap_iff.mp h).1
    have hcentury : ¬ 100 ∣ year + 1 := fun h => hfour (Nat.dvd_trans (by decide) h)
    have hera : ¬ 400 ∣ year + 1 := fun h => hfour (Nat.dvd_trans (by decide) h)
    rw [if_neg hfour, if_neg hcentury, if_neg hera, if_neg hcommon]
    omega

theorem daysToMarch_mono : Monotone daysToMarch :=
  monotone_nat_of_le_succ fun year => (daysToMarch_succ year).ge.trans' (Nat.le_add_right _ _)

/-- From March there are ten months, of 306 days, to the next year. -/
theorem daysToYear_succ_add_epochDay {year : Nat} (h : 1969 ≤ year) :
    daysToYear (year + 1) + Date.epochDay = daysToMarch year + 306 := by
  induction year, h using Nat.le_induction with
  | base => rfl
  | succ year h ih =>
    rw [daysToYear_succ (by omega), daysToMarch_succ]
    omega

end Calendar

/-! ## Dates in order -/

namespace Date

variable {date other : Date}

theorem Valid.daysToMonth_lt (h : date.Valid) :
    daysToMonth date.year date.month + (date.day - 1) < daysToMonth date.year (date.month + 1) := by
  have hpos := h.day_pos
  have hle := h.day_le
  rw [daysToMonth_succ date.year h.month_pos]
  omega

theorem Valid.daysSinceEpoch_lt (h : date.Valid) (hyear : 1970 ≤ date.year) :
    date.daysSinceEpoch < daysToYear (date.year + 1) := by
  have hmonth := h.daysToMonth_lt
  have hfill : daysToMonth date.year (date.month + 1) ≤ daysToMonth date.year 13 :=
    daysToMonth_mono date.year (Nat.succ_le_succ h.month_le)
  rw [daysToMonth_thirteen] at hfill
  rw [daysToYear_succ hyear, daysSinceEpoch]
  omega

theorem Valid.year_le (h : date.Valid) (hyear : 1970 ≤ date.year)
    (hle : other.daysSinceEpoch ≤ date.daysSinceEpoch) : other.year ≤ date.year := by
  by_contra hlt
  have hbefore := h.daysSinceEpoch_lt hyear
  have hmono : daysToYear (date.year + 1) ≤ daysToYear other.year := daysToYear_mono (Nat.lt_of_not_le hlt)
  unfold daysSinceEpoch at hle hbefore
  omega

theorem Valid.month_le_month (h : date.Valid) (hyear : other.year = date.year)
    (hle : other.daysSinceEpoch ≤ date.daysSinceEpoch) : other.month ≤ date.month := by
  by_contra hlt
  have hbefore := h.daysToMonth_lt
  have hmono : daysToMonth date.year (date.month + 1) ≤ daysToMonth date.year other.month :=
    daysToMonth_mono date.year (Nat.lt_of_not_le hlt)
  unfold daysSinceEpoch at hle
  rw [hyear] at hle
  omega

theorem Valid.eq_of_daysSinceEpoch_eq (h : date.Valid) (hother : other.Valid) (hyear : 1970 ≤ date.year)
    (hyear' : 1970 ≤ other.year) (heq : date.daysSinceEpoch = other.daysSinceEpoch) : date = other := by
  have hyears : date.year = other.year :=
    Nat.le_antisymm (hother.year_le hyear' heq.le) (h.year_le hyear heq.ge)
  have hmonths : date.month = other.month :=
    Nat.le_antisymm (hother.month_le_month hyears heq.le) (h.month_le_month hyears.symm heq.ge)
  have hdays : date.day = other.day := by
    have hpos := h.day_pos
    have hpos' := hother.day_pos
    unfold daysSinceEpoch at heq
    rw [hyears, hmonths] at heq
    omega
  cases date
  cases other
  cases hyears
  cases hmonths
  cases hdays
  rfl

theorem Valid.next (h : date.Valid) : date.next.Valid := by
  unfold Date.next
  split_ifs with hday hmonth
  · exact ⟨h.month_pos, h.month_le, Nat.succ_pos _, hday⟩
  · exact ⟨Nat.succ_pos _, hmonth, Nat.le_refl 1, daysInMonth_pos _ _⟩
  · exact ⟨Nat.le_refl 1, Nat.le_of_lt (by decide : 1 < 12), Nat.le_refl 1, daysInMonth_pos _ _⟩

/-- The next date stands behind one day more. -/
theorem Valid.daysSinceEpoch_next (h : date.Valid) (hyear : 1970 ≤ date.year) :
    date.next.daysSinceEpoch = date.daysSinceEpoch + 1 := by
  have hpos := h.day_pos
  have hle := h.day_le
  have hmonths := daysToMonth_succ date.year h.month_pos
  unfold Date.next daysSinceEpoch
  split_ifs with hday hmonth
  · dsimp only
    omega
  · dsimp only
    omega
  · have hlast : date.month = 12 := Nat.le_antisymm h.month_le (Nat.not_lt.mp hmonth)
    have hfill : daysToMonth date.year (12 + 1) = daysInYear date.year := daysToMonth_thirteen date.year
    have hstart : daysToMonth (date.year + 1) 1 = 0 := rfl
    rw [hlast] at hmonths hday hle
    dsimp only
    rw [daysToYear_succ hyear, hlast]
    omega

theorem le_year_next (hyear : 1970 ≤ date.year) : 1970 ≤ date.next.year := by
  unfold Date.next
  split_ifs
  · exact hyear
  · exact hyear
  · exact Nat.le_succ_of_le hyear

end Date

/-! ## Eras -/

/-- A day of an era, by the centuries, spans of four years, years and days before it, from March on. -/
structure EraDay where
  century : Nat
  span : Nat
  year : Nat
  day : Nat
  century_le : century ≤ 3
  span_le : span ≤ 24
  year_le : year ≤ 3
  day_le : day ≤ 365
  /-- Only a leap year has a last day more. -/
  leap : day = 365 → year = 3 ∧ (span = 24 → century = 3)

namespace EraDay

variable (place : EraDay)

/-- The days of the era before it. -/
def dayOfEra : Nat := 36524 * place.century + 1461 * place.span + 365 * place.year + place.day

/-- The years of the era before it. -/
def yearOfEra : Nat := 100 * place.century + 4 * place.span + place.year

theorem exists_dayOfEra_eq {dayOfEra : Nat} (h : dayOfEra < Date.daysPerEra) :
    ∃ place : EraDay, place.dayOfEra = dayOfEra := by
  -- the last century, the last span and the last year are longer than the ones before
  obtain ⟨century, ofCentury, hcentury, rfl⟩ : ∃ c r, (c ≤ 3 ∧ r ≤ 36524 ∧ (r = 36524 → c = 3)) ∧
      dayOfEra = 36524 * c + r := by
    unfold Date.daysPerEra at h
    exact ⟨min (dayOfEra / 36524) 3, dayOfEra - 36524 * min (dayOfEra / 36524) 3, by omega, by omega⟩
  obtain ⟨span, ofSpan, hspan, rfl⟩ : ∃ s r, (s ≤ 24 ∧ r ≤ 1460 ∧ (r = 1460 → s = 24 → century = 3)) ∧
      ofCentury = 1461 * s + r :=
    ⟨ofCentury / 1461, ofCentury % 1461, by omega, by omega⟩
  obtain ⟨year, day, hyear, rfl⟩ : ∃ y d, (y ≤ 3 ∧ d ≤ 365 ∧ (d = 365 → y = 3 ∧ (span = 24 → century = 3))) ∧
      ofSpan = 365 * y + d :=
    ⟨min (ofSpan / 365) 3, ofSpan - 365 * min (ofSpan / 365) 3, by omega, by omega⟩
  refine ⟨⟨century, span, year, day, hcentury.1, hspan.1, hyear.1, hyear.2.1, hyear.2.2⟩, ?_⟩
  simp only [EraDay.dayOfEra, Nat.add_assoc]

/-- Only the last day of an era would be the first one of a fifth century. -/
theorem dayOfEra_div_century : place.dayOfEra / 36524 = place.century + place.dayOfEra / 146096 := by
  obtain ⟨century, span, year, day, hcentury, hspan, hyear, hday, hleap⟩ := place
  simp only [dayOfEra]
  by_cases hlast : day = 365 ∧ span = 24
  · obtain ⟨rfl, rfl⟩ := hlast
    obtain ⟨rfl, hthree⟩ := hleap rfl
    cases hthree rfl
    rfl
  · rw [Nat.div_eq_of_lt (b := 146096) (by omega)]
    omega

/-- Each span of four years has a day more than four times 365, and takes part of it from the spans before. -/
theorem dayOfEra_div_span :
    place.dayOfEra / 1460 = 25 * place.century + place.span +
      (24 * place.century + place.span + 365 * place.year + place.day) / 1460 := by
  unfold dayOfEra
  omega

theorem yearOfEra_dayOfEra : Date.yearOfEra place.dayOfEra = place.yearOfEra := by
  obtain ⟨century, span, year, day, hcentury, hspan, hyear, hday, hleap⟩ := place
  unfold Date.yearOfEra
  rw [dayOfEra_div_century, dayOfEra_div_span]
  simp only [dayOfEra, yearOfEra]
  -- the last day of the era is added and taken away again
  generalize (36524 * century + 1461 * span + 365 * year + day) / 146096 = last
  omega

/-- The days of an era before a day are those of the years before it and of its own year. -/
theorem dayOfEra_eq :
    place.dayOfEra = 365 * place.yearOfEra + place.yearOfEra / 4 - place.yearOfEra / 100 + place.day := by
  obtain ⟨century, span, year, day, hcentury, hspan, hyear, hday, hleap⟩ := place
  simp only [dayOfEra, yearOfEra]
  omega

theorem dayOfYear_dayOfEra : Date.dayOfYear place.dayOfEra = place.day := by
  unfold Date.dayOfYear
  rw [yearOfEra_dayOfEra, dayOfEra_eq]
  exact Nat.add_sub_cancel_left _ _

theorem dayOfEra_lt : place.dayOfEra < Date.daysPerEra := by
  obtain ⟨century, span, year, day, hcentury, hspan, hyear, hday, hleap⟩ := place
  simp only [dayOfEra, Date.daysPerEra]
  omega

theorem yearOfEra_lt : place.yearOfEra < 400 := by
  obtain ⟨century, span, year, day, hcentury, hspan, hyear, hday, hleap⟩ := place
  simp only [yearOfEra]
  omega

/-- The years from March of an era, and eras before them, have the days that are reckoned. -/
theorem daysToMarch_add_day (era : Nat) :
    daysToMarch (place.yearOfEra + 400 * era) + place.day = Date.daysPerEra * era + place.dayOfEra := by
  obtain ⟨century, span, year, day, hcentury, hspan, hyear, hday, hleap⟩ := place
  simp only [daysToMarch, dayOfEra, yearOfEra, Date.daysPerEra]
  omega

theorem day_lt (era : Nat) : place.day < daysInYear (place.yearOfEra + 400 * era + 1) := by
  have hle := place.day_le
  unfold daysInYear
  split_ifs with h
  · omega
  · refine Nat.lt_of_le_of_ne hle fun hlast => h ?_
    obtain ⟨hyear, hspan⟩ := place.leap hlast
    have hspan' := place.span_le
    have hcentury := place.century_le
    rw [isLeap_iff, yearOfEra, hyear]
    omega

end EraDay

/-! ## Months from March -/

namespace Date

/-- The days from the first of March to that of a month, counted from March as 0. -/
def daysFromMarch (month : Nat) : Nat := (153 * month + 2) / 5

/-- The month from March that a day of a year from March falls in. -/
theorem monthOfYear_bounds {day : Nat} (h : day ≤ 365) :
    monthOfYear day ≤ 11 ∧ daysFromMarch (monthOfYear day) ≤ day ∧ day < daysFromMarch (monthOfYear day + 1) := by
  unfold daysFromMarch monthOfYear
  omega

/-- From March to December months are as long as the reckoning has them. -/
theorem daysInMonth_add_three (year : Nat) {month : Nat} (h : month < 10) :
    daysFromMarch month + daysInMonth year (month + 3) = daysFromMarch (month + 1) := by
  interval_cases month <;> rfl

/-- January and February end the year from March. -/
theorem daysFromMarch_add_february (year : Nat) : daysFromMarch 11 + daysInMonth year 2 = daysInYear year := by
  unfold daysInYear daysInMonth
  cases isLeap year <;> rfl

/-- From March to December a month starts behind the January and February of its own year. -/
theorem daysToMonth_add_three (year : Nat) {month : Nat} (h : month < 10) :
    daysToMonth year (month + 3) + 306 = daysInYear year + daysFromMarch month := by
  induction month with
  | zero =>
    have hjanuary : daysToMonth year 3 = 31 + daysInMonth year 2 := rfl
    rw [hjanuary, ← daysFromMarch_add_february year]
    unfold daysFromMarch
    omega
  | succ month ih =>
    have hbefore := ih (by omega)
    have hmonth := daysInMonth_add_three year (Nat.lt_of_succ_lt h)
    have hstep : daysToMonth year (month + 3 + 1) = daysToMonth year (month + 3) + daysInMonth year (month + 3) :=
      daysToMonth_succ year (by omega)
    rw [Nat.add_right_comm month 1 3]
    omega

/-- The date of a day of a year, both counted from March. -/
def ofMarch (year day : Nat) : Date :=
  if monthOfYear day < 10 then ⟨year, monthOfYear day + 3, day - daysFromMarch (monthOfYear day) + 1⟩
  else ⟨year + 1, monthOfYear day - 9, day - daysFromMarch (monthOfYear day) + 1⟩

variable {year day : Nat}

/-- A day of a year from March lies in one of its first ten months, in January or in February. -/
theorem ofMarch_cases (h : day < daysInYear (year + 1)) :
    (∃ month k, month < 10 ∧ k < daysInMonth year (month + 3) ∧ day = daysFromMarch month + k ∧
      ofMarch year day = ⟨year, month + 3, k + 1⟩) ∨
    (∃ k, k < 31 ∧ day = 306 + k ∧ ofMarch year day = ⟨year + 1, 1, k + 1⟩) ∨
    ∃ k, k < daysInMonth (year + 1) 2 ∧ day = 337 + k ∧ ofMarch year day = ⟨year + 1, 2, k + 1⟩ := by
  have hday : day ≤ 365 := by
    unfold daysInYear at h
    split at h <;> omega
  have hend := daysFromMarch_add_february (year + 1)
  obtain ⟨hmonth, hstart, hstop⟩ := monthOfYear_bounds hday
  unfold ofMarch
  generalize monthOfYear day = month at hmonth hstart hstop
  by_cases hten : month < 10
  · have hlength := daysInMonth_add_three year hten
    exact .inl ⟨month, day - daysFromMarch month, hten, by omega, by omega, if_pos hten⟩
  · rw [if_neg hten]
    obtain rfl | rfl : month = 10 ∨ month = 11 := by omega
    · have hfebruary : daysFromMarch (10 + 1) = 337 := rfl
      have hjanuary : daysFromMarch 10 = 306 := rfl
      exact .inr (.inl ⟨day - 306, by omega, (Nat.add_sub_cancel' hstart).symm, rfl⟩)
    · have hfebruary : daysFromMarch 11 = 337 := rfl
      exact .inr (.inr ⟨day - 337, by omega, (Nat.add_sub_cancel' hstart).symm, rfl⟩)

theorem valid_ofMarch (h : day < daysInYear (year + 1)) : (ofMarch year day).Valid := by
  obtain ⟨month, k, hmonth, hk, -, heq⟩ | ⟨k, hk, -, heq⟩ | ⟨k, hk, -, heq⟩ := ofMarch_cases h
  · rw [heq]
    exact ⟨Nat.succ_pos _, Nat.add_lt_add_right hmonth 2, Nat.succ_pos k, hk⟩
  · rw [heq]
    exact ⟨Nat.le_refl 1, Nat.le_of_lt (by decide : 1 < 12), Nat.succ_pos k, hk⟩
  · rw [heq]
    exact ⟨Nat.succ_pos 1, Nat.le_of_lt (by decide : 2 < 12), Nat.succ_pos k, hk⟩

/-- Its days since 1970 and its days from March on are counted from starts that lie `epochDay` apart. -/
theorem daysSinceEpoch_ofMarch (h : day < daysInYear (year + 1)) (hyear : 1970 ≤ (ofMarch year day).year) :
    (ofMarch year day).daysSinceEpoch + epochDay = daysToMarch year + day := by
  obtain ⟨month, k, hmonth, -, rfl, heq⟩ | ⟨k, -, rfl, heq⟩ | ⟨k, -, rfl, heq⟩ := ofMarch_cases h
  · rw [heq] at hyear ⊢
    have hmonths := daysToMonth_add_three year hmonth
    have hnext : daysToYear (year + 1) + epochDay = daysToMarch year + 306 :=
      daysToYear_succ_add_epochDay (Nat.le_of_succ_le hyear)
    rw [daysToYear_succ hyear] at hnext
    simp only [daysSinceEpoch] at hnext ⊢
    omega
  · rw [heq] at hyear ⊢
    have hnext := daysToYear_succ_add_epochDay (Nat.le_of_succ_le_succ hyear)
    have hmonths : daysToMonth (year + 1) 1 = 0 := rfl
    simp only [daysSinceEpoch]
    omega
  · rw [heq] at hyear ⊢
    have hnext := daysToYear_succ_add_epochDay (Nat.le_of_succ_le_succ hyear)
    have hmonths : daysToMonth (year + 1) 2 = 31 := rfl
    simp only [daysSinceEpoch]
    omega

/-! ## Dates of days -/

/-- The date of some days lies in a year from March that has as many days before it. -/
theorem ofDays_eq_ofMarch (days : Nat) :
    ∃ year day, day < daysInYear (year + 1) ∧ daysToMarch year + day = days + epochDay ∧
      ofDays days = ofMarch year day := by
  obtain ⟨place, hplace⟩ := EraDay.exists_dayOfEra_eq (Nat.mod_lt (days + epochDay) (by decide : 0 < daysPerEra))
  refine ⟨place.yearOfEra + 400 * ((days + epochDay) / daysPerEra), place.day, place.day_lt _, ?_, ?_⟩
  · rw [place.daysToMarch_add_day, hplace]
    exact Nat.div_add_mod _ _
  · have hmonth := (monthOfYear_bounds place.day_le).1
    unfold ofDays ofMarch
    simp only [← hplace, place.yearOfEra_dayOfEra, place.dayOfYear_dayOfEra]
    by_cases hten : monthOfYear place.day < 10
    · simp only [if_pos hten]
      rw [if_neg (by omega), Nat.add_zero, daysFromMarch]
    · simp only [if_neg hten]
      rw [if_pos (by omega), daysFromMarch]

theorem valid_ofDays (days : Nat) : (ofDays days).Valid := by
  obtain ⟨year, day, hday, -, heq⟩ := ofDays_eq_ofMarch days
  rw [heq]
  exact valid_ofMarch hday

theorem le_year_ofDays (days : Nat) : 1970 ≤ (ofDays days).year := by
  obtain ⟨year, day, hday, hdays, heq⟩ := ofDays_eq_ofMarch days
  have hepoch : epochDay = daysToMarch 1969 + 306 := rfl
  have hyear : 1969 ≤ year := by
    by_contra hlt
    have hmono : daysToMarch (year + 1) ≤ daysToMarch 1969 := daysToMarch_mono (Nat.lt_of_not_le hlt)
    rw [daysToMarch_succ] at hmono
    omega
  rw [heq]
  obtain ⟨month, k, hmonth, hk, rfl, heq⟩ | ⟨k, -, -, heq⟩ | ⟨k, -, -, heq⟩ := ofMarch_cases hday
  · have hten : daysFromMarch month + daysInMonth year (month + 3) ≤ 306 := by
      rw [daysInMonth_add_three year hmonth, daysFromMarch]
      omega
    have hlater : year ≠ 1969 := by
      rintro rfl
      omega
    rw [heq]
    exact Nat.lt_of_le_of_ne hyear hlater.symm
  · rw [heq]
    exact Nat.succ_le_succ hyear
  · rw [heq]
    exact Nat.succ_le_succ hyear

theorem daysSinceEpoch_ofDays (days : Nat) : (ofDays days).daysSinceEpoch = days := by
  have hyear := le_year_ofDays days
  obtain ⟨year, day, hday, hdays, heq⟩ := ofDays_eq_ofMarch days
  rw [heq] at hyear ⊢
  have hreckoned := daysSinceEpoch_ofMarch hday hyear
  omega

theorem ofDays_zero : ofDays 0 = ⟨1970, 1, 1⟩ := rfl

theorem ofDays_succ (days : Nat) : ofDays (days + 1) = (ofDays days).next := by
  have hvalid := valid_ofDays days
  have hyear := le_year_ofDays days
  refine (valid_ofDays (days + 1)).eq_of_daysSinceEpoch_eq hvalid.next (le_year_ofDays _) (le_year_next hyear) ?_
  rw [hvalid.daysSinceEpoch_next hyear, daysSinceEpoch_ofDays, daysSinceEpoch_ofDays]

theorem add_epochDay_lt (days : Nat) : days + epochDay < daysToMarch (ofDays days).year + 306 := by
  have hyear := le_year_ofDays days
  have hlt := (valid_ofDays days).daysSinceEpoch_lt hyear
  rw [daysSinceEpoch_ofDays] at hlt
  rw [← daysToYear_succ_add_epochDay (Nat.le_of_succ_le hyear)]
  exact Nat.add_lt_add_right hlt epochDay

theorem year_ofDays_lt {days bound : Nat} (h : days < daysToYear bound) : (ofDays days).year < bound := by
  by_contra hle
  have hmono := daysToYear_mono (Nat.not_lt.mp hle)
  have hdays := daysSinceEpoch_ofDays days
  unfold daysSinceEpoch at hdays
  omega

end Date

end CoinScript.Log
