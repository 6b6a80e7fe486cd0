import Mathlib.Data.Int.Notation

namespace NetworkEx.CivilCalendar

structure Date where
  year : Int
  month : Nat
  day : Nat
  deriving DecidableEq

-- Days are counted from 1 January 1970. Inside a period of 400 years the years
-- run from March, so that a leap day is the last of its year; the period of
-- year 0 has begun 719468 days before.
def period : Int := 146097
def epoch : Int := 719468

-- A day of the period by its century, the four years it lies in, and so on.
-- The last century and the last of four years have one day more.
def century (day : Nat) : Nat := min 3 (day / 36524)
def quad (day : Nat) : Nat := (day - 36524 * century day) / 1461
def yearOfQuad (day : Nat) : Nat := min 3 ((day - 36524 * century day - 1461 * quad day) / 365)
def dayOfYear (day : Nat) : Nat := day - 36524 * century day - 1461 * quad day - 365 * yearOfQuad day
def yearOfPeriod (day : Nat) : Nat := 100 * century day + 4 * quad day + yearOfQuad day

def daysBefore (month : Nat) : Nat := (153 * month + 2) / 5
def monthOf (day : Nat) : Nat := (5 * day + 2) / 153

def daysOfDate (date : Date) : Int :=
  let year := if date.month ≤ 2 then date.year - 1 else date.year
  let month := if date.month ≤ 2 then date.month + 9 else date.month - 3
  let past := (year % 400).toNat
  year / 400 * period + (365 * past + past / 4 - past / 100 + daysBefore month + (date.day - 1) : Nat) - epoch

def dateOfDays (days : Int) : Date :=
  let day := ((days + epoch) % period).toNat
  let year := (days + epoch) / period * 400 + yearOfPeriod day
  let month := monthOf (dayOfYear day)
  ⟨if month < 10 then year else year + 1,if month < 10 then month + 3 else month - 9,
    dayOfYear day - daysBefore month + 1⟩

def weekday (days : Int) : Nat := ((days + 4) % 7).toNat

theorem weekday_range (days : Int) : weekday days < 7 := by
  unfold weekday; omega

theorem day_parts (inside : day < 146097) :
    (century day ≤ 3 ∧ quad day ≤ 24 ∧ yearOfQuad day ≤ 3 ∧ dayOfYear day ≤ 365) ∧
      day = 36524 * century day + 1461 * quad day + 365 * yearOfQuad day + dayOfYear day := by
  have centuries : century day ≤ 3 ∧ 36524 * century day ≤ day ∧ day - 36524 * century day ≤ 36524 := by
    unfold century; omega
  have quads : quad day ≤ 24 ∧ 1461 * quad day ≤ day - 36524 * century day ∧
      day - 36524 * century day - 1461 * quad day ≤ 1460 := by
    unfold quad; omega
  have years : yearOfQuad day ≤ 3 ∧ 365 * yearOfQuad day ≤ day - 36524 * century day - 1461 * quad day ∧
      day - 36524 * century day - 1461 * quad day - 365 * yearOfQuad day ≤ 365 := by
    unfold yearOfQuad; omega
  unfold dayOfYear
  omega

theorem month_parts (inside : day ≤ 365) :
    monthOf day ≤ 11 ∧ daysBefore (monthOf day) ≤ day ∧ day - daysBefore (monthOf day) ≤ 30 := by
  unfold daysBefore monthOf; omega

theorem day_inside (days : Int) : ((days + epoch) % period).toNat < 146097 := by
  unfold epoch period; omega

theorem dateOfDays_range (days : Int) :
    (1 ≤ (dateOfDays days).month ∧ (dateOfDays days).month ≤ 12) ∧
      1 ≤ (dateOfDays days).day ∧ (dateOfDays days).day ≤ 31 := by
  obtain ⟨⟨_,_,_,inside⟩,_⟩ := day_parts (day_inside days)
  obtain ⟨month,_,day⟩ := month_parts inside
  refine ⟨?_,Nat.le_add_left _ _,Nat.succ_le_succ day⟩
  simp only [dateOfDays]
  split <;> omega

-- The years of a period with their leap days are its centuries, fours of years
-- and single years again.
theorem year_parts (inside : day < 146097) :
    yearOfPeriod day < 400 ∧
      365 * yearOfPeriod day + yearOfPeriod day / 4 - yearOfPeriod day / 100 + dayOfYear day = day := by
  obtain ⟨⟨centuries,quads,years,_⟩,sum⟩ := day_parts inside
  have fours : yearOfPeriod day / 4 = 25 * century day + quad day := by unfold yearOfPeriod; omega
  have hundreds : yearOfPeriod day / 100 = century day := by unfold yearOfPeriod; omega
  rw [fours,hundreds]
  unfold yearOfPeriod
  omega

theorem dateOfDays_march (days : Int) :
    (if (dateOfDays days).month ≤ 2 then (dateOfDays days).year - 1 else (dateOfDays days).year) =
        (days + epoch) / period * 400 + yearOfPeriod ((days + epoch) % period).toNat ∧
      (if (dateOfDays days).month ≤ 2 then (dateOfDays days).month + 9 else (dateOfDays days).month - 3) =
        monthOf (dayOfYear ((days + epoch) % period).toNat) := by
  have month := (month_parts (day_parts (day_inside days)).1.2.2.2).1
  simp only [dateOfDays]
  split <;> split <;> omega

theorem daysOfDate_dateOfDays (days : Int) : daysOfDate (dateOfDays days) = days := by
  have inside := day_inside days
  have whole : (days + epoch) / period * period + (((days + epoch) % period).toNat : Int) = days + epoch := by
    unfold period; omega
  obtain ⟨year,month⟩ := dateOfDays_march days
  obtain ⟨years,sum⟩ := year_parts inside
  have before := (month_parts (day_parts inside).1.2.2.2).2.1
  have day : (dateOfDays days).day - 1 =
      dayOfYear ((days + epoch) % period).toNat - daysBefore (monthOf (dayOfYear ((days + epoch) % period).toNat)) := rfl
  simp only [daysOfDate,year,month,day]
  generalize ((days + epoch) % period).toNat = dayOfPeriod at *
  generalize (days + epoch) / period = era at *
  have past : ((era * 400 + yearOfPeriod dayOfPeriod) % 400).toNat = yearOfPeriod dayOfPeriod := by omega
  have periods : (era * 400 + yearOfPeriod dayOfPeriod) / 400 = era := by omega
  rw [past,periods]
  unfold period at *
  omega

example : dateOfDays 0 = ⟨1970,1,1⟩ := by decide
example : dateOfDays 11016 = ⟨2000,2,29⟩ := by decide

end NetworkEx.CivilCalendar
