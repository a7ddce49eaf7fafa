import Mathlib.Algebra.BigOperators.Group.List.Basic
import Mathlib.Algebra.Order.BigOperators.Group.List
import Mathlib.Algebra.Order.Group.Nat
import Mathlib.Data.List.GetD
import Thock.SyncCore.DueText

/-!
# Days counted

The days of the Gregorian calendar counted from the first of January of the year 1, carried on without end in both
directions, and the weekdays and ISO weeks that follow from the count.

The count tells days apart and leaves none out.
-/

namespace Thock.SyncCore

/-- The days of all years before one. -/
def daysBefore (year : ℤ) : ℤ := 365 * (year - 1) + (year - 1) / 4 - (year - 1) / 100 + (year - 1) / 400

/-- The day of the year, from 1. -/
def Day.ofYear (date : Day) : ℕ := ((monthLengths date.year).take (date.month - 1)).sum + date.day

def Day.number (date : Day) : ℤ := daysBefore date.year + date.ofYear

/-- The Monday of the week that holds the fourth of January. -/
def mondayOf (year : ℤ) : ℤ := daysBefore year + 4 - (daysBefore year + 3) % 7

/-- The year whose ISO weeks hold a day. -/
def isoYearOf (date : Day) : ℤ :=
  if date.number < mondayOf date.year then date.year - 1
  else if mondayOf (date.year + 1) ≤ date.number then date.year + 1
  else date.year

def isoWeekOf (date : Day) : ℕ := ((date.number - mondayOf (isoYearOf date)) / 7 + 1).toNat

/-- What the desk's date library computes: a weekday counted from Sunday, ISO weeks, and the Mondays of the weeks a year has. -/
structure Chrono.Gregorian (chrono : Chrono) : Prop where
  weekday : ∀ date, chrono.weekday date = (date.number % 7).toNat
  isoWeek : ∀ date, chrono.isoWeek date = isoWeekOf date
  isoYear : ∀ date, chrono.isoYear date = isoYearOf date
  isoMonday : ∀ year week monday, chrono.isoMonday year week = some monday ↔
    1 ≤ week ∧ monday.number = mondayOf year + 7 * (week - 1) ∧ monday.number < mondayOf (year + 1)

/-! ## Years and their days -/

theorem daysBefore_succ (year : ℤ) : daysBefore (year + 1) = daysBefore year + if isLeapYear year then 366 else 365 := by
  have hleap : isLeapYear year = true ↔ year % 4 = 0 ∧ (year % 100 ≠ 0 ∨ year % 400 = 0) := by
    simp [isLeapYear]
  unfold daysBefore
  split
  · next h =>
    have hcases := hleap.mp h
    omega
  · next h =>
    have hcases := mt hleap.mpr h
    omega

theorem daysBefore_lt {year other : ℤ} (h : year < other) : daysBefore year + 365 ≤ daysBefore other := by
  unfold daysBefore
  omega

theorem sum_monthLengths (year : ℤ) : (monthLengths year).sum = if isLeapYear year then 366 else 365 := by
  unfold monthLengths
  split
  · rfl
  · rfl

theorem length_monthLengths (year : ℤ) : (monthLengths year).length = 12 := rfl

/-- The days of a month end before those of the next. -/
theorem Day.ofYear_le (date : Day) : date.ofYear ≤ ((monthLengths date.year).take date.month).sum := by
  have hpos := date.month_pos
  have hday := date.day_le
  obtain ⟨month, hmonth⟩ : ∃ m, date.month = m + 1 := ⟨date.month - 1, by omega⟩
  rw [Day.ofYear, hmonth, Nat.add_sub_cancel]
  rw [hmonth, Nat.add_sub_cancel] at hday
  by_cases hlt : month < (monthLengths date.year).length
  · rw [List.getD_eq_getElem _ _ hlt] at hday
    rw [List.sum_take_succ _ _ hlt]
    omega
  · rw [List.getD_eq_default _ _ (by omega)] at hday
    have hdate := date.day_pos
    omega

theorem sum_take_le {l : List ℕ} {m n : ℕ} (h : m ≤ n) : (l.take m).sum ≤ (l.take n).sum :=
  List.Sublist.sum_le_sum (List.take_sublist_take_left h) fun _ _ => Nat.zero_le _

theorem Day.ofYear_pos (date : Day) : 1 ≤ date.ofYear := by
  have hday := date.day_pos
  rw [Day.ofYear]
  omega

theorem Day.ofYear_le_year (date : Day) : (date.ofYear : ℤ) ≤ if isLeapYear date.year then 366 else 365 := by
  have hle := date.ofYear_le.trans (sum_take_le (l := monthLengths date.year) (n := 12) date.month_le)
  rw [List.take_of_length_le (by rw [length_monthLengths]), sum_monthLengths] at hle
  split
  · next h =>
    rw [if_pos h] at hle
    omega
  · next h =>
    rw [if_neg h] at hle
    omega

/-- A day is counted within its year. -/
theorem Day.number_bounds (date : Day) : daysBefore date.year < date.number ∧ date.number ≤ daysBefore (date.year + 1) := by
  have hpos := date.ofYear_pos
  have hle := date.ofYear_le_year
  rw [daysBefore_succ, Day.number]
  omega

theorem Day.number_lt_of_year {date other : Day} (h : date.year < other.year) : date.number < other.number := by
  have hle : daysBefore (date.year + 1) ≤ daysBefore other.year := by
    rcases (Int.add_one_le_iff.mpr h).eq_or_lt with heq | hlt
    · rw [heq]
    · have := daysBefore_lt hlt
      omega
  have hdate := date.number_bounds.2
  have hother := other.number_bounds.1
  omega

theorem Day.ofYear_lt {date other : Day} (hyear : date.year = other.year) (h : date.month < other.month) :
    date.ofYear < other.ofYear := by
  have hdate := date.ofYear_le
  have hmonths := sum_take_le (l := monthLengths date.year) (show date.month ≤ other.month - 1 by omega)
  have hday := other.day_pos
  have hother : other.ofYear = ((monthLengths other.year).take (other.month - 1)).sum + other.day := rfl
  rw [← hyear] at hother
  omega

/-- Days with one count are one day. -/
theorem Day.number_injective : Function.Injective Day.number := by
  intro date other h
  have hyear : date.year = other.year := by
    rcases lt_trichotomy date.year other.year with hlt | heq | hlt
    · exact absurd h (Day.number_lt_of_year hlt).ne
    · exact heq
    · exact absurd h (Day.number_lt_of_year hlt).ne'
  have hofYear : date.ofYear = other.ofYear := by
    rw [Day.number, Day.number, hyear] at h
    omega
  have hmonth : date.month = other.month := by
    rcases lt_trichotomy date.month other.month with hlt | heq | hlt
    · exact absurd hofYear (Day.ofYear_lt hyear hlt).ne
    · exact heq
    · exact absurd hofYear (Day.ofYear_lt hyear.symm hlt).ne'
  have hday : date.day = other.day := by
    rw [Day.ofYear, Day.ofYear, hyear, hmonth] at hofYear
    omega
  cases date
  cases other
  simp_all

/-! ## No number is left out -/

theorem monthLengths_pos {year : ℤ} {month : ℕ} (h : month < 12) : 28 ≤ (monthLengths year).getD month 0 := by
  have hall : ∀ length ∈ monthLengths year, 28 ≤ length := by
    unfold monthLengths
    split
    · decide
    · decide
  rw [List.getD_eq_getElem _ _ (by rwa [length_monthLengths])]
  exact hall _ (List.getElem_mem _)

theorem number_eq (year : ℤ) (month day : ℕ) (hmonth : 1 ≤ month) (hday : 1 ≤ day)
    (hle : day ≤ (monthLengths year).getD (month - 1) 0) :
    (Day.mk year month day hmonth hday hle).number = daysBefore year + (((monthLengths year).take (month - 1)).sum + day : ℕ) :=
  rfl

theorem sum_take_succ (year : ℤ) {month : ℕ} (h : month < 12) :
    ((monthLengths year).take (month + 1)).sum = ((monthLengths year).take month).sum + (monthLengths year).getD month 0 := by
  have hlt : month < (monthLengths year).length := by rwa [length_monthLengths]
  rw [List.sum_take_succ _ _ hlt, List.getD_eq_getElem _ _ hlt]

def Day.next (date : Day) : Day :=
  if hsame : date.day + 1 ≤ (monthLengths date.year).getD (date.month - 1) 0 then
    ⟨date.year, date.month, date.day + 1, date.month_pos, by omega, hsame⟩
  else if hmonth : date.month < 12 then
    ⟨date.year, date.month + 1, 1, by omega, le_rfl, le_trans (by decide) (monthLengths_pos hmonth)⟩
  else ⟨date.year + 1, 1, 1, le_rfl, le_rfl, by simp [monthLengths]⟩

def Day.prev (date : Day) : Day :=
  if hsame : 1 < date.day then
    ⟨date.year, date.month, date.day - 1, date.month_pos, by omega, (Nat.sub_le _ _).trans date.day_le⟩
  else if hmonth : 1 < date.month then
    have hlast : 28 ≤ (monthLengths date.year).getD (date.month - 2) 0 := by
      have hmonth := date.month_le
      exact monthLengths_pos (by omega)
    ⟨date.year, date.month - 1, (monthLengths date.year).getD (date.month - 2) 0, by omega, by omega, le_rfl⟩
  else ⟨date.year - 1, 12, 31, by decide, by decide, by simp [monthLengths]⟩

/-- The fourth of January, which is in the first ISO week of its year. -/
def Day.fourth (year : ℤ) : Day := ⟨year, 1, 4, le_rfl, by decide, by simp [monthLengths]⟩

theorem Day.number_next (date : Day) : date.next.number = date.number + 1 := by
  obtain ⟨year, month, day, hmonth, hday, hle⟩ := date
  have hmonths := Day.month_le ⟨year, month, day, hmonth, hday, hle⟩
  dsimp only at hmonths
  obtain ⟨month, rfl⟩ : ∃ m, month = m + 1 := ⟨month - 1, by omega⟩
  rw [Day.next]
  dsimp only
  split
  · rw [number_eq, number_eq]
    omega
  · next hend =>
    rw [Nat.add_sub_cancel] at hle hend
    split
    · next hlt =>
      rw [number_eq, number_eq, Nat.add_sub_cancel, Nat.add_sub_cancel, sum_take_succ _ (by omega)]
      omega
    · next hlast =>
      obtain rfl : month = 11 := by omega
      have hyear : ((monthLengths year).take 11).sum + (monthLengths year).getD 11 0 =
          if isLeapYear year then 366 else 365 := by
        rw [← sum_take_succ year (by omega), List.take_of_length_le (by rw [length_monthLengths]), sum_monthLengths]
      rw [number_eq, number_eq, daysBefore_succ]
      simp only [Nat.sub_self, List.take_zero, List.sum_nil, Nat.add_sub_cancel]
      split at hyear
      · next hleap =>
        rw [if_pos hleap]
        omega
      · next hleap =>
        rw [if_neg hleap]
        omega

theorem Day.number_prev (date : Day) : date.prev.number = date.number - 1 := by
  obtain ⟨year, month, day, hmonth, hday, hle⟩ := date
  have hmonths := Day.month_le ⟨year, month, day, hmonth, hday, hle⟩
  dsimp only at hmonths
  obtain ⟨month, rfl⟩ : ∃ m, month = m + 1 := ⟨month - 1, by omega⟩
  rw [Day.prev]
  dsimp only
  split
  · rw [number_eq, number_eq]
    omega
  · split
    · next hgt =>
      obtain ⟨month, rfl⟩ : ∃ m, month = m + 1 := ⟨month - 1, by omega⟩
      have hindex : month + 1 + 1 - 1 - 1 = month := by omega
      have hlast : month + 1 + 1 - 2 = month := by omega
      rw [number_eq, number_eq, hindex, hlast, Nat.add_sub_cancel, sum_take_succ _ (by omega)]
      omega
    · -- the last day of the year before
      obtain rfl : month = 0 := by omega
      have hyear : ((monthLengths (year - 1)).take (12 - 1)).sum + 31 = if isLeapYear (year - 1) then 366 else 365 := by
        unfold monthLengths
        split
        · rfl
        · rfl
      have hbefore := daysBefore_succ (year - 1)
      rw [sub_add_cancel] at hbefore
      rw [number_eq, number_eq, hbefore]
      simp only [Nat.sub_self, List.take_zero, List.sum_nil, Nat.zero_add]
      split at hyear
      · next hleap =>
        rw [if_pos hleap]
        omega
      · next hleap =>
        rw [if_neg hleap]
        omega

/-- The day of a number, reached day by day from the last one of the year 0. -/
def Day.ofNumber : ℤ → Day
  | .ofNat n => Day.next^[n] ⟨0, 12, 31, by decide, by decide, by decide⟩
  | .negSucc n => Day.prev^[n + 1] ⟨0, 12, 31, by decide, by decide, by decide⟩

theorem Day.number_ofNumber (n : ℤ) : (Day.ofNumber n).number = n := by
  have hnext (date : Day) (n : ℕ) : (Day.next^[n] date).number = date.number + n := by
    induction n with
    | zero => exact (add_zero _).symm
    | succ n ih =>
      rw [Function.iterate_succ_apply', Day.number_next, ih]
      omega
  have hprev (date : Day) (n : ℕ) : (Day.prev^[n] date).number = date.number - n := by
    induction n with
    | zero => exact (sub_zero _).symm
    | succ n ih =>
      rw [Function.iterate_succ_apply', Day.number_prev, ih]
      omega
  have hbase : (Day.mk 0 12 31 (by decide) (by decide) (by decide)).number = 0 := by decide
  cases n with
  | ofNat n =>
    rw [Day.ofNumber, hnext, hbase]
    exact zero_add _
  | negSucc n =>
    rw [Day.ofNumber, hprev, hbase]
    omega

/-! ## Weeks -/

theorem mondayOf_le {year other : ℤ} (h : year ≤ other) : mondayOf year ≤ mondayOf other := by
  cases h.eq_or_lt with
  | inl heq => rw [heq]
  | inr hlt =>
    have hyear := daysBefore_lt hlt
    unfold mondayOf
    omega

/-- A year whose ISO weeks are 52. -/
def Short (year : ℤ) : Prop := mondayOf (year + 1) = mondayOf year + 364

/-- A library with the whole Gregorian calendar. -/
def deskChrono : Chrono where
  weekday date := (date.number % 7).toNat
  isoWeek := isoWeekOf
  isoYear := isoYearOf
  isoMonday year week :=
    if 1 ≤ week ∧ mondayOf year + 7 * (week - 1) < mondayOf (year + 1) then some (Day.ofNumber (mondayOf year + 7 * (week - 1)))
    else none
  parseFromStr _ := none

theorem deskChrono_gregorian : deskChrono.Gregorian where
  weekday _ := rfl
  isoWeek _ := rfl
  isoYear _ := rfl
  isoMonday year week monday := by
    have hnumber := Day.number_ofNumber (mondayOf year + 7 * (week - 1))
    simp only [deskChrono]
    constructor
    · intro hsome
      split at hsome
      · next h =>
        cases hsome
        exact ⟨h.1, hnumber, hnumber.symm ▸ h.2⟩
      · cases hsome
    · intro h
      rw [if_pos ⟨h.1, h.2.1 ▸ h.2.2⟩]
      exact congrArg some (Day.number_injective (hnumber.trans h.2.1.symm))

end Thock.SyncCore
