import Thock.Desk.DailyTemplate
import Thock.Lib.Backtrack
import Thock.ThockKit.Reminder

/-!
# How the two ends date notes

Names and first texts of notes as the desk and the phone make them, and the day either end reads off a name.

The phone's calendar is that of its system, which before the reform of 1582 is another one, and the phone takes the
fifty-third week of every year for one. Elsewhere the two ends write alike, and judge every reading of a name alike.
-/

namespace Thock.Sync

open TextScan SyncCore ThockKit Desk

/-! ## What the phone's system promises -/

/-- Printable characters of ASCII and line feeds. -/
def Printable (t : Text) : Prop := ∀ c ∈ t, c = '\n' ∨ ' ' ≤ c ∧ c ≤ '~'

instance (t : Text) : Decidable (Printable t) := inferInstanceAs (Decidable (∀ c ∈ t, _))

/-- From the first ISO week that begins after the reform of the calendar. -/
def Reformed (date : Day) : Prop := mondayOf 1583 ≤ date.number

instance (date : Day) : Decidable (Reformed date) := inferInstanceAs (Decidable (_ ≤ _))

/-- The characters and the equality of such texts, and the calendar from the reform on. -/
structure FoundationGregorian (foundation : Foundation) : Prop where
  characters : ∀ t, Printable t → foundation.characters t = t.map fun c => [c]
  sameText : ∀ a b, Printable a → Printable b → (foundation.sameText a b = true ↔ a = b)
  weekday : ∀ date, Reformed date → foundation.weekday date = (date.number % 7).toNat + 1
  isoWeek : ∀ date, Reformed date → foundation.isoWeek date = isoWeekOf date
  isoWeekYear : ∀ date, Reformed date → foundation.isoWeekYear date = isoYearOf date
  adding : ∀ (date other : Day) (n : ℤ), Reformed date → Reformed other → other.number = date.number + n →
    foundation.adding date n = other

/-- A format without weekdays and ISO weeks. -/
def Uncounted (format : Text) : Prop :=
  ∀ token ∈ formatTokens format, ∀ c ∈ ['d', 'W', 'G'], token.isRunOf c = false

instance (format : Text) : Decidable (Uncounted format) := inferInstanceAs (Decidable (∀ token ∈ _, _))

/-! ## Writing a day -/

theorem validDay_eq (year : ℤ) (month day : ℕ) : DateFormat.validDay year month day = Day.ofYmd year month day := by
  unfold DateFormat.validDay Day.ofYmd
  by_cases h : 1 ≤ month ∧ 1 ≤ day ∧ day ≤ (monthLengths year).getD (month - 1) 0
  · have hmonth : month ≤ 12 := by
      by_contra hlong
      have hnone : (monthLengths year).getD (month - 1) 0 = 0 := by
        rw [List.getD_eq_getElem?_getD, List.getElem?_eq_none (by simp [monthLengths]; omega)]
        rfl
      omega
    rw [dif_pos h, dif_pos ⟨⟨h.1, hmonth⟩, h.2.1⟩, dif_pos h.2.2]
  · rw [dif_neg h]
    split
    · rename_i hrange
      rw [dif_neg fun hday => h ⟨hrange.1.1, hrange.2, hday⟩]
    · rfl

/-- The years both ends write in the same characters. -/
def WrittenAlike (year : ℤ) : Prop := (0 ≤ year ∧ year ≤ 9999) ∨ year ≤ -1000

/-- A number of four digits needs no filling up to four. -/
theorem padded_of_le {n : ℕ} (h : 1000 ≤ n) : padded 4 n = padded 3 n := by
  have hdigits : ¬(decimal n).length ≤ 3 := by
    unfold decimal
    rw [Nat.length_toDigits_le_iff (by omega) (by omega)]
    omega
  unfold padded
  rw [Nat.sub_eq_zero_of_le (by omega), Nat.sub_eq_zero_of_le (by omega)]

theorem yearText_of_writtenAlike {year : ℤ} (h : WrittenAlike year) : paddedInt 4 year = Reminder.yearText year := by
  unfold Reminder.yearText paddedInt
  rcases h with h | h
  · have hpos : ¬year < 0 := by omega
    rw [if_pos h, if_neg hpos]
  · have hneg : year < 0 := by omega
    have hout : ¬(0 ≤ year ∧ year ≤ 9999) := by omega
    have hlong : 1000 ≤ year.natAbs := by omega
    rw [if_neg hout, if_pos hneg, if_pos hneg, padded_of_le hlong]

theorem dateText_of_writtenAlike {date : Day} (h : WrittenAlike date.year) : VaultDay.iso date = Reminder.dateText date := by
  unfold VaultDay.iso Reminder.dateText
  rw [yearText_of_writtenAlike h]

section Writing

variable {foundation : Foundation} {chrono : Chrono} (hphone : FoundationGregorian foundation) (hdesk : chrono.Gregorian)

include hphone hdesk

end Writing

/-! ## Reading a day -/

/-- What a number of one of some widths at the start of a text may be read as. -/
def numberWays (widths : List ℕ) (s : Text × DateFields) (set : ℕ → DateFields) : List (Text × DateFields) :=
  widths.filterMap fun width => (takeDigits s.1 width).map fun r => (r.2, set r.1)

def namedWays (names : List Text) (s : Text × DateFields) (set : ℕ → DateFields) : List (Text × DateFields) :=
  names.zipIdx.filterMap fun (name, index) => (stripPrefix name s.1).map fun rest => (rest, set index)

/-- The ways to read a token off the start of a text, each with what is left and the fields read so far. -/
def ways (token : FormatToken) (s : Text × DateFields) : List (Text × DateFields) :=
  match token with
  | .literal c => ((stripPrefix [c] s.1).map fun rest => (rest, s.2)).toList
  | .run 'Y' 2 => numberWays [2] s fun value => { s.2 with year := some (2000 + value) }
  | .run 'Y' _ => numberWays [4] s fun value => { s.2 with year := some value }
  | .run 'M' 1 => numberWays [2, 1] s fun value => { s.2 with month := some value }
  | .run 'M' 2 => numberWays [2] s fun value => { s.2 with month := some value }
  | .run 'M' run => namedWays (monthNames.map fun name => if run = 3 then name.take 3 else name) s fun index =>
      { s.2 with month := some (index + 1) }
  | .run 'D' 1 => numberWays [2, 1] s fun value => { s.2 with day := some value }
  | .run 'D' _ => numberWays [2] s fun value => { s.2 with day := some value }
  | .run 'd' 1 => numberWays [1] s fun _ => s.2
  | .run 'd' run => namedWays (weekdayNames.map fun name => if run = 2 then name.take 2 else if run = 3 then name.take 3 else name) s
      fun _ => s.2
  | .run 'W' 1 => numberWays [2, 1] s fun value => { s.2 with week := some value }
  | .run 'W' _ => numberWays [2] s fun value => { s.2 with week := some value }
  | .run 'G' 2 => numberWays [2] s fun value => { s.2 with isoYear := some (2000 + value) }
  | .run 'G' _ => numberWays [4] s fun value => { s.2 with isoYear := some value }
  | .run _ _ => []

/-- The desk's judgement of a reading: a day that is written back the same. -/
def judge (chrono : Chrono) (format full : Text) (s : Text × DateFields) : Option Day :=
  if !s.1.isEmpty then none
  else (s.2.resolve chrono).bind fun date => if formatDate chrono date format = full then some date else none

/-- The phone's. -/
def phoneJudge (foundation : Foundation) (format text : Text) (s : Text × DateFields) : Option Day :=
  if !s.1.isEmpty then none
  else (DateFormat.resolve foundation s.2).bind fun day =>
    if foundation.sameText (VaultDay.formatted foundation day format) text then some day else none

section Reading

variable {α β : Type*}

end Reading

theorem findSome?_widths (f : ℕ → Option Day) : [2, 1].findSome? f = (f 2).or (f 1) := by
  rw [List.findSome?_cons, List.findSome?_singleton]
  cases f 2 <;> rfl

/-! ## Judging a reading -/

theorem printable_of_isDigit {c : Char} (h : c.isDigit = true) : c = '\n' ∨ ' ' ≤ c ∧ c ≤ '~' := by
  have hrange : 48 ≤ c.toNat ∧ c.toNat ≤ 57 := by
    simp only [Char.isDigit, Bool.and_eq_true, decide_eq_true_eq] at h
    exact ⟨h.1, h.2⟩
  refine Or.inr ⟨?_, ?_⟩
  · exact Nat.le_trans (by decide) hrange.1
  · exact Nat.le_trans hrange.2 (by decide)

theorem printable_append {a b : Text} (ha : Printable a) (hb : Printable b) : Printable (a ++ b) := fun c hc =>
  (List.mem_append.mp hc).elim (ha c) (hb c)

theorem printable_emitDateToken (chrono : Chrono) (date : Day) (token : Char) (run : ℕ) :
    Printable (emitDateToken chrono date token run) := by
  have hdecimal (n : ℕ) : Printable (decimal n) := fun c hc => printable_of_isDigit (isDigit_of_mem_decimal hc)
  have hpadded (width n : ℕ) : Printable (padded width n) := fun c hc => printable_of_isDigit (isDigit_of_mem_padded hc)
  have hint (width : ℕ) (n : ℤ) : Printable (paddedInt width n) := by
    unfold paddedInt
    split
    · exact printable_append (a := ['-']) (by decide) (hpadded _ _)
    · exact hpadded _ _
  have hname (names : List Text) (hnames : ∀ name ∈ names, Printable name) (i : ℕ) : Printable (names.getD i []) := by
    rw [List.getD_eq_getElem?_getD]
    cases hget : names[i]? with
    | none => exact fun c hc => absurd hc List.not_mem_nil
    | some name => exact hnames name (List.mem_of_getElem? hget)
  have hmonth : Printable (monthName date) := hname monthNames (by decide) _
  have hweekday : Printable (weekdayName chrono date) := hname weekdayNames (by decide) _
  have htake (t : Text) (n : ℕ) (ht : Printable t) : Printable (t.take n) := fun c hc => ht c (List.mem_of_mem_take hc)
  unfold emitDateToken
  split
  all_goals
    first
    | exact hint _ _
    | exact hdecimal _
    | exact hpadded _ _
    | exact htake _ _ hmonth
    | exact htake _ _ hweekday
    | exact hmonth
    | exact hweekday

theorem printable_formatDate (chrono : Chrono) (date : Day) {format : Text} (h : Printable format) :
    Printable (formatDate chrono date format) := by
  rw [formatDate]
  generalize format.length = fuel
  induction fuel generalizing format with
  | zero => exact fun c hc => absurd hc List.not_mem_nil
  | succ fuel ih =>
    cases format with
    | nil => exact fun c hc => absurd hc List.not_mem_nil
    | cons c rest =>
      have hrest : Printable rest := fun d hd => h d (List.mem_cons_of_mem c hd)
      have hdrop (p : Char → Bool) : Printable (rest.dropWhile p) := fun d hd => hrest d ((List.dropWhile_suffix p).mem hd)
      rw [formatDateFrom]
      split
      · refine printable_append (fun d hd => hrest d ((List.takeWhile_prefix _).mem hd)) (ih fun d hd => ?_)
        exact hdrop _ d (List.mem_of_mem_tail hd)
      · split
        · exact printable_append (printable_emitDateToken _ _ _ _) (ih (hdrop _))
        · exact printable_append (a := [c]) (fun d hd => h d (List.mem_singleton.mp hd ▸ List.mem_cons_self)) (ih hrest)

/-- Every reading of a text through a format. -/
def Reads (format text : Text) (fields : DateFields) : Prop :=
  Backtrack.Reaches ways (formatTokens format) (text, .empty) ([], fields)

/-- A reading that names a day since the reform of the calendar, or without weekdays and ISO weeks any day, and no week
53 that its year lacks where the text is the first Monday of the next. -/
structure Alike (chrono : Chrono) (format text : Text) (fields : DateFields) : Prop where
  reformed : ∀ date, fields.resolve chrono = some date → Reformed date ∨ Uncounted format
  weeks : ∀ isoYear, ¬(fields.year.isSome ∧ fields.month.isSome ∧ fields.day.isSome) → fields.isoYear = some isoYear →
    fields.week = some 53 → Short isoYear →
    1583 ≤ isoYear ∧ ∀ monday : Day, monday.number = mondayOf (isoYear + 1) → formatDate chrono monday format ≠ text

section Judging

variable {foundation : Foundation} {chrono : Chrono} (hphone : FoundationGregorian foundation) (hdesk : chrono.Gregorian)

theorem reformed_fourth {year : ℤ} (h : 1583 ≤ year) : Reformed (Day.fourth year) := by
  have hyear := mondayOf_le h
  rw [Reformed, Day.fourth, number_eq]
  simp only [Nat.sub_self, List.take_zero, List.sum_nil]
  have hmonday : mondayOf year ≤ daysBefore year + 4 := by
    unfold mondayOf
    omega
  omega

include hphone in
/-- From the reform on the phone's weeks begin where they should. -/
theorem isoWeekMonday_eq {year : ℤ} {week : ℕ} {monday : Day} (hyear : 1583 ≤ year) (hweek : 1 ≤ week)
    (hmonday : monday.number = mondayOf year + 7 * (week - 1)) : VaultDay.isoWeekMonday foundation year week = monday := by
  have hfourth := reformed_fourth hyear
  have hreformed : Reformed monday := by
    have hle := mondayOf_le hyear
    rw [Reformed, hmonday]
    omega
  rw [VaultDay.isoWeekMonday]
  refine hphone.adding _ _ _ hfourth hreformed ?_
  rw [hphone.weekday _ hfourth, hmonday, Day.fourth, number_eq, mondayOf]
  simp only [Nat.sub_self, List.take_zero, List.sum_nil]
  omega

include hphone in
theorem sameText_eq {date : Day} {format text : Text} (hformat : Printable format) (htext : Printable text)
    (hsame : VaultDay.formatted foundation date format = formatDate chrono date format) :
    (if foundation.sameText (VaultDay.formatted foundation date format) text then some date else none) =
      if formatDate chrono date format = text then some date else none := by
  have hwritten := hphone.sameText _ text (printable_formatDate chrono date hformat) htext
  rw [hsame]
  by_cases h : formatDate chrono date format = text
  · rw [if_pos (hwritten.mpr h), if_pos h]
  · rw [if_neg (mt hwritten.mp h), if_neg h]

include hphone hdesk

end Judging

/-! ## The first text of a note -/

section FirstText

variable {foundation : Foundation} {chrono : Chrono} (hphone : FoundationGregorian foundation) (hdesk : chrono.Gregorian)

include hphone hdesk

end FirstText

/-! ## Both ends -/

/-- The days on which weekdays are counted: before 15 October 1582 those of the Julian calendar. -/
def weekdayNumber (date : Day) : ℤ :=
  if ((Day.ofYmd 1582 10 15).get (by decide)).number ≤ date.number then date.number
  else 365 * (date.year - 1) + (date.year - 1) / 4 + date.ofYear - 2 +
    if date.year % 4 = 0 ∧ !isLeapYear date.year ∧ 2 < date.month then 1 else 0

/-- A system with the calendar of its time. -/
def systemFoundation : Foundation where
  characters t := t.map fun c => [c]
  sameText a b := a = b
  weekday date := (weekdayNumber date % 7).toNat + 1
  isoWeek := isoWeekOf
  isoWeekYear := isoYearOf
  adding date n := Day.ofNumber (date.number + n)

end Thock.Sync
