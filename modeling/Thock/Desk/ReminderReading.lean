import Mathlib.Data.List.Destutter
import Mathlib.Data.List.Sort
import Mathlib.Data.List.SplitBy
import Mathlib.Data.Prod.Lex
import Mathlib.Tactic.IntervalCases
import Thock.SyncCore.DayNumbers

/-!
# Typed reminder times

What the words typed behind an opened reminder could mean: phrases for a day and for a time are taken from the left, and
what they leave open is the soonest moment to come.

The twenty-ninth of February is looked for in this year and the next, and is lost where neither has one left.
-/

namespace Thock.Desk

open TextScan SyncCore SyncCore.Reminder

/-! ## The calendar of the desk's date library -/

/-- A day the library can hold. -/
def DayHeld (date : Day) : Prop := -262143 ≤ date.year ∧ date.year ≤ 262142

instance (date : Day) : Decidable (DayHeld date) := inferInstanceAs (Decidable (_ ∧ _))

def checkedAddDays (date : Day) (days : ℕ) : Option Day :=
  let sum := Day.ofNumber (date.number + days)
  if DayHeld sum then some sum else none

def fromYmdOpt (year : ℤ) (month day : ℕ) : Option Day :=
  (Day.ofYmd year month day).filter fun date => DayHeld date

/-- A local moment. -/
structure NaiveDateTime where
  date : Day
  time : ClockTime
  second : ℕ
  nanosecond : ℕ
deriving DecidableEq, Repr

def minutesOf (time : ClockTime) : ℕ := 60 * time.hour + time.minute

/-- The moment cut to the minute. -/
def NaiveDateTime.cut (now : NaiveDateTime) : NaiveDateTime := { now with second := 0, nanosecond := 0 }

def checkedAddMinutes (now : NaiveDateTime) (minutes : ℕ) : Option NaiveDateTime :=
  let total := minutesOf now.time + minutes
  (checkedAddDays now.date (total / 1440)).bind fun date =>
    (ClockTime.ofHm (total % 1440 / 60) (total % 60)).map fun time => { now with date, time }

/-! ## Words -/

structure Word where
  text : Text
  lower : Text
deriving DecidableEq, Repr

def isSeparator (c : Char) : Bool := isWhitespace c || c = ','

def isClockChar (c : Char) : Bool := c.isDigit || c = ':'

/-- White space and commas part words, and so does a step from digits to other characters; a chunk with a dash stays whole. -/
def tokenize (prim : Primitives) (query : Text) : List Word :=
  let chunks := (query.splitOnP isSeparator).filter fun chunk => !chunk.isEmpty
  (chunks.flatMap fun chunk =>
    if '-' ∈ chunk then [chunk] else chunk.splitBy fun a b => isClockChar a == isClockChar b).map
    fun text => ⟨text, prim.lowercase text⟩

def isFiller (word : Text) : Bool := word = "at".toList || word = "on".toList

/-- A number of 32 bits, as the standard library reads one. -/
def parseU32 (text : Text) : Option ℕ :=
  let digits := (stripPrefix ['+'] text).getD text
  if digits ≠ [] ∧ digits.all Char.isDigit ∧ numberOf digits < 2 ^ 32 then some (numberOf digits) else none

def weekdayWords : List (List Text) :=
  [["mon", "monday"], ["tue", "tues", "tuesday"], ["wed", "weds", "wednesday"], ["thu", "thur", "thurs", "thursday"],
    ["fri", "friday"], ["sat", "saturday"], ["sun", "sunday"]].map fun names => names.map String.toList

def monthWords : List (List Text) :=
  [["jan", "january"], ["feb", "february"], ["mar", "march"], ["apr", "april"], ["may"], ["jun", "june"], ["jul", "july"],
    ["aug", "august"], ["sep", "sept", "september"], ["oct", "october"], ["nov", "november"], ["dec", "december"]].map
    fun names => names.map String.toList

/-- A weekday counted from Monday. -/
def parseWeekday (word : Text) : Option ℕ := weekdayWords.findIdx? fun names => names.contains word

def parseMonth (word : Text) : Option ℕ := (monthWords.findIdx? fun names => names.contains word).map (· + 1)

def parseDay (word : Text) : Option ℕ :=
  if word.length > 2 then none else (parseU32 word).filter fun day => 1 ≤ day && day ≤ 31

/-- `10`, `9:30` or `14:05`, or the compact `930` and `1430`. -/
def parseClock (word : Text) : Option (ℕ × ℕ) :=
  let read : Option (Text × ℕ) :=
    match splitFirst [':'] word with
    | some (hour, minute) => if minute.length = 2 then (parseU32 minute).map fun minute => (hour, minute) else none
    | none =>
      if word.length > 2 ∧ word.all Char.isDigit then
        (parseU32 (word.drop (word.length - 2))).map fun minute => (word.take (word.length - 2), minute)
      else some (word, 0)
  read.bind fun (hour, minute) =>
    if hour.isEmpty ∨ hour.length > 2 then none
    else (parseU32 hour).bind fun hour => if hour < 24 ∧ minute < 60 then some (hour, minute) else none

/-! ## Phrases -/

/-- What the words so far say. -/
structure Parsed where
  date : Option Day
  times : List ClockTime
  /-- An amount of time from now fixes both. -/
  exact : Bool
deriving DecidableEq, Repr

def Parsed.default : Parsed := ⟨none, [], false⟩

/-- How reading one kind of phrase went: it took some words, it was there but names nothing the calendar has, or it is
not there. -/
inductive Attempt
  | took (count : ℕ) (parsed : Parsed)
  | refused
  | absent
deriving DecidableEq, Repr

/-- The next kind of phrase is tried where one is not there. -/
def Attempt.orElse (a b : Attempt) : Attempt :=
  match a with
  | .absent => b
  | a => a

def Attempt.ofDate (parsed : Parsed) (count : ℕ) (date : Option Day) : Attempt :=
  date.elim .refused fun date => .took count { parsed with date := some date }

section Phrases

variable (chrono : Chrono)

/-- The first such weekday after today. -/
def nextWeekday (today : Day) (weekday : ℕ) : Option Day :=
  let ahead := (weekday + 7 - (chrono.weekday today + 6) % 7) % 7
  checkedAddDays today (if ahead = 0 then 7 else ahead)

/-- This year's day of a month, or next year's once this year's has gone by. -/
def monthDay (today : Day) (month day : ℕ) : Option Day :=
  match fromYmdOpt today.year month day with
  | some date => if today.number ≤ date.number then some date else fromYmdOpt (today.year + 1) month day
  | none => fromYmdOpt (today.year + 1) month day

/-- A day in one word. -/
def readDay (today : Day) (parsed : Parsed) (word : Text) : Attempt :=
  if ["today".toList, "tod".toList].contains word then .ofDate parsed 1 (some today)
  else if ["tomorrow".toList, "tom".toList, "tmr".toList, "tmrw".toList].contains word then
    .ofDate parsed 1 (checkedAddDays today 1)
  else match parseWeekday word with
    | some weekday => .ofDate parsed 1 (nextWeekday chrono today weekday)
    | none => (chrono.parseFromStr word).elim .absent fun date => .ofDate parsed 1 (some date)

/-- The coming week, or a day of it. -/
def readNext (today : Day) (parsed : Parsed) (word : Text) (next : Option Text) : Attempt :=
  if word ≠ "next".toList then .absent
  else match nextWeekday chrono today 0 with
    | none => .refused
    | some monday => next.elim .absent fun next =>
      if next = "week".toList then .ofDate parsed 2 (some monday)
      else (parseWeekday next).elim .absent fun weekday => .ofDate parsed 2 (checkedAddDays monday weekday)

/-- A month and a day of it, either first. -/
def readMonthDay (today : Day) (parsed : Parsed) (month day : Option ℕ) : Attempt :=
  match month, day with
  | some month, some day => .ofDate parsed 2 (monthDay today month day)
  | _, _ => .absent

def minutesOfUnit (unit : Text) (amount : ℕ) : Option ℕ :=
  if (["m", "min", "mins", "minute", "minutes"].map String.toList).contains unit then some amount
  else if (["h", "hr", "hrs", "hour", "hours"].map String.toList).contains unit then some (60 * amount)
  else none

def daysOfUnit (unit : Text) (amount : ℕ) : Option ℕ :=
  if (["d", "day", "days"].map String.toList).contains unit then some amount
  else if (["w", "wk", "wks", "week", "weeks"].map String.toList).contains unit then some (7 * amount)
  else none

/-- An amount of time or of days from now. -/
def readIn (now : NaiveDateTime) (parsed : Parsed) (canTime : Bool) (word : Text) (next third : Option Text) : Attempt :=
  if word ≠ "in".toList then .absent
  else match next.bind parseU32, third with
    | some amount, some unit =>
      match if canTime then minutesOfUnit unit amount else none with
      | some minutes => (checkedAddMinutes now minutes).elim .refused fun moment =>
          .took 3 ⟨some moment.date, [moment.time], true⟩
      | none => (daysOfUnit unit amount).elim .absent fun days => .ofDate parsed 3 (checkedAddDays now.date days)
    | _, _ => .absent

def namedHour (word : Text) : Option ℕ :=
  ([("morning", 9), ("noon", 12), ("afternoon", 15), ("evening", 18), ("tonight", 20)].find? fun r =>
    r.1.toList = word).map Prod.snd

def meridiem (word : Text) : Option Bool :=
  if word = "am".toList ∨ word = "a.m.".toList then some false
  else if word = "pm".toList ∨ word = "p.m.".toList then some true
  else none

/-- A time by its name or on the clock; a bare hour could be either side of noon. -/
def readTime (parsed : Parsed) (word : Text) (next : Option Text) : Attempt :=
  let took (count : ℕ) (times : Option (List ClockTime)) : Attempt :=
    times.elim .refused fun times => .took count { parsed with times }
  match namedHour word with
  | some hour => took 1 ((ClockTime.ofHm hour 0).map fun time => [time])
  | none => (parseClock word).elim .refused fun (hour, minute) =>
    match next.bind meridiem with
    | some pm =>
      if ¬(1 ≤ hour ∧ hour ≤ 12) then .refused
      else took 2 ((ClockTime.ofHm (hour % 12 + if pm then 12 else 0) minute).map fun time => [time])
    | none => took 1 ((ClockTime.ofHm hour minute).bind fun time =>
        if word.length ≤ 2 ∧ 1 ≤ hour ∧ hour ≤ 12 then (ClockTime.ofHm ((hour + 12) % 24) 0).map fun other => [time, other]
        else some [time])

/-- Read a phrase at the start of some words. -/
def parseAt (now : NaiveDateTime) (parsed : Parsed) (word : Text) (next third : Option Text) : Attempt :=
  let canDate := parsed.date.isNone && !parsed.exact
  let canTime := parsed.times.isEmpty && !parsed.exact
  let dated := if canDate then
      (((readDay chrono now.date parsed word).orElse (readNext chrono now.date parsed word next)).orElse
        ((readMonthDay now.date parsed (parseMonth word) (next.bind parseDay)).orElse
          (readMonthDay now.date parsed (next.bind parseMonth) (parseDay word)))).orElse
        (readIn now parsed canTime word next third)
    else .absent
  dated.orElse (if canTime then readTime parsed word next else .absent)

/-- The phrase at the start of some words. -/
def parseWords (now : NaiveDateTime) (parsed : Parsed) (word : Word) (rest : List Word) : Attempt :=
  parseAt chrono now parsed word.lower (rest.head?.map Word.lower) (rest[1]?.map Word.lower)

/-- The loop over the words, with what is ignored so far. -/
def readFrom (now : NaiveDateTime) : ℕ → List Word → Parsed → List Text → Parsed × List Text
  | 0, _, parsed, ignored => (parsed, ignored)
  | _, [], parsed, ignored => (parsed, ignored)
  | fuel + 1, word :: rest, parsed, ignored =>
    match parseWords chrono now parsed word rest with
    | .took count parsed => readFrom now fuel ((word :: rest).drop count) parsed ignored
    | _ => readFrom now fuel rest parsed (if isFiller word.lower then ignored else ignored ++ [word.text])

end Phrases

/-! ## Readings -/

structure Reading where
  date : Day
  time : Option ClockTime
  alreadyPast : Bool
deriving DecidableEq, Repr

/-- By date, a day alone before its times. -/
def Reading.key (reading : Reading) : ℤ ×ₗ ℕ :=
  toLex (reading.date.number, reading.time.elim 0 fun time => minutesOf time + 1)

structure Readings where
  readings : List Reading
  ignored : List Text
deriving DecidableEq, Repr

/-- One time on the day named, or today; a time gone by today is tomorrow's. -/
def readingAt (date : Option Day) (now : NaiveDateTime) (time : ClockTime) : Option Reading :=
  let day := date.getD now.date
  let pastToday := decide (day = now.date ∧ minutesOf time ≤ minutesOf now.time)
  (if pastToday then checkedAddDays day 1 else some day).map fun moved =>
    ⟨moved, some time, date.isSome && (pastToday || decide (day.number < now.date.number))⟩

def resolve (parsed : Parsed) (now : NaiveDateTime) : List Reading :=
  let readings : List Reading := match parsed.date, parsed.times with
    | none, [] => []
    | some date, [] => [⟨date, none, decide (date.number < now.date.number)⟩]
    | date, times => times.filterMap (readingAt date now)
  (readings.insertionSort fun a b => a.key ≤ b.key).destutter fun a b => a.key ≠ b.key

def read (prim : Primitives) (chrono : Chrono) (query : Text) (now : NaiveDateTime) : Readings :=
  let now := now.cut
  let words := tokenize prim query
  let (parsed, ignored) := readFrom chrono now words.length words .default []
  ⟨resolve parsed now, ignored⟩

/-! ## The calendar -/

section Calendar

variable {today date : Day}

theorem number_of_checkedAddDays {days : ℕ} (h : checkedAddDays today days = some date) : date.number = today.number + days := by
  simp only [checkedAddDays] at h
  split at h
  · cases h
    exact Day.number_ofNumber _
  · cases h

theorem checkedAddDays_eq {days : ℕ} (hheld : DayHeld date) (h : date.number = today.number + days) :
    checkedAddDays today days = some date := by
  have hsum : Day.ofNumber (today.number + days) = date := Day.number_injective ((Day.number_ofNumber _).trans h.symm)
  rw [checkedAddDays, hsum, if_pos hheld]

/-- A day with the whole next year before the library's last day. -/
def Far (today : Day) : Prop := -262143 ≤ today.year ∧ today.year + 1 ≤ 262142

instance (today : Day) : Decidable (Far today) := inferInstanceAs (Decidable (_ ∧ _))

theorem held_of_week {days : ℕ} (hfar : Far today) (hdays : days ≤ 7)
    (h : date.number = today.number + days) : DayHeld date := by
  have hbounds := today.number_bounds
  have hbounds' := date.number_bounds
  have hbefore : today.year ≤ date.year := by
    by_contra hlt
    have hyear := daysBefore_lt (show date.year < today.year by omega)
    have hnumber := Day.number_lt_of_year (show date.year < today.year by omega)
    omega
  have hafter : date.year ≤ today.year + 1 := by
    by_contra hlt
    have hyear := daysBefore_lt (show today.year + 1 < date.year by omega)
    omega
  exact ⟨hfar.1.trans hbefore, hafter.trans hfar.2⟩

theorem checkedAddDays_week {days : ℕ} (hfar : Far today) (hdays : days ≤ 7) :
    ∃ date, checkedAddDays today days = some date ∧ date.number = today.number + days := by
  have hnumber := Day.number_ofNumber (today.number + days)
  exact ⟨_, checkedAddDays_eq (held_of_week hfar hdays hnumber) hnumber, hnumber⟩

theorem le_of_nextWeekday {chrono : Chrono} {weekday : ℕ} (h : nextWeekday chrono today weekday = some date) :
    today.number ≤ date.number := by
  have hnumber := number_of_checkedAddDays h
  omega

theorem nextWeekday_first {chrono : Chrono} (hdesk : chrono.Gregorian) {weekday : ℕ} (hweekday : weekday < 7)
    (hfar : Far today) :
    ∃ date, nextWeekday chrono today weekday = some date ∧ today.number < date.number ∧
      (chrono.weekday date + 6) % 7 = weekday ∧
      ∀ other, (chrono.weekday other + 6) % 7 = weekday → today.number < other.number → date.number ≤ other.number := by
  have hday := hdesk.weekday
  rw [nextWeekday]
  generalize hahead : (if (weekday + 7 - (chrono.weekday today + 6) % 7) % 7 = 0 then 7
    else (weekday + 7 - (chrono.weekday today + 6) % 7) % 7) = ahead
  rw [hday] at hahead
  have hle : 1 ≤ ahead ∧ ahead ≤ 7 := by
    split at hahead <;> omega
  obtain ⟨date, hdate, hnumber⟩ := checkedAddDays_week hfar hle.2
  refine ⟨date, hdate, by omega, ?_, fun other hother hafter => ?_⟩
  · rw [hday, hnumber]
    split at hahead <;> omega
  · rw [hday] at hother
    split at hahead <;> omega

theorem ofYmd_eq {year : ℤ} {month day : ℕ} (h : Day.ofYmd year month day = some date) :
    date.year = year ∧ date.month = month ∧ date.day = day := by
  simp only [Day.ofYmd] at h
  split at h
  · cases h
    exact ⟨rfl, rfl, rfl⟩
  · cases h

theorem ofYmd_self (date : Day) : Day.ofYmd date.year date.month date.day = some date :=
  dif_pos ⟨date.month_pos, date.day_pos, date.day_le⟩

/-- A day that one year has and another lacks is the leap day. -/
theorem leap_of_ofYmd_none (date : Day) {year : ℤ} (h : Day.ofYmd year date.month date.day = none) :
    date.month = 2 ∧ date.day = 29 ∧ isLeapYear year = false := by
  have hlength : ¬date.day ≤ (monthLengths year).getD (date.month - 1) 0 := by
    intro hle
    rw [Day.ofYmd, dif_pos ⟨date.month_pos, date.day_pos, hle⟩] at h
    cases h
  have hle := date.day_le
  have hmonth := date.month_le
  have hpos := date.month_pos
  have htwo : date.month = 2 := by
    by_contra hne
    have hsame : ∀ i < 12, i ≠ 1 → (monthLengths year).getD i 0 = (monthLengths date.year).getD i 0 := by
      intro i hi hne
      interval_cases i <;> first | rfl | exact absurd rfl hne
    have heq := hsame (date.month - 1) (by omega) (by omega)
    rw [heq] at hlength
    exact hlength hle
  rw [htwo] at hlength hle
  simp only [monthLengths, Nat.add_one_sub_one, List.getD_cons_succ, List.getD_cons_zero] at hlength hle
  split at hlength <;> split at hle <;> simp_all <;> omega

theorem ofYmd_leap_none {year : ℤ} (h : isLeapYear year = false) : Day.ofYmd year 2 29 = none := by
  refine dif_neg fun hdate => ?_
  have hle := hdate.2.2
  simp [monthLengths, h] at hle

theorem fromYmdOpt_eq_some {year : ℤ} {month day : ℕ} : fromYmdOpt year month day = some date ↔
    Day.ofYmd year month day = some date ∧ DayHeld date := by
  rw [fromYmdOpt, Option.filter_eq_some_iff, decide_eq_true_iff]

theorem fromYmdOpt_eq_none {year : ℤ} {month day : ℕ} (hheld : -262143 ≤ year ∧ year ≤ 262142) :
    fromYmdOpt year month day = none ↔ Day.ofYmd year month day = none := by
  constructor
  · intro h
    cases hof : Day.ofYmd year month day with
    | none => rfl
    | some date =>
      have hdate : DayHeld date := by
        rw [DayHeld, (ofYmd_eq hof).1]
        exact hheld
      rw [fromYmdOpt_eq_some.mpr ⟨hof, hdate⟩] at h
      cases h
  · intro h
    rw [fromYmdOpt, h]
    rfl

theorem le_of_monthDay {month day : ℕ} (h : monthDay today month day = some date) : today.number ≤ date.number := by
  have hnext (hyear : fromYmdOpt (today.year + 1) month day = some date) : today.number ≤ date.number := by
    have heq := (ofYmd_eq (fromYmdOpt_eq_some.mp hyear).1).1
    exact (Day.number_lt_of_year (by omega)).le
  rw [monthDay] at h
  split at h
  · split at h
    · next hle =>
      cases h
      exact hle
    · exact hnext h
  · exact hnext h

/-- The first day of a month and a number from some day on. -/
def FirstFrom (today : Day) (month day : ℕ) (date : Day) : Prop :=
  date.month = month ∧ date.day = day ∧ today.number ≤ date.number ∧
    ∀ other : Day, other.month = month → other.day = day → today.number ≤ other.number → date.number ≤ other.number

theorem year_le_of_number {other : Day} (h : today.number ≤ other.number) : today.year ≤ other.year := by
  by_contra hlt
  have hnumber := Day.number_lt_of_year (show other.year < today.year by omega)
  omega

theorem monthDay_first {month day : ℕ} (hfar : Far today) (h : monthDay today month day = some date) :
    FirstFrom today month day date := by
  have hle := le_of_monthDay h
  have hof : ∀ year, fromYmdOpt year month day = some date → date.year = year ∧ date.month = month ∧ date.day = day :=
    fun year hyear => ofYmd_eq (fromYmdOpt_eq_some.mp hyear).1
  have hsame : ∀ other : Day, other.month = month → other.day = day → Day.ofYmd other.year month day = some other := by
    intro other hmonth hday
    rw [← hmonth, ← hday]
    exact ofYmd_self other
  -- a day of this year comes first, and where there is none left, one of the next
  have hnext (hyear : fromYmdOpt (today.year + 1) month day = some date)
      (hnone : ∀ other, fromYmdOpt today.year month day = some other → ¬today.number ≤ other.number) :
      FirstFrom today month day date := by
    obtain ⟨heq, hmonth, hday⟩ := hof _ hyear
    refine ⟨hmonth, hday, hle, fun other hothermonth hotherday hother => ?_⟩
    have hlater := year_le_of_number hother
    have hofother := hsame other hothermonth hotherday
    rcases lt_trichotomy other.year date.year with hlt | hsameyear | hgt
    · have hthis : other.year = today.year := by omega
      have hheld : DayHeld other := by
        rw [DayHeld, hthis]
        exact ⟨hfar.1, by have hlast := hfar.2; omega⟩
      exact absurd hother (hnone other (fromYmdOpt_eq_some.mpr ⟨hthis ▸ hofother, hheld⟩))
    · have hfound := (fromYmdOpt_eq_some.mp hyear).1
      rw [← heq, ← hsameyear, hofother] at hfound
      exact (congrArg Day.number (Option.some.inj hfound)).ge
    · exact (Day.number_lt_of_year hgt).le
  rw [monthDay] at h
  split at h
  · next this hthis =>
    split at h
    · next hcome =>
      cases h
      obtain ⟨heq, hmonth, hday⟩ := hof _ hthis
      refine ⟨hmonth, hday, hle, fun other hothermonth hotherday hother => ?_⟩
      have hofother := hsame other hothermonth hotherday
      rcases (year_le_of_number hother).eq_or_lt with hsameyear | hgt
      · rw [← hsameyear, (fromYmdOpt_eq_some.mp hthis).1] at hofother
        exact (congrArg Day.number (Option.some.inj hofother)).le
      · exact (Day.number_lt_of_year (heq ▸ hgt)).le
    · next hgone =>
      refine hnext h fun other hother => ?_
      rw [hthis] at hother
      cases hother
      exact hgone
  · next hnone =>
    refine hnext h fun other hother => ?_
    rw [hnone] at hother
    cases hother

/-- A leap day that this year and the next have no more of. -/
def LeapDayLost (today : Day) : Prop :=
  isLeapYear (today.year + 1) = false ∧
    ∀ date : Day, date.year = today.year → date.month = 2 → date.day = 29 → date.number < today.number

theorem monthDay_eq_none {month day : ℕ} (hfar : Far today) (hpair : ∃ date : Day, date.month = month ∧ date.day = day) :
    monthDay today month day = none ↔ month = 2 ∧ day = 29 ∧ LeapDayLost today := by
  have hthis : -262143 ≤ today.year ∧ today.year ≤ 262142 := ⟨hfar.1, by have hlast := hfar.2; omega⟩
  have hnext : -262143 ≤ today.year + 1 ∧ today.year + 1 ≤ 262142 := ⟨by have hfirst := hfar.1; omega, hfar.2⟩
  obtain ⟨some_, hmonth, hday⟩ := hpair
  have hgone : monthDay today month day = none ↔ Day.ofYmd (today.year + 1) month day = none ∧
      ∀ date, Day.ofYmd today.year month day = some date → date.number < today.number := by
    rw [← fromYmdOpt_eq_none hnext, monthDay]
    cases hof : Day.ofYmd today.year month day with
    | none =>
      rw [(fromYmdOpt_eq_none hthis).mpr hof]
      simp
    | some date =>
      have hheld : DayHeld date := by
        rw [DayHeld, (ofYmd_eq hof).1]
        exact hthis
      rw [fromYmdOpt_eq_some.mpr ⟨hof, hheld⟩]
      by_cases hle : today.number ≤ date.number
      · simp [hle]
      · simp only [hle, if_false, Option.some.injEq, forall_eq', not_le.mp hle, and_true]
  rw [hgone]
  constructor
  · rintro ⟨hnone, hpast⟩
    rw [← hmonth, ← hday] at hnone
    obtain ⟨htwo, hlast, hleap⟩ := leap_of_ofYmd_none some_ hnone
    refine ⟨hmonth.symm.trans htwo, hday.symm.trans hlast, hleap, fun date hyear hdatemonth hdateday => ?_⟩
    have hself := ofYmd_self date
    rw [hyear, hdatemonth, hdateday, ← htwo, ← hlast, hmonth, hday] at hself
    exact hpast date hself
  · rintro ⟨rfl, rfl, hleap, hpast⟩
    refine ⟨ofYmd_leap_none hleap, fun date hof => ?_⟩
    obtain ⟨hyear, hdatemonth, hdateday⟩ := ofYmd_eq hof
    exact hpast date hyear hdatemonth hdateday

end Calendar

/-! ## Phrases and the words they take -/

theorem Attempt.orElse_took {a b : Attempt} {count : ℕ} {parsed : Parsed} (h : a.orElse b = .took count parsed) :
    a = .took count parsed ∨ b = .took count parsed := by
  cases a with
  | took => exact Or.inl h
  | refused => cases h
  | absent => exact Or.inr h

/-- What a phrase does: it takes words that are there, and names no day before today unless that day is written out. -/
structure Phrase (chrono : Chrono) (now : NaiveDateTime) (parsed : Parsed) (word : Text) (next third : Option Text) (count : ℕ)
    (after : Parsed) : Prop where
  pos : 1 ≤ count
  present : count ≤ 1 + (next.toList.length + third.toList.length)
  between : next = none → third = none
  date : after.date = parsed.date ∨
    ∃ date, after.date = some date ∧ (now.date.number ≤ date.number ∨ chrono.parseFromStr word = some date)

section Phrases

variable {chrono : Chrono} {now : NaiveDateTime} {parsed after : Parsed} {word : Text} {next third : Option Text} {count : ℕ}

theorem took_ofDate {words : ℕ} {date : Option Day} (h : Attempt.ofDate parsed words date = .took count after) :
    ∃ day, date = some day ∧ count = words ∧ after = { parsed with date := some day } := by
  cases date with
  | none => cases h
  | some day =>
    cases h
    exact ⟨day, rfl, rfl, rfl⟩

/-- One word, or more of those that follow. -/
theorem Phrase.ofDate {words : ℕ} {date : Option Day} (hthird : next = none → third = none) (hpos : 1 ≤ words)
    (hpresent : words ≤ 1 + (next.toList.length + third.toList.length))
    (hdate : ∀ day, date = some day → now.date.number ≤ day.number ∨ chrono.parseFromStr word = some day)
    (h : Attempt.ofDate parsed words date = .took count after) : Phrase chrono now parsed word next third count after := by
  obtain ⟨day, hday, rfl, rfl⟩ := took_ofDate h
  exact ⟨hpos, hpresent, hthird, Or.inr ⟨day, rfl, hdate day hday⟩⟩

theorem phrase_readDay (hthird : next = none → third = none) (h : readDay chrono now.date parsed word = .took count after) :
    Phrase chrono now parsed word next third count after := by
  have hone : 1 ≤ 1 + (next.toList.length + third.toList.length) := Nat.le_add_right 1 _
  rw [readDay] at h
  split at h
  · exact .ofDate hthird le_rfl hone (fun day hday => Or.inl (Option.some.inj hday ▸ le_rfl)) h
  · split at h
    · refine .ofDate hthird le_rfl hone (fun day hday => Or.inl ?_) h
      have hnumber := number_of_checkedAddDays hday
      omega
    · split at h
      · exact .ofDate hthird le_rfl hone (fun day hday => Or.inl (le_of_nextWeekday hday)) h
      · cases hread : chrono.parseFromStr word with
        | none =>
          rw [hread] at h
          cases h
        | some date =>
          rw [hread] at h
          exact .ofDate hthird le_rfl hone (fun day hday => Or.inr (hread.trans hday)) h

theorem phrase_readNext (hthird : next = none → third = none) (h : readNext chrono now.date parsed word next = .took count after) :
    Phrase chrono now parsed word next third count after := by
  rw [readNext] at h
  split at h
  · cases h
  · split at h
    · cases h
    · next monday hmonday =>
      have hle := le_of_nextWeekday hmonday
      cases next with
      | none => cases h
      | some next =>
        have htwo : 2 ≤ 1 + ((some next).toList.length + third.toList.length) := by
          simp only [Option.toList_some, List.length_singleton]
          omega
        rw [Option.elim_some] at h
        split at h
        · exact .ofDate hthird (by decide) htwo (fun day hday => Or.inl (Option.some.inj hday ▸ hle)) h
        · cases hweekday : parseWeekday next with
          | none =>
            rw [hweekday] at h
            cases h
          | some weekday =>
            rw [hweekday] at h
            refine .ofDate hthird (by decide) htwo (fun day hday => Or.inl ?_) h
            have hnumber := number_of_checkedAddDays hday
            omega

theorem phrase_readMonthDay {month day : Option ℕ} (hthird : next = none → third = none) (hnext : next ≠ none)
    (h : readMonthDay now.date parsed month day = .took count after) : Phrase chrono now parsed word next third count after := by
  obtain ⟨next, rfl⟩ := Option.ne_none_iff_exists'.mp hnext
  have htwo : 2 ≤ 1 + ((some next).toList.length + third.toList.length) := by
    simp only [Option.toList_some, List.length_singleton]
    omega
  unfold readMonthDay at h
  split at h
  · exact .ofDate hthird (by decide) htwo (fun date hdate => Or.inl (le_of_monthDay hdate)) h
  · cases h

theorem phrase_readIn {canTime : Bool} (hthird : next = none → third = none)
    (h : readIn now parsed canTime word next third = .took count after) : Phrase chrono now parsed word next third count after := by
  unfold readIn at h
  split at h
  · cases h
  · split at h
    · next amount unit hnext =>
      cases next with
      | none => cases hnext
      | some next =>
        have hthree : 3 ≤ 1 + ((some next).toList.length + (some unit).toList.length) := by
          simp
        split at h
        · next minutes hminutes =>
          cases hmoment : checkedAddMinutes now minutes with
          | none =>
            rw [hmoment] at h
            cases h
          | some moment =>
            rw [hmoment] at h
            cases h
            refine ⟨by decide, hthree, hthird, Or.inr ⟨moment.date, rfl, Or.inl ?_⟩⟩
            obtain ⟨date, hdate, hmap⟩ := Option.bind_eq_some_iff.mp hmoment
            obtain ⟨time, -, rfl⟩ := Option.map_eq_some_iff.mp hmap
            have hnumber := number_of_checkedAddDays hdate
            dsimp only
            omega
        · cases hdays : daysOfUnit unit amount with
          | none =>
            rw [hdays] at h
            cases h
          | some days =>
            rw [hdays] at h
            refine .ofDate hthird (by decide) hthree (fun day hday => Or.inl ?_) h
            have hnumber := number_of_checkedAddDays hday
            omega
    · cases h

theorem phrase_readTime (hthird : next = none → third = none) (h : readTime parsed word next = .took count after) :
    Phrase chrono now parsed word next third count after := by
  have htook (words : ℕ) (times : Option (List ClockTime)) (hpos : 1 ≤ words)
      (hpresent : words ≤ 1 + (next.toList.length + third.toList.length))
      (htimes : times.elim .refused (fun times => Attempt.took words { parsed with times }) = .took count after) :
      Phrase chrono now parsed word next third count after := by
    cases times with
    | none => cases htimes
    | some times =>
      cases htimes
      exact ⟨hpos, hpresent, hthird, Or.inl rfl⟩
  have hone : 1 ≤ 1 + (next.toList.length + third.toList.length) := Nat.le_add_right 1 _
  rw [readTime] at h
  dsimp only at h
  split at h
  · exact htook _ _ le_rfl hone h
  · cases hclock : parseClock word with
    | none =>
      rw [hclock] at h
      cases h
    | some clock =>
      rw [hclock, Option.elim_some] at h
      split at h
      · next pm hpm =>
        cases next with
        | none => cases hpm
        | some next =>
          split at h
          · cases h
          · refine htook _ _ (by decide) ?_ h
            simp only [Option.toList_some, List.length_singleton]
            omega
      · exact htook _ _ le_rfl hone h

theorem phrase_parseAt (hthird : next = none → third = none) (h : parseAt chrono now parsed word next third = .took count after) :
    Phrase chrono now parsed word next third count after := by
  rw [parseAt] at h
  rcases Attempt.orElse_took h with h | h
  · split at h
    · rcases Attempt.orElse_took h with h | h
      · rcases Attempt.orElse_took h with h | h
        · rcases Attempt.orElse_took h with h | h
          · exact phrase_readDay hthird h
          · exact phrase_readNext hthird h
        · have hnext : next ≠ none := by
            rintro rfl
            rw [Option.bind_none, Option.bind_none] at h
            rcases Attempt.orElse_took h with h | h
            · cases hmonth : parseMonth word <;> rw [hmonth] at h <;> cases h
            · cases h
          rcases Attempt.orElse_took h with h | h
          · exact phrase_readMonthDay hthird hnext h
          · exact phrase_readMonthDay hthird hnext h
      · exact phrase_readIn hthird h
    · cases h
  · split at h
    · exact phrase_readTime hthird h
    · cases h

end Phrases

/-! ## Every word once -/

/-- A stretch of the words as the reading took it. -/
inductive Piece
  | phrase (words : List Word)
  | filler (word : Word)
  | ignored (word : Word)

def Piece.words : Piece → List Word
  | .phrase words => words
  | .filler word => [word]
  | .ignored word => [word]

def Piece.ignoredText : Piece → Option Text
  | .ignored word => some word.text
  | _ => none

def wordsOf (pieces : List Piece) : List Word := pieces.flatMap Piece.words

/-- How the reading went over the pieces: each phrase is read at its first word and takes all of its words, and no phrase
begins at any other. -/
def Accounts (chrono : Chrono) (now : NaiveDateTime) : Parsed → List Piece → Parsed → Prop
  | parsed, [], stop => stop = parsed
  | parsed, .phrase words :: pieces, stop => ∃ word behind after, words = word :: behind ∧
      parseWords chrono now parsed word (behind ++ wordsOf pieces) = .took words.length after ∧
        Accounts chrono now after pieces stop
  | parsed, .filler word :: pieces, stop => isFiller word.lower = true ∧
      (∀ count after, parseWords chrono now parsed word (wordsOf pieces) ≠ .took count after) ∧
        Accounts chrono now parsed pieces stop
  | parsed, .ignored word :: pieces, stop => isFiller word.lower = false ∧
      (∀ count after, parseWords chrono now parsed word (wordsOf pieces) ≠ .took count after) ∧
        Accounts chrono now parsed pieces stop

section Run

variable {chrono : Chrono} {now : NaiveDateTime}

theorem phrase_parseWords {parsed after : Parsed} {word : Word} {rest : List Word} {count : ℕ}
    (h : parseWords chrono now parsed word rest = .took count after) : 1 ≤ count ∧ count ≤ 1 + rest.length ∧
      (after.date = parsed.date ∨ ∃ date, after.date = some date ∧
        (now.date.number ≤ date.number ∨ chrono.parseFromStr word.lower = some date)) := by
  have hphrase := phrase_parseAt (fun hnone => by cases rest with | nil => rfl | cons => cases hnone) h
  refine ⟨hphrase.pos, hphrase.present.trans ?_, hphrase.date⟩
  match rest with
  | [] => exact le_rfl
  | [_] => exact le_rfl
  | _ :: _ :: rest =>
    simp only [List.length_cons]
    exact Nat.add_le_add_left (show 2 ≤ rest.length + 1 + 1 by omega) 1

/-- The loop accounts for every word. -/
theorem readFrom_accounts {fuel : ℕ} {words : List Word} (hfuel : words.length ≤ fuel) (parsed : Parsed) (ignored : List Text) :
    ∃ pieces, wordsOf pieces = words ∧ Accounts chrono now parsed pieces (readFrom chrono now fuel words parsed ignored).1 ∧
      (readFrom chrono now fuel words parsed ignored).2 = ignored ++ pieces.filterMap Piece.ignoredText := by
  induction fuel generalizing words parsed ignored with
  | zero =>
    rw [List.length_eq_zero_iff.mp (Nat.le_zero.mp hfuel)]
    exact ⟨[], rfl, rfl, (List.append_nil _).symm⟩
  | succ fuel ih =>
    cases words with
    | nil => exact ⟨[], rfl, rfl, (List.append_nil _).symm⟩
    | cons word rest =>
      have hlength : rest.length ≤ fuel := Nat.le_of_succ_le_succ hfuel
      rw [readFrom]
      split
      · next count after htook =>
        obtain ⟨hpos, hpresent, -⟩ := phrase_parseWords htook
        obtain ⟨n, rfl⟩ := Nat.exists_eq_add_of_le' hpos
        have hshorter : (rest.drop n).length ≤ fuel := by
          rw [List.length_drop]
          omega
        obtain ⟨pieces, hwords, haccounts, hignored⟩ := ih hshorter after ignored
        have htaken : (word :: rest.take n).length = n + 1 := by
          rw [List.length_cons, List.length_take]
          omega
        rw [List.drop_succ_cons]
        refine ⟨.phrase (word :: rest.take n) :: pieces, ?_, ⟨word, rest.take n, after, rfl, ?_, haccounts⟩, hignored⟩
        · rw [wordsOf, List.flatMap_cons, ← wordsOf, hwords]
          exact congrArg (word :: ·) (List.take_append_drop n rest)
        · rw [hwords, List.take_append_drop, htaken]
          exact htook
      · next hnone =>
        cases hfiller : isFiller word.lower with
        | true =>
          obtain ⟨pieces, hwords, haccounts, hignored⟩ := ih hlength parsed ignored
          refine ⟨.filler word :: pieces, ?_, ⟨hfiller, ?_, haccounts⟩, hignored⟩
          · rw [wordsOf, List.flatMap_cons, ← wordsOf, hwords]
            rfl
          · rw [hwords]
            exact hnone
        | false =>
          obtain ⟨pieces, hwords, haccounts, hignored⟩ := ih hlength parsed (ignored ++ [word.text])
          refine ⟨.ignored word :: pieces, ?_, ⟨hfiller, ?_, haccounts⟩, ?_⟩
          · rw [wordsOf, List.flatMap_cons, ← wordsOf, hwords]
            rfl
          · rw [hwords]
            exact hnone
          · rw [if_neg Bool.false_ne_true, hignored, List.append_assoc]
            rfl

/-- A day before today was written out. -/
theorem Accounts.past {parsed stop : Parsed} {pieces : List Piece} (h : Accounts chrono now parsed pieces stop) {date : Day}
    (hdate : stop.date = some date) (hpast : date.number < now.date.number) :
    parsed.date = some date ∨ ∃ word ∈ wordsOf pieces, chrono.parseFromStr word.lower = some date := by
  induction pieces generalizing parsed with
  | nil => exact Or.inl (h ▸ hdate)
  | cons piece pieces ih =>
    have hbehind (hrest : ∃ word ∈ wordsOf pieces, chrono.parseFromStr word.lower = some date) :
        ∃ word ∈ wordsOf (piece :: pieces), chrono.parseFromStr word.lower = some date := by
      obtain ⟨word, hword, hread⟩ := hrest
      exact ⟨word, List.mem_append_right _ hword, hread⟩
    cases piece with
    | phrase words =>
      obtain ⟨word, behind, after, rfl, htook, hrest⟩ := h
      rcases ih hrest with hafter | hlater
      · obtain ⟨-, -, hkept | ⟨day, hday, hnamed⟩⟩ := phrase_parseWords htook
        · exact Or.inl (hkept ▸ hafter)
        · rw [hday] at hafter
          cases hafter
          exact Or.inr ⟨word, List.mem_append_left _ List.mem_cons_self, hnamed.resolve_left (not_le.mpr hpast)⟩
      · exact Or.inr (hbehind hlater)
    | filler word =>
      obtain ⟨-, -, hrest⟩ := h
      exact (ih hrest).imp id hbehind
    | ignored word =>
      obtain ⟨-, -, hrest⟩ := h
      exact (ih hrest).imp id hbehind

end Run

/-- The words are the query without what parts them. -/
theorem text_tokenize (prim : Primitives) (query : Text) :
    (tokenize prim query).flatMap Word.text = query.filter fun c => !isSeparator c := by
  have hchunks (chunks : List Text) : ((chunks.flatMap fun chunk =>
      if '-' ∈ chunk then [chunk] else chunk.splitBy fun a b => isClockChar a == isClockChar b).map
        fun text => (⟨text, prim.lowercase text⟩ : Word)).flatMap Word.text = chunks.flatten := by
    induction chunks with
    | nil => rfl
    | cons chunk chunks ih =>
      rw [List.flatMap_cons, List.map_append, List.flatMap_append, ih, List.flatten_cons, List.flatMap_map]
      congr 1
      split
      · exact List.flatMap_singleton _ _
      · exact List.flatMap_id.trans (List.flatten_splitBy _ _)
  rw [tokenize, hchunks, List.flatten_filter_not_isEmpty, flatten_splitOnP]

/-! ## The readings -/

section Resolve

variable {now : NaiveDateTime}

/-- A later moment, both cut to the minute. -/
def After (now : NaiveDateTime) (date : Day) (time : ClockTime) : Prop :=
  now.date.number < date.number ∨ now.date = date ∧ minutesOf now.time < minutesOf time

theorem mem_resolve {parsed : Parsed} {reading : Reading} (h : reading ∈ resolve parsed now) :
    (∃ date, parsed.date = some date ∧ parsed.times = [] ∧
      reading = ⟨date, none, decide (date.number < now.date.number)⟩) ∨
    ∃ time ∈ parsed.times, readingAt parsed.date now time = some reading := by
  have hmem := (List.mem_insertionSort _).mp ((List.destutter_sublist _ _).mem h)
  split at hmem
  · cases hmem
  · next date hdate htimes => exact Or.inl ⟨date, hdate, htimes, List.mem_singleton.mp hmem⟩
  · exact Or.inr (List.mem_filterMap.mp hmem)

/-- A reading with a time is still to come, unless its day was named and is past. -/
theorem readingAt_after {date : Option Day} {time : ClockTime} {reading : Reading} (h : readingAt date now time = some reading) :
    reading.time = some time ∧ (After now reading.date time ∨
      date = some reading.date ∧ reading.date.number < now.date.number ∧ reading.alreadyPast = true) := by
  obtain ⟨moved, hmoved, rfl⟩ := Option.map_eq_some_iff.mp h
  refine ⟨rfl, ?_⟩
  dsimp only
  split at hmoved
  · next hpast =>
    have hgone := of_decide_eq_true hpast
    have hnumber := number_of_checkedAddDays hmoved
    rw [hgone.1] at hnumber
    exact Or.inl (Or.inl (by omega))
  · next hpast =>
    cases hmoved
    have hgone := of_decide_eq_false (Bool.eq_false_iff.mpr hpast)
    rcases lt_trichotomy (date.getD now.date).number now.date.number with hlt | heq | hgt
    · cases date with
      | none => exact absurd hlt (lt_irrefl _)
      | some date =>
        rw [Option.getD_some] at hlt
        exact Or.inr ⟨rfl, hlt, by simp [hlt]⟩
    · have hday := Day.number_injective heq
      exact Or.inl (Or.inr ⟨hday.symm, not_le.mp fun hle => hgone ⟨hday, hle⟩⟩)
    · exact Or.inl (Or.inl hgt)

theorem sorted_resolve (parsed : Parsed) (now : NaiveDateTime) :
    (resolve parsed now).Pairwise fun a b => a.key < b.key := by
  rw [resolve]
  generalize (match parsed.date, parsed.times with
    | none, [] => []
    | some date, [] => [⟨date, none, decide (date.number < now.date.number)⟩]
    | date, times => times.filterMap (readingAt date now) : List Reading) = readings
  have hsorted : (readings.insertionSort fun a b => a.key ≤ b.key).Pairwise fun a b => a.key ≤ b.key := by
    have htotal : Std.Total fun a b : Reading => a.key ≤ b.key := ⟨fun a b => le_total a.key b.key⟩
    have htrans : IsTrans Reading fun a b => a.key ≤ b.key := ⟨fun _ _ _ => le_trans⟩
    exact List.pairwise_insertionSort _ _
  have hsub := hsorted.sublist (List.destutter_sublist (fun a b => a.key ≠ b.key) _)
  have hchain := List.isChain_destutter (fun a b : Reading => a.key ≠ b.key) (readings.insertionSort fun a b => a.key ≤ b.key)
  have hlt : IsTrans Reading fun a b => a.key < b.key := ⟨fun _ _ _ => lt_trans⟩
  have hstrict : ((readings.insertionSort fun a b => a.key ≤ b.key).destutter fun a b => a.key ≠ b.key).IsChain
      fun a b => a.key < b.key := by
    refine List.isChain_iff_getElem.mpr fun n hn => ?_
    exact lt_of_le_of_ne (List.isChain_iff_getElem.mp hsub.isChain n hn) (List.isChain_iff_getElem.mp hchain n hn)
  exact hstrict.pairwise

end Resolve

/-! ## Queries of a day alone -/

/-- The words of a query in lower case. -/
def lowered (prim : Primitives) (query : Text) : List Text := (tokenize prim query).map Word.lower

/-- A query of a month and a day of it alone, either first. -/
def MonthDayAlone (prim : Primitives) (query : Text) (month day : ℕ) : Prop :=
  ∃ monthWord dayWord, parseMonth monthWord = some month ∧ parseDay dayWord = some day ∧
    (lowered prim query = [monthWord, dayWord] ∨ lowered prim query = [dayWord, monthWord])

/-- A query of a weekday alone. -/
def WeekdayAlone (prim : Primitives) (query : Text) (weekday : ℕ) : Prop :=
  ∃ word, parseWeekday word = some weekday ∧ lowered prim query = [word]

theorem mem_of_findIdx? {table : List (List Text)} {word : Text} {i : ℕ}
    (h : (table.findIdx? fun names => names.contains word) = some i) : word ∈ table.flatten ∧ i < table.length := by
  obtain ⟨hlt, hmem, -⟩ := List.findIdx?_eq_some_iff_getElem.mp h
  exact ⟨List.mem_flatten.mpr ⟨table[i], List.getElem_mem hlt, List.contains_iff_mem.mp hmem⟩, hlt⟩

/-- A text of digits and signs. -/
def Numeric (word : Text) : Prop := word ≠ [] ∧ ∀ c ∈ word, c.isDigit = true ∨ c = '+'

instance (word : Text) : Decidable (Numeric word) := inferInstanceAs (Decidable (_ ∧ ∀ c ∈ word, _))

theorem parseDay_eq_some {word : Text} {day : ℕ} (h : parseDay word = some day) :
    word.length ≤ 2 ∧ parseU32 word = some day ∧ Numeric word := by
  rw [parseDay] at h
  split at h
  · cases h
  · next hlength =>
    obtain ⟨hread, -⟩ := Option.filter_eq_some_iff.mp h
    refine ⟨not_lt.mp hlength, hread, ?_⟩
    rw [parseU32] at hread
    split at hread
    · next hdigits =>
      obtain ⟨hne, hall, -⟩ := hdigits
      rw [List.all_eq_true] at hall
      cases hsign : stripPrefix ['+'] word with
      | none =>
        rw [hsign, Option.getD_none] at hne hall
        exact ⟨hne, fun c hc => Or.inl (hall c hc)⟩
      | some digits =>
        rw [hsign, Option.getD_some] at hall
        rw [stripPrefix_eq_some.mp hsign]
        refine ⟨List.cons_ne_nil _ _, fun c hc => ?_⟩
        rcases List.mem_cons.mp hc with heq | hc
        · exact Or.inr heq
        · exact Or.inl (hall c hc)
    · cases hread

section Alone

variable {prim : Primitives} {chrono : Chrono} {now : NaiveDateTime}

@[simp] theorem Attempt.orElse_absent (a : Attempt) : a.orElse .absent = a := by
  cases a <;> rfl

@[simp] theorem Attempt.ofDate_orElse (parsed : Parsed) (count : ℕ) (date : Option Day) (b : Attempt) :
    (Attempt.ofDate parsed count date).orElse b = .ofDate parsed count date := by
  cases date <;> rfl

/-- A word that names no day by itself. -/
structure Dayless (word : Text) : Prop where
  notToday : ["today".toList, "tod".toList].contains word = false
  notTomorrow : ["tomorrow".toList, "tom".toList, "tmr".toList, "tmrw".toList].contains word = false
  notWeekday : parseWeekday word = none
  notNext : word ≠ "next".toList
  notIn : word ≠ "in".toList
  notNamed : namedHour word = none
  undashed : '-' ∉ word

theorem dayless_month {word : Text} {month : ℕ} (h : parseMonth word = some month) :
    Dayless word ∧ parseDay word = none ∧ parseClock word = none := by
  obtain ⟨i, hfound, -⟩ := Option.map_eq_some_iff.mp h
  have hmem := (mem_of_findIdx? hfound).1
  have hall : ∀ word ∈ monthWords.flatten, ["today".toList, "tod".toList].contains word = false ∧
      ["tomorrow".toList, "tom".toList, "tmr".toList, "tmrw".toList].contains word = false ∧ parseWeekday word = none ∧
      word ≠ "next".toList ∧ word ≠ "in".toList ∧ namedHour word = none ∧ '-' ∉ word ∧ parseDay word = none ∧
      parseClock word = none := by decide
  obtain ⟨htoday, htomorrow, hweekday, hnext, hin, hnamed, hdash, hday, hclock⟩ := hall word hmem
  exact ⟨⟨htoday, htomorrow, hweekday, hnext, hin, hnamed, hdash⟩, hday, hclock⟩

theorem dayless_day {word : Text} (h : Numeric word) : Dayless word ∧ parseMonth word = none := by
  have hout {names : List Text} (hnames : ∀ name ∈ names, ¬Numeric name) : word ∉ names := fun hmem => hnames word hmem h
  have hcontains {names : List Text} (hnames : ∀ name ∈ names, ¬Numeric name) : names.contains word = false :=
    Bool.eq_false_iff.mpr fun hmem => hout hnames (List.contains_iff_mem.mp hmem)
  have htable {table : List (List Text)} (htable : ∀ name ∈ table.flatten, ¬Numeric name) :
      (table.findIdx? fun names => names.contains word) = none := by
    cases hfound : table.findIdx? fun names => names.contains word with
    | none => rfl
    | some i => exact absurd (mem_of_findIdx? hfound).1 (hout htable)
  have hnamed : namedHour word = none := by
    rw [namedHour, Option.map_eq_none_iff, List.find?_eq_none]
    intro r hr heq
    have hhours : ∀ r ∈ [("morning", 9), ("noon", 12), ("afternoon", 15), ("evening", 18), ("tonight", 20)],
        ¬Numeric r.1.toList := by decide
    exact hhours r hr (of_decide_eq_true heq ▸ h)
  refine ⟨⟨hcontains (by decide), hcontains (by decide), htable (by decide), ?_, ?_, hnamed, fun hdash => ?_⟩, ?_⟩
  · exact fun heq => absurd (heq ▸ h) (by decide)
  · exact fun heq => absurd (heq ▸ h) (by decide)
  · exact absurd (h.2 '-' hdash) (by decide)
  · rw [parseMonth, htable (by decide)]
    rfl

variable (hdash : ∀ t : Text, '-' ∉ t → chrono.parseFromStr t = none)

include hdash

/-- Past the words for days, a phrase of two words or a time. -/
theorem parseAt_dayless {word : Text} (h : Dayless word) (next : Option Text) :
    parseAt chrono now .default word next none = ((readMonthDay now.date .default (parseMonth word) (next.bind parseDay)).orElse
      (readMonthDay now.date .default (next.bind parseMonth) (parseDay word))).orElse (readTime .default word next) := by
  have hday : readDay chrono now.date .default word = .absent := by
    rw [readDay, h.notToday, h.notTomorrow, h.notWeekday, hdash word h.undashed]
    rfl
  have hnext : readNext chrono now.date .default word next = .absent := if_pos h.notNext
  have hin : readIn now .default true word next none = .absent := if_pos h.notIn
  change ((((readDay chrono now.date .default word).orElse _).orElse _).orElse (readIn now .default true word next none)).orElse _ = _
  rw [hday, hnext, hin, Attempt.orElse_absent]
  rfl

theorem parseAt_monthDay {monthWord dayWord : Text} {month day : ℕ} (hmonth : parseMonth monthWord = some month)
    (hday : parseDay dayWord = some day) : parseAt chrono now .default monthWord (some dayWord) none =
      .ofDate .default 2 (monthDay now.date month day) := by
  rw [parseAt_dayless hdash (dayless_month hmonth).1, hmonth, Option.bind_some, hday]
  exact (congrArg (Attempt.orElse · _) (Attempt.ofDate_orElse ..)).trans (Attempt.ofDate_orElse ..)

theorem parseAt_dayMonth {monthWord dayWord : Text} {month day : ℕ} (hmonth : parseMonth monthWord = some month)
    (hday : parseDay dayWord = some day) : parseAt chrono now .default dayWord (some monthWord) none =
      .ofDate .default 2 (monthDay now.date month day) := by
  obtain ⟨hdayless, hno⟩ := dayless_day (parseDay_eq_some hday).2.2
  rw [parseAt_dayless hdash hdayless, hno, Option.bind_some, Option.bind_some, hmonth, hday, (dayless_month hmonth).2.1]
  exact Attempt.ofDate_orElse ..

/-- A month alone is no phrase. -/
theorem parseAt_month {word : Text} {month : ℕ} (h : parseMonth word = some month) :
    parseAt chrono now .default word none none = .refused := by
  obtain ⟨hdayless, hday, hclock⟩ := dayless_month h
  rw [parseAt_dayless hdash hdayless, h, hday, readTime, hdayless.notNamed, hclock]
  rfl

/-- A number from twenty-four on is no phrase. -/
theorem parseAt_day {word : Text} {day : ℕ} (h : parseDay word = some day) (hlate : 24 ≤ day) :
    parseAt chrono now .default word none none = .refused := by
  obtain ⟨hlength, hread, hnumeric⟩ := parseDay_eq_some h
  obtain ⟨hdayless, hmonth⟩ := dayless_day hnumeric
  have hcolon : splitFirst [':'] word = none := by
    refine splitFirst_eq_none (not_infix_of_not_mem List.mem_cons_self fun hmem => ?_)
    exact absurd (hnumeric.2 ':' hmem) (by decide)
  have hclock : parseClock word = none := by
    rw [parseClock, hcolon]
    dsimp only
    rw [if_neg (fun hlong => absurd hlong.1 (not_lt.mpr hlength)), Option.bind_some]
    have hshape : ¬(word.isEmpty = true ∨ word.length > 2) := fun hshape =>
      hshape.elim (fun hempty => hnumeric.1 (List.isEmpty_iff.mp hempty)) (not_lt.mpr hlength)
    dsimp only
    rw [if_neg hshape, hread, Option.bind_some, if_neg (fun hrange => absurd hrange.1 (not_lt.mpr hlate))]
  rw [parseAt_dayless hdash hdayless, hmonth, h, readTime, hdayless.notNamed, hclock]
  rfl

omit hdash in
/-- A day and nothing else. -/
theorem resolve_day {date : Day} (h : now.date.number ≤ date.number) :
    resolve ⟨some date, [], false⟩ now = [⟨date, none, false⟩] := by
  have hpast : decide (date.number < now.date.number) = false := decide_eq_false (not_lt.mpr h)
  rw [resolve]
  dsimp only
  rw [hpast]
  rfl

omit hdash in
theorem parseWords_pair {first second : Word} {date : Option Day} (h : parseAt chrono now .default first.lower (some second.lower)
      none = .ofDate .default 2 date) (halone : date = none → parseAt chrono now .default second.lower none none = .refused) :
    resolve (readFrom chrono now 2 [first, second] .default []).1 now = date.elim [] fun date =>
      resolve ⟨some date, [], false⟩ now := by
  have hpair : parseWords chrono now .default first [second] = .ofDate .default 2 date := h
  cases date with
  | some date =>
    rw [readFrom, hpair]
    rfl
  | none =>
    have hsecond : parseWords chrono now .default second [] = .refused := halone rfl
    rw [readFrom, hpair]
    dsimp only [Attempt.ofDate, Option.elim_none]
    rw [readFrom, hsecond]
    rfl

/-- A month and a day are read as the first such day, and a leap day that is lost as nothing. -/
theorem read_monthDay {query : Text} {month day : ℕ} (hfar : Far now.date) (h : MonthDayAlone prim query month day)
    (hpair : ∃ date : Day, date.month = month ∧ date.day = day) :
    (read prim chrono query now).readings = (monthDay now.date month day).elim [] fun date => [⟨date, none, false⟩] := by
  obtain ⟨monthWord, dayWord, hmonth, hday, hwords⟩ := h
  have hlost (hnone : monthDay now.date month day = none) : 24 ≤ day := by
    have hleap := ((monthDay_eq_none hfar hpair).mp hnone).2.1
    omega
  have hend : (monthDay now.date month day).elim [] (fun date => resolve ⟨some date, [], false⟩ now.cut) =
      (monthDay now.date month day).elim [] fun date => [⟨date, none, false⟩] := by
    cases hfound : monthDay now.date month day with
    | none => rfl
    | some date => exact resolve_day (le_of_monthDay hfound)
  have htwo (first second : Text) (hlowered : lowered prim query = [first, second]) : ∃ a b : Word,
      tokenize prim query = [a, b] ∧ a.lower = first ∧ b.lower = second := by
    obtain ⟨a, rest, htokens, ha, hrest⟩ := List.map_eq_cons_iff.mp hlowered
    obtain ⟨b, rest, rfl, hb, hnil⟩ := List.map_eq_cons_iff.mp hrest
    rw [List.map_eq_nil_iff.mp hnil] at htokens
    exact ⟨a, b, htokens, ha, hb⟩
  rw [← hend, read]
  dsimp only
  rcases hwords with hlowered | hlowered
  · obtain ⟨a, b, htokens, rfl, rfl⟩ := htwo _ _ hlowered
    rw [htokens]
    exact parseWords_pair (parseAt_monthDay hdash hmonth hday) fun hnone => parseAt_day hdash hday (hlost hnone)
  · obtain ⟨a, b, htokens, rfl, rfl⟩ := htwo _ _ hlowered
    rw [htokens]
    exact parseWords_pair (parseAt_dayMonth hdash hmonth hday) fun _ => parseAt_month hdash hmonth

omit hdash in
/-- A weekday is read as the first after today. -/
theorem read_weekday {query : Text} {weekday : ℕ} (h : WeekdayAlone prim query weekday) {date : Day}
    (hdate : nextWeekday chrono now.date weekday = some date) :
    (read prim chrono query now).readings = [⟨date, none, false⟩] := by
  obtain ⟨word, hweekday, hlowered⟩ := h
  have hmem := (mem_of_findIdx? hweekday).1
  have hall : ∀ word ∈ weekdayWords.flatten, ["today".toList, "tod".toList].contains word = false ∧
      ["tomorrow".toList, "tom".toList, "tmr".toList, "tmrw".toList].contains word = false := by decide
  obtain ⟨htoday, htomorrow⟩ := hall word hmem
  obtain ⟨first, rest, htokens, rfl, hrest⟩ := List.map_eq_cons_iff.mp hlowered
  rw [List.map_eq_nil_iff.mp hrest] at htokens
  have hday : readDay chrono now.cut.date .default first.lower = .ofDate .default 1 (some date) := by
    rw [readDay, htoday, htomorrow, hweekday, ← hdate]
    rfl
  have hparse : parseWords chrono now.cut .default first [] = .ofDate .default 1 (some date) := by
    change ((((readDay chrono now.cut.date .default first.lower).orElse _).orElse _).orElse _).orElse _ = _
    rw [hday]
    rfl
  rw [read]
  dsimp only
  rw [htokens, List.length_singleton, readFrom, hparse]
  exact resolve_day (le_of_nextWeekday hdate)

end Alone

/-! ## The soonest moment to come -/

/-- What reading a query gives: moments to come, the first such day for a day alone, in order and each once, with every word
accounted for. -/
structure ReadsSoonest (prim : Primitives) (chrono : Chrono) (query : Text) (now : NaiveDateTime) (result : Readings) : Prop where
  future : ∀ reading ∈ result.readings, ∀ time, reading.time = some time → After now.cut reading.date time ∨
    reading.date.number < now.date.number ∧ reading.alreadyPast = true ∧
      ∃ word ∈ tokenize prim query, chrono.parseFromStr word.lower = some reading.date
  monthDay : ∀ month day, MonthDayAlone prim query month day → (∃ date : Day, date.month = month ∧ date.day = day) →
    ∃ date, FirstFrom now.date month day date ∧ result.readings = [⟨date, none, false⟩]
  weekday : ∀ weekday, WeekdayAlone prim query weekday → ∃ date, now.date.number < date.number ∧
    (chrono.weekday date + 6) % 7 = weekday ∧ (∀ other, (chrono.weekday other + 6) % 7 = weekday →
      now.date.number < other.number → date.number ≤ other.number) ∧ result.readings = [⟨date, none, false⟩]
  sorted : result.readings.Pairwise fun a b => a.key < b.key
  words : (tokenize prim query).flatMap Word.text = query.filter fun c => !isSeparator c
  accounted : ∃ pieces stop, wordsOf pieces = tokenize prim query ∧ Accounts chrono now.cut .default pieces stop ∧
    result.ignored = pieces.filterMap Piece.ignoredText

/-- A query is read as the soonest moment, unless it is a leap day alone that neither this year nor the next has left. -/
theorem readsSoonest_iff {prim : Primitives} {chrono : Chrono} (hdesk : chrono.Gregorian)
    (hdash : ∀ t : Text, '-' ∉ t → chrono.parseFromStr t = none) {query : Text} {now : NaiveDateTime} (hfar : Far now.date) :
    ReadsSoonest prim chrono query now (read prim chrono query now) ↔
      ¬(MonthDayAlone prim query 2 29 ∧ LeapDayLost now.date) := by
  constructor
  · intro h hleap
    have hpair : ∃ date : Day, date.month = 2 ∧ date.day = 29 := ⟨⟨2028, 2, 29, by decide, by decide, by decide⟩, rfl, rfl⟩
    obtain ⟨date, -, hread⟩ := h.monthDay 2 29 hleap.1 hpair
    rw [read_monthDay hdash hfar hleap.1 hpair, (monthDay_eq_none hfar hpair).mpr ⟨rfl, rfl, hleap.2⟩] at hread
    cases hread
  · intro hkept
    obtain ⟨pieces, hwords, haccounts, hignored⟩ :=
      @readFrom_accounts chrono now.cut _ _ (le_refl (tokenize prim query).length) .default []
    refine ⟨fun reading hreading time htime => ?_, fun month day halone hpair => ?_, fun weekday halone => ?_,
      sorted_resolve _ _, text_tokenize prim query, pieces, _, hwords, haccounts, hignored⟩
    · rcases mem_resolve hreading with ⟨date, -, -, rfl⟩ | ⟨other, -, hat⟩
      · cases htime
      · obtain ⟨hother, hafter | ⟨hdate, hpast, halready⟩⟩ := readingAt_after hat
        · rw [hother] at htime
          cases htime
          exact Or.inl hafter
        · refine Or.inr ⟨hpast, halready, ?_⟩
          rcases haccounts.past hdate hpast with hdefault | hnamed
          · cases hdefault
          · rw [← hwords]
            exact hnamed
    · cases hfound : Desk.monthDay now.date month day with
      | some date =>
        refine ⟨date, monthDay_first hfar hfound, ?_⟩
        rw [read_monthDay hdash hfar halone hpair, hfound]
        rfl
      | none =>
        obtain ⟨rfl, rfl, hlost⟩ := (monthDay_eq_none hfar hpair).mp hfound
        exact absurd ⟨halone, hlost⟩ hkept
    · obtain ⟨word, hweekday, hlowered⟩ := halone
      have hlt : weekday < 7 := (mem_of_findIdx? hweekday).2
      obtain ⟨date, hfound, hafter, hday, hfirst⟩ := nextWeekday_first hdesk hlt hfar
      exact ⟨date, hafter, hday, hfirst, read_weekday ⟨word, hweekday, hlowered⟩ hfound⟩

/-- Letters of ASCII in lower case. -/
def asciiPrimitives : Primitives := ⟨Char.isAlphanum, fun c => [c.toLower], fun t => t.map Char.toLower, id⟩

theorem readsSoonest_monday : ReadsSoonest asciiPrimitives deskChrono "Mon 9am".toList
    ⟨⟨2026, 10, 21, by decide, by decide, by decide⟩, ⟨14, 5, by decide, by decide⟩, 7, 0⟩
    (read asciiPrimitives deskChrono "Mon 9am".toList
      ⟨⟨2026, 10, 21, by decide, by decide, by decide⟩, ⟨14, 5, by decide, by decide⟩, 7, 0⟩) := by
  refine (readsSoonest_iff deskChrono_gregorian (fun _ _ => rfl) (by decide)).mpr fun hleap => ?_
  obtain ⟨monthWord, dayWord, -, -, hlowered⟩ := hleap.1
  have hthree : (lowered asciiPrimitives "Mon 9am".toList).length = 3 := by decide
  rcases hlowered with hlowered | hlowered
  · rw [hlowered] at hthree
    cases hthree
  · rw [hlowered] at hthree
    cases hthree

/-- In October 2026 the next leap day is not found. -/
theorem readsSoonest_leap : ¬ReadsSoonest asciiPrimitives deskChrono "29 feb".toList
    ⟨⟨2026, 10, 21, by decide, by decide, by decide⟩, ⟨14, 5, by decide, by decide⟩, 0, 0⟩
    (read asciiPrimitives deskChrono "29 feb".toList
      ⟨⟨2026, 10, 21, by decide, by decide, by decide⟩, ⟨14, 5, by decide, by decide⟩, 0, 0⟩) := by
  intro h
  have halone : MonthDayAlone asciiPrimitives "29 feb".toList 2 29 :=
    ⟨"feb".toList, "29".toList, by decide, by decide, Or.inr (by decide)⟩
  obtain ⟨date, -, hread⟩ := h.monthDay 2 29 halone ⟨⟨2028, 2, 29, by decide, by decide, by decide⟩, rfl, rfl⟩
  have hnone : (read asciiPrimitives deskChrono "29 feb".toList
      ⟨⟨2026, 10, 21, by decide, by decide, by decide⟩, ⟨14, 5, by decide, by decide⟩, 0, 0⟩).readings = [] := by decide
  rw [hnone] at hread
  cases hread

end Thock.Desk
