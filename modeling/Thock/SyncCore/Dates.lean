import Thock.SyncCore.Markdown

/-!
# Dates and their formats

Calendar days, and the moment-style formats a vault names its daily notes by: writing a day in
a format, and reading a text back through one by trying every width and name a token may have.

What the date library knows of weekdays and ISO weeks is a parameter.
-/

namespace Thock.SyncCore

open TextScan

/-! ## Days -/

def isLeapYear (year : ℤ) : Bool := year % 4 = 0 && (year % 100 != 0 || year % 400 = 0)

def monthLengths (year : ℤ) : List ℕ :=
  [31, if isLeapYear year then 29 else 28, 31, 30, 31, 30, 31, 31, 30, 31, 30, 31]

/-- A day of the proleptic Gregorian calendar. -/
structure Day where
  year : ℤ
  month : ℕ
  day : ℕ
  month_pos : 1 ≤ month
  day_pos : 1 ≤ day
  day_le : day ≤ (monthLengths year).getD (month - 1) 0
deriving DecidableEq, Repr

/-- The day of a year, a month and a day of the month, where there is one. -/
def Day.ofYmd (year : ℤ) (month day : ℕ) : Option Day :=
  if h : 1 ≤ month ∧ 1 ≤ day ∧ day ≤ (monthLengths year).getD (month - 1) 0 then
    some ⟨year, month, day, h.1, h.2.1, h.2.2⟩
  else none

/-- What the desk asks of its date library: the days since Sunday, the ISO week and its year,
the Monday of an ISO week, and reading a text as year, month and day. -/
structure Chrono where
  weekday : Day → ℕ
  isoWeek : Day → ℕ
  isoYear : Day → ℤ
  isoMonday : ℤ → ℕ → Option Day
  parseFromStr : Text → Option Day

/-! ## Numbers -/

def decimal (n : ℕ) : Text := Nat.toDigits 10 n

/-- A number filled up with zeros on the left. -/
def padded (width n : ℕ) : Text := List.replicate (width - (decimal n).length) '0' ++ decimal n

/-- A number filled up with zeros, the sign counted in the width. -/
def paddedInt (width : ℕ) (n : ℤ) : Text := if n < 0 then '-' :: padded (width - 1) n.natAbs else padded width n.toNat

/-! ## Writing a day -/

def monthNames : List Text :=
  ["January", "February", "March", "April", "May", "June", "July", "August", "September", "October", "November",
    "December"].map String.toList

def weekdayNames : List Text :=
  ["Monday", "Tuesday", "Wednesday", "Thursday", "Friday", "Saturday", "Sunday"].map String.toList

def monthName (date : Day) : Text := monthNames.getD (date.month - 1) []

/-- The name of a weekday counted from Sunday. -/
def weekdayName (chrono : Chrono) (date : Day) : Text := weekdayNames.getD ((chrono.weekday date + 6) % 7) []

/-- The letters that begin a date token. -/
def isDateToken (c : Char) : Bool := c ∈ ['Y', 'M', 'D', 'd', 'W', 'G']

def emitDateToken (chrono : Chrono) (date : Day) (token : Char) (run : ℕ) : Text :=
  match token, run with
  | 'Y', 2 => paddedInt 2 (date.year.tmod 100)
  | 'Y', _ => paddedInt 4 date.year
  | 'M', 1 => decimal date.month
  | 'M', 2 => padded 2 date.month
  | 'M', 3 => (monthName date).take 3
  | 'M', _ => monthName date
  | 'D', 1 => decimal date.day
  | 'D', _ => padded 2 date.day
  | 'd', 1 => decimal (chrono.weekday date)
  | 'd', 2 => (weekdayName chrono date).take 2
  | 'd', 3 => (weekdayName chrono date).take 3
  | 'd', _ => weekdayName chrono date
  | 'W', 1 => decimal (chrono.isoWeek date)
  | 'W', _ => padded 2 (chrono.isoWeek date)
  | 'G', 2 => paddedInt 2 ((chrono.isoYear date).tmod 100)
  | 'G', _ => paddedInt 4 (chrono.isoYear date)
  | _, _ => weekdayName chrono date

/-- The walk over a format; a step takes a bracketed literal, a run of one token letter or a character. -/
def formatDateFrom (chrono : Chrono) (date : Day) : ℕ → Text → Text
  | 0, _ => []
  | _ + 1, [] => []
  | fuel + 1, c :: rest =>
    if c = '[' then
      rest.takeWhile (· ≠ ']') ++ formatDateFrom chrono date fuel (rest.dropWhile (· ≠ ']')).tail
    else if isDateToken c then
      emitDateToken chrono date c (1 + (rest.takeWhile (· = c)).length) ++
        formatDateFrom chrono date fuel (rest.dropWhile (· = c))
    else c :: formatDateFrom chrono date fuel rest

def formatDate (chrono : Chrono) (date : Day) (format : Text) : Text := formatDateFrom chrono date format.length format

/-! ## Reading a day -/

inductive FormatToken
  | literal (c : Char)
  | run (c : Char) (length : ℕ)
deriving DecidableEq, Repr

/-- The tokens of a format, met as writing a day meets them. -/
def formatTokensFrom : ℕ → Text → List FormatToken
  | 0, _ => []
  | _ + 1, [] => []
  | fuel + 1, c :: rest =>
    if c = '[' then
      (rest.takeWhile (· ≠ ']')).map .literal ++ formatTokensFrom fuel (rest.dropWhile (· ≠ ']')).tail
    else if isDateToken c then
      .run c (1 + (rest.takeWhile (· = c)).length) :: formatTokensFrom fuel (rest.dropWhile (· = c))
    else .literal c :: formatTokensFrom fuel rest

def formatTokens (format : Text) : List FormatToken := formatTokensFrom format.length format

def FormatToken.isRunOf (wanted : Char) : FormatToken → Bool
  | .run c _ => c = wanted
  | .literal _ => false

/-- Whether a format carries a year, a month and a day of the month. -/
def namesADay (format : Text) : Bool :=
  let has := fun wanted => (formatTokens format).any (FormatToken.isRunOf wanted)
  has 'Y' && has 'M' && has 'D'

structure DateFields where
  year : Option ℤ
  month : Option ℕ
  day : Option ℕ
  isoYear : Option ℤ
  week : Option ℕ

def DateFields.empty : DateFields := ⟨none, none, none, none, none⟩

/-- A calendar date when the format carries one, otherwise the Monday of the ISO week it carries. -/
def DateFields.resolve (chrono : Chrono) (fields : DateFields) : Option Day :=
  match fields.year, fields.month, fields.day with
  | some year, some month, some day => Day.ofYmd year month day
  | _, _, _ => fields.isoYear.bind fun isoYear => fields.week.bind fun week => chrono.isoMonday isoYear week

/-- Exactly so many digits from the start, as a number. -/
def takeDigits (input : Text) (width : ℕ) : Option (ℕ × Text) :=
  if (input.take width).length = width ∧ (input.take width).all Char.isDigit then
    some (numberOf (input.take width), input.drop width)
  else none

/-- Backtracking over the tokens, the longer width first; what is read must be written back the same. -/
def tryMatch (chrono : Chrono) (format full : Text) : List FormatToken → Text → DateFields → Option Day
  | [], input, fields =>
    if !input.isEmpty then none
    else (fields.resolve chrono).bind fun date => if formatDate chrono date format = full then some date else none
  | .literal c :: tokens, input, fields =>
    (stripPrefix [c] input).bind fun input => tryMatch chrono format full tokens input fields
  | .run c run :: tokens, input, fields =>
    let recurse := tryMatch chrono format full tokens
    let number := fun (width : ℕ) (set : ℕ → DateFields) =>
      (takeDigits input width).bind fun r => recurse r.2 (set r.1)
    match c, run with
    | 'Y', 2 => number 2 fun value => { fields with year := some (2000 + value) }
    | 'Y', _ => number 4 fun value => { fields with year := some value }
    | 'M', 1 => [2, 1].findSome? fun width => number width fun value => { fields with month := some value }
    | 'M', 2 => number 2 fun value => { fields with month := some value }
    | 'M', run => monthNames.zipIdx.findSome? fun (name, index) =>
        (stripPrefix (if run = 3 then name.take 3 else name) input).bind fun rest =>
          recurse rest { fields with month := some (index + 1) }
    | 'D', 1 => [2, 1].findSome? fun width => number width fun value => { fields with day := some value }
    | 'D', _ => number 2 fun value => { fields with day := some value }
    | 'd', 1 => number 1 fun _ => fields
    | 'd', 2 => weekdayNames.findSome? fun name => (stripPrefix (name.take 2) input).bind fun rest => recurse rest fields
    | 'd', run => weekdayNames.findSome? fun name =>
        (stripPrefix (if run = 3 then name.take 3 else name) input).bind fun rest => recurse rest fields
    | 'W', 1 => [2, 1].findSome? fun width => number width fun value => { fields with week := some value }
    | 'W', _ => number 2 fun value => { fields with week := some value }
    | 'G', 2 => number 2 fun value => { fields with isoYear := some (2000 + value) }
    | 'G', _ => number 4 fun value => { fields with isoYear := some value }
    | _, _ => none

/-- The date that is written as exactly this text in a format. -/
def parseDate (chrono : Chrono) (text format : Text) : Option Day :=
  tryMatch chrono format text (formatTokens format) text .empty

end Thock.SyncCore
