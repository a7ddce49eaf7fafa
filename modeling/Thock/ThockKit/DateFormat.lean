import Thock.SyncCore.DayNumbers

/-!
# The phone's dates

Writing a day in a moment-style format and reading a text back through one, as the phone does:
a format is walked by Swift characters when a day is written and by scalars when it is read.

What Foundation knows of calendars, how a text divides into characters and when two texts are
equal strings are parameters.
-/

namespace Thock.ThockKit

open TextScan
open SyncCore (Day FormatToken DateFields decimal padded paddedInt isDateToken numberOf)

/-- What the phone asks of its standard library: the characters of a text, each the scalars it is
made of, equality of strings, and the calendar, whose weekdays count from 1 for Sunday. -/
structure Foundation where
  characters : Text → List Text
  sameText : Text → Text → Bool
  weekday : Day → ℕ
  isoWeek : Day → ℕ
  isoWeekYear : Day → ℤ
  adding : Day → ℤ → Day

namespace VaultDay

/-- The day as `YYYY-MM-DD`. -/
def iso (day : Day) : Text := paddedInt 4 day.year ++ '-' :: padded 2 day.month ++ '-' :: padded 2 day.day

def monthNames : List Text :=
  ["January", "February", "March", "April", "May", "June", "July", "August", "September", "October", "November",
    "December"].map String.toList

def weekdayNames : List Text :=
  ["Sunday", "Monday", "Tuesday", "Wednesday", "Thursday", "Friday", "Saturday"].map String.toList

def monthName (day : Day) : Text := monthNames.getD (min (max day.month 1) 12 - 1) []

def weekdayName (foundation : Foundation) (day : Day) : Text :=
  weekdayNames.getD (min (max (foundation.weekday day) 1) 7 - 1) []

def token (foundation : Foundation) (day : Day) (token : Char) (run : ℕ) : Text :=
  match token, run with
  | 'Y', 2 => paddedInt 2 (day.year.tmod 100)
  | 'Y', _ => paddedInt 4 day.year
  | 'M', 1 => decimal day.month
  | 'M', 2 => padded 2 day.month
  | 'M', 3 => (monthName day).take 3
  | 'M', _ => monthName day
  | 'D', 1 => decimal day.day
  | 'D', _ => padded 2 day.day
  | 'd', 1 => decimal (foundation.weekday day - 1)
  | 'd', 2 => (weekdayName foundation day).take 2
  | 'd', 3 => (weekdayName foundation day).take 3
  | 'd', _ => weekdayName foundation day
  | 'W', 1 => decimal (foundation.isoWeek day)
  | 'W', _ => padded 2 (foundation.isoWeek day)
  | 'G', 2 => paddedInt 2 ((foundation.isoWeekYear day).tmod 100)
  | 'G', _ => paddedInt 4 (foundation.isoWeekYear day)
  | _, _ => weekdayName foundation day

/-- The walk over the characters of a format. -/
def formattedFrom (foundation : Foundation) (day : Day) : ℕ → List Text → Text
  | 0, _ => []
  | _ + 1, [] => []
  | fuel + 1, character :: rest =>
    if character = ['['] then
      (rest.takeWhile (· ≠ [']'])).flatten ++ formattedFrom foundation day fuel (rest.dropWhile (· ≠ [']'])).tail
    else match character with
      | [c] =>
        if isDateToken c then
          token foundation day c (1 + (rest.takeWhile (· = [c])).length) ++
            formattedFrom foundation day fuel (rest.dropWhile (· = [c]))
        else c :: formattedFrom foundation day fuel rest
      | _ => character ++ formattedFrom foundation day fuel rest

def formatted (foundation : Foundation) (day : Day) (format : Text) : Text :=
  formattedFrom foundation day (foundation.characters format).length (foundation.characters format)

/-- The Monday of an ISO week, from the fourth of January of its year. -/
def isoWeekMonday (foundation : Foundation) (year : ℤ) (week : ℕ) : Day :=
  let fourth := Day.fourth year
  let offset := (foundation.weekday fourth + 5) % 7
  foundation.adding fourth (-offset + 7 * (week - 1))

end VaultDay

namespace DateFormat

def monthNames : List Text := VaultDay.monthNames

def weekdayNames : List Text :=
  ["Monday", "Tuesday", "Wednesday", "Thursday", "Friday", "Saturday", "Sunday"].map String.toList

def validDay (year : ℤ) (month day : ℕ) : Option Day :=
  if h : (1 ≤ month ∧ month ≤ 12) ∧ 1 ≤ day then
    if hday : day ≤ (SyncCore.monthLengths year).getD (month - 1) 0 then
      some ⟨year, month, day, h.1.1, h.2, hday⟩
    else none
  else none

/-- A calendar date when the format carries one, otherwise the Monday of the ISO week it carries. -/
def resolve (foundation : Foundation) (fields : DateFields) : Option Day :=
  match fields.year, fields.month, fields.day with
  | some year, some month, some day => validDay year month day
  | _, _, _ => fields.isoYear.bind fun isoYear => fields.week.bind fun week =>
      if 1 ≤ week ∧ week ≤ 53 then some (VaultDay.isoWeekMonday foundation isoYear week) else none

/-- The tokens of a format, by scalars. -/
def tokensFrom : ℕ → Text → List FormatToken
  | 0, _ => []
  | _ + 1, [] => []
  | fuel + 1, character :: rest =>
    if character = '[' then
      (rest.takeWhile (· ≠ ']')).map .literal ++ tokensFrom fuel (rest.dropWhile (· ≠ ']')).tail
    else if isDateToken character then
      .run character (1 + (rest.takeWhile (· = character)).length) :: tokensFrom fuel (rest.dropWhile (· = character))
    else .literal character :: tokensFrom fuel rest

def tokens (format : Text) : List FormatToken := tokensFrom format.length format

/-- Whether a format carries a year, a month and a day of the month. -/
def namesADay (format : Text) : Bool :=
  let has := fun wanted => (tokens format).any (FormatToken.isRunOf wanted)
  has 'Y' && has 'M' && has 'D'

/-- Exactly so many digits from the start, as a number. -/
def digits (input : Text) (width : ℕ) : Option (ℕ × Text) :=
  let head := input.take width
  if ¬(head.length = width ∧ head.all Char.isDigit) then none else some (numberOf head, input.drop width)

/-- Backtracking over the tokens, the longer width first. -/
def match_ (foundation : Foundation) (format text : Text) : List FormatToken → Text → DateFields → Option Day
  | [], input, fields =>
    if !input.isEmpty then none
    else (resolve foundation fields).bind fun day =>
      if foundation.sameText (VaultDay.formatted foundation day format) text then some day else none
  | .literal c :: rest, input, fields =>
    if input.head? = some c then match_ foundation format text rest input.tail fields else none
  | .run c run :: rest, input, fields =>
    let next := match_ foundation format text rest
    let number := fun (width : ℕ) (set : ℕ → DateFields) => (digits input width).bind fun r => next r.2 (set r.1)
    let eitherWidth := fun (set : ℕ → DateFields) => (number 2 set).or (number 1 set)
    let named := fun (names : List Text) (set : ℕ → DateFields) =>
      names.zipIdx.findSome? fun (name, index) =>
        if name.isPrefixOf input then next (input.drop name.length) (set index) else none
    match c, run with
    | 'Y', 2 => number 2 fun value => { fields with year := some (2000 + value) }
    | 'Y', _ => number 4 fun value => { fields with year := some value }
    | 'M', 1 => eitherWidth fun value => { fields with month := some value }
    | 'M', 2 => number 2 fun value => { fields with month := some value }
    | 'M', run => named (monthNames.map fun name => if run = 3 then name.take 3 else name) fun index =>
        { fields with month := some (index + 1) }
    | 'D', 1 => eitherWidth fun value => { fields with day := some value }
    | 'D', _ => number 2 fun value => { fields with day := some value }
    | 'd', 1 => number 1 fun _ => fields
    | 'd', run =>
      named (weekdayNames.map fun name => if run = 2 then name.take 2 else if run = 3 then name.take 3 else name)
        fun _ => fields
    | 'W', 1 => eitherWidth fun value => { fields with week := some value }
    | 'W', _ => number 2 fun value => { fields with week := some value }
    | 'G', 2 => number 2 fun value => { fields with isoYear := some (2000 + value) }
    | 'G', _ => number 4 fun value => { fields with isoYear := some value }
    | _, _ => none

/-- The day that is written as this text in a format. -/
def parse (foundation : Foundation) (text format : Text) : Option Day :=
  match_ foundation format text (tokens format) text .empty

end DateFormat

namespace Template

/-- The walk over a template; unknown tokens stay. -/
def expandFrom (foundation : Foundation) (day : Day) (time title : Text) : ℕ → Text → Text
  | 0, rest => rest
  | fuel + 1, rest =>
    match splitFirst "\x7b\x7b".toList rest with
    | none => rest
    | some (before, after) =>
      match splitFirst "\x7d\x7d".toList after with
      | none => rest
      | some (token, behind) =>
        let expansion :=
          if token = "date".toList then VaultDay.iso day
          else if token = "time".toList then time
          else if token = "title".toList then title
          else if "date:".toList.isPrefixOf token then VaultDay.formatted foundation day (token.drop 5)
          else "\x7b\x7b".toList ++ token ++ "\x7d\x7d".toList
        before ++ expansion ++ expandFrom foundation day time title fuel behind

def expand (foundation : Foundation) (template : Text) (day : Day) (time title : Text) : Text :=
  expandFrom foundation day time title template.length template

end Template

end Thock.ThockKit
