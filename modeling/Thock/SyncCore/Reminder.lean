import Thock.SyncCore.Dates

/-!
# Reminders

The `(@…)` token and `<!--rem:…-->` id grammar, where a token counts, mirror lines, the state of
a reminder and the edits of its home line, as the desk runs them.

Ranges are offsets into the line they were read from, in characters.
-/

namespace Thock.SyncCore

open TextScan

/-! ## Records -/

/-- A wall-clock time with minutes. -/
structure ClockTime where
  hour : ℕ
  minute : ℕ
  hour_le : hour ≤ 23
  minute_le : minute ≤ 59
deriving DecidableEq, Repr

def ClockTime.ofHm (hour minute : ℕ) : Option ClockTime :=
  if h : hour ≤ 23 ∧ minute ≤ 59 then some ⟨hour, minute, h.1, h.2⟩ else none

def ClockTime.text (time : ClockTime) : Text := padded 2 time.hour ++ ':' :: padded 2 time.minute

/-- When a reminder is due: a day, and a time unless it is date-only. -/
structure Due where
  date : Day
  time : Option ClockTime
deriving DecidableEq, Repr

/-- What a token says, as written. -/
inductive When
  | date (date : Day)
  | dateTime (date : Day) (time : ClockTime)
  | time (time : ClockTime)
deriving DecidableEq, Repr

/-- The due a token names in a note of a day; a time-only token names none elsewhere. -/
def When.due (day : Option Day) : When → Option Due
  | .date named => some ⟨named, none⟩
  | .dateTime named clock => some ⟨named, some clock⟩
  | .time clock => day.map fun day => ⟨day, some clock⟩

/-- The token a line carries, its range with the tildes around a struck one. -/
structure Token where
  range : Span
  when_ : When
  struck : Bool
deriving DecidableEq, Repr

/-- A task line's checkbox. -/
inductive Task
  | open_
  | done
deriving DecidableEq, Repr

inductive ReminderState
  | open_
  | closed
  | dropped
deriving DecidableEq, Repr

/-- What one line says about a reminder; a line without a checkbox is prose. -/
structure LineReminder where
  id : Option Text
  token : Option Token
  task : Option Task
  due : Option Due
deriving DecidableEq, Repr

def LineReminder.state (reminder : LineReminder) : ReminderState :=
  match reminder.token with
  | none => .dropped
  | some token => if token.struck ∨ reminder.task = some .done then .closed else .open_

/-- One line of a note that carries a reminder token or id. -/
structure Appearance where
  line : ℕ
  reminder : LineReminder
  mirror : Bool
deriving DecidableEq, Repr

structure DailyNotes where
  dir : Text
  filename : Text

/-- What a reader needs to know about the vault. -/
structure ReminderConfig where
  daily : DailyNotes
  dayHeadings : List Text

/-- What a struck mirror line says happened to its reminder. -/
inductive MirrorMark
  | moved (date : Day)
  | dropped
  | removed
deriving DecidableEq, Repr

/-- A line in a daily note's day section. -/
structure MirrorLine where
  checked : Bool
  time : Option ClockTime
  text : Text
  mark : Option MirrorMark
  carried : Option Due
  note : Text
  id : Text
deriving DecidableEq, Repr

namespace Reminder

/-! ## The grammar -/

def idLength : ℕ := 12

def idOpen : Text := "<!--rem:".toList

def calendarMarker : Text := "<!--gcal:".toList

def tokenOpen : Text := "(@".toList

def strike : Text := "~~".toList

def mirrorSeparator : Text := " · ".toList

/-- Whether a text holds a pattern. -/
def holds (pattern text : Text) : Bool := (splitFirst pattern text).isSome

/-- What stands before a link's bar, or all of it. -/
def beforeBar (text : Text) : Text := ((splitFirst ['|'] text).map Prod.fst).getD text

/-- Twelve lowercase hex digits. -/
def isId (text : Text) : Bool := text.length = idLength && text.all fun c => c.isDigit || ('a' ≤ c && c ≤ 'f')

def idMarker (id : Text) : Text := idOpen ++ id ++ commentClose

def idInComment (comment : Text) : Option Text :=
  (stripPrefix idOpen comment).bind fun rest => (stripSuffix commentClose rest).bind fun id =>
    if isId id then some id else none

/-- `YYYY-MM-DD`, a real calendar date. -/
def parseIsoDate (text : Text) : Option Day :=
  if text.length ≠ 10 ∨ text[4]? ≠ some '-' ∨ text[7]? ≠ some '-' ∨
      ¬text.zipIdx.all fun (c, index) => index = 4 || index = 7 || c.isDigit then none
  else Day.ofYmd (numberOf (text.take 4)) (numberOf (slice text 5 7)) (numberOf (text.drop 8))

/-- `H:MM` or `HH:MM`. -/
def parseClock (text : Text) : Option ClockTime :=
  (splitFirst [':'] text).bind fun (hours, minutes) =>
    if ¬(1 ≤ hours.length ∧ hours.length ≤ 2) ∨ minutes.length ≠ 2 ∨ ¬(hours ++ minutes).all Char.isDigit then none
    else ClockTime.ofHm (numberOf hours) (numberOf minutes)

def parseWhen (text : Text) : Option When :=
  match splitFirst [' '] text with
  | some (date, time) => (parseIsoDate date).bind fun date => (parseClock time).map (When.dateTime date)
  | none => if holds [':'] text then (parseClock text).map When.time else (parseIsoDate text).map When.date

/-- The year as the date library writes it: four digits, or a sign and at least four. -/
def yearText (year : ℤ) : Text :=
  if 0 ≤ year ∧ year ≤ 9999 then padded 4 year.toNat
  else (if year < 0 then '-' else '+') :: padded 4 year.natAbs

def dateText (date : Day) : Text := yearText date.year ++ '-' :: padded 2 date.month ++ '-' :: padded 2 date.day

/-- `YYYY-MM-DD` or `YYYY-MM-DD HH:MM`. -/
def parseDue (text : Text) : Option Due :=
  match splitFirst [' '] text with
  | some (date, time) => (parseIsoDate date).bind fun date => (parseClock time).map fun time => ⟨date, some time⟩
  | none => (parseIsoDate text).map fun date => ⟨date, none⟩

def dueText (due : Due) : Text := dateText due.date ++ due.time.elim [] fun time => ' ' :: time.text

/-! ## Scanning a line -/

structure InlineScan where
  /-- Code spans and comments, where a token is text. -/
  excluded : List Span
  /-- The last id among the line's comments. -/
  id : Option Text
  commentOpen : Bool
  /-- Where a comment this line opens and never closes starts. -/
  unclosedComment : Option ℕ
deriving DecidableEq, Repr

/-- The end of the run of backticks that closes a code span. -/
def closingBackticks (line : Text) (start run : ℕ) : Option ℕ := closingRun line run (line.length + 1) start

/-- How long a comment is, from what follows its opening; `<!-->` and `<!--->` are whole ones. -/
def commentLength (inside : Text) : Option ℕ :=
  if ['>'].isPrefixOf inside then some (commentOpen.length + 1)
  else if ['-', '>'].isPrefixOf inside then some (commentOpen.length + 2)
  else (splitFirst commentClose inside).map fun r => commentOpen.length + r.1.length + commentClose.length

/-- The pass over a line from a cursor on: a code span or a comment, whichever opens first, hides what it holds. -/
def scanInlineFrom (line : Text) : ℕ → ℕ → List Span → Option Text → InlineScan
  | 0, _, excluded, id => ⟨excluded, id, false, none⟩
  | fuel + 1, cursor, excluded, id =>
    if ¬cursor < line.length then ⟨excluded, id, false, none⟩
    else match stripPrefix commentOpen (line.drop cursor) with
      | some inside =>
        match commentLength inside with
        | some length =>
          let stop := cursor + length
          let id := (idInComment (slice line cursor stop)).or id
          scanInlineFrom line fuel stop (excluded ++ [⟨cursor, stop⟩]) id
        | none => ⟨excluded ++ [⟨cursor, line.length⟩], id, true, some cursor⟩
      | none =>
        if (line)[cursor]? = some '`' then
          let run := runLength '`' line cursor
          match closingBackticks line (cursor + run) run with
          | some stop => scanInlineFrom line fuel stop (excluded ++ [⟨cursor, stop⟩]) id
          | none => scanInlineFrom line fuel (cursor + run) excluded id
        else scanInlineFrom line fuel (cursor + 1) excluded id

/-- The pass over a whole line, a comment of an earlier line being open or not. -/
def scanInline (line : Text) (inComment : Bool) : InlineScan :=
  if inComment then
    match splitFirst commentClose line with
    | some (before, _) =>
      let cursor := before.length + commentClose.length
      scanInlineFrom line (line.length + 1) cursor [⟨0, cursor⟩] none
    | none => ⟨[⟨0, line.length⟩], none, true, none⟩
  else scanInlineFrom line (line.length + 1) 0 [] none

/-- Where the line's own text ends: before a comment it opens and never closes. -/
def writableEnd (line : Text) : ℕ := (scanInline line false).unclosedComment.getD line.length

/-- The last token that counts, `found` being the last before an offset. -/
def lastTokenFrom (line : Text) (excluded : List Span) : ℕ → ℕ → Option Token → Option Token
  | 0, _, found => found
  | fuel + 1, search, found =>
    match findFrom tokenOpen line search with
    | none => found
    | some start =>
      let search := start + tokenOpen.length
      if ['\\'].isSuffixOf (line.take start) then lastTokenFrom line excluded fuel search found
      else match findFrom [')'] line search with
        | none => found
        | some close =>
          let stop := close + 1
          if excluded.any fun range => range.start < stop && start < range.stop then
            lastTokenFrom line excluded fuel search found
          else match parseWhen (slice line search close) with
            | none => lastTokenFrom line excluded fuel search found
            | some when_ =>
              let struck := strike.isSuffixOf (line.take start) && strike.isPrefixOf (line.drop stop)
              let range : Span :=
                if struck then ⟨start - strike.length, stop + strike.length⟩ else ⟨start, stop⟩
              lastTokenFrom line excluded fuel search (some ⟨range, when_, struck⟩)

def lastToken (line : Text) (excluded : List Span) : Option Token :=
  lastTokenFrom line excluded (line.length + 1) 0 none

/-- Text after its blockquote markers, one for each unit of fuel at most. -/
def stripQuotes : ℕ → Text → Text
  | 0, rest => rest
  | fuel + 1, rest =>
    match stripPrefix ['>'] rest with
    | some inner => stripQuotes fuel (trimStart inner)
    | none => rest

def stripQuoteMarkers (text : Text) : Text := stripQuotes text.length (trimStart text)

/-- A list item's checkbox and the offset of the character inside it. -/
def taskOf (line : Text) : Option (Task × ℕ) :=
  let trimmed := stripQuoteMarkers line
  let afterMarker := stripListMarker trimmed
  if afterMarker.length = trimmed.length then none
  else
    let mark := line.length - afterMarker.length + 1
    let box := afterMarker.take 4
    if box = "[ ] ".toList then some (.open_, mark)
    else if box = "[x] ".toList ∨ box = "[X] ".toList then some (.done, mark)
    else none

/-- What a line says, and whether a comment is open at its end. -/
def readLine (line : Text) (day : Option Day) (inComment : Bool) : Option LineReminder × Bool :=
  let scan := scanInline line inComment
  if holds calendarMarker line then (none, scan.commentOpen)
  else
    let token := lastToken line scan.excluded
    let task := (taskOf line).map Prod.fst
    let reminder :=
      if token.isSome ∨ scan.id.isSome then
        some { id := scan.id, token, task, due := token.bind fun token => token.when_.due day }
      else none
    (reminder, scan.commentOpen)

def parseLine (line : Text) (day : Option Day) : Option LineReminder := (readLine line day false).1

/-! ## Edits of a home line -/

/-- The canonical token for a due on a line whose note's day is the home day. -/
def tokenText (due : Due) (homeDay : Option Day) : Text :=
  match due.time with
  | some time =>
    if homeDay = some due.date then tokenOpen ++ time.text ++ [')'] else tokenOpen ++ dueText due ++ [')']
  | none => tokenOpen ++ dueText due ++ [')']

def replaceRange (line : Text) (range : Span) (with_ : Text) : Text :=
  line.take range.start ++ with_ ++ line.drop range.stop

/-- Removes a range and one side's white space. -/
def removeRange (line : Text) (range : Span) : Text :=
  let before := line.take range.start
  let after := line.drop range.stop
  if (trim after).isEmpty then trimEnd before
  else if ¬after.head?.any isWhitespace then trimEnd before ++ after
  else if before.isEmpty ∨ before.getLast?.any isWhitespace then before ++ trimStart after
  else before ++ after

/-- Where the trailing comments of a text start, one of them for each unit of fuel at most. -/
def trailingCommentsFrom : ℕ → Text → ℕ
  | 0, tail => tail.length
  | fuel + 1, tail =>
    if ¬commentClose.isSuffixOf tail then tail.length
    else match splitLast commentOpen tail with
      | none => tail.length
      | some (before, _) =>
        let innerStart := before.length + commentOpen.length
        let innerStop := tail.length - commentClose.length
        -- the last opening must open the comment that the final `-->` closes
        if innerStop < innerStart ∨ holds commentClose (slice tail innerStart innerStop) then tail.length
        else trailingCommentsFrom fuel (trimEnd before)

def trailingCommentsStart (line : Text) : ℕ := trailingCommentsFrom line.length (trimEnd line)

def insertBeforeTrailingComments (line token : Text) : Text :=
  let split := trailingCommentsStart (line.take (writableEnd line))
  let head := line.take split
  let comments := trim (line.drop split)
  head ++ (if ¬head.isEmpty ∧ ¬[' '].isSuffixOf head then [' '] else []) ++ token ++
    (if comments.isEmpty then [] else ' ' :: comments)

/-- Ticks a task or strikes the token in prose. -/
def close (line : Text) : Option Text :=
  (parseLine line none).bind fun reminder =>
    if reminder.state ≠ .open_ then none
    else match taskOf line with
      | some (.open_, mark) => some (replaceRange line ⟨mark, mark + 1⟩ ['x'])
      | _ => reminder.token.map fun token =>
        replaceRange line token.range (strike ++ slice line token.range.start token.range.stop ++ strike)

/-- Unticks the task and unstrikes the token. -/
def reopen (line : Text) : Option Text :=
  (parseLine line none).bind fun reminder =>
    if reminder.state ≠ .closed then none
    else reminder.token.map fun token =>
      let edited :=
        if token.struck then
          replaceRange line token.range
            (slice line (token.range.start + strike.length) (token.range.stop - strike.length))
        else line
      match taskOf edited with
      | some (.done, mark) => replaceRange edited ⟨mark, mark + 1⟩ [' ']
      | _ => edited

/-- Rewrites the token, keeping a strike; a dropped line gets its token back. -/
def rewrite (line : Text) (due : Due) (homeDay : Option Day) : Option Text :=
  (parseLine line homeDay).map fun reminder =>
    let text := tokenText due homeDay
    match reminder.token with
    | some token =>
      if token.struck then replaceRange line token.range (strike ++ text ++ strike)
      else replaceRange line token.range text
    | none => insertBeforeTrailingComments line text

/-- Removes the token and keeps the words and the id. -/
def dropToken (line : Text) : Option Text :=
  (parseLine line none).bind fun reminder => reminder.token.map fun token => removeRange line token.range

/-- Appends the id as the line's last comment, or puts it before a comment the line never closes. -/
def addId (line id : Text) : Option Text :=
  if holds calendarMarker line ∨ ¬isId id then none
  else if (parseLine line none).any fun reminder => reminder.id.isSome then none
  else
    let stop := writableEnd line
    let head := trimEnd (line.take stop)
    let tail := trimEnd (line.drop stop)
    some (head ++ (if head.isEmpty then [] else [' ']) ++ idMarker id ++ (if tail.isEmpty then [] else ' ' :: tail))

/-- Makes a line a reminder: the token rewritten or written, and the id last unless it has one. -/
def attach (line : Text) (due : Due) (id : Text) (homeDay : Option Day) : Option Text :=
  if holds calendarMarker line ∨ ¬isId id then none
  else
    let withToken :=
      match parseLine line homeDay with
      | some _ => rewrite line due homeDay
      | none => some (insertBeforeTrailingComments line (tokenText due homeDay))
    withToken.map fun withToken => (addId withToken id).getD withToken

/-! ## Display text -/

/-! ## Mirror lines -/

def parseMirrorBody (body : Text) : Option (Text × Option MirrorMark) :=
  match stripPrefix strike body with
  | none => if body.isEmpty then none else some (body, none)
  | some struck =>
    (splitLast strike struck).bind fun (text, after) =>
      if after = " (dropped)".toList then some (text, some .dropped)
      else if after = " (removed)".toList then some (text, some .removed)
      else ((stripPrefix " → ".toList after).bind parseIsoDate).map fun date => (text, some (.moved date))

/-- The checkbox of a mirror line and what follows it. -/
def mirrorCheckbox (line : Text) : Option (Bool × Text) :=
  match stripPrefix "- [ ] ".toList line with
  | some rest => some (false, rest)
  | none =>
    match (stripPrefix "- [x] ".toList line).or (stripPrefix "- [X] ".toList line) with
    | some rest => some (true, rest)
    | none => none

/-- What stands before a carried due, and the due. -/
def mirrorCarried (rest : Text) : Text × Option Due :=
  match splitLast mirrorSeparator rest with
  | some (before, due) =>
    match parseDue due with
    | some due => (before, some due)
    | none => (rest, none)
  | none => (rest, none)

/-- The planner time and the body after it. -/
def mirrorTime (rest : Text) : Option ClockTime × Text :=
  match splitFirst [' '] rest with
  | some (time, body) =>
    match if time.length = 5 then parseClock time else none with
    | some time => (some time, body)
    | none => (none, rest)
  | none => (none, rest)

/-- Reads a mirror line, or nothing when the line does not have the shape. -/
def parseMirror (line : Text) : Option MirrorLine :=
  (mirrorCheckbox (trimEnd line)).bind fun (checked, rest) =>
    (splitLast [' '] rest).bind fun (rest, marker) => (idInComment marker).bind fun id =>
      (stripSuffix "]]".toList rest).bind fun rest =>
        (splitLast (mirrorSeparator ++ "[[".toList) rest).bind fun (rest, note) =>
          let note := beforeBar note
          if note.isEmpty ∨ note.any fun c => c = '[' || c = ']' then none
          else
            let (rest, carried) := mirrorCarried rest
            let (time, body) := mirrorTime rest
            (parseMirrorBody body).map fun (text, mark) => { checked, time, text, mark, carried, note, id }

def mirrorBodyText (text : Text) : Option MirrorMark → Text
  | none => text
  | some (.moved date) => strike ++ text ++ strike ++ " → ".toList ++ dateText date
  | some .dropped => strike ++ text ++ strike ++ " (dropped)".toList
  | some .removed => strike ++ text ++ strike ++ " (removed)".toList

/-- A mirror line as it is written. -/
def mirrorText (mirror : MirrorLine) : Text :=
  "- [".toList ++ (if mirror.checked then ['x'] else [' ']) ++ "] ".toList ++
    (mirror.time.elim [] fun time => time.text ++ [' ']) ++ mirrorBodyText mirror.text mirror.mark ++
    (mirror.carried.elim [] fun carried => mirrorSeparator ++ dueText carried) ++
    mirrorSeparator ++ "[[".toList ++ mirror.note ++ "]] ".toList ++ idMarker mirror.id

/-! ## Reading a note -/

/-- The day of the daily note at a path. -/
def dayOf (chrono : Chrono) (daily : DailyNotes) (path : Text) : Option Day :=
  if ¬namesADay daily.filename then none
  else
    let dir := (daily.dir.dropWhile (· = '/')).rdropWhile (· = '/')
    let below := if dir.isEmpty then some path else (stripPrefix dir path).bind (stripPrefix ['/'])
    below.bind fun below => (stripSuffix ".md".toList below).bind fun stem => parseDate chrono stem daily.filename

/-- Heading names match by lowercase equality, or by equal keys. -/
def headingMatches (prim : Primitives) (text name : Text) : Bool :=
  prim.lowercase (trim text) = prim.lowercase (trim name) ||
    (!(headingKey prim name).isEmpty && headingKey prim text = headingKey prim name)

/-- The rows below a heading, down to the next of its level. -/
def rowsBelow (headings : List HeadingLine) (lineCount : ℕ) (heading : HeadingLine) : Span :=
  ⟨heading.index + 1, ((headings.find? fun other => heading.index < other.index ∧ other.level ≤ heading.level).map
    HeadingLine.index).getD lineCount⟩

def daySections (prim : Primitives) (document : Document) (names : List Text) : List Span :=
  (document.headings.filter fun heading => names.any (headingMatches prim heading.text)).map
    (rowsBelow document.headings document.lines.length)

/-- The appearances among numbered lines, a comment being open before them or not. -/
def appearancesFrom (day : Option Day) (protected_ : List Bool) (sections : List Span) :
    ℕ → Bool → List Line → List Appearance
  | _, _, [] => []
  | index, inComment, line :: rest =>
    if protected_[index]?.getD false then appearancesFrom day protected_ sections (index + 1) inComment rest
    else
      let (reminder, inComment) := readLine line.text day inComment
      match reminder with
      | none => appearancesFrom day protected_ sections (index + 1) inComment rest
      | some reminder =>
        let mirror := reminder.token.isNone && reminder.id.isSome &&
          sections.any (fun rows => rows.contains index) && (parseMirror line.text).isSome
        ⟨index, reminder, mirror⟩ :: appearancesFrom day protected_ sections (index + 1) inComment rest

/-- Every reminder line in a note, top to bottom. -/
def parseNote (prim : Primitives) (chrono : Chrono) (text path : Text) (config : ReminderConfig) :
    List Appearance :=
  let document := Document.split text
  let day := dayOf chrono config.daily path
  let sections := if day.isSome then daySections prim document config.dayHeadings else []
  appearancesFrom day document.protected_ sections 0 false document.lines

end Reminder

end Thock.SyncCore
