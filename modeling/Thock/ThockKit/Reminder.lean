import Thock.ThockKit.DateFormat
import Thock.ThockKit.TextFile

/-!
# Reminders on the phone

The phone's port of the reminder grammar: its own byte-level searches, its scan of a line, its
edits of a home line, its mirror lines and its reading of a note. The records hold the same
fields on both ends and the literals the same characters, and both are shared. Offsets are in
characters, as on the desk.
-/

namespace Thock.ThockKit

open TextScan
open SyncCore (Span slice Day ClockTime Due When Token Task ReminderState LineReminder Appearance DailyNotes
  ReminderConfig MirrorMark MirrorLine HeadingLine Line Primitives padded numberOf)
open SyncCore (commentOpen commentClose)
open SyncCore.Reminder (InlineScan idLength idOpen calendarMarker tokenOpen strike mirrorSeparator idMarker)

/-! ## Searches -/

namespace Bytes

/-- The first occurrence at or after an index, the text being what follows it. -/
def firstRangeFrom (needle : Text) : ℕ → Text → Option Span
  | _, [] => none
  | index, c :: rest =>
    if needle.isPrefixOf (c :: rest) then some ⟨index, index + needle.length⟩
    else firstRangeFrom needle (index + 1) rest

/-- The first occurrence in the part of a text from an offset on. -/
def firstRange (needle bytes : Text) (start : ℕ) : Option Span :=
  if needle.isEmpty then none else firstRangeFrom needle start (bytes.drop start)

/-- The last occurrence at or before an index. -/
def lastRangeFrom (needle bytes : Text) : ℕ → Option Span
  | 0 => if needle.isPrefixOf bytes then some ⟨0, needle.length⟩ else none
  | index + 1 =>
    if needle.isPrefixOf (bytes.drop (index + 1)) then some ⟨index + 1, index + 1 + needle.length⟩
    else lastRangeFrom needle bytes index

def lastRange (needle bytes : Text) : Option Span :=
  if needle.isEmpty ∨ bytes.length < needle.length then none
  else lastRangeFrom needle bytes (bytes.length - needle.length)

/-- The index of the first such character at or after an offset. -/
def firstIndex (c : Char) (bytes : Text) (start : ℕ) : Option ℕ :=
  ((bytes.drop start).findIdx? (· = c)).map (start + ·)

def lastIndex (c : Char) (bytes : Text) : Option ℕ :=
  (bytes.reverse.findIdx? (· = c)).map fun index => bytes.length - 1 - index

/-- What stands before a link's bar, or all of it. -/
def beforeBar (bytes : Text) : Text :=
  match firstIndex '|' bytes 0 with
  | some bar => bytes.take bar
  | none => bytes

def replacing (bytes : Text) (range : Span) (text : Text) : Text :=
  bytes.take range.start ++ text ++ bytes.drop range.stop

def stripListMarker (text : Text) : Text :=
  if ["- ".toList, "* ".toList, "+ ".toList].any fun marker => marker.isPrefixOf text then text.drop 2
  else
    let digits := (text.takeWhile Char.isDigit).length
    let after := text.drop digits
    if (1 ≤ digits ∧ digits ≤ 9) ∧ (". ".toList.isPrefixOf after ∨ ") ".toList.isPrefixOf after) then after.drop 2
    else text

end Bytes

namespace Reminders

/-! ## The grammar -/

/-- Twelve lowercase hex digits. -/
def isID (text : Text) : Bool :=
  text.length = idLength && text.all fun c => (48 ≤ c.toNat && c.toNat ≤ 57) || (97 ≤ c.toNat && c.toNat ≤ 102)

def idInComment (comment : Text) : Option Text :=
  if ¬idOpen.isPrefixOf comment then none
  else
    let rest := comment.drop idOpen.length
    if ¬commentClose.isSuffixOf rest then none
    else
      let id := rest.take (rest.length - commentClose.length)
      if isID id then some id else none

/-- `YYYY-MM-DD`, a real calendar date. -/
def parseISODate (text : Text) : Option Day :=
  if ¬(text.length = 10 ∧ text[4]? = some '-' ∧ text[7]? = some '-' ∧
      text.zipIdx.all fun (c, offset) => offset = 4 || offset = 7 || c.isDigit) then none
  else DateFormat.validDay (numberOf (slice text 0 4)) (numberOf (slice text 5 7)) (numberOf (slice text 8 10))

/-- `H:MM` or `HH:MM`. -/
def parseClock (text : Text) : Option ClockTime :=
  (Bytes.firstIndex ':' text 0).bind fun colon =>
    let hours := text.take colon
    let minutes := text.drop (colon + 1)
    if ¬((1 ≤ hours.length ∧ hours.length ≤ 2) ∧ minutes.length = 2 ∧ hours.all Char.isDigit ∧
        minutes.all Char.isDigit) then none
    else ClockTime.ofHm (numberOf hours) (numberOf minutes)

def parseWhen (text : Text) : Option When :=
  match Bytes.firstIndex ' ' text 0 with
  | some space =>
    match parseISODate (text.take space), parseClock (text.drop (space + 1)) with
    | some date, some time => some (.dateTime date time)
    | _, _ => none
  | none => if ':' ∈ text then (parseClock text).map When.time else (parseISODate text).map When.date

def timeText (time : ClockTime) : Text := padded 2 time.hour ++ ':' :: padded 2 time.minute

/-- `YYYY-MM-DD` or `YYYY-MM-DD HH:MM`. -/
def parseDue (text : Text) : Option Due :=
  match Bytes.firstIndex ' ' text 0 with
  | some space =>
    match parseISODate (text.take space), parseClock (text.drop (space + 1)) with
    | some date, some time => some ⟨date, some time⟩
    | _, _ => none
  | none => (parseISODate text).map fun date => ⟨date, none⟩

def dueText (due : Due) : Text :=
  match due.time with
  | none => VaultDay.iso due.date
  | some time => VaultDay.iso due.date ++ ' ' :: timeText time

/-! ## Scanning a line -/

/-- The end of the backtick run that closes a code span, one run looked at for each unit of fuel. -/
def closingBackticks (line : Text) (run : ℕ) : ℕ → ℕ → Option ℕ
  | 0, _ => none
  | fuel + 1, search =>
    if ¬search < line.length then none
    else match Bytes.firstIndex '`' line search with
      | none => none
      | some start =>
        let length := ((line.drop start).takeWhile (· = '`')).length
        if length = run then some (start + length) else closingBackticks line run fuel (start + length)

/-- Where the comment that opens at a cursor ends. -/
def commentEnd (line : Text) (cursor : ℕ) : Option ℕ :=
  let inside := line.drop (cursor + commentOpen.length)
  if inside.head? = some '>' then some (cursor + commentOpen.length + 1)
  else if "->".toList.isPrefixOf inside then some (cursor + commentOpen.length + 2)
  else (Bytes.firstRange commentClose line (cursor + commentOpen.length)).map Span.stop

/-- The pass over a line from a cursor on. -/
def scanInlineFrom (line : Text) : ℕ → ℕ → InlineScan → InlineScan
  | 0, _, scan => scan
  | fuel + 1, cursor, scan =>
    match (line)[cursor]? with
    | none => scan
    | some c =>
      if commentOpen.isPrefixOf (line.drop cursor) then
        match commentEnd line cursor with
        | none =>
          { scan with
            excluded := scan.excluded ++ [⟨cursor, line.length⟩], commentOpen := true, unclosedComment := some cursor }
        | some stop =>
          let id := match idInComment (slice line cursor stop) with
            | some found => some found
            | none => scan.id
          scanInlineFrom line fuel stop { scan with id, excluded := scan.excluded ++ [⟨cursor, stop⟩] }
      else if c = '`' then
        let run := ((line.drop cursor).takeWhile (· = '`')).length
        match closingBackticks line run (line.length + 1) (cursor + run) with
        | some stop => scanInlineFrom line fuel stop { scan with excluded := scan.excluded ++ [⟨cursor, stop⟩] }
        | none => scanInlineFrom line fuel (cursor + run) scan
      else scanInlineFrom line fuel (cursor + 1) scan

/-- The pass over a whole line, a comment of an earlier line being open or not. -/
def scanInline (line : Text) (inComment : Bool) : InlineScan :=
  if inComment then
    match Bytes.firstRange commentClose line 0 with
    | none => ⟨[⟨0, line.length⟩], none, true, none⟩
    | some close => scanInlineFrom line (line.length + 1) close.stop ⟨[⟨0, close.stop⟩], none, false, none⟩
  else scanInlineFrom line (line.length + 1) 0 ⟨[], none, false, none⟩

/-- Where the line's own text ends. -/
def writableEnd (line : Text) : ℕ :=
  match (scanInline line false).unclosedComment with
  | some unclosed => unclosed
  | none => line.length

/-- The last token that counts. -/
def lastTokenFrom (line : Text) (excluded : List Span) : ℕ → ℕ → Option Token → Option Token
  | 0, _, found => found
  | fuel + 1, search, found =>
    match Bytes.firstRange tokenOpen line search with
    | none => found
    | some opened =>
      let start := opened.start
      let search := opened.stop
      if 0 < start ∧ (line)[start - 1]? = some '\\' then lastTokenFrom line excluded fuel search found
      else match Bytes.firstIndex ')' line search with
        | none => found
        | some close =>
          let stop := close + 1
          if excluded.any fun range => range.start < stop && start < range.stop then
            lastTokenFrom line excluded fuel search found
          else match parseWhen (slice line search close) with
            | none => lastTokenFrom line excluded fuel search found
            | some when_ =>
              let struck := strike.isSuffixOf (line.take start) && strike.isPrefixOf (line.drop stop)
              let range : Span := if struck then ⟨start - 2, stop + 2⟩ else ⟨start, stop⟩
              lastTokenFrom line excluded fuel search (some ⟨range, when_, struck⟩)

def lastToken (line : Text) (excluded : List Span) : Option Token :=
  lastTokenFrom line excluded (line.length + 1) 0 none

/-- Text after its blockquote markers, one for each unit of fuel at most. -/
def strippingQuotes : ℕ → Text → Text
  | 0, rest => rest
  | fuel + 1, rest => if rest.head? = some '>' then strippingQuotes fuel (trimStart rest.tail) else rest

def stripQuoteMarkers (text : Text) : Text := strippingQuotes text.length (trimStart text)

/-- A list item's checkbox and the offset of the character inside it. -/
def taskOf (line : Text) : Option (Task × ℕ) :=
  let trimmed := stripQuoteMarkers line
  let afterMarker := Bytes.stripListMarker trimmed
  if ¬afterMarker.length ≠ trimmed.length then none
  else
    let mark := line.length - afterMarker.length + 1
    let box := afterMarker.take 4
    if box.length ≠ 4 then none
    else if box = "[ ] ".toList then some (.open_, mark)
    else if box = "[x] ".toList then some (.done, mark)
    else if box = "[X] ".toList then some (.done, mark)
    else none

/-- What a line says, and whether a comment is open at its end. -/
def readLine (line : Text) (day : Option Day) (inComment : Bool) : Option LineReminder × Bool :=
  let scan := scanInline line inComment
  if (Bytes.firstRange calendarMarker line 0).isSome then (none, scan.commentOpen)
  else
    let token := lastToken line scan.excluded
    if ¬(token.isSome ∨ scan.id.isSome) then (none, scan.commentOpen)
    else
      (some ⟨scan.id, token, (taskOf line).map Prod.fst, token.bind fun token => token.when_.due day⟩, scan.commentOpen)

def parseLine (line : Text) (day : Option Day) : Option LineReminder := (readLine line day false).1

/-! ## Edits of a home line -/

/-- The canonical token for a due on a line whose note's day is the home day. -/
def tokenText (due : Due) (homeDay : Option Day) : Text :=
  match due.time with
  | some time =>
    if homeDay = some due.date then tokenOpen ++ timeText time ++ [')'] else tokenOpen ++ dueText due ++ [')']
  | none => tokenOpen ++ dueText due ++ [')']

/-- Removes a range and one side's white space. -/
def removeRange (line : Text) (range : Span) : Text :=
  let before := line.take range.start
  let after := line.drop range.stop
  if (trim after).isEmpty then trimEnd before
  else if ¬after.head?.any isWhitespace then trimEnd before ++ after
  else if before.isEmpty ∨ before.getLast?.any isWhitespace then before ++ trimStart after
  else before ++ after

/-- Where the trailing comments of a text start, one of them for each unit of fuel at most. -/
def trailingCommentsFrom : ℕ → Text → ℕ
  | 0, tail => tail.length
  | fuel + 1, tail =>
    if ¬commentClose.isSuffixOf tail then tail.length
    else match Bytes.lastRange commentOpen tail with
      | none => tail.length
      | some range =>
        let innerStart := range.start + commentOpen.length
        let innerStop := tail.length - commentClose.length
        if innerStart > innerStop ∨ (Bytes.firstRange commentClose (slice tail innerStart innerStop) 0).isSome then
          tail.length
        else trailingCommentsFrom fuel (trimEnd (tail.take range.start))

def trailingCommentsStart (line : Text) : ℕ := trailingCommentsFrom line.length (trimEnd line)

def insertBeforeTrailingComments (line token : Text) : Text :=
  let split := trailingCommentsStart (line.take (writableEnd line))
  let head := line.take split
  let comments := trim (line.drop split)
  head ++ (if ¬head.isEmpty ∧ head.getLast? ≠ some ' ' then [' '] else []) ++ token ++
    (if comments.isEmpty then [] else ' ' :: comments)

/-- Ticks a task or strikes the token in prose. -/
def close (line : Text) : Option Text :=
  match parseLine line none with
  | none => none
  | some reminder =>
    if ¬reminder.state = .open_ then none
    else match taskOf line with
      | some (.open_, mark) => some (Bytes.replacing line ⟨mark, mark + 1⟩ ['x'])
      | _ =>
        match reminder.token with
        | none => none
        | some token =>
          some (Bytes.replacing line token.range (strike ++ slice line token.range.start token.range.stop ++ strike))

/-- Unticks the task and unstrikes the token. -/
def reopen (line : Text) : Option Text :=
  match parseLine line none with
  | none => none
  | some reminder =>
    if ¬reminder.state = .closed then none
    else match reminder.token with
      | none => none
      | some token =>
        let edited :=
          if token.struck then
            Bytes.replacing line token.range (slice line (token.range.start + 2) (token.range.stop - 2))
          else line
        match taskOf edited with
        | some (.done, mark) => some (Bytes.replacing edited ⟨mark, mark + 1⟩ [' '])
        | _ => some edited

/-- Rewrites the token, keeping a strike; a dropped line gets its token back. -/
def rewrite (line : Text) (due : Due) (homeDay : Option Day) : Option Text :=
  match parseLine line homeDay with
  | none => none
  | some reminder =>
    let text := tokenText due homeDay
    match reminder.token with
    | some token =>
      if token.struck then some (Bytes.replacing line token.range (strike ++ text ++ strike))
      else some (Bytes.replacing line token.range text)
    | none => some (insertBeforeTrailingComments line text)

/-- Removes the token and keeps the words and the id. -/
def dropToken (line : Text) : Option Text :=
  match (parseLine line none).bind LineReminder.token with
  | none => none
  | some token => some (removeRange line token.range)

/-- Appends the id as the line's last comment, or puts it before a comment the line never closes. -/
def addID (line id : Text) : Option Text :=
  if ¬((Bytes.firstRange calendarMarker line 0).isNone ∧ isID id) then none
  else if ((parseLine line none).bind LineReminder.id).isSome then none
  else
    let stop := writableEnd line
    let head := trimEnd (line.take stop)
    let tail := trimEnd (line.drop stop)
    let edited := (if ¬head.isEmpty then head ++ [' '] else head) ++ idMarker id
    some (if ¬tail.isEmpty then edited ++ ' ' :: tail else edited)

/-- Makes a line a reminder: the token rewritten or written, and the id last unless it has one. -/
def attach (line : Text) (due : Due) (id : Text) (homeDay : Option Day) : Option Text :=
  if ¬((Bytes.firstRange calendarMarker line 0).isNone ∧ isID id) then none
  else
    let withToken :=
      if (parseLine line homeDay).isSome then rewrite line due homeDay
      else some (insertBeforeTrailingComments line (tokenText due homeDay))
    match withToken with
    | none => none
    | some withToken => some ((addID withToken id).getD withToken)

/-! ## Mirror lines -/

def parseBody (body : Text) : Option (Text × Option MirrorMark) :=
  if ¬strike.isPrefixOf body then if body.isEmpty then none else some (body, none)
  else
    let struck := body.drop 2
    match Bytes.lastRange strike struck with
    | none => none
    | some close =>
      let text := struck.take close.start
      let after := struck.drop close.stop
      if after = " (dropped)".toList then some (text, some .dropped)
      else if after = " (removed)".toList then some (text, some .removed)
      else if ¬" → ".toList.isPrefixOf after then none
      else match parseISODate (after.drop " → ".toList.length) with
        | none => none
        | some date => some (text, some (.moved date))

/-- The checkbox of a mirror line. -/
def mirrorChecked (rest : Text) : Option Bool :=
  if "- [ ] ".toList.isPrefixOf rest then some false
  else if "- [x] ".toList.isPrefixOf rest ∨ "- [X] ".toList.isPrefixOf rest then some true
  else none

/-- What stands before a carried due, and the due. -/
def mirrorCarried (rest : Text) : Text × Option Due :=
  match Bytes.lastRange mirrorSeparator rest with
  | none => (rest, none)
  | some separator =>
    match parseDue (rest.drop separator.stop) with
    | none => (rest, none)
    | some due => (rest.take separator.start, some due)

/-- The planner time and the body after it. -/
def mirrorTime (rest : Text) : Option ClockTime × Text :=
  match Bytes.firstIndex ' ' rest 0 with
  | none => (none, rest)
  | some space =>
    let clock := rest.take space
    if clock.length = 5 then
      match parseClock clock with
      | some parsed => (some parsed, rest.drop (space + 1))
      | none => (none, rest)
    else (none, rest)

/-- Reads a mirror line, or nothing when the line does not have the shape. -/
def parsing (line : Text) : Option MirrorLine :=
  let rest := trimEnd line
  (mirrorChecked rest).bind fun checked =>
    let rest := rest.drop 6
    (Bytes.lastIndex ' ' rest).bind fun space => (idInComment (rest.drop (space + 1))).bind fun id =>
      let rest := rest.take space
      if ¬"]]".toList.isSuffixOf rest then none
      else
        let rest := rest.take (rest.length - 2)
        (Bytes.lastRange (mirrorSeparator ++ "[[".toList) rest).bind fun link =>
          let note := rest.drop link.stop
          let rest := rest.take link.start
          let note := Bytes.beforeBar note
          if ¬(¬note.isEmpty ∧ '[' ∉ note ∧ ']' ∉ note) then none
          else
            let (rest, carried) := mirrorCarried rest
            let (time, body) := mirrorTime rest
            match parseBody body with
            | none => none
            | some (text, mark) => some ⟨checked, time, text, mark, carried, note, id⟩

/-! ## Reading a note -/

/-- The day of the daily note at a path. -/
def day (foundation : Foundation) (daily : DailyNotes) (path : Text) : Option Day :=
  if ¬DateFormat.namesADay daily.filename then none
  else
    let dir := (daily.dir.dropWhile (· = '/')).rdropWhile (· = '/')
    if ¬dir.isEmpty ∧ ¬(dir.isPrefixOf path ∧ (path.drop dir.length).head? = some '/') then none
    else
      let below := if ¬dir.isEmpty then path.drop (dir.length + 1) else path
      if ¬".md".toList.isSuffixOf below then none
      else DateFormat.parse foundation (below.take (below.length - 3)) daily.filename

/-- Heading names match by lowercase equality, or by equal keys. -/
def headingMatches (foundation : Foundation) (prim : Primitives) (text name : Text) : Bool :=
  foundation.sameText (prim.lowercase (trim text)) (prim.lowercase (trim name)) ||
    (!(headingKey prim name).isEmpty && foundation.sameText (headingKey prim text) (headingKey prim name))

/-- The rows below a heading, down to the next of its level. -/
def rowsBelow (headings : List HeadingLine) (lineCount : ℕ) (heading : HeadingLine) : Span :=
  ⟨heading.index + 1, ((headings.find? fun other => other.index > heading.index ∧ other.level ≤ heading.level).map
    HeadingLine.index).getD lineCount⟩

def daySections (foundation : Foundation) (prim : Primitives) (file : TextFile) (names : List Text) : List Span :=
  (file.headings.filter fun heading => names.any (headingMatches foundation prim heading.text)).map
    (rowsBelow file.headings file.lines.length)

/-- The appearances among numbered lines and their mask, a comment being open before them or not. -/
def appearancesFrom (day : Option Day) (content : List Bool) (sections : List Span) :
    ℕ → Bool → List Line → List Appearance
  | _, _, [] => []
  | index, inComment, line :: rest =>
    if ¬content[index]?.getD false then appearancesFrom day content sections (index + 1) inComment rest
    else
      let read := readLine line.text day inComment
      match read.1 with
      | none => appearancesFrom day content sections (index + 1) read.2 rest
      | some reminder =>
        let mirror := reminder.token = none && reminder.id.isSome &&
          (sections.any fun rows => rows.contains index) && (parsing line.text).isSome
        ⟨index, reminder, mirror⟩ :: appearancesFrom day content sections (index + 1) read.2 rest

/-- Every reminder line in a note, top to bottom. -/
def parseNote (foundation : Foundation) (prim : Primitives) (text path : Text) (config : ReminderConfig) :
    List Appearance :=
  let file := TextFile.read text
  let noteDay := day foundation config.daily path
  let sections := if noteDay = none then [] else daySections foundation prim file config.dayHeadings
  appearancesFrom noteDay file.contentMask sections 0 false file.lines

end Reminders

end Thock.ThockKit
