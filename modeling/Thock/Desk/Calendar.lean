import Mathlib.Data.List.Sort
import Thock.Desk.DayPlan

/-!
# Reconciling the calendar section

The reconciler that keeps the Calendar subsection of a day's note in line with the fetched
events, and the application of its edits. A synced line is parsed into the pieces of itself,
so that an edit splices the line instead of writing it anew: everything outside the region
between the checkbox and the marker passes through as it was.

The configuration keeps the two fields the reconciler reads; which events are fetched, and
how often, is settled before it runs.
-/

namespace Thock.Desk

open TextScan

/-! ## Events -/

inductive EventKind
  | default
  | focusTime
  | outOfOffice
deriving DecidableEq, Repr

/-- The marker suffix that records a kind in the note. -/
def EventKind.markerSuffix : EventKind → Option Text
  | .default => none
  | .focusTime => some "focus".toList
  | .outOfOffice => some "ooo".toList

def EventKind.fromMarkerSuffix (suffix : Text) : Option EventKind :=
  if suffix = "focus".toList then some .focusTime
  else if suffix = "ooo".toList then some .outOfOffice
  else none

/-- Minutes since midnight, clamped to the day as fetching leaves them. -/
structure EventTime where
  start : ℕ
  stop : ℕ
  start_lt : start < minutesPerDay
  stop_le : stop ≤ minutesPerDay
deriving DecidableEq, Repr

structure CalendarEvent where
  id : Text
  title : Text
  /-- Absent for all-day events, which are written without a time token. -/
  time : Option EventTime
  kind : EventKind
deriving DecidableEq, Repr

/-- The child heading the syncer maintains and the names of the planner heading. -/
structure CalendarConfig where
  section_ : Text
  plannerHeading : List Text
deriving DecidableEq, Repr

def CalendarConfig.plannerHeadingNames (reader : HeadingReader) (config : CalendarConfig) : HeadingNames :=
  HeadingNames.new reader config.plannerHeading

/-! ## Markers, titles and tokens -/

def markerPrefix : Text := "<!--gcal:".toList

def markerEnd : Text := "-->".toList

def cancelledSuffix : Text := "~~ (cancelled)".toList

/-- A kind suffix as it stands after the id. -/
def suffixPart (suffix : Option Text) : Text := suffix.elim [] fun s => ':' :: s

/-- The marker a synced line ends with. -/
def renderMarker (id : Text) (kind : EventKind) : Text :=
  markerPrefix ++ (id ++ suffixPart kind.markerSuffix) ++ markerEnd

def isHexDigit (c : Char) : Bool := c.isDigit || ('a' ≤ c && c ≤ 'f') || ('A' ≤ c && c ≤ 'F')

/-- The id and kind suffix of a well-formed marker payload. -/
def parseMarkerPayload (payload : Text) : Option (Text × Option Text) :=
  let parts : Text × Option Text :=
    match splitFirst [':'] payload with
    | some (id, suffix) => (id, some suffix)
    | none => (payload, none)
  if parts.1.isEmpty || !parts.1.all isHexDigit then none
  else if parts.2.any fun suffix => suffix.isEmpty || !suffix.all Char.isLower then none
  else some parts

/-- The title as it may appear in a note line: no `<!--` and no line breaks. -/
def sanitizeTitle (title : Text) : Text :=
  trim ([' '].intercalate
    ((((replaceAll "<!--".toList [] title).splitOnP fun c => c = '\n' || c = '\r').map trim).filter
      fun part => !part.isEmpty))

/-- Two decimal digits, which every hour and minute of a day has. -/
def pad2 (n : ℕ) : Text := [Nat.digitChar (n / 10), Nat.digitChar (n % 10)]

def formatTimeToken (start stop : ℕ) : Text :=
  pad2 (start / 60) ++ [':'] ++ pad2 (start % 60) ++ " - ".toList ++ pad2 (stop / 60) ++ [':'] ++ pad2 (stop % 60)

/-- The token a line of the event is expected to carry. -/
def CalendarEvent.token (event : CalendarEvent) : Option Text :=
  event.time.map fun t => formatTimeToken t.start t.stop

def renderSyncedLine (event : CalendarEvent) : Text :=
  "- [ ] ".toList ++ (match event.token with
    | some token => token ++ [' ']
    | none => []) ++ (if event.title.isEmpty then [] else event.title ++ [' ']) ++ renderMarker event.id event.kind

/-- The offset of the task text of a checkbox line. -/
def checkboxTextOffset (line : Text) : Option ℕ :=
  match trimStart line with
  | bullet :: afterBullet =>
    let afterSpace := trimStart afterBullet
    if ¬(bullet = '-' ∨ bullet = '*' ∨ bullet = '+') then none
    else if afterSpace.length = afterBullet.length then none
    else match afterSpace with
      | '[' :: mark :: ']' :: afterCheckbox =>
        let text := trimStart afterCheckbox
        if ¬(mark = ' ' ∨ mark = 'x' ∨ mark = 'X') then none
        else if text.length = afterCheckbox.length ∧ ¬text.isEmpty then none
        else some (line.length - text.length)
      | _ => none
  | [] => none

/-- Nothing, or white space first. -/
def endsWord (t : Text) : Bool :=
  match t with
  | [] => true
  | c :: _ => isWhitespace c

/-- The start minute and the length of a leading time token, followed by white space or nothing. -/
def leadingTimeToken (text : Text) : Option (ℕ × ℕ) :=
  match parseTimePrefix text with
  | none => none
  | some (start, afterStart) =>
    let alone := if endsWord afterStart then some (start, text.length - afterStart.length) else none
    match parseRangeEnd afterStart with
    | some (_, afterEnd) => if endsWord afterEnd then some (start, text.length - afterEnd.length) else alone
    | none => alone

/-- What follows the event's title on a line; nothing when the title was rewritten. -/
def titleTrailing (text eventTitle : Text) : Option Text :=
  if eventTitle.isEmpty then some text
  else match stripPrefix eventTitle text with
    | some rest => if endsWord rest then some rest else none
    | none => none

/-! ## Synced lines -/

/-- A line of the section that matches the synced-line grammar, in the pieces of itself. -/
structure SyncedLine where
  row : ℕ
  line : Text
  id : Text
  /-- Start minute of the time token, for insert ordering. -/
  sortStart : Option ℕ
  /-- Indent, bullet and checkbox. -/
  head : Text
  token : Option Text
  /-- White space before the text. -/
  space : Text
  /-- Between the token and the marker, trimmed. -/
  text : Text
  /-- White space before the marker. -/
  gap : Text
  marker : Text
  /-- The marker's kind suffix as written. -/
  markerSuffix : Option Text
  /-- White space after the marker. -/
  tail : Text
deriving DecidableEq, Repr

/-- The pieces of the region between the checkbox and the marker. -/
structure Region where
  sortStart : Option ℕ
  token : Option Text
  space : Text
  text : Text
  gap : Text
deriving DecidableEq, Repr

def Region.parse (region : Text) : Region :=
  let (sortStart, tokenLen) : Option ℕ × ℕ :=
    match leadingTimeToken region with
    | some (start, len) => (some start, len)
    | none => (none, 0)
  let afterToken := region.drop tokenLen
  { sortStart
    token := if 0 < tokenLen then some (region.take tokenLen) else none
    space := afterToken.takeWhile isWhitespace
    text := trim afterToken
    gap := (trimStart afterToken).rtakeWhile isWhitespace }

def SyncedLine.parse (row : ℕ) (line : Text) : Option SyncedLine := do
  let trimmed := trimEnd line
  let (beforeMarker, afterPrefix) ← splitLast markerPrefix trimmed
  let payload ← stripSuffix markerEnd afterPrefix
  let (id, markerSuffix) ← parseMarkerPayload payload
  let textOffset ← checkboxTextOffset line
  let region := Region.parse (beforeMarker.drop textOffset)
  some
    { row, line, id, markerSuffix
      sortStart := region.sortStart, token := region.token, space := region.space, text := region.text
      gap := region.gap
      head := beforeMarker.take textOffset
      marker := markerPrefix ++ payload ++ markerEnd
      tail := line.rtakeWhile isWhitespace }

/-- The marker to write for a kind; nothing when the line's marker says it already or carries a
suffix this build does not know. -/
def SyncedLine.markerUpdateFor (l : SyncedLine) (kind : EventKind) : Option Text :=
  if l.markerSuffix = kind.markerSuffix then none
  else if l.markerSuffix.any fun suffix => (EventKind.fromMarkerSuffix suffix).isNone then none
  else some (renderMarker l.id kind)

/-- What is struck through and what follows the mark, when the text is the cancelled form. -/
def SyncedLine.cancelledParts (l : SyncedLine) : Option (Text × Text) :=
  (stripPrefix "~~".toList l.text).bind (splitFirst cancelledSuffix)

def SyncedLine.isCancelled (l : SyncedLine) : Bool := l.cancelledParts.isSome

/-- The line with the region between the checkbox and the marker replaced, and its marker too
when one is given; everything outside is spliced through. -/
def SyncedLine.rebuilt (l : SyncedLine) (token : Option Text) (text : Text) (marker : Option Text) : Text :=
  let before := if l.token.isSome then l.head else l.head ++ l.space
  let content := (match token with
    | some token => token ++ if text.isEmpty then [] else [' ']
    | none => []) ++ text
  before ++ content ++ l.gap ++ marker.getD l.marker ++ l.tail

def SyncedLine.withTextRegion (l : SyncedLine) (token : Option Text) (text : Text) : Text :=
  l.rebuilt token text none

/-- The line with its whole text struck through. -/
def SyncedLine.cancelledForm (l : SyncedLine) : Text :=
  l.withTextRegion l.token ("~~".toList ++ l.text ++ cancelledSuffix)

/-- The line brought in sync with an event; nothing when the person renamed it. -/
def SyncedLine.updatedFor (l : SyncedLine) (event : CalendarEvent) : Option Text :=
  let marker := l.markerUpdateFor event.kind
  match l.cancelledParts with
  | some (_, trailing) => some (l.rebuilt event.token (trimEnd (event.title ++ trailing)) marker)
  | none =>
    match titleTrailing l.text event.title with
    | none => none
    | some trailing =>
      if l.token = event.token then
        some (match marker with
          | some marker => l.rebuilt l.token l.text (some marker)
          | none => l.line)
      else some (l.rebuilt event.token (trimEnd (event.title ++ trailing)) marker)

/-! ## Edits -/

inductive LineEditKind
  | insert (text : Text)
  | replace (text : Text)
deriving DecidableEq, Repr

/-- An edit in the note's original rows; an insert goes before its row. -/
structure LineEdit where
  row : ℕ
  kind : LineEditKind
deriving DecidableEq, Repr

/-- A synced line frozen because its title no longer matches its event. -/
structure Divergence where
  id : Text
  line : Text
  eventTitle : Text
deriving DecidableEq, Repr

inductive Reconciled
  | noPlannerSection
  | noSectionRoom
  | edits (edits : List LineEdit) (diverged : List Divergence)
deriving DecidableEq, Repr

def LineEdit.inserted (e : LineEdit) : Option Text :=
  match e.kind with
  | .insert text => some text
  | .replace _ => none

def LineEdit.replacement (e : LineEdit) : Option Text :=
  match e.kind with
  | .replace text => some text
  | .insert _ => none

/-- The texts inserted before a row, in list order. -/
def insertsAt (edits : List LineEdit) (row : ℕ) : List Text :=
  (edits.filter fun e => e.row = row).filterMap LineEdit.inserted

/-- The text a row is replaced by; the last one given counts. -/
def replacementAt (edits : List LineEdit) (row : ℕ) : Option Text :=
  ((edits.filter fun e => e.row = row).filterMap LineEdit.replacement).getLast?

/-- Edits in row order, those of one row as they came. -/
def sortByRow (edits : List LineEdit) : List LineEdit :=
  edits.insertionSort fun a b => a.row ≤ b.row

/-- The texts inserted past the last row. -/
def trailingInserts (edits : List LineEdit) (rows : ℕ) : List Text :=
  (sortByRow (edits.filter fun e => rows ≤ e.row)).filterMap LineEdit.inserted

/-- The lines after the edits. -/
def editedLines (lines : List Text) (edits : List LineEdit) : List Text :=
  (numbered lines).flatMap (fun (row, line) => insertsAt edits row ++ [(replacementAt edits row).getD line]) ++
    trailingInserts edits lines.length

def applyLineEdits (note : Text) (edits : List LineEdit) : Text :=
  let text := joinLines (editedLines (lines note) edits)
  if note.getLast? = some '\n' ∨ (note.isEmpty ∧ ¬text.isEmpty) then text ++ ['\n'] else text

/-! ## Reconciling -/

/-- Whether one text comes no later than another, by code points. -/
def textLe : Text → Text → Bool
  | [], _ => true
  | _ :: _, [] => false
  | a :: as, b :: bs => a < b || (a = b && textLe as bs)

/-- Absent before present. -/
def optionLe : Option ℕ → Option ℕ → Bool
  | none, _ => true
  | some _, none => false
  | some a, some b => a ≤ b

/-- The order of inserts: start, end, title, id. -/
def eventLe (a b : CalendarEvent) : Bool :=
  let startA := a.time.map EventTime.start
  let startB := b.time.map EventTime.start
  let stopA := a.time.map EventTime.stop
  let stopB := b.time.map EventTime.stop
  if startA ≠ startB then optionLe startA startB
  else if stopA ≠ stopB then optionLe stopA stopB
  else if a.title ≠ b.title then textLe a.title b.title
  else textLe a.id b.id

def sortEvents (events : List CalendarEvent) : List CalendarEvent :=
  events.insertionSort fun a b => eventLe a b

/-- The first event of each id not seen yet, titles sanitized. -/
def distinctFrom : List Text → List CalendarEvent → List CalendarEvent
  | _, [] => []
  | seen, event :: rest =>
    if event.id ∈ seen then distinctFrom seen rest
    else { event with title := sanitizeTitle event.title } :: distinctFrom (event.id :: seen) rest

def distinctEvents (events : List CalendarEvent) : List CalendarEvent := distinctFrom [] events

/-- The content rows of the child heading, one level below the planner heading. -/
def findChildSection (reader : HeadingReader) (lines : List Text) (plannerRange : RowRange)
    (plannerLevel : ℕ) (section_ : Text) : Option RowRange :=
  let childLevel := plannerLevel + 1
  let names := HeadingNames.new reader [section_]
  let candidates := plannerRange.rows.filterMap fun row => lines[row]?.map fun line => (row, line)
  (bestHeading reader names (some childLevel) candidates).map fun (start, _) =>
    let stop := (List.range' (start + 1) (plannerRange.stop - (start + 1))).find? fun row =>
      (lines[row]?.bind headingLevelAndText).any fun h => h.1 ≤ childLevel
    ⟨start + 1, stop.getD plannerRange.stop⟩

def isBlankLine (line : Text) : Bool := (trim line).isEmpty

/-- The row past the last line of a range that is not blank. -/
def afterLastContentRow (lines : List Text) (range : RowRange) : ℕ :=
  ((range.rows.reverse.find? fun row => lines[row]?.any fun line => !isBlankLine line).map (· + 1)).getD
    range.start

/-- The block that creates the section at the end of the planner section. -/
def sectionCreationEdits (lines : List Text) (plannerRange : RowRange) (plannerLevel : ℕ)
    (section_ : Text) (events : List CalendarEvent) : List LineEdit :=
  let row := plannerRange.stop
  let spaceAbove := decide (0 < row) && lines[row - 1]?.any fun line => !isBlankLine line
  let spaceBelow := lines[row]?.any fun line => !isBlankLine line
  let block := (if spaceAbove then [[]] else []) ++
    [List.replicate (plannerLevel + 1) '#' ++ [' '] ++ section_, []] ++
    (sortEvents events).map renderSyncedLine ++ (if spaceBelow then [[]] else [])
  block.map fun text => ⟨row, .insert text⟩

/-- The synced lines of the section. -/
def syncedLines (lines : List Text) (range : RowRange) : List SyncedLine :=
  range.rows.filterMap fun row => lines[row]?.bind (SyncedLine.parse row)

/-- The line an id stands for: the first that carries it. -/
def lineOf (synced : List SyncedLine) (id : Text) : Option SyncedLine := synced.find? fun l => l.id = id

/-- The edit a listed event asks of its line. -/
def updateEdit (synced : List SyncedLine) (event : CalendarEvent) : Option LineEdit :=
  (lineOf synced event.id).bind fun l =>
    match l.updatedFor event with
    | some replacement => if replacement ≠ l.line then some ⟨l.row, .replace replacement⟩ else none
    | none => none

/-- The frozen line a listed event finds. -/
def divergence (synced : List SyncedLine) (event : CalendarEvent) : Option Divergence :=
  (lineOf synced event.id).bind fun l =>
    match l.updatedFor event with
    | some _ => none
    | none => some ⟨event.id, l.line, event.title⟩

/-- The mark on a line whose event is not listed. -/
def cancelEdit (events : List CalendarEvent) (l : SyncedLine) : Option LineEdit :=
  if (events.any fun event => event.id = l.id) || l.isCancelled then none
  else some ⟨l.row, .replace l.cancelledForm⟩

/-- The insert of an event no line stands for, before the first line that starts later. -/
def insertEdit (synced : List SyncedLine) (fallbackRow : ℕ) (event : CalendarEvent) : LineEdit :=
  let key := event.time.map EventTime.start
  let row := (synced.find? fun l => !optionLe l.sortStart key).map SyncedLine.row
  ⟨row.getD fallbackRow, .insert (renderSyncedLine event)⟩

/-- The edits that bring the Calendar section in line with the events. -/
def reconcile (reader : HeadingReader) (config : CalendarConfig) (note : Text)
    (events : List CalendarEvent) : Reconciled :=
  let ls := lines note
  match plannerSection reader ls (config.plannerHeadingNames reader) with
  | none => .noPlannerSection
  | some (plannerRange, plannerLevel) =>
    let events := distinctEvents events
    match findChildSection reader ls plannerRange plannerLevel config.section_ with
    | none =>
      if events.isEmpty then .edits [] []
      else if plannerLevel ≥ 6 then .noSectionRoom
      else .edits (sectionCreationEdits ls plannerRange plannerLevel config.section_ events) []
    | some range =>
      let synced := syncedLines ls range
      let inserts := sortEvents (events.filter fun event => (lineOf synced event.id).isNone)
      let edits := events.filterMap (updateEdit synced) ++ synced.filterMap (cancelEdit events) ++
        inserts.map (insertEdit synced (afterLastContentRow ls range))
      .edits (sortByRow edits) (events.filterMap (divergence synced))

end Thock.Desk
