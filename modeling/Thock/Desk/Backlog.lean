import Mathlib.Data.List.Sort
import Thock.Desk.DayPlan
import Thock.Lib.Rows
import Thock.SyncCore.Reminder

/-!
# The backlog file

The sections of `backlog.md` with their tasks, and the edits that file a task under Completed or
move it to another section. Each edit replaces a span of the text the backlog was parsed from.

Offsets count characters. Renaming, locating and the edits of daily notes are left out.
-/

namespace Thock.Desk.BacklogFile

open TextScan
open SyncCore (Day Span commentClose words)
open SyncCore.Reminder (parseLine trailingCommentsStart idOpen isId dateText)

inductive SectionKind
  | soon
  | someday
  | completed
deriving DecidableEq, Repr

/-- What the three sections are called in the user's file. -/
structure BacklogHeadings where
  soon : Text
  someday : Text
  completed : Text
deriving DecidableEq, Repr

namespace SectionKind

def all : List SectionKind := [.soon, .someday, .completed]

/-- The built-in heading, tried wherever the configured one is not found. -/
def defaultHeading : SectionKind → Text
  | .soon => "Soon".toList
  | .someday => "Someday".toList
  | .completed => "Completed".toList

def heading (headings : BacklogHeadings) : SectionKind → Text
  | .soon => headings.soon
  | .someday => headings.someday
  | .completed => headings.completed

end SectionKind

/-- The built-in headings. -/
def BacklogHeadings.default_ : BacklogHeadings :=
  ⟨SectionKind.soon.defaultHeading, SectionKind.someday.defaultHeading, SectionKind.completed.defaultHeading⟩

/-- A top-level task of a section, with the span of its line and its children. -/
structure BacklogTask where
  line : ℕ
  span : Span
  textSpan : Span
  text : Text
  checked : Bool
  category : Option Text
deriving DecidableEq, Repr

/-- A heading deeper than its section's own, which names a group of tasks. -/
structure Category where
  name : Text
  line : ℕ
deriving DecidableEq, Repr

/-- The tasks of a section, and its category headings in file order. -/
structure BacklogSection where
  tasks : List BacklogTask
  categories : List Category
deriving DecidableEq, Repr

structure Backlog where
  sections : SectionKind → BacklogSection

def Backlog.section_ (backlog : Backlog) (kind : SectionKind) : List BacklogTask := (backlog.sections kind).tasks

/-! ## Edits -/

/-- A replacement of a span of the text the model was parsed from. -/
structure Edit where
  range : Span
  newText : Text
deriving DecidableEq, Repr

/-- The edits from the last to the first, edits at one place in the order they come. -/
def backToFront (edits : List Edit) : List Edit := edits.insertionSort fun a b => b.range.start ≤ a.range.start

/-- Applies disjoint edits back to front; an edit that is not within the text is left out. -/
def applyEdits (text : Text) (edits : List Edit) : Text :=
  (backToFront edits).foldl (fun result edit =>
    if edit.range.start ≤ edit.range.stop ∧ edit.range.stop ≤ text.length then
      result.take edit.range.start ++ edit.newText ++ result.drop edit.range.stop
    else result) text

/-! ## Lines and sections -/

/-- A line without its line feed, and its span with it. -/
structure TableLine where
  content : Text
  start : ℕ
  stop : ℕ
deriving DecidableEq, Repr

def lineTableFrom (start : ℕ) : List Text → List TableLine
  | [] => []
  | segment :: later =>
    ⟨Rows.content segment, start, start + segment.length⟩ :: lineTableFrom (start + segment.length) later

def lineTable (text : Text) : List TableLine := lineTableFrom 0 (Rows.segments text)

/-- The lines under the best heading naming `names`, and its level; resolved as the Day Planner's. -/
def sectionLineRange (reader : HeadingReader) (lines : List TableLine) (names : HeadingNames) : Option (RowRange × ℕ) :=
  plannerSection reader (lines.map TableLine.content) names

/-- A section's lines under the configured heading or the built-in one. -/
def resolveSection (reader : HeadingReader) (lines : List TableLine) (kind : SectionKind) (headings : BacklogHeadings) :
    Option (RowRange × ℕ) :=
  sectionLineRange reader lines (HeadingNames.new reader [kind.heading headings, kind.defaultHeading])

/-- The first row of a range whose line passes. -/
def findRow (lines : List TableLine) (start stop : ℕ) (passes : Text → Bool) : Option ℕ :=
  (((lines.take stop).drop start).findIdx? fun line => passes line.content).map (start + ·)

/-- The rows of a section that belong to a category, or to none. -/
def categoryLineRange (lines : List TableLine) (rows : RowRange) (level : ℕ) (category : Option Text) :
    Option RowRange :=
  match category with
  | none =>
    let stop := findRow lines rows.start rows.stop fun line => (headingLevelAndText line).any fun h => level < h.1
    some ⟨rows.start, stop.getD rows.stop⟩
  | some name =>
    (findRow lines rows.start rows.stop fun line =>
      (headingLevelAndText line).any fun h => level < h.1 && h.2 = name).map fun start =>
      let stop := findRow lines (start + 1) rows.stop fun line => (headingLevelAndText line).isSome
      ⟨start + 1, stop.getD rows.stop⟩

/-! ## Tasks -/

def isBlank (line : Text) : Bool := (trim line).isEmpty

/-- Whether a line begins with a blank or a tab. -/
def isIndented (line : Text) : Bool := line.head?.any fun c => c = ' ' || c = '\t'

/-- A list item's checkbox at the start of a line: its state, and the column where the text starts. -/
def parseTopLevelTask (line : Text) : Option (Bool × ℕ) :=
  if isIndented line then none
  else match line with
    | bullet :: afterBullet =>
      if bullet ∉ ['-', '*', '+'] then none
      else
        let afterSpace := afterBullet.dropWhile fun c => c = ' ' || c = '\t'
        if afterSpace.length = afterBullet.length then none
        else match afterSpace with
          | '[' :: mark :: ']' :: afterCheckbox =>
            let text := trimStart afterCheckbox
            let column := line.length - text.length
            if text.length = afterCheckbox.length ∧ text ≠ [] then none
            else if mark = ' ' then some (false, column)
            else if mark = 'x' ∨ mark = 'X' then some (true, column)
            else none
          | _ => none
    | [] => none

/-- Indented lines that are not blank go with the task above them. -/
def isChildLine (line : Text) : Bool := isIndented line && !isBlank line

/-- How many lines below a task go with it: up to the last child, blank lines between children included. -/
def childRun : List Text → ℕ
  | [] => 0
  | line :: rest =>
    if isChildLine line then childRun rest + 1
    else if isBlank line then (if childRun rest = 0 then 0 else childRun rest + 1)
    else 0

/-- The walk over a section's lines, `skip` of which go with the task above them. -/
def parseRows (level : ℕ) : Option Text → List Category → ℕ → ℕ → List TableLine → BacklogSection
  | _, categories, _, _, [] => ⟨[], categories⟩
  | category, categories, row, skip + 1, _ :: rest => parseRows level category categories (row + 1) skip rest
  | category, categories, row, 0, line :: rest =>
    match headingLevelAndText line.content with
    | some (headingLevel, name) =>
      if level < headingLevel then
        -- a heading with no text closes the group it follows without opening one
        let category := if name.isEmpty then none else some name
        let categories :=
          if !name.isEmpty && categories.all (fun other => other.name ≠ name) then categories ++ [⟨name, row⟩]
          else categories
        parseRows level category categories (row + 1) 0 rest
      else parseRows level category categories (row + 1) 0 rest
    | none =>
      match parseTopLevelTask line.content with
      | none => parseRows level category categories (row + 1) 0 rest
      | some (checked, column) =>
        let children := childRun (rest.map TableLine.content)
        let last := (line :: rest)[children]?.getD line
        let found := parseRows level category categories (row + 1) children rest
        { found with tasks :=
            { line := row
              span := ⟨line.start, last.stop⟩
              textSpan := ⟨line.start + column, line.start + line.content.length⟩
              text := line.content.drop column
              checked
              category } :: found.tasks }

def parseBacklog (reader : HeadingReader) (text : Text) (headings : BacklogHeadings) : Backlog where
  sections kind :=
    let lines := lineTable text
    match resolveSection reader lines kind headings with
    | none => ⟨[], []⟩
    | some (range, level) => parseRows level none [] range.start 0 ((lines.take range.stop).drop range.start)

/-! ## Filing a task -/

/-- The task's line and its children, ended by a line feed. -/
def taskBlock (text : Text) (task : BacklogTask) : Text :=
  let raw := slice text task.span.start task.span.stop
  if raw.getLast? = some '\n' then raw else raw ++ ['\n']

/-- An insertion on a line of its own behind a row, with the line feed the row may lack. -/
def insertAfterLine (lines : List TableLine) (row : ℕ) (newText : Text) : Edit :=
  let line := lines[row]?.getD ⟨[], 0, 0⟩
  let hasNewline := line.start + line.content.length < line.stop
  { range := ⟨line.stop, line.stop⟩, newText := if hasNewline then newText else '\n' :: newText }

/-- The last row of a range that is not blank. -/
def lastNonBlank (lines : List TableLine) (range : RowRange) : Option ℕ :=
  (((lines.take range.stop).drop range.start).reverse.findIdx? fun line => !isBlank line.content).map fun behind =>
    min range.stop lines.length - 1 - behind

/-- The insertion of a block at the end of a section's content or of a group in it, the heading
being made where the file lacks it. -/
def appendToSectionEdit (reader : HeadingReader) (text : Text) (kind : SectionKind) (category : Option Text)
    (block : Text) (headings : BacklogHeadings) : Edit :=
  let lines := lineTable text
  match resolveSection reader lines kind headings with
  | none =>
    let lead := if text.isEmpty then [] else if text.getLast? = some '\n' then ['\n'] else ['\n', '\n']
    let body := match category with
      | some name => "### ".toList ++ name ++ ['\n', '\n'] ++ block
      | none => block
    { range := ⟨text.length, text.length⟩
      newText := lead ++ "## ".toList ++ kind.heading headings ++ ['\n', '\n'] ++ body }
  | some (rows, level) =>
    match categoryLineRange lines rows level category with
    | some group =>
      match lastNonBlank lines group with
      | some row => insertAfterLine lines row block
      | none => insertAfterLine lines (group.start - 1) ('\n' :: block)
    | none =>
      let anchor := (lastNonBlank lines rows).getD (rows.start - 1)
      insertAfterLine lines anchor ("\n### ".toList ++ category.getD [] ++ ['\n', '\n'] ++ block)

/-- The first of a pattern's occurrences replaced. -/
def replaceFirst (pattern new text : Text) : Text :=
  match splitFirst pattern text with
  | some (before, after) => before ++ new ++ after
  | none => text

/-- The stamp of a completed task, put in before the trailing comments. -/
def completionStamp (date : Day) : Text := " ✅ ".toList ++ dateText date

/-- A task's line checked off and stamped. -/
def completedLine (checked : Bool) (line : Text) (date : Day) : Text :=
  let line := if checked then trimEnd line else replaceFirst "[ ]".toList "[x]".toList (trimEnd line)
  let split := trailingCommentsStart line
  trimEnd (line.take split) ++ completionStamp date ++ line.drop split

/-- The edits that move a task to the end of Completed, checked off and stamped. -/
def completeTaskEdits (reader : HeadingReader) (text : Text) (task : BacklogTask) (date : Day)
    (headings : BacklogHeadings) : List Edit :=
  let block := taskBlock text task
  let (firstLine, children) := (splitFirst ['\n'] block).getD (block, [])
  let completedBlock := completedLine task.checked firstLine date ++ ['\n'] ++ children
  let completedBlock :=
    if children ≠ [] ∧ children.getLast? ≠ some '\n' then completedBlock ++ ['\n'] else completedBlock
  [{ range := task.span, newText := [] }, appendToSectionEdit reader text .completed none completedBlock headings]

/-! ## Duplicates -/

/-- A task's label and the date of its completion stamp. -/
def splitCompletion (text : Text) : Text × Option Text :=
  let stamped := text.take (trailingCommentsStart text)
  match splitLast ['✅'] stamped with
  | none => (text, none)
  | some (before, behind) =>
    let after := trim behind
    if !after.isEmpty && after.all (fun c => c.isDigit || c = '-') then (trimEnd before, some after) else (text, none)

/-- The scan for reminder ids; one opening for each unit of fuel at most. -/
def removeReminderIdsFrom : ℕ → Text → Text
  | 0, rest => rest
  | fuel + 1, rest =>
    match splitFirst idOpen rest with
    | none => rest
    | some (before, after) =>
      match (splitFirst commentClose after).filter fun r => isId r.1 with
      | some (_, behind) => before ++ ' ' :: removeReminderIdsFrom fuel behind
      | none => before ++ idOpen ++ removeReminderIdsFrom fuel after

def removeReminderIds (text : Text) : Text := removeReminderIdsFrom text.length text

/-- The text with a blank for its reminder token. -/
def removeToken (text : Text) : Text :=
  match (parseLine text none).bind fun reminder => reminder.token with
  | some token => text.take token.range.start ++ ' ' :: text.drop token.range.stop
  | none => text

/-- A task's text for comparison: without reminder ids, token and stamp, in single spaces. -/
def normalizeTaskText (text : Text) : Text :=
  [' '].intercalate (words (splitCompletion (trimEnd (removeToken (removeReminderIds text)))).1)

/-- Whether any section holds a task with this text. -/
def Backlog.containsTask (backlog : Backlog) (text : Text) : Bool :=
  SectionKind.all.any fun kind => (backlog.section_ kind).any fun task =>
    normalizeTaskText task.text = normalizeTaskText text

end Thock.Desk.BacklogFile
