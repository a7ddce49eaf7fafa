import Thock.Desk.Calendar
import Thock.SyncCore.Reminder

/-!
# Reconciling the day's reminders

The reconciler that keeps the Reminders subsection of a daily note, under the Day Planner, in step
with the reminders due that day. It inserts and replaces lines and removes none; a line the person
edited is theirs.

The configuration keeps the names of the two headings; where the settings come from, and when the
reconciler runs, is settled before.
-/

namespace Thock.Desk.ReminderDay

open TextScan SyncCore

/-! ## Reminders -/

/-- Where a reminder stands, as the index reads it. -/
inductive DayStatus
  | open_
  | closed
  /-- The home line kept its id and lost its token. -/
  | dropped
  /-- No line carries the id any more. -/
  | removed
deriving DecidableEq, Repr

/-- One reminder the index knows. -/
structure DayReminder where
  id : Text
  home : Text
  text : Text
  due : Option Due
  status : DayStatus
  previousText : Option Text
  reopened : Bool
deriving DecidableEq, Repr

/-- The names of the planner heading and of the day section's; the first of each is the one written. -/
structure DayConfig where
  plannerHeadings : List Text
  dayHeadings : List Text
deriving DecidableEq, Repr

/-- A mirror line the person edited, left as they wrote it. -/
structure Frozen where
  id : Text
  line : Text
  text : Text
deriving DecidableEq, Repr

inductive DayReconciled
  | noPlannerSection
  | noSectionRoom
  | edits (edits : List LineEdit) (frozen : List Frozen)
deriving DecidableEq, Repr

/-! ## The words of a mirror -/

def mirrorTextChars : ℕ := 80

def emptyMirrorText : Text := "Reminder".toList

def defaultDayHeading : Text := "Reminders".toList

/-- A backslash before every token opening that has none, one opening for each unit of fuel at most. -/
def escapeTokensFrom : ℕ → Text → Text → Text
  | 0, escaped, rest => escaped ++ rest
  | fuel + 1, escaped, rest =>
    match splitFirst Reminder.tokenOpen rest with
    | none => escaped ++ rest
    | some (before, after) =>
      let escaped := escaped ++ before
      let escaped := if ['\\'].isSuffixOf escaped then escaped else escaped ++ ['\\']
      escapeTokensFrom fuel (escaped ++ Reminder.tokenOpen) after

def escapeTokens (text : Text) : Text := escapeTokensFrom text.length [] text

/-- A text cut on a word, with an ellipsis when anything was cut. -/
def cutText (text : Text) (maxChars : ℕ) : Text :=
  if text.length ≤ maxChars then text
  else
    let head := text.take maxChars
    let upToSpace := head.rdropWhile fun c => !isWhitespace c
    let cut :=
      if 1 < upToSpace.length ∧ ¬(text.drop maxChars).head?.any isWhitespace then upToSpace.dropLast else head
    trimEnd cut ++ ['…']

/-- A home line's words as a mirror line writes them. -/
def homeMirrorText (text : Text) : Text :=
  let clean := [' '].intercalate (words (replaceAll Reminder.strike [] (replaceAll commentOpen [] text)))
  if clean.isEmpty then emptyMirrorText else cutText (escapeTokens clean) mirrorTextChars

/-- The link target of a note's path. -/
def noteLink (path : Text) : Text := (stripSuffix ".md".toList path).getD path

/-- What a text has after words it begins with as whole words. -/
def wordsTrailing (text words : Text) : Option Text :=
  (stripPrefix words text).bind fun rest => if rest.isEmpty ∨ rest.head?.any isWhitespace then some rest else none

/-- The mirror's words after the home line's change; nothing when the person rewrote them. -/
def followedText (current : Text) (reminder : DayReminder) : Option Text :=
  if reminder.text.isEmpty then some current
  else
    let expected := homeMirrorText reminder.text
    if (wordsTrailing current expected).isSome then some current
    else reminder.previousText.bind fun previous =>
      (wordsTrailing current (homeMirrorText previous)).map (expected ++ ·)

/-! ## Order -/

def compareDays (a b : Day) : Ordering :=
  (compare a.year b.year).then ((compare a.month b.month).then (compare a.day b.day))

def compareTimes (a b : ClockTime) : Ordering := (compare a.hour b.hour).then (compare a.minute b.minute)

/-- Absent before present. -/
def compareOptions {α : Type} (cmp : α → α → Ordering) : Option α → Option α → Ordering
  | none, none => .eq
  | none, some _ => .lt
  | some _, none => .gt
  | some a, some b => cmp a b

def compareDues (a b : Due) : Ordering := (compareDays a.date b.date).then (compareOptions compareTimes a.time b.time)

def compareTexts (a b : Text) : Ordering := if a = b then .eq else if textLe a b then .lt else .gt

/-- Timed mirrors first by time, then untimed ones, then carried ones by their original due. -/
structure SortKey where
  group : ℕ
  time : Option ClockTime
  due : Option Due
deriving DecidableEq, Repr

def sortKey (mirror : MirrorLine) : SortKey :=
  match mirror.time, mirror.carried with
  | some time, _ => ⟨0, some time, none⟩
  | none, none => ⟨1, none, none⟩
  | none, some due => ⟨2, none, some due⟩

def compareKeys (a b : SortKey) : Ordering :=
  (compare a.group b.group).then ((compareOptions compareTimes a.time b.time).then
    (compareOptions compareDues a.due b.due))

/-- The order in which mirrors are inserted. -/
def mirrorLe (a b : MirrorLine) : Bool :=
  ((compareKeys (sortKey a) (sortKey b)).then ((compareTexts a.text b.text).then (compareTexts a.id b.id))) ≠ .gt

/-! ## Mirrors -/

inductive Placement
  /-- Due on the note's day, at its time or untimed. -/
  | day (time : Option ClockTime)
  /-- Still open from an earlier day, listed in today's note. -/
  | carried (due : Due)
  /-- Due on another day. -/
  | moved (date : Day)
deriving DecidableEq, Repr

def placement (due : Due) (day today : Day) : Placement :=
  if due.date = day then .day due.time
  else if day = today ∧ compareDays due.date today = .lt then .carried due
  else .moved due.date

/-- The mirror a reminder is listed with, when it belongs in the day's note. -/
def newMirror (reminder : DayReminder) (day today : Day) : Option MirrorLine :=
  reminder.due.bind fun due =>
    let mirror (time : Option ClockTime) (carried : Option Due) : MirrorLine :=
      ⟨false, time, homeMirrorText reminder.text, none, carried, noteLink reminder.home, reminder.id⟩
    match placement due day today with
    | .day time => some (mirror time none)
    | .carried due => some (mirror none (some due))
    | .moved _ => none

/-- The mirror as it should read now; nothing when the person edited its words. -/
def updatedMirror (mirror : MirrorLine) (reminder : DayReminder) (day today : Day) : Option MirrorLine :=
  (followedText mirror.text reminder).map fun text =>
    let note := if reminder.status = .removed then mirror.note else noteLink reminder.home
    let base : MirrorLine := ⟨mirror.checked, none, text, none, none, note, mirror.id⟩
    match reminder.status, reminder.due with
    | .dropped, _ => { base with mark := some .dropped }
    | .removed, _ => { base with mark := some .removed }
    | _, none => mirror
    | status, some due =>
      let checked := if status = .closed then true else mirror.checked && !reminder.reopened
      match placement due day today with
      | .day time => { base with checked, time }
      | .carried due => { base with checked, carried := some due }
      | .moved date => { base with checked, mark := some (.moved date) }

/-! ## Sections -/

/-- The rows below the day section's heading, one level below the planner's. -/
def findDaySection (reader : HeadingReader) (lines : List Text) (plannerRange : RowRange) (plannerLevel : ℕ)
    (config : DayConfig) : Option RowRange :=
  let childLevel := plannerLevel + 1
  let names := HeadingNames.new reader config.dayHeadings
  let candidates := plannerRange.rows.filterMap fun row => lines[row]?.map fun line => (row, line)
  (bestHeading reader names (some childLevel) candidates).map fun (start, _) =>
    let stop := (List.range' (start + 1) (plannerRange.stop - (start + 1))).find? fun row =>
      (lines[row]?.bind headingLevelAndText).any fun h => h.1 ≤ childLevel
    ⟨start + 1, stop.getD plannerRange.stop⟩

/-- The section, made the planner section's last child. -/
def sectionCreationEdits (lines : List Text) (plannerRange : RowRange) (plannerLevel : ℕ) (config : DayConfig)
    (wanted : List MirrorLine) : List LineEdit :=
  let row := plannerRange.stop
  let heading := config.dayHeadings.head?.getD defaultDayHeading
  let spaceAbove := decide (0 < row) && lines[row - 1]?.any fun line => !isBlankLine line
  let spaceBelow := lines[row]?.any fun line => !isBlankLine line
  let block := (if spaceAbove then [[]] else []) ++ [List.replicate (plannerLevel + 1) '#' ++ [' '] ++ heading] ++
    wanted.map Reminder.mirrorText ++ (if spaceBelow then [[]] else [])
  block.map fun text => ⟨row, .insert text⟩

/-! ## The pass over the section -/

/-- The first reminder of each id not seen yet. -/
def distinctFrom : List Text → List DayReminder → List DayReminder
  | _, [] => []
  | seen, reminder :: rest =>
    if reminder.id ∈ seen then distinctFrom seen rest else reminder :: distinctFrom (reminder.id :: seen) rest

def reminderOf (reminders : List DayReminder) (id : Text) : Option DayReminder := reminders.find? fun r => r.id = id

/-- What the pass over the section's rows has gathered. -/
structure DayPass where
  edits : List LineEdit
  frozen : List Frozen
  /-- The ids a reminder was found for. -/
  updated : List Text
  /-- Each mirror's row and sort key after the pass, for placing inserts. -/
  placed : List (ℕ × SortKey)
deriving DecidableEq, Repr

def DayPass.start : DayPass := ⟨[], [], [], []⟩

/-- The id of a line that has lost its token. -/
def mirroredId (day : Day) (line : Text) : Option Text :=
  (Reminder.parseLine line (some day)).bind fun parsed => if parsed.token.isNone then parsed.id else none

/-- One line of the section that carries an id. -/
def DayPass.line (pass : DayPass) (reminders : List DayReminder) (day today : Day) (row : ℕ) (line id : Text) :
    DayPass :=
  let known := if id ∈ pass.updated then none else reminderOf reminders id
  let pass := if known.isSome then { pass with updated := id :: pass.updated } else pass
  let freeze (reminder : DayReminder) : List Frozen := pass.frozen ++ [⟨id, line, reminder.text⟩]
  match known, Reminder.parseMirror line with
  | none, none => pass
  | none, some mirror => { pass with placed := pass.placed ++ [(row, sortKey mirror)] }
  | some reminder, none => { pass with frozen := freeze reminder }
  | some reminder, some mirror =>
    match updatedMirror mirror reminder day today with
    | none => { pass with placed := pass.placed ++ [(row, sortKey mirror)], frozen := freeze reminder }
    | some next =>
      let rendered := Reminder.mirrorText next
      { pass with
        placed := pass.placed ++ [(row, sortKey next)]
        edits := if rendered = trimEnd line then pass.edits else pass.edits ++ [⟨row, .replace rendered⟩] }

/-- One row of the section. -/
def DayPass.row (lines : List Text) (reminders : List DayReminder) (day today : Day) (pass : DayPass) (row : ℕ) :
    DayPass :=
  match lines[row]? with
  | none => pass
  | some line =>
    match mirroredId day line with
    | none => pass
    | some id => pass.line reminders day today row line id

/-- The insert of a mirror, before the first placed one that sorts after it. -/
def insertEdit (placed : List (ℕ × SortKey)) (fallbackRow : ℕ) (mirror : MirrorLine) : LineEdit :=
  let row := (placed.find? fun place => compareKeys place.2 (sortKey mirror) = .gt).map Prod.fst
  ⟨row.getD fallbackRow, .insert (Reminder.mirrorText mirror)⟩

/-- The mirrors the note lacks, in the order of their insertion. -/
def wantedMirrors (lines : List Text) (notePath : Text) (day today : Day) (reminders : List DayReminder) :
    List MirrorLine :=
  let idsInNote := lines.filterMap fun line => (Reminder.parseLine line (some day)).bind LineReminder.id
  ((reminders.filter fun reminder =>
    reminder.status = .open_ && reminder.home ≠ notePath && reminder.id ∉ idsInNote).filterMap fun reminder =>
      newMirror reminder day today).insertionSort fun a b => mirrorLe a b

/-- The edits that bring a daily note's Reminders section in step with the reminders. -/
def reconcile (reader : HeadingReader) (note notePath : Text) (day today : Day) (reminders : List DayReminder)
    (config : DayConfig) : DayReconciled :=
  if compareDays day today = .lt then .edits [] []
  else
    let ls := lines note
    let reminders := distinctFrom [] reminders
    let wanted := wantedMirrors ls notePath day today reminders
    match plannerSection reader ls (HeadingNames.new reader config.plannerHeadings) with
    | none => if wanted.isEmpty then .edits [] [] else .noPlannerSection
    | some (plannerRange, plannerLevel) =>
      match findDaySection reader ls plannerRange plannerLevel config with
      | none =>
        if wanted.isEmpty then .edits [] []
        else if plannerLevel ≥ 6 then .noSectionRoom
        else .edits (sectionCreationEdits ls plannerRange plannerLevel config wanted) []
      | some section_ =>
        let pass := section_.rows.foldl (DayPass.row ls reminders day today) .start
        let inserts := wanted.map (insertEdit pass.placed (afterLastContentRow ls section_))
        .edits (sortByRow (pass.edits ++ inserts)) pass.frozen

/-! ## The lines it replaces -/

/-- A line of the day section that mirrors a known reminder. -/
structure Mirrors (reader : HeadingReader) (note : Text) (day : Day) (reminders : List DayReminder)
    (config : DayConfig) (row : ℕ) (line : Text) : Prop where
  inSection : ∃ planner section_,
    plannerSection reader (lines note) (HeadingNames.new reader config.plannerHeadings) = some planner ∧
      findDaySection reader (lines note) planner.1 planner.2 config = some section_ ∧ row ∈ section_.rows
  mirror : ∃ mirror id, Reminder.parseMirror line = some mirror ∧ mirroredId day line = some id ∧
    ∃ reminder ∈ reminders, reminder.id = id

section

variable {lines : List Text} {reminders : List DayReminder} {day today : Day}

/-- A replacement of a row whose line mirrors a reminder. -/
def Rewrites (lines : List Text) (reminders : List DayReminder) (day : Day) (rows : List ℕ) (edit : LineEdit) : Prop :=
  edit.row ∈ rows ∧ ∃ line mirror id text, lines[edit.row]? = some line ∧ edit.kind = .replace text ∧
    Reminder.parseMirror line = some mirror ∧ mirroredId day line = some id ∧ ∃ reminder ∈ reminders, reminder.id = id

theorem reminderOf_some {id : Text} {reminder : DayReminder} (h : reminderOf reminders id = some reminder) :
    reminder ∈ reminders ∧ reminder.id = id :=
  ⟨List.mem_of_find?_eq_some h, by simpa using List.find?_some h⟩

/-- What a line of the section adds to the edits is its own replacement, and only when it mirrors a reminder. -/
theorem DayPass.line_edits (pass : DayPass) (row : ℕ) (line id : Text) :
    (pass.line reminders day today row line id).edits = pass.edits ∨
      ∃ mirror reminder text, reminderOf reminders id = some reminder ∧ Reminder.parseMirror line = some mirror ∧
        (pass.line reminders day today row line id).edits = pass.edits ++ [⟨row, .replace text⟩] := by
  have hedits (known : Bool) :
      (if known = true then { pass with updated := id :: pass.updated } else pass).edits = pass.edits := by
    cases known <;> rfl
  unfold DayPass.line
  dsimp only
  split
  · exact Or.inl (hedits _)
  · exact Or.inl (hedits _)
  · exact Or.inl (hedits _)
  · rename_i reminder mirror hknown hmirror
    split
    · exact Or.inl (hedits _)
    · rename_i next hnext
      by_cases hsame : Reminder.mirrorText next = trimEnd line
      · rw [if_pos hsame]
        exact Or.inl (hedits _)
      · rw [if_neg hsame, hedits]
        refine Or.inr ⟨mirror, reminder, _, ?_, hmirror, rfl⟩
        split at hknown
        · cases hknown
        · exact hknown

theorem DayPass.row_edits (pass : DayPass) (row : ℕ) {rows : List ℕ} (hrow : row ∈ rows)
    (h : ∀ edit ∈ pass.edits, Rewrites lines reminders day rows edit) :
    ∀ edit ∈ (pass.row lines reminders day today row).edits, Rewrites lines reminders day rows edit := by
  unfold DayPass.row
  split
  · exact h
  · rename_i line hline
    split
    · exact h
    · rename_i id hid
      rcases @DayPass.line_edits reminders day today pass row line id with
        hsame | ⟨mirror, reminder, text, hreminder, hmirror, hnew⟩
      · rw [hsame]
        exact h
      · rw [hnew]
        intro edit hedit
        rcases List.mem_append.mp hedit with hedit | hedit
        · exact h edit hedit
        · obtain rfl := List.mem_singleton.mp hedit
          exact ⟨hrow, line, mirror, id, text, hline, rfl, hmirror, hid, reminder, reminderOf_some hreminder⟩

/-- Every edit the pass over the section makes rewrites a mirror of a reminder it knows. -/
theorem pass_edits {rows todo : List ℕ} (htodo : todo ⊆ rows) {pass : DayPass}
    (h : ∀ edit ∈ pass.edits, Rewrites lines reminders day rows edit) :
    ∀ edit ∈ (todo.foldl (DayPass.row lines reminders day today) pass).edits, Rewrites lines reminders day rows edit := by
  induction todo generalizing pass with
  | nil => exact h
  | cons row todo ih =>
    rw [List.cons_subset] at htodo
    exact ih htodo.2 (pass.row_edits row htodo.1 h)

theorem mem_distinctFrom {seen : List Text} {reminder : DayReminder} (h : reminder ∈ distinctFrom seen reminders) :
    reminder ∈ reminders := by
  induction reminders generalizing seen with
  | nil => exact h
  | cons other rest ih =>
    unfold distinctFrom at h
    split at h
    · exact List.mem_cons_of_mem _ (ih h)
    · rcases List.mem_cons.mp h with rfl | h
      · exact List.mem_cons_self
      · exact List.mem_cons_of_mem _ (ih h)

end

/-- Only a line of the day section that mirrors a reminder is replaced. -/
theorem replaces_mirrors {reader : HeadingReader} {note notePath : Text} {reminders : List DayReminder} {day today : Day}
    {config : DayConfig} {edits : List LineEdit} {frozen : List Frozen}
    (h : reconcile reader note notePath day today reminders config = .edits edits frozen) {row : ℕ} {text : Text}
    (hedit : ⟨row, .replace text⟩ ∈ edits) :
    ∃ line, (lines note)[row]? = some line ∧ Mirrors reader note day reminders config row line := by
  unfold reconcile at h
  split at h
  · cases h
    cases hedit
  · dsimp only at h
    split at h
    · split at h
      · cases h
        cases hedit
      · cases h
    · rename_i plannerRange plannerLevel hplanner
      split at h
      · split at h
        · cases h
          cases hedit
        · split at h
          · cases h
          · cases h
            obtain ⟨inserted, -, heq⟩ := List.mem_map.mp hedit
            cases heq
      · rename_i section_ hsection
        cases h
        rw [sortByRow, (List.perm_insertionSort _ _).mem_iff] at hedit
        rcases List.mem_append.mp hedit with hedit | hedit
        · obtain ⟨hrow, line, mirror, id, -, hline, -, hmirror, hid, reminder, hreminder, hsame⟩ :=
            pass_edits (List.Subset.refl section_.rows)
              (show ∀ edit ∈ DayPass.start.edits, Rewrites _ _ _ _ edit from fun edit hnone => by cases hnone) _ hedit
          exact ⟨line, hline, ⟨_, section_, hplanner, hsection, hrow⟩, mirror, id, hmirror, hid, reminder,
            mem_distinctFrom hreminder, hsame⟩
        · obtain ⟨mirror, -, heq⟩ := List.mem_map.mp hedit
          cases heq

end Thock.Desk.ReminderDay
