import Thock.Desk.CalendarRepoll
import Thock.Desk.ReminderDay
import Thock.SyncCore.NoteLines

/-!
# What the reconcilers leave alone

The lines of a note after an edit list, each with the ending it should have: a line no edit
replaces keeps its text and its ending, and only marked lines of the maintained section are
replaced. The edits are spliced into the lines and these are joined by line feeds, so a line that
ended in a carriage return and a line feed loses the carriage return.
-/

namespace Thock.Desk

open TextScan SyncCore

/-! ## Rows -/

/-- A row of an edited note, and the ending it must have where that is settled. -/
structure Row where
  text : Text
  ending : Option Ending

/-- A line the edits add or replace, with any ending. -/
def newRow (text : Text) : Row := ⟨text, none⟩

/-- A line no edit replaces keeps its ending; one that ends the note without any may gain one when
lines go in below it. -/
def keptRow (below : Bool) (line : Line) : Row :=
  ⟨line.text, if line.ending = .none ∧ below = true then none else some line.ending⟩

/-- The rows of a note after the edits. -/
def editedRows (note : Text) (edits : List LineEdit) : List Row :=
  let trailing := trailingInserts edits (splitLines note).length
  (splitLines note).zipIdx.flatMap (fun (line, row) =>
      (insertsAt edits row).map newRow ++
        [((replacementAt edits row).map newRow).getD (keptRow (!trailing.isEmpty) line)]) ++
    trailing.map newRow

/-- Rows as a text: all but the last have an ending, and a settled ending is the one written. -/
inductive Written : List Row → Text → Prop
  | nil : Written [] []
  | last {row : Row} {ending : Ending} (h : ∀ settled ∈ row.ending, ending = settled) :
    Written [row] (row.text ++ ending.text)
  | cons {row : Row} {rest : List Row} {t : Text} {ending : Ending} (hne : ending ≠ .none)
      (h : ∀ settled ∈ row.ending, ending = settled) (hrest : Written rest t) :
    Written (row :: rest) (row.text ++ ending.text ++ t)

/-- An edited note in which every line no edit replaces stands as it was. -/
def LeavesRest (note : Text) (edits : List LineEdit) (result : Text) : Prop := Written (editedRows note edits) result

/-! ## Carriage returns -/

/-- The rows that must end in a carriage return and a line feed. -/
def returnRows (rows : List Row) : ℕ := rows.countP fun row => row.ending = some .crLf

theorem Written.count {rows : List Row} {t : Text} (h : Written rows t) :
    (rows.map fun row => row.text.count '\r').sum + returnRows rows ≤ t.count '\r' := by
  have hone : ∀ {row : Row} {ending : Ending}, (∀ settled ∈ row.ending, ending = settled) →
      returnRows [row] ≤ ending.text.count '\r' := by
    intro row ending h
    by_cases hreturn : row.ending = some .crLf
    · rw [h .crLf hreturn]
      simp [returnRows, hreturn, Ending.text]
    · simp [returnRows, hreturn]
  induction h with
  | nil => simp [returnRows]
  | last h =>
    have := hone h
    simp only [List.map_cons, List.map_nil, List.sum_cons, List.sum_nil, List.count_append]
    omega
  | @cons row rest t ending hne h hrest ih =>
    have := hone h
    have hcount : returnRows (row :: rest) = returnRows [row] + returnRows rest := by
      rw [returnRows, ← List.singleton_append, List.countP_append]
      rfl
    rw [hcount]
    simp only [List.map_cons, List.sum_cons, List.count_append]
    omega

theorem joinLines_cons (text : Text) {rest : List Text} (h : rest ≠ []) :
    joinLines (text :: rest) = text ++ ['\n'] ++ joinLines rest := by
  obtain ⟨next, rest, rfl⟩ := List.exists_cons_of_ne_nil h
  simp [joinLines, List.intercalate, List.intersperse]

theorem count_joinLines (texts : List Text) :
    (joinLines texts).count '\r' = (texts.map fun text => text.count '\r').sum := by
  induction texts with
  | nil => rfl
  | cons text rest ih =>
    by_cases hrest : rest = []
    · subst hrest
      simp [joinLines, List.intercalate]
    · rw [joinLines_cons text hrest, List.count_append, List.count_append, ih]
      simp

/-- Rows joined by line feeds stand as they should, when none of them must end otherwise. -/
theorem written_joinLines {rows : List Row} {final : Ending}
    (hfront : ∀ row ∈ rows.dropLast, ∀ settled ∈ row.ending, settled = .lf)
    (hlast : ∀ row ∈ rows.getLast?, ∀ settled ∈ row.ending, settled = final) (hne : rows ≠ []) :
    Written rows (joinLines (rows.map Row.text) ++ final.text) := by
  induction rows with
  | nil => exact absurd rfl hne
  | cons row rest ih =>
    by_cases hrest : rest = []
    · subst hrest
      have hone : joinLines ([row].map Row.text) = row.text := by simp [joinLines, List.intercalate]
      rw [hone]
      exact .last fun settled hsettled => (hlast row rfl settled hsettled).symm
    · rw [List.map_cons, joinLines_cons _ (by simpa using hrest), List.append_assoc]
      rw [List.dropLast_cons_of_ne_nil hrest] at hfront
      refine @Written.cons row rest _ .lf Ending.noConfusion (fun settled hsettled => ?_) (ih ?_ ?_ hrest)
      · exact (hfront row List.mem_cons_self settled hsettled).symm
      · exact fun other hother => hfront other (List.mem_cons_of_mem _ hother)
      · intro other hother
        rw [List.getLast?_cons] at hlast
        rw [hother] at hlast
        exact hlast other rfl

/-! ## The edited note -/

/-- The rows one line of the note leads to. -/
def rowsOf (edits : List LineEdit) (below : Bool) (place : Line × ℕ) : List Row :=
  (insertsAt edits place.2).map newRow ++ [((replacementAt edits place.2).map newRow).getD (keptRow below place.1)]

theorem editedRows_eq (note : Text) (edits : List LineEdit) :
    editedRows note edits =
      (splitLines note).zipIdx.flatMap (rowsOf edits (!(trailingInserts edits (splitLines note).length).isEmpty)) ++
        (trailingInserts edits (splitLines note).length).map newRow := rfl

theorem lines_eq (note : Text) : lines note = (splitLines note).map Line.text := by
  have hchomp : ∀ piece, (terminated piece).text = chomp piece := by
    intro piece
    unfold terminated chomp
    cases stripSuffix ['\r'] piece <;> rfl
  unfold lines splitLines
  rw [List.map_append, List.map_map]
  congr 1
  · exact List.map_congr_left fun piece _ => (hchomp piece).symm
  · cases (pieces note).getLast? with
    | none => rfl
    | some piece => cases piece <;> rfl

theorem text_editedRows (note : Text) (edits : List LineEdit) :
    (editedRows note edits).map Row.text = editedLines (lines note) edits := by
  have hnew : Row.text ∘ newRow = id := rfl
  have hrow (below : Bool) (place : Line × ℕ) : (rowsOf edits below place).map Row.text =
      insertsAt edits place.2 ++ [(replacementAt edits place.2).getD place.1.text] := by
    rw [rowsOf, List.map_append, List.map_map, hnew, List.map_id]
    cases replacementAt edits place.2 <;> rfl
  rw [editedRows_eq, editedLines, lines_eq, List.map_append, List.map_map, hnew, List.map_id, List.length_map,
    List.map_flatMap, numbered, List.zipIdx_map, List.map_map, List.flatMap_map]
  simp only [hrow]
  rfl

/-- A settled ending is that of the line of the note the row keeps. -/
theorem settled_rowsOf {edits : List LineEdit} {below : Bool} {place : Line × ℕ} {row : Row} {settled : Ending}
    (h : row ∈ rowsOf edits below place) (hsettled : settled ∈ row.ending) :
    replacementAt edits place.2 = none ∧ place.1.ending = settled ∧ (settled = .none → below = false) := by
  rcases List.mem_append.mp h with h | h
  · obtain ⟨text, -, rfl⟩ := List.mem_map.mp h
    cases hsettled
  · obtain rfl := List.mem_singleton.mp h
    cases hreplace : replacementAt edits place.2 with
    | some text =>
      rw [hreplace] at hsettled
      cases hsettled
    | none =>
      rw [hreplace] at hsettled
      have hkept : (if place.1.ending = .none ∧ below = true then none else some place.1.ending) = some settled := hsettled
      split at hkept
      · cases hkept
      · rename_i hnot
        obtain rfl := Option.some.inj hkept
        refine ⟨rfl, rfl, fun hnone => ?_⟩
        rw [not_and, Bool.not_eq_true] at hnot
        exact hnot hnone

/-- The lines the edits keep that end in a carriage return and a line feed. -/
def KeepsReturn (note : Text) (edits : List LineEdit) : Prop :=
  ∃ row line, (splitLines note)[row]? = some line ∧ replacementAt edits row = none ∧ line.ending = .crLf

theorem keepsReturn_of_rows {note : Text} {edits : List LineEdit} {place : Line × ℕ} {below : Bool} {row : Row}
    (hplace : place ∈ (splitLines note).zipIdx) (hrow : row ∈ rowsOf edits below place)
    (hreturn : .crLf ∈ row.ending) : KeepsReturn note edits := by
  obtain ⟨hreplace, hending, -⟩ := settled_rowsOf hrow hreturn
  exact ⟨place.2, place.1, by simpa using List.mk_mem_zipIdx_iff_getElem?.mp hplace, hreplace, hending⟩

theorem returnRows_pos {note : Text} {edits : List LineEdit} (h : KeepsReturn note edits) :
    0 < returnRows (editedRows note edits) := by
  obtain ⟨row, line, hline, hreplace, hending⟩ := h
  rw [returnRows, List.countP_pos_iff]
  refine ⟨keptRow (!(trailingInserts edits (splitLines note).length).isEmpty) line, ?_, ?_⟩
  · rw [editedRows_eq]
    refine List.mem_append_left _ (List.mem_flatMap.mpr ⟨(line, row), List.mk_mem_zipIdx_iff_getElem?.mpr hline, ?_⟩)
    rw [rowsOf, hreplace]
    exact List.mem_append_right _ (List.mem_singleton.mpr rfl)
  · simp [keptRow, hending]

/-- How an edited note ends. -/
def finalEnding (note : Text) (edits : List LineEdit) : Ending :=
  if note.getLast? = some '\n' ∨ (note.isEmpty ∧ ¬(joinLines (editedLines (lines note) edits)).isEmpty) then .lf
  else .none

theorem applyLineEdits_eq (note : Text) (edits : List LineEdit) :
    applyLineEdits note edits = joinLines ((editedRows note edits).map Row.text) ++ (finalEnding note edits).text := by
  rw [text_editedRows, applyLineEdits, finalEnding]
  split
  · rfl
  · exact (List.append_nil _).symm

/-- An edited note ends as the note did. -/
theorem finalEnding_of_last {note : Text} {front : List Line} {last : Line} (h : splitLines note = front ++ [last])
    (edits : List LineEdit) (hreturn : last.ending ≠ .crLf) : finalEnding note edits = last.ending := by
  have hnote : note = textOfLines front ++ last.whole := by
    rw [← textOfLines_splitLines note, h, textOfLines_append, textOfLines_cons, textOfLines_nil, List.append_nil]
  have hlast : WellFormed [last] := (h ▸ wellFormed_splitLines note : WellFormed (front ++ [last])).back
  unfold finalEnding
  rcases hlast with ⟨hterminated, -⟩ | ⟨hunterminated, -⟩
  · have hlf : last.ending = .lf := by
      cases hending : last.ending with
      | lf => rfl
      | crLf => exact absurd hending hreturn
      | none => exact absurd hending hterminated.2.1
    rw [if_pos (Or.inl ?_), hlf]
    rw [hnote, Line.whole, hlf, ← List.append_assoc]
    exact List.getLast?_concat
  · obtain ⟨htext, hending, hne⟩ := hunterminated
    have hwhole : last.whole = last.text := by rw [Line.whole, hending, Ending.text, List.append_nil]
    have hnonempty : note ≠ [] := by
      rw [hnote, hwhole]
      exact List.append_ne_nil_of_right_ne_nil _ hne
    rw [hending, if_neg]
    rintro (hnewline | ⟨hempty, -⟩)
    · rw [hnote, hwhole, List.getLast?_append_of_ne_nil _ hne] at hnewline
      exact htext (List.mem_of_getLast? hnewline)
    · exact hnonempty (List.isEmpty_iff.mp hempty)

section

variable {note : Text} {edits : List LineEdit}

/-- The last line of a note the edits put nothing below is its own last row. -/
theorem rowsOf_last (edits : List LineEdit) (below : Bool) (place : Line × ℕ) :
    ∃ last, rowsOf edits below place = (insertsAt edits place.2).map newRow ++ [last] := ⟨_, rfl⟩

theorem settled_front {front : List Line} {last : Line} (h : splitLines note = front ++ [last])
    (hreturn : ¬KeepsReturn note edits) {below : Bool} {row : Row}
    (hrow : row ∈ front.zipIdx.flatMap (rowsOf edits below)) {settled : Ending} (hsettled : settled ∈ row.ending) :
    settled = .lf := by
  obtain ⟨place, hplace, hin⟩ := List.mem_flatMap.mp hrow
  obtain ⟨-, hending, -⟩ := settled_rowsOf hin hsettled
  have hterminated := WellFormed.front (h ▸ wellFormed_splitLines note : WellFormed (front ++ [last])) (by simp) place.1
    (List.fst_mem_of_mem_zipIdx hplace)
  have hmem : place ∈ (splitLines note).zipIdx := by
    rw [h, List.zipIdx_append]
    exact List.mem_append_left _ hplace
  cases settled with
  | lf => rfl
  | crLf => exact absurd (keepsReturn_of_rows hmem hin hsettled) hreturn
  | none => exact absurd hending hterminated.2.1

/-- With nothing to keep a carriage return for, the rows stand as they should. -/
theorem written_of_no_return (hreturn : ¬KeepsReturn note edits) :
    Written (editedRows note edits) (joinLines ((editedRows note edits).map Row.text) ++ (finalEnding note edits).text) := by
  have hnew (texts : List Text) : ∀ row ∈ texts.map newRow, ∀ settled ∈ row.ending, settled = .lf := by
    intro row hrow settled hsettled
    obtain ⟨text, -, rfl⟩ := List.mem_map.mp hrow
    cases hsettled
  rcases List.eq_nil_or_concat (splitLines note) with hnil | ⟨front, last, hlines⟩
  · have hnote : note = [] := by rw [← textOfLines_splitLines note, hnil, textOfLines_nil]
    by_cases htrailing : trailingInserts edits (splitLines note).length = []
    · have hrows : editedRows note edits = [] := by rw [editedRows_eq, htrailing, hnil]; rfl
      have hfinal : finalEnding note edits = .none := by
        rw [finalEnding, ← text_editedRows, hrows, hnote]
        rfl
      rw [hrows, hfinal]
      exact .nil
    · rw [editedRows_eq, hnil] at *
      refine written_joinLines (fun row hrow => hnew _ row (List.mem_of_mem_dropLast hrow)) (fun row hrow => ?_) ?_
      · intro settled hsettled
        obtain ⟨text, -, rfl⟩ := List.mem_map.mp (List.mem_of_getLast? hrow)
        cases hsettled
      · exact fun hnone => htrailing (List.map_eq_nil_iff.mp hnone)
  · rw [List.concat_eq_append] at hlines
    have hplace : (last, front.length) ∈ (splitLines note).zipIdx := by
      rw [hlines, List.zipIdx_append]
      exact List.mem_append_right _ (by simp)
    have hrows : editedRows note edits =
        front.zipIdx.flatMap (rowsOf edits (!(trailingInserts edits (splitLines note).length).isEmpty)) ++
          rowsOf edits (!(trailingInserts edits (splitLines note).length).isEmpty) (last, front.length) ++
          (trailingInserts edits (splitLines note).length).map newRow := by
      rw [editedRows_eq]
      congr 1
      rw [hlines, List.zipIdx_append, List.flatMap_append]
      simp
    rw [hrows]
    have hsettled : ∀ {below : Bool} {row : Row} {settled : Ending}, row ∈ rowsOf edits below (last, front.length) →
        settled ∈ row.ending → settled ≠ .crLf ∧ last.ending = settled ∧ (settled = .none → below = false) := by
      intro below row settled hrow hin
      obtain ⟨-, hending, hbelow⟩ := settled_rowsOf hrow hin
      refine ⟨?_, hending, hbelow⟩
      rintro rfl
      exact hreturn (keepsReturn_of_rows hplace hrow hin)
    by_cases htrailing : trailingInserts edits (splitLines note).length = []
    · -- the last line's own row is the last, and the note ends as it did
      rw [htrailing, List.map_nil, List.append_nil]
      obtain ⟨final, hfinal⟩ := rowsOf_last edits false (last, front.length)
      have hbelow : (!([] : List Text).isEmpty) = false := rfl
      rw [hbelow, hfinal, ← List.append_assoc]
      refine written_joinLines (fun row hrow settled hin => ?_) (fun row hrow settled hin => ?_) (by simp)
      · rw [List.dropLast_concat] at hrow
        rcases List.mem_append.mp hrow with hrow | hrow
        · exact settled_front hlines hreturn hrow hin
        · exact hnew _ row hrow settled hin
      · rw [List.getLast?_concat, Option.mem_some_iff] at hrow
        subst hrow
        obtain ⟨hne, hending, -⟩ := @hsettled false final settled (by rw [hfinal]; simp) hin
        rw [finalEnding_of_last hlines edits (by rw [hending]; exact hne), hending]
    · -- lines go in below the last one, and it has an ending now
      have hbelow : (!(trailingInserts edits (splitLines note).length).isEmpty) = true := by simpa using htrailing
      rw [hbelow]
      have hne : (trailingInserts edits (splitLines note).length).map newRow ≠ [] := by simpa using htrailing
      refine written_joinLines (fun row hrow settled hin => ?_) (fun row hrow settled hin => ?_) (by simp [hne])
      · rw [List.dropLast_append_of_ne_nil hne] at hrow
        rcases List.mem_append.mp hrow with hrow | hrow
        · rcases List.mem_append.mp hrow with hrow | hrow
          · exact settled_front hlines hreturn hrow hin
          · obtain ⟨hne, -, hnone⟩ := hsettled hrow hin
            cases settled with
            | lf => rfl
            | crLf => exact absurd rfl hne
            | none => cases hnone rfl
        · exact hnew _ row (List.mem_of_mem_dropLast hrow) settled hin
      · rw [List.getLast?_append_of_ne_nil _ hne] at hrow
        obtain ⟨text, -, rfl⟩ := List.mem_map.mp (List.mem_of_getLast? hrow)
        cases hin

/-- The edits leave the other lines as they were exactly when each of them that ends in a carriage
return and a line feed is replaced. -/
theorem leavesRest_iff : LeavesRest note edits (applyLineEdits note edits) ↔ ¬KeepsReturn note edits := by
  constructor
  · intro hwritten hreturn
    have hcount := hwritten.count
    have hpos := returnRows_pos hreturn
    have hfinal : (finalEnding note edits).text.count '\r' = 0 := by
      unfold finalEnding
      split <;> rfl
    rw [applyLineEdits_eq, List.count_append, count_joinLines, hfinal, List.map_map] at hcount
    have hsame : ((editedRows note edits).map fun row => row.text.count '\r').sum =
        ((editedRows note edits).map ((fun text => text.count '\r') ∘ Row.text)).sum := rfl
    omega
  · intro hreturn
    rw [LeavesRest, applyLineEdits_eq]
    exact written_of_no_return hreturn

end

/-! ## What the reconcilers yield -/

/-- A line of the calendar section that carries the marker of a synced event. -/
structure Synced (reader : HeadingReader) (config : CalendarConfig) (note : Text) (row : ℕ) (line : Text) : Prop where
  inSection : ∃ planner section_,
    plannerSection reader (lines note) (config.plannerHeadingNames reader) = some planner ∧
      findChildSection reader (lines note) planner.1 planner.2 config.section_ = some section_ ∧ row ∈ section_.rows
  marker : ∃ l, SyncedLine.parse row line = some l

/-- An edit list a reconciler yields for a note, and the lines it may replace. -/
inductive Yields (reader : HeadingReader) (note : Text) : List LineEdit → (ℕ → Text → Prop) → Prop
  | calendar {config : CalendarConfig} {events : List CalendarEvent} {edits : List LineEdit}
      {diverged : List Divergence} (h : reconcile reader config note events = .edits edits diverged) :
      Yields reader note edits (Synced reader config note)
  | reminders {notePath : Text} {day today : Day} {reminders : List ReminderDay.DayReminder}
      {config : ReminderDay.DayConfig} {edits : List LineEdit} {frozen : List ReminderDay.Frozen}
      (h : ReminderDay.reconcile reader note notePath day today reminders config = .edits edits frozen) :
      Yields reader note edits (ReminderDay.Mirrors reader note day reminders config)

/-- Only a line of the calendar section that carries a marker is replaced. -/
theorem replaces_synced {reader : HeadingReader} {config : CalendarConfig} {note : Text} {events : List CalendarEvent}
    {edits : List LineEdit} {diverged : List Divergence}
    (h : reconcile reader config note events = .edits edits diverged) {row : ℕ} {text : Text}
    (hedit : ⟨row, .replace text⟩ ∈ edits) :
    ∃ line, (lines note)[row]? = some line ∧ Synced reader config note row line := by
  cases hplanner : plannerSection reader (lines note) (config.plannerHeadingNames reader) with
  | none =>
    rw [reconcile, hplanner] at h
    cases h
  | some planner =>
    obtain ⟨range, level⟩ := planner
    cases hchild : findChildSection reader (lines note) range level config.section_ with
    | none =>
      unfold reconcile at h
      simp only [hplanner, hchild] at h
      split at h
      · cases h
        cases hedit
      · split at h
        · cases h
        · cases h
          obtain ⟨inserted, -, heq⟩ := List.mem_map.mp hedit
          cases heq
    | some child =>
      rw [reconcile_section hplanner hchild] at h
      cases h
      rw [sortByRow, (List.perm_insertionSort _ _).mem_iff] at hedit
      obtain ⟨l, hl, rfl, -⟩ := mem_sectionEdits_replace hedit
      obtain ⟨hstart, hstop, line, hline, hparse⟩ := mem_syncedLines.mp hl
      have hrow : l.row ∈ child.rows := List.mem_range'_1.mpr ⟨hstart, by omega⟩
      exact ⟨line, hline, ⟨_, child, hplanner, hchild, hrow⟩, l, hparse⟩

/-- The reconcilers replace only marked lines of their section, and the rest of the note stands as it
was exactly when every line that ends in a carriage return and a line feed is one they replace. -/
theorem reconcilers_leave_rest_iff {reader : HeadingReader} {note : Text} {edits : List LineEdit}
    {marked : ℕ → Text → Prop} (h : Yields reader note edits marked) :
    (LeavesRest note edits (applyLineEdits note edits) ∧ ∀ row text, ⟨row, .replace text⟩ ∈ edits →
      ∃ line, (lines note)[row]? = some line ∧ marked row line) ↔
    ∀ row line, (splitLines note)[row]? = some line → line.ending = .crLf → (replacementAt edits row).isSome = true := by
  have hmarked : ∀ row text, ⟨row, .replace text⟩ ∈ edits → ∃ line, (lines note)[row]? = some line ∧ marked row line := by
    intro row text hedit
    cases h with
    | calendar h => exact replaces_synced h hedit
    | reminders h => exact ReminderDay.replaces_mirrors h hedit
  rw [leavesRest_iff, and_iff_left hmarked, KeepsReturn]
  constructor
  · intro hreturn row line hline hending
    rw [← Option.ne_none_iff_isSome]
    exact fun hnone => hreturn ⟨row, line, hline, hnone, hending⟩
  · rintro hreplaced ⟨row, line, hline, hnone, hending⟩
    have hsome := hreplaced row line hline hending
    rw [hnone] at hsome
    cases hsome

/-- A note with one meeting, its lines ended in a carriage return and a line feed but for the meeting's. -/
def returnsNote : Text :=
  "# Day planner\r\n\r\n## Calendar\r\n\r\n- [ ] 09:00 - 10:00 Standup <!--gcal:ab12-->\n".toList

/-- The standup moves by an hour, and the other lines lose their carriage returns. -/
theorem moved_standup_drops_returns :
    ∃ note events edits diverged, reconcile plainReader calendarConfig note events = .edits edits diverged ∧
      ¬LeavesRest note edits (applyLineEdits note edits) := by
  refine ⟨returnsNote, [meeting "Standup".toList 600 (by decide)],
    [⟨4, .replace "- [ ] 10:00 - 11:00 Standup <!--gcal:ab12-->".toList⟩], [], by decide +kernel, ?_⟩
  rw [leavesRest_iff, not_not]
  exact ⟨0, ⟨"# Day planner".toList, .crLf⟩, by decide +kernel, by decide +kernel, rfl⟩

/-- A note of plain line feeds keeps its lines when the standup moves. -/
theorem reconcilers_leave_rest_standup :
    LeavesRest standupNote [⟨4, .replace "- [ ] 10:00 - 11:00 Standup bring notes <!--gcal:ab12-->".toList⟩]
      (applyLineEdits standupNote [⟨4, .replace "- [ ] 10:00 - 11:00 Standup bring notes <!--gcal:ab12-->".toList⟩]) := by
  have hyields : Yields plainReader standupNote
      [⟨4, .replace "- [ ] 10:00 - 11:00 Standup bring notes <!--gcal:ab12-->".toList⟩]
      (Synced plainReader calendarConfig standupNote) :=
    @Yields.calendar _ _ _ [meeting "Standup".toList 600 (by decide)] _ [] (by decide +kernel)
  refine ((reconcilers_leave_rest_iff hyields).mpr fun row line hline hending => ?_).1
  have hplain : ∀ line ∈ splitLines standupNote, line.ending ≠ .crLf := by decide +kernel
  exact absurd hending (hplain line (List.mem_of_getElem? hline))

end Thock.Desk
