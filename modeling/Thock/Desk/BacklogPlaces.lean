import Thock.Desk.BacklogSections

/-!
# Where a backlog task stands

The text before a task, the task's own rows and the text behind them, as the offsets of its span
cut them. A row under a section's heading that reads as a task is a task of the section, wherever
the rows around it come from.
-/

namespace Thock.Desk.BacklogFile

open TextScan
open Rows

/-! ## Lines and their offsets -/

theorem lineTableFrom_append (start : ℕ) (a b : List Text) :
    lineTableFrom start (a ++ b) = lineTableFrom start a ++ lineTableFrom (start + a.flatten.length) b := by
  induction a generalizing start with
  | nil => rfl
  | cons segment later ih =>
    rw [List.cons_append, lineTableFrom, ih, List.flatten_cons, List.length_append, ← Nat.add_assoc]
    rfl

theorem lineTableFrom_content (start : ℕ) (segs : List Text) :
    (lineTableFrom start segs).map TableLine.content = segs.map Rows.content := by
  induction segs generalizing start with
  | nil => rfl
  | cons segment later ih => rw [lineTableFrom, List.map_cons, List.map_cons, ih]

@[simp] theorem lineTable_content (text : Text) : (lineTable text).map TableLine.content = rows text :=
  lineTableFrom_content 0 (segments text)

@[simp] theorem length_lineTable (text : Text) : (lineTable text).length = (rows text).length := by
  rw [← lineTable_content, List.length_map]

/-- The lines behind a cut. -/
theorem lineTable_append {a b : Text} (h : b = [] ∨ Ended a) :
    lineTable (a ++ b) = lineTable a ++ lineTableFrom a.length (segments b) := by
  rw [lineTable, segments_append h, lineTableFrom_append, segments_flatten, Nat.zero_add]
  rfl

theorem lineTableFrom_head {start : ℕ} {segs : List Text} {line : TableLine} {rest : List TableLine}
    (h : lineTableFrom start segs = line :: rest) : line.start = start := by
  cases segs with
  | nil => cases h
  | cons segment later =>
    obtain ⟨rfl, -⟩ := List.cons.inj h
    rfl

theorem lineTableFrom_last {start : ℕ} {segs : List Text} {front : List TableLine} {line : TableLine}
    (h : lineTableFrom start segs = front ++ [line]) : line.stop = start + segs.flatten.length := by
  induction segs generalizing start front with
  | nil => exact absurd (congrArg List.length h) (by simp [lineTableFrom])
  | cons segment later ih =>
    rw [List.flatten_cons, List.length_append, ← Nat.add_assoc]
    cases front with
    | nil =>
      obtain ⟨rfl, hnil⟩ := List.cons.inj h
      have hlater : later = [] := by
        cases later with
        | nil => rfl
        | cons segment later => cases hnil
      simp [hlater]
    | cons first front => exact ih (List.cons.inj h).2

/-- The text is cut before a line and behind the lines that go with it. -/
theorem exists_block {text : Text} {front rest : List TableLine} {line : TableLine} {c : ℕ}
    (h : lineTable text = front ++ line :: rest) (hc : c ≤ rest.length) :
    ∃ above block below, text = above ++ block ++ below ∧ Ended above ∧ (below = [] ∨ Ended block) ∧
      rows above = front.map TableLine.content ∧ rows block = (line :: rest.take c).map TableLine.content ∧
      rows below = (rest.drop c).map TableLine.content ∧ line.start = above.length ∧
      ((line :: rest)[c]?.getD line).stop = above.length + block.length := by
  have hwhole := congrArg List.length h
  simp only [List.length_append, List.length_cons, length_lineTable] at hwhole
  -- What goes with the line is cut off first, and then the line.
  obtain ⟨ab, below, rfl, hab, hcut⟩ := exists_cut text (k := front.length + (c + 1)) (by omega)
  obtain ⟨above, block, rfl, habove, hcut'⟩ := exists_cut ab (k := front.length) (by omega)
  have hblock : (rows block).length = c + 1 := by
    have hsum := congrArg List.length (segments_append hcut')
    rw [List.length_append, length_segments, length_segments, length_segments] at hsum
    omega
  have hne : block ≠ [] := by
    rintro rfl
    cases hblock
  have hsplit : lineTable above ++ (lineTableFrom above.length (segments block) ++
      lineTableFrom (above ++ block).length (segments below)) = front ++ ((line :: rest.take c) ++ rest.drop c) := by
    rw [← List.append_assoc, ← lineTable_append hcut', ← lineTable_append hcut, List.cons_append, List.take_append_drop, h]
  obtain ⟨hfront, hrest⟩ := List.append_inj hsplit (by rw [length_lineTable, habove])
  have hlines : (lineTableFrom above.length (segments block)).length = (line :: rest.take c).length := by
    have hcontents := congrArg List.length (lineTableFrom_content above.length (segments block))
    rw [List.length_map, List.length_map, length_segments, hblock] at hcontents
    rw [hcontents, List.length_cons, List.length_take_of_le hc]
  obtain ⟨hline, hbelow⟩ := List.append_inj hrest hlines
  refine ⟨above, block, below, rfl, hcut'.resolve_left hne, hcut.imp_right Ended.of_append, ?_, ?_, ?_,
    lineTableFrom_head hline, ?_⟩
  · rw [← hfront, lineTable_content]
  · rw [← hline, lineTableFrom_content]
    rfl
  · rw [← hbelow, lineTableFrom_content]
    rfl
  · obtain ⟨init, last, hinit⟩ := (List.eq_nil_or_concat (line :: rest.take c)).resolve_left (List.cons_ne_nil _ _)
    have hat : (line :: rest)[c]? = some last := by
      have hlength := congrArg List.length hinit
      rw [List.length_cons, List.length_take_of_le hc, List.concat_eq_append, List.length_append, List.length_singleton] at hlength
      obtain rfl : init.length = c := by omega
      rw [← List.take_append_drop init.length rest, ← List.cons_append, hinit, List.concat_eq_append, List.append_assoc,
        List.getElem?_append_right le_rfl, Nat.sub_self]
      rfl
    rw [hinit, List.concat_eq_append] at hline
    rw [hat, Option.getD_some, lineTableFrom_last hline, segments_flatten]

/-! ## The rows of a task -/

/-- A task's rows in its text: the text above, its own block and the text below. -/
structure TaskPlace (text : Text) (task : BacklogTask) where
  above : Text
  block : Text
  below : Text
  line : Text
  kids : List Text
  column : ℕ
  whole : text = above ++ block ++ below
  above_ended : Ended above
  below_cut : below = [] ∨ Ended block
  rows_block : rows block = line :: kids
  span : task.span = ⟨above.length, above.length + block.length⟩
  row : task.line = (rows above).length
  reads : parseTopLevelTask line = some (task.checked, column)
  said : task.text = line.drop column
  last_said : ∀ l ∈ (line :: kids).getLast?, isBlank l = false

/-- The names a section is looked up by. -/
def sectionNames (reader : HeadingReader) (kind : SectionKind) (headings : BacklogHeadings) : HeadingNames :=
  HeadingNames.new reader [kind.heading headings, kind.defaultHeading]

/-- A place behind the rows `above` is under the heading that names are resolved to. -/
def UnderHeading (reader : HeadingReader) (names : HeadingNames) (above below : List Text) : Prop :=
  ∃ before heading mid level r, above = before ++ heading :: mid ∧
    Best (rankOf reader names none) before heading (mid ++ below) r level ∧ ∀ l ∈ mid, endsSection level l = false

section Sections
variable {reader : HeadingReader} {headings : BacklogHeadings} {kind : SectionKind} {text : Text}

theorem resolveSection_eq : resolveSection reader (lineTable text) kind headings =
    plannerSection reader (rows text) (sectionNames reader kind headings) := by
  rw [resolveSection, sectionLineRange, lineTable_content]
  rfl

theorem section_eq : (parseBacklog reader text headings).section_ kind =
    match plannerSection reader (rows text) (sectionNames reader kind headings) with
    | none => []
    | some (range, level) =>
      (parseRows level none [] range.start 0 (((lineTable text).take range.stop).drop range.start)).tasks := by
  rw [← resolveSection_eq]
  unfold Backlog.section_ parseBacklog
  dsimp only
  cases resolveSection reader (lineTable text) kind headings with
  | none => rfl
  | some found => rfl

/-- A line under a section's heading that reads as a task is one of the section. -/
theorem task_of_underHeading {above below : List Text} {line : Text} {checked : Bool} {column : ℕ}
    (hnames : (sectionNames reader kind headings).isEmpty = false) (hrows : rows text = above ++ line :: below)
    (hunder : UnderHeading reader (sectionNames reader kind headings) above (line :: below))
    (hline : parseTopLevelTask line = some (checked, column)) :
    ∃ task ∈ (parseBacklog reader text headings).section_ kind, task.text = line.drop column := by
  obtain ⟨before, heading, mid, level, r, rfl, hbest, hmid⟩ := hunder
  have hrows' : rows text = before ++ heading :: (mid ++ line :: below) := by rw [hrows]; simp
  have hbody := plannerBody_of_best hnames hbest
  rw [← hrows', ← plannerSection_body] at hbody
  obtain ⟨⟨range, level'⟩, hsection, heq⟩ := Option.map_eq_some_iff.mp hbody
  obtain ⟨hof, rfl⟩ := Prod.mk.inj heq
  have hopen : endsSection level' line = false := by
    rw [endsSection, headingLevelAndText_of_task hline]
    rfl
  have hmem : line ∈ range.of (rows text) := by
    rw [hof, under_append hmid, under, List.takeWhile_cons_of_pos (by simp [hopen])]
    simp
  rw [section_eq, hsection]
  dsimp only
  rw [RowRange.of, ← List.drop_take, ← lineTable_content, ← List.map_take, ← List.map_drop] at hmem
  obtain ⟨tableLine, htable, rfl⟩ := List.mem_map.mp hmem
  exact parseRows_task (fun l hl => absurd hl List.not_mem_nil) htable hline

/-- The last line that goes with a task is not blank. -/
theorem not_isBlank_last {line : Text} {ls : List Text} {found : Bool × ℕ} (h : parseTopLevelTask line = some found) :
    ∀ l ∈ (line :: ls.take (childRun ls)).getLast?, isBlank l = false := by
  intro l hl
  by_cases hzero : childRun ls = 0
  · rw [hzero, List.take_zero, List.getLast?_singleton] at hl
    obtain rfl := Option.some.inj hl
    rw [Bool.eq_false_iff]
    exact fun hblank => not_goesAlong_of_task h (.inr hblank)
  · obtain ⟨front, last, htake, hlast⟩ := childRun_last hzero
    rw [htake, ← List.cons_append, List.getLast?_concat] at hl
    obtain rfl := Option.some.inj hl
    rw [isChildLine, Bool.and_eq_true, Bool.not_eq_true'] at hlast
    exact hlast.2

/-- Every task has its place under its section's heading. -/
theorem exists_place {task : BacklogTask} (h : task ∈ (parseBacklog reader text headings).section_ kind) :
    (sectionNames reader kind headings).isEmpty = false ∧ ∃ place : TaskPlace text task,
      UnderHeading reader (sectionNames reader kind headings) (rows place.above)
        (place.line :: place.kids ++ rows place.below) := by
  rw [section_eq] at h
  cases hsection : plannerSection reader (rows text) (sectionNames reader kind headings) with
  | none =>
    rw [hsection] at h
    cases h
  | some found =>
    obtain ⟨range, level⟩ := found
    rw [hsection] at h
    obtain ⟨pre, line, rest, column, hbody, hline, htext, hrow, hspan⟩ := exists_of_parseRows h
    obtain ⟨hnames, before, heading, behind, r, hrows, hbest, hstart, hstop⟩ := plannerSection_best hsection
    have hle : range.start ≤ range.stop := by omega
    have htable : lineTable text =
        (lineTable text).take range.start ++ pre ++ line :: (rest ++ (lineTable text).drop range.stop) := by
      conv_lhs => rw [← List.take_append_drop range.stop (lineTable text),
        ← List.take_append_drop range.start ((lineTable text).take range.stop), List.take_take, min_eq_left hle, hbody]
      simp
    have hkids : childRun (rest.map TableLine.content) ≤ rest.length := by
      have hrun := childRun_le (rest.map TableLine.content)
      rwa [List.length_map] at hrun
    obtain ⟨above, block, below, hwhole, habove, hcut, hrowsabove, hrowsblock, hrowsbelow, hfirst, hlast⟩ :=
      exists_block htable (hkids.trans (by simp))
    rw [List.take_append_of_le_length hkids, List.map_cons, List.map_take] at hrowsblock
    have hfront : ((lineTable text).take range.start).map TableLine.content = before ++ [heading] := by
      rw [List.map_take, lineTable_content, hrows, hstart, List.take_append, List.take_of_length_le (by omega)]
      simp
    rw [List.map_append, hfront, List.append_assoc] at hrowsabove
    have hbehind : pre.map TableLine.content ++ (rows block ++ rows below) = behind := by
      have hparts : rows text = rows above ++ (rows block ++ rows below) := by
        rw [hwhole, List.append_assoc, rows_append habove]
        congr 1
        rcases hcut with rfl | hcut
        · simp [rows, segments]
        · exact rows_append hcut _
      rw [hrows, hrowsabove] at hparts
      simpa using hparts.symm
    have hmid : ∀ l ∈ pre.map TableLine.content, endsSection level l = false := by
      intro l hl
      refine endsSection_of_mem hsection ?_
      rw [← lineTable_content, ← List.map_take, ← List.map_drop, hbody, List.map_append]
      exact List.mem_append_left _ hl
    refine ⟨hnames, ⟨above, block, below, line.content, (rest.map TableLine.content).take _, column, hwhole, habove, hcut,
      hrowsblock, ?_, ?_, hline, htext, not_isBlank_last hline⟩, before, heading, pre.map TableLine.content, level, r,
      hrowsabove, ?_, hmid⟩
    · rw [hspan, hfirst, ← hlast]
      congr 3
      rw [← List.cons_append, List.getElem?_append_left (by rw [List.length_cons]; omega)]
    · rw [hrow, hrowsabove, hstart]
      simp
      omega
    · rw [← hbehind, hrowsblock] at hbest
      exact hbest

end Sections

end Thock.Desk.BacklogFile
