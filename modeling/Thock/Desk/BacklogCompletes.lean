import Thock.Desk.BacklogFiling

/-!
# Completing a backlog task

The completed line goes to the end of Completed's own content and is read back as a task. It is
known for the task it was where its stamp is seen through, which other comments behind the text
prevent.
-/

namespace Thock.Desk.BacklogFile

open TextScan
open Rows
open SyncCore (Day)

/-! ## The edits of a completion -/

section Edits
variable {reader : HeadingReader} {headings : BacklogHeadings} {text : Text} {task : BacklogTask}

theorem splitFirst_break {line : Text} (h : '\n' ∉ line) (rest : Text) :
    splitFirst ['\n'] (line ++ '\n' :: rest) = some (line, rest) := by
  have hself : splitFirst ['\n'] ('\n' :: rest) = some ([], rest) := splitFirst_self (List.cons_ne_nil '\n' []) rest
  have hout : ¬['\n'] <:+: line := not_infix_of_not_mem List.mem_cons_self h
  rw [splitFirst_apart hout (apart_of_not_mem h _), hself, Option.map_some, List.append_nil]

theorem taskBlock_eq (place : TaskPlace text task) : taskBlock text task = joined (place.line :: place.kids) := by
  have hslice : slice text task.span.start task.span.stop = place.block := by
    have htake : text.take (place.above ++ place.block).length = place.above ++ place.block :=
      (congrArg (List.take _) place.whole).trans List.take_left
    rw [slice, place.span, ← List.length_append, htake, List.drop_left]
  rw [taskBlock, hslice, ← place.rows_block, joined_rows place.block_ne]

/-- Completing a task files its line, checked off and stamped, with the rows it takes along. -/
theorem completeTaskEdits_eq (place : TaskPlace text task) (date : Day) :
    completeTaskEdits reader text task date headings = [⟨task.span, []⟩,
      appendToSectionEdit reader text .completed none
        (joined (completedLine task.checked place.line date :: place.kids)) headings] := by
  have hline : '\n' ∉ place.line := by
    refine not_mem_of_mem_rows (t := place.block) ?_
    rw [place.rows_block]
    exact List.mem_cons_self
  have hkids : ¬(joined place.kids ≠ [] ∧ (joined place.kids).getLast? ≠ some '\n') := by
    rintro ⟨hne, hlast⟩
    exact hlast ((ended_joined place.kids).resolve_left hne)
  unfold completeTaskEdits
  dsimp only
  rw [taskBlock_eq place, joined_cons, splitFirst_break hline, Option.getD_some, if_neg hkids, joined_cons,
    List.append_assoc]
  rfl

end Edits

/-! ## Where the completed line lands -/

/-- Completed's own content does not end among the task's rows, and its heading is one line where it is to be made. -/
structure Lands (reader : HeadingReader) (text : Text) (task : BacklogTask) (headings : BacklogHeadings) : Prop where
  content : ∀ found ∈ resolveSection reader (lineTable text) .completed headings,
    ∀ group ∈ categoryLineRange (lineTable text) found.1 found.2 none, ∀ line ∈ (lineTable text)[group.stop]?,
      ¬(task.span.start < line.start ∧ line.start < task.span.stop)
  heading : resolveSection reader (lineTable text) .completed headings = none →
    '\n' ∉ headings.completed ∧ isBlank headings.completed = false

theorem lineTable_start {a b : Text} (h : b = [] ∨ Ended a) {line : TableLine}
    (hline : (lineTable (a ++ b))[(rows a).length]? = some line) : line.start = a.length := by
  rw [lineTable_append h, List.getElem?_append_right (by rw [length_lineTable]), length_lineTable, Nat.sub_self] at hline
  cases hlines : lineTableFrom a.length (segments b) with
  | nil =>
    rw [hlines] at hline
    cases hline
  | cons first rest =>
    rw [hlines] at hline
    obtain rfl := Option.some.inj hline
    exact lineTableFrom_head hlines

namespace TaskPlace

variable {text : Text} {task : BacklogTask} (place : TaskPlace text task)

/-- A line whose offset is not inside the task's span is none of its rows but the first. -/
theorem stop_outside {stop : ℕ}
    (h : ∀ line ∈ (lineTable text)[stop]?, ¬(task.span.start < line.start ∧ line.start < task.span.stop)) :
    stop ≤ (rows place.above).length ∨ (rows place.above).length + (place.kids.length + 1) ≤ stop := by
  by_contra hinside
  obtain ⟨hlow, hhigh⟩ := not_or.mp hinside
  have hblocklen := congrArg List.length place.rows_block
  have hcount := congrArg List.length place.rows_text
  simp only [List.length_append, List.length_cons] at hblocklen hcount
  obtain ⟨a, b, hblock, ha, hcut⟩ := exists_cut place.block (k := stop - (rows place.above).length) (by omega)
  have hb : b ≠ [] := by
    rintro rfl
    rw [hblock, List.append_nil, ha] at hblocklen
    omega
  have hended := hcut.resolve_left hb
  have ha' : a ≠ [] := by
    rintro rfl
    rw [show rows [] = [] from rfl, List.length_nil] at ha
    omega
  have hwhole : text = (place.above ++ a) ++ (b ++ place.below) := place.whole.trans (by rw [hblock]; simp)
  have hrows : (rows (place.above ++ a)).length = stop := by
    rw [rows_append place.above_ended, List.length_append, ha]
    omega
  have hlt : stop < (lineTable text).length := by
    rw [length_lineTable]
    omega
  have hline := List.getElem?_eq_getElem hlt
  have hstart : ((lineTable text)[stop]).start = (place.above ++ a).length := by
    refine lineTable_start (.inr (place.above_ended.append hended)) (b := b ++ place.below) ?_
    rw [← hwhole, hrows, hline]
  have hapos := List.length_pos_iff.mpr ha'
  have hbpos := List.length_pos_iff.mpr hb
  apply h _ hline
  rw [place.span, hstart, hblock]
  simp only [List.length_append]
  omega

/-- Rows that only blank ones follow up to a row outside the task do not end inside it. -/
theorem row_outside {row stop : ℕ} (hblank : ∀ l ∈ ((rows text).take stop).drop row, isBlank l = true)
    (hrow : row ≤ stop)
    (hstop : stop ≤ (rows place.above).length ∨ (rows place.above).length + (place.kids.length + 1) ≤ stop) :
    row ≤ (rows place.above).length ∨ (rows place.above).length + (place.kids.length + 1) ≤ row := by
  by_contra hinside
  obtain ⟨hlow, hhigh⟩ := not_or.mp hinside
  obtain ⟨init, last, hlast⟩ := (List.eq_nil_or_concat (place.line :: place.kids)).resolve_left (List.cons_ne_nil _ _)
  rw [List.concat_eq_append] at hlast
  have hlength := congrArg List.length hlast
  rw [List.length_append, List.length_cons, List.length_singleton] at hlength
  have hat : (rows text)[(rows place.above).length + place.kids.length]? = some last := by
    rw [place.rows_text, hlast, List.getElem?_append_right (by omega), List.append_assoc,
      List.getElem?_append_right (by omega)]
    have hzero : (rows place.above).length + place.kids.length - (rows place.above).length - init.length = 0 := by omega
    rw [hzero]
    rfl
  have hmem : last ∈ ((rows text).take stop).drop row := by
    refine List.mem_of_getElem? (i := (rows place.above).length + place.kids.length - row) ?_
    have hindex : row + ((rows place.above).length + place.kids.length - row) =
        (rows place.above).length + place.kids.length := by omega
    rw [List.getElem?_drop, hindex, List.getElem?_take, if_pos (by omega), hat]
  have hsaid := place.last_said last (by rw [hlast, List.getLast?_concat]; rfl)
  rw [hblank last hmem] at hsaid
  cases hsaid

end TaskPlace

section Landing
variable {reader : HeadingReader} {headings : BacklogHeadings} {text : Text} {task : BacklogTask}

theorem rankOf_of_none {names : HeadingNames} {line : Text} (h : headingLevelAndText line = none) :
    rankOf reader names none line = none := by rw [rankOf, h, Option.bind_none]

theorem endsSection_of_none {level : ℕ} {line : Text} (h : headingLevelAndText line = none) : endsSection level line = false := by
  rw [endsSection, h, Option.any_none]

/-- Where a line is put among the rows of a text that a task is taken out of. -/
structure Landing (reader : HeadingReader) (headings : BacklogHeadings) (place : TaskPlace text task) (filed : Text)
    (done : Text) where
  kind : SectionKind
  first : List Text
  second : List Text
  rows_filed : rows filed = first ++ done :: (place.kids ++ second)
  under : UnderHeading reader (sectionNames reader kind headings) first (done :: (place.kids ++ second))
  others : ∀ l ∈ first ++ second, l ∈ rows place.above ++ rows place.below ∨ parseTopLevelTask l = none

variable (place : TaskPlace text task) {done filed : Text} {found : Bool × ℕ}

theorem rows_filedBlock (hdone : '\n' ∉ done) : rows (joined (done :: place.kids)) = done :: place.kids := by
  refine rows_of_joined fun l hl => ?_
  rcases List.mem_cons.mp hl with rfl | hl
  · exact hdone
  · refine not_mem_of_mem_rows (t := place.block) ?_
    rw [place.rows_block]
    exact List.mem_cons_of_mem _ hl

/-- The rows of the text moved about a heading, with blank ones and the new line among them, leave it the best. -/
theorem landing_of_heading {kind : SectionKind} {before before' behind mid first second : List Text} {heading : Text}
    {r level n : ℕ} (hrows : rows text = before ++ heading :: behind)
    (hbest : Best (rankOf reader (sectionNames reader kind headings) none) before heading behind r level)
    (hfiled : rows filed = first ++ List.replicate n [] ++ (done :: place.kids ++ second))
    (hfirst : first = before' ++ heading :: mid) (hbefore : ∀ l ∈ before', l ∈ before)
    (hmid : ∀ l ∈ mid, endsSection level l = false) (hold : ∀ l ∈ first ++ second, l ∈ rows place.above ++ rows place.below)
    (hread : parseTopLevelTask done = some found) : Nonempty (Landing reader headings place filed done) := by
  have hblank : ∀ l ∈ List.replicate n ([] : Text), l = [] := fun l hl => List.eq_of_mem_replicate hl
  have hmem : ∀ l ∈ first ++ second, rankOf reader (sectionNames reader kind headings) none l = none ∨
      l ∈ before ++ heading :: behind := by
    intro l hl
    right
    rw [← hrows, place.rows_text]
    rcases List.mem_append.mp (hold l hl) with hl | hl
    · exact List.mem_append_left _ hl
    · exact List.mem_append_right _ (List.mem_append_right _ hl)
  refine ⟨⟨kind, first ++ List.replicate n [], second, ?_, ⟨before', heading, mid ++ List.replicate n [], level, r, ?_,
    hbest.of_mem hbefore ?_, ?_⟩, ?_⟩⟩
  · rw [hfiled]
    simp
  · rw [hfirst]
    simp
  · intro l hl
    simp only [List.mem_append, List.mem_cons] at hl
    rcases hl with (hl | hl) | rfl | hl | hl
    · exact (hmem l (by rw [hfirst]; simp [hl])).symm
    · rw [hblank l hl]
      exact .inr (rankOf_of_none rfl)
    · exact .inr (rankOf_of_none (headingLevelAndText_of_task hread))
    · left
      rw [← hrows, place.rows_text]
      simp [hl]
    · exact (hmem l (List.mem_append_right first hl)).symm
  · intro l hl
    rcases List.mem_append.mp hl with hl | hl
    · exact hmid l hl
    · rw [hblank l hl]
      exact endsSection_of_none rfl
  · intro l hl
    simp only [List.mem_append] at hl
    rcases hl with (hl | hl) | hl
    · exact .inl (hold l (List.mem_append_left second hl))
    · rw [hblank l hl]
      exact .inr rfl
    · exact .inl (hold l (List.mem_append_right first hl))

variable {kind own : SectionKind} {before behind m : List Text} {heading : Text} {r level row : ℕ} {edit : Edit}

/-- A line put in above the task, under the heading it is meant for. -/
theorem exists_landing_before (hrows : rows text = before ++ heading :: behind)
    (hbest : Best (rankOf reader (sectionNames reader kind headings) none) before heading behind r level)
    (htake : (rows text).take row = before ++ heading :: m) (hm : ∀ l ∈ m, headingLevelAndText l = none)
    (hedit : PutsIn text edit row (joined (done :: place.kids))) (hdone : '\n' ∉ done)
    (hread : parseTopLevelTask done = some found) (hrow : row ≤ (rows place.above).length) :
    Nonempty (Landing reader headings place (applyEdits text [⟨task.span, []⟩, edit]) done) := by
  obtain ⟨n, hfiled⟩ := place.filed_before hedit (ended_joined _) hrow
  rw [rows_filedBlock place hdone] at hfiled
  have hfirst : (rows place.above).take row = before ++ heading :: m := by
    rw [← htake, place.rows_text, List.take_append_of_le_length hrow]
  refine landing_of_heading place hrows hbest hfiled hfirst (fun l hl => hl) (fun l hl => endsSection_of_none (hm l hl)) ?_ hread
  intro l hl
  rwa [← List.append_assoc, List.take_append_drop] at hl

/-- A line put in below the task is under the heading it is meant for, or under the task's own where that one goes along. -/
theorem exists_landing_behind
    (hown : UnderHeading reader (sectionNames reader own headings) (rows place.above)
      (place.line :: place.kids ++ rows place.below))
    (hrows : rows text = before ++ heading :: behind)
    (hbest : Best (rankOf reader (sectionNames reader kind headings) none) before heading behind r level)
    (htake : (rows text).take row = before ++ heading :: m) (hm : ∀ l ∈ m, headingLevelAndText l = none)
    (hedit : PutsIn text edit row (joined (done :: place.kids))) (hdone : '\n' ∉ done)
    (hread : parseTopLevelTask done = some found)
    (hrow : (rows place.above).length + (place.kids.length + 1) ≤ row) :
    Nonempty (Landing reader headings place (applyEdits text [⟨task.span, []⟩, edit]) done) := by
  obtain ⟨n, hfiled⟩ := place.filed_behind hedit (ended_joined _) hrow
  rw [rows_filedBlock place hdone] at hfiled
  have hsplit : rows place.above ++ (place.line :: place.kids ++
      (rows place.below).take (row - ((rows place.above).length + (place.kids.length + 1)))) = before ++ heading :: m := by
    have hlength : (rows place.above ++ place.line :: place.kids).length =
        (rows place.above).length + (place.kids.length + 1) := by rw [List.length_append, List.length_cons]
    have hall : (rows place.above ++ place.line :: place.kids).take row = rows place.above ++ place.line :: place.kids :=
      List.take_of_length_le (by rwa [hlength])
    rw [← htake, place.rows_text, ← List.append_assoc, ← List.append_assoc, List.take_append, hall, hlength]
  have hold : ∀ l ∈ rows place.above ++
      (rows place.below).take (row - ((rows place.above).length + (place.kids.length + 1))) ++
      (rows place.below).drop (row - ((rows place.above).length + (place.kids.length + 1))),
      l ∈ rows place.above ++ rows place.below := by
    intro l hl
    rwa [List.append_assoc, List.take_append_drop] at hl
  generalize (rows place.below).take (row - ((rows place.above).length + (place.kids.length + 1))) = mid at *
  have hline : heading ≠ place.line := by
    rintro rfl
    have hranks := hbest.ranks
    rw [rankOf_of_none (headingLevelAndText_of_task place.reads)] at hranks
    cases hranks
  have hbelow : ∀ later, before = rows place.above ++ (place.line :: place.kids ++ later) → mid = later ++ heading :: m →
      Nonempty (Landing reader headings place (applyEdits text [⟨task.span, []⟩, edit]) done) := by
    intro later hbefore hmid
    have hfirst : rows place.above ++ mid = (rows place.above ++ later) ++ heading :: m := by
      rw [hmid, List.append_assoc]
    refine landing_of_heading place hrows hbest hfiled hfirst (fun l hl => ?_) (fun l hl => endsSection_of_none (hm l hl)) hold hread
    rw [hbefore]
    simp only [List.mem_append] at hl ⊢
    exact hl.imp_right .inr
  rcases List.append_eq_append_iff.mp hsplit with ⟨more, hbefore, hblock⟩ | ⟨more, habove, hheading⟩
  · rcases List.append_eq_append_iff.mp hblock with ⟨later, hmore, hmid⟩ | ⟨later, hkids, hheading⟩
    · exact hbelow later (by rw [hbefore, hmore]) hmid
    · cases later with
      | nil => exact hbelow [] (by rw [hbefore, hkids]; simp) hheading.symm
      | cons first kids =>
        -- The heading is among the rows the task takes along, and the line stays under the task's own.
        obtain ⟨before', heading', mid', level', r', habove, hbest', hmid'⟩ := hown
        have hrows' : rows text = before' ++ heading' :: (mid' ++ (place.line :: place.kids ++ rows place.below)) := by
          rw [place.rows_text, habove]
          simp
        have hfirst : rows place.above ++ mid = before' ++ heading' :: (mid' ++ mid) := by
          rw [habove]
          simp
        have hm' : m = kids ++ mid := (List.cons.inj hheading).2
        refine landing_of_heading place hrows' hbest' hfiled hfirst (fun l hl => hl) (fun l hl => ?_) hold hread
        rcases List.mem_append.mp hl with hl | hl
        · exact hmid' l hl
        · exact endsSection_of_none (hm l (by rw [hm']; exact List.mem_append_right kids hl))
  · cases more with
    | nil =>
      exact absurd (List.cons.inj hheading).1 hline
    | cons first later =>
      -- The heading is above the task.
      obtain ⟨rfl, hm'⟩ := List.cons.inj hheading
      have hfirst : rows place.above ++ mid = before ++ heading :: (later ++ mid) := by
        rw [habove]
        simp
      refine landing_of_heading place hrows hbest hfiled hfirst (fun l hl => hl) (fun l hl => ?_) hold hread
      refine endsSection_of_none (hm l ?_)
      rw [hm']
      rcases List.mem_append.mp hl with hl | hl
      · exact List.mem_append_left _ hl
      · exact List.mem_append_right later (List.mem_append_right _ hl)

/-- A heading made for a section is the first of its names. -/
theorem rankOf_created (hblank : isBlank (kind.heading headings) = false) :
    rankOf reader (sectionNames reader kind headings) none ("## ".toList ++ kind.heading headings) = some (0, 2) := by
  have hheading : headingLevelAndText ("## ".toList ++ kind.heading headings) = some (2, trim (kind.heading headings)) := by
    have htrim : trim (' ' :: kind.heading headings) = trim (kind.heading headings) :=
      trim_append_of_blank_left blank_space (kind.heading headings)
    have hstart : trimStart ("## ".toList ++ kind.heading headings) = '#' :: '#' :: ' ' :: kind.heading headings :=
      trimStart_of_unindented (unindented_cons (by decide) _)
    unfold headingLevelAndText
    dsimp only
    rw [hstart]
    simp [htrim]
  have hdefault : (trim kind.defaultHeading).isEmpty = false := by
    cases kind with
    | soon => decide
    | someday => decide
    | completed => decide
  have hfirst : (sectionNames reader kind headings).lowercased =
      [reader.lowercase (trim (kind.heading headings)), reader.lowercase (trim kind.defaultHeading)] := by
    rw [isBlank] at hblank
    unfold sectionNames HeadingNames.new
    rw [List.foldl_cons, List.foldl_cons, List.foldl_nil]
    simp only [hblank, hdefault, Bool.false_eq_true, if_false]
    rfl
  rw [rankOf, hheading, Option.bind_some]
  dsimp only
  rw [HeadingNames.rank, hfirst, trim_trim, List.findIdx?_cons]
  simp

theorem sectionNames_isEmpty : (sectionNames reader kind headings).isEmpty = false := by
  have hdefault : (trim kind.defaultHeading).isEmpty = false := by
    cases kind with
    | soon => decide
    | someday => decide
    | completed => decide
  unfold sectionNames HeadingNames.new HeadingNames.isEmpty
  rw [List.foldl_cons, List.foldl_cons, List.foldl_nil]
  simp only [hdefault, Bool.false_eq_true, if_false]
  simp

/-- Where Completed is missing, the line is put under the heading made for it. -/
theorem exists_landing_end
    (hnone : plannerSection reader (rows text) (sectionNames reader kind headings) = none)
    (hheading : '\n' ∉ kind.heading headings) (hblank : isBlank (kind.heading headings) = false)
    (hedit : PutsIn text edit (rows text).length
      ("## ".toList ++ kind.heading headings ++ ['\n', '\n'] ++ joined (done :: place.kids)))
    (hdone : '\n' ∉ done) :
    Nonempty (Landing reader headings place (applyEdits text [⟨task.span, []⟩, edit]) done) := by
  have hjoined : "## ".toList ++ kind.heading headings ++ ['\n', '\n'] ++ joined (done :: place.kids) =
      joined [ "## ".toList ++ kind.heading headings, []] ++ joined (done :: place.kids) := by simp
  have hcount := congrArg List.length place.rows_text
  simp only [List.length_append, List.length_cons] at hcount
  rw [hjoined] at hedit
  obtain ⟨n, hfiled⟩ := place.filed_behind hedit ((ended_joined _).append (ended_joined _)) (by omega)
  have hcreated : rows (joined [ "## ".toList ++ kind.heading headings, []]) = [ "## ".toList ++ kind.heading headings, []] := by
    refine rows_of_joined fun l hl => ?_
    rcases List.mem_cons.mp hl with rfl | hl
    · exact fun hmem => (List.mem_append.mp hmem).elim (by decide) hheading
    · rw [List.mem_singleton.mp hl]
      exact List.not_mem_nil
  rw [rows_append (ended_joined _), hcreated, rows_filedBlock place hdone, List.take_of_length_le (by omega),
    List.drop_of_length_le (by omega)] at hfiled
  -- No line of the text names the section.
  have hranks : ∀ l ∈ rows text, rankOf reader (sectionNames reader kind headings) none l = none := by
    have hbody := plannerSection_body reader (rows text) (sectionNames reader kind headings)
    rw [hnone, plannerBody, sectionNames_isEmpty] at hbody
    exact bestRest_eq_none (Option.map_eq_none_iff.mp hbody.symm)
  have hold : ∀ l ∈ rows place.above ++ rows place.below, l ∈ rows text := by
    intro l hl
    rw [place.rows_text]
    rcases List.mem_append.mp hl with hl | hl
    · exact List.mem_append_left _ hl
    · exact List.mem_append_right _ (List.mem_append_right _ hl)
  refine ⟨⟨kind, rows place.above ++ rows place.below ++ List.replicate n [] ++ [ "## ".toList ++ kind.heading headings, []], [],
    ?_, ⟨rows place.above ++ rows place.below ++ List.replicate n [], "## ".toList ++ kind.heading headings, [[]], 2, 0, ?_,
      ⟨rankOf_created hblank, ?_, fun _ _ _ _ => Nat.zero_le _⟩, ?_⟩, ?_⟩⟩
  · rw [hfiled]
    simp
  · simp
  · intro l hl p hp
    rcases List.mem_append.mp hl with hl | hl
    · rw [hranks l (hold l hl)] at hp
      cases hp
    · rw [List.eq_of_mem_replicate hl, rankOf_of_none rfl] at hp
      cases hp
  · intro l hl
    rw [List.mem_singleton.mp hl]
    rfl
  · intro l hl
    rw [List.append_nil, List.mem_append, List.mem_append] at hl
    rcases hl with (hl | hl) | hl
    · exact .inl hl
    · rw [List.eq_of_mem_replicate hl]
      exact .inr rfl
    · right
      rcases List.mem_cons.mp hl with rfl | hl
      · rfl
      · rw [List.mem_singleton.mp hl]
        rfl

/-- The completed line of every task that lands is put under a section's heading. -/
theorem exists_landing
    (hown : UnderHeading reader (sectionNames reader own headings) (rows place.above)
      (place.line :: place.kids ++ rows place.below))
    (hlands : Lands reader text task headings) (hdone : '\n' ∉ done) (hread : parseTopLevelTask done = some found) :
    Nonempty (Landing reader headings place (applyEdits text [⟨task.span, []⟩,
      appendToSectionEdit reader text .completed none (joined (done :: place.kids)) headings]) done) := by
  cases hsection : plannerSection reader (rows text) (sectionNames reader .completed headings) with
  | none =>
    obtain ⟨hheading, hblank⟩ := hlands.heading (resolveSection_eq.trans hsection)
    exact exists_landing_end place hsection hheading hblank (appendToSectionEdit_none hsection _) hdone
  | some found =>
    obtain ⟨range, level⟩ := found
    obtain ⟨stop, hgroup, hstart, hstop, hheadings⟩ := exists_group hsection
    obtain ⟨row, hlow, hhigh, hblank, hedit⟩ := appendToSectionEdit_some hsection hgroup hstart hstop (joined (done :: place.kids))
    obtain ⟨-, before, heading, behind, r, hrows, hbest, hfirst, -⟩ := plannerSection_best hsection
    have hrow := place.row_outside hblank hhigh
      (place.stop_outside (hlands.content _ (resolveSection_eq.trans hsection) _ hgroup))
    have htake : (rows text).take row = before ++ heading :: behind.take (row - range.start) := by
      rw [hrows, List.take_append, List.take_of_length_le (by omega)]
      congr 1
      have hsucc : row - before.length = row - range.start + 1 := by omega
      rw [hsucc, List.take_succ_cons]
    have hm : ∀ l ∈ behind.take (row - range.start), headingLevelAndText l = none := by
      intro l hl
      refine hheadings l ?_
      have hbehind : (rows text).drop range.start = behind := by
        rw [hrows, hfirst, List.drop_append, List.drop_of_length_le (by omega), List.nil_append, Nat.add_sub_cancel_left]
        rfl
      rw [List.drop_take, hbehind]
      exact List.take_subset_take_left _ (by omega) hl
    rcases hrow with hrow | hrow
    · exact exists_landing_before place hrows hbest htake hm hedit hdone hread hrow
    · exact exists_landing_behind place hown hrows hbest htake hm hedit hdone hread hrow

end Landing

/-! ## Completed tasks are known -/

/-- Another row of the text reads as a task that is compared as the same. -/
def HasTwin (text : Text) (task : BacklogTask) : Prop :=
  ∃ row, row ≠ task.line ∧ ∃ line ∈ (rows text)[row]?, ∃ found ∈ parseTopLevelTask line,
    normalizeTaskText (line.drop found.2) = normalizeTaskText task.text

theorem not_mem_completionStamp (date : Day) : '\n' ∉ completionStamp date := by
  intro hmem
  rcases List.mem_append.mp hmem with hmem | hmem
  · exact absurd hmem (by decide)
  · exact SyncCore.Reminder.not_mem_dateText (by decide) (by decide) date hmem

theorem containsTask_iff {backlog : Backlog} {text : Text} : backlog.containsTask text = true ↔
    ∃ kind, ∃ task ∈ backlog.section_ kind, normalizeTaskText task.text = normalizeTaskText text := by
  rw [Backlog.containsTask, List.any_eq_true]
  constructor
  · rintro ⟨kind, -, hany⟩
    obtain ⟨task, htask, heq⟩ := List.any_eq_true.mp hany
    exact ⟨kind, task, htask, of_decide_eq_true heq⟩
  · rintro ⟨kind, task, htask, heq⟩
    have hall : kind ∈ SectionKind.all := by cases kind <;> decide
    exact ⟨kind, hall, List.any_eq_true.mpr ⟨task, htask, decide_eq_true heq⟩⟩

section Known
variable {reader : HeadingReader} {headings : BacklogHeadings} {text : Text} {task : BacklogTask} {kind : SectionKind}

/-- A row other than a task's own that reads as the same is its twin. -/
theorem TaskPlace.hasTwin (place : TaskPlace text task) {line : Text} {found : Bool × ℕ}
    (hline : line ∈ rows place.above ++ (place.kids ++ rows place.below)) (hread : parseTopLevelTask line = some found)
    (hsame : normalizeTaskText (line.drop found.2) = normalizeTaskText task.text) : HasTwin text task := by
  rcases List.mem_append.mp hline with hline | hline
  · obtain ⟨row, hrow, hat⟩ := List.mem_iff_getElem.mp hline
    refine ⟨row, by rw [place.row]; omega, line, ?_, found, hread, hsame⟩
    rw [place.rows_text, List.getElem?_append_left hrow, List.getElem?_eq_getElem hrow, hat]
    rfl
  · obtain ⟨row, hrow, hat⟩ := List.mem_iff_getElem.mp hline
    refine ⟨(rows place.above).length + (row + 1), by rw [place.row]; omega, line, ?_, found, hread, hsame⟩
    rw [place.rows_text, List.getElem?_append_right (by omega), Nat.add_sub_cancel_left, List.cons_append,
      List.getElem?_cons_succ, List.getElem?_eq_getElem hrow, hat]
    rfl

/-- After an open task is completed its text is known where the stamp is seen through, and else only through a twin. -/
theorem completed_task_known (htask : task ∈ (parseBacklog reader text headings).section_ kind)
    (hopen : task.checked = false) (date : Day) (hlands : Lands reader text task headings) :
    (∃ line ∈ (rows text)[task.line]?, ∃ column,
      parseTopLevelTask (completedLine false line date) = some (true, column) ∧
      (normalizeTaskText ((completedLine false line date).drop column) = normalizeTaskText task.text ↔
        KnownAgain task.text date)) ∧
    (KnownAgain task.text date → (parseBacklog reader (applyEdits text (completeTaskEdits reader text task date headings))
      headings).containsTask task.text = true) ∧
    ((parseBacklog reader (applyEdits text (completeTaskEdits reader text task date headings))
      headings).containsTask task.text = true → KnownAgain task.text date ∨ HasTwin text task) := by
  obtain ⟨hnames, place, hown⟩ := exists_place htask
  have hreads := place.reads
  rw [hopen] at hreads
  obtain ⟨parts, hvalid, hline, hcolumn⟩ := exists_taskLine hreads
  obtain ⟨done, hdone, hcompleted, hknown, hchars⟩ := completedLine_content hvalid date
  have hread := parseTopLevelTask_content hdone
  have hsaid : task.text = parts.text := by
    rw [place.said, hline, hcolumn, TaskLine.content, List.drop_left]
  have hdonesaid : done.content.drop done.before.length = done.text := by rw [TaskLine.content, List.drop_left]
  rw [← hsaid] at hknown
  have hbreak : '\n' ∉ done.content := by
    intro hmem
    rcases hchars _ hmem with hmem | hmem | hmem
    · rw [← hline] at hmem
      refine not_mem_of_mem_rows (t := place.block) ?_ hmem
      rw [place.rows_block]
      exact List.mem_cons_self
    · exact absurd hmem (by decide)
    · exact not_mem_completionStamp date hmem
  obtain ⟨landing⟩ := exists_landing place hown hlands hbreak hread
  have hedits := @completeTaskEdits_eq reader headings text task place date
  rw [hopen, hline, hcompleted] at hedits
  rw [← hedits] at landing
  refine ⟨⟨place.line, ?_, done.before.length, ?_, ?_⟩, ?_, ?_⟩
  · rw [place.row, place.rows_text, List.getElem?_append_right le_rfl, Nat.sub_self]
    rfl
  · rw [hline, hcompleted, hread]
  · rw [hline, hcompleted, hdonesaid, hknown]
  · intro hagain
    obtain ⟨found, hfound, htext⟩ := task_of_underHeading sectionNames_isEmpty landing.rows_filed landing.under hread
    refine containsTask_iff.mpr ⟨landing.kind, found, hfound, ?_⟩
    rw [htext, hdonesaid]
    exact hknown.mpr hagain
  · intro hcontains
    obtain ⟨kind', found, hfound, hsame⟩ := containsTask_iff.mp hcontains
    obtain ⟨-, place', -⟩ := exists_place hfound
    have hreads' := place'.reads
    rw [place'.said] at hsame
    have hmem : place'.line ∈ landing.first ++ done.content :: (place.kids ++ landing.second) := by
      rw [← landing.rows_filed, place'.rows_text]
      exact List.mem_append_right _ List.mem_cons_self
    have hother : place'.line ∈ landing.first ++ landing.second →
        place'.line ∈ rows place.above ++ (place.kids ++ rows place.below) := by
      intro hother
      rcases landing.others _ hother with hold | hnone
      · simp only [List.mem_append] at hold ⊢
        exact hold.imp_right .inr
      · rw [hnone] at hreads'
        cases hreads'
    rcases List.mem_append.mp hmem with hmem | hmem
    · exact .inr (place.hasTwin (hother (List.mem_append_left _ hmem)) hreads' hsame)
    · rcases List.mem_cons.mp hmem with hmem | hmem
      · left
        rw [hmem, hread] at hreads'
        obtain ⟨-, hcol⟩ := Prod.mk.inj (Option.some.inj hreads')
        rw [hmem, ← hcol, hdonesaid] at hsame
        exact hknown.mp hsame
      · rcases List.mem_append.mp hmem with hmem | hmem
        · refine .inr (place.hasTwin ?_ hreads' hsame)
          exact List.mem_append_right _ (List.mem_append_left _ hmem)
        · exact .inr (place.hasTwin (hother (List.mem_append_right _ hmem)) hreads' hsame)

end Known

/-- A reader for headings in plain letters. -/
def asciiReader : HeadingReader :=
  ⟨Char.isAlphanum, fun c => [c.toLower], fun t => t.map Char.toLower, fun _ => []⟩

def september3 : Day := ⟨2026, 9, 3, by decide, by decide, by decide⟩

/-- A task with a reminder, its child and the heading behind it. -/
def passportText : Text :=
  "## Soon\n- [ ] Renew passport (@2026-10-20 09:00) <!--rem:3f9a1c0d4e21-->\n    - photos\n## Completed\n".toList

def passportTask : BacklogTask where
  line := 1
  span := ⟨8, 86⟩
  textSpan := ⟨14, 72⟩
  text := "Renew passport (@2026-10-20 09:00) <!--rem:3f9a1c0d4e21-->".toList
  checked := false
  category := none

/-- A reminder and its id do not keep a completed task from being known. -/
theorem completed_passport_known :
    (parseBacklog asciiReader (applyEdits passportText (completeTaskEdits asciiReader passportText passportTask september3
      .default_)) .default_).containsTask passportTask.text = true := by
  have htask : passportTask ∈ (parseBacklog asciiReader passportText .default_).section_ .soon := by decide +kernel
  have hlands : Lands asciiReader passportText passportTask .default_ := ⟨by decide +kernel, by decide +kernel⟩
  refine (completed_task_known htask rfl september3 hlands).2.1 ⟨by decide, ?_, by decide +kernel⟩
  have hcomments : passportTask.text.drop (SyncCore.Reminder.trailingCommentsStart passportTask.text) =
      ' ' :: (SyncCore.Reminder.idMarker "3f9a1c0d4e21".toList ++ []) := by decide +kernel
  rw [hcomments]
  exact .blank (by decide) (.id (by decide) .nil)

/-- A task captured from an e-mail. -/
def replyText : Text := "## Soon\n- [ ] Reply [[Ana]] <!--gmail:ab12-->\n".toList

/-- A task with another comment than an id is not known once it is completed. -/
theorem completed_reply_unknown : ∃ task ∈ (parseBacklog asciiReader replyText .default_).section_ .soon,
    task.checked = false ∧ (splitCompletion task.text).2 = none ∧
      (parseBacklog asciiReader (applyEdits replyText (completeTaskEdits asciiReader replyText task september3 .default_))
        .default_).containsTask task.text = false := by
  decide +kernel

end Thock.Desk.BacklogFile
