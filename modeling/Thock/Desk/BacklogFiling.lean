import Thock.Desk.BacklogPlaces

/-!
# Filing a backlog task

A task's block is taken out of the text and a block put in elsewhere, both by the offsets of the
text as it was. The rows are then those of the text without the task's, with the new ones among
them.
-/

namespace Thock.Desk.BacklogFile

open TextScan
open Rows
open SyncCore (Span)

/-! ## Taking a block out and putting one in -/

theorem backToFront_pair (a b : Edit) :
    backToFront [a, b] = if b.range.start ≤ a.range.start then [a, b] else [b, a] := by
  rw [backToFront, List.insertionSort_cons, List.insertionSort_cons, List.insertionSort_nil, List.orderedInsert_nil,
    List.orderedInsert_cons, List.orderedInsert_nil]

/-- A block put in before the one taken out. -/
theorem applyEdits_before {text a b block below : Text} (h : text = a ++ b ++ block ++ below) (new : Text) :
    applyEdits text [⟨⟨(a ++ b).length, (a ++ b).length + block.length⟩, []⟩, ⟨⟨a.length, a.length⟩, new⟩] =
      a ++ new ++ b ++ below := by
  have hout : text.take (a ++ b).length = a ++ b := by rw [h, List.append_assoc (a ++ b), List.take_left]
  have hdrop : text.drop ((a ++ b).length + block.length) = below := by rw [h, ← List.length_append, List.drop_left]
  have hlength := congrArg List.length h
  simp only [List.length_append] at hlength
  rw [applyEdits, backToFront_pair, if_pos (by simp), List.foldl_cons, List.foldl_cons, List.foldl_nil]
  dsimp only
  rw [if_pos ⟨le_rfl, by omega⟩, if_pos ⟨by omega, by rw [List.length_append]; omega⟩, hout, hdrop, List.append_nil,
    List.append_assoc a b, List.take_left, List.drop_left]
  simp

/-- A block put in behind the one taken out. -/
theorem applyEdits_behind {text above block a b : Text} (h : text = above ++ block ++ a ++ b) (hne : block ≠ [])
    (new : Text) : applyEdits text [⟨⟨above.length, above.length + block.length⟩, []⟩,
      ⟨⟨(above ++ block ++ a).length, (above ++ block ++ a).length⟩, new⟩] = above ++ a ++ new ++ b := by
  have hpos := List.length_pos_iff.mpr hne
  have hlength := congrArg List.length h
  simp only [List.length_append] at hlength
  have htake : text.take (above ++ block ++ a).length = above ++ block ++ a := by rw [h, List.take_left]
  have hdrop : text.drop (above ++ block ++ a).length = b := by rw [h, List.drop_left]
  have hin : (above ++ block ++ a ++ new ++ b).take above.length = above := by simp
  have hout : (above ++ block ++ a ++ new ++ b).drop (above.length + block.length) = a ++ new ++ b := by
    rw [← List.length_append, List.append_assoc _ a, List.append_assoc _ (a ++ new), List.drop_left]
  rw [applyEdits, backToFront_pair, if_neg (by simp only [List.length_append]; omega), List.foldl_cons, List.foldl_cons,
    List.foldl_nil]
  dsimp only
  rw [if_pos ⟨by omega, by omega⟩, if_pos ⟨le_rfl, by simp only [List.length_append]; omega⟩, htake, hdrop, hin, hout]
  simp

/-! ## Rows put in between others -/

/-- An edit that puts text in behind the first rows, the last of them ended before it. -/
def PutsIn (text : Text) (edit : Edit) (row : ℕ) (new : Text) : Prop :=
  ∃ a b n, text = a ++ b ∧ (rows a).length = row ∧ (b = [] ∨ Ended a) ∧ edit.range = ⟨a.length, a.length⟩ ∧
    edit.newText = List.replicate n '\n' ++ new ∧ Ended (a ++ List.replicate n '\n')

theorem ended_breaks (a : Text) (n : ℕ) : Ended (a ++ List.replicate (n + 1) '\n') := by
  right
  rw [List.replicate_succ', ← List.append_assoc, List.getLast?_concat]

/-- Cuts before the same row are the same. -/
theorem cut_unique {a a' b b' : Text} (h : a ++ b = a' ++ b') (hb : b = [] ∨ Ended a) (hb' : b' = [] ∨ Ended a')
    (hrows : (rows a).length = (rows a').length) : a = a' ∧ b = b' := by
  have hsegments := congrArg segments h
  rw [segments_append hb, segments_append hb'] at hsegments
  have hfirst := (List.append_inj hsegments (by rw [length_segments, length_segments, hrows])).1
  have ha := congrArg List.flatten hfirst
  rw [segments_flatten, segments_flatten] at ha
  rw [ha] at h
  exact ⟨ha, List.append_cancel_left h⟩

theorem rows_of_cut {a b : Text} (h : b = [] ∨ Ended a) : rows (a ++ b) = rows a ++ rows b := by
  rw [rows, segments_append h, List.map_append]
  rfl

section Filed
variable {text new : Text} {task : BacklogTask} {edit : Edit} {row : ℕ}

namespace TaskPlace

variable (place : TaskPlace text task)

theorem block_ne : place.block ≠ [] := by
  intro hnil
  have hrows := place.rows_block
  rw [hnil] at hrows
  cases hrows

theorem rows_text : rows text = rows place.above ++ (place.line :: place.kids ++ rows place.below) := by
  rw [← place.rows_block, ← rows_of_cut place.below_cut, ← rows_append place.above_ended, ← List.append_assoc, ← place.whole]

/-- The rows once a block is put in above the task and the task taken out. -/
theorem filed_before (h : PutsIn text edit row new) (hnew : Ended new) (hrow : row ≤ (rows place.above).length) :
    ∃ m, rows (applyEdits text [⟨task.span, []⟩, edit]) = (rows place.above).take row ++ List.replicate m [] ++
      (rows new ++ ((rows place.above).drop row ++ rows place.below)) := by
  obtain ⟨a, b, n, htext, hrows, hcut, hrange, hnewText, hended⟩ := h
  obtain ⟨a', c, habove, hrows', hcut'⟩ := exists_cut place.above hrow
  have hwhole : text = a' ++ (c ++ place.block ++ place.below) := place.whole.trans (by rw [habove]; simp)
  have hends : c ++ place.block ++ place.below = [] ∨ Ended a' := by
    rcases hcut' with rfl | hcut'
    · right
      rw [← List.append_nil a', ← habove]
      exact place.above_ended
    · exact .inr hcut'
  obtain ⟨rfl, rfl⟩ := cut_unique (htext.symm.trans hwhole) hcut hends (hrows.trans hrows'.symm)
  obtain ⟨m, hm⟩ := exists_rows_breaks hended
  refine ⟨m, ?_⟩
  have hc : Ended c := by
    have := place.above_ended
    rw [habove] at this
    exact this.of_append
  have hparts : rows place.above = rows a ++ rows c := by rw [habove, rows_of_cut hcut']
  have hedits : applyEdits text [⟨task.span, []⟩, edit] = a ++ edit.newText ++ c ++ place.below := by
    rw [show edit = ⟨edit.range, edit.newText⟩ from rfl, hrange, place.span, habove]
    exact applyEdits_before (place.whole.trans (by rw [habove])) _
  rw [hedits, hnewText, hparts, ← hrows, List.take_left, List.drop_left]
  have hshape : a ++ (List.replicate n '\n' ++ new) ++ c ++ place.below =
      a ++ List.replicate n '\n' ++ (new ++ (c ++ place.below)) := by simp
  rw [hshape, hm, rows_append hnew, rows_append hc]

/-- The rows once a block is put in below the task and the task taken out. -/
theorem filed_behind (h : PutsIn text edit row new) (hnew : Ended new)
    (hrow : (rows place.above).length + (place.kids.length + 1) ≤ row) :
    ∃ m, rows (applyEdits text [⟨task.span, []⟩, edit]) =
      rows place.above ++ (rows place.below).take (row - ((rows place.above).length + (place.kids.length + 1))) ++
        List.replicate m [] ++
        (rows new ++ (rows place.below).drop (row - ((rows place.above).length + (place.kids.length + 1)))) := by
  obtain ⟨a, b, n, htext, hrows, hcut, hrange, hnewText, hended⟩ := h
  have hcount := congrArg List.length place.rows_text
  have hle := congrArg List.length (rows_of_cut hcut)
  rw [← htext] at hle
  simp only [List.length_append, List.length_cons] at hcount hle
  obtain ⟨a', c, hbelow, hrows', hcut'⟩ := exists_cut place.below
    (k := row - ((rows place.above).length + (place.kids.length + 1))) (by omega)
  have hwhole : text = (place.above ++ place.block ++ a') ++ c := place.whole.trans (by rw [hbelow]; simp)
  have hblockcut : a' = [] ∨ Ended place.block := by
    rcases place.below_cut with hnil | hblock
    · rw [hnil] at hbelow
      exact .inl (List.append_eq_nil_iff.mp hbelow.symm).1
    · exact .inr hblock
  have hends : c = [] ∨ Ended (place.above ++ place.block ++ a') := by
    rcases place.below_cut with hnil | hblock
    · rw [hnil] at hbelow
      exact .inl (List.append_eq_nil_iff.mp hbelow.symm).2
    · exact hcut'.imp_right fun h => (place.above_ended.append hblock).append h
  have hsame : (rows a).length = (rows (place.above ++ place.block ++ a')).length := by
    rw [List.append_assoc, rows_append place.above_ended, rows_of_cut hblockcut, place.rows_block, List.length_append,
      List.length_append, List.length_cons, hrows', hrows]
    omega
  obtain ⟨rfl, rfl⟩ := cut_unique (htext.symm.trans hwhole) hcut hends hsame
  have hedits : applyEdits text [⟨task.span, []⟩, edit] = place.above ++ a' ++ edit.newText ++ b := by
    rw [show edit = ⟨edit.range, edit.newText⟩ from rfl, hrange, place.span]
    exact applyEdits_behind hwhole place.block_ne _
  have hended' : Ended (place.above ++ a' ++ List.replicate n '\n') := by
    rw [List.append_assoc] at hended ⊢
    exact place.above_ended.append hended.of_append
  obtain ⟨m, hm⟩ := exists_rows_breaks hended'
  refine ⟨m, ?_⟩
  have hparts : rows place.below = rows a' ++ rows b := by rw [hbelow, rows_of_cut hcut']
  have hshape : place.above ++ a' ++ (List.replicate n '\n' ++ new) ++ b =
      place.above ++ a' ++ List.replicate n '\n' ++ (new ++ b) := by simp
  rw [hedits, hnewText, hshape, hm, rows_append hnew, rows_append place.above_ended, hparts, ← hrows', List.take_left,
    List.drop_left]

end TaskPlace

end Filed

/-! ## The end of a section's own content -/

theorem ended_replicate (n : ℕ) : Ended (List.replicate n '\n') := by
  cases n with
  | zero => exact .inl rfl
  | succ n => exact ended_breaks [] n

/-- An insertion behind a row has a line feed before it. -/
theorem insertAfterLine_putsIn {text : Text} {row : ℕ} (h : row < (rows text).length) (n : ℕ) (new : Text) :
    PutsIn text (insertAfterLine (lineTable text) row (List.replicate n '\n' ++ new)) (row + 1) new := by
  obtain ⟨a, b, rfl, hrows, hcut⟩ := exists_cut text (k := row + 1) h
  obtain ⟨front, segment, hsegments⟩ : ∃ front segment, segments a = front ++ [segment] := by
    obtain hnil | ⟨front, segment, hconcat⟩ := List.eq_nil_or_concat (segments a)
    · rw [← length_segments, hnil] at hrows
      cases hrows
    · exact ⟨front, segment, by rw [hconcat, List.concat_eq_append]⟩
  have hflat := segments_flatten a
  rw [hsegments, List.flatten_append, List.flatten_singleton] at hflat
  have hfront : (lineTableFrom 0 front).length = row := by
    have hcontents := congrArg List.length (lineTableFrom_content 0 front)
    rw [← length_segments, hsegments, List.length_append, List.length_singleton] at hrows
    rw [List.length_map, List.length_map] at hcontents
    omega
  have hline : (lineTable (a ++ b))[row]? = some ⟨content segment, front.flatten.length, a.length⟩ := by
    rw [lineTable_append hcut, lineTable, hsegments, lineTableFrom_append, List.append_assoc,
      List.getElem?_append_right (by omega), hfront, Nat.sub_self, Nat.zero_add, ← hflat, List.length_append]
    rfl
  unfold insertAfterLine
  rw [hline, Option.getD_some]
  dsimp only
  split
  · next hends =>
    refine ⟨a, b, n, rfl, hrows, hcut, rfl, rfl, Ended.append ?_ (ended_replicate n)⟩
    -- A row shorter than its segment leaves out its line feed.
    cases hstrip : stripSuffix ['\n'] segment with
    | none =>
      rw [content, hstrip, Option.getD_none, ← hflat, List.length_append] at hends
      omega
    | some rest =>
      rw [← hflat, stripSuffix_eq_some.mp hstrip, ← List.append_assoc]
      exact .inr List.getLast?_concat
  · exact ⟨a, b, n + 1, rfl, hrows, hcut, rfl, rfl, ended_breaks a n⟩

/-- What a search passes over does not pass. -/
theorem eq_false_of_mem_take_findIdx? {α : Type*} {p : α → Bool} {ls : List α} {x : α}
    (h : x ∈ ls.take ((ls.findIdx? p).getD ls.length)) : p x = false := by
  rw [take_findIdx?] at h
  simpa using List.mem_takeWhile_imp h

theorem findRow_getD {lines : List TableLine} {start stop : ℕ} (hle : start ≤ stop) (hlen : stop ≤ lines.length)
    (passes : Text → Bool) :
    start ≤ (findRow lines start stop passes).getD stop ∧ (findRow lines start stop passes).getD stop ≤ stop ∧
      ∀ l ∈ (lines.take ((findRow lines start stop passes).getD stop)).drop start, passes l.content = false := by
  have hlength : ((lines.take stop).drop start).length = stop - start := by
    rw [List.length_drop, List.length_take_of_le hlen]
  have hwhere : (findRow lines start stop passes).getD stop =
      start + (((lines.take stop).drop start).findIdx? fun l => passes l.content).getD (stop - start) := by
    rw [findRow]
    cases ((lines.take stop).drop start).findIdx? fun l => passes l.content with
    | none =>
      simp only [Option.map_none, Option.getD_none]
      omega
    | some i => rfl
  have hshort : (((lines.take stop).drop start).findIdx? fun l => passes l.content).getD (stop - start) ≤ stop - start := by
    cases hfind : ((lines.take stop).drop start).findIdx? fun l => passes l.content with
    | none => exact le_rfl
    | some i =>
      obtain ⟨hlt, -⟩ := List.findIdx?_eq_some_iff_getElem.mp hfind
      rw [hlength] at hlt
      exact Nat.le_of_lt hlt
  have htake : ∀ k ≤ stop - start, ((lines.take stop).drop start).take k = (lines.drop start).take k := by
    intro k hk
    rw [List.drop_take, List.take_take, min_eq_left hk]
  refine ⟨by omega, by omega, fun l hl => ?_⟩
  rw [hwhere, List.drop_take, Nat.add_sub_cancel_left, ← htake _ hshort, ← hlength] at hl
  exact eq_false_of_mem_take_findIdx? (p := fun l : TableLine => passes l.content) hl

theorem lastNonBlank_getD {lines : List TableLine} {group : RowRange} (hpos : 0 < group.start)
    (hle : group.start ≤ group.stop) (hlen : group.stop ≤ lines.length) :
    group.start ≤ (lastNonBlank lines group).getD (group.start - 1) + 1 ∧
      (lastNonBlank lines group).getD (group.start - 1) + 1 ≤ group.stop ∧
      ∀ l ∈ (lines.take group.stop).drop ((lastNonBlank lines group).getD (group.start - 1) + 1), isBlank l.content = true := by
  have hlength : ((lines.take group.stop).drop group.start).length = group.stop - group.start := by
    rw [List.length_drop, List.length_take_of_le hlen]
  have hblank : ∀ i, ((lines.take group.stop).drop group.start).reverse.findIdx? (fun l => !isBlank l.content) = i →
      ∀ l ∈ (lines.take group.stop).drop (group.stop - i.getD (group.stop - group.start)), isBlank l.content = true := by
    rintro i hfind l hl
    have hshort : i.getD (group.stop - group.start) ≤ group.stop - group.start := by
      cases i with
      | none => exact le_rfl
      | some i =>
        obtain ⟨hlt, -⟩ := List.findIdx?_eq_some_iff_getElem.mp hfind
        rw [List.length_reverse, hlength] at hlt
        exact Nat.le_of_lt hlt
    have hmem : l ∈ ((lines.take group.stop).drop group.start).reverse.take (i.getD (group.stop - group.start)) := by
      rw [List.take_reverse, hlength, List.mem_reverse, List.drop_drop]
      have hrow : group.start + (group.stop - group.start - i.getD (group.stop - group.start)) =
          group.stop - i.getD (group.stop - group.start) := by omega
      rwa [hrow]
    rw [← hfind, ← hlength, ← List.length_reverse] at hmem
    simpa using eq_false_of_mem_take_findIdx? hmem
  unfold lastNonBlank
  cases hfind : ((lines.take group.stop).drop group.start).reverse.findIdx? (fun l => !isBlank l.content) with
  | none =>
    have hall := hblank none hfind
    simp only [Option.map_none, Option.getD_none] at hall ⊢
    have hrow : group.stop - (group.stop - group.start) = group.start - 1 + 1 := by omega
    rw [hrow] at hall
    exact ⟨by omega, by omega, hall⟩
  | some i =>
    have hall := hblank (some i) hfind
    obtain ⟨hlt, -⟩ := List.findIdx?_eq_some_iff_getElem.mp hfind
    rw [List.length_reverse, hlength] at hlt
    simp only [Option.map_some, Option.getD_some] at hall ⊢
    have hrow : group.stop - i = min group.stop lines.length - 1 - i + 1 := by omega
    rw [hrow] at hall
    exact ⟨by omega, by omega, hall⟩

section Landing
variable {reader : HeadingReader} {headings : BacklogHeadings} {kind : SectionKind} {text : Text} {range : RowRange} {level : ℕ}

/-- The rows of a section that belong to no category: up to its first heading of any level. -/
theorem exists_group (h : plannerSection reader (rows text) (sectionNames reader kind headings) = some (range, level)) :
    ∃ stop, categoryLineRange (lineTable text) range level none = some ⟨range.start, stop⟩ ∧ range.start ≤ stop ∧
      stop ≤ range.stop ∧ ∀ l ∈ ((rows text).take stop).drop range.start, headingLevelAndText l = none := by
  obtain ⟨hle, hlen, -, -⟩ := plannerSection_rows h
  rw [← length_lineTable] at hlen
  obtain ⟨hstart, hstop, hnone⟩ := findRow_getD hle hlen fun line => (headingLevelAndText line).any fun h => level < h.1
  refine ⟨_, rfl, hstart, hstop, fun l hl => ?_⟩
  have hopen : endsSection level l = false := by
    refine endsSection_of_mem h ?_
    rw [List.drop_take] at hl ⊢
    exact List.take_subset_take_left _ (by omega) hl
  rw [← lineTable_content, ← List.map_take, ← List.map_drop] at hl
  obtain ⟨line, hline, rfl⟩ := List.mem_map.mp hl
  have hshallow := hnone line hline
  rw [endsSection] at hopen
  cases hheading : headingLevelAndText line.content with
  | none => rfl
  | some heading =>
    rw [hheading, Option.any_some, decide_eq_false_iff_not] at hopen hshallow
    omega

/-- A block without a category is put in behind the last of the rows that belong to none. -/
theorem appendToSectionEdit_some
    (h : plannerSection reader (rows text) (sectionNames reader kind headings) = some (range, level)) {stop : ℕ}
    (hgroup : categoryLineRange (lineTable text) range level none = some ⟨range.start, stop⟩) (hstart : range.start ≤ stop)
    (hstop : stop ≤ range.stop) (block : Text) :
    ∃ row, range.start ≤ row ∧ row ≤ stop ∧ (∀ l ∈ ((rows text).take stop).drop row, isBlank l = true) ∧
      PutsIn text (appendToSectionEdit reader text kind none block headings) row block := by
  obtain ⟨-, hlen, -, -⟩ := plannerSection_rows h
  obtain ⟨-, before, heading, behind, r, -, -, hfirst, -⟩ := plannerSection_best h
  have hpos : 0 < (⟨range.start, stop⟩ : RowRange).start := by
    dsimp only
    omega
  obtain ⟨hlow, hhigh, hblank⟩ := @lastNonBlank_getD (lineTable text) ⟨range.start, stop⟩ hpos hstart
    (by rw [length_lineTable]; exact hstop.trans hlen)
  dsimp only at hlow hhigh hblank
  refine ⟨_, hlow, hhigh, ?_, ?_⟩
  · intro l hl
    rw [← lineTable_content, ← List.map_take, ← List.map_drop] at hl
    obtain ⟨line, hline, rfl⟩ := List.mem_map.mp hl
    exact hblank line hline
  · unfold appendToSectionEdit
    dsimp only
    rw [resolveSection_eq, h]
    dsimp only
    rw [hgroup]
    dsimp only
    cases hlast : lastNonBlank (lineTable text) ⟨range.start, stop⟩ with
    | none =>
      rw [hlast, Option.getD_none] at hhigh
      exact insertAfterLine_putsIn (by omega) 1 block
    | some row =>
      rw [hlast, Option.getD_some] at hhigh
      exact insertAfterLine_putsIn (show row < (rows text).length by omega) 0 block

/-- Where the section is missing, its heading and the block go to the end of the text. -/
theorem appendToSectionEdit_none
    (h : plannerSection reader (rows text) (sectionNames reader kind headings) = none) (block : Text) :
    PutsIn text (appendToSectionEdit reader text kind none block headings) (rows text).length
      ("## ".toList ++ kind.heading headings ++ ['\n', '\n'] ++ block) := by
  unfold appendToSectionEdit
  dsimp only
  rw [resolveSection_eq, h]
  dsimp only
  have hwhole : text = text ++ [] := (List.append_nil text).symm
  split
  · next hempty =>
    rw [List.isEmpty_iff] at hempty
    exact ⟨text, [], 0, hwhole, rfl, .inl rfl, rfl, by simp, .inl (by simp [hempty])⟩
  · split
    · exact ⟨text, [], 1, hwhole, rfl, .inl rfl, rfl, by simp, ended_breaks text 0⟩
    · exact ⟨text, [], 2, hwhole, rfl, .inl rfl, rfl, by simp, ended_breaks text 1⟩

end Landing

end Thock.Desk.BacklogFile
