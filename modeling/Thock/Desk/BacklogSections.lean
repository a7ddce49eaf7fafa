import Thock.Desk.BacklogLines
import Thock.Desk.PlanSections

/-!
# The tasks of a backlog section

A section is found by the first of the best-ranked headings, and holds a task for every line under
it that reads as one: a line passed over for the task above it is indented or blank.
-/

namespace Thock.Desk.BacklogFile

open TextScan

/-! ## The heading of a section -/

section Best
variable {α : Type*} {rank : α → Option (ℕ × ℕ)}

theorem bestSeen_eq_none {best : Option (ℕ × ℕ × List α)} {ls : List α} (h : bestSeen rank best ls = none) :
    best = none ∧ ∀ x ∈ ls, rank x = none := by
  induction ls generalizing best with
  | nil => exact ⟨h, fun x hx => nomatch hx⟩
  | cons line rest ih =>
    rw [bestSeen_cons] at h
    cases hrank : rank line with
    | none =>
      rw [hrank] at h
      obtain ⟨hbest, hrest⟩ := ih h
      exact ⟨hbest, List.forall_mem_cons.mpr ⟨hrank, hrest⟩⟩
    | some p =>
      rw [hrank] at h
      dsimp only at h
      split at h
      · exact absurd (ih h).1 (Option.some_ne_none _)
      · next hworse =>
        obtain ⟨rfl, -⟩ := ih h
        exact absurd rfl hworse

/-- A line is the best-ranked one: better than all before it, and as good as all behind it. -/
structure Best (rank : α → Option (ℕ × ℕ)) (before : List α) (line : α) (behind : List α) (r level : ℕ) : Prop where
  ranks : rank line = some (r, level)
  before : ∀ x ∈ before, ∀ p ∈ rank x, r < p.1
  behind : ∀ x ∈ behind, ∀ p ∈ rank x, r ≤ p.1

theorem Best.seen {before behind : List α} {line : α} {r level : ℕ} (h : Best rank before line behind r level) :
    bestSeen rank none (before ++ line :: behind) = some (r, level, behind) := by
  have happend := @bestSeen_append _ rank none before (line :: behind)
  rw [Option.map_none] at happend
  rw [happend, bestSeen_cons, h.ranks]
  dsimp only
  rw [if_pos, bestSeen_of_le h.behind]
  cases hseen : bestSeen rank none before with
  | none => rfl
  | some b =>
    obtain ⟨r', level', after⟩ := b
    obtain ⟨hwhere, -, -⟩ := bestSeen_some hseen
    obtain ⟨pre, x, hpre, hx⟩ := hwhere.resolve_left (by simp)
    simpa using h.before x (by rw [hpre]; simp) _ hx

/-- The best-ranked line is the one found. -/
theorem bestRest_eq_some_iff {ls after : List α} {level : ℕ} :
    bestRest rank none ls = some (level, after) ↔
      ∃ before line r, ls = before ++ line :: after ∧ Best rank before line after r level := by
  rw [bestRest_seen none ls rfl]
  constructor
  · intro h
    obtain ⟨⟨r, level', after'⟩, hseen, heq⟩ := Option.map_eq_some_iff.mp h
    obtain ⟨rfl, rfl⟩ := Prod.mk.inj heq
    obtain ⟨hwhere, -, hall⟩ := bestSeen_some hseen
    obtain ⟨before, line, rfl, hrank⟩ := hwhere.resolve_left (by simp)
    refine ⟨before, line, r, rfl, hrank, fun x hx p hp => ?_, fun x hx => hall x (by simp [hx])⟩
    -- An equal one before it would have been kept.
    have happend := @bestSeen_append _ rank none before (line :: after')
    rw [Option.map_none, hseen] at happend
    cases hbefore : bestSeen rank none before with
    | none =>
      rw [(bestSeen_eq_none hbefore).2 x hx] at hp
      cases hp
    | some b =>
      obtain ⟨r', level'', after''⟩ := b
      have hle := (bestSeen_some hbefore).2.2 x hx p hp
      by_contra hnot
      rw [hbefore, Option.map_some, bestSeen_of_le fun y hy q hq =>
        (show r' ≤ r by omega).trans (hall y (List.mem_append_right before hy) q hq)] at happend
      have hlength := congrArg (fun b => (b.map fun b => b.2.2.length).getD 0) happend
      simp only [Option.map_some, Option.getD_some, List.length_append, List.length_cons] at hlength
      omega
  · rintro ⟨before, line, r, rfl, hbest⟩
    rw [hbest.seen]
    rfl

theorem bestRest_eq_none {ls : List α} (h : bestRest rank none ls = none) : ∀ x ∈ ls, rank x = none := by
  rw [bestRest_seen none ls rfl, Option.map_eq_none_iff] at h
  exact (bestSeen_eq_none h).2

/-- A best-ranked line is so among any lines of its own text and others that name nothing. -/
theorem Best.of_mem {before before' behind behind' : List α} {line : α} {r level : ℕ}
    (h : Best rank before line behind r level) (hbefore : ∀ x ∈ before', x ∈ before)
    (hbehind : ∀ x ∈ behind', x ∈ before ++ line :: behind ∨ rank x = none) : Best rank before' line behind' r level where
  ranks := h.ranks
  before x hx := h.before x (hbefore x hx)
  behind x hx p hp := by
    rcases hbehind x hx with hx | hx
    · rcases List.mem_append.mp hx with hx | hx
      · exact Nat.le_of_lt (h.before x hx p hp)
      · rcases List.mem_cons.mp hx with rfl | hx
        · rw [h.ranks] at hp
          obtain rfl := Option.some.inj hp
          exact le_rfl
        · exact h.behind x hx p hp
    · rw [hx] at hp
      cases hp

end Best

section Planner
variable {reader : HeadingReader} {ls : List Text} {names : HeadingNames} {range : RowRange} {level : ℕ}

/-- A section's heading and what is under it. -/
theorem plannerSection_best (h : plannerSection reader ls names = some (range, level)) :
    names.isEmpty = false ∧ ∃ before line behind r, ls = before ++ line :: behind ∧
      Best (rankOf reader names none) before line behind r level ∧ range.start = before.length + 1 ∧
      range.stop = before.length + 1 + (under level behind).length := by
  obtain ⟨hle, hlen, hempty, hbest⟩ := plannerSection_rows h
  obtain ⟨before, line, r, hls, hfirst⟩ := bestRest_eq_some_iff.mp hbest
  have hlength := congrArg List.length hls
  rw [List.length_append, List.length_cons, List.length_drop] at hlength
  have hbody := plannerSection_body reader ls names
  rw [h, plannerBody, hempty, hbest] at hbody
  simp only [Option.map_some, Bool.false_eq_true, if_false, Option.some.injEq, Prod.mk.injEq, and_true] at hbody
  have hstop := congrArg List.length hbody
  rw [RowRange.of, List.length_take, List.length_drop] at hstop
  have hpos : range.start ≠ 0 := by
    intro hzero
    rw [hzero] at hlength
    omega
  exact ⟨hempty, before, line, ls.drop range.start, r, hls, hfirst, by omega, by omega⟩

/-- What is under the best-ranked heading is the section. -/
theorem plannerBody_of_best {before behind : List Text} {line : Text} {r : ℕ} (hempty : names.isEmpty = false)
    (h : Best (rankOf reader names none) before line behind r level) :
    plannerBody reader names (before ++ line :: behind) = some (under level behind, level) := by
  rw [plannerBody, hempty, bestRest_eq_some_iff.mpr ⟨before, line, r, rfl, h⟩]
  rfl

/-- No line of a section ends it. -/
theorem endsSection_of_mem (h : plannerSection reader ls names = some (range, level)) {line : Text}
    (hline : line ∈ (ls.take range.stop).drop range.start) : endsSection level line = false := by
  obtain ⟨hempty, before, heading, behind, r, rfl, hbest, -, -⟩ := plannerSection_best h
  have hbody := plannerSection_body reader (before ++ heading :: behind) names
  rw [h, plannerBody_of_best hempty hbest] at hbody
  have hunder : range.of (before ++ heading :: behind) = under level behind := congrArg Prod.fst (Option.some.inj hbody)
  rw [List.drop_take, ← RowRange.of, hunder] at hline
  simpa using List.mem_takeWhile_imp hline

end Planner

theorem under_append {level : ℕ} {front rest : List Text} (h : ∀ line ∈ front, endsSection level line = false) :
    under level (front ++ rest) = front ++ under level rest :=
  List.takeWhile_append_of_pos fun line hline => by simp [h line hline]

/-! ## Walking over a section -/

/-- A line that a task above it takes along. -/
def GoesAlong (line : Text) : Prop := isChildLine line = true ∨ isBlank line = true

theorem goesAlong_of_childRun {ls : List Text} {line : Text} (h : line ∈ ls.take (childRun ls)) : GoesAlong line := by
  induction ls with
  | nil => cases h
  | cons first rest ih =>
    unfold childRun at h
    split at h
    · next hchild =>
      rcases List.mem_cons.mp h with rfl | h
      · exact .inl hchild
      · exact ih h
    · split at h
      · next hblank =>
        split at h
        · cases h
        · rcases List.mem_cons.mp h with rfl | h
          · exact .inr hblank
          · exact ih h
      · cases h

theorem childRun_le (ls : List Text) : childRun ls ≤ ls.length := by
  induction ls with
  | nil => exact le_rfl
  | cons first rest ih =>
    unfold childRun
    split
    · exact Nat.succ_le_succ ih
    · split
      · split
        · exact Nat.zero_le _
        · exact Nat.succ_le_succ ih
      · exact Nat.zero_le _

/-- The last line a task takes along is none of the blank ones. -/
theorem childRun_last {ls : List Text} (h : childRun ls ≠ 0) :
    ∃ front last, ls.take (childRun ls) = front ++ [last] ∧ isChildLine last = true := by
  induction ls with
  | nil => exact absurd rfl h
  | cons first rest ih =>
    unfold childRun at h ⊢
    split
    · next hchild =>
      by_cases hzero : childRun rest = 0
      · exact ⟨[], first, by rw [hzero]; rfl, hchild⟩
      · obtain ⟨front, last, htake, hlast⟩ := ih hzero
        exact ⟨first :: front, last, by rw [List.take_succ_cons, htake]; rfl, hlast⟩
    · next hchild =>
      rw [if_neg hchild] at h
      split
      · next hblank =>
        rw [if_pos hblank] at h
        split
        · next hzero => exact absurd (if_pos hzero) h
        · next hzero =>
          obtain ⟨front, last, htake, hlast⟩ := ih hzero
          exact ⟨first :: front, last, by rw [List.take_succ_cons, htake]; rfl, hlast⟩
      · next hblank =>
        rw [if_neg hblank] at h
        exact absurd rfl h

/-- A task's line goes with no task above it. -/
theorem not_goesAlong_of_task {line : Text} {found : Bool × ℕ} (h : parseTopLevelTask line = some found) :
    ¬GoesAlong line := by
  obtain ⟨parts, hvalid, rfl, -⟩ := @exists_taskLine line found.1 found.2 h
  have hindent : isIndented parts.content = false := by
    have hnone : ∀ c ∈ ['-', '*', '+'], (decide (c = ' ') || decide (c = '\t')) = false := by decide
    exact hnone parts.bullet hvalid.bullet
  have hblack : isBlank parts.content = false := by
    have hnone : ∀ c ∈ ['-', '*', '+'], isWhitespace c = false := by decide
    rw [isBlank, Bool.eq_false_iff, Ne, List.isEmpty_iff, trim_eq_nil_iff]
    intro hblank
    exact absurd (hblank parts.bullet List.mem_cons_self) (by rw [hnone _ hvalid.bullet]; exact Bool.false_ne_true)
  rintro (hchild | hblank)
  · rw [isChildLine, hindent] at hchild
    cases hchild
  · rw [hblack] at hblank
    cases hblank

/-- A task's line is no heading. -/
theorem headingLevelAndText_of_task {line : Text} {found : Bool × ℕ} (h : parseTopLevelTask line = some found) :
    headingLevelAndText line = none := by
  obtain ⟨parts, hvalid, rfl, -⟩ := @exists_taskLine line found.1 found.2 h
  have hnone : ∀ c ∈ ['-', '*', '+'], isWhitespace c = false ∧ decide (c = '#') = false := by decide
  obtain ⟨hblack, hhash⟩ := hnone _ hvalid.bullet
  have htrim : trimStart parts.content = parts.content := trimStart_of_unindented (unindented_cons hblack _)
  have hdrop : parts.content.dropWhile (· = '#') = parts.content := by
    rw [TaskLine.content, TaskLine.before, TaskLine.box, List.cons_append, List.cons_append, List.cons_append,
      List.dropWhile_cons_of_neg (by simpa using hhash)]
  unfold headingLevelAndText
  dsimp only
  rw [htrim, hdrop]
  simp

/-- A walk finds every task behind the lines it passes over. -/
theorem parseRows_task {level : ℕ} {category : Option Text} {categories : List Category} {row skip : ℕ}
    {ls : List TableLine} {line : TableLine} {checked : Bool} {column : ℕ}
    (hskip : ∀ l ∈ ls.take skip, GoesAlong l.content) (hmem : line ∈ ls)
    (hline : parseTopLevelTask line.content = some (checked, column)) :
    ∃ task ∈ (parseRows level category categories row skip ls).tasks, task.text = line.content.drop column := by
  induction ls generalizing category categories row skip with
  | nil => cases hmem
  | cons first rest ih =>
    cases skip with
    | succ skip =>
      have hfirst := hskip first List.mem_cons_self
      have hrest : line ∈ rest := (List.mem_cons.mp hmem).resolve_left fun heq =>
        not_goesAlong_of_task hline (by rwa [heq])
      exact ih (fun l hl => hskip l (List.mem_cons_of_mem first hl)) hrest
    | zero =>
      unfold parseRows
      cases hheading : headingLevelAndText first.content with
      | some heading =>
        have hrest : line ∈ rest := (List.mem_cons.mp hmem).resolve_left fun heq => by
          rw [← heq, headingLevelAndText_of_task hline] at hheading
          cases hheading
        dsimp only
        split
        · exact ih (fun l hl => nomatch hl) hrest
        · exact ih (fun l hl => nomatch hl) hrest
      | none =>
        cases htask : parseTopLevelTask first.content with
        | none =>
          have hrest : line ∈ rest := (List.mem_cons.mp hmem).resolve_left fun heq => by
            rw [← heq, hline] at htask
            cases htask
          exact ih (fun l hl => nomatch hl) hrest
        | some found =>
          rcases List.mem_cons.mp hmem with rfl | hrest
          · rw [hline] at htask
            cases htask
            exact ⟨_, List.mem_cons_self, rfl⟩
          · have halong : ∀ l ∈ rest.take (childRun (rest.map TableLine.content)), GoesAlong l.content := by
              intro l hl
              apply goesAlong_of_childRun
              rw [← List.map_take]
              exact List.mem_map_of_mem hl
            obtain ⟨task, htask, htext⟩ := ih halong hrest
            exact ⟨task, List.mem_cons_of_mem _ htask, htext⟩

/-- Every task a walk finds is read from a line. -/
theorem exists_of_parseRows {level : ℕ} {category : Option Text} {categories : List Category} {row skip : ℕ}
    {ls : List TableLine} {task : BacklogTask} (h : task ∈ (parseRows level category categories row skip ls).tasks) :
    ∃ before line rest column, ls = before ++ line :: rest ∧ parseTopLevelTask line.content = some (task.checked, column) ∧
      task.text = line.content.drop column ∧ task.line = row + before.length ∧
      task.span = ⟨line.start, ((line :: rest)[childRun (rest.map TableLine.content)]?.getD line).stop⟩ := by
  induction ls generalizing category categories row skip with
  | nil => cases h
  | cons first rest ih =>
    have hlater : ∀ {category categories skip}, task ∈ (parseRows level category categories (row + 1) skip rest).tasks →
        ∃ before line rest' column, first :: rest = before ++ line :: rest' ∧
          parseTopLevelTask line.content = some (task.checked, column) ∧ task.text = line.content.drop column ∧
          task.line = row + before.length ∧
          task.span = ⟨line.start, ((line :: rest')[childRun (rest'.map TableLine.content)]?.getD line).stop⟩ := by
      intro category categories skip hrest
      obtain ⟨before, line, rest', column, rfl, hline, htext, hrow, hspan⟩ := ih hrest
      refine ⟨first :: before, line, rest', column, rfl, hline, htext, ?_, hspan⟩
      rw [hrow, List.length_cons]
      omega
    cases skip with
    | succ skip => exact hlater h
    | zero =>
      unfold parseRows at h
      cases hheading : headingLevelAndText first.content with
      | some heading =>
        rw [hheading] at h
        dsimp only at h
        split at h
        · exact hlater h
        · exact hlater h
      | none =>
        cases htask : parseTopLevelTask first.content with
        | none =>
          rw [hheading, htask] at h
          exact hlater h
        | some found =>
          rw [hheading, htask] at h
          rcases List.mem_cons.mp h with rfl | h
          · exact ⟨[], first, rest, found.2, rfl, htask, rfl, rfl, rfl⟩
          · exact hlater h

end Thock.Desk.BacklogFile
