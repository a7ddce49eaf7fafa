import Thock.Desk.BacklogWords

/-!
# The line of a backlog task

A task's line as its bullet, its checkbox and its text. Completing it ticks the box and puts the
stamp in before the trailing comments; the text it then has is known for the old one just where the
stamp is seen through.
-/

namespace Thock.Desk.BacklogFile

open TextScan
open SyncCore (Day)
open SyncCore.Reminder

/-- A list item with a checkbox at the start of a line. -/
structure TaskLine where
  bullet : Char
  spaces : Text
  mark : Char
  gap : Text
  text : Text
deriving DecidableEq

namespace TaskLine

/-- The bullet and the checkbox. -/
def box (line : TaskLine) : Text := line.bullet :: line.spaces ++ ['[', line.mark, ']']

/-- What stands before the text. -/
def before (line : TaskLine) : Text := line.box ++ line.gap

def content (line : TaskLine) : Text := line.before ++ line.text

/-- A line whose parts are what a task's line has in their places; a text is set off from the box. -/
structure Valid (line : TaskLine) (checked : Bool) : Prop where
  bullet : line.bullet ∈ ['-', '*', '+']
  spaces : line.spaces ≠ [] ∧ ∀ c ∈ line.spaces, c = ' ' ∨ c = '\t'
  mark : if checked then line.mark = 'x' ∨ line.mark = 'X' else line.mark = ' '
  gap : Blank line.gap
  text : Unindented line.text
  apart : line.gap = [] → line.text = []

end TaskLine

theorem dropWhile_spaces {spaces rest : Text} (h : ∀ c ∈ spaces, c = ' ' ∨ c = '\t') :
    (spaces ++ '[' :: rest).dropWhile (fun c => c = ' ' || c = '\t') = '[' :: rest := by
  rw [List.dropWhile_append_of_pos fun c hc => by simpa using h c hc]
  rfl

/-- A task's line is read as one. -/
theorem parseTopLevelTask_content {line : TaskLine} {checked : Bool} (h : line.Valid checked) :
    parseTopLevelTask line.content = some (checked, line.before.length) := by
  obtain ⟨bullet, spaces, mark, gap, text⟩ := line
  obtain ⟨hbullet, ⟨hne, hspaces⟩, hmark, hgap, htext, hapart⟩ := h
  dsimp only at *
  have hindent : isIndented (TaskLine.content ⟨bullet, spaces, mark, gap, text⟩) = false := by
    have hnone : ∀ c ∈ ['-', '*', '+'], (decide (c = ' ') || decide (c = '\t')) = false := by decide
    simp only [isIndented, TaskLine.content, TaskLine.before, TaskLine.box, List.cons_append, List.head?_cons, Option.any_some]
    exact hnone bullet hbullet
  have hdrop := @dropWhile_spaces spaces (mark :: ']' :: (gap ++ text)) hspaces
  have hshort : ('[' :: mark :: ']' :: (gap ++ text)).length ≠ (spaces ++ '[' :: mark :: ']' :: (gap ++ text)).length := by
    have hpos := List.length_pos_iff.mpr hne
    simp only [List.length_append, List.length_cons]
    omega
  have htrim : trimStart (gap ++ text) = text := by
    rw [trimStart_append_of_blank hgap, trimStart_of_unindented htext]
  have hcontent : TaskLine.content ⟨bullet, spaces, mark, gap, text⟩ =
      bullet :: (spaces ++ '[' :: mark :: ']' :: (gap ++ text)) := by simp [TaskLine.content, TaskLine.before, TaskLine.box]
  have hset : ¬(text.length = (gap ++ text).length ∧ text ≠ []) := by
    rintro ⟨hlength, htext⟩
    rw [List.length_append] at hlength
    exact htext (hapart (List.length_eq_zero_iff.mp (by omega)))
  have hcolumn : (bullet :: (spaces ++ '[' :: mark :: ']' :: (gap ++ text))).length - text.length =
      (TaskLine.before ⟨bullet, spaces, mark, gap, text⟩).length := by
    simp only [TaskLine.before, TaskLine.box, List.length_append, List.length_cons, List.length_nil]
    omega
  unfold parseTopLevelTask
  rw [hindent, hcontent]
  simp only [Bool.false_eq_true, if_false, not_not.mpr hbullet, hdrop, hshort, htrim, hset, hcolumn]
  cases checked with
  | false =>
    rw [if_neg Bool.false_ne_true] at hmark
    rw [if_pos hmark]
  | true =>
    rw [if_pos rfl] at hmark
    rw [if_neg, if_pos hmark]
    rintro rfl
    rcases hmark with hmark | hmark
    · exact absurd hmark (by decide)
    · exact absurd hmark (by decide)

/-- What is read as a task is a task's line. -/
theorem exists_taskLine {content : Text} {checked : Bool} {column : ℕ}
    (h : parseTopLevelTask content = some (checked, column)) :
    ∃ line : TaskLine, line.Valid checked ∧ content = line.content ∧ column = line.before.length := by
  unfold parseTopLevelTask at h
  split at h
  · cases h
  · cases content with
    | nil => cases h
    | cons bullet afterBullet =>
      dsimp only at h
      split at h
      · cases h
      · next hbullet =>
        split at h
        · cases h
        · next hshort =>
          split at h
          · next mark afterCheckbox hdrop =>
            split at h
            · cases h
            · next hset =>
              have hspaces := List.takeWhile_append_dropWhile (p := fun c => c = ' ' || c = '\t') (l := afterBullet)
              have hgap := takeWhile_append_trimStart afterCheckbox
              have hlength := congrArg List.length hgap
              rw [List.length_append] at hlength
              rw [hdrop] at hspaces hshort
              have hcontent : bullet :: afterBullet = TaskLine.content ⟨bullet,
                  afterBullet.takeWhile fun c => c = ' ' || c = '\t', mark, afterCheckbox.takeWhile isWhitespace,
                  trimStart afterCheckbox⟩ := by
                conv_lhs => rw [← hspaces, ← hgap]
                simp [TaskLine.content, TaskLine.before, TaskLine.box]
              refine ⟨_, ⟨not_not.mp hbullet, ⟨fun hnil => ?_, fun c hc => by simpa using List.mem_takeWhile_imp hc⟩, ?_,
                blank_takeWhile _, unindented_trimStart _, fun hnil => ?_⟩, hcontent, ?_⟩
              · dsimp only at hnil
                rw [hnil] at hspaces
                exact hshort (congrArg List.length hspaces)
              · dsimp only
                split at h
                · next hmark =>
                  cases h
                  exact hmark
                · split at h
                  · next hmark =>
                    cases h
                    exact hmark
                  · cases h
              · dsimp only at hnil ⊢
                rw [hnil, List.length_nil] at hlength
                by_contra hne
                exact hset ⟨by omega, hne⟩
              · have hcolumn : column = (bullet :: afterBullet).length - (trimStart afterCheckbox).length := by
                  split at h
                  · cases h
                    rfl
                  · split at h
                    · cases h
                      rfl
                    · cases h
                rw [hcolumn, hcontent, TaskLine.content, List.length_append, Nat.add_sub_cancel]
          · cases h

/-! ## Completing a line -/

/-- The text of a task is known again once it is stamped with a date. -/
structure KnownAgain (text : Text) (date : Day) : Prop where
  year : date.year ≤ 9999
  comments : IdRun (text.drop (trailingCommentsStart text))
  unstamped : (splitCompletion (bareText text)).2 = none

theorem completionStamp_eq (date : Day) : completionStamp date = stampText [' '] date [] := by
  simp [completionStamp, stampText]

namespace TaskLine

variable {line : TaskLine} {checked : Bool}

theorem untrailed_box (line : TaskLine) : Untrailed line.box := by
  intro c hc
  rw [box, List.getLast?_append_of_ne_nil _ (List.cons_ne_nil _ _)] at hc
  obtain rfl : ']' = c := Option.some.inj hc
  decide

theorem not_endsInComment_box (line : TaskLine) : ¬EndsInComment line.box := by
  intro hends
  have hlast := hends.getLast?
  rw [box, List.getLast?_append_of_ne_nil _ (List.cons_ne_nil _ _)] at hlast
  simp at hlast

theorem Valid.not_mem_lead (h : line.Valid checked) {c : Char} (hc : c ∉ ['-', '*', '+', ' ', '\t']) :
    c ∉ line.bullet :: line.spaces := by
  intro hmem
  apply hc
  rcases List.mem_cons.mp hmem with rfl | hmem
  · exact List.mem_append_left [' ', '\t'] h.bullet
  · rcases h.spaces.2 c hmem with rfl | rfl
    · decide
    · decide

theorem Valid.opens_not_mem (h : line.Valid checked) : '<' ∉ line.before := by
  have hmark : '<' ≠ line.mark := by
    intro heq
    have hmark := h.mark
    rw [← heq] at hmark
    cases checked with
    | false => exact absurd hmark (by decide)
    | true => exact absurd hmark (by decide)
  have hlead := h.not_mem_lead (c := '<') (by decide)
  rw [before, box, List.mem_append, List.mem_append]
  rintro ((hmem | hmem) | hmem)
  · exact hlead hmem
  · rcases List.mem_cons.mp hmem with heq | hmem
    · exact absurd heq (by decide)
    · rcases List.mem_cons.mp hmem with heq | hmem
      · exact hmark heq
      · exact absurd hmem (by decide)
  · exact h.gap.not_mem (by decide) hmem

/-- The first box of an open task's line is its own. -/
theorem Valid.replaceFirst_box (h : line.Valid false) (rest : Text) :
    replaceFirst "[ ]".toList "[x]".toList (line.box ++ rest) = { line with mark := 'x' }.box ++ rest := by
  have hmark : line.mark = ' ' := h.mark
  have hbox : "[ ]".toList = '[' :: [' ', ']'] := by decide
  have hshape : line.box ++ rest = line.bullet :: line.spaces ++ ("[ ]".toList ++ rest) := by
    rw [box, hmark, hbox]
    simp
  have hlead := h.not_mem_lead (c := '[') (by decide)
  have hsplit : splitFirst "[ ]".toList (line.box ++ rest) = some (line.bullet :: line.spaces, rest) := by
    rw [hshape, splitFirst_apart (not_infix_of_not_mem (c := '[') (by decide) hlead) (by rw [hbox]; exact apart_of_not_mem hlead _),
      splitFirst_self (by decide)]
    simp
  rw [replaceFirst, hsplit, show "[x]".toList = ['[', 'x', ']'] by decide]
  rfl

end TaskLine

/-- A run of comments is made of ids alone with or without white space behind it. -/
theorem idRun_append_blank {run w : Text} (hrun : CommentRun run) (hw : Blank w) : IdRun (run ++ w) ↔ IdRun run := by
  have hwhole := (removeReminderIds_run (hrun.append (.of_blank hw))).2
  have htrails : Trails w := .inl hw
  have hkeep : removeReminderIds w = w :=
    (Unmarked.refl (not_infix_of_not_mem (c := '<') (by decide) (hw.not_mem (by decide)))).eq
  rw [removeReminderIds_append htrails, hkeep] at hwhole
  rw [← hwhole, ← (removeReminderIds_run hrun).2]
  exact ⟨fun h c hc => h c (List.mem_append_left w hc), fun h => h.append hw⟩

theorem normalizeTaskText_append_blank {w : Text} (hw : Blank w) (text : Text) :
    normalizeTaskText (text ++ w) = normalizeTaskText text := by
  rw [normalizeTaskText_eq, normalizeTaskText_eq, bareText_append_blank hw]

/-- A text stamped before its trailing comments is known for the text just where that one is known again. -/
theorem normalizeTaskText_stamped_iff {said run w gap after : Text} (hsaid : Untrailed said) (hends : ¬EndsInComment said)
    (hrun : CommentRun run) (hw : Blank w) (hgap : Blank gap) (hafter : Blank after) (date : Day) :
    normalizeTaskText (said ++ (stampText gap date after ++ run)) = normalizeTaskText (said ++ run ++ w) ↔
      KnownAgain (said ++ run ++ w) date := by
  have hcut : (said ++ run ++ w).drop (trailingCommentsStart (said ++ run ++ w)) = run ++ w := by
    rw [List.append_assoc, trailingCommentsStart_append hsaid hends (hrun.append (.of_blank hw)), List.drop_left]
  rw [normalizeTaskText_append_blank hw, normalizeTaskText_stamp_iff hrun hgap hafter]
  constructor
  · rintro ⟨hyear, hids, hnone⟩
    refine ⟨hyear, ?_, ?_⟩
    · rw [hcut]
      exact (idRun_append_blank hrun hw).mpr hids
    · rwa [bareText_append_blank hw]
  · rintro ⟨hyear, hids, hnone⟩
    rw [hcut, idRun_append_blank hrun hw] at hids
    rw [bareText_append_blank hw] at hnone
    exact ⟨hyear, hids, hnone⟩

/-- The stamp goes in before the trailing comments. -/
theorem completedLine_cut {content front run : Text} (hline : replaceFirst "[ ]".toList "[x]".toList (trimEnd content) = front ++ run)
    (hfront : Untrailed front) (hends : ¬EndsInComment front) (hrun : CommentRun run) (date : Day) :
    completedLine false content date = front ++ completionStamp date ++ run := by
  unfold completedLine
  dsimp only
  rw [if_neg Bool.false_ne_true, hline, trailingCommentsStart_append hfront hends hrun, List.take_left, List.drop_left,
    trimEnd_of_untrailed hfront]

theorem untrailed_append {a b : Text} (ha : Untrailed a) (hb : Untrailed b) : Untrailed (a ++ b) := by
  cases b with
  | nil => rwa [List.append_nil]
  | cons c b =>
    intro d hd
    rw [List.getLast?_append_of_ne_nil _ (List.cons_ne_nil c b)] at hd
    exact hb d hd

theorem mem_done_box {line : TaskLine} {c : Char} (hc : c ∈ { line with mark := 'x' }.box) : c ∈ line.content ∨ c = 'x' := by
  simp only [TaskLine.box, TaskLine.content, TaskLine.before, List.mem_append, List.mem_cons] at hc ⊢
  tauto

theorem blank_space : Blank [' '] := by
  intro c hc
  rw [List.mem_singleton.mp hc]
  decide

/-- Where a task says nothing, the stamp goes right behind its box. -/
theorem completedLine_unsaid {line : TaskLine} (h : line.Valid false) {kept w : Text} (htext : line.text = kept ++ w)
    (hrun : CommentRun kept) (hkept : Untrailed kept) (hw : Blank w) (date : Day) :
    ∃ after, Blank after ∧ (∀ c ∈ after, c ∈ line.content) ∧ completedLine false line.content date =
      { line with mark := 'x', gap := [' '], text := stampText [] date after ++ kept : TaskLine }.content := by
  obtain ⟨after, hafter, hmem, htrim⟩ : ∃ after, Blank after ∧ (∀ c ∈ after, c ∈ line.content) ∧
      trimEnd line.content = line.box ++ (after ++ kept) := by
    by_cases hnil : kept = []
    · subst hnil
      refine ⟨[], .nil, fun c hc => (nomatch hc), ?_⟩
      have hblank : Blank (line.gap ++ ([] ++ w)) := h.gap.append hw
      rw [TaskLine.content, TaskLine.before, htext, List.append_assoc, trimEnd_append_of_blank hblank,
        trimEnd_of_untrailed line.untrailed_box, List.append_nil, List.append_nil]
    · refine ⟨line.gap, h.gap, fun c hc => by simp [TaskLine.content, TaskLine.before, hc], ?_⟩
      have huntrailed : Untrailed (line.box ++ (line.gap ++ kept)) := by
        intro c hc
        rw [← List.append_assoc, List.getLast?_append_of_ne_nil _ hnil] at hc
        exact hkept c hc
      have hshape : line.content = line.box ++ (line.gap ++ kept) ++ w := by
        rw [TaskLine.content, TaskLine.before, htext]
        simp
      rw [hshape, trimEnd_append_of_blank hw, trimEnd_of_untrailed huntrailed]
  refine ⟨after, hafter, hmem, ?_⟩
  have hline := h.replaceFirst_box (after ++ kept)
  rw [← htrim] at hline
  rw [completedLine_cut hline (TaskLine.untrailed_box _) (TaskLine.not_endsInComment_box _)
    ((CommentRun.of_blank hafter).append hrun)]
  simp [TaskLine.content, TaskLine.before, TaskLine.box, completionStamp_eq, stampText]

/-- Where a task says something, the stamp goes behind it. -/
theorem completedLine_said {line : TaskLine} (h : line.Valid false) {said kept w : Text}
    (htext : line.text = said ++ kept ++ w) (hsaid : Untrailed said) (hends : ¬EndsInComment said) (hne : said ≠ [])
    (hrun : CommentRun kept) (hkept : Untrailed kept) (hw : Blank w) (date : Day) :
    completedLine false line.content date =
      { line with mark := 'x', text := said ++ (stampText [' '] date [] ++ kept) : TaskLine }.content := by
  have hfront : Untrailed ({ line with mark := 'x' }.box ++ line.gap ++ said) := by
    intro c hc
    rw [List.getLast?_append_of_ne_nil _ hne] at hc
    exact hsaid c hc
  have hdone : ({ line with mark := 'x' } : TaskLine).Valid true := ⟨h.bullet, h.spaces, .inl rfl, h.gap, h.text, h.apart⟩
  have hopen : ¬EndsInComment ({ line with mark := 'x' }.box ++ line.gap ++ said) := fun hcomment =>
    hends (hcomment.of_append hdone.opens_not_mem)
  have htrim : trimEnd line.content = line.box ++ (line.gap ++ said ++ kept) := by
    have huntrailed : Untrailed (line.box ++ (line.gap ++ said ++ kept)) := by
      rw [← List.append_assoc]
      refine untrailed_append ?_ hkept
      rw [← List.append_assoc]
      intro c hc
      rw [List.getLast?_append_of_ne_nil _ hne] at hc
      exact hsaid c hc
    have hshape : line.content = line.box ++ (line.gap ++ said ++ kept) ++ w := by
      rw [TaskLine.content, TaskLine.before, htext]
      simp
    rw [hshape, trimEnd_append_of_blank hw, trimEnd_of_untrailed huntrailed]
  have hline := h.replaceFirst_box (line.gap ++ said ++ kept)
  rw [← htrim, ← List.append_assoc, ← List.append_assoc] at hline
  rw [completedLine_cut hline hfront hopen hrun]
  simp [TaskLine.content, TaskLine.before, TaskLine.box, completionStamp_eq, stampText]

/-- The line a task is completed to, and when its text is still known. -/
theorem completedLine_content {line : TaskLine} (h : line.Valid false) (date : Day) :
    ∃ done : TaskLine, done.Valid true ∧ completedLine false line.content date = done.content ∧
      (normalizeTaskText done.text = normalizeTaskText line.text ↔ KnownAgain line.text date) ∧
      ∀ c ∈ done.content, c ∈ line.content ∨ c = 'x' ∨ c ∈ completionStamp date := by
  obtain ⟨said, run, htext, hsaid, hends, hrun⟩ := exists_run line.text
  have hsplit : line.text = said ++ trimEnd run ++ run.rtakeWhile isWhitespace := by
    rw [List.append_assoc, trimEnd_append_rtakeWhile, htext]
  have hw := blank_rtakeWhile run
  have hrun' := run_trimEnd hrun
  have hkept := untrailed_trimEnd run
  generalize trimEnd run = kept at hsplit hrun' hkept
  generalize run.rtakeWhile isWhitespace = w at hsplit hw
  have hin : ∀ c ∈ said ++ kept, c ∈ line.content := by
    intro c hc
    rw [TaskLine.content, hsplit]
    exact List.mem_append_right _ (List.mem_append_left w hc)
  by_cases hnone : said = []
  · subst hnone
    obtain ⟨after, hafter, hmem, hdone⟩ := completedLine_unsaid h hsplit hrun' hkept hw date
    refine ⟨{ line with mark := 'x', gap := [' '], text := stampText [] date after ++ kept },
      ⟨h.bullet, h.spaces, .inl rfl, blank_space, ?_, fun hgap => (nomatch hgap)⟩, hdone, ?_, ?_⟩
    · intro c hc
      obtain rfl : '✅' = c := Option.some.inj hc
      decide
    · have hknown := normalizeTaskText_stamped_iff hsaid hends hrun' hw .nil hafter date
      rwa [← hsplit] at hknown
    · intro c hc
      have hstamp : c ∈ stampText [] date after → c ∈ line.content ∨ c ∈ completionStamp date := by
        intro hc
        rw [stampText, List.nil_append] at hc
        rcases List.mem_append.mp hc with hc | hc
        · rw [completionStamp_eq, stampText, List.append_nil]
          exact .inr (List.mem_append_right _ hc)
        · exact .inl (hmem c hc)
      rw [TaskLine.content, TaskLine.before, List.append_assoc, List.mem_append, List.mem_append, List.mem_append] at hc
      rcases hc with hc | hc | hc | hc
      · exact (mem_done_box hc).imp_right .inl
      · exact .inr (.inr (by rw [List.mem_singleton.mp hc, completionStamp_eq]; simp [stampText]))
      · exact (hstamp hc).imp_right .inr
      · exact .inl (hin c hc)
  · refine ⟨{ line with mark := 'x', text := said ++ (stampText [' '] date [] ++ kept) },
      ⟨h.bullet, h.spaces, .inl rfl, h.gap, ?_, fun hgap => ?_⟩,
      completedLine_said h hsplit hsaid hends hnone hrun' hkept hw date, ?_, ?_⟩
    · intro c hc
      refine h.text c ?_
      rw [htext, List.head?_append_of_ne_nil _ hnone]
      rwa [List.head?_append_of_ne_nil _ hnone] at hc
    · have htextnil := h.apart hgap
      rw [htext, List.append_eq_nil_iff] at htextnil
      exact absurd htextnil.1 hnone
    · have hknown := normalizeTaskText_stamped_iff hsaid hends hrun' hw blank_space .nil date
      rwa [← hsplit] at hknown
    · intro c hc
      rw [← completionStamp_eq, TaskLine.content, TaskLine.before, List.append_assoc, List.mem_append, List.mem_append,
        List.mem_append, List.mem_append] at hc
      rcases hc with hc | hc | hc | hc | hc
      · exact (mem_done_box hc).imp_right .inl
      · exact .inl (by simp [TaskLine.content, TaskLine.before, hc])
      · exact .inl (hin c (List.mem_append_left kept hc))
      · exact .inr (.inr hc)
      · exact .inl (hin c (List.mem_append_right said hc))

end Thock.Desk.BacklogFile
