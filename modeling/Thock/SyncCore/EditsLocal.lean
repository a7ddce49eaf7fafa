import Thock.SyncCore.EditShapes
import Thock.SyncCore.NoteReadings

/-!
# An edit of a home line and the rest of the note

A line put in the place of a home line leaves the readings of all other lines as they were when
it opens no fence, ends no front matter and leaves a comment open where the line did. Every edit
but two does so on every line: a strike may go on with tildes at the start of the line, and the
texts around a token that is taken out may form a mark together.
-/

namespace Thock.SyncCore.Reminder

open TextScan

/-! ## The edits -/

inductive HomeEdit
  | close
  | reopen
  | rewrite (due : Due) (homeDay : Option Day)
  | dropToken
  | attach (due : Due) (id : Text) (homeDay : Option Day)
  | addId (id : Text)
deriving DecidableEq

def HomeEdit.run (line : Text) : HomeEdit → Option Text
  | .close => Reminder.close line
  | .reopen => Reminder.reopen line
  | .rewrite due homeDay => Reminder.rewrite line due homeDay
  | .dropToken => Reminder.dropToken line
  | .attach due id homeDay => Reminder.attach line due id homeDay
  | .addId id => Reminder.addId line id

/-- The lines an edit changes nothing below. -/
def HomeEdit.Safe (line : Text) : HomeEdit → Prop
  | .close => ¬StrikesIntoFence line
  | .dropToken => ∀ token, (parseLine line none).bind LineReminder.token = some token →
      Harmless line (kept line token.range)
  | _ => True

/-- An edit of a line leaves what all other lines read as in every note the line is a home line of. -/
def EditIsLocal (prim : Primitives) (chrono : Chrono) (path : Text) (config : ReminderConfig) (line : Text)
    (edit : HomeEdit) : Prop :=
  ∀ note row edited, HomeLine prim chrono note path config row line → edit.run line = some edited →
    otherReadings prim chrono (replaceRow note row edited) path config row =
      otherReadings prim chrono note path config row

variable {prim : Primitives} {chrono : Chrono} {note path : Text} {config : ReminderConfig} {row : ℕ} {line edited : Text}

/-! ## The lines of an edited note -/

theorem parseLine_isSome (line : Text) (day : Option Day) (inComment : Bool) :
    (readLine line day inComment).1.isSome = (readLine line none inComment).1.isSome := by
  unfold readLine
  dsimp only
  split
  · rfl
  · split <;> rfl

/-- A reminder line is no rule that ends front matter. -/
theorem isFrontMatterEnd_of_reads {day : Option Day} (h : (parseLine line day).isSome = true) :
    isFrontMatterEnd line = false := by
  rw [parseLine, parseLine_isSome] at h
  rw [Bool.eq_false_iff]
  intro hrule
  simp only [isFrontMatterEnd, Bool.or_eq_true, decide_eq_true_eq] at hrule
  rcases hrule with rfl | rfl
  · exact absurd h (by decide +kernel)
  · exact absurd h (by decide +kernel)

theorem wellFormed_edited {front back : List Line} {ending : Ending} (h : WellFormed (front ++ ⟨line, ending⟩ :: back))
    (hone : OneLine line edited) (hkept : edited ≠ [] ∨ ending ≠ .none) :
    WellFormed (front ++ ⟨edited, ending⟩ :: back) := by
  have hfront := h.front (List.cons_ne_nil _ _)
  have hnewline := hone.newline (h.no_newline ⟨line, ending⟩ (by simp))
  refine .append hfront ?_
  rcases h.back with ⟨hline, hback⟩ | ⟨hline, rfl⟩
  · exact .cons ⟨hnewline, hline.2.1, fun hlf hlast => hline.2.2 hlf (hone.return_ hlast)⟩ hback
  · obtain ⟨-, hending, -⟩ := hline
    exact .last ⟨hnewline, hending, hkept.resolve_right (not_not.mpr hending)⟩

theorem replaceRow_eq {front back : List Line} {ending : Ending} (hlines : splitLines note = front ++ ⟨line, ending⟩ :: back)
    (hrow : front.length = row) (edited : Text) :
    replaceRow note row edited = textOfLines (front ++ ⟨edited, ending⟩ :: back) := by
  have hlt : front.length < (front ++ ⟨line, ending⟩ :: back).length := by simp
  have hbehind : front.drop (front.length + 1) = [] := List.drop_eq_nil_of_le (Nat.le_succ _)
  rw [replaceRow, hlines, ← hrow, List.modify_eq_take_cons_drop hlt]
  simp [List.drop_append, hbehind]

theorem splitLines_edited {front back : List Line} {ending : Ending}
    (hlines : splitLines note = front ++ ⟨line, ending⟩ :: back) (hrow : front.length = row) (hone : OneLine line edited)
    (hkept : edited ≠ [] ∨ ending ≠ .none) : splitLines (replaceRow note row edited) = front ++ ⟨edited, ending⟩ :: back := by
  have hwhole := wellFormed_splitLines note
  rw [hlines] at hwhole
  rw [replaceRow_eq hlines hrow]
  exact splitLines_textOfLines (wellFormed_edited hwhole hone hkept)

/-- The lines of an edited note: an emptied last line without a terminator is gone. -/
theorem splitLines_replaceRow {front back : List Line} {ending : Ending}
    (hlines : splitLines note = front ++ ⟨line, ending⟩ :: back) (hrow : front.length = row) (hone : OneLine line edited) :
    splitLines (replaceRow note row edited) = front ++ ⟨edited, ending⟩ :: back ∨
      back = [] ∧ splitLines (replaceRow note row edited) = front := by
  by_cases hkept : edited ≠ [] ∨ ending ≠ .none
  · exact Or.inl (splitLines_edited hlines hrow hone hkept)
  · have hwhole := wellFormed_splitLines note
    rw [hlines] at hwhole
    simp only [not_or, not_not] at hkept
    obtain ⟨rfl, rfl⟩ := hkept
    rcases hwhole.back with ⟨hline, -⟩ | ⟨-, rfl⟩
    · exact absurd rfl hline.2.1
    · have hfront : WellFormed (front ++ []) := .append (hwhole.front (List.cons_ne_nil _ _)) trivial
      have hempty : textOfLines [⟨[], Ending.none⟩] = [] := rfl
      refine Or.inr ⟨rfl, ?_⟩
      rw [replaceRow_eq hlines hrow, textOfLines_append, hempty, List.append_nil]
      rw [List.append_nil] at hfront
      exact splitLines_textOfLines hfront

/-! ## What leaves the rest of a note as it is -/

theorem stateAfter_concat (closes : Bool) (front : List Line) (last : Line) :
    stateAfter closes 0 .body (front ++ [last]) =
      scanStep closes front.length (stateAfter closes 0 .body front) last.text := by
  rw [stateAfter_append, Nat.zero_add]
  rfl

theorem commentAfter_concat {closes : Bool} {front : List Line} {last : Line}
    (hguard : guards closes front.length (stateAfter closes 0 .body front) last.text = false)
    (houtside : commentAfter closes 0 .body false front = false) :
    commentAfter closes 0 .body false (front ++ [last]) = leavesOpen last.text := by
  rw [commentAfter_append, Nat.zero_add, houtside, commentAfter, hguard]
  rfl

/-- What is read beside a line that opens nothing. -/
theorem others_of_plain (closes : Bool) (day : Option Day) (front : List Line) (last : Line) (back : List Line)
    (hbody : stateAfter closes 0 .body front = .body) (houtside : commentAfter closes 0 .body false front = false)
    (hfence : opensFence last.text = none) (hrule : isFrontMatterEnd last.text = false) :
    (readingsFrom closes day 0 .body false (front ++ last :: back)).filter (fun reading => reading.1 ≠ front.length) =
      readingsFrom closes day 0 .body false front ++
        readingsFrom closes day (front.length + 1) .body (leavesOpen last.text) back := by
  have hguard : guards closes front.length (stateAfter closes 0 .body front) last.text = false := by
    rw [hbody]
    exact guards_body.mpr ⟨not_opensFrontMatter hrule _ _, hfence⟩
  rw [readingsFrom_others, stateAfter_concat, hbody, scanStep_body hfence (not_opensFrontMatter hrule _ _),
    commentAfter_concat hguard houtside]

/-- A line that opens nothing and leaves a comment open where the line did leaves the rest as it is. -/
theorem HomeLine.otherReadings_replaceRow (home : HomeLine prim chrono note path config row line)
    (hone : OneLine line edited) (hfence : opensFence edited = none) (hrule : isFrontMatterEnd edited = false)
    (hopens : leavesOpen edited = leavesOpen line) :
    otherReadings prim chrono (replaceRow note row edited) path config row =
      otherReadings prim chrono note path config row := by
  obtain ⟨front, ending, back, hlines, rfl, hbody, houtside, hguard, hreads⟩ := home.split
  have hline := isFrontMatterEnd_of_reads hreads
  have hfence' := (guards_body.mp hguard).2
  rw [otherReadings_eq, otherReadings_eq]
  rw [hlines] at hbody houtside ⊢
  rw [others_of_plain _ _ _ _ _ hbody houtside hfence' hline]
  rcases splitLines_replaceRow hlines rfl hone with hedited | ⟨rfl, hedited⟩
  · have hcloses : frontMatterCloses (front ++ ⟨edited, ending⟩ :: back) =
        frontMatterCloses (front ++ ⟨line, ending⟩ :: back) := frontMatterCloses_swap hline hrule
    rw [hedited, hcloses, others_of_plain _ _ _ _ _ hbody houtside hfence hrule, hopens]
  · have hcloses : frontMatterCloses (front ++ [⟨line, ending⟩]) = frontMatterCloses front :=
      frontMatterCloses_concat hline
    rw [hedited, ← hcloses, readingsFrom, List.append_nil, List.filter_eq_self]
    intro reading hreading
    have := readingsFrom_bounds hreading
    simp only [ne_eq, decide_eq_true_eq]
    omega

/-! ## What does not -/

/-- A line between others, in the body of a note and outside every comment, is a home line where it reads as one. -/
theorem homeLine_of {front back : List Line} {ending : Ending} (hlines : splitLines note = front ++ ⟨line, ending⟩ :: back)
    (hbody : stateAfter (frontMatterCloses (splitLines note)) 0 .body front = .body)
    (houtside : commentAfter (frontMatterCloses (splitLines note)) 0 .body false front = false)
    (hfence : opensFence line = none) (hrule : isFrontMatterEnd line = false)
    (hreads : (parseLine line (dayOf chrono config.daily path)).isSome = true) :
    HomeLine prim chrono note path config front.length line := by
  refine ⟨by simp [hlines], ?_, by rw [commentBefore, hlines, List.take_left, ← hlines]; exact houtside⟩
  obtain ⟨reminder, hreminder⟩ := Option.isSome_iff_exists.mp hreads
  have hreading : (front.length, reminder) ∈ readingsFrom (frontMatterCloses (splitLines note))
      (dayOf chrono config.daily path) 0 .body false (splitLines note) := by
    generalize frontMatterCloses (splitLines note) = closes at *
    rw [hlines, readingsFrom_append, List.mem_append, Nat.zero_add, hbody, houtside, readingsFrom,
      if_neg (by simp [guards_body.mpr ⟨not_opensFrontMatter hrule _ _, hfence⟩])]
    refine Or.inr (List.mem_append_left _ (List.mem_map.mpr ⟨reminder, ?_, rfl⟩))
    exact Option.mem_toList.mpr hreminder
  rw [← parseNote_readings prim] at hreading
  obtain ⟨appearance, hmem, hsame⟩ := List.mem_map.mp hreading
  exact ⟨appearance, hmem, congrArg Prod.fst hsame⟩

/-- A line that closes a comment and holds a token. -/
def closingLine : Text := "--> (@2026-01-01)".toList

/-- A line that is a token. -/
def tokenLine : Text := "(@2026-01-01)".toList

theorem closingLine_reads (day : Option Day) (inComment : Bool) : (readLine closingLine day inComment).1.isSome = true := by
  rw [parseLine_isSome]
  cases inComment <;> decide +kernel

theorem tokenLine_reads (day : Option Day) (inComment : Bool) :
    (readLine tokenLine day inComment).1.isSome = !inComment := by
  rw [parseLine_isSome]
  cases inComment <;> decide +kernel

/-- A line read in the body of a note adds to the readings. -/
theorem readingsFrom_ne_nil {closes inComment : Bool} {day : Option Day} {index : ℕ} (last : Line)
    (hguard : guards closes index .body last.text = false)
    (hreads : (readLine last.text day inComment).1.isSome = true) (back : List Line) :
    readingsFrom closes day index .body inComment (last :: back) ≠ [] := by
  obtain ⟨reminder, hreminder⟩ := Option.isSome_iff_exists.mp hreads
  rw [readingsFrom, if_neg (by simp [hguard]), hreminder]
  simp

theorem tokenLine_readings (day : Option Day) (inComment : Bool) :
    readingsFrom false day 1 .body inComment [⟨tokenLine, .lf⟩] = [] ↔ inComment = true := by
  have hguard : guards false 1 .body tokenLine = false := by decide +kernel
  have hreads := tokenLine_reads day inComment
  cases inComment with
  | false => exact iff_of_false (readingsFrom_ne_nil ⟨tokenLine, .lf⟩ hguard hreads []) Bool.false_ne_true
  | true =>
    rw [Bool.not_true, Option.isSome_eq_false_iff, Option.isNone_iff_eq_none] at hreads
    rw [readingsFrom, if_neg (by simp [hguard]), hreads]
    exact iff_of_true rfl rfl

/-- What stands behind a line in a note that begins with it. -/
structure Behind (back : List Line) : Prop where
  wellFormed : WellFormed back
  rules : (back.any fun last => isFrontMatterEnd last.text) = false

section Home
variable (home : HomeLine prim chrono note path config row line)
include home

theorem HomeLine.no_newline : '\n' ∉ line := by
  obtain ⟨front, ending, after, hlines, -⟩ := home.split
  have hwhole := wellFormed_splitLines note
  rw [hlines] at hwhole
  exact hwhole.no_newline ⟨line, ending⟩ (by simp)

theorem HomeLine.plain :
    opensFence line = none ∧ isFrontMatterEnd line = false ∧ (parseLine line (dayOf chrono config.daily path)).isSome = true := by
  obtain ⟨front, ending, after, -, -, -, -, hguard, hreads⟩ := home.split
  exact ⟨(guards_body.mp hguard).2, isFrontMatterEnd_of_reads hreads, hreads⟩

variable {edit : HomeEdit} (hrun : edit.run line = some edited) (hone : OneLine line edited)
  (hlocal : EditIsLocal prim chrono path config line edit)
include hrun hone hlocal

/-- Where an edit is local, what stands behind the edited line reads as it does behind the line. -/
theorem HomeLine.readings_behind {back : List Line} (hback : Behind back) :
    (readingsFrom false (dayOf chrono config.daily path) 0 .body false (⟨edited, .crLf⟩ :: back)).filter
        (fun reading => reading.1 ≠ 0) =
      readingsFrom false (dayOf chrono config.daily path) 1 .body (leavesOpen line) back := by
  obtain ⟨hfence, hline, hreads⟩ := home.plain
  have hsplit : splitLines (textOfLines (⟨line, .crLf⟩ :: back)) = [] ++ ⟨line, .crLf⟩ :: back :=
    splitLines_textOfLines (.cons ⟨home.no_newline, nofun, nofun⟩ hback.wellFormed)
  have hcloses : frontMatterCloses (splitLines (textOfLines (⟨line, .crLf⟩ :: back))) = false := by
    rw [hsplit]
    exact hback.rules
  have hcloses' : frontMatterCloses ([] ++ ⟨edited, .crLf⟩ :: back) = false := hback.rules
  have hhome : HomeLine prim chrono (textOfLines (⟨line, .crLf⟩ :: back)) path config 0 line :=
    homeLine_of hsplit rfl rfl hfence hline hreads
  have hedited : splitLines (replaceRow (textOfLines (⟨line, .crLf⟩ :: back)) 0 edited) = [] ++ ⟨edited, .crLf⟩ :: back :=
    splitLines_edited hsplit rfl hone (Or.inr nofun)
  have hsame := hlocal _ _ _ hhome hrun
  rw [otherReadings_eq, otherReadings_eq, hcloses, hedited, hcloses', hsplit] at hsame
  exact hsame.trans (others_of_plain false _ [] ⟨line, .crLf⟩ back rfl rfl hfence hline)

/-- An edit that is local ends no front matter the note begins with. -/
theorem HomeLine.rule_of_local : isFrontMatterEnd edited = false := by
  obtain ⟨hfence, hline, hreads⟩ := home.plain
  by_contra hrule
  rw [Bool.not_eq_false] at hrule
  have hsplit : splitLines (textOfLines ([⟨['-', '-', '-'], .lf⟩, ⟨tokenLine, .lf⟩] ++ [⟨line, .crLf⟩])) =
      [⟨['-', '-', '-'], .lf⟩, ⟨tokenLine, .lf⟩] ++ [⟨line, .crLf⟩] :=
    splitLines_textOfLines (.cons (by decide +kernel) (.cons (by decide +kernel)
      (.cons ⟨home.no_newline, nofun, nofun⟩ trivial)))
  have hcloses : frontMatterCloses ([⟨['-', '-', '-'], .lf⟩, ⟨tokenLine, .lf⟩] ++ [⟨line, .crLf⟩]) = false := by
    have htoken : isFrontMatterEnd tokenLine = false := by decide +kernel
    simp [frontMatterCloses, htoken, hline]
  have hcloses' : frontMatterCloses ([⟨['-', '-', '-'], .lf⟩, ⟨tokenLine, .lf⟩] ++ [⟨edited, .crLf⟩]) = true := by
    simp [frontMatterCloses, hrule]
  have hbody : stateAfter false 0 .body [⟨['-', '-', '-'], .lf⟩, ⟨tokenLine, .lf⟩] = .body := by decide +kernel
  have houtside : commentAfter false 0 .body false [⟨['-', '-', '-'], .lf⟩, ⟨tokenLine, .lf⟩] = false := by decide +kernel
  have hhome : HomeLine prim chrono (textOfLines ([⟨['-', '-', '-'], .lf⟩, ⟨tokenLine, .lf⟩] ++ [⟨line, .crLf⟩])) path config
      2 line :=
    homeLine_of hsplit (by rw [hsplit, hcloses]; exact hbody) (by rw [hsplit, hcloses]; exact houtside) hfence hline hreads
  have hedited : splitLines (replaceRow (textOfLines ([⟨['-', '-', '-'], .lf⟩, ⟨tokenLine, .lf⟩] ++ [⟨line, .crLf⟩])) 2 edited) =
      [⟨['-', '-', '-'], .lf⟩, ⟨tokenLine, .lf⟩] ++ [⟨edited, .crLf⟩] :=
    splitLines_edited hsplit rfl hone (Or.inr nofun)
  have hsame := hlocal _ _ _ hhome hrun
  rw [otherReadings_eq, otherReadings_eq, hedited, hcloses', hsplit, hcloses] at hsame
  have hothers := others_of_plain false (dayOf chrono config.daily path) _ ⟨line, .crLf⟩ [] hbody houtside hfence hline
  have hguard : guards false 1 .body tokenLine = false := by decide +kernel
  have hread := readingsFrom_ne_nil ⟨tokenLine, .lf⟩ hguard (tokenLine_reads (dayOf chrono config.daily path) false) []
  have hdashes : readingsFrom false (dayOf chrono config.daily path) 0 .body false [⟨['-', '-', '-'], .lf⟩, ⟨tokenLine, .lf⟩] ≠
      [] := by
    have hstep : scanStep false 0 .body ['-', '-', '-'] = .body := by decide +kernel
    have hopen : (scanInline ['-', '-', '-'] false).commentOpen = false := by decide +kernel
    have hplain : guards false 0 .body ['-', '-', '-'] = false := by decide +kernel
    rw [readingsFrom, hstep, hopen, hplain]
    exact fun hnil => hread (List.append_eq_nil_iff.mp hnil).2
  -- both rows above the line are front matter once it closes
  have hempty := readingsFrom_others true (dayOf chrono config.daily path) [⟨['-', '-', '-'], .lf⟩, ⟨tokenLine, .lf⟩]
    ⟨edited, .crLf⟩ []
  have hnone : readingsFrom true (dayOf chrono config.daily path) 0 .body false
      [⟨['-', '-', '-'], .lf⟩, ⟨tokenLine, .lf⟩] = [] := by
    have hguards : guards true 0 .body ['-', '-', '-'] = true := by decide +kernel
    have hstep : scanStep true 0 .body ['-', '-', '-'] = .frontMatter := by decide +kernel
    rw [readingsFrom, hguards, hstep]
    rfl
  rw [hnone] at hempty
  exact hdashes (List.append_eq_nil_iff.mp (hothers.symm.trans (hsame.symm.trans hempty))).1

/-- An edit that is local does nothing to the fence, the front matter and the comment of a note. -/
theorem HomeLine.steady_of_local :
    opensFence edited = none ∧ isFrontMatterEnd edited = false ∧ leavesOpen edited = leavesOpen line := by
  have hrule := home.rule_of_local hrun hone hlocal
  have hfence : opensFence edited = none := by
    by_contra hopens
    obtain ⟨⟨character, length⟩, hfence⟩ := Option.ne_none_iff_exists'.mp hopens
    have hbehind : Behind [⟨closingLine, .lf⟩] := ⟨.cons (by decide +kernel) trivial, by decide +kernel⟩
    have hsame := home.readings_behind hrun hone hlocal hbehind
    have hguard : guards false 1 .body closingLine = false := by decide +kernel
    refine readingsFrom_ne_nil ⟨closingLine, .lf⟩ hguard (closingLine_reads _ (leavesOpen line)) [] (hsame.symm.trans ?_)
    have hfront : ¬OpensFrontMatter false 0 edited := fun h => by cases h.2.2
    rw [readingsFrom, if_pos (by simp [guards, hfence]), scanStep, if_neg hfront, hfence]
    rfl
  have hbehind : Behind [⟨tokenLine, .lf⟩] := ⟨.cons (by decide +kernel) trivial, by decide +kernel⟩
  have hsame := home.readings_behind hrun hone hlocal hbehind
  have hothers := others_of_plain false (dayOf chrono config.daily path) [] ⟨edited, .crLf⟩ [⟨tokenLine, .lf⟩] rfl rfl
    hfence hrule
  have hreadings : readingsFrom false (dayOf chrono config.daily path) 1 .body (leavesOpen edited) [⟨tokenLine, .lf⟩] =
      readingsFrom false (dayOf chrono config.daily path) 1 .body (leavesOpen line) [⟨tokenLine, .lf⟩] :=
    hothers.symm.trans hsame
  refine ⟨hfence, hrule, ?_⟩
  rw [Bool.eq_iff_iff, ← tokenLine_readings (dayOf chrono config.daily path), hreadings, tokenLine_readings]

end Home

/-! ## Which edits are local -/

theorem HomeEdit.oneLine {edit : HomeEdit} (hrun : edit.run line = some edited) : OneLine line edited := by
  cases edit with
  | close => exact (close_shape hrun).1
  | reopen => exact (reopen_keeps hrun).1
  | rewrite due homeDay => exact (rewrite_keeps hrun).1
  | dropToken =>
    obtain ⟨token, -, rfl, -⟩ := dropToken_shape hrun
    exact removeRange_oneLine line token.range
  | attach due id homeDay => exact (attach_keeps hrun).1
  | addId id => exact (addId_keeps hrun).1

/-- An edit does nothing to the note below a line just where it is safe. -/
theorem HomeEdit.steady_iff_safe {edit : HomeEdit} (hrun : edit.run line = some edited) (hfence : opensFence line = none)
    (hrule : isFrontMatterEnd line = false) :
    (opensFence edited = none ∧ isFrontMatterEnd edited = false ∧ leavesOpen edited = leavesOpen line) ↔ edit.Safe line := by
  have hkeeps : Steady line edited →
      opensFence edited = none ∧ isFrontMatterEnd edited = false ∧ leavesOpen edited = leavesOpen line :=
    fun h => ⟨h.fence hfence, h.front hrule, h.opens⟩
  cases edit with
  | close =>
    obtain ⟨-, hfront, hopens, hstrikes⟩ := close_shape hrun
    have hiff := hstrikes hfence
    rw [HomeEdit.Safe, ← hiff, Bool.not_eq_true, Option.isSome_eq_false_iff, Option.isNone_iff_eq_none]
    exact ⟨And.left, fun hnone => ⟨hnone, hfront, hopens⟩⟩
  | reopen => exact iff_of_true (hkeeps (reopen_keeps hrun).2) trivial
  | rewrite due homeDay => exact iff_of_true (hkeeps (rewrite_keeps hrun).2) trivial
  | dropToken => exact dropToken_steady_iff hrun hfence
  | attach due id homeDay => exact iff_of_true (hkeeps (attach_keeps hrun).2) trivial
  | addId id => exact iff_of_true (hkeeps (addId_keeps hrun).2) trivial

/-- An edit that gives no line is safe. -/
theorem HomeEdit.safe_of_none {edit : HomeEdit} (hrun : edit.run line = none) : edit.Safe line := by
  cases edit with
  | close =>
    rintro ⟨hbox, token, htoken, hstruck, -⟩
    obtain ⟨reminder, hparse, hat⟩ := Option.bind_eq_some_iff.mp htoken
    have htask : reminder.task = none := by
      have hreads := hparse
      rw [parseLine, readLine] at hreads
      dsimp only at hreads
      split at hreads
      · cases hreads
      · split at hreads
        · rw [← Option.some.inj hreads, hbox]
          rfl
        · cases hreads
    have hstate : reminder.state = .open_ := by
      rw [LineReminder.state, hat, htask]
      simp [hstruck]
    rw [HomeEdit.run, Reminder.close, hparse, Option.bind_some, if_neg (by simp [hstate]), hbox, hat] at hrun
    cases hrun
  | dropToken =>
    intro token htoken
    obtain ⟨reminder, hparse, hat⟩ := Option.bind_eq_some_iff.mp htoken
    rw [HomeEdit.run, Reminder.dropToken, hparse, Option.bind_some, hat] at hrun
    cases hrun
  | reopen => trivial
  | rewrite due homeDay => trivial
  | attach due id homeDay => trivial
  | addId id => trivial

/-- An edit of a home line leaves what all other lines of its notes read as just where it is safe. -/
theorem edit_local_iff (home : HomeLine prim chrono note path config row line) (edit : HomeEdit) :
    EditIsLocal prim chrono path config line edit ↔ edit.Safe line := by
  obtain ⟨hfence, hrule, -⟩ := home.plain
  constructor
  · intro hlocal
    cases hrun : edit.run line with
    | none => exact edit.safe_of_none hrun
    | some edited =>
      rw [← edit.steady_iff_safe hrun hfence hrule]
      exact home.steady_of_local hrun (edit.oneLine hrun) hlocal
  · intro hsafe note' row' edited home' hrun
    obtain ⟨hfence', hrule', hopens⟩ := (edit.steady_iff_safe hrun hfence hrule).mpr hsafe
    exact home'.otherReadings_replaceRow (edit.oneLine hrun) hfence' hrule' hopens

/-- A calendar that reads no name of a day. -/
def noChrono : Chrono := ⟨fun _ => 0, fun _ => 1, fun day => day.year, fun _ _ => none, fun _ => none⟩

/-- The strike of a closed token makes a fence with the tilde before it, and the next line is read no more. -/
theorem close_opens_fence :
    ¬EditIsLocal asciiPrimitives noChrono "inbox.md".toList ⟨⟨[], []⟩, []⟩ "~(@2026-01-01)".toList .close := by
  intro hlocal
  have home : HomeLine asciiPrimitives noChrono "~(@2026-01-01)\n(@2026-01-02)\n".toList "inbox.md".toList
      ⟨⟨[], []⟩, []⟩ 0 "~(@2026-01-01)".toList :=
    ⟨by decide +kernel, by decide +kernel, by decide +kernel⟩
  have hrun : HomeEdit.close.run "~(@2026-01-01)".toList = some "~~~(@2026-01-01)~~".toList := by decide +kernel
  have hsame := hlocal _ _ _ home hrun
  exact absurd hsame (by decide +kernel)

theorem edit_local_task :
    EditIsLocal asciiPrimitives noChrono "inbox.md".toList ⟨⟨[], []⟩, []⟩ "- [ ] call (@2026-01-01)".toList .close := by
  have home : HomeLine asciiPrimitives noChrono "- [ ] call (@2026-01-01)\n".toList "inbox.md".toList
      ⟨⟨[], []⟩, []⟩ 0 "- [ ] call (@2026-01-01)".toList :=
    ⟨by decide +kernel, by decide +kernel, by decide +kernel⟩
  have hsafe : HomeEdit.close.Safe "- [ ] call (@2026-01-01)".toList := fun hstrikes =>
    absurd hstrikes.1 (by decide +kernel)
  exact (edit_local_iff home .close).mpr hsafe

end Thock.SyncCore.Reminder
