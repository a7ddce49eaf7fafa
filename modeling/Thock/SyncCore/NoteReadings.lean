import Thock.SyncCore.NoteScan
import Thock.SyncCore.Reminder

/-!
# The readings of a note, line by line

What a note's lines read as is told line by line from where the scan stands and from whether a
comment is open, so a line exchanged for another that leaves both as they are leaves the
readings of all other lines as they are.
-/

namespace Thock.SyncCore.Reminder

open TextScan

/-! ## Readings from a place on -/

/-- Whether a comment is open after some lines. -/
def commentAfter (closes : Bool) : ℕ → Scan → Bool → List Line → Bool
  | _, _, inComment, [] => inComment
  | index, state, inComment, line :: rest =>
    commentAfter closes (index + 1) (scanStep closes index state line.text)
      (if guards closes index state line.text then inComment else (scanInline line.text inComment).commentOpen) rest

theorem commentAfter_append (closes : Bool) (index : ℕ) (state : Scan) (inComment : Bool) (front back : List Line) :
    commentAfter closes index state inComment (front ++ back) =
      commentAfter closes (index + front.length) (stateAfter closes index state front)
        (commentAfter closes index state inComment front) back := by
  induction front generalizing index state inComment with
  | nil => rfl
  | cons line front ih =>
    rw [List.cons_append, commentAfter, commentAfter, ih, stateAfter, List.length_cons]
    congr 1
    omega

/-- What lines read as, with their numbers. -/
def readingsFrom (closes : Bool) (day : Option Day) : ℕ → Scan → Bool → List Line → List (ℕ × LineReminder)
  | _, _, _, [] => []
  | index, state, inComment, line :: rest =>
    (if guards closes index state line.text then []
      else (readLine line.text day inComment).1.toList.map fun reminder => (index, reminder)) ++
      readingsFrom closes day (index + 1) (scanStep closes index state line.text)
        (if guards closes index state line.text then inComment else (scanInline line.text inComment).commentOpen) rest

theorem readLine_snd (line : Text) (day : Option Day) (inComment : Bool) :
    (readLine line day inComment).2 = (scanInline line inComment).commentOpen := by
  unfold readLine
  dsimp only
  split <;> rfl

/-- The appearances of a note hold the readings of its lines. -/
theorem appearancesFrom_eq (closes : Bool) (day : Option Day) (sections : List Span) (before : List Bool) (index : ℕ)
    (state : Scan) (inComment : Bool) (lines : List Line) (hindex : before.length = index) :
    (appearancesFrom day (before ++ (scanFrom closes index state lines).2) sections index inComment lines).map
        (fun appearance => (appearance.line, appearance.reminder)) =
      readingsFrom closes day index state inComment lines := by
  induction lines generalizing before index state inComment with
  | nil => rfl
  | cons line rest ih =>
    have hat : (before ++ (scanFrom closes index state (line :: rest)).2)[index]?.getD false =
        guards closes index state line.text := by
      rw [List.getElem?_append_right hindex.le, hindex, Nat.sub_self, scanFrom_cons]
      rfl
    have hnext := fun inComment => ih (before ++ [guards closes index state line.text]) (index + 1)
      (scanStep closes index state line.text) inComment (by simp [hindex])
    simp only [List.append_assoc, List.singleton_append] at hnext
    rw [appearancesFrom, hat, readingsFrom]
    by_cases hguard : guards closes index state line.text = true
    · rw [if_pos hguard, if_pos hguard, if_pos hguard, scanFrom_cons, hnext]
      rfl
    · rw [if_neg hguard, if_neg hguard, if_neg hguard, scanFrom_cons]
      dsimp only
      rw [readLine_snd]
      cases (readLine line.text day inComment).1 with
      | none => exact hnext _
      | some reminder =>
        dsimp only
        rw [List.map_cons, hnext]
        rfl

/-- Later lines are read from where the earlier ones left off. -/
theorem readingsFrom_append (closes : Bool) (day : Option Day) (index : ℕ) (state : Scan) (inComment : Bool)
    (front back : List Line) :
    readingsFrom closes day index state inComment (front ++ back) =
      readingsFrom closes day index state inComment front ++
        readingsFrom closes day (index + front.length) (stateAfter closes index state front)
          (commentAfter closes index state inComment front) back := by
  induction front generalizing index state inComment with
  | nil => rfl
  | cons line front ih =>
    have hindex : index + 1 + front.length = index + (line :: front).length := by
      rw [List.length_cons]
      omega
    rw [List.cons_append, readingsFrom, readingsFrom, ih, hindex, stateAfter, commentAfter, List.append_assoc]

theorem readingsFrom_bounds {closes : Bool} {day : Option Day} {index : ℕ} {state : Scan} {inComment : Bool}
    {lines : List Line} {reading : ℕ × LineReminder} (h : reading ∈ readingsFrom closes day index state inComment lines) :
    index ≤ reading.1 ∧ reading.1 < index + lines.length := by
  induction lines generalizing index state inComment with
  | nil => cases h
  | cons line rest ih =>
    rw [readingsFrom, List.mem_append] at h
    rw [List.length_cons]
    rcases h with hown | hrest
    · have hat : reading.1 = index := by
        split at hown
        · cases hown
        · obtain ⟨reminder, -, rfl⟩ := List.mem_map.mp hown
          rfl
      omega
    · have := ih hrest
      omega

/-- The readings of all lines but one are those before it and those behind it. -/
theorem readingsFrom_others (closes : Bool) (day : Option Day) (front : List Line) (line : Line) (back : List Line) :
    (readingsFrom closes day 0 .body false (front ++ line :: back)).filter (fun reading => reading.1 ≠ front.length) =
      readingsFrom closes day 0 .body false front ++
        readingsFrom closes day (front.length + 1) (stateAfter closes 0 .body (front ++ [line]))
          (commentAfter closes 0 .body false (front ++ [line])) back := by
  have hsplit : front ++ line :: back = front ++ [line] ++ back := by simp
  have hfront : ∀ reading ∈ readingsFrom closes day 0 .body false front, decide (reading.1 ≠ front.length) = true := by
    intro reading hreading
    have := readingsFrom_bounds hreading
    simp only [ne_eq, decide_eq_true_eq]
    omega
  have hback : ∀ reading ∈ readingsFrom closes day (front.length + 1) (stateAfter closes 0 .body (front ++ [line]))
      (commentAfter closes 0 .body false (front ++ [line])) back, decide (reading.1 ≠ front.length) = true := by
    intro reading hreading
    have := readingsFrom_bounds hreading
    simp only [ne_eq, decide_eq_true_eq]
    omega
  rw [hsplit, readingsFrom_append, List.filter_append]
  have hlength : 0 + (front ++ [line]).length = front.length + 1 := by simp
  rw [hlength, List.filter_eq_self.mpr hback, readingsFrom_append, List.filter_append, List.filter_eq_self.mpr hfront]
  congr 1
  rw [List.append_right_eq_self, List.filter_eq_nil_iff]
  intro reading hreading
  have := readingsFrom_bounds hreading
  simp only [List.length_singleton] at this
  simp only [ne_eq, decide_eq_true_eq, not_not]
  omega

/-! ## A note with one line replaced -/

/-- A note with other text on one of its rows. -/
def replaceRow (note : Text) (row : ℕ) (edited : Text) : Text :=
  textOfLines ((splitLines note).modify row fun line => { line with text := edited })

/-- What the lines of a note other than one read as. -/
def otherReadings (prim : Primitives) (chrono : Chrono) (note path : Text) (config : ReminderConfig) (row : ℕ) :
    List (ℕ × LineReminder) :=
  ((parseNote prim chrono note path config).filter fun appearance => appearance.line ≠ row).map fun appearance =>
    (appearance.line, appearance.reminder)

/-- Whether a comment of the lines before a row is open where the row begins. -/
def commentBefore (note : Text) (row : ℕ) : Bool :=
  commentAfter (frontMatterCloses (splitLines note)) 0 .body false ((splitLines note).take row)

/-- A reminder line of a note that lies inside no comment over several lines. -/
structure HomeLine (prim : Primitives) (chrono : Chrono) (note path : Text) (config : ReminderConfig) (row : ℕ)
    (line : Text) : Prop where
  stands : ((splitLines note)[row]?).map Line.text = some line
  reads : ∃ appearance ∈ parseNote prim chrono note path config, appearance.line = row
  outside : commentBefore note row = false

variable {prim : Primitives} {chrono : Chrono} {note path : Text} {config : ReminderConfig} {row : ℕ}

theorem parseNote_readings (prim : Primitives) (chrono : Chrono) (note path : Text) (config : ReminderConfig) :
    (parseNote prim chrono note path config).map (fun appearance => (appearance.line, appearance.reminder)) =
      readingsFrom (frontMatterCloses (splitLines note)) (dayOf chrono config.daily path) 0 .body false (splitLines note) :=
  appearancesFrom_eq _ _ _ [] _ _ _ _ rfl

theorem otherReadings_eq (prim : Primitives) (chrono : Chrono) (note path : Text) (config : ReminderConfig) (row : ℕ) :
    otherReadings prim chrono note path config row =
      (readingsFrom (frontMatterCloses (splitLines note)) (dayOf chrono config.daily path) 0 .body false
        (splitLines note)).filter fun reading => reading.1 ≠ row := by
  rw [← parseNote_readings prim chrono, otherReadings, List.filter_map]
  rfl

/-- A home line stands between other lines, in the body of the note and outside every comment. -/
theorem HomeLine.split {line : Text} (h : HomeLine prim chrono note path config row line) :
    ∃ front ending back, splitLines note = front ++ ⟨line, ending⟩ :: back ∧ front.length = row ∧
      stateAfter (frontMatterCloses (splitLines note)) 0 .body front = .body ∧
      commentAfter (frontMatterCloses (splitLines note)) 0 .body false front = false ∧
      guards (frontMatterCloses (splitLines note)) row .body line = false ∧
      (parseLine line (dayOf chrono config.daily path)).isSome = true := by
  obtain ⟨⟨text, ending⟩, hat, rfl⟩ := Option.map_eq_some_iff.mp h.stands
  obtain ⟨hrow, hget⟩ := List.getElem?_eq_some_iff.mp hat
  have hcut : splitLines note = (splitLines note).take row ++ ⟨text, ending⟩ :: (splitLines note).drop (row + 1) := by
    rw [← hget, List.getElem_cons_drop, List.take_append_drop]
  have hlength : ((splitLines note).take row).length = row := List.length_take_of_le hrow.le
  refine ⟨_, ending, _, hcut, hlength, ?_⟩
  have houtside := h.outside
  rw [commentBefore] at houtside
  obtain ⟨appearance, hmem, hline⟩ := h.reads
  have hreading := List.mem_map_of_mem (f := fun appearance => (appearance.line, appearance.reminder)) hmem
  rw [parseNote_readings] at hreading
  generalize frontMatterCloses (splitLines note) = closes at *
  generalize (splitLines note).take row = front at *
  rw [hcut, readingsFrom_append, List.mem_append, readingsFrom, List.mem_append, houtside, hlength, Nat.zero_add] at hreading
  rcases hreading with hfront | hown | hback
  · have := readingsFrom_bounds hfront
    dsimp only at this
    omega
  · split at hown
    · cases hown
    · rename_i hguard
      have hbody : stateAfter closes 0 .body front = .body := by
        generalize stateAfter closes 0 .body front = state at hguard
        cases state with
        | body => rfl
        | frontMatter => exact absurd rfl hguard
        | fence character length => exact absurd rfl hguard
      rw [hbody] at hguard
      obtain ⟨reminder, hreminder, -⟩ := List.mem_map.mp hown
      refine ⟨hbody, houtside, by simpa using hguard, ?_⟩
      rw [parseLine, Option.mem_toList.mp hreminder]
      rfl
  · have := readingsFrom_bounds hback
    dsimp only at this
    omega

end Thock.SyncCore.Reminder
