import Mathlib.Data.List.Forall2
import Thock.Desk.CalendarSettles

/-!
# A poll right after a poll

The note that the edits of a poll produce, line by line, and the poll that reconciles it with the
same events. The sections it finds are those of the first poll with the lines that were put in, so
that each event finds the line the first poll left it, and what the second poll asks of that line
is settled by how the line reads.
-/

namespace Thock.Desk

open TextScan

/-! ## The lines of an edited note -/

theorem reads_chomp (ls : List Text) : List.Forall₂ ReadsAs (ls.map chomp) ls := by
  induction ls with
  | nil => exact .nil
  | cons line rest ih => exact .cons (Or.inr rfl) ih

/-- The lines of a text that ends with a line. -/
theorem lines_reads {t : Text} (h : (pieces t).getLast? ≠ some []) : List.Forall₂ ReadsAs (lines t) (pieces t) := by
  unfold lines
  cases hlast : (pieces t).getLast? with
  | none =>
    rw [List.getLast?_eq_none_iff.mp hlast]
    exact .nil
  | some last =>
    cases last with
    | nil => exact absurd hlast h
    | cons c rest =>
      have hsplit : pieces t = (pieces t).dropLast ++ [c :: rest] := (List.dropLast_append_getLast? _ hlast).symm
      conv_rhs => rw [hsplit]
      exact List.rel_append (reads_chomp _) (.cons (Or.inl rfl) .nil)

/-- The lines of a text that ends with a line feed. -/
theorem lines_append_newline (t : Text) : lines (t ++ ['\n']) = (pieces t).map chomp := by
  have hpieces : pieces (t ++ ['\n']) = pieces t ++ [[]] := pieces_append_newline t []
  simp [lines, hpieces]

theorem joinLines_append_empty {ls : List Text} (h : ls ≠ []) : (joinLines (ls ++ [[]])).getLast? = some '\n' := by
  induction ls with
  | nil => exact absurd rfl h
  | cons line rest ih =>
    cases rest with
    | nil => simp [joinLines, List.intercalate]
    | cons next rest =>
      have hjoin : joinLines (line :: next :: rest ++ [[]]) = line ++ '\n' :: joinLines (next :: rest ++ [[]]) := by
        simp [joinLines, List.intercalate, List.intersperse]
      have hlast := ih (List.cons_ne_nil next rest)
      rw [hjoin, List.getLast?_append, List.getLast?_cons, hlast]
      rfl

/-- A text whose last piece is empty is empty or ends with a line feed. -/
theorem getLast?_of_pieces {t : Text} (h : (pieces t).getLast? = some []) : t = [] ∨ t.getLast? = some '\n' := by
  have hsplit : pieces t = (pieces t).dropLast ++ [[]] := (List.dropLast_append_getLast? _ h).symm
  have hjoin : joinLines (pieces t) = t := List.intercalate_splitOn '\n'
  rw [hsplit] at hjoin
  cases hinit : (pieces t).dropLast with
  | nil =>
    rw [hinit] at hjoin
    exact Or.inl hjoin.symm
  | cons line rest =>
    rw [hinit] at hjoin
    rw [← hjoin]
    exact Or.inr (joinLines_append_empty (List.cons_ne_nil line rest))

/-- The last line of a note that does not end with a line feed has a character. -/
theorem lines_last {note : Text} (h : note.getLast? ≠ some '\n') : (lines note).getLast? ≠ some [] := by
  intro hempty
  unfold lines at hempty
  cases hlast : (pieces note).getLast? with
  | none =>
    rw [List.getLast?_eq_none_iff.mp hlast] at hempty
    cases hempty
  | some last =>
    rw [hlast] at hempty
    cases last with
    | nil =>
      rcases getLast?_of_pieces hlast with rfl | hnewline
      · cases hempty
      · exact h hnewline
    | cons c rest =>
      rw [List.getLast?_concat] at hempty
      cases hempty

/-- An edited note has the lines that were put together, as they read back. -/
theorem lines_applyLineEdits {note : Text} {edits : List LineEdit} {ls : List Text}
    (hls : editedLines (lines note) edits = ls) (hne : ls ≠ []) (hnl : ∀ line ∈ ls, '\n' ∉ line)
    (hlast : note.getLast? ≠ some '\n' → ls.getLast? ≠ some []) :
    List.Forall₂ ReadsAs (lines (applyLineEdits note edits)) ls := by
  have hpieces : pieces (joinLines ls) = ls := by
    have hone : ls.flatMap pieces = ls.flatMap fun line => [line] :=
      List.flatMap_congr fun line hline => pieces_of_no_newline (hnl line hline)
    rw [pieces_joinLines hne, hone, List.flatMap_singleton']
  unfold applyLineEdits
  rw [hls]
  dsimp only
  split
  · rw [lines_append_newline, hpieces]
    exact reads_chomp ls
  · rename_i hends
    have hreads := lines_reads (t := joinLines ls) (by rw [hpieces]; exact hlast fun hnewline => hends (Or.inl hnewline))
    rw [hpieces] at hreads
    exact hreads

/-! ## Edits as a growth -/

/-- The lines of a note with what its edits put before each and in its place. -/
def growth (ls : List Text) (edits : List LineEdit) : List Grown :=
  (numbered ls).map fun (row, line) => ⟨insertsAt edits row, line, (replacementAt edits row).getD line⟩

theorem growth_old (ls : List Text) (edits : List LineEdit) : (growth ls edits).map Grown.old = ls := by
  simp [growth, numbered, Function.comp_def]

theorem growth_at {ls : List Text} {edits : List LineEdit} {row : ℕ} {b : Grown} (h : (growth ls edits)[row]? = some b) :
    ls[row]? = some b.old ∧ b.before = insertsAt edits row ∧ b.new = (replacementAt edits row).getD b.old := by
  simp only [growth, numbered, List.getElem?_map, List.getElem?_zipIdx, Option.map_map, Option.map_eq_some_iff] at h
  obtain ⟨line, hline, rfl⟩ := h
  exact ⟨by simpa using hline, by simp, by simp⟩

/-- A line of a growth as it reads back. -/
structure Grown.Reads (b' b : Grown) : Prop where
  before : List.Forall₂ ReadsAs b'.before b.before
  old : b'.old = b.old
  new : ReadsAs b'.new b.new

/-! ## The edits of a section -/

/-- The edits of a poll of a section with its synced lines. -/
def sectionEdits (synced : List SyncedLine) (fallbackRow : ℕ) (events : List CalendarEvent) : List LineEdit :=
  events.filterMap (updateEdit synced) ++ synced.filterMap (cancelEdit events) ++
    (sortEvents (events.filter fun event => (lineOf synced event.id).isNone)).map (insertEdit synced fallbackRow)

theorem reconcile_section {reader : HeadingReader} {config : CalendarConfig} {note : Text} {range child : RowRange}
    {level : ℕ} (hplanner : plannerSection reader (lines note) (config.plannerHeadingNames reader) = some (range, level))
    (hchild : findChildSection reader (lines note) range level config.section_ = some child) (events : List CalendarEvent) :
    reconcile reader config note events =
      .edits (sortByRow (sectionEdits (syncedLines (lines note) child) (afterLastContentRow (lines note) child)
          (distinctEvents events)))
        ((distinctEvents events).filterMap (divergence (syncedLines (lines note) child))) := by
  unfold reconcile
  simp only [hplanner, hchild]
  rfl

/-- Whether an event is listed for a line. -/
def SyncedLine.Listed (l : SyncedLine) (events : List CalendarEvent) : Prop := ∃ event ∈ events, event.id = l.id

theorem SyncedLine.listed_any (l : SyncedLine) (events : List CalendarEvent) :
    (events.any fun event => event.id = l.id) = true ↔ l.Listed events := by
  simp [Listed]

section

variable {synced : List SyncedLine} {fallbackRow : ℕ} {events : List CalendarEvent}

/-- An update that is asked of a line puts another text there. -/
theorem updateEdit_some {event : CalendarEvent} {e : LineEdit} (h : updateEdit synced event = some e) :
    ∃ l text, lineOf synced event.id = some l ∧ l.updatedFor event = some text ∧ text ≠ l.line ∧
      e = ⟨l.row, .replace text⟩ := by
  obtain ⟨l, hl, hupdate⟩ := Option.bind_eq_some_iff.mp h
  split at hupdate
  · rename_i text htext
    split at hupdate
    · rename_i hne
      exact ⟨l, text, hl, htext, hne, (Option.some.inj hupdate).symm⟩
    · cases hupdate
  · cases hupdate

theorem cancelEdit_some {l : SyncedLine} {e : LineEdit} (h : cancelEdit events l = some e) :
    ¬l.Listed events ∧ l.isCancelled = false ∧ e = ⟨l.row, .replace l.cancelledForm⟩ := by
  unfold cancelEdit at h
  split at h
  · cases h
  · rename_i hlive
    rw [Bool.or_eq_true, not_or, l.listed_any, Bool.not_eq_true] at hlive
    exact ⟨hlive.1, hlive.2, (Option.some.inj h).symm⟩

/-- A text a poll puts in a section's row. -/
theorem mem_sectionEdits_replace {row : ℕ} {text : Text}
    (h : (⟨row, .replace text⟩ : LineEdit) ∈ sectionEdits synced fallbackRow events) :
    ∃ l ∈ synced, l.row = row ∧
      ((∃ event ∈ events, lineOf synced event.id = some l ∧ l.updatedFor event = some text ∧ text ≠ l.line) ∨
        (¬l.Listed events ∧ l.isCancelled = false ∧ text = l.cancelledForm)) := by
  rcases List.mem_append.mp h with h | h
  · rcases List.mem_append.mp h with h | h
    · obtain ⟨event, hevent, hupdate⟩ := List.mem_filterMap.mp h
      obtain ⟨l, text', hl, htext, hne, heq⟩ := updateEdit_some hupdate
      cases heq
      exact ⟨l, List.mem_of_find?_eq_some hl, rfl, Or.inl ⟨event, hevent, hl, htext, hne⟩⟩
    · obtain ⟨l, hl, hcancel⟩ := List.mem_filterMap.mp h
      obtain ⟨hlisted, hlive, heq⟩ := cancelEdit_some hcancel
      cases heq
      exact ⟨l, hl, rfl, Or.inr ⟨hlisted, hlive, rfl⟩⟩
  · obtain ⟨event, -, heq⟩ := List.mem_map.mp h
    cases heq

/-- A text a poll puts before a row of a section is the line of an event that had none. -/
theorem mem_sectionEdits_insert {row : ℕ} {text : Text}
    (h : (⟨row, .insert text⟩ : LineEdit) ∈ sectionEdits synced fallbackRow events) :
    ∃ event ∈ events, lineOf synced event.id = none ∧ text = renderSyncedLine event := by
  rcases List.mem_append.mp h with h | h
  · rcases List.mem_append.mp h with h | h
    · obtain ⟨event, -, hupdate⟩ := List.mem_filterMap.mp h
      obtain ⟨l, text', -, -, -, heq⟩ := updateEdit_some hupdate
      cases heq
    · obtain ⟨l, -, hcancel⟩ := List.mem_filterMap.mp h
      cases (cancelEdit_some hcancel).2.2
  · obtain ⟨event, hevent, heq⟩ := List.mem_map.mp h
    cases heq
    have hmissing := List.mem_filter.mp ((List.perm_insertionSort _ _).mem_iff.mp hevent)
    exact ⟨event, hmissing.1, by simpa using hmissing.2, rfl⟩

end

/-! ## Lines by their ids -/

/-- The id of a synced line, wherever it stands. -/
def syncedId (line : Text) : Option Text := (SyncedLine.parse 0 line).map SyncedLine.id

theorem syncedId_parse (row : ℕ) (line : Text) : (SyncedLine.parse row line).map SyncedLine.id = syncedId line := by
  rw [SyncedLine.parse_row 0 row line, Option.map_map]
  rfl

/-- The synced lines among lines numbered from a row. -/
def syncedFrom (row : ℕ) (ls : List Text) : List SyncedLine :=
  (numberedFrom row ls).filterMap fun p => SyncedLine.parse p.1 p.2

theorem mem_syncedLines {ls : List Text} {range : RowRange} {l : SyncedLine} :
    l ∈ syncedLines ls range ↔
      range.start ≤ l.row ∧ l.row < range.stop ∧ ∃ line, ls[l.row]? = some line ∧ SyncedLine.parse l.row line = some l := by
  unfold syncedLines RowRange.rows
  rw [List.mem_filterMap]
  constructor
  · rintro ⟨row, hrow, hparse⟩
    obtain ⟨line, hline, hl⟩ := Option.bind_eq_some_iff.mp hparse
    obtain ⟨hsame, -⟩ := SyncedLine.parse_line hl
    have hrange := List.mem_range'_1.mp hrow
    rw [hsame]
    exact ⟨hrange.1, by omega, line, hline, hl⟩
  · rintro ⟨hstart, hstop, line, hline, hl⟩
    refine ⟨l.row, List.mem_range'_1.mpr ⟨hstart, by omega⟩, ?_⟩
    rw [hline]
    exact hl

/-! ## The text a poll leaves on a line -/

/-- A section, the events of a poll, the edits of that poll and the lines they lead to. -/
structure Repoll (ls : List Text) (child : RowRange) (events : List CalendarEvent) (edits : List LineEdit)
    (blocks : List Grown) (tail : List Text) : Prop where
  edits_iff : ∀ e, e ∈ edits ↔ e ∈ sectionEdits (syncedLines ls child) (afterLastContentRow ls child) events
  distinct : ∀ event ∈ events, ∀ other ∈ events, event.id = other.id → event = other
  hex : ∀ event ∈ events, event.id ≠ [] ∧ ∀ c ∈ event.id, isHexDigit c = true
  start_le : child.start ≤ child.stop
  stop_le : child.stop ≤ ls.length
  blocks_read : List.Forall₂ Grown.Reads blocks (growth ls edits)
  tail_read : List.Forall₂ ReadsAs tail (trailingInserts edits ls.length)

section

variable {ls : List Text} {child : RowRange} {events : List CalendarEvent} {edits : List LineEdit} {blocks : List Grown}
  {tail : List Text}

/-- What a poll puts at a row is an update of the synced line there, or that line marked. -/
theorem Repoll.replaced (h : Repoll ls child events edits blocks tail) {row : ℕ} {text : Text}
    (hreplace : replacementAt edits row = some text) :
    ∃ l ∈ syncedLines ls child, l.row = row ∧
      ((∃ event ∈ events, lineOf (syncedLines ls child) event.id = some l ∧ l.updatedFor event = some text ∧
        text ≠ l.line) ∨ (¬l.Listed events ∧ l.isCancelled = false ∧ text = l.cancelledForm)) :=
  mem_sectionEdits_replace ((h.edits_iff _).mp (replacementAt_some hreplace))

theorem forall₂_getElem? {α β : Type*} {R : α → β → Prop} {as : List α} {bs : List β} (h : List.Forall₂ R as bs) {i : ℕ}
    {a : α} (ha : as[i]? = some a) : ∃ b, bs[i]? = some b ∧ R a b := by
  induction h generalizing i with
  | nil => cases ha
  | cons hhead _ ih =>
    cases i with
    | zero =>
      cases ha
      exact ⟨_, rfl, hhead⟩
    | succ i => exact ih ha

theorem forall₂_mem {α β : Type*} {R : α → β → Prop} {as : List α} {bs : List β} (h : List.Forall₂ R as bs) {a : α}
    (ha : a ∈ as) : ∃ b ∈ bs, R a b := by
  obtain ⟨i, hi⟩ := List.mem_iff_getElem?.mp ha
  obtain ⟨b, hb, hab⟩ := forall₂_getElem? h hi
  exact ⟨b, List.mem_of_getElem? hb, hab⟩

theorem mem_insertsAt {row : ℕ} {text : Text} : text ∈ insertsAt edits row ↔ ⟨row, .insert text⟩ ∈ edits := by
  constructor
  · intro h
    obtain ⟨e, he, htext⟩ := List.mem_filterMap.mp h
    obtain ⟨hedit, hrow⟩ := List.mem_filter.mp he
    obtain ⟨row', kind⟩ := e
    cases kind with
    | replace _ => cases htext
    | insert text' =>
      cases htext
      obtain rfl : row' = row := by simpa using hrow
      exact hedit
  · intro h
    exact List.mem_filterMap.mpr ⟨_, List.mem_filter.mpr ⟨h, by simp⟩, rfl⟩

theorem mem_trailingInserts {rows : ℕ} {text : Text} :
    text ∈ trailingInserts edits rows ↔ ∃ row, rows ≤ row ∧ ⟨row, .insert text⟩ ∈ edits := by
  unfold trailingInserts sortByRow
  constructor
  · intro h
    obtain ⟨e, he, htext⟩ := List.mem_filterMap.mp h
    obtain ⟨hedit, hrow⟩ := List.mem_filter.mp ((List.perm_insertionSort _ _).mem_iff.mp he)
    obtain ⟨row, kind⟩ := e
    cases kind with
    | replace _ => cases htext
    | insert text' =>
      cases htext
      exact ⟨row, by simpa using hrow, hedit⟩
  · rintro ⟨row, hrow, h⟩
    refine List.mem_filterMap.mpr ⟨_, (List.perm_insertionSort _ _).mem_iff.mpr (List.mem_filter.mpr ⟨h, ?_⟩), rfl⟩
    simpa using hrow

/-- A line that was put in is the line of an event that had none. -/
def PutIn (ls : List Text) (child : RowRange) (events : List CalendarEvent) (z : Text) : Prop :=
  ∃ event ∈ events, lineOf (syncedLines ls child) event.id = none ∧ ReadsAs z (renderSyncedLine event)

theorem Repoll.putIn_tail (h : Repoll ls child events edits blocks tail) {z : Text} (hz : z ∈ tail) :
    PutIn ls child events z := by
  obtain ⟨y, hy, hread⟩ := forall₂_mem h.tail_read hz
  obtain ⟨row, -, hin⟩ := mem_trailingInserts.mp hy
  obtain ⟨event, hevent, hnone, rfl⟩ := mem_sectionEdits_insert ((h.edits_iff _).mp hin)
  exact ⟨event, hevent, hnone, hread⟩

/-- What became of the line at a row. -/
theorem Repoll.block (h : Repoll ls child events edits blocks tail) {row : ℕ} {b : Grown} (hb : blocks[row]? = some b) :
    ls[row]? = some b.old ∧ List.Forall₂ ReadsAs b.before (insertsAt edits row) ∧
      ReadsAs b.new ((replacementAt edits row).getD b.old) := by
  obtain ⟨c, hc, hreads⟩ := forall₂_getElem? h.blocks_read hb
  obtain ⟨hold, hbefore, hnew⟩ := growth_at hc
  rw [hreads.old]
  exact ⟨hold, hbefore ▸ hreads.before, hnew ▸ hreads.new⟩

theorem Repoll.putIn_before (h : Repoll ls child events edits blocks tail) {b : Grown} (hb : b ∈ blocks) {z : Text}
    (hz : z ∈ b.before) : PutIn ls child events z := by
  obtain ⟨row, hrow⟩ := List.mem_iff_getElem?.mp hb
  obtain ⟨y, hy, hread⟩ := forall₂_mem (h.block hrow).2.1 hz
  obtain ⟨event, hevent, hnone, rfl⟩ := mem_sectionEdits_insert ((h.edits_iff _).mp (mem_insertsAt.mp hy))
  exact ⟨event, hevent, hnone, hread⟩

/-- A line that was put in has the id of its event. -/
theorem Repoll.putIn_id (h : Repoll ls child events edits blocks tail) {event : CalendarEvent} (hevent : event ∈ events)
    {z : Text} (hz : ReadsAs z (renderSyncedLine event)) : syncedId z = some event.id := by
  obtain ⟨hne, hhex⟩ := h.hex event hevent
  obtain ⟨l, hparse, hid, -⟩ := renderSyncedLine_reads hne hhex hz 0
  rw [syncedId, hparse, Option.map_some, hid]

/-- The line at a row is a synced line of the id it was, or as before none. -/
theorem Repoll.block_id (h : Repoll ls child events edits blocks tail) {row : ℕ} {b : Grown} (hb : blocks[row]? = some b) :
    syncedId b.new = syncedId b.old := by
  obtain ⟨hold, -, hread⟩ := h.block hb
  cases hreplace : replacementAt edits row with
  | none =>
    rw [hreplace, Option.getD_none] at hread
    cases hparse : SyncedLine.parse 0 b.old with
    | none => rw [syncedId, syncedId, hparse, SyncedLine.parse_none_reads hparse hread 0]
    | some l =>
      obtain ⟨l', hparse', hid, -⟩ := SyncedLine.parse_unchanged hparse hread 0
      rw [syncedId, syncedId, hparse, hparse', Option.map_some, Option.map_some, hid]
  | some text =>
    rw [hreplace, Option.getD_some] at hread
    obtain ⟨l, hl, rfl, hcase⟩ := h.replaced hreplace
    obtain ⟨-, -, line, hline, hparse⟩ := mem_syncedLines.mp hl
    obtain rfl := Option.some.inj (hline.symm.trans hold)
    rw [← syncedId_parse l.row b.old, hparse, syncedId]
    rcases hcase with ⟨event, -, -, hupdate, -⟩ | ⟨-, -, rfl⟩
    · obtain ⟨l', hparse', hid, -⟩ := SyncedLine.updated_steady hparse event (by rw [hupdate]; exact hread) 0
      rw [hparse', Option.map_some, Option.map_some, hid]
    · obtain ⟨l', hparse', hid, -⟩ := SyncedLine.cancelledForm_cancelled hparse hread 0
      rw [hparse', Option.map_some, Option.map_some, hid]

theorem heading_of_syncedId {line : Text} (h : syncedId line ≠ none) : headingLevelAndText line = none := by
  obtain ⟨id, hid⟩ := Option.ne_none_iff_exists'.mp h
  obtain ⟨l, hparse, -⟩ := Option.map_eq_some_iff.mp hid
  exact SyncedLine.parse_heading hparse

/-- A poll of a section puts in no heading and changes none. -/
theorem Repoll.passes (h : Repoll ls child events edits blocks tail)
    (hread : ∀ line ∈ ls, headingLevelAndText (chomp line) = headingLevelAndText line) :
    Passes headingLevelAndText none blocks tail := by
  have hput : ∀ z, PutIn ls child events z → headingLevelAndText z = none := by
    rintro z ⟨event, hevent, -, hz⟩
    exact heading_of_syncedId (by rw [h.putIn_id hevent hz]; simp)
  refine ⟨fun b hb z hz => hput z (h.putIn_before hb hz), fun b hb => ?_, fun z hz => hput z (h.putIn_tail hz)⟩
  obtain ⟨row, hrow⟩ := List.mem_iff_getElem?.mp hb
  obtain ⟨hold, -, hnew⟩ := h.block hrow
  have hid := h.block_id hrow
  by_cases hsynced : syncedId b.old = none
  · cases hreplace : replacementAt edits row with
    | none =>
      rw [hreplace, Option.getD_none] at hnew
      rcases hnew with heq | heq
      · rw [heq]
      · rw [heq]
        exact hread _ (List.mem_of_getElem? hold)
    | some text =>
      obtain ⟨l, hl, rfl, -⟩ := h.replaced hreplace
      obtain ⟨-, -, line, hline, hparse⟩ := mem_syncedLines.mp hl
      obtain rfl := Option.some.inj (hline.symm.trans hold)
      rw [← syncedId_parse l.row b.old, hparse] at hsynced
      cases hsynced
  · rw [heading_of_syncedId hsynced, heading_of_syncedId (hid ▸ hsynced)]

/-! ## The second poll of a section -/

/-- What an event's line, or the line that is put in for it, says reads back as the event's. -/
def CalendarEvent.SettlesOn (event : CalendarEvent) : Option SyncedLine → Prop
  | some l => l.Settles event
  | none => event.ReadsBack event.title [' ']

theorem Repoll.old (h : Repoll ls child events edits blocks tail) : blocks.map Grown.old = ls := by
  have hsame : List.Forall₂ (fun b b' : Grown => b.old = b'.old) blocks (growth ls edits) :=
    h.blocks_read.imp fun b b' hreads => hreads.old
  have hmap := List.forall₂_map_left_iff.mpr (List.forall₂_map_right_iff.mpr hsame)
  rw [List.forall₂_eq_eq_eq] at hmap
  rw [hmap, growth_old]

end

/-! ## The events a poll works with -/

theorem distinctFrom_id {seen : List Text} {events : List CalendarEvent} {event : CalendarEvent}
    (h : event ∈ distinctFrom seen events) : event.id ∉ seen ∧ ∃ raw ∈ events, event.id = raw.id := by
  induction events generalizing seen with
  | nil => cases h
  | cons first rest ih =>
    unfold distinctFrom at h
    split at h
    · obtain ⟨hseen, raw, hraw, hid⟩ := ih h
      exact ⟨hseen, raw, List.mem_cons_of_mem _ hraw, hid⟩
    · rename_i hnew
      rcases List.mem_cons.mp h with rfl | h
      · exact ⟨hnew, first, List.mem_cons_self, rfl⟩
      · obtain ⟨hseen, raw, hraw, hid⟩ := ih h
        exact ⟨fun hin => hseen (List.mem_cons_of_mem _ hin), raw, List.mem_cons_of_mem _ hraw, hid⟩

/-- Marker ids are hexadecimal. -/
def HexIds (events : List CalendarEvent) : Prop := ∀ event ∈ events, event.id ≠ [] ∧ ∀ c ∈ event.id, isHexDigit c = true

theorem HexIds.distinct {events : List CalendarEvent} (h : HexIds events) : HexIds (distinctEvents events) := by
  intro event hevent
  obtain ⟨-, raw, hraw, hid⟩ := distinctFrom_id hevent
  rw [hid]
  exact h raw hraw

/-! ## Reconciling again -/

/-- The headings of a note read the same without a carriage return that ends them. -/
def HeadingsRead (note : Text) : Prop :=
  ∀ line ∈ lines note, headingLevelAndText (chomp line) = headingLevelAndText line

/-! ## A section that is created -/

theorem numberedFrom_append (row : ℕ) (front rest : List Text) :
    numberedFrom row (front ++ rest) = numberedFrom row front ++ numberedFrom (row + front.length) rest := by
  simp [numberedFrom, List.zipIdx_append]

/-- The edits that put a block in before a row. -/
def blockEdits (row : ℕ) (block : List Text) : List LineEdit := block.map fun text => ⟨row, .insert text⟩

theorem insertsAt_block (row : ℕ) (block : List Text) (r : ℕ) :
    insertsAt (blockEdits row block) r = if r = row then block else [] := by
  unfold insertsAt blockEdits
  by_cases hr : r = row
  · simp [List.filter_map, Function.comp_def, hr, LineEdit.inserted, List.filterMap_map]
  · simp [List.filter_map, Function.comp_def, Ne.symm hr, hr]

theorem replacementAt_block (row : ℕ) (block : List Text) (r : ℕ) : replacementAt (blockEdits row block) r = none := by
  cases hsome : replacementAt (blockEdits row block) r with
  | none => rfl
  | some text =>
    obtain ⟨t, -, heq⟩ := List.mem_map.mp (replacementAt_some hsome)
    cases heq

theorem trailingInserts_block (row : ℕ) (block : List Text) (rows : ℕ) :
    trailingInserts (blockEdits row block) rows = if rows ≤ row then block else [] := by
  have hsorted : sortByRow (blockEdits row block) = blockEdits row block := by
    apply List.Pairwise.insertionSort_eq
    rw [blockEdits, List.pairwise_map]
    exact List.Pairwise.imp (fun _ => le_rfl) (List.pairwise_of_forall fun _ _ => trivial)
  unfold trailingInserts
  by_cases hpast : rows ≤ row
  · have hall : (blockEdits row block).filter (fun e => rows ≤ e.row) = blockEdits row block := by
      simp [blockEdits, List.filter_map, Function.comp_def, hpast]
    rw [hall, hsorted, if_pos hpast]
    simp [blockEdits, Function.comp_def, LineEdit.inserted, List.filterMap_map]
  · have hnone : (blockEdits row block).filter (fun e => rows ≤ e.row) = [] := by
      simp [blockEdits, List.filter_map, Function.comp_def, hpast]
    rw [hnone, if_neg hpast]
    rfl

/-- Rows a block is not put in before stay as they are. -/
theorem editedRows_block (row : ℕ) (block : List Text) (start : ℕ) (rest : List Text)
    (h : ∀ r, start ≤ r → r < start + rest.length → r ≠ row) :
    (numberedFrom start rest).flatMap (fun p => insertsAt (blockEdits row block) p.1 ++
      [(replacementAt (blockEdits row block) p.1).getD p.2]) = rest := by
  induction rest generalizing start with
  | nil => rfl
  | cons line rest ih =>
    rw [List.length_cons] at h
    have hnext := ih (start + 1) fun r hr hlt => h r (by omega) (by omega)
    have hrow : start ≠ row := h start le_rfl (by omega)
    rw [numberedFrom_cons, List.flatMap_cons, hnext]
    simp only [insertsAt_block, replacementAt_block, if_neg hrow]
    rfl

/-- A block put in before a row. -/
theorem editedLines_block (ls block : List Text) {row : ℕ} (h : row ≤ ls.length) :
    editedLines ls (blockEdits row block) = ls.take row ++ (block ++ ls.drop row) := by
  have hsplit : numbered ls = numberedFrom 0 (ls.take row) ++ numberedFrom row (ls.drop row) := by
    have happend := numberedFrom_append 0 (ls.take row) (ls.drop row)
    rw [List.take_append_drop, numberedFrom_zero, List.length_take, Nat.min_eq_left h, Nat.zero_add] at happend
    exact happend
  have hedited : editedLines ls (blockEdits row block) =
      (numbered ls).flatMap (fun p => insertsAt (blockEdits row block) p.1 ++
        [(replacementAt (blockEdits row block) p.1).getD p.2]) ++ trailingInserts (blockEdits row block) ls.length := rfl
  have hfront := editedRows_block row block 0 (ls.take row) fun r _ hlt => by
    rw [List.length_take] at hlt
    omega
  rw [hedited, hsplit, List.flatMap_append, hfront, trailingInserts_block, List.append_assoc]
  congr 1
  cases hdrop : ls.drop row with
  | nil =>
    rw [if_pos (List.drop_eq_nil_iff.mp hdrop)]
    simp [numberedFrom]
  | cons line rest =>
    have hshort : ¬ls.length ≤ row := by
      intro hpast
      rw [List.drop_eq_nil_of_le hpast] at hdrop
      cases hdrop
    have hafter := editedRows_block row block (row + 1) rest fun r hr _ => by omega
    rw [numberedFrom_cons, List.flatMap_cons, hafter, if_neg hshort]
    simp only [insertsAt_block, replacementAt_block, if_true, Option.getD_none, List.append_nil, List.append_assoc,
      List.singleton_append]

/-- The heading of a new section. -/
def newHeading (level : ℕ) (section_ : Text) : Text := List.replicate (level + 1) '#' ++ [' '] ++ section_

theorem trim_trim (t : Text) : trim (trim t) = trim t := trim_of_tight (unindented_trim t) (untrailed_trim t)

/-- A section that is to be created can be found again: its name is a line of its own, not blank, and no better a name
of the planner section than the heading found for that. -/
def NewSectionReads (reader : HeadingReader) (config : CalendarConfig) (note : Text) (events : List CalendarEvent) :
    Prop :=
  events ≠ [] → ∀ range level, plannerSection reader (lines note) (config.plannerHeadingNames reader) = some (range, level) →
    findChildSection reader (lines note) range level config.section_ = none →
    trim config.section_ ≠ [] ∧ '\n' ∉ config.section_ ∧
      ∀ line ∈ (lines note)[range.start - 1]?, ∀ heading ∈ headingLevelAndText line,
        ∀ p ∈ (config.plannerHeadingNames reader).rank reader heading.2,
        ∀ q ∈ (config.plannerHeadingNames reader).rank reader (trim config.section_), p ≤ q

/-! ## The poll after a section is created -/

/-- The lines of a note a block was put in. -/
theorem lines_block {note : Text} (row : ℕ) (block : List Text) (hrow : row ≤ (lines note).length)
    (hne : lines note ≠ []) (hnl : ∀ line ∈ block, '\n' ∉ line)
    (hlast : (lines note).drop row = [] → block.getLast? ≠ some []) :
    List.Forall₂ ReadsAs (lines (applyLineEdits note (blockEdits row block)))
      ((lines note).take row ++ (block ++ (lines note).drop row)) := by
  refine lines_applyLineEdits (editedLines_block _ _ hrow) ?_ ?_ ?_
  · intro hnil
    have hparts := List.append_eq_nil_iff.mp hnil
    have hwhole := List.take_append_drop row (lines note)
    rw [hparts.1, (List.append_eq_nil_iff.mp hparts.2).2] at hwhole
    exact hne hwhole.symm
  · intro line hline
    rcases List.mem_append.mp hline with hline | hline
    · exact no_newline_of_mem_lines (List.mem_of_mem_take hline)
    · rcases List.mem_append.mp hline with hline | hline
      · exact hnl line hline
      · exact no_newline_of_mem_lines (List.mem_of_mem_drop hline)
  · intro hends hempty
    have hold := lines_last hends
    rw [← List.take_append_drop row (lines note)] at hold
    cases hdrop : (lines note).drop row with
    | nil =>
      have hblock := hlast hdrop
      rw [hdrop, List.append_nil] at hempty hold
      rw [List.getLast?_append] at hempty
      cases hlastBlock : block.getLast? with
      | none =>
        rw [hlastBlock, Option.none_or] at hempty
        exact hold hempty
      | some last =>
        rw [hlastBlock, Option.some_or] at hempty
        rw [hempty] at hlastBlock
        exact hblock hlastBlock
    | cons line rest =>
      rw [hdrop] at hempty hold
      rw [List.getLast?_append, List.getLast?_append, List.getLast?_cons, Option.some_or, Option.some_or] at hempty
      rw [List.getLast?_append, List.getLast?_cons, Option.some_or] at hold
      exact hold hempty

/-- What stands below the heading of a new section. -/
def newLines (ls : List Text) (row : ℕ) (events : List CalendarEvent) : List Text :=
  [] :: ((sortEvents events).map renderSyncedLine ++
    if ls[row]?.any fun line => !isBlankLine line then [[]] else [])

/-! ## Two events of a day -/

/-- A note whose Calendar section is still to be created. -/
def plannerNote : Text := "# Day planner\n\n- [ ] Water the plants\n".toList

end Thock.Desk
