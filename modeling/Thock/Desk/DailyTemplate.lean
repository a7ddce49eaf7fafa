import Thock.Lib.Tokens
import Thock.SyncCore.DueText

/-!
# The daily page and its template

A day's page is the template expanded as a whole. Whether a past page is still only the template is
judged line by line, and since the creation time is forgotten a template line that carries the time
matches anything: what a person writes on that one line is not seen.
-/

namespace Thock.Desk

open TextScan SyncCore SyncCore.Reminder

def templateOpen : Text := "\x7b\x7b".toList

def templateClose : Text := "\x7d\x7d".toList

def timeToken : Text := "\x7b\x7btime\x7d\x7d".toList

/-- What takes the place of a token; an unrecognized one is left as it is. -/
def expandToken (chrono : Chrono) (date : Day) (time : ClockTime) (title token : Text) : Text :=
  if token = "date".toList then dateText date
  else if token = "time".toList then time.text
  else if token = "title".toList then title
  else match stripPrefix "date:".toList token with
    | some format => formatDate chrono date format
    | none => templateOpen ++ token ++ templateClose

def expandTemplate (chrono : Chrono) (date : Day) (time : ClockTime) (title template : Text) : Text :=
  expandTokens templateOpen templateClose (expandToken chrono date time title) template

def midnight : ClockTime := ⟨0, 0, by decide, by decide⟩

/-- The lines of a text without line endings, white space at line ends and blank lines at the end. -/
def normalizedLines (t : Text) : List Text := ((lines t).map trimEnd).rdropWhile fun line => line.isEmpty

/-- Whether a template line carries the creation time. -/
def Timed (line : Text) : Prop := timeToken <:+: line

instance (line : Text) : Decidable (Timed line) := inferInstanceAs (Decidable (_ <:+: _))

def isTemplateOnly (chrono : Chrono) (note template : Text) (date : Day) (title : Text) : Bool :=
  let noteLines := normalizedLines note
  let templateLines := normalizedLines template
  noteLines.length = templateLines.length &&
    (templateLines.zip noteLines).all fun (templateLine, noteLine) =>
      Timed templateLine || expandTemplate chrono date midnight title templateLine = noteLine

/-- The same lines, but for those whose template line carries the time. -/
def SameButTime (template note page : Text) : Prop :=
  (normalizedLines note).length = (normalizedLines page).length ∧
    ∀ (i : ℕ) (line : Text), (normalizedLines template)[i]? = some line → ¬Timed line →
      (normalizedLines note)[i]? = (normalizedLines page)[i]?

/-- A template that can be judged line by line: no token crosses a line break, and no line ends in
a token that leaves white space, or nothing at all on the last line. -/
structure Judged (chrono : Chrono) (template : Text) (date : Day) (title : Text) : Prop where
  onLines : ∀ token ∈ tokensOf templateOpen templateClose template, '\n' ∉ token
  oneLine : '\n' ∉ title
  untrailed : ∀ line ∈ normalizedLines template, ¬Timed line →
    Untrailed (expandTemplate chrono date midnight title line)
  last : ∀ line ∈ (normalizedLines template).getLast?, ∀ time, ¬Blank (expandTemplate chrono date time title line)

/-! ## Lines -/

/-- The lines are the pieces between line feeds, for neither a carriage return nor an empty last piece counts. -/
theorem normalizedLines_eq (t : Text) :
    normalizedLines t = ((pieces t).map trimEnd).rdropWhile fun line => line.isEmpty := by
  have hne : pieces t ≠ [] := List.splitOn_ne_nil '\n' t
  obtain ⟨front, last, hpieces⟩ := (List.eq_nil_or_concat' (pieces t)).resolve_left hne
  have hfront : (front.map chomp).map trimEnd = front.map trimEnd := by
    rw [List.map_map]
    exact List.map_congr_left fun line _ => trimEnd_chomp line
  rw [normalizedLines, lines, hpieces, List.dropLast_concat, List.getLast?_concat]
  cases last with
  | nil =>
    rw [List.append_nil, hfront, List.map_append]
    exact (List.rdropWhile_concat_pos _ _ _ rfl).symm
  | cons c rest => rw [List.map_append, hfront, ← List.map_append]

/-- Lines that are kept stay the lines before the blank ones at the end. -/
theorem rdropWhile_map {g : Text → Text} (hg : g [] = []) {ls : List Text}
    (hlast : ∀ line ∈ (ls.rdropWhile fun line => line.isEmpty).getLast?, g line ≠ []) :
    (ls.map g).rdropWhile (fun line => line.isEmpty) = (ls.rdropWhile fun line => line.isEmpty).map g := by
  induction ls using List.reverseRecOn with
  | nil => rfl
  | append_singleton ls line ih =>
    rw [List.map_append, List.map_singleton]
    by_cases hempty : line.isEmpty = true
    · obtain rfl := List.isEmpty_iff.mp hempty
      rw [List.rdropWhile_concat_pos _ ls [] rfl] at hlast
      rw [hg, List.rdropWhile_concat_pos _ _ [] rfl, List.rdropWhile_concat_pos _ _ [] rfl, ih hlast]
    · rw [List.rdropWhile_concat_neg _ _ _ hempty] at hlast ⊢
      have hne : g line ≠ [] := hlast line (by rw [List.getLast?_concat]; rfl)
      rw [List.rdropWhile_concat_neg _ _ _ (by rwa [List.isEmpty_iff]), List.map_append, List.map_singleton]

/-! ## Expanding one line -/

theorem no_newline_emitDateToken (chrono : Chrono) (date : Day) (token : Char) (run : ℕ) :
    '\n' ∉ emitDateToken chrono date token run := by
  have hpadded := not_mem_padded (c := '\n') (by decide)
  have hdecimal := not_mem_decimal (c := '\n') (by decide)
  have hint : ∀ (width : ℕ) (n : ℤ), '\n' ∉ paddedInt width n := by
    intro width n
    unfold paddedInt
    split
    · exact List.not_mem_cons_of_ne_of_not_mem (by decide) (hpadded _ _)
    · exact hpadded _ _
  have hname : ∀ names : List Text, (∀ name ∈ names, '\n' ∉ name) → ∀ i, '\n' ∉ names.getD i [] := by
    intro names hnames i
    rw [List.getD_eq_getElem?_getD]
    cases hget : names[i]? with
    | none => exact List.not_mem_nil
    | some name => exact hnames name (List.mem_of_getElem? hget)
  have hmonth : '\n' ∉ monthName date := hname monthNames (by decide) _
  have hweekday : '\n' ∉ weekdayName chrono date := hname weekdayNames (by decide) _
  have htake : ∀ (t : Text) (n : ℕ), '\n' ∉ t → '\n' ∉ t.take n := fun t n ht h => ht (List.mem_of_mem_take h)
  unfold emitDateToken
  split
  all_goals
    first
    | exact hint _ _
    | exact hdecimal _
    | exact hpadded _ _
    | exact htake _ _ hmonth
    | exact htake _ _ hweekday
    | exact hmonth
    | exact hweekday

theorem no_newline_formatDate (chrono : Chrono) (date : Day) {format : Text} (h : '\n' ∉ format) :
    '\n' ∉ formatDate chrono date format := by
  rw [formatDate]
  generalize format.length = fuel
  induction fuel generalizing format with
  | zero => exact List.not_mem_nil
  | succ fuel ih =>
    cases format with
    | nil => exact List.not_mem_nil
    | cons c rest =>
      have hrest : '\n' ∉ rest := fun hmem => h (List.mem_cons_of_mem c hmem)
      have hdrop : ∀ p : Char → Bool, '\n' ∉ rest.dropWhile p := fun p hmem =>
        hrest ((List.dropWhile_suffix p).mem hmem)
      rw [formatDateFrom]
      split
      · rw [List.mem_append, not_or]
        exact ⟨fun hmem => hrest ((List.takeWhile_prefix _).mem hmem), ih fun hmem => hdrop _ (List.mem_of_mem_tail hmem)⟩
      · split
        · rw [List.mem_append, not_or]
          exact ⟨no_newline_emitDateToken _ _ _ _, ih (hdrop _)⟩
        · rw [List.mem_cons, not_or]
          exact ⟨fun heq => h (heq ▸ List.mem_cons_self), ih hrest⟩

section Expand

variable {chrono : Chrono} {date : Day} {title : Text}

theorem no_newline_expandToken {time : ClockTime} {token : Text} (htitle : '\n' ∉ title) (htoken : '\n' ∉ token) :
    '\n' ∉ expandToken chrono date time title token := by
  have htime : '\n' ∉ time.text := by
    rw [ClockTime.text, List.mem_append, not_or]
    exact ⟨not_mem_padded (by decide) _ _, List.not_mem_cons_of_ne_of_not_mem (by decide) (not_mem_padded (by decide) _ _)⟩
  unfold expandToken
  split
  · exact not_mem_dateText (by decide) ⟨by decide, by decide⟩ date
  · split
    · exact htime
    · split
      · exact htitle
      · split
        · next format hformat =>
          rw [stripPrefix_eq_some] at hformat
          exact no_newline_formatDate chrono date fun hmem => htoken (hformat ▸ List.mem_append_right _ hmem)
        · rw [List.mem_append, List.mem_append]
          rintro ((h | h) | h)
          · exact absurd h (by decide)
          · exact htoken h
          · exact absurd h (by decide)

theorem no_newline_expandTemplate {time : ClockTime} {line : Text} (htitle : '\n' ∉ title) (hline : '\n' ∉ line) :
    '\n' ∉ expandTemplate chrono date time title line := by
  intro hmem
  rcases mem_expandTokens (by decide) hmem with hmem | ⟨token, htoken, hmem⟩
  · exact hline hmem
  · refine no_newline_expandToken htitle (fun hin => hline ?_) hmem
    refine (infix_of_mem_tokensOf (by decide) htoken).mem ?_
    simp [hin]

/-- White space behind a line is behind its expansion. -/
theorem expandTemplate_append {time : ClockTime} {w : Text} (hw : Blank w) (line : Text) :
    expandTemplate chrono date time title (line ++ w) = expandTemplate chrono date time title line ++ w := by
  induction w using List.reverseRecOn with
  | nil => rw [List.append_nil, List.append_nil]
  | append_singleton w c ih =>
    have hc : isWhitespace c = true := hw c (by simp)
    have hforeign : ∀ delimiter : Text, (∀ d ∈ delimiter, isWhitespace d = false) → c ∉ delimiter := by
      intro delimiter hall hmem
      rw [hall c hmem] at hc
      cases hc
    have hrest := ih fun d hd => hw d (List.mem_append_left _ hd)
    have hlast := @expandTokens_concat templateOpen templateClose c (by decide) (by decide) (hforeign _ (by decide))
      (hforeign _ (by decide)) (expandToken chrono date time title) (line ++ w)
    rw [← expandTemplate, ← expandTemplate] at hlast
    rw [← List.append_assoc, hlast, hrest, List.append_assoc]

theorem trimEnd_expandTemplate (time : ClockTime) (line : Text) :
    trimEnd (expandTemplate chrono date time title line) =
      trimEnd (expandTemplate chrono date time title (trimEnd line)) := by
  conv_lhs => rw [← trimEnd_append_rtakeWhile line, expandTemplate_append (blank_rtakeWhile line)]
  exact trimEnd_append_of_blank (blank_rtakeWhile line) _

/-- A line without the time is expanded the same at every time. -/
theorem expandTemplate_untimed {line : Text} (h : ¬Timed line) (time : ClockTime) :
    expandTemplate chrono date time title line = expandTemplate chrono date midnight title line := by
  refine expandTokens_congr (by decide) fun token htoken => ?_
  have hne : token ≠ "time".toList := by
    rintro rfl
    exact h (infix_of_mem_tokensOf (by decide) htoken)
  unfold expandToken
  rw [if_neg hne, if_neg hne]

end Expand

/-! ## Judging a page -/

section Judge

variable {chrono : Chrono} {template : Text} {date : Day} {title : Text} (h : Judged chrono template date title)
include h

/-- A page's lines are the template's lines, each expanded. -/
theorem Judged.pageLines (time : ClockTime) :
    normalizedLines (expandTemplate chrono date time title template) =
      (normalizedLines template).map fun line => trimEnd (expandTemplate chrono date time title line) := by
  have hpieces : pieces (expandTemplate chrono date time title template) =
      (pieces template).map (expandTemplate chrono date time title) := by
    have hne : (pieces template).map (expandTemplate chrono date time title) ≠ [] := by
      rw [ne_eq, List.map_eq_nil_iff]
      exact List.splitOn_ne_nil '\n' template
    have hexpand := expandTokens_pieces (by decide) (by decide) (by decide) (by decide)
      (expandToken chrono date time title) h.onLines
    have hlines : ∀ line ∈ (pieces template).map (expandTemplate chrono date time title), pieces line = [line] := by
      intro line hline
      obtain ⟨piece, hpiece, rfl⟩ := List.mem_map.mp hline
      exact pieces_of_no_newline (no_newline_expandTemplate h.oneLine (no_newline_of_mem_pieces hpiece))
    calc pieces (expandTemplate chrono date time title template)
        = pieces (joinLines ((pieces template).map (expandTemplate chrono date time title))) := by
          rw [expandTemplate, hexpand]
          rfl
      _ = ((pieces template).map (expandTemplate chrono date time title)).flatMap pieces := pieces_joinLines hne
      _ = ((pieces template).map (expandTemplate chrono date time title)).flatMap fun line => [line] :=
          List.flatMap_congr hlines
      _ = (pieces template).map (expandTemplate chrono date time title) := List.flatMap_singleton' _
  have hmap := @rdropWhile_map (fun line => trimEnd (expandTemplate chrono date time title line)) rfl
    ((pieces template).map trimEnd)
    (by
      rw [← normalizedLines_eq]
      intro line hline hnil
      have htext := trimEnd_append_rtakeWhile (expandTemplate chrono date time title line)
      rw [hnil, List.nil_append] at htext
      exact h.last line hline time (htext ▸ blank_rtakeWhile _))
  rw [← normalizedLines_eq, List.map_map] at hmap
  rw [← hmap, normalizedLines_eq, hpieces, List.map_map]
  congr 1
  exact List.map_congr_left fun line _ => trimEnd_expandTemplate time line

/-- The line of a page whose template line does not carry the time. -/
theorem Judged.pageLine {line : Text} {i : ℕ} (hline : (normalizedLines template)[i]? = some line) (huntimed : ¬Timed line)
    (time : ClockTime) : (normalizedLines (expandTemplate chrono date time title template))[i]? =
      some (expandTemplate chrono date midnight title line) := by
  rw [h.pageLines time, List.getElem?_map, hline, Option.map_some, expandTemplate_untimed huntimed]
  rw [trimEnd_of_untrailed (h.untrailed line (List.mem_of_getElem? hline) huntimed)]

theorem Judged.same_iff (note : Text) (time : ClockTime) :
    isTemplateOnly chrono note template date title = true ↔
      SameButTime template note (expandTemplate chrono date time title template) := by
  have hlength : (normalizedLines (expandTemplate chrono date time title template)).length =
      (normalizedLines template).length := by
    rw [h.pageLines time, List.length_map]
  rw [isTemplateOnly, SameButTime, Bool.and_eq_true, decide_eq_true_iff, List.all_eq_true, hlength]
  refine and_congr_right fun hsame => ⟨fun hall i line hline huntimed => ?_, fun hall ⟨line, text⟩ hpair => ?_⟩
  · have hi : i < (normalizedLines note).length := by
      rw [hsame]
      exact (List.getElem?_eq_some_iff.mp hline).1
    have hnote := List.getElem?_eq_getElem hi
    have hpair : (line, (normalizedLines note)[i]) ∈ (normalizedLines template).zip (normalizedLines note) :=
      List.mem_of_getElem? (List.getElem?_zip_eq_some.mpr ⟨hline, hnote⟩)
    have heq := hall _ hpair
    dsimp only at heq
    rw [decide_eq_false huntimed, Bool.false_or, decide_eq_true_iff] at heq
    rw [h.pageLine hline huntimed time, hnote, heq]
  · obtain ⟨i, hi⟩ := List.mem_iff_getElem?.mp hpair
    obtain ⟨hline, hnote⟩ := List.getElem?_zip_eq_some.mp hi
    dsimp only
    by_cases htimed : Timed line
    · rw [decide_eq_true htimed, Bool.true_or]
    · have heq := hall i line hline htimed
      rw [h.pageLine hline htimed time, hnote] at heq
      rw [decide_eq_true (Option.some.inj heq).symm, Bool.or_true]

/-- A note counts as untouched just when it is a page of some time of day, line by line, but for what
stands on the lines that carry the time. -/
theorem template_only_iff (note : Text) :
    isTemplateOnly chrono note template date title = true ↔
      ∃ time, SameButTime template note (expandTemplate chrono date time title template) :=
  ⟨fun honly => ⟨midnight, (h.same_iff note midnight).mp honly⟩, fun ⟨time, hsame⟩ => (h.same_iff note time).mpr hsame⟩

end Judge

/-! ## A page with its time -/

def journalTemplate : Text := "# \x7b\x7bdate:dddd\x7d\x7d\n\nStarted \x7b\x7btime\x7d\x7d\n".toList

def journalDay : Day := ⟨2026, 10, 29, by decide, by decide, by decide⟩

/-- What the date library knows of that day. -/
def journalChrono : Chrono := ⟨fun _ => 4, fun _ => 44, fun day => day.year, fun _ _ => none, fun _ => none⟩

theorem expand_started (time : ClockTime) :
    expandTemplate journalChrono journalDay time "x".toList "Started \x7b\x7btime\x7d\x7d".toList = "Started ".toList ++ time.text := by
  have hnil : expandTokens templateOpen templateClose (expandToken journalChrono journalDay time "x".toList) [] = [] := rfl
  have hcut : cutToken templateOpen templateClose "Started \x7b\x7btime\x7d\x7d".toList = some ("Started ".toList, "time".toList, []) := by
    decide +kernel
  rw [expandTemplate, expandTokens_some (by decide) _ hcut, hnil, List.append_nil]
  rfl

theorem journal_judged : Judged journalChrono journalTemplate journalDay "x".toList where
  onLines := by decide +kernel
  oneLine := by decide
  untrailed := by decide +kernel
  last := by
    intro line hline time hblank
    have hlast : (normalizedLines journalTemplate).getLast? = some "Started \x7b\x7btime\x7d\x7d".toList := by decide +kernel
    rw [hlast] at hline
    obtain rfl := Option.some.inj hline
    rw [expand_started] at hblank
    exact absurd (hblank 'S' List.mem_cons_self) (by decide)

theorem template_only_iff_journal :
    isTemplateOnly journalChrono "# Thursday\r\n\r\nStarted 09:07\r\n".toList journalTemplate journalDay "x".toList = true ↔
      ∃ time, SameButTime journalTemplate "# Thursday\r\n\r\nStarted 09:07\r\n".toList
        (expandTemplate journalChrono journalDay time "x".toList journalTemplate) :=
  template_only_iff journal_judged _

/-- A person's words in place of the time are taken for the template. -/
theorem words_on_time_line :
    ¬∀ (chrono : Chrono) (note template : Text) (date : Day) (title : Text),
      isTemplateOnly chrono note template date title = true ↔
        ∃ time, normalizedLines note = normalizedLines (expandTemplate chrono date time title template) := by
  intro h
  have honly : isTemplateOnly journalChrono "# Thursday\n\nCalled Ana\n".toList journalTemplate journalDay "x".toList = true := by
    decide +kernel
  obtain ⟨time, hlines⟩ := (h _ _ _ _ _).mp honly
  have hlast := congrArg List.getLast? hlines
  have hwritten : (normalizedLines "# Thursday\n\nCalled Ana\n".toList).getLast? = some "Called Ana".toList := by
    decide +kernel
  have hstarted : (normalizedLines journalTemplate).getLast? = some "Started \x7b\x7btime\x7d\x7d".toList := by decide +kernel
  rw [hwritten, journal_judged.pageLines time, List.getLast?_map, hstarted, Option.map_some, expand_started] at hlast
  have hprefix := trimEnd_isPrefix ("Started ".toList ++ time.text)
  rw [← Option.some.inj hlast] at hprefix
  obtain ⟨rest, hrest⟩ := hprefix
  exact absurd (List.cons.inj hrest).1 (by decide)

end Thock.Desk
