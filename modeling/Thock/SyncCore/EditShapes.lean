import Thock.SyncCore.DropReads
import Thock.SyncCore.AttachReads
import Thock.SyncCore.FenceLines

/-!
# What an edit of a home line writes over it

Every edit but the removal of a token writes some text over a stretch of the line, and keeps what
stands before that stretch and, but for white space at its ends, what stands behind it. The new
line leaves a comment open just when the old one does.
-/

namespace Thock.SyncCore.Reminder

open TextScan

/-- Whether a line leaves a comment open at its end. -/
def leavesOpen (line : Text) : Bool := (scanInline line false).commentOpen

/-- An edited line still is one line, and takes no carriage return to its end. -/
structure OneLine (line edited : Text) : Prop where
  newline : '\n' ∉ line → '\n' ∉ edited
  return_ : edited.getLast? = some '\r' → line.getLast? = some '\r'

/-- An edited line does to the note below it what the line did. -/
structure Steady (line edited : Text) : Prop where
  fence : opensFence line = none → opensFence edited = none
  front : isFrontMatterEnd line = false → isFrontMatterEnd edited = false
  opens : leavesOpen edited = leavesOpen line

theorem OneLine.refl (line : Text) : OneLine line line := ⟨id, id⟩

theorem OneLine.trans {a b c : Text} (h : OneLine a b) (h' : OneLine b c) : OneLine a c :=
  ⟨fun hline => h'.newline (h.newline hline), fun hlast => h.return_ (h'.return_ hlast)⟩

theorem Steady.refl (line : Text) : Steady line line := ⟨id, id, rfl⟩

theorem Steady.trans {a b c : Text} (h : Steady a b) (h' : Steady b c) : Steady a c :=
  ⟨fun hline => h'.fence (h.fence hline), fun hline => h'.front (h.front hline), h'.opens.trans h.opens⟩

/-! ## Text written over a stretch -/

/-- A line with text written over a stretch of it. -/
def Overwrites (line u m edited : Text) : Prop :=
  ∃ p v w, line = u ++ (p ++ (v ++ w)) ∧ edited = u ++ (m ++ v) ∧ '`' ∉ p ∧ Blank w ∧ (w = [] ∨ Untrailed v)

/-- Text that is no rule of dashes or dots and ends no line. -/
structure Spelled (m : Text) : Prop where
  newline : '\n' ∉ m
  return_ : '\r' ∉ m
  rule : ∃ c ∈ m, c ≠ '-' ∧ c ≠ '.'

/-- Text that goes on with no run of backticks or tildes. -/
def Unmarked (m : Text) : Prop := ∃ k c t, m = List.replicate k ' ' ++ c :: t ∧ c ≠ ' ' ∧ c ≠ '`' ∧ c ≠ '~'

theorem Spelled.isFrontMatterEnd {m : Text} (h : Spelled m) (u v : Text) : isFrontMatterEnd (u ++ (m ++ v)) = false := by
  obtain ⟨c, hc, hdash, hdot⟩ := h.rule
  have hmem : c ∈ u ++ (m ++ v) := by simp [hc]
  rw [Bool.eq_false_iff]
  intro hrule
  simp only [SyncCore.isFrontMatterEnd, Bool.or_eq_true, decide_eq_true_eq] at hrule
  rcases hrule with hrule | hrule
  · rw [hrule] at hmem
    simp [hdash] at hmem
  · rw [hrule] at hmem
    simp [hdot] at hmem

theorem Overwrites.oneLine {line u m edited : Text} (h : Overwrites line u m edited) (hm : Spelled m) :
    OneLine line edited := by
  obtain ⟨p, v, w, rfl, rfl, -, -, htrailed⟩ := h
  obtain ⟨c, hc, -⟩ := hm.rule
  refine ⟨?_, fun hlast => ?_⟩
  · simp only [List.mem_append, not_or]
    rintro ⟨hu, -, hv, -⟩
    exact ⟨hu, hm.newline, hv⟩
  · by_cases hv : v = []
    · rw [hv, List.append_nil, List.getLast?_append_of_ne_nil _ (List.ne_nil_of_mem hc)] at hlast
      exact absurd (List.mem_of_getLast? hlast) hm.return_
    · rw [← List.append_assoc, List.getLast?_append_of_ne_nil _ hv] at hlast
      rcases htrailed with rfl | htrailed
      · rw [List.append_nil, ← List.append_assoc, List.getLast?_append_of_ne_nil _ hv, hlast]
      · exact absurd (htrailed '\r' hlast) (by decide)

theorem Overwrites.fence {line u m edited : Text} (h : Overwrites line u m edited) (hm : Unmarked m)
    (hline : opensFence line = none) : opensFence edited = none := by
  obtain ⟨p, v, w, rfl, rfl, hp, hw, -⟩ := h
  obtain ⟨k, c, t, rfl, hspace, htick, htilde⟩ := hm
  refine opensFence_swap (fun d hd => ?_) (fun hmem => ?_) hline
  · rw [List.append_assoc, dropWhile_spaces k (by simp [hspace])] at hd
    obtain rfl : c = d := by simpa using hd
    exact ⟨htick, htilde⟩
  · have hblank := hw.not_mem (c := '`') (by decide)
    simp only [List.mem_append] at hmem ⊢
    exact Or.inr ((hmem.resolve_left hp).resolve_right hblank)

theorem Overwrites.steady {line u m edited : Text} (h : Overwrites line u m edited) (hm : Spelled m)
    (hmark : Unmarked m) (hopens : leavesOpen edited = leavesOpen line) : Steady line edited where
  fence := h.fence hmark
  front _ := by
    obtain ⟨p, v, w, -, rfl, -⟩ := h
    exact hm.isFrontMatterEnd u v
  opens := hopens

/-! ## The texts that are written -/

theorem mem_tokenText {due : Due} {homeDay : Option Day} {c : Char} (h : c ∈ tokenText due homeDay) :
    c.isDigit = true ∨ c ∈ ['(', '@', '-', '+', ':', ' ', ')'] := by
  have hpadded : ∀ width n, c ∈ padded width n → c.isDigit = true := fun width n => isDigit_of_mem_padded
  have htime : ∀ time : ClockTime, c ∈ time.text → c.isDigit = true ∨ c = ':' := by
    intro time hc
    simp only [ClockTime.text, List.mem_append, List.mem_cons] at hc
    rcases hc with hc | rfl | hc
    · exact Or.inl (hpadded _ _ hc)
    · exact Or.inr rfl
    · exact Or.inl (hpadded _ _ hc)
  have hdate : ∀ date : Day, c ∈ dateText date → c.isDigit = true ∨ c = '-' ∨ c = '+' := by
    intro date hc
    simp only [dateText, yearText, List.mem_append, List.mem_cons] at hc
    rcases hc with (hc | rfl | hc) | rfl | hc
    · split at hc
      · exact Or.inl (hpadded _ _ hc)
      · rcases List.mem_cons.mp hc with rfl | hc
        · split <;> simp
        · exact Or.inl (hpadded _ _ hc)
    · simp
    · exact Or.inl (hpadded _ _ hc)
    · simp
    · exact Or.inl (hpadded _ _ hc)
  have hdue : c ∈ dueText due → c.isDigit = true ∨ c ∈ ['(', '@', '-', '+', ':', ' ', ')'] := by
    intro hc
    rw [dueText, List.mem_append] at hc
    rcases hc with hc | hc
    · rcases hdate _ hc with hc | rfl | rfl <;> simp [*]
    · cases htime? : due.time with
      | none =>
        rw [htime?] at hc
        cases hc
      | some time =>
        rw [htime?] at hc
        rcases List.mem_cons.mp hc with rfl | hc
        · simp
        · rcases htime time hc with hc | rfl <;> simp [*]
  have haround : ∀ inner, (c ∈ inner → c.isDigit = true ∨ c ∈ ['(', '@', '-', '+', ':', ' ', ')']) →
      c ∈ tokenOpen ++ inner ++ [')'] → c.isDigit = true ∨ c ∈ ['(', '@', '-', '+', ':', ' ', ')'] := by
    intro inner hinner hc
    have hopen : ∀ c ∈ tokenOpen, c = '(' ∨ c = '@' := by decide
    simp only [List.mem_append, List.mem_singleton] at hc
    rcases hc with (hc | hc) | rfl
    · rcases hopen c hc with rfl | rfl <;> simp
    · exact hinner hc
    · simp
  unfold tokenText at h
  split at h
  · split at h
    · exact haround _ (fun hc => (htime _ hc).imp_right fun hc => by simp [hc]) h
    · exact haround _ hdue h
  · exact haround _ hdue h

theorem not_mem_tokenText {c : Char} (hdigit : c.isDigit = false) (hc : c ∉ ['(', '@', '-', '+', ':', ' ', ')']) (due : Due)
    (homeDay : Option Day) : c ∉ tokenText due homeDay := fun h => by
  rcases mem_tokenText h with h | h
  · rw [hdigit] at h
    cases h
  · exact hc h

theorem exists_tokenText (due : Due) (homeDay : Option Day) : ∃ t, tokenText due homeDay = '(' :: t := by
  unfold tokenText
  split
  · split <;> exact ⟨_, rfl⟩
  · exact ⟨_, rfl⟩

theorem plain_tokenText (due : Due) (homeDay : Option Day) : Plain (tokenText due homeDay) := by
  obtain ⟨t, ht⟩ := exists_tokenText due homeDay
  refine ⟨by rw [ht]; exact List.cons_ne_nil _ _, not_mem_tokenText (by decide) (by decide) _ _,
    not_mem_tokenText (by decide) (by decide) _ _, fun c hc => ?_⟩
  rw [ht] at hc
  obtain rfl : '(' = c := by simpa using hc
  decide

theorem Spelled.of_mem {m : Text} {c : Char} (hc : c ∈ m) (hdash : c ≠ '-') (hdot : c ≠ '.') (hnewline : '\n' ∉ m)
    (hreturn : '\r' ∉ m) : Spelled m := ⟨hnewline, hreturn, c, hc, hdash, hdot⟩

theorem not_mem_gap {c : Char} (hc : c ≠ ' ') (t : Text) : c ∉ gap t := by
  unfold gap
  split
  · exact List.not_mem_nil
  · simpa using hc

theorem Spelled.gaps {m : Text} (h : Spelled m) (u v : Text) : Spelled (gap u ++ m ++ gap v) := by
  obtain ⟨c, hc, hrule⟩ := h.rule
  refine ⟨?_, ?_, c, by simp [hc], hrule⟩
  · simp [not_mem_gap, h.newline]
  · simp [not_mem_gap, h.return_]

theorem unmarked_gaps {c : Char} {t : Text} (hspace : c ≠ ' ') (htick : c ≠ '`') (htilde : c ≠ '~') (u v : Text) :
    Unmarked (gap u ++ c :: t ++ gap v) := by
  by_cases hu : u = []
  · exact ⟨0, c, t ++ gap v, by simp [hu, gap], hspace, htick, htilde⟩
  · exact ⟨1, c, t ++ gap v, by simp [gap_of_ne_nil hu], hspace, htick, htilde⟩

theorem spelled_tokenText (due : Due) (homeDay : Option Day) : Spelled (tokenText due homeDay) := by
  obtain ⟨t, ht⟩ := exists_tokenText due homeDay
  exact .of_mem (c := '(') (by rw [ht]; exact List.mem_cons_self) (by decide) (by decide)
    (not_mem_tokenText (by decide) (by decide) _ _) (not_mem_tokenText (by decide) (by decide) _ _)

theorem spelled_tokenAround {inner : Text} {when_ : When} (h : parseWhen inner = some when_) : Spelled (tokenAround inner) :=
  .of_mem (c := '(') (by simp [tokenAround, tokenOpen]) (by decide) (by decide)
    (by simpa [tokenAround, tokenOpen] using not_mem_of_parseWhen h (by decide))
    (by simpa [tokenAround, tokenOpen] using not_mem_of_parseWhen h (by decide))

theorem spelled_idMarker {id : Text} (hid : isId id = true) : Spelled (idMarker id) := by
  have hopen : '<' ∈ idMarker id := List.mem_append_left _ (List.mem_append_left _ (by decide))
  refine .of_mem hopen (by decide) (by decide) ?_ ?_
  all_goals
    simp only [idMarker, List.mem_append, not_or]
    exact ⟨⟨by decide, not_mem_id hid (by decide)⟩, by decide⟩

section Line
variable {line rest edited : Text} {pieces : List Piece}

/-! ## Comments left open -/

theorem Scanned.leavesOpen (h : Scanned line pieces rest) : leavesOpen line = !rest.isEmpty := by
  rw [Reminder.leavesOpen, h.scanInline]
  rfl

theorem Scanned.leavesOpen_eq {pieces' : List Piece} (h : Scanned line pieces rest) (h' : Scanned edited pieces' rest) :
    Reminder.leavesOpen edited = Reminder.leavesOpen line := by
  rw [h.leavesOpen, h'.leavesOpen]

theorem Scanned.leavesOpen_trimEnd {pieces' : List Piece} (h : Scanned line pieces rest)
    (h' : Scanned edited pieces' (TextScan.trimEnd rest)) : Reminder.leavesOpen edited = Reminder.leavesOpen line := by
  rw [h.leavesOpen, h'.leavesOpen]
  rcases h.ends with rfl | hunclosed
  · rfl
  · have hne := hunclosed.trimEnd.ne_nil
    have hne' := hunclosed.ne_nil
    rw [List.isEmpty_eq_false_iff.mpr hne, List.isEmpty_eq_false_iff.mpr hne']

/-- Plain text written over letters of a line keeps the pieces around them. -/
theorem Scanned.respell {front back : List Piece} {m m' : Text} (h : Scanned line (front ++ letters m ++ back) rest)
    (hne : m ≠ []) (hm : '`' ∉ m) (hm' : Plain m') :
    Scanned (textOf front ++ (m' ++ (textOf back ++ rest))) (front ++ letters m' ++ back) rest := by
  have hreads := h.reads
  rw [List.append_assoc] at hreads
  obtain ⟨hfront, hbehind⟩ := hreads.split
  rw [textOf_append, textOf_letters, List.append_assoc] at hfront hbehind
  obtain ⟨-, hback⟩ := hbehind.split
  rw [hfront.text_eq] at hfront
  exact ⟨hfront.respell hback hne hm hm', h.ends⟩

/-- Letters of a line with text written over them. -/
theorem Scanned.overwrites {front back : List Piece} {m : Text} (h : Scanned line (front ++ letters m ++ back) rest)
    (hm : '`' ∉ m) (m' : Text) : Overwrites line (textOf front) m' (textOf front ++ (m' ++ (textOf back ++ rest))) := by
  refine ⟨m, textOf back ++ rest, [], ?_, rfl, hm, .nil, Or.inl rfl⟩
  rw [h.text_eq]
  simp

theorem not_calendar {day : Option Day} {reminder : LineReminder} (h : parseLine line day = some reminder) :
    holds calendarMarker line = false := by
  by_contra hcalendar
  rw [Bool.not_eq_false] at hcalendar
  rw [parseLine, readLine, if_pos hcalendar] at h
  cases h

/-! ## A token put in -/

theorem insert_overwrites (h : Scanned line pieces rest) (token : Text) :
    Overwrites line (line.take (tokenPlace line))
      (gap (line.take (tokenPlace line)) ++ token ++ gap (trim (line.drop (tokenPlace line))))
      (insertBeforeTrailingComments line token) := by
  refine ⟨(line.drop (tokenPlace line)).takeWhile isWhitespace, trim (line.drop (tokenPlace line)),
    (trimStart (line.drop (tokenPlace line))).rtakeWhile isWhitespace, ?_, insert_eq token h,
    (blank_takeWhile _).not_mem (by decide), blank_rtakeWhile _, Or.inr (untrailed_trim _)⟩
  rw [trim, trimEnd_append_rtakeWhile, takeWhile_append_trimStart, List.take_append_drop]

/-- A token put in before the trailing comments leaves a comment open where the line does. -/
theorem insert_leavesOpen (h : Scanned line pieces rest) {token : Text} (hplain : Plain token) (hends : '>' ∉ token) :
    leavesOpen (insertBeforeTrailingComments line token) = leavesOpen line := by
  by_cases hopen : OpenPlace line
  · obtain ⟨front, back, rfl, hcut⟩ := hopen.cut h
    obtain ⟨-, back', -, -, -, hscanned⟩ := insert_scanned h hcut hplain
    exact h.leavesOpen_trimEnd hscanned
  · obtain ⟨front, piece, back, rfl, hhides, hstart, hstop⟩ := exists_piece_of_not_openPlace hopen h
    obtain ⟨piece', back', w', -, -, hscanned⟩ := insert_hidden h hhides hstart hstop hplain hends
    exact h.leavesOpen_trimEnd hscanned

theorem insert_keeps (line : Text) (due : Due) (homeDay : Option Day) :
    OneLine line (insertBeforeTrailingComments line (tokenText due homeDay)) ∧
      Steady line (insertBeforeTrailingComments line (tokenText due homeDay)) := by
  obtain ⟨pieces, rest, h⟩ := exists_scanned line
  have hover := insert_overwrites h (tokenText due homeDay)
  have hspelled := (spelled_tokenText due homeDay).gaps (line.take (tokenPlace line)) (trim (line.drop (tokenPlace line)))
  obtain ⟨t, ht⟩ := exists_tokenText due homeDay
  have hmark : Unmarked (gap (line.take (tokenPlace line)) ++ tokenText due homeDay ++
      gap (trim (line.drop (tokenPlace line)))) := by
    rw [ht]
    exact unmarked_gaps (by decide) (by decide) (by decide) _ _
  exact ⟨hover.oneLine hspelled, hover.steady hspelled hmark
    (insert_leavesOpen h (plain_tokenText due homeDay) (not_mem_tokenText (by decide) (by decide) _ _))⟩

/-! ## A token rewritten -/

theorem rewrite_keeps {due : Due} {homeDay : Option Day} (hrewrite : rewrite line due homeDay = some edited) :
    OneLine line edited ∧ Steady line edited := by
  obtain ⟨reminder, hparse, -⟩ := Option.map_eq_some_iff.mp hrewrite
  have hcalendar := not_calendar hparse
  obtain ⟨pieces, rest, h⟩ := exists_scanned line
  rcases quiet_or_live pieces with hquiet | ⟨front, inner, when_, back, hlive, hquiet⟩
  · rw [rewrite, parseLine_of_quiet h hcalendar hquiet, Option.map_map] at hrewrite
    obtain ⟨id, -, rfl⟩ := Option.map_eq_some_iff.mp hrewrite
    exact insert_keeps line due homeDay
  · rw [rewrite_eq h hcalendar hlive hquiet] at hrewrite
    obtain rfl := Option.some.inj hrewrite
    have hpieces := hlive.eq ▸ h
    have hover := hpieces.overwrites hlive.plain.ticks (tokenText due homeDay)
    have hscanned := hpieces.respell hlive.plain.ne_nil hlive.plain.ticks (plain_tokenText due homeDay)
    have hspelled := spelled_tokenText due homeDay
    obtain ⟨t, ht⟩ := exists_tokenText due homeDay
    have hmark : Unmarked (tokenText due homeDay) := ⟨0, '(', t, ht, by decide, by decide, by decide⟩
    exact ⟨hover.oneLine hspelled, hover.steady hspelled hmark (h.leavesOpen_eq hscanned)⟩

/-! ## An id put in -/

theorem addId_keeps {id : Text} (hadd : addId line id = some edited) : OneLine line edited ∧ Steady line edited := by
  obtain ⟨pieces, rest, h⟩ := exists_scanned line
  by_cases hrefused : holds calendarMarker line = true ∨ ¬isId id = true
  · rw [addId, if_pos hrefused] at hadd
    cases hadd
  · rw [not_or, Bool.not_eq_true, not_not] at hrefused
    obtain ⟨hcalendar, hid⟩ := hrefused
    have hnone : ((parseLine line none).any fun reminder => reminder.id.isSome) = false := by
      by_contra hsome
      rw [Bool.not_eq_false] at hsome
      rw [addId, if_neg (by simp [hcalendar, hid]), if_pos hsome] at hadd
      cases hadd
    obtain ⟨front, w, rfl, hw, hadded, hscanned⟩ := addId_scanned h hcalendar hid hnone
    rw [hadd] at hadded
    obtain rfl := Option.some.inj hadded
    have hover : Overwrites line (textOf front) (gap (textOf front) ++ idMarker id ++ gap (trimEnd rest))
        (textOf front ++ (textOf (idTail id front rest) ++ trimEnd rest)) := by
      refine ⟨w, trimEnd rest, rest.rtakeWhile isWhitespace, ?_, by rw [textOf_idTail]; simp,
        hw.not_mem (by decide), blank_rtakeWhile _, Or.inr (untrailed_trimEnd _)⟩
      rw [trimEnd_append_rtakeWhile, h.text_eq]
      simp
    have hspelled := (spelled_idMarker hid).gaps (textOf front) (trimEnd rest)
    have hmark : Unmarked (gap (textOf front) ++ idMarker id ++ gap (trimEnd rest)) := by
      obtain ⟨t, ht⟩ := (isComment_idMarker hid).1
      rw [← ht]
      exact unmarked_gaps (by decide) (by decide) (by decide) _ _
    exact ⟨hover.oneLine hspelled, hover.steady hspelled hmark (h.leavesOpen_trimEnd hscanned)⟩

theorem attach_keeps {due : Due} {id : Text} {homeDay : Option Day} (hattach : attach line due id homeDay = some edited) :
    OneLine line edited ∧ Steady line edited := by
  have hid : ∀ {middle : Text}, OneLine line middle ∧ Steady line middle →
      OneLine line ((addId middle id).getD middle) ∧ Steady line ((addId middle id).getD middle) := by
    rintro middle ⟨hone, hsteady⟩
    cases hadd : addId middle id with
    | none => exact ⟨hone, hsteady⟩
    | some added =>
      obtain ⟨hone', hsteady'⟩ := addId_keeps hadd
      exact ⟨hone.trans hone', hsteady.trans hsteady'⟩
  unfold attach at hattach
  split at hattach
  · cases hattach
  · obtain ⟨middle, hmiddle, rfl⟩ := Option.map_eq_some_iff.mp hattach
    cases hparse : parseLine line homeDay with
    | none =>
      rw [hparse] at hmiddle
      obtain rfl := Option.some.inj hmiddle
      exact hid (insert_keeps line due homeDay)
    | some reminder =>
      rw [hparse] at hmiddle
      exact hid (rewrite_keeps hmiddle)

/-! ## A box ticked or unticked -/

theorem tick_keeps {pre y : Text} {c d : Char} {task : Task} (hpre : Marked pre) (hc : boxTask c = some task)
    (hd : d = ' ' ∨ d = 'x') :
    OneLine (pre ++ '[' :: c :: ']' :: ' ' :: y)
        (replaceRange (pre ++ '[' :: c :: ']' :: ' ' :: y) ⟨pre.length + 1, pre.length + 1 + 1⟩ [d]) ∧
      Steady (pre ++ '[' :: c :: ']' :: ' ' :: y)
        (replaceRange (pre ++ '[' :: c :: ']' :: ' ' :: y) ⟨pre.length + 1, pre.length + 1 + 1⟩ [d]) := by
  have hedited : replaceRange (pre ++ '[' :: c :: ']' :: ' ' :: y) ⟨pre.length + 1, pre.length + 1 + 1⟩ [d] =
      pre ++ (['[', d, ']', ' '] ++ y) := by
    have hreplace := replaceRange_append (pre ++ ['[']) [c] (']' :: ' ' :: y) [d]
    simpa using hreplace
  have hsplit : pre ++ '[' :: c :: ']' :: ' ' :: y = (pre ++ ['[', c, ']', ' ']) ++ y := by simp
  have hmarks : ∀ e, (e = ' ' ∨ e = 'x' ∨ e = 'X') → '`' ∉ pre ++ ['[', e, ']', ' '] ∧ '<' ∉ pre ++ ['[', e, ']', ' '] := by
    have hinert : ∀ e, Inert e → e ∉ pre := fun e he hmem => hpre.chars e hmem he
    rintro e (rfl | rfl | rfl)
    all_goals
      simp only [List.mem_append, not_or]
      exact ⟨⟨hinert _ ⟨by decide, by decide, by decide⟩, by decide⟩, hinert _ ⟨by decide, by decide, by decide⟩, by decide⟩
  have hc' := hmarks c (boxTask_eq_some hc)
  have hd' := hmarks d (by rcases hd with rfl | rfl <;> simp)
  obtain ⟨pieces, rest, h⟩ := exists_scanned (pre ++ '[' :: c :: ']' :: ' ' :: y)
  have hover : Overwrites (pre ++ '[' :: c :: ']' :: ' ' :: y) pre ['[', d, ']', ' '] (pre ++ (['[', d, ']', ' '] ++ y)) :=
    ⟨['[', c, ']', ' '], y, [], by simp, rfl, fun hmem => hc'.1 (List.mem_append_right _ hmem), .nil, Or.inl rfl⟩
  have hspelled : Spelled ['[', d, ']', ' '] := by
    rcases hd with rfl | rfl
    · exact .of_mem (c := '[') (by simp) (by decide) (by decide) (by decide) (by decide)
    · exact .of_mem (c := '[') (by simp) (by decide) (by decide) (by decide) (by decide)
  have hopens : leavesOpen (pre ++ (['[', d, ']', ' '] ++ y)) = leavesOpen (pre ++ '[' :: c :: ']' :: ' ' :: y) := by
    have hline := h
    rw [hsplit] at hline
    obtain ⟨back, rfl, hback⟩ := hline.drop_letters hc'
    have hreads := (reads_letters hd'.1 hd'.2 y).append hback.reads
    rw [List.append_assoc] at hreads
    exact h.leavesOpen_eq ⟨hreads, h.ends⟩
  rw [hedited]
  exact ⟨hover.oneLine hspelled, hover.steady hspelled ⟨0, '[', [d, ']', ' '], rfl, by decide, by decide, by decide⟩ hopens⟩

/-! ## A token struck or unstruck -/

theorem reminder_of_live {front back : List Piece} {inner : Text} {when_ : When} (h : Scanned line pieces rest)
    (hcalendar : holds calendarMarker line = false) (hlive : Live pieces front inner when_ back) (hquiet : Quiet back)
    {reminder : LineReminder} (hparse : parseLine line none = some reminder) :
    reminder.token = some (tokenAt line (textOf front).length ((textOf front).length + 2 + inner.length + 1) when_) ∧
      reminder.task = (taskOf line).map Prod.fst := by
  rw [parseLine_of_live h hcalendar hlive hquiet] at hparse
  obtain rfl := Option.some.inj hparse
  exact ⟨rfl, rfl⟩

theorem state_of_quiet (h : Scanned line pieces rest) (hcalendar : holds calendarMarker line = false) (hquiet : Quiet pieces)
    {reminder : LineReminder} (hparse : parseLine line none = some reminder) : reminder.state = .dropped := by
  rw [parseLine_of_quiet h hcalendar hquiet] at hparse
  obtain ⟨id, -, rfl⟩ := Option.map_eq_some_iff.mp hparse
  rfl

/-- What stands between two strikes replaces them. -/
theorem unstrike_eq (u m v : Text) :
    replaceRange (u ++ (strike ++ (m ++ strike) ++ v)) ⟨u.length, u.length + (strike ++ (m ++ strike)).length⟩
        (slice (u ++ (strike ++ (m ++ strike) ++ v)) (u.length + strike.length)
          (u.length + (strike ++ (m ++ strike)).length - strike.length)) = u ++ (m ++ v) := by
  have hlength : u.length + (strike ++ (m ++ strike)).length - strike.length = (u ++ strike).length + m.length := by
    simp only [List.length_append]
    omega
  have hassoc : u ++ (strike ++ (m ++ strike) ++ v) = (u ++ strike) ++ (m ++ (strike ++ v)) := by simp
  have hslice : slice (u ++ (strike ++ (m ++ strike) ++ v)) (u.length + strike.length)
      (u.length + (strike ++ (m ++ strike)).length - strike.length) = m := by
    rw [hlength, ← List.length_append, hassoc, slice_append]
  rw [hslice, replaceRange_append]

/-- The strike goes from around a token with the pieces on both sides kept. -/
theorem unstrike_keeps {front back : List Piece} {inner u v : Text} {when_ : When} (h : Scanned line pieces rest)
    (hlive : Live pieces front inner when_ back) (hu : textOf front = u ++ strike) (hv : textOf back ++ rest = strike ++ v) :
    replaceRange line ⟨u.length, u.length + (strike ++ (tokenAround inner ++ strike)).length⟩
        (slice line (u.length + strike.length) (u.length + (strike ++ (tokenAround inner ++ strike)).length - strike.length)) =
      u ++ (tokenAround inner ++ v) ∧
    OneLine line (u ++ (tokenAround inner ++ v)) ∧ Steady line (u ++ (tokenAround inner ++ v)) := by
  have hstrike : '`' ∉ strike ∧ '>' ∉ strike ∧ '<' ∉ strike := by decide
  have hplain := hlive.plain
  have hline : line = u ++ (strike ++ (tokenAround inner ++ strike) ++ v) := by
    rw [hlive.text_eq h, hu, hv]
    simp
  refine ⟨by rw [hline, unstrike_eq], ?_⟩
  have hhidden : '`' ∉ strike ++ (tokenAround inner ++ strike) := by
    simp only [List.mem_append, not_or]
    exact ⟨hstrike.1, hplain.ticks, hstrike.1⟩
  have hover : Overwrites line u (tokenAround inner) (u ++ (tokenAround inner ++ v)) :=
    ⟨_, v, [], by rw [List.append_nil]; exact hline, rfl, hhidden, .nil, Or.inl rfl⟩
  have hspelled := spelled_tokenAround hlive.reads
  -- the letters of both strikes are pieces of their own
  have hreads := h.reads
  rw [hlive.eq, List.append_assoc] at hreads
  obtain ⟨hfront, hbehind⟩ := hreads.split
  obtain ⟨front₀, rfl, hfront₀⟩ := exists_letters_at_end hfront.sound hu ⟨hstrike.1, hstrike.2.1⟩
  rw [textOf_append, textOf_letters, List.append_assoc] at hbehind
  have hback : Scanned (textOf back ++ rest) back rest := ⟨hbehind.split.2, h.ends⟩
  rw [hv] at hback
  obtain ⟨back₀, rfl, hback₀⟩ := hback.drop_letters ⟨hstrike.1, hstrike.2.2⟩
  have hpieces : Scanned line (front₀ ++ letters (strike ++ (tokenAround inner ++ strike)) ++ back₀) rest := by
    have heq := hlive.eq
    rw [show front₀ ++ letters strike ++ letters (tokenAround inner) ++ (letters strike ++ back₀) =
      front₀ ++ letters (strike ++ (tokenAround inner ++ strike)) ++ back₀ by simp [letters_append]] at heq
    exact heq ▸ h
  have hscanned := hpieces.respell (by simp [strike]) hhidden hplain
  rw [hfront₀, ← hback₀.text_eq] at hscanned
  exact ⟨hover.oneLine hspelled,
    hover.steady hspelled ⟨0, '(', _, rfl, by decide, by decide, by decide⟩ (h.leavesOpen_eq hscanned)⟩

/-- A ticked box is unticked. -/
def untick (line : Text) : Text :=
  match taskOf line with
  | some (.done, mark) => replaceRange line ⟨mark, mark + 1⟩ [' ']
  | _ => line

theorem untick_keeps {middle : Text} (h : OneLine line middle ∧ Steady line middle) :
    OneLine line (untick middle) ∧ Steady line (untick middle) := by
  obtain ⟨hone, hsteady⟩ := h
  unfold untick
  split
  · rename_i mark hdone
    obtain ⟨pre, c, y, rfl, hpre, hc, rfl⟩ := taskOf_eq_some.mp hdone
    obtain ⟨hone', hsteady'⟩ := tick_keeps (y := y) hpre hc (Or.inl rfl)
    exact ⟨hone.trans hone', hsteady.trans hsteady'⟩
  · exact ⟨hone, hsteady⟩

theorem reopen_keeps (hreopen : reopen line = some edited) : OneLine line edited ∧ Steady line edited := by
  obtain ⟨reminder, hparse, hreopen⟩ := Option.bind_eq_some_iff.mp hreopen
  have hcalendar := not_calendar hparse
  split at hreopen
  · cases hreopen
  · rename_i hstate
    obtain ⟨token, htoken, rfl⟩ := Option.map_eq_some_iff.mp hreopen
    obtain ⟨pieces, rest, h⟩ := exists_scanned line
    rcases quiet_or_live pieces with hquiet | ⟨front, inner, when_, back, hlive, hquiet⟩
    · rw [state_of_quiet h hcalendar hquiet hparse] at hstate
      exact absurd (fun hsame => by cases hsame) hstate
    · rw [(reminder_of_live h hcalendar hlive hquiet hparse).1] at htoken
      obtain rfl := Option.some.inj htoken
      -- the box is unticked last
      rcases token_cases h hlive with ⟨u, v, hu, hv, htoken⟩ | ⟨-, htoken⟩
      · rw [htoken]
        obtain ⟨hunstruck, hkeeps⟩ := unstrike_keeps h hlive hu hv
        dsimp only
        rw [if_pos rfl, hunstruck]
        exact untick_keeps hkeeps
      · rw [htoken]
        dsimp only
        rw [if_neg (by decide)]
        exact untick_keeps ⟨.refl line, .refl line⟩

/-- The text before a token to close is up to three spaces and some tildes, which the strike goes on with. -/
def StrikesIntoFence (line : Text) : Prop :=
  taskOf line = none ∧ ∃ token, (parseLine line none).bind LineReminder.token = some token ∧ token.struck = false ∧
    ∃ k j, k ≤ 3 ∧ 0 < j ∧ line.take token.range.start = runLine k j '~' []

/-- A strike opens a fence just where it goes on with tildes at the start of the line. -/
theorem strike_opens_iff {u m v : Text} (hm : m.head? = some '(') (hline : opensFence (u ++ (m ++ v)) = none) :
    (opensFence (u ++ (strike ++ (m ++ strike) ++ v))).isSome = true ↔
      ∃ k j, k ≤ 3 ∧ 0 < j ∧ u = runLine k j '~' [] := by
  constructor
  · intro hopens
    obtain ⟨k, n, c, rest, hopener, hhead⟩ := exists_opener hopens
    have hrun := hopener.run
    obtain ⟨m, rfl⟩ : ∃ t, m = '(' :: t := by
      cases m with
      | nil => cases hm
      | cons d t => exact ⟨t, by rw [Option.some.inj hm]⟩
    have hstrike : strike = ['~', '~'] := by decide
    rcases runLine_cut hopener.eq with ⟨more, rfl, rfl⟩ | ⟨j, i, hcount, rfl, hx⟩ | ⟨j, i, -, -, hx⟩
    · have hopened : OpenerOf (runLine k n c more ++ ('(' :: m ++ v)) k n c (more ++ ('(' :: m ++ v)) := by
        refine ⟨by simp [runLine], hopener.indent, hopener.mark, hrun, fun hc hmem => hopener.ticks hc ?_⟩
        simp only [List.mem_append] at hmem ⊢
        tauto
      have hsome := hopened.isSome
      rw [hline] at hsome
      cases hsome
    · rw [hstrike] at hx
      obtain ⟨rfl, hx⟩ : '~' = c ∧ '~' :: ('(' :: m ++ ['~', '~'] ++ v) = List.replicate i c ++ rest := by
        simpa [List.replicate_succ] using hx
      have hle : i ≤ 1 := by
        by_contra hlong
        obtain ⟨i, rfl⟩ : ∃ i', i = i' + 2 := ⟨i - 2, by omega⟩
        simp [List.replicate_succ] at hx
      exact ⟨k, j, hopener.indent, by omega, rfl⟩
    · rw [hstrike, runLine, List.replicate_succ] at hx
      simp at hx
  · rintro ⟨k, j, hk, hj, rfl⟩
    have hopener : OpenerOf (runLine k j '~' [] ++ (strike ++ (m ++ strike) ++ v)) k (j + 2) '~' (m ++ (strike ++ v)) := by
      refine ⟨?_, hk, Or.inr rfl, by omega, fun hc => absurd hc (by decide)⟩
      rw [runLine, runLine, List.replicate_add]
      simp [strike]
    exact hopener.isSome

/-- What closing a line is: a box that is ticked, or in prose its last token that counts struck. -/
theorem close_cases (hclose : close line = some edited) :
    ∃ pieces rest front inner when_ back, Scanned line pieces rest ∧ holds calendarMarker line = false ∧
      Live pieces front inner when_ back ∧ Quiet back ∧
      ¬(strike <:+ textOf front ∧ strike <+: textOf back ++ rest) ∧
      ((∃ pre y, line = pre ++ '[' :: ' ' :: ']' :: ' ' :: y ∧ Marked pre ∧ edited = pre ++ '[' :: 'x' :: ']' :: ' ' :: y) ∨
        taskOf line = none ∧
          edited = textOf front ++ (strike ++ (tokenAround inner ++ strike) ++ (textOf back ++ rest))) := by
  obtain ⟨reminder, hparse, hclose⟩ := Option.bind_eq_some_iff.mp hclose
  have hcalendar := not_calendar hparse
  split at hclose
  · cases hclose
  rename_i hopen
  rw [not_not] at hopen
  obtain ⟨pieces, rest, h⟩ := exists_scanned line
  rcases quiet_or_live pieces with hquiet | ⟨front, inner, when_, back, hlive, hquiet⟩
  · rw [state_of_quiet h hcalendar hquiet hparse] at hopen
    cases hopen
  obtain ⟨htoken, htask⟩ := reminder_of_live h hcalendar hlive hquiet hparse
  have hstate : (tokenAt line (textOf front).length ((textOf front).length + 2 + inner.length + 1) when_).struck = false ∧
      (taskOf line).map Prod.fst ≠ some .done := by
    rw [LineReminder.state, htoken, htask] at hopen
    dsimp only at hopen
    split at hopen
    · cases hopen
    · rename_i hneither
      rw [not_or, Bool.not_eq_true] at hneither
      exact hneither
  rcases token_cases h hlive with ⟨u, v, -, -, hstruck⟩ | ⟨hbare, hat⟩
  · rw [hstruck] at hstate
    cases hstate.1
  refine ⟨pieces, rest, front, inner, when_, back, h, hcalendar, hlive, hquiet, hbare, ?_⟩
  split at hclose
  · rename_i mark hbox
    obtain rfl := Option.some.inj hclose
    obtain ⟨pre, c, y, rfl, hpre, hc, rfl⟩ := taskOf_eq_some.mp hbox
    have hspace : c = ' ' := by
      rcases boxTask_eq_some hc with rfl | rfl | rfl
      · rfl
      · cases hc
      · cases hc
    subst hspace
    refine Or.inl ⟨pre, y, rfl, hpre, ?_⟩
    have hreplace := replaceRange_append (pre ++ ['[']) [' '] (']' :: ' ' :: y) ['x']
    simpa using hreplace
  · rename_i hbox
    have htask : taskOf line = none := by
      cases hbox' : taskOf line with
      | none => rfl
      | some found =>
        obtain ⟨task, mark⟩ := found
        rw [hbox'] at hbox hstate
        cases task with
        | open_ => exact absurd rfl (hbox mark)
        | done => exact absurd rfl hstate.2
    refine Or.inr ⟨htask, ?_⟩
    rw [htoken, hat] at hclose
    have hline := hlive.text_eq h
    have hslice : slice line (textOf front).length ((textOf front).length + (tokenAround inner).length) =
        tokenAround inner := by
      rw [hline, slice_append]
    obtain rfl := Option.some.inj hclose
    dsimp only
    rw [hslice, hline, replaceRange_append]
    simp

/-- A struck token is plain text. -/
theorem plain_struck {inner : Text} {when_ : When} (h : parseWhen inner = some when_) :
    Plain (strike ++ (tokenAround inner ++ strike)) := by
  have hplain := plain_tokenAround h
  refine ⟨by simp [strike], ?_, ?_, ?_⟩
  · simp only [List.mem_append, not_or]
    exact ⟨by decide, hplain.ticks, by decide⟩
  · simp only [List.mem_append, not_or]
    exact ⟨by decide, hplain.opens, by decide⟩
  · intro c hc
    obtain rfl : '~' = c := by simpa [strike] using hc
    decide

/-- Closing a line does nothing to the note below it, but for a strike that goes on with tildes. -/
theorem close_shape (hclose : close line = some edited) :
    OneLine line edited ∧ isFrontMatterEnd edited = false ∧ leavesOpen edited = leavesOpen line ∧
      (opensFence line = none → ((opensFence edited).isSome = true ↔ StrikesIntoFence line)) := by
  obtain ⟨pieces, rest, front, inner, when_, back, h, hcalendar, hlive, hquiet, hbare, hshape⟩ := close_cases hclose
  rcases hshape with ⟨pre, y, rfl, hpre, rfl⟩ | ⟨htask, rfl⟩
  · -- a task: the box is ticked
    have hbox : taskOf (pre ++ '[' :: ' ' :: ']' :: ' ' :: y) = some (.open_, pre.length + 1) :=
      taskOf_eq_some.mpr ⟨pre, ' ', y, rfl, hpre, rfl, rfl⟩
    have hnone : ¬StrikesIntoFence (pre ++ '[' :: ' ' :: ']' :: ' ' :: y) := fun hstrikes => by
      rw [hstrikes.1] at hbox
      cases hbox
    obtain ⟨hone, hsteady⟩ := tick_keeps (y := y) hpre (show boxTask ' ' = some .open_ from rfl) (Or.inr rfl)
    have hreplace := replaceRange_append (pre ++ ['[']) [' '] (']' :: ' ' :: y) ['x']
    rw [show replaceRange (pre ++ '[' :: ' ' :: ']' :: ' ' :: y) ⟨pre.length + 1, pre.length + 1 + 1⟩ ['x'] =
      pre ++ '[' :: 'x' :: ']' :: ' ' :: y by simpa using hreplace] at hone hsteady
    have hrule : isFrontMatterEnd (pre ++ '[' :: ' ' :: ']' :: ' ' :: y) = false :=
      (Spelled.of_mem (c := '[') (by simp) (by decide) (by decide) (by decide) (by decide) :
        Spelled ['[']).isFrontMatterEnd pre (' ' :: ']' :: ' ' :: y)
    refine ⟨hone, hsteady.front hrule, hsteady.opens, fun hline => iff_of_false ?_ hnone⟩
    rw [hsteady.fence hline]
    exact Bool.false_ne_true
  · -- prose: the token is struck
    have hline := hlive.text_eq h
    have hplain := hlive.plain
    have hpieces := hlive.eq ▸ h
    have hinner := spelled_tokenAround hlive.reads
    have hspelled : Spelled (strike ++ (tokenAround inner ++ strike)) := by
      obtain ⟨c, hc, hrule⟩ := hinner.rule
      refine ⟨?_, ?_, c, by simp [hc], hrule⟩
      · simp only [List.mem_append, not_or]
        exact ⟨by decide, hinner.newline, by decide⟩
      · simp only [List.mem_append, not_or]
        exact ⟨by decide, hinner.return_, by decide⟩
    have hover := hpieces.overwrites hplain.ticks (strike ++ (tokenAround inner ++ strike))
    have hscanned := hpieces.respell hplain.ne_nil hplain.ticks (plain_struck hlive.reads)
    refine ⟨hover.oneLine hspelled, hspelled.isFrontMatterEnd _ _, h.leavesOpen_eq hscanned, fun hfence => ?_⟩
    have hparse := parseLine_of_live h hcalendar hlive hquiet none
    rcases token_cases h hlive with ⟨u, v, hu, hv, -⟩ | ⟨-, hat⟩
    · exact absurd ⟨⟨u, hu.symm⟩, ⟨v, hv.symm⟩⟩ hbare
    rw [hline] at hfence
    rw [strike_opens_iff (by simp [tokenAround, tokenOpen]) hfence]
    have htake : line.take (textOf front).length = textOf front := by
      rw [hline]
      exact List.take_left
    constructor
    · rintro ⟨k, j, hk, hj, hu⟩
      refine ⟨htask, ⟨⟨(textOf front).length, (textOf front).length + (tokenAround inner).length⟩, when_, false⟩, ?_, rfl,
        k, j, hk, hj, ?_⟩
      · rw [hparse, Option.bind_some, hat]
      · dsimp only
        rw [htake, hu]
    · rintro ⟨-, token, hbind, -, k, j, hk, hj, hu⟩
      rw [hparse, Option.bind_some, hat] at hbind
      obtain rfl := Option.some.inj hbind
      dsimp only at hu
      exact ⟨k, j, hk, hj, by rw [← htake, hu]⟩

/-! ## A token taken out -/

/-- The texts on both sides of a token that is taken out make a fence opener together. -/
def FormsFence (sides : Text × Text) : Prop :=
  ∃ k j i c rest, k ≤ 3 ∧ sides.1 = runLine k j c [] ∧ sides.2 = List.replicate i c ++ rest ∧ (c = '`' ∨ c = '~') ∧
    3 ≤ j + i ∧ (c = '`' → '`' ∉ rest)

/-- The texts on both sides of a token make nothing together that the note below it is read by. -/
structure Harmless (line : Text) (sides : Text × Text) : Prop where
  fence : ¬FormsFence sides
  front : sides.1 ++ sides.2 ≠ ['-', '-', '-'] ∧ sides.1 ++ sides.2 ≠ ['.', '.', '.']
  opens : Seamless sides ∨ leavesOpen (sides.1 ++ sides.2) = leavesOpen line

theorem formsFence_iff {u g v : Text} (hg : '`' ∉ g) (hline : opensFence (u ++ (g ++ v)) = none)
    (hspaces : ∀ j, u = List.replicate j ' ' → v.head? ≠ some ' ') :
    (opensFence (u ++ v)).isSome = true ↔ FormsFence (u, v) := by
  constructor
  · intro hopens
    obtain ⟨k, n, c, rest, hopener, -⟩ := exists_opener hopens
    have hrun := hopener.run
    rcases runLine_cut hopener.eq with ⟨more, rfl, rfl⟩ | ⟨j, i, hcount, rfl, hv⟩ | ⟨j, i, -, hu, hv⟩
    · have hopened : OpenerOf (runLine k n c more ++ (g ++ v)) k n c (more ++ (g ++ v)) := by
        refine ⟨by simp [runLine], hopener.indent, hopener.mark, hrun, fun hc hmem => hopener.ticks hc ?_⟩
        simp only [List.mem_append] at hmem ⊢
        tauto
      have hsome := hopened.isSome
      rw [hline] at hsome
      cases hsome
    · exact ⟨k, j, i + 1, c, rest, hopener.indent, rfl, hv, hopener.mark, by omega, hopener.ticks⟩
    · refine absurd ?_ (hspaces j hu)
      rw [hv]
      rfl
  · rintro ⟨k, j, i, c, rest, hk, hu, hv, hc, hrun, hticks⟩
    dsimp only at hu hv
    have hopener : OpenerOf (u ++ v) k (j + i) c rest := by
      refine ⟨?_, hk, hc, hrun, hticks⟩
      rw [hu, hv, runLine, runLine, List.append_nil, List.append_assoc, ← List.append_assoc (List.replicate j c),
        List.replicate_append_replicate]
    exact hopener.isSome

/-- Behind spaces alone no space is kept. -/
theorem kept_spaces {range : Span} {j : ℕ} (h : (kept line range).1 = List.replicate j ' ') :
    (kept line range).2.head? ≠ some ' ' := by
  unfold kept at h ⊢
  dsimp only at h ⊢
  split
  · simp
  · rename_i hbehind
    rw [if_neg hbehind] at h
    split
    · rename_i hhead
      intro hspace
      rw [hspace] at hhead
      exact hhead (by decide)
    · rename_i hhead
      rw [if_neg hhead] at h
      split
      · intro hspace
        exact absurd (unindented_trimStart _ ' ' hspace) (by decide)
      · rename_i hbefore
        rw [if_neg hbefore] at h
        dsimp only at h
        rw [h, not_or] at hbefore
        cases j with
        | zero => exact absurd rfl hbefore.1
        | succ j => exact absurd (by simp [List.getLast?_replicate, isWhitespace]) hbefore.2

theorem removeRange_oneLine (line : Text) (range : Span) : OneLine line (removeRange line range) := by
  have hmem : ∀ c ∈ removeRange line range, c ∈ line := by
    intro c hc
    have hbefore : c ∈ trimEnd (line.take range.start) → c ∈ line := fun h =>
      List.mem_of_mem_take ((trimEnd_isPrefix _).subset h)
    have hbehind : c ∈ trimStart (line.drop range.stop) → c ∈ line := fun h =>
      List.mem_of_mem_drop ((List.dropWhile_suffix _).subset h)
    unfold removeRange at hc
    dsimp only at hc
    split at hc
    · exact hbefore hc
    · split at hc
      · exact (List.mem_append.mp hc).elim hbefore List.mem_of_mem_drop
      · split at hc
        · exact (List.mem_append.mp hc).elim List.mem_of_mem_take hbehind
        · exact (List.mem_append.mp hc).elim List.mem_of_mem_take List.mem_of_mem_drop
  refine ⟨fun hline hmem' => hline (hmem _ hmem'), fun hlast => ?_⟩
  unfold removeRange at hlast
  dsimp only at hlast
  split at hlast
  · exact absurd (untrailed_trimEnd _ _ hlast) (by decide)
  · rename_i hblank
    have hnot : ¬Blank (line.drop range.stop) := by
      intro h
      rw [← List.append_nil (line.drop range.stop), trim_append_of_blank_left h] at hblank
      exact hblank rfl
    have hne : line.drop range.stop ≠ [] := fun h => hnot (by rw [h]; exact .nil)
    have hne' : trimStart (line.drop range.stop) ≠ [] := fun h => hnot (blank_iff_trimStart.mpr h)
    have hdrop : (line.drop range.stop).getLast? = some '\r' → line.getLast? = some '\r' := by
      intro h
      rw [← List.take_append_drop range.stop line, List.getLast?_append_of_ne_nil _ hne, h]
    have hstart : (trimStart (line.drop range.stop)).getLast? = some '\r' → line.getLast? = some '\r' := by
      intro h
      refine hdrop ?_
      rw [← takeWhile_append_trimStart (line.drop range.stop), List.getLast?_append_of_ne_nil _ hne', h]
    split at hlast
    · exact hdrop (by rwa [List.getLast?_append_of_ne_nil _ hne] at hlast)
    · split at hlast
      · exact hstart (by rwa [List.getLast?_append_of_ne_nil _ hne'] at hlast)
      · exact hdrop (by rwa [List.getLast?_append_of_ne_nil _ hne] at hlast)

/-- The token a dropped line lost stood between the texts kept, with plain text between them. -/
theorem dropToken_shape (hdrop : dropToken line = some edited) :
    ∃ token, (parseLine line none).bind LineReminder.token = some token ∧ edited = removeRange line token.range ∧
      (∃ g, '`' ∉ g ∧ line = (kept line token.range).1 ++ (g ++ (kept line token.range).2)) ∧
      (Seamless (kept line token.range) → leavesOpen edited = leavesOpen line) := by
  obtain ⟨reminder, hparse, hdrop⟩ := Option.bind_eq_some_iff.mp hdrop
  obtain ⟨token, htoken, rfl⟩ := Option.map_eq_some_iff.mp hdrop
  have hcalendar := not_calendar hparse
  obtain ⟨pieces, rest, h⟩ := exists_scanned line
  rcases quiet_or_live pieces with hquiet | ⟨front, inner, when_, back, hlive, hquiet⟩
  · have hstate := state_of_quiet h hcalendar hquiet hparse
    rw [LineReminder.state, htoken] at hstate
    dsimp only at hstate
    split at hstate <;> cases hstate
  · refine ⟨token, by rw [hparse, Option.bind_some, htoken], rfl, ?_⟩
    rw [(reminder_of_live h hcalendar hlive hquiet hparse).1] at htoken
    obtain rfl := Option.some.inj htoken
    obtain ⟨front₀, m, back₀, rfl, hm, hrange, -⟩ := token_letters h hlive
    have hline : line = textOf front₀ ++ (m ++ (textOf back₀ ++ rest)) := by
      rw [h.text_eq]
      simp
    rw [hrange]
    constructor
    · obtain ⟨w, w', hw, hw', hu, hv⟩ := kept_spec (textOf front₀) m (textOf back₀ ++ rest)
      rw [← hline] at hu hv
      refine ⟨w ++ (m ++ w'), ?_, ?_⟩
      · simp only [List.mem_append, not_or]
        exact ⟨hw.not_mem (by decide), hm.ticks, hw'.not_mem (by decide)⟩
      · conv_lhs => rw [hline, hu, hv]
        simp
    · intro hseam
      obtain ⟨front', w, w', back', -, -, -, -, -, hscanned⟩ := removed_scanned h hm hseam
      exact h.leavesOpen_eq hscanned

/-- A removal does nothing to the note below the line just where the two sides make nothing together. -/
theorem dropToken_steady_iff (hdrop : dropToken line = some edited) (hline : opensFence line = none) :
    (opensFence edited = none ∧ isFrontMatterEnd edited = false ∧ leavesOpen edited = leavesOpen line) ↔
      ∀ token, (parseLine line none).bind LineReminder.token = some token → Harmless line (kept line token.range) := by
  obtain ⟨token, htoken, rfl, ⟨g, hg, hsides⟩, hseam⟩ := dropToken_shape hdrop
  have hfence := formsFence_iff (u := (kept line token.range).1) (v := (kept line token.range).2) hg
    (by rw [← hsides]; exact hline) fun j => kept_spaces
  rw [removeRange_eq] at hseam ⊢
  have hrule : isFrontMatterEnd ((kept line token.range).1 ++ (kept line token.range).2) = false ↔
      (kept line token.range).1 ++ (kept line token.range).2 ≠ ['-', '-', '-'] ∧
        (kept line token.range).1 ++ (kept line token.range).2 ≠ ['.', '.', '.'] := by
    simp [isFrontMatterEnd]
  constructor
  · rintro ⟨hnone, hfront, hopens⟩ other hother
    rw [htoken] at hother
    obtain rfl := Option.some.inj hother
    refine ⟨fun hforms => ?_, hrule.mp hfront, Or.inr hopens⟩
    have hsome := hfence.mpr hforms
    rw [hnone] at hsome
    cases hsome
  · intro hharmless
    obtain ⟨hforms, hfront, hopens⟩ := hharmless token htoken
    refine ⟨?_, hrule.mpr hfront, hopens.elim hseam id⟩
    rw [← Option.not_isSome_iff_eq_none]
    exact fun hsome => hforms (hfence.mp hsome)

end Line

end Thock.SyncCore.Reminder
