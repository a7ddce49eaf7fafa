import Thock.SyncCore.HomeEdits

/-!
# An attached reminder reads back

What `attach` writes is read back as the reminder it was given, on every line but two kinds: a
line whose trailing comments seem to start inside a code span or a comment, where the token goes
and hides, and a line that is a checkbox with no space behind it, which the token's space completes.
-/

namespace Thock.SyncCore.Reminder

open TextScan

/-- What `attach` promises of the line it returns. -/
def Attaches (line : Text) (due : Due) (id : Text) (homeDay : Option Day) : Prop :=
  ∀ attached, attach line due id homeDay = some attached →
    ∃ reminder, parseLine attached homeDay = some reminder ∧ reminder.due = some due ∧
      reminder.id = some (((parseLine line homeDay).bind LineReminder.id).getD id) ∧
      reminder.task = (taskOf line).map Prod.fst

/-- The place where a token goes lies inside no code span and no comment. -/
def OpenPlace (line : Text) : Prop :=
  ∀ span ∈ (scanInline line false).excluded, ¬(span.start < tokenPlace line ∧ tokenPlace line < span.stop)

/-- A box that lacks the space behind it until a token follows. -/
def BareCheckbox (line : Text) : Prop :=
  taskOf line = none ∧ (taskOf (line.take (tokenPlace line) ++ [' '])).isSome = true

/-- Whether a line carries a token that counts. -/
def hasToken (line : Text) : Bool := ((parseLine line none).bind LineReminder.token).isSome

/-! ## Tokens and pieces put together -/

theorem quiet_of_not_mem {pieces : List Piece} (h : Piece.words ['('] ∉ pieces) : Quiet pieces := by
  intro front inner when_ back hlive
  apply h
  rw [hlive.eq]
  simp [tokenAround, tokenOpen, letters]

/-- Pieces without parentheses behind quiet ones leave them quiet. -/
theorem Quiet.append_of_not_mem {u v : List Piece} (hu : Quiet u) (hopen : Piece.words ['('] ∉ v)
    (hclose : Piece.words [')'] ∉ v) : Quiet (u ++ v) := by
  refine hu.append (quiet_of_not_mem hopen) ?_
  rintro front t₁ t₂ inner when_ back - - h₂ htoken - rfl
  rcases List.eq_nil_or_concat t₂ with rfl | ⟨t, d, rfl⟩
  · exact h₂ rfl
  · rw [List.concat_eq_append] at htoken hclose
    have hlast := congrArg List.getLast? htoken
    rw [← List.append_assoc, List.getLast?_concat, tokenAround, List.getLast?_concat] at hlast
    obtain rfl := Option.some.inj hlast
    exact hclose (by simp [letters])

/-- Pieces without parentheses before quiet ones leave them quiet. -/
theorem Quiet.prepend_of_not_mem {u v : List Piece} (hv : Quiet v) (hopen : Piece.words ['('] ∉ u) : Quiet (u ++ v) := by
  intro front inner when_ back hlive
  rcases hlive.cut with ⟨x, hleft, -⟩ | ⟨t₁, t₂, h₁, -, htoken, hu, -⟩ | ⟨x, -, hright⟩
  · exact quiet_of_not_mem hopen _ _ _ _ hleft
  · obtain ⟨d, t₁, rfl⟩ := List.exists_cons_of_ne_nil h₁
    obtain rfl : '(' = d := by simpa [tokenAround, tokenOpen] using congrArg List.head? htoken
    exact hopen (by rw [hu]; simp [letters])
  · exact hv _ _ _ _ hright

theorem words_not_mem_letters {c : Char} {t : Text} (h : c ∉ t) : Piece.words [c] ∉ letters t := by
  intro hmem
  obtain ⟨d, hd, heq⟩ := List.mem_map.mp hmem
  obtain rfl : d = c := by simpa using heq
  exact h hd

/-- White space at the end of pieces with a token stands behind the token. -/
theorem behind_of_blank {front back front' : List Piece} {inner w : Text}
    (h : front ++ letters (tokenAround inner) ++ back = front' ++ letters w) (hw : Blank w) :
    ∃ back', front' = front ++ letters (tokenAround inner) ++ back' ∧ back = back' ++ letters w := by
  rcases List.append_eq_append_iff.mp h with ⟨x, hfront, hback⟩ | ⟨x, hfront, hback⟩
  · exact ⟨x, hfront, hback⟩
  · rcases List.eq_nil_or_concat x with rfl | ⟨y, piece, rfl⟩
    · rw [List.append_nil] at hfront
      exact ⟨[], by rw [hfront, List.append_nil], hback.symm⟩
    · rw [List.concat_eq_append] at hfront hback
      have hlast := congrArg List.getLast? hfront
      rw [tokenAround, letters_append, ← List.append_assoc, ← List.append_assoc, List.getLast?_concat] at hlast
      have hpiece : Piece.words [')'] = piece := by simpa [letters] using hlast
      refine absurd ?_ (words_not_mem_letters (hw.not_mem (c := ')') (by decide)))
      rw [hback, hpiece]
      simp

theorem not_mem_idTail {c : Char} (hc : isWhitespace c = false) (id : Text) (front : List Piece) (rest : Text) :
    Piece.words [c] ∉ idTail id front rest := by
  have hgap : ∀ t, Piece.words [c] ∉ letters (gap t) := fun t => words_not_mem_letters ((blank_gap t).not_mem hc)
  simp [idTail, hgap]

theorem lastId_idTail {id : Text} (hid : isId id = true) (front : List Piece) (rest : Text) :
    lastId (idTail id front rest) = some id := by
  simp [idTail, lastId_append, lastId, Piece.id, idInComment_idMarker hid]

/-! ## Calendar markers -/

theorem calendarMarker_of_token {inner : Text} {when_ : When} (h : parseWhen inner = some when_) (a b : Text) :
    calendarMarker <:+: a ++ (tokenAround inner ++ b) ↔ calendarMarker <:+: a ∨ calendarMarker <:+: b := by
  have hinner : ¬calendarMarker <:+: '@' :: inner := by
    refine not_infix_of_not_mem (c := '<') (by decide) ?_
    rw [List.mem_cons, not_or]
    exact ⟨by decide, not_mem_of_parseWhen h (by decide)⟩
  have htext : a ++ (tokenAround inner ++ b) = a ++ '(' :: ('@' :: inner ++ ')' :: b) := by simp [tokenAround, tokenOpen]
  rw [htext, infix_sep (by decide), infix_sep (by decide)]
  simp [hinner]

theorem calendarMarker_gap (a b : Text) (ha : a ≠ []) :
    calendarMarker <:+: a ++ (gap a ++ b) ↔ calendarMarker <:+: a ∨ calendarMarker <:+: b := by
  rw [gap_of_ne_nil ha]
  exact infix_sep (by decide)

section Line
variable {line rest : Text} {pieces : List Piece}

/-- An id put in leaves a line that is no calendar line. -/
theorem calendar_addId {front : List Piece} {w id : Text} (h : Scanned line pieces rest)
    (hcalendar : holds calendarMarker line = false) (hid : isId id = true) (hpieces : pieces = front ++ letters w) :
    holds calendarMarker (textOf front ++ (textOf (idTail id front rest) ++ trimEnd rest)) = false := by
  rw [textOf_idTail, List.append_assoc, List.append_assoc]
  rw [holds_eq_false_iff] at hcalendar ⊢
  have hmarker : ¬calendarMarker <:+: idMarker id := by
    refine not_infix_of_not_mem (c := 'g') (by decide) ?_
    simp only [idMarker, List.mem_append, not_or]
    exact ⟨⟨by decide, not_mem_id hid (by decide)⟩, by decide⟩
  have htext := h.text_eq
  rw [hpieces, textOf_append, textOf_letters, List.append_assoc] at htext
  have hfront : ¬calendarMarker <:+: textOf front := fun hin =>
    hcalendar (hin.trans (by rw [htext]; exact (List.prefix_append _ _).isInfix))
  have htail : ¬calendarMarker <:+: trimEnd rest := fun hin =>
    hcalendar (hin.trans ((trimEnd_isPrefix rest).isInfix.trans (by
      rw [htext, ← List.append_assoc]; exact (List.suffix_append _ _).isInfix)))
  have hbehind : ¬calendarMarker <:+: idMarker id ++ (gap (trimEnd rest) ++ trimEnd rest) := by
    by_cases hnil : trimEnd rest = []
    · simpa [hnil, gap] using hmarker
    · rw [gap_of_ne_nil hnil, List.singleton_append, infix_sep (by decide)]
      simp [hmarker, htail]
  by_cases hnil : textOf front = []
  · simpa [hnil, gap] using hbehind
  · rw [calendarMarker_gap _ _ hnil]
    simp [hfront, hbehind]

/-! ## The id behind a token -/

/-- A line that carries a token carries it with its id, or the one given, once an id is added. -/
theorem reads_addId {front back : List Piece} {inner id : Text} {when_ : When} (h : Scanned line pieces rest)
    (hcalendar : holds calendarMarker line = false) (hid : isId id = true) (hlive : Live pieces front inner when_ back)
    (hquiet : Quiet back) (day : Option Day) :
    ∃ token, parseLine ((addId line id).getD line) day =
      some ⟨some ((lastId pieces).getD id), some token, (taskOf (textOf front)).map Prod.fst, when_.due day⟩ := by
  have hparse := parseLine_of_live h hcalendar hlive hquiet
  cases hlast : lastId pieces with
  | some earlier =>
    have hnone : addId line id = none := by
      unfold addId
      rw [hparse none]
      simp [hcalendar, hid, hlast]
    have htask : taskOf line = taskOf (textOf front) :=
      (congrArg taskOf (hlive.text_eq h)).trans (taskOf_append_paren _ _)
    rw [hnone, Option.getD_none, hparse day, hlast, htask]
    exact ⟨_, rfl⟩
  | none =>
    have hany : ((parseLine line none).any fun reminder => reminder.id.isSome) = false := by
      rw [hparse none]
      simp [hlast]
    obtain ⟨front', w, hpieces, hw, hadd, hscanned⟩ := addId_scanned h hcalendar hid hany
    have hcalendar' := calendar_addId h hcalendar hid hpieces
    rw [hlive.eq] at hpieces
    obtain ⟨back', rfl, rfl⟩ := behind_of_blank hpieces hw
    have hlive' : Live (front ++ letters (tokenAround inner) ++ back' ++
        idTail id (front ++ letters (tokenAround inner) ++ back') rest) front inner when_
        (back' ++ idTail id (front ++ letters (tokenAround inner) ++ back') rest) :=
      ⟨List.append_assoc _ _ _, hlive.free, hlive.reads⟩
    have hquiet' := hquiet.left.append_of_not_mem (not_mem_idTail (by decide) id _ rest)
      (not_mem_idTail (by decide) id (front ++ letters (tokenAround inner) ++ back') rest)
    have hid' : lastId (front ++ letters (tokenAround inner) ++ back' ++
        idTail id (front ++ letters (tokenAround inner) ++ back') rest) = some id := by
      rw [lastId_append, lastId_idTail hid]
      rfl
    have htask := (congrArg taskOf (hlive'.text_eq hscanned)).trans (taskOf_append_paren _ _)
    rw [hadd, Option.getD_some, parseLine_of_live hscanned hcalendar' hlive' hquiet', hid', htask]
    exact ⟨_, rfl⟩

/-- A line without a token has none once an id is added. -/
theorem quiet_addId {id : Text} (h : Scanned line pieces rest) (hcalendar : holds calendarMarker line = false)
    (hid : isId id = true) (hquiet : Quiet pieces) {day : Option Day} {reminder : LineReminder}
    (hparse : parseLine ((addId line id).getD line) day = some reminder) : reminder.due = none := by
  have hplain := parseLine_of_quiet h hcalendar hquiet
  cases hlast : lastId pieces with
  | some earlier =>
    have hnone : addId line id = none := by
      unfold addId
      rw [hplain none]
      simp [hcalendar, hid, hlast]
    rw [hnone, Option.getD_none, hplain day, hlast, Option.map_some] at hparse
    rw [← Option.some.inj hparse]
  | none =>
    have hany : ((parseLine line none).any fun reminder => reminder.id.isSome) = false := by
      rw [hplain none, hlast]
      rfl
    obtain ⟨front, w, hpieces, hw, hadd, hscanned⟩ := addId_scanned h hcalendar hid hany
    have hcalendar' := calendar_addId h hcalendar hid hpieces
    rw [hpieces] at hquiet
    have hquiet' := hquiet.left.append_of_not_mem (not_mem_idTail (by decide) id front rest)
      (not_mem_idTail (by decide) id front rest)
    rw [hadd, Option.getD_some, parseLine_of_quiet hscanned hcalendar' hquiet'] at hparse
    obtain ⟨_, -, rfl⟩ := Option.map_eq_some_iff.mp hparse
    rfl

/-! ## A line that has a token -/

theorem attach_of_live {front back : List Piece} {inner id : Text} {when_ : When} (h : Scanned line pieces rest)
    (hcalendar : holds calendarMarker line = false) (hid : isId id = true) (hlive : Live pieces front inner when_ back)
    (hquiet : Quiet back) (due : Due) (homeDay : Option Day) :
    attach line due id homeDay =
      some ((addId (textOf front ++ (tokenText due homeDay ++ (textOf back ++ rest))) id).getD
        (textOf front ++ (tokenText due homeDay ++ (textOf back ++ rest)))) := by
  unfold attach
  rw [parseLine_of_live h hcalendar hlive hquiet, hcalendar, hid]
  simp [rewrite_eq h hcalendar hlive hquiet]

/-- A token written over the last one is found in its place. -/
theorem attaches_of_live {front back : List Piece} {inner id : Text} {when_ : When} (h : Scanned line pieces rest)
    (hcalendar : holds calendarMarker line = false) (hid : isId id = true) (hlive : Live pieces front inner when_ back)
    (hquiet : Quiet back) {due : Due} (hyear : 0 ≤ due.date.year ∧ due.date.year ≤ 9999) (homeDay : Option Day) :
    Attaches line due id homeDay := by
  obtain ⟨inner', when', htext, hwhen, hdue⟩ := tokenText_reads hyear homeDay
  have hline := hlive.text_eq h
  have hcalendar' : holds calendarMarker (textOf front ++ (tokenAround inner' ++ (textOf back ++ rest))) = false := by
    rw [hline, holds_eq_false_iff, calendarMarker_of_token hlive.reads] at hcalendar
    rwa [holds_eq_false_iff, calendarMarker_of_token hwhen]
  have hreads := h.reads
  rw [hlive.eq, List.append_assoc] at hreads
  obtain ⟨hfront, hbehind⟩ := hreads.split
  rw [textOf_append, textOf_letters, List.append_assoc] at hfront hbehind
  obtain ⟨-, hback⟩ := hbehind.split
  rw [hfront.text_eq] at hfront
  have hrespelled := hfront.respell hback hlive.plain.ne_nil hlive.plain.ticks (plain_tokenAround hwhen)
  have hscanned : Scanned (textOf front ++ (tokenAround inner' ++ (textOf back ++ rest)))
      (front ++ letters (tokenAround inner') ++ back) rest := ⟨hrespelled, h.ends⟩
  have hlast : lastId (front ++ letters (tokenAround inner') ++ back) = lastId pieces := by
    rw [hlive.eq]
    simp [lastId_append]
  obtain ⟨token, hread⟩ := reads_addId hscanned hcalendar' hid ⟨rfl, hlive.free, hwhen⟩ hquiet homeDay
  intro attached hattached
  rw [attach_of_live h hcalendar hid hlive hquiet, htext, ← tokenAround] at hattached
  obtain rfl := Option.some.inj hattached
  refine ⟨_, hread, hdue, ?_, ?_⟩
  · rw [parseLine_of_live h hcalendar hlive hquiet, hlast]
    rfl
  · exact congrArg (Option.map Prod.fst) ((congrArg taskOf hline).trans (taskOf_append_paren _ _)).symm

/-! ## A line that has none -/

theorem attach_of_quiet {id : Text} (h : Scanned line pieces rest) (hcalendar : holds calendarMarker line = false)
    (hid : isId id = true) (hquiet : Quiet pieces) (due : Due) (homeDay : Option Day) :
    attach line due id homeDay =
      some ((addId (insertBeforeTrailingComments line (tokenText due homeDay)) id).getD
        (insertBeforeTrailingComments line (tokenText due homeDay))) := by
  have hparse := parseLine_of_quiet h hcalendar hquiet homeDay
  unfold attach rewrite
  rw [hparse, hcalendar, hid]
  cases lastId pieces <;> simp

/-- A token put in leaves a line that is no calendar line. -/
theorem calendar_insert {inner : Text} {when_ : When} (h : Scanned line pieces rest)
    (hcalendar : holds calendarMarker line = false) (hwhen : parseWhen inner = some when_) :
    holds calendarMarker (insertBeforeTrailingComments line (tokenAround inner)) = false := by
  rw [holds_eq_false_iff] at hcalendar ⊢
  have hhead : ¬calendarMarker <:+: line.take (tokenPlace line) := fun hin =>
    hcalendar (hin.trans (List.take_prefix _ _).isInfix)
  have hcomments : ¬calendarMarker <:+: trim (line.drop (tokenPlace line)) := fun hin =>
    hcalendar (hin.trans ((trim_isInfix _).trans (List.drop_suffix _ _).isInfix))
  have hnil : ¬calendarMarker <:+: [] := fun hin => absurd (List.infix_nil.mp hin) (by decide)
  have htext := insert_eq (tokenAround inner) h
  rw [htext, List.append_assoc, List.append_assoc, ← List.append_assoc, calendarMarker_of_token hwhen, not_or]
  constructor
  · unfold gap
    split
    · rwa [List.append_nil]
    · rw [infix_sep (by decide), not_or]
      exact ⟨hhead, hnil⟩
  · unfold gap
    split
    · rwa [List.nil_append]
    · rw [List.singleton_append, ← List.nil_append (' ' :: _), infix_sep (by decide), not_or]
      exact ⟨hnil, hcomments⟩

/-- A token put in before the trailing comments is found there, with the checkbox of what stands before it. -/
theorem reads_insert {front back : List Piece} {inner id : Text} {when_ : When} (h : Scanned line (front ++ back) rest)
    (hcalendar : holds calendarMarker line = false) (hid : isId id = true) (hquiet : Quiet (front ++ back))
    (hcut : textOf front = line.take (tokenPlace line)) (hwhen : parseWhen inner = some when_) (day : Option Day) :
    ∃ token, parseLine ((addId (insertBeforeTrailingComments line (tokenAround inner)) id).getD
        (insertBeforeTrailingComments line (tokenAround inner))) day =
      some ⟨some ((lastId (front ++ back)).getD id), some token,
        (taskOf (textOf front ++ gap (textOf front))).map Prod.fst, when_.due day⟩ := by
  have hcases := h.comments
  have hcalendar' := calendar_insert h hcalendar hwhen
  obtain ⟨w, back', w', rfl, htrim, hscanned⟩ := insert_scanned h hcut (plain_tokenAround hwhen)
  rw [htrim] at hcases
  have hback : Quiet back' := by
    intro x inner' when' behind hlive
    by_cases hx : textOf x = []
    · have htext := congrArg textOf hlive.eq
      rw [textOf_append, textOf_append, hx, textOf_letters, List.nil_append] at htext
      rw [htext] at hcases
      rcases hcases with hcases | ⟨more, hmore⟩
      · cases hcases
      · cases hmore
    · have hwhole := (hlive.append (letters w')).prepend (front ++ letters w) hx
      rw [show front ++ letters w ++ (back' ++ letters w') = front ++ (letters w ++ back' ++ letters w') by simp] at hwhole
      exact hquiet _ _ _ _ hwhole
  have hgap : '(' ∉ gap (textOf back' ++ trimEnd rest) := (blank_gap _).not_mem (by decide)
  have hbehind : Quiet (letters (gap (textOf back' ++ trimEnd rest)) ++ back') :=
    hback.prepend_of_not_mem (words_not_mem_letters hgap)
  have hlive : Live (front ++ letters (gap (textOf front) ++ tokenAround inner ++ gap (textOf back' ++ trimEnd rest)) ++ back')
      (front ++ letters (gap (textOf front))) inner when_ (letters (gap (textOf back' ++ trimEnd rest)) ++ back') := by
    refine ⟨by simp [letters_append], ?_, hwhen⟩
    rw [textOf_append, textOf_letters]
    by_cases hnil : textOf front = []
    · rw [hnil]
      decide
    · rw [gap_of_ne_nil hnil, List.getLast?_concat]
      decide
  have hlast : lastId (front ++ letters (gap (textOf front) ++ tokenAround inner ++ gap (textOf back' ++ trimEnd rest)) ++
      back') = lastId (front ++ (letters w ++ back' ++ letters w')) := by
    simp [lastId_append]
  obtain ⟨token, hread⟩ := reads_addId hscanned hcalendar' hid hlive hbehind day
  rw [textOf_append, textOf_letters, hlast] at hread
  exact ⟨token, hread⟩

/-! ## The checkbox -/

theorem taskOf_blank {w : Text} (hw : Blank w) : taskOf w = none := by
  cases htask : taskOf w with
  | none => rfl
  | some t =>
    obtain ⟨pre, c, y, rfl, -⟩ := taskOf_eq_some.mp htask
    exact absurd (by simp) (hw.not_mem (c := '[') (by decide))

/-- A box that white space completes is completed by a space. -/
theorem taskOf_space {head w : Text} {task : Task} {mark : ℕ} (hw : Blank w) (h : taskOf (head ++ w) = some (task, mark)) :
    taskOf (head ++ [' ']) = some (task, mark) := by
  obtain ⟨pre, c, y, heq, hpre, hc, rfl⟩ := taskOf_eq_some.mp h
  rw [taskOf_eq_some]
  have hbox : head ++ w = pre ++ ['[', c, ']'] ++ (' ' :: y) := by simpa using heq
  rcases List.append_eq_append_iff.mp hbox with ⟨z, hz, hw'⟩ | ⟨z, hz, hy⟩
  · rcases List.eq_nil_or_concat z with rfl | ⟨z, d, rfl⟩
    · exact ⟨pre, c, [], by rw [List.append_nil] at hz; rw [← hz]; simp, hpre, hc, rfl⟩
    · have hlast := congrArg List.getLast? hz
      rw [List.concat_eq_append, ← List.append_assoc, List.getLast?_concat,
        show pre ++ ['[', c, ']'] = pre ++ ['[', c] ++ [']'] by simp, List.getLast?_concat] at hlast
      obtain rfl := Option.some.inj hlast
      exact absurd (by rw [hw']; simp) (hw.not_mem (c := ']') (by decide))
  · cases z with
    | nil => exact ⟨pre, c, [], by rw [hz]; simp, hpre, hc, rfl⟩
    | cons d z =>
      obtain ⟨rfl, -⟩ := List.cons.inj hy
      exact ⟨pre, c, z ++ [' '], by rw [hz]; simp, hpre, hc, rfl⟩

/-- The box before a token put in is the line's, but for one that lacked its space. -/
theorem taskOf_place (h : Scanned line pieces rest) :
    (taskOf (line.take (tokenPlace line) ++ gap (line.take (tokenPlace line)))).map Prod.fst = (taskOf line).map Prod.fst ↔
      ¬BareCheckbox line := by
  have hcases := h.comments
  -- white space and then nothing or a comment follows the place
  obtain ⟨w, hw, hline⟩ : ∃ w, Blank w ∧ taskOf line = taskOf (line.take (tokenPlace line) ++ w) := by
    refine ⟨(line.drop (tokenPlace line)).takeWhile isWhitespace, blank_takeWhile _, ?_⟩
    conv_lhs => rw [← List.take_append_drop (tokenPlace line) line,
      ← takeWhile_append_trimStart (line.drop (tokenPlace line)), ← List.append_assoc]
    rcases hcases with hnil | ⟨more, hmore⟩
    · have hblank : Blank (trimStart (line.drop (tokenPlace line))) := by
        rw [← trimEnd_append_rtakeWhile (trimStart (line.drop (tokenPlace line))), show trimEnd (trimStart _) = [] from hnil]
        exact blank_rtakeWhile _
      rw [blank_iff_trimStart.mp hblank |> fun h => (trimStart_of_unindented (unindented_trimStart _)).symm.trans h,
        List.append_nil]
    · obtain ⟨behind, hbehind⟩ := trimEnd_isPrefix (trimStart (line.drop (tokenPlace line)))
      rw [← hbehind, show trimEnd (trimStart _) = commentOpen ++ more from hmore.symm]
      exact taskOf_append_comment _ _
  unfold BareCheckbox
  rw [hline]
  by_cases hnil : line.take (tokenPlace line) = []
  · have hspace : Blank [' '] := by
      intro c hc
      rw [List.mem_singleton.mp hc]
      decide
    rw [hnil]
    simp [gap, taskOf_blank hw, taskOf_blank hspace, taskOf_blank Blank.nil]
  · rw [gap_of_ne_nil hnil]
    cases htask : taskOf (line.take (tokenPlace line) ++ w) with
    | none => cases taskOf (line.take (tokenPlace line) ++ [' ']) <;> simp
    | some t =>
      rw [taskOf_space hw htask]
      simp

/-! ## A token inside a hidden piece -/

theorem passes_of_head {c : Char} {n run : ℕ} {t : Text} (hne : t ≠ []) (hhead : t.head? ≠ some c) :
    passes c n run t = (!decide (run = n ∧ 0 < n) && passes c n 0 t) := by
  obtain ⟨d, t, rfl⟩ := List.exists_cons_of_ne_nil hne
  have hd : d ≠ c := fun h => hhead (by rw [h]; rfl)
  have hzero : ¬(0 = n ∧ 0 < n) := by omega
  rw [passes_cons_of_ne hd, passes_cons_of_ne hd]
  simp [hzero]

theorem endRun_of_head {c : Char} {run : ℕ} {t : Text} (hne : t ≠ []) (hhead : t.head? ≠ some c) :
    endRun c run t = endRun c 0 t := by
  obtain ⟨d, t, rfl⟩ := List.exists_cons_of_ne_nil hne
  have hd : d ≠ c := fun h => hhead (by rw [h]; rfl)
  rw [endRun_cons_of_ne hd, endRun_cons_of_ne hd]

theorem head?_append_blank {w b : Text} (hw : Blank w) (hb : b.head? = some '<') {c : Char} (hc : c ≠ '<')
    (hblack : isWhitespace c = false) : (w ++ b).head? ≠ some c := by
  cases w with
  | nil =>
    rw [List.nil_append, hb]
    simpa using hc.symm
  | cons d w =>
    intro h
    obtain rfl := Option.some.inj h
    rw [hw d List.mem_cons_self] at hblack
    cases hblack

/-- A code span stays one when plain text takes the place of white space inside it. -/
theorem IsCode.insert {a w b m : Text} (h : IsCode (a ++ (w ++ b))) (hw : Blank w) (hb : b.head? = some '<') (hm : Plain m) :
    IsCode (a ++ (m ++ b)) := by
  obtain ⟨n, body, hn, htext, hbody, hpass, hend⟩ := h
  have hne : w ++ b ≠ [] := by
    intro hnil
    rw [(List.append_eq_nil_iff.mp hnil).2] at hb
    cases hb
  have hbne : b ≠ [] := by
    rintro rfl
    cases hb
  have hhead := head?_append_blank hw hb (c := '`') (by decide) (by decide)
  have hbhead : b.head? ≠ some '`' := by
    rw [hb]
    decide
  obtain ⟨b₁, rfl, rfl⟩ : ∃ b₁, a = List.replicate n '`' ++ b₁ ∧ body = b₁ ++ (w ++ b) := by
    rcases List.append_eq_append_iff.mp htext with ⟨z, hz, hback⟩ | ⟨z, hz, hback⟩
    · have hnil : z = [] := by
        by_contra hz'
        obtain ⟨d, z, rfl⟩ := List.exists_cons_of_ne_nil hz'
        have hd : d ∈ List.replicate n '`' := by rw [hz]; simp
        rw [hback, List.eq_of_mem_replicate hd] at hhead
        exact hhead rfl
      rw [hnil, List.append_nil] at hz
      exact ⟨[], by rw [List.append_nil, hz], by rw [hback, hnil]; rfl⟩
    · exact ⟨z, hz, hback⟩
  have hplain : endRun '`' 0 m = 0 := endRun_of_getLast? fun hlast => hm.ticks (List.mem_of_getLast? hlast)
  have hwplain : '`' ∉ w := hw.not_mem (by decide)
  have hwend : endRun '`' 0 w = 0 := endRun_of_getLast? fun hlast => hwplain (List.mem_of_getLast? hlast)
  rw [passes_append, passes_of_head hne hhead, passes_append, passes_plain hwplain, hwend, Bool.true_and] at hpass
  rw [endRun_append, endRun_of_head hne hhead, endRun_append, hwend] at hend
  have hmb : m ++ b ≠ [] := by simp [hbne]
  have hmhead := hm.head?_append b
  refine ⟨n, b₁ ++ (m ++ b), hn, by simp, ?_, ?_, ?_⟩
  · cases b₁ with
    | nil => exact hmhead
    | cons d b₁ => exact hbody
  · rw [passes_append, passes_of_head hmb hmhead, passes_append, passes_plain hm.ticks, hplain, Bool.true_and]
    exact hpass
  · rw [endRun_append, endRun_of_head hmb hmhead, endRun_append, hplain]
    exact hend

/-- A comment stays one when plain text takes the place of white space inside it. -/
theorem IsComment.insert {a w b m : Text} (h : IsComment (a ++ (w ++ b))) (ha : a ≠ []) (hw : Blank w)
    (hb : b.head? = some '<') (hm : Plain m) (hclose : '>' ∉ m) :
    IsComment (a ++ (m ++ b)) := by
  obtain ⟨hopen, inner, hinner⟩ := h
  have hne : w ++ b ≠ [] := by
    intro hnil
    rw [(List.append_eq_nil_iff.mp hnil).2] at hb
    cases hb
  obtain ⟨b', rfl⟩ : ∃ b', b = '<' :: b' := by
    cases b with
    | nil => cases hb
    | cons d b' => exact ⟨b', by rw [Option.some.inj hb]⟩
  have hbang := head?_append_blank hw hb (c := '!') (by decide) (by decide)
  have hdash := head?_append_blank hw hb (c := '-') (by decide) (by decide)
  -- the place lies behind the whole opening
  obtain ⟨a, rfl⟩ : ∃ a', a = commentOpen ++ a' := by
    obtain ⟨more, hmore⟩ := hopen
    rcases List.append_eq_append_iff.mp hmore with ⟨z, hz, -⟩ | ⟨z, hz, hback⟩
    · exact ⟨z, hz⟩
    · cases z with
      | nil => exact ⟨[], by rw [List.append_nil] at hz ⊢; exact hz.symm⟩
      | cons d z =>
        have hmem : d ∈ (commentOpen).tail := by
          obtain ⟨e, a, rfl⟩ := List.exists_cons_of_ne_nil ha
          rw [hz]
          simp
        rw [hback] at hbang hdash
        simp only [commentOpen, List.tail_cons, List.mem_cons, List.not_mem_nil, or_false] at hmem
        rcases hmem with rfl | rfl | rfl
        · exact absurd rfl hbang
        · exact absurd rfl hdash
        · exact absurd rfl hdash
  obtain ⟨e, v, hv⟩ := List.exists_cons_of_ne_nil hne
  have he : e ∉ commentClose := by
    rw [hv] at hdash
    have hgreater := head?_append_blank hw hb (c := '>') (by decide) (by decide)
    rw [hv] at hgreater
    simp only [commentClose, List.mem_cons, List.not_mem_nil, or_false, not_or]
    exact ⟨fun h => hdash (by rw [h]; rfl), fun h => hdash (by rw [h]; rfl), fun h => hgreater (by rw [h]; rfl)⟩
  have hdrop : ∀ t : Text, (commentOpen ++ a ++ t).drop 2 = '-' :: '-' :: a ++ t := fun t => rfl
  have hnone : ¬commentClose <:+: '-' :: '-' :: a := by
    intro hin
    rw [hdrop, splitFirst_of_isInfix hin] at hinner
    obtain ⟨r, -, hr⟩ := Option.map_eq_some_iff.mp hinner
    exact hne (List.append_eq_nil_iff.mp (Prod.mk.inj hr).2).2
  rw [hdrop, hv, splitFirst_apart hnone (apart_cons he _ _), ← hv,
    splitFirst_apart (not_infix_of_not_mem (c := '>') (by decide) (hw.not_mem (by decide))) (apart_cons (by decide) _ _)] at hinner
  obtain ⟨r, hr, hnil⟩ := Option.map_eq_some_iff.mp hinner
  obtain ⟨r, hsplit, rfl⟩ := Option.map_eq_some_iff.mp hr
  obtain ⟨d, m', hmcons⟩ := List.exists_cons_of_ne_nil hm.ne_nil
  have hmhead : d ∉ commentClose := by
    have hd := hm.head d (by rw [hmcons]; rfl)
    have hd' : d ≠ '>' := fun h => hclose (by rw [hmcons, h]; exact List.mem_cons_self)
    simp only [commentOpen, List.mem_cons, List.not_mem_nil, or_false, not_or] at hd
    simp only [commentClose, List.mem_cons, List.not_mem_nil, or_false, not_or]
    exact ⟨hd.2.2.1, hd.2.2.1, hd'⟩
  have hmapart : Apart commentClose ('-' :: '-' :: a) (m ++ '<' :: b') := by
    rw [hmcons]
    exact apart_cons hmhead _ _
  refine ⟨by rw [List.append_assoc]; exact List.prefix_append _ _, '-' :: '-' :: a ++ (m ++ r.1), ?_⟩
  rw [hdrop, splitFirst_apart hnone hmapart,
    splitFirst_apart (not_infix_of_not_mem (c := '>') (by decide) hclose) (apart_cons (by decide) _ _), hsplit]
  simp only [Option.map_some, Option.some.injEq, Prod.mk.injEq, true_and]
  exact (Prod.mk.inj hnil).2

/-- A piece that hides what it holds. -/
def Piece.Hides : Piece → Prop
  | .words _ => False
  | _ => True

/-- A hidden stretch is that of a hiding piece. -/
theorem exists_piece {offset : ℕ} {span : Span} (h : span ∈ hiddenFrom offset pieces) :
    ∃ front piece back, pieces = front ++ piece :: back ∧ piece.Hides ∧ span.start = offset + (textOf front).length ∧
      span.stop = offset + (textOf front).length + piece.text.length := by
  induction pieces generalizing offset with
  | nil => cases h
  | cons piece rest ih =>
    have hlater : span ∈ hiddenFrom (offset + piece.text.length) rest →
        ∃ front hider back, piece :: rest = front ++ hider :: back ∧ hider.Hides ∧
          span.start = offset + (textOf front).length ∧
          span.stop = offset + (textOf front).length + hider.text.length := by
      intro hspan
      obtain ⟨front, hider, back, rfl, hhides, hstart, hstop⟩ := ih hspan
      refine ⟨piece :: front, hider, back, rfl, hhides, ?_, ?_⟩
      · rw [textOf_cons, List.length_append]
        omega
      · rw [textOf_cons, List.length_append]
        omega
    cases piece with
    | words text => exact hlater h
    | code text =>
      rcases List.mem_cons.mp h with rfl | h
      · exact ⟨[], .code text, rest, rfl, trivial, rfl, rfl⟩
      · exact hlater h
    | comment text =>
      rcases List.mem_cons.mp h with rfl | h
      · exact ⟨[], .comment text, rest, rfl, trivial, rfl, rfl⟩
      · exact hlater h

/-- Pieces stay quiet when a hiding one takes the place of another. -/
theorem Quiet.rehide {front back behind : List Piece} {piece piece' : Piece} (h : Quiet (front ++ piece :: (back ++ behind)))
    (hhides : piece.Hides) (hsound : piece.Sound) (hhides' : piece'.Hides) : Quiet (front ++ piece' :: back) := by
  have hwords : ∀ t, piece' ≠ .words t := by
    rintro t rfl
    exact hhides'
  intro x inner when_ y hlive
  rcases hlive.cut with ⟨z, hleft, -⟩ | ⟨t₁, t₂, -, h₂, -, -, hback⟩ | ⟨z, -, hright⟩
  · exact h _ _ _ _ (hleft.append _)
  · obtain ⟨d, t₂, rfl⟩ := List.exists_cons_of_ne_nil h₂
    exact hwords _ (List.cons.inj hback).1
  · cases z with
    | nil => exact hwords _ (List.cons.inj hright.eq).1
    | cons first z =>
      obtain ⟨-, hback⟩ := List.cons.inj hright.eq
      refine h (front ++ piece :: z) inner when_ (y ++ behind) ⟨?_, ?_, hright.reads⟩
      · rw [show back = z ++ letters (tokenAround inner) ++ y from hback]
        simp
      · have hlast : ∀ c, piece.text.getLast? = some c → c ≠ '\\' := by
          rintro c hc rfl
          cases piece with
          | words t => exact hhides
          | code t => cases hsound.symm.trans hc
          | comment t => cases hsound.symm.trans hc
        have hfree := hright.free
        rw [textOf_cons] at hfree
        rw [textOf_append, textOf_cons]
        by_cases hz : textOf z = []
        · rw [hz, List.append_nil, List.getLast?_append_of_ne_nil _ hsound.text_ne_nil]
          exact fun h => hlast _ h rfl
        · rw [List.getLast?_append_of_ne_nil _ (by simp [hz]), List.getLast?_append_of_ne_nil _ hz]
          rwa [List.getLast?_append_of_ne_nil _ hz] at hfree

theorem trimEnd_of_untrailed_append {b : Text} (hb : Untrailed b) (x : Text) : trimEnd (b ++ x) = b ++ trimEnd x := by
  by_cases hx : Blank x
  · have hnil : trimEnd x = [] := trimEnd_append_of_blank hx []
    rw [trimEnd_append_of_blank hx, trimEnd_of_untrailed hb, hnil, List.append_nil]
  · exact trimEnd_append hx b

theorem head?_trimEnd {t : Text} {c : Char} (h : t.head? ≠ some c) : (trimEnd t).head? ≠ some c := by
  intro hhead
  obtain ⟨more, hmore⟩ := trimEnd_isPrefix t
  rw [← hmore, List.head?_append, hhead] at h
  exact h rfl

/-- A hiding piece ends in no white space. -/
theorem Piece.Hides.untrailed {piece : Piece} (h : piece.Hides) (hsound : piece.Sound) : Untrailed piece.text := by
  intro c hc
  cases piece with
  | words t => exact h.elim
  | code t =>
    obtain rfl := Option.some.inj (hsound.symm.trans hc)
    decide
  | comment t =>
    obtain rfl := Option.some.inj (hsound.symm.trans hc)
    decide

/-- A hiding piece whose inside is exchanged, read with what follows it. -/
theorem Reads.rehide {piece : Piece} {a w b m t t' : Text} {back back' : List Piece} {rest' : Text}
    (h : Reads (piece.text ++ t) (piece :: back) rest) (hhides : piece.Hides) (htext : piece.text = a ++ (w ++ b))
    (ha : a ≠ []) (hw : Blank w) (hb : b.head? = some '<') (hm : Plain m) (hclose : '>' ∉ m)
    (hnext : Reads t' back' rest') (hhead : t.head? ≠ some '`' → t'.head? ≠ some '`') :
    ∃ piece' : Piece, piece'.Hides ∧ Reads (a ++ (m ++ b) ++ t') (piece' :: back') rest' := by
  generalize hinput : piece.text ++ t = input at h
  cases h with
  | comment hc next =>
    simp only [Piece.text] at htext
    subst htext
    exact ⟨.comment _, trivial, .comment (hc.insert ha hw hb hm hclose) hnext⟩
  | code hc hnot next =>
    simp only [Piece.text] at htext hinput
    obtain rfl := List.append_cancel_left hinput
    subst htext
    exact ⟨.code _, trivial, .code (hc.insert hw hb hm) (hhead hnot) hnext⟩
  | ticks => exact hhides.elim
  | letter => exact hhides.elim

/-- A token put in inside a hiding piece is hidden by it. -/
theorem insert_hidden {front back : List Piece} {piece : Piece} {token : Text}
    (h : Scanned line (front ++ piece :: back) rest) (hhides : piece.Hides)
    (hstart : (textOf front).length < tokenPlace line) (hstop : tokenPlace line < (textOf front).length + piece.text.length)
    (htoken : Plain token) (hends : '>' ∉ token) :
    ∃ piece' back' w', piece'.Hides ∧ back = back' ++ letters w' ∧
      Scanned (insertBeforeTrailingComments line token) (front ++ piece' :: back') (trimEnd rest) := by
  obtain ⟨tail, hown, hdrop, hlength, -, hbehind⟩ := h.place
  have htext := insert_eq token h
  generalize line.take (tokenPlace line) = head at hown hlength htext
  have huntrailed := hhides.untrailed (h.reads.sound piece (by simp))
  -- the place cuts the piece in two
  obtain ⟨a, t, rfl, hpiece, rfl⟩ : ∃ a t, head = textOf front ++ a ∧ piece.text = a ++ t ∧ tail = t ++ textOf back := by
    rw [textOf_append, textOf_cons] at hown
    rcases List.append_eq_append_iff.mp hown with ⟨a, ha, hrest⟩ | ⟨z, hz, -⟩
    · rcases List.append_eq_append_iff.mp hrest with ⟨z, hz, -⟩ | ⟨t, ht, htail⟩
      · have := congrArg List.length ha
        have := congrArg List.length hz
        simp only [List.length_append] at *
        omega
      · exact ⟨a, t, ha, ht, htail⟩
    · have := congrArg List.length hz
      rw [List.length_append] at this
      omega
  have ha : a ≠ [] := by
    rintro rfl
    rw [List.append_nil] at hlength
    omega
  have ht : t ≠ [] := by
    rintro rfl
    rw [List.append_nil] at hpiece
    rw [List.length_append, ← hpiece] at hlength
    omega
  have huntrailed' : Untrailed t := fun c hc => huntrailed c (by rwa [hpiece, List.getLast?_append_of_ne_nil _ ht])
  have htblank : ¬Blank t := by
    intro hblank
    obtain ⟨c, hc⟩ := Option.ne_none_iff_exists'.mp (mt List.getLast?_eq_none_iff.mp ht)
    have := huntrailed' c hc
    rw [hblank c (List.mem_of_getLast? hc)] at this
    cases this
  have hopen : commentOpen <+: trimStart t ++ textOf back := by
    rw [← trimStart_append htblank]
    exact hbehind.resolve_left fun hblank => htblank fun c hc => hblank c (List.mem_append_left _ hc)
  have hbne : trimStart t ≠ [] := fun hnil => htblank (blank_iff_trimStart.mpr hnil)
  have hbhead : (trimStart t).head? = some '<' := by
    obtain ⟨more, hmore⟩ := hopen
    have := congrArg List.head? hmore
    rwa [List.head?_append_of_ne_nil _ hbne, eq_comm] at this
  have hsplit := takeWhile_append_trimStart t
  have hw := blank_takeWhile t
  have hbuntrailed : Untrailed (trimStart t) := fun c hc =>
    huntrailed' c (by rwa [← hsplit, List.getLast?_append_of_ne_nil _ hbne])
  have htrim : trim (t ++ textOf back ++ rest) = trimStart t ++ trimEnd (textOf back ++ rest) := by
    rw [trim, List.append_assoc, trimStart_append htblank, trimEnd_of_untrailed_append hbuntrailed]
  generalize trimStart t = b at hbne hbhead hsplit hbuntrailed htrim
  generalize t.takeWhile isWhitespace = w at hsplit hw
  subst hsplit
  rw [hdrop, htrim] at htext
  generalize hm : gap (textOf front ++ a) ++ token ++ gap (b ++ trimEnd (textOf back ++ rest)) = m at htext
  have hplain : Plain m := hm ▸ htoken.gaps _ _
  have hclosing : '>' ∉ m := by
    rw [← hm, List.mem_append, List.mem_append, not_or, not_or]
    exact ⟨⟨(blank_gap _).not_mem (by decide), hends⟩, (blank_gap _).not_mem (by decide)⟩
  obtain ⟨hfront, hpieces⟩ := h.reads.split
  rw [textOf_cons, List.append_assoc] at hfront hpieces
  have hnextreads : Reads (textOf back ++ rest) back rest := by
    have := h.reads
    rw [show front ++ piece :: back = front ++ [piece] ++ back by simp] at this
    exact this.split.2
  obtain ⟨back', w', rfl, -, hback⟩ := Scanned.trimEnd ⟨hnextreads, h.ends⟩
  obtain ⟨piece', hhides', hpiece'⟩ := hpieces.rehide hhides hpiece ha hw hbhead hplain hclosing hback.reads
    fun hhead => head?_trimEnd hhead
  have hclose : ∀ n, closeAt '`' n 0 (w ++ b ++ (textOf (back' ++ letters w') ++ rest)) = none →
      closeAt '`' n 0 (m ++ (b ++ trimEnd (textOf (back' ++ letters w') ++ rest))) = none := by
    intro n hn
    rw [List.append_assoc, closeAt_plain (hw.not_mem (by decide)), Option.map_eq_none_iff,
      ← trimEnd_append_rtakeWhile (textOf (back' ++ letters w') ++ rest), ← List.append_assoc] at hn
    rw [closeAt_plain hplain.ticks, closeAt_left hn ((blank_rtakeWhile _).head?_ne (by decide))]
    rfl
  have hx : (w ++ b ++ (textOf (back' ++ letters w') ++ rest)).head? ≠ some '`' := by
    rw [List.append_assoc]
    exact head?_append_blank hw (by rw [List.head?_append_of_ne_nil _ hbne, hbhead]) (by decide) (by decide)
  rw [hpiece, List.append_assoc] at hfront
  have hswap := hfront.swap_behind hx hclose (hplain.unjoined _ _) (hplain.apart _ _)
  refine ⟨piece', back', w', hhides', rfl, ?_, hback.ends⟩
  have hwhole := hswap.append (by simpa using hpiece' : Reads (a ++ (m ++ (b ++ _))) _ _)
  rw [htext]
  simpa using hwhole

/-- A token that goes inside a hiding piece is not read back. -/
theorem not_attaches_of_hidden {front back : List Piece} {piece : Piece} {id : Text}
    (h : Scanned line (front ++ piece :: back) rest) (hcalendar : holds calendarMarker line = false) (hid : isId id = true)
    (hquiet : Quiet (front ++ piece :: back)) (hhides : piece.Hides) (hstart : (textOf front).length < tokenPlace line)
    (hstop : tokenPlace line < (textOf front).length + piece.text.length) {due : Due}
    (hyear : 0 ≤ due.date.year ∧ due.date.year ≤ 9999) (homeDay : Option Day) : ¬Attaches line due id homeDay := by
  obtain ⟨inner, when_, htext, hwhen, -⟩ := tokenText_reads hyear homeDay
  have hends : '>' ∉ tokenAround inner := by
    simpa [tokenAround, tokenOpen] using not_mem_of_parseWhen hwhen (by decide)
  obtain ⟨piece', back', w', hhides', rfl, hscanned⟩ := insert_hidden h hhides hstart hstop (plain_tokenAround hwhen) hends
  have hsound := h.reads.sound piece (by simp)
  have hquiet' := hquiet.rehide hhides hsound hhides'
  intro hattaches
  have hattach := attach_of_quiet h hcalendar hid hquiet due homeDay
  rw [htext, ← tokenAround] at hattach
  obtain ⟨reminder, hparse, hdue, -⟩ := hattaches _ hattach
  rw [quiet_addId hscanned (calendar_insert h hcalendar hwhen) hid hquiet' hparse] at hdue
  cases hdue

/-! ## Which lines take a token -/

theorem hasToken_of_live {front back : List Piece} {inner : Text} {when_ : When} (h : Scanned line pieces rest)
    (hcalendar : holds calendarMarker line = false) (hlive : Live pieces front inner when_ back) (hquiet : Quiet back) :
    hasToken line = true := by
  rw [hasToken, parseLine_of_live h hcalendar hlive hquiet]
  rfl

theorem hasToken_of_quiet (h : Scanned line pieces rest) (hcalendar : holds calendarMarker line = false)
    (hquiet : Quiet pieces) : hasToken line = false := by
  rw [hasToken, parseLine_of_quiet h hcalendar hquiet]
  cases lastId pieces <;> rfl

/-- An open place is a cut between two pieces. -/
theorem OpenPlace.cut (hopen : OpenPlace line) (h : Scanned line pieces rest) :
    ∃ front back, pieces = front ++ back ∧ textOf front = line.take (tokenPlace line) := by
  obtain ⟨tail, hown, hdrop, hlength, -, -⟩ := h.place
  have hhead : (line.drop (tokenPlace line)).head? ≠ some '`' := head?_of_trim h.comments
  have htail : ([] ++ tail).head? ≠ some '`' := by
    intro hc
    cases tail with
    | nil => cases hc
    | cons d tail =>
      rw [hdrop] at hhead
      exact hhead hc
  obtain ⟨front, back, hpieces, hfront⟩ := @exists_letters _ h.reads.sound 0 (line.take (tokenPlace line)) [] _
    (by simpa using hown) List.not_mem_nil (fun _ => htail) fun span hspan hmeets => by
      rw [hlength, List.length_nil] at hmeets
      refine hopen span ?_ (by omega)
      rw [h.scanInline]
      exact List.mem_append_left _ hspan
  exact ⟨front, back, by simpa [letters] using hpieces, hfront⟩

/-- A place that is not open lies inside a hiding piece. -/
theorem exists_piece_of_not_openPlace (hopen : ¬OpenPlace line) (h : Scanned line pieces rest) :
    ∃ front piece back, pieces = front ++ piece :: back ∧ piece.Hides ∧ (textOf front).length < tokenPlace line ∧
      tokenPlace line < (textOf front).length + piece.text.length := by
  simp only [OpenPlace, not_forall, not_not] at hopen
  obtain ⟨span, hspan, hstart, hstop⟩ := hopen
  obtain ⟨tail, hown, -, hlength, -, -⟩ := h.place
  have hown := congrArg List.length hown
  have hline := congrArg List.length h.text_eq
  rw [List.length_append] at hown hline
  rw [h.scanInline, scanOf, List.mem_append] at hspan
  rcases hspan with hspan | hspan
  · obtain ⟨front, piece, back, hpieces, hhides, hfrom, hto⟩ := exists_piece hspan
    exact ⟨front, piece, back, hpieces, hhides, by omega, by omega⟩
  · split at hspan
    · cases hspan
    · obtain rfl := List.mem_singleton.mp hspan
      dsimp only at hstart
      omega

end Line

/-- A line on which an attached reminder is read back. -/
def TakesToken (line : Text) : Prop :=
  holds calendarMarker line = true ∨ hasToken line = true ∨ OpenPlace line ∧ ¬BareCheckbox line

/-- What `attach` writes reads back just on the lines that take a token. -/
theorem attaches_iff (line : Text) (due : Due) (id : Text) (homeDay : Option Day)
    (hyear : 0 ≤ due.date.year ∧ due.date.year ≤ 9999) (hid : isId id = true) :
    Attaches line due id homeDay ↔ TakesToken line := by
  by_cases hcalendar : holds calendarMarker line = true
  · refine iff_of_true (fun attached hattached => ?_) (Or.inl hcalendar)
    rw [attach, if_pos (Or.inl hcalendar)] at hattached
    cases hattached
  rw [Bool.not_eq_true] at hcalendar
  obtain ⟨pieces, rest, h⟩ := exists_scanned line
  rcases quiet_or_live pieces with hquiet | ⟨front, inner, when_, back, hlive, hquiet⟩
  · have htoken := hasToken_of_quiet h hcalendar hquiet
    by_cases hopen : OpenPlace line
    · obtain ⟨front, back, rfl, hcut⟩ := hopen.cut h
      obtain ⟨inner, when_, htext, hwhen, hdue⟩ := tokenText_reads hyear homeDay
      obtain ⟨token, hread⟩ := reads_insert h hcalendar hid hquiet hcut hwhen homeDay
      have hattach := attach_of_quiet h hcalendar hid hquiet due homeDay
      have hid' : ((parseLine line homeDay).bind LineReminder.id) = lastId (front ++ back) := by
        rw [parseLine_of_quiet h hcalendar hquiet]
        cases lastId (front ++ back) <;> rfl
      rw [htext, ← tokenAround] at hattach
      have hbox := taskOf_place h
      rw [← hcut] at hbox
      simp only [TakesToken, hcalendar, htoken, Bool.false_eq_true, false_or, hopen, true_and]
      rw [← hbox]
      constructor
      · intro hattaches
        obtain ⟨reminder, hparse, -, -, htask⟩ := hattaches _ hattach
        rw [hread] at hparse
        rw [← htask, ← Option.some.inj hparse]
      · intro htask attached hattached
        rw [hattach] at hattached
        obtain rfl := Option.some.inj hattached
        exact ⟨_, hread, hdue, by rw [hid'], htask⟩
    · obtain ⟨front, piece, back, rfl, hhides, hstart, hstop⟩ := exists_piece_of_not_openPlace hopen h
      refine iff_of_false (not_attaches_of_hidden h hcalendar hid hquiet hhides hstart hstop hyear homeDay) ?_
      simp [TakesToken, hcalendar, htoken, hopen]
  · exact iff_of_true (attaches_of_live h hcalendar hid hlive hquiet hyear homeDay)
      (Or.inr (Or.inl (hasToken_of_live h hcalendar hlive hquiet)))

/-- A comment that opens inside a code span and closes behind it lets the token go into the span. -/
theorem attach_into_code :
    ¬Attaches "x `<!-- y` -->".toList ⟨⟨2026, 9, 1, by decide, by decide, by decide⟩, none⟩ "0123456789ab".toList none := by
  intro hattaches
  have hattach : attach "x `<!-- y` -->".toList ⟨⟨2026, 9, 1, by decide, by decide, by decide⟩, none⟩
      "0123456789ab".toList none = some "x ` (@2026-09-01) <!-- y` --> <!--rem:0123456789ab-->".toList := by
    decide +kernel
  have hread : (parseLine "x ` (@2026-09-01) <!-- y` --> <!--rem:0123456789ab-->".toList none).bind LineReminder.due =
      none := by
    decide +kernel
  obtain ⟨reminder, hparse, hdue, -⟩ := hattaches _ hattach
  rw [hparse, Option.bind_some, hdue] at hread
  cases hread

theorem attaches_task :
    Attaches "- [ ] call <!-- home -->".toList ⟨⟨2026, 9, 1, by decide, by decide, by decide⟩, none⟩
      "0123456789ab".toList none := by
  have htakes : TakesToken "- [ ] call <!-- home -->".toList := by
    unfold TakesToken OpenPlace BareCheckbox
    decide +kernel
  exact (attaches_iff _ _ _ _ (by decide) (by decide)).mpr htakes

end Thock.SyncCore.Reminder
