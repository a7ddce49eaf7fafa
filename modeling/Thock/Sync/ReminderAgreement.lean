import Thock.Sync.DateAgreement
import Thock.SyncCore.TokenPlaces

/-!
# The two readings of a reminder line

The desk's scan of a line and the phone's are two programs over one grammar. They are compared
piece by piece, from the searches they are built on to the edits they make.
-/

namespace Thock.Sync

open TextScan SyncCore ThockKit
open Reminder (isSuffixOf_singleton_iff findFrom_some holds_singleton_of_mem splitFirst_char_none)

/-! ## Searches -/

theorem firstRangeFrom_eq {needle : Text} (hneedle : needle ≠ []) (text : Text) (index : ℕ) :
    Bytes.firstRangeFrom needle index text =
      (splitFirst needle text).map fun r => ⟨index + r.1.length, index + r.1.length + needle.length⟩ := by
  induction text generalizing index with
  | nil => simp [Bytes.firstRangeFrom, splitFirst, hneedle]
  | cons c rest ih =>
    unfold Bytes.firstRangeFrom splitFirst
    split
    · rfl
    · rw [ih, Option.map_map]
      apply Option.map_congr
      intro r _
      simp only [Function.comp, List.length_cons, Span.mk.injEq]
      omega

/-- The phone's first occurrence is the desk's. -/
theorem firstRange_eq {needle : Text} (hneedle : needle ≠ []) (text : Text) (start : ℕ) :
    Bytes.firstRange needle text start = (findFrom needle text start).map fun i => ⟨i, i + needle.length⟩ := by
  unfold Bytes.firstRange findFrom
  rw [if_neg (by simpa using hneedle), firstRangeFrom_eq hneedle, Option.map_map]
  rfl

theorem head?_iff_isPrefixOf {text : Text} {c : Char} : text.head? = some c ↔ [c].isPrefixOf text = true := by
  cases text with
  | nil => simp [List.isPrefixOf]
  | cons d rest =>
    simp only [List.head?_cons, Option.some.injEq, List.isPrefixOf, Bool.and_true, beq_iff_eq]
    exact eq_comm

theorem findIdx?_eq (c : Char) (text : Text) :
    text.findIdx? (· = c) = (splitFirst [c] text).map fun r => r.1.length := by
  induction text with
  | nil => rfl
  | cons d rest ih =>
    rw [List.findIdx?_cons, ih, splitFirst]
    by_cases h : d = c
    · simp [h, List.isPrefixOf]
    · have hne : ¬[c].isPrefixOf (d :: rest) = true := fun hp => h (Option.some.inj (head?_iff_isPrefixOf.mpr hp))
      rw [if_neg hne, if_neg (by simpa using h), Option.map_map, Option.map_map]
      rfl

theorem firstIndex_eq (c : Char) (text : Text) (start : ℕ) : Bytes.firstIndex c text start = findFrom [c] text start := by
  unfold Bytes.firstIndex findFrom
  rw [findIdx?_eq, Option.map_map]
  rfl

theorem splitLast_of_short {needle text : Text} (h : text.length < needle.length) : splitLast needle text = none := by
  cases hsplit : splitLast needle text with
  | none => rfl
  | some r =>
    have hlength := congrArg List.length (@splitLast_eq _ _ r.1 r.2 hsplit)
    simp only [List.length_append] at hlength
    omega

/-- A pattern begins at an offset when the text up to its end there ends with it. -/
theorem isPrefixOf_drop_eq {needle text : Text} {i : ℕ} (hi : i + needle.length ≤ text.length) :
    needle.isPrefixOf (text.drop i) = needle.isSuffixOf (text.take (i + needle.length)) := by
  rw [Bool.eq_iff_iff, List.isPrefixOf_iff_prefix, List.isSuffixOf_iff_suffix, List.prefix_iff_eq_take,
    List.suffix_iff_eq_drop, List.length_take, List.drop_take, Nat.min_eq_left hi, Nat.add_sub_cancel,
    Nat.add_sub_cancel_left]

/-- The phone's search from the end finds the last occurrence in the text up to there. -/
theorem lastRangeFrom_eq {needle : Text} (hneedle : needle ≠ []) (text : Text) (index : ℕ)
    (hindex : index + needle.length ≤ text.length) :
    Bytes.lastRangeFrom needle text index =
      (splitLast needle (text.take (index + needle.length))).map fun r => ⟨r.1.length, r.1.length + needle.length⟩ := by
  have hpos : 0 < needle.length := List.length_pos_iff.mpr hneedle
  have hlast : ∀ i, i < text.length → text.take (i + 1) = text.take i ++ [text[i]!] := by
    intro i hi
    rw [List.take_succ_eq_append_getElem hi, getElem!_pos text i hi]
  induction index with
  | zero =>
    have hwhole := isPrefixOf_drop_eq hindex
    have hend := hlast (needle.length - 1) (by omega)
    rw [Nat.sub_add_cancel hpos] at hend
    rw [Nat.zero_add, List.drop_zero] at hwhole
    rw [Nat.zero_add, hend, splitLast_append_singleton, ← hend, ← hwhole, Bytes.lastRangeFrom]
    split
    · simp only [Option.map_some, List.length_take, Option.some.injEq, Span.mk.injEq]
      omega
    · rw [splitLast_of_short (by rw [List.length_take]; omega)]
      rfl
  | succ index ih =>
    have hend := hlast (index + needle.length) (by omega)
    rw [Nat.add_right_comm] at hend
    have hwhole := isPrefixOf_drop_eq hindex
    rw [hend, splitLast_append_singleton, ← hend, ← hwhole, Bytes.lastRangeFrom]
    split
    · simp only [Option.map_some, List.length_take, Option.some.injEq, Span.mk.injEq]
      omega
    · rw [ih (by omega), Option.map_map]
      rfl

/-- The phone's last occurrence is the desk's. -/
theorem lastRange_eq {needle : Text} (hneedle : needle ≠ []) (text : Text) :
    Bytes.lastRange needle text =
      (splitLast needle text).map fun r => ⟨r.1.length, r.1.length + needle.length⟩ := by
  unfold Bytes.lastRange
  by_cases hshort : text.length < needle.length
  · rw [if_pos (Or.inr hshort), splitLast_of_short hshort]
    rfl
  · have hindex : text.length - needle.length + needle.length = text.length := by omega
    rw [if_neg (by simp [hneedle, hshort]), lastRangeFrom_eq hneedle text _ hindex.le, hindex, List.take_length]

theorem lastIndex_eq (c : Char) (text : Text) :
    Bytes.lastIndex c text = (splitLast [c] text).map fun r => r.1.length := by
  unfold Bytes.lastIndex splitLast
  rw [findIdx?_eq, Option.map_map, Option.map_map]
  apply Option.map_congr
  intro r hr
  have hlength := congrArg List.length (@splitFirst_eq _ _ r.1 r.2 hr)
  simp only [List.length_reverse, List.length_append, List.length_singleton] at hlength
  simp only [Function.comp, List.length_reverse]
  omega

/-! ## The grammar -/

theorem findFrom_zero (pattern text : Text) :
    findFrom pattern text 0 = (splitFirst pattern text).map fun r => r.1.length := by
  unfold findFrom
  simp only [List.drop_zero, Nat.zero_add]

/-- What stands before and after a pattern, by its offset. -/
theorem pieces_of {pattern text before after : Text} (h : text = before ++ pattern ++ after) :
    text.take before.length = before ∧ text.drop (before.length + pattern.length) = after := by
  rw [h]
  constructor
  · simp
  · rw [← List.length_append, List.drop_left]

theorem splitLast_pieces {pattern text before after : Text} (h : splitLast pattern text = some (before, after)) :
    text.take before.length = before ∧ text.drop (before.length + pattern.length) = after := pieces_of (splitLast_eq h)

/-- A text is cut at a first character alike. -/
theorem firstIndex_cases (c : Char) (text : Text) :
    (Bytes.firstIndex c text 0 = none ∧ splitFirst [c] text = none) ∨
      ∃ before after, Bytes.firstIndex c text 0 = some before.length ∧ splitFirst [c] text = some (before, after) ∧
        text.take before.length = before ∧ text.drop (before.length + 1) = after := by
  rw [firstIndex_eq, findFrom_zero]
  cases hsplit : splitFirst [c] text with
  | none => exact Or.inl ⟨rfl, rfl⟩
  | some r => exact Or.inr ⟨r.1, r.2, rfl, rfl, pieces_of (splitFirst_eq hsplit)⟩

theorem isID_eq (text : Text) : Reminders.isID text = Reminder.isId text := by
  have hchar : ∀ c : Char, ((48 ≤ c.toNat && c.toNat ≤ 57) || (97 ≤ c.toNat && c.toNat ≤ 102)) =
      (c.isDigit || ('a' ≤ c && c ≤ 'f')) := by
    intro c
    simp only [Char.isDigit, Char.le_def, UInt32.le_iff_toNat_le, Char.toNat, ge_iff_le]
    rfl
  unfold Reminders.isID Reminder.isId
  rw [funext hchar]

theorem idInComment_eq (comment : Text) : Reminders.idInComment comment = Reminder.idInComment comment := by
  unfold Reminders.idInComment Reminder.idInComment stripPrefix stripSuffix
  simp only [isID_eq]
  by_cases hopen : Reminder.idOpen.isPrefixOf comment = true
  · rw [if_neg (by simpa using hopen), if_pos hopen, Option.bind_some]
    by_cases hclose : commentClose.isSuffixOf (comment.drop Reminder.idOpen.length) = true
    · rw [if_neg (by simpa using hclose), if_pos hclose, Option.bind_some]
    · rw [if_pos (by simpa using hclose), if_neg hclose, Option.bind_none]
  · rw [if_pos (by simpa using hopen), if_neg hopen, Option.bind_none]

theorem parseISODate_eq (text : Text) : Reminders.parseISODate text = Reminder.parseIsoDate text := by
  unfold Reminders.parseISODate Reminder.parseIsoDate
  by_cases hlength : text.length = 10
  · have hfirst : slice text 0 4 = text.take 4 := rfl
    have hlast : slice text 8 10 = text.drop 8 := by
      unfold slice
      rw [List.take_of_length_le hlength.le]
    rw [validDay_eq, hfirst, hlast]
    congr 1
    simp only [ne_eq, eq_iff_iff]
    tauto
  · rw [if_pos (by tauto), if_pos (by tauto)]

theorem parseClock_eq (text : Text) : Reminders.parseClock text = Reminder.parseClock text := by
  unfold Reminders.parseClock Reminder.parseClock
  rcases firstIndex_cases ':' text with ⟨hphone, hdesk⟩ | ⟨hours, minutes, hphone, hdesk, hbefore, hafter⟩
  · rw [hphone, hdesk]
    rfl
  · rw [hphone, hdesk]
    simp only [Option.bind_some]
    rw [hbefore, hafter, List.all_append]
    congr 1
    simp only [Bool.and_eq_true, eq_iff_iff]
    tauto

/-- A text holds a character as a pattern when it is among its characters. -/
theorem holds_singleton (c : Char) (text : Text) : Reminder.holds [c] text = true ↔ c ∈ text := by
  refine ⟨fun h => ?_, holds_singleton_of_mem⟩
  by_contra hmem
  rw [Reminder.holds, splitFirst_char_none hmem] at h
  cases h

/-- A day and a clock are read from the pieces at the first blank. -/
theorem parseWhen_eq (text : Text) : Reminders.parseWhen text = Reminder.parseWhen text := by
  unfold Reminders.parseWhen Reminder.parseWhen
  rcases firstIndex_cases ' ' text with ⟨hphone, hdesk⟩ | ⟨date, time, hphone, hdesk, hbefore, hafter⟩
  · simp only [hphone, hdesk, parseClock_eq, parseISODate_eq, holds_singleton]
  · simp only [hphone, hdesk, hbefore, hafter, parseClock_eq, parseISODate_eq]
    cases Reminder.parseIsoDate date with
    | none => rfl
    | some day => cases Reminder.parseClock time <;> rfl

theorem parseDue_eq (text : Text) : Reminders.parseDue text = Reminder.parseDue text := by
  unfold Reminders.parseDue Reminder.parseDue
  rcases firstIndex_cases ' ' text with ⟨hphone, hdesk⟩ | ⟨date, time, hphone, hdesk, hbefore, hafter⟩
  · simp only [hphone, hdesk, parseISODate_eq]
  · simp only [hphone, hdesk, hbefore, hafter, parseClock_eq, parseISODate_eq]
    cases Reminder.parseIsoDate date with
    | none => rfl
    | some day => cases Reminder.parseClock time <;> rfl

/-! ## Scanning a line -/

theorem findFrom_of_length_le {pattern text : Text} (hpattern : pattern ≠ []) {start : ℕ} (h : text.length ≤ start) :
    findFrom pattern text start = none := by
  unfold findFrom
  rw [List.drop_of_length_le h]
  simp [splitFirst, hpattern]

/-- An occurrence lies in the text. -/
theorem findFrom_le {pattern text : Text} {start i : ℕ} (hpattern : pattern ≠ [])
    (h : findFrom pattern text start = some i) : i + pattern.length ≤ text.length := by
  have hlength := (findFrom_some h).2.1.length_le
  have hpos : 0 < pattern.length := List.length_pos_iff.mpr hpattern
  rw [List.length_drop] at hlength
  omega

theorem closingBackticks_eq (line : Text) (run fuel search : ℕ) :
    Reminders.closingBackticks line run fuel search = closingRun line run fuel search := by
  induction fuel generalizing search with
  | zero => rfl
  | succ fuel ih =>
    unfold Reminders.closingBackticks closingRun
    by_cases hsearch : search < line.length
    · rw [if_neg (by simpa using hsearch), firstIndex_eq]
      cases findFrom ['`'] line search with
      | none => rfl
      | some start =>
        simp only [runLength, ih]
        rfl
    · rw [if_pos hsearch, findFrom_of_length_le (by simp) (by omega)]

/-- The phone's end of a comment is the desk's length of it. -/
theorem commentEnd_eq (line : Text) (cursor : ℕ) :
    Reminders.commentEnd line cursor =
      (Reminder.commentLength (line.drop (cursor + commentOpen.length))).map (cursor + ·) := by
  unfold Reminders.commentEnd Reminder.commentLength
  have harrow : "->".toList = ['-', '>'] := rfl
  simp only [head?_iff_isPrefixOf, harrow]
  by_cases hgreater : ['>'].isPrefixOf (line.drop (cursor + commentOpen.length)) = true
  · rw [if_pos hgreater, if_pos hgreater]
    rfl
  · rw [if_neg hgreater, if_neg hgreater]
    by_cases hdash : ['-', '>'].isPrefixOf (line.drop (cursor + commentOpen.length)) = true
    · rw [if_pos hdash, if_pos hdash]
      rfl
    · rw [if_neg hdash, if_neg hdash, firstRange_eq (by decide), findFrom, Option.map_map, Option.map_map,
        Option.map_map]
      apply Option.map_congr
      intro r _
      simp only [Function.comp]
      omega

/-- From the same cursor on, the two scans find the same. -/
theorem scanInlineFrom_eq (line : Text) (fuel cursor : ℕ) (excluded : List Span) (id : Option Text) :
    Reminders.scanInlineFrom line fuel cursor ⟨excluded, id, false, none⟩ =
      Reminder.scanInlineFrom line fuel cursor excluded id := by
  induction fuel generalizing cursor excluded id with
  | zero => rfl
  | succ fuel ih =>
    unfold Reminders.scanInlineFrom Reminder.scanInlineFrom
    by_cases hcursor : cursor < line.length
    · rw [if_neg (by simpa using hcursor), List.getElem?_eq_getElem hcursor]
      simp only [commentEnd_eq, stripPrefix, List.drop_drop]
      by_cases hopen : commentOpen.isPrefixOf (line.drop cursor) = true
      · rw [if_pos hopen, if_pos hopen]
        simp only []
        cases Reminder.commentLength (line.drop (cursor + commentOpen.length)) with
        | none => rfl
        | some length =>
          simp only [Option.map_some, idInComment_eq, ih]
          cases Reminder.idInComment (slice line cursor (cursor + length)) <;> rfl
      · rw [if_neg hopen, if_neg hopen]
        by_cases htick : (line)[cursor] = '`'
        · simp only [htick, if_true, Reminder.closingBackticks, closingBackticks_eq, runLength]
          cases closingRun line ((line.drop cursor).takeWhile (· = '`')).length (line.length + 1)
            (cursor + ((line.drop cursor).takeWhile (· = '`')).length) with
          | none => exact ih _ _ _
          | some stop => exact ih _ _ _
        · simp only [htick, if_false, Option.some.injEq]
          exact ih _ _ _
    · rw [if_pos hcursor, List.getElem?_eq_none (by omega)]

theorem scanInline_eq (line : Text) (inComment : Bool) :
    Reminders.scanInline line inComment = Reminder.scanInline line inComment := by
  unfold Reminders.scanInline Reminder.scanInline
  cases inComment with
  | false => exact scanInlineFrom_eq _ _ _ _ _
  | true =>
    simp only [if_true, @firstRange_eq commentClose (by decide), findFrom_zero]
    cases splitFirst commentClose line with
    | none => rfl
    | some r => exact scanInlineFrom_eq _ _ _ _ _

theorem writableEnd_eq (line : Text) : Reminders.writableEnd line = Reminder.writableEnd line := by
  unfold Reminders.writableEnd Reminder.writableEnd
  rw [scanInline_eq]
  cases (Reminder.scanInline line false).unclosedComment <;> rfl

/-- A character before an offset, looked for either way. -/
theorem before_iff {line : Text} {start : ℕ} (hstart : start ≤ line.length) (c : Char) :
    (0 < start ∧ (line)[start - 1]? = some c) ↔ [c].isSuffixOf (line.take start) = true := by
  rw [isSuffixOf_singleton_iff, List.getLast?_take]
  cases start with
  | zero => simp
  | succ start =>
    have hlt : start < line.length := by omega
    simp [List.getElem?_eq_getElem hlt]

/-- From the same offset on, the two ends find the same last token. -/
theorem lastTokenFrom_eq (line : Text) (excluded : List Span) (fuel search : ℕ) (found : Option Token) :
    Reminders.lastTokenFrom line excluded fuel search found = Reminder.lastTokenFrom line excluded fuel search found := by
  induction fuel generalizing search found with
  | zero => rfl
  | succ fuel ih =>
    unfold Reminders.lastTokenFrom Reminder.lastTokenFrom
    rw [firstRange_eq (by decide)]
    cases hstart : findFrom Reminder.tokenOpen line search with
    | none => rfl
    | some start =>
      have hle : start ≤ line.length := (Nat.le_add_right _ _).trans (findFrom_le (by decide) hstart)
      simp only [Option.map_some, before_iff hle, firstIndex_eq, ih]
      by_cases hescaped : ['\\'].isSuffixOf (line.take start) = true
      · rw [if_pos hescaped, if_pos hescaped]
      · rw [if_neg hescaped, if_neg hescaped]
        cases findFrom [')'] line (start + Reminder.tokenOpen.length) with
        | none => rfl
        | some close =>
          simp only [parseWhen_eq]
          rfl

theorem strippingQuotes_eq (fuel : ℕ) (text : Text) :
    Reminders.strippingQuotes fuel text = Reminder.stripQuotes fuel text := by
  induction fuel generalizing text with
  | zero => rfl
  | succ fuel ih =>
    unfold Reminders.strippingQuotes Reminder.stripQuotes stripPrefix
    cases text with
    | nil => rfl
    | cons c rest =>
      by_cases hquote : c = '>'
      · subst hquote
        exact ih _
      · have hprefix : ¬['>'].isPrefixOf (c :: rest) = true := by
          simp [List.isPrefixOf, Ne.symm hquote]
        rw [if_neg (by simpa using hquote), if_neg hprefix]

theorem stripQuoteMarkers_eq (text : Text) : Reminders.stripQuoteMarkers text = Reminder.stripQuoteMarkers text :=
  strippingQuotes_eq _ _

theorem isPrefixOf_pair {a b : Char} {text : Text} :
    [a, b].isPrefixOf text = true ↔ ∃ rest, text = a :: b :: rest := by
  rw [List.isPrefixOf_iff_prefix]
  exact exists_congr fun rest => eq_comm

/-- What follows an item's number, looked at either way. -/
theorem afterNumber_eq (after text : Text) :
    (if ". ".toList.isPrefixOf after ∨ ") ".toList.isPrefixOf after then after.drop 2 else text) =
      match after with
      | '.' :: ' ' :: rest => rest
      | ')' :: ' ' :: rest => rest
      | _ => text := by
  by_cases hdot : ". ".toList.isPrefixOf after = true
  · rw [if_pos (Or.inl hdot)]
    obtain ⟨rest, rfl⟩ := isPrefixOf_pair.mp hdot
    rfl
  · by_cases hparen : ") ".toList.isPrefixOf after = true
    · rw [if_pos (Or.inr hparen)]
      obtain ⟨rest, rfl⟩ := isPrefixOf_pair.mp hparen
      rfl
    · rw [if_neg (not_or.mpr ⟨hdot, hparen⟩)]
      split
      · exact absurd (isPrefixOf_pair.mpr ⟨_, rfl⟩) hdot
      · exact absurd (isPrefixOf_pair.mpr ⟨_, rfl⟩) hparen
      · rfl

theorem stripListMarker_eq (text : Text) : Bytes.stripListMarker text = stripListMarker text := by
  unfold stripListMarker
  split
  · rfl
  · rfl
  · rfl
  · rename_i hdash hstar hplus
    have hmarker : ¬(["- ".toList, "* ".toList, "+ ".toList].any fun marker => marker.isPrefixOf text) = true := by
      change ¬(['-', ' '].isPrefixOf text || (['*', ' '].isPrefixOf text || (['+', ' '].isPrefixOf text || false))) = true
      simp only [Bool.or_false, Bool.or_eq_true, isPrefixOf_pair]
      rintro (⟨rest, rfl⟩ | ⟨rest, rfl⟩ | ⟨rest, rfl⟩)
      · exact hdash rest rfl
      · exact hstar rest rfl
      · exact hplus rest rfl
    unfold Bytes.stripListMarker
    rw [if_neg hmarker]
    by_cases hdigits : 1 ≤ (text.takeWhile Char.isDigit).length ∧ (text.takeWhile Char.isDigit).length ≤ 9
    · rw [if_pos hdigits]
      simp only [hdigits, and_self, true_and]
      exact afterNumber_eq _ _
    · rw [if_neg (fun h => hdigits h.1), if_neg hdigits]

theorem taskOf_eq (line : Text) : Reminders.taskOf line = Reminder.taskOf line := by
  unfold Reminders.taskOf Reminder.taskOf
  simp only [stripQuoteMarkers_eq, stripListMarker_eq, not_not, ne_eq]
  split
  · rfl
  · generalize List.take 4 _ = box
    by_cases hopen : box = "[ ] ".toList
    · subst hopen
      rfl
    · by_cases hx : box = "[x] ".toList
      · subst hx
        rfl
      · by_cases hX : box = "[X] ".toList
        · subst hX
          rfl
        · simp only [hopen, hx, hX, or_self, if_false, ite_self]

/-- The two ends read a line alike. -/
theorem readLine_eq (line : Text) (day : Option Day) (inComment : Bool) :
    Reminders.readLine line day inComment = Reminder.readLine line day inComment := by
  unfold Reminders.readLine Reminder.readLine Reminder.holds Reminders.lastToken Reminder.lastToken
  simp only [@firstRange_eq Reminder.calendarMarker (by decide), findFrom_zero, scanInline_eq, taskOf_eq,
    lastTokenFrom_eq, Option.isSome_map]
  split
  · rfl
  · by_cases hcarries : (Reminder.lastTokenFrom line (Reminder.scanInline line inComment).excluded (line.length + 1) 0
        none).isSome = true ∨ (Reminder.scanInline line inComment).id.isSome = true
    · rw [if_neg (not_not.mpr hcarries), if_pos hcarries]
    · rw [if_pos hcarries, if_neg hcarries]

theorem parseLine_eq (line : Text) (day : Option Day) : Reminders.parseLine line day = Reminder.parseLine line day :=
  congrArg Prod.fst (readLine_eq line day false)

/-! ## Edits of a home line -/

theorem trailingCommentsFrom_eq (fuel : ℕ) (tail : Text) :
    Reminders.trailingCommentsFrom fuel tail = Reminder.trailingCommentsFrom fuel tail := by
  induction fuel generalizing tail with
  | zero => rfl
  | succ fuel ih =>
    unfold Reminders.trailingCommentsFrom Reminder.trailingCommentsFrom Reminder.holds
    rw [lastRange_eq (by decide)]
    cases hsplit : splitLast commentOpen tail with
    | none => rfl
    | some r =>
      obtain ⟨before, after⟩ := r
      simp only [Option.map_some, @firstRange_eq commentClose (by decide), findFrom_zero,
        Option.isSome_map, (splitLast_pieces hsplit).1, ih]

theorem trailingCommentsStart_eq (line : Text) :
    Reminders.trailingCommentsStart line = Reminder.trailingCommentsStart line :=
  trailingCommentsFrom_eq _ _

theorem insertBeforeTrailingComments_eq (line token : Text) :
    Reminders.insertBeforeTrailingComments line token = Reminder.insertBeforeTrailingComments line token := by
  unfold Reminders.insertBeforeTrailingComments Reminder.insertBeforeTrailingComments
  simp only [writableEnd_eq, trailingCommentsStart_eq, ne_eq, ← isSuffixOf_singleton_iff]

theorem close_eq (line : Text) : Reminders.close line = Reminder.close line := by
  unfold Reminders.close Reminder.close
  rw [parseLine_eq, taskOf_eq]
  cases Reminder.parseLine line none with
  | none => rfl
  | some reminder =>
    simp only [Option.bind_some, ne_eq]
    split
    · rfl
    · cases reminder.token with
      | none => rfl
      | some token => rfl

theorem reopen_eq (line : Text) : Reminders.reopen line = Reminder.reopen line := by
  have hreplacing : Bytes.replacing = Reminder.replaceRange := rfl
  have hstrike : Reminder.strike.length = 2 := rfl
  unfold Reminders.reopen Reminder.reopen
  simp only [parseLine_eq, taskOf_eq, hreplacing, hstrike, ne_eq]
  cases Reminder.parseLine line none with
  | none => rfl
  | some reminder =>
    simp only [Option.bind_some]
    split
    · rfl
    · cases reminder.token with
      | none => rfl
      | some token =>
        dsimp only [Option.map_some]
        generalize Reminder.taskOf _ = found
        rcases found with _ | ⟨_ | _, mark⟩ <;> rfl

theorem dropToken_eq (line : Text) : Reminders.dropToken line = Reminder.dropToken line := by
  unfold Reminders.dropToken Reminder.dropToken
  rw [parseLine_eq]
  cases Reminder.parseLine line none with
  | none => rfl
  | some reminder =>
    simp only [Option.bind_some]
    cases reminder.token <;> rfl

/-- The guard both edits of an id begin with. -/
theorem idGuard_iff (line id : Text) :
    ¬((Bytes.firstRange Reminder.calendarMarker line 0).isNone = true ∧ Reminders.isID id = true) ↔
      Reminder.holds Reminder.calendarMarker line = true ∨ ¬Reminder.isId id = true := by
  unfold Reminder.holds
  rw [firstRange_eq (by decide), findFrom_zero, isID_eq, Option.isNone_map, Option.isNone_map]
  cases splitFirst Reminder.calendarMarker line <;> simp

theorem addID_eq (line id : Text) : Reminders.addID line id = Reminder.addId line id := by
  unfold Reminders.addID Reminder.addId
  simp only [idGuard_iff, parseLine_eq, writableEnd_eq]
  split
  · rfl
  · have hid : ((Reminder.parseLine line none).bind LineReminder.id).isSome =
        (Reminder.parseLine line none).any fun reminder => reminder.id.isSome := by
      cases Reminder.parseLine line none <;> rfl
    rw [hid]
    split
    · rfl
    · generalize trimEnd (line.take (Reminder.writableEnd line)) = head
      generalize trimEnd (line.drop (Reminder.writableEnd line)) = tail
      cases head <;> cases tail <;> simp

/-! ## Edits that write a day -/

theorem dueText_eq {due : Due} (h : WrittenAlike due.date.year) : Reminders.dueText due = Reminder.dueText due := by
  unfold Reminder.dueText Reminders.dueText
  cases due.time with
  | none => simpa using dateText_of_writtenAlike h
  | some time =>
    simp only [Option.elim_some, dateText_of_writtenAlike h]
    rfl

/-- The token of a due has only a time, or a year both ends write alike. -/
def TokenAlike (due : Due) (homeDay : Option Day) : Prop :=
  (due.time.isSome ∧ homeDay = some due.date) ∨ WrittenAlike due.date.year

theorem tokenText_eq {due : Due} {homeDay : Option Day} (h : TokenAlike due homeDay) :
    Reminders.tokenText due homeDay = Reminder.tokenText due homeDay := by
  unfold Reminders.tokenText Reminder.tokenText
  cases h with
  | inl htimed =>
    obtain ⟨htime, hday⟩ := htimed
    obtain ⟨time, htime⟩ := Option.isSome_iff_exists.mp htime
    have htext : Reminders.timeText time = time.text := rfl
    simp [htime, hday, htext]
  | inr hyear =>
    rw [dueText_eq hyear]
    cases due.time <;> rfl

theorem rewrite_eq {due : Due} {homeDay : Option Day} (h : TokenAlike due homeDay) (line : Text) :
    Reminders.rewrite line due homeDay = Reminder.rewrite line due homeDay := by
  unfold Reminders.rewrite Reminder.rewrite
  rw [parseLine_eq, tokenText_eq h]
  cases Reminder.parseLine line homeDay with
  | none => rfl
  | some reminder =>
    simp only [Option.map_some, insertBeforeTrailingComments_eq]
    cases reminder.token with
    | none => rfl
    | some token =>
      simp only []
      split <;> rfl

theorem attach_eq {due : Due} {homeDay : Option Day} (h : TokenAlike due homeDay) (line id : Text) :
    Reminders.attach line due id homeDay = Reminder.attach line due id homeDay := by
  unfold Reminders.attach Reminder.attach
  simp only [idGuard_iff, parseLine_eq, rewrite_eq h, tokenText_eq h, insertBeforeTrailingComments_eq, addID_eq]
  split
  · rfl
  · cases Reminder.parseLine line homeDay with
    | none => rfl
    | some reminder =>
      simp only [Option.isSome_some, if_true]
      cases Reminder.rewrite line due homeDay <;> rfl

/-! ## Mirror lines -/

theorem mirrorChecked_eq (line : Text) :
    (Reminder.mirrorCheckbox line) = (Reminders.mirrorChecked line).map fun checked => (checked, line.drop 6) := by
  unfold Reminder.mirrorCheckbox Reminders.mirrorChecked stripPrefix
  by_cases hopen : "- [ ] ".toList.isPrefixOf line = true
  · rw [if_pos hopen, if_pos hopen]
    rfl
  · rw [if_neg hopen, if_neg hopen]
    by_cases hx : "- [x] ".toList.isPrefixOf line = true
    · rw [if_pos hx, if_pos (Or.inl hx)]
      rfl
    · by_cases hX : "- [X] ".toList.isPrefixOf line = true
      · rw [if_neg hx, if_pos hX, if_pos (Or.inr hX)]
        rfl
      · rw [if_neg hx, if_neg hX, if_neg (not_or.mpr ⟨hx, hX⟩)]
        rfl

theorem mirrorCarried_eq (rest : Text) : Reminders.mirrorCarried rest = Reminder.mirrorCarried rest := by
  unfold Reminders.mirrorCarried Reminder.mirrorCarried
  rw [lastRange_eq (by decide)]
  cases hsplit : splitLast Reminder.mirrorSeparator rest with
  | none => rfl
  | some r =>
    obtain ⟨before, due⟩ := r
    simp only [Option.map_some, (splitLast_pieces hsplit).1, (splitLast_pieces hsplit).2, parseDue_eq]
    cases Reminder.parseDue due <;> rfl

theorem mirrorTime_eq (rest : Text) : Reminders.mirrorTime rest = Reminder.mirrorTime rest := by
  unfold Reminders.mirrorTime Reminder.mirrorTime
  rcases firstIndex_cases ' ' rest with ⟨hphone, hdesk⟩ | ⟨time, body, hphone, hdesk, hbefore, hafter⟩
  · rw [hphone, hdesk]
  · simp only [hphone, hdesk, hbefore, hafter, parseClock_eq]
    by_cases hfive : time.length = 5
    · cases Reminder.parseClock time <;> simp [hfive]
    · simp [hfive]

theorem parseBody_eq (body : Text) : Reminders.parseBody body = Reminder.parseMirrorBody body := by
  unfold Reminders.parseBody Reminder.parseMirrorBody
  by_cases hstrike : Reminder.strike.isPrefixOf body = true
  · have hstrip : stripPrefix Reminder.strike body = some (body.drop 2) := by
      rw [stripPrefix, if_pos hstrike]
      rfl
    rw [if_neg (not_not.mpr hstrike), hstrip]
    simp only [@lastRange_eq Reminder.strike (by decide)]
    cases hsplit : splitLast Reminder.strike (body.drop 2) with
    | none => rfl
    | some r =>
      obtain ⟨text, after⟩ := r
      simp only [Option.map_some, Option.bind_some, (splitLast_pieces hsplit).1, (splitLast_pieces hsplit).2]
      split
      · rfl
      · split
        · rfl
        · unfold stripPrefix
          by_cases harrow : " → ".toList.isPrefixOf after = true
          · rw [if_neg (not_not.mpr harrow), if_pos harrow, Option.bind_some, parseISODate_eq]
            cases Reminder.parseIsoDate (after.drop " → ".toList.length) <;> rfl
          · rw [if_pos harrow, if_neg harrow]
            rfl
  · have hstrip : stripPrefix Reminder.strike body = none := by
      rw [stripPrefix, if_neg hstrike]
    rw [if_pos hstrike, hstrip]

theorem beforeBar_eq (text : Text) : Bytes.beforeBar text = Reminder.beforeBar text := by
  unfold Bytes.beforeBar Reminder.beforeBar
  rcases firstIndex_cases '|' text with ⟨hphone, hdesk⟩ | ⟨before, after, hphone, hdesk, hbefore, -⟩
  · rw [hphone, hdesk]
    rfl
  · rw [hphone, hdesk]
    exact hbefore

theorem bracketGuard_iff (note : Text) :
    ¬(¬note.isEmpty = true ∧ '[' ∉ note ∧ ']' ∉ note) ↔
      note.isEmpty = true ∨ (note.any fun c => c = '[' || c = ']') = true := by
  have hany : (note.any fun c => c = '[' || c = ']') = true ↔ '[' ∈ note ∨ ']' ∈ note := by
    simp [List.any_eq_true, and_or_left, exists_or]
  rw [hany]
  tauto

/-- The two ends read a mirror line alike. -/
theorem parsing_eq (line : Text) : Reminders.parsing line = Reminder.parseMirror line := by
  unfold Reminders.parsing Reminder.parseMirror
  rw [mirrorChecked_eq]
  simp only [lastIndex_eq, idInComment_eq, @lastRange_eq (Reminder.mirrorSeparator ++ "[[".toList) (by decide),
    beforeBar_eq, bracketGuard_iff, mirrorCarried_eq, mirrorTime_eq, parseBody_eq]
  cases Reminders.mirrorChecked (trimEnd line) with
  | none => rfl
  | some checked =>
    simp only [Option.map_some, Option.bind_some]
    cases hspace : splitLast [' '] ((trimEnd line).drop 6) with
    | none => rfl
    | some r =>
      obtain ⟨rest, marker⟩ := r
      have hpieces := splitLast_pieces hspace
      rw [List.length_singleton] at hpieces
      simp only [Option.map_some, Option.bind_some, hpieces.1, hpieces.2]
      cases Reminder.idInComment marker with
      | none => rfl
      | some id =>
        simp only [Option.bind_some]
        by_cases hbrackets : "]]".toList.isSuffixOf rest = true
        · have hstrip : stripSuffix "]]".toList rest = some (rest.take (rest.length - 2)) := by
            rw [stripSuffix, if_pos hbrackets]
            rfl
          rw [if_neg (not_not.mpr hbrackets), hstrip, Option.bind_some]
          cases hlink : splitLast (Reminder.mirrorSeparator ++ "[[".toList) (rest.take (rest.length - 2)) with
          | none => rfl
          | some r =>
            obtain ⟨before, note⟩ := r
            simp only [Option.map_some, Option.bind_some, (splitLast_pieces hlink).1, (splitLast_pieces hlink).2]
            split
            · rfl
            · cases Reminder.parseMirrorBody (Reminder.mirrorTime (Reminder.mirrorCarried before).1).2 with
              | none => rfl
              | some body => rfl
        · rw [if_pos hbrackets, stripSuffix, if_neg hbrackets]
          rfl

/-! ## Both ends -/

/-- Every line reads alike on both ends, as a home line and as a mirror line, and every edit changes it alike, those that
write a day where the token is written alike. -/
theorem lines_edited_alike (line : Text) :
    (∀ day inComment, Reminders.readLine line day inComment = Reminder.readLine line day inComment) ∧
      Reminders.parsing line = Reminder.parseMirror line ∧ Reminders.close line = Reminder.close line ∧
      Reminders.reopen line = Reminder.reopen line ∧ Reminders.dropToken line = Reminder.dropToken line ∧
      (∀ id, Reminders.addID line id = Reminder.addId line id) ∧
      ∀ due homeDay, TokenAlike due homeDay → Reminders.rewrite line due homeDay = Reminder.rewrite line due homeDay ∧
        ∀ id, Reminders.attach line due id homeDay = Reminder.attach line due id homeDay :=
  ⟨readLine_eq line, parsing_eq line, close_eq line, reopen_eq line, dropToken_eq line, addID_eq line,
    fun _ _ h => ⟨rewrite_eq h line, attach_eq h line⟩⟩

theorem rewrite_alike_plumber :
    Reminders.rewrite "- [ ] call (@2026-07-27)".toList ⟨⟨2026, 7, 28, by decide, by decide, by decide⟩, none⟩ none =
      Reminder.rewrite "- [ ] call (@2026-07-27)".toList ⟨⟨2026, 7, 28, by decide, by decide, by decide⟩, none⟩ none :=
  ((lines_edited_alike _).2.2.2.2.2.2 _ _ (Or.inr (Or.inl (by decide)))).1

end Thock.Sync
