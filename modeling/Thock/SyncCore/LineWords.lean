import Thock.Lib.Occurrence
import Thock.SyncCore.Apply
import Thock.SyncCore.Checkboxes
import Thock.SyncCore.NoteScan

/-!
# The words of a line

What a planner line wraps its words in: an indent, a list marker, a checkbox, a time or a range
of times, and trailing comments. Each is read off the line by its own grammar, and what is left
of the line is its words, whatever they were wrapped in.
-/

namespace Thock.SyncCore

open TextScan

/-! ## The grammar of the wrapping -/

/-- A bullet, or a number of up to nine digits, with its space. -/
def IsListMarker (m : Text) : Prop :=
  (∃ c, (c = '-' ∨ c = '*' ∨ c = '+') ∧ m = [c, ' ']) ∨
    ∃ digits c, 1 ≤ digits.length ∧ digits.length ≤ 9 ∧ digits.all Char.isDigit = true ∧ (c = '.' ∨ c = ')') ∧
      m = digits ++ [c, ' ']

def IsCheckbox (b : Text) : Prop := ∃ c, (c = ' ' ∨ c = 'x' ∨ c = 'X') ∧ b = ['[', c, ']', ' ']

/-- A time of the day, `H:MM` or `HH:MM`. -/
def IsClock (t : Text) : Prop :=
  ∃ hours m₁ m₂, t = hours ++ [':', m₁, m₂] ∧ 1 ≤ hours.length ∧ hours.length ≤ 2 ∧ hours.all Char.isDigit = true ∧
    m₁.isDigit = true ∧ m₂.isDigit = true ∧ numberOf hours ≤ 23 ∧ numberOf [m₁, m₂] ≤ 59

/-- A separator and the end of a range. -/
def IsRangeEnd (t : Text) : Prop :=
  ∃ separator g stop, t = separator ++ (g ++ stop) ∧ separator ∈ [['–'], ['—'], ['-'], ['t', 'o']] ∧ Blank g ∧
    (stop = ['2', '4', ':', '0', '0'] ∨ IsClock stop)

/-- A planner time, single or a range. -/
def IsTime (t : Text) : Prop :=
  IsClock t ∨ ∃ clock g stop, t = clock ++ (g ++ stop) ∧ IsClock clock ∧ Blank g ∧ IsRangeEnd stop

/-- A comment whose opening is the last one in it. -/
def IsTrailingComment (c : Text) : Prop :=
  ∃ inner, c = commentOpen ++ (inner ++ commentClose) ∧ ¬commentOpen <:+: inner ++ commentClose

/-- Whether a text begins with what a grammar takes. -/
def Begins (form : Text → Prop) (t : Text) : Prop := ∃ p rest, form p ∧ t = p ++ rest

/-- The text ends here, or white space follows. -/
def SetOff (rest : Text) : Prop := ∀ c ∈ rest.head?, isWhitespace c = true

/-- Whether a text begins with what a grammar takes, set off from what follows. -/
def BeginsSetOff (form : Text → Prop) (t : Text) : Prop := ∃ p rest, form p ∧ t = p ++ rest ∧ SetOff rest

/-- What the words of a line are wrapped in; each comment with the white space before it. -/
structure Wrapping where
  indent : Text
  marker : Text
  box : Text
  time : Text
  gap : Text
  comments : List (Text × Text)
  after : Text
deriving DecidableEq

def Wrapping.before (wrapping : Wrapping) : Text :=
  wrapping.indent ++ (wrapping.marker ++ (wrapping.box ++ (wrapping.time ++ wrapping.gap)))

def commentsText (comments : List (Text × Text)) : Text := comments.flatMap fun comment => comment.1 ++ comment.2

def Wrapping.behind (wrapping : Wrapping) : Text := commentsText wrapping.comments ++ wrapping.after

/-- The whole line. -/
def Wrapping.around (wrapping : Wrapping) (w : Text) : Text := wrapping.before ++ (w ++ wrapping.behind)

/-- A wrapping of parts by their grammars, each there or not. -/
structure Wrapping.Valid (wrapping : Wrapping) : Prop where
  indent : Blank wrapping.indent
  marker : wrapping.marker = [] ∨ IsListMarker wrapping.marker
  box : wrapping.box = [] ∨ IsCheckbox wrapping.box
  time : wrapping.time = [] ∧ wrapping.gap = [] ∨ IsTime wrapping.time ∧ wrapping.gap ≠ [] ∧ Blank wrapping.gap
  comments : ∀ comment ∈ wrapping.comments, Blank comment.1 ∧ IsTrailingComment comment.2
  after : Blank wrapping.after

/-- Words that go on with no part of the wrapping before them and end in no comment. -/
structure Wrapping.Fits (wrapping : Wrapping) (w : Text) : Prop where
  words : ¬Blank w
  marker : ¬Begins IsListMarker (trimStart w ++ wrapping.behind)
  box : ¬Begins IsCheckbox (trimStart w ++ wrapping.behind)
  time : ¬BeginsSetOff IsTime (trimStart w ++ wrapping.behind)
  range : IsClock wrapping.time → ¬BeginsSetOff IsRangeEnd (trimStart w ++ wrapping.behind)
  comment : ∀ a b, trimEnd w ≠ a ++ (commentOpen ++ (b ++ commentClose))

/-- Words with single spaces between them. -/
def collapse (t : Text) : Text := [' '].intercalate (words t)

/-! ## What begins a text -/

/-- A grammar of texts that begin with no white space. -/
def Solid (form : Text → Prop) : Prop := ∀ p, form p → ∃ c rest, p = c :: rest ∧ isWhitespace c = false

theorem Solid.trimStart {form : Text → Prop} (hform : Solid form) {p : Text} (hp : form p) (rest : Text) :
    trimStart (p ++ rest) = p ++ rest := by
  obtain ⟨c, more, rfl, hc⟩ := hform p hp
  exact trimStart_of_unindented (unindented_cons hc _)

theorem Solid.not_begins {form : Text → Prop} (hform : Solid form) {t : Text} (h : ¬Begins form (TextScan.trimStart t)) :
    ¬Begins form t := by
  rintro ⟨p, rest, hp, rfl⟩
  exact h ⟨p, rest, hp, hform.trimStart hp rest⟩

theorem Solid.not_beginsSetOff {form : Text → Prop} (hform : Solid form) {t : Text}
    (h : ¬BeginsSetOff form (TextScan.trimStart t)) : ¬BeginsSetOff form t := by
  rintro ⟨p, rest, hp, rfl, hrest⟩
  exact h ⟨p, rest, hp, hform.trimStart hp rest, hrest⟩

theorem solid_listMarker : Solid IsListMarker := by
  rintro m (⟨c, hc, rfl⟩ | ⟨digits, c, hpos, -, hdigits, -, rfl⟩)
  · exact ⟨c, [' '], rfl, by rcases hc with rfl | rfl | rfl <;> decide⟩
  · obtain ⟨d, digits, rfl⟩ := List.exists_cons_of_ne_nil (List.length_pos_iff.mp hpos)
    rw [List.all_cons, Bool.and_eq_true] at hdigits
    exact ⟨d, _, rfl, not_isWhitespace_of_isDigit hdigits.1⟩

theorem solid_checkbox : Solid IsCheckbox := by
  rintro b ⟨c, -, rfl⟩
  exact ⟨'[', _, rfl, by decide⟩

theorem solid_clock : Solid IsClock := by
  rintro t ⟨hours, m₁, m₂, rfl, hpos, -, hdigits, -⟩
  obtain ⟨d, hours, rfl⟩ := List.exists_cons_of_ne_nil (List.length_pos_iff.mp hpos)
  rw [List.all_cons, Bool.and_eq_true] at hdigits
  exact ⟨d, _, rfl, not_isWhitespace_of_isDigit hdigits.1⟩

theorem solid_time : Solid IsTime := by
  rintro t (h | ⟨clock, g, stop, rfl, hclock, -⟩)
  · exact solid_clock t h
  · obtain ⟨c, rest, rfl, hc⟩ := solid_clock clock hclock
    exact ⟨c, _, rfl, hc⟩

theorem solid_rangeEnd : Solid IsRangeEnd := by
  rintro t ⟨separator, g, stop, rfl, hmem, -⟩
  simp only [List.mem_cons, List.not_mem_nil, or_false] at hmem
  rcases hmem with rfl | rfl | rfl | rfl
  · exact ⟨_, _, rfl, by decide⟩
  · exact ⟨_, _, rfl, by decide⟩
  · exact ⟨_, _, rfl, by decide⟩
  · exact ⟨_, _, rfl, by decide⟩

/-! ## List markers and checkboxes -/

theorem takeWhile_digits {digits : Text} (hdigits : digits.all Char.isDigit = true) {c : Char} (hc : c.isDigit = false)
    (rest : Text) : (digits ++ c :: rest).takeWhile Char.isDigit = digits := by
  rw [List.takeWhile_append_of_pos (List.all_eq_true.mp hdigits), List.takeWhile_cons_of_neg (by simp [hc]),
    List.append_nil]

theorem afterBullet_digit {c : Char} (hc : c.isDigit = true) (rest : Text) : Reminder.afterBullet (c :: rest) = none := by
  unfold Reminder.afterBullet
  split
  · rename_i heq
    obtain ⟨rfl, -⟩ := List.cons.inj heq
    exact absurd hc (by decide)
  · rename_i heq
    obtain ⟨rfl, -⟩ := List.cons.inj heq
    exact absurd hc (by decide)
  · rename_i heq
    obtain ⟨rfl, -⟩ := List.cons.inj heq
    exact absurd hc (by decide)
  · rfl

theorem stripListMarker_append {m : Text} (hm : IsListMarker m) (rest : Text) : stripListMarker (m ++ rest) = rest := by
  rw [Reminder.stripListMarker_eq]
  rcases hm with ⟨c, hc, rfl⟩ | ⟨digits, c, hpos, hle, hdigits, hc, rfl⟩
  · rcases hc with rfl | rfl | rfl <;> rfl
  · obtain ⟨d, more, rfl⟩ := List.exists_cons_of_ne_nil (List.length_pos_iff.mp hpos)
    have hd := hdigits
    rw [List.all_cons, Bool.and_eq_true] at hd
    have htext : (d :: more ++ [c, ' ']) ++ rest = d :: more ++ c :: ' ' :: rest := by simp
    have hdigit : c.isDigit = false := by rcases hc with rfl | rfl <;> decide
    rw [htext, takeWhile_digits hdigits hdigit, if_pos ⟨hpos, hle⟩, List.drop_left, List.cons_append,
      afterBullet_digit hd.1, Option.none_or]
    rcases hc with rfl | rfl <;> rfl

theorem stripListMarker_of_not {t : Text} (h : ¬Begins IsListMarker t) : stripListMarker t = t := by
  rw [Reminder.stripListMarker_eq]
  have hbullet : Reminder.afterBullet t = none := by
    unfold Reminder.afterBullet
    split
    · rename_i rest
      exact (h ⟨['-', ' '], rest, Or.inl ⟨'-', by simp, rfl⟩, rfl⟩).elim
    · rename_i rest
      exact (h ⟨['*', ' '], rest, Or.inl ⟨'*', by simp, rfl⟩, rfl⟩).elim
    · rename_i rest
      exact (h ⟨['+', ' '], rest, Or.inl ⟨'+', by simp, rfl⟩, rfl⟩).elim
    · rfl
  rw [hbullet, Option.none_or]
  split
  · rename_i hlength
    have hnumber : ∀ c rest, (c = '.' ∨ c = ')') → t.drop (t.takeWhile Char.isDigit).length ≠ c :: ' ' :: rest := by
      intro c rest hc hdrop
      refine h ⟨t.takeWhile Char.isDigit ++ [c, ' '], rest,
        Or.inr ⟨_, c, hlength.1, hlength.2, List.all_eq_true.mpr fun d hd => List.mem_takeWhile_imp hd, hc, rfl⟩, ?_⟩
      have htake := List.prefix_iff_eq_take.mp (List.takeWhile_prefix (l := t) Char.isDigit)
      have hcut := List.take_append_drop (t.takeWhile Char.isDigit).length t
      rw [← htake, hdrop] at hcut
      simpa using hcut.symm
    unfold Reminder.afterNumber
    split
    · rename_i rest hdrop
      exact absurd hdrop (hnumber '.' rest (by simp))
    · rename_i rest hdrop
      exact absurd hdrop (hnumber ')' rest (by simp))
    · rfl
  · rfl

theorem stripCheckbox_append {b : Text} (hb : IsCheckbox b) (rest : Text) : stripCheckbox (b ++ rest) = rest := by
  obtain ⟨c, hc, rfl⟩ := hb
  rcases hc with rfl | rfl | rfl <;> rfl

theorem stripCheckbox_of_not {t : Text} (h : ¬Begins IsCheckbox t) : stripCheckbox t = t := by
  unfold stripCheckbox
  split
  · rename_i c rest
    split
    · rename_i hc
      exact (h ⟨['[', c, ']', ' '], rest, ⟨c, hc, rfl⟩, rfl⟩).elim
    · rfl
  · rfl

/-! ## Times -/

/-- A time at the start is read off whatever follows. -/
theorem parseTime_append {c : Text} (hc : IsClock c) (rest : Text) : parseTime (c ++ rest) = some rest := by
  obtain ⟨hours, m₁, m₂, rfl, hpos, hle, hdigits, hm₁, hm₂, hhour, hminute⟩ := hc
  have htext : hours ++ [':', m₁, m₂] ++ rest = hours ++ ':' :: m₁ :: m₂ :: rest := by simp
  have hcolon : Char.isDigit ':' = false := by decide
  have hhours : (((hours ++ ':' :: m₁ :: m₂ :: rest).take 2).takeWhile Char.isDigit) = hours := by
    match hours with
    | [h] => simp_all
    | [h, h'] => simp_all
  rw [htext, parseTime, hhours, if_neg (by omega), List.drop_left, List.take_left]
  change (if (m₁.isDigit && m₂.isDigit) = true then _ else _) = _
  rw [hm₁, hm₂, Bool.and_self, if_pos rfl, if_neg (by omega)]

theorem parseTime_some {t rest : Text} (h : parseTime t = some rest) : ∃ c, IsClock c ∧ t = c ++ rest := by
  unfold parseTime at h
  dsimp only at h
  have hprefix : ((t.take 2).takeWhile Char.isDigit) <+: t := (List.takeWhile_prefix _).trans (List.take_prefix 2 t)
  have hlength : ((t.take 2).takeWhile Char.isDigit).length ≤ 2 :=
    (List.takeWhile_prefix _).length_le.trans (List.length_take_le 2 t)
  have hdigits : ((t.take 2).takeWhile Char.isDigit).all Char.isDigit = true :=
    List.all_eq_true.mpr fun d hd => List.mem_takeWhile_imp hd
  generalize (t.take 2).takeWhile Char.isDigit = hours at *
  obtain ⟨more, rfl⟩ := hprefix
  rw [List.drop_left, List.take_left] at h
  split at h
  · cases h
  · rename_i hpos
    split at h
    · rename_i m₁ m₂ after
      split at h
      · rename_i hminutes
        rw [Bool.and_eq_true] at hminutes
        split at h
        · cases h
        · rename_i hvalues
          rw [not_or, not_lt, not_lt] at hvalues
          obtain rfl := Option.some.inj h
          exact ⟨hours ++ [':', m₁, m₂], ⟨hours, m₁, m₂, rfl, by omega, hlength, hdigits, hminutes.1, hminutes.2,
            hvalues.1, hvalues.2⟩, by simp⟩
      · cases h
    · cases h

/-- The separator of a range. -/
def stripSeparator (text : Text) : Option Text :=
  (stripPrefix ['–'] text).or ((stripPrefix ['—'] text).or ((stripPrefix ['-'] text).or (stripPrefix ['t', 'o'] text)))

theorem stripSeparator_append {separator : Text} (h : separator ∈ [['–'], ['—'], ['-'], ['t', 'o']]) (rest : Text) :
    stripSeparator (separator ++ rest) = some rest := by
  simp only [List.mem_cons, List.not_mem_nil, or_false] at h
  rcases h with rfl | rfl | rfl | rfl <;> simp [stripSeparator, stripPrefix]

theorem stripSeparator_some {t rest : Text} (h : stripSeparator t = some rest) :
    ∃ separator ∈ [['–'], ['—'], ['-'], ['t', 'o']], t = separator ++ rest := by
  unfold stripSeparator at h
  simp only [Option.or_eq_some_iff, stripPrefix_eq_some] at h
  rcases h with h | ⟨-, h | ⟨-, h | ⟨-, h⟩⟩⟩
  · exact ⟨_, by simp, h⟩
  · exact ⟨_, by simp, h⟩
  · exact ⟨_, by simp, h⟩
  · exact ⟨_, by simp, h⟩

/-- The end of a range is read off whatever follows and whatever white space stands before it. -/
theorem parseRangeEnd_append {g q : Text} (hg : Blank g) (hq : IsRangeEnd q) (rest : Text) :
    parseRangeEnd (g ++ (q ++ rest)) = some rest := by
  have hsolid := solid_rangeEnd.trimStart hq rest
  obtain ⟨separator, g', stop, rfl, hseparator, hg', hstop⟩ := hq
  have hassoc : separator ++ (g' ++ stop) ++ rest = separator ++ (g' ++ (stop ++ rest)) := by simp
  have hstart : trimStart (stop ++ rest) = stop ++ rest := by
    rcases hstop with rfl | hclock
    · exact trimStart_of_unindented (unindented_cons (by decide) _)
    · exact solid_clock.trimStart hclock rest
  rw [parseRangeEnd, trimStart_append_of_blank hg, hsolid, hassoc, ← stripSeparator, stripSeparator_append hseparator,
    Option.bind_some, trimStart_append_of_blank hg', hstart]
  rcases hstop with rfl | hclock
  · rfl
  · have hmidnight : stripPrefix ['2', '4', ':', '0', '0'] (stop ++ rest) = none := by
      by_contra hsome
      obtain ⟨after, hafter⟩ := Option.ne_none_iff_exists'.mp hsome
      rw [stripPrefix_eq_some] at hafter
      have hnone : parseTime (['2', '4', ':', '0', '0'] ++ after) = none := rfl
      rw [← hafter, parseTime_append hclock] at hnone
      cases hnone
    dsimp only
    rw [hmidnight]
    exact parseTime_append hclock rest

theorem parseRangeEnd_some {t rest : Text} (h : parseRangeEnd t = some rest) :
    ∃ g q, Blank g ∧ IsRangeEnd q ∧ t = g ++ (q ++ rest) := by
  obtain ⟨after, hafter, h⟩ := Option.bind_eq_some_iff.mp
    (show (stripSeparator (trimStart t)).bind _ = some rest from h)
  obtain ⟨separator, hseparator, htext⟩ := stripSeparator_some hafter
  have hfound : ∃ stop, (stop = ['2', '4', ':', '0', '0'] ∨ IsClock stop) ∧ trimStart after = stop ++ rest := by
    dsimp only at h
    split at h
    · rename_i hmidnight
      obtain rfl := Option.some.inj h
      exact ⟨_, Or.inl rfl, stripPrefix_eq_some.mp hmidnight⟩
    · obtain ⟨c, hc, htext⟩ := parseTime_some h
      exact ⟨c, Or.inr hc, htext⟩
  obtain ⟨stop, hstop, hrest⟩ := hfound
  refine ⟨t.takeWhile isWhitespace, separator ++ (after.takeWhile isWhitespace ++ stop), blank_takeWhile t,
    ⟨separator, _, stop, rfl, hseparator, blank_takeWhile after, hstop⟩, ?_⟩
  conv_lhs => rw [← takeWhile_append_trimStart t, htext, ← takeWhile_append_trimStart after, hrest]
  simp

theorem labelAfterToken_some {t rest : Text} (h : labelAfterToken t = some rest) : SetOff t := by
  unfold labelAfterToken at h
  cases t with
  | nil => exact fun c hc => by cases hc
  | cons d t =>
    intro c hc
    obtain rfl : d = c := by simpa using hc
    by_contra hblack
    rw [Bool.not_eq_true] at hblack
    rw [if_neg (by simp), trimStart_of_unindented (unindented_cons hblack t)] at h
    simp at h

theorem labelAfterToken_append {g : Text} (hg : Blank g) (hne : g ≠ []) (x : Text) :
    labelAfterToken (g ++ x) = some (trimStart x) := by
  have hlength := List.length_dropWhile_le isWhitespace x
  have hpos := List.length_pos_iff.mpr hne
  unfold labelAfterToken
  rw [if_neg (by simp [hne]), trimStart_append_of_blank hg, if_pos (by rw [List.length_append]; unfold trimStart; omega)]

theorem SetOff.append {rest s : Text} (h : SetOff rest) (hs : Blank s) : SetOff (rest ++ s) := by
  intro c hc
  cases rest with
  | nil =>
    rw [List.nil_append] at hc
    exact hs c (List.mem_of_head? hc)
  | cons d rest => exact h c hc

theorem stripTimePrefix_of_not {t : Text} (h : ¬BeginsSetOff IsTime t) : stripTimePrefix t = t := by
  unfold stripTimePrefix
  split
  · rfl
  · rename_i afterStart hstart
    obtain ⟨c, hc, rfl⟩ := parseTime_some hstart
    split
    · rename_i rest hrange
      obtain ⟨after, hend, hlabel⟩ := Option.bind_eq_some_iff.mp hrange
      obtain ⟨g, q, hg, hq, rfl⟩ := parseRangeEnd_some hend
      exact (h ⟨c ++ (g ++ q), after, Or.inr ⟨c, g, q, rfl, hc, hg, hq⟩, by simp, labelAfterToken_some hlabel⟩).elim
    · cases hlabel : labelAfterToken afterStart with
      | none => rfl
      | some rest => exact (h ⟨c, afterStart, Or.inl hc, rfl, labelAfterToken_some hlabel⟩).elim

/-- A time goes with the white space behind it, unless a single one goes on as a range. -/
theorem stripTimePrefix_append {time gap : Text} (htime : IsTime time) (hgap : Blank gap) (hne : gap ≠ []) {x : Text}
    (hrange : IsClock time → ¬BeginsSetOff IsRangeEnd (trimStart x)) : stripTimePrefix (time ++ (gap ++ x)) = trimStart x := by
  unfold stripTimePrefix
  by_cases hclock : IsClock time
  · rw [parseTime_append hclock]
    dsimp only
    have hnone : (parseRangeEnd (gap ++ x)).bind labelAfterToken = none := by
      by_contra hsome
      obtain ⟨rest, hrest⟩ := Option.ne_none_iff_exists'.mp hsome
      obtain ⟨after, hend, hlabel⟩ := Option.bind_eq_some_iff.mp hrest
      obtain ⟨g, q, hg, hq, htext⟩ := parseRangeEnd_some hend
      refine hrange hclock ⟨q, after, hq, ?_, labelAfterToken_some hlabel⟩
      rw [← trimStart_append_of_blank hgap, htext, trimStart_append_of_blank hg, solid_rangeEnd.trimStart hq]
    rw [hnone, labelAfterToken_append hgap hne]
    rfl
  · obtain ⟨clock, g, stop, rfl, hclock, hg, hstop⟩ := htime.resolve_left hclock
    rw [List.append_assoc, parseTime_append hclock]
    dsimp only
    rw [List.append_assoc, parseRangeEnd_append hg hstop, Option.bind_some, labelAfterToken_append hgap hne]

/-! ## Trailing comments -/

theorem isTrailingComment_untrailed {c : Text} (hc : IsTrailingComment c) (t : Text) : Untrailed (t ++ c) := by
  obtain ⟨inner, rfl, -⟩ := hc
  intro d hd
  have hlast : (t ++ (commentOpen ++ (inner ++ commentClose))).getLast? = some '>' := by
    rw [← List.append_assoc, ← List.append_assoc, List.getLast?_append_of_ne_nil _ (by decide)]
    rfl
  obtain rfl := Option.some.inj (hlast.symm.trans hd)
  decide

/-- A text that ends in no comment keeps its end. -/
theorem stripComments_of_not {t : Text} (h : ∀ a b, t ≠ a ++ (commentOpen ++ (b ++ commentClose))) (fuel : ℕ) :
    stripComments fuel t = t := by
  cases fuel with
  | zero => rfl
  | succ fuel =>
    unfold stripComments
    split
    · rfl
    · rename_i before after hlast
      rw [if_pos]
      by_contra hends
      rw [not_or, not_not, not_lt, List.isSuffixOf_iff_suffix] at hends
      obtain ⟨⟨u, hu⟩, hlength⟩ := hends
      have htext := splitLast_eq hlast
      have hlong : commentClose.length ≤ after.length := by
        have := congrArg List.length htext
        simp only [List.length_append, commentOpen, commentClose, List.length_cons, List.length_nil] at this hlength ⊢
        omega
      obtain ⟨b, rfl⟩ : commentClose <:+ after :=
        List.suffix_of_suffix_length_le ⟨u, hu⟩ ⟨before ++ commentOpen, htext.symm⟩ hlong
      exact h before b (by rw [htext]; simp)

theorem trimEnd_commentsText {comments : List (Text × Text)} (hcomments : ∀ c ∈ comments, Blank c.1 ∧ IsTrailingComment c.2)
    {after : Text} (hafter : Blank after) (w : Text) (hne : comments ≠ []) :
    trimEnd (w ++ (commentsText comments ++ after)) = w ++ commentsText comments := by
  obtain ⟨front, c, rfl⟩ := (List.eq_nil_or_concat comments).resolve_left hne
  rw [List.concat_eq_append] at hcomments ⊢
  have hc := (hcomments c (by simp)).2
  have htext : commentsText (front ++ [c]) = commentsText front ++ c.1 ++ c.2 := by simp [commentsText]
  rw [← List.append_assoc, trimEnd_append_of_blank hafter, htext, ← List.append_assoc, ← List.append_assoc]
  exact trimEnd_of_untrailed (isTrailingComment_untrailed hc _)

/-- Trailing comments go from behind the words, the last one first. -/
theorem stripComments_behind {comments : List (Text × Text)}
    (hcomments : ∀ c ∈ comments, Blank c.1 ∧ IsTrailingComment c.2) {after : Text} (hafter : Blank after) {w : Text}
    (hw : ∀ a b, trimEnd w ≠ a ++ (commentOpen ++ (b ++ commentClose))) {fuel : ℕ} (hfuel : comments.length ≤ fuel) :
    stripComments fuel (trimEnd (w ++ (commentsText comments ++ after))) = trimEnd w := by
  induction comments using List.reverseRecOn generalizing after fuel with
  | nil =>
    rw [commentsText, List.flatMap_nil, List.nil_append, trimEnd_append_of_blank hafter]
    exact stripComments_of_not hw fuel
  | append_singleton front c ih =>
    obtain ⟨fuel, rfl⟩ : ∃ f, fuel = f + 1 := ⟨fuel - 1, by rw [List.length_append, List.length_singleton] at hfuel; omega⟩
    have hc := hcomments c (by simp)
    have hfront : ∀ d ∈ front, Blank d.1 ∧ IsTrailingComment d.2 := fun d hd => hcomments d (by simp [hd])
    rw [trimEnd_commentsText hcomments hafter w (by simp)]
    obtain ⟨inner, hinner, hlast⟩ := hc.2
    have htext : w ++ commentsText (front ++ [c]) =
        w ++ (commentsText front ++ c.1) ++ commentOpen ++ (inner ++ commentClose) := by
      rw [commentsText, List.flatMap_append, List.flatMap_singleton, ← commentsText, hinner]
      simp
    have hsplit : splitLast commentOpen (w ++ commentsText (front ++ [c])) =
        some (w ++ (commentsText front ++ c.1), inner ++ commentClose) := by
      rw [htext]
      exact splitLast_of_not_infix (by decide) hlast _
    have hends : ¬(¬commentClose.isSuffixOf (w ++ commentsText (front ++ [c])) = true ∨
        (w ++ (commentsText front ++ c.1)).length + 4 > (w ++ commentsText (front ++ [c])).length - 3) := by
      rw [not_or, not_not, not_lt, List.isSuffixOf_iff_suffix, htext]
      refine ⟨⟨w ++ (commentsText front ++ c.1) ++ commentOpen ++ inner, by simp⟩, ?_⟩
      simp only [List.length_append, commentOpen, commentClose, List.length_cons, List.length_nil]
      omega
    unfold stripComments
    rw [hsplit]
    dsimp only
    rw [if_neg hends]
    exact ih hfront hc.1 (by rw [List.length_append, List.length_singleton] at hfuel; omega)

theorem length_comments_le {comments : List (Text × Text)} (hcomments : ∀ c ∈ comments, Blank c.1 ∧ IsTrailingComment c.2) :
    comments.length ≤ (commentsText comments).length := by
  induction comments with
  | nil => exact le_rfl
  | cons c comments ih =>
    obtain ⟨inner, hinner, -⟩ := (hcomments c List.mem_cons_self).2
    have hrest := ih fun d hd => hcomments d (List.mem_cons_of_mem _ hd)
    have hlong : 1 ≤ c.2.length := by rw [hinner]; simp [commentOpen]
    rw [commentsText, List.flatMap_cons, ← commentsText]
    simp only [List.length_append, List.length_cons]
    omega

/-! ## White space between words -/

theorem words_cons {c : Char} (hc : isWhitespace c = true) (t : Text) : words (c :: t) = words t := by
  rw [words, List.splitOnP_cons_eq_if_modifyHead, if_pos hc]
  rfl

theorem words_append_left {g : Text} (hg : Blank g) (t : Text) : words (g ++ t) = words t := by
  induction g with
  | nil => rfl
  | cons c g ih =>
    rw [List.cons_append, words_cons (hg c List.mem_cons_self), ih fun d hd => hg d (List.mem_cons_of_mem _ hd)]

theorem words_of_blank {g : Text} (hg : Blank g) : words g = [] := by
  have h := words_append_left hg []
  rw [List.append_nil] at h
  rw [h]
  rfl

theorem words_append_right {g : Text} (hg : Blank g) (t : Text) : words (t ++ g) = words t := by
  cases g with
  | nil => rw [List.append_nil]
  | cons c g =>
    have hrest := words_of_blank fun d hd => hg d (List.mem_cons_of_mem _ hd)
    rw [words] at hrest ⊢
    rw [List.splitOnP_append_cons t g (hg c List.mem_cons_self), List.filter_append, hrest, List.append_nil, words]

theorem flatten_words (t : Text) : (words t).flatten = t.filter fun c => !isWhitespace c := by
  rw [words, List.flatten_filter_not_isEmpty, flatten_splitOnP]

/-- Collapsing a text drops and adds white space alone. -/
theorem count_collapse {c : Char} (hc : isWhitespace c = false) (t : Text) : (collapse t).count c = t.count c := by
  have hspace : c ≠ ' ' := by
    rintro rfl
    exact absurd hc (by decide)
  have hjoin : ∀ parts : List Text, ([' '].intercalate parts).count c = parts.flatten.count c := by
    intro parts
    induction parts with
    | nil => rfl
    | cons part parts ih =>
      cases parts with
      | nil => simp
      | cons next parts =>
        rw [List.intercalate_cons_cons, List.count_append, List.count_append, ih, List.count_singleton,
          if_neg (by simpa using hspace.symm)]
        simp only [List.flatten_cons, List.count_append]
        omega
  rw [collapse, hjoin, flatten_words, List.count_filter (by simp [hc])]

/-! ## The stages -/

theorem IsTime.clock {time : Text} (h : IsTime time) : ∃ c rest, IsClock c ∧ time = c ++ rest := by
  rcases h with h | ⟨clock, g, stop, rfl, hclock, -⟩
  · exact ⟨time, [], h, (List.append_nil _).symm⟩
  · exact ⟨clock, _, hclock, rfl⟩

/-- A time begins with no list marker. -/
theorem IsTime.not_listMarker {time : Text} (h : IsTime time) (rest : Text) : ¬Begins IsListMarker (time ++ rest) := by
  obtain ⟨clock, more, ⟨hours, m₁, m₂, rfl, hpos, -, hdigits, -⟩, rfl⟩ := h.clock
  rintro ⟨m, behind, hm, htext⟩
  have hleft : (hours ++ [':', m₁, m₂] ++ more ++ rest).takeWhile Char.isDigit = hours := by
    have hsplit : hours ++ [':', m₁, m₂] ++ more ++ rest = hours ++ ':' :: (m₁ :: m₂ :: (more ++ rest)) := by simp
    rw [hsplit, takeWhile_digits hdigits (by decide)]
  have hassoc : hours ++ [':', m₁, m₂] ++ more ++ rest = hours ++ ':' :: (m₁ :: m₂ :: (more ++ rest)) := by simp
  rcases hm with ⟨c, hc, rfl⟩ | ⟨digits, c, -, -, hdigits', hc, rfl⟩
  · obtain ⟨d, hours, rfl⟩ := List.exists_cons_of_ne_nil (List.length_pos_iff.mp hpos)
    rw [List.all_cons, Bool.and_eq_true] at hdigits
    rw [hassoc, List.cons_append, List.cons_append] at htext
    obtain ⟨rfl, -⟩ := List.cons.inj htext
    rcases hc with rfl | rfl | rfl <;> exact absurd hdigits.1 (by decide)
  · have hright : (digits ++ [c, ' '] ++ behind).takeWhile Char.isDigit = digits := by
      have hsplit : digits ++ [c, ' '] ++ behind = digits ++ c :: (' ' :: behind) := by simp
      rw [hsplit, takeWhile_digits hdigits' (by rcases hc with rfl | rfl <;> decide)]
    rw [htext, hright] at hleft
    rw [hassoc, ← hleft] at htext
    have hcut : digits ++ ':' :: (m₁ :: m₂ :: (more ++ rest)) = digits ++ c :: (' ' :: behind) := by simpa using htext
    have hcolon := (List.cons.inj (List.append_cancel_left hcut)).1
    rcases hc with rfl | rfl <;> exact absurd hcolon (by decide)

theorem IsTime.not_checkbox {time : Text} (h : IsTime time) (rest : Text) : ¬Begins IsCheckbox (time ++ rest) := by
  obtain ⟨clock, more, ⟨hours, m₁, m₂, rfl, hpos, -, hdigits, -⟩, rfl⟩ := h.clock
  obtain ⟨d, hours, rfl⟩ := List.exists_cons_of_ne_nil (List.length_pos_iff.mp hpos)
  rw [List.all_cons, Bool.and_eq_true] at hdigits
  rintro ⟨m, behind, ⟨c, -, rfl⟩, htext⟩
  obtain ⟨rfl, -⟩ := List.cons.inj htext
  exact absurd hdigits.1 (by decide)

theorem IsCheckbox.not_listMarker {b : Text} (h : IsCheckbox b) (rest : Text) : ¬Begins IsListMarker (b ++ rest) := by
  obtain ⟨c, -, rfl⟩ := h
  rintro ⟨m, behind, hm, htext⟩
  rcases hm with ⟨d, hd, rfl⟩ | ⟨digits, d, hpos, -, hdigits, -, rfl⟩
  · obtain ⟨rfl, -⟩ := List.cons.inj htext
    rcases hd with hd | hd | hd <;> exact absurd hd (by decide)
  · obtain ⟨e, digits, rfl⟩ := List.exists_cons_of_ne_nil (List.length_pos_iff.mp hpos)
    obtain ⟨rfl, -⟩ := List.cons.inj htext
    rw [List.all_cons, Bool.and_eq_true] at hdigits
    exact absurd hdigits.1 (by decide)

theorem marker_stage {indent marker y : Text} (hindent : Blank indent) (hmarker : marker = [] ∨ IsListMarker marker)
    (hy : marker = [] → ¬Begins IsListMarker (trimStart y)) :
    stripListMarker (trimStart (indent ++ (marker ++ y))) = y ∨
      stripListMarker (trimStart (indent ++ (marker ++ y))) = trimStart y := by
  rw [trimStart_append_of_blank hindent]
  rcases hmarker with rfl | hmarker
  · exact Or.inr (stripListMarker_of_not (hy rfl))
  · rw [solid_listMarker.trimStart hmarker]
    exact Or.inl (stripListMarker_append hmarker y)

theorem box_stage {box y t : Text} (hbox : box = [] ∨ IsCheckbox box) (ht : t = box ++ y ∨ t = trimStart (box ++ y))
    (hy : box = [] → ¬Begins IsCheckbox (trimStart y)) : stripCheckbox t = y ∨ stripCheckbox t = trimStart y := by
  rcases hbox with rfl | hbox
  · rw [List.nil_append] at ht
    rcases ht with rfl | rfl
    · exact Or.inl (stripCheckbox_of_not (solid_checkbox.not_begins (hy rfl)))
    · exact Or.inr (stripCheckbox_of_not (hy rfl))
  · rw [solid_checkbox.trimStart hbox, or_self] at ht
    rw [ht]
    exact Or.inl (stripCheckbox_append hbox y)

theorem time_stage {time gap x t : Text} (htime : time = [] ∧ gap = [] ∨ IsTime time ∧ gap ≠ [] ∧ Blank gap)
    (ht : t = time ++ (gap ++ x) ∨ t = trimStart (time ++ (gap ++ x))) (hx : ¬BeginsSetOff IsTime (trimStart x))
    (hrange : IsClock time → ¬BeginsSetOff IsRangeEnd (trimStart x)) :
    stripTimePrefix t = x ∨ stripTimePrefix t = trimStart x := by
  rcases htime with ⟨rfl, rfl⟩ | ⟨htime, hne, hgap⟩
  · rw [List.nil_append, List.nil_append] at ht
    rcases ht with rfl | rfl
    · exact Or.inl (stripTimePrefix_of_not (solid_time.not_beginsSetOff hx))
    · exact Or.inr (stripTimePrefix_of_not hx)
  · rw [solid_time.trimStart htime, or_self] at ht
    rw [ht]
    exact Or.inr (stripTimePrefix_append htime hgap hne hrange)

/-- The prefixes of a line go one after another. -/
theorem prefixes_stage {wrapping : Wrapping} (h : wrapping.Valid) {x : Text}
    (hmarker : ¬Begins IsListMarker (trimStart x)) (hbox : ¬Begins IsCheckbox (trimStart x))
    (htime : ¬BeginsSetOff IsTime (trimStart x))
    (hrange : IsClock wrapping.time → ¬BeginsSetOff IsRangeEnd (trimStart x)) :
    stripTimePrefix (stripCheckbox (stripListMarker (trimStart (wrapping.before ++ x)))) = x ∨
      stripTimePrefix (stripCheckbox (stripListMarker (trimStart (wrapping.before ++ x)))) = trimStart x := by
  have hassoc : wrapping.before ++ x =
      wrapping.indent ++ (wrapping.marker ++ (wrapping.box ++ (wrapping.time ++ (wrapping.gap ++ x)))) := by
    simp [Wrapping.before]
  have hsecond : ¬Begins IsCheckbox (trimStart (wrapping.time ++ (wrapping.gap ++ x))) := by
    rcases h.time with ⟨ht, hg⟩ | ⟨ht, -, -⟩
    · rw [ht, hg]
      exact hbox
    · rw [solid_time.trimStart ht]
      exact ht.not_checkbox _
  have hfirst : ¬Begins IsListMarker (trimStart (wrapping.box ++ (wrapping.time ++ (wrapping.gap ++ x)))) := by
    rcases h.box with hb | hb
    · rw [hb, List.nil_append]
      rcases h.time with ⟨ht, hg⟩ | ⟨ht, -, -⟩
      · rw [ht, hg]
        exact hmarker
      · rw [solid_time.trimStart ht]
        exact ht.not_listMarker _
    · rw [solid_checkbox.trimStart hb]
      exact hb.not_listMarker _
  rw [hassoc]
  exact time_stage h.time (box_stage h.box (marker_stage h.indent h.marker fun _ => hfirst) fun _ => hsecond) htime hrange

/-! ## The whole line -/

/-- A line without the terminator that ends it. -/
def chopped (line : Text) : Text :=
  let line := (stripSuffix ['\n'] line).getD line
  (stripSuffix ['\r'] line).getD line

theorem exists_chopped (line : Text) : ∃ s, Blank s ∧ line = chopped line ++ s := by
  have hone : ∀ (c : Char) (t : Text), isWhitespace c = true → ∃ s, Blank s ∧ t = (stripSuffix [c] t).getD t ++ s := by
    intro c t hc
    cases hstrip : stripSuffix [c] t with
    | none => exact ⟨[], .nil, (List.append_nil t).symm⟩
    | some rest =>
      refine ⟨[c], fun d hd => ?_, stripSuffix_eq_some.mp hstrip⟩
      rw [List.mem_singleton.mp hd]
      exact hc
  obtain ⟨s, hs, hline⟩ := hone '\n' line (by decide)
  obtain ⟨s', hs', hrest⟩ := hone '\r' ((stripSuffix ['\n'] line).getD line) (by decide)
  refine ⟨s' ++ s, hs'.append hs, ?_⟩
  conv_lhs => rw [hline, hrest]
  rw [chopped, List.append_assoc]

/-- What is left of a line without its prefixes. -/
def unprefixed (line : Text) : Text := stripTimePrefix (stripCheckbox (stripListMarker (trimStart (chopped line))))

theorem normalizeLine_eq (line : Text) :
    normalizeLine line = collapse (stripComments (unprefixed line).length (trimEnd (unprefixed line))) := rfl

/-- What is left of a line once everything around its words is stripped: the words, with single spaces. -/
theorem normalizeLine_around {wrapping : Wrapping} {w : Text} (h : wrapping.Valid) (hw : wrapping.Fits w) :
    normalizeLine (wrapping.around w) = collapse w := by
  obtain ⟨s, hs, hline⟩ := exists_chopped (wrapping.around w)
  have hblank : ¬Blank (w ++ wrapping.behind) := fun hb => hw.words fun c hc => hb c (List.mem_append_left _ hc)
  -- the terminator is cut off behind the words
  obtain ⟨x, hx, hbehind⟩ : ∃ x, chopped (wrapping.around w) = wrapping.before ++ x ∧ w ++ wrapping.behind = x ++ s := by
    rcases List.append_eq_append_iff.mp (show wrapping.before ++ (w ++ wrapping.behind) = _ from hline) with
      ⟨x, hx, hrest⟩ | ⟨x, -, hrest⟩
    · exact ⟨x, hx, hrest⟩
    · refine absurd (fun c hc => hs c ?_) hblank
      rw [hrest]
      exact List.mem_append_right _ hc
  have hxblank : ¬Blank x := fun hb => hblank (by rw [hbehind]; exact hb.append hs)
  have hstart : trimStart w ++ wrapping.behind = trimStart x ++ s := by
    rw [← trimStart_append hw.words, ← trimStart_append hxblank, hbehind]
  have hbegins : ∀ form : Text → Prop, ¬Begins form (trimStart w ++ wrapping.behind) → ¬Begins form (trimStart x) := by
    rintro form hnot ⟨p, rest, hp, htext⟩
    exact hnot ⟨p, rest ++ s, hp, by rw [hstart, htext, List.append_assoc]⟩
  have hbeginsSetOff : ∀ form : Text → Prop, ¬BeginsSetOff form (trimStart w ++ wrapping.behind) →
      ¬BeginsSetOff form (trimStart x) := by
    rintro form hnot ⟨p, rest, hp, htext, hrest⟩
    exact hnot ⟨p, rest ++ s, hp, by rw [hstart, htext, List.append_assoc], hrest.append hs⟩
  have hstage := prefixes_stage h (hbegins _ hw.marker) (hbegins _ hw.box) (hbeginsSetOff _ hw.time) fun hclock =>
    hbeginsSetOff _ (hw.range hclock)
  -- what is left is the text but for white space before the words
  obtain ⟨w₀, r, hw₀, rfl, hleft⟩ : ∃ w₀ r, Blank w₀ ∧ x = w₀ ++ r ∧
      unprefixed (wrapping.around w) = r := by
    rw [unprefixed, hx]
    rcases hstage with hstage | hstage
    · exact ⟨[], x, .nil, rfl, hstage⟩
    · exact ⟨_, _, blank_takeWhile x, (takeWhile_append_trimStart x).symm, hstage⟩
  obtain ⟨w₁, rfl, hrest⟩ : ∃ w₁, w = w₀ ++ w₁ ∧ w₁ ++ wrapping.behind = r ++ s := by
    rw [List.append_assoc] at hbehind
    rcases List.append_eq_append_iff.mp hbehind with ⟨x, hx, -⟩ | ⟨x, hx, hrest⟩
    · refine absurd (fun c hc => hw₀ c ?_) hw.words
      rw [hx]
      exact List.mem_append_left _ hc
    · exact ⟨x, hx, hrest.symm⟩
  have hw₁ : ¬Blank w₁ := fun hb => hw.words (hw₀.append hb)
  have hcomment : ∀ a b, trimEnd w₁ ≠ a ++ (commentOpen ++ (b ++ commentClose)) := by
    intro a b htext
    refine hw.comment (w₀ ++ a) b ?_
    rw [trimEnd_append hw₁, htext, List.append_assoc]
  have htrim : trimEnd r = trimEnd (w₁ ++ (commentsText wrapping.comments ++ wrapping.after)) := by
    rw [← trimEnd_append_of_blank hs r, ← hrest]
    rfl
  have hfuel : wrapping.comments.length ≤ r.length := by
    by_cases hnil : wrapping.comments = []
    · rw [hnil]
      exact Nat.zero_le _
    · have hle := length_comments_le h.comments
      have hprefix := (trimEnd_isPrefix r).length_le
      rw [htrim, trimEnd_commentsText h.comments h.after w₁ hnil, List.length_append] at hprefix
      omega
  have hstrip : stripComments r.length (trimEnd r) = trimEnd w₁ := by
    rw [htrim]
    exact stripComments_behind h.comments h.after hcomment hfuel
  have hwords : words (trimEnd w₁) = words (w₀ ++ w₁) := by
    rw [words_append_left hw₀, ← words_append_right (blank_rtakeWhile w₁) (trimEnd w₁), trimEnd_append_rtakeWhile]
  rw [normalizeLine_eq, hleft, hstrip, collapse, hwords, collapse]

/-! ## Lines named by their hash -/

theorem collapse_ne_nil {w : Text} (hw : ¬Blank w) : collapse w ≠ [] := by
  have hstart : trimStart w ≠ [] := fun hnil => hw (blank_iff_trimStart.mpr hnil)
  obtain ⟨c, rest, htext⟩ := List.exists_cons_of_ne_nil hstart
  have hblack : isWhitespace c = false := unindented_trimStart w c (by rw [htext]; rfl)
  have hwords : words w = words (c :: rest) := by
    rw [← htext, ← words_append_left (blank_takeWhile w) (trimStart w), takeWhile_append_trimStart]
  obtain ⟨first, more, hparts⟩ := List.exists_cons_of_ne_nil (List.splitOnP_ne_nil isWhitespace rest)
  have hhead : ∃ others, words (c :: rest) = (c :: first) :: others := by
    rw [words, List.splitOnP_cons_eq_if_modifyHead, if_neg (by simp [hblack]), hparts, List.modifyHead_cons]
    exact ⟨_, List.filter_cons_of_pos rfl⟩
  obtain ⟨others, hothers⟩ := hhead
  rw [collapse, hwords, hothers]
  cases others <;> simp [List.intercalate]

/-- A line among those a rule may match is found by the hash of its words, and is the one found unless another has them. -/
theorem findLine_of_mem (prim : Primitives) {document : Document} {section_ : Section} {index : ℕ} {text wanted : Text}
    (hmem : (index, text) ∈ document.matchable section_) (hhash : lineHash prim text = wanted)
    (hwords : normalizeLine text ≠ []) (ordinal : ℕ) :
    ∃ found text', findLine prim document section_ wanted ordinal = some found ∧
      (found, text') ∈ document.matchable section_ ∧ lineHash prim text' = wanted ∧
      ((∀ other text', (other, text') ∈ document.matchable section_ → lineHash prim text' = wanted → other = index) →
        found = index) := by
  unfold findLine
  dsimp only
  generalize hfound : (document.matchable section_).filter (fun line =>
    lineHash prim line.2 = wanted && !(normalizeLine line.2).isEmpty) = candidates
  have hcandidate : (index, text) ∈ candidates := by
    rw [← hfound, List.mem_filter]
    simp [hmem, hhash, hwords]
  have hpicked : ∃ found ∈ candidates.map Prod.fst,
      (candidates.map Prod.fst)[ordinal]?.or (candidates.map Prod.fst).head? = some found := by
    cases hat : (candidates.map Prod.fst)[ordinal]? with
    | some found => exact ⟨found, List.mem_of_getElem? hat, rfl⟩
    | none =>
      obtain ⟨first, rest, hfirst⟩ := List.exists_cons_of_ne_nil
        (List.ne_nil_of_mem (List.mem_map_of_mem (f := Prod.fst) hcandidate))
      rw [hfirst]
      exact ⟨first, List.mem_cons_self, rfl⟩
  obtain ⟨found, hin, hsome⟩ := hpicked
  obtain ⟨⟨found, text'⟩, hline, rfl⟩ := List.mem_map.mp hin
  rw [← hfound, List.mem_filter] at hline
  simp only [Bool.and_eq_true, decide_eq_true_eq] at hline
  exact ⟨found, text', hsome, hline.1, hline.2.1, fun honly => honly found text' hline.1 hline.2.1⟩

theorem IsListMarker.head {m : Text} (h : IsListMarker m) :
    ∃ c rest, m = c :: rest ∧ (c.isDigit = true ∨ c ∈ ['-', '*', '+']) := by
  rcases h with ⟨c, hc, rfl⟩ | ⟨digits, c, hpos, -, hdigits, -, rfl⟩
  · exact ⟨c, _, rfl, Or.inr (by simpa using hc)⟩
  · obtain ⟨d, digits, rfl⟩ := List.exists_cons_of_ne_nil (List.length_pos_iff.mp hpos)
    rw [List.all_cons, Bool.and_eq_true] at hdigits
    exact ⟨d, _, rfl, Or.inl hdigits.1⟩

theorem IsTime.head {t : Text} (h : IsTime t) : ∃ c rest, t = c :: rest ∧ c.isDigit = true := by
  obtain ⟨clock, more, ⟨hours, m₁, m₂, rfl, hpos, -, hdigits, -⟩, rfl⟩ := h.clock
  obtain ⟨d, hours, rfl⟩ := List.exists_cons_of_ne_nil (List.length_pos_iff.mp hpos)
  rw [List.all_cons, Bool.and_eq_true] at hdigits
  exact ⟨d, _, rfl, hdigits.1⟩

/-- A text that begins with another character begins with no part of a wrapping. -/
theorem not_begins_of_head {c : Char} {t : Text} (hdigit : c.isDigit = false) (hc : c ∉ ['-', '*', '+', '[']) :
    ¬Begins IsListMarker (c :: t) ∧ ¬Begins IsCheckbox (c :: t) ∧ ¬BeginsSetOff IsTime (c :: t) := by
  refine ⟨?_, ?_, ?_⟩
  · rintro ⟨m, rest, hm, htext⟩
    obtain ⟨d, more, rfl, hd⟩ := hm.head
    obtain ⟨rfl, -⟩ := List.cons.inj htext
    rcases hd with hd | hd
    · rw [hdigit] at hd
      cases hd
    · simp only [List.mem_cons, List.not_mem_nil, or_false] at hd hc
      tauto
  · rintro ⟨b, rest, ⟨d, -, rfl⟩, htext⟩
    obtain ⟨rfl, -⟩ := List.cons.inj htext
    exact hc (by simp)
  · rintro ⟨time, rest, htime, htext, -⟩
    obtain ⟨d, more, rfl, hd⟩ := htime.head
    obtain ⟨rfl, -⟩ := List.cons.inj htext
    rw [hdigit] at hd
    cases hd

theorem not_rangeEnd_of_head {c : Char} {t : Text} (hc : c ∉ ['–', '—', '-', 't']) : ¬BeginsSetOff IsRangeEnd (c :: t) := by
  rintro ⟨p, rest, ⟨separator, g, stop, rfl, hmem, -⟩, htext, -⟩
  simp only [List.mem_cons, List.not_mem_nil, or_false] at hmem hc
  rcases hmem with rfl | rfl | rfl | rfl
  · exact hc (Or.inl (List.cons.inj htext).1)
  · exact hc (Or.inr (Or.inl (List.cons.inj htext).1))
  · exact hc (Or.inr (Or.inr (Or.inl (List.cons.inj htext).1)))
  · exact hc (Or.inr (Or.inr (Or.inr (List.cons.inj htext).1)))

/-- Words of plain letters fit whatever wraps them. -/
theorem fits_of_head {c : Char} {t : Text} (hblack : isWhitespace c = false) (hdigit : c.isDigit = false)
    (hc : c ∉ ['-', '*', '+', '[', '–', '—', 't']) (hopen : '<' ∉ c :: t) (wrapping : Wrapping) :
    wrapping.Fits (c :: t) := by
  have hstart : trimStart (c :: t) ++ wrapping.behind = c :: (t ++ wrapping.behind) := by
    rw [trimStart_of_unindented (unindented_cons hblack t), List.cons_append]
  obtain ⟨hmarker, hbox, htime⟩ := not_begins_of_head (t := t ++ wrapping.behind) hdigit
    (fun hin => hc (by simp only [List.mem_cons, List.not_mem_nil, or_false] at hin ⊢; tauto))
  constructor
  · intro hblank
    have hwhite := hblank c List.mem_cons_self
    rw [hblack] at hwhite
    cases hwhite
  · rw [hstart]
    exact hmarker
  · rw [hstart]
    exact hbox
  · rw [hstart]
    exact htime
  · intro _
    rw [hstart]
    exact not_rangeEnd_of_head fun hin => hc (by
      simp only [List.mem_cons, List.not_mem_nil, or_false] at hin ⊢
      tauto)
  · intro a b htext
    refine hopen ((trimEnd_isPrefix (c :: t)).subset ?_)
    rw [htext]
    simp [commentOpen]

/-- Words keep their identity in whatever they are wrapped, so a write that names a line by its hash still finds it. -/
theorem words_keep_identity (prim : Primitives) {wrapping wrapping' : Wrapping} {w : Text} (h : wrapping.Valid)
    (hw : wrapping.Fits w) (h' : wrapping'.Valid) (hw' : wrapping'.Fits w) :
    normalizeLine (wrapping'.around w) = collapse w ∧
      lineHash prim (wrapping'.around w) = lineHash prim (wrapping.around w) ∧
      ∀ document section_ index ordinal, (index, wrapping'.around w) ∈ Document.matchable document section_ →
        ∃ found text, findLine prim document section_ (lineHash prim (wrapping.around w)) ordinal = some found ∧
          (found, text) ∈ document.matchable section_ ∧ lineHash prim text = lineHash prim (wrapping.around w) ∧
          ((∀ other text, (other, text) ∈ document.matchable section_ →
            lineHash prim text = lineHash prim (wrapping.around w) → other = index) → found = index) := by
  have hnormal := normalizeLine_around h hw
  have hnormal' := normalizeLine_around h' hw'
  have hhash : lineHash prim (wrapping'.around w) = lineHash prim (wrapping.around w) := by
    rw [lineHash, lineHash, hnormal, hnormal']
  refine ⟨hnormal', hhash, fun document section_ index ordinal hmem => ?_⟩
  exact findLine_of_mem prim hmem hhash (by rw [hnormal']; exact collapse_ne_nil hw.words) ordinal

/-- A task at half past nine. -/
def halfPastNine : Wrapping := ⟨[], ['-', ' '], ['[', ' ', ']', ' '], "09:30".toList, [' '], [], []⟩

theorem isClock_halfPastNine : IsClock halfPastNine.time :=
  ⟨['0', '9'], '3', '0', by decide, by decide, by decide, by decide, by decide, by decide, by decide, by decide⟩

theorem valid_halfPastNine : halfPastNine.Valid where
  indent := .nil
  marker := Or.inr (Or.inl ⟨'-', by simp, rfl⟩)
  box := Or.inr ⟨' ', by simp, rfl⟩
  time := Or.inr ⟨Or.inl isClock_halfPastNine, List.cons_ne_nil _ _, by decide⟩
  comments := fun comment hcomment => by cases hcomment
  after := .nil

/-- The same words ticked, bulleted anew, indented, given a range of times and a comment. -/
def doneByEleven : Wrapping :=
  ⟨[' ', ' '], ['*', ' '], ['[', 'x', ']', ' '], "9:30 – 11:00".toList, [' '], [([' '], "<!-- home -->".toList)], ['\n']⟩

theorem valid_doneByEleven : doneByEleven.Valid where
  indent := by decide
  marker := Or.inr (Or.inl ⟨'*', by simp, rfl⟩)
  box := Or.inr ⟨'x', by simp, rfl⟩
  time := Or.inr ⟨Or.inr ⟨"9:30".toList, [' '], "– 11:00".toList, by decide,
      ⟨['9'], '3', '0', by decide, by decide, by decide, by decide, by decide, by decide, by decide, by decide⟩, by decide,
      ⟨['–'], [' '], "11:00".toList, by decide, by simp, by decide, Or.inr
        ⟨['1', '1'], '0', '0', by decide, by decide, by decide, by decide, by decide, by decide, by decide, by decide⟩⟩⟩,
    List.cons_ne_nil _ _, by decide⟩
  comments := fun comment hcomment => by
    obtain rfl := List.mem_singleton.mp hcomment
    exact ⟨by decide, " home ".toList, by decide, by decide⟩
  after := by decide

theorem words_keep_identity_call :
    normalizeLine (doneByEleven.around "call  Anna".toList) = "call Anna".toList ∧
      lineHash asciiPrimitives (doneByEleven.around "call  Anna".toList) =
        lineHash asciiPrimitives (halfPastNine.around "call  Anna".toList) := by
  have htext : "call  Anna".toList = 'c' :: "all  Anna".toList := by decide
  have hfits := fits_of_head (c := 'c') (t := "all  Anna".toList) (by decide) (by decide) (by decide) (by decide)
  rw [← htext] at hfits
  have h := words_keep_identity asciiPrimitives valid_halfPastNine (hfits _) valid_doneByEleven
    (hfits _)
  exact ⟨h.1.trans (by decide), h.2.1⟩

/-- Words that begin with the end of a range go with the time before them. -/
theorem range_end_goes_with_time :
    halfPastNine.Valid ∧ ¬Blank "–11:00 stand".toList ∧
      (¬Begins IsListMarker "–11:00 stand".toList ∧ ¬Begins IsCheckbox "–11:00 stand".toList ∧
        ¬BeginsSetOff IsTime "–11:00 stand".toList) ∧
      normalizeLine (halfPastNine.around "–11:00 stand".toList) ≠ collapse "–11:00 stand".toList := by
  have htext : "–11:00 stand".toList = '–' :: "11:00 stand".toList := by decide
  refine ⟨valid_halfPastNine, by decide +kernel, ?_, by decide +kernel⟩
  rw [htext]
  exact not_begins_of_head (by decide) (by decide)

end Thock.SyncCore
