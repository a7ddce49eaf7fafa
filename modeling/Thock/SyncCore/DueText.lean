import Thock.Lib.Occurrence
import Thock.SyncCore.Reminder

/-!
# Dues in digits

A due and a token are written in digits and a few signs, and what is written for a year of four
digits is read back as the same due.
-/

namespace Thock.SyncCore

open TextScan

/-! ## Numbers -/

theorem isDigit_of_mem_decimal {n : ℕ} {c : Char} (h : c ∈ decimal n) : c.isDigit = true :=
  Nat.isDigit_of_mem_toDigits (by decide) (by decide) h

theorem not_mem_decimal {c : Char} (hc : c.isDigit = false) (n : ℕ) : c ∉ decimal n := fun h => by
  rw [isDigit_of_mem_decimal h] at hc
  cases hc

theorem decimal_ne_nil (n : ℕ) : decimal n ≠ [] := by
  have hpos := Nat.length_toDigits_pos (b := 10) (n := n)
  intro h
  rw [decimal] at h
  rw [h] at hpos
  exact absurd hpos (by decide)

theorem numberOf_decimal (n : ℕ) : numberOf (decimal n) = n := by
  have h := Nat.ofDigitChars_ten_toDigits (n := n)
  rwa [Nat.ofDigitChars_eq_foldl] at h

theorem isDigit_of_mem_padded {width n : ℕ} {c : Char} (h : c ∈ padded width n) : c.isDigit = true := by
  rcases List.mem_append.mp h with h | h
  · rw [(List.mem_replicate.mp h).2]
    decide
  · exact isDigit_of_mem_decimal h

theorem not_mem_padded {c : Char} (hc : c.isDigit = false) (width n : ℕ) : c ∉ padded width n := fun h => by
  rw [isDigit_of_mem_padded h] at hc
  cases hc

theorem padded_length (width n : ℕ) : (padded width n).length = max width (decimal n).length := by
  unfold padded
  rw [List.length_append, List.length_replicate]
  omega

/-- A number with no more digits than the width takes just the width. -/
theorem padded_length_of_lt {width n : ℕ} (hwidth : 0 < width) (h : n < 10 ^ width) : (padded width n).length = width := by
  have hdigits : (decimal n).length ≤ width := by
    unfold decimal
    rwa [Nat.length_toDigits_le_iff (by omega) hwidth]
  rw [padded_length]
  omega

/-- Zeros on the left do not change a number. -/
theorem numberOf_padded (width n : ℕ) : numberOf (padded width n) = n := by
  unfold padded
  generalize width - (decimal n).length = zeros
  induction zeros with
  | zero => exact numberOf_decimal n
  | succ zeros ih =>
    rw [List.replicate_succ, List.cons_append]
    exact ih

/-! ## Days and clock times -/

theorem Day.month_le (date : Day) : date.month ≤ 12 := by
  by_contra h
  have hday := date.day_le
  rw [List.getD_eq_getElem?_getD, List.getElem?_eq_none (by simp only [monthLengths, List.length_cons, List.length_nil]; omega),
    Option.getD_none] at hday
  have := date.day_pos
  omega

theorem Day.day_le_of_month (date : Day) : date.day ≤ 31 := by
  have hday := date.day_le
  have hlengths : ∀ length ∈ monthLengths date.year, length ≤ 31 := by
    unfold monthLengths
    split <;> simp
  rw [List.getD_eq_getElem?_getD] at hday
  cases hlength : (monthLengths date.year)[date.month - 1]? with
  | none =>
    rw [hlength, Option.getD_none] at hday
    omega
  | some length =>
    have hle := hlengths length (List.mem_of_getElem? hlength)
    rw [hlength, Option.getD_some] at hday
    omega

theorem ClockTime.padded_hour_length (time : ClockTime) : (padded 2 time.hour).length = 2 := by
  have := time.hour_le
  exact padded_length_of_lt (by omega) (by omega)

theorem ClockTime.padded_minute_length (time : ClockTime) : (padded 2 time.minute).length = 2 := by
  have := time.minute_le
  exact padded_length_of_lt (by omega) (by omega)

theorem ClockTime.text_length (time : ClockTime) : time.text.length = 5 := by
  unfold ClockTime.text
  rw [List.length_append, List.length_cons, time.padded_hour_length, time.padded_minute_length]

namespace Reminder

/-! ## What is written reads back -/

theorem splitFirst_char {c : Char} {before : Text} (h : c ∉ before) (after : Text) :
    splitFirst [c] (before ++ c :: after) = some (before, after) := by
  have hsplit := splitFirst_of_last [] after h List.not_mem_nil
  rwa [List.nil_append, List.append_assoc] at hsplit

theorem parseClock_text (time : ClockTime) : parseClock time.text = some time := by
  have hdigits : (padded 2 time.hour ++ padded 2 time.minute).all Char.isDigit = true := by
    rw [List.all_append, Bool.and_eq_true, List.all_eq_true, List.all_eq_true]
    exact ⟨fun c hc => isDigit_of_mem_padded hc, fun c hc => isDigit_of_mem_padded hc⟩
  unfold parseClock ClockTime.text
  rw [splitFirst_char (not_mem_padded (by decide) _ _), Option.bind_some]
  dsimp only
  rw [if_neg (by simp [time.padded_hour_length, time.padded_minute_length, hdigits]), numberOf_padded, numberOf_padded,
    ClockTime.ofHm, dif_pos ⟨time.hour_le, time.minute_le⟩]

/-- A date of a year of four digits, in its three numbers. -/
theorem dateText_eq {date : Day} (hyear : 0 ≤ date.year ∧ date.year ≤ 9999) :
    ∃ year month day : Text, dateText date = year ++ '-' :: (month ++ '-' :: day) ∧ year.length = 4 ∧ month.length = 2 ∧
      day.length = 2 ∧ (∀ c ∈ year ++ month ++ day, c.isDigit = true) ∧ (numberOf year : ℤ) = date.year ∧
      numberOf month = date.month ∧ numberOf day = date.day := by
  have hmonth := date.month_le
  have hday := date.day_le_of_month
  have hfour : date.year.toNat < 10 ^ 4 := by omega
  refine ⟨padded 4 date.year.toNat, padded 2 date.month, padded 2 date.day, ?_, padded_length_of_lt (by omega) hfour,
    padded_length_of_lt (by omega) (by omega), padded_length_of_lt (by omega) (by omega), ?_, ?_, numberOf_padded _ _,
    numberOf_padded _ _⟩
  · rw [dateText, yearText, if_pos hyear]
    simp
  · intro c hc
    rw [List.mem_append, List.mem_append] at hc
    rcases hc with (hc | hc) | hc
    · exact isDigit_of_mem_padded hc
    · exact isDigit_of_mem_padded hc
    · exact isDigit_of_mem_padded hc
  · rw [numberOf_padded]
    omega

/-- A text of four, two and two digits names the day of its numbers. -/
theorem parseIsoDate_digits {year month day : Text} (hyear : year.length = 4) (hmonth : month.length = 2)
    (hday : day.length = 2) (hdigits : ∀ c ∈ year ++ month ++ day, c.isDigit = true) :
    parseIsoDate (year ++ '-' :: (month ++ '-' :: day)) = Day.ofYmd (numberOf year) (numberOf month) (numberOf day) := by
  match year, month, day with
  | [y₁, y₂, y₃, y₄], [m₁, m₂], [d₁, d₂] =>
    unfold parseIsoDate
    simp only [List.cons_append, List.nil_append, List.mem_cons, List.not_mem_nil, or_false, forall_eq_or_imp,
      forall_eq] at hdigits
    simp [hdigits, slice, List.zipIdx]

theorem parseIsoDate_dateText {date : Day} (hyear : 0 ≤ date.year ∧ date.year ≤ 9999) :
    parseIsoDate (dateText date) = some date := by
  obtain ⟨year, month, day, htext, hy, hm, hd, hdigits, hyn, hmn, hdn⟩ := dateText_eq hyear
  rw [htext, parseIsoDate_digits hy hm hd hdigits, hyn, hmn, hdn, Day.ofYmd,
    dif_pos ⟨date.month_pos, date.day_pos, date.day_le⟩]

/-! ## Tokens -/

/-- The characters a token's date and time are written in. -/
def isTokenChar (c : Char) : Bool := c.isDigit || c = '-' || c = ':' || c = ' '

theorem isTokenChar_of_parseClock {text : Text} {time : ClockTime} (h : parseClock text = some time) :
    ∀ c ∈ text, isTokenChar c = true := by
  unfold parseClock at h
  obtain ⟨⟨hours, minutes⟩, hsplit, hparts⟩ := Option.bind_eq_some_iff.mp h
  dsimp only at hparts
  split at hparts
  · cases hparts
  · rename_i hshape
    have hdigits : (hours ++ minutes).all Char.isDigit = true := by
      by_contra hnot
      exact hshape (Or.inr (Or.inr hnot))
    rw [splitFirst_eq hsplit]
    intro c hc
    rw [List.append_assoc, List.mem_append, List.mem_append, List.mem_singleton] at hc
    rcases hc with hc | rfl | hc
    · simp [isTokenChar, List.all_eq_true.mp hdigits c (List.mem_append_left _ hc)]
    · decide
    · simp [isTokenChar, List.all_eq_true.mp hdigits c (List.mem_append_right _ hc)]

theorem isTokenChar_of_parseIsoDate {text : Text} {date : Day} (h : parseIsoDate text = some date) :
    ∀ c ∈ text, isTokenChar c = true := by
  unfold parseIsoDate at h
  split at h
  · cases h
  · rename_i hshape
    simp only [not_or, not_not] at hshape
    obtain ⟨-, hfour, hseven, hrest⟩ := hshape
    intro c hc
    obtain ⟨index, hlt, hat⟩ := List.getElem_of_mem hc
    have hmem : (c, index) ∈ text.zipIdx := by
      rw [List.mem_zipIdx_iff_getElem?]
      rw [List.getElem?_eq_getElem hlt, hat]
    have hchar := List.all_eq_true.mp hrest _ hmem
    have hat : text[index]? = some c := by rw [List.getElem?_eq_getElem hlt, hat]
    simp only [Bool.or_eq_true, decide_eq_true_eq] at hchar
    rcases hchar with (rfl | rfl) | hdigit
    · rw [hfour] at hat
      obtain rfl := Option.some.inj hat
      decide
    · rw [hseven] at hat
      obtain rfl := Option.some.inj hat
      decide
    · simp [isTokenChar, hdigit]

/-- What a token may say is written in the characters of dates and times. -/
theorem isTokenChar_of_parseWhen {text : Text} {when_ : When} (h : parseWhen text = some when_) :
    ∀ c ∈ text, isTokenChar c = true := by
  unfold parseWhen at h
  split at h
  · rename_i date time hsplit
    obtain ⟨day, hday, h⟩ := Option.bind_eq_some_iff.mp h
    obtain ⟨clock, hclock, -⟩ := Option.map_eq_some_iff.mp h
    rw [splitFirst_eq hsplit]
    intro c hc
    rw [List.append_assoc, List.mem_append, List.mem_append, List.mem_singleton] at hc
    rcases hc with hc | rfl | hc
    · exact isTokenChar_of_parseIsoDate hday c hc
    · decide
    · exact isTokenChar_of_parseClock hclock c hc
  · split at h
    · obtain ⟨clock, hclock, -⟩ := Option.map_eq_some_iff.mp h
      exact isTokenChar_of_parseClock hclock
    · obtain ⟨day, hday, -⟩ := Option.map_eq_some_iff.mp h
      exact isTokenChar_of_parseIsoDate hday

theorem holds_singleton_of_mem {c : Char} {t : Text} (h : c ∈ t) : holds [c] t = true := by
  obtain ⟨before, after, rfl⟩ := List.append_of_mem h
  unfold holds
  have hsome := splitFirst_isSome [c] before after
  simpa using hsome

theorem splitFirst_char_none {c : Char} {t : Text} (h : c ∉ t) : splitFirst [c] t = none :=
  splitFirst_eq_none (not_infix_of_not_mem List.mem_cons_self h)

theorem not_mem_clockText {c : Char} (hc : c.isDigit = false) (hcolon : c ≠ ':') (time : ClockTime) : c ∉ time.text := by
  intro h
  rcases List.mem_append.mp h with h | h
  · exact not_mem_padded hc _ _ h
  · rcases List.mem_cons.mp h with h | h
    · exact hcolon h
    · exact not_mem_padded hc _ _ h

theorem not_mem_dateText {c : Char} (hc : c.isDigit = false) (hsign : c ≠ '-' ∧ c ≠ '+') (date : Day) :
    c ∉ dateText date := by
  have hyear : c ∉ yearText date.year := by
    unfold yearText
    split
    · exact not_mem_padded hc _ _
    · intro h
      rcases List.mem_cons.mp h with h | h
      · split at h
        · exact hsign.1 h
        · exact hsign.2 h
      · exact not_mem_padded hc _ _ h
  intro h
  simp only [dateText, List.mem_append, List.mem_cons] at h
  rcases h with (h | h | h) | h | h
  · exact hyear h
  · exact hsign.1 h
  · exact not_mem_padded hc _ _ h
  · exact hsign.1 h
  · exact not_mem_padded hc _ _ h

theorem parseWhen_time (time : ClockTime) : parseWhen time.text = some (.time time) := by
  have hcolon : holds [':'] time.text = true := holds_singleton_of_mem (by simp [ClockTime.text])
  unfold parseWhen
  rw [splitFirst_char_none (not_mem_clockText (by decide) (by decide) time)]
  simp only [hcolon, if_true, parseClock_text, Option.map_some]

theorem parseWhen_due {due : Due} (hyear : 0 ≤ due.date.year ∧ due.date.year ≤ 9999) :
    ∃ when_, parseWhen (dueText due) = some when_ ∧ ∀ homeDay, when_.due homeDay = some due := by
  obtain ⟨date, time⟩ := due
  have hspace : ' ' ∉ dateText date := not_mem_dateText (by decide) (by decide) date
  cases time with
  | none =>
    have hcolon : holds [':'] (dateText date) = false := by
      unfold holds
      rw [splitFirst_char_none (not_mem_dateText (by decide) (by decide) date)]
      rfl
    refine ⟨.date date, ?_, fun _ => rfl⟩
    unfold parseWhen dueText
    rw [Option.elim_none, List.append_nil, splitFirst_char_none hspace]
    simp [hcolon, parseIsoDate_dateText hyear]
  | some time =>
    refine ⟨.dateTime date time, ?_, fun _ => rfl⟩
    unfold parseWhen dueText
    rw [Option.elim_some, splitFirst_char hspace]
    simp [parseIsoDate_dateText hyear, parseClock_text]

/-- A token that is written reads back as its due on a line of its home day. -/
theorem tokenText_reads {due : Due} (hyear : 0 ≤ due.date.year ∧ due.date.year ≤ 9999) (homeDay : Option Day) :
    ∃ inner when_, tokenText due homeDay = tokenOpen ++ inner ++ [')'] ∧ parseWhen inner = some when_ ∧
      when_.due homeDay = some due := by
  obtain ⟨when_, hwhen, hdue⟩ := parseWhen_due hyear
  unfold tokenText
  cases htime : due.time with
  | none => exact ⟨_, when_, rfl, hwhen, hdue homeDay⟩
  | some time =>
    dsimp only
    split
    · rename_i hday
      refine ⟨_, .time time, rfl, parseWhen_time time, ?_⟩
      rw [hday]
      simp [When.due, ← htime]
    · exact ⟨_, when_, rfl, hwhen, hdue homeDay⟩

/-! ## Telling dues apart -/

theorem padded_injective (width : ℕ) : Function.Injective (padded width) := fun m n h => by
  rw [← numberOf_padded width m, h, numberOf_padded]

/-- A year is written after no sign, or after its own. -/
theorem yearText_injective : Function.Injective yearText := by
  intro a b h
  have hsigned : ∀ (y : ℤ) (n m : ℕ), padded 4 n ≠ (if y < 0 then '-' else '+') :: padded 4 m := by
    intro y n m heq
    have hsign : (if y < 0 then '-' else '+').isDigit = false := by split <;> decide
    exact not_mem_padded hsign 4 n (heq ▸ List.mem_cons_self)
  unfold yearText at h
  by_cases ha : 0 ≤ a ∧ a ≤ 9999
  · rw [if_pos ha] at h
    by_cases hb : 0 ≤ b ∧ b ≤ 9999
    · rw [if_pos hb] at h
      have hyear := padded_injective 4 h
      omega
    · rw [if_neg hb] at h
      exact absurd h (hsigned _ _ _)
  · rw [if_neg ha] at h
    by_cases hb : 0 ≤ b ∧ b ≤ 9999
    · rw [if_pos hb] at h
      exact absurd h.symm (hsigned _ _ _)
    · rw [if_neg hb] at h
      obtain ⟨hsign, hrest⟩ := List.cons.inj h
      have hyear := padded_injective 4 hrest
      have hsame : a < 0 ↔ b < 0 := by
        by_cases hneg : a < 0 <;> by_cases hneg' : b < 0 <;> simp [hneg, hneg'] at hsign ⊢
      omega

theorem padded_month_length (date : Day) : (padded 2 date.month).length = 2 :=
  padded_length_of_lt (by decide) (by have := date.month_le; omega)

theorem padded_day_length (date : Day) : (padded 2 date.day).length = 2 :=
  padded_length_of_lt (by decide) (by have := date.day_le_of_month; omega)

theorem dateText_injective : Function.Injective dateText := by
  intro a b h
  simp only [dateText, List.append_assoc, List.cons_append] at h
  obtain ⟨hyear, hrest⟩ := List.append_inj' h
    (by simp only [List.length_cons, List.length_append, padded_month_length, padded_day_length])
  obtain ⟨hmonth, hday⟩ := List.append_inj (List.cons.inj hrest).2
    ((padded_month_length a).trans (padded_month_length b).symm)
  have hyear' := yearText_injective hyear
  have hmonth' := padded_injective 2 hmonth
  have hday' := padded_injective 2 (List.cons.inj hday).2
  cases a
  cases b
  simp_all

/-- Two dues are written alike only if they are the same. -/
theorem dueText_injective : Function.Injective dueText := by
  intro a b h
  have hspace : ∀ date : Day, ' ' ∉ dateText date := not_mem_dateText (by decide) (by decide)
  have hsplit := congrArg (splitFirst [' ']) h
  unfold dueText at h hsplit
  obtain ⟨aDate, aTime⟩ := a
  obtain ⟨bDate, bTime⟩ := b
  cases aTime with
  | none =>
    cases bTime with
    | none => rw [dateText_injective (by simpa using h : dateText aDate = dateText bDate)]
    | some bTime => simp [splitFirst_char_none (hspace aDate), splitFirst_char (hspace bDate)] at hsplit
  | some aTime =>
    cases bTime with
    | none => simp [splitFirst_char_none (hspace bDate), splitFirst_char (hspace aDate)] at hsplit
    | some bTime =>
      simp only [Option.elim_some, splitFirst_char (hspace aDate), splitFirst_char (hspace bDate), Option.some.injEq,
        Prod.mk.injEq] at hsplit
      have htime : some aTime = some bTime := by rw [← parseClock_text, hsplit.2, parseClock_text]
      rw [dateText_injective hsplit.1, Option.some.inj htime]

end Reminder

end Thock.SyncCore
