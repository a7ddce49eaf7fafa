import Thock.SyncCore.DueText

/-!
# Dates read back

A day of this century that is written in a format with a year, a month and a day of the month is
read back through it, in whatever order, width and surroundings the format has them. The reader
stops at the first reading that is written back the same, and the day itself is among the
readings it tries.
-/

namespace Thock.SyncCore

open TextScan

/-- What the date library promises of weekdays and ISO weeks: a week has seven days, a year at
most 53 weeks, and a week's year is the day's or one next to it. -/
structure Chrono.Lawful (chrono : Chrono) : Prop where
  weekday_lt : ∀ date, chrono.weekday date < 7
  isoWeek_le : ∀ date, chrono.isoWeek date ≤ 53
  isoYear_near : ∀ date, date.year - 1 ≤ chrono.isoYear date ∧ chrono.isoYear date ≤ date.year + 1

/-- What a token stands for on a day. -/
def FormatToken.emit (chrono : Chrono) (date : Day) : FormatToken → Text
  | .literal c => [c]
  | .run c length => emitDateToken chrono date c length

/-- A run is of a token letter. -/
def FormatToken.Known : FormatToken → Prop
  | .literal _ => True
  | .run c _ => isDateToken c = true

theorem formatDateFrom_eq (chrono : Chrono) (date : Day) (fuel : ℕ) (format : Text) :
    formatDateFrom chrono date fuel format = (formatTokensFrom fuel format).flatMap (FormatToken.emit chrono date) := by
  induction fuel generalizing format with
  | zero => rfl
  | succ fuel ih =>
    cases format with
    | nil => rfl
    | cons c rest =>
      simp only [formatDateFrom, formatTokensFrom]
      split
      · rw [List.flatMap_append, ih, List.flatMap_map]
        simp only [FormatToken.emit, List.flatMap_singleton']
      · split
        · rw [List.flatMap_cons, ih]
          rfl
        · rw [List.flatMap_cons, ih]
          rfl

theorem known_of_mem_formatTokensFrom {fuel : ℕ} {format : Text} {token : FormatToken}
    (h : token ∈ formatTokensFrom fuel format) : token.Known := by
  induction fuel generalizing format with
  | zero => cases h
  | succ fuel ih =>
    cases format with
    | nil => cases h
    | cons c rest =>
      simp only [formatTokensFrom] at h
      split at h
      · rcases List.mem_append.mp h with h | h
        · obtain ⟨c, -, rfl⟩ := List.mem_map.mp h
          trivial
        · exact ih h
      · split at h
        · next hc =>
          rcases List.mem_cons.mp h with rfl | h
          · exact hc
          · exact ih h
        · rcases List.mem_cons.mp h with rfl | h
          · trivial
          · exact ih h

/-! ## Reading one part -/

section

variable {digits rest name : Text} {n : ℕ} {read : ℕ × Text → Option Day}

theorem takeDigits_append (h : ∀ c ∈ digits, c.isDigit = true) :
    takeDigits (digits ++ rest) digits.length = some (numberOf digits, rest) := by
  simp only [takeDigits, List.take_left, List.drop_left, List.all_eq_true]
  rw [if_pos ⟨trivial, h⟩]

/-- A number filled up to a width is read with it. -/
theorem takeDigits_padded {width : ℕ} (hwidth : 0 < width) (h : n < 10 ^ width) :
    takeDigits (padded width n ++ rest) width = some (n, rest) := by
  have hread : takeDigits (padded width n ++ rest) (padded width n).length = some (numberOf (padded width n), rest) :=
    takeDigits_append fun _ => isDigit_of_mem_padded
  rwa [padded_length_of_lt hwidth h, numberOf_padded] at hread

/-- A number below a hundred is read with the width it has, if the longer one leads nowhere. -/
theorem findSome?_widths (h : n < 100) (hread : (read (n, rest)).isSome = true) :
    ([2, 1].findSome? fun width => (takeDigits (decimal n ++ rest) width).bind read).isSome = true := by
  have hlength : (decimal n).length = 2 ∨ (decimal n).length = 1 := by
    have hle : (decimal n).length ≤ 2 := (Nat.length_toDigits_le_iff (by decide) (by decide)).mpr h
    have hpos := List.length_pos_iff.mpr (decimal_ne_nil n)
    omega
  rw [List.findSome?_isSome_iff]
  refine ⟨(decimal n).length, by simpa using hlength, ?_⟩
  rw [takeDigits_append fun c hc => isDigit_of_mem_decimal hc, numberOf_decimal]
  exact hread

theorem stripPrefix_append (name rest : Text) : stripPrefix name (name ++ rest) = some rest := by
  simp [stripPrefix]

theorem monthName_mem (date : Day) : (monthName date, date.month - 1) ∈ monthNames.zipIdx := by
  have hlt : date.month - 1 < monthNames.length := by
    have hle := date.month_le
    change date.month - 1 < 12
    have hpos := date.month_pos
    omega
  have hname : monthNames[date.month - 1]? = some (monthName date) := by
    rw [monthName, List.getD_eq_getElem?_getD, List.getElem?_eq_getElem hlt]
    rfl
  exact List.mem_zipIdx_iff_getElem?.mpr hname

theorem weekdayName_mem (chrono : Chrono) (date : Day) : weekdayName chrono date ∈ weekdayNames := by
  have hlt : (chrono.weekday date + 6) % 7 < weekdayNames.length := Nat.mod_lt _ (by decide)
  rw [weekdayName, List.getD_eq_getElem?_getD, List.getElem?_eq_getElem hlt]
  exact List.getElem_mem hlt

end

/-! ## Reading the tokens -/

/-- The year, the month and the day are the date's by the time the tokens are read. -/
structure Settles (date : Day) (tokens : List FormatToken) (fields : DateFields) : Prop where
  year : fields.year = some date.year ∨ tokens.any (FormatToken.isRunOf 'Y') = true
  month : fields.month = some date.month ∨ tokens.any (FormatToken.isRunOf 'M') = true
  day : fields.day = some date.day ∨ tokens.any (FormatToken.isRunOf 'D') = true

namespace Settles

variable {date : Day} {tokens : List FormatToken} {fields : DateFields}

theorem of_literal {c : Char} (h : Settles date (.literal c :: tokens) fields) : Settles date tokens fields :=
  ⟨h.year, h.month, h.day⟩

theorem of_year {run : ℕ} (h : Settles date (.run 'Y' run :: tokens) fields) :
    Settles date tokens { fields with year := some date.year } :=
  ⟨.inl rfl, h.month, h.day⟩

theorem of_month {run : ℕ} (h : Settles date (.run 'M' run :: tokens) fields) :
    Settles date tokens { fields with month := some date.month } :=
  ⟨h.year, .inl rfl, h.day⟩

theorem of_day {run : ℕ} (h : Settles date (.run 'D' run :: tokens) fields) :
    Settles date tokens { fields with day := some date.day } :=
  ⟨h.year, h.month, .inl rfl⟩

/-- Weekdays and weeks leave the day to the other tokens. -/
theorem of_week {c : Char} {run : ℕ} (hc : c ∈ ['d', 'W', 'G']) (h : Settles date (.run c run :: tokens) fields)
    (isoYear : Option ℤ) (week : Option ℕ) : Settles date tokens { fields with isoYear, week } := by
  have hother : (FormatToken.run c run).isRunOf 'Y' = false ∧ (FormatToken.run c run).isRunOf 'M' = false ∧
      (FormatToken.run c run).isRunOf 'D' = false := by
    simp only [List.mem_cons, List.not_mem_nil, or_false] at hc
    rcases hc with rfl | rfl | rfl <;> exact ⟨rfl, rfl, rfl⟩
  obtain ⟨hyear, hmonth, hday⟩ := h
  rw [List.any_cons, hother.1, Bool.false_or] at hyear
  rw [List.any_cons, hother.2.1, Bool.false_or] at hmonth
  rw [List.any_cons, hother.2.2, Bool.false_or] at hday
  exact ⟨hyear, hmonth, hday⟩

theorem resolve (h : Settles date [] fields) (chrono : Chrono) : fields.resolve chrono = some date := by
  obtain ⟨hyear | hyear, hmonth | hmonth, hday | hday⟩ := h
  case inl.inl.inl =>
    rw [DateFields.resolve, hyear, hmonth, hday]
    exact dif_pos ⟨date.month_pos, date.day_pos, date.day_le⟩
  all_goals contradiction

end Settles

section

variable {chrono : Chrono} {date : Day} {format full rest : Text} {tokens : List FormatToken} {fields : DateFields}

/-- The reader on a run of each letter, where its length only tells two readings apart. -/
theorem tryMatch_year {input : Text} {run : ℕ} (h : run ≠ 2) :
    tryMatch chrono format full (.run 'Y' run :: tokens) input fields =
      (takeDigits input 4).bind fun r => tryMatch chrono format full tokens r.2 { fields with year := some r.1 } := by
  match run, h with
  | 0, _ | 1, _ | _ + 3, _ => rfl

theorem tryMatch_month {input : Text} {run : ℕ} (h : 2 < run ∨ run = 0) :
    tryMatch chrono format full (.run 'M' run :: tokens) input fields =
      monthNames.zipIdx.findSome? fun (name, index) =>
        (stripPrefix (if run = 3 then name.take 3 else name) input).bind fun rest =>
          tryMatch chrono format full tokens rest { fields with month := some (index + 1) } := by
  match run, h with
  | 0, _ | _ + 3, _ => rfl

theorem tryMatch_day {input : Text} {run : ℕ} (h : run ≠ 1) :
    tryMatch chrono format full (.run 'D' run :: tokens) input fields =
      (takeDigits input 2).bind fun r => tryMatch chrono format full tokens r.2 { fields with day := some r.1 } := by
  match run, h with
  | 0, _ | _ + 2, _ => rfl

theorem tryMatch_weekday {input : Text} {run : ℕ} (h : 2 < run ∨ run = 0) :
    tryMatch chrono format full (.run 'd' run :: tokens) input fields =
      weekdayNames.findSome? fun name =>
        (stripPrefix (if run = 3 then name.take 3 else name) input).bind fun rest =>
          tryMatch chrono format full tokens rest fields := by
  match run, h with
  | 0, _ | _ + 3, _ => rfl

theorem tryMatch_week {input : Text} {run : ℕ} (h : run ≠ 1) :
    tryMatch chrono format full (.run 'W' run :: tokens) input fields =
      (takeDigits input 2).bind fun r => tryMatch chrono format full tokens r.2 { fields with week := some r.1 } := by
  match run, h with
  | 0, _ | _ + 2, _ => rfl

theorem tryMatch_isoYear {input : Text} {run : ℕ} (h : run ≠ 2) :
    tryMatch chrono format full (.run 'G' run :: tokens) input fields =
      (takeDigits input 4).bind fun r => tryMatch chrono format full tokens r.2 { fields with isoYear := some r.1 } := by
  match run, h with
  | 0, _ | 1, _ | _ + 3, _ => rfl

/-- A year of this century in four digits, and in two. -/
theorem paddedInt_four {year : ℤ} (h : 0 ≤ year) : paddedInt 4 year = padded 4 year.toNat := if_neg (by omega)

theorem paddedInt_two {year : ℤ} (hfrom : 2000 ≤ year) (hto : year ≤ 2099) :
    paddedInt 2 (year.tmod 100) = padded 2 (year - 2000).toNat := by
  have hmod : year.tmod 100 = year - 2000 := by
    rw [Int.tmod_eq_emod_of_nonneg (by omega)]
    omega
  rw [hmod, paddedInt, if_neg (by omega)]

/-- The names a run stands for: short ones of three letters, or the whole name. -/
theorem nameToken_eq {run : ℕ} (h : 2 < run ∨ run = 0) (chrono : Chrono) (date : Day) :
    emitDateToken chrono date 'M' run = (if run = 3 then (monthName date).take 3 else monthName date) ∧
      emitDateToken chrono date 'd' run = if run = 3 then (weekdayName chrono date).take 3 else weekdayName chrono date := by
  match run, h with
  | 0, _ | 3, _ | _ + 4, _ => exact ⟨rfl, rfl⟩

/-- A run is read as what it stands for on the day, if the rest of the day can then be read. -/
theorem tryMatch_run (h : chrono.Lawful) (hfrom : 2000 ≤ date.year) (hto : date.year ≤ 2099) {c : Char} {run : ℕ}
    (hc : isDateToken c = true) (hsettles : Settles date (.run c run :: tokens) fields)
    (hrest : ∀ fields, Settles date tokens fields → (tryMatch chrono format full tokens rest fields).isSome = true) :
    (tryMatch chrono format full (.run c run :: tokens) (emitDateToken chrono date c run ++ rest) fields).isSome = true := by
  have hmonth := date.month_le
  have hmonthPos := date.month_pos
  have hday := date.day_le_of_month
  have hweek := h.isoWeek_le date
  have hweekday := h.weekday_lt date
  have hnear := h.isoYear_near date
  simp only [isDateToken, List.mem_cons, List.not_mem_nil, or_false, decide_eq_true_eq] at hc
  rcases hc with rfl | rfl | rfl | rfl | rfl | rfl
  · by_cases hrun : run = 2
    · subst hrun
      have hyear : ((2000 + (date.year - 2000).toNat : ℕ) : ℤ) = date.year := by omega
      change (tryMatch _ _ _ _ (paddedInt 2 (date.year.tmod 100) ++ rest) _).isSome = true
      rw [paddedInt_two hfrom hto]
      change ((takeDigits _ 2).bind _).isSome = true
      rw [takeDigits_padded (by decide) (by omega)]
      have hread := hrest _ hsettles.of_year
      rwa [← hyear] at hread
    · have hemit : emitDateToken chrono date 'Y' run = paddedInt 4 date.year := by
        match run, hrun with
        | 0, _ | 1, _ | _ + 3, _ => rfl
      rw [hemit, paddedInt_four (by omega), tryMatch_year hrun, takeDigits_padded (by decide) (by omega)]
      have hread := hrest _ hsettles.of_year
      rwa [← Int.toNat_of_nonneg (show 0 ≤ date.year by omega)] at hread
  · by_cases hname : 2 < run ∨ run = 0
    · rw [(nameToken_eq hname chrono date).1, tryMatch_month hname, List.findSome?_isSome_iff]
      refine ⟨_, monthName_mem date, ?_⟩
      simp only [stripPrefix_append, Option.bind_some, Nat.sub_add_cancel hmonthPos]
      exact hrest _ hsettles.of_month
    · obtain rfl | rfl : run = 1 ∨ run = 2 := by omega
      · change ([2, 1].findSome? fun width => (takeDigits (decimal date.month ++ rest) width).bind _).isSome = true
        exact findSome?_widths (by omega) (hrest _ hsettles.of_month)
      · change ((takeDigits (padded 2 date.month ++ rest) 2).bind _).isSome = true
        rw [takeDigits_padded (by decide) (by omega)]
        exact hrest _ hsettles.of_month
  · by_cases hrun : run = 1
    · subst hrun
      change ([2, 1].findSome? fun width => (takeDigits (decimal date.day ++ rest) width).bind _).isSome = true
      exact findSome?_widths (by omega) (hrest _ hsettles.of_day)
    · have hemit : emitDateToken chrono date 'D' run = padded 2 date.day := by
        match run, hrun with
        | 0, _ | _ + 2, _ => rfl
      rw [hemit, tryMatch_day hrun, takeDigits_padded (by decide) (by omega)]
      exact hrest _ hsettles.of_day
  · have hread := hrest fields (hsettles.of_week (by decide) fields.isoYear fields.week)
    by_cases hname : 2 < run ∨ run = 0
    · rw [(nameToken_eq hname chrono date).2, tryMatch_weekday hname, List.findSome?_isSome_iff]
      refine ⟨_, weekdayName_mem chrono date, ?_⟩
      rw [stripPrefix_append]
      exact hread
    · obtain rfl | rfl : run = 1 ∨ run = 2 := by omega
      · have hdigit : padded 1 (chrono.weekday date) = decimal (chrono.weekday date) := by
          have hpos := List.length_pos_iff.mpr (decimal_ne_nil (chrono.weekday date))
          rw [padded, Nat.sub_eq_zero_of_le hpos]
          rfl
        change ((takeDigits (decimal (chrono.weekday date) ++ rest) 1).bind _).isSome = true
        rw [← hdigit, takeDigits_padded (by decide) (by omega)]
        exact hread
      · change (weekdayNames.findSome? fun name =>
          (stripPrefix (name.take 2) ((weekdayName chrono date).take 2 ++ rest)).bind _).isSome = true
        rw [List.findSome?_isSome_iff]
        refine ⟨_, weekdayName_mem chrono date, ?_⟩
        rw [stripPrefix_append]
        exact hread
  · by_cases hrun : run = 1
    · subst hrun
      change ([2, 1].findSome? fun width => (takeDigits (decimal (chrono.isoWeek date) ++ rest) width).bind _).isSome = true
      exact findSome?_widths (by omega) (hrest _ (hsettles.of_week (by decide) fields.isoYear _))
    · have hemit : emitDateToken chrono date 'W' run = padded 2 (chrono.isoWeek date) := by
        match run, hrun with
        | 0, _ | _ + 2, _ => rfl
      rw [hemit, tryMatch_week hrun, takeDigits_padded (by decide) (by omega)]
      exact hrest _ (hsettles.of_week (by decide) fields.isoYear _)
  · by_cases hrun : run = 2
    · subst hrun
      have hmod : 0 ≤ (chrono.isoYear date).tmod 100 ∧ (chrono.isoYear date).tmod 100 < 100 := by
        rw [Int.tmod_eq_emod_of_nonneg (by omega)]
        omega
      change (tryMatch _ _ _ _ (paddedInt 2 ((chrono.isoYear date).tmod 100) ++ rest) _).isSome = true
      rw [paddedInt, if_neg (by omega)]
      change ((takeDigits _ 2).bind _).isSome = true
      rw [takeDigits_padded (by decide) (by omega)]
      exact hrest _ (hsettles.of_week (by decide) _ fields.week)
    · have hemit : emitDateToken chrono date 'G' run = paddedInt 4 (chrono.isoYear date) := by
        match run, hrun with
        | 0, _ | 1, _ | _ + 3, _ => rfl
      rw [hemit, paddedInt_four (by omega), tryMatch_isoYear hrun, takeDigits_padded (by decide) (by omega)]
      exact hrest _ (hsettles.of_week (by decide) _ fields.week)

/-- The day itself is among the readings that are tried, so some reading is found. -/
theorem tryMatch_isSome (h : chrono.Lawful) (hfrom : 2000 ≤ date.year) (hto : date.year ≤ 2099)
    (hknown : ∀ token ∈ tokens, token.Known) (hsettles : Settles date tokens fields) :
    (tryMatch chrono format (formatDate chrono date format) tokens
      (tokens.flatMap (FormatToken.emit chrono date)) fields).isSome = true := by
  induction tokens generalizing fields with
  | nil =>
    have hread : tryMatch chrono format (formatDate chrono date format) [] [] fields = some date := by
      change ((fields.resolve chrono).bind fun date' =>
        if formatDate chrono date' format = formatDate chrono date format then some date' else none) = some date
      rw [hsettles.resolve chrono, Option.bind_some, if_pos rfl]
    exact Option.isSome_iff_exists.mpr ⟨date, hread⟩
  | cons token tokens ih =>
    have hrest (fields : DateFields) (hsettles : Settles date tokens fields) :=
      ih (fun other hother => hknown other (List.mem_cons_of_mem token hother)) hsettles
    cases token with
    | literal c =>
      change ((stripPrefix [c] ([c] ++ tokens.flatMap (FormatToken.emit chrono date))).bind _).isSome = true
      rw [stripPrefix_append]
      exact hrest fields hsettles.of_literal
    | run c run =>
      rw [List.flatMap_cons]
      exact tryMatch_run h hfrom hto (hknown _ List.mem_cons_self) hsettles hrest

/-- Whatever a run is read as, the result is the one found from there. -/
theorem exists_of_tryMatch_run {input : Text} {c : Char} {run : ℕ} {found : Day}
    (h : tryMatch chrono format full (.run c run :: tokens) input fields = some found) :
    ∃ input fields, tryMatch chrono format full tokens input fields = some found := by
  have hnumber (width : ℕ) (set : ℕ × Text → DateFields)
      (h : ((takeDigits input width).bind fun r => tryMatch chrono format full tokens r.2 (set r)) = some found) :
      ∃ input fields, tryMatch chrono format full tokens input fields = some found := by
    obtain ⟨r, -, hread⟩ := Option.bind_eq_some_iff.mp h
    exact ⟨_, _, hread⟩
  have hwidths (set : ℕ × Text → DateFields)
      (h : ([2, 1].findSome? fun width =>
        (takeDigits input width).bind fun r => tryMatch chrono format full tokens r.2 (set r)) = some found) :
      ∃ input fields, tryMatch chrono format full tokens input fields = some found := by
    obtain ⟨width, -, hread⟩ := List.exists_of_findSome?_eq_some h
    exact hnumber width set hread
  have hnames (cut : Text → Text)
      (h : (weekdayNames.findSome? fun name =>
        (stripPrefix (cut name) input).bind fun rest => tryMatch chrono format full tokens rest fields) = some found) :
      ∃ input fields, tryMatch chrono format full tokens input fields = some found := by
    obtain ⟨name, -, hread⟩ := List.exists_of_findSome?_eq_some h
    obtain ⟨rest, -, hread⟩ := Option.bind_eq_some_iff.mp hread
    exact ⟨_, _, hread⟩
  simp only [tryMatch] at h
  split at h
  case h_5 =>
    obtain ⟨name, -, hread⟩ := List.exists_of_findSome?_eq_some h
    obtain ⟨rest, -, hread⟩ := Option.bind_eq_some_iff.mp hread
    exact ⟨_, _, hread⟩
  case h_3 | h_6 | h_11 => exact hwidths _ h
  case h_9 | h_10 => exact hnames _ h
  case h_15 => cases h
  all_goals exact hnumber _ _ h

/-- What is read is written back as it was. -/
theorem formatDate_of_tryMatch {input : Text} {found : Day}
    (h : tryMatch chrono format full tokens input fields = some found) : formatDate chrono found format = full := by
  induction tokens generalizing input fields with
  | nil =>
    simp only [tryMatch] at h
    split at h
    · cases h
    · obtain ⟨date, -, hfound⟩ := Option.bind_eq_some_iff.mp h
      split at hfound
      · next hsame =>
        cases hfound
        exact hsame
      · cases hfound
  | cons token tokens ih =>
    cases token with
    | literal c =>
      obtain ⟨rest, -, hread⟩ := Option.bind_eq_some_iff.mp h
      exact ih hread
    | run c run =>
      obtain ⟨_, _, hread⟩ := exists_of_tryMatch_run h
      exact ih hread

end

theorem known_of_mem_formatTokens {format : Text} {token : FormatToken} (h : token ∈ formatTokens format) : token.Known :=
  known_of_mem_formatTokensFrom h

/-- The tokens of a format that names a day set all of it. -/
theorem settles_of_namesADay {format : Text} (h : namesADay format = true) (date : Day) :
    Settles date (formatTokens format) .empty := by
  simp only [namesADay, Bool.and_eq_true] at h
  exact ⟨.inr h.1.1, .inr h.1.2, .inr h.2⟩

/-- A day from 2000 to 2099 that is written in a format with a year, a month and a day is read back
as a day that is written the same. -/
theorem names_read_back {chrono : Chrono} (h : chrono.Lawful) {format : Text} (hformat : namesADay format = true)
    {date : Day} (hfrom : 2000 ≤ date.year) (hto : date.year ≤ 2099) :
    ∃ found, parseDate chrono (formatDate chrono date format) format = some found ∧
      formatDate chrono found format = formatDate chrono date format := by
  have hsome : (tryMatch chrono format (formatDate chrono date format) (formatTokens format)
      ((formatTokens format).flatMap (FormatToken.emit chrono date)) .empty).isSome = true :=
    tryMatch_isSome h hfrom hto (fun _ => known_of_mem_formatTokens) (settles_of_namesADay hformat date)
  obtain ⟨found, hfound⟩ := Option.isSome_iff_exists.mp hsome
  have hread : parseDate chrono (formatDate chrono date format) format = some found := by
    rw [parseDate, ← hfound]
    congr 1
    exact formatDateFrom_eq chrono date format.length format
  exact ⟨found, hread, formatDate_of_tryMatch hread⟩

/-- The dates as they are on a Friday in October. -/
def fridayChrono : Chrono :=
  ⟨fun _ => 5, fun _ => 40, fun day => day.year, fun year _ => Day.ofYmd year 9 28, fun _ => none⟩

theorem names_read_back_friday :
    ∃ found, parseDate fridayChrono "Friday, 2 Oct 2026 (40)".toList "dddd, D MMM YYYY (W)".toList = some found ∧
      formatDate fridayChrono found "dddd, D MMM YYYY (W)".toList = "Friday, 2 Oct 2026 (40)".toList := by
  have hlawful : fridayChrono.Lawful :=
    ⟨fun _ => by simp [fridayChrono], fun _ => by simp [fridayChrono], fun date => ⟨Int.sub_le_self _ (by decide), Int.le_add_of_nonneg_right (by decide)⟩⟩
  have hwritten : formatDate fridayChrono ⟨2026, 10, 2, by decide, by decide, by decide⟩ "dddd, D MMM YYYY (W)".toList =
      "Friday, 2 Oct 2026 (40)".toList := by decide
  have hread := @names_read_back fridayChrono hlawful "dddd, D MMM YYYY (W)".toList (by decide)
    ⟨2026, 10, 2, by decide, by decide, by decide⟩ (by decide) (by decide)
  rwa [hwritten] at hread

end Thock.SyncCore
