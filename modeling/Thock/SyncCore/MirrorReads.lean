import Thock.SyncCore.DueText

/-!
# Mirror lines read back

The words of a mirror line as they are cleaned, and what reading the written line makes of each of its fields.

The cleaning keeps a strike from being read into the words, but neither a time before them nor a due behind them: a line
that carries neither of its own takes them from its words.
-/

namespace Thock.SyncCore.Reminder

open TextScan

/-! ## The words of a mirror line -/

def mirrorTextChars : ℕ := 80

def emptyMirrorText : Text := "Reminder".toList

/-- The walk over the openings of tokens, with what is written so far. -/
def escapeFrom : ℕ → Text → Text → Text
  | 0, escaped, rest => escaped ++ rest
  | fuel + 1, escaped, rest =>
    match splitFirst tokenOpen rest with
    | some (before, after) =>
      let escaped := escaped ++ before
      let escaped := if escaped.getLast? = some '\\' then escaped else escaped ++ ['\\']
      escapeFrom fuel (escaped ++ tokenOpen) after
    | none => escaped ++ rest

/-- A backslash before every opening that does not have one. -/
def escapeTokens (text : Text) : Text := escapeFrom text.length [] text

/-- A text cut to so many characters on a word, with an ellipsis when anything was cut. -/
def cutText (text : Text) (maxChars : ℕ) : Text :=
  if text.length ≤ maxChars then text
  else
    let front := text.take maxChars
    let head := (front.rdropWhile fun c => !isWhitespace c).dropLast
    let cut := if head ≠ [] ∧ ¬(text.drop maxChars).head?.any isWhitespace then head else front
    trimEnd cut ++ ['…']

/-- A home line's words as a mirror line writes them. -/
def mirrorTextOf (text : Text) : Text :=
  let clean := [' '].intercalate (words (replaceAll strike [] (replaceAll commentOpen [] text)))
  if clean.isEmpty then emptyMirrorText else cutText (escapeTokens clean) mirrorTextChars

/-! ## No strike is left -/

/-- A pair of one character that is taken out everywhere is not made anew. -/
theorem not_infix_replaceAll_pair (c : Char) (t : Text) : ¬[c, c] <:+: replaceAll [c, c] [] t := by
  have hhead (rest : Text) (h : ¬[c, c] <+: c :: rest) : ¬[c] <+: replaceFrom [c, c] [] 0 rest := by
    cases rest with
    | nil => exact fun hnil => absurd (List.prefix_nil.mp hnil) (List.cons_ne_nil _ _)
    | cons d rest =>
      have hne : c ≠ d := by
        rintro rfl
        exact h ⟨rest, rfl⟩
      rw [replaceFrom, if_neg]
      · exact fun hstart => hne (List.cons_prefix_cons.mp hstart).1
      · rw [List.isPrefixOf_iff_prefix]
        exact fun hstart => hne (List.cons_prefix_cons.mp hstart).1
  have hfrom (skip : ℕ) (t : Text) : ¬[c, c] <:+: replaceFrom [c, c] [] skip t := by
    induction t generalizing skip with
    | nil => cases skip <;> exact fun hnil => absurd (List.infix_nil.mp hnil) (List.cons_ne_nil _ _)
    | cons d t ih =>
      cases skip with
      | succ skip => exact ih skip
      | zero =>
        rw [replaceFrom]
        split
        · exact ih _
        · next hstart =>
          rw [List.infix_cons_iff]
          rintro (hpair | hlater)
          · obtain ⟨rfl, hnext⟩ := List.cons_prefix_cons.mp hpair
            exact hhead t (mt List.isPrefixOf_iff_prefix.mpr hstart) hnext
          · exact ih 0 hlater
  exact hfrom 0 t

/-- The first part of a split starts the text, and every part stands in it. -/
theorem splitOnP_parts (p : Char → Bool) (t : Text) :
    (∀ part ∈ (t.splitOnP p).head?, part <+: t) ∧ ∀ part ∈ t.splitOnP p, part <:+: t := by
  induction t with
  | nil =>
    rw [List.splitOnP_nil]
    exact ⟨fun part h => Option.some.inj h ▸ List.nil_prefix, fun part h => List.mem_singleton.mp h ▸ List.nil_infix⟩
  | cons d t ih =>
    obtain ⟨first, parts, hparts⟩ := List.exists_cons_of_ne_nil (List.splitOnP_ne_nil p t)
    obtain ⟨hfirst, hall⟩ := ih
    rw [hparts] at hfirst hall
    rw [List.splitOnP_cons_eq_if_modifyHead, hparts]
    split
    · refine ⟨fun part h => Option.some.inj h ▸ List.nil_prefix, fun part h => ?_⟩
      rcases List.mem_cons.mp h with rfl | h
      · exact List.nil_infix
      · exact (hall part h).trans (List.suffix_cons d t).isInfix
    · rw [List.modifyHead_cons]
      have hstart : d :: first <+: d :: t := List.cons_prefix_cons.mpr ⟨rfl, hfirst first rfl⟩
      refine ⟨fun part h => Option.some.inj h ▸ hstart, fun part h => ?_⟩
      rcases List.mem_cons.mp h with rfl | h
      · exact hstart.isInfix
      · exact (hall part (List.mem_cons_of_mem _ h)).trans (List.suffix_cons d t).isInfix

/-- A pair that starts the words stands in the text. -/
theorem pair_of_words {c : Char} (hc : isWhitespace c = false) {t : Text} (h : [c, c] <+: [' '].intercalate (words t)) :
    [c, c] <:+: t := by
  have hspace : c ≠ ' ' := by
    rintro rfl
    cases hc
  cases hwords : words t with
  | nil =>
    rw [hwords] at h
    cases List.prefix_nil.mp h
  | cons word rest =>
    have hmem : word ∈ words t := hwords ▸ List.mem_cons_self
    obtain ⟨hpart, hne⟩ := List.mem_filter.mp hmem
    have hword : [c, c] <+: word := by
      have hbehind : ∃ behind, [' '].intercalate (word :: rest) = word ++ behind ∧ behind.head? ≠ some c := by
        cases rest with
        | nil => exact ⟨[], by simp [List.intercalate], by simp⟩
        | cons next rest => exact ⟨' ' :: [' '].intercalate (next :: rest), by simp [List.intercalate], by simp [hspace.symm]⟩
      obtain ⟨behind, heq, hhead⟩ := hbehind
      rw [hwords, heq] at h
      match word with
      | [] => cases hne
      | [d] =>
        obtain ⟨tail, htail⟩ := (List.cons_prefix_cons.mp h).2
        exact absurd (congrArg List.head? htail.symm) hhead
      | d :: e :: more =>
        obtain ⟨rfl, hsecond⟩ := List.cons_prefix_cons.mp h
        obtain ⟨rfl, -⟩ := List.cons_prefix_cons.mp hsecond
        exact ⟨more, rfl⟩
    exact hword.isInfix.trans ((splitOnP_parts _ _).2 word hpart)

/-- What puts characters between two others makes no pair at the start. -/
theorem pair_of_insert {c d : Char} (hne : c ≠ d) {a b more : Text} (h : [c, c] <+: a ++ d :: more) : [c, c] <+: a ++ b := by
  match a with
  | [] => exact absurd (List.cons_prefix_cons.mp h).1 hne
  | [_] => exact absurd (List.cons_prefix_cons.mp (List.cons_prefix_cons.mp h).2).1 hne
  | e :: f :: a =>
    obtain ⟨rfl, hsecond⟩ := List.cons_prefix_cons.mp h
    obtain ⟨rfl, -⟩ := List.cons_prefix_cons.mp hsecond
    exact ⟨a ++ b, rfl⟩

theorem pair_of_escapeFrom {fuel : ℕ} {escaped rest : Text} (h : strike <+: escapeFrom fuel escaped rest) :
    strike <+: escaped ++ rest := by
  induction fuel generalizing escaped rest with
  | zero => exact h
  | succ fuel ih =>
    rw [escapeFrom] at h
    split at h
    · next before after hsplit =>
      have hbehind := ih h
      rw [splitFirst_eq hsplit]
      split at hbehind
      · simpa using hbehind
      · have hslash : (escaped ++ before ++ ['\\'] ++ tokenOpen) ++ after = (escaped ++ before) ++ '\\' :: (tokenOpen ++ after) := by simp
        rw [hslash] at hbehind
        have hpair : strike <+: (escaped ++ before) ++ (tokenOpen ++ after) := pair_of_insert (by decide) hbehind
        simpa using hpair
    · exact h

theorem escapeFrom_ne_nil {fuel : ℕ} {escaped rest : Text} (h : escaped ++ rest ≠ []) : escapeFrom fuel escaped rest ≠ [] := by
  induction fuel generalizing escaped rest with
  | zero => exact h
  | succ fuel ih =>
    rw [escapeFrom]
    split
    · refine ih fun hnil => ?_
      cases (List.append_eq_nil_iff.mp (List.append_eq_nil_iff.mp hnil).1).2
    · exact h

theorem pair_of_cutText {t : Text} {n : ℕ} (h : strike <+: cutText t n) : strike <+: t := by
  rw [cutText] at h
  split at h
  · exact h
  · dsimp only at h
    have hprefix (front : Text) (hfront : front <+: t) (hcut : strike <+: trimEnd front ++ ['…']) : strike <+: t := by
      have hpair := @pair_of_insert '~' '…' (by decide) (trimEnd front) [] [] hcut
      rw [List.append_nil] at hpair
      exact hpair.trans ((trimEnd_isPrefix front).trans hfront)
    refine hprefix _ ?_ h
    split
    · exact (List.dropLast_prefix _).trans ((List.rdropWhile_prefix _ _).trans (List.take_prefix _ _))
    · exact List.take_prefix _ _

theorem cutText_ne_nil {t : Text} (h : t ≠ []) (n : ℕ) : cutText t n ≠ [] := by
  rw [cutText]
  split
  · exact h
  · exact List.append_ne_nil_of_right_ne_nil _ (List.cons_ne_nil _ _)

/-- The words of a mirror line are there, and are not struck. -/
theorem mirrorTextOf_clean (text : Text) : mirrorTextOf text ≠ [] ∧ ¬strike <+: mirrorTextOf text := by
  rw [mirrorTextOf]
  split
  · exact ⟨by decide, by decide⟩
  · next hne =>
    have hclean := mt List.isEmpty_iff.mpr hne
    refine ⟨cutText_ne_nil (escapeFrom_ne_nil hclean) _, fun hstrike => ?_⟩
    have hpair := pair_of_escapeFrom (pair_of_cutText hstrike)
    rw [List.nil_append] at hpair
    exact not_infix_replaceAll_pair '~' _ (pair_of_words (by decide) hpair)

/-! ## Reading the line -/

/-- The planner time as it stands before the body. -/
def timeBefore (time : Option ClockTime) : Text := time.elim [] fun time => time.text ++ [' ']

/-- The carried due as it stands behind the body. -/
def dueBehind (carried : Option Due) : Text := carried.elim [] fun carried => mirrorSeparator ++ dueText carried

theorem parseMirror_mirrorText {mirror : MirrorLine} (hid : isId mirror.id = true) (hnote : mirror.note ≠ [])
    (hplain : ∀ c ∈ mirror.note, c ≠ '[' ∧ c ≠ ']' ∧ c ≠ '|') :
    parseMirror (mirrorText mirror) =
      let carried := mirrorCarried (timeBefore mirror.time ++ mirrorBodyText mirror.text mirror.mark ++ dueBehind mirror.carried)
      let timed := mirrorTime carried.1
      (parseMirrorBody timed.2).map fun read =>
        ⟨mirror.checked, timed.1, read.1, read.2, carried.2, mirror.note, mirror.id⟩ := by
  generalize hinner : timeBefore mirror.time ++ mirrorBodyText mirror.text mirror.mark ++ dueBehind mirror.carried = inner
  have htext : mirrorText mirror = "- [".toList ++ (if mirror.checked then ['x'] else [' ']) ++ "] ".toList ++
      (inner ++ (mirrorSeparator ++ "[[".toList) ++ mirror.note ++ "]]".toList ++ [' '] ++ idMarker mirror.id) := by
    rw [← hinner]
    unfold mirrorText timeBefore dueBehind
    simp
  have hmarker : ' ' ∉ idMarker mirror.id := by
    have hall := (Bool.and_eq_true _ _ ▸ hid : _ ∧ _).2
    rw [List.all_eq_true] at hall
    intro hmem
    rcases List.mem_append.mp hmem with hmem | hmem
    · rcases List.mem_append.mp hmem with hmem | hmem
      · exact absurd hmem (by decide)
      · exact absurd (hall ' ' hmem) (by decide)
    · exact absurd hmem (by decide)
  have hlast : (idMarker mirror.id).getLast? = some '>' := by
    rw [idMarker, List.getLast?_append]
    rfl
  have htrim : trimEnd (mirrorText mirror) = mirrorText mirror := by
    refine trimEnd_of_untrailed fun c hc => ?_
    rw [htext, List.getLast?_append, List.getLast?_append, hlast] at hc
    cases hc
    decide
  have hcheckbox : mirrorCheckbox (mirrorText mirror) = some (mirror.checked,
      inner ++ (mirrorSeparator ++ "[[".toList) ++ mirror.note ++ "]]".toList ++ [' '] ++ idMarker mirror.id) := by
    rw [htext]
    cases mirror.checked with
    | false => rfl
    | true => rfl
  have hspace := splitLast_of_head [] (inner ++ (mirrorSeparator ++ "[[".toList) ++ mirror.note ++ "]]".toList) hmarker List.not_mem_nil
  have hbracket : '[' ∉ mirror.note := fun hmem => (hplain '[' hmem).1 rfl
  have hlink : splitLast (mirrorSeparator ++ "[[".toList) (inner ++ (mirrorSeparator ++ "[[".toList) ++ mirror.note) =
      some (inner, mirror.note) := splitLast_of_mid " · [".toList [] inner hbracket List.not_mem_nil
  have hbar : beforeBar mirror.note = mirror.note := by
    rw [beforeBar, splitFirst_char_none fun hmem => (hplain '|' hmem).2.2 rfl]
    rfl
  have hvalid : ¬(mirror.note.isEmpty = true ∨ (mirror.note.any fun c => c = '[' || c = ']') = true) := by
    rintro (hempty | hany)
    · exact hnote (List.isEmpty_iff.mp hempty)
    · obtain ⟨c, hc, heq⟩ := List.any_eq_true.mp hany
      have hne := hplain c hc
      simp [hne.1, hne.2.1] at heq
  have hfound : idInComment (idMarker mirror.id) = some mirror.id := by
    rw [idInComment, idMarker, List.append_assoc, stripPrefix_eq_some.mpr rfl, Option.bind_some, stripSuffix_eq_some.mpr rfl,
      Option.bind_some, if_pos hid]
  rw [parseMirror, htrim, hcheckbox, Option.bind_some]
  dsimp only
  rw [hspace, Option.bind_some]
  dsimp only
  rw [hfound, Option.bind_some, stripSuffix_eq_some.mpr rfl, Option.bind_some, hlink, Option.bind_some]
  dsimp only
  rw [hbar, if_neg hvalid]

/-! ## The fields -/

/-- The words take a due behind them for their own. -/
def EndsInDue (text : Text) : Prop := ∃ before due, text = before ++ mirrorSeparator ++ due ∧ (parseDue due).isSome

/-- The words take a time before them for their own. -/
def BeginsWithClock (text : Text) : Prop :=
  ∃ clock behind, text = clock ++ ' ' :: behind ∧ clock.length = 5 ∧ (parseClock clock).isSome

theorem isTokenChar_of_parseDue {text : Text} {due : Due} (h : parseDue text = some due) : ∀ c ∈ text, isTokenChar c = true := by
  rw [parseDue] at h
  split at h
  · next date time hsplit =>
    obtain ⟨day, hday, hrest⟩ := Option.bind_eq_some_iff.mp h
    obtain ⟨clock, hclock, -⟩ := Option.map_eq_some_iff.mp hrest
    rw [splitFirst_eq hsplit]
    intro c hc
    rcases List.mem_append.mp hc with hc | hc
    · rcases List.mem_append.mp hc with hc | hc
      · exact isTokenChar_of_parseIsoDate hday c hc
      · rw [List.mem_singleton.mp hc]
        decide
    · exact isTokenChar_of_parseClock hclock c hc
  · obtain ⟨day, hday, -⟩ := Option.map_eq_some_iff.mp h
    exact isTokenChar_of_parseIsoDate hday

/-- A date of a year that is not of four digits is not read back. -/
theorem parseIsoDate_far {date : Day} (h : ¬(0 ≤ date.year ∧ date.year ≤ 9999)) : parseIsoDate (dateText date) = none := by
  have hlength : 11 ≤ (dateText date).length := by
    have hyear := padded_length 4 date.year.natAbs
    have hmonth := padded_month_length date
    have hday := padded_day_length date
    rw [dateText, yearText, if_neg h]
    simp only [List.length_append, List.length_cons]
    omega
  rw [parseIsoDate, if_pos (Or.inl (by omega))]

theorem parseDue_dueText {due : Due} (h : 0 ≤ due.date.year ∧ due.date.year ≤ 9999) : parseDue (dueText due) = some due := by
  have hspace : ' ' ∉ dateText due.date := not_mem_dateText (by decide) (by decide) due.date
  obtain ⟨date, time⟩ := due
  cases time with
  | none =>
    have htext : dueText ⟨date, none⟩ = dateText date := List.append_nil _
    rw [htext, parseDue, splitFirst_char_none hspace, parseIsoDate_dateText h]
    rfl
  | some time =>
    have htext : dueText ⟨date, some time⟩ = dateText date ++ ' ' :: time.text := rfl
    rw [htext, parseDue, splitFirst_char hspace]
    dsimp only
    rw [parseIsoDate_dateText h, Option.bind_some, parseClock_text]
    rfl

theorem parseDue_far {due : Due} (h : ¬(0 ≤ due.date.year ∧ due.date.year ≤ 9999)) : parseDue (dueText due) = none := by
  have hspace : ' ' ∉ dateText due.date := not_mem_dateText (by decide) (by decide) due.date
  obtain ⟨date, time⟩ := due
  cases time with
  | none =>
    have htext : dueText ⟨date, none⟩ = dateText date := List.append_nil _
    rw [htext, parseDue, splitFirst_char_none hspace, parseIsoDate_far h]
    rfl
  | some time =>
    have htext : dueText ⟨date, some time⟩ = dateText date ++ ' ' :: time.text := rfl
    rw [htext, parseDue, splitFirst_char hspace]
    dsimp only
    rw [parseIsoDate_far h]
    rfl

theorem splitLast_separator (before : Text) {behind : Text} (h : '·' ∉ behind) :
    splitLast mirrorSeparator (before ++ mirrorSeparator ++ behind) = some (before, behind) :=
  splitLast_of_mid [' '] [' '] before h (by decide)

theorem mirrorCarried_of_due {before due : Text} {read : Due} (h : parseDue due = some read) :
    mirrorCarried (before ++ mirrorSeparator ++ due) = (before, some read) := by
  have hdot : '·' ∉ due := fun hmem => absurd (isTokenChar_of_parseDue h '·' hmem) (by decide)
  rw [mirrorCarried, splitLast_separator before hdot]
  dsimp only
  rw [h]

theorem mirrorCarried_of_not {text : Text} (h : ¬EndsInDue text) : mirrorCarried text = (text, none) := by
  rw [mirrorCarried]
  cases hsplit : splitLast mirrorSeparator text with
  | none => rfl
  | some r =>
    obtain ⟨before, due⟩ := r
    dsimp only
    cases hdue : parseDue due with
    | none => rfl
    | some read => exact absurd ⟨before, due, splitLast_eq hsplit, by rw [hdue]; rfl⟩ h

theorem mirrorTime_of_clock {clock behind : Text} {time : ClockTime} (hlength : clock.length = 5) (h : parseClock clock = some time) :
    mirrorTime (clock ++ ' ' :: behind) = (some time, behind) := by
  have hspace : ' ' ∉ clock := by
    intro hmem
    obtain ⟨⟨hours, minutes⟩, hsplit, hparts⟩ := Option.bind_eq_some_iff.mp h
    dsimp only at hparts
    split at hparts
    · cases hparts
    · next hshape =>
      simp only [not_or, not_not] at hshape
      rw [splitFirst_eq hsplit, List.append_assoc, List.mem_append, List.mem_append] at hmem
      have hall := List.all_eq_true.mp hshape.2.2
      rcases hmem with hmem | hmem | hmem
      · exact absurd (hall ' ' (List.mem_append_left _ hmem)) (by decide)
      · exact absurd hmem (by decide)
      · exact absurd (hall ' ' (List.mem_append_right _ hmem)) (by decide)
  rw [mirrorTime, splitFirst_char hspace]
  dsimp only
  rw [if_pos hlength, h]

theorem mirrorTime_of_not {text : Text} (h : ¬BeginsWithClock text) : mirrorTime text = (none, text) := by
  rw [mirrorTime]
  cases hsplit : splitFirst [' '] text with
  | none => rfl
  | some r =>
    obtain ⟨clock, behind⟩ := r
    dsimp only
    split
    · next time hclock =>
      split at hclock
      · next hlength =>
        have htext := splitFirst_eq hsplit
        rw [List.append_assoc] at htext
        exact absurd ⟨clock, behind, htext, hlength, by rw [hclock]; rfl⟩ h
      · cases hclock
    · rfl

/-- What is struck ends in a mark, which no due holds. -/
theorem not_endsInDue_struck {front mark_ : Text} (hmark : '·' ∉ mark_) : ¬EndsInDue (front ++ '~' :: mark_) := by
  intro hends
  obtain ⟨before, due, htext, hdue⟩ := hends
  obtain ⟨read, hread⟩ := Option.isSome_iff_exists.mp hdue
  have htilde : '~' ∉ due := fun hmem => absurd (isTokenChar_of_parseDue hread '~' hmem) (by decide)
  have hdot : '·' ∉ '~' :: mark_ := fun hmem => (List.mem_cons.mp hmem).elim (by decide) hmark
  rcases List.append_eq_append_iff.mp htext with ⟨more, hbefore, hbehind⟩ | ⟨more, hbefore, hbehind⟩
  · have hnot (more : Text) (hmem : ∀ c ∈ more, c ∈ '~' :: mark_) (hsep : before ++ [' ', '·'] = front ++ more) : more = [] := by
      by_contra hne
      obtain ⟨init, last, rfl⟩ := (List.eq_nil_or_concat' more).resolve_left hne
      have hlast := congrArg List.getLast? hsep
      rw [← List.append_assoc, List.getLast?_concat, List.getLast?_append] at hlast
      have hdot' : last = '·' := by simpa using hlast.symm
      exact hdot (hdot' ▸ hmem last (List.mem_append_right _ List.mem_cons_self))
    rcases List.eq_nil_or_concat' more with rfl | ⟨init, last, rfl⟩
    · rw [List.nil_append] at hbehind
      exact htilde (hbehind ▸ List.mem_cons_self)
    · have hsep : (before ++ [' ', '·']) ++ [' '] = (front ++ init) ++ [last] := by
        rw [List.append_assoc, List.append_assoc, ← hbefore]
        rfl
      obtain ⟨hinit, hlast⟩ := List.append_inj' hsep rfl
      have hnil : init = [] := hnot init (fun c hc => hbehind ▸ by simp [hc]) hinit
      rw [hnil, List.nil_append, ← hlast] at hbehind
      cases (List.cons.inj hbehind).1
  · exact htilde (hbehind ▸ List.mem_append_right _ List.mem_cons_self)

/-! ## A line as it was -/

/-- A line whose words take nothing for a field that the line lacks, with years of four digits. -/
structure Legible (mirror : MirrorLine) : Prop where
  clock : mirror.time = none → mirror.mark = none → ¬BeginsWithClock mirror.text
  due : mirror.carried = none → mirror.mark = none → ¬EndsInDue (timeBefore mirror.time ++ mirror.text)
  carried : ∀ due, mirror.carried = some due → 0 ≤ due.date.year ∧ due.date.year ≤ 9999
  moved : ∀ date, mirror.mark = some (.moved date) → 0 ≤ date.year ∧ date.year ≤ 9999

/-- A body that is struck is the mark's. -/
theorem mirrorBodyText_struck (text : Text) (mark : MirrorMark) :
    ∃ after, mirrorBodyText text (some mark) = strike ++ (text ++ strike ++ after) ∧ '·' ∉ after ∧
      parseMirrorBody (strike ++ (text ++ strike ++ after)) = (match mark with
      | .moved date => (parseIsoDate (dateText date)).map fun date => (text, some (.moved date))
      | .dropped => some (text, some .dropped)
      | .removed => some (text, some .removed)) := by
  have hbody (after : Text) (h : '~' ∉ after) : parseMirrorBody (strike ++ (text ++ strike ++ after)) =
      if after = " (dropped)".toList then some (text, some .dropped)
      else if after = " (removed)".toList then some (text, some .removed)
      else ((stripPrefix " → ".toList after).bind parseIsoDate).map fun date => (text, some (.moved date)) := by
    have hlast : splitLast strike (text ++ strike ++ after) = some (text, after) := splitLast_of_mid ['~'] [] text h List.not_mem_nil
    rw [parseMirrorBody, stripPrefix_eq_some.mpr rfl]
    dsimp only
    rw [hlast, Option.bind_some]
  cases mark with
  | moved date =>
    have hdate {c : Char} (hc : c.isDigit = false) (hsign : c ≠ '-' ∧ c ≠ '+') (hlead : c ∉ " → ".toList) :
        c ∉ " → ".toList ++ dateText date := fun hmem =>
      (List.mem_append.mp hmem).elim hlead (not_mem_dateText hc hsign date)
    have htilde : '~' ∉ " → ".toList ++ dateText date := hdate (by decide) (by decide) (by decide)
    refine ⟨" → ".toList ++ dateText date, by simp [mirrorBodyText], hdate (by decide) (by decide) (by decide), ?_⟩
    rw [hbody _ htilde, if_neg (fun heq => by cases heq), if_neg (fun heq => by cases heq), stripPrefix_eq_some.mpr rfl, Option.bind_some]
  | dropped => exact ⟨" (dropped)".toList, by simp [mirrorBodyText], by decide, hbody _ (by decide)⟩
  | removed => exact ⟨" (removed)".toList, by simp [mirrorBodyText], by decide, hbody _ (by decide)⟩

section Fields

variable {mirror : MirrorLine}

theorem mirrorCarried_eq (hcarried : ∀ due, mirror.carried = some due → 0 ≤ due.date.year ∧ due.date.year ≤ 9999)
    (hdue : mirror.carried = none → mirror.mark = none → ¬EndsInDue (timeBefore mirror.time ++ mirror.text)) :
    mirrorCarried (timeBefore mirror.time ++ mirrorBodyText mirror.text mirror.mark ++ dueBehind mirror.carried) =
      (timeBefore mirror.time ++ mirrorBodyText mirror.text mirror.mark, mirror.carried) := by
  cases hcase : mirror.carried with
  | some due =>
    rw [dueBehind, Option.elim_some, ← List.append_assoc]
    exact mirrorCarried_of_due (parseDue_dueText (hcarried due hcase))
  | none =>
    rw [dueBehind, Option.elim_none, List.append_nil]
    refine mirrorCarried_of_not ?_
    cases hmark : mirror.mark with
    | none => exact hdue hcase hmark
    | some mark =>
      obtain ⟨after, hbody, hdot, -⟩ := mirrorBodyText_struck mirror.text mark
      have hfront : timeBefore mirror.time ++ mirrorBodyText mirror.text (some mark) =
          (timeBefore mirror.time ++ strike ++ mirror.text ++ ['~']) ++ '~' :: after := by
        rw [hbody]
        simp [strike]
      rw [hfront]
      exact not_endsInDue_struck hdot

theorem mirrorTime_eq (hclock : mirror.time = none → mirror.mark = none → ¬BeginsWithClock mirror.text) :
    mirrorTime (timeBefore mirror.time ++ mirrorBodyText mirror.text mirror.mark) =
      (mirror.time, mirrorBodyText mirror.text mirror.mark) := by
  cases hcase : mirror.time with
  | some time =>
    rw [timeBefore, Option.elim_some, List.append_assoc]
    exact mirrorTime_of_clock time.text_length (parseClock_text time)
  | none =>
    rw [timeBefore, Option.elim_none, List.nil_append]
    refine mirrorTime_of_not ?_
    cases hmark : mirror.mark with
    | none => exact hclock hcase hmark
    | some mark =>
      obtain ⟨after, hbody, -, -⟩ := mirrorBodyText_struck mirror.text mark
      intro hbegins
      obtain ⟨clock, behind, htext, hlength, hread⟩ := hbegins
      obtain ⟨time, htime⟩ := Option.isSome_iff_exists.mp hread
      rw [hbody] at htext
      match clock with
      | c :: clock =>
        have htilde : '~' = c := (List.cons.inj htext).1
        exact absurd (isTokenChar_of_parseClock htime c List.mem_cons_self) (htilde ▸ by decide)

end Fields

/-- A mirror line with cleaned words reads back as itself exactly when its words take nothing for a field it lacks. -/
theorem mirror_reads_iff {mirror : MirrorLine} {text : Text} (htext : mirror.text = mirrorTextOf text) (hid : isId mirror.id = true)
    (hnote : mirror.note ≠ []) (hplain : ∀ c ∈ mirror.note, c ≠ '[' ∧ c ≠ ']' ∧ c ≠ '|') :
    parseMirror (mirrorText mirror) = some mirror ↔ Legible mirror := by
  have hparse := parseMirror_mirrorText hid hnote hplain
  dsimp only at hparse
  constructor
  · intro hread
    rw [hread] at hparse
    obtain ⟨read, hbody, hmirror⟩ := Option.map_eq_some_iff.mp hparse.symm
    have htime := congrArg MirrorLine.time hmirror
    have hmark := congrArg MirrorLine.mark hmirror
    have hcarried := congrArg MirrorLine.carried hmirror
    dsimp only at htime hmark hcarried
    have hyears : ∀ due, mirror.carried = some due → 0 ≤ due.date.year ∧ due.date.year ≤ 9999 := by
      intro due hdue
      by_contra hfar
      have hdot : '·' ∉ dueText due := by
        intro hmem
        rcases List.mem_append.mp hmem with hmem | hmem
        · exact not_mem_dateText (by decide) (by decide) due.date hmem
        · cases hclock : due.time with
          | none =>
            rw [hclock] at hmem
            cases hmem
          | some time =>
            rw [hclock] at hmem
            exact (List.mem_cons.mp hmem).elim (by decide) (not_mem_clockText (by decide) (by decide) time)
      rw [hdue, dueBehind, Option.elim_some, ← List.append_assoc, mirrorCarried, splitLast_separator _ hdot] at hcarried
      dsimp only at hcarried
      rw [parseDue_far hfar] at hcarried
      cases hcarried
    have hdue : mirror.carried = none → mirror.mark = none → ¬EndsInDue (timeBefore mirror.time ++ mirror.text) := by
      intro hnone hunmarked hends
      obtain ⟨before, due, hsplit, hsome⟩ := hends
      obtain ⟨found, hfound⟩ := Option.isSome_iff_exists.mp hsome
      rw [hnone, hunmarked, dueBehind, Option.elim_none, List.append_nil, mirrorBodyText, hsplit,
        mirrorCarried_of_due hfound] at hcarried
      cases hcarried
    rw [mirrorCarried_eq hyears hdue] at htime hbody
    have hclock : mirror.time = none → mirror.mark = none → ¬BeginsWithClock mirror.text := by
      intro hnone hunmarked hbegins
      obtain ⟨clock, behind, hsplit, hlength, hsome⟩ := hbegins
      obtain ⟨found, hfound⟩ := Option.isSome_iff_exists.mp hsome
      rw [hnone, hunmarked, timeBefore, Option.elim_none, List.nil_append, mirrorBodyText, hsplit,
        mirrorTime_of_clock hlength hfound] at htime
      cases htime
    refine ⟨hclock, hdue, hyears, fun date hmoved => ?_⟩
    by_contra hfar
    rw [mirrorTime_eq hclock, hmoved] at hbody
    obtain ⟨after, hstruck, -, hafter⟩ := mirrorBodyText_struck mirror.text (.moved date)
    rw [hstruck, hafter] at hbody
    dsimp only at hbody
    rw [parseIsoDate_far hfar] at hbody
    cases hbody
  · intro h
    rw [hparse, mirrorCarried_eq h.carried h.due, mirrorTime_eq h.clock]
    have hbody : parseMirrorBody (mirrorBodyText mirror.text mirror.mark) = some (mirror.text, mirror.mark) := by
      cases hmark : mirror.mark with
      | none =>
        obtain ⟨hne, hstrike⟩ := mirrorTextOf_clean text
        rw [← htext] at hne hstrike
        have hnone : stripPrefix strike mirror.text = none := by
          cases hstrip : stripPrefix strike mirror.text with
          | none => rfl
          | some rest => exact absurd ⟨rest, (stripPrefix_eq_some.mp hstrip).symm⟩ hstrike
        rw [mirrorBodyText, parseMirrorBody, hnone]
        dsimp only
        rw [if_neg (mt List.isEmpty_iff.mp hne)]
      | some mark =>
        obtain ⟨after, hstruck, -, hafter⟩ := mirrorBodyText_struck mirror.text mark
        rw [hstruck, hafter]
        cases mark with
        | moved date =>
          dsimp only
          rw [parseIsoDate_dateText (h.moved date hmark)]
          rfl
        | dropped => rfl
        | removed => rfl
    rw [hbody]
    rfl

theorem mirror_reads_carried : parseMirror (mirrorText ⟨false, some ⟨9, 0, by decide, by decide⟩,
      mirrorTextOf "10:30 call Ana".toList, none, some ⟨⟨2026, 10, 20, by decide, by decide, by decide⟩, none⟩,
      "projects/house".toList, "7d3e55a1c0f2".toList⟩) =
    some ⟨false, some ⟨9, 0, by decide, by decide⟩, mirrorTextOf "10:30 call Ana".toList, none,
      some ⟨⟨2026, 10, 20, by decide, by decide, by decide⟩, none⟩, "projects/house".toList, "7d3e55a1c0f2".toList⟩ := by
  refine (@mirror_reads_iff _ "10:30 call Ana".toList rfl (by decide) (by decide) (by decide)).mpr ?_
  constructor
  · intro hnone
    cases hnone
  · intro hnone
    cases hnone
  · intro due hdue
    cases hdue
    decide
  · intro date hmoved
    cases hmoved

/-- Words that begin with a time give it to a line without one. -/
theorem mirror_reads_time : parseMirror (mirrorText ⟨false, none, mirrorTextOf "10:30 call Ana".toList, none, none,
      "projects/house".toList, "7d3e55a1c0f2".toList⟩) =
    some ⟨false, some ⟨10, 30, by decide, by decide⟩, "call Ana".toList, none, none, "projects/house".toList,
      "7d3e55a1c0f2".toList⟩ ∧
    parseMirror (mirrorText ⟨false, none, mirrorTextOf "10:30 call Ana".toList, none, none,
      "projects/house".toList, "7d3e55a1c0f2".toList⟩) ≠
    some ⟨false, none, mirrorTextOf "10:30 call Ana".toList, none, none, "projects/house".toList, "7d3e55a1c0f2".toList⟩ := by
  decide

end Thock.SyncCore.Reminder
