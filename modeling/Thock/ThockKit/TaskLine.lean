import Thock.ThockKit.Reminder
import Thock.ThockKit.TimePrefix

/-!
# Task lines on the phone

A task line cut into its head, its time, its words, the reminder token that closes them and its trailing comments, and
put together again for a tick and for a change of the time.

What a line is identified by is cut out by other rules. The two agree on the lines whose marker, box and time are each
followed by one space and whose words do not read on as a time.
-/

namespace Thock.ThockKit

open TextScan
open SyncCore (IsClock IsRangeEnd IsTime BeginsSetOff SetOff collapse)
open TimePrefix (DayTime)

/-! ## The parts of a line -/

def isSpaceOrTab (c : Char) : Bool := c = ' ' || c = '\t'

def strippingTrailingComments (text : Text) : Text := strippingComments (text.length + 1) text

structure TaskLineParts where
  /-- Indent, bullet, checkbox and the space after it. -/
  head : Text
  time : Option Text
  text : Text
  /-- A reminder token closing the words, with the space before it. -/
  token : Option Text
  /-- Trailing comments with the space before them. -/
  tail : Text
deriving DecidableEq

namespace TaskLineParts

def boxes : List Text := ["[ ]".toList, "[x]".toList, "[X]".toList]

/-- Only a token that ends the words is set apart. -/
def splitToken (text : Text) : Text × Option Text :=
  match (Reminders.parseLine text none).bind SyncCore.LineReminder.token with
  | some token =>
    if (trim (text.drop token.range.stop)).isEmpty then
      let words := trimEnd (text.take token.range.start)
      (words, some (text.drop words.length))
    else (text, none)
  | none => (text, none)

/-- What follows the time of a text, or all of it. -/
def wordsOf (body : Text) : Text := (TimePrefix.parse body).elim body TimePrefix.rest

/-- The parts of what follows a head. -/
def ofRest (head rest : Text) : TaskLineParts :=
  let body := strippingTrailingComments rest
  let (text, token) := splitToken (wordsOf body)
  ⟨head, (TimePrefix.parse body).map TimePrefix.raw, text, token, rest.drop body.length⟩

def ofLine (raw : Text) : Option TaskLineParts :=
  let indent := raw.takeWhile isSpaceOrTab
  match raw.drop indent.length with
  | [] => none
  | marker :: rest =>
    if marker ∉ "-*+".toList then none
    else
      let gap := rest.takeWhile isSpaceOrTab
      if gap.isEmpty then none
      else
        let rest := rest.drop gap.length
        if !boxes.any fun box => box.isPrefixOf rest then none
        else
          let box := rest.take 3
          let rest := rest.drop 3
          let space := rest.takeWhile isSpaceOrTab
          some (ofRest (indent ++ marker :: gap ++ box ++ if space.isEmpty then [' '] else space) (rest.drop space.length))

def checked (done : Bool) : Text := if done then "[x]".toList else "[ ]".toList

/-- The head with its box ticked or not. -/
def ticked (head : Text) (done : Bool) : Text :=
  match boxes.findSome? fun box => splitFirst box head with
  | some (before, after) => before ++ checked done ++ after
  | none => head

/-- A time with the space after it, where words follow. -/
def spaced (time : Option Text) (text : Text) : Text :=
  time.elim [] fun time => if text.isEmpty then time else time ++ [' ']

def line (parts : TaskLineParts) (done : Option Bool) : Text :=
  done.elim parts.head (ticked parts.head) ++ spaced parts.time parts.text ++ parts.text ++ parts.token.getD [] ++ parts.tail

/-- The line with another time, or with none. -/
def setTime (parts : TaskLineParts) (time : Option DayTime) : TaskLineParts :=
  { parts with time := time.map DayTime.text }

end TaskLineParts

/-! ## What an edit may change -/

/-- Two lines with one box, open or ticked in the first and as told in the second. -/
def DiffersInBox (raw new : Text) (done : Bool) : Prop :=
  ∃ before after, ∃ box ∈ TaskLineParts.boxes, raw = before ++ box ++ after ∧ new = before ++ TaskLineParts.checked done ++ after

/-- The time a line is read with is the one that was set, to the minute. -/
def ReadsBack (new : Text) (time : Option DayTime) : Prop :=
  ∃ parts, TaskLineParts.ofLine new = some parts ∧ parts.time = time.map DayTime.text ∧
    ∀ set ∈ time, (TimePrefix.parse set.text).map (fun read => (read.startMinutes, read.endMinutes)) = some (set.start, set.stop)

/-- The line is put together as it was, a tick changes its box and a new time that time with its space, and neither
what the line is identified by. -/
def Framed (raw : Text) : Prop :=
  ∃ parts, TaskLineParts.ofLine raw = some parts ∧ parts.line none = raw ∧
    (∀ done, DiffersInBox raw (parts.line (some done)) done ∧ lineIdentity (parts.line (some done)) = lineIdentity raw) ∧
    ∀ time, (∃ back, raw = parts.head ++ TaskLineParts.spaced parts.time parts.text ++ back ∧
        (parts.setTime time).line none =
          parts.head ++ TaskLineParts.spaced (time.map DayTime.text) parts.text ++ back) ∧
      lineIdentity ((parts.setTime time).line none) = lineIdentity raw ∧ ReadsBack ((parts.setTime time).line none) time

/-! ## The lines on which the rules agree -/

/-- One space behind a time; words that do not read on as a time or as the end of a range, and more than a token. -/
structure PlainWords (body : Text) : Prop where
  setOff : ∀ time, TimePrefix.parse body = some time → body = time.raw ++ ' ' :: time.rest
  untimed : TimePrefix.parse (TaskLineParts.wordsOf body) = none
  unranged : ¬BeginsSetOff IsRangeEnd (trimStart (TaskLineParts.wordsOf body))
  worded : (TaskLineParts.splitToken (TaskLineParts.wordsOf body)).1 ≠ [] ∨
    ∃ c ∈ (TaskLineParts.wordsOf body).head?, isWhitespace c = true

/-- Indent, bullet and checkbox with single spaces. -/
def front (indent : Text) (marker c : Char) : Text := indent ++ [marker, ' ', '[', c, ']', ' ']

structure IsFront (indent : Text) (marker c : Char) : Prop where
  indent : indent.all isSpaceOrTab = true
  marker : marker ∈ "-*+".toList
  box : c ∈ " xX".toList

def Unspaced (rest : Text) : Prop := ∀ c ∈ rest.head?, isSpaceOrTab c = false

def Plain (raw : Text) : Prop :=
  ∃ indent marker c rest, raw = front indent marker c ++ rest ∧ IsFront indent marker c ∧ Unspaced rest ∧
    PlainWords (strippingTrailingComments rest)

/-! ## Trailing comments -/

theorem splitLast_none {p t : Text} : splitLast p t = none ↔ ¬p <:+: t := by
  rw [splitLast, Option.map_eq_none_iff, splitFirst_none, List.reverse_infix]

theorem strippingComments_fuel {n m : ℕ} {t : Text} (hn : t.length < n) (hm : t.length < m) :
    strippingComments n t = strippingComments m t := by
  induction n generalizing m t with
  | zero => exact absurd hn (Nat.not_lt_zero _)
  | succ n ih =>
    obtain ⟨m, rfl⟩ : ∃ k, m = k + 1 := ⟨m - 1, by omega⟩
    rw [strippingComments, strippingComments]
    split
    · rfl
    · split
      · rfl
      · next before after hlast =>
        have hlength := congrArg List.length (splitLast_eq hlast)
        have hle := (trimEnd_isPrefix t).length_le
        simp only [List.length_append, List.length_cons, List.length_nil] at hlength
        exact ih (by omega) (by omega)

/-- One comment at a time. -/
theorem stripping_step (t : Text) : strippingTrailingComments t =
    if ¬['-', '-', '>'].isSuffixOf (trimEnd t) then trimEnd t
    else match splitLast ['<', '!', '-', '-'] (trimEnd t) with
      | none => trimEnd t
      | some (before, _) => strippingTrailingComments before := by
  rw [strippingTrailingComments, strippingComments]
  split
  · rfl
  · cases hlast : splitLast ['<', '!', '-', '-'] (trimEnd t) with
    | none => rfl
    | some parts =>
      obtain ⟨before, after⟩ := parts
      have hlength := congrArg List.length (splitLast_eq hlast)
      have hle := (trimEnd_isPrefix t).length_le
      simp only [List.length_append, List.length_cons, List.length_nil] at hlength
      have hfewer : before.length < t.length := by omega
      exact strippingComments_fuel hfewer (Nat.lt_succ_self _)

/-- No closing of a comment reaches back over a last character that is no dash. -/
theorem isSuffixOf_close_append {p u : Text} (hlast : p.getLast? ≠ some '-') (hne : u ≠ []) :
    ['-', '-', '>'].isSuffixOf (p ++ u) = ['-', '-', '>'].isSuffixOf u := by
  rw [Bool.eq_iff_iff, List.isSuffixOf_iff_suffix, List.isSuffixOf_iff_suffix]
  refine ⟨fun h => ?_, fun h => h.trans (List.suffix_append p u)⟩
  cases List.suffix_or_suffix_of_suffix h (List.suffix_append p u) with
  | inl hclose => exact hclose
  | inr hshort =>
    obtain ⟨x, hx⟩ := hshort
    obtain ⟨y, hy⟩ := h
    rw [← hx, ← List.append_assoc] at hy
    have hend : y ++ x = p := List.append_cancel_right hy
    have hdash : x = [] ∨ x.getLast? = some '-' := by
      match x, hx with
      | [], _ => exact Or.inl rfl
      | [a], hx => exact Or.inr (by rw [(List.cons.inj hx).1]; rfl)
      | [a, b], hx => exact Or.inr (by rw [(List.cons.inj (List.cons.inj hx).2).1]; rfl)
      | a :: b :: c :: x, hx => simp_all
    cases hdash with
    | inl hnil =>
      rw [hnil, List.nil_append] at hx
      rw [hx]
    | inr hdash =>
      refine absurd ?_ hlast
      rw [← hend, List.getLast?_append, hdash]
      rfl

/-- What begins with a character that a text lacks is found behind that text only. -/
theorem isInfix_of_append {c : Char} {p p' u : Text} (hc : c ∉ p) (h : c :: p' <:+: p ++ u) : c :: p' <:+: u := by
  obtain ⟨s, t, htext⟩ := h
  rw [List.append_assoc] at htext
  cases List.append_eq_append_iff.mp htext with
  | inl hfront =>
    obtain ⟨x, hx, hrest⟩ := hfront
    cases x with
    | nil => exact ⟨[], t, by simpa using hrest⟩
    | cons d x =>
      obtain ⟨rfl, -⟩ := List.cons.inj hrest
      exact absurd (hx ▸ List.mem_append_right s List.mem_cons_self) hc
  | inr hbehind =>
    obtain ⟨x, -, hrest⟩ := hbehind
    exact ⟨x, t, by rw [hrest, List.append_assoc]⟩

/-- A text without openings in front, which no closing goes on from, is kept in front of what is left of the rest. -/
theorem stripping_append {p : Text} (hopen : '<' ∉ p) (hlast : p.getLast? ≠ some '-') (u : Text) :
    strippingTrailingComments (p ++ u) =
      if strippingTrailingComments u = [] then trimEnd p else p ++ strippingTrailingComments u := by
  generalize hlen : u.length = n
  induction n using Nat.strong_induction_on generalizing u with
  | _ n ih =>
    subst hlen
    by_cases hblank : Blank u
    · have hnil : trimEnd u = [] := by
        have h := trimEnd_append_of_blank hblank []
        rwa [List.nil_append] at h
      have hempty : strippingTrailingComments u = [] := by
        rw [stripping_step, hnil]
        rfl
      have hnone : splitLast ['<', '!', '-', '-'] (trimEnd p) = none := by
        refine splitLast_none.mpr fun hin => hopen ?_
        exact (trimEnd_isPrefix p).subset (hin.subset List.mem_cons_self)
      rw [if_pos hempty, stripping_step, trimEnd_append_of_blank hblank, hnone]
      split
      · rfl
      · rfl
    · have hfront : trimEnd (p ++ u) = p ++ trimEnd u := trimEnd_append hblank p
      have hne : trimEnd u ≠ [] := by
        intro hnil
        refine hblank fun c hc => ?_
        have hwhole := trimEnd_append_rtakeWhile u
        rw [hnil, List.nil_append] at hwhole
        exact blank_rtakeWhile u c (hwhole.symm ▸ hc)
      rw [stripping_step, stripping_step u, hfront]
      rw [isSuffixOf_close_append hlast hne]
      split
      · rfl
      · cases hsplit : splitLast ['<', '!', '-', '-'] (trimEnd u) with
        | none =>
          have hnone : splitLast ['<', '!', '-', '-'] (p ++ trimEnd u) = none :=
            splitLast_none.mpr fun hinfix => splitLast_none.mp hsplit (isInfix_of_append hopen hinfix)
          rw [hnone]
          dsimp only
          rw [if_neg hne]
        | some parts =>
          obtain ⟨before, after⟩ := parts
          have htext := splitLast_eq hsplit
          have hbehind := not_infix_of_splitLast (by decide) hsplit
          have hlater : splitLast ['<', '!', '-', '-'] (p ++ trimEnd u) = some (p ++ before, after) := by
            rw [htext, ← List.append_assoc, ← List.append_assoc]
            exact splitLast_of_not_infix (by decide) hbehind _
          have hshorter : before.length < u.length := by
            have hlength := congrArg List.length htext
            have hle := (trimEnd_isPrefix u).length_le
            simp only [List.length_append, List.length_cons, List.length_nil] at hlength
            omega
          rw [hlater]
          exact ih before.length hshorter before rfl

/-- What stands behind the words: blank, or after white space a comment. -/
def Closing (tail : Text) : Prop := ∀ c ∈ (trimStart tail).head?, c = '<'

/-! ## Times before what is cut off -/

/-- A text that holds no opening of a comment and ends in a digit. -/
def Ended (p : Text) : Prop := '<' ∉ p ∧ ∃ d ∈ p.getLast?, d.isDigit = true

theorem Ended.append {a b : Text} (ha : '<' ∉ a) (hb : Ended b) : Ended (a ++ b) := by
  obtain ⟨hopen, d, hd, hdigit⟩ := hb
  refine ⟨fun hmem => (List.mem_append.mp hmem).elim ha hopen, d, ?_, hdigit⟩
  rw [List.getLast?_append, Option.mem_def.mp hd]
  rfl

theorem not_mem_of_blank {g : Text} (hg : Blank g) : '<' ∉ g := hg.not_mem (by decide)

theorem ended_clock {c : Text} (h : IsClock c) : Ended c := by
  obtain ⟨hours, m₁, m₂, rfl, -, -, hdigits, hm₁, hm₂, -⟩ := h
  have hhours : '<' ∉ hours := fun hmem => absurd (List.all_eq_true.mp hdigits '<' hmem) (by decide)
  refine Ended.append hhours ⟨fun hmem => ?_, m₂, rfl, hm₂⟩
  simp only [List.mem_cons, List.not_mem_nil, or_false] at hmem
  obtain hcolon | rfl | rfl := hmem
  · exact absurd hcolon (by decide)
  · exact absurd hm₁ (by decide)
  · exact absurd hm₂ (by decide)

theorem ended_rangeEnd {q : Text} (h : IsRangeEnd q) : Ended q := by
  obtain ⟨separator, g, stop, rfl, hseparator, hg, hstop⟩ := h
  have hmark : '<' ∉ separator := by
    intro hmem
    have hnone : ∀ s ∈ [['–'], ['—'], ['-'], ['t', 'o']], '<' ∉ s := by decide
    exact hnone separator hseparator hmem
  refine Ended.append hmark (Ended.append (not_mem_of_blank hg) ?_)
  cases hstop with
  | inl hmidnight =>
    rw [hmidnight]
    exact ⟨by decide, '0', rfl, rfl⟩
  | inr hclock => exact ended_clock hclock

theorem ended_time {time : Text} (h : IsTime time) : Ended time := by
  cases h with
  | inl hclock => exact ended_clock hclock
  | inr hrange =>
    obtain ⟨clock, g, stop, rfl, hclock, hg, hstop⟩ := hrange
    exact Ended.append (ended_clock hclock).1 (Ended.append (not_mem_of_blank hg) (ended_rangeEnd hstop))

/-- What is cut off behind a text begins no time in it, nor the end of a range. -/
theorem not_beginsSetOff_append {form : Text → Prop} (hform : ∀ p, form p → Ended p) {t tail : Text}
    (ht : ¬BeginsSetOff form t) (htail : Closing tail) : ¬BeginsSetOff form (t ++ tail) := by
  intro hbegins
  obtain ⟨p, rest, hp, htext, hrest⟩ := hbegins
  cases List.append_eq_append_iff.mp htext with
  | inl hover =>
    obtain ⟨x, rfl, htail'⟩ := hover
    by_cases hx : x = []
    · refine ht ⟨t ++ x, [], hp, ?_, fun c hc => absurd hc (Option.not_mem_none c)⟩
      rw [hx, List.append_nil, List.append_nil]
    · -- the form reaches into what is cut off, which begins with white space and then an opening
      obtain ⟨hopen, d, hd, hdigit⟩ := hform _ hp
      have hlast : d ∈ x.getLast? := by
        rw [List.getLast?_append_of_ne_nil _ hx] at hd
        exact hd
      have hblank : ¬Blank x := fun hb =>
        absurd (hb d (List.mem_of_getLast? hlast)) (by rw [not_isWhitespace_of_isDigit hdigit]; decide)
      have hne : trimStart x ≠ [] := fun h => hblank (blank_iff_trimStart.mpr h)
      have hhead := htail ((trimStart x).head hne)
      rw [htail', trimStart_append hblank, List.head?_append, List.head?_eq_some_head hne] at hhead
      have hmem : (trimStart x).head hne ∈ x := (List.dropWhile_suffix _).subset (List.head_mem hne)
      exact hopen (List.mem_append_right _ (hhead rfl ▸ hmem))
  | inr hwithin =>
    obtain ⟨x, rfl, rfl⟩ := hwithin
    refine ht ⟨p, x, hp, rfl, fun c hc => hrest c ?_⟩
    rw [List.head?_append, Option.mem_def.mp hc]
    rfl

/-! ## What a line is identified by -/

theorem lineIdentity_eq (line : Text) : lineIdentity line =
    collapse (strippingTrailingComments (TaskLineParts.wordsOf (strippingCheckbox (strippingListMarker (trimStart line))))) := by
  have hwords (body : Text) : (timePrefixRest body).getD body = TaskLineParts.wordsOf body := by
    rw [← TimePrefix.parse_rest, TaskLineParts.wordsOf]
    cases TimePrefix.parse body <;> rfl
  rw [lineIdentity, hwords]
  rfl

theorem blank_of_all {w : Text} (h : w.all isSpaceOrTab = true) : Blank w := by
  intro c hc
  have hspace := List.all_eq_true.mp h c hc
  simp only [isSpaceOrTab, Bool.or_eq_true, decide_eq_true_eq] at hspace
  cases hspace with
  | inl hspace => rw [hspace]; rfl
  | inr htab => rw [htab]; rfl

theorem isSpaceOrTab_of_black {c : Char} (hc : isWhitespace c = false) : isSpaceOrTab c = false := by
  by_contra hspace
  rw [Bool.not_eq_false] at hspace
  have hblank := blank_of_all (w := [c]) (by simpa using hspace)
  rw [hblank c (List.mem_singleton_self c)] at hc
  cases hc

theorem mark_cases {marker : Char} (h : marker ∈ "-*+".toList) : marker = '-' ∨ marker = '*' ∨ marker = '+' := by
  simpa using h

theorem box_cases {c : Char} (h : c ∈ " xX".toList) : c = ' ' ∨ c = 'x' ∨ c = 'X' := by
  simpa using h

/-- Indent, bullet and checkbox with any white space between them. -/
def headOf (indent : Text) (marker : Char) (gap : Text) (c : Char) (space : Text) : Text :=
  indent ++ marker :: (gap ++ '[' :: c :: ']' :: space)

structure IsHead (indent : Text) (marker : Char) (gap : Text) (c : Char) (space : Text) : Prop where
  indent : indent.all isSpaceOrTab = true
  marker : marker ∈ "-*+".toList
  gap_ne : gap ≠ []
  gap : gap.all isSpaceOrTab = true
  box : c ∈ " xX".toList
  space : space.all isSpaceOrTab = true

theorem IsFront.isHead {indent : Text} {marker c : Char} (h : IsFront indent marker c) :
    IsHead indent marker [' '] c [' '] :=
  ⟨h.indent, h.marker, List.cons_ne_nil _ _, rfl, h.box, rfl⟩

theorem trimStart_head {indent : Text} {marker : Char} (hindent : indent.all isSpaceOrTab = true)
    (hmarker : marker ∈ "-*+".toList) (rest : Text) : trimStart (indent ++ marker :: rest) = marker :: rest := by
  rw [trimStart_append_of_blank (blank_of_all hindent)]
  refine trimStart_of_unindented (unindented_cons ?_ rest)
  obtain rfl | rfl | rfl := mark_cases hmarker
  · rfl
  · rfl
  · rfl

/-- Single spaces are what the identity is cut out by. -/
theorem lineIdentity_front {indent : Text} {marker c : Char} (h : IsFront indent marker c) (rest : Text) :
    lineIdentity (front indent marker c ++ rest) = collapse (strippingTrailingComments (TaskLineParts.wordsOf rest)) := by
  have htext : front indent marker c ++ rest = indent ++ marker :: ' ' :: '[' :: c :: ']' :: ' ' :: rest := by simp [front]
  have hmarker : strippingListMarker (marker :: ' ' :: '[' :: c :: ']' :: ' ' :: rest) = '[' :: c :: ']' :: ' ' :: rest := by
    obtain rfl | rfl | rfl := mark_cases h.marker
    · rfl
    · rfl
    · rfl
  have hbox : strippingCheckbox ('[' :: c :: ']' :: ' ' :: rest) = rest := by
    obtain rfl | rfl | rfl := box_cases h.box
    · rfl
    · rfl
    · rfl
  rw [lineIdentity_eq, htext, trimStart_head h.indent h.marker, hmarker, hbox]

theorem wordsOf_of_none {t : Text} (h : TimePrefix.parse t = none) : TaskLineParts.wordsOf t = t := by
  rw [TaskLineParts.wordsOf, h]
  rfl

theorem wordsOf_of_some {t : Text} {time : TimePrefix} (h : TimePrefix.parse t = some time) :
    TaskLineParts.wordsOf t = time.rest := by
  rw [TaskLineParts.wordsOf, h]
  rfl

theorem parse_append_tail {t tail : Text} (h : TimePrefix.parse t = none) (htail : Closing tail) :
    TimePrefix.parse (t ++ tail) = none :=
  TimePrefix.parse_eq_none.mpr
    (not_beginsSetOff_append (fun _ => ended_time) (TimePrefix.parse_eq_none.mp h) htail)

theorem collapse_of_blank {w : Text} (hw : Blank w) : collapse w = [] := by
  rw [collapse, SyncCore.words_of_blank hw]
  rfl

/-! ## The parts and the line -/

theorem takeWhile_append_stop {w rest : Text} (hw : w.all isSpaceOrTab = true) (hrest : Unspaced rest) :
    (w ++ rest).takeWhile isSpaceOrTab = w := by
  rw [List.takeWhile_append_of_pos (List.all_eq_true.mp hw)]
  cases rest with
  | nil => exact List.append_nil w
  | cons c rest => rw [List.takeWhile_cons_of_neg (by rw [hrest c rfl]; decide), List.append_nil]

theorem unspaced_cons {c : Char} (hc : isSpaceOrTab c = false) (rest : Text) : Unspaced (c :: rest) := by
  intro d hd
  rw [← Option.some.inj hd]
  exact hc

namespace TaskLineParts

theorem ofLine_head {indent : Text} {marker : Char} {gap : Text} {c : Char} {space rest : Text}
    (h : IsHead indent marker gap c space) (hrest : Unspaced rest) :
    ofLine (headOf indent marker gap c space ++ rest) =
      some (ofRest (headOf indent marker gap c (if space.isEmpty then [' '] else space)) rest) := by
  have htext : headOf indent marker gap c space ++ rest =
      indent ++ marker :: (gap ++ '[' :: c :: ']' :: (space ++ rest)) := by simp [headOf]
  have hmarker : isSpaceOrTab marker = false := by
    obtain rfl | rfl | rfl := mark_cases h.marker
    · rfl
    · rfl
    · rfl
  have hbox : (boxes.any fun box => box.isPrefixOf ('[' :: c :: ']' :: (space ++ rest))) = true := by
    obtain rfl | rfl | rfl := box_cases h.box
    · rfl
    · rfl
    · rfl
  have hindent := takeWhile_append_stop h.indent (unspaced_cons hmarker (gap ++ '[' :: c :: ']' :: (space ++ rest)))
  have hgap := takeWhile_append_stop h.gap (unspaced_cons (c := '[') rfl (c :: ']' :: (space ++ rest)))
  have hspace := takeWhile_append_stop h.space hrest
  rw [htext, ofLine, hindent, List.drop_left]
  dsimp only
  rw [if_neg (not_not.mpr h.marker), hgap, if_neg (by simpa using h.gap_ne), List.drop_left, hbox]
  simp only [List.take_succ_cons, List.take_zero, List.drop_succ_cons, List.drop_zero, hspace, List.drop_left]
  simp [headOf]

end TaskLineParts

/-! ## Lines on which the rules agree -/

open TaskLineParts

theorem gap_ne {gap w : Text} (hset : gap = [] → ∃ c ∈ w.head?, isWhitespace c = true) (tail : Text) :
    gap ++ (w ++ tail).takeWhile isWhitespace ≠ [] := by
  intro hnil
  obtain ⟨hgap, hnone⟩ := List.append_eq_nil_iff.mp hnil
  obtain ⟨d, hd, hspace⟩ := hset hgap
  obtain ⟨more, rfl⟩ := List.head?_eq_some_iff.mp hd
  rw [List.cons_append, List.takeWhile_cons_of_pos hspace] at hnone
  cases hnone

/-- Words of a line and what stands behind them. -/
structure Words (w tail : Text) : Prop where
  black : ¬Blank w
  closing : Closing tail
  kept : strippingTrailingComments (w ++ tail) = w
  untimed : TimePrefix.parse w = none
  unranged : ¬BeginsSetOff IsRangeEnd (trimStart w)

namespace Words

variable {w tail : Text} (h : Words w tail) {indent : Text} {marker c : Char} (hfront : IsFront indent marker c)

include h

theorem ne_nil : w ≠ [] := fun hnil => h.black (hnil ▸ Blank.nil)

include hfront

theorem identity : lineIdentity (front indent marker c ++ (w ++ tail)) = collapse w := by
  rw [lineIdentity_front hfront, wordsOf_of_none (parse_append_tail h.untimed h.closing), h.kept]

end Words

theorem spaced_of_ne {text : Text} (h : text ≠ []) (time : Text) : spaced (some time) text = time ++ [' '] := by
  rw [spaced, Option.elim_some, if_neg (by simpa using h)]

theorem spaced_none (text : Text) : spaced none text = [] := rfl

/-- The space a time is put in front of words with. -/
def gapOf (text : Text) : Text := if text.isEmpty then [] else [' ']

/-- Words that are left behind a time are left without it. -/
theorem stripping_words {rest tail : Text} {time : TimePrefix} (hrest : rest = strippingTrailingComments rest ++ tail)
    (hparse : TimePrefix.parse (strippingTrailingComments rest) = some time)
    (hbody : strippingTrailingComments rest = time.raw ++ ' ' :: time.rest) (hne : time.rest ≠ []) :
    strippingTrailingComments (time.rest ++ tail) = time.rest := by
  obtain ⟨htime, -⟩ := TimePrefix.parse_some hparse
  have htext : rest = (time.raw ++ [' ']) ++ (time.rest ++ tail) := by
    conv_lhs => rw [hrest, hbody]
    simp
  have hopen : '<' ∉ time.raw ++ [' '] := fun hmem =>
    (List.mem_append.mp hmem).elim (ended_time htime).1 (not_mem_of_blank (by decide))
  have hlast : (time.raw ++ [' ']).getLast? ≠ some '-' := by
    rw [List.getLast?_append_of_ne_nil _ (List.cons_ne_nil _ _)]
    decide
  have hstrip := stripping_append hopen hlast (time.rest ++ tail)
  rw [← htext, hbody] at hstrip
  split at hstrip
  · -- nothing would be left of the words
    have hlength := congrArg List.length hstrip
    have hle := (trimEnd_isPrefix (time.raw ++ [' '])).length_le
    simp only [List.length_append, List.length_cons, List.length_nil] at hlength hle
    exact absurd (List.length_eq_zero_iff.mp (by omega)) hne
  · rw [List.append_assoc] at hstrip
    have hcons := List.append_cancel_left hstrip
    exact (List.cons.inj hcons).2.symm

namespace PlainWords

variable {rest tail : Text} (hplain : PlainWords (strippingTrailingComments rest))
  (hrest : rest = strippingTrailingComments rest ++ tail) (hclosing : Closing tail)
  (hends : Untrailed (strippingTrailingComments rest))

include hplain hrest hclosing hends

/-- A line without words is not told from others. -/
theorem not_blank {indent : Text} {marker c : Char} (hfront : IsFront indent marker c)
    (hid : lineIdentity (front indent marker c ++ rest) ≠ []) : ¬Blank (wordsOf (strippingTrailingComments rest)) := by
  intro hblank
  cases hparse : TimePrefix.parse (strippingTrailingComments rest) with
  | none =>
    rw [wordsOf_of_none hparse] at hblank
    have hnone : TimePrefix.parse rest = none := hrest ▸ parse_append_tail hparse hclosing
    rw [lineIdentity_front hfront, wordsOf_of_none hnone] at hid
    exact hid (collapse_of_blank hblank)
  | some time =>
    rw [wordsOf_of_some hparse] at hblank
    have hbody := hplain.setOff time hparse
    obtain ⟨-, -, -, -, hstart, -⟩ := TimePrefix.parse_some hparse
    have hnil : time.rest = [] := by
      rw [← trimStart_of_unindented hstart]
      exact blank_iff_trimStart.mp hblank
    have hspace := hends ' ' (by rw [hbody, hnil, List.getLast?_append]; rfl)
    exact absurd hspace (by decide)

theorem words {indent : Text} {marker c : Char} (hfront : IsFront indent marker c)
    (hid : lineIdentity (front indent marker c ++ rest) ≠ []) :
    Words (wordsOf (strippingTrailingComments rest)) tail where
  black := hplain.not_blank hrest hclosing hends hfront hid
  closing := hclosing
  untimed := hplain.untimed
  unranged := hplain.unranged
  kept := by
    cases hparse : TimePrefix.parse (strippingTrailingComments rest) with
    | none => rw [wordsOf_of_none hparse, ← hrest]
    | some time =>
      have hblack := hplain.not_blank hrest hclosing hends hfront hid
      rw [wordsOf_of_some hparse] at hblack ⊢
      exact stripping_words hrest hparse (hplain.setOff time hparse) fun hnil => hblack (hnil ▸ Blank.nil)

/-- The time, its space and the words are what is left of the line. -/
theorem line {head indent : Text} {marker c : Char} (hfront : IsFront indent marker c)
    (hid : lineIdentity (front indent marker c ++ rest) ≠ []) :
    spaced (ofRest head rest).time (ofRest head rest).text ++
      (wordsOf (strippingTrailingComments rest) ++ tail) = rest := by
  conv_rhs => rw [hrest]
  cases hparse : TimePrefix.parse (strippingTrailingComments rest) with
  | none =>
    have htime : (ofRest head rest).time = none := by
      rw [ofRest, hparse]
      rfl
    rw [wordsOf_of_none hparse, htime, spaced_none, List.nil_append]
  | some time =>
    have hbody := hplain.setOff time hparse
    have htime : (ofRest head rest).time = some time.raw := by
      rw [ofRest, hparse]
      rfl
    have hblack := hplain.not_blank hrest hclosing hends hfront hid
    obtain ⟨-, -, -, -, hstart, -⟩ := TimePrefix.parse_some hparse
    have htext : (ofRest head rest).text ≠ [] := by
      refine hplain.worded.resolve_right fun hspace => ?_
      obtain ⟨d, hd, hspace⟩ := hspace
      rw [wordsOf_of_some hparse] at hd
      rw [hstart d hd] at hspace
      cases hspace
    rw [htime, spaced_of_ne htext, wordsOf_of_some hparse]
    conv_rhs => rw [hbody]
    simp

end PlainWords

/-! ## What a line that is kept tells of its spaces -/

theorem parse_nil : TimePrefix.parse [] = none := rfl

def midnight : DayTime := ⟨0, none, by decide, fun _ h => absurd h (Option.not_mem_none _)⟩

def pastMidnight : DayTime := ⟨1, none, by decide, fun _ h => absurd h (Option.not_mem_none _)⟩

theorem ofRest_time (head rest : Text) : (ofRest head rest).time =
    (TimePrefix.parse (strippingTrailingComments rest)).map TimePrefix.raw := rfl

/-- What a line with a time set reads as. -/
theorem ReadsBack.timed {indent : Text} {marker c : Char} (hfront : IsFront indent marker c) {time : DayTime} {behind : Text}
    (h : ReadsBack (front indent marker c ++ (time.text ++ behind)) (some time)) :
    ∃ read, TimePrefix.parse (strippingTrailingComments (time.text ++ behind)) = some read ∧ read.raw = time.text := by
  obtain ⟨parts, hof, htime, -⟩ := h
  have hstart : Unspaced (time.text ++ behind) := by
    obtain ⟨d, more, hcons, hblack⟩ := SyncCore.solid_time _ (TimePrefix.isTime_text time)
    rw [hcons]
    exact unspaced_cons (isSpaceOrTab_of_black hblack) _
  have hread := (ofLine_head hfront.isHead hstart).symm.trans hof
  rw [← Option.some.inj hread, ofRest_time] at htime
  exact Option.map_eq_some_iff.mp htime

theorem ReadsBack.untimed {indent : Text} {marker c : Char} (hfront : IsFront indent marker c) {rest : Text}
    (hunspaced : Unspaced rest) (h : ReadsBack (front indent marker c ++ rest) none) :
    TimePrefix.parse (strippingTrailingComments rest) = none := by
  obtain ⟨parts, hof, htime, -⟩ := h
  have hread := (ofLine_head hfront.isHead hunspaced).symm.trans hof
  rw [← Option.some.inj hread, ofRest_time] at htime
  exact Option.map_eq_none_iff.mp htime

section

variable {indent : Text} {marker c : Char} {rest tail : Text}
  (hrest : rest = strippingTrailingComments rest ++ tail) (hclosing : Closing tail)
  (hid : lineIdentity (front indent marker c ++ rest) ≠ [])
  (hline : spaced (ofRest (front indent marker c) rest).time (ofRest (front indent marker c) rest).text ++
    (wordsOf (strippingTrailingComments rest) ++ tail) = rest)

include hrest hline

include hclosing hid

end

end Thock.ThockKit
