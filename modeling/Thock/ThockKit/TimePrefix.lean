import Thock.SyncCore.DueText
import Thock.SyncCore.LineWords
import Thock.ThockKit.TextFile

/-!
# Times on the phone

The planner time at the start of a task's words with the minutes it says and the text it was read from, and the form
in which the phone writes one.

It begins with a time of the desk's grammar, set off from what follows; a single one does not go on as a range.
-/

namespace Thock.ThockKit

open TextScan
open SyncCore (numberOf padded IsClock IsRangeEnd IsTime BeginsSetOff SetOff)

/-- A planner time; `raw` is as it was written, without the white space after it. -/
structure TimePrefix where
  startMinutes : ℕ
  endMinutes : Option ℕ
  raw : Text
  rest : Text
deriving DecidableEq

namespace TimePrefix

/-- A time in minutes and what follows it; `24:00` only where it may end a range. -/
def parseTime (text : Text) (allowMidnightEnd : Bool) : Option (ℕ × Text) :=
  match if allowMidnightEnd then stripPrefix "24:00".toList text else none with
  | some rest => some (24 * 60, rest)
  | none =>
    let hourDigits := (text.take 2).takeWhile Char.isDigit
    if hourDigits.isEmpty then none
    else match text.drop hourDigits.length with
      | ':' :: rest =>
        let minuteDigits := rest.take 2
        if ¬(minuteDigits.length = 2 ∧ minuteDigits.all Char.isDigit) then none
        else if ¬(numberOf hourDigits ≤ 23 ∧ numberOf minuteDigits ≤ 59) then none
        else some (numberOf hourDigits * 60 + numberOf minuteDigits, rest.drop 2)
      | _ => none

/-- The end of a range and what follows it. -/
def rangeEnd (afterStart : Text) : Option (ℕ × Text) :=
  (strippingSeparator afterStart).bind fun afterSeparator => parseTime afterSeparator true

/-- The time prefix up to what follows it, where that is set off. -/
def upTo (text : Text) (start : ℕ) (stop : Option ℕ) (after : Text) : Option TimePrefix :=
  (label after).map fun rest => ⟨start, stop, text.take (text.length - after.length), rest⟩

def parse (text : Text) : Option TimePrefix :=
  (parseTime text false).bind fun begun =>
    ((rangeEnd begun.2).bind fun ended => upTo text begun.1 (some ended.1) ended.2).or (upTo text begun.1 none begun.2)

def clock (minutes : ℕ) : Text := padded 2 (minutes / 60) ++ ':' :: padded 2 (minutes % 60)

/-- `09:30` or `09:30 - 11:00`. -/
def format (startMinutes : ℕ) (endMinutes : Option ℕ) : Text :=
  match endMinutes with
  | some endMinutes => clock startMinutes ++ " - ".toList ++ clock endMinutes
  | none => clock startMinutes

/-! ## The desk's readings -/

theorem label_eq (token : Text) : label token = SyncCore.labelAfterToken token := by
  cases token <;> rfl

theorem parseTime_snd (text : Text) : (parseTime text false).map Prod.snd = SyncCore.parseTime text := by
  simp only [parseTime, SyncCore.parseTime, Bool.false_eq_true, if_false, List.isEmpty_iff]
  have htake : text.take ((text.take 2).takeWhile Char.isDigit).length = (text.take 2).takeWhile Char.isDigit :=
    (List.prefix_iff_eq_take.mp ((List.takeWhile_prefix _).trans (List.take_prefix 2 text))).symm
  rw [htake]
  generalize (text.take 2).takeWhile Char.isDigit = hours
  by_cases hempty : hours = []
  · rw [if_pos hempty, if_pos (by rw [hempty]; rfl)]
    rfl
  · rw [if_neg hempty, if_neg (by simpa using hempty)]
    generalize text.drop hours.length = rest
    cases rest with
    | nil => rfl
    | cons c rest =>
      by_cases hc : c = ':'
      · subst hc
        cases rest with
        | nil => rfl
        | cons m₁ rest =>
          cases rest with
          | nil => rfl
          | cons m₂ rest =>
            simp only [List.take_succ_cons, List.take_zero, List.all_cons, List.all_nil, Bool.and_true, List.length_cons,
              List.length_nil, List.drop_succ_cons, List.drop_zero, true_and, Nat.reduceAdd]
            by_cases hdigits : (m₁.isDigit && m₂.isDigit) = true
            · rw [if_neg (not_not.mpr hdigits), if_pos hdigits]
              by_cases hvalues : numberOf hours ≤ 23 ∧ numberOf [m₁, m₂] ≤ 59
              · rw [if_neg (not_not.mpr hvalues), if_neg (by omega)]
                rfl
              · rw [if_pos hvalues, if_pos (by omega)]
                rfl
            · rw [if_pos hdigits, if_neg hdigits]
              rfl
      · split
        · next heq => exact absurd (List.cons.inj heq).1 hc
        · split
          · next heq => exact absurd (List.cons.inj heq).1 hc
          · rfl

theorem rangeEnd_snd (text : Text) : (rangeEnd text).map Prod.snd = SyncCore.parseRangeEnd text := by
  have hseparator : strippingSeparator text = (SyncCore.stripSeparator (trimStart text)).map trimStart := by
    rw [strippingSeparator, SyncCore.stripSeparator]
    congr 1
    simp only [List.findSome?_cons, List.findSome?_nil]
    cases stripPrefix ['–'] (trimStart text) with
    | some rest => rfl
    | none =>
      cases stripPrefix ['—'] (trimStart text) with
      | some rest => rfl
      | none =>
        cases stripPrefix ['-'] (trimStart text) with
        | some rest => rfl
        | none => cases stripPrefix ['t', 'o'] (trimStart text) <;> rfl
  rw [rangeEnd, hseparator, SyncCore.parseRangeEnd, ← SyncCore.stripSeparator]
  cases SyncCore.stripSeparator (trimStart text) with
  | none => rfl
  | some after =>
    simp only [Option.map_some, Option.bind_some]
    have hmidnight : (parseTime (trimStart after) true).map Prod.snd =
        match stripPrefix ['2', '4', ':', '0', '0'] (trimStart after) with
        | some rest => some rest
        | none => (parseTime (trimStart after) false).map Prod.snd := by
      have hpattern : "24:00".toList = ['2', '4', ':', '0', '0'] := rfl
      simp only [parseTime, if_true, hpattern, Bool.false_eq_true, if_false]
      cases stripPrefix ['2', '4', ':', '0', '0'] (trimStart after) <;> rfl
    rw [hmidnight, parseTime_snd] <;> rfl

/-! ## What a time prefix is -/

theorem label_some {token rest : Text} (h : label token = some rest) :
    ∃ gap, Blank gap ∧ token = gap ++ rest ∧ Unindented rest ∧ (gap = [] → rest = []) := by
  unfold label at h
  split at h
  · next hempty =>
    rw [List.isEmpty_iff] at hempty
    have hrest : rest = [] := (Option.some.inj h).symm.trans hempty
    rw [hrest, hempty]
    exact ⟨[], Blank.nil, rfl, fun c hc => absurd hc (Option.not_mem_none c), fun _ => rfl⟩
  · simp only [Option.ite_none_right_eq_some, Option.some.injEq] at h
    obtain ⟨hshorter, rfl⟩ := h
    refine ⟨token.takeWhile isWhitespace, blank_takeWhile token, (takeWhile_append_trimStart token).symm,
      unindented_trimStart token, fun hgap => ?_⟩
    have hwhole := takeWhile_append_trimStart token
    rw [hgap, List.nil_append] at hwhole
    rw [hwhole] at hshorter
    exact absurd hshorter (lt_irrefl _)

theorem label_append {gap x : Text} (hgap : Blank gap) (hempty : gap = [] → x = []) : label (gap ++ x) = some (trimStart x) := by
  rw [label_eq]
  by_cases hnil : gap = []
  · rw [hnil, hempty hnil]
    rfl
  · exact SyncCore.labelAfterToken_append hgap hnil x

theorem label_of_setOff {rest : Text} (h : SetOff rest) : (label rest).isSome := by
  cases rest with
  | nil => rfl
  | cons c rest =>
    have hc : isWhitespace c = true := h c rfl
    have hblank : Blank [c] := fun d hd => List.mem_singleton.mp hd ▸ hc
    have hlabel := label_append (x := rest) hblank (fun hnil => absurd hnil (List.cons_ne_nil _ _))
    rw [List.singleton_append] at hlabel
    rw [hlabel]
    rfl

theorem parseTime_clock {c : Text} (hc : IsClock c) (rest : Text) :
    ∃ minutes, parseTime (c ++ rest) false = some (minutes, rest) := by
  have hsnd := parseTime_snd (c ++ rest)
  rw [SyncCore.parseTime_append hc rest, Option.map_eq_some_iff] at hsnd
  obtain ⟨⟨minutes, after⟩, hparse, hafter⟩ := hsnd
  exact ⟨minutes, hafter ▸ hparse⟩

theorem parseTime_some {t rest : Text} {minutes : ℕ} (h : parseTime t false = some (minutes, rest)) :
    ∃ c, IsClock c ∧ t = c ++ rest := by
  have hsnd := parseTime_snd t
  rw [h] at hsnd
  exact SyncCore.parseTime_some hsnd.symm

theorem rangeEnd_append {g q : Text} (hg : Blank g) (hq : IsRangeEnd q) (rest : Text) :
    ∃ minutes, rangeEnd (g ++ (q ++ rest)) = some (minutes, rest) := by
  have hsnd := rangeEnd_snd (g ++ (q ++ rest))
  rw [SyncCore.parseRangeEnd_append hg hq rest, Option.map_eq_some_iff] at hsnd
  obtain ⟨⟨minutes, after⟩, hrange, hafter⟩ := hsnd
  exact ⟨minutes, hafter ▸ hrange⟩

theorem rangeEnd_some {t rest : Text} {minutes : ℕ} (h : rangeEnd t = some (minutes, rest)) :
    ∃ g q, Blank g ∧ IsRangeEnd q ∧ t = g ++ (q ++ rest) := by
  have hsnd := rangeEnd_snd t
  rw [h] at hsnd
  exact SyncCore.parseRangeEnd_some hsnd.symm

theorem upTo_some {front after : Text} {start : ℕ} {stop : Option ℕ} {p : TimePrefix}
    (h : upTo (front ++ after) start stop after = some p) :
    p.raw = front ∧ p.startMinutes = start ∧ p.endMinutes = stop ∧ label after = some p.rest := by
  obtain ⟨rest, hlabel, rfl⟩ := Option.map_eq_some_iff.mp h
  exact ⟨by simp, rfl, rfl, hlabel⟩

/-- A time prefix is a time, set off from what follows. -/
theorem parse_some {t : Text} {p : TimePrefix} (h : parse t = some p) :
    IsTime p.raw ∧ ∃ gap, Blank gap ∧ t = p.raw ++ (gap ++ p.rest) ∧ Unindented p.rest ∧ (gap = [] → p.rest = []) := by
  obtain ⟨⟨start, afterStart⟩, hstart, hor⟩ := Option.bind_eq_some_iff.mp h
  obtain ⟨c, hc, rfl⟩ := parseTime_some hstart
  cases Option.or_eq_some_iff.mp hor with
  | inl hrange =>
    obtain ⟨⟨stop, afterEnd⟩, hend, hupTo⟩ := Option.bind_eq_some_iff.mp hrange
    obtain ⟨g, q, hg, hq, rfl⟩ := rangeEnd_some hend
    have htext : c ++ (g ++ (q ++ afterEnd)) = (c ++ (g ++ q)) ++ afterEnd := by simp only [List.append_assoc]
    rw [htext] at hupTo ⊢
    obtain ⟨hraw, -, -, hlabel⟩ := upTo_some hupTo
    obtain ⟨gap, hgap, rfl, hrest⟩ := label_some hlabel
    exact ⟨hraw ▸ Or.inr ⟨c, g, q, rfl, hc, hg, hq⟩, gap, hgap, by rw [hraw], hrest⟩
  | inr hsingle =>
    obtain ⟨hraw, -, -, hlabel⟩ := upTo_some hsingle.2
    obtain ⟨gap, hgap, rfl, hrest⟩ := label_some hlabel
    exact ⟨hraw ▸ Or.inl hc, gap, hgap, by rw [hraw], hrest⟩

theorem setOff_append {gap rest : Text} (hgap : Blank gap) (hempty : gap = [] → rest = []) : SetOff (gap ++ rest) := by
  intro c hc
  cases gap with
  | nil =>
    rw [hempty rfl] at hc
    exact absurd hc (Option.not_mem_none c)
  | cons d gap => exact Option.some.inj hc ▸ hgap d List.mem_cons_self

theorem parse_eq_none {t : Text} : parse t = none ↔ ¬BeginsSetOff IsTime t := by
  constructor
  · intro hnone hbegins
    obtain ⟨time, rest, htime, rfl, hrest⟩ := hbegins
    cases htime with
    | inl hclock =>
      obtain ⟨start, hstart⟩ := parseTime_clock hclock rest
      rw [parse, hstart, Option.bind_some, Option.or_eq_none_iff, upTo, Option.map_eq_none_iff] at hnone
      exact absurd hnone.2 (Option.isSome_iff_ne_none.mp (label_of_setOff hrest))
    | inr hrange =>
      obtain ⟨c, g, q, rfl, hc, hg, hq⟩ := hrange
      rw [List.append_assoc, List.append_assoc] at hnone
      obtain ⟨start, hstart⟩ := parseTime_clock hc (g ++ (q ++ rest))
      obtain ⟨stop, hstop⟩ := rangeEnd_append hg hq rest
      rw [parse, hstart, Option.bind_some, hstop, Option.bind_some, Option.or_eq_none_iff, upTo, Option.map_eq_none_iff] at hnone
      exact absurd hnone.1 (Option.isSome_iff_ne_none.mp (label_of_setOff hrest))
  · intro hnot
    by_contra hsome
    obtain ⟨p, hp⟩ := Option.ne_none_iff_exists'.mp hsome
    obtain ⟨htime, gap, hgap, htext, -, hempty⟩ := parse_some hp
    exact hnot ⟨p.raw, gap ++ p.rest, htime, htext, setOff_append hgap hempty⟩

theorem parseTime_rest (text : Text) (allowMidnightEnd : Bool) :
    (parseTime text allowMidnightEnd).map Prod.snd = ThockKit.parseTime text allowMidnightEnd := by
  have hpattern : "24:00".toList = ['2', '4', ':', '0', '0'] := rfl
  simp only [parseTime, ThockKit.parseTime, hpattern]
  generalize (if allowMidnightEnd = true then stripPrefix ['2', '4', ':', '0', '0'] text else none) = midnight
  cases midnight with
  | some rest => rfl
  | none =>
    dsimp only
    generalize (text.take 2).takeWhile Char.isDigit = hours
    cases hours.isEmpty with
    | true => rfl
    | false =>
      simp only [Bool.false_eq_true, if_false]
      cases text.drop hours.length with
      | nil => rfl
      | cons c rest =>
        by_cases hc : c = ':'
        · subst hc
          change Option.map Prod.snd (if ¬((rest.take 2).length = 2 ∧ (rest.take 2).all Char.isDigit) then none
              else if ¬(numberOf hours ≤ 23 ∧ numberOf (rest.take 2) ≤ 59) then none
              else some (numberOf hours * 60 + numberOf (rest.take 2), rest.drop 2)) =
            if ¬((rest.take 2).length = 2 ∧ (rest.take 2).all Char.isDigit) then none
            else if ¬(numberOf hours ≤ 23 ∧ numberOf (rest.take 2) ≤ 59) then none else some (rest.drop 2)
          split
          · rfl
          · split
            · rfl
            · rfl
        · simp [hc]

/-- What a line's identity goes on with behind a time. -/
theorem parse_rest (text : Text) : (parse text).map rest = timePrefixRest text := by
  have hrange (afterStart : Text) : ((strippingSeparator afterStart).bind fun after => ThockKit.parseTime after true) =
      (rangeEnd afterStart).map Prod.snd := by
    rw [rangeEnd]
    cases strippingSeparator afterStart with
    | none => rfl
    | some after => exact (parseTime_rest after true).symm
  rw [timePrefixRest, ← parseTime_rest, parse]
  cases parseTime text false with
  | none => rfl
  | some begun =>
    simp only [Option.bind_some, Option.map_some, hrange]
    cases rangeEnd begun.2 with
    | none =>
      simp only [Option.bind_none, Option.none_or, Option.map_none, upTo]
      cases label begun.2 <;> rfl
    | some ended =>
      simp only [Option.bind_some, Option.map_some, upTo]
      cases label ended.2 with
      | none => cases label begun.2 <;> rfl
      | some rest => rfl

/-! ## The form the phone writes -/

theorem digits_padded {n : ℕ} (h : n < 100) : (padded 2 n).length = 2 ∧ (padded 2 n).all Char.isDigit = true ∧
    numberOf (padded 2 n) = n :=
  ⟨SyncCore.padded_length_of_lt (by omega) (by omega), List.all_eq_true.mpr fun _ hc => SyncCore.isDigit_of_mem_padded hc,
    SyncCore.numberOf_padded 2 n⟩

theorem isClock_clock {minutes : ℕ} (h : minutes < 1440) : IsClock (clock minutes) := by
  obtain ⟨hhours, hhourDigits, hhour⟩ := digits_padded (n := minutes / 60) (by omega)
  obtain ⟨hlength, hdigits, hminute⟩ := digits_padded (n := minutes % 60) (by omega)
  rw [clock]
  generalize padded 2 (minutes / 60) = hours at hhours hhourDigits hhour
  generalize padded 2 (minutes % 60) = rest at hlength hdigits hminute
  obtain ⟨m₁, m₂, rfl⟩ := List.length_eq_two.mp hlength
  simp only [List.all_cons, List.all_nil, Bool.and_true, Bool.and_eq_true] at hdigits
  exact ⟨hours, m₁, m₂, rfl, by omega, by omega, hhourDigits, hdigits.1, hdigits.2, by omega, by omega⟩

/-- A time of day as the phone sets it, alone or up to an end; `24:00` may end it. -/
structure DayTime where
  start : ℕ
  stop : Option ℕ
  start_lt : start < 1440
  stop_le : ∀ minutes ∈ stop, minutes ≤ 1440

def DayTime.text (time : DayTime) : Text := format time.start time.stop

theorem isRangeEnd_format {minutes : ℕ} (h : minutes ≤ 1440) : IsRangeEnd ("- ".toList ++ clock minutes) := by
  refine ⟨['-'], [' '], clock minutes, rfl, by simp, by decide, ?_⟩
  by_cases hmidnight : minutes = 1440
  · rw [hmidnight]
    exact Or.inl (by decide)
  · exact Or.inr (isClock_clock (by omega))

theorem isTime_text (time : DayTime) : IsTime time.text := by
  rw [DayTime.text]
  cases hstop : time.stop with
  | none => exact Or.inl (isClock_clock time.start_lt)
  | some stop =>
    refine Or.inr ⟨clock time.start, [' '], "- ".toList ++ clock stop, ?_, isClock_clock time.start_lt, by decide,
      isRangeEnd_format (time.stop_le stop hstop)⟩
    simp [format]

end TimePrefix

end Thock.ThockKit
