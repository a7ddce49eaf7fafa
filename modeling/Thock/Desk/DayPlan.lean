import Thock.Lib.TextScan

/-!
# Headings and times of the day plan

The parts of the Day Planner's reading that calendar sync shares: how a heading is recognised
under its names, the range of lines below it, and the times a task begins with.

Letter case, the alphanumeric class and the inline link scanner of the Markdown module are
parameters. They decide which heading is found and nothing else.
-/

namespace Thock.Desk

open TextScan

/-- A link on a line, its span and the span of its label in characters. -/
structure InlineLink where
  start : ℕ
  stop : ℕ
  labelStart : ℕ
  labelStop : ℕ
deriving DecidableEq, Repr

/-- What reading a heading asks of the standard library and of the Markdown module. -/
structure HeadingReader where
  isAlphanumeric : Char → Bool
  toLowercase : Char → Text
  lowercase : Text → Text
  inlineLinks : Text → List InlineLink

/-- The characters from one offset up to another. -/
def slice (t : Text) (start stop : ℕ) : Text := (t.take stop).drop start

/-- The text with every link reduced to its label. -/
def plainText (reader : HeadingReader) (text : Text) : Text :=
  let walk := (reader.inlineLinks text).foldl (fun (plain, cursor) link =>
    if link.start < cursor then (plain, cursor)
    else (plain ++ slice text cursor link.start ++ slice text link.labelStart link.labelStop, link.stop)) ([], 0)
  walk.1 ++ text.drop walk.2

/-- A heading's comparison key: links reduced to their label, everything that is not a letter
or digit folded to single spaces, lowercased and trimmed. -/
def headingKey (reader : HeadingReader) (text : Text) : Text :=
  trimEnd ((plainText reader text).foldl (fun key c =>
    if reader.isAlphanumeric c then key ++ reader.toLowercase c
    else if !key.isEmpty && key.getLast? != some ' ' then key ++ [' ']
    else key) [])

/-- The names a section may be written as. -/
structure HeadingNames where
  lowercased : List Text
  keys : List Text
deriving DecidableEq, Repr

/-- Blank names are dropped, and so is a key that is empty or already there. -/
def HeadingNames.new (reader : HeadingReader) (names : List Text) : HeadingNames :=
  names.foldl (fun acc name =>
    let name := trim name
    if name.isEmpty then acc
    else
      let key := headingKey reader name
      { lowercased := acc.lowercased ++ [reader.lowercase name]
        keys := if !key.isEmpty && !acc.keys.contains key then acc.keys ++ [key] else acc.keys }) ⟨[], []⟩

def HeadingNames.isEmpty (names : HeadingNames) : Bool := names.lowercased.isEmpty

/-- How well a heading's text names the section: an exact match on any name beats a normalized
match on every name, and lower is better. -/
def HeadingNames.rank (reader : HeadingReader) (names : HeadingNames) (text : Text) : Option ℕ :=
  let lowercased := reader.lowercase (trim text)
  match names.lowercased.findIdx? (· = lowercased) with
  | some index => some index
  | none =>
    let key := headingKey reader text
    if key.isEmpty then none
    else (names.keys.findIdx? (· = key)).map (names.lowercased.length + ·)

/-- The level and text of an ATX heading line. -/
def headingLevelAndText (line : Text) : Option (ℕ × Text) :=
  let trimmed := trimStart line
  let afterHashes := trimmed.dropWhile (· = '#')
  let level := trimmed.length - afterHashes.length
  if level = 0 ∨ level > 6 then none
  else match afterHashes with
    | c :: _ => if c = ' ' ∨ c = '\t' then some (level, trim afterHashes) else none
    | [] => some (level, [])

/-- The best-ranked heading seen so far, as rank, row and level. -/
def bestHeadingFrom (reader : HeadingReader) (names : HeadingNames) (level : Option ℕ) :
    Option (ℕ × ℕ × ℕ) → List (ℕ × Text) → Option (ℕ × ℕ)
  | best, [] => best.map fun b => b.2
  | best, (row, line) :: rest =>
    match headingLevelAndText line with
    | none => bestHeadingFrom reader names level best rest
    | some (headingLevel, text) =>
      if level.any (· ≠ headingLevel) then bestHeadingFrom reader names level best rest
      else match names.rank reader text with
        | none => bestHeadingFrom reader names level best rest
        | some rank =>
          if rank = 0 then some (row, headingLevel)
          else if best.all (fun b => rank < b.1) then
            bestHeadingFrom reader names level (some (rank, row, headingLevel)) rest
          else bestHeadingFrom reader names level best rest

/-- The best-ranked heading among numbered lines, as its row and level; ties go to the earliest. -/
def bestHeading (reader : HeadingReader) (names : HeadingNames) (level : Option ℕ)
    (lines : List (ℕ × Text)) : Option (ℕ × ℕ) :=
  if names.isEmpty then none else bestHeadingFrom reader names level none lines

/-- A run of rows, its end excluded. -/
structure RowRange where
  start : ℕ
  stop : ℕ
deriving DecidableEq, Repr

/-- The rows of a range in order. -/
def RowRange.rows (r : RowRange) : List ℕ := List.range' r.start (r.stop - r.start)

/-- Numbered lines. -/
def numbered (lines : List Text) : List (ℕ × Text) := lines.zipIdx.map fun p => (p.2, p.1)

/-- The rows under the heading naming `names`, up to the next heading of equal or higher level,
and the heading's level. -/
def plannerSection (reader : HeadingReader) (lines : List Text) (names : HeadingNames) :
    Option (RowRange × ℕ) :=
  (bestHeading reader names none (numbered lines)).map fun (start, level) =>
    let stop := ((lines.drop (start + 1)).findIdx? fun line =>
      (headingLevelAndText line).any fun h => h.1 ≤ level).map (start + 1 + ·)
    (⟨start + 1, stop.getD lines.length⟩, level)

/-! ## Times -/

def minutesPerDay : ℕ := 24 * 60

def digitValue (c : Char) : ℕ := c.toNat - '0'.toNat

/-- The minutes since midnight that hour digits and two minute digits spell. -/
def clockMinutes (hour : Text) (m₁ m₂ : Char) : Option ℕ :=
  if hour.all Char.isDigit && m₁.isDigit && m₂.isDigit then
    let hours := hour.foldl (fun n c => 10 * n + digitValue c) 0
    let minutes := 10 * digitValue m₁ + digitValue m₂
    if hours > 23 ∨ minutes > 59 then none else some (hours * 60 + minutes)
  else none

/-- `H:MM` or `HH:MM` at the very start: the minutes since midnight and the rest. -/
def parseTimePrefix : Text → Option (ℕ × Text)
  | h :: ':' :: m₁ :: m₂ :: rest => (clockMinutes [h] m₁ m₂).map fun minute => (minute, rest)
  | h₁ :: h₂ :: ':' :: m₁ :: m₂ :: rest => (clockMinutes [h₁, h₂] m₁ m₂).map fun minute => (minute, rest)
  | _ => none

/-- The text after a range separator. -/
def stripRangeSeparator (text : Text) : Option Text :=
  [['–'], ['—'], ['-'], "to".toList].findSome? fun separator => stripPrefix separator text

/-- A range separator and a time; `24:00` is an end, never a start. -/
def parseRangeEnd (text : Text) : Option (ℕ × Text) :=
  (stripRangeSeparator (trimStart text)).bind fun after =>
    let after := trimStart after
    match stripPrefix "24:00".toList after with
    | some rest => some (minutesPerDay, rest)
    | none => parseTimePrefix after

/-- Only digits spell a time. -/
theorem clockMinutes_digit {hour : Text} {m₁ m₂ : Char} {minute : ℕ}
    (h : clockMinutes hour m₁ m₂ = some minute) : ∀ c ∈ hour, c.isDigit = true := by
  unfold clockMinutes at h
  split at h
  · rename_i hdigits
    simp only [Bool.and_eq_true, List.all_eq_true] at hdigits
    exact hdigits.1.1
  · cases h

/-- A time is read off a prefix that starts with a digit, whatever follows. -/
theorem parseTimePrefix_prefix {text rest : Text} {minute : ℕ}
    (h : parseTimePrefix text = some (minute, rest)) :
    ∃ d p, d.isDigit = true ∧ text = d :: p ++ rest ∧
      ∀ after, parseTimePrefix (d :: p ++ after) = some (minute, after) := by
  unfold parseTimePrefix at h
  split at h
  · rename_i d m₁ m₂ after
    obtain ⟨n, hn, heq⟩ := Option.map_eq_some_iff.mp h
    obtain ⟨rfl, rfl⟩ := Prod.mk.inj heq
    refine ⟨d, [':', m₁, m₂], clockMinutes_digit hn d (by simp), by simp, fun after => ?_⟩
    simp [parseTimePrefix, hn]
  · rename_i d e m₁ m₂ after hshort
    obtain ⟨n, hn, heq⟩ := Option.map_eq_some_iff.mp h
    obtain ⟨rfl, rfl⟩ := Prod.mk.inj heq
    have he : e ≠ ':' := by
      rintro rfl
      exact absurd (clockMinutes_digit hn ':' (by simp)) (by decide)
    refine ⟨d, [e, ':', m₁, m₂], clockMinutes_digit hn d (by simp), by simp, fun after => ?_⟩
    simp only [List.cons_append, List.nil_append]
    unfold parseTimePrefix
    split
    · rename_i heq
      simp only [List.cons.injEq] at heq
      exact absurd heq.2.1 he
    · rename_i heq
      simp only [List.cons.injEq] at heq
      obtain ⟨rfl, rfl, -, rfl, rfl, rfl⟩ := heq
      rw [hn]
      rfl
    · rename_i hnone
      exact absurd rfl (hnone d e m₁ m₂ after)
  · cases h

/-- `24:00` is not the start of a time of the day. -/
theorem parseTimePrefix_midnight (rest : Text) : parseTimePrefix ("24:00".toList ++ rest) = none := rfl

/-- A separator is read off a prefix that does not start with white space, whatever follows. -/
theorem stripRangeSeparator_prefix {text rest : Text} (h : stripRangeSeparator text = some rest) :
    ∃ c p, isWhitespace c = false ∧ text = c :: p ++ rest ∧
      ∀ after, stripRangeSeparator (c :: p ++ after) = some after := by
  obtain ⟨separator, hmem, hstrip⟩ := List.exists_of_findSome?_eq_some h
  rw [stripPrefix_eq_some] at hstrip
  subst hstrip
  simp only [List.mem_cons, List.not_mem_nil, or_false] at hmem
  rcases hmem with rfl | rfl | rfl | rfl
  · exact ⟨'–', [], by decide, rfl, fun after => by simp [stripRangeSeparator, stripPrefix]⟩
  · exact ⟨'—', [], by decide, rfl, fun after => by simp [stripRangeSeparator, stripPrefix]⟩
  · exact ⟨'-', [], by decide, rfl, fun after => by simp [stripRangeSeparator, stripPrefix]⟩
  · exact ⟨'t', ['o'], by decide, rfl, fun after => by simp [stripRangeSeparator, stripPrefix]⟩

/-- White space in front changes nothing. -/
theorem parseRangeEnd_congr {a b : Text} (h : trimStart a = trimStart b) : parseRangeEnd a = parseRangeEnd b := by
  unfold parseRangeEnd
  rw [h]

/-- A range end is read off a prefix, whatever follows. -/
theorem parseRangeEnd_prefix {text rest : Text} {minute : ℕ} (h : parseRangeEnd text = some (minute, rest)) :
    ∃ p, text = p ++ rest ∧ ∀ after, parseRangeEnd (p ++ after) = some (minute, after) := by
  unfold parseRangeEnd at h
  obtain ⟨separated, hsep, h⟩ := Option.bind_eq_some_iff.mp h
  obtain ⟨c, sep, hc, htrim, hany⟩ := stripRangeSeparator_prefix hsep
  have htext : text = text.takeWhile isWhitespace ++ (c :: sep ++ separated) := by
    rw [← htrim, takeWhile_append_trimStart]
  have hspace := takeWhile_append_trimStart separated
  -- What remains is to read the time itself, `24:00` or another.
  have assemble (d : Char) (time : Text) (hd : isWhitespace d = false)
      (hrest : trimStart separated = d :: time ++ rest)
      (hread : ∀ after, (match stripPrefix "24:00".toList (d :: time ++ after) with
        | some rest => some (minutesPerDay, rest)
        | none => parseTimePrefix (d :: time ++ after)) = some (minute, after)) :
      ∃ p, text = p ++ rest ∧ ∀ after, parseRangeEnd (p ++ after) = some (minute, after) := by
    refine ⟨text.takeWhile isWhitespace ++ (c :: sep ++ (separated.takeWhile isWhitespace ++ (d :: time))), ?_, ?_⟩
    · conv_lhs => rw [htext, ← hspace, hrest]
      simp
    · intro after
      have hstart : trimStart (text.takeWhile isWhitespace ++
          (c :: sep ++ (separated.takeWhile isWhitespace ++ (d :: time))) ++ after) =
            c :: sep ++ (separated.takeWhile isWhitespace ++ (d :: time ++ after)) := by
        rw [List.append_assoc, trimStart_append_of_blank (blank_takeWhile text)]
        rw [List.cons_append, List.cons_append, trimStart_of_unindented (unindented_cons hc _)]
        simp
      have hinner : trimStart (separated.takeWhile isWhitespace ++ (d :: time ++ after)) = d :: time ++ after := by
        rw [trimStart_append_of_blank (blank_takeWhile separated), List.cons_append,
          trimStart_of_unindented (unindented_cons hd _)]
      unfold parseRangeEnd
      rw [hstart, hany, Option.bind_some, hinner]
      exact hread after
  dsimp only at h
  split at h
  · rename_i after hmidnight
    obtain ⟨rfl, rfl⟩ := Prod.mk.inj (Option.some.inj h)
    rw [stripPrefix_eq_some] at hmidnight
    exact assemble '2' "4:00".toList (by decide) hmidnight fun after => by
      have hstrip : stripPrefix "24:00".toList ('2' :: "4:00".toList ++ after) = some after := by
        rw [stripPrefix_eq_some]
        rfl
      rw [hstrip]
  · obtain ⟨d, p, hd, hp, hread⟩ := parseTimePrefix_prefix h
    refine assemble d p (not_isWhitespace_of_isDigit hd) hp fun after => ?_
    cases hmidnight : stripPrefix "24:00".toList (d :: p ++ after) with
    | none => exact hread after
    | some rest' =>
      have htime := hread after
      rw [stripPrefix_eq_some.mp hmidnight, parseTimePrefix_midnight] at htime
      cases htime

end Thock.Desk
