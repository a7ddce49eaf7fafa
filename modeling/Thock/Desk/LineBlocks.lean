import Thock.Lib.TextBytes
import Thock.SyncCore.Markdown
import Thock.SyncCore.Paths

/-!
# Changing a line's block

A line begins with its indentation and perhaps one block prefix: a bullet, a task, a number, a heading or a
quote. Another prefix is written in its place, before the same text.

A prefix is read back as it was written, but for a bullet: before a text that opens with a checkbox it reads
as a task, and before a text of dashes as a rule. Offsets are bytes of UTF-8.
-/

namespace Thock.Desk

open TextScan SyncCore

/-! ## What the prefixes are -/

/-- A space or a tab. -/
def isIndent (c : Char) : Bool := c = ' ' || c = '\t'

def trimIndent (text : Text) : Text := text.dropWhile isIndent

/-- The length of a line's leading spaces and tabs. -/
def indentLength (line : Text) : ℕ := utf8Length line - utf8Length (trimIndent line)

def startsIndented (text : Text) : Bool := text.head?.any isIndent

def isAsciiWhitespace (c : Char) : Bool :=
  c = ' ' || c = '\t' || c = '\n' || c = '\x0C' || c = '\r'

def isBulletMarker (c : Char) : Bool := c = '-' || c = '*' || c = '+'

/-- Three or more of one marker and nothing else but white space. -/
def isRule (marker : Char) (rest : Text) : Bool :=
  let marks := rest.filter fun c => !isAsciiWhitespace c
  marks.all (· = marker) && 3 ≤ marks.length

/-- The marker of a bullet or task line, which is not a rule. -/
def bulletMarker (line : Text) : Option Span :=
  let indent := indentLength line
  match dropBytes indent line with
  | [] => none
  | marker :: after =>
    if !isBulletMarker marker then none
    else if !startsIndented after then none
    else if isRule marker (marker :: after) then none
    else some ⟨indent, indent + 1⟩

/-- Whether the mark between the brackets of a checkbox says checked. -/
def checkedMark (c : Char) : Option Bool :=
  if c = ' ' then some false else if c = 'x' ∨ c = 'X' then some true else none

/-- The checkbox of a task line, and whether it is checked. -/
def taskCheckbox (line : Text) : Option (Span × Bool) :=
  match dropBytes (indentLength line) line with
  | [] => none
  | marker :: afterBullet =>
    if !isBulletMarker marker then none
    else
      let afterSpace := trimIndent afterBullet
      if utf8Length afterSpace = utf8Length afterBullet then none
      else match afterSpace with
        | '[' :: mark :: ']' :: afterCheckbox =>
          if !afterCheckbox.isEmpty && !startsIndented afterCheckbox then none
          else
            let stop := utf8Length line - utf8Length afterCheckbox
            (checkedMark mark).map fun checked => (⟨stop - utf8Length "[ ]".toList, stop⟩, checked)
        | _ => none

/-- The list prefix of a bullet or task line, from its indentation to its text. -/
def listPrefix (line : Text) : Option Span :=
  (bulletMarker line).map fun bullet =>
    let markerEnd := ((taskCheckbox line).map fun checkbox => checkbox.1.stop).getD bullet.stop
    let rest := dropBytes markerEnd line
    ⟨bullet.start, utf8Length line - utf8Length (trimIndent rest)⟩

inductive Block
  | task
  | bullet
  | numbered
  | heading (level : UInt8)
  | quote
deriving DecidableEq, Repr

def Block.prefix_ : Block → Text
  | .task => "- [ ] ".toList
  | .bullet => "- ".toList
  | .numbered => "1. ".toList
  | .heading level => List.replicate (min (max level.toNat 1) 6) '#' ++ [' ']
  | .quote => "> ".toList

/-- How long the number, heading or quote marker is that a text opens with. -/
def markerLength (rest : Text) : Option ℕ :=
  let digits := (rest.takeWhile Char.isDigit).length
  let hashes := (rest.takeWhile (· = '#')).length
  if (1 ≤ digits ∧ digits ≤ 9) ∧ (rest.drop digits).head?.any fun c => c = '.' || c = ')' then some (digits + 1)
  else if 1 ≤ hashes ∧ hashes ≤ 6 then some hashes
  else if rest.head? = some '>' then some 1
  else none

/-- Where the text of a line starts that has no list prefix. -/
def unlistedTextStart (line : Text) (indent : ℕ) : ℕ :=
  let rest := dropBytes indent line
  match markerLength rest with
  | none => indent
  | some marker =>
    let after := dropBytes marker rest
    let spaced := trimIndent after
    -- `#tag` and `1.5` are text: a marker needs white space after it, or nothing at all.
    if utf8Length spaced = utf8Length after ∧ ¬after.isEmpty ∧ rest.head? ≠ some '>' then indent
    else utf8Length line - utf8Length spaced

/-- Where the text of a line starts once its block prefix, if any, is skipped. -/
def blockTextStart (line : Text) (indent : ℕ) : ℕ :=
  match listPrefix line with
  | some listed => listed.stop
  | none => unlistedTextStart line indent

/-- A line rewritten with another block prefix, and where the cursor lands. -/
def applyBlock (line : Text) (block : Block) (cursor : ℕ) : Text × ℕ :=
  let indent := indentLength line
  let textStart := blockTextStart line indent
  let newTextStart := indent + utf8Length block.prefix_
  (takeBytes indent line ++ block.prefix_ ++ dropBytes textStart line,
    newTextStart + (min cursor (utf8Length line) - textStart))

/-! ## Cutting a line into its pieces -/

@[simp] theorem utf8Length_nil : utf8Length [] = 0 := rfl

@[simp] theorem utf8Length_cons (c : Char) (rest : Text) : utf8Length (c :: rest) = c.utf8Size + utf8Length rest := by
  simp [utf8Length]

@[simp] theorem utf8Length_append (a b : Text) : utf8Length (a ++ b) = utf8Length a + utf8Length b := by
  simp [utf8Length]

/-- A line cut where its last piece begins. -/
theorem dropBytes_piece (front back : Text) : dropBytes (utf8Length (front ++ back) - utf8Length back) (front ++ back) = back := by
  rw [utf8Length_append, Nat.add_sub_cancel]
  exact dropBytes_append front back

/-- The text has no leading space or tab. -/
def Flush (text : Text) : Prop := trimIndent text = text

theorem flush_trimIndent (text : Text) : Flush (trimIndent text) := List.dropWhile_idempotent _ _

theorem trimIndent_suffix (text : Text) : trimIndent text <:+ text := List.dropWhile_suffix _

/-- A character that is no space or tab is flush. -/
theorem flush_cons {c : Char} (h : isIndent c = false) (rest : Text) : Flush (c :: rest) := by
  rw [Flush, trimIndent, List.dropWhile_cons, h]
  rfl

theorem trimIndent_append {indent : Text} (hindent : ∀ c ∈ indent, isIndent c = true) {rest : Text} (hrest : Flush rest) :
    trimIndent (indent ++ rest) = rest := by
  rw [trimIndent, List.dropWhile_append_of_pos hindent]
  exact hrest

theorem trimIndent_space {text : Text} (h : Flush text) : trimIndent (' ' :: text) = text :=
  @trimIndent_append [' '] (by simp [isIndent]) text h

theorem indentLength_append {indent : Text} (hindent : ∀ c ∈ indent, isIndent c = true) {rest : Text} (hrest : Flush rest) :
    indentLength (indent ++ rest) = utf8Length indent := by
  rw [indentLength, trimIndent_append hindent hrest, utf8Length_append, Nat.add_sub_cancel]

/-- The text of a line, after its indentation and its block prefix. -/
def blockText (line : Text) : Text := dropBytes (blockTextStart line (indentLength line)) line

theorem blockTextStart_of_listed {line : Text} {listed : Span} (h : listPrefix line = some listed) (indent : ℕ) :
    blockTextStart line indent = listed.stop := by
  rw [blockTextStart, h]

theorem blockTextStart_of_unlisted {line : Text} (h : listPrefix line = none) (indent : ℕ) :
    blockTextStart line indent = unlistedTextStart line indent := by
  rw [blockTextStart, h]

/-- Something begins at an offset of a line that is flush. -/
def StartsPiece (line : Text) (start : ℕ) : Prop := ∃ back, back <:+ line ∧ Flush back ∧ start = utf8Length line - utf8Length back

theorem startsPiece_trimIndent {line back : Text} (h : back <:+ line) :
    StartsPiece line (utf8Length line - utf8Length (trimIndent back)) :=
  ⟨trimIndent back, (trimIndent_suffix back).trans h, flush_trimIndent back, rfl⟩

/-- A line's text is one of its pieces, and never begins with a space or a tab. -/
theorem startsPiece_blockTextStart (line : Text) : StartsPiece line (blockTextStart line (indentLength line)) := by
  have hindent : StartsPiece line (indentLength line) := startsPiece_trimIndent List.suffix_rfl
  cases hlisted : listPrefix line with
  | some listed =>
    rw [blockTextStart_of_listed hlisted]
    obtain ⟨bullet, -, rfl⟩ := Option.map_eq_some_iff.mp hlisted
    exact startsPiece_trimIndent (dropBytes_suffix _ line)
  | none =>
    rw [blockTextStart_of_unlisted hlisted, unlistedTextStart]
    split
    · exact hindent
    · dsimp only
      split
      · exact hindent
      · exact startsPiece_trimIndent ((dropBytes_suffix _ _).trans (dropBytes_suffix _ line))

theorem exists_front (line : Text) :
    ∃ front, line = front ++ blockText line ∧ utf8Length front = blockTextStart line (indentLength line) ∧
      Flush (blockText line) := by
  obtain ⟨back, ⟨front, rfl⟩, hflush, hstart⟩ := startsPiece_blockTextStart line
  have hback : blockText (front ++ back) = back := by
    rw [blockText, hstart, dropBytes_piece]
  refine ⟨front, by rw [hback], ?_, by rwa [hback]⟩
  rw [hstart, utf8Length_append, Nat.add_sub_cancel]

/-- A line rewritten is its indentation, the prefix and its text. -/
theorem applyBlock_append {indent : Text} (hindent : ∀ c ∈ indent, isIndent c = true) {rest : Text} (hrest : Flush rest)
    (block : Block) (cursor : ℕ) :
    (applyBlock (indent ++ rest) block cursor).1 = indent ++ block.prefix_ ++ blockText (indent ++ rest) := by
  have htake : takeBytes (utf8Length indent) (indent ++ rest) = indent := takeBytes_append indent rest
  rw [applyBlock, blockText, indentLength_append hindent hrest]
  simp only [htake]

/-! ## A prefix reads back -/

/-- A text that a bullet in front of it makes a task line. -/
def OpensCheckbox (text : Text) : Prop :=
  ∃ mark rest, text = '[' :: mark :: ']' :: rest ∧ checkedMark mark ≠ none ∧ (rest = [] ∨ startsIndented rest = true)

/-- A text that a bullet in front of it makes a rule. -/
def CompletesRule (text : Text) : Prop := (∀ c ∈ text, c = '-' ∨ isAsciiWhitespace c = true) ∧ 2 ≤ text.count '-'

/-- The marks of a text are its dashes where it has no others. -/
theorem length_marks {text : Text} (h : ∀ c ∈ text, c = '-' ∨ isAsciiWhitespace c = true) :
    (text.filter fun c => !isAsciiWhitespace c).length = text.count '-' := by
  rw [← List.countP_eq_length_filter, List.count]
  apply List.countP_congr
  intro c hc
  cases h c hc with
  | inl hdash => simp [hdash, isAsciiWhitespace]
  | inr hspace =>
    have hne : c ≠ '-' := by
      intro hdash
      simp [hdash, isAsciiWhitespace] at hspace
    simp [hspace, hne]

theorem isRule_dash_iff {text : Text} : isRule '-' ('-' :: ' ' :: text) = true ↔ CompletesRule text := by
  have hmarks : (('-' :: ' ' :: text).filter fun c => !isAsciiWhitespace c) =
      '-' :: text.filter fun c => !isAsciiWhitespace c := by
    simp [isAsciiWhitespace]
  have hall : ((text.filter fun c => !isAsciiWhitespace c).all (· = '-')) = true ↔
      ∀ c ∈ text, c = '-' ∨ isAsciiWhitespace c = true := by
    simp only [List.all_filter, List.all_eq_true, Bool.or_eq_true, Bool.not_not, decide_eq_true_eq]
    exact forall₂_congr fun c _ => Or.comm
  simp only [isRule, hmarks, List.all_cons, List.length_cons, decide_true, Bool.true_and, Bool.and_eq_true, hall,
    decide_eq_true_eq, CompletesRule]
  constructor
  · intro h
    have := length_marks h.1
    exact ⟨h.1, by omega⟩
  · intro h
    have := length_marks h.1
    exact ⟨h.1, by omega⟩

section

variable {indent : Text} (hindent : ∀ c ∈ indent, isIndent c = true) {text : Text}

include hindent

theorem dropBytes_indent {rest : Text} (hrest : Flush rest) :
    dropBytes (indentLength (indent ++ rest)) (indent ++ rest) = rest := by
  rw [indentLength_append hindent hrest]
  exact dropBytes_append indent rest

/-- A line that opens with no bullet is read by its number, heading or quote marker. -/
theorem blockTextStart_marked {c : Char} (hindented : isIndent c = false) (hbullet : isBulletMarker c = false)
    {marker rest : Text} (hmarker : markerLength (c :: (marker ++ ' ' :: rest)) = some (utf8Length (c :: marker)))
    (hrest : Flush rest) :
    blockTextStart (indent ++ (c :: marker ++ ' ' :: rest)) (indentLength (indent ++ (c :: marker ++ ' ' :: rest))) =
      utf8Length (indent ++ (c :: marker) ++ [' ']) := by
  have hflush := flush_cons hindented (marker ++ ' ' :: rest)
  have hdrop := dropBytes_indent hindent hflush
  have hlisted : listPrefix (indent ++ (c :: marker ++ ' ' :: rest)) = none := by
    simp [listPrefix, bulletMarker, hdrop, hbullet]
  have hafter : dropBytes (utf8Length (c :: marker)) (c :: (marker ++ ' ' :: rest)) = ' ' :: rest :=
    dropBytes_append (c :: marker) (' ' :: rest)
  have hlength : utf8Length rest ≠ utf8Length (' ' :: rest) := by
    rw [utf8Length_cons]
    have := (' ').utf8Size_pos
    omega
  rw [blockTextStart_of_unlisted hlisted, unlistedTextStart]
  simp only [List.cons_append, hdrop, hmarker, hafter, trimIndent_space hrest]
  rw [if_neg fun h => hlength h.1]
  simp only [utf8Length_append, utf8Length_cons, utf8Length_nil]
  omega

/-- A line that opens with a dash and is no rule has a list prefix. -/
theorem bulletMarker_dash (hrule : ¬CompletesRule text) :
    bulletMarker (indent ++ '-' :: ' ' :: text) = some ⟨utf8Length indent, utf8Length indent + 1⟩ := by
  have hflush : Flush ('-' :: ' ' :: text) := flush_cons (by decide) _
  have hdrop := dropBytes_indent hindent hflush
  have hlength := indentLength_append hindent hflush
  have hdash : isRule '-' ('-' :: ' ' :: text) = false := by
    rwa [← isRule_dash_iff, Bool.not_eq_true] at hrule
  rw [hlength] at hdrop
  simp [bulletMarker, hlength, hdrop, hdash, isBulletMarker, startsIndented, isIndent]

theorem bulletMarker_rule (hrule : CompletesRule text) : bulletMarker (indent ++ '-' :: ' ' :: text) = none := by
  have hflush : Flush ('-' :: ' ' :: text) := flush_cons (by decide) _
  have hdrop := dropBytes_indent hindent hflush
  rw [indentLength_append hindent hflush] at hdrop
  rw [← isRule_dash_iff] at hrule
  simp [bulletMarker, indentLength_append hindent hflush, hdrop, hrule]

/-- The checkbox after a dash ends where the text's checkbox does. -/
theorem taskCheckbox_dash {mark : Char} {rest : Text} (hmark : checkedMark mark ≠ none)
    (hrest : rest = [] ∨ startsIndented rest = true) :
    (taskCheckbox (indent ++ '-' :: ' ' :: '[' :: mark :: ']' :: rest)).map (fun checkbox => checkbox.1.stop) =
      some (utf8Length (indent ++ '-' :: ' ' :: '[' :: mark :: ']' :: rest) - utf8Length rest) := by
  have hflush : Flush ('-' :: ' ' :: '[' :: mark :: ']' :: rest) := flush_cons (by decide) _
  have hbox : Flush ('[' :: mark :: ']' :: rest) := flush_cons (by decide) _
  have hlength : utf8Length ('[' :: mark :: ']' :: rest) ≠ utf8Length (' ' :: '[' :: mark :: ']' :: rest) := by
    rw [utf8Length_cons ' ']
    have := (' ').utf8Size_pos
    omega
  have hends : (!rest.isEmpty && !startsIndented rest) = false := by
    cases hrest with
    | inl hnil => simp [hnil]
    | inr hstarts => simp [hstarts]
  obtain ⟨checked, hchecked⟩ := Option.ne_none_iff_exists'.mp hmark
  simp only [taskCheckbox, dropBytes_indent hindent hflush, trimIndent_space hbox, if_neg hlength]
  simp [isBulletMarker, hends, hchecked]

theorem taskCheckbox_none (htext : Flush text) (hbox : ¬OpensCheckbox text) :
    taskCheckbox (indent ++ '-' :: ' ' :: text) = none := by
  have hflush : Flush ('-' :: ' ' :: text) := flush_cons (by decide) _
  simp only [taskCheckbox, dropBytes_indent hindent hflush, trimIndent_space htext]
  split
  · rfl
  · split
    · rfl
    · split
      · rename_i mark rest heq
        split
        · rfl
        · rename_i hends
          rw [Option.map_eq_none_iff]
          by_contra hmark
          apply hbox
          refine ⟨mark, rest, rfl, hmark, ?_⟩
          cases rest with
          | nil => exact Or.inl rfl
          | cons c rest => exact Or.inr (by simpa using hends)
      · rfl

/-- Before a text that opens no checkbox and completes no rule, a bullet is read as a bullet. -/
theorem blockTextStart_bullet (htext : Flush text) (hbox : ¬OpensCheckbox text) (hrule : ¬CompletesRule text) :
    blockTextStart (indent ++ '-' :: ' ' :: text) (indentLength (indent ++ '-' :: ' ' :: text)) =
      utf8Length (indent ++ '-' :: ' ' :: text) - utf8Length text := by
  have hdrop : dropBytes (utf8Length indent + 1) (indent ++ '-' :: ' ' :: text) = ' ' :: text := by
    have hfront := dropBytes_append (indent ++ ['-']) (' ' :: text)
    have hdash : '-'.utf8Size = 1 := rfl
    rw [List.append_assoc] at hfront
    simpa [utf8Length, hdash] using hfront
  have hlisted : listPrefix (indent ++ '-' :: ' ' :: text) =
      some ⟨utf8Length indent, utf8Length (indent ++ '-' :: ' ' :: text) - utf8Length text⟩ := by
    rw [listPrefix, bulletMarker_dash hindent hrule, taskCheckbox_none hindent htext hbox]
    simp only [Option.map_some, Option.map_none, Option.getD_none, hdrop, trimIndent_space htext]
  rw [blockTextStart_of_listed hlisted]

/-- Before a text that opens a checkbox, a bullet is read as a task. -/
theorem blockTextStart_checkbox {mark : Char} {rest : Text} (hmark : checkedMark mark ≠ none)
    (hrest : rest = [] ∨ startsIndented rest = true) :
    blockTextStart (indent ++ '-' :: ' ' :: '[' :: mark :: ']' :: rest)
        (indentLength (indent ++ '-' :: ' ' :: '[' :: mark :: ']' :: rest)) =
      utf8Length (indent ++ '-' :: ' ' :: '[' :: mark :: ']' :: rest) - utf8Length (trimIndent rest) := by
  have hrule : ¬CompletesRule ('[' :: mark :: ']' :: rest) := by
    intro h
    have hopen := h.1 '[' List.mem_cons_self
    simp [isAsciiWhitespace] at hopen
  have hback : dropBytes (utf8Length (indent ++ '-' :: ' ' :: '[' :: mark :: ']' :: rest) - utf8Length rest)
      (indent ++ '-' :: ' ' :: '[' :: mark :: ']' :: rest) = rest := by
    have hpiece := dropBytes_piece (indent ++ ['-', ' ', '[', mark, ']']) rest
    rwa [List.append_assoc] at hpiece
  have hlisted : listPrefix (indent ++ '-' :: ' ' :: '[' :: mark :: ']' :: rest) =
      some ⟨utf8Length indent, utf8Length (indent ++ '-' :: ' ' :: '[' :: mark :: ']' :: rest) - utf8Length (trimIndent rest)⟩ := by
    rw [listPrefix, bulletMarker_dash hindent hrule, taskCheckbox_dash hindent hmark hrest]
    simp only [Option.map_some, Option.getD_some, hback]
  rw [blockTextStart_of_listed hlisted]

/-- Before a text that completes a rule, a bullet is not read as a prefix. -/
theorem blockTextStart_rule (hrule : CompletesRule text) :
    blockTextStart (indent ++ '-' :: ' ' :: text) (indentLength (indent ++ '-' :: ' ' :: text)) = utf8Length indent := by
  have hflush : Flush ('-' :: ' ' :: text) := flush_cons (by decide) _
  have hlisted : listPrefix (indent ++ '-' :: ' ' :: text) = none := by
    rw [listPrefix, bulletMarker_rule hindent hrule]
    rfl
  have hmarker : markerLength ('-' :: ' ' :: text) = none := by
    simp [markerLength]
  rw [blockTextStart_of_unlisted hlisted, unlistedTextStart, dropBytes_indent hindent hflush, hmarker,
    indentLength_append hindent hflush]

/-- A task prefix reads back before any text. -/
theorem blockTextStart_task (htext : Flush text) :
    blockTextStart (indent ++ Block.task.prefix_ ++ text) (indentLength (indent ++ Block.task.prefix_ ++ text)) =
      utf8Length (indent ++ Block.task.prefix_) := by
  have hread := @blockTextStart_checkbox indent hindent ' ' (' ' :: text) (by decide) (Or.inr rfl)
  rw [trimIndent_space htext] at hread
  have hline : indent ++ Block.task.prefix_ ++ text = indent ++ '-' :: ' ' :: '[' :: ' ' :: ']' :: ' ' :: text := by
    rw [List.append_assoc]
    rfl
  rw [hline, hread, ← hline, utf8Length_append, Nat.add_sub_cancel]

theorem blockTextStart_numbered (htext : Flush text) :
    blockTextStart (indent ++ Block.numbered.prefix_ ++ text) (indentLength (indent ++ Block.numbered.prefix_ ++ text)) =
      utf8Length (indent ++ Block.numbered.prefix_) := by
  have hmarker : markerLength ('1' :: (['.'] ++ ' ' :: text)) = some (utf8Length ['1', '.']) := by
    simp [markerLength, utf8Length]
    decide
  have hread := blockTextStart_marked hindent (by decide) (by decide) hmarker htext
  simpa [Block.prefix_] using hread

theorem blockTextStart_quote (htext : Flush text) :
    blockTextStart (indent ++ Block.quote.prefix_ ++ text) (indentLength (indent ++ Block.quote.prefix_ ++ text)) =
      utf8Length (indent ++ Block.quote.prefix_) := by
  have hmarker : markerLength ('>' :: ([] ++ ' ' :: text)) = some (utf8Length ['>']) := by
    simp [markerLength, utf8Length]
    decide
  have hread := blockTextStart_marked hindent (by decide) (by decide) hmarker htext
  simpa [Block.prefix_] using hread

omit hindent in
theorem utf8Length_replicate_hash (n : ℕ) : utf8Length (List.replicate n '#') = n := by
  have hhash : '#'.utf8Size = 1 := rfl
  simp [utf8Length, hhash]

omit hindent in
theorem takeWhile_hashes (n : ℕ) (text : Text) :
    (List.replicate n '#' ++ ' ' :: text).takeWhile (· = '#') = List.replicate n '#' := by
  rw [List.takeWhile_append_of_pos fun c hc => decide_eq_true (List.eq_of_mem_replicate hc)]
  simp

theorem blockTextStart_heading (htext : Flush text) (level : UInt8) :
    blockTextStart (indent ++ (Block.heading level).prefix_ ++ text)
        (indentLength (indent ++ (Block.heading level).prefix_ ++ text)) =
      utf8Length (indent ++ (Block.heading level).prefix_) := by
  obtain ⟨n, hn⟩ : ∃ n, min (max level.toNat 1) 6 = n + 1 := ⟨min (max level.toNat 1) 6 - 1, by omega⟩
  have hmarker : markerLength ('#' :: (List.replicate n '#' ++ ' ' :: text)) =
      some (utf8Length ('#' :: List.replicate n '#')) := by
    have hhashes := takeWhile_hashes (n + 1) text
    have hlength := utf8Length_replicate_hash (n + 1)
    rw [List.replicate_succ] at hhashes hlength
    rw [List.cons_append] at hhashes
    have hn6 : n + 1 ≤ 6 := by omega
    rw [hlength, markerLength]
    simp [hhashes, hn6]
  have hread := blockTextStart_marked hindent (by decide) (by decide) hmarker htext
  simpa [Block.prefix_, hn, List.replicate_succ] using hread

/-- A prefix reads back before every text, but for a bullet before a checkbox or the rest of a rule. -/
theorem blockTextStart_prefixed (htext : Flush text) {block : Block}
    (hplain : ¬(block = .bullet ∧ (OpensCheckbox text ∨ CompletesRule text))) :
    blockTextStart (indent ++ block.prefix_ ++ text) (indentLength (indent ++ block.prefix_ ++ text)) =
      utf8Length (indent ++ block.prefix_) := by
  cases block with
  | task => exact blockTextStart_task hindent htext
  | bullet =>
    have hread := blockTextStart_bullet hindent htext (fun h => hplain ⟨rfl, Or.inl h⟩) fun h => hplain ⟨rfl, Or.inr h⟩
    have hline : indent ++ Block.bullet.prefix_ ++ text = indent ++ '-' :: ' ' :: text := by
      rw [List.append_assoc]
      rfl
    rw [hline, hread, ← hline, utf8Length_append, Nat.add_sub_cancel]
  | numbered => exact blockTextStart_numbered hindent htext
  | heading level => exact blockTextStart_heading hindent htext level
  | quote => exact blockTextStart_quote hindent htext

theorem blockText_prefixed (htext : Flush text) {block : Block}
    (hplain : ¬(block = .bullet ∧ (OpensCheckbox text ∨ CompletesRule text))) :
    blockText (indent ++ block.prefix_ ++ text) = text := by
  rw [blockText, blockTextStart_prefixed hindent htext hplain]
  exact dropBytes_append (indent ++ block.prefix_) text

/-- A bullet before a checkbox or the rest of a rule is read as more or less than a bullet. -/
theorem blockText_bullet_ne (h : OpensCheckbox text ∨ CompletesRule text) :
    blockText (indent ++ Block.bullet.prefix_ ++ text) ≠ text := by
  have hline : indent ++ Block.bullet.prefix_ ++ text = indent ++ '-' :: ' ' :: text := by
    rw [List.append_assoc]
    rfl
  rw [hline, blockText]
  cases h with
  | inl hbox =>
    obtain ⟨mark, rest, rfl, hmark, hrest⟩ := hbox
    rw [blockTextStart_checkbox hindent hmark hrest]
    intro heq
    have hpiece : (dropBytes (utf8Length (indent ++ '-' :: ' ' :: '[' :: mark :: ']' :: rest) - utf8Length (trimIndent rest))
        (indent ++ '-' :: ' ' :: '[' :: mark :: ']' :: rest)) = trimIndent rest := by
      obtain ⟨front, hfront⟩ := (trimIndent_suffix rest).trans
        (List.suffix_append (indent ++ ['-', ' ', '[', mark, ']']) rest)
      have hcut := dropBytes_piece front (trimIndent rest)
      rwa [hfront, List.append_assoc] at hcut
    have hlength := congrArg List.length (hpiece.symm.trans heq)
    have hle := (trimIndent_suffix rest).length_le
    simp only [List.length_cons] at hlength
    omega
  | inr hrule =>
    rw [blockTextStart_rule hindent hrule]
    intro heq
    have hpiece : dropBytes (utf8Length indent) (indent ++ '-' :: ' ' :: text) = '-' :: ' ' :: text :=
      dropBytes_append indent _
    have hlength := congrArg List.length (hpiece.symm.trans heq)
    simp only [List.length_cons] at hlength
    omega

end

/-! ## Changing a block and changing it again -/

/-- What a change of block leaves as it was, with the cursor after the first piece of the line. -/
structure Settles (before after : Text) (block : Block) : Prop where
  again : ∀ cursor, (applyBlock (applyBlock (before ++ after) block (utf8Length before)).1 block cursor).1 =
    (applyBlock (before ++ after) block (utf8Length before)).1
  text : blockText (applyBlock (before ++ after) block (utf8Length before)).1 = blockText (before ++ after)
  other : ∀ other, other ≠ block → ∀ cursor,
    (applyBlock (applyBlock (before ++ after) block (utf8Length before)).1 other cursor).1 =
      (applyBlock (before ++ after) other cursor).1
  cursor : ∃ front back, (applyBlock (before ++ after) block (utf8Length before)).1 = front ++ back ∧
    (applyBlock (before ++ after) block (utf8Length before)).2 = utf8Length front ∧
    back = if utf8Length before < blockTextStart (before ++ after) (indentLength (before ++ after)) then
      blockText (before ++ after) else after

theorem exists_indent (line : Text) :
    ∃ indent rest, line = indent ++ rest ∧ (∀ c ∈ indent, isIndent c = true) ∧ Flush rest :=
  ⟨line.takeWhile isIndent, trimIndent line, List.takeWhile_append_dropWhile.symm,
    fun _ hc => List.mem_takeWhile_imp hc, flush_trimIndent line⟩

theorem flush_prefixed (block : Block) (text : Text) : Flush (block.prefix_ ++ text) := by
  cases block with
  | heading level =>
    obtain ⟨n, hn⟩ : ∃ n, min (max level.toNat 1) 6 = n + 1 := ⟨min (max level.toNat 1) 6 - 1, by omega⟩
    rw [Block.prefix_, hn, List.replicate_succ]
    exact flush_cons (by decide) _
  | _ => exact flush_cons (by decide) _

/-- A changed line has the same indentation and the text it is read to have. -/
theorem applyBlock_prefixed {indent : Text} (hindent : ∀ c ∈ indent, isIndent c = true) (block other : Block)
    (text : Text) (cursor : ℕ) :
    (applyBlock (indent ++ block.prefix_ ++ text) other cursor).1 =
      indent ++ other.prefix_ ++ blockText (indent ++ block.prefix_ ++ text) := by
  rw [List.append_assoc indent block.prefix_]
  exact applyBlock_append hindent (flush_prefixed block text) other cursor

/-- The cursor stays before the same character, or goes to the text's start. -/
theorem applyBlock_cursor (before after : Text) (block : Block) :
    ∃ front back, (applyBlock (before ++ after) block (utf8Length before)).1 = front ++ back ∧
      (applyBlock (before ++ after) block (utf8Length before)).2 = utf8Length front ∧
      back = if utf8Length before < blockTextStart (before ++ after) (indentLength (before ++ after)) then
        blockText (before ++ after) else after := by
  obtain ⟨indent, rest, hline, hindent, hrest⟩ := exists_indent (before ++ after)
  obtain ⟨front, hfront, hstart, -⟩ := exists_front (before ++ after)
  have hnew : (applyBlock (before ++ after) block (utf8Length before)).1 =
      indent ++ block.prefix_ ++ blockText (before ++ after) := by
    rw [hline]
    exact applyBlock_append hindent hrest block _
  have hlands : (applyBlock (before ++ after) block (utf8Length before)).2 =
      utf8Length (indent ++ block.prefix_) + (utf8Length before - utf8Length front) := by
    have hmin : min (utf8Length before) (utf8Length (before ++ after)) = utf8Length before := by
      rw [utf8Length_append]
      omega
    have hlength : indentLength (before ++ after) = utf8Length indent := by rw [hline, indentLength_append hindent hrest]
    rw [hstart, applyBlock, hmin, hlength, utf8Length_append]
  rw [← hstart, hlands]
  by_cases hinside : utf8Length before < utf8Length front
  · refine ⟨indent ++ block.prefix_, blockText (before ++ after), hnew, ?_, by rw [if_pos hinside]⟩
    omega
  · obtain ⟨mid, hbefore, htext⟩ : ∃ mid, before = front ++ mid ∧ blockText (before ++ after) = mid ++ after := by
      cases List.append_eq_append_iff.mp hfront with
      | inl h =>
        obtain ⟨mid, hfront, hafter⟩ := h
        have hnil : mid = [] := by
          rw [hfront, utf8Length_append] at hinside
          cases mid with
          | nil => rfl
          | cons c rest =>
            rw [utf8Length_cons] at hinside
            have := c.utf8Size_pos
            omega
        rw [hnil, List.append_nil] at hfront
        rw [hnil, List.nil_append] at hafter
        exact ⟨[], by rw [hfront, List.append_nil], hafter.symm⟩
      | inr h => exact h
    refine ⟨indent ++ block.prefix_ ++ mid, after, ?_, ?_, by rw [if_neg hinside]⟩
    · rw [hnew, htext, List.append_assoc _ mid]
    · have hlength := congrArg utf8Length hbefore
      rw [utf8Length_append] at hlength
      rw [utf8Length_append _ mid]
      omega

/-- A change of block keeps the text and settles, but for a bullet before a checkbox or the rest of a rule. -/
theorem settles_iff (before after : Text) (block : Block) :
    Settles before after block ↔
      ¬(block = .bullet ∧ (OpensCheckbox (blockText (before ++ after)) ∨ CompletesRule (blockText (before ++ after)))) := by
  obtain ⟨indent, rest, hline, hindent, hrest⟩ := exists_indent (before ++ after)
  obtain ⟨-, -, -, htext⟩ := exists_front (before ++ after)
  have hchanged : ∀ other cursor, (applyBlock (before ++ after) other cursor).1 =
      indent ++ other.prefix_ ++ blockText (before ++ after) := by
    intro other cursor
    rw [hline]
    exact applyBlock_append hindent hrest other cursor
  constructor
  · intro h hbullet
    have hread := h.text
    rw [hchanged, hbullet.1] at hread
    exact blockText_bullet_ne hindent hbullet.2 hread
  · intro hplain
    have hread := blockText_prefixed hindent htext hplain
    exact
      { again := fun cursor => by rw [hchanged, applyBlock_prefixed hindent, hread]
        text := by rw [hchanged, hread]
        other := fun other _ cursor => by rw [hchanged, hchanged, applyBlock_prefixed hindent, hread]
        cursor := applyBlock_cursor before after block }

/-- A bullet set twice on a text with a checkbox takes the checkbox away. -/
theorem not_settles_checkbox : ¬∀ before after block, Settles before after block := by
  intro h
  have hagain := (h [] "[ ] buy".toList .bullet).again 0
  exact absurd hagain (by decide)

end Thock.Desk
