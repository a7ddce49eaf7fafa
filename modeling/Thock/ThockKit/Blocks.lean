import Thock.ThockKit.Inline

/-!
# The phone editor's blocks

A note's lines as blocks, each with the lines it was read from. Every block takes its lines from the front of
those that are left, so the blocks' lines are the note's, and no two blocks begin at one line.

A document is written from its blocks: those that were touched as Markdown, the others as they were read.
-/

namespace Thock.ThockKit

open TextScan
open Inline (Letters InlineRun)

/-! ## Blocks -/

inductive BlockKind
  | paragraph
  | heading (level : ℕ)
  | bullet
  | task (checked : Bool)
  | numbered (marker : Text)
  | quote
  | rule
  | blank
  | opaque_
deriving DecidableEq, Repr

structure Block where
  kind : BlockKind
  /-- The inline Markdown without the block's own prefix. -/
  text : Text
  indent : Text
  source : List Text
  /-- The index of its first line. -/
  line : ℕ
  touched : Bool
deriving DecidableEq, Repr

def Block.runs (letters : Letters) (block : Block) : List InlineRun :=
  Inline.parse letters (block.text.map fun c => if c = '\n' then ' ' else c)

/-- The Markdown a block is written as when it was touched or is new. -/
def Block.markdownLines (block : Block) : List Text :=
  match block.kind with
  | .paragraph => block.text.splitOn '\n'
  | .heading level => [List.replicate level '#' ++ ' ' :: block.text]
  | .bullet => [block.indent ++ "- ".toList ++ block.text]
  | .task checked => [block.indent ++ (if checked then "- [x] ".toList else "- [ ] ".toList) ++ block.text]
  | .numbered marker => [block.indent ++ marker ++ ' ' :: block.text]
  | .quote => (block.text.splitOn '\n').map fun line => if line.isEmpty then ['>'] else "> ".toList ++ line
  | .rule => ["___".toList]
  | .blank => [[]]
  | .opaque_ => block.source

/-! ## Reading -/

/-- How many lines there are up to the first that meets a condition, or in all. -/
def through (p : Text → Bool) : List Text → ℕ
  | [] => 0
  | line :: rest => if p line then 1 else through p rest + 1

def trimWhitespaces (line : Text) : Text := trimmingCharacters isWhitespacesSet line

def isRawHTML (letters : Letters) (trimmed : Text) : Bool :=
  match trimmed with
  | '<' :: second :: _ => letters.isLetter second || second = '/'
  | _ => false

structure ListItem where
  kind : BlockKind
  text : Text
  indent : Text
deriving DecidableEq, Repr

/-- A checkbox in front of an item's content, and what follows it. -/
def checkbox (content : Text) : Option (Bool × Text) :=
  [("[ ]".toList, false), ("[x]".toList, true), ("[X]".toList, true)].findSome? fun (box, checked) =>
    if box.isPrefixOf content then
      let afterBox := content.drop 3
      if afterBox.head?.all fun c => c = ' ' || c = '\t' then some (checked, trimStart afterBox) else none
    else none

def listItem (line : Text) : Option ListItem :=
  let indent := line.takeWhile fun c => c = ' ' || c = '\t'
  let rest := line.drop indent.length
  match rest with
  | [] => none
  | marker :: afterMarker =>
    if marker ∈ "-*+".toList then
      if ¬(afterMarker.head? = some ' ' ∨ afterMarker.head? = some '\t') then none
      else
        let content := trimStart afterMarker
        match checkbox content with
        | some (checked, text) => some ⟨.task checked, text, indent⟩
        | none => some ⟨.bullet, content, indent⟩
    else
      let digits := rest.takeWhile Char.isDigit
      if 1 ≤ digits.length ∧ digits.length ≤ 9 then
        match rest.drop digits.length with
        | punctuation :: ' ' :: text =>
          if punctuation ∈ ".)".toList then some ⟨.numbered (digits ++ [punctuation]), trimStart text, indent⟩ else none
        | _ => none
      else none

def continuesParagraph (line : Text) : Bool :=
  let trimmed := trimWhitespaces line
  !(trimmed.isEmpty || ['>'].isPrefixOf trimmed || ['|'].isPrefixOf trimmed || "<!--".toList.isPrefixOf trimmed ||
    (heading line).isSome || isThematicBreak trimmed || (listItem line).isSome || (opensFence line).isSome)

/-- A quoted line without its mark. -/
def quoted (line : Text) : Text :=
  let content := (trimWhitespaces line).drop 1
  if [' '].isPrefixOf content then content.drop 1 else content

/-- The block a line begins: its kind, text and indent, and how many more lines it takes. -/
def firstBlock (letters : Letters) (line : Text) (rest : List Text) : BlockKind × Text × Text × ℕ :=
  let trimmed := trimWhitespaces line
  if trimmed.isEmpty then (.blank, [], [], 0)
  else match opensFence line with
  | some (marker, length) => (.opaque_, [], [], through (closesFence · marker length) rest)
  | none =>
    if "<!--".toList.isPrefixOf trimmed then
      let closes := fun line => (splitFirst "-->".toList line).isSome
      (.opaque_, [], [], if closes line then 0 else through closes rest)
    else match heading line with
    | some (level, text) => (.heading level, text, [], 0)
    | none =>
      if isThematicBreak trimmed then (.rule, [], [], 0)
      else if ['|'].isPrefixOf trimmed || isRawHTML letters trimmed then
        (.opaque_, [], [], (rest.takeWhile fun line => !(trimWhitespaces line).isEmpty &&
          (!(['|'].isPrefixOf trimmed) || ['|'].isPrefixOf (trimWhitespaces line))).length)
      else if ['>'].isPrefixOf trimmed then
        let more := rest.takeWhile fun line => ['>'].isPrefixOf (trimWhitespaces line)
        (.quote, ['\n'].intercalate ((line :: more).map quoted), [], more.length)
      else match listItem line with
      | some item => (item.kind, item.text, item.indent, 0)
      | none =>
        let more := rest.takeWhile continuesParagraph
        (.paragraph, ['\n'].intercalate ((line :: more).map trimWhitespaces), [], more.length)

/-- The blocks of the lines that are left, the first of them at an index. -/
def blocksFrom (letters : Letters) : ℕ → ℕ → List Text → List Block
  | 0, _, _ => []
  | _, _, [] => []
  | fuel + 1, index, line :: rest =>
    let (kind, text, indent, more) := firstBlock letters line rest
    ⟨kind, text, indent, line :: rest.take more, index, false⟩ ::
      blocksFrom letters fuel (index + 1 + more) (rest.drop more)

def isFrontmatterEnd (line : Text) : Bool := trimEnd line = "---".toList || trimEnd line = "...".toList

/-- How many lines after the first are front matter, where the first one opens it and one closes it. -/
def frontmatter (lines : List Text) (firstLine : ℕ) (alreadyInsideNote : Bool) : Option ℕ :=
  match lines with
  | [] => none
  | first :: rest =>
    if !alreadyInsideNote && firstLine = 0 && trimEnd first = "---".toList && rest.any isFrontmatterEnd then
      some (through isFrontmatterEnd rest)
    else none

namespace Blocks

def parseLines (letters : Letters) (lines : List Text) (firstLine : ℕ) (alreadyInsideNote : Bool) : List Block :=
  match frontmatter lines firstLine alreadyInsideNote with
  | some more =>
    ⟨.opaque_, [], [], lines.take (more + 1), firstLine, false⟩ ::
      blocksFrom letters lines.length (firstLine + (more + 1)) (lines.drop (more + 1))
  | none => blocksFrom letters lines.length firstLine lines

def parse (letters : Letters) (text : Text) : List Block :=
  parseLines letters ((TextFile.read text).lines.map (·.text)) 0 false

end Blocks

/-! ## What the blocks were read from -/

/-- The blocks of some lines have those lines. -/
theorem source_blocksFrom (letters : Letters) {fuel : ℕ} (index : ℕ) {ls : List Text} (hfuel : ls.length ≤ fuel) :
    (blocksFrom letters fuel index ls).flatMap Block.source = ls := by
  induction fuel generalizing index ls with
  | zero =>
    rw [List.eq_nil_of_length_eq_zero (Nat.le_zero.mp hfuel)]
    rfl
  | succ fuel ih =>
    cases ls with
    | nil => rfl
    | cons line rest =>
      rw [List.length_cons] at hfuel
      simp only [blocksFrom, List.flatMap_cons]
      rw [ih _ (by rw [List.length_drop]; omega), List.cons_append, List.take_append_drop]

/-- Every block is as it was read and begins at a line of its own, behind those before it. -/
theorem sorted_blocksFrom (letters : Letters) (fuel index : ℕ) (ls : List Text) :
    (∀ block ∈ blocksFrom letters fuel index ls, block.touched = false ∧ block.source ≠ [] ∧ index ≤ block.line) ∧
      (blocksFrom letters fuel index ls).Pairwise fun a b => a.line < b.line := by
  induction fuel generalizing index ls with
  | zero => exact ⟨fun block h => absurd h List.not_mem_nil, .nil⟩
  | succ fuel ih =>
    cases ls with
    | nil => exact ⟨fun block h => absurd h List.not_mem_nil, .nil⟩
    | cons line rest =>
      simp only [blocksFrom]
      obtain ⟨hread, hsorted⟩ :=
        ih (index + 1 + (firstBlock letters line rest).2.2.2) (rest.drop (firstBlock letters line rest).2.2.2)
      constructor
      · intro block hblock
        cases List.mem_cons.mp hblock with
        | inl heq =>
          rw [heq]
          exact ⟨rfl, List.cons_ne_nil _ _, Nat.le_refl _⟩
        | inr hmem =>
          obtain ⟨htouched, hsource, hline⟩ := hread block hmem
          exact ⟨htouched, hsource, by omega⟩
      · rw [List.pairwise_cons]
        refine ⟨?_, hsorted⟩
        intro block hmem
        have hline := (hread block hmem).2.2
        simp only
        omega

/-- The blocks of a note have its lines. -/
theorem source_parseLines (letters : Letters) (ls : List Text) (firstLine : ℕ) (alreadyInsideNote : Bool) :
    (Blocks.parseLines letters ls firstLine alreadyInsideNote).flatMap Block.source = ls := by
  unfold Blocks.parseLines
  split
  · next more _ =>
    rw [List.flatMap_cons, source_blocksFrom letters _ (by rw [List.length_drop]; omega), List.take_append_drop]
  · exact source_blocksFrom letters _ (Nat.le_refl _)

/-- A note's blocks are as they were read, each from at least one line and no two from the same. -/
theorem sorted_parseLines (letters : Letters) (ls : List Text) (firstLine : ℕ) (alreadyInsideNote : Bool) :
    (∀ block ∈ Blocks.parseLines letters ls firstLine alreadyInsideNote, block.touched = false ∧ block.source ≠ []) ∧
      (Blocks.parseLines letters ls firstLine alreadyInsideNote).Pairwise fun a b => a.line < b.line := by
  unfold Blocks.parseLines
  split
  · next more hfront =>
    obtain ⟨hread, hsorted⟩ := sorted_blocksFrom letters ls.length (firstLine + (more + 1)) (ls.drop (more + 1))
    have hne : ls ≠ [] := by
      rintro rfl
      cases hfront
    constructor
    · intro block hblock
      cases List.mem_cons.mp hblock with
      | inl heq =>
        rw [heq]
        exact ⟨rfl, by simpa using hne⟩
      | inr hmem =>
        obtain ⟨htouched, hsource, -⟩ := hread block hmem
        exact ⟨htouched, hsource⟩
    · rw [List.pairwise_cons]
      refine ⟨?_, hsorted⟩
      intro block hmem
      have hline := (hread block hmem).2.2
      simp only
      omega
  · obtain ⟨hread, hsorted⟩ := sorted_blocksFrom letters ls.length firstLine ls
    refine ⟨?_, hsorted⟩
    intro block hmem
    obtain ⟨htouched, hsource, -⟩ := hread block hmem
    exact ⟨htouched, hsource⟩

/-! ## Writing -/

/-- Items of a list sit together. -/
def sitsTogether : BlockKind → BlockKind → Bool
  | .bullet, .bullet | .task _, .task _ | .bullet, .task _ | .task _, .bullet | .numbered _, .numbered _ => true
  | _, _ => false

/-- New and edited paragraphs get the one blank line that keeps them apart. -/
def needsBlankLine (previous : Option Block) (block : Block) (output : List Text) : Bool :=
  match previous, output.getLast? with
  | some previous, some last =>
    if (trimWhitespaces last).isEmpty then false
    else if previous.touched || previous.source.isEmpty || block.source.isEmpty then
      !sitsTogether previous.kind block.kind
    else false
  | _, _ => false

/-- The lines of a block, behind those already written and the block before it. -/
def blockLines (previous : Option Block) (output : List Text) (block : Block) : List Text :=
  if block.touched || block.source.isEmpty then
    (if needsBlankLine previous block output then [[]] else []) ++ block.markdownLines
  else
    (if previous.any (·.source.isEmpty) && decide (block.kind ≠ .blank) && needsBlankLine previous block output then
      [[]] else []) ++ block.source

def linesFrom (previous : Option Block) (output : List Text) : List Block → List Text
  | [] => output
  | block :: rest => linesFrom (some block) (output ++ blockLines previous output block) rest

namespace EditorDocument

def lines (blocks : List Block) : List Text := linesFrom none [] blocks

end EditorDocument

/-- The lines of a block alone. -/
def Block.ownLines (block : Block) : List Text :=
  if block.touched || block.source.isEmpty then block.markdownLines else block.source

/-- The blocks' own lines one behind the other, with a blank line in front of some. -/
inductive Spaced : List Block → List Text → Prop
  | nil : Spaced [] []
  | next {block : Block} {rest : List Block} {ls : List Text} (h : Spaced rest ls) :
      Spaced (block :: rest) (block.ownLines ++ ls)
  | apart {block : Block} {rest : List Block} {ls : List Text} (h : Spaced rest ls) :
      Spaced (block :: rest) ([] :: (block.ownLines ++ ls))

theorem blockLines_eq (previous : Option Block) (output : List Text) (block : Block) :
    blockLines previous output block = block.ownLines ∨ blockLines previous output block = [] :: block.ownLines := by
  unfold blockLines Block.ownLines
  split
  · split
    · exact Or.inr rfl
    · exact Or.inl rfl
  · split
    · exact Or.inr rfl
    · exact Or.inl rfl

theorem spaced_linesFrom (blocks : List Block) (previous : Option Block) (output : List Text) :
    ∃ ls, linesFrom previous output blocks = output ++ ls ∧ Spaced blocks ls := by
  induction blocks generalizing previous output with
  | nil => exact ⟨[], (List.append_nil output).symm, .nil⟩
  | cons block rest ih =>
    obtain ⟨ls, hls, hspaced⟩ := ih (some block) (output ++ blockLines previous output block)
    refine ⟨blockLines previous output block ++ ls, by rw [linesFrom, hls, List.append_assoc], ?_⟩
    cases blockLines_eq previous output block with
    | inl h =>
      rw [h]
      exact .next hspaced
    | inr h =>
      rw [h]
      exact .apart hspaced

/-- A document's lines are its blocks' own, with only blank lines added. -/
theorem spaced_lines (blocks : List Block) : Spaced blocks (EditorDocument.lines blocks) := by
  obtain ⟨ls, hls, hspaced⟩ := spaced_linesFrom blocks none []
  rwa [EditorDocument.lines, hls, List.nil_append]

/-- Blocks as they were read are written as they were read. -/
theorem lines_of_read {blocks : List Block} (h : ∀ block ∈ blocks, block.touched = false ∧ block.source ≠ []) :
    EditorDocument.lines blocks = blocks.flatMap Block.source := by
  have hfrom : ∀ previous : Option Block, (∀ block ∈ previous, block.source ≠ []) → ∀ output,
      linesFrom previous output blocks = output ++ blocks.flatMap Block.source := by
    induction blocks with
    | nil => exact fun _ _ output => (List.append_nil output).symm
    | cons block rest ih =>
      intro previous hprevious output
      obtain ⟨htouched, hsource⟩ := h block List.mem_cons_self
      have hnone : previous.any (·.source.isEmpty) = false := by
        cases previous with
        | none => rfl
        | some previous => simpa using hprevious previous rfl
      have hlines : blockLines previous output block = block.source := by
        simp [blockLines, htouched, hsource, hnone]
      rw [linesFrom, hlines, ih (fun b hb => h b (List.mem_cons_of_mem _ hb)) (some block)
        (fun b hb => by rwa [← Option.some.inj hb]), List.flatMap_cons, List.append_assoc]
  exact hfrom none (fun _ hb => by cases hb) []

end Thock.ThockKit
