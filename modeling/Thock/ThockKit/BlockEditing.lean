import Thock.SyncCore.Dates
import Thock.ThockKit.Blocks

/-!
# Writing the phone editor's paragraphs back

The paragraphs a note is opened with and the blocks that edited paragraphs are written as. A paragraph carries
the index of its block; the first that carries an index later than all before it is that block's paragraph, and
every other one is new.

A paragraph whose Markdown is that of its block gives the block back, and the blocks the editor does not show go
in front of the shown block that followed them. A paragraph without text is left out, also where its block had none.
-/

namespace Thock.ThockKit

open TextScan
open Inline (Letters InlineRun Style)

/-! ## Paragraphs -/

/-- A paragraph style of the editor. -/
inductive EditorKind
  | paragraph
  | bullet
  | task
  | taskDone
  | heading
  | quote
deriving DecidableEq, Repr

/-- How a block is shown, unless it is carried through unseen. -/
def EditorKind.displaying : BlockKind → Option EditorKind
  | .paragraph => some .paragraph
  | .bullet | .numbered _ => some .bullet
  | .task checked => some (if checked then .taskDone else .task)
  | .heading _ => some .heading
  | .quote => some .quote
  | .rule | .blank | .opaque_ => none

def EditorKind.isList (kind : EditorKind) : Bool := kind = .bullet || kind = .task || kind = .taskDone

/-- The block a paragraph is written as when it has none of its own. -/
def EditorKind.blockKind : EditorKind → BlockKind
  | .paragraph => .paragraph
  | .bullet => .bullet
  | .task => .task false
  | .taskDone => .task true
  | .heading => .heading 2
  | .quote => .quote

/-- A heading has one weight, and a done task is struck as a whole. -/
def shown (kind : EditorKind) (style : Style) : Style :=
  let style := if kind = .heading then { style with bold := false, italic := false, code := false } else style
  if kind = .taskDone then { style with strike := false } else style

structure EditorParagraph where
  kind : EditorKind
  runs : List InlineRun
  /-- The index of the block it was opened from. -/
  origin : Option ℕ
deriving DecidableEq, Repr

/-- The runs as the paragraph's kind shows them. -/
def EditorParagraph.shownRuns (paragraph : EditorParagraph) : List InlineRun :=
  paragraph.runs.map fun run => { run with style := shown paragraph.kind run.style }

/-- The paragraph's text as inline Markdown. -/
def EditorParagraph.markdown (letters : Letters) (paragraph : EditorParagraph) : Text :=
  trimWhitespaces (Inline.serialize letters paragraph.shownRuns)

/-! ## Blocks from paragraphs -/

/-- The blocks a note was opened with. -/
structure BlockEditing where
  original : List Block

namespace BlockEditing

/-- The block of an index and how it is shown, if it is. -/
def shownAt (editing : BlockEditing) (index : ℕ) : Option (Block × EditorKind) :=
  editing.original[index]?.bind fun block => (EditorKind.displaying block.kind).map (block, ·)

def opened (letters : Letters) (index : ℕ) (block : Block) (kind : EditorKind) : EditorParagraph :=
  ⟨kind, block.runs letters, some index⟩

/-- The paragraph of a block with its index, if it is shown. -/
def openedAt (letters : Letters) (e : Block × ℕ) : Option EditorParagraph :=
  (EditorKind.displaying e.1.kind).map (opened letters e.2 e.1)

/-- The paragraphs the editor opens with. -/
def paragraphs (letters : Letters) (editing : BlockEditing) : List EditorParagraph :=
  editing.original.zipIdx.filterMap (openedAt letters)

/-- A changed paragraph keeps its block's heading level, list marker and indent. -/
def written (letters : Letters) (paragraph : EditorParagraph) (markdown : Text) (block : Block) (kind : EditorKind)
    (origin : ℕ) : Block :=
  if paragraph.kind = kind ∧ markdown = (opened letters origin block kind).markdown letters then block
  else
    let block := { block with text := markdown, touched := true }
    if paragraph.kind = kind then block
    else
      { block with
        kind := paragraph.kind.blockKind
        indent := if paragraph.kind.isList then block.indent else [] }

/-- The next number of a numbered list, unless it is no machine integer. -/
def markerAfter (marker : Text) : Text :=
  let digits := marker.takeWhile Char.isDigit
  let number := SyncCore.numberOf digits
  if digits.isEmpty || decide (2 ^ 63 ≤ number) then marker else SyncCore.decimal (number + 1) ++ marker.drop digits.length

/-- A new list item continues the item before it. -/
def added (paragraph : EditorParagraph) (markdown : Text) (previous : Option Block) : Block :=
  let block : Block := ⟨paragraph.kind.blockKind, markdown, [], [], 0, true⟩
  match previous with
  | none => block
  | some previous =>
    if !paragraph.kind.isList then block
    else
      match previous.kind with
      | .numbered marker =>
        { block with
          indent := previous.indent
          kind := if paragraph.kind = .bullet then .numbered (markerAfter marker) else block.kind }
      | .bullet | .task _ => { block with indent := previous.indent }
      | _ => block

/-- The blocks written so far with the indices they had, the carried ones still to come and the end of what was
claimed. -/
structure Writing where
  output : List (Block × Option ℕ)
  carried : List (Block × ℕ)
  claimed : ℕ

/-- Deleting a paragraph would leave the blank lines on both sides of it next to each other. -/
def doubled (output : List (Block × Option ℕ)) (block : Block) (index : ℕ) : Bool :=
  match output.getLast? with
  | some (last, some previous) => block.kind = .blank && last.kind = .blank && decide (previous + 1 ≠ index)
  | _ => false

/-- The carried blocks in front of an index, and those behind it. -/
def emitCarried (limit : ℕ) : List (Block × Option ℕ) → List (Block × ℕ) → List (Block × Option ℕ) × List (Block × ℕ)
  | output, [] => (output, [])
  | output, (block, index) :: rest =>
    if index < limit then
      if doubled output block index then emitCarried limit output rest
      else emitCarried limit (output ++ [(block, some index)]) rest
    else (output, (block, index) :: rest)

/-- The block a paragraph is the paragraph of, when `claimed` is one past the last that had one. -/
def claims (editing : BlockEditing) (claimed : ℕ) (paragraph : EditorParagraph) : Option (ℕ × Block × EditorKind) :=
  paragraph.origin.bind fun origin => if claimed ≤ origin then (editing.shownAt origin).map (origin, ·) else none

def step (letters : Letters) (editing : BlockEditing) (w : Writing) (paragraph : EditorParagraph) : Writing :=
  let markdown := paragraph.markdown letters
  match editing.claims w.claimed paragraph with
  | some (origin, block, kind) =>
    let (output, carried) := emitCarried origin w.output w.carried
    ⟨if markdown.isEmpty then output
      else output ++ [(written letters paragraph markdown block kind origin, some origin)], carried, origin + 1⟩
  | none =>
    if markdown.isEmpty then w
    else { w with output := w.output ++ [(added paragraph markdown (w.output.getLast?.map Prod.fst), none)] }

def start (editing : BlockEditing) : Writing :=
  ⟨[], editing.original.zipIdx.filter fun (block, _) => (EditorKind.displaying block.kind).isNone, 0⟩

/-- The editor's content as blocks. -/
def blocks (letters : Letters) (editing : BlockEditing) (paragraphs : List EditorParagraph) : List Block :=
  let w := paragraphs.foldl (editing.step letters) editing.start
  (emitCarried editing.original.length w.output w.carried).1.map Prod.fst

end BlockEditing

end Thock.ThockKit
