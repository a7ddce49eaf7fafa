import Thock.SyncCore.Markdown

/-!
# Applying a write on the desk

The application rules as the desk runs them, and the test of whether a note already shows a
write's effect. Both are total: a write that finds nothing to do leaves the note as it was.
-/

namespace Thock.SyncCore

open TextScan

/-- The marker a kept-both line ends with. -/
def conflictMarker : Text := "<!--thock:also-->".toList

inductive Outcome
  | created
  | sectionAdded
  | applied
  | keptBoth
  | noop
deriving DecidableEq, Repr

structure Applied where
  text : Text
  outcome : Outcome
deriving DecidableEq, Repr

/-- The write found nothing to do, unless the file or a section was created on the way. -/
def unchanged (document : Document) (outcome : Option Outcome) : Applied :=
  ⟨document.join, outcome.getD .noop⟩

/-- The section's own lines as a section. -/
def Section.own (section_ : Section) : Section := { section_ with bodyStop := section_.ownStop }

def mark (line : Text) : Text := trimEnd line ++ [' '] ++ conflictMarker

def normalizeEndings (text : Text) : Text := replaceAll ['\r', '\n'] ['\n'] text

def contentLines (content : Text) : List Text :=
  let lines := pieces (normalizeEndings content)
  if lines.getLast?.any List.isEmpty then lines.dropLast else lines

/-- Where the top of a section is: its first line that is not blank. -/
def firstBodyLine (document : Document) (section_ : Section) : ℕ :=
  ((indices section_.start section_.bodyStop).find? fun index =>
    document.lines[index]?.any fun line => !line.isBlank).getD section_.bodyStop

/-- Walk over the lines below a block's first: indented lines belong to it, with the blank lines between. -/
def blockEndFrom : List Line → ℕ → ℕ → ℕ
  | [], _, lastContent => lastContent
  | line :: rest, stop, lastContent =>
    if line.isBlank then blockEndFrom rest (stop + 1) lastContent
    else if line.text.head? = some ' ' ∨ line.text.head? = some '\t' then blockEndFrom rest (stop + 1) (stop + 1)
    else lastContent

/-- One past the last line of the block that starts at an index. -/
def blockEnd (document : Document) (section_ : Section) (index : ℕ) : ℕ :=
  blockEndFrom ((document.lines.take section_.bodyStop).drop (index + 1)) (index + 1) (index + 1)

/-- Remove lines, and one of two blank lines the gap would leave side by side. -/
def cut (document : Document) (start stop : ℕ) : Document :=
  let stop := min stop document.lines.length
  if stop ≤ start then document
  else
    let lines := document.lines.take start ++ document.lines.drop stop
    let beforeBlank := decide (0 < start) && lines[start - 1]?.any Line.isBlank
    let afterBlank := lines[start]?.any Line.isBlank
    { document with lines := if beforeBlank && afterBlank then lines.eraseIdx start else lines }

def findSection (prim : Primitives) (document : Document) (heading : Option Heading) : Option Section :=
  match heading with
  | none => some document.whole
  | some heading => (document.resolve prim heading).map document.sectionOf

/-- Insert lines, after a blank line where one is asked for and the line above is neither blank nor
the section's heading. -/
def insertLines (document : Document) (section_ : Section) (index : ℕ) (lines : List Text)
    (blankLineBefore : Bool) : Document :=
  if lines.isEmpty then document
  else
    let needsBlank := blankLineBefore && decide (0 < index) && section_.heading != some (index - 1) &&
      document.lines[index - 1]?.any fun line => !line.isBlank
    document.insert index (if needsBlank then [] :: lines else lines)

/-- The matched line an ordinal picks, the first when it is out of range; a line with no identity
never matches. -/
def findLine (prim : Primitives) (document : Document) (section_ : Section) (wanted : Text) (ordinal : ℕ) :
    Option ℕ :=
  let found := ((document.matchable section_).filter fun (_, text) =>
    lineHash prim text = wanted && !(normalizeLine text).isEmpty).map Prod.fst
  found[ordinal]?.or found.head?

/-- Where a missing heading goes and the lines it takes: before the first level-1 heading that is
not the note's first heading, else at the end. -/
def missingHeading (document : Document) (heading : Heading) : ℕ × List Text :=
  match ((document.headings.drop 1).find? fun candidate => candidate.level = 1).map HeadingLine.index with
  | some index =>
    (index, (if decide (0 < index) && document.lines[index - 1]?.any fun line => !line.isBlank then [[]] else []) ++
      [heading.line, []])
  | none =>
    (document.lines.length,
      (if document.lines.getLast?.any fun line => !line.isBlank then [[]] else []) ++ [heading.line])

/-- The section a write targets, its heading created when the note lacks it. -/
def locate (prim : Primitives) (document : Document) (heading : Option Heading) (outcome : Option Outcome) :
    Document × Section × Option Outcome :=
  match heading with
  | none => (document, document.whole, outcome)
  | some heading =>
    match document.resolve prim heading with
    | some found => (document, document.sectionOf found, outcome)
    | none =>
      let (index, texts) := missingHeading document heading
      let document := document.insert index texts
      (document, ((document.resolve prim heading).map document.sectionOf).getD document.whole,
        outcome.or (some .sectionAdded))

/-- The group a block moves into, created when it is missing. -/
def locateGroup (prim : Primitives) (document : Document) (to_ : Option Heading) (createUnder : Option Heading)
    (outcome : Option Outcome) : Document × Section × Option Outcome :=
  match to_ with
  | none => (document, document.whole, outcome)
  | some to_ =>
    match createUnder with
    | none => locate prim document (some to_) outcome
    | some parent =>
      let (document, parent, outcome) := locate prim document (some parent) outcome
      match document.resolveWithin prim to_ parent.start parent.stop with
      | some found => (document, document.sectionOf found, outcome)
      | none =>
        let document := insertLines document parent parent.bodyStop [to_.line] true
        (document, ((document.resolveWithin prim to_ parent.start document.lines.length).map
          document.sectionOf).getD document.whole, outcome.or (some .sectionAdded))

/-- The group a move names as its destination, when the note has it. -/
def findGroup (prim : Primitives) (document : Document) (to_ : Option Heading) (createUnder : Option Heading) :
    Option Section :=
  match to_ with
  | none => some document.whole
  | some to_ =>
    (match createUnder with
    | some parent => (findSection prim document (some parent)).bind fun parent =>
        document.resolveWithin prim to_ parent.start parent.stop
    | none => document.resolve prim to_).map document.sectionOf

/-- Windows of a length over a list. -/
def windows {α : Type} (n : ℕ) : List α → List (List α)
  | [] => if n = 0 then [[]] else []
  | a :: rest => if (a :: rest).length < n then [] else (a :: rest).take n :: windows n rest

/-- Whether lines stand in order as adjacent lines of a body. -/
def containsRun (body : List (ℕ × Text)) (lines : List Text) : Bool :=
  if lines.isEmpty then true
  else if body.length < lines.length then false
  else (windows lines.length body).any fun window =>
    ((windows 2 window).all fun pair => (pair[1]?.map Prod.fst) = pair[0]?.map fun first => first.1 + 1) &&
      (window.zip lines).all fun (have_, want) => trimEnd have_.2 = trimEnd want

/-- Whether the block rules find nothing left of a line: no body line of that identity. -/
def lineGone (prim : Primitives) (document : Document) (section_ : Section) (wanted : Text) : Bool :=
  !(document.matchable section_).any fun (_, text) => lineHash prim text = wanted && !(normalizeLine text).isEmpty

/-- Whether a note already shows the effect of a write. -/
def effectPresent (prim : Primitives) (content : Text) (write : Write) : Bool :=
  let document := Document.split content
  match write.operation with
  | .putFile .. => false
  | .moveFile .. => false
  | .create wanted =>
    if normalizeEndings content = normalizeEndings wanted then true
    else containsRun (document.matchable document.whole) (contentLines wanted)
  | .append heading lines .. =>
    match findSection prim document heading with
    | none => false
    | some section_ => containsRun (document.matchable section_) lines
  | .replaceLine heading wanted ordinal newLine =>
    match findSection prim document heading with
    | none => false
    | some section_ =>
      let equals (line : Text) : Bool := trimEnd line = trimEnd newLine || trimEnd line = mark newLine
      match findLine prim document section_ wanted ordinal with
      | some index => document.lines[index]?.any fun line => equals line.text
      | none => (document.matchable section_).any fun (_, line) =>
          equals line || lineHash prim line = lineHash prim newLine
  | .removeLine heading wanted _ =>
    match findSection prim document heading with
    | none => true
    | some section_ => !(document.matchable section_).any fun (_, line) => lineHash prim line = wanted
  | .replaceSection heading _ lines =>
    match findSection prim document (some heading) with
    | none => false
    | some section_ =>
      let body := document.bodyTexts section_
      if hashLines prim body = hashLines prim lines then true
      else (lines.find? fun line => !(trim line).isEmpty).any fun first =>
        body.any fun line => trimEnd line = mark first
  | .moveBlock heading wanted _ to_ place newLine createUnder =>
    match (findGroup prim document to_ createUnder).map Section.own with
    | none => false
    | some destination =>
      let landed := (newLine.map (lineHash prim)).getD wanted
      let placed := ((document.matchable destination).filter fun (_, text) =>
        lineHash prim text = landed && !(normalizeLine text).isEmpty).any fun (index, _) =>
          match place with
          | .top => index = firstBodyLine document destination
          | .end_ => blockEnd document destination index = destination.bodyStop
          | .after anchor ordinal =>
            match findLine prim document destination anchor ordinal with
            | some anchor => blockEnd document destination anchor = index
            | none => blockEnd document destination index = destination.bodyStop
      if !placed then false
      else match (findSection prim document heading).map Section.own with
        | some source =>
          if source.heading ≠ destination.heading then lineGone prim document source wanted else true
        | none => true
  | .removeBlock heading wanted _ =>
    match (findSection prim document heading).map Section.own with
    | none => true
    | some section_ => lineGone prim document section_ wanted

/-- The note a write starts from where there is none. -/
def startingDocument (write : Write) (seed : Option Text) : Document :=
  match write.operation.createFromTemplate, seed with
  | true, some seed => .split seed
  | _, _ =>
    match write.operation.heading with
    | some heading => .split (heading.line ++ ['\n', '\n'])
    | none => .empty

/-- The first line with words gets the marker. -/
def markFirst : List Text → List Text
  | [] => []
  | line :: rest => if (trim line).isEmpty then line :: markFirst rest else mark line :: rest

/-- A document after an operation, with the outcome it has where nothing was created on the way. -/
def finish (document : Document) (outcome : Option Outcome) (otherwise : Outcome) : Applied :=
  ⟨document.join, outcome.getD otherwise⟩

/-- Move a block: the line and what is indented below it. -/
def applyMoveBlock (prim : Primitives) (document : Document) (outcome : Option Outcome) (heading : Option Heading)
    (wanted : Text) (ordinal : ℕ) (to_ : Option Heading) (place : Place) (newLine : Option Text)
    (createUnder : Option Heading) : Applied :=
  match (findSection prim document heading).map Section.own with
  | none => unchanged document outcome
  | some source =>
    match findLine prim document source wanted ordinal with
    | none => unchanged document outcome
    | some index =>
      let stop := blockEnd document source index
      let texts := ((document.lines.take stop).drop index).map Line.text
      let texts := match newLine, texts with
        | some newLine, _ :: rest => newLine :: rest
        | _, _ => texts
      let document := cut document index stop
      let (document, destination, outcome) := locateGroup prim document to_ createUnder outcome
      let destination := destination.own
      let at_ := match place with
        | .top => firstBodyLine document destination
        | .end_ => destination.bodyStop
        | .after anchor anchorOrdinal =>
          match findLine prim document destination anchor anchorOrdinal with
          | some anchor => blockEnd document destination anchor
          | none => destination.bodyStop
      finish (insertLines document destination at_ texts false) outcome .applied

/-- What the operation does to a document, once the write is not there yet. -/
def applyOperation (prim : Primitives) (document : Document) (outcome : Option Outcome) (operation : Operation) :
    Applied :=
  match operation with
  | .putFile .. => unchanged document outcome
  | .moveFile .. => unchanged document outcome
  | .create content =>
    let section_ := document.whole
    finish (insertLines document section_ section_.bodyStop (contentLines content) true) outcome .applied
  | .append heading lines placement blankLineBefore _ after =>
    let (document, section_, outcome) := locate prim document heading outcome
    let anchored := after.bind fun anchor =>
      (findLine prim document section_ anchor.lineHash anchor.ordinal).map (blockEnd document section_)
    let at_ := anchored.getD (match placement with
      | .end_ => section_.bodyStop
      | .beforeChildren => section_.ownStop)
    finish (insertLines document section_ at_ lines blankLineBefore) outcome .applied
  | .replaceLine heading wanted ordinal newLine =>
    let (document, section_, outcome) := locate prim document heading outcome
    match findLine prim document section_ wanted ordinal with
    | some index =>
      finish { document with lines := document.lines.modify index fun line => { line with text := newLine } }
        outcome .applied
    | none => finish (insertLines document section_ section_.bodyStop [mark newLine] false) outcome .keptBoth
  | .removeLine heading wanted ordinal =>
    let (document, section_, outcome) := locate prim document heading outcome
    match findLine prim document section_ wanted ordinal with
    | some index => finish { document with lines := document.lines.eraseIdx index } outcome .applied
    | none => finish document outcome .noop
  | .replaceSection heading baseHash lines =>
    let (document, section_, outcome) := locate prim document (some heading) outcome
    if hashLines prim (document.bodyTexts section_) = baseHash then
      let drained :=
        { document with
          lines := document.lines.take section_.start ++ document.lines.drop section_.bodyStop }
      finish (drained.insert section_.start lines) outcome .applied
    else if lines.all fun line => (trim line).isEmpty then finish document outcome .noop
    else finish (insertLines document section_ section_.bodyStop (markFirst lines) true) outcome .keptBoth
  | .moveBlock heading wanted ordinal to_ place newLine createUnder =>
    applyMoveBlock prim document outcome heading wanted ordinal to_ place newLine createUnder
  | .removeBlock heading wanted ordinal =>
    match (findSection prim document heading).map Section.own with
    | none => unchanged document outcome
    | some section_ =>
      match findLine prim document section_ wanted ordinal with
      | some index => finish (cut document index (blockEnd document section_ index)) outcome .applied
      | none => unchanged document outcome

/-- Apply a write to a note, or to the absence of one. -/
def apply (prim : Primitives) (existing : Option Text) (write : Write) (seed : Option Text) : Applied :=
  if write.operation.isFileLevel then ⟨existing.getD [], .noop⟩
  else match existing with
    | some text =>
      if effectPresent prim text write then ⟨text, .noop⟩
      else applyOperation prim (.split text) none write.operation
    | none =>
      match write.operation with
      | .create content => ⟨content, .created⟩
      | operation => applyOperation prim (startingDocument write seed) (some .created) operation

end Thock.SyncCore
