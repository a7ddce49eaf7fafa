import Thock.SyncCore.Apply
import Thock.ThockKit.WriteDocument

/-!
# Applying a write on the phone

The application rules as the phone runs them the moment a write is made and again on every
snapshot from the desk, and the phone's test of whether a note already shows a write's effect.
-/

namespace Thock.ThockKit

open TextScan
open SyncCore (Line Section Heading HeadingLine Place Primitives Outcome Applied indices)

/-- The marker a kept-both line ends with, its blank included. -/
def conflictMarker : Text := " <!--thock:also-->".toList

/-- The section's own lines as a section. -/
def own (section_ : Section) : Section := { section_ with bodyStop := section_.ownStop }

/-- The first line of a section that is not blank, or its end. -/
def firstBodyLine (section_ : Section) (file : TextFile) : ℕ :=
  ((indices section_.start section_.bodyStop).find? fun index =>
    file.lines[index]?.any fun line => !isBlank line).getD section_.bodyStop

/-- Walk over the lines below a block's first: indented lines belong to it, with the blank lines between. -/
def blockEndFrom : List Line → ℕ → ℕ → ℕ
  | [], _, lastContent => lastContent
  | line :: rest, stop, lastContent =>
    if isBlank line then blockEndFrom rest (stop + 1) lastContent
    else if [' '].isPrefixOf line.text ∨ ['\t'].isPrefixOf line.text then blockEndFrom rest (stop + 1) (stop + 1)
    else lastContent

/-- One past the last line of the block that starts at an index. -/
def blockEnd (index : ℕ) (section_ : Section) (file : TextFile) : ℕ :=
  blockEndFrom ((file.lines.take section_.bodyStop).drop (index + 1)) (index + 1) (index + 1)

/-- Remove lines, and one of two blank lines the gap would leave side by side. -/
def cut (start stop : ℕ) (file : TextFile) : TextFile :=
  let stop := min stop file.lines.length
  if ¬start < stop then file
  else
    let lines := file.lines.take start ++ file.lines.drop stop
    if 0 < start ∧ start < lines.length ∧ lines[start - 1]?.any isBlank ∧ lines[start]?.any isBlank then
      { file with lines := lines.eraseIdx start }
    else { file with lines }

def headingLine (heading : Heading) : Text :=
  List.replicate (min (max heading.level 1) 6) '#' ++ [' '] ++ trimmingCharacters isWhitespacesAndNewlines heading.text

def resolveSection (prim : Primitives) (heading : Option Heading) (file : TextFile) : Option Section :=
  match heading with
  | none => some file.wholeFile
  | some heading => (file.resolve prim heading).map file.sectionOf

/-- Among the section's content lines of a hash, the one an ordinal picks, or the first; a line with no
identity is never one. -/
def targetLine (prim : Primitives) (file : TextFile) (section_ : Section) (hash : Text) (ordinal : ℕ) : Option ℕ :=
  let mask := file.contentMask
  let candidates := (indices section_.start section_.bodyStop).filter fun index =>
    mask[index]?.getD false && file.lines[index]?.any fun line =>
      lineHash prim line.text = hash && !(lineIdentity line.text).isEmpty
  if candidates.isEmpty then none else if ordinal < candidates.length then candidates[ordinal]? else candidates.head?

/-- Whether a run of lines stands in a range; a line that is not content breaks a run. -/
def contains (run : List Text) (file : TextFile) (start stop : ℕ) : Bool :=
  if run.isEmpty then true
  else
    let wanted := run.map trimEnd
    let mask := file.contentMask
    let body : List (Option Text) := (indices start stop).map fun index =>
      if mask[index]?.getD false then file.lines[index]?.map fun line => trimEnd line.text else none
    if ¬wanted.length ≤ body.length then false
    else (List.range (body.length - wanted.length + 1)).any fun start =>
      (body.drop start).take wanted.length = wanted.map some

/-- Insert lines, after a blank line where one is asked for and the line above is neither blank nor the
section's heading. -/
def insertLines (lines : List Text) (index : ℕ) (blankLineBefore : Bool) (file : TextFile) (section_ : Option Section) :
    TextFile :=
  let lines :=
    if blankLineBefore ∧ 0 < index ∧ some (index - 1) ≠ section_.bind Section.heading ∧
        file.lines[index - 1]?.any fun line => !isBlank line then [] :: lines
    else lines
  TextFile.insert file lines index

/-- A missing heading goes before the first level-1 heading that is not the note's title. -/
def addHeading (heading : Heading) (file : TextFile) : TextFile :=
  let before := ((file.headings.drop 1).find? fun other => other.level = 1).map HeadingLine.index
  let index := before.getD file.lines.length
  let lines := if 0 < index ∧ file.lines[index - 1]?.any fun line => !isBlank line then [[]] else []
  let lines := lines ++ [headingLine heading]
  let lines := if before.isSome then lines ++ [[]] else lines
  TextFile.insert file lines index

/-- The section a write targets, its heading created when the note lacks it. -/
def targetSection (prim : Primitives) (reference : Option Heading) (file : TextFile) : TextFile × Section × Bool :=
  match reference with
  | none => (file, file.wholeFile, false)
  | some reference =>
    match file.resolve prim reference with
    | some found => (file, file.sectionOf found, false)
    | none =>
      let file := addHeading reference file
      (file, ((file.resolve prim reference).map file.sectionOf).getD file.wholeFile, true)

/-- The group a block moves into, created at the end of its parent when it is missing. -/
def locateGroup (prim : Primitives) (to_ : Option Heading) (parent : Option Heading) (file : TextFile) :
    TextFile × Section × Bool :=
  match to_ with
  | none => (file, file.wholeFile, false)
  | some to_ =>
    match parent with
    | none => targetSection prim (some to_) file
    | some parent =>
      let (file, parentSection, sectionAdded) := targetSection prim (some parent) file
      match file.resolveWithin prim to_ parentSection.start parentSection.stop with
      | some found => (file, file.sectionOf found, sectionAdded)
      | none =>
        let file := insertLines [headingLine to_] parentSection.bodyStop true file (some parentSection)
        (file, ((file.resolveWithin prim to_ parentSection.start file.lines.length).map file.sectionOf).getD
          file.wholeFile, true)

/-- The group a move names as its destination, when the note has it. -/
def findGroup (prim : Primitives) (to_ : Option Heading) (parent : Option Heading) (file : TextFile) : Option Section :=
  match to_ with
  | none => some file.wholeFile
  | some to_ =>
    match parent with
    | some parent => (resolveSection prim (some parent) file).bind fun parentSection =>
        (file.resolveWithin prim to_ parentSection.start parentSection.stop).map file.sectionOf
    | none => (file.resolve prim to_).map file.sectionOf

def normalisingLineEndings (text : Text) : Text := replaceAll ['\r', '\n'] ['\n'] text

/-- Whether a block stands where a move puts it. -/
def isPlaced (prim : Primitives) (place : Place) (destination : Section) (file : TextFile) (index : ℕ) : Bool :=
  match place with
  | .top => index = firstBodyLine destination file
  | .end_ => blockEnd index destination file = destination.bodyStop
  | .after anchorHash anchorOrdinal =>
    match targetLine prim file destination anchorHash anchorOrdinal with
    | some anchor => blockEnd anchor destination file = index
    | none => blockEnd index destination file = destination.bodyStop

/-- Whether a note already shows the effect of a write. -/
def effectPresent (prim : Primitives) (content : Text) (write : WriteDocument) : Bool :=
  let file := TextFile.read content
  match write.kind with
  | .create =>
    if normalisingLineEndings content = normalisingLineEndings (write.content.getD []) then true
    else
      let lines := (TextFile.read (write.content.getD [])).lines.map Line.text
      !lines.isEmpty && contains lines file file.wholeFile.start file.wholeFile.bodyStop
  | .append =>
    match resolveSection prim write.heading file with
    | none => false
    | some section_ => contains write.lines file section_.start section_.bodyStop
  | .replaceLine =>
    match resolveSection prim write.heading file with
    | none => false
    | some section_ =>
      let newLine := trimEnd (write.newLine.getD [])
      match targetLine prim file section_ (write.lineHash.getD []) write.ordinal with
      | some target => file.lines[target]?.any fun line =>
          trimEnd line.text = newLine || trimEnd line.text = newLine ++ conflictMarker
      | none =>
        let mask := file.contentMask
        let newHash := lineHash prim (write.newLine.getD [])
        (indices section_.start section_.bodyStop).any fun index =>
          mask[index]?.getD false && file.lines[index]?.any fun line =>
            lineHash prim line.text = newHash || trimEnd line.text = newLine ++ conflictMarker
  | .removeLine =>
    match resolveSection prim write.heading file with
    | none => true
    | some section_ => (targetLine prim file section_ (write.lineHash.getD []) 0).isNone
  | .replaceSection =>
    match resolveSection prim write.heading file with
    | none => false
    | some section_ =>
      let body := ((file.lines.take section_.bodyStop).drop section_.start).map Line.text
      if sectionHash prim body = sectionHash prim write.lines then true
      else match write.lines.find? fun line => !line.all isWhitespace with
        | none => false
        | some first => body.any fun line => trimEnd line = trimEnd first ++ conflictMarker
  | .moveBlock =>
    match (findGroup prim write.to_ write.createUnder file).map own with
    | none => false
    | some destination =>
      let wanted := write.lineHash.getD []
      let landed := (write.newLine.map (lineHash prim)).getD wanted
      let mask := file.contentMask
      let placed := (indices destination.start destination.bodyStop).any fun index =>
        (mask[index]?.getD false && file.lines[index]?.any fun line =>
          lineHash prim line.text = landed && !(lineIdentity line.text).isEmpty) &&
            isPlaced prim write.place destination file index
      if !placed then false
      else match (resolveSection prim write.heading file).map own with
        | none => true
        | some source =>
          if source.heading = destination.heading then true
          else (targetLine prim file source wanted 0).isNone
  | .removeBlock =>
    match (resolveSection prim write.heading file).map own with
    | none => true
    | some section_ => (targetLine prim file section_ (write.lineHash.getD []) 0).isNone
  | .moveFile => false
  | .putFile => false

/-- Where in its destination a moved block goes in. -/
def landing (prim : Primitives) (place : Place) (destination : Section) (file : TextFile) : ℕ :=
  match place with
  | .top => firstBodyLine destination file
  | .end_ => destination.bodyStop
  | .after anchorHash anchorOrdinal =>
    match targetLine prim file destination anchorHash anchorOrdinal with
    | some anchor => blockEnd anchor destination file
    | none => destination.bodyStop

/-- Move or remove a block: the line and what is indented below it. -/
def applyBlock (prim : Primitives) (write : WriteDocument) (file : TextFile) (created : Bool) : Applied :=
  let untouched : Applied := ⟨file.text, if created then .created else .noop⟩
  match (resolveSection prim write.heading file).map own with
  | none => untouched
  | some source =>
    match targetLine prim file source (write.lineHash.getD []) write.ordinal with
    | none => untouched
    | some index =>
      let stop := blockEnd index source file
      let texts := ((file.lines.take stop).drop index).map Line.text
      if write.kind = .removeBlock then ⟨(cut index stop file).text, if created then .created else .applied⟩
      else
        let texts := match write.newLine, texts with
          | some newLine, _ :: rest => newLine :: rest
          | _, _ => texts
        let file := cut index stop file
        let (file, group, sectionAdded) := locateGroup prim write.to_ write.createUnder file
        let destination := own group
        ⟨(insertLines texts (landing prim write.place destination file) false file (some destination)).text,
          if created then .created else if sectionAdded then .sectionAdded else .applied⟩

/-- The outcome of a write, by what was created or kept on the way. -/
def outcomeOf (created sectionAdded keptBoth : Bool) : Outcome :=
  if created then .created else if sectionAdded then .sectionAdded else if keptBoth then .keptBoth else .applied

/-- The marker goes to the first line with words, or to the first line. -/
def markLines (lines : List Text) : List Text :=
  let marked := (lines.findIdx? fun line => !line.all isWhitespace).getD 0
  lines.modify marked fun line => line ++ conflictMarker

/-- The kinds that edit the lines of one section. -/
def applyLines (prim : Primitives) (write : WriteDocument) (file : TextFile) (created : Bool) : Applied :=
  let (file, section_, sectionAdded) := targetSection prim write.heading file
  match write.kind with
  | .append =>
    let index := if write.placement = .beforeChildren then section_.ownStop else section_.bodyStop
    let index := match write.after with
      | some anchor =>
        match targetLine prim file section_ anchor.lineHash anchor.ordinal with
        | some line => blockEnd line section_ file
        | none => index
      | none => index
    ⟨(insertLines write.lines index write.blankLineBefore file (some section_)).text,
      outcomeOf created sectionAdded false⟩
  | .replaceLine =>
    let newLine := write.newLine.getD []
    match targetLine prim file section_ (write.lineHash.getD []) write.ordinal with
    | some target =>
      ⟨TextFile.text { file with lines := file.lines.modify target fun line => { line with text := newLine } },
        outcomeOf created sectionAdded false⟩
    | none =>
      ⟨(TextFile.insert file [newLine ++ conflictMarker] section_.bodyStop).text, outcomeOf created sectionAdded true⟩
  | .removeLine =>
    match targetLine prim file section_ (write.lineHash.getD []) write.ordinal with
    | some target =>
      ⟨TextFile.text { file with lines := file.lines.eraseIdx target }, outcomeOf created sectionAdded false⟩
    | none =>
      if !created && !sectionAdded then ⟨file.text, .noop⟩ else ⟨file.text, outcomeOf created sectionAdded false⟩
  | .replaceSection =>
    let current := sectionHash prim (((file.lines.take section_.bodyStop).drop section_.start).map Line.text)
    if some current = write.baseHash then
      ⟨(TextFile.replace file section_.start section_.bodyStop write.lines).text,
        outcomeOf created sectionAdded false⟩
    else if !write.lines.all fun line => (trimmingCharacters isWhitespacesSet line).isEmpty then
      ⟨(insertLines (markLines write.lines) section_.bodyStop true file (some section_)).text,
        outcomeOf created sectionAdded true⟩
    else if !created && !sectionAdded then ⟨file.text, .noop⟩
    else ⟨file.text, outcomeOf created sectionAdded false⟩
  | _ => ⟨file.text, outcomeOf created sectionAdded false⟩

/-- What a write does to a file, once its effect is not there yet. -/
def applyTo (prim : Primitives) (write : WriteDocument) (file : TextFile) (created : Bool) : Applied :=
  if write.kind = .create then
    let lines := (TextFile.read (write.content.getD [])).lines.map Line.text
    ⟨(insertLines lines file.wholeFile.bodyStop true file none).text, .applied⟩
  else if write.kind = .moveBlock ∨ write.kind = .removeBlock then applyBlock prim write file created
  else applyLines prim write file created

/-- The file a write starts from where there is none. -/
def newFile (write : WriteDocument) (seed : Option Text) : TextFile :=
  match write.kind, write.createFromTemplate, seed with
  | .append, true, some seed => .read seed
  | _, _, _ =>
    match write.heading with
    | some heading => TextFile.insert (.read []) [headingLine heading, []] 0
    | none => .read []

/-- Apply a write to a file, or to the absence of one. -/
def apply (prim : Primitives) (existing : Option Text) (write : WriteDocument) (seed : Option Text) : Applied :=
  if write.kind = .moveFile ∨ write.kind = .putFile then ⟨existing.getD [], .noop⟩
  else match existing with
    | some existing =>
      if effectPresent prim existing write then ⟨existing, .noop⟩
      else applyTo prim write (.read existing) false
    | none =>
      if write.kind = .create then ⟨write.content.getD [], .created⟩
      else applyTo prim write (newFile write seed) true

/-- Where there is no file, every write but the file-level ones creates it. -/
theorem apply_none_outcome (prim : Primitives) (write : WriteDocument) (seed : Option Text)
    (hkind : write.kind ≠ .moveFile ∧ write.kind ≠ .putFile) : (apply prim none write seed).outcome = .created := by
  have hlines (file : TextFile) : (applyLines prim write file true).outcome = .created := by
    unfold applyLines
    simp only [outcomeOf]
    split <;> (repeat' split) <;> simp_all
  have hblock (file : TextFile) : (applyBlock prim write file true).outcome = .created := by
    unfold applyBlock
    simp only [if_true]
    split
    · rfl
    · split
      · rfl
      · split <;> rfl
  unfold apply
  rw [if_neg (by simp [hkind.1, hkind.2])]
  simp only
  split
  · rfl
  case isFalse hcreate =>
    unfold applyTo
    rw [if_neg hcreate]
    split
    · exact hblock _
    · exact hlines _

end Thock.ThockKit
