import Thock.SyncCore.Markdown

/-!
# The phone's reading of a note

The phone's port of the note model: lines, fences, headings and sections, and the identity
forms, as the phone's own code computes them. The line, the document and the section hold
the same fields on both ends and are shared; a Swift character is a `Char`, CR LF excepted,
which is one character and is read as such where the code tells it from LF.
-/

namespace Thock.ThockKit

open TextScan
open SyncCore (Line Ending Document HeadingLine Heading Section Scan Span Primitives)

/-- A file's lines and the terminator inserted lines use. -/
abbrev TextFile := Document

/-- The blanks and tabs a `CharacterSet.whitespaces` holds. -/
def isWhitespacesSet (c : Char) : Bool :=
  c = '\t' || c = ' ' || c.toNat = 0xA0 || c.toNat = 0x1680 || (0x2000 ≤ c.toNat && c.toNat ≤ 0x200A) ||
    c.toNat = 0x202F || c.toNat = 0x205F || c.toNat = 0x3000

/-- Those and the line breaks. -/
def isWhitespacesAndNewlines (c : Char) : Bool :=
  isWhitespacesSet c || (0xA ≤ c.toNat && c.toNat ≤ 0xD) || c.toNat = 0x85 || c.toNat = 0x2028 || c.toNat = 0x2029

def trimmingCharacters (set : Char → Bool) (text : Text) : Text := (text.dropWhile set).rdropWhile set

def isBlank (line : Line) : Bool := line.text.all isWhitespace

/-- The lines of a text, `current` being what was read of the line so far. -/
def readLines (current : Text) : Text → List Line
  | [] => if current.isEmpty then [] else [⟨current, .none⟩]
  | '\r' :: '\n' :: rest => ⟨current, .crLf⟩ :: readLines [] rest
  | '\n' :: rest => ⟨current, .lf⟩ :: readLines [] rest
  | c :: rest => readLines (current ++ [c]) rest

def TextFile.read (text : Text) : TextFile :=
  let lines := readLines [] text
  ⟨lines, if lines.countP (fun line => line.ending = .crLf) > lines.countP (fun line => line.ending = .lf) then .crLf
    else .lf⟩

def TextFile.text (file : TextFile) : Text := file.lines.flatMap fun line => line.text ++ line.ending.text

/-- Insert lines; a file whose last line has no terminator keeps that for whichever line ends up last. -/
def TextFile.insert (file : TextFile) (newLines : List Text) (index : ℕ) : TextFile :=
  if newLines.isEmpty then file
  else
    let index := min index file.lines.length
    let inserted := newLines.map fun text => Line.mk text file.ending
    if index = file.lines.length ∧ file.lines.getLast?.any fun line => line.ending = .none then
      { file with
        lines := (SyncCore.setLastEnding file.ending file.lines).take index ++
          SyncCore.setLastEnding .none inserted ++ (SyncCore.setLastEnding file.ending file.lines).drop index }
    else { file with lines := file.lines.take index ++ inserted ++ file.lines.drop index }

/-- Replace a run of lines by others, which go in as an insertion would. -/
def TextFile.replace (file : TextFile) (start stop : ℕ) (newLines : List Text) : TextFile :=
  TextFile.insert { file with lines := file.lines.take start ++ file.lines.drop stop } newLines start

/-! ## Fences, rules and headings -/

def opensFence (line : Text) : Option (Char × ℕ) :=
  let indent := (line.takeWhile (· = ' ')).length
  if ¬indent ≤ 3 then none
  else match line.drop indent with
    | [] => none
    | marker :: more =>
      if ¬(marker = '`' ∨ marker = '~') then none
      else
        let rest := marker :: more
        let length := (rest.takeWhile (· = marker)).length
        if ¬3 ≤ length then none
        else if marker = '`' ∧ '`' ∈ rest.drop length then none
        else some (marker, length)

def closesFence (line : Text) (marker : Char) (length : ℕ) : Bool :=
  let indent := (line.takeWhile (· = ' ')).length
  if ¬indent ≤ 3 then false
  else
    let rest := line.drop indent
    let run := (rest.takeWhile (· = marker)).length
    if ¬length ≤ run then false else (rest.drop run).all isWhitespace

def isThematicBreak (line : Text) : Bool :=
  let indent := (line.takeWhile (· = ' ')).length
  if ¬indent ≤ 3 then false
  else match line.drop indent with
    | [] => false
    | marker :: more =>
      if ¬marker ∈ ['_', '-', '*'] then false
      else decide (3 ≤ ((marker :: more).filter (· = marker)).length) &&
        (marker :: more).all fun c => c = marker || c = ' '

/-- The level and text of a heading, without its closing hashes. -/
def heading (line : Text) : Option (ℕ × Text) :=
  let level := (line.takeWhile (· = '#')).length
  if ¬(1 ≤ level ∧ level ≤ 6) then none
  else match line.drop level with
    | [] => none
    | first :: more =>
      if ¬(first = ' ' ∨ first = '\t') then none
      else
        let content := trimmingCharacters isWhitespacesSet (first :: more)
        if content.isEmpty then none
        else
          let closing := (content.reverse.takeWhile (· = '#')).length
          if ¬0 < closing then some (level, content)
          else
            let before := content.take (content.length - closing)
            let trimmed := trimmingCharacters (fun c => c = ' ' || c = '\t') before
            let text := if trimmed.length = before.length ∧ ¬before.isEmpty then content else trimmed
            if text.isEmpty then none else some (level, text)

def closesFrontmatter (file : TextFile) : Bool :=
  (file.lines.drop 1).any fun line => line.text = ['-', '-', '-'] || line.text = ['.', '.', '.']

/-- Whether each line is content: outside front matter and fences. -/
def maskFrom (closes : Bool) : ℕ → Scan → List Line → List Bool
  | _, _, [] => []
  | index, .frontMatter, line :: rest =>
    let state := if line.text = ['-', '-', '-'] || line.text = ['.', '.', '.'] then .body else .frontMatter
    false :: maskFrom closes (index + 1) state rest
  | index, .fence marker length, line :: rest =>
    let state := if closesFence line.text marker length then .body else .fence marker length
    false :: maskFrom closes (index + 1) state rest
  | index, .body, line :: rest =>
    if index = 0 ∧ line.text = ['-', '-', '-'] ∧ closes then false :: maskFrom closes (index + 1) .frontMatter rest
    else match opensFence line.text with
      | some (marker, length) => false :: maskFrom closes (index + 1) (.fence marker length) rest
      | none => true :: maskFrom closes (index + 1) .body rest

def TextFile.contentMask (file : TextFile) : List Bool := maskFrom (closesFrontmatter file) 0 .body file.lines

/-- The headings among numbered lines and their mask. -/
def headingsFrom : ℕ → List Line → List Bool → List HeadingLine
  | index, line :: rest, shown :: mask =>
    match heading line.text with
    | some (level, text) =>
      if shown then ⟨index, level, text⟩ :: headingsFrom (index + 1) rest mask else headingsFrom (index + 1) rest mask
    | none => headingsFrom (index + 1) rest mask
  | _, _, _ => []

def TextFile.headings (file : TextFile) : List HeadingLine := headingsFrom 0 file.lines file.contentMask

/-! ## Heading keys -/

/-- Whether a token stands at an index. -/
def matches_ (characters : Text) (index : ℕ) (token : Text) : Bool := token.isPrefixOf (characters.drop index)

/-- The end of the run of backticks that closes a run, looked for one character at a time. -/
def closedRun (characters : Text) (run : ℕ) : ℕ → ℕ → Option ℕ
  | 0, _ => none
  | fuel + 1, search =>
    match characters[search]? with
    | none => none
    | some c =>
      if c = '`' then
        let closing := ((characters.drop search).takeWhile (· = '`')).length
        if closing = run then some (search + closing) else closedRun characters run fuel (search + closing)
      else closedRun characters run fuel (search + 1)

/-- The end of the comment that is open at an index. -/
def closedComment (characters : Text) : ℕ → ℕ → Option ℕ
  | 0, _ => none
  | fuel + 1, search =>
    if search + 2 < characters.length then
      if matches_ characters search ['-', '-', '>'] then some (search + 3)
      else closedComment characters fuel (search + 1)
    else none

/-- Code spans and comments, from left to right. -/
def inlineExclusionsFrom (characters : Text) : ℕ → ℕ → List Span
  | 0, _ => []
  | fuel + 1, index =>
    match characters[index]? with
    | none => []
    | some c =>
      if c = '`' then
        let run := ((characters.drop index).takeWhile (· = '`')).length
        match closedRun characters run (characters.length + 1) (index + run) with
        | some closed => ⟨index, closed⟩ :: inlineExclusionsFrom characters fuel closed
        | none => inlineExclusionsFrom characters fuel (index + run)
      else if c = '<' ∧ matches_ characters index ['<', '!', '-', '-'] then
        match closedComment characters (characters.length + 1) (index + 4) with
        | some closed => ⟨index, closed⟩ :: inlineExclusionsFrom characters fuel closed
        | none => inlineExclusionsFrom characters fuel (index + 1)
      else inlineExclusionsFrom characters fuel (index + 1)

def inlineExclusions (characters : Text) : List Span := inlineExclusionsFrom characters (characters.length + 1) 0

/-- The offset of the brackets that close a wikilink, no bracket before them. -/
def wikiClose : ℕ → Text → Option ℕ
  | _, [] => none
  | _, [_] => none
  | close, c :: d :: rest =>
    if c = ']' ∧ d = ']' then some close
    else if c = '[' ∨ c = ']' then none
    else wikiClose (close + 1) (d :: rest)

/-- The offset of the bracket that closes a label, no bracket opened before it. -/
def labelClose : ℕ → Text → Option ℕ
  | _, [] => none
  | close, c :: rest => if c = ']' then some close else if c = '[' then none else labelClose (close + 1) rest

/-- The offset of the parenthesis that closes a destination. -/
def destinationClose : ℕ → ℕ → Text → Option ℕ
  | _, _, [] => none
  | depth, stop, c :: rest =>
    if c = '(' then destinationClose (depth + 1) (stop + 1) rest
    else if c = ')' then if depth = 1 then some stop else destinationClose (depth - 1) (stop + 1) rest
    else destinationClose depth (stop + 1) rest

/-- The range of a link and of its label, its destination read as the desk keys it. -/
def parseLink (characters : Text) (open_ : ℕ) : Option (Span × Span) :=
  if characters[open_ + 1]? = some '[' then
    let innerStart := open_ + 2
    (wikiClose innerStart (characters.drop innerStart)).bind fun close =>
      if ¬innerStart < close then none
      else
        let inner := SyncCore.slice characters innerStart close
        if '|' ∈ inner then
          let bar := innerStart + inner.idxOf '|'
          if ¬(innerStart < bar ∧ bar + 1 < close) then none else some (⟨open_, close + 2⟩, ⟨bar + 1, close⟩)
        else some (⟨open_, close + 2⟩, ⟨innerStart, close⟩)
  else
    (labelClose (open_ + 1) (characters.drop (open_ + 1))).bind fun close =>
      if ¬(characters[close + 1]? = some '(' ∧ open_ + 1 < close) then none
      else (destinationClose 1 (close + 2) (characters.drop (close + 2))).map fun stop =>
        (⟨open_, stop + 1⟩, ⟨open_ + 1, close⟩)

/-- Links reduced to their label, one character at a time. -/
def reducingLinksFrom (characters : Text) (excluded : List Span) : ℕ → ℕ → Text → Text
  | 0, _, output => output
  | fuel + 1, index, output =>
    match characters[index]? with
    | none => output
    | some character =>
      if character ≠ '[' then reducingLinksFrom characters excluded fuel (index + 1) (output ++ [character])
      else if 0 < index ∧ (characters[index - 1]? = some '!' ∨ characters[index - 1]? = some '\\') then
        reducingLinksFrom characters excluded fuel (index + 1) (output ++ [character])
      else if excluded.any fun range => range.contains index then
        reducingLinksFrom characters excluded fuel (index + 1) (output ++ [character])
      else match parseLink characters index with
        | some (range, label) =>
          if excluded.any fun other => other.overlaps range then
            reducingLinksFrom characters excluded fuel (index + 1) (output ++ [character])
          else
            reducingLinksFrom characters excluded fuel range.stop
              (output ++ SyncCore.slice characters label.start label.stop)
        | none => reducingLinksFrom characters excluded fuel (index + 1) (output ++ [character])

def reducingLinks (text : Text) : Text := reducingLinksFrom text (inlineExclusions text) (text.length + 1) 0 []

/-- A heading's comparison key. -/
def headingKey (prim : Primitives) (text : Text) : Text :=
  let key := (reducingLinks text).foldl (fun key scalar =>
    if prim.isAlphanumeric scalar then key ++ prim.toLowercase scalar
    else if !key.isEmpty && key.getLast? != some ' ' then key ++ [' ']
    else key) []
  if key.getLast? = some ' ' then key.dropLast else key

/-! ## Sections -/

/-- The heading of a name among some: by its text, else by its key; the last when the ordinal is out of range. -/
def resolveAmong (prim : Primitives) (name : Text) (ordinal : ℕ) (all_ : List HeadingLine) : Option HeadingLine :=
  let wanted := prim.lowercase (trimmingCharacters isWhitespacesSet name)
  let exact_ := all_.filter fun candidate => prim.lowercase candidate.text = wanted
  if !exact_.isEmpty then exact_[min ordinal (exact_.length - 1)]?
  else
    let key := headingKey prim name
    if key.isEmpty then none
    else
      let normalised := all_.filter fun candidate => headingKey prim candidate.text = key
      if !normalised.isEmpty then normalised[min ordinal (normalised.length - 1)]? else none

def TextFile.resolve (prim : Primitives) (file : TextFile) (reference : Heading) : Option HeadingLine :=
  resolveAmong prim reference.text reference.ordinal file.headings

def TextFile.resolveWithin (prim : Primitives) (file : TextFile) (reference : Heading) (start stop : ℕ) :
    Option HeadingLine :=
  resolveAmong prim reference.text reference.ordinal
    (file.headings.filter fun candidate => start ≤ candidate.index ∧ candidate.index < stop)

/-- Step back over blank lines. -/
def dropBlank (lines : List Line) (start : ℕ) : ℕ → ℕ
  | 0 => 0
  | stop + 1 => if start < stop + 1 ∧ lines[stop]?.any isBlank then dropBlank lines start stop else stop + 1

/-- Step back over blank lines, and over a closing rule of a section that has a heading. -/
def dropRule (lines : List Line) (headingIndex : Option ℕ) (start stop : ℕ) : ℕ :=
  let stop := dropBlank lines start stop
  if headingIndex.isSome ∧ start < stop ∧ lines[stop - 1]?.any fun line => isThematicBreak line.text then
    dropBlank lines start (stop - 1)
  else stop

def TextFile.range (file : TextFile) (headingIndex : Option ℕ) (start stop : ℕ) (headings : List HeadingLine) :
    Section :=
  let bodyStop := dropRule file.lines headingIndex start stop
  let ownStop := ((headings.find? fun other => start ≤ other.index ∧ other.index < bodyStop).map
    HeadingLine.index).getD bodyStop
  { heading := headingIndex, start, bodyStop, ownStop := dropRule file.lines headingIndex start ownStop, stop }

def TextFile.sectionOf (file : TextFile) (heading : HeadingLine) : Section :=
  let all_ := file.headings
  let stop := ((all_.find? fun other => heading.index < other.index ∧ other.level ≤ heading.level).map
    HeadingLine.index).getD file.lines.length
  file.range (some heading.index) (heading.index + 1) stop all_

def TextFile.wholeFile (file : TextFile) : Section := file.range none 0 file.lines.length []

/-! ## Line identities -/

def strippingListMarker (text : Text) : Text :=
  match text with
  | '-' :: ' ' :: rest => rest
  | '*' :: ' ' :: rest => rest
  | '+' :: ' ' :: rest => rest
  | _ =>
    let digits := text.takeWhile Char.isDigit
    if 1 ≤ digits.length ∧ digits.length ≤ 9 then
      match text.drop digits.length with
      | '.' :: ' ' :: rest => rest
      | ')' :: ' ' :: rest => rest
      | _ => text
    else text

def strippingCheckbox (text : Text) : Text :=
  match text with
  | '[' :: ' ' :: ']' :: ' ' :: rest => rest
  | '[' :: 'x' :: ']' :: ' ' :: rest => rest
  | '[' :: 'X' :: ']' :: ' ' :: rest => rest
  | _ => text

/-- A time and what follows it; `24:00` only where it may end a range. -/
def parseTime (text : Text) (allowMidnightEnd : Bool) : Option Text :=
  match if allowMidnightEnd then stripPrefix ['2', '4', ':', '0', '0'] text else none with
  | some rest => some rest
  | none =>
    let hourDigits := (text.take 2).takeWhile Char.isDigit
    if hourDigits.isEmpty then none
    else match text.drop hourDigits.length with
      | ':' :: rest =>
        let minuteDigits := rest.take 2
        if ¬(minuteDigits.length = 2 ∧ minuteDigits.all Char.isDigit) then none
        else if ¬(SyncCore.numberOf hourDigits ≤ 23 ∧ SyncCore.numberOf minuteDigits ≤ 59) then none
        else some (rest.drop 2)
      | _ => none

def strippingSeparator (text : Text) : Option Text :=
  let trimmed := trimStart text
  ([['–'], ['—'], ['-'], ['t', 'o']].findSome? fun separator => stripPrefix separator trimmed).map trimStart

/-- What follows a time, set off by white space. -/
def label (token : Text) : Option Text :=
  if token.isEmpty then some token
  else
    let rest := trimStart token
    if rest.length < token.length then some rest else none

/-- The rest of a text after a time prefix. -/
def timePrefixRest (text : Text) : Option Text :=
  (parseTime text false).bind fun afterStart =>
    match ((strippingSeparator afterStart).bind fun after => parseTime after true).bind label with
    | some rest => some rest
    | none => label afterStart

/-- Trailing comments cut off, one for each unit of fuel. -/
def strippingComments : ℕ → Text → Text
  | 0, text => text
  | fuel + 1, text =>
    let text := trimEnd text
    if ¬['-', '-', '>'].isSuffixOf text then text
    else match splitLast ['<', '!', '-', '-'] text with
      | none => text
      | some (before, _) => strippingComments fuel before

/-- The text a line is identified by. -/
def lineIdentity (line : Text) : Text :=
  let rest := strippingCheckbox (strippingListMarker (trimStart line))
  let rest := (timePrefixRest rest).getD rest
  [' '].intercalate ((strippingComments (rest.length + 1) rest).splitOnP isWhitespace |>.filter fun word => !word.isEmpty)

def lineHash (prim : Primitives) (line : Text) : Text := prim.shortHash (lineIdentity line)

def sectionHash (prim : Primitives) (lines : List Text) : Text := prim.shortHash (joinLines lines)

end Thock.ThockKit
