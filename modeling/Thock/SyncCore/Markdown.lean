import Thock.SyncCore.Write

/-!
# The note model

A note as the application rules see it: lines with their own terminators, headings outside
fences and front matter, the geometry of a section, and the three comparison forms, of a
heading, a line and a run of lines.

Letter case, the alphanumeric class and the short SHA-256 digest are parameters. Offsets are
in characters.
-/

namespace Thock.SyncCore

open TextScan

/-- What the rules ask of the standard library and of the digest: the class and case of
characters, and the first sixteen hex digits of the SHA-256 of a text. -/
structure Primitives where
  isAlphanumeric : Char → Bool
  toLowercase : Char → Text
  lowercase : Text → Text
  shortHash : Text → Text

/-! ## Lines and their terminators -/

/-- How a line ended in the source. -/
inductive Ending
  | lf
  | crLf
  | none
deriving DecidableEq, Repr

def Ending.text : Ending → Text
  | .lf => ['\n']
  | .crLf => ['\r', '\n']
  | .none => []

structure Line where
  text : Text
  ending : Ending
deriving DecidableEq, Repr

def Line.isBlank (line : Line) : Bool := (trim line.text).isEmpty

/-- A note split into lines, with the terminator inserted lines use. -/
structure Document where
  lines : List Line
  ending : Ending
deriving DecidableEq, Repr

/-- The line before a line feed, less the carriage return that ends it. -/
def terminated (piece : Text) : Line :=
  match stripSuffix ['\r'] piece with
  | some content => ⟨content, .crLf⟩
  | none => ⟨piece, .lf⟩

def splitLines (text : Text) : List Line :=
  (pieces text).dropLast.map terminated ++
    match (pieces text).getLast? with
    | some (c :: rest) => [⟨c :: rest, .none⟩]
    | _ => []

/-- The terminator a text has most of. -/
def dominantEnding (lines : List Line) : Ending :=
  if lines.countP (fun line => line.ending = .lf) < lines.countP (fun line => line.ending = .crLf) then .crLf
  else .lf

def Document.split (text : Text) : Document := ⟨splitLines text, dominantEnding (splitLines text)⟩

def Document.empty : Document := ⟨[], .lf⟩

def Document.join (document : Document) : Text := document.lines.flatMap fun line => line.text ++ line.ending.text

/-- The last line of a list takes another terminator. -/
def setLastEnding (ending : Ending) : List Line → List Line
  | [] => []
  | [line] => [{ line with ending }]
  | line :: rest => line :: setLastEnding ending rest

/-- Insert texts as lines before an index. A last line without a terminator gets one when lines go
in after it, and they then end the file as it did. -/
def Document.insert (document : Document) (index : ℕ) (texts : List Text) : Document :=
  if texts.isEmpty then document
  else
    let index := min index document.lines.length
    let atEnd := index == document.lines.length
    let unterminatedTail := atEnd && document.lines.getLast?.any fun line => line.ending = .none
    let lines := if unterminatedTail then setLastEnding document.ending document.lines else document.lines
    let inserted := texts.zipIdx.map fun (text, i) =>
      ⟨text, if unterminatedTail && i + 1 == texts.length then .none else document.ending⟩
    { document with lines := lines.take index ++ inserted ++ lines.drop index }

/-! ## Fences, rules and headings -/

/-- A thematic break: three or more of one marker, spaces allowed between. -/
def isThematicBreak (text : Text) : Bool :=
  let trimmed := text.dropWhile (· = ' ')
  if text.length - trimmed.length > 3 then false
  else match trimmed with
    | marker :: _ =>
      (marker = '_' || marker = '-' || marker = '*') && 3 ≤ trimmed.countP (· = marker) &&
        trimmed.all fun c => c = marker || c = ' '
    | [] => false

def opensFence (text : Text) : Option (Char × ℕ) :=
  let indent := text.length - (text.dropWhile (· = ' ')).length
  if indent > 3 then none
  else
    let rest := text.drop indent
    match rest with
    | character :: _ =>
      if ¬(character = '`' ∨ character = '~') then none
      else
        let length := (rest.takeWhile (· = character)).length
        if length < 3 then none
        else if character = '`' ∧ '`' ∈ rest.drop length then none
        else some (character, length)
    | [] => none

def closesFence (text : Text) (character : Char) (length : ℕ) : Bool :=
  let trimmed := text.dropWhile (· = ' ')
  if text.length - trimmed.length > 3 then false
  else
    let run := (trimmed.takeWhile (· = character)).length
    length ≤ run && (trim (trimmed.drop run)).isEmpty

/-- The level and text of a heading, without its closing hashes. -/
def parseHeading (text : Text) : Option (ℕ × Text) :=
  let level := (text.takeWhile (· = '#')).length
  if level = 0 ∨ level > 6 then none
  else
    let after := text.drop level
    let content := after.dropWhile fun c => c = ' ' || c = '\t'
    if content.length = after.length ∨ (trim content).isEmpty then none
    else
      let content := trimEnd content
      let withoutClosing := content.rdropWhile (· = '#')
      let headingText :=
        if withoutClosing.length < content.length then
          let trimmed := withoutClosing.rdropWhile fun c => c = ' ' || c = '\t'
          if trimmed.length = withoutClosing.length ∧ ¬withoutClosing.isEmpty then content else trimmed
        else content
      if headingText.isEmpty then none else some (level, headingText)

structure HeadingLine where
  index : ℕ
  level : ℕ
  text : Text
deriving DecidableEq, Repr

/-- Where the scan of a note stands. -/
inductive Scan
  | body
  | frontMatter
  | fence (character : Char) (length : ℕ)
deriving DecidableEq, Repr

def isFrontMatterEnd (text : Text) : Bool := text = ['-', '-', '-'] || text = ['.', '.', '.']

def frontMatterCloses (lines : List Line) : Bool := (lines.drop 1).any fun line => isFrontMatterEnd line.text

/-- The headings, and per line whether no rule may match it. -/
def scanFrom (closes : Bool) : ℕ → Scan → List Line → List HeadingLine × List Bool
  | _, _, [] => ([], [])
  | index, .frontMatter, line :: rest =>
    let state := if isFrontMatterEnd line.text then .body else .frontMatter
    let (found, protected_) := scanFrom closes (index + 1) state rest
    (found, true :: protected_)
  | index, .fence character length, line :: rest =>
    let state := if closesFence line.text character length then .body else .fence character length
    let (found, protected_) := scanFrom closes (index + 1) state rest
    (found, true :: protected_)
  | index, .body, line :: rest =>
    if index = 0 ∧ line.text = ['-', '-', '-'] ∧ closes then
      let (found, protected_) := scanFrom closes (index + 1) .frontMatter rest
      (found, true :: protected_)
    else match opensFence line.text with
      | some (character, length) =>
        let (found, protected_) := scanFrom closes (index + 1) (.fence character length) rest
        (found, true :: protected_)
      | none =>
        let (found, protected_) := scanFrom closes (index + 1) .body rest
        match parseHeading line.text with
        | some (level, text) => (⟨index, level, text⟩ :: found, false :: protected_)
        | none => (found, false :: protected_)

def Document.scan (document : Document) : List HeadingLine × List Bool :=
  scanFrom (frontMatterCloses document.lines) 0 .body document.lines

def Document.headings (document : Document) : List HeadingLine := document.scan.1

def Document.protected_ (document : Document) : List Bool := document.scan.2

/-! ## Heading keys -/

/-- A stretch of a text, by the offsets of its start and its end. -/
structure Span where
  start : ℕ
  stop : ℕ
deriving DecidableEq, Repr

def Span.contains (span : Span) (offset : ℕ) : Bool := span.start ≤ offset && offset < span.stop

def Span.overlaps (a b : Span) : Bool := a.start < b.stop && b.start < a.stop

def slice (text : Text) (start stop : ℕ) : Text := (text.take stop).drop start

/-- The offset of the first occurrence of a pattern at or after an offset. -/
def findFrom (pattern text : Text) (start : ℕ) : Option ℕ :=
  (splitFirst pattern (text.drop start)).map fun r => start + r.1.length

def runLength (c : Char) (text : Text) (start : ℕ) : ℕ := ((text.drop start).takeWhile (· = c)).length

/-- The end of the run of backticks that closes a run, searched for from an offset; the fuel
bounds the runs looked at. -/
def closingRun (text : Text) (length : ℕ) : ℕ → ℕ → Option ℕ
  | 0, _ => none
  | fuel + 1, search =>
    match findFrom ['`'] text search with
    | none => none
    | some candidate =>
      let run := runLength '`' text candidate
      if run = length then some (candidate + run) else closingRun text length fuel (candidate + run)

def codeSpansFrom (text : Text) : ℕ → ℕ → List Span
  | 0, _ => []
  | fuel + 1, cursor =>
    match findFrom ['`'] text cursor with
    | none => []
    | some open_ =>
      let length := runLength '`' text open_
      match closingRun text length (text.length + 1) (open_ + length) with
      | some stop => ⟨open_, stop⟩ :: codeSpansFrom text fuel stop
      | none => codeSpansFrom text fuel (open_ + length)

/-- Code spans: a run of backticks closed by a run of the same length. -/
def codeSpans (text : Text) : List Span := codeSpansFrom text (text.length + 1) 0

def commentOpen : Text := ['<', '!', '-', '-']

def commentClose : Text := ['-', '-', '>']

def commentsFrom (text : Text) : ℕ → ℕ → List Span → List Span
  | 0, _, ranges => ranges
  | fuel + 1, cursor, ranges =>
    match findFrom commentOpen text cursor with
    | none => ranges
    | some open_ =>
      match findFrom commentClose text (open_ + 4) with
      | none => ranges
      | some index =>
        let range : Span := ⟨open_, index + 3⟩
        let ranges := if ranges.any (Span.overlaps range) then ranges else ranges ++ [range]
        commentsFrom text fuel (index + 3) ranges

/-- Code spans, and the comments that overlap none of them. -/
def inlineExclusions (text : Text) : List Span := commentsFrom text (text.length + 1) 0 (codeSpans text)

/-- The range of a wikilink and of what it displays. -/
def parseWikilink (text : Text) (open_ : ℕ) : Option (Span × Span) :=
  let innerStart := open_ + 2
  (findFrom [']', ']'] text innerStart).bind fun close =>
    let inner := slice text innerStart close
    if inner.isEmpty ∨ '[' ∈ inner ∨ ']' ∈ inner then none
    else match splitFirst ['|'] inner with
      | some (target, alias_) =>
        if target.isEmpty ∨ alias_.isEmpty then none
        else some (⟨open_, close + 2⟩, ⟨innerStart + target.length + 1, close⟩)
      | none => some (⟨open_, close + 2⟩, ⟨innerStart, close⟩)

/-- The offset of the parenthesis that closes a destination. -/
def closingParenthesis : ℕ → ℕ → Text → Option ℕ
  | _, _, [] => none
  | depth, offset, c :: rest =>
    if c = '(' then closingParenthesis (depth + 1) (offset + 1) rest
    else if c = ')' then
      if depth = 1 then some offset else closingParenthesis (depth - 1) (offset + 1) rest
    else closingParenthesis depth (offset + 1) rest

def parseInlineLink (text : Text) (open_ : ℕ) : Option (Span × Span) :=
  let labelStart := open_ + 1
  (findFrom [']'] text labelStart).bind fun labelStop =>
    let label := slice text labelStart labelStop
    if label.isEmpty ∨ '[' ∈ label then none
    else if (text.drop (labelStop + 1)).head? ≠ some '(' then none
    else (closingParenthesis 1 (labelStop + 2) (text.drop (labelStop + 2))).map fun close =>
      (⟨open_, close + 1⟩, ⟨labelStart, labelStop⟩)

def parseLink (text : Text) (open_ : ℕ) : Option (Span × Span) :=
  if ['[', '['].isPrefixOf (text.drop open_) then parseWikilink text open_ else parseInlineLink text open_

/-- The loop of the link reduction: text up to `cursor` is written, brackets before `scan` are done with. -/
def reduceLinksFrom (text : Text) (excluded : List Span) : ℕ → ℕ → ℕ → Text → Text
  | 0, cursor, _, out => out ++ text.drop cursor
  | fuel + 1, cursor, scan, out =>
    match findFrom ['['] text scan with
    | none => out ++ text.drop cursor
    | some open_ =>
      if 0 < open_ ∧ (text[open_ - 1]? = some '!' ∨ text[open_ - 1]? = some '\\') then
        reduceLinksFrom text excluded fuel cursor (open_ + 1) out
      else match excluded.find? fun range => range.contains open_ with
        | some range => reduceLinksFrom text excluded fuel cursor range.stop out
        | none =>
          match parseLink text open_ with
          | some (range, label) =>
            if excluded.any fun other => other.overlaps range then
              reduceLinksFrom text excluded fuel cursor (open_ + 1) out
            else
              reduceLinksFrom text excluded fuel range.stop range.stop
                (out ++ slice text cursor range.start ++ slice text label.start label.stop)
          | none => reduceLinksFrom text excluded fuel cursor (open_ + 1) out

/-- Links replaced by what they display. -/
def reduceLinks (text : Text) : Text := reduceLinksFrom text (inlineExclusions text) (text.length + 1) 0 0 []

/-- A heading's comparison key: what is not a letter or digit folded to one space, lowercased and trimmed. -/
def headingKey (prim : Primitives) (text : Text) : Text :=
  trimEnd ((reduceLinks text).foldl (fun key c =>
    if prim.isAlphanumeric c then key ++ prim.toLowercase c
    else if !key.isEmpty && key.getLast? != some ' ' then key ++ [' ']
    else key) [])

/-! ## Sections -/

/-- Line indices: `start` to `stop` is the section, to `bodyStop` its body, to `ownStop` its own lines. -/
structure Section where
  heading : Option ℕ
  start : ℕ
  bodyStop : ℕ
  ownStop : ℕ
  stop : ℕ
deriving DecidableEq, Repr

/-- The heading a write names among those inside a range of lines: by its text, else by its key. -/
def Document.resolveWithin (prim : Primitives) (document : Document) (heading : Heading) (start stop : ℕ) :
    Option HeadingLine :=
  let headings := document.headings.filter fun candidate => start ≤ candidate.index ∧ candidate.index < stop
  let wanted := prim.lowercase (trim heading.text)
  let exact_ := headings.filter fun candidate => prim.lowercase (trim candidate.text) = wanted
  let matches_ :=
    if exact_.isEmpty then
      let wantedKey := headingKey prim heading.text
      if wantedKey.isEmpty then []
      else headings.filter fun candidate => headingKey prim candidate.text = wantedKey
    else exact_
  matches_[heading.ordinal]?.or matches_.getLast?

def Document.resolve (prim : Primitives) (document : Document) (heading : Heading) : Option HeadingLine :=
  document.resolveWithin prim heading 0 document.lines.length

/-- Step back over blank lines. -/
def trimBlankLines (lines : List Line) (start : ℕ) : ℕ → ℕ
  | 0 => 0
  | stop + 1 =>
    if start < stop + 1 ∧ lines[stop]?.any Line.isBlank then trimBlankLines lines start stop else stop + 1

/-- Step back over blank lines and one closing rule. -/
def Document.trimBlankEnd (document : Document) (start stop : ℕ) : ℕ :=
  let stop := trimBlankLines document.lines start stop
  if start < stop ∧ document.lines[stop - 1]?.any fun line => isThematicBreak line.text then
    trimBlankLines document.lines start (stop - 1)
  else stop

def Document.sectionOf (document : Document) (heading : HeadingLine) : Section :=
  let headings := document.headings
  let start := heading.index + 1
  let stop := ((headings.find? fun other => heading.index < other.index ∧ other.level ≤ heading.level).map
    HeadingLine.index).getD document.lines.length
  let bodyStop := document.trimBlankEnd start stop
  let ownStop := ((headings.find? fun other => heading.index < other.index ∧ other.index < bodyStop).map
    HeadingLine.index).getD bodyStop
  { heading := some heading.index, start, bodyStop, ownStop := document.trimBlankEnd start ownStop, stop }

/-- The whole file as a section; only blank lines are trimmed. -/
def Document.whole (document : Document) : Section :=
  let stop := document.lines.length
  let bodyStop := trimBlankLines document.lines 0 stop
  { heading := none, start := 0, bodyStop, ownStop := bodyStop, stop }

/-- The indices from one up to another. -/
def indices (start stop : ℕ) : List ℕ := List.range' start (stop - start)

/-- The body lines a line rule may match. -/
def Document.matchable (document : Document) (section_ : Section) : List (ℕ × Text) :=
  ((indices section_.start section_.bodyStop).filter fun index => !(document.protected_[index]?.getD false)).filterMap
    fun index => document.lines[index]?.map fun line => (index, line.text)

def Document.bodyTexts (document : Document) (section_ : Section) : List Text :=
  ((document.lines.take section_.bodyStop).drop section_.start).map Line.text

/-! ## Line identities -/

def stripListMarker (text : Text) : Text :=
  match text with
  | '-' :: ' ' :: rest => rest
  | '*' :: ' ' :: rest => rest
  | '+' :: ' ' :: rest => rest
  | _ =>
    let digits := (text.takeWhile Char.isDigit).length
    if 1 ≤ digits ∧ digits ≤ 9 then
      match text.drop digits with
      | '.' :: ' ' :: rest => rest
      | ')' :: ' ' :: rest => rest
      | _ => text
    else text

def stripCheckbox (text : Text) : Text :=
  match text with
  | '[' :: mark :: ']' :: ' ' :: rest => if mark = ' ' ∨ mark = 'x' ∨ mark = 'X' then rest else text
  | _ => text

def digitValue (c : Char) : ℕ := c.toNat - '0'.toNat

def numberOf (digits : Text) : ℕ := digits.foldl (fun n c => 10 * n + digitValue c) 0

/-- What follows `H:MM` or `HH:MM` at the start. -/
def parseTime (text : Text) : Option Text :=
  let hourDigits := ((text.take 2).takeWhile Char.isDigit).length
  if hourDigits = 0 then none
  else match text.drop hourDigits with
    | ':' :: m₁ :: m₂ :: rest =>
      if m₁.isDigit && m₂.isDigit then
        if numberOf (text.take hourDigits) > 23 ∨ numberOf [m₁, m₂] > 59 then none else some rest
      else none
    | _ => none

/-- What follows a range separator and an end time. -/
def parseRangeEnd (text : Text) : Option Text :=
  let trimmed := trimStart text
  ((stripPrefix ['–'] trimmed).or ((stripPrefix ['—'] trimmed).or ((stripPrefix ['-'] trimmed).or
    (stripPrefix ['t', 'o'] trimmed)))).bind fun after =>
      let afterSeparator := trimStart after
      match stripPrefix ['2', '4', ':', '0', '0'] afterSeparator with
      | some rest => some rest
      | none => parseTime afterSeparator

/-- The label after a time, which white space must set off. -/
def labelAfterToken (afterToken : Text) : Option Text :=
  if afterToken.isEmpty then some []
  else
    let rest := trimStart afterToken
    if rest.length < afterToken.length then some rest else none

def stripTimePrefix (text : Text) : Text :=
  match parseTime text with
  | none => text
  | some afterStart =>
    match (parseRangeEnd afterStart).bind labelAfterToken with
    | some rest => rest
    | none => (labelAfterToken afterStart).getD text

/-- Trailing comments cut off, one for each unit of fuel at most. -/
def stripComments : ℕ → Text → Text
  | 0, tail => tail
  | fuel + 1, tail =>
    match splitLast commentOpen tail with
    | none => tail
    | some (before, _) =>
      if ¬commentClose.isSuffixOf tail ∨ before.length + 4 > tail.length - 3 then tail
      else stripComments fuel (trimEnd before)

/-- The words of a text. -/
def words (text : Text) : List Text := (text.splitOnP isWhitespace).filter fun word => !word.isEmpty

/-- What a line is known by: marker, checkbox, time and trailing comments stripped, white space collapsed. -/
def normalizeLine (line : Text) : Text :=
  let line := (stripSuffix ['\n'] line).getD line
  let line := (stripSuffix ['\r'] line).getD line
  let rest := stripTimePrefix (stripCheckbox (stripListMarker (trimStart line)))
  let tail := stripComments rest.length (trimEnd rest)
  [' '].intercalate (words tail)

def lineHash (prim : Primitives) (line : Text) : Text := prim.shortHash (normalizeLine line)

def hashLines (prim : Primitives) (lines : List Text) : Text := prim.shortHash (joinLines lines)

end Thock.SyncCore
