import Thock.ThockKit.TextFile

/-!
# The phone editor's inline styles

Inline Markdown read into runs of styled text, and runs written back as the one form each style has. Escapes,
code spans, comments, links and emphasis are looked for in this order at each character; the text between
markers is read the same way, in the style that they add.

The writer escapes what would read as markup within its own run, and everything that can take part in markup
where the result reads back as other runs.
-/

namespace Thock.ThockKit.Inline

open TextScan
open SyncCore (Span)

/-- How the string library sorts characters. -/
structure Letters where
  isLetter : Char → Bool
  isNumber : Char → Bool

inductive LinkTarget
  /-- `[[target]]` or `[[target|label]]`. -/
  | note (target : Text)
  /-- `[label](destination)`. -/
  | web (destination : Text)
deriving DecidableEq, Repr

/-- The style of a run; a comment's text is the source, with the spaces before it. -/
structure Style where
  bold : Bool
  italic : Bool
  code : Bool
  strike : Bool
  link : Option LinkTarget
  comment : Bool
deriving DecidableEq, Repr

structure InlineRun where
  text : Text
  style : Style
deriving DecidableEq, Repr

def Style.plain : Style := ⟨false, false, false, false, none, false⟩

/-! ## Reading -/

def markup : Text := "*_`[]~\\".toList

def commentOpen : Text := "<!--".toList

/-- A backslash before a markup character, or before what would open a comment. -/
def isEscape (characters : Text) (index : ℕ) : Bool :=
  characters[index]? = some '\\' &&
    (characters[index + 1]?.any (markup.contains ·) || matches_ characters (index + 1) commentOpen)

/-- Where a token next stands, no backslash before it and no lone star taken from two. -/
def closing (characters token : Text) : ℕ → ℕ → Option ℕ
  | 0, _ => none
  | fuel + 1, index =>
    match characters[index]? with
    | none => none
    | some c =>
      if c = '\\' then closing characters token fuel (index + 2)
      else if matches_ characters index token then
        if token = ['*'] ∧ characters[index + 1]? = some '*' then closing characters token fuel (index + 2)
        else some index
      else closing characters token fuel (index + 1)

def closingFrom (characters : Text) (start : ℕ) (token : Text) : Option ℕ :=
  closing characters token (characters.length + 1) start

/-- The length of a code span's fence and where it closes. -/
def codeSpan (characters : Text) (index : ℕ) : Option (ℕ × ℕ) :=
  if characters[index]? = some '`' then
    let fence := ((characters.drop index).takeWhile (· = '`')).length
    (closingFrom characters (index + fence) (List.replicate fence '`')).map (fence, ·)
  else none

/-- The index behind the comment that starts at an index. -/
def commentEnd (characters : Text) (index : ℕ) : Option ℕ :=
  if matches_ characters index commentOpen then
    (closingFrom characters (index + 4) "-->".toList).map (· + 3)
  else none

structure ParsedLink where
  stop : ℕ
  label : Span
  target : LinkTarget
deriving DecidableEq, Repr

/-- The offset of the parenthesis that closes a destination without white space. -/
def bareDestinationClose : ℕ → Text → Option ℕ
  | _, [] => none
  | stop, c :: rest =>
    if c = ')' then some stop else if isWhitespace c then none else bareDestinationClose (stop + 1) rest

/-- A link as it stands, its destination not empty. -/
def parseInlineLink (characters : Text) (open_ : ℕ) : Option ParsedLink :=
  if characters[open_ + 1]? = some '[' then
    let innerStart := open_ + 2
    (wikiClose innerStart (characters.drop innerStart)).bind fun close =>
      if ¬innerStart < close then none
      else
        let inner := SyncCore.slice characters innerStart close
        if '|' ∈ inner then
          let bar := innerStart + inner.idxOf '|'
          if ¬(innerStart < bar ∧ bar + 1 < close) then none
          else some ⟨close + 2, ⟨bar + 1, close⟩, .note (SyncCore.slice characters innerStart bar)⟩
        else some ⟨close + 2, ⟨innerStart, close⟩, .note inner⟩
  else
    (labelClose (open_ + 1) (characters.drop (open_ + 1))).bind fun close =>
      if ¬(characters[close + 1]? = some '(' ∧ open_ + 1 < close) then none
      else (bareDestinationClose (close + 2) (characters.drop (close + 2))).bind fun stop =>
        if ¬close + 2 < stop then none
        else some ⟨stop + 1, ⟨open_ + 1, close⟩, .web (SyncCore.slice characters (close + 2) stop)⟩

/-- A bracket behind an exclamation mark opens an image, which stays text. -/
def link (characters : Text) (index : ℕ) : Option ParsedLink :=
  if characters[index]? = some '[' ∧ ¬(0 < index ∧ characters[index - 1]? = some '!') then
    parseInlineLink characters index
  else none

inductive Mark
  | bold
  | italic
  | strike
deriving DecidableEq, Repr

def Style.with (style : Style) : Mark → Style
  | .bold => { style with bold := true }
  | .italic => { style with italic := true }
  | .strike => { style with strike := true }

def delimiter (characters : Text) (index : ℕ) : Option (Text × Mark) :=
  if matches_ characters index "**".toList then some ("**".toList, .bold)
  else if matches_ characters index "__".toList then some ("__".toList, .bold)
  else if matches_ characters index "~~".toList then some ("~~".toList, .strike)
  else if characters[index]? = some '*' then some ("*".toList, .italic)
  else if characters[index]? = some '_' then some ("_".toList, .italic)
  else none

/-- An underscore inside a word is not emphasis. -/
def wordBoundaryAllows (letters : Letters) (token characters : Text) (open_ close : ℕ) : Bool :=
  let isWord := fun c => letters.isLetter c || letters.isNumber c
  if token.head? ≠ some '_' then true
  else
    let before := if 0 < open_ then (characters[open_ - 1]?).getD ' ' else ' '
    let after := (characters[close + token.length]?).getD ' '
    !isWord before && !isWord after

/-- The token, the style it adds and where it closes again. -/
def emphasis (letters : Letters) (characters : Text) (index : ℕ) : Option (Text × Mark × ℕ) :=
  (delimiter characters index).bind fun (token, mark) =>
    (closingFrom characters (index + token.length) token).bind fun close =>
      if index + token.length < close ∧ (characters[index + token.length]?).any (!isWhitespace ·) ∧
          (characters[close - 1]?).any (!isWhitespace ·) ∧ wordBoundaryAllows letters token characters index close then
        some (token, mark, close)
      else none

/-- The text read so far, as a run unless it is empty. -/
def flush (style : Style) (literal : Text) : List InlineRun := if literal.isEmpty then [] else [⟨literal, style⟩]

/-- A code span's text, without the padding that lets it start or end with a backtick. -/
def codeText (content : Text) : Text :=
  if 1 < content.length ∧ content.head? = some ' ' ∧ content.getLast? = some ' ' ∧ content.any (· ≠ ' ') then
    content.tail.dropLast
  else content

/-- The runs from an index on, `literal` being what was read as text right before it. -/
def parseFrom (letters : Letters) : ℕ → Text → Style → ℕ → Text → List InlineRun
  | 0, _, style, _, literal => flush style literal
  | fuel + 1, characters, style, index, literal =>
    match characters[index]? with
    | none => flush style literal
    | some c =>
      if isEscape characters index then
        parseFrom letters fuel characters style (index + 2) (literal ++ (characters[index + 1]?).toList)
      else if let some (fence, close) := codeSpan characters index then
        flush style literal ++
          ⟨codeText (SyncCore.slice characters (index + fence) close), { style with code := true }⟩ ::
            parseFrom letters fuel characters style (close + fence) []
      else if let some stop := commentEnd characters index then
        -- The spaces before a comment go with it.
        flush style (literal.rdropWhile (· = ' ')) ++
          ⟨literal.rtakeWhile (· = ' ') ++ SyncCore.slice characters index stop, { style with comment := true }⟩ ::
            parseFrom letters fuel characters style stop []
      else if let some parsed := link characters index then
        flush style literal ++
          (parseFrom letters fuel (SyncCore.slice characters parsed.label.start parsed.label.stop)
              { style with link := some parsed.target } 0 [] ++
            parseFrom letters fuel characters style parsed.stop [])
      else if let some (token, mark, close) := emphasis letters characters index then
        flush style literal ++
          (parseFrom letters fuel (SyncCore.slice characters (index + token.length) close) (style.with mark) 0 [] ++
            parseFrom letters fuel characters style (close + token.length) [])
      else parseFrom letters fuel characters style (index + 1) (literal ++ [c])

/-- Runs without the empty ones, neighbours of one style joined. -/
def merged : List InlineRun → List InlineRun
  | [] => []
  | run :: rest =>
    if run.text.isEmpty then merged rest
    else
      match merged rest with
      | [] => [run]
      | next :: more =>
        if run.style = next.style then ⟨run.text ++ next.text, run.style⟩ :: more else run :: next :: more

def parse (letters : Letters) (text : Text) : List InlineRun :=
  merged (parseFrom letters (text.length + 1) text .plain 0 [])

/-! ## Writing -/

/-- Whether only what would read as markup within its own run is escaped, or all that can take part in markup. -/
inductive Escaping
  | needed
  | all
deriving DecidableEq

/-- A link with all the runs of its label, or a single run outside a link. -/
structure Segment where
  link : Option LinkTarget
  runs : List InlineRun
deriving DecidableEq

def segments : List InlineRun → List Segment
  | [] => []
  | run :: rest =>
    match segments rest with
    | [] => [⟨run.style.link, [run]⟩]
    | next :: more =>
      if run.style.link ≠ none ∧ next.link = run.style.link then ⟨next.link, run :: next.runs⟩ :: more
      else ⟨run.style.link, [run]⟩ :: next :: more

/-- Whether reading would take the character at an index for the start of markup. -/
def opensMarkup (letters : Letters) (characters : Text) (index : ℕ) : Bool :=
  isEscape characters index || (codeSpan characters index).isSome || (commentEnd characters index).isSome ||
    (link characters index).isSome || (emphasis letters characters index).isSome

def escaped (letters : Letters) (escaping : Escaping) (text : Text) : Text :=
  text.zipIdx.flatMap fun (c, index) =>
    let escape :=
      match escaping with
      | .needed => opensMarkup letters text index
      | .all => markup.contains c || matches_ text index commentOpen
    if escape then ['\\', c] else [c]

/-- Markers hug the words: spaces at the ends stay outside them. -/
def hugging (text : Text) (wrap : Text → Text) : Text :=
  let core := (text.dropWhile (· = ' ')).rdropWhile (· = ' ')
  if core.isEmpty then text
  else text.takeWhile (· = ' ') ++ wrap core ++ text.rtakeWhile (· = ' ')

/-- The longest run of backticks, `current` of them standing right before. -/
def longestFence : ℕ → ℕ → Text → ℕ
  | _, longest, [] => longest
  | current, longest, c :: rest =>
    let current := if c = '`' then current + 1 else 0
    longestFence current (max longest current) rest

/-- A code span with a fence longer than any within it, padded where a backtick or backslash would touch it. -/
def fenced (code : Text) : Text :=
  let fence := List.replicate (longestFence 0 0 code + 1) '`'
  let padding :=
    if code.head? = some '`' ∨ code.getLast? = some '`' ∨ code.getLast? = some '\\' then [' '] else []
  fence ++ padding ++ code ++ padding ++ fence

def leaf (letters : Letters) (escaping : Escaping) (run : InlineRun) : Text :=
  if run.style.comment then run.text
  else if run.style.code then hugging run.text fenced
  else escaped letters escaping run.text

def Mark.marker : Mark → Text
  | .bold => "**".toList
  | .italic => "_".toList
  | .strike => "~~".toList

def Style.has (style : Style) : Mark → Bool
  | .bold => style.bold
  | .italic => style.italic
  | .strike => style.strike

def Style.without (style : Style) : Mark → Style
  | .bold => { style with bold := false }
  | .italic => { style with italic := false }
  | .strike => { style with strike := false }

def wrappers : List Mark := [.bold, .italic, .strike]

def Segment.isOn (segment : Segment) (mark : Mark) : Bool := segment.runs.all (·.style.has mark)

/-- Neighbouring segments that share a style share its markers. -/
def serializeLevels (write : Segment → Text) : List Mark → List Segment → Text
  | [], segments => segments.flatMap write
  | mark :: more, segments =>
    (segments.splitBy fun a b => a.isOn mark == b.isOn mark).flatMap fun group =>
      let inner := serializeLevels write more group
      if group.all (·.isOn mark) then hugging inner fun core => mark.marker ++ core ++ mark.marker else inner

/-- A segment outside a link. -/
def writtenPlain (letters : Letters) (escaping : Escaping) (segment : Segment) : Text :=
  segment.runs.flatMap (leaf letters escaping)

/-- The runs of a label, without the link and the styles that all of them have. -/
def labelRuns (runs : List InlineRun) : List InlineRun :=
  wrappers.foldl (fun runs mark =>
    if runs.all (·.style.has mark) then runs.map fun run => { run with style := run.style.without mark } else runs)
    (runs.map fun run => { run with style := { run.style with link := none } })

def written (letters : Letters) (escaping : Escaping) (segment : Segment) : Text :=
  match segment.link with
  | none => writtenPlain letters escaping segment
  | some target =>
    let label := labelRuns segment.runs
    let text := serializeLevels (writtenPlain letters escaping) wrappers (segments label)
    match target with
    | .note target =>
      if parse letters target = merged label then "[[".toList ++ target ++ "]]".toList
      else "[[".toList ++ target ++ '|' :: (text ++ "]]".toList)
    | .web destination => '[' :: (text ++ "](".toList ++ destination ++ [')'])

def serialize (letters : Letters) (runs : List InlineRun) : Text :=
  let parts := segments (merged runs)
  let needed := serializeLevels (written letters .needed) wrappers parts
  let all_ := serializeLevels (written letters .all) wrappers parts
  if parse letters needed = parse letters all_ then needed else all_

end Thock.ThockKit.Inline
