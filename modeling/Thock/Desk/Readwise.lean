import Mathlib.Data.List.Dedup
import Mathlib.Data.List.Sort
import Thock.Lib.Occurrence
import Thock.Lib.Table
import Thock.SyncCore.Reminder
import Thock.SyncCore.Paths

/-!
# Readwise notes

The pure half of the Readwise sync: the category map, the rendering of sources and highlights
as notes, the markers read back from a note, the scan of the mapped folders, and the planner
that says which highlights are still to be written where.

What the date library reads in a time stamp, and the day of a moment in the vault's time zone,
are parameters.
-/

namespace Thock.Desk.Readwise

open TextScan SyncCore SyncCore.Reminder

/-! ## Configuration -/

def knownCategories : List Text := ["books", "articles", "tweets", "podcasts", "supplementals"].map String.toList

/-- One `[[sync]]` entry: sources of a category land as notes in a folder. -/
structure ReadwiseMapping where
  category : Text
  path : Text
deriving DecidableEq, Repr

/-- The category map; every category of it is one that Readwise knows. -/
structure ReadwiseConfig where
  mappings : List ReadwiseMapping
  known : ∀ mapping ∈ mappings, mapping.category ∈ knownCategories

/-- A text without the given characters at either end. -/
def trimMatches (p : Char → Bool) (t : Text) : Text := (t.dropWhile p).rdropWhile p

def defaultMappings : List ReadwiseMapping := [⟨"books".toList, "reference/readwise/books".toList⟩]

theorem defaultMappings_known : ∀ mapping ∈ defaultMappings, mapping.category ∈ knownCategories := by decide

def ReadwiseConfig.folderFor (config : ReadwiseConfig) (category : Text) : Option Text :=
  (config.mappings.find? fun mapping => mapping.category = category).map ReadwiseMapping.path

/-! ## Sources and highlights -/

structure ReadwiseHighlight where
  id : UInt64
  text : Text
  location : Option ℤ
  locationType : Option Text
  note : Option Text
  highlightedAt : Option Text
  createdAt : Option Text
  url : Option Text
  readwiseUrl : Option Text
  tags : List Text
  isDiscard : Bool
  isDeleted : Bool
deriving DecidableEq, Repr

structure ReadwiseSource where
  userBookId : UInt64
  title : Text
  author : Option Text
  category : Text
  coverImageUrl : Option Text
  sourceUrl : Option Text
  asin : Option Text
  bookTags : List Text
  isDeleted : Bool
  highlights : List ReadwiseHighlight
deriving DecidableEq, Repr

/-- What the date library reads in a time stamp, and the day of a moment in the vault's time zone. -/
structure Calendar where
  parseRfc3339 : Text → Option ℤ
  dayOf : ℤ → Day

/-- `highlighted_at`, falling back to `created_at`. -/
def ReadwiseHighlight.moment (calendar : Calendar) (highlight : ReadwiseHighlight) : Option ℤ :=
  (highlight.highlightedAt.toList ++ highlight.createdAt.toList).findSome? calendar.parseRfc3339

def ReadwiseHighlight.day (calendar : Calendar) (highlight : ReadwiseHighlight) : Option Day :=
  (highlight.moment calendar).map calendar.dayOf

/-! ## Markers -/

def markerPrefix : Text := "<!--rw:".toList

def markerSuffix : Text := "-->".toList

/-- The id of a marker, and its date when there is one. -/
def markerInner (id : UInt64) (day : Option Day) : Text :=
  decimal id.toNat ++ day.elim [] fun day => '@' :: dateText day

/-- `<!--rw:<id>@<YYYY-MM-DD>-->`, or without the date. -/
def highlightMarker (id : UInt64) (day : Option Day) : Text := markerPrefix ++ (markerInner id day ++ markerSuffix)

/-- A number of 64 bits in decimal digits, a plus sign allowed in front. -/
def parseU64 (text : Text) : Option UInt64 :=
  let digits := (stripPrefix ['+'] text).getD text
  if digits.isEmpty || !digits.all Char.isDigit then none
  else if numberOf digits < 2 ^ 64 then some (UInt64.ofNat (numberOf digits))
  else none

/-- The id a marker names, from what follows its prefix. -/
def chunkId (chunk : Text) : Option UInt64 := parseU64 (trim (firstPart ['@'] (firstPart markerSuffix chunk)))

/-- Every marker id in a text. -/
def scanMarkers (text : Text) : List UInt64 := ((splitText markerPrefix text).tail.filterMap chunkId).dedup

/-- The id a front matter line names. -/
def readwiseIdOfLine (line : Text) : Option UInt64 :=
  (stripPrefix "readwise_id:".toList line).bind fun rest => parseU64 (trimMatches (· = '"') (trim rest))

/-- The `readwise_id:` of a note's front matter. -/
def noteReadwiseId (content : Text) : Option UInt64 :=
  (stripPrefix "---\n".toList content).bind fun rest =>
    (splitFirst "\n---".toList rest).bind fun (frontmatter, _) => (lines frontmatter).findSome? readwiseIdOfLine

/-! ## Cleaning outside text -/

def collapseWhitespace (text : Text) : Text := [' '].intercalate (words text)

/-- Replace a pattern until it is gone, one pass for each unit of fuel at most. -/
def replaceUntilGone (p new : Text) : ℕ → Text → Text
  | 0, text => text
  | fuel + 1, text => if holds p text then replaceUntilGone p new fuel (replaceAll p new text) else text

/-- Break apart `[[` and `]]`; a pass splits every second pair of a run at least, so there are
fewer passes than characters. -/
def breakWikilinks (text : Text) : Text :=
  let opened := replaceUntilGone "[[".toList "[ [".toList text.length text
  replaceUntilGone "]]".toList "] ]".toList opened.length opened

/-- Highlight or note text as it goes into a line. -/
def cleanText (text : Text) : Text := collapseWhitespace (breakWikilinks (replaceAll "<!--".toList [] text))

def sanitizeTitle (raw : Text) : Text :=
  let title := collapseWhitespace (breakWikilinks (replaceAll "<!--".toList [] raw))
  if title.isEmpty then "(untitled)".toList else title

/-- The characters that no file system accepts in a name. -/
def isReserved (c : Char) : Bool := c ∈ ['/', '\\', ':', '*', '?', '"', '<', '>', '|']

/-- The file name a title gives, without its ending. -/
def noteStem (title : Text) : Text :=
  let replaced := (sanitizeTitle title).map fun c => if isReserved c then ' ' else c
  let whole := collapseWhitespace replaced
  let short := if whole.length > 120 then trimEnd (whole.take 120) else whole
  let stem := trimMatches (fun c => c = '.' || isWhitespace c) short
  if stem.isEmpty then "(untitled)".toList else stem

/-- A title with a counter, as a second note of the same title is named. -/
def countedStem (base : Text) (counter : ℕ) : Text := base ++ " (".toList ++ decimal counter ++ [')']

/-- The first name that is not taken; among as many counters as there are names, and one more, one is free. -/
def uniqueStem (base : Text) (taken : List Text) : Text :=
  if base ∉ taken then base
  else ((((List.range (taken.length + 1)).map fun i => countedStem base (i + 2)).find? fun stem => stem ∉ taken)).getD
    base

/-! ## Rendering -/

/-- `#a #b` from a tag list. -/
def tagList (tags : List Text) : Option Text :=
  let tags := (tags.map fun tag => (cleanText tag).map fun c => if c = ' ' then '-' else c).filter fun tag => !tag.isEmpty
  if tags.isEmpty then none else some ([' '].intercalate (tags.map ('#' :: ·)))

def timeOffsetLabel (seconds : ℤ) : Text :=
  let seconds := seconds.toNat
  if seconds / 3600 > 0 then
    decimal (seconds / 3600) ++ ':' :: padded 2 (seconds % 3600 / 60) ++ ':' :: padded 2 (seconds % 60)
  else decimal (seconds % 3600 / 60) ++ ':' :: padded 2 (seconds % 60)

def intText (n : ℤ) : Text := if n < 0 then '-' :: decimal n.natAbs else decimal n.toNat

def link (label url : Text) : Text := '[' :: label ++ "](".toList ++ url ++ [')']

/-- The location in parentheses after a highlight's text, where there is something to point at. -/
def locationLabel (highlight : ReadwiseHighlight) (source : ReadwiseSource) : Option Text :=
  let viewHighlight := highlight.readwiseUrl.map fun url => link "View Highlight".toList url
  match highlight.locationType.map String.ofList, highlight.location with
  | some "location", some location =>
    let label := "Location ".toList ++ intText location
    match source.asin.filter fun asin => !asin.isEmpty with
    | some asin =>
      some (link label ("https://readwise.io/to_kindle?action=open&asin=".toList ++ asin ++ "&location=".toList ++
        intText location))
    | none => some label
  | some "page", some page => some ("Page ".toList ++ intText page)
  | some "time_offset", some seconds =>
    let label := timeOffsetLabel seconds
    match (highlight.url.or source.sourceUrl).filter fun url => !url.isEmpty with
    | some url => some (link label url)
    | none => some (viewHighlight.getD label)
  | _, _ => viewHighlight

/-- A line of its own, where there is a text for it. -/
def lineOf (label : Text) (text : Option Text) (tail : Text) : Text :=
  (text.filter fun text => !text.isEmpty).elim [] fun text => label ++ (text ++ tail)

/-- One highlight as it lands in the note, line by line. -/
def renderHighlight (calendar : Calendar) (highlight : ReadwiseHighlight) (source : ReadwiseSource) : Text :=
  let location := (locationLabel highlight source).elim [] fun location => " (".toList ++ (location ++ [')'])
  let first := "- ".toList ++ (cleanText highlight.text ++ location) ++
    ' ' :: (highlightMarker highlight.id (highlight.day calendar) ++ ['\n'])
  [first, lineOf "    - Note: ".toList (highlight.note.map cleanText) ['\n'],
    lineOf "    - Tags: ".toList (tagList highlight.tags) ['\n']].flatten

def highlightsHeading : Text := "Highlights".toList

/-- The lines of a new note up to its first highlight. -/
def headLines (source : ReadwiseSource) : List Text :=
  let title := sanitizeTitle source.title
  ["---\nsource: readwise\n".toList,
    "readwise_id: ".toList ++ (decimal source.userBookId.toNat ++ ['\n']),
    "category: ".toList ++ (cleanText source.category ++ "\n---\n".toList),
    "# ".toList ++ (title ++ ['\n']),
    lineOf "\n![rw-book-cover](".toList (source.coverImageUrl.map collapseWhitespace) ")\n".toList,
    "\n## Metadata\n".toList,
    lineOf "- Author: [[".toList (source.author.map cleanText) "]]\n".toList,
    "- Full Title: ".toList ++ (title ++ ['\n']),
    "- Category: #".toList ++ (cleanText source.category ++ ['\n']),
    lineOf "- Tags: ".toList (tagList source.bookTags) ['\n'],
    lineOf "- URL: ".toList (source.sourceUrl.map collapseWhitespace) ['\n'],
    "\n## ".toList ++ (highlightsHeading ++ ['\n'])]

/-- A whole new note. -/
def renderNote (calendar : Calendar) (source : ReadwiseSource) (highlights : List ReadwiseHighlight) : Text :=
  (headLines source).flatten ++ (highlights.map fun highlight => renderHighlight calendar highlight source).flatten

/-! ## Appending to a note -/

/-- The lines of a text with their line feeds. -/
def inclusiveLines : Text → List Text
  | [] => []
  | c :: rest =>
    if c = '\n' then [c] :: inclusiveLines rest
    else match inclusiveLines rest with
      | [] => [[c]]
      | line :: more => (c :: line) :: more

/-- The `## Highlights` heading, decoration allowed. -/
def isHighlightsHeading (line : Text) : Bool :=
  (stripPrefix "## ".toList line).any fun rest =>
    (words (trim ((trim rest).rdropWhile (· = ':') |>.rdropWhile (· = '#')))).getLast?.any fun word =>
      eqIgnoreAsciiCase word highlightsHeading

def headingLevel (line : Text) : Option ℕ :=
  let hashes := (line.takeWhile (· = '#')).length
  if 0 < hashes ∧ [' '].isPrefixOf (line.drop hashes) = true then some hashes else none

/-- A replacement of a stretch of text. -/
structure Edit where
  range : Span
  newText : Text
deriving DecidableEq, Repr

/-- Apply disjoint edits back to front, so that earlier ranges stay valid. -/
def applyEdits (text : Text) (edits : List Edit) : Text :=
  (edits.insertionSort fun a b => b.range.start ≤ a.range.start).foldl
    (fun result edit =>
      if edit.range.start ≤ edit.range.stop ∧ edit.range.stop ≤ text.length then
        result.take edit.range.start ++ edit.newText ++ result.drop edit.range.stop
      else result) text

/-- The text of a line without its line feed. -/
def lineContent (segment : Text) : Text := (stripSuffix ['\n'] segment).getD segment

/-- The walk over the lines from an offset on: where the section's heading ends, and its last line that is not blank. -/
def sectionEnds : List Text → ℕ → Option ℕ → Option ℕ → Option ℕ × Option ℕ
  | [], _, headingEnd, lastContentEnd => (headingEnd, lastContentEnd)
  | segment :: rest, offset, headingEnd, lastContentEnd =>
    let stop := offset + segment.length
    match headingEnd with
    | none => sectionEnds rest stop (if isHighlightsHeading (lineContent segment) then some stop else none) lastContentEnd
    | some _ =>
      if (headingLevel (lineContent segment)).any (· ≤ 2) then (headingEnd, lastContentEnd)
      else sectionEnds rest stop headingEnd (if (trim (lineContent segment)).isEmpty then lastContentEnd else some stop)

/-- What stands before a heading put in at the end of a text. -/
def headingGap (text : Text) : Text :=
  if text.isEmpty then []
  else if "\n\n".toList.isSuffixOf text then []
  else if ['\n'].isSuffixOf text then ['\n']
  else "\n\n".toList

/-- The edit that lands lines at the end of the `## Highlights` section, or under the heading put in again. -/
def appendHighlightsEdit (text : Text) (lines : List Text) : Edit :=
  match sectionEnds (inclusiveLines text) 0 none none with
  | (some headingEnd, lastContentEnd) =>
    let anchor := lastContentEnd.getD headingEnd
    ⟨⟨anchor, anchor⟩, (if ['\n'].isSuffixOf (text.take anchor) then [] else ['\n']) ++ lines.flatten⟩
  | (none, _) =>
    ⟨⟨text.length, text.length⟩, headingGap text ++ "## ".toList ++ highlightsHeading ++ ['\n'] ++ lines.flatten⟩

/-! ## The scan -/

/-- A note of the vault by its folder and its name without `.md`. -/
structure NotePath where
  folder : Text
  stem : Text
deriving DecidableEq, Repr

structure ScannedNote where
  path : NotePath
  markers : List UInt64
deriving DecidableEq, Repr

/-- What one poll learned from the mapped folders: the note of a source, and the names taken in a folder. -/
structure ReadwiseVaultScan where
  notes : Table UInt64 ScannedNote
  stems : Table Text (List Text)

def ReadwiseVaultScan.record (scan : ReadwiseVaultScan) (path : NotePath) (content : Text) : ReadwiseVaultScan :=
  { stems := scan.stems.put path.folder (path.stem :: (scan.stems.get path.folder).getD [])
    notes := match noteReadwiseId content with
      | some readwiseId => scan.notes.put readwiseId ⟨path, scanMarkers content⟩
      | none => scan.notes }

/-- The highlights that ever landed, and the sources that ever had a note. -/
structure LandedState where
  highlights : List UInt64
  books : List UInt64
deriving DecidableEq, Repr

/-! ## The planner -/

inductive NoteWrite
  | create (contents : Text)
  | append (lines : List Text)
deriving DecidableEq, Repr

structure NoteChange where
  path : NotePath
  bookId : UInt64
  highlightIds : List UInt64
  write : NoteWrite
deriving DecidableEq, Repr

/-- The first highlight of each id, ids seen before left out. -/
def distinctHighlights : List UInt64 → List ReadwiseHighlight → List ReadwiseHighlight
  | _, [] => []
  | seen, highlight :: rest =>
    if highlight.id ∈ seen then distinctHighlights seen rest
    else highlight :: distinctHighlights (highlight.id :: seen) rest

/-- The order of an optional moment: a highlight without one comes first. -/
def momentLe : Option ℤ → Option ℤ → Bool
  | none, _ => true
  | some _, none => false
  | some a, some b => a ≤ b

/-- Whether a highlight comes before another: by location, the unlocated last, then by moment, then by id. -/
def sortsBefore (calendar : Calendar) (a b : ReadwiseHighlight) : Bool :=
  let location (highlight : ReadwiseHighlight) : ℤ := highlight.location.getD (2 ^ 63 - 1)
  if location a ≠ location b then location a < location b
  else if a.moment calendar ≠ b.moment calendar then momentLe (a.moment calendar) (b.moment calendar)
  else a.id ≤ b.id

def sortHighlights (calendar : Calendar) (highlights : List ReadwiseHighlight) : List ReadwiseHighlight :=
  highlights.insertionSort fun a b => sortsBefore calendar a b = true

/-- The highlights of a source that neither record knows. -/
def freshHighlights (landed : LandedState) (existing : Option ScannedNote) (source : ReadwiseSource) :
    List ReadwiseHighlight :=
  distinctHighlights [] (source.highlights.filter fun highlight =>
    !highlight.isDiscard && !highlight.isDeleted && highlight.id ∉ landed.highlights &&
      existing.all fun note => highlight.id ∉ note.markers)

/-- The plan for the sources left, with the names taken so far and the sources already planned. -/
def planFrom (calendar : Calendar) (config : ReadwiseConfig) (scan : ReadwiseVaultScan) (landed : LandedState) :
    Table Text (List Text) → List UInt64 → List ReadwiseSource → List NoteChange
  | _, _, [] => []
  | claimed, planned, source :: rest =>
    match config.folderFor source.category with
    | none => planFrom calendar config scan landed claimed planned rest
    | some folder =>
      if source.isDeleted || source.userBookId ∈ planned then
        planFrom calendar config scan landed claimed planned rest
      else
        let existing := scan.notes.get source.userBookId
        let fresh := sortHighlights calendar (freshHighlights landed existing source)
        let planned := source.userBookId :: planned
        if fresh.isEmpty then planFrom calendar config scan landed claimed planned rest
        else match existing with
          | some note =>
            ⟨note.path, source.userBookId, fresh.map ReadwiseHighlight.id,
                .append (fresh.map fun highlight => renderHighlight calendar highlight source)⟩ ::
              planFrom calendar config scan landed claimed planned rest
          | none =>
            let taken := (claimed.get folder).getD []
            let stem := uniqueStem (noteStem source.title) taken
            ⟨⟨folder, stem⟩, source.userBookId, fresh.map ReadwiseHighlight.id,
                .create (renderNote calendar source fresh)⟩ ::
              planFrom calendar config scan landed (claimed.put folder (stem :: taken)) planned rest

def planReadwiseSync (calendar : Calendar) (config : ReadwiseConfig) (scan : ReadwiseVaultScan) (landed : LandedState)
    (sources : List ReadwiseSource) : List NoteChange :=
  planFrom calendar config scan landed scan.stems [] sources

end Thock.Desk.Readwise
