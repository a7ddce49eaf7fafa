import Mathlib.Data.List.Nodup
import Thock.Desk.Readwise
import Thock.Lib.Rows
import Thock.Lib.TextBytes
import Thock.Lib.Transition

/-!
# Inbox capture

One note for each captured item, planned from what the transports return, and the two guards against a second
one: the saved state, and the digests read back from the notes in the landing folder and the triage log.

A note has one of three names, the first that is free. When all three are claimed, which titles that spell
another item's digest can bring about, the last is used again.
-/

namespace Thock.Desk.Inbox

open TextScan SyncCore Transition

/-! ## Captured items -/

structure Moment where
  /-- Nanoseconds of universal time. -/
  instant : ℤ
  /-- Seconds east of it. -/
  offset : ℤ
deriving DecidableEq, Repr

/-- What the digest and the date library give. -/
structure Host where
  sha256 : Bytes → Vector UInt8 32
  parseRfc3339 : Text → Option Moment
  /-- The moment as `%Y-%m-%d-%H%M`, at its own offset. -/
  stamp : Moment → Text

/-- The name of a transport, which is one line. -/
structure SourceId where
  text : Text
  oneLine : '\n' ∉ text ∧ '\r' ∉ text
deriving DecidableEq

structure CapturedItem where
  source : SourceId
  externalId : Text
  title : Text
  from_ : Option Text
  url : Option Text
  link : Option Text
  body : Option Text
  occurredAt : Option Moment
  due : Option Day
deriving DecidableEq

/-- A byte as two digits. -/
def byteHex (byte : UInt8) : Text := [Nat.digitChar (byte.toNat / 16), Nat.digitChar (byte.toNat % 16)]

/-- The first twelve hex digits of the hash of the account, the source and the id. -/
def captureDigest (host : Host) (account source externalId : Text) : Text :=
  ((host.sha256 (asBytes account ++ 0 :: (asBytes source ++ 0 :: asBytes externalId))).toList.take 6).flatMap byteHex

def CapturedItem.digest (host : Host) (account : Text) (item : CapturedItem) : Text :=
  captureDigest host account item.source.text item.externalId

def sanitizeTitle (raw : Text) : Text :=
  let title := Readwise.collapseWhitespace (Readwise.breakWikilinks (replaceAll "<!--".toList [] raw))
  if title.isEmpty then "(untitled)".toList else title

/-- The letters and digits in lower case with one dash between runs of them, sixty characters at most. -/
def slugFrom : ℕ → Bool → Text → Text
  | _, _, [] => []
  | count, lastDash, c :: rest =>
    if c.isAlphanum then
      if 60 ≤ count + 1 then [c.toLower] else c.toLower :: slugFrom (count + 1) false rest
    else if !lastDash then
      if 60 ≤ count + 1 then ['-'] else '-' :: slugFrom (count + 1) true rest
    else slugFrom count true rest

def slug (text fallback : Text) : Text :=
  let out := Readwise.trimMatches (· = '-') (slugFrom 0 true text)
  if out.isEmpty then fallback else out

/-! ## The note -/

/-- A front matter line, its key padded to nine characters. -/
def fieldLine (key value : Text) : Text :=
  key ++ ':' :: (List.replicate (9 - (key.length + 1)) ' ' ++ ' ' :: value)

def frontMatter (item : CapturedItem) (title digest capturedAt : Text) : List Text :=
  fieldLine "source".toList item.source.text :: fieldLine "capture".toList digest ::
    fieldLine "captured".toList capturedAt :: fieldLine "title".toList title ::
      ((item.from_.map fun from_ => fieldLine "from".toList (Readwise.collapseWhitespace from_)).toList ++
        (item.url.map fun url => fieldLine "url".toList (Readwise.collapseWhitespace url)).toList ++
        (item.link.map fun link => fieldLine "link".toList (Readwise.collapseWhitespace link)).toList ++
        (item.due.map fun due => fieldLine "due".toList (Reminder.dateText due)).toList)

/-- What stands below the front matter: the title, the link and the item's text, or that there is none. -/
def noteText (item : CapturedItem) (title : Text) : Text :=
  let body := (item.body.map trim).filter fun body => !body.isEmpty
  "# ".toList ++ title ++ ['\n'] ++
    (item.url.elim [] fun url => '\n' :: (Readwise.collapseWhitespace url ++ ['\n'])) ++
    match body with
    | some body => '\n' :: (body ++ ['\n'])
    | none => if item.url.isNone then "\n_(no content)_\n".toList else []

def renderInboxNote (item : CapturedItem) (title digest capturedAt : Text) : Text :=
  "---\n".toList ++ (Rows.joined (frontMatter item title digest capturedAt) ++ ("---\n\n".toList ++ noteText item title))

/-- The digest a front matter line names. -/
def captureOfLine (line : Text) : Option Text :=
  (stripPrefix "capture:".toList line).bind fun rest => if (trim rest).isEmpty then none else some (trim rest)

/-- The digest in an inbox note's front matter. -/
def inboxNoteDigest (content : Text) : Option Text :=
  (stripPrefix "---\n".toList content).bind fun rest =>
    (splitFirst "\n---".toList rest).bind fun (frontmatter, _) => (lines frontmatter).findSome? captureOfLine

def markerPrefix : Text := "<!--inbox:".toList

def markerSuffix : Text := "-->".toList

/-- The digest a marker names, from what follows its prefix. -/
def chunkDigest (chunk : Text) : Option Text :=
  let id := trim (firstPart markerSuffix chunk)
  if !id.isEmpty && decide ((asBytes id).length ≤ 64) && !id.contains '\n' then some id else none

def scanTriageLogMarkers (text : Text) : List Text := (splitText markerPrefix text).tail.filterMap chunkDigest

/-! ## The plan -/

structure InboxFile where
  relPath : Text
  stem : Text
  digest : Text
  content : Text
deriving DecidableEq

structure ImportRecord where
  digest : Text
  source : SourceId
  externalId : Text
  title : Text
deriving DecidableEq

structure InboxPlan where
  files : List InboxFile
  newlyImported : List ImportRecord
deriving DecidableEq

def notePath (dir stem : Text) : Text := dir ++ '/' :: (stem ++ ".md".toList)

/-- Items without a moment come first, the others by the time they stand for. -/
def momentLe : Option Moment → Option Moment → Bool
  | none, _ => true
  | some _, none => false
  | some a, some b => a.instant ≤ b.instant

/-- What a poll plans with. -/
structure Poll where
  host : Host
  account : Text
  imported : List Text
  vaultDigests : List Text
  dir : Text
  capturedAt : Text

/-- The names an item's note may have, in the order they are tried. -/
def Poll.candidates (poll : Poll) (item : CapturedItem) : List Text :=
  let digest := item.digest poll.host poll.account
  let moment := item.occurredAt.or (poll.host.parseRfc3339 poll.capturedAt)
  let stamp := (moment.map poll.host.stamp).getD "undated".toList
  let base := stamp ++ '-' :: slug (sanitizeTitle item.title) "item".toList
  [base, base ++ '-' :: digest.take 4, base ++ '-' :: digest]

/-- The first name that is not claimed, or else the last. -/
def Poll.stem (poll : Poll) (item : CapturedItem) (claimed : List Text) : Text :=
  let names := poll.candidates item
  (names.find? fun name => !claimed.contains name).getD (names.getLast?.getD [])

def Poll.planFrom (poll : Poll) : List CapturedItem → List Text → List Text → InboxPlan
  | [], _, _ => ⟨[], []⟩
  | item :: rest, planned, claimed =>
    let digest := item.digest poll.host poll.account
    if poll.imported.contains digest || planned.contains digest then poll.planFrom rest planned claimed
    else
      let title := sanitizeTitle item.title
      let record := ⟨digest, item.source, item.externalId, title⟩
      -- A digest in a note or the log means the state lost the item: it is repaired, no second file is written.
      if poll.vaultDigests.contains digest then
        let plan := poll.planFrom rest (digest :: planned) claimed
        { plan with newlyImported := record :: plan.newlyImported }
      else
        let stem := poll.stem item claimed
        let file := ⟨notePath poll.dir stem, stem, digest, renderInboxNote item title digest poll.capturedAt⟩
        let plan := poll.planFrom rest (digest :: planned) (stem :: claimed)
        ⟨file :: plan.files, record :: plan.newlyImported⟩

def planInboxCapture (poll : Poll) (items : List CapturedItem) (takenStems : List Text) : InboxPlan :=
  poll.planFrom (items.mergeSort fun a b => momentLe a.occurredAt b.occurredAt) [] takenStems

/-! ## Polls and what happens between them -/

structure InboxNote where
  stem : Text
  content : Text
deriving DecidableEq

/-- The landing folder, the triage log and the saved state, and the notes that were ever written. -/
structure World where
  notes : List InboxNote
  log : Text
  imported : List Text
  written : List InboxFile
deriving DecidableEq

/-- What a poll finds: the saved state, and the digests scanned from the folder and the log. -/
def World.poll (host : Host) (account dir : Text) (w : World) (capturedAt : Text) : Poll :=
  ⟨host, account, w.imported, w.notes.filterMap (fun note => inboxNoteDigest note.content) ++ scanTriageLogMarkers w.log,
    dir, capturedAt⟩

def World.plan (host : Host) (account dir : Text) (w : World) (items : List CapturedItem) (capturedAt : Text) : InboxPlan :=
  planInboxCapture (w.poll host account dir capturedAt) items (w.notes.map InboxNote.stem)

/-- A note is written unless one of its name is there. -/
def World.write (w : World) (file : InboxFile) : World :=
  if file.stem ∈ w.notes.map InboxNote.stem then w
  else { w with notes := w.notes ++ [⟨file.stem, file.content⟩], written := w.written ++ [file] }

def marker (digest : Text) : Text := markerPrefix ++ digest ++ markerSuffix

/-- A written note is where it was, or its marker is in the log. -/
def World.Holds (w : World) (file : InboxFile) : Prop :=
  ⟨file.stem, file.content⟩ ∈ w.notes ∨ marker file.digest <:+: w.log

inductive Action
  /-- A poll, of whose notes some are written, and after which the state holds some digests. -/
  | poll (items : List CapturedItem) (capturedAt : Text) (applied : List InboxFile) (imported : List Text)
  /-- The folder and the log are edited. -/
  | edit (notes : List InboxNote) (log : Text)

/-- One step: a poll writes some of the notes it planned and the state may be saved in part or lost; an edit
leaves every written note in the folder or its marker in the log. -/
def Next (host : Host) (account dir : Text) (w : World) (action : Action) (t : World) : Prop :=
  match action with
  | .poll items capturedAt applied imported =>
    let plan := w.plan host account dir items capturedAt
    applied.Sublist plan.files ∧
      (∀ digest ∈ imported, digest ∈ w.imported ∨ digest ∈ plan.newlyImported.map ImportRecord.digest) ∧
      t = { applied.foldl World.write w with imported := imported }
  | .edit notes log =>
    t = { w with notes := notes, log := log } ∧ ∀ file ∈ w.written, t.Holds file

def Initial (w : World) : Prop := w.written = []

/-! ## What is written reads back -/

theorem mem_byteHex {c : Char} {byte : UInt8} (h : c ∈ byteHex byte) : c ∈ "0123456789abcdef".toList := by
  have hdigit : ∀ n < 16, Nat.digitChar n ∈ "0123456789abcdef".toList := by decide
  have hbyte : byte.toNat < 256 := byte.toNat_lt
  cases List.mem_cons.mp h with
  | inl hfirst =>
    rw [hfirst]
    exact hdigit _ (by omega)
  | inr hrest =>
    rw [List.mem_singleton.mp hrest]
    exact hdigit _ (by omega)

/-- The characters of a digest are hex digits. -/
theorem mem_captureDigest {host : Host} {account source externalId : Text} {c : Char}
    (h : c ∈ captureDigest host account source externalId) : c ∈ "0123456789abcdef".toList := by
  obtain ⟨byte, -, hc⟩ := List.mem_flatMap.mp h
  exact mem_byteHex hc

theorem length_captureDigest (host : Host) (account source externalId : Text) :
    (captureDigest host account source externalId).length = 12 := by
  have hbytes : ∀ bytes : List UInt8, (bytes.flatMap byteHex).length = 2 * bytes.length := by
    intro bytes
    induction bytes with
    | nil => rfl
    | cons byte rest ih =>
      rw [List.flatMap_cons, List.length_append, ih, List.length_cons]
      simp only [byteHex, List.length_cons, List.length_nil]
      omega
  rw [captureDigest, hbytes, List.length_take, Vector.length_toList]
  rfl

theorem not_mem_captureDigest {host : Host} {account source externalId : Text} {c : Char}
    (hc : c ∉ "0123456789abcdef".toList) : c ∉ captureDigest host account source externalId :=
  fun h => hc (mem_captureDigest h)

theorem trim_captureDigest (host : Host) (account source externalId : Text) :
    trim (captureDigest host account source externalId) = captureDigest host account source externalId := by
  have hblack : ∀ c ∈ captureDigest host account source externalId, isWhitespace c = false := by
    intro c hc
    have hall : ∀ d ∈ "0123456789abcdef".toList, isWhitespace d = false := by decide
    exact hall c (mem_captureDigest hc)
  exact trim_of_tight (fun c hc => hblack c (List.mem_of_mem_head? hc)) fun c hc => hblack c (List.mem_of_getLast? hc)

theorem captureDigest_isEmpty (host : Host) (account source externalId : Text) :
    (captureDigest host account source externalId).isEmpty = false := by
  have hlength := length_captureDigest host account source externalId
  cases hdigest : captureDigest host account source externalId with
  | nil => simp [hdigest] at hlength
  | cons c rest => rfl

/-- A terminator that does not follow a line is looked for in the lines after it. -/
theorem splitFirst_after_line {p a b : Text} (ha : '\n' ∉ a) (hb : ¬p <+: b) :
    splitFirst ('\n' :: p) (a ++ '\n' :: b) = (splitFirst ('\n' :: p) b).map fun r => (a ++ '\n' :: r.1, r.2) := by
  induction a with
  | nil =>
    have hnot : ('\n' :: p).isPrefixOf ('\n' :: b) = false := by
      rw [Bool.eq_false_iff, ne_eq, List.isPrefixOf_iff_prefix, List.cons_prefix_cons]
      exact fun h => hb h.2
    rw [List.nil_append, splitFirst, if_neg (by simp [hnot])]
    rfl
  | cons c rest ih =>
    have hc : c ≠ '\n' := fun heq => ha (heq ▸ List.mem_cons_self)
    have hnot : ('\n' :: p).isPrefixOf (c :: (rest ++ '\n' :: b)) = false := by
      rw [Bool.eq_false_iff, ne_eq, List.isPrefixOf_iff_prefix, List.cons_prefix_cons]
      exact fun h => hc h.1.symm
    rw [List.cons_append, splitFirst, if_neg (by simp [hnot]), ih fun hmem => ha (List.mem_cons_of_mem c hmem),
      Option.map_map]
    rfl

/-- Lines are closed by a terminator that follows the last of them, or earlier. -/
theorem splitFirst_joined {ls : List Text} (hne : ls ≠ []) (p after : Text) :
    ∃ r, splitFirst ('\n' :: p) (Rows.joined ls ++ (p ++ after)) = some r := by
  obtain ⟨init, last, rfl⟩ := (List.eq_nil_or_concat ls).resolve_left hne
  have hsome := splitFirst_isSome ('\n' :: p) (Rows.joined init ++ last) after
  have htext : Rows.joined (init.concat last) ++ (p ++ after) = Rows.joined init ++ last ++ '\n' :: p ++ after := by
    simp
  rw [htext]
  exact Option.isSome_iff_exists.mp hsome

/-- A front matter line begins with its key, and no other line of the note comes between it and the next. -/
theorem not_prefix_field {p key value : Text} (h : p.head? ≠ key.head?) (hp : p ≠ []) (hkey : key ≠ []) (rest : Text) :
    ¬p <+: fieldLine key value ++ rest := by
  intro hprefix
  obtain ⟨more, hmore⟩ := hprefix
  apply h
  have hhead := congrArg List.head? hmore
  rwa [List.head?_append_of_ne_nil _ hp, fieldLine, List.append_assoc, List.head?_append_of_ne_nil _ hkey] at hhead

theorem no_break_fieldLine {c : Char} {key value : Text} (hkey : c ∉ key) (hcolon : c ≠ ':') (hspace : c ≠ ' ')
    (hvalue : c ∉ value) : c ∉ fieldLine key value := by
  simp only [fieldLine, List.mem_append, List.mem_cons, List.mem_replicate]
  rintro (h | h | ⟨-, h⟩ | h | h)
  · exact hkey h
  · exact hcolon h
  · exact hspace h
  · exact hspace h
  · exact hvalue h

/-- The line of a digest names it. -/
theorem captureOfLine_capture {digest : Text} (htrim : trim digest = digest) (hne : digest.isEmpty = false) :
    captureOfLine (fieldLine "capture".toList digest) = some digest := by
  have hline : fieldLine "capture".toList digest = "capture:".toList ++ ("  ".toList ++ digest) := by
    simp [fieldLine]
  have hblank : Blank "  ".toList := by decide
  rw [captureOfLine, stripPrefix_eq_some.mpr hline, Option.bind_some, trim_append_of_blank_left hblank, htrim, hne]
  rfl

/-- The line of a source names no digest. -/
theorem captureOfLine_source (source : Text) : captureOfLine (fieldLine "source".toList source) = none := by
  have hstrip : stripPrefix "capture:".toList (fieldLine "source".toList source) = none := by
    rw [stripPrefix, if_neg]
    simp [fieldLine]
  rw [captureOfLine, hstrip]
  rfl

/-- A line feed ends a line that has no return in it. -/
theorem lines_cons {a b : Text} (ha : '\n' ∉ a) (hreturn : '\r' ∉ a) : lines (a ++ '\n' :: b) = a :: lines b := by
  have hchomp : chomp a = a := by
    unfold chomp
    cases hstrip : stripSuffix ['\r'] a with
    | none => rfl
    | some rest =>
      rw [stripSuffix_eq_some] at hstrip
      exact absurd (by rw [hstrip]; simp) hreturn
  have hpieces : pieces b ≠ [] := List.splitOn_ne_nil '\n' b
  unfold lines
  rw [pieces_append_newline, pieces_of_no_newline ha, List.singleton_append, List.dropLast_cons_of_ne_nil hpieces,
    List.getLast?_cons_of_ne_nil hpieces, List.map_cons, hchomp, List.cons_append]

/-- The digest of a rendered note reads back, whatever its title, sender and body. -/
theorem inboxNoteDigest_render (host : Host) (account : Text) (item : CapturedItem) (title capturedAt : Text) :
    inboxNoteDigest (renderInboxNote item title (item.digest host account) capturedAt) =
      some (item.digest host account) := by
  generalize hdigest : item.digest host account = digest
  have hclean : ∀ c, c ∉ "0123456789abcdef".toList → c ∉ digest := fun c hc => hdigest ▸ not_mem_captureDigest hc
  obtain ⟨others, hothers⟩ : ∃ others, frontMatter item title digest capturedAt =
      fieldLine "source".toList item.source.text :: fieldLine "capture".toList digest ::
        fieldLine "captured".toList capturedAt :: others := ⟨_, rfl⟩
  obtain ⟨after, hcontent⟩ : ∃ after, renderInboxNote item title digest capturedAt =
      "---\n".toList ++ (Rows.joined (frontMatter item title digest capturedAt) ++ ("---".toList ++ after)) := ⟨"\n\n".toList ++ noteText item title, rfl⟩
  obtain ⟨r, hrest⟩ := @splitFirst_joined (fieldLine "captured".toList capturedAt :: others) (by simp) "---".toList after
  have hsplit : splitFirst "\n---".toList
      (Rows.joined (frontMatter item title digest capturedAt) ++ ("---".toList ++ after)) =
        some (fieldLine "source".toList item.source.text ++ '\n' :: (fieldLine "capture".toList digest ++ '\n' :: r.1), r.2) := by
    have hsource : '\n' ∉ fieldLine "source".toList item.source.text :=
      no_break_fieldLine (by decide) (by decide) (by decide) item.source.oneLine.1
    have hcapture : '\n' ∉ fieldLine "capture".toList digest :=
      no_break_fieldLine (by decide) (by decide) (by decide) (hclean _ (by decide))
    rw [hothers, Rows.joined_cons, Rows.joined_cons, List.append_assoc, List.cons_append, List.append_assoc, List.cons_append]
    change splitFirst ('\n' :: "---".toList) _ = _
    rw [splitFirst_after_line hsource (not_prefix_field (by decide) (by decide) (by decide) _),
      splitFirst_after_line hcapture, hrest]
    · rfl
    · rw [Rows.joined_cons, List.append_assoc]
      exact not_prefix_field (by decide) (by decide) (by decide) _
  have hlines : lines (fieldLine "source".toList item.source.text ++ '\n' :: (fieldLine "capture".toList digest ++ '\n' :: r.1)) =
      fieldLine "source".toList item.source.text :: fieldLine "capture".toList digest :: lines r.1 := by
    rw [lines_cons, lines_cons]
    · exact no_break_fieldLine (by decide) (by decide) (by decide) (hclean _ (by decide))
    · exact no_break_fieldLine (by decide) (by decide) (by decide) (hclean _ (by decide))
    · exact no_break_fieldLine (by decide) (by decide) (by decide) item.source.oneLine.1
    · exact no_break_fieldLine (by decide) (by decide) (by decide) item.source.oneLine.2
  have htrim : trim digest = digest := hdigest ▸ trim_captureDigest host account item.source.text item.externalId
  have hne : digest.isEmpty = false := hdigest ▸ captureDigest_isEmpty host account item.source.text item.externalId
  simp only [inboxNoteDigest, stripPrefix_eq_some.mpr hcontent, Option.bind_some, hsplit, hlines]
  rw [List.findSome?_cons, captureOfLine_source, List.findSome?_cons, captureOfLine_capture htrim hne]

theorem length_asBytes_le (text : Text) : (asBytes text).length ≤ 4 * text.length := by
  rw [length_asBytes]
  induction text with
  | nil => exact Nat.le_refl 0
  | cons c rest ih =>
    have hsize := c.utf8Size_le_four
    rw [List.map_cons, List.sum_cons, List.length_cons]
    omega

/-- A digest whose marker stands in the log is scanned from it. -/
theorem mem_scanTriageLogMarkers (host : Host) (account : Text) (item : CapturedItem) {log : Text}
    (h : marker (item.digest host account) <:+: log) : item.digest host account ∈ scanTriageLogMarkers log := by
  generalize hdigest : item.digest host account = digest at h ⊢
  have hclean : ∀ c, c ∉ "0123456789abcdef".toList → c ∉ digest := fun c hc => hdigest ▸ not_mem_captureDigest hc
  obtain ⟨before, after, hlog⟩ := h
  have hprefix : markerPrefix = '<' :: "!--inbox:".toList := by decide
  have hsuffix : markerSuffix = "--".toList ++ ['>'] := by decide
  have hlogged : log = before ++ '<' :: "!--inbox:".toList ++ (digest ++ markerSuffix ++ after) := by
    rw [← hlog, marker, hprefix]
    simp
  have hopen : '<' ∉ digest ++ markerSuffix := by
    rw [List.mem_append]
    exact not_or.mpr ⟨hclean _ (by decide), by decide⟩
  have hinner : ∀ more, firstPart markerSuffix (digest ++ markerSuffix ++ more) = digest := by
    intro more
    rw [firstPart, hsuffix, splitFirst_of_last _ more (hclean _ (by decide)) (by decide)]
    rfl
  rw [scanTriageLogMarkers, List.mem_filterMap, hprefix]
  refine ⟨_, (mem_tail_splitText (by decide)).mpr ⟨before, _, hlogged, rfl⟩, ?_⟩
  have htrim : trim digest = digest := hdigest ▸ trim_captureDigest host account item.source.text item.externalId
  have hne : digest.isEmpty = false := hdigest ▸ captureDigest_isEmpty host account item.source.text item.externalId
  have hlength : (asBytes digest).length ≤ 64 := by
    have hbytes := length_asBytes_le digest
    have htwelve := length_captureDigest host account item.source.text item.externalId
    rw [CapturedItem.digest] at hdigest
    rw [hdigest] at htwelve
    omega
  have hbreak : digest.contains '\n' = false := by simpa using hclean _ (by decide)
  rw [firstPart_append _ hopen, chunkDigest, hinner, htrim, hne, hbreak]
  simp [hlength]

/-! ## What a plan holds -/

/-- Each item the poll writes a note for finds in its turn one of its names free. -/
def Poll.NamesFree (poll : Poll) : List CapturedItem → List Text → List Text → Prop
  | [], _, _ => True
  | item :: rest, planned, claimed =>
    let digest := item.digest poll.host poll.account
    if poll.imported.contains digest || planned.contains digest then poll.NamesFree rest planned claimed
    else if poll.vaultDigests.contains digest then poll.NamesFree rest (digest :: planned) claimed
    else (∃ name ∈ poll.candidates item, name ∉ claimed) ∧
      poll.NamesFree rest (digest :: planned) (poll.stem item claimed :: claimed)

def Poll.decNamesFree (poll : Poll) :
    (items : List CapturedItem) → (planned claimed : List Text) → Decidable (poll.NamesFree items planned claimed)
  | [], _, _ => inferInstanceAs (Decidable True)
  | item :: rest, planned, claimed =>
    have : ∀ planned claimed, Decidable (poll.NamesFree rest planned claimed) := poll.decNamesFree rest
    inferInstanceAs (Decidable
      (if poll.imported.contains (item.digest poll.host poll.account) ||
          planned.contains (item.digest poll.host poll.account) then poll.NamesFree rest planned claimed
      else if poll.vaultDigests.contains (item.digest poll.host poll.account) then
        poll.NamesFree rest (item.digest poll.host poll.account :: planned) claimed
      else (∃ name ∈ poll.candidates item, name ∉ claimed) ∧
        poll.NamesFree rest (item.digest poll.host poll.account :: planned) (poll.stem item claimed :: claimed)))

instance (poll : Poll) (items : List CapturedItem) (planned claimed : List Text) :
    Decidable (poll.NamesFree items planned claimed) := poll.decNamesFree items planned claimed

/-- A file renders an item of the poll under its digest, which was neither planned before nor in the vault. -/
structure Poll.Fresh (poll : Poll) (items : List CapturedItem) (planned : List Text) (file : InboxFile) : Prop where
  item : ∃ item ∈ items, file.digest = item.digest poll.host poll.account ∧
    file.content = renderInboxNote item (sanitizeTitle item.title) file.digest poll.capturedAt
  planned : file.digest ∉ planned
  vault : file.digest ∉ poll.vaultDigests
  relPath : file.relPath = notePath poll.dir file.stem

theorem Poll.Fresh.later {poll : Poll} {rest : List CapturedItem} {planned : List Text} {file : InboxFile}
    (h : poll.Fresh rest planned file) (item : CapturedItem) : poll.Fresh (item :: rest) planned file where
  item := by
    obtain ⟨other, hother, hfile⟩ := h.item
    exact ⟨other, List.mem_cons_of_mem item hother, hfile⟩
  planned := h.planned
  vault := h.vault
  relPath := h.relPath

theorem Poll.Fresh.unplanned {poll : Poll} {items : List CapturedItem} {planned : List Text} {digest : Text}
    {file : InboxFile} (h : poll.Fresh items (digest :: planned) file) : poll.Fresh items planned file where
  item := h.item
  planned := fun hmem => h.planned (List.mem_cons_of_mem digest hmem)
  vault := h.vault
  relPath := h.relPath

/-- The note a poll plans for an item. -/
def Poll.file (poll : Poll) (item : CapturedItem) (claimed : List Text) : InboxFile :=
  let digest := item.digest poll.host poll.account
  let stem := poll.stem item claimed
  ⟨notePath poll.dir stem, stem, digest, renderInboxNote item (sanitizeTitle item.title) digest poll.capturedAt⟩

/-- An item is passed over when its digest is known, and otherwise its note is planned before those of the rest. -/
theorem Poll.planFrom_files (poll : Poll) (item : CapturedItem) (rest : List CapturedItem) (planned claimed : List Text) :
    (poll.planFrom (item :: rest) planned claimed).files =
      if poll.imported.contains (item.digest poll.host poll.account) ||
          planned.contains (item.digest poll.host poll.account) then (poll.planFrom rest planned claimed).files
      else if poll.vaultDigests.contains (item.digest poll.host poll.account) then
        (poll.planFrom rest (item.digest poll.host poll.account :: planned) claimed).files
      else poll.file item claimed ::
        (poll.planFrom rest (item.digest poll.host poll.account :: planned) (poll.stem item claimed :: claimed)).files := by
  simp only [Poll.planFrom]
  rw [apply_ite InboxPlan.files, apply_ite InboxPlan.files]
  rfl

theorem Poll.fresh_of_mem (poll : Poll) (items : List CapturedItem) (planned claimed : List Text) :
    ∀ file ∈ (poll.planFrom items planned claimed).files, poll.Fresh items planned file := by
  induction items generalizing planned claimed with
  | nil => exact fun file h => absurd h List.not_mem_nil
  | cons item rest ih =>
    intro file hfile
    rw [Poll.planFrom_files] at hfile
    split at hfile
    · exact (ih planned claimed file hfile).later item
    · rename_i hnew
      have hplanned : item.digest poll.host poll.account ∉ planned := by
        intro hmem
        simp [hmem] at hnew
      split at hfile
      · exact ((ih _ claimed file hfile).unplanned).later item
      · rename_i hvault
        cases List.mem_cons.mp hfile with
        | inl heq =>
          subst heq
          have hunknown : item.digest poll.host poll.account ∉ poll.vaultDigests := by simpa using hvault
          exact ⟨⟨item, List.mem_cons_self, rfl, rfl⟩, hplanned, hunknown, rfl⟩
        | inr hrest => exact ((ih _ _ file hrest).unplanned).later item

/-- No digest is planned twice. -/
theorem Poll.digests_nodup (poll : Poll) (items : List CapturedItem) (planned claimed : List Text) :
    ((poll.planFrom items planned claimed).files.map InboxFile.digest).Nodup := by
  induction items generalizing planned claimed with
  | nil => exact List.nodup_nil
  | cons item rest ih =>
    rw [Poll.planFrom_files]
    split
    · exact ih planned claimed
    · split
      · exact ih _ claimed
      · rw [List.map_cons, List.nodup_cons]
        refine ⟨fun hmem => ?_, ih _ _⟩
        obtain ⟨file, hfile, hdigest⟩ := List.mem_map.mp hmem
        exact (poll.fresh_of_mem rest _ _ file hfile).planned (hdigest ▸ List.mem_cons_self)

/-- The name an item is given is free exactly when one of its names is. -/
theorem Poll.stem_free_iff (poll : Poll) (item : CapturedItem) (claimed : List Text) :
    poll.stem item claimed ∉ claimed ↔ ∃ name ∈ poll.candidates item, name ∉ claimed := by
  obtain ⟨init, last, hnames⟩ : ∃ init last, poll.candidates item = init ++ [last] :=
    ⟨[_, _], _, rfl⟩
  rw [Poll.stem, hnames]
  cases hfind : (init ++ [last]).find? fun name => !claimed.contains name with
  | some name =>
    have hfree : name ∉ claimed := by simpa using List.find?_some hfind
    exact ⟨fun _ => ⟨name, List.mem_of_find?_eq_some hfind, hfree⟩, fun _ => hfree⟩
  | none =>
    have hclaimed : ∀ name ∈ init ++ [last], name ∈ claimed := by
      intro name hname
      simpa using List.find?_eq_none.mp hfind name hname
    constructor
    · intro hfree
      exact absurd (hclaimed last (by simp)) (by simpa using hfree)
    · intro hsome
      obtain ⟨name, hname, hfree⟩ := hsome
      exact absurd (hclaimed name hname) hfree

/-- The names of a plan differ from each other and from those taken exactly when each item finds one free. -/
theorem Poll.stems_apart_iff (poll : Poll) (items : List CapturedItem) (planned claimed : List Text) :
    ((poll.planFrom items planned claimed).files.map InboxFile.stem).Nodup ∧
        (∀ file ∈ (poll.planFrom items planned claimed).files, file.stem ∉ claimed) ↔
      poll.NamesFree items planned claimed := by
  induction items generalizing planned claimed with
  | nil => simp [Poll.planFrom, Poll.NamesFree]
  | cons item rest ih =>
    rw [Poll.planFrom_files, Poll.NamesFree]
    split
    · exact ih planned claimed
    · split
      · exact ih _ claimed
      · have hstem : (poll.file item claimed).stem = poll.stem item claimed := rfl
        rw [← ih, ← Poll.stem_free_iff, ← hstem]
        simp only [List.map_cons, List.nodup_cons, List.mem_map, not_exists, not_and, List.mem_cons, forall_eq_or_imp,
          not_or]
        constructor
        · intro h
          exact ⟨h.2.1, h.1.2, fun file hfile => ⟨h.1.1 file hfile, h.2.2 file hfile⟩⟩
        · intro h
          exact ⟨⟨fun file hfile => (h.2.2 file hfile).1, h.2.1⟩, h.1, fun file hfile => (h.2.2 file hfile).2⟩

theorem notePath_injective (dir : Text) : Function.Injective (notePath dir) := by
  intro a b h
  have hrest := List.cons.inj (List.append_cancel_left h)
  exact List.append_cancel_right hrest.2

/-! ## Notes over a run -/

section

variable {host : Host} {account dir : Text}

/-- What a poll's plan does for capture: no item with a note gets another, the names are new, and each note
reads back as its item's. -/
structure CapturesOnce (host : Host) (account dir : Text) (w : World) (items : List CapturedItem) (capturedAt : Text) :
    Prop where
  fresh : ∀ file ∈ (w.plan host account dir items capturedAt).files, file.digest ∉ w.written.map InboxFile.digest
  once : ((w.plan host account dir items capturedAt).files.map InboxFile.digest).Nodup
  reads : ∀ file ∈ (w.plan host account dir items capturedAt).files, ∃ item ∈ items,
    file.digest = item.digest host account ∧ inboxNoteDigest file.content = some file.digest
  paths : ((w.plan host account dir items capturedAt).files.map InboxFile.relPath).Nodup
  free : ∀ file ∈ (w.plan host account dir items capturedAt).files, ∀ note ∈ w.notes,
    file.relPath ≠ notePath dir note.stem

/-- In the order of their times, each item the poll writes a note for finds one of its names free. -/
def NamesFree (host : Host) (account dir : Text) (w : World) (items : List CapturedItem) (capturedAt : Text) : Prop :=
  (w.poll host account dir capturedAt).NamesFree (items.mergeSort fun a b => momentLe a.occurredAt b.occurredAt) []
    (w.notes.map InboxNote.stem)

/-- A note that was written, of an item, and is where it was or marked in the log. -/
structure World.Kept (host : Host) (account : Text) (w : World) (file : InboxFile) : Prop where
  item : ∃ item : CapturedItem, file.digest = item.digest host account
  reads : inboxNoteDigest file.content = some file.digest
  holds : w.Holds file

structure World.Inv (host : Host) (account : Text) (w : World) : Prop where
  kept : ∀ file ∈ w.written, w.Kept host account file
  once : (w.written.map InboxFile.digest).Nodup

/-- The digest of a note that was written is found by every later scan. -/
theorem World.Kept.scanned {w : World} {file : InboxFile} (h : w.Kept host account file) (capturedAt : Text) :
    file.digest ∈ (w.poll host account dir capturedAt).vaultDigests := by
  apply List.mem_append.mpr
  cases h.holds with
  | inl hnote => exact Or.inl (List.mem_filterMap.mpr ⟨_, hnote, h.reads⟩)
  | inr hmarker =>
    obtain ⟨item, hitem⟩ := h.item
    rw [hitem] at hmarker ⊢
    exact Or.inr (mem_scanTriageLogMarkers host account item hmarker)

theorem World.planned_fresh (w : World) (items : List CapturedItem) (capturedAt : Text) :
    ∀ file ∈ (w.plan host account dir items capturedAt).files, (w.poll host account dir capturedAt).Fresh
      (items.mergeSort fun a b => momentLe a.occurredAt b.occurredAt) [] file :=
  Poll.fresh_of_mem _ _ _ _

theorem World.planned_unwritten {w : World} (h : w.Inv host account) {items : List CapturedItem} {capturedAt : Text}
    {file : InboxFile} (hfile : file ∈ (w.plan host account dir items capturedAt).files) :
    file.digest ∉ w.written.map InboxFile.digest := by
  intro hmem
  obtain ⟨earlier, hearlier, hdigest⟩ := List.mem_map.mp hmem
  apply (w.planned_fresh items capturedAt file hfile).vault
  rw [← hdigest]
  exact (h.kept earlier hearlier).scanned capturedAt

theorem World.planned_reads {w : World} {items : List CapturedItem} {capturedAt : Text} {file : InboxFile}
    (hfile : file ∈ (w.plan host account dir items capturedAt).files) :
    ∃ item ∈ items, file.digest = item.digest host account ∧ inboxNoteDigest file.content = some file.digest := by
  obtain ⟨item, hitem, hdigest, hcontent⟩ := (w.planned_fresh items capturedAt file hfile).item
  have hdigest' : file.digest = item.digest host account := hdigest
  refine ⟨item, List.mem_mergeSort.mp hitem, hdigest', ?_⟩
  rw [hcontent, hdigest']
  exact inboxNoteDigest_render host account item _ _

/-- A write keeps the notes that were written, and adds one of its own where its name is free. -/
theorem World.Inv.write {w : World} (h : w.Inv host account) {file : InboxFile}
    (hitem : ∃ item : CapturedItem, file.digest = item.digest host account)
    (hreads : inboxNoteDigest file.content = some file.digest) (hnew : file.digest ∉ w.written.map InboxFile.digest) :
    (w.write file).Inv host account := by
  unfold World.write
  split
  · exact h
  · exact
      { kept := fun earlier hearlier => by
          cases List.mem_append.mp hearlier with
          | inl hold =>
            have hkept := h.kept earlier hold
            exact ⟨hkept.item, hkept.reads, hkept.holds.imp_left fun hnote => List.mem_append_left _ hnote⟩
          | inr hlast =>
            rw [List.mem_singleton.mp hlast]
            exact ⟨hitem, hreads, Or.inl (List.mem_append_right _ (List.mem_singleton_self _))⟩
        once := by
          rw [List.map_append, List.map_singleton, List.nodup_append]
          refine ⟨h.once, List.nodup_singleton _, fun a ha b hb heq => hnew ?_⟩
          rw [← List.mem_singleton.mp hb, ← heq]
          exact ha }

theorem World.write_written (w : World) (file : InboxFile) :
    ∀ earlier ∈ (w.write file).written, earlier ∈ w.written ∨ earlier = file := by
  intro earlier hearlier
  unfold World.write at hearlier
  split at hearlier
  · exact Or.inl hearlier
  · simpa using hearlier

/-- Writing notes of different digests, none of them written before. -/
theorem World.Inv.writes {w : World} (h : w.Inv host account) {files : List InboxFile}
    (hitems : ∀ file ∈ files, ∃ item : CapturedItem, file.digest = item.digest host account)
    (hreads : ∀ file ∈ files, inboxNoteDigest file.content = some file.digest)
    (honce : (files.map InboxFile.digest).Nodup)
    (hnew : ∀ file ∈ files, file.digest ∉ w.written.map InboxFile.digest) :
    (files.foldl World.write w).Inv host account := by
  induction files generalizing w with
  | nil => exact h
  | cons file rest ih =>
    rw [List.map_cons, List.nodup_cons] at honce
    apply ih
    · exact h.write (hitems file List.mem_cons_self) (hreads file List.mem_cons_self) (hnew file List.mem_cons_self)
    · exact fun other hother => hitems other (List.mem_cons_of_mem file hother)
    · exact fun other hother => hreads other (List.mem_cons_of_mem file hother)
    · exact honce.2
    · intro other hother hmem
      obtain ⟨earlier, hearlier, hdigest⟩ := List.mem_map.mp hmem
      cases w.write_written file earlier hearlier with
      | inl hold => exact hnew other (List.mem_cons_of_mem file hother) (hdigest ▸ List.mem_map_of_mem hold)
      | inr heq =>
        rw [heq] at hdigest
        exact honce.1 (hdigest ▸ List.mem_map_of_mem hother)

/-- A step keeps every written note and writes no item's note again. -/
theorem World.Inv.next {w t : World} {action : Action} (h : w.Inv host account)
    (hstep : Next host account dir w action t) : t.Inv host account := by
  cases action with
  | poll items capturedAt applied imported =>
    obtain ⟨hsublist, -, rfl⟩ := hstep
    have hwrites := @World.Inv.writes host account w h applied
      (fun file hfile => by
        obtain ⟨item, -, hdigest, -⟩ := World.planned_reads (hsublist.subset hfile)
        exact ⟨item, hdigest⟩)
      (fun file hfile => by
        obtain ⟨-, -, -, hreads⟩ := World.planned_reads (hsublist.subset hfile)
        exact hreads)
      ((Poll.digests_nodup _ _ _ _).sublist (hsublist.map InboxFile.digest))
      fun file hfile => World.planned_unwritten h (hsublist.subset hfile)
    exact ⟨fun file hfile => ⟨(hwrites.kept file hfile).item, (hwrites.kept file hfile).reads, (hwrites.kept file hfile).holds⟩,
      hwrites.once⟩
  | edit notes log =>
    obtain ⟨rfl, hholds⟩ := hstep
    exact ⟨fun file hfile => ⟨(h.kept file hfile).item, (h.kept file hfile).reads, hholds file hfile⟩, h.once⟩

end

/-- No item gets a second note over any run, and at every poll of it capture works as promised exactly when
each item finds one of its three names free. -/
theorem captured_once (host : Host) (account dir : Text) {w : World}
    (h : Reachable (Next host account dir) Initial w) :
    (w.written.map InboxFile.digest).Nodup ∧ ∀ items capturedAt,
      CapturesOnce host account dir w items capturedAt ↔ NamesFree host account dir w items capturedAt := by
  have hinv : w.Inv host account := h.invariant (World.Inv host account)
    (fun w hinitial => by
      rw [Initial] at hinitial
      exact ⟨by simp [hinitial], by simp [hinitial]⟩)
    fun _ _ _ hinv hstep => hinv.next hstep
  refine ⟨hinv.once, fun items capturedAt => ?_⟩
  rw [NamesFree, ← Poll.stems_apart_iff]
  have hpath : ∀ file ∈ (w.plan host account dir items capturedAt).files, file.relPath = notePath dir file.stem :=
    fun file hfile => (w.planned_fresh items capturedAt file hfile).relPath
  have hpaths : (w.plan host account dir items capturedAt).files.map InboxFile.relPath =
      ((w.plan host account dir items capturedAt).files.map InboxFile.stem).map (notePath dir) := by
    rw [List.map_map]
    exact List.map_congr_left hpath
  constructor
  · intro hcaptures
    refine ⟨?_, fun file hfile hmem => ?_⟩
    · have hnodup := hcaptures.paths
      rw [hpaths] at hnodup
      exact hnodup.of_map _
    · obtain ⟨note, hnote, hstem⟩ := List.mem_map.mp hmem
      exact hcaptures.free file hfile note hnote ((hpath file hfile).trans (congrArg (notePath dir) hstem.symm))
  · intro hstems
    exact
      { fresh := fun file hfile => World.planned_unwritten hinv hfile
        once := Poll.digests_nodup _ _ _ _
        reads := fun file hfile => World.planned_reads hfile
        paths := by
          rw [hpaths]
          exact hstems.1.map (notePath_injective dir)
        free := fun file hfile note hnote heq => hstems.2 file hfile (by
          rw [hpath file hfile] at heq
          rw [notePath_injective dir heq]
          exact List.mem_map_of_mem hnote) }

/-! ## A title that spells a digest -/

def myAccount : Text := "me@example.com".toList

def tasks : SourceId := ⟨"google-tasks".toList, by decide⟩

def task (id title : String) : CapturedItem :=
  ⟨tasks, id.toList, title.toList, none, none, none, none, none, none⟩

/-- The hashes of four tasks of one account, and one moment. -/
def fourTasks : Host where
  sha256 := fun bytes =>
    let hashed := fun id : String => asBytes myAccount ++ 0 :: (asBytes tasks.text ++ 0 :: asBytes id.toList)
    if bytes = hashed "t1" then #v[249, 93, 133, 226, 140, 34, 150, 161, 150, 85, 21, 199, 159, 130, 210, 196, 56, 203, 148, 155, 146, 205,
      224, 165, 15, 193, 44, 138, 202, 162, 25, 26]
    else if bytes = hashed "t2" then #v[85, 159, 202, 123, 156, 231, 147, 13, 16, 41, 99, 88, 187, 225, 225, 2, 135, 34, 217, 211, 58, 107, 28,
      94, 223, 253, 208, 3, 25, 104, 194, 125]
    else if bytes = hashed "t3" then #v[134, 155, 113, 39, 118, 92, 58, 117, 152, 193, 139, 8, 14, 114, 118, 244, 6, 243, 80, 107, 81, 198, 4, 5,
      127, 69, 234, 35, 62, 196, 181, 85]
    else if bytes = hashed "t4" then #v[135, 41, 11, 18, 252, 100, 247, 188, 244, 194, 154, 208, 136, 18, 103, 119, 161, 89, 132, 72, 184, 180,
      117, 157, 244, 127, 63, 53, 217, 232, 120, 41]
    else Vector.replicate 32 0
  parseRfc3339 := fun text => if text = "2026-08-23T18:22:00+02:00".toList then some ⟨1787502120000000000, 7200⟩ else none
  stamp := fun moment => if moment = ⟨1787502120000000000, 7200⟩ then "2026-08-23-1822".toList else []

/-- The titles of the second and the third task spell the digest of the fourth. -/
def spelling : List CapturedItem := [task "t1" "a", task "t2" "a 8729", task "t3" "a 87290b12fc64", task "t4" "a"]

def freshVault : World := ⟨[], [], [], []⟩

def afterPoll : World :=
  { (freshVault.plan fourTasks myAccount "inbox".toList [task "t1" "a"] "2026-08-23T18:22:00+02:00".toList).files.foldl
      World.write freshVault with imported := [] }

theorem sorted_spelling : (spelling.mergeSort fun a b => momentLe a.occurredAt b.occurredAt) = spelling := by
  apply List.mergeSort_of_pairwise
  decide

/-- A task whose note was written while the state was lost, and another of its title, after that poll. -/
theorem captured_once_afterPoll : (afterPoll.written.map InboxFile.digest).Nodup ∧
    CapturesOnce fourTasks myAccount "inbox".toList afterPoll [task "t4" "a"] "2026-08-23T18:22:00+02:00".toList := by
  have hrun : Reachable (Next fourTasks myAccount "inbox".toList) Initial afterPoll :=
    ⟨freshVault, [.poll [task "t1" "a"] "2026-08-23T18:22:00+02:00".toList _ []], rfl,
      .cons ⟨List.Sublist.refl _, fun _ h => absurd h List.not_mem_nil, rfl⟩ (.nil _)⟩
  have honce := captured_once fourTasks myAccount "inbox".toList hrun
  refine ⟨honce.1, (honce.2 _ _).mpr ?_⟩
  have hsorted : (freshVault.plan fourTasks myAccount "inbox".toList [task "t1" "a"] "2026-08-23T18:22:00+02:00".toList) =
      (freshVault.poll fourTasks myAccount "inbox".toList "2026-08-23T18:22:00+02:00".toList).planFrom [task "t1" "a"] [] [] := by
    rw [World.plan, planInboxCapture, List.mergeSort_singleton]
    rfl
  rw [NamesFree, List.mergeSort_singleton, afterPoll, hsorted]
  decide +kernel

/-- Two notes of one plan have the same path when titles spell another item's digest. -/
theorem spelled_digest_collides : ¬∀ host account dir w, Reachable (Next host account dir) Initial w →
    ∀ items capturedAt, CapturesOnce host account dir w items capturedAt := by
  intro h
  have hpaths := (h fourTasks myAccount "inbox".toList freshVault ⟨freshVault, [], rfl, .nil _⟩ spelling
    "2026-08-23T18:22:00+02:00".toList).paths
  rw [World.plan, planInboxCapture, sorted_spelling] at hpaths
  revert hpaths
  decide +kernel

end Thock.Desk.Inbox
