import Mathlib.Data.List.ReduceOption
import Thock.SyncCore.WriteJson
import Thock.ThockKit.WriteDocument

/-!
# The JSON the phone sends

The members each kind of document is encoded with, and that the desk reads the write in them:
every document the phone takes for valid is read back as the operation it names, unless one of
the texts the desk wants more in than blanks has only line breaks, which the phone does not trim.

The encoder sorts the members of the text, and the desk reads them in any order.
-/

namespace Thock.ThockKit

open TextScan
open SyncCore (Heading Placement Anchor Place Write Operation Json WriteForm WriteError parseForm)

/-! ## Encoding -/

def WriteKind.rawValue : WriteKind → Text
  | .create => "create".toList
  | .append => "append".toList
  | .replaceLine => "replace_line".toList
  | .removeLine => "remove_line".toList
  | .replaceSection => "replace_section".toList
  | .moveBlock => "move_block".toList
  | .removeBlock => "remove_block".toList
  | .moveFile => "move_file".toList
  | .putFile => "put_file".toList

/-- The encodings of a document's parts. -/
def encodeHeading (heading : Heading) : Json :=
  .object [("text".toList, .string heading.text), ("level".toList, .ofNat heading.level),
    ("ordinal".toList, .ofNat heading.ordinal)]

def encodePlacement : Placement → Json
  | .end_ => .string "end".toList
  | .beforeChildren => .string "before_children".toList

def encodeLineAnchor (anchor : Anchor) : Json :=
  .object [("line_hash".toList, .string anchor.lineHash), ("ordinal".toList, .ofNat anchor.ordinal)]

def encodePlace : Place → Json
  | .top => .string "top".toList
  | .end_ => .string "end".toList
  | .after lineHash ordinal =>
    .object [("after".toList,
      .object [("line_hash".toList, .string lineHash), ("ordinal".toList, .ofNat ordinal)])]

namespace WriteDocument

/-- The members of a document after its header, where a missing value is null. -/
def fields (document : WriteDocument) : List (Text × Json) :=
  match document.kind with
  | .create => [("content".toList, .string (document.content.getD []))]
  | .append =>
    ("heading".toList, .ofOption encodeHeading document.heading) ::
      ("lines".toList, .array (document.lines.map .string)) ::
      ("placement".toList, encodePlacement document.placement) ::
      ("blank_line_before".toList, .bool document.blankLineBefore) ::
      ("create_from_template".toList, .bool document.createFromTemplate) ::
      document.after.toList.map fun anchor => ("after".toList, encodeLineAnchor anchor)
  | .replaceLine =>
    [("heading".toList, .ofOption encodeHeading document.heading),
      ("line_hash".toList, .ofOption .string document.lineHash), ("ordinal".toList, .ofNat document.ordinal),
      ("new_line".toList, .ofOption .string document.newLine)]
  | .removeLine | .removeBlock =>
    [("heading".toList, .ofOption encodeHeading document.heading),
      ("line_hash".toList, .ofOption .string document.lineHash), ("ordinal".toList, .ofNat document.ordinal)]
  | .replaceSection =>
    [("heading".toList, .ofOption encodeHeading document.heading),
      ("base_hash".toList, .ofOption .string document.baseHash),
      ("lines".toList, .array (document.lines.map .string))]
  | .moveBlock =>
    [("heading".toList, .ofOption encodeHeading document.heading),
      ("line_hash".toList, .ofOption .string document.lineHash), ("ordinal".toList, .ofNat document.ordinal),
      ("to".toList, .ofOption encodeHeading document.to_), ("place".toList, encodePlace document.place),
      ("new_line".toList, .ofOption .string document.newLine),
      ("create_under".toList, .ofOption encodeHeading document.createUnder)]
  | .moveFile => [("to".toList, .ofOption .string document.toPath)]
  | .putFile =>
    [("content_base64".toList, .ofOption .string document.contentBase64),
      ("content_hash".toList, .ofOption .string document.contentHash)]

/-- The value of a document's JSON. -/
def json (document : WriteDocument) (madeAt deviceId : Text) : Json :=
  .object (("v".toList, .ofNat document.version) :: ("client_id".toList, .string document.clientId) ::
    ("kind".toList, .string document.kind.rawValue) :: ("path".toList, .string document.path) ::
    ("made_at".toList, .string madeAt) :: ("device_id".toList, .string deviceId) :: document.fields)

/-! ## What a document says -/

/-- The operation a document stands for, from the fields of its kind. -/
def operation (document : WriteDocument) : Option Operation :=
  match document.kind with
  | .create => do return .create (← document.content)
  | .append =>
    some (.append document.heading document.lines document.placement document.blankLineBefore
      document.createFromTemplate document.after)
  | .replaceLine => do
    return .replaceLine document.heading (← document.lineHash) document.ordinal (← document.newLine)
  | .removeLine => do return .removeLine document.heading (← document.lineHash) document.ordinal
  | .replaceSection => do return .replaceSection (← document.heading) (← document.baseHash) document.lines
  | .moveBlock => do
    return .moveBlock document.heading (← document.lineHash) document.ordinal document.to_ document.place
      document.newLine document.createUnder
  | .removeBlock => do return .removeBlock document.heading (← document.lineHash) document.ordinal
  | .moveFile => do return .moveFile (← document.toPath)
  | .putFile => do return .putFile (← document.contentBase64) (← document.contentHash)

/-- The write a document stands for, with the document's header. -/
def form (document : WriteDocument) (madeAt deviceId : Text) (operation : Operation) : WriteForm where
  write := { v := document.version, clientId := document.clientId, path := document.path, operation }
  madeAt
  deviceId

/-- The headings a document has, of its kind or not. -/
def headings (document : WriteDocument) : List Heading :=
  [document.heading, document.to_, document.createUnder].reduceOption

/-- The numbers are no larger than a signed 64-bit integer. -/
structure Fits (document : WriteDocument) : Prop where
  headings : ∀ heading ∈ document.headings, heading.ordinal < 2 ^ 63
  ordinal : document.ordinal < 2 ^ 63
  anchor : ∀ anchor ∈ document.after, anchor.ordinal < 2 ^ 63
  place : document.place.ordinal < 2 ^ 63

/-- The texts the desk wants more in than blanks have more in them than the desk's white space. -/
structure Worded (document : WriteDocument) : Prop where
  clientId : ¬Blank document.clientId
  path : ¬Blank document.path
  destination : document.kind = .moveFile → ∀ to_ ∈ document.toPath, ¬Blank to_
  bytes : document.kind = .putFile → ∀ bytes ∈ document.contentBase64, ¬Blank bytes
  hash : document.kind = .putFile → ∀ hash ∈ document.contentHash, ¬Blank hash

end WriteDocument

/-! ## The two encodings agree -/

theorem encodeHeading_eq : encodeHeading = Heading.toJson := rfl

theorem encodePlacement_eq (placement : Placement) : encodePlacement placement = placement.toJson := by
  cases placement <;> rfl

theorem encodeLineAnchor_eq : encodeLineAnchor = Anchor.toJson := rfl

theorem encodePlace_eq (place : Place) : encodePlace place = place.toJson := by
  cases place <;> rfl

namespace WriteDocument

variable {document : WriteDocument} {operation : Operation}

/-- What an operation takes from the document that stands for it. -/
structure Stands (document : WriteDocument) (operation : Operation) : Prop where
  kind : document.kind.rawValue = operation.kind
  fields : document.fields = operation.fields
  headings : ∀ heading ∈ operation.headings, heading ∈ document.headings
  broken : operation.broken = true → (document.newLine.toList ++ document.lines).any SyncCore.hasBreak = true
  fits : document.Fits → (∀ heading ∈ operation.headings, heading.Fits) → operation.Fits
  rule (madeAt deviceId : Text) :
    (document.form madeAt deviceId operation).write.FileRule ↔
      (document.kind = .moveFile → ∀ to_ ∈ document.toPath, ¬Blank to_ ∧ to_ ≠ document.path) ∧
        (document.kind = .putFile →
          (∀ bytes ∈ document.contentBase64, ¬Blank bytes) ∧ ∀ hash ∈ document.contentHash, ¬Blank hash)

theorem mem_headings {heading : Heading} :
    heading ∈ document.headings ↔
      heading ∈ document.heading ∨ heading ∈ document.to_ ∨ heading ∈ document.createUnder := by
  simp [headings, List.reduceOption_mem_iff, eq_comm]

/-- A document is encoded under the tag and with the members of the operation it stands for. -/
theorem stands_of_operation (h : document.operation = some operation) : Stands document operation := by
  obtain ⟨_, _, kind, _, content, heading, _, placement, after, _, _, lineHash, _, newLine, baseHash, to_, place,
    createUnder, toPath, contentBase64, contentHash⟩ := document
  cases kind with
  | create =>
    obtain _ | content := content <;> cases h
    constructor <;> try rfl
    · simp [Operation.headings, Operation.heading]
    · simp [Operation.broken]
    · exact fun _ hheadings => ⟨hheadings, trivial⟩
    · simp [form, Write.FileRule]
  | append =>
    cases h
    constructor
    · rfl
    · simp only [WriteDocument.fields, Operation.fields, encodePlacement_eq, encodeHeading_eq, encodeLineAnchor_eq]
    · simp +contextual [mem_headings, Operation.headings, Operation.heading]
    · simp +contextual [Operation.broken]
    · exact fun hfits hheadings => ⟨hheadings, fun anchor ha => (hfits.anchor anchor ha).trans (by decide)⟩
    · simp [form, Write.FileRule]
  | replaceLine =>
    obtain _ | lineHash := lineHash <;> obtain _ | newLine := newLine <;> cases h
    constructor <;> try rfl
    · simp +contextual [mem_headings, Operation.headings, Operation.heading]
    · simp +contextual [Operation.broken]
    · exact fun hfits hheadings => ⟨hheadings, hfits.ordinal.trans (by decide)⟩
    · simp [form, Write.FileRule]
  | removeLine =>
    obtain _ | lineHash := lineHash <;> cases h
    constructor <;> try rfl
    · simp +contextual [mem_headings, Operation.headings, Operation.heading]
    · simp [Operation.broken]
    · exact fun hfits hheadings => ⟨hheadings, hfits.ordinal.trans (by decide)⟩
    · simp [form, Write.FileRule]
  | replaceSection =>
    obtain _ | heading := heading <;> obtain _ | baseHash := baseHash <;> cases h
    constructor <;> try rfl
    · simp [mem_headings, Operation.headings, Operation.heading]
    · simp +contextual [Operation.broken]
    · exact fun _ hheadings => ⟨hheadings, trivial⟩
    · simp [form, Write.FileRule]
  | moveBlock =>
    obtain _ | lineHash := lineHash <;> cases h
    constructor
    · rfl
    · simp only [WriteDocument.fields, Operation.fields, encodePlace_eq, encodeHeading_eq]
      rfl
    · simp [mem_headings, Operation.headings, Operation.heading]
    · cases newLine <;> simp +contextual [Operation.broken]
    · exact fun hfits hheadings => ⟨hheadings, hfits.ordinal.trans (by decide), hfits.place.trans (by decide)⟩
    · simp [form, Write.FileRule]
  | removeBlock =>
    obtain _ | lineHash := lineHash <;> cases h
    constructor <;> try rfl
    · simp +contextual [mem_headings, Operation.headings, Operation.heading]
    · simp [Operation.broken]
    · exact fun hfits hheadings => ⟨hheadings, hfits.ordinal.trans (by decide)⟩
    · simp [form, Write.FileRule]
  | moveFile =>
    obtain _ | toPath := toPath <;> cases h
    constructor <;> try rfl
    · simp [Operation.headings, Operation.heading]
    · simp [Operation.broken]
    · exact fun _ hheadings => ⟨hheadings, trivial⟩
    · simp [form, Write.FileRule]
  | putFile =>
    obtain _ | contentBase64 := contentBase64 <;> obtain _ | contentHash := contentHash <;> cases h
    constructor <;> try rfl
    · simp [Operation.headings, Operation.heading]
    · simp [Operation.broken]
    · exact fun _ hheadings => ⟨hheadings, trivial⟩
    · simp [form, Write.FileRule]

/-- The desk finds every member of the write's own form in the phone's. -/
theorem json_get (h : document.operation = some operation) (madeAt deviceId key : Text) :
    (document.json madeAt deviceId).get key = (document.form madeAt deviceId operation).toJson.get key := by
  have hstands := stands_of_operation h
  simp only [json, form, WriteForm.toJson, Json.get, Table.get_cons, hstands.kind, hstands.fields]
  by_cases hkey : "kind".toList = key
  · subst hkey
    rfl
  · simp only [if_neg hkey]

/-- A document that passes the checks stands for an operation. -/
theorem operation_of_complete (h : document.complete = true) : ∃ operation, document.operation = some operation := by
  unfold WriteDocument.operation
  unfold complete holds at h
  cases hkind : document.kind with
  | append => exact ⟨_, rfl⟩
  | create =>
    rw [hkind] at h
    obtain ⟨content, hcontent⟩ := Option.isSome_iff_exists.mp h
    exact ⟨_, by simp only [hcontent]; rfl⟩
  | removeLine | moveBlock | removeBlock =>
    rw [hkind] at h
    obtain ⟨lineHash, hhash⟩ := Option.isSome_iff_exists.mp h
    exact ⟨_, by simp only [hhash]; rfl⟩
  | replaceLine =>
    simp only [hkind, Bool.and_eq_true, Option.isSome_iff_exists] at h
    obtain ⟨⟨lineHash, hhash⟩, newLine, hnew⟩ := h
    exact ⟨_, by simp only [hhash, hnew]; rfl⟩
  | replaceSection =>
    simp only [hkind, Bool.and_eq_true, Option.isSome_iff_exists] at h
    obtain ⟨⟨heading, hheading⟩, baseHash, hbase⟩ := h
    exact ⟨_, by simp only [hheading, hbase]; rfl⟩
  | moveFile =>
    simp only [hkind, Bool.and_eq_true, Option.any_eq_true] at h
    obtain ⟨⟨toPath, hto, -⟩, -⟩ := h
    exact ⟨_, by simp only [Option.mem_def.mp hto]; rfl⟩
  | putFile =>
    simp only [hkind, Bool.and_eq_true, Option.any_eq_true] at h
    obtain ⟨⟨bytes, hbytes, -⟩, hash, hhash, -⟩ := h
    exact ⟨_, by simp only [Option.mem_def.mp hbytes, Option.mem_def.mp hhash]; rfl⟩

end WriteDocument

/-! ## What the desk reads -/

/-- A text that is not trimmed away has a character outside the set. -/
theorem exists_of_trimmingCharacters {set : Char → Bool} {text : Text} (h : (trimmingCharacters set text).isEmpty = false) :
    ∃ c ∈ text, set c = false := by
  by_contra hall
  have hall : ∀ c ∈ text, set c = true := fun c hc => Bool.of_not_eq_false fun hout => hall ⟨c, hc, hout⟩
  rw [trimmingCharacters, List.dropWhile_eq_nil_iff.mpr hall] at h
  cases h

/-- The desk's white space is trimmed from headings on the phone. -/
theorem isWhitespacesAndNewlines_of_isWhitespace {c : Char} (h : isWhitespace c = true) :
    isWhitespacesAndNewlines c = true := by
  have htab : c = '\t' ↔ c.toNat = 9 := Char.toNat_inj.symm
  have hspace : c = ' ' ↔ c.toNat = 0x20 := Char.toNat_inj.symm
  simp only [isWhitespace, isWhitespacesAndNewlines, isWhitespacesSet, Bool.or_eq_true, Bool.and_eq_true,
    decide_eq_true_eq, htab, hspace] at h ⊢
  omega

namespace WriteDocument

variable {document : WriteDocument} {operation : Operation}

/-- What the phone's checks say of a document. -/
structure Checked (document : WriteDocument) : Prop where
  version : document.version = 1
  text : ∀ heading ∈ document.headings, ¬Blank heading.text
  level : ∀ heading ∈ document.headings, heading.level < 2 ^ 8
  whole : (document.newLine.toList ++ document.lines).any SyncCore.hasBreak = false
  complete : document.complete = true

theorem checked_of_validate (h : document.validate = true) : Checked document := by
  simp only [validate, Bool.and_eq_true, decide_eq_true_eq, List.all_eq_true, Bool.not_eq_true'] at h
  obtain ⟨⟨⟨⟨⟨hversion, -⟩, -⟩, hheadings⟩, hwhole⟩, hcomplete⟩ := h
  refine ⟨hversion, ?_, ?_, hwhole, hcomplete⟩
  · intro heading hmem hblank
    obtain ⟨c, hc, hout⟩ := exists_of_trimmingCharacters (hheadings heading hmem).1
    rw [isWhitespacesAndNewlines_of_isWhitespace (hblank c hc)] at hout
    cases hout
  · intro heading hmem
    exact Nat.lt_succ_of_le (hheadings heading hmem).2

/-- A move the phone takes for valid is not onto its own path. -/
theorem toPath_ne_of_complete (h : document.complete = true) (hkind : document.kind = .moveFile) :
    ∀ to_ ∈ document.toPath, to_ ≠ document.path := by
  intro to_ hto hsame
  rw [complete, hkind] at h
  simp [Option.mem_def.mp hto, hsame] at h

/-- The desk's checks on the write of a document the phone takes for valid. -/
theorem form_validate_iff (h : document.validate = true) (hoperation : document.operation = some operation)
    (madeAt deviceId : Text) :
    (document.form madeAt deviceId operation).write.validate = .ok () ↔ document.Worded := by
  have hchecked := checked_of_validate h
  have hstands := stands_of_operation hoperation
  have hwhole : operation.broken = false := by
    refine Bool.of_not_eq_true fun hbroken => ?_
    have hlines := hchecked.whole
    rw [hstands.broken hbroken] at hlines
    cases hlines
  rw [Write.validate_eq_ok_iff, hstands.rule]
  constructor
  · rintro ⟨-, hclient, hpath, -, -, hmove, hput⟩
    exact ⟨hclient, hpath, fun hkind to_ hto => (hmove hkind to_ hto).1, fun hkind => (hput hkind).1,
      fun hkind => (hput hkind).2⟩
  · intro hworded
    refine ⟨hchecked.version, hworded.clientId, hworded.path, ?_, hwhole, ?_, ?_⟩
    · exact fun heading hmem => hchecked.text heading (hstands.headings heading hmem)
    · exact fun hkind to_ hto =>
        ⟨hworded.destination hkind to_ hto, toPath_ne_of_complete hchecked.complete hkind to_ hto⟩
    · exact fun hkind => ⟨hworded.bytes hkind, hworded.hash hkind⟩

/-- The desk parses a valid document into its write exactly when the document is worded. -/
theorem parse_iff_worded {fromStr : Text → Except Text Json} {message : Json → Text} {madeAt deviceId text : Text}
    (hvalid : document.validate = true) (hfits : document.Fits)
    (hread : fromStr text = .ok (document.json madeAt deviceId)) :
    (∃ operation, document.operation = some operation ∧
      parseForm fromStr message text = .ok (document.form madeAt deviceId operation)) ↔ document.Worded := by
  have hchecked := checked_of_validate hvalid
  obtain ⟨operation, hoperation⟩ := operation_of_complete hchecked.complete
  have hstands := stands_of_operation hoperation
  have hform : (document.form madeAt deviceId operation).Fits := by
    refine ⟨?_, hstands.fits hfits fun heading hmem => ?_⟩
    · change document.version < 2 ^ 32
      rw [hchecked.version]
      decide
    · have hmem := hstands.headings heading hmem
      exact ⟨hchecked.level heading hmem, (hfits.headings heading hmem).trans (by decide)⟩
  have hparse : parseForm fromStr message text =
      (document.form madeAt deviceId operation).write.validate.map fun _ => document.form madeAt deviceId operation :=
    SyncCore.parseForm_eq hread (json_get hoperation madeAt deviceId) hform hchecked.version
  rw [← form_validate_iff hvalid hoperation madeAt deviceId]
  constructor
  · rintro ⟨other, hother, hok⟩
    rw [hparse] at hok
    cases hcheck : (document.form madeAt deviceId operation).write.validate with
    | ok _ => rfl
    | error error =>
      rw [hcheck] at hok
      cases hok
  · intro hok
    exact ⟨operation, hoperation, by rw [hparse, hok]; rfl⟩

end WriteDocument

/-- A valid document's JSON is parsed into the write it stands for exactly when the texts the desk
wants more in than blanks have more in them than its white space, and a valid write's own JSON is
always parsed into that write. -/
theorem writes_understood (fromStr : Text → Except Text Json) (message : Json → Text) :
    (∀ (document : WriteDocument) (madeAt deviceId text : Text), document.validate = true → document.Fits →
      fromStr text = .ok (document.json madeAt deviceId) →
      ((∃ operation, document.operation = some operation ∧
        parseForm fromStr message text = .ok (document.form madeAt deviceId operation)) ↔ document.Worded)) ∧
      ∀ (form : WriteForm) (text : Text), form.write.validate = .ok () → form.Fits →
        fromStr text = .ok form.toJson → parseForm fromStr message text = .ok form := by
  constructor
  · intro document madeAt deviceId text hvalid hfits hread
    exact WriteDocument.parse_iff_worded hvalid hfits hread
  · intro form text hvalid hfits hread
    have hversion : form.write.v = SyncCore.writeVersion := (Write.validate_eq_ok_iff.mp hvalid).1
    rw [SyncCore.parseForm_eq hread (fun _ => rfl) hfits hversion, hvalid]
    rfl

/-- A note that the phone creates. -/
def newNote : WriteDocument :=
  { clientId := ['c'], kind := .create, path := "inbox/a.md".toList, content := some ['a', '\n'] }

def newNoteJson : Text :=
  ("\x7b\"client_id\":\"c\",\"content\":\"a\\n\",\"device_id\":\"d\",\"kind\":\"create\",\"made_at\":\"m\"," ++
    "\"path\":\"inbox/a.md\",\"v\":1\x7d").toList

/-- A reader that knows one text. -/
def reads (text : Text) (value : Json) (other : Text) : Except Text Json :=
  if other = text then .ok value else .error "expected value at line 1 column 1".toList

theorem newNote_fits : newNote.Fits where
  headings := by simp [newNote, WriteDocument.headings]
  ordinal := by decide
  anchor := by simp [newNote]
  place := by decide

theorem writes_understood_newNote :
    parseForm (reads newNoteJson (newNote.json ['m'] ['d'])) (fun _ => []) newNoteJson =
      .ok ⟨⟨1, ['c'], "inbox/a.md".toList, .create ['a', '\n']⟩, ['m'], ['d']⟩ := by
  have hworded : newNote.Worded := by
    constructor <;> decide
  have hread : reads newNoteJson (newNote.json ['m'] ['d']) newNoteJson = .ok (newNote.json ['m'] ['d']) := if_pos rfl
  obtain ⟨operation, hoperation, hparse⟩ :=
    ((writes_understood _ (fun _ => [])).1 newNote ['m'] ['d'] newNoteJson (by decide) newNote_fits hread).mpr hworded
  cases hoperation
  exact hparse

/-- A document whose path is a line break. -/
def brokenPath : WriteDocument := { clientId := ['c'], kind := .create, path := ['\n'], content := some [] }

def brokenPathJson : Text :=
  ("\x7b\"client_id\":\"c\",\"content\":\"\",\"device_id\":\"d\",\"kind\":\"create\",\"made_at\":\"m\"," ++
    "\"path\":\"\\n\",\"v\":1\x7d").toList

/-- The phone takes a line break for a path, and the desk refuses it. -/
theorem brokenPath_refused :
    brokenPath.validate = true ∧
      parseForm (reads brokenPathJson (brokenPath.json ['m'] ['d'])) (fun _ => []) brokenPathJson =
        .error .missingPath := by
  refine ⟨by decide, ?_⟩
  have hread : reads brokenPathJson (brokenPath.json ['m'] ['d']) brokenPathJson = .ok (brokenPath.json ['m'] ['d']) :=
    if_pos rfl
  simp only [parseForm, hread]
  rfl

end Thock.ThockKit
