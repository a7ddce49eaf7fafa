import Thock.SyncCore.ParseWrite

/-!
# The JSON form of a write

A write as the value its canonical JSON holds, and back: the members in the order they are
written, the defaults of the ones that may be missing, and the tag that names the kind. A write
read back from its own form is the write.

The derived reader also takes a struct as a list and a variant by its number or as an object;
only the forms that are written are read here.
-/

namespace Thock.SyncCore

open TextScan

namespace Json

/-- A number that a 64-bit word holds. -/
def ofNat (n : ℕ) : Json := .number (.unsigned (UInt64.ofNat n))

/-- An optional value, written as null where it is missing. -/
def ofOption {A : Type} (write : A → Json) (value : Option A) : Json := value.elim .null write

/-- A number below a bound. -/
def asNat (bound : ℕ) (value : Json) : Option ℕ := (value.asU64.map UInt64.toNat).filter (· < bound)

def asBool : Json → Option Bool
  | .bool b => some b
  | _ => none

/-- A list, every item of which is read. -/
def asList {A : Type} (read : Json → Option A) : Json → Option (List A)
  | .array items => items.mapM read
  | _ => none

/-- A value that may be null. -/
def asOption {A : Type} (read : Json → Option A) : Json → Option (Option A)
  | .null => some none
  | value => (read value).map some

/-- A member that must be there. -/
def field {A : Type} (value : Json) (key : Text) (read : Json → Option A) : Option A := (value.get key).bind read

/-- A member that has a default where it is missing. -/
def fieldOr {A : Type} (value : Json) (key : Text) (default : A) (read : Json → Option A) : Option A :=
  (value.get key).elim (some default) read

theorem asNat_ofNat {n bound : ℕ} (hn : n < bound) (hbound : bound ≤ 2 ^ 64) : asNat bound (ofNat n) = some n := by
  have hword : (UInt64.ofNat n).toNat = n := by
    rw [UInt64.toNat_ofNat']
    exact Nat.mod_eq_of_lt (by omega)
  simp [asNat, ofNat, asU64, hword, Option.filter, hn]

theorem asOption_ofOption {A : Type} {write : A → Json} {read : Json → Option A} {value : Option A}
    (hread : ∀ a ∈ value, read (write a) = some a) (hnull : ∀ a ∈ value, write a ≠ .null) :
    asOption read (ofOption write value) = some value := by
  cases value with
  | none => rfl
  | some a =>
    have hread := hread a rfl
    have hnull := hnull a rfl
    simp only [ofOption, Option.elim]
    unfold asOption
    split
    · contradiction
    · rw [hread]
      rfl

theorem asList_map {A : Type} {write : A → Json} {read : Json → Option A} {items : List A}
    (hread : ∀ a ∈ items, read (write a) = some a) : asList read (.array (items.map write)) = some items := by
  simp only [asList]
  induction items with
  | nil => rfl
  | cons a items ih =>
    rw [List.map_cons, List.mapM_cons, hread a List.mem_cons_self, ih fun b hb => hread b (List.mem_cons_of_mem a hb)]
    rfl

end Json

/-! ## The parts of an operation -/

def Heading.toJson (heading : Heading) : Json :=
  .object [("text".toList, .string heading.text), ("level".toList, .ofNat heading.level),
    ("ordinal".toList, .ofNat heading.ordinal)]

/-- A heading with no level is of the second. -/
def Heading.ofJson (value : Json) : Option Heading := do
  let text ← value.field "text".toList Json.asStr
  let level ← value.fieldOr "level".toList 2 (Json.asNat (2 ^ 8))
  let ordinal ← value.fieldOr "ordinal".toList 0 (Json.asNat (2 ^ 64))
  return { text, level, ordinal }

def Placement.toJson : Placement → Json
  | .end_ => .string "end".toList
  | .beforeChildren => .string "before_children".toList

def Placement.ofJson (value : Json) : Option Placement :=
  value.asStr.bind fun name =>
    if name = "end".toList then some .end_ else if name = "before_children".toList then some .beforeChildren else none

def Anchor.toJson (anchor : Anchor) : Json :=
  .object [("line_hash".toList, .string anchor.lineHash), ("ordinal".toList, .ofNat anchor.ordinal)]

def Anchor.ofJson (value : Json) : Option Anchor := do
  let lineHash ← value.field "line_hash".toList Json.asStr
  let ordinal ← value.fieldOr "ordinal".toList 0 (Json.asNat (2 ^ 64))
  return { lineHash, ordinal }

def Place.toJson : Place → Json
  | .top => .string "top".toList
  | .end_ => .string "end".toList
  | .after lineHash ordinal => .object [("after".toList, Anchor.toJson ⟨lineHash, ordinal⟩)]

/-- A place is a name, or an object with the anchor it is after as its one member. -/
def Place.ofJson : Json → Option Place
  | .string name => if name = "top".toList then some .top else if name = "end".toList then some .end_ else none
  | .object [(name, value)] =>
    if name = "after".toList then (Anchor.ofJson value).map fun anchor => .after anchor.lineHash anchor.ordinal else none
  | _ => none

/-- The numbers are of the widths the fields have. -/
def Heading.Fits (heading : Heading) : Prop := heading.level < 2 ^ 8 ∧ heading.ordinal < 2 ^ 64

def Place.ordinal : Place → ℕ
  | .after _ ordinal => ordinal
  | _ => 0

theorem Heading.ofJson_toJson {heading : Heading} (h : heading.Fits) : ofJson heading.toJson = some heading := by
  have hlevel : Json.asNat (2 ^ 8) (.ofNat heading.level) = some heading.level := Json.asNat_ofNat h.1 (by decide)
  have hordinal : Json.asNat (2 ^ 64) (.ofNat heading.ordinal) = some heading.ordinal := Json.asNat_ofNat h.2 le_rfl
  change (do
    let text ← some heading.text
    let level ← Json.asNat (2 ^ 8) (.ofNat heading.level)
    let ordinal ← Json.asNat (2 ^ 64) (.ofNat heading.ordinal)
    return { text, level, ordinal }) = some heading
  rw [hlevel, hordinal]
  rfl

theorem Placement.ofJson_toJson (placement : Placement) : ofJson placement.toJson = some placement := by
  cases placement <;> rfl

theorem Anchor.ofJson_toJson {anchor : Anchor} (h : anchor.ordinal < 2 ^ 64) : ofJson anchor.toJson = some anchor := by
  have hordinal : Json.asNat (2 ^ 64) (.ofNat anchor.ordinal) = some anchor.ordinal := Json.asNat_ofNat h le_rfl
  change (do
    let lineHash ← some anchor.lineHash
    let ordinal ← Json.asNat (2 ^ 64) (.ofNat anchor.ordinal)
    return { lineHash, ordinal }) = some anchor
  rw [hordinal]
  rfl

theorem Place.ofJson_toJson {place : Place} (h : place.ordinal < 2 ^ 64) : ofJson place.toJson = some place := by
  cases place with
  | top => rfl
  | end_ => rfl
  | after lineHash ordinal =>
    change (Anchor.ofJson (Anchor.toJson ⟨lineHash, ordinal⟩)).map (fun anchor => Place.after anchor.lineHash anchor.ordinal) =
      some (.after lineHash ordinal)
    rw [Anchor.ofJson_toJson h]
    rfl

/-! ## Operations -/

/-- The tag of an operation. -/
def Operation.kind : Operation → Text
  | .create .. => "create".toList
  | .append .. => "append".toList
  | .replaceLine .. => "replace_line".toList
  | .removeLine .. => "remove_line".toList
  | .replaceSection .. => "replace_section".toList
  | .moveBlock .. => "move_block".toList
  | .removeBlock .. => "remove_block".toList
  | .putFile .. => "put_file".toList
  | .moveFile .. => "move_file".toList

/-- The members of an operation after its tag; an append with no anchor leaves that member out. -/
def Operation.fields : Operation → List (Text × Json)
  | .create content => [("content".toList, .string content)]
  | .append heading lines placement blankLineBefore createFromTemplate after =>
    ("heading".toList, .ofOption Heading.toJson heading) :: ("lines".toList, .array (lines.map .string)) ::
      ("placement".toList, placement.toJson) :: ("blank_line_before".toList, .bool blankLineBefore) ::
      ("create_from_template".toList, .bool createFromTemplate) ::
      after.toList.map fun anchor => ("after".toList, anchor.toJson)
  | .replaceLine heading lineHash ordinal newLine =>
    [("heading".toList, .ofOption Heading.toJson heading), ("line_hash".toList, .string lineHash),
      ("ordinal".toList, .ofNat ordinal), ("new_line".toList, .string newLine)]
  | .removeLine heading lineHash ordinal | .removeBlock heading lineHash ordinal =>
    [("heading".toList, .ofOption Heading.toJson heading), ("line_hash".toList, .string lineHash),
      ("ordinal".toList, .ofNat ordinal)]
  | .replaceSection heading baseHash lines =>
    [("heading".toList, heading.toJson), ("base_hash".toList, .string baseHash),
      ("lines".toList, .array (lines.map .string))]
  | .moveBlock heading lineHash ordinal to_ place newLine createUnder =>
    [("heading".toList, .ofOption Heading.toJson heading), ("line_hash".toList, .string lineHash),
      ("ordinal".toList, .ofNat ordinal), ("to".toList, .ofOption Heading.toJson to_), ("place".toList, place.toJson),
      ("new_line".toList, .ofOption .string newLine), ("create_under".toList, .ofOption Heading.toJson createUnder)]
  | .putFile contentBase64 contentHash =>
    [("content_base64".toList, .string contentBase64), ("content_hash".toList, .string contentHash)]
  | .moveFile to_ => [("to".toList, .string to_)]

/-- An optional member, which may be missing or null. -/
def Json.maybe {A : Type} (value : Json) (key : Text) (read : Json → Option A) : Option (Option A) :=
  value.fieldOr key none (Json.asOption read)

/-- The ordinal of the line an operation is for. -/
def Json.lineOrdinal (value : Json) : Option ℕ := value.fieldOr "ordinal".toList 0 (Json.asNat (2 ^ 64))

def readCreate (value : Json) : Option Operation := do
  let content ← value.field "content".toList Json.asStr
  return .create content

def readAppend (value : Json) : Option Operation := do
  let heading ← value.maybe "heading".toList Heading.ofJson
  let lines ← value.field "lines".toList (Json.asList Json.asStr)
  let placement ← value.fieldOr "placement".toList .end_ Placement.ofJson
  let blankLineBefore ← value.fieldOr "blank_line_before".toList false Json.asBool
  let createFromTemplate ← value.fieldOr "create_from_template".toList false Json.asBool
  let after ← value.maybe "after".toList Anchor.ofJson
  return .append heading lines placement blankLineBefore createFromTemplate after

def readReplaceLine (value : Json) : Option Operation := do
  let heading ← value.maybe "heading".toList Heading.ofJson
  let lineHash ← value.field "line_hash".toList Json.asStr
  let ordinal ← value.lineOrdinal
  let newLine ← value.field "new_line".toList Json.asStr
  return .replaceLine heading lineHash ordinal newLine

def readRemoveLine (value : Json) : Option Operation := do
  let heading ← value.maybe "heading".toList Heading.ofJson
  let lineHash ← value.field "line_hash".toList Json.asStr
  let ordinal ← value.lineOrdinal
  return .removeLine heading lineHash ordinal

def readReplaceSection (value : Json) : Option Operation := do
  let heading ← value.field "heading".toList Heading.ofJson
  let baseHash ← value.field "base_hash".toList Json.asStr
  let lines ← value.field "lines".toList (Json.asList Json.asStr)
  return .replaceSection heading baseHash lines

def readMoveBlock (value : Json) : Option Operation := do
  let heading ← value.maybe "heading".toList Heading.ofJson
  let lineHash ← value.field "line_hash".toList Json.asStr
  let ordinal ← value.lineOrdinal
  let to_ ← value.maybe "to".toList Heading.ofJson
  let place ← value.fieldOr "place".toList .end_ Place.ofJson
  let newLine ← value.maybe "new_line".toList Json.asStr
  let createUnder ← value.maybe "create_under".toList Heading.ofJson
  return .moveBlock heading lineHash ordinal to_ place newLine createUnder

def readRemoveBlock (value : Json) : Option Operation := do
  let heading ← value.maybe "heading".toList Heading.ofJson
  let lineHash ← value.field "line_hash".toList Json.asStr
  let ordinal ← value.lineOrdinal
  return .removeBlock heading lineHash ordinal

def readPutFile (value : Json) : Option Operation := do
  let contentBase64 ← value.field "content_base64".toList Json.asStr
  let contentHash ← value.field "content_hash".toList Json.asStr
  return .putFile contentBase64 contentHash

def readMoveFile (value : Json) : Option Operation := do
  let to_ ← value.field "to".toList Json.asStr
  return .moveFile to_

/-- What reads the members of each kind. -/
def readers : Table Text (Json → Option Operation) :=
  [("create".toList, readCreate), ("append".toList, readAppend), ("replace_line".toList, readReplaceLine),
    ("remove_line".toList, readRemoveLine), ("replace_section".toList, readReplaceSection),
    ("move_block".toList, readMoveBlock), ("remove_block".toList, readRemoveBlock),
    ("put_file".toList, readPutFile), ("move_file".toList, readMoveFile)]

def Operation.ofJson (value : Json) : Option Operation :=
  (value.field "kind".toList Json.asStr).bind fun kind => (readers.get kind).bind fun read => read value

/-- The numbers the operation carries are of the widths the fields have. -/
structure Operation.Fits (operation : Operation) : Prop where
  headings : ∀ heading ∈ operation.headings, heading.Fits
  ordinals : match operation with
    | .append _ _ _ _ _ after => ∀ anchor ∈ after, anchor.ordinal < 2 ^ 64
    | .replaceLine _ _ ordinal _ | .removeLine _ _ ordinal | .removeBlock _ _ ordinal => ordinal < 2 ^ 64
    | .moveBlock _ _ ordinal _ place _ _ => ordinal < 2 ^ 64 ∧ place.ordinal < 2 ^ 64
    | _ => True

theorem Operation.kind_known (operation : Operation) : operation.kind ∈ knownKinds := by
  cases operation with
  | create => exact List.mem_of_getElem? (i := 0) rfl
  | append => exact List.mem_of_getElem? (i := 1) rfl
  | replaceLine => exact List.mem_of_getElem? (i := 2) rfl
  | removeLine => exact List.mem_of_getElem? (i := 3) rfl
  | replaceSection => exact List.mem_of_getElem? (i := 4) rfl
  | moveBlock => exact List.mem_of_getElem? (i := 5) rfl
  | removeBlock => exact List.mem_of_getElem? (i := 6) rfl
  | putFile => exact List.mem_of_getElem? (i := 7) rfl
  | moveFile => exact List.mem_of_getElem? (i := 8) rfl

theorem asOption_heading {heading : Option Heading} (h : ∀ a ∈ heading, a.Fits) :
    Json.asOption Heading.ofJson (.ofOption Heading.toJson heading) = some heading :=
  Json.asOption_ofOption (fun a ha => Heading.ofJson_toJson (h a ha)) fun _ _ => Json.noConfusion

theorem asList_string (lines : List Text) : Json.asList Json.asStr (.array (lines.map .string)) = some lines :=
  Json.asList_map fun _ _ => rfl

/-- A write with all the members of its document. -/
structure WriteForm where
  write : Write
  madeAt : Text
  deviceId : Text
deriving DecidableEq, Repr

/-- The canonical form: the header, the tag and the operation's members. -/
def WriteForm.toJson (form : WriteForm) : Json :=
  .object (("v".toList, .ofNat form.write.v) :: ("client_id".toList, .string form.write.clientId) ::
    ("path".toList, .string form.write.path) :: ("made_at".toList, .string form.madeAt) ::
    ("device_id".toList, .string form.deviceId) :: ("kind".toList, .string form.write.operation.kind) ::
    form.write.operation.fields)

def WriteForm.ofJson (value : Json) : Option WriteForm := do
  let v ← value.field "v".toList (Json.asNat (2 ^ 32))
  let clientId ← value.field "client_id".toList Json.asStr
  let path ← value.field "path".toList Json.asStr
  let madeAt ← value.fieldOr "made_at".toList [] Json.asStr
  let deviceId ← value.fieldOr "device_id".toList [] Json.asStr
  let operation ← Operation.ofJson value
  return { write := { v, clientId, path, operation }, madeAt, deviceId }

structure WriteForm.Fits (form : WriteForm) : Prop where
  version : form.write.v < 2 ^ 32
  operation : form.write.operation.Fits

/-- The tagged members give the operation back, whatever the header holds. -/
theorem Operation.ofJson_toJson {form : WriteForm} (h : form.write.operation.Fits) :
    Operation.ofJson form.toJson = some form.write.operation := by
  obtain ⟨⟨v, clientId, path, operation⟩, madeAt, deviceId⟩ := form
  obtain ⟨hheadings, hordinals⟩ := h
  cases operation with
  | create content => rfl
  | putFile contentBase64 contentHash => rfl
  | moveFile to_ => rfl
  | append heading lines placement blankLineBefore createFromTemplate after =>
    have hheading := asOption_heading fun a ha => hheadings a (by simpa [Operation.headings, Operation.heading] using ha)
    have hplacement := Placement.ofJson_toJson placement
    have hlines := asList_string lines
    cases after with
    | none =>
      change (do
        let heading ← Json.asOption Heading.ofJson (.ofOption Heading.toJson heading)
        let lines ← Json.asList Json.asStr (.array (lines.map .string))
        let placement ← Placement.ofJson placement.toJson
        return Operation.append heading lines placement blankLineBefore createFromTemplate none) = some _
      rw [hheading, hlines, hplacement]
      rfl
    | some anchor =>
      have hanchor := Anchor.ofJson_toJson (hordinals anchor rfl)
      change (do
        let heading ← Json.asOption Heading.ofJson (.ofOption Heading.toJson heading)
        let lines ← Json.asList Json.asStr (.array (lines.map .string))
        let placement ← Placement.ofJson placement.toJson
        let after ← (Anchor.ofJson anchor.toJson).map some
        return Operation.append heading lines placement blankLineBefore createFromTemplate after) = some _
      rw [hheading, hlines, hplacement, hanchor]
      rfl
  | replaceLine heading lineHash ordinal newLine =>
    have hheading := asOption_heading fun a ha => hheadings a (by simpa [Operation.headings, Operation.heading] using ha)
    change (do
      let heading ← Json.asOption Heading.ofJson (.ofOption Heading.toJson heading)
      let ordinal ← Json.asNat (2 ^ 64) (.ofNat ordinal)
      return Operation.replaceLine heading lineHash ordinal newLine) = some _
    rw [hheading, Json.asNat_ofNat hordinals le_rfl]
    rfl
  | removeLine heading lineHash ordinal =>
    have hheading := asOption_heading fun a ha => hheadings a (by simpa [Operation.headings, Operation.heading] using ha)
    change (do
      let heading ← Json.asOption Heading.ofJson (.ofOption Heading.toJson heading)
      let ordinal ← Json.asNat (2 ^ 64) (.ofNat ordinal)
      return Operation.removeLine heading lineHash ordinal) = some _
    rw [hheading, Json.asNat_ofNat hordinals le_rfl]
    rfl
  | replaceSection heading baseHash lines =>
    have hheading := Heading.ofJson_toJson (hheadings heading List.mem_cons_self)
    change (do
      let heading ← Heading.ofJson heading.toJson
      let lines ← Json.asList Json.asStr (.array (lines.map .string))
      return Operation.replaceSection heading baseHash lines) = some _
    rw [hheading, asList_string]
    rfl
  | moveBlock heading lineHash ordinal to_ place newLine createUnder =>
    have hheading : Json.asOption Heading.ofJson (.ofOption Heading.toJson heading) = some heading :=
      asOption_heading fun a ha => hheadings a (by simp [Operation.headings, Operation.heading, Option.mem_def.mp ha])
    have hto : Json.asOption Heading.ofJson (.ofOption Heading.toJson to_) = some to_ :=
      asOption_heading fun a ha => hheadings a (by simp [Operation.headings, Option.mem_def.mp ha])
    have hunder : Json.asOption Heading.ofJson (.ofOption Heading.toJson createUnder) = some createUnder :=
      asOption_heading fun a ha => hheadings a (by simp [Operation.headings, Option.mem_def.mp ha])
    have hnewLine : Json.asOption Json.asStr (.ofOption .string newLine) = some newLine :=
      Json.asOption_ofOption (fun _ _ => rfl) fun _ _ => Json.noConfusion
    change (do
      let heading ← Json.asOption Heading.ofJson (.ofOption Heading.toJson heading)
      let ordinal ← Json.asNat (2 ^ 64) (.ofNat ordinal)
      let to_ ← Json.asOption Heading.ofJson (.ofOption Heading.toJson to_)
      let place ← Place.ofJson place.toJson
      let newLine ← Json.asOption Json.asStr (.ofOption .string newLine)
      let createUnder ← Json.asOption Heading.ofJson (.ofOption Heading.toJson createUnder)
      return Operation.moveBlock heading lineHash ordinal to_ place newLine createUnder) = some _
    rw [hheading, Json.asNat_ofNat hordinals.1 le_rfl, hto, Place.ofJson_toJson hordinals.2, hnewLine, hunder]
    rfl
  | removeBlock heading lineHash ordinal =>
    have hheading := asOption_heading fun a ha => hheadings a (by simpa [Operation.headings, Operation.heading] using ha)
    change (do
      let heading ← Json.asOption Heading.ofJson (.ofOption Heading.toJson heading)
      let ordinal ← Json.asNat (2 ^ 64) (.ofNat ordinal)
      return Operation.removeBlock heading lineHash ordinal) = some _
    rw [hheading, Json.asNat_ofNat hordinals le_rfl]
    rfl

/-- A write read back from its own form is the write. -/
theorem WriteForm.ofJson_toJson {form : WriteForm} (h : form.Fits) : ofJson form.toJson = some form := by
  have hversion : Json.asNat (2 ^ 32) (.ofNat form.write.v) = some form.write.v := Json.asNat_ofNat h.version (by decide)
  change (do
    let v ← Json.asNat (2 ^ 32) (.ofNat form.write.v)
    let operation ← Operation.ofJson form.toJson
    return WriteForm.mk { v, clientId := form.write.clientId, path := form.write.path, operation } form.madeAt
      form.deviceId) = some form
  rw [hversion, Operation.ofJson_toJson h.operation]
  rfl

/-! ## Parsing -/

/-- Values whose members are the same are read as the same write, whatever order they are in. -/
theorem WriteForm.ofJson_congr {value other : Json} (h : ∀ key, value.get key = other.get key) :
    ofJson value = ofJson other := by
  have hreader (entry : Text × (Json → Option Operation)) (hentry : entry ∈ readers) :
      entry.2 value = entry.2 other := by
    simp only [readers, List.mem_cons, List.not_mem_nil, or_false] at hentry
    rcases hentry with rfl | rfl | rfl | rfl | rfl | rfl | rfl | rfl | rfl <;>
      simp only [readCreate, readAppend, readReplaceLine, readRemoveLine, readReplaceSection, readMoveBlock,
        readRemoveBlock, readPutFile, readMoveFile, Json.lineOrdinal, Json.maybe, Json.field, Json.fieldOr, h]
  have hoperation : Operation.ofJson value = Operation.ofJson other := by
    simp only [Operation.ofJson, Json.field, h]
    congr 1
    funext kind
    cases hread : readers.get kind with
    | none => rfl
    | some read =>
      obtain ⟨entry, hfind, rfl⟩ := Option.map_eq_some_iff.mp hread
      exact hreader entry (List.mem_of_find?_eq_some hfind)
  simp only [ofJson, Json.field, Json.fieldOr, h, hoperation]

/-- Parse and check a write document, all its members kept. -/
def parseForm (fromStr : Text → Except Text Json) (message : Json → Text) (json : Text) : Except WriteError WriteForm :=
  match fromStr json with
  | .error message => .error (.json message)
  | .ok value =>
    match value.version.filter (·.toNat ≠ writeVersion) with
    | some version => .error (.unsupportedVersion (min version.toNat (2 ^ 32 - 1)))
    | none =>
      match value.kind.filter (· ∉ knownKinds) with
      | some kind => .error (.unsupportedKind kind)
      | none =>
        match WriteForm.ofJson value with
        | none => .error (.json (message value))
        | some form =>
          match form.write.validate with
          | .error error => .error error
          | .ok () => .ok form

/-- What a text with a form's members in it, of this build's version, is parsed to. -/
theorem parseForm_eq {fromStr : Text → Except Text Json} {message : Json → Text} {json : Text} {value : Json}
    {form : WriteForm} (hread : fromStr json = .ok value) (hmembers : ∀ key, value.get key = form.toJson.get key)
    (hfits : form.Fits) (hversion : form.write.v = writeVersion) :
    parseForm fromStr message json = form.write.validate.map fun _ => form := by
  have hsame : value.version.filter (·.toNat ≠ writeVersion) = none := by
    have hv : value.version = some 1 := by
      rw [Json.version, hmembers]
      change some (UInt64.ofNat form.write.v) = some 1
      rw [hversion]
      rfl
    rw [hv]
    rfl
  have hknown : value.kind.filter (· ∉ knownKinds) = none := by
    have hk : value.kind = some form.write.operation.kind := by
      rw [Json.kind, hmembers]
      rfl
    simp [hk, Option.filter, Operation.kind_known]
  have hform : WriteForm.ofJson value = some form := by
    rw [WriteForm.ofJson_congr hmembers, WriteForm.ofJson_toJson hfits]
  simp only [parseForm, hread, hsame, hknown, hform]
  cases form.write.validate with
  | error error => rfl
  | ok _ => rfl

end Thock.SyncCore
