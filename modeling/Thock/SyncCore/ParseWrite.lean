import Thock.Lib.Table
import Thock.SyncCore.Write

/-!
# Reading a write document

What is looked at before a document is taken for a write: its version and its kind, so that a
write from a newer phone is told from garbage. The JSON reader and the decoding of a value
into a write are parameters.
-/

namespace Thock.SyncCore

open TextScan

/-- A number as the JSON reader keeps it. -/
inductive JsonNumber
  | unsigned (n : UInt64)
  | negative (n : ℤ)
  | float (text : Text)

inductive Json
  | null
  | bool (b : Bool)
  | number (n : JsonNumber)
  | string (text : Text)
  | array (items : List Json)
  | object (members : List (Text × Json))

/-- A member of an object. -/
def Json.get (value : Json) (key : Text) : Option Json :=
  match value with
  | .object members => Table.get members key
  | _ => none

def Json.asU64 : Json → Option UInt64
  | .number (.unsigned n) => some n
  | _ => none

def Json.asStr : Json → Option Text
  | .string text => some text
  | _ => none

/-- Every kind this build applies. -/
def knownKinds : List Text :=
  ["create".toList, "append".toList, "replace_line".toList, "remove_line".toList, "replace_section".toList,
    "move_block".toList, "remove_block".toList, "put_file".toList, "move_file".toList]

/-- Whether the write is well formed but from a newer build; a version below this one never was readable. -/
def WriteError.needsNewerReader : WriteError → Bool
  | .unsupportedVersion version => decide (writeVersion < version)
  | .unsupportedKind _ => true
  | _ => false

/-- The JSON library: reading a text, and decoding a value into a write. -/
structure Serde where
  fromStr : Text → Except Text Json
  fromValue : Json → Except Text Write

/-- The version a document names, when it is a number that a version can be. -/
def Json.version (value : Json) : Option UInt64 := (value.get ['v']).bind Json.asU64

/-- The kind a document names, when it is a text. -/
def Json.kind (value : Json) : Option Text := (value.get "kind".toList).bind Json.asStr

/-- Another version is reported before another kind, and either before the document's fields are read. -/
def readWrite (serde : Serde) (value : Json) : Except WriteError Write :=
  match value.version.filter (·.toNat ≠ writeVersion) with
  | some version => .error (.unsupportedVersion (min version.toNat (2 ^ 32 - 1)))
  | none =>
    match value.kind.filter (· ∉ knownKinds) with
    | some kind => .error (.unsupportedKind kind)
    | none =>
      match serde.fromValue value with
      | .error message => .error (.json message)
      | .ok write =>
        match write.validate with
        | .error error => .error error
        | .ok () => .ok write

/-- Parse and check a write document. -/
def parseWrite (serde : Serde) (json : Text) : Except WriteError Write :=
  match serde.fromStr json with
  | .error message => .error (.json message)
  | .ok value => readWrite serde value

/-- A document from a newer phone: a version above this build's, or an unknown kind and no version below it. -/
def Json.FromNewer (value : Json) : Prop :=
  (∃ version, value.version = some version ∧ writeVersion < version.toNat) ∨
    ((∀ version, value.version = some version → writeVersion ≤ version.toNat) ∧
      ∃ kind, value.kind = some kind ∧ kind ∉ knownKinds)

/-- A document from a newer phone is reported as one that needs a newer reader, whatever else it holds. -/
theorem readWrite_newer (serde : Serde) {value : Json} (h : value.FromNewer) :
    ∃ error, readWrite serde value = .error error ∧ error.needsNewerReader = true := by
  by_cases hversion : ∃ version, value.version = some version ∧ writeVersion < version.toNat
  · obtain ⟨version, hv, hlt⟩ := hversion
    have hother : value.version.filter (·.toNat ≠ writeVersion) = some version := by
      simp [hv, Option.filter, Nat.ne_of_gt hlt]
    refine ⟨.unsupportedVersion (min version.toNat (2 ^ 32 - 1)), by rw [readWrite, hother], ?_⟩
    apply decide_eq_true
    simp only [writeVersion] at hlt ⊢
    omega
  · obtain ⟨hbelow, kind, hk, hunknown⟩ := h.resolve_left hversion
    have hsame : value.version.filter (·.toNat ≠ writeVersion) = none := by
      rw [Option.filter_eq_none_iff]
      intro version hv
      have hle : ¬ writeVersion < version.toNat := fun hlt => hversion ⟨version, hv, hlt⟩
      have hge := hbelow version hv
      simp only [ne_eq, decide_not, Bool.not_eq_eq_eq_not, Bool.not_true, decide_eq_false_iff_not, not_not]
      omega
    have hnamed : value.kind.filter (· ∉ knownKinds) = some kind := by
      simp [hk, Option.filter, hunknown]
    exact ⟨.unsupportedKind kind, by rw [readWrite, hsame, hnamed], rfl⟩

end Thock.SyncCore
