import Thock.Lib.TextScan

/-!
# The write document

What the phone encrypts into a write and the desk applies: an operation with the path it is
for, and the checks a document passes before either end applies it, made on the parsed
document.
-/

namespace Thock.SyncCore

open TextScan

/-- The heading a write targets; `level` is used only when the heading is created. -/
structure Heading where
  text : Text
  level : ℕ
  ordinal : ℕ
deriving DecidableEq, Repr

/-- The line that creates a heading where a note lacks it. -/
def Heading.line (heading : Heading) : Text :=
  List.replicate (min (max heading.level 1) 6) '#' ++ [' '] ++ trim heading.text

/-- Where an append lands inside its section. -/
inductive Placement
  | end_
  | beforeChildren
deriving DecidableEq, Repr

/-- The line an append lands after, with its indented continuation. -/
structure Anchor where
  lineHash : Text
  ordinal : ℕ
deriving DecidableEq, Repr

/-- Where a block lands inside its destination group. -/
inductive Place
  | top
  | end_
  | after (lineHash : Text) (ordinal : ℕ)
deriving DecidableEq, Repr

inductive Operation
  | create (content : Text)
  | append (heading : Option Heading) (lines : List Text) (placement : Placement) (blankLineBefore : Bool)
      (createFromTemplate : Bool) (after : Option Anchor)
  | replaceLine (heading : Option Heading) (lineHash : Text) (ordinal : ℕ) (newLine : Text)
  | removeLine (heading : Option Heading) (lineHash : Text) (ordinal : ℕ)
  | replaceSection (heading : Heading) (baseHash : Text) (lines : List Text)
  | moveBlock (heading : Option Heading) (lineHash : Text) (ordinal : ℕ) (to_ : Option Heading) (place : Place)
      (newLine : Option Text) (createUnder : Option Heading)
  | removeBlock (heading : Option Heading) (lineHash : Text) (ordinal : ℕ)
  | putFile (contentBase64 : Text) (contentHash : Text)
  | moveFile (to_ : Text)
deriving DecidableEq, Repr

/-- Whether the write changes files rather than the text inside one. -/
def Operation.isFileLevel : Operation → Bool
  | .putFile .. => true
  | .moveFile .. => true
  | _ => false

def Operation.heading : Operation → Option Heading
  | .create _ => none
  | .putFile .. => none
  | .moveFile _ => none
  | .append heading .. => heading
  | .replaceLine heading .. => heading
  | .removeLine heading .. => heading
  | .moveBlock heading .. => heading
  | .removeBlock heading .. => heading
  | .replaceSection heading .. => some heading

/-- Every heading the write names. -/
def Operation.headings (operation : Operation) : List Heading :=
  operation.heading.toList ++ match operation with
    | .moveBlock _ _ _ to_ _ _ createUnder => to_.toList ++ createUnder.toList
    | _ => []

/-- Whether a missing note is made from its template. -/
def Operation.createFromTemplate : Operation → Bool
  | .append _ _ _ _ createFromTemplate _ => createFromTemplate
  | _ => false

structure Write where
  v : ℕ
  clientId : Text
  path : Text
  operation : Operation
deriving DecidableEq, Repr

/-- The document format both ends read and write. -/
def writeVersion : ℕ := 1

inductive WriteError
  | json (message : Text)
  | unsupportedVersion (version : ℕ)
  | unsupportedKind (kind : Text)
  | missingClientId
  | missingPath
  | lineBreakInLine
  | emptyHeading
  | badDestination
  | missingBytes
deriving DecidableEq, Repr

def hasBreak (line : Text) : Bool := '\n' ∈ line || '\r' ∈ line

/-- Whether a line the operation carries has a line break in it. -/
def Operation.broken : Operation → Bool
  | .append _ lines .. => lines.any hasBreak
  | .replaceSection _ _ lines => lines.any hasBreak
  | .replaceLine _ _ _ newLine => hasBreak newLine
  | .moveBlock _ _ _ _ _ newLine _ => newLine.any hasBreak
  | _ => false

/-- The checks on a parsed document. -/
def Write.validate (write : Write) : Except WriteError Unit :=
  if write.v ≠ writeVersion then .error (.unsupportedVersion write.v)
  else if (trim write.clientId).isEmpty then .error .missingClientId
  else if (trim write.path).isEmpty then .error .missingPath
  else if write.operation.headings.any fun heading => (trim heading.text).isEmpty then .error .emptyHeading
  else if write.operation.broken then .error .lineBreakInLine
  else match write.operation with
    | .moveFile to_ => if (trim to_).isEmpty ∨ to_ = write.path then .error .badDestination else .ok ()
    | .putFile contentBase64 contentHash =>
      if (trim contentBase64).isEmpty ∨ (trim contentHash).isEmpty then .error .missingBytes else .ok ()
    | _ => .ok ()

/-- What is asked of a write that changes files. -/
def Write.FileRule (write : Write) : Prop :=
  match write.operation with
  | .moveFile to_ => ¬Blank to_ ∧ to_ ≠ write.path
  | .putFile contentBase64 contentHash => ¬Blank contentBase64 ∧ ¬Blank contentHash
  | _ => True

/-- The documents that pass the checks. -/
theorem Write.validate_eq_ok_iff {write : Write} :
    write.validate = .ok () ↔
      write.v = writeVersion ∧ ¬Blank write.clientId ∧ ¬Blank write.path ∧
        (∀ heading ∈ write.operation.headings, ¬Blank heading.text) ∧ write.operation.broken = false ∧
        write.FileRule := by
  have hheadings : (write.operation.headings.any fun heading => (trim heading.text).isEmpty) = true ↔
      ¬∀ heading ∈ write.operation.headings, ¬Blank heading.text := by
    simp [trim_eq_nil_iff]
  have hrule : (match write.operation with
      | .moveFile to_ =>
        if (trim to_).isEmpty ∨ to_ = write.path then Except.error WriteError.badDestination else .ok ()
      | .putFile contentBase64 contentHash =>
        if (trim contentBase64).isEmpty ∨ (trim contentHash).isEmpty then .error .missingBytes else .ok ()
      | _ => .ok ()) = .ok () ↔ write.FileRule := by
    simp only [FileRule]
    cases write.operation <;> simp [trim_eq_nil_iff]
  simp only [validate, List.isEmpty_iff, trim_eq_nil_iff] at hheadings hrule ⊢
  simp only [hheadings]
  by_cases hv : write.v = writeVersion
  case neg => simp [hv]
  by_cases hclient : Blank write.clientId
  case pos => simp [hv, hclient]
  by_cases hpath : Blank write.path
  case pos => simp [hv, hclient, hpath]
  by_cases hnamed : ∀ heading ∈ write.operation.headings, ¬Blank heading.text
  case neg =>
    rw [if_neg (not_not.mpr hv), if_neg hclient, if_neg hpath, if_pos hnamed]
    exact iff_of_false (fun h => by cases h) fun h => hnamed h.2.2.2.1
  rw [if_neg (not_not.mpr hv), if_neg hclient, if_neg hpath, if_neg (not_not.mpr hnamed)]
  cases hbroken : write.operation.broken with
  | true => simp
  | false =>
    rw [if_neg Bool.false_ne_true]
    refine hrule.trans ?_
    exact ⟨fun h => ⟨hv, hclient, hpath, hnamed, rfl, h⟩, fun h => h.2.2.2.2.2⟩

end Thock.SyncCore
