import Thock.ThockKit.TextFile

/-!
# The phone's write document

One flat record for every kind of write, as the phone keeps it, and the checks it makes before
a write is used. A document's JSON form is left out.
-/

namespace Thock.ThockKit

open TextScan
open SyncCore (Heading Placement Anchor Place Write Operation)

inductive WriteKind
  | create
  | append
  | replaceLine
  | removeLine
  | replaceSection
  | moveBlock
  | removeBlock
  | moveFile
  | putFile
deriving DecidableEq, Repr

structure WriteDocument where
  version : ℕ := 1
  clientId : Text
  kind : WriteKind
  path : Text
  content : Option Text := none
  heading : Option Heading := none
  lines : List Text := []
  placement : Placement := .end_
  after : Option Anchor := none
  blankLineBefore : Bool := false
  createFromTemplate : Bool := false
  lineHash : Option Text := none
  ordinal : ℕ := 0
  newLine : Option Text := none
  baseHash : Option Text := none
  to_ : Option Heading := none
  place : Place := .end_
  createUnder : Option Heading := none
  toPath : Option Text := none
  contentBase64 : Option Text := none
  contentHash : Option Text := none
deriving DecidableEq, Repr

/-- Whether a text is there and has more than blanks in it. -/
def holds (text : Option Text) : Bool := text.any fun text => !(trimmingCharacters isWhitespacesSet text).isEmpty

/-- What each kind of write must carry. -/
def WriteDocument.complete (document : WriteDocument) : Bool :=
  match document.kind with
  | .create => document.content.isSome
  | .append => true
  | .replaceLine => document.lineHash.isSome && document.newLine.isSome
  | .removeLine => document.lineHash.isSome
  | .replaceSection => document.heading.isSome && document.baseHash.isSome
  | .moveBlock => document.lineHash.isSome
  | .removeBlock => document.lineHash.isSome
  | .moveFile => holds document.toPath && document.toPath != some document.path
  | .putFile => holds document.contentBase64 && holds document.contentHash

/-- The checks on a parsed document; ordinals are natural numbers here. -/
def WriteDocument.validate (document : WriteDocument) : Bool :=
  document.version = 1 && holds (some document.clientId) && holds (some document.path) &&
    ([document.heading, document.to_, document.createUnder].reduceOption.all fun heading =>
      !(trimmingCharacters isWhitespacesAndNewlines heading.text).isEmpty && decide (heading.level ≤ 255)) &&
    !((document.newLine.toList ++ document.lines).any SyncCore.hasBreak) && document.complete

end Thock.ThockKit
