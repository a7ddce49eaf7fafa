import Thock.SyncCore.Apply
import Thock.SyncCore.Dates
import Thock.SyncCore.Paths

/-!
# What the desk's writing tools check

A line that `remember` or `note_today` is to write is one fact: not empty, one line, short, without a
bullet of its own, and about nothing that is a secret or that the person forbids.

The credential shapes, the topics a profile forbids, and what the date library and the vault's
configuration give are parameters.
-/

namespace Thock.Desk.Bridge

open TextScan SyncCore

def factMaxChars : ℕ := 300

/-- What the desk asks of its libraries and of the vault's configuration. -/
structure Host where
  prim : Primitives
  looksLikeCredential : Text → Option Text
  forbiddenTopics : Text → List Text
  dayOf : ℕ → Day
  dayNumber : Day → ℤ
  writeDay : Day → Text
  parseDay : Text → Option Day
  dailyPath : Day → Text
  templatePath : Text
  expandTemplate : Text → Day → ℕ → Text
  todayHeading : Text

/-! ## The checks -/

inductive FilterRefusal
  | empty
  | tooLong
  | multiline
  | leadingBullet
  | forbiddenTopic (topic : Text)
  | credential (kind : Text)
deriving DecidableEq, Repr

/-- Lowercased alphanumeric runs. -/
def words (host : Host) (text : Text) : List Text :=
  ((text.splitOnP fun c => !host.prim.isAlphanumeric c).filter fun word => !word.isEmpty).map host.prim.lowercase

/-- The shape, credential and forbidden-topic filters; the trimmed line may be written. -/
def checkFact (host : Host) (text : Text) (forbidden : List Text) : Except FilterRefusal Text :=
  let trimmed := trim text
  if trimmed.isEmpty then .error .empty
  else if '\n' ∈ trimmed ∨ '\r' ∈ trimmed then .error .multiline
  else if factMaxChars < trimmed.length then .error .tooLong
  else if "- ".toList.isPrefixOf trimmed ∨ "* ".toList.isPrefixOf trimmed then .error .leadingBullet
  else match host.looksLikeCredential trimmed with
    | some kind => .error (.credential kind)
    | none =>
      match forbidden.find? fun topic => topic ∈ words host trimmed with
      | some topic => .error (.forbiddenTopic topic)
      | none => .ok trimmed

end Thock.Desk.Bridge
