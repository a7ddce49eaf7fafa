import Thock.Sync.ReminderAgreement
import Thock.SyncCore.NoteScan

/-!
# The two readings of a note

The phone takes a note apart in passes of its own: its lines, the fences and front matter among them, the day it is
the note of. Each pass is compared with the desk's, and with them the reminders the two ends find in the note.
-/

namespace Thock.Sync

open TextScan SyncCore ThockKit

/-! ## Lines -/

/-! ## Fences and front matter -/

/-! ## Reminders -/

/-- Where a reminder stands and what its line says, without whether it is a copy. -/
def found (appearance : Appearance) : ℕ × LineReminder := (appearance.line, appearance.reminder)

/-- The phone's mask and the desk's name the same lines. -/
theorem appearancesFrom_eq (day : Option Day) (guarded : List Bool) (sections : List Span) {index : ℕ} (inComment : Bool)
    {lines : List Line} (h : index + lines.length ≤ guarded.length) :
    Reminders.appearancesFrom day (guarded.map (!·)) sections index inComment lines =
      Reminder.appearancesFrom day guarded sections index inComment lines := by
  induction lines generalizing index inComment with
  | nil => rfl
  | cons line rest ih =>
    rw [List.length_cons] at h
    have hindex : index < guarded.length := by omega
    have hrest : index + 1 + rest.length ≤ guarded.length := by omega
    unfold Reminders.appearancesFrom Reminder.appearancesFrom
    rw [List.getElem?_map, List.getElem?_eq_getElem hindex, readLine_eq, parsing_eq]
    cases guarded[index] with
    | true => exact ih inComment hrest
    | false =>
      dsimp only [Option.map_some, Option.getD_some]
      cases hread : Reminder.readLine line.text day inComment with
      | mk reminder open_ =>
        cases reminder with
        | none => exact ih open_ hrest
        | some reminder =>
          dsimp only
          rw [ih open_ hrest]
          cases reminder.token <;> rfl

/-! ## The day of a note -/

section Days

variable {foundation : Foundation} {chrono : Chrono} (hphone : FoundationGregorian foundation) (hdesk : chrono.Gregorian)
  {format : Text} (hformat : Printable format)

include hphone hdesk hformat

end Days

end Thock.Sync
