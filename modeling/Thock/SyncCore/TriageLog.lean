import Thock.Lib.TextBytes

/-!
# The triage log

The line a decision about an inbox note leaves in the log, and the reader that finds the decision
again. The title is free text, so the reader takes the marker from the end of the line, the day from
its beginning, and the destination from behind the last arrow.
-/

namespace Thock.SyncCore

open TextScan

/-- The digests a line can carry. -/
def Carried (digest : Text) : Prop :=
  digest ≠ [] ∧ (asBytes digest).length ≤ 64 ∧ ∀ c ∈ digest, isWhitespace c = false

instance (digest : Text) : Decidable (Carried digest) := inferInstanceAs (Decidable (_ ∧ _ ∧ _))

/-- One line of the log that carries a capture marker. -/
structure TriageLogLine where
  day : Text
  title : Text
  destination : Text
  digest : Text
  dated : ¬Blank day
  decided : ¬Blank destination
  carried : Carried digest
deriving DecidableEq

def logBullet : Text := "- ".toList

def logDot : Text := " · ".toList

def logArrow : Text := " → ".toList

def inboxMarkerOpen : Text := " <!--inbox:".toList

def inboxMarkerClose : Text := "-->".toList

def triageLogLine (day title destination : Text) : Option Text → Text
  | some digest =>
    logBullet ++ day ++ logDot ++ title ++ logArrow ++ destination ++ inboxMarkerOpen ++ digest ++ inboxMarkerClose
  | none => logBullet ++ day ++ logDot ++ title ++ logArrow ++ destination

def parseTriageLogLine (line : Text) : Option TriageLogLine :=
  (stripPrefix logBullet (trimEnd line)).bind fun rest =>
  (splitLast inboxMarkerOpen rest).bind fun (rest, marker) =>
  (stripSuffix inboxMarkerClose marker).bind fun marker =>
  if hdigest : Carried (trim marker) then
    (splitFirst logDot rest).bind fun (day, rest) =>
    -- The title may hold an arrow of its own; the destination never does.
    (splitLast logArrow rest).bind fun (title, destination) =>
    if hsaid : ¬Blank day ∧ ¬Blank destination then
      some ⟨day, title, destination, trim marker, hsaid.1, hsaid.2, hdigest⟩
    else none
  else none

theorem trim_of_carried {digest : Text} (h : Carried digest) : trim digest = digest := by
  apply trim_of_tight
  · exact fun c hc => h.2.2 c (List.mem_of_head? hc)
  · exact fun c hc => h.2.2 c (List.mem_of_getLast? hc)

/-- What follows the first dot and the last arrow of a line is found, whatever the title. -/
theorem split_logged {day destination : Text} (title : Text) (hday : '·' ∉ day) (hdestination : '→' ∉ destination) :
    splitFirst logDot (day ++ logDot ++ (title ++ logArrow ++ destination)) =
        some (day, title ++ logArrow ++ destination) ∧
      splitLast logArrow (title ++ logArrow ++ destination) = some (title, destination) :=
  ⟨splitFirst_of_mid [' '] [' '] _ hday (by decide), splitLast_of_mid [' '] [' '] _ hdestination (by decide)⟩

theorem trimEnd_logged (day title destination digest : Text) :
    trimEnd (triageLogLine day title destination (some digest)) = triageLogLine day title destination (some digest) := by
  apply trimEnd_of_untrailed
  intro c hc
  rw [triageLogLine, List.getLast?_append_of_ne_nil _ (by decide)] at hc
  obtain rfl : '>' = c := by simpa [inboxMarkerClose] using hc
  decide

/-- Every line that names a day reads back as its day, title, destination and digest; the reader
knows no line without a day. -/
theorem triage_line_reads_back {day destination digest : Text} (title : Text) (hday : '·' ∉ day)
    (hdecided : ¬Blank destination) (hdestination : '→' ∉ destination) (hdigest : Carried digest) :
    parseTriageLogLine (triageLogLine day title destination (some digest)) =
      if hdated : Blank day then none else some ⟨day, title, destination, digest, hdated, hdecided, hdigest⟩ := by
  have hbullet : stripPrefix logBullet (triageLogLine day title destination (some digest)) =
      some (day ++ logDot ++ (title ++ logArrow ++ destination) ++ inboxMarkerOpen ++ (digest ++ inboxMarkerClose)) := by
    rw [stripPrefix_eq_some, triageLogLine]
    simp only [List.append_assoc]
  have hspace : ' ' ∉ digest ++ inboxMarkerClose := by
    rw [List.mem_append, not_or]
    exact ⟨fun hmem => absurd (hdigest.2.2 ' ' hmem) (by decide), by decide⟩
  have hmarker : splitLast inboxMarkerOpen
      (day ++ logDot ++ (title ++ logArrow ++ destination) ++ inboxMarkerOpen ++ (digest ++ inboxMarkerClose)) =
      some (day ++ logDot ++ (title ++ logArrow ++ destination), digest ++ inboxMarkerClose) :=
    splitLast_of_head _ _ hspace (by decide)
  have hclose : stripSuffix inboxMarkerClose (digest ++ inboxMarkerClose) = some digest := by
    rw [stripSuffix_eq_some]
  obtain ⟨hdot, harrow⟩ := split_logged title hday hdestination
  rw [parseTriageLogLine, trimEnd_logged, hbullet, Option.bind_some, hmarker, Option.bind_some]
  dsimp only
  rw [hclose, Option.bind_some]
  simp only [trim_of_carried hdigest]
  rw [dif_pos hdigest, hdot, Option.bind_some]
  dsimp only
  rw [harrow, Option.bind_some]
  dsimp only
  by_cases hdated : Blank day
  · rw [dif_neg fun h => h.1 hdated, dif_pos hdated]
  · rw [dif_pos ⟨hdated, hdecided⟩, dif_neg hdated]

/-- A title with an arrow, a dot and a marker of its own. -/
theorem triage_line_reads_back_forged :
    parseTriageLogLine (triageLogLine "2026-11-02".toList "A → B · C <!--inbox:ab-->".toList "Archived".toList
      (some "4d1f".toList)) =
    some ⟨"2026-11-02".toList, "A → B · C <!--inbox:ab-->".toList, "Archived".toList, "4d1f".toList,
      by decide, by decide, by decide⟩ := by
  have hread := @triage_line_reads_back "2026-11-02".toList "Archived".toList "4d1f".toList
    "A → B · C <!--inbox:ab-->".toList (by decide) (by decide) (by decide) (by decide)
  rwa [dif_neg (by decide)] at hread

/-- A line whose day is empty has the other parts and is not read back. -/
theorem triage_line_undated :
    ¬∀ day title destination digest : Text, '·' ∉ day → ¬Blank destination → '→' ∉ destination → Carried digest →
      ∃ line, parseTriageLogLine (triageLogLine day title destination (some digest)) = some line ∧ line.day = day ∧
        line.title = title ∧ line.destination = destination ∧ line.digest = digest := by
  intro h
  obtain ⟨line, hline, -⟩ := h [] "Call Ana".toList "Archived".toList "4d1f".toList (by decide) (by decide) (by decide)
    (by decide)
  have hnone : parseTriageLogLine (triageLogLine [] "Call Ana".toList "Archived".toList (some "4d1f".toList)) = none := by
    decide +kernel
  rw [hnone] at hline
  cases hline

end Thock.SyncCore
