import Thock.Desk.CalendarWords
import Thock.Desk.PlanSections

/-!
# Polling an unchanged calendar

A note that was just reconciled is reconciled again with the same events. The second poll leaves a
line alone when the text the first one put there reads back as the event's: a title, or what
follows a cancelled mark, that is itself in the cancelled form is written again by every poll, and
the text of an event without times that starts with a time is read as a line with times.
-/

namespace Thock.Desk

open TextScan

/-! ## A line that is left alone -/

/-- What is struck through and what follows the mark, of a text in the cancelled form. -/
def cancelledText (text : Text) : Option (Text × Text) :=
  (stripPrefix "~~".toList text).bind (splitFirst cancelledSuffix)

theorem SyncedLine.cancelledParts_text (l : SyncedLine) : l.cancelledParts = cancelledText l.text := rfl

/-- A text put on an event's line reads back as the event's: writing what it reads as gives the same
again, or the title is not found and the line is the person's. -/
def CalendarEvent.ReadsBack (event : CalendarEvent) (text gap : Text) : Prop :=
  let region := Region.parse (trimStart (tokenAndText event.token text ++ gap))
  match cancelledText region.text with
  | some (_, after) =>
    tokenAndText event.token (trimEnd (event.title ++ after)) = region.token.getD [] ++ region.space ++ region.text
  | none => titleTrailing region.text event.title = none ∨ region.token = event.token

instance (event : CalendarEvent) (text gap : Text) : Decidable (event.ReadsBack text gap) :=
  match h : cancelledText (Region.parse (trimStart (tokenAndText event.token text ++ gap))).text with
  | some (inner, after) =>
    decidable_of_iff
      (tokenAndText event.token (trimEnd (event.title ++ after)) =
        (Region.parse (trimStart (tokenAndText event.token text ++ gap))).token.getD [] ++
          (Region.parse (trimStart (tokenAndText event.token text ++ gap))).space ++
          (Region.parse (trimStart (tokenAndText event.token text ++ gap))).text)
      (by simp only [CalendarEvent.ReadsBack, h])
  | none =>
    decidable_of_iff
      (titleTrailing (Region.parse (trimStart (tokenAndText event.token text ++ gap))).text event.title = none ∨
        (Region.parse (trimStart (tokenAndText event.token text ++ gap))).token = event.token)
      (by simp only [CalendarEvent.ReadsBack, h])

/-- An event's update of a line is the line. -/
def SyncedLine.Steady (l : SyncedLine) (event : CalendarEvent) : Prop := ∀ text ∈ l.updatedFor event, text = l.line

/-- A line is its head, region, marker and tail, rewritten or not. -/
theorem SyncedLine.rebuilt_own {row : ℕ} {line : Text} {l : SyncedLine} (hl : SyncedLine.parse row line = some l)
    (token : Option Text) (text : Text) :
    l.rebuilt token text none = l.line ↔ tokenAndText token text = l.token.getD [] ++ l.space ++ l.text := by
  obtain ⟨region, payload, -, hregion, -, -, -, hform⟩ := SyncedLine.parse_some hl
  obtain ⟨-, -, -, -, -, hspace⟩ := Region.parse_parts hregion
  obtain ⟨-, hsame, hline, -, -⟩ := SyncedLine.parse_line hl
  have hbefore : (if l.token.isSome then l.head else l.head ++ l.space) = l.head := by
    split
    · rfl
    · rename_i hnone
      have htoken : l.token = none := by simpa using hnone
      rw [hform] at htoken ⊢
      simp only [SyncedLine.ofPieces] at htoken ⊢
      rw [hspace htoken, List.append_nil]
  have hrebuilt : l.rebuilt token text none = l.head ++ (tokenAndText token text ++ (l.gap ++ l.marker ++ l.tail)) := by
    unfold rebuilt
    rw [hbefore]
    cases token <;> simp [tokenAndText]
  have hown : l.line = l.head ++ (l.token.getD [] ++ l.space ++ l.text ++ (l.gap ++ l.marker ++ l.tail)) := by
    rw [hsame]
    conv_lhs => rw [hline]
    simp
  rw [hrebuilt, hown, List.append_cancel_left_eq, List.append_cancel_right_eq]

/-- A line whose times are not the event's is not what the event writes. -/
theorem SyncedLine.rewritten_ne {row : ℕ} {line : Text} {l : SyncedLine} (hl : SyncedLine.parse row line = some l)
    {event : CalendarEvent} (htoken : l.token ≠ event.token) :
    tokenAndText event.token l.text ≠ l.token.getD [] ++ l.space ++ l.text := by
  intro heq
  obtain ⟨region, payload, -, hregion, -, -, -, hform⟩ := SyncedLine.parse_some hl
  obtain ⟨hparts, -, -, -, hgap, -⟩ := Region.parse_parts hregion
  have hown : l.token = (Region.parse region).token ∧ l.space = (Region.parse region).space ∧
      l.text = (Region.parse region).text ∧ l.gap = (Region.parse region).gap := by
    rw [hform]
    exact ⟨rfl, rfl, rfl, rfl⟩
  rw [← hown.1, ← hown.2.1, ← hown.2.2.1, ← hown.2.2.2] at hparts
  cases htime : event.time with
  | none =>
    have hnone : event.token = none := by
      rw [CalendarEvent.token, htime]
      rfl
    rw [hnone] at heq htoken
    cases htok : l.token with
    | none => exact htoken htok
    | some token =>
      obtain ⟨start, rest, hsplit, hlead⟩ := Region.parse_token (hown.1 ▸ htok)
      obtain ⟨token', rest', hne, -, hlength, -, -⟩ := leadingTimeToken_prefix hlead
      rw [htok] at heq
      have hlen := congrArg List.length heq
      have hpos : 0 < token'.length := List.length_pos_of_ne_nil hne
      simp [tokenAndText] at hlen
      omega
  | some t =>
    have hsome : event.token = some (formatTimeToken t.start t.stop) := by
      rw [CalendarEvent.token, htime]
      rfl
    have hread : (Region.parse region).token = some (formatTimeToken t.start t.stop) := by
      have hwritten : region = formatTimeToken t.start t.stop ++ (spaced l.text ++ l.gap) := by
        rw [hparts, ← heq, hsome]
        simp [tokenAndText, spaced]
      have hlead := leadingTimeToken_format t (endsWord_spaced l.text (hown.2.2.2 ▸ hgap))
      rw [← hwritten] at hlead
      unfold Region.parse
      have hpos : 0 < (formatTimeToken t.start t.stop).length := by simp [formatTimeToken, pad2]
      rw [hlead]
      simp only [hpos, if_true]
      conv_lhs => rw [hwritten]
      rw [List.take_left]
    exact htoken (hown.1.trans (hread.trans hsome.symm))

/-- When a line is left alone, of a line whose marker needs no change. -/
theorem SyncedLine.steady_iff {row : ℕ} {line : Text} {l : SyncedLine} (hl : SyncedLine.parse row line = some l)
    {event : CalendarEvent} (hmarker : l.markerUpdateFor event.kind = none) :
    l.Steady event ↔ match cancelledText l.text with
      | some (_, after) =>
        tokenAndText event.token (trimEnd (event.title ++ after)) = l.token.getD [] ++ l.space ++ l.text
      | none => titleTrailing l.text event.title = none ∨ l.token = event.token := by
  unfold Steady updatedFor
  rw [l.cancelledParts_text]
  cases hcancelled : cancelledText l.text with
  | some parts =>
    dsimp only
    rw [hmarker, ← SyncedLine.rebuilt_own hl]
    simp
  | none =>
    dsimp only
    cases htitle : titleTrailing l.text event.title with
    | none => simp
    | some trailing =>
      dsimp only
      have htext : trimEnd (event.title ++ trailing) = l.text := by
        rw [← titleTrailing_eq htitle]
        exact trimEnd_of_untrailed (SyncedLine.parse_line hl).2.2.2.2
      by_cases htoken : l.token = event.token
      · simp [htoken, hmarker]
      · have hne : l.rebuilt event.token l.text none ≠ l.line := fun heq =>
          SyncedLine.rewritten_ne hl htoken ((SyncedLine.rebuilt_own hl event.token l.text).mp heq)
        simp [htoken, hmarker, htext, hne]

/-! ## A line as a poll leaves it -/

/-- What an event writes on its line reads back as the event's. -/
def SyncedLine.Settles (l : SyncedLine) (event : CalendarEvent) : Prop :=
  match cancelledText l.text with
  | some (_, after) => event.ReadsBack (trimEnd (event.title ++ after)) l.gap
  | none => titleTrailing l.text event.title = none ∨ l.token = event.token ∨ event.ReadsBack l.text l.gap

/-- A marker that an update wrote, or left, needs no other. -/
theorem SyncedLine.markerUpdateFor_written {l l' : SyncedLine} {kind : EventKind}
    (hsame : l.markerUpdateFor kind = none → l'.markerSuffix = l.markerSuffix)
    (hnew : l.markerUpdateFor kind = some (renderMarker l.id kind) → l'.markerSuffix = kind.markerSuffix) :
    l'.markerUpdateFor kind = none := by
  unfold markerUpdateFor at hsame hnew ⊢
  by_cases hsuffix : l.markerSuffix = kind.markerSuffix
  · rw [if_pos hsuffix] at hsame
    rw [if_pos ((hsame rfl).trans hsuffix)]
  · rw [if_neg hsuffix] at hsame hnew
    by_cases hunknown : (l.markerSuffix.any fun suffix => (EventKind.fromMarkerSuffix suffix).isNone) = true
    · rw [if_pos hunknown] at hsame
      rw [hsame rfl, if_neg hsuffix, if_pos hunknown]
    · rw [if_neg hunknown] at hnew
      rw [if_pos (hnew rfl)]

/-- An event's times read back where they are written. -/
theorem CalendarEvent.region_token {event : CalendarEvent} (htime : event.time.isSome) (text : Text) {gap : Text}
    (hgap : Blank gap) : (Region.parse (trimStart (tokenAndText event.token text ++ gap))).token = event.token := by
  obtain ⟨t, ht⟩ := Option.isSome_iff_exists.mp htime
  have hsome : event.token = some (formatTimeToken t.start t.stop) := by
    rw [CalendarEvent.token, ht]
    rfl
  have hwritten : tokenAndText event.token text ++ gap = formatTimeToken t.start t.stop ++ (spaced text ++ gap) := by
    rw [hsome]
    simp [tokenAndText, spaced]
  have hlead := leadingTimeToken_format t (endsWord_spaced text hgap)
  have hpos : 0 < (formatTimeToken t.start t.stop).length := by simp [formatTimeToken, pad2]
  rw [hwritten, trimStart_of_unindented (unindented_of_leadingTimeToken hlead), Region.parse, hlead]
  simp only [hpos, if_true, List.take_left, hsome]

/-- A line that is written again under its own times, the event's, keeps them. -/
theorem SyncedLine.reread_token {row : ℕ} {line : Text} {l : SyncedLine} (hl : SyncedLine.parse row line = some l)
    {event : CalendarEvent} (htoken : l.token = event.token) :
    (Region.parse (trimStart (tokenAndText l.token l.text ++ l.gap))).token = event.token := by
  obtain ⟨region, payload, -, hregion, -, -, -, hform⟩ := SyncedLine.parse_some hl
  obtain ⟨hparts, -, -, -, hgap, hspace⟩ := Region.parse_parts hregion
  have hown : l.token = (Region.parse region).token ∧ l.space = (Region.parse region).space ∧
      l.text = (Region.parse region).text ∧ l.gap = (Region.parse region).gap := by
    rw [hform]
    exact ⟨rfl, rfl, rfl, rfl⟩
  cases htime : event.time with
  | some t =>
    rw [htoken]
    exact CalendarEvent.region_token (by simp [htime]) l.text (hown.2.2.2 ▸ hgap)
  | none =>
    have hnone : event.token = none := by
      rw [CalendarEvent.token, htime]
      rfl
    have hregionNone : (Region.parse region).token = none := hown.1.symm.trans (htoken.trans hnone)
    have hsame : tokenAndText l.token l.text ++ l.gap = region := by
      rw [htoken, hnone, hown.2.2.1, hown.2.2.2]
      conv_rhs => rw [hparts, hregionNone, hspace hregionNone]
      simp [tokenAndText]
    rw [hsame, trimStart_of_unindented hregion, hregionNone, hnone]

/-- A line rewritten for an event is left alone when what was written reads back. -/
theorem SyncedLine.rebuilt_steady {row : ℕ} {line : Text} {l : SyncedLine} (hl : SyncedLine.parse row line = some l)
    {event : CalendarEvent} (text : Text) {z : Text}
    (hz : ReadsAs z (l.rebuilt event.token text (l.markerUpdateFor event.kind))) (row' : ℕ) :
    ∃ l', SyncedLine.parse row' z = some l' ∧ l'.id = l.id ∧ (l'.Steady event ↔ event.ReadsBack text l.gap) := by
  obtain ⟨head, payload, suffix, rest, hparse, hsame, hkind⟩ :=
    SyncedLine.parse_rebuilt_pieces hl event.token text (l.markerUpdateFor_keeps event.kind) hz row'
  refine ⟨_, hparse, rfl, ?_⟩
  exact SyncedLine.steady_iff hparse (SyncedLine.markerUpdateFor_written (l := l) hsame (hkind event.kind))

/-- A line as an event's update leaves it is left alone by the next when it settles. -/
theorem SyncedLine.updated_steady {row : ℕ} {line : Text} {l : SyncedLine} (hl : SyncedLine.parse row line = some l)
    (event : CalendarEvent) {z : Text} (hz : ReadsAs z ((l.updatedFor event).getD l.line)) (row' : ℕ) :
    ∃ l', SyncedLine.parse row' z = some l' ∧ l'.id = l.id ∧ (l'.Steady event ↔ l.Settles event) := by
  have hsame := (SyncedLine.parse_line hl).2.1
  unfold Settles
  unfold updatedFor at hz
  rw [l.cancelledParts_text] at hz
  cases hcancelled : cancelledText l.text with
  | some parts =>
    rw [hcancelled] at hz
    exact SyncedLine.rebuilt_steady hl _ hz row'
  | none =>
    rw [hcancelled] at hz
    dsimp only at hz ⊢
    cases htitle : titleTrailing l.text event.title with
    | none =>
      rw [htitle] at hz
      dsimp only [Option.getD_none] at hz
      rw [hsame] at hz
      obtain ⟨region, payload, rest, hform, hparse⟩ := SyncedLine.parse_unchanged_pieces hl hz row'
      refine ⟨_, hparse, rfl, ?_⟩
      have htext : (Region.parse region).text = l.text := by
        rw [hform]
        rfl
      have hfrozen : (SyncedLine.ofPieces row' l.head region payload l.id l.markerSuffix rest).updatedFor event = none := by
        unfold updatedFor
        rw [SyncedLine.cancelledParts_text]
        simp only [SyncedLine.ofPieces, htext, hcancelled, htitle]
      simp [Steady, hfrozen]
    | some trailing =>
      rw [htitle] at hz
      dsimp only at hz
      have htext : trimEnd (event.title ++ trailing) = l.text := by
        rw [← titleTrailing_eq htitle]
        exact trimEnd_of_untrailed (SyncedLine.parse_line hl).2.2.2.2
      by_cases htoken : l.token = event.token
      · rw [if_pos htoken] at hz
        cases hmarker : l.markerUpdateFor event.kind with
        | none =>
          rw [hmarker] at hz
          dsimp only [Option.getD_some] at hz
          rw [hsame] at hz
          obtain ⟨region, payload, rest, hform, hparse⟩ := SyncedLine.parse_unchanged_pieces hl hz row'
          refine ⟨_, hparse, rfl, ?_⟩
          have hown : (Region.parse region).token = l.token ∧ (Region.parse region).text = l.text := by
            rw [hform]
            exact ⟨rfl, rfl⟩
          have hwritten := @SyncedLine.markerUpdateFor_written l
            (.ofPieces row' l.head region payload l.id l.markerSuffix rest) event.kind (fun _ => rfl)
            fun hsome => absurd (hmarker.symm.trans hsome) (by simp)
          rw [SyncedLine.steady_iff hparse hwritten]
          simp only [SyncedLine.ofPieces, hown, hcancelled, htoken, or_true, true_or]
        | some marker =>
          rw [hmarker] at hz
          dsimp only [Option.getD_some] at hz
          rw [← hmarker] at hz
          obtain ⟨head, payload, suffix, rest, hparse, hsuffix, hkind⟩ :=
            SyncedLine.parse_rebuilt_pieces hl l.token l.text (l.markerUpdateFor_keeps event.kind) hz row'
          refine ⟨_, hparse, rfl, ?_⟩
          have hkept := SyncedLine.parse_kept hl (Or.inl (Eq.refl l.text))
          have hread := SyncedLine.reread_token hl htoken
          rw [SyncedLine.steady_iff hparse (SyncedLine.markerUpdateFor_written (l := l) hsuffix (hkind event.kind))]
          simp only [SyncedLine.ofPieces, hkept, hread, hcancelled]
          simp only [htoken, or_true, true_or]
      · rw [if_neg htoken, htext] at hz
        obtain ⟨l', hparse, hid, hsteady⟩ := SyncedLine.rebuilt_steady hl _ hz row'
        exact ⟨l', hparse, hid, by simp [hsteady, htoken]⟩

/-- A line that was marked reads back as cancelled. -/
theorem SyncedLine.cancelledForm_cancelled {row : ℕ} {line : Text} {l : SyncedLine}
    (hl : SyncedLine.parse row line = some l) {z : Text} (hz : ReadsAs z l.cancelledForm) (row' : ℕ) :
    ∃ l', SyncedLine.parse row' z = some l' ∧ l'.id = l.id ∧ l'.isCancelled = true := by
  have hkeeps : l.Keeps none := fun m hm => by cases hm
  obtain ⟨l', hparse, hid, htext⟩ := SyncedLine.parse_rebuilt hl _ _ hkeeps hz row'
  rw [SyncedLine.parse_kept hl (Or.inr rfl)] at htext
  exact ⟨l', hparse, hid, SyncedLine.isCancelled_of_struck htext⟩

/-! ## A line put in for an event -/

theorem checkboxHead_open : CheckboxHead "- [ ] ".toList := by
  have hspace : Blank [' '] := by decide
  have hshape : "- [ ] ".toList = [] ++ '-' :: ([' '] ++ '[' :: ' ' :: ']' :: [' ']) := by decide
  exact ⟨⟨[], '-', [' '], ' ', [' '], hshape, Blank.nil, Or.inl (Eq.refl '-'), hspace, List.cons_ne_nil _ _,
    Or.inl (Eq.refl ' '), hspace, List.cons_ne_nil _ _⟩⟩

/-- What stands between the checkbox and the marker of a new line. -/
def CalendarEvent.newRegion (event : CalendarEvent) : Text :=
  (match event.token with
    | some token => token ++ [' ']
    | none => []) ++ (if event.title.isEmpty then [] else event.title ++ [' '])

theorem renderSyncedLine_pieces (event : CalendarEvent) :
    renderSyncedLine event = "- [ ] ".toList ++ event.newRegion ++
      (markerPrefix ++ (event.id ++ suffixPart event.kind.markerSuffix) ++ markerEnd) := by
  unfold renderSyncedLine CalendarEvent.newRegion renderMarker
  cases event.token <;> simp only [List.append_assoc]

theorem CalendarEvent.trimStart_newRegion (event : CalendarEvent) :
    trimStart event.newRegion = trimStart (tokenAndText event.token event.title ++ [' ']) := by
  unfold newRegion tokenAndText
  cases event.token with
  | none =>
    cases htitle : event.title with
    | nil => rfl
    | cons c rest => simp
  | some token =>
    cases htitle : event.title with
    | nil => simp
    | cons c rest => simp

/-- A line put in for an event is the event's, and is left alone when its title reads back. -/
theorem renderSyncedLine_reads {event : CalendarEvent} (hne : event.id ≠ []) (hhex : ∀ c ∈ event.id, isHexDigit c = true)
    {z : Text} (hz : ReadsAs z (renderSyncedLine event)) (row : ℕ) :
    ∃ l, SyncedLine.parse row z = some l ∧ l.id = event.id ∧ (l.Steady event ↔ event.ReadsBack event.title [' ']) := by
  have hpayload := parseMarkerPayload_render hne hhex event.kind.markerSuffix_lower
  have hpieces : renderSyncedLine event = ("- [ ] ".toList ++ event.newRegion ++
      (markerPrefix ++ (event.id ++ suffixPart event.kind.markerSuffix))) ++ markerEnd ++ [] := by
    rw [renderSyncedLine_pieces]
    simp only [List.append_assoc, List.append_nil]
  rw [hpieces] at hz
  obtain ⟨rest, rfl, hrest⟩ := hz.marked Blank.nil
  have hparse := SyncedLine.parse_pieces row event.newRegion checkboxHead_open hpayload hrest
  rw [event.trimStart_newRegion] at hparse
  have hline : "- [ ] ".toList ++ event.newRegion ++ (markerPrefix ++ (event.id ++ suffixPart event.kind.markerSuffix)) ++
      markerEnd ++ rest = "- [ ] ".toList ++ event.newRegion ++
        (markerPrefix ++ (event.id ++ suffixPart event.kind.markerSuffix) ++ markerEnd) ++ rest := by
    simp only [List.append_assoc]
  rw [hline, hparse]
  refine ⟨_, rfl, rfl, ?_⟩
  apply SyncedLine.steady_iff hparse
  exact if_pos rfl

/-! ## Lines that are read a second time -/

/-- The row a line stands at decides nothing else. -/
theorem SyncedLine.parse_row (row row' : ℕ) (line : Text) :
    SyncedLine.parse row' line = (SyncedLine.parse row line).map fun l => { l with row := row' } := by
  unfold SyncedLine.parse
  simp only [Option.bind_eq_bind, Option.map_bind, Function.comp_def, Option.map_some]

/-- A line that is not a synced line does not become one. -/
theorem SyncedLine.parse_none_reads {row : ℕ} {line z : Text} (h : SyncedLine.parse row line = none)
    (hz : ReadsAs z line) (row' : ℕ) : SyncedLine.parse row' z = none := by
  have hnone : SyncedLine.parse row' line = none := by
    rw [SyncedLine.parse_row row row', h]
    rfl
  rcases hz with rfl | rfl
  · exact hnone
  · cases hchomp : SyncedLine.parse row' (chomp line) with
    | none => rfl
    | some l =>
      unfold chomp at hchomp
      cases hstrip : stripSuffix ['\r'] line with
      | none =>
        rw [hstrip, Option.getD_none, hnone] at hchomp
        cases hchomp
      | some short =>
        rw [hstrip, Option.getD_some] at hchomp
        obtain ⟨region, payload, hhead, hregion, htail, hpayload, hline, -⟩ := SyncedLine.parse_some hchomp
        have hreturn : Blank (l.tail ++ ['\r']) := htail.append (by decide)
        have hparse := SyncedLine.parse_pieces row' region hhead hpayload hreturn
        rw [← List.append_assoc, ← hline, ← stripSuffix_eq_some.mp hstrip, hnone] at hparse
        cases hparse

/-- A checkbox line is no heading. -/
theorem CheckboxHead.headingLevelAndText {h : Text} (hh : CheckboxHead h) (rest : Text) :
    headingLevelAndText (h ++ rest) = none := by
  obtain ⟨indent, bullet, space, mark, gap, rfl, hindent, hbullet, -, -, -, -, -⟩ := hh.shape
  have hws : isWhitespace bullet = false := by
    rcases hbullet with rfl | rfl | rfl <;> decide
  have hhash : bullet ≠ '#' := by
    rcases hbullet with rfl | rfl | rfl <;> decide
  have hstart : trimStart (indent ++ bullet :: (space ++ '[' :: mark :: ']' :: gap) ++ rest) =
      bullet :: (space ++ '[' :: mark :: ']' :: gap ++ rest) := by
    rw [List.append_assoc, trimStart_append_of_blank hindent, List.cons_append,
      trimStart_of_unindented (unindented_cons hws _)]
  unfold Desk.headingLevelAndText
  rw [hstart]
  simp [hhash]

theorem SyncedLine.parse_heading {row : ℕ} {line : Text} {l : SyncedLine} (h : SyncedLine.parse row line = some l) :
    headingLevelAndText line = none := by
  obtain ⟨region, payload, hhead, -, -, -, hline, -⟩ := SyncedLine.parse_some h
  rw [hline, List.append_assoc, List.append_assoc]
  exact hhead.headingLevelAndText _

end Thock.Desk
