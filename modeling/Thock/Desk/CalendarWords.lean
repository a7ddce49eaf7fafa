import Thock.Desk.CalendarLines
import Thock.Lib.Transition

/-!
# A person's words on a synced line

One line of a note is followed over any sequence of polls. A line is marked cancelled when
its event vanishes, keeps its text when the event moves, and is written anew from the event's
title and what follows the mark when the event returns. What stood inside the mark is not
looked at then, so the words a person wrote before the cancellation survive the return only
where the title or the text after the mark hold them too.
-/

namespace Thock.Desk

open TextScan Transition

/-! ## The pieces of a region -/

/-- A region is its token, the white space after it, its text and the white space that ends it. -/
theorem Region.parse_parts {region : Text} (h : Unindented region) :
    region = (Region.parse region).token.getD [] ++ (Region.parse region).space ++ (Region.parse region).text ++
        (Region.parse region).gap ∧
      Unindented (Region.parse region).text ∧ Untrailed (Region.parse region).text ∧
      Blank (Region.parse region).space ∧ Blank (Region.parse region).gap ∧
      ((Region.parse region).token = none → (Region.parse region).space = []) := by
  have split (after : Text) : after.takeWhile isWhitespace ++ trim after ++
      (trimStart after).rtakeWhile isWhitespace = after := by
    rw [trim, List.append_assoc, trimEnd_append_rtakeWhile, takeWhile_append_trimStart]
  unfold Region.parse
  cases htoken : leadingTimeToken region with
  | none =>
    simp only [List.drop_zero, lt_self_iff_false, if_false, Option.getD_none, List.nil_append]
    exact ⟨(split region).symm, unindented_trim _, untrailed_trim _, blank_takeWhile _, blank_rtakeWhile _,
      fun _ => takeWhile_of_unindented h⟩
  | some r =>
    obtain ⟨start, n⟩ := r
    obtain ⟨token, rest, hne, rfl, rfl, -, -⟩ := leadingTimeToken_prefix htoken
    have hpos : 0 < token.length := List.length_pos_of_ne_nil hne
    simp only [List.drop_left, List.take_left, hpos, if_true, Option.getD_some]
    refine ⟨?_, unindented_trim _, untrailed_trim _, blank_takeWhile _, blank_rtakeWhile _, fun hnone => ?_⟩
    · rw [List.append_assoc, List.append_assoc, ← List.append_assoc (rest.takeWhile isWhitespace), split]
    · cases hnone

/-- The token of a region is a leading time of it. -/
theorem Region.parse_token {region token : Text} (h : (Region.parse region).token = some token) :
    ∃ start rest, region = token ++ rest ∧ leadingTimeToken region = some (start, token.length) := by
  unfold Region.parse at h
  cases hlead : leadingTimeToken region with
  | none => simp [hlead] at h
  | some r =>
    obtain ⟨start, n⟩ := r
    obtain ⟨token', rest, hne, rfl, rfl, -, -⟩ := leadingTimeToken_prefix hlead
    simp only [hlead, List.take_left, List.length_pos_of_ne_nil hne, if_true] at h
    obtain rfl := Option.some.inj h
    exact ⟨start, rest, rfl, rfl⟩

/-- A region without a token starts with no time. -/
theorem Region.parse_token_none {region : Text} (h : (Region.parse region).token = none) :
    leadingTimeToken region = none := by
  cases hlead : leadingTimeToken region with
  | none => rfl
  | some r =>
    obtain ⟨start, n⟩ := r
    obtain ⟨token', rest, hne, rfl, rfl, -, -⟩ := leadingTimeToken_prefix hlead
    unfold Region.parse at h
    simp only [hlead, List.take_left, List.length_pos_of_ne_nil hne, if_true] at h
    cases h

/-! ## What a rewritten region reads back as -/

/-- A token and a text, one space between them. -/
def tokenAndText (token : Option Text) (text : Text) : Text :=
  (match token with
    | some token => token ++ if text.isEmpty then [] else [' ']
    | none => []) ++ text

/-- What follows the token when a text is put there. -/
def spaced (text : Text) : Text := (if text.isEmpty then [] else [' ']) ++ text

theorem endsWord_spaced (text : Text) {gap : Text} (hg : Blank gap) : endsWord (spaced text ++ gap) = true := by
  cases text with
  | nil =>
    cases gap with
    | nil => rfl
    | cons c rest => exact hg c List.mem_cons_self
  | cons c rest => rfl

theorem trim_spaced (text : Text) {gap : Text} (hg : Blank gap) : trim (spaced text ++ gap) = trim text := by
  have hspace : Blank (if text.isEmpty then [] else [' ']) := by
    split <;> decide
  rw [trim_append_of_blank hg, spaced, trim_append_of_blank_left hspace]

/-- A text with a leading time starts with no white space. -/
theorem unindented_of_leadingTimeToken {text : Text} {r : ℕ × ℕ} (h : leadingTimeToken text = some r) :
    Unindented text := by
  intro c hc
  by_contra hws
  have hnone : leadingTimeToken text = none := leadingTimeToken_of_not_digit fun d hd => by
    obtain rfl : c = d := Option.some.inj (hc.symm.trans hd)
    by_contra hdigit
    exact hws (not_isWhitespace_of_isDigit (by simpa using hdigit))
  rw [hnone] at h
  cases h

/-- Where a token is read, the text is what follows it. -/
theorem Region.parse_text_of_token {token rest : Text} {start : ℕ}
    (h : leadingTimeToken (token ++ rest) = some (start, token.length)) :
    (Region.parse (trimStart (token ++ rest))).text = trim rest := by
  rw [trimStart_of_unindented (unindented_of_leadingTimeToken h)]
  unfold Region.parse
  rw [h]
  simp only [List.drop_left]

/-- Where no token is read, the whole region is the text. -/
theorem Region.parse_text_of_none {region : Text} (h : leadingTimeToken (trimStart region) = none) :
    (Region.parse (trimStart region)).text = trim region := by
  unfold Region.parse
  rw [h]
  simp only [List.drop_zero, trim_trimStart]

/-- After the token a line carries, a text reads back that goes on as the line did, or that
cannot continue a range and starts with no digit. -/
theorem Region.parse_kept {region : Text} (h : Unindented region) (text : Text) {gap : Text} (hg : Blank gap)
    (htext : (text = (Region.parse region).text ∧ gap = (Region.parse region).gap) ∨
      ∃ rest, text = '~' :: rest) :
    (Region.parse (trimStart (tokenAndText (Region.parse region).token text ++ gap))).text = trim text := by
  obtain ⟨hparts, hstart, hend, hspace, -, hnone⟩ := Region.parse_parts h
  cases htoken : (Region.parse region).token with
  | none =>
    have hlead : leadingTimeToken (trimStart (tokenAndText none text ++ gap)) = none := by
      rcases htext with ⟨rfl, rfl⟩ | ⟨rest, rfl⟩
      · rw [htoken, hnone htoken] at hparts
        have hregion : tokenAndText none (Region.parse region).text ++ (Region.parse region).gap = region := by
          conv_rhs => rw [hparts]
          simp [tokenAndText]
        rw [hregion, trimStart_of_unindented h]
        exact Region.parse_token_none htoken
      · apply leadingTimeToken_of_not_digit
        intro c hc
        obtain rfl : '~' = c := Option.some.inj hc
        decide
    rw [Region.parse_text_of_none hlead, tokenAndText, List.nil_append, trim_append_of_blank hg]
  | some token =>
    obtain ⟨start, rest, hregion, hlead⟩ := Region.parse_token htoken
    obtain ⟨token', rest', -, heq, hlength, -, hany⟩ := leadingTimeToken_prefix hlead
    obtain ⟨rfl, rfl⟩ : token' = token ∧ rest' = rest := by
      rw [hregion] at heq
      exact (List.append_inj heq hlength.symm).imp Eq.symm Eq.symm
    have hread : leadingTimeToken (token' ++ (spaced text ++ gap)) = some (start, token'.length) := by
      refine hany _ (endsWord_spaced text hg) ?_
      rcases htext with ⟨rfl, rfl⟩ | ⟨more, rfl⟩
      · left
        have hrest : rest' = (Region.parse region).space ++ ((Region.parse region).text ++ (Region.parse region).gap) := by
          rw [htoken, Option.getD_some, List.append_assoc, List.append_assoc] at hparts
          exact List.append_cancel_left (hregion.symm.trans hparts)
        have hspaced : Blank (if (Region.parse region).text.isEmpty then [] else [' ']) := by
          split <;> decide
        rw [hrest, trimStart_append_of_blank hspace, spaced, List.append_assoc, trimStart_append_of_blank hspaced]
      · right
        rfl
    have hline : tokenAndText (some token') text ++ gap = token' ++ (spaced text ++ gap) := by
      simp [tokenAndText, spaced]
    rw [hline, Region.parse_text_of_token hread, trim_spaced text hg]

/-! ## Reading a rewritten line -/

/-- A line as the note gives it back: as it was written, or without the carriage return that ends it. -/
def ReadsAs (z y : Text) : Prop := z = y ∨ z = chomp y

/-- Of a marked line, reading drops white space after the marker at most. -/
theorem ReadsAs.marked {z body tail : Text} (h : ReadsAs z (body ++ markerEnd ++ tail)) (ht : Blank tail) :
    ∃ rest, z = body ++ markerEnd ++ rest ∧ Blank rest := by
  rcases h with rfl | rfl
  · exact ⟨tail, rfl, ht⟩
  · unfold chomp
    cases hstrip : stripSuffix ['\r'] (body ++ markerEnd ++ tail) with
    | none => exact ⟨tail, rfl, ht⟩
    | some rest =>
      rw [stripSuffix_eq_some] at hstrip
      rcases List.eq_nil_or_concat tail with rfl | ⟨init, last, rfl⟩
      · have hlast : body ++ markerEnd ++ [] = (body ++ ['-', '-']) ++ ['>'] := by
          simp [markerEnd]
        rw [hlast] at hstrip
        have hchar := (List.append_inj' hstrip rfl).2
        exact absurd hchar (by decide)
      · rw [List.concat_eq_append, ← List.append_assoc] at hstrip
        obtain ⟨hinit, -⟩ := List.append_inj' hstrip rfl
        exact ⟨init, hinit.symm, fun c hc => ht c (by simp [hc])⟩

/-- The marker a line is rewritten with: its own, or that of another kind. -/
def SyncedLine.Keeps (l : SyncedLine) (marker : Option Text) : Prop :=
  ∀ m ∈ marker, ∃ kind, m = renderMarker l.id kind

theorem SyncedLine.markerUpdateFor_keeps (l : SyncedLine) (kind : EventKind) :
    l.Keeps (l.markerUpdateFor kind) := by
  intro m hm
  unfold markerUpdateFor at hm
  split at hm
  · cases hm
  · split at hm
    · cases hm
    · exact ⟨kind, (Option.some.inj hm).symm⟩

theorem EventKind.markerSuffix_lower (kind : EventKind) :
    ∀ s ∈ kind.markerSuffix, s ≠ [] ∧ ∀ c ∈ s, c.isLower = true := by
  intro s hs
  cases kind with
  | default => cases hs
  | focusTime =>
    obtain rfl := Option.some.inj hs
    exact ⟨List.cons_ne_nil _ _, List.all_eq_true.mp (by decide)⟩
  | outOfOffice =>
    obtain rfl := Option.some.inj hs
    exact ⟨List.cons_ne_nil _ _, List.all_eq_true.mp (by decide)⟩

theorem renderMarker_inj {id : Text} {kind other : EventKind} (h : renderMarker id kind = renderMarker id other) :
    kind = other := by
  have hsuffix : suffixPart kind.markerSuffix = suffixPart other.markerSuffix :=
    List.append_cancel_left (List.append_cancel_left (List.append_cancel_right h))
  cases kind <;> cases other <;> first | rfl | exact absurd hsuffix (by decide)

/-- A rewritten line is a synced line of the same id, with the pieces of what was written. -/
theorem SyncedLine.parse_rebuilt_pieces {row : ℕ} {line : Text} {l : SyncedLine}
    (h : SyncedLine.parse row line = some l) (token : Option Text) (text : Text) {marker : Option Text}
    (hmarker : l.Keeps marker) {z : Text} (hz : ReadsAs z (l.rebuilt token text marker)) (row' : ℕ) :
    ∃ head payload suffix rest,
      SyncedLine.parse row' z =
        some (.ofPieces row' head (trimStart (tokenAndText token text ++ l.gap)) payload l.id suffix rest) ∧
      (marker = none → suffix = l.markerSuffix) ∧
      ∀ kind, marker = some (renderMarker l.id kind) → suffix = kind.markerSuffix := by
  obtain ⟨region, payload, hhead, hregion, htail, hpayload, -, hl⟩ := SyncedLine.parse_some h
  obtain ⟨-, -, -, -, -, hspace⟩ := Region.parse_parts hregion
  obtain ⟨payload', suffix, hpayload', hnew, hsame, hkind⟩ : ∃ payload' suffix,
      parseMarkerPayload payload' = some (l.id, suffix) ∧ marker.getD l.marker = markerPrefix ++ payload' ++ markerEnd ∧
        (marker = none → suffix = l.markerSuffix) ∧
        ∀ kind, marker = some (renderMarker l.id kind) → suffix = kind.markerSuffix := by
    cases marker with
    | none =>
      refine ⟨payload, l.markerSuffix, hpayload, ?_, fun _ => rfl, fun kind hkind => nomatch hkind⟩
      rw [hl]
      rfl
    | some m =>
      obtain ⟨kind, rfl⟩ := hmarker m rfl
      obtain ⟨hne, hhex, -, -⟩ := parseMarkerPayload_some hpayload
      refine ⟨_, _, parseMarkerPayload_render hne hhex kind.markerSuffix_lower, rfl, fun hnone => (nomatch hnone),
        fun other hother => ?_⟩
      rw [renderMarker_inj (Option.some.inj hother)]
  have hbefore : (if l.token.isSome then l.head else l.head ++ l.space) = l.head := by
    split
    · rfl
    · rename_i hnone
      have htoken : l.token = none := by simpa using hnone
      rw [hl] at htoken ⊢
      simp only [SyncedLine.ofPieces] at htoken ⊢
      rw [hspace htoken, List.append_nil]
  have hline : l.rebuilt token text marker =
      (l.head ++ (tokenAndText token text ++ l.gap) ++ (markerPrefix ++ payload')) ++ markerEnd ++ l.tail := by
    unfold rebuilt
    rw [hbefore, hnew]
    cases token <;> simp [tokenAndText]
  rw [hline] at hz
  obtain ⟨rest, rfl, hrest⟩ := hz.marked htail
  have hmarked : l.head ++ (tokenAndText token text ++ l.gap) ++ (markerPrefix ++ payload') ++ markerEnd ++ rest =
      l.head ++ (tokenAndText token text ++ l.gap) ++ (markerPrefix ++ payload' ++ markerEnd) ++ rest := by simp
  rw [hmarked, SyncedLine.parse_pieces row' (tokenAndText token text ++ l.gap) hhead hpayload' hrest]
  exact ⟨_, _, _, _, rfl, hsame, hkind⟩

/-- A rewritten line is a synced line of the same id, and its text is what the new region says. -/
theorem SyncedLine.parse_rebuilt {row : ℕ} {line : Text} {l : SyncedLine} (h : SyncedLine.parse row line = some l)
    (token : Option Text) (text : Text) {marker : Option Text} (hmarker : l.Keeps marker) {z : Text}
    (hz : ReadsAs z (l.rebuilt token text marker)) (row' : ℕ) :
    ∃ l', SyncedLine.parse row' z = some l' ∧ l'.id = l.id ∧
      l'.text = (Region.parse (trimStart (tokenAndText token text ++ l.gap))).text := by
  obtain ⟨head, payload, suffix, rest, hparse, -, -⟩ := SyncedLine.parse_rebuilt_pieces h token text hmarker hz row'
  exact ⟨_, hparse, rfl, rfl⟩

/-- A line left as it was is the same synced line, but for white space at its end. -/
theorem SyncedLine.parse_unchanged_pieces {row : ℕ} {line : Text} {l : SyncedLine}
    (h : SyncedLine.parse row line = some l) {z : Text} (hz : ReadsAs z line) (row' : ℕ) :
    ∃ region payload rest, l = .ofPieces row l.head region payload l.id l.markerSuffix l.tail ∧
      SyncedLine.parse row' z = some (.ofPieces row' l.head region payload l.id l.markerSuffix rest) := by
  obtain ⟨region, payload, hhead, hregion, htail, hpayload, hline, hl⟩ := SyncedLine.parse_some h
  rw [hline, ← List.append_assoc, ← List.append_assoc] at hz
  obtain ⟨rest, rfl, hrest⟩ := hz.marked htail
  have hread := SyncedLine.parse_pieces row' region hhead hpayload hrest
  rw [trimStart_of_unindented hregion, takeWhile_of_unindented hregion, List.append_nil] at hread
  have hmarked : l.head ++ region ++ markerPrefix ++ payload ++ markerEnd ++ rest =
      l.head ++ region ++ (markerPrefix ++ payload ++ markerEnd) ++ rest := by simp
  rw [hmarked, hread]
  exact ⟨region, payload, rest, hl, rfl⟩

theorem SyncedLine.parse_unchanged {row : ℕ} {line : Text} {l : SyncedLine} (h : SyncedLine.parse row line = some l)
    {z : Text} (hz : ReadsAs z line) (row' : ℕ) :
    ∃ l', SyncedLine.parse row' z = some l' ∧ l'.id = l.id ∧ l'.text = l.text := by
  obtain ⟨region, payload, rest, hl, hparse⟩ := SyncedLine.parse_unchanged_pieces h hz row'
  refine ⟨_, hparse, rfl, ?_⟩
  conv_rhs => rw [hl]
  rfl

/-! ## Following a row through edits -/

/-- The lines written before the one that stood at a row. -/
def linesBefore (ls : List Text) (edits : List LineEdit) (row : ℕ) : List Text :=
  ((numbered ls).take row).flatMap (fun (r, line) => insertsAt edits r ++ [(replacementAt edits r).getD line]) ++
    insertsAt edits row

/-- The row a line stands at once the edits are applied. -/
def rowAfter (ls : List Text) (edits : List LineEdit) (row : ℕ) : ℕ :=
  ((linesBefore ls edits row).flatMap pieces).length

/-- The text put at a row is the replacement of an edit of that row. -/
theorem replacementAt_some {edits : List LineEdit} {row : ℕ} {text : Text} (h : replacementAt edits row = some text) :
    ⟨row, .replace text⟩ ∈ edits := by
  have hmem := List.mem_of_getLast? h
  obtain ⟨e, he, htext⟩ := List.mem_filterMap.mp hmem
  obtain ⟨hedit, hrow⟩ := List.mem_filter.mp he
  obtain ⟨r, kind⟩ := e
  cases kind with
  | insert _ => cases htext
  | replace t =>
    obtain rfl : t = text := Option.some.inj htext
    obtain rfl : r = row := by simpa using hrow
    exact hedit

/-! ## Polls -/

/-- The synced lines of a note's Calendar section. -/
def calendarLines (reader : HeadingReader) (config : CalendarConfig) (note : Text) : List SyncedLine :=
  ((plannerSection reader (lines note) (config.plannerHeadingNames reader)).bind fun (range, level) =>
    findChildSection reader (lines note) range level config.section_).elim [] (syncedLines (lines note))

/-- One line of a note, by its row. -/
structure Followed where
  note : Text
  row : ℕ
deriving DecidableEq, Repr

/-- The synced line at the row. -/
def Followed.line (s : Followed) : Option SyncedLine := (lines s.note)[s.row]?.bind (SyncedLine.parse s.row)

/-- One poll: the edits are applied and the row moves with its line. -/
def Followed.poll (reader : HeadingReader) (config : CalendarConfig) (s : Followed) (events : List CalendarEvent) :
    Followed :=
  match reconcile reader config s.note events with
  | .edits edits _ => ⟨applyLineEdits s.note edits, rowAfter (lines s.note) edits s.row⟩
  | _ => s

/-! ## No line feed is written -/

/-- A synced line is the pieces of itself, its text without white space around it. -/
theorem SyncedLine.parse_line {row : ℕ} {line : Text} {l : SyncedLine} (h : SyncedLine.parse row line = some l) :
    l.row = row ∧ l.line = line ∧
      line = l.head ++ (l.token.getD [] ++ l.space ++ l.text ++ l.gap) ++ l.marker ++ l.tail ∧
      Unindented l.text ∧ Untrailed l.text := by
  obtain ⟨region, payload, -, hregion, -, -, hline, hl⟩ := SyncedLine.parse_some h
  obtain ⟨hparts, hstart, hend, -, -, -⟩ := Region.parse_parts hregion
  have hrow : l.row = row := by
    rw [hl]
    rfl
  have hsame : l.line = line := by
    rw [hline]
    conv_lhs => rw [hl]
    rfl
  have htext : l.text = (Region.parse region).text := by
    rw [hl]
    rfl
  rw [htext]
  refine ⟨hrow, hsame, ?_, hstart, hend⟩
  rw [hline]
  conv_lhs => rw [hparts]
  conv_rhs => rw [hl]
  rfl

/-! ## The words -/

/-- Words a person wrote on a line, and whether they took the place of the title. -/
structure Words where
  text : Text
  rewritten : Bool
deriving DecidableEq, Repr

/-- The words stand in a text, and it is not the title again that they replaced. -/
def Words.StandIn (w : Words) (title text : Text) : Prop :=
  w.text <:+: text ∧ (w.rewritten = true → titleTrailing text title = none)

instance (w : Words) (title text : Text) : Decidable (w.StandIn title text) := inferInstanceAs (Decidable (_ ∧ _))

/-- What a person wrote on a line of the event with the title: the text after the title, or the
text that took its place, on a live line, inside a cancelled line or after its mark. -/
inductive SyncedLine.Wrote (l : SyncedLine) (title : Text) : Words → Prop
  | added {rest : Text} (live : l.cancelledParts = none) (h : titleTrailing l.text title = some rest) :
      l.Wrote title ⟨trim rest, false⟩
  | renamed (live : l.cancelledParts = none) (h : titleTrailing l.text title = none) : l.Wrote title ⟨l.text, true⟩
  | addedInside {inner after rest : Text} (cancelled : l.cancelledParts = some (inner, after))
      (h : titleTrailing inner title = some rest) : l.Wrote title ⟨trim rest, false⟩
  | renamedInside {inner after : Text} (cancelled : l.cancelledParts = some (inner, after))
      (h : titleTrailing inner title = none) : l.Wrote title ⟨trim inner, true⟩
  | addedAfter {inner after : Text} (cancelled : l.cancelledParts = some (inner, after)) :
      l.Wrote title ⟨trim after, false⟩

/-- The text a line reads back when a text is put on it for an event: an event without times
writes none, so a time the text starts with is read as one. -/
def SyncedLine.readBack (l : SyncedLine) (event : CalendarEvent) (text : Text) : Text :=
  if event.time.isSome then trim text else (Region.parse (trimStart (text ++ l.gap))).text

/-- No event that the poll lists takes the words off its line: an event that returns to a
cancelled line has them in its title or after the mark, and a line that loses its times does not
have them in a time its text starts with. -/
def Followed.Spares (reader : HeadingReader) (config : CalendarConfig) (title : Text) (w : Words) (s : Followed)
    (events : List CalendarEvent) : Prop :=
  ∀ event ∈ distinctEvents events, ∀ l ∈ lineOf (calendarLines reader config s.note) event.id, l.row = s.row →
    (∀ parts ∈ l.cancelledParts, w.StandIn title (l.readBack event (trimEnd (event.title ++ parts.2)))) ∧
    (l.cancelledParts = none → l.token ≠ none → event.time = none → titleTrailing l.text event.title ≠ none →
      w.StandIn title (l.readBack event l.text))

/-- The words are on the line, and a line that is not cancelled does not show the title they replaced. -/
def SyncedLine.Holds (l : SyncedLine) (title : Text) (w : Words) : Prop :=
  w.text <:+: l.text ∧ (w.rewritten = true → l.isCancelled = false → titleTrailing l.text title = none)

/-- The followed line is there under its id and holds the words. -/
def Followed.Holds (id title : Text) (w : Words) (s : Followed) : Prop :=
  ∃ l, s.line = some l ∧ l.id = id ∧ l.Holds title w

/-- What is left of a title's text is the rest of it. -/
theorem titleTrailing_eq {text title rest : Text} (h : titleTrailing text title = some rest) : text = title ++ rest := by
  unfold titleTrailing at h
  split at h
  · rename_i hempty
    rw [List.isEmpty_iff.mp hempty, Option.some.inj h]
    rfl
  · split at h
    · rename_i stripped hstrip
      split at h
      · rw [← Option.some.inj h]
        exact stripPrefix_eq_some.mp hstrip
      · cases h
    · cases h

/-- The pieces of a cancelled line's text. -/
theorem SyncedLine.cancelledParts_eq {l : SyncedLine} {inner after : Text} (h : l.cancelledParts = some (inner, after)) :
    l.text = "~~".toList ++ (inner ++ cancelledSuffix ++ after) := by
  obtain ⟨struck, hstruck, hsplit⟩ := Option.bind_eq_some_iff.mp h
  rw [stripPrefix_eq_some.mp hstruck, splitFirst_eq hsplit]

/-- A line holds the words its person wrote. -/
theorem SyncedLine.Wrote.holds {l : SyncedLine} {title : Text} {w : Words} (h : l.Wrote title w) :
    l.Holds title w := by
  have hinside {inner after : Text} (hparts : l.cancelledParts = some (inner, after)) :
      inner <:+: l.text ∧ after <:+: l.text := by
    rw [SyncedLine.cancelledParts_eq hparts]
    exact ⟨⟨"~~".toList, cancelledSuffix ++ after, by simp⟩, ⟨"~~".toList ++ inner ++ cancelledSuffix, [], by simp⟩⟩
  have hrest {rest text : Text} (htrailing : titleTrailing text title = some rest) : trim rest <:+: text := by
    rw [titleTrailing_eq htrailing]
    exact (trim_isInfix rest).trans (List.suffix_append title rest).isInfix
  cases h with
  | added live h => exact ⟨hrest h, fun hw => by cases hw⟩
  | renamed live h => exact ⟨List.infix_rfl, fun _ _ => h⟩
  | addedInside cancelled h => exact ⟨(hrest h).trans (hinside cancelled).1, fun hw => by cases hw⟩
  | renamedInside cancelled h =>
    refine ⟨(trim_isInfix _).trans (hinside cancelled).1, fun _ hlive => ?_⟩
    rw [isCancelled, cancelled] at hlive
    cases hlive
  | addedAfter cancelled => exact ⟨(trim_isInfix _).trans (hinside cancelled).2, fun hw => by cases hw⟩

/-- Words are held by the text alone. -/
theorem SyncedLine.Holds.congr {l l' : SyncedLine} {title : Text} {w : Words} (h : l.Holds title w)
    (htext : l'.text = l.text) : l'.Holds title w := by
  have hcancelled : l'.isCancelled = l.isCancelled := by
    simp only [isCancelled, cancelledParts, htext]
  rw [Holds, htext, hcancelled]
  exact h

/-- A text struck through is the cancelled form. -/
theorem SyncedLine.isCancelled_of_struck {l : SyncedLine} {text : Text}
    (h : l.text = "~~".toList ++ text ++ cancelledSuffix) : l.isCancelled = true := by
  have hstrip : stripPrefix "~~".toList l.text = some (text ++ cancelledSuffix ++ []) := by
    rw [stripPrefix_eq_some, h, List.append_nil, List.append_assoc]
  unfold isCancelled cancelledParts
  rw [hstrip, Option.bind_some]
  exact splitFirst_isSome cancelledSuffix text []

/-! ## One poll -/

/-- The text of a line that is rewritten under its own token reads back when it is its own text or
the text struck through. -/
theorem SyncedLine.parse_kept {row : ℕ} {line : Text} {l : SyncedLine} (hl : SyncedLine.parse row line = some l)
    {text : Text} (htext : text = l.text ∨ text = "~~".toList ++ l.text ++ cancelledSuffix) :
    (Region.parse (trimStart (tokenAndText l.token text ++ l.gap))).text = text := by
  obtain ⟨region, payload, -, hregion, -, -, -, hform⟩ := SyncedLine.parse_some hl
  obtain ⟨-, hstart, hend, -, hgap, -⟩ := Region.parse_parts hregion
  have htoken : l.token = (Region.parse region).token := by
    rw [hform]
    rfl
  have hown : l.text = (Region.parse region).text := by
    rw [hform]
    rfl
  have hgapOwn : l.gap = (Region.parse region).gap := by
    rw [hform]
    rfl
  rw [hown] at htext
  have htight : trim text = text := by
    rcases htext with rfl | rfl
    · exact trim_of_tight hstart hend
    · apply trim_of_tight
      · exact unindented_cons (by decide) _
      · intro c hc
        have hlast : "~~".toList ++ (Region.parse region).text ++ cancelledSuffix =
            ("~~".toList ++ (Region.parse region).text ++ "~~ (cancelled".toList) ++ [')'] := by
          rw [List.append_assoc _ "~~ (cancelled".toList]
          rfl
        rw [hlast, List.getLast?_concat] at hc
        obtain rfl : ')' = c := Option.some.inj hc
        decide
  have hkept := Region.parse_kept hregion text hgap (htext.imp (fun h => ⟨h, rfl⟩) fun h => ⟨_, h⟩)
  rw [htoken, hgapOwn, hkept, htight]

theorem SyncedLine.parse_nil (row : ℕ) : SyncedLine.parse row [] = none := rfl

/-- A poll as a step of the note. -/
def Polled (reader : HeadingReader) (config : CalendarConfig) (s : Followed) (events : List CalendarEvent)
    (t : Followed) : Prop := t = s.poll reader config events

instance (reader : HeadingReader) (config : CalendarConfig) (title : Text) (w : Words) (s : Followed)
    (events : List CalendarEvent) : Decidable (s.Spares reader config title w events) := by
  unfold Followed.Spares
  have followed (l : SyncedLine) (p : Prop) [Decidable p] : Decidable (l.row = s.row → p) := instDecidableForall
  infer_instance

/-! ## A meeting that vanishes and returns -/

/-- A reader for headings in plain letters. -/
def plainReader : HeadingReader :=
  ⟨Char.isAlphanum, fun c => [c.toLower], fun t => t.map Char.toLower, fun _ => []⟩

def calendarConfig : CalendarConfig := ⟨"Calendar".toList, ["Day planner".toList]⟩

/-- A meeting of an hour. -/
def meeting (title : Text) (start : ℕ) (h : start + 60 < minutesPerDay) : CalendarEvent :=
  ⟨"ab12".toList, title, some ⟨start, start + 60, by omega, by omega⟩, .default⟩

/-- A note with one meeting, after whose title a person wrote. -/
def standupNote : Text :=
  "# Day planner\n\n## Calendar\n\n- [ ] 09:00 - 10:00 Standup bring notes <!--gcal:ab12-->\n".toList

/-- The line of the meeting. -/
def standupLine : SyncedLine :=
  .ofPieces 4 "- [ ] ".toList "09:00 - 10:00 Standup bring notes ".toList "ab12".toList "ab12".toList none []

end Thock.Desk
