import Thock.Desk.Calendar

/-!
# Reading a rewritten line back

A synced line is a checkbox head, a region and a marker, and any region put between the same
head and a well-formed marker reads back as a synced line of that id. What the region reads
back as is settled by its leading time: a token written there is read as it was written, and
a text put there without one keeps its words unless it starts with a time itself.
-/

namespace Thock.Desk

open TextScan

/-! ## Leading times -/

/-- A leading time token is read off a prefix. It is read again before any text that ends the
word, where that text continues as the old one did or cannot continue a range. -/
theorem leadingTimeToken_prefix {text : Text} {start n : ℕ} (h : leadingTimeToken text = some (start, n)) :
    ∃ token rest, token ≠ [] ∧ text = token ++ rest ∧ token.length = n ∧ endsWord rest = true ∧
      ∀ after, endsWord after = true → (trimStart after = trimStart rest ∨ parseRangeEnd after = none) →
        leadingTimeToken (token ++ after) = some (start, n) := by
  unfold leadingTimeToken at h
  cases hclock : parseTimePrefix text with
  | none => simp [hclock] at h
  | some r =>
    obtain ⟨minute, afterStart⟩ := r
    obtain ⟨d, p, -, rfl, hany⟩ := parseTimePrefix_prefix hclock
    simp only [hclock] at h
    -- The token is the start alone when no range follows that ends a word.
    have alone (halone : (if endsWord afterStart then
          some (minute, (d :: p ++ afterStart).length - afterStart.length) else none) = some (start, n))
        (hrange : ∀ e afterEnd, parseRangeEnd afterStart = some (e, afterEnd) → endsWord afterEnd = false) :
        ∃ token rest, token ≠ [] ∧ d :: p ++ afterStart = token ++ rest ∧ token.length = n ∧
          endsWord rest = true ∧
          ∀ after, endsWord after = true → (trimStart after = trimStart rest ∨ parseRangeEnd after = none) →
            leadingTimeToken (token ++ after) = some (start, n) := by
      split at halone
      · rename_i hends
        obtain ⟨rfl, rfl⟩ := Prod.mk.inj (Option.some.inj halone)
        refine ⟨d :: p, afterStart, by simp, rfl, by simp; omega, hends, fun after hafter hcontinues => ?_⟩
        unfold leadingTimeToken
        simp only [hany after]
        have hsame : (if endsWord after then some (minute, (d :: p ++ after).length - after.length) else none) =
            some (minute, (d :: p ++ afterStart).length - afterStart.length) := by
          rw [if_pos hafter]
          simp only [List.length_append, Nat.add_sub_cancel]
        rcases hcontinues with htrim | hnone
        · rw [parseRangeEnd_congr htrim]
          cases hend : parseRangeEnd afterStart with
          | none => exact hsame
          | some r =>
            obtain ⟨e, afterEnd⟩ := r
            simp only [hrange e afterEnd hend]
            exact hsame
        · rw [hnone]
          exact hsame
      · cases halone
    cases hend : parseRangeEnd afterStart with
    | none =>
      simp only [hend] at h
      exact alone h fun e afterEnd heq => by rw [hend] at heq; cases heq
    | some r =>
      obtain ⟨e, afterEnd⟩ := r
      simp only [hend] at h
      cases hword : endsWord afterEnd with
      | false =>
        simp only [hword] at h
        refine alone h fun e' afterEnd' heq => ?_
        rw [hend] at heq
        obtain ⟨rfl, rfl⟩ := Prod.mk.inj (Option.some.inj heq)
        exact hword
      | true =>
        simp only [hword, if_true] at h
        obtain ⟨rfl, rfl⟩ := Prod.mk.inj (Option.some.inj h)
        obtain ⟨q, rfl, hanyEnd⟩ := parseRangeEnd_prefix hend
        refine ⟨d :: p ++ q, afterEnd, by simp, by simp, by simp; omega, hword, fun after hafter _ => ?_⟩
        unfold leadingTimeToken
        rw [List.append_assoc, hany]
        simp only [hanyEnd, hafter, if_true]
        congr 2
        simp
        omega

/-- A text that does not start with a digit has no leading time. -/
theorem leadingTimeToken_of_not_digit {text : Text} (h : ∀ c ∈ text.head?, c.isDigit = false) :
    leadingTimeToken text = none := by
  unfold leadingTimeToken
  cases hclock : parseTimePrefix text with
  | none => rfl
  | some r =>
    obtain ⟨d, p, hd, rfl, -⟩ := parseTimePrefix_prefix hclock
    rw [h d rfl] at hd
    cases hd

theorem pad2_digits (n : ℕ) (h : n < 100) :
    ∃ a b, pad2 n = [a, b] ∧ a.isDigit = true ∧ b.isDigit = true ∧ 10 * digitValue a + digitValue b = n := by
  have digit : ∀ k < 10, (Nat.digitChar k).isDigit = true ∧ digitValue (Nat.digitChar k) = k := by decide
  obtain ⟨ha, hav⟩ := digit (n / 10) (by omega)
  obtain ⟨hb, hbv⟩ := digit (n % 10) (by omega)
  exact ⟨_, _, rfl, ha, hb, by rw [hav, hbv]; omega⟩

/-- A clock time in two-digit hours and minutes reads back. -/
theorem parseTimePrefix_pad2 (hours minutes : ℕ) (hh : hours < 24) (hm : minutes < 60) (rest : Text) :
    parseTimePrefix (pad2 hours ++ [':'] ++ pad2 minutes ++ rest) = some (hours * 60 + minutes, rest) := by
  obtain ⟨a, b, hab, ha, hb, hhours⟩ := pad2_digits hours (by omega)
  obtain ⟨c, d, hcd, hc, hd, hminutes⟩ := pad2_digits minutes (by omega)
  have hb' : b ≠ ':' := by
    rintro rfl
    exact absurd hb (by decide)
  rw [hab, hcd]
  simp only [List.cons_append, List.nil_append]
  have hclock : clockMinutes [a, b] c d = some (hours * 60 + minutes) := by
    have hday : ¬(hours > 23 ∨ minutes > 59) := by omega
    have hfold : List.foldl (fun n c => 10 * n + digitValue c) 0 [a, b] = hours := by
      rw [← hhours]
      simp [Nat.mul_comm]
    simp only [clockMinutes, List.all_cons, List.all_nil, ha, hb, hc, hd, Bool.and_self, if_true, hfold,
      hminutes, hday, if_false]
  unfold parseTimePrefix
  split
  · rename_i heq
    simp only [List.cons.injEq] at heq
    exact absurd heq.2.1 hb'
  · rename_i heq
    simp only [List.cons.injEq] at heq
    obtain ⟨rfl, rfl, -, rfl, rfl, rfl⟩ := heq
    rw [hclock]
    rfl
  · rename_i hnone
    exact absurd rfl (hnone a b c d rest)

/-- The token of an event's times reads back before any text that ends the word. -/
theorem leadingTimeToken_format (t : EventTime) {after : Text} (hafter : endsWord after = true) :
    leadingTimeToken (formatTimeToken t.start t.stop ++ after) =
      some (t.start, (formatTimeToken t.start t.stop).length) := by
  have hstart := t.start_lt
  have hstop := t.stop_le
  simp only [minutesPerDay] at hstart hstop
  have hclock : parseTimePrefix (formatTimeToken t.start t.stop ++ after) =
      some (t.start, " - ".toList ++ (pad2 (t.stop / 60) ++ [':'] ++ pad2 (t.stop % 60) ++ after)) := by
    have hread := parseTimePrefix_pad2 (t.start / 60) (t.start % 60) (by omega) (by omega)
      (" - ".toList ++ (pad2 (t.stop / 60) ++ [':'] ++ pad2 (t.stop % 60) ++ after))
    rw [Nat.div_add_mod' t.start 60] at hread
    simpa [formatTimeToken] using hread
  have hend : parseRangeEnd (" - ".toList ++ (pad2 (t.stop / 60) ++ [':'] ++ pad2 (t.stop % 60) ++ after)) =
      some (t.stop, after) := by
    obtain ⟨d, rest, hd, hdigits⟩ : ∃ d rest, d.isDigit = true ∧ pad2 (t.stop / 60) = d :: rest := by
      obtain ⟨a, b, hab, ha, -, -⟩ := pad2_digits (t.stop / 60) (by omega)
      exact ⟨a, [b], ha, hab⟩
    have hsep : stripRangeSeparator (trimStart (" - ".toList ++
        (pad2 (t.stop / 60) ++ [':'] ++ pad2 (t.stop % 60) ++ after))) =
          some ([' '] ++ (pad2 (t.stop / 60) ++ [':'] ++ pad2 (t.stop % 60) ++ after)) := rfl
    have htrim : trimStart ([' '] ++ (pad2 (t.stop / 60) ++ [':'] ++ pad2 (t.stop % 60) ++ after)) =
        pad2 (t.stop / 60) ++ [':'] ++ pad2 (t.stop % 60) ++ after := by
      rw [trimStart_append_of_blank (by decide), hdigits]
      exact trimStart_of_unindented (unindented_cons (not_isWhitespace_of_isDigit hd) _)
    rw [parseRangeEnd, hsep, Option.bind_some, htrim]
    dsimp only
    by_cases hmidnight : t.stop = minutesPerDay
    · rw [hmidnight]
      have hstrip : stripPrefix "24:00".toList (pad2 (minutesPerDay / 60) ++ [':'] ++
          pad2 (minutesPerDay % 60) ++ after) = some after := by
        rw [stripPrefix_eq_some]
        rfl
      rw [hstrip]
    · have hday : t.stop < 1440 := lt_of_le_of_ne hstop hmidnight
      have hread := parseTimePrefix_pad2 (t.stop / 60) (t.stop % 60) (by omega) (by omega) after
      rw [Nat.div_add_mod' t.stop 60] at hread
      cases hstrip : stripPrefix "24:00".toList (pad2 (t.stop / 60) ++ [':'] ++ pad2 (t.stop % 60) ++ after) with
      | none => exact hread
      | some rest' =>
        rw [stripPrefix_eq_some.mp hstrip, parseTimePrefix_midnight] at hread
        cases hread
  unfold leadingTimeToken
  rw [hclock]
  simp only [hend, hafter, if_true]
  simp

/-! ## The checkbox head -/

/-- Indent, bullet, checkbox and the white space after it. -/
structure CheckboxHead (h : Text) : Prop where
  shape : ∃ indent bullet space mark gap,
    h = indent ++ bullet :: (space ++ '[' :: mark :: ']' :: gap) ∧ Blank indent ∧
      (bullet = '-' ∨ bullet = '*' ∨ bullet = '+') ∧ Blank space ∧ space ≠ [] ∧
      (mark = ' ' ∨ mark = 'x' ∨ mark = 'X') ∧ Blank gap ∧ gap ≠ []

/-- More white space belongs to the head. -/
theorem CheckboxHead.append_blank {h space : Text} (hh : CheckboxHead h) (hs : Blank space) :
    CheckboxHead (h ++ space) := by
  obtain ⟨indent, bullet, inner, mark, gap, rfl, hindent, hbullet, hinner, hne, hmark, hgap, hgne⟩ := hh.shape
  exact ⟨indent, bullet, inner, mark, gap ++ space, by simp, hindent, hbullet, hinner, hne, hmark,
    hgap.append hs, by simp [hgne]⟩

/-- After a head the task text starts, whatever it is. -/
theorem CheckboxHead.offset {h text : Text} (hh : CheckboxHead h) (ht : Unindented text) :
    checkboxTextOffset (h ++ text) = some h.length := by
  obtain ⟨indent, bullet, space, mark, gap, rfl, hindent, hbullet, hspace, hne, hmark, hgap, hgne⟩ := hh.shape
  have hbulletWs : isWhitespace bullet = false := by
    rcases hbullet with rfl | rfl | rfl <;> decide
  have hstart : trimStart (indent ++ bullet :: (space ++ '[' :: mark :: ']' :: gap) ++ text) =
      bullet :: (space ++ ('[' :: mark :: ']' :: (gap ++ text))) := by
    rw [List.append_assoc, trimStart_append_of_blank hindent, List.cons_append,
      trimStart_of_unindented (unindented_cons hbulletWs _)]
    simp
  have hbox : trimStart (space ++ ('[' :: mark :: ']' :: (gap ++ text))) = '[' :: mark :: ']' :: (gap ++ text) := by
    rw [trimStart_append_of_blank hspace, trimStart_of_unindented (unindented_cons (by decide) _)]
  have htext : trimStart (gap ++ text) = text := by
    rw [trimStart_append_of_blank hgap, trimStart_of_unindented ht]
  have hspaceLength : 0 < space.length := List.length_pos_of_ne_nil hne
  have hgapLength : 0 < gap.length := List.length_pos_of_ne_nil hgne
  unfold checkboxTextOffset
  rw [hstart]
  dsimp only
  rw [hbox]
  rw [if_neg (not_not.mpr hbullet), if_neg (by simp; omega)]
  split
  · rename_i mark' afterCheckbox heq
    simp only [List.cons.injEq, true_and] at heq
    obtain ⟨rfl, rfl⟩ := heq
    rw [htext, if_neg (not_not.mpr hmark), if_neg fun hsame => hgne (by simpa using hsame.1)]
    congr 1
    simp
    omega
  · rename_i hno
    exact absurd rfl (hno mark (gap ++ text))

/-- A line with a task text is a head and that text, unless nothing follows the checkbox. -/
theorem checkboxTextOffset_some {line : Text} {n : ℕ} (h : checkboxTextOffset line = some n) :
    ∃ head text, line = head ++ text ∧ head.length = n ∧ Unindented text ∧ '<' ∉ head ∧
      (text ≠ [] → CheckboxHead head) := by
  unfold checkboxTextOffset at h
  split at h
  · rename_i bullet afterBullet hstart
    dsimp only at h
    split at h
    · cases h
    · rename_i hbullet
      split at h
      · cases h
      · rename_i hspaced
        split at h
        · rename_i mark afterCheckbox hbox
          split at h
          · cases h
          · rename_i hmark
            split at h
            · cases h
            · rename_i hgap
              obtain rfl := Option.some.inj h
              have hblank {t : Text} (ht : Blank t) : '<' ∉ t := fun hmem => absurd (ht '<' hmem) (by decide)
              have hline : line = line.takeWhile isWhitespace ++ bullet :: (afterBullet.takeWhile isWhitespace ++
                  '[' :: mark :: ']' :: afterCheckbox.takeWhile isWhitespace) ++ trimStart afterCheckbox := by
                conv_lhs => rw [← takeWhile_append_trimStart line, hstart,
                  ← takeWhile_append_trimStart afterBullet, hbox, ← takeWhile_append_trimStart afterCheckbox]
                simp
              have hlength := congrArg List.length hline
              rw [List.length_append] at hlength
              refine ⟨_, _, hline, by omega, unindented_trimStart _, ?_, fun htext => ?_⟩
              · have hb : bullet ≠ '<' := by
                  rcases not_not.mp hbullet with rfl | rfl | rfl <;> decide
                have hm : mark ≠ '<' := by
                  rcases not_not.mp hmark with rfl | rfl | rfl <;> decide
                simp [hblank (blank_takeWhile line), hblank (blank_takeWhile afterBullet),
                  hblank (blank_takeWhile afterCheckbox), hb.symm, hm.symm]
              · refine ⟨_, _, _, _, _, rfl, blank_takeWhile _, not_not.mp hbullet, blank_takeWhile _, ?_,
                  not_not.mp hmark, blank_takeWhile _, ?_⟩
                · intro hnil
                  have hsplit := takeWhile_append_trimStart afterBullet
                  rw [hnil, List.nil_append] at hsplit
                  exact hspaced (by rw [hsplit])
                · intro hnil
                  have hsplit := takeWhile_append_trimStart afterCheckbox
                  rw [hnil, List.nil_append] at hsplit
                  exact hgap ⟨by rw [hsplit], by simpa using htext⟩
        · cases h
  · cases h

/-! ## The form of a synced line -/

/-- A marker payload is a hex id and, after a colon, a lowercase suffix. -/
theorem parseMarkerPayload_some {payload id : Text} {suffix : Option Text}
    (h : parseMarkerPayload payload = some (id, suffix)) :
    id ≠ [] ∧ (∀ c ∈ id, isHexDigit c = true) ∧ (∀ s ∈ suffix, s ≠ [] ∧ ∀ c ∈ s, c.isLower = true) ∧
      payload = id ++ suffixPart suffix := by
  have read (parts : Text × Option Text) (heq : payload = parts.1 ++ suffixPart parts.2)
      (hparts : (if parts.1.isEmpty || !parts.1.all isHexDigit then none
        else if parts.2.any fun suffix => suffix.isEmpty || !suffix.all Char.isLower then none
        else some parts) = some (id, suffix)) :
      id ≠ [] ∧ (∀ c ∈ id, isHexDigit c = true) ∧ (∀ s ∈ suffix, s ≠ [] ∧ ∀ c ∈ s, c.isLower = true) ∧
        payload = id ++ suffixPart suffix := by
    split at hparts
    · cases hparts
    · rename_i hid
      split at hparts
      · cases hparts
      · rename_i hsuffix
        obtain rfl := Option.some.inj hparts
        simp only [Bool.or_eq_true, List.isEmpty_iff, Bool.not_eq_true', not_or, Bool.not_eq_false,
          List.all_eq_true] at hid
        refine ⟨hid.1, hid.2, fun s hs => ?_, heq⟩
        obtain rfl : suffix = some s := hs
        simpa [not_or] using hsuffix
  unfold parseMarkerPayload at h
  cases hsplit : splitFirst [':'] payload with
  | none =>
    rw [hsplit] at h
    exact read (payload, none) (by simp [suffixPart]) h
  | some r =>
    rw [hsplit] at h
    exact read (r.1, some r.2) (by simpa [suffixPart] using splitFirst_eq hsplit) h

/-- A hex id and a well-formed suffix read back. -/
theorem parseMarkerPayload_render {id : Text} {suffix : Option Text} (hne : id ≠ [])
    (hhex : ∀ c ∈ id, isHexDigit c = true) (hsuffix : ∀ s ∈ suffix, s ≠ [] ∧ ∀ c ∈ s, c.isLower = true) :
    parseMarkerPayload (id ++ suffixPart suffix) = some (id, suffix) := by
  have hcolon : ':' ∉ id := fun hmem => absurd (hhex ':' hmem) (by decide)
  have hidOk : (id.isEmpty || !id.all isHexDigit) = false := by
    simp only [Bool.or_eq_false_iff, List.isEmpty_eq_false_iff, Bool.not_eq_false', List.all_eq_true]
    exact ⟨hne, hhex⟩
  cases suffix with
  | none =>
    have hnone : splitFirst [':'] id = none := by
      cases hsplit : splitFirst [':'] id with
      | none => rfl
      | some r => exact absurd (by rw [splitFirst_eq hsplit]; simp) hcolon
    simp [parseMarkerPayload, suffixPart, hnone, hidOk]
  | some s =>
    obtain ⟨hs, hlower⟩ := hsuffix s rfl
    have hsplit : splitFirst [':'] (id ++ ':' :: s) = some (id, s) := by
      have hfirst := splitFirst_of_last [] s hcolon List.not_mem_nil
      simpa using hfirst
    have hsOk : (s.isEmpty || !s.all Char.isLower) = false := by
      simp only [Bool.or_eq_false_iff, List.isEmpty_eq_false_iff, Bool.not_eq_false', List.all_eq_true]
      exact ⟨hs, hlower⟩
    simp [parseMarkerPayload, suffixPart, hsplit, hidOk, hsOk]

/-- No angle bracket opens in a payload. -/
theorem parseMarkerPayload_open {payload id : Text} {suffix : Option Text}
    (h : parseMarkerPayload payload = some (id, suffix)) : '<' ∉ payload := by
  obtain ⟨-, hhex, hlower, rfl⟩ := parseMarkerPayload_some h
  intro hmem
  rcases List.mem_append.mp hmem with hmem | hmem
  · exact absurd (hhex '<' hmem) (by decide)
  · cases suffix with
    | none => exact absurd hmem List.not_mem_nil
    | some s =>
      rcases List.mem_cons.mp hmem with heq | hmem
      · exact absurd heq (by decide)
      · exact absurd ((hlower s rfl).2 '<' hmem) (by decide)

/-- A marker is read where it stands last, before white space only. -/
theorem splitLast_marker (before : Text) {payload id : Text} {suffix : Option Text} {tail : Text}
    (hp : parseMarkerPayload payload = some (id, suffix)) (ht : Blank tail) :
    trimEnd (before ++ (markerPrefix ++ payload ++ markerEnd) ++ tail) =
        before ++ (markerPrefix ++ payload ++ markerEnd) ∧
      splitLast markerPrefix (before ++ (markerPrefix ++ payload ++ markerEnd)) =
        some (before, payload ++ markerEnd) := by
  have hopen := parseMarkerPayload_open hp
  constructor
  · rw [trimEnd_append_of_blank ht]
    refine trimEnd_of_untrailed fun c hc => ?_
    have hlast : before ++ (markerPrefix ++ payload ++ markerEnd) =
        (before ++ markerPrefix ++ payload ++ ['-', '-']) ++ ['>'] := by
      simp [markerEnd]
    rw [hlast, List.getLast?_concat] at hc
    obtain rfl : '>' = c := Option.some.inj hc
    decide
  · have hnone : '<' ∉ payload ++ markerEnd := by
      rw [List.mem_append, not_or]
      exact ⟨hopen, by decide⟩
    have hsplit := splitLast_of_head "!--gcal:".toList before hnone (by decide)
    rw [List.append_assoc markerPrefix, ← List.append_assoc before]
    exact hsplit

/-- A synced line as it is read from a head, a region, a marker payload and trailing white space. -/
def SyncedLine.ofPieces (row : ℕ) (head region payload id : Text) (suffix : Option Text) (tail : Text) :
    SyncedLine :=
  { row, id, markerSuffix := suffix, head, tail
    line := head ++ region ++ (markerPrefix ++ payload ++ markerEnd) ++ tail
    sortStart := (Region.parse region).sortStart, token := (Region.parse region).token
    space := (Region.parse region).space, text := (Region.parse region).text, gap := (Region.parse region).gap
    marker := markerPrefix ++ payload ++ markerEnd }

/-- Any region between a head and a marker reads back, less its own leading white space. -/
theorem SyncedLine.parse_pieces (row : ℕ) {head payload id : Text} (region : Text) {suffix : Option Text}
    {tail : Text} (hh : CheckboxHead head) (hp : parseMarkerPayload payload = some (id, suffix))
    (ht : Blank tail) :
    SyncedLine.parse row (head ++ region ++ (markerPrefix ++ payload ++ markerEnd) ++ tail) =
      some (.ofPieces row (head ++ region.takeWhile isWhitespace) (trimStart region) payload id suffix tail) := by
  obtain ⟨htrim, hsplit⟩ := splitLast_marker (head ++ region) hp ht
  have hmarker : Unindented (trimStart region ++ (markerPrefix ++ payload ++ markerEnd) ++ tail) := by
    cases hregion : trimStart region with
    | nil => exact unindented_cons (by decide) _
    | cons c rest => exact unindented_cons (unindented_trimStart region c (by rw [hregion]; rfl)) _
  have hoffset : checkboxTextOffset (head ++ region ++ (markerPrefix ++ payload ++ markerEnd) ++ tail) =
      some (head ++ region.takeWhile isWhitespace).length := by
    have hline : head ++ region ++ (markerPrefix ++ payload ++ markerEnd) ++ tail =
        (head ++ region.takeWhile isWhitespace) ++
          (trimStart region ++ (markerPrefix ++ payload ++ markerEnd) ++ tail) := by
      conv_lhs => rw [← takeWhile_append_trimStart region]
      simp
    rw [hline]
    exact (hh.append_blank (blank_takeWhile region)).offset hmarker
  have hbefore : head ++ region = (head ++ region.takeWhile isWhitespace) ++ trimStart region := by
    rw [List.append_assoc, takeWhile_append_trimStart]
  have htail : (head ++ region ++ (markerPrefix ++ payload ++ markerEnd) ++ tail).rtakeWhile isWhitespace = tail := by
    have hparts := trimEnd_append_rtakeWhile (head ++ region ++ (markerPrefix ++ payload ++ markerEnd) ++ tail)
    rw [htrim] at hparts
    exact List.append_cancel_left hparts
  have hpayload : stripSuffix markerEnd (payload ++ markerEnd) = some payload := stripSuffix_eq_some.mpr rfl
  unfold SyncedLine.parse
  simp only [htrim, hsplit, hpayload, hp, hoffset, htail, Option.bind_eq_bind, Option.bind_some]
  rw [hbefore, List.drop_left, List.take_left]
  rfl

/-- A synced line is a head, a region that starts with no white space, a marker of its id, and
trailing white space. -/
theorem SyncedLine.parse_some {row : ℕ} {line : Text} {l : SyncedLine} (h : SyncedLine.parse row line = some l) :
    ∃ region payload, CheckboxHead l.head ∧ Unindented region ∧ Blank l.tail ∧
      parseMarkerPayload payload = some (l.id, l.markerSuffix) ∧
      line = l.head ++ region ++ (markerPrefix ++ payload ++ markerEnd) ++ l.tail ∧
      l = .ofPieces row l.head region payload l.id l.markerSuffix l.tail := by
  unfold SyncedLine.parse at h
  simp only [Option.bind_eq_bind, Option.bind_eq_some_iff] at h
  obtain ⟨⟨before, afterPrefix⟩, hsplit, payload, hpayload, ⟨id, suffix⟩, hp, offset, hoffset, h⟩ := h
  obtain ⟨head, text, hline, hlength, htext, hopen, hhead⟩ := checkboxTextOffset_some hoffset
  rw [stripSuffix_eq_some] at hpayload
  subst hpayload
  have hwhole : line = before ++ (markerPrefix ++ payload ++ markerEnd) ++ line.rtakeWhile isWhitespace := by
    conv_lhs => rw [← trimEnd_append_rtakeWhile line, splitLast_eq hsplit]
    simp
  -- No angle bracket opens in the head, so the marker starts after it.
  obtain ⟨region, hbefore, hregion⟩ : ∃ region, before = head ++ region ∧
      text = region ++ ((markerPrefix ++ payload ++ markerEnd) ++ line.rtakeWhile isWhitespace) := by
    have hboth : head ++ text = before ++ ((markerPrefix ++ payload ++ markerEnd) ++ line.rtakeWhile isWhitespace) := by
      rw [← hline, ← List.append_assoc]
      exact hwhole
    rcases List.append_eq_append_iff.mp hboth with ⟨region, hb, ht⟩ | ⟨extra, hb, ht⟩
    · exact ⟨region, hb, ht⟩
    · cases extra with
      | nil =>
        rw [List.append_nil] at hb
        rw [List.nil_append] at ht
        exact ⟨[], by rw [List.append_nil, hb], by rw [List.nil_append, ht]⟩
      | cons c rest =>
        have hfirst : some '<' = some c := congrArg List.head? ht
        injection hfirst with hc
        rw [hb, ← hc] at hopen
        exact absurd (List.mem_append_right _ List.mem_cons_self) hopen
  have hunindented : Unindented region := by
    intro c hc
    refine htext c ?_
    rw [hregion]
    cases region with
    | nil => simp at hc
    | cons d rest => exact hc
  have hne : text ≠ [] := by
    rw [hregion]
    exact List.append_ne_nil_of_right_ne_nil _ (List.cons_ne_nil '<' _)
  subst hbefore
  rw [← hlength, List.drop_left, List.take_left] at h
  have hl := (Option.some.inj h).symm
  subst hl
  refine ⟨region, payload, hhead hne, hunindented, blank_rtakeWhile line, hp, hwhole, ?_⟩
  rw [SyncedLine.ofPieces, ← hwhole]

end Thock.Desk
