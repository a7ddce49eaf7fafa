import Thock.SyncCore.HomeEdits

/-!
# A dropped reminder reads as dropped

Where a token is taken out of a line, the text before it and the text behind it meet. As long as
no run of backticks, no comment opening and no token forms where they do, the rest of the line
keeps its pieces, and a line with an id and no second token reads as a dropped reminder.
-/

namespace Thock.SyncCore.Reminder

open TextScan

/-! ## The two sides of a stretch that is taken out -/

/-- What is kept before and behind a stretch, the white space of one side gone. -/
def kept (line : Text) (range : Span) : Text × Text :=
  let before := line.take range.start
  let after := line.drop range.stop
  if (trim after).isEmpty then (trimEnd before, [])
  else if ¬after.head?.any isWhitespace then (trimEnd before, after)
  else if before.isEmpty ∨ before.getLast?.any isWhitespace then (before, trimStart after)
  else (before, after)

theorem removeRange_eq (line : Text) (range : Span) :
    removeRange line range = (kept line range).1 ++ (kept line range).2 := by
  unfold removeRange kept
  dsimp only
  split
  · rw [List.append_nil]
  · split
    · rfl
    · split <;> rfl

/-- What is kept is what stood there without white space next to the stretch. -/
theorem kept_spec (u m v : Text) :
    ∃ w w', Blank w ∧ Blank w' ∧ u = (kept (u ++ (m ++ v)) ⟨u.length, u.length + m.length⟩).1 ++ w ∧
      v = w' ++ (kept (u ++ (m ++ v)) ⟨u.length, u.length + m.length⟩).2 := by
  have htake : (u ++ (m ++ v)).take u.length = u := List.take_left
  have hdrop : (u ++ (m ++ v)).drop (u.length + m.length) = v := by
    rw [← List.drop_drop, List.drop_left, List.drop_left]
  unfold kept
  dsimp only
  rw [htake, hdrop]
  split
  · rename_i hempty
    have hblank : Blank v := by
      have hnil : trimEnd (trimStart v) = [] := List.isEmpty_iff.mp hempty
      have hstart := trimEnd_append_rtakeWhile (trimStart v)
      rw [hnil, List.nil_append] at hstart
      rw [← takeWhile_append_trimStart v, ← hstart]
      exact (blank_takeWhile v).append (blank_rtakeWhile _)
    exact ⟨_, v, blank_rtakeWhile u, hblank, (trimEnd_append_rtakeWhile u).symm, (List.append_nil v).symm⟩
  · split
    · exact ⟨_, [], blank_rtakeWhile u, .nil, (trimEnd_append_rtakeWhile u).symm, rfl⟩
    · split
      · exact ⟨[], _, .nil, blank_takeWhile v, (List.append_nil u).symm, (takeWhile_append_trimStart v).symm⟩
      · exact ⟨[], [], .nil, .nil, (List.append_nil u).symm, rfl⟩

/-- Nothing that hides text forms where two texts meet. -/
structure Seamless (sides : Text × Text) : Prop where
  ticks : Unjoined sides.1 sides.2
  opens : Apart commentOpen sides.1 sides.2

/-- No token forms where two texts meet. -/
def TokenFree (sides : Text × Text) : Prop :=
  ∀ inner when_, parseWhen inner = some when_ → Apart (tokenAround inner) sides.1 sides.2

/-- At most one token of a line counts. -/
def Alone (line : Text) : Prop :=
  ∀ start start' close close' when_ when', CountsAt line (scanInline line false).excluded start close when_ →
    CountsAt line (scanInline line false).excluded start' close' when' → start = start'

section Line
variable {line rest : Text} {pieces : List Piece}

/-- The stretch of the last token that counts, strike and all, stands among the letters. -/
theorem token_letters {front back : List Piece} {inner : Text} {when_ : When} (h : Scanned line pieces rest)
    (hlive : Live pieces front inner when_ back) :
    ∃ front₀ m back₀, pieces = front₀ ++ letters m ++ back₀ ∧ Plain m ∧
      (tokenAt line (textOf front).length ((textOf front).length + 2 + inner.length + 1) when_).range =
        ⟨(textOf front₀).length, (textOf front₀).length + m.length⟩ ∧
      (∃ strikes, front = front₀ ++ letters strikes ∧ m = strikes ++ (tokenAround inner ++ strikes) ∧
        back = letters strikes ++ back₀ ∧ '\\' ∉ strikes) := by
  rcases token_cases h hlive with ⟨u, v, hu, hv, htoken⟩ | ⟨-, htoken⟩
  · have hstrike : '`' ∉ strike ∧ '>' ∉ strike ∧ '<' ∉ strike := by decide
    have hreads := h.reads
    rw [hlive.eq, List.append_assoc] at hreads
    obtain ⟨hfront, hbehind⟩ := hreads.split
    obtain ⟨front₀, rfl, hfront₀⟩ := exists_letters_at_end hfront.sound hu ⟨hstrike.1, hstrike.2.1⟩
    rw [textOf_append, textOf_letters, List.append_assoc] at hbehind
    have hback : Scanned (textOf back ++ rest) back rest := ⟨hbehind.split.2, h.ends⟩
    rw [hv] at hback
    obtain ⟨back₀, rfl, -⟩ := hback.drop_letters ⟨hstrike.1, hstrike.2.2⟩
    have hplain := hlive.plain
    refine ⟨front₀, strike ++ (tokenAround inner ++ strike), back₀, ?_, ?_, ?_, strike, rfl, rfl, rfl, by decide⟩
    · rw [hlive.eq]
      simp [letters_append]
    · refine ⟨by simp [strike], ?_, ?_, ?_⟩
      · simp only [List.mem_append, not_or]
        exact ⟨hstrike.1, hplain.ticks, hstrike.1⟩
      · simp only [List.mem_append, not_or]
        exact ⟨hstrike.2.2, hplain.opens, hstrike.2.2⟩
      · intro c hc
        obtain rfl : '~' = c := by simpa [strike] using hc
        decide
    · rw [htoken, hfront₀]
  · exact ⟨front, tokenAround inner, back, hlive.eq, hlive.plain, by rw [htoken], [], by simp [letters], by simp,
      by simp [letters], List.not_mem_nil⟩

/-- The pieces of a line around a plain stretch that is taken out. -/
theorem removed_scanned {front back : List Piece} {m : Text} (h : Scanned line (front ++ letters m ++ back) rest)
    (hm : Plain m) (hseam : Seamless (kept line ⟨(textOf front).length, (textOf front).length + m.length⟩)) :
    ∃ front' w w' back', front = front' ++ letters w ∧ back = letters w' ++ back' ∧ Blank w ∧ Blank w' ∧
      kept line ⟨(textOf front).length, (textOf front).length + m.length⟩ = (textOf front', textOf back' ++ rest) ∧
      Scanned (removeRange line ⟨(textOf front).length, (textOf front).length + m.length⟩) (front' ++ back') rest := by
  have hreads := h.reads
  rw [List.append_assoc] at hreads
  obtain ⟨hfront, hbehind⟩ := hreads.split
  rw [textOf_append, textOf_letters, List.append_assoc] at hfront hbehind
  have hback : Scanned (textOf back ++ rest) back rest := ⟨hbehind.split.2, h.ends⟩
  have hline := hfront.text_eq
  obtain ⟨w, w', hw, hw', hu, hv⟩ := kept_spec (textOf front) m (textOf back ++ rest)
  rw [← hline] at hu hv
  rw [removeRange_eq]
  generalize kept line ⟨(textOf front).length, (textOf front).length + m.length⟩ = sides at hu hv hseam ⊢
  obtain ⟨before, after⟩ := sides
  dsimp only at hu hv ⊢
  obtain ⟨front', rfl, rfl⟩ := exists_letters_of_blank hfront.sound hu hw
  rw [hv] at hback
  obtain ⟨back', rfl, hback'⟩ := hback.drop_blank hw'
  have hcut := hfront.split.1
  rw [textOf_letters, hv] at hcut
  have hx : (w ++ (m ++ (w' ++ after))).head? ≠ some '`' := by
    cases w with
    | nil => exact hm.head?_append _
    | cons c w =>
      intro hc
      obtain rfl := Option.some.inj hc
      exact absurd (hw '`' List.mem_cons_self) (by decide)
  have hclose : ∀ n, closeAt '`' n 0 (w ++ (m ++ (w' ++ after))) = none → closeAt '`' n 0 after = none := by
    intro n hn
    rwa [closeAt_plain (hw.not_mem (by decide)), Option.map_eq_none_iff, closeAt_plain hm.ticks, Option.map_eq_none_iff,
      closeAt_plain (hw'.not_mem (by decide)), Option.map_eq_none_iff] at hn
  have hswap := hcut.swap hx hclose hseam.ticks hseam.opens
  exact ⟨front', w, w', back', rfl, rfl, hw, hw', by rw [← hback'.text_eq], hswap.append hback'.reads, hback'.ends⟩

/-- Quiet pieces stay quiet without letters before them. -/
theorem Quiet.right {w : Text} {back : List Piece} (h : Quiet (letters w ++ back)) (hw : '\\' ∉ w) : Quiet back := by
  intro x inner when_ y hlive
  refine h (letters w ++ x) inner when_ y ⟨by rw [hlive.eq]; simp, ?_, hlive.reads⟩
  rw [textOf_append, textOf_letters]
  by_cases hx : textOf x = []
  · rw [hx, List.append_nil]
    exact fun hlast => hw (List.mem_of_getLast? hlast)
  · rw [List.getLast?_append_of_ne_nil _ hx]
    exact hlive.free

/-- Taking out a stretch makes no line a calendar line. -/
theorem calendar_removed {front back : List Piece} {u v : Text} (h : Scanned (u ++ v) (front ++ back) rest)
    (hfront : textOf front = u) (hopen : Apart commentOpen u v) (hu : ¬calendarMarker <:+: u)
    (hv : ¬calendarMarker <:+: v) : holds calendarMarker (u ++ v) = false := by
  rw [holds_eq_false_iff]
  rintro ⟨before, after, hfound⟩
  have hmarker : calendarMarker = commentOpen ++ "gcal:".toList := by decide
  rw [hmarker, ← List.append_assoc, List.append_assoc] at hfound
  rcases hopen before ("gcal:".toList ++ after) hfound.symm with ⟨k, hk, hrest⟩ | ⟨more, -, hmore⟩
  · by_cases hlong : "gcal:".toList.length ≤ k.length
    · obtain ⟨k', rfl⟩ := List.prefix_of_prefix_length_le ⟨after, hrest⟩ (List.prefix_append k v) hlong
      exact hu ⟨before, k', by rw [hk, hmarker]; simp⟩
    · -- the opening would stand among the letters at the end of the pieces before the cut
      have hkin : k <+: "gcal:".toList := by
        refine List.prefix_of_prefix_length_le (List.prefix_append k v) ⟨after, hrest⟩ (by omega)
      have hplain : '`' ∉ commentOpen ++ k ∧ '>' ∉ commentOpen ++ k := by
        simp only [List.mem_append, not_or]
        exact ⟨⟨by decide, fun hmem => absurd (hkin.subset hmem) (by decide)⟩,
          ⟨by decide, fun hmem => absurd (hkin.subset hmem) (by decide)⟩⟩
      obtain ⟨front', rfl, -⟩ := exists_letters_at_end (u := before) (w := commentOpen ++ k)
        (fun p hp => h.reads.sound p (List.mem_append_left _ hp)) (by rw [hfront, hk, List.append_assoc]) hplain
      have hreads := h.reads
      rw [List.append_assoc] at hreads
      obtain ⟨-, hcut⟩ := hreads.split
      have hhead : letters (commentOpen ++ k) ++ back =
          .words ['<'] :: (letters (['!', '-', '-'] ++ k) ++ back) := rfl
      rw [textOf_append, textOf_letters, hhead] at hcut
      generalize hinput : commentOpen ++ k ++ textOf back ++ rest = input at hcut
      generalize hpiece : Piece.words ['<'] = piece at hcut
      cases hcut with
      | comment => cases hpiece
      | code => cases hpiece
      | @ticks n _ _ _ hn =>
        obtain ⟨n, rfl⟩ : ∃ m, n = m + 1 := ⟨n - 1, by omega⟩
        cases Piece.words.inj hpiece
      | letter htick hnone next =>
        apply hnone
        rw [← hinput, List.append_assoc, List.append_assoc]
        exact List.prefix_append _ _
  · exact hv ⟨more, after, by rw [hmore, hmarker]; simp⟩

/-- Two pieces of a line that were quiet stay quiet where no token forms between them. -/
theorem Quiet.join {front back : List Piece} {v : Text} (hfront : Quiet front) (hback : Quiet back)
    (hfree : TokenFree (textOf front, textOf back ++ v)) : Quiet (front ++ back) := by
  refine hfront.append hback ?_
  rintro before t₁ t₂ inner when_ behind hwhen h₁ h₂ htoken rfl rfl
  have hlength := congrArg List.length htoken
  rw [List.length_append] at hlength
  have hpos := List.length_pos_iff.mpr h₁
  have hpos' := List.length_pos_iff.mpr h₂
  rcases hfree inner when_ hwhen (textOf before) (textOf behind ++ v) (by simp [htoken]) with ⟨more, hmore, -⟩ | ⟨more, hmore, -⟩
  · have := congrArg List.length hmore
    simp only [textOf_append, textOf_letters, List.length_append] at this
    omega
  · have := congrArg List.length hmore
    simp only [textOf_append, textOf_letters, List.length_append] at this
    omega

/-- Before the one token that counts no other does. -/
theorem Alone.quiet {front back : List Piece} {inner : Text} {when_ : When} (halone : Alone line)
    (h : Scanned line pieces rest) (hlive : Live pieces front inner when_ back) : Quiet front := by
  intro x inner' when' y hfront
  have hwhole : Live pieces x inner' when' (y ++ (letters (tokenAround inner) ++ back)) := by
    rw [hlive.eq, List.append_assoc]
    exact hfront.append _
  rw [Alone, h.scanInline] at halone
  have hsame := halone _ _ _ _ _ _ (countsAt_of_live h hwhole) (countsAt_of_live h hlive)
  have hlength := congrArg (fun pieces => (textOf pieces).length) hfront.eq
  simp only [textOf_append, textOf_letters, List.length_append, tokenAround_length] at hlength
  omega

end Line

/-- Where nothing forms across the gap, a line with an id and one token reads as dropped once the token is out. -/
theorem dropToken_reads {line dropped id : Text} (hdrop : dropToken line = some dropped)
    (hid : (parseLine line none).bind LineReminder.id = some id) (halone : Alone line)
    (hseam : ∀ token, (parseLine line none).bind LineReminder.token = some token →
      Seamless (kept line token.range) ∧ TokenFree (kept line token.range)) (day : Option Day) :
    ∃ reminder, parseLine dropped day = some reminder ∧ reminder.id = some id ∧ reminder.state = .dropped := by
  have hcalendar : holds calendarMarker line = false := by
    rw [← Bool.not_eq_true]
    intro hcalendar
    rw [parseLine, readLine, if_pos hcalendar] at hid
    cases hid
  obtain ⟨pieces, rest, h⟩ := exists_scanned line
  rcases quiet_or_live pieces with hquiet | ⟨front, inner, when_, back, hlive, hquiet⟩
  · rw [dropToken, parseLine_of_quiet h hcalendar hquiet] at hdrop
    cases hlast : lastId pieces with
    | none =>
      rw [hlast] at hdrop
      cases hdrop
    | some earlier =>
      rw [hlast] at hdrop
      cases hdrop
  · have hparse := parseLine_of_live h hcalendar hlive hquiet
    rw [dropToken, hparse] at hdrop
    rw [hparse] at hid
    obtain ⟨hseamless, hfree⟩ := hseam _ (by rw [hparse]; rfl)
    have hfront := halone.quiet h hlive
    obtain ⟨front₀, m, back₀, rfl, hm, hrange, strikes, rfl, -, rfl, hstrikes⟩ := token_letters h hlive
    simp only [Option.bind_some, Option.map_some, Option.some.injEq] at hdrop hid
    rw [hrange] at hdrop hseamless hfree
    obtain ⟨front', w, w', back', rfl, rfl, hw, hw', hkept, hscanned⟩ := removed_scanned h hm hseamless
    rw [hdrop] at hscanned
    rw [hkept] at hfree hseamless
    have hback : Quiet back' := (hquiet.right hstrikes).right (hw'.not_mem (by decide))
    have hall : Quiet (front' ++ back') := hfront.left.left.join hback hfree
    have hlast : lastId (front' ++ back') = some id := by
      rw [← hid]
      simp [lastId_append]
    have hcalendar' : holds calendarMarker dropped = false := by
      have htext := h.text_eq
      simp only [textOf_append, textOf_letters, List.append_assoc] at htext
      have hsides := hscanned.text_eq
      rw [textOf_append, List.append_assoc] at hsides
      rw [holds_eq_false_iff] at hcalendar
      rw [hsides] at hscanned ⊢
      refine calendar_removed hscanned rfl hseamless.opens (fun hin => hcalendar ?_) fun hin => hcalendar ?_
      · exact hin.trans (by rw [htext]; exact (List.prefix_append _ _).isInfix)
      · refine hin.trans ?_
        rw [htext, ← List.append_assoc, ← List.append_assoc, ← List.append_assoc]
        exact (List.suffix_append _ _).isInfix
    refine ⟨_, by rw [parseLine_of_quiet hscanned hcalendar' hall, hlast]; rfl, rfl, rfl⟩

/-- A line without an id is no reminder once its token is out. -/
theorem dropToken_without_id :
    ¬∀ line dropped, dropToken line = some dropped → ∃ reminder, parseLine dropped none = some reminder ∧
      reminder.id = (parseLine line none).bind LineReminder.id ∧ reminder.state = .dropped := by
  intro hclaim
  have hdrop : dropToken "call (@2026-09-01)".toList = some "call".toList := by decide +kernel
  have hread : parseLine "call".toList none = none := by decide +kernel
  obtain ⟨reminder, hparse, -⟩ := hclaim _ _ hdrop
  rw [hread] at hparse
  cases hparse

theorem dropToken_reads_call :
    ∃ reminder, parseLine "call <!--rem:0123456789ab-->".toList none = some reminder ∧
      reminder.id = some "0123456789ab".toList ∧ reminder.state = .dropped := by
  have hkept : ∀ token, (parseLine "call (@2026-09-01) <!--rem:0123456789ab-->".toList none).bind LineReminder.token =
      some token → kept "call (@2026-09-01) <!--rem:0123456789ab-->".toList token.range =
        ("call".toList ++ [' '], '<' :: "!--rem:0123456789ab-->".toList) := by
    intro token htoken
    have hat : (parseLine "call (@2026-09-01) <!--rem:0123456789ab-->".toList none).bind LineReminder.token =
        some ⟨⟨5, 18⟩, .date ⟨2026, 9, 1, by decide, by decide, by decide⟩, false⟩ := by
      decide +kernel
    rw [hat] at htoken
    rw [← Option.some.inj htoken]
    decide +kernel
  have hplace : ∀ start close when_, CountsAt "call (@2026-09-01) <!--rem:0123456789ab-->".toList
      (scanInline "call (@2026-09-01) <!--rem:0123456789ab-->".toList false).excluded start close when_ → start = 5 := by
    intro start close when_ hcounts
    have hfound : ∀ k < 42, tokenOpen.isPrefixOf ("call (@2026-09-01) <!--rem:0123456789ab-->".toList.drop k) = true → k = 5 := by
      decide +kernel
    refine hfound start ?_ (List.isPrefixOf_iff_prefix.mpr hcounts.opens)
    by_contra hlong
    have hnil : "call (@2026-09-01) <!--rem:0123456789ab-->".toList.drop start = [] :=
      List.drop_eq_nil_of_le (le_trans (by decide +kernel) (not_lt.mp hlong))
    have hopens := hcounts.opens
    rw [hnil] at hopens
    exact absurd (List.prefix_nil.mp hopens) (by decide)
  refine @dropToken_reads "call (@2026-09-01) <!--rem:0123456789ab-->".toList _ _ (by decide +kernel)
    (by decide +kernel) ?_ ?_ none
  · intro start start' close close' when_ when' hcounts hcounts'
    rw [hplace _ _ _ hcounts, hplace _ _ _ hcounts']
  · intro token htoken
    rw [hkept token htoken]
    refine ⟨⟨fun hy => absurd hy (by decide), apart_concat (by decide) _ _⟩, fun inner when_ _ => ?_⟩
    exact apart_of_not_mem (by decide) _

end Thock.SyncCore.Reminder
