import Thock.SyncCore.Checkboxes
import Thock.SyncCore.TokenPlaces

/-!
# What the edits of a home line leave

The pieces of a line after a token was written over another one, after a token was put in before
the trailing comments, and after an id was put in at the end of the line's own text.
-/

namespace Thock.SyncCore.Reminder

open TextScan

/-! ## White space at the ends -/

theorem closeAt_left {c : Char} {n : ℕ} {u v : Text} (h : closeAt c n 0 (u ++ v) = none) (hv : v.head? ≠ some c) :
    closeAt c n 0 u = none := by
  rw [closeAt_append] at h
  rw [← List.append_nil u, closeAt_append]
  by_cases hpass : passes c n 0 u = true
  · rw [if_pos hpass, Option.map_eq_none_iff] at h ⊢
    have hfull : ¬(endRun c 0 u = n ∧ 0 < n) := by
      rintro ⟨hn, hpos⟩
      rw [hn, closeAt_of_full hpos hv] at h
      cases h
    rw [closeAt, if_neg hfull]
  · rw [if_neg hpass] at h
    rwa [if_neg hpass]

theorem Unclosed.ne_nil {t : Text} (h : Unclosed t) : t ≠ [] := by
  rintro rfl
  exact absurd (List.prefix_nil.mp h.1) (by decide)

theorem Unclosed.head? {t : Text} (h : Unclosed t) : t.head? = some '<' := by
  obtain ⟨more, rfl⟩ := h.1
  rfl

theorem Unclosed.not_blank {t : Text} (h : Unclosed t) : ¬Blank t := fun hblank =>
  hblank.head?_ne (by decide) h.head?

theorem commentOpen_trimEnd {t : Text} (h : commentOpen <+: t) : commentOpen <+: trimEnd t := by
  obtain ⟨more, rfl⟩ := h
  by_cases hmore : Blank more
  · rw [trimEnd_append_of_blank hmore]
    exact List.prefix_refl _
  · rw [trimEnd_append hmore]
    exact List.prefix_append _ _

theorem Unclosed.trimEnd {t : Text} (h : Unclosed t) : Unclosed (trimEnd t) := by
  obtain ⟨⟨more, rfl⟩, hnone⟩ := h
  refine ⟨commentOpen_trimEnd (List.prefix_append _ more), splitFirst_eq_none fun hclose => ?_⟩
  have hprefix : (TextScan.trimEnd (commentOpen ++ more)).drop 2 <+: (commentOpen ++ more).drop 2 :=
    (trimEnd_isPrefix _).drop 2
  obtain ⟨before, after, hfound⟩ := hclose.trans hprefix.isInfix
  have hsome := splitFirst_isSome commentClose before after
  rw [hfound, hnone] at hsome
  cases hsome

theorem Scanned.head?_rest {line rest : Text} {pieces : List Piece} (h : Scanned line pieces rest) :
    rest.head? ≠ some '`' := by
  rcases h.ends with rfl | hunclosed
  · simp
  · rw [hunclosed.head?]
    decide

theorem apart_nil_right (p a : Text) : Apart p a [] := by
  intro before after h
  exact Or.inl ⟨after, by simpa using h, by simp⟩

/-- White space goes from the end of a line without a change to the pieces before it. -/
theorem Scanned.trimEnd {line rest : Text} {pieces : List Piece} (h : Scanned line pieces rest) :
    ∃ front w, pieces = front ++ letters w ∧ Blank w ∧ Scanned (trimEnd line) front (TextScan.trimEnd rest) := by
  rcases h.ends with rfl | hunclosed
  · have htext := h.text_eq
    rw [List.append_nil] at htext
    obtain ⟨front, hpieces, hfront⟩ := exists_letters_of_blank h.reads.sound (u := TextScan.trimEnd line)
      (w := line.rtakeWhile isWhitespace) (by rw [← htext, trimEnd_append_rtakeWhile]) (blank_rtakeWhile line)
    have hreads := h.reads
    rw [hpieces] at hreads
    have hcut := hreads.split.1
    rw [List.append_nil, textOf_letters] at hcut
    have hnil : ∀ n, closeAt '`' n 0 [] = none := fun n => by rw [closeAt, if_neg (by omega)]
    have hswap := hcut.swap (y := []) ((blank_rtakeWhile line).head?_ne (by decide)) (fun n _ => hnil n)
      (fun hy => by cases hy) (apart_nil_right _ _)
    rw [List.append_nil, hfront] at hswap
    exact ⟨front, _, hpieces, blank_rtakeWhile line, hswap, Or.inl rfl⟩
  · have hrest := hunclosed.trimEnd
    obtain ⟨more, hmore⟩ := hrest.1
    have hclose : ∀ n, closeAt '`' n 0 rest = none → closeAt '`' n 0 (TextScan.trimEnd rest) = none := by
      intro n hn
      rw [← trimEnd_append_rtakeWhile rest] at hn
      exact closeAt_left hn ((blank_rtakeWhile rest).head?_ne (by decide))
    have hapart : Apart commentOpen (textOf pieces) (TextScan.trimEnd rest) := by
      rw [← hmore]
      exact apart_head (by decide) _ _
    have hswap := h.reads.swap h.head?_rest hclose (fun hy => by rw [hrest.head?] at hy; cases hy) hapart
    rw [← trimEnd_append hunclosed.not_blank, ← h.text_eq] at hswap
    exact ⟨pieces, [], by simp [letters], .nil, hswap, Or.inr hrest⟩

/-- A character that begins no hidden piece and no run of backticks is the first piece of a line it begins. -/
theorem Scanned.tail {c : Char} {t rest : Text} {pieces : List Piece} (h : Scanned (c :: t) pieces rest)
    (htick : c ≠ '`') (hless : c ≠ '<') : ∃ back, pieces = .words [c] :: back ∧ Scanned t back rest := by
  obtain ⟨hreads, hends⟩ := h
  generalize hinput : c :: t = input at hreads
  cases hreads with
  | stay =>
    rcases hends with rfl | hunclosed
    · cases hinput
    · rw [← hinput] at hunclosed
      exact absurd (Option.some.inj hunclosed.head?) hless
  | comment hcomment next =>
    obtain ⟨more, hmore⟩ := hcomment.1
    rw [← hmore] at hinput
    exact absurd (List.cons.inj hinput).1 hless
  | code hcode hhead next =>
    obtain ⟨n, body, hn, rfl, -⟩ := hcode
    obtain ⟨n, rfl⟩ : ∃ m, n = m + 1 := ⟨n - 1, by omega⟩
    exact absurd (List.cons.inj hinput).1 htick
  | @ticks n _ _ _ hn hhead hopen next =>
    obtain ⟨n, rfl⟩ : ∃ m, n = m + 1 := ⟨n - 1, by omega⟩
    exact absurd (List.cons.inj hinput).1 htick
  | letter hd hopen next =>
    obtain ⟨rfl, rfl⟩ := List.cons.inj hinput
    exact ⟨_, rfl, next, hends⟩

/-- Text without such characters goes from the front of a line with its letters. -/
theorem Scanned.drop_letters {w t rest : Text} {pieces : List Piece} (h : Scanned (w ++ t) pieces rest)
    (hw : '`' ∉ w ∧ '<' ∉ w) : ∃ back, pieces = letters w ++ back ∧ Scanned t back rest := by
  induction w generalizing pieces with
  | nil => exact ⟨pieces, rfl, h⟩
  | cons c w ih =>
    simp only [List.mem_cons, not_or] at hw
    obtain ⟨back, rfl, hnext⟩ := h.tail (Ne.symm hw.1.1) (Ne.symm hw.2.1)
    obtain ⟨back, rfl, hrest⟩ := ih hnext ⟨hw.1.2, hw.2.2⟩
    exact ⟨back, rfl, hrest⟩

/-- White space goes from the front of a line with its pieces. -/
theorem Scanned.drop_blank {w t rest : Text} {pieces : List Piece} (h : Scanned (w ++ t) pieces rest) (hw : Blank w) :
    ∃ back, pieces = letters w ++ back ∧ Scanned t back rest :=
  h.drop_letters ⟨hw.not_mem (by decide), hw.not_mem (by decide)⟩

/-- White space goes from both ends of a line. -/
theorem Scanned.trim {line rest : Text} {pieces : List Piece} (h : Scanned line pieces rest) :
    ∃ w back w', pieces = letters w ++ back ++ letters w' ∧ Blank w ∧ Blank w' ∧
      Scanned (trim line) back (TextScan.trimEnd rest) := by
  rw [← takeWhile_append_trimStart line] at h
  obtain ⟨back, rfl, hback⟩ := h.drop_blank (blank_takeWhile line)
  obtain ⟨front, w', rfl, hw', hfront⟩ := hback.trimEnd
  exact ⟨_, front, w', (List.append_assoc _ _ _).symm, blank_takeWhile line, hw', hfront⟩

/-! ## Trailing comments -/

/-- Before its trailing comments a text ends in no white space, and they begin with an opening. -/
theorem trailingCommentsFrom_spec {fuel : ℕ} {tail : Text} (htail : Untrailed tail) :
    trailingCommentsFrom fuel tail ≤ tail.length ∧ Untrailed (tail.take (trailingCommentsFrom fuel tail)) ∧
      (Blank (tail.drop (trailingCommentsFrom fuel tail)) ∨
        commentOpen <+: trimStart (tail.drop (trailingCommentsFrom fuel tail))) := by
  have hwhole : tail.length ≤ tail.length ∧ Untrailed (tail.take tail.length) ∧
      (Blank (tail.drop tail.length) ∨ commentOpen <+: trimStart (tail.drop tail.length)) := by
    rw [List.take_length, List.drop_length]
    exact ⟨le_rfl, htail, Or.inl .nil⟩
  induction fuel generalizing tail with
  | zero => exact hwhole
  | succ fuel ih =>
    unfold trailingCommentsFrom
    split
    · exact hwhole
    · cases hsplit : splitLast commentOpen tail with
      | none => exact hwhole
      | some r =>
        obtain ⟨before, after⟩ := r
        dsimp only
        split
        · exact hwhole
        · have htext := splitLast_eq hsplit
          have hself : Untrailed ((trimEnd before).take (trimEnd before).length) := by
            rw [List.take_length]
            exact untrailed_trimEnd before
          obtain ⟨hle, huntrailed, hbehind⟩ := ih (untrailed_trimEnd before) ⟨le_rfl, hself, Or.inl (by
            rw [List.drop_length]
            exact .nil)⟩
          have hcut : tail = trimEnd before ++ (before.rtakeWhile isWhitespace ++ commentOpen ++ after) := by
            conv_lhs => rw [htext, ← trimEnd_append_rtakeWhile before]
            simp
          generalize trailingCommentsFrom fuel (trimEnd before) = p at hle huntrailed hbehind
          have hdrop : tail.drop p = (trimEnd before).drop p ++ (before.rtakeWhile isWhitespace ++ commentOpen ++ after) := by
            conv_lhs => rw [hcut]
            exact List.drop_append_of_le_length hle
          have htake : tail.take p = (trimEnd before).take p := by
            conv_lhs => rw [hcut]
            exact List.take_append_of_le_length hle
          have hunindented : trimStart (commentOpen ++ after) = commentOpen ++ after :=
            trimStart_of_unindented (unindented_cons (by decide) _)
          refine ⟨?_, by rwa [htake], Or.inr ?_⟩
          · have := congrArg List.length hcut
            rw [List.length_append] at this
            omega
          · rw [hdrop]
            by_cases hblank : Blank ((trimEnd before).drop p)
            · rw [trimStart_append_of_blank hblank, List.append_assoc, trimStart_append_of_blank (blank_rtakeWhile before),
                hunindented]
              exact List.prefix_append _ _
            · rw [trimStart_append hblank]
              exact (hbehind.resolve_left hblank).trans (List.prefix_append _ _)

theorem trailingCommentsStart_spec (line : Text) :
    trailingCommentsStart line ≤ line.length ∧ Untrailed (line.take (trailingCommentsStart line)) ∧
      (Blank (line.drop (trailingCommentsStart line)) ∨
        commentOpen <+: trimStart (line.drop (trailingCommentsStart line))) := by
  obtain ⟨hle, huntrailed, hbehind⟩ := @trailingCommentsFrom_spec line.length _ (untrailed_trimEnd line)
  have hcut := trimEnd_append_rtakeWhile line
  rw [← trailingCommentsStart] at hle huntrailed hbehind
  generalize trailingCommentsStart line = p at hle huntrailed hbehind
  have hdrop : line.drop p = (trimEnd line).drop p ++ line.rtakeWhile isWhitespace := by
    conv_lhs => rw [← hcut]
    exact List.drop_append_of_le_length hle
  have htake : line.take p = (trimEnd line).take p := by
    conv_lhs => rw [← hcut]
    exact List.take_append_of_le_length hle
  refine ⟨hle.trans (trimEnd_isPrefix line).length_le, by rwa [htake], ?_⟩
  rw [hdrop]
  by_cases hblank : Blank ((trimEnd line).drop p)
  · exact Or.inl (hblank.append (blank_rtakeWhile line))
  · rw [trimStart_append hblank]
    exact Or.inr ((hbehind.resolve_left hblank).trans (List.prefix_append _ _))

/-! ## The own text of a line -/

/-- The space that sets off what is put beside a text. -/
def gap (t : Text) : Text := if t = [] then [] else [' ']

theorem gap_of_ne_nil {t : Text} (h : t ≠ []) : gap t = [' '] := if_neg h

theorem blank_gap (t : Text) : Blank (gap t) := by
  unfold gap
  split
  · exact .nil
  · intro c hc
    rw [List.mem_singleton.mp hc]
    decide

theorem gap_append_eq (t : Text) : (if t.isEmpty then [] else ' ' :: t) = gap t ++ t := by
  cases t <;> rfl

section Line
variable {line rest : Text} {pieces : List Piece}

theorem Scanned.take_own (h : Scanned line pieces rest) : line.take (textOf pieces).length = textOf pieces := by
  conv_lhs => rw [h.text_eq, List.take_left]

theorem Scanned.drop_own (h : Scanned line pieces rest) : line.drop (textOf pieces).length = rest := by
  conv_lhs => rw [h.text_eq, List.drop_left]

/-- The own text of a line is that of its pieces. -/
theorem Scanned.writableEnd (h : Scanned line pieces rest) : writableEnd line = (textOf pieces).length := by
  have hlength := congrArg List.length h.text_eq
  rw [List.length_append] at hlength
  rw [Reminder.writableEnd, h.scanInline, scanOf]
  dsimp only
  split
  · rename_i hrest
    rw [hrest, List.length_nil] at hlength
    exact hlength
  · rw [Option.getD_some]
    omega

/-- The own text of a line scans like the line. -/
theorem Scanned.own (h : Scanned line pieces rest) : Scanned (textOf pieces) pieces [] := by
  have hnil : ∀ n, closeAt '`' n 0 [] = none := fun n => by rw [closeAt, if_neg (by omega)]
  have hswap := h.reads.swap (y := []) h.head?_rest (fun n _ => hnil n) (fun hy => by cases hy) (apart_nil_right _ _)
  rw [List.append_nil] at hswap
  exact ⟨hswap, Or.inl rfl⟩

/-! ## A token over another -/

theorem replaceRange_append (a m b new : Text) : replaceRange (a ++ (m ++ b)) ⟨a.length, a.length + m.length⟩ new = a ++ (new ++ b) := by
  rw [replaceRange]
  dsimp only
  rw [List.take_left, ← List.drop_drop, List.drop_left, List.drop_left, List.append_assoc]

/-- The stretch of a token takes in the strike around it. -/
theorem tokenAt_cases (u m v : Text) (when_ : When) :
    (∃ u' v', u = u' ++ strike ∧ v = strike ++ v' ∧
      tokenAt (u ++ (m ++ v)) u.length (u.length + m.length) when_ =
        ⟨⟨u'.length, u'.length + (strike ++ (m ++ strike)).length⟩, when_, true⟩) ∨
      (¬(strike <:+ u ∧ strike <+: v)) ∧
        tokenAt (u ++ (m ++ v)) u.length (u.length + m.length) when_ =
          ⟨⟨u.length, u.length + m.length⟩, when_, false⟩ := by
  have htake : (u ++ (m ++ v)).take u.length = u := List.take_left
  have hdrop : (u ++ (m ++ v)).drop (u.length + m.length) = v := by
    rw [← List.drop_drop, List.drop_left, List.drop_left]
  unfold tokenAt
  rw [htake, hdrop]
  by_cases hstruck : strike <:+ u ∧ strike <+: v
  · have hbool : (strike.isSuffixOf u && strike.isPrefixOf v) = true := by
      rw [Bool.and_eq_true, List.isSuffixOf_iff_suffix, List.isPrefixOf_iff_prefix]
      exact hstruck
    obtain ⟨⟨u', rfl⟩, ⟨v', rfl⟩⟩ := hstruck
    refine Or.inl ⟨u', v', rfl, rfl, ?_⟩
    rw [hbool]
    simp only [if_true, List.length_append, Token.mk.injEq, Span.mk.injEq, and_true]
    omega
  · have hbool : (strike.isSuffixOf u && strike.isPrefixOf v) = false := by
      rw [Bool.eq_false_iff, Ne, Bool.and_eq_true, List.isSuffixOf_iff_suffix, List.isPrefixOf_iff_prefix]
      exact hstruck
    refine Or.inr ⟨hstruck, ?_⟩
    rw [hbool]
    rfl

/-- A line around its last token that counts. -/
theorem Live.text_eq {front back : List Piece} {inner : Text} {when_ : When} (h : Scanned line pieces rest)
    (hlive : Live pieces front inner when_ back) :
    line = textOf front ++ (tokenAround inner ++ (textOf back ++ rest)) := by
  rw [h.text_eq, hlive.eq, textOf_append, textOf_append, textOf_letters, List.append_assoc, List.append_assoc]

/-- The stretch of the last token that counts. -/
theorem token_cases {front back : List Piece} {inner : Text} {when_ : When} (h : Scanned line pieces rest)
    (hlive : Live pieces front inner when_ back) :
    (∃ u v, textOf front = u ++ strike ∧ textOf back ++ rest = strike ++ v ∧
      tokenAt line (textOf front).length ((textOf front).length + 2 + inner.length + 1) when_ =
        ⟨⟨u.length, u.length + (strike ++ (tokenAround inner ++ strike)).length⟩, when_, true⟩) ∨
      (¬(strike <:+ textOf front ∧ strike <+: textOf back ++ rest)) ∧
        tokenAt line (textOf front).length ((textOf front).length + 2 + inner.length + 1) when_ =
          ⟨⟨(textOf front).length, (textOf front).length + (tokenAround inner).length⟩, when_, false⟩ := by
  have hstop : (textOf front).length + 2 + inner.length + 1 = (textOf front).length + (tokenAround inner).length := by
    rw [tokenAround_length]
    omega
  rw [hstop, hlive.text_eq h]
  exact tokenAt_cases _ _ _ _

/-- The token is written where the last one stood, the strike around it left as it was. -/
theorem rewrite_eq {front back : List Piece} {inner : Text} {when_ : When} (h : Scanned line pieces rest)
    (hcalendar : holds calendarMarker line = false) (hlive : Live pieces front inner when_ back) (hquiet : Quiet back)
    (due : Due) (homeDay : Option Day) :
    rewrite line due homeDay = some (textOf front ++ (tokenText due homeDay ++ (textOf back ++ rest))) := by
  have htext := hlive.text_eq h
  unfold rewrite
  rw [parseLine_of_live h hcalendar hlive hquiet, Option.map_some]
  dsimp only
  rcases token_cases h hlive with ⟨u, v, hu, hv, htoken⟩ | ⟨-, htoken⟩
  · rw [htoken, htext, hu, hv]
    dsimp only
    have hline : u ++ strike ++ (tokenAround inner ++ (strike ++ v)) = u ++ (strike ++ (tokenAround inner ++ strike) ++ v) := by
      simp
    rw [hline, if_pos rfl, replaceRange_append]
    simp
  · rw [htoken, htext]
    dsimp only
    rw [if_neg (by decide), replaceRange_append]

/-! ## A token before the trailing comments -/

theorem closeAt_trim {n : ℕ} {t : Text} (h : closeAt '`' n 0 t = none) : closeAt '`' n 0 (trim t) = none := by
  rw [← takeWhile_append_trimStart t, closeAt_plain ((blank_takeWhile t).not_mem (by decide)), Option.map_eq_none_iff] at h
  rw [← trimEnd_append_rtakeWhile (trimStart t)] at h
  exact closeAt_left h ((blank_rtakeWhile _).head?_ne (by decide))

/-- Where a token goes in a line that has none. -/
def tokenPlace (line : Text) : ℕ := trailingCommentsStart (line.take (writableEnd line))

/-- A line around the place where a token goes. -/
theorem Scanned.place (h : Scanned line pieces rest) :
    ∃ tail, textOf pieces = line.take (tokenPlace line) ++ tail ∧ line.drop (tokenPlace line) = tail ++ rest ∧
      (line.take (tokenPlace line)).length = tokenPlace line ∧ Untrailed (line.take (tokenPlace line)) ∧
      (Blank tail ∨ commentOpen <+: trimStart tail) := by
  obtain ⟨hle, huntrailed, hbehind⟩ := trailingCommentsStart_spec (textOf pieces)
  have hplace : tokenPlace line = trailingCommentsStart (textOf pieces) := by
    rw [tokenPlace, h.writableEnd, h.take_own]
  rw [← hplace] at hle huntrailed hbehind
  have htake : ∀ place ≤ (textOf pieces).length, line.take place = (textOf pieces).take place := fun place hle => by
    conv_lhs => rw [h.text_eq]
    exact List.take_append_of_le_length hle
  have hdrop : ∀ place ≤ (textOf pieces).length, line.drop place = (textOf pieces).drop place ++ rest := fun place hle => by
    conv_lhs => rw [h.text_eq]
    exact List.drop_append_of_le_length hle
  refine ⟨(textOf pieces).drop (tokenPlace line), ?_, hdrop _ hle, ?_, by rwa [htake _ hle], hbehind⟩
  · rw [htake _ hle, List.take_append_drop]
  · rw [htake _ hle, List.length_take]
    omega

/-- What stands behind that place, trimmed. -/
theorem Scanned.comments (h : Scanned line pieces rest) :
    TextScan.trim (line.drop (tokenPlace line)) = [] ∨ commentOpen <+: TextScan.trim (line.drop (tokenPlace line)) := by
  obtain ⟨tail, -, hdrop, -, -, hbehind⟩ := h.place
  rw [hdrop]
  rcases hbehind with hblank | hopen
  · rw [trim_append_of_blank_left hblank]
    rcases h.ends with rfl | hunclosed
    · exact Or.inl rfl
    · have hunindented : Unindented rest := fun c hc => by
        obtain rfl : '<' = c := by simpa [hunclosed.head?] using hc
        decide
      rw [TextScan.trim, trimStart_of_unindented hunindented]
      exact Or.inr hunclosed.trimEnd.1
  · have htail : ¬Blank tail := by
      intro hblank
      rw [blank_iff_trimStart.mp hblank] at hopen
      exact absurd (List.prefix_nil.mp hopen) (by decide)
    rw [TextScan.trim, trimStart_append htail]
    exact Or.inr (commentOpen_trimEnd (hopen.trans (List.prefix_append _ _)))

theorem head?_of_trim {t : Text} (h : trim t = [] ∨ commentOpen <+: trim t) : t.head? ≠ some '`' := by
  intro hhead
  obtain ⟨u, rfl⟩ : ∃ u, t = '`' :: u := by
    cases t with
    | nil => cases hhead
    | cons c u => exact ⟨u, by rw [Option.some.inj hhead]⟩
  have hkeep : trim ('`' :: u) = '`' :: trimEnd u := by
    rw [trim, trimStart_of_unindented (unindented_cons (by decide) u)]
    by_cases hu : Blank u
    · rw [show '`' :: u = ['`'] ++ u from rfl, trimEnd_append_of_blank hu, show trimEnd u = [] from ?_]
      · rfl
      · exact trimEnd_append_of_blank hu []
    · exact trimEnd_append hu ['`']
  rw [hkeep] at h
  rcases h with h | ⟨more, hmore⟩
  · cases h
  · cases hmore

/-- The gaps and the token between them are plain text. -/
theorem Plain.gaps {token : Text} (htoken : Plain token) (u v : Text) : Plain (gap u ++ token ++ gap v) := by
  have hgap : ∀ {c : Char} (t : Text), c ≠ ' ' → c ∉ gap t := by
    intro c t hc
    unfold gap
    split
    · exact List.not_mem_nil
    · simpa using hc
  refine ⟨?_, ?_, ?_, ?_⟩
  · simp [htoken.ne_nil]
  · simp [hgap, htoken.ticks]
  · simp [hgap, htoken.opens]
  · intro c hc
    unfold gap at hc
    split at hc
    · obtain ⟨d, token, rfl⟩ := List.exists_cons_of_ne_nil htoken.ne_nil
      obtain rfl : d = c := by simpa using hc
      exact htoken.head d rfl
    · obtain rfl : ' ' = c := by simpa using hc
      decide

theorem insert_eq (token : Text) (h : Scanned line pieces rest) :
    insertBeforeTrailingComments line token =
      line.take (tokenPlace line) ++ (gap (line.take (tokenPlace line)) ++ token ++
        gap (trim (line.drop (tokenPlace line))) ++ trim (line.drop (tokenPlace line))) := by
  obtain ⟨-, -, -, -, huntrailed, -⟩ := h.place
  have hspace : (if ¬(line.take (tokenPlace line)).isEmpty = true ∧
      ¬[' '].isSuffixOf (line.take (tokenPlace line)) = true then [' '] else []) = gap (line.take (tokenPlace line)) := by
    unfold gap
    by_cases hnil : line.take (tokenPlace line) = []
    · simp [hnil]
    · rw [if_neg hnil, if_pos]
      refine ⟨by simpa using hnil, ?_⟩
      rw [isSuffixOf_singleton_iff]
      intro hlast
      exact absurd (huntrailed ' ' hlast) (by decide)
  unfold insertBeforeTrailingComments
  dsimp only
  rw [← tokenPlace, hspace, gap_append_eq]
  simp

/-- The pieces of a line after a token was put in between two of them. -/
theorem insert_scanned {front back : List Piece} {token : Text} (h : Scanned line (front ++ back) rest)
    (hcut : textOf front = line.take (tokenPlace line)) (htoken : Plain token) :
    ∃ w back' w', back = letters w ++ back' ++ letters w' ∧
      trim (line.drop (tokenPlace line)) = textOf back' ++ trimEnd rest ∧
      Scanned (insertBeforeTrailingComments line token)
        (front ++ letters (gap (textOf front) ++ token ++ gap (textOf back' ++ trimEnd rest)) ++ back') (trimEnd rest) := by
  have hcases := h.comments
  have htail : line.drop (tokenPlace line) = textOf back ++ rest := by
    have htext := h.text_eq
    rw [← List.take_append_drop (tokenPlace line) line, textOf_append, ← hcut, List.append_assoc] at htext
    exact List.append_cancel_left htext
  rw [insert_eq token h, htail]
  rw [htail] at hcases
  obtain ⟨hfront, hback⟩ := h.reads.split
  obtain ⟨w, back', w', hpieces, -, -, hscanned⟩ := Scanned.trim ⟨hback, h.ends⟩
  have hplain := htoken.gaps (textOf front) (trim (textOf back ++ rest))
  have hclose : ∀ n, closeAt '`' n 0 (textOf back ++ rest) = none →
      closeAt '`' n 0 (gap (textOf front) ++ token ++ gap (trim (textOf back ++ rest)) ++ trim (textOf back ++ rest)) = none := by
    intro n hn
    rw [closeAt_plain hplain.ticks, closeAt_trim hn]
    rfl
  have hswap := hfront.swap (head?_of_trim hcases) hclose (hplain.unjoined _ _) (hplain.apart _ _)
  rw [← hcut]
  refine ⟨w, back', w', hpieces, hscanned.text_eq, ?_, hscanned.ends⟩
  rw [← hscanned.text_eq]
  exact (hswap.append (reads_letters hplain.ticks hplain.opens _)).append hscanned.reads

/-! ## An id at the end of the line's own text -/

theorem not_mem_id {id : Text} (hid : isId id = true) {c : Char} (hc : (c.isDigit || ('a' ≤ c && c ≤ 'f')) = false) :
    c ∉ id := by
  intro hmem
  rw [isId, Bool.and_eq_true, List.all_eq_true] at hid
  rw [hid.2 c hmem] at hc
  cases hc

theorem isComment_idMarker {id : Text} (hid : isId id = true) : IsComment (idMarker id) := by
  have hbefore : '>' ∉ "--rem:".toList ++ id := by
    rw [List.mem_append]
    rintro (h | h)
    · exact absurd h (by decide)
    · exact not_mem_id hid (by decide) h
  have hsplit := splitFirst_of_last ['-', '-'] [] hbefore (by decide)
  have hopen : idOpen = commentOpen ++ "rem:".toList := by decide
  refine ⟨⟨"rem:".toList ++ id ++ commentClose, ?_⟩, "--rem:".toList ++ id, ?_⟩
  · rw [idMarker, hopen, List.append_assoc, List.append_assoc, List.append_assoc]
  rw [List.append_nil] at hsplit
  exact hsplit

theorem idInComment_idMarker {id : Text} (hid : isId id = true) : idInComment (idMarker id) = some id := by
  have hopen : stripPrefix idOpen (idMarker id) = some (id ++ commentClose) := by
    rw [stripPrefix_eq_some, idMarker, List.append_assoc]
  have hclose : stripSuffix commentClose (id ++ commentClose) = some id := by rw [stripSuffix_eq_some]
  rw [idInComment, hopen, Option.bind_some, hclose, Option.bind_some, if_pos hid]

theorem not_mem_idMarker {id : Text} (hid : isId id = true) : '`' ∉ idMarker id := by
  simp only [idMarker, List.mem_append, not_or]
  exact ⟨⟨by decide, not_mem_id hid (by decide)⟩, by decide⟩

/-- What is put behind a line's own text for an id. -/
def idTail (id : Text) (front : List Piece) (rest : Text) : List Piece :=
  letters (gap (textOf front)) ++ .comment (idMarker id) :: letters (gap (trimEnd rest))

theorem textOf_idTail (id : Text) (front : List Piece) (rest : Text) :
    textOf (idTail id front rest) = gap (textOf front) ++ (idMarker id ++ gap (trimEnd rest)) := by
  rw [idTail, textOf_append, textOf_letters, textOf_cons, textOf_letters]
  rfl

/-- The pieces of a line after an id was put in behind its own text. -/
theorem addId_scanned {id : Text} (h : Scanned line pieces rest) (hcalendar : holds calendarMarker line = false)
    (hid : isId id = true) (hnone : ((parseLine line none).any fun reminder => reminder.id.isSome) = false) :
    ∃ front w, pieces = front ++ letters w ∧ Blank w ∧
      addId line id = some (textOf front ++ (textOf (idTail id front rest) ++ trimEnd rest)) ∧
      Scanned (textOf front ++ (textOf (idTail id front rest) ++ trimEnd rest)) (front ++ idTail id front rest)
        (trimEnd rest) := by
  obtain ⟨front, w, hpieces, hw, hfront⟩ := h.own.trimEnd
  have hhead : trimEnd (textOf pieces) = textOf front := by
    rw [hfront.text_eq]
    exact List.append_nil _
  refine ⟨front, w, hpieces, hw, ?_, ?_⟩
  all_goals rw [textOf_idTail, List.append_assoc, List.append_assoc]
  · unfold addId
    rw [hcalendar, hid, hnone]
    simp only [Bool.false_eq_true, not_true_eq_false, or_self, if_false]
    rw [h.writableEnd, h.take_own, h.drop_own, hhead, gap_append_eq]
    have hgap : (if (textOf front).isEmpty = true then [] else [' ']) = gap (textOf front) := by
      unfold gap
      simp
    rw [hgap]
    simp
  · have hreads := h.reads
    rw [hpieces] at hreads
    obtain ⟨hbefore, -⟩ := hreads.split
    rw [textOf_letters] at hbefore
    have hx : (w ++ rest).head? ≠ some '`' := by
      cases w with
      | nil => exact h.head?_rest
      | cons c w =>
        intro hc
        obtain rfl := Option.some.inj hc
        exact absurd (hw '`' List.mem_cons_self) (by decide)
    have hticks : ∀ t : Text, '`' ∉ gap t := fun t => (blank_gap t).not_mem (by decide)
    have hclose : ∀ n, closeAt '`' n 0 (w ++ rest) = none →
        closeAt '`' n 0 (gap (textOf front) ++ (idMarker id ++ (gap (trimEnd rest) ++ trimEnd rest))) = none := by
      intro n hn
      rw [closeAt_plain (hw.not_mem (by decide)), Option.map_eq_none_iff, ← trimEnd_append_rtakeWhile rest] at hn
      rw [closeAt_plain (hticks _), closeAt_plain (not_mem_idMarker hid), closeAt_plain (hticks _),
        closeAt_left hn ((blank_rtakeWhile rest).head?_ne (by decide))]
      rfl
    have hunjoined : Unjoined (textOf front)
        (gap (textOf front) ++ (idMarker id ++ (gap (trimEnd rest) ++ trimEnd rest))) := by
      intro hy hlast
      rw [gap_of_ne_nil (by rintro hnil; rw [hnil] at hlast; cases hlast)] at hy
      cases hy
    have hapart : Apart commentOpen (textOf front)
        (gap (textOf front) ++ (idMarker id ++ (gap (trimEnd rest) ++ trimEnd rest))) := by
      by_cases hnil : textOf front = []
      · rw [hnil]
        exact apart_nil _ _
      · rw [gap_of_ne_nil hnil]
        exact apart_cons (by decide) _ _
    have hswap := hbefore.swap hx hclose hunjoined hapart
    have hgaps : ∀ t v : Text, Reads (gap t ++ v) (letters (gap t)) v := fun t v =>
      reads_letters (hticks t) ((blank_gap t).not_mem (by decide)) v
    refine ⟨hswap.append ((hgaps _ _).append (.comment (isComment_idMarker hid) (hgaps _ _))), ?_⟩
    rcases h.ends with rfl | hunclosed
    · exact Or.inl rfl
    · exact Or.inr hunclosed.trimEnd

/-! ## Calendar markers -/

/-- A text put in where no calendar marker fits makes no line a calendar line. -/
theorem holds_eq_false_iff {p t : Text} : holds p t = false ↔ ¬p <:+: t := by
  unfold holds
  constructor
  · rintro h ⟨before, after, rfl⟩
    rw [splitFirst_isSome] at h
    cases h
  · intro h
    rw [splitFirst_eq_none h]
    rfl

end Line

end Thock.SyncCore.Reminder
