import Thock.SyncCore.EditShapes

/-!
# Closing a reminder and taking it back

A tick or a strike leaves the pieces of a line around it as they are, so the closed line reads as
the same reminder, and taking the tick or the strike out again gives the old line.
-/

namespace Thock.SyncCore.Reminder

open TextScan

/-! ## Letters that hold no token -/

/-- A token behind letters without a parenthesis stands among the pieces behind them. -/
theorem Live.behind_letters {w inner : Text} {front back behind : List Piece} {when_ : When} (hw : '(' ∉ w)
    (h : Live (letters w ++ back) front inner when_ behind) : ∃ x, front = letters w ++ x ∧ Live back x inner when_ behind := by
  rcases h.cut with ⟨x, hleft, -⟩ | ⟨t₁, t₂, h₁, -, htoken, hfront, -⟩ | ⟨x, hfront, hright⟩
  · have htext := congrArg textOf hleft.eq
    rw [textOf_letters, textOf_append, textOf_append, textOf_letters] at htext
    refine absurd ?_ hw
    rw [htext]
    simp [tokenAround, tokenOpen]
  · have htext := congrArg textOf hfront
    rw [textOf_letters, textOf_append, textOf_letters] at htext
    obtain ⟨c, t, rfl⟩ := List.exists_cons_of_ne_nil h₁
    obtain rfl : '(' = c := by simpa [tokenAround, tokenOpen] using congrArg List.head? htoken
    refine absurd ?_ hw
    rw [htext]
    exact List.mem_append_right _ List.mem_cons_self
  · exact ⟨x, hfront, hright⟩

theorem Quiet.letters_append {w : Text} {back : List Piece} (hw : '(' ∉ w) (h : Quiet back) : Quiet (letters w ++ back) := by
  intro front inner when_ behind hlive
  obtain ⟨x, -, hback⟩ := hlive.behind_letters hw
  exact h x inner when_ behind hback

/-- A strike that ends a text behind a space stands in what follows the space. -/
theorem strike_suffix {u v : Text} (h : strike <:+ u ++ [' '] ++ v) : strike <:+ v := by
  rcases List.suffix_or_suffix_of_suffix h (List.suffix_append (u ++ [' ']) v) with hv | ⟨t, ht⟩
  · exact hv
  · obtain ⟨b, hb⟩ := h
    rw [← ht, ← List.append_assoc] at hb
    have hfront := List.append_cancel_right hb
    rcases List.eq_nil_or_concat t with rfl | ⟨t, c, rfl⟩
    · exact ⟨[], ht.symm⟩
    · rw [List.concat_eq_append, ← List.append_assoc] at hfront
      obtain rfl : c = ' ' := by simpa using (List.append_inj' hfront rfl).2
      have hmem : ' ' ∈ strike := by
        rw [← ht]
        simp
      exact absurd hmem (by decide)

/-- A pattern without a character is found behind it where it is found at all. -/
theorem infix_cons_of_not_mem {p b : Text} {c : Char} (hc : c ∉ p) : p <:+: c :: b → p <:+: b := by
  intro h
  have hsplit : p <:+: [] ++ c :: b := h
  rcases (infix_sep hc).mp hsplit with hnil | hb
  · rw [List.infix_nil.mp hnil]
    exact List.nil_infix
  · exact hb

section Line
variable {line rest : Text} {front back : List Piece} {inner : Text} {when_ : When}

/-! ## A struck token -/

/-- A line with its last token struck reads as the same reminder, closed. -/
theorem parseLine_struck {pieces : List Piece} (h : Scanned line pieces rest)
    (hcalendar : holds calendarMarker line = false) (hlive : Live pieces front inner when_ back) (hquiet : Quiet back)
    (day : Option Day) :
    parseLine (textOf front ++ (strike ++ (tokenAround inner ++ strike) ++ (textOf back ++ rest))) day =
      some { id := lastId pieces
             token := some ⟨⟨(textOf front).length, (textOf front).length + (strike ++ (tokenAround inner ++ strike)).length⟩,
               when_, true⟩
             task := (taskOf (textOf front ++ (strike ++ (tokenAround inner ++ strike) ++ (textOf back ++ rest)))).map Prod.fst
             due := when_.due day } := by
  have hpieces := hlive.eq ▸ h
  have hscanned := hpieces.respell hlive.plain.ne_nil hlive.plain.ticks (plain_struck hlive.reads)
  have hsplit : front ++ letters (strike ++ (tokenAround inner ++ strike)) ++ back =
      front ++ letters strike ++ letters (tokenAround inner) ++ (letters strike ++ back) := by
    simp [letters_append]
  rw [hsplit] at hscanned
  have hstruck : Live (front ++ letters strike ++ letters (tokenAround inner) ++ (letters strike ++ back))
      (front ++ letters strike) inner when_ (letters strike ++ back) := by
    refine ⟨rfl, ?_, hlive.reads⟩
    rw [textOf_append, textOf_letters, List.getLast?_append_of_ne_nil _ (by decide)]
    decide
  have hbehind : Quiet (letters strike ++ back) := hquiet.letters_append (by decide)
  have hmarker : '~' ∉ calendarMarker := by decide
  have hcalendar' : holds calendarMarker (textOf front ++ (strike ++ (tokenAround inner ++ strike) ++ (textOf back ++ rest))) =
      false := by
    rw [holds_eq_false_iff] at hcalendar ⊢
    intro hfound
    apply hcalendar
    rw [hlive.text_eq h]
    have hshape : textOf front ++ (strike ++ (tokenAround inner ++ strike) ++ (textOf back ++ rest)) =
        textOf front ++ '~' :: ('~' :: (tokenAround inner ++ '~' :: '~' :: (textOf back ++ rest))) := by
      simp [strike]
    rw [hshape] at hfound
    rcases (infix_sep hmarker).mp hfound with hfront | hfound
    · exact hfront.trans (List.prefix_append _ _).isInfix
    · rcases (infix_sep hmarker).mp (infix_cons_of_not_mem hmarker hfound) with htoken | hback
      · exact htoken.trans ⟨textOf front, textOf back ++ rest, by simp⟩
      · exact (infix_cons_of_not_mem hmarker hback).trans ⟨textOf front ++ tokenAround inner, [], by simp⟩
  rw [parseLine_of_live hscanned hcalendar' hstruck hbehind]
  have hid : lastId (front ++ letters strike ++ letters (tokenAround inner) ++ (letters strike ++ back)) = lastId pieces := by
    rw [hlive.eq]
    simp [lastId_append]
  have htoken : tokenAt (textOf front ++ (strike ++ (tokenAround inner ++ strike) ++ (textOf back ++ rest)))
      (textOf (front ++ letters strike)).length ((textOf (front ++ letters strike)).length + 2 + inner.length + 1) when_ =
      ⟨⟨(textOf front).length, (textOf front).length + (strike ++ (tokenAround inner ++ strike)).length⟩, when_, true⟩ := by
    rcases token_cases hscanned hstruck with ⟨u, v, hu, -, hat⟩ | ⟨hnot, -⟩
    · rw [textOf_append, textOf_letters] at hu
      rw [hat, ← List.append_cancel_right hu]
    · refine absurd ⟨⟨textOf front, ?_⟩, ⟨textOf back ++ rest, ?_⟩⟩ hnot
      · rw [textOf_append, textOf_letters]
      · rw [textOf_append, textOf_letters, List.append_assoc]
  rw [hid, htoken]

/-! ## A ticked box -/

/-- A line with its box ticked reads as the same reminder, done. -/
theorem parseLine_ticked {pieces : List Piece} {pre y : Text} (hpre : Marked pre)
    (h : Scanned (pre ++ '[' :: ' ' :: ']' :: ' ' :: y) pieces rest)
    (hcalendar : holds calendarMarker (pre ++ '[' :: ' ' :: ']' :: ' ' :: y) = false)
    (hlive : Live pieces front inner when_ back) (hquiet : Quiet back)
    (hbare : ¬(strike <:+ textOf front ∧ strike <+: textOf back ++ rest)) (day : Option Day) :
    ∃ token, parseLine (pre ++ '[' :: 'x' :: ']' :: ' ' :: y) day =
      some { id := lastId pieces, token := some token, task := some .done, due := when_.due day } ∧ token.struck = false := by
  have hmarks : ∀ e, e = ' ' ∨ e = 'x' → ∀ d, Inert d → d ∉ ['[', ']', 'x'] → d ∉ pre ++ ['[', e, ']', ' '] := by
    intro e he d hd hbox hmem
    simp only [List.mem_cons, List.not_mem_nil, or_false, not_or] at hbox
    rcases List.mem_append.mp hmem with hmem | hmem
    · exact hpre.chars d hmem hd
    · simp only [List.mem_cons, List.not_mem_nil, or_false] at hmem
      rcases he with rfl | rfl <;> rcases hmem with rfl | rfl | rfl | rfl <;> first | exact hd.not_blank rfl | simp at hbox
  have htick : Inert '`' ∧ '`' ∉ ['[', ']', 'x'] := ⟨⟨by decide, by decide, by decide⟩, by decide⟩
  have hangle : Inert '<' ∧ '<' ∉ ['[', ']', 'x'] := ⟨⟨by decide, by decide, by decide⟩, by decide⟩
  have hparen : Inert '(' ∧ '(' ∉ ['[', ']', 'x'] := ⟨⟨by decide, by decide, by decide⟩, by decide⟩
  have hopen : pre ++ '[' :: ' ' :: ']' :: ' ' :: y = (pre ++ ['[', ' ', ']', ' ']) ++ y := by simp
  have hdone : pre ++ '[' :: 'x' :: ']' :: ' ' :: y = (pre ++ ['[', 'x', ']', ' ']) ++ y := by simp
  have hline := h
  rw [hopen] at hline
  obtain ⟨behind, rfl, hbehind⟩ := hline.drop_letters
    ⟨hmarks ' ' (Or.inl rfl) _ htick.1 htick.2, hmarks ' ' (Or.inl rfl) _ hangle.1 hangle.2⟩
  obtain ⟨x, rfl, hx⟩ := hlive.behind_letters (hmarks ' ' (Or.inl rfl) _ hparen.1 hparen.2)
  have hscanned : Scanned (pre ++ '[' :: 'x' :: ']' :: ' ' :: y) (letters (pre ++ ['[', 'x', ']', ' ']) ++ behind) rest := by
    rw [hdone]
    exact ⟨(reads_letters (hmarks 'x' (Or.inr rfl) _ htick.1 htick.2) (hmarks 'x' (Or.inr rfl) _ hangle.1 hangle.2) y).append
      hbehind.reads, h.ends⟩
  have hticked : Live (letters (pre ++ ['[', 'x', ']', ' ']) ++ behind) (letters (pre ++ ['[', 'x', ']', ' ']) ++ x) inner
      when_ back := by
    refine ⟨by rw [hx.eq]; simp, ?_, hx.reads⟩
    rw [textOf_append, textOf_letters]
    by_cases hnil : textOf x = []
    · rw [hnil, List.append_nil, List.getLast?_append_of_ne_nil _ (by simp)]
      decide
    · rw [List.getLast?_append_of_ne_nil _ hnil]
      exact hx.free
  have hcalendar' : holds calendarMarker (pre ++ '[' :: 'x' :: ']' :: ' ' :: y) = false := by
    rw [holds_eq_false_iff] at hcalendar ⊢
    intro hfound
    apply hcalendar
    rcases (infix_sep (by decide)).mp hfound with hfront | hfound
    · exact hfront.trans (List.prefix_append _ _).isInfix
    · have hy := infix_cons_of_not_mem (by decide) (infix_cons_of_not_mem (by decide)
        (infix_cons_of_not_mem (by decide) hfound))
      rw [hopen]
      exact hy.trans (List.suffix_append _ _).isInfix
  have htask : (taskOf (pre ++ '[' :: 'x' :: ']' :: ' ' :: y)).map Prod.fst = some .done := by
    rw [taskOf_eq_some.mpr ⟨pre, 'x', y, rfl, hpre, rfl, rfl⟩]
    rfl
  have hread := parseLine_of_live hscanned hcalendar' hticked hquiet day
  have hid : lastId (letters (pre ++ ['[', 'x', ']', ' ']) ++ behind) = lastId (letters (pre ++ ['[', ' ', ']', ' ']) ++ behind) := by
    rw [lastId_append, lastId_append, lastId_letters, lastId_letters]
  rw [htask, hid] at hread
  refine ⟨_, hread, ?_⟩
  rcases token_cases hscanned hticked with ⟨u, v, hu, hv, -⟩ | ⟨-, hat⟩
  · refine absurd ⟨?_, ⟨v, hv.symm⟩⟩ hbare
    rw [textOf_append, textOf_letters] at hu ⊢
    have hsuffix : strike <:+ pre ++ ['[', 'x', ']'] ++ [' '] ++ textOf x := ⟨u, by rw [← hu]; simp⟩
    exact (strike_suffix hsuffix).trans (List.suffix_append _ _)
  · rw [hat]

end Line

/-- Closing a reminder and reopening it gives the line back, the closed line reads as the same
reminder, and it cannot be closed again. -/
theorem close_reopen {line closed : Text} (hclose : close line = some closed) (day : Option Day) :
    reopen closed = some line ∧ close closed = none ∧
      ∃ reminder reminder', parseLine line day = some reminder ∧ parseLine closed day = some reminder' ∧
        reminder'.state = .closed ∧ reminder'.id = reminder.id ∧ reminder'.due = reminder.due := by
  obtain ⟨pieces, rest, front, inner, when_, back, h, hcalendar, hlive, hquiet, hbare, hshape⟩ := close_cases hclose
  have hopen := parseLine_of_live h hcalendar hlive hquiet
  rcases hshape with ⟨pre, y, rfl, hpre, rfl⟩ | ⟨htask, rfl⟩
  · obtain ⟨token, hread, hstruck⟩ := parseLine_ticked hpre h hcalendar hlive hquiet hbare none
    obtain ⟨token', hread', -⟩ := parseLine_ticked hpre h hcalendar hlive hquiet hbare day
    refine ⟨?_, ?_, _, _, hopen day, hread', by simp [LineReminder.state], rfl, rfl⟩
    · unfold reopen
      rw [hread, Option.bind_some, if_neg (by simp [LineReminder.state])]
      dsimp only
      rw [Option.map_some, hstruck, if_neg (by decide), taskOf_eq_some.mpr ⟨pre, 'x', y, rfl, hpre, rfl, rfl⟩]
      have hreplace := replaceRange_append (pre ++ ['[']) ['x'] (']' :: ' ' :: y) [' ']
      simpa using hreplace
    · unfold close
      rw [hread, Option.bind_some, if_pos (by simp [LineReminder.state])]
  · have hread := parseLine_struck h hcalendar hlive hquiet
    refine ⟨?_, ?_, _, _, hopen day, hread day, by simp [LineReminder.state], rfl, rfl⟩
    · unfold reopen
      rw [hread, Option.bind_some, if_neg (by simp [LineReminder.state])]
      dsimp only
      rw [Option.map_some, if_pos rfl]
      rw [unstrike_eq, ← hlive.text_eq h, htask]
    · unfold close
      rw [hread, Option.bind_some, if_pos (by simp [LineReminder.state])]

/-- A strike that meets tildes on both sides is taken back whole. -/
theorem close_reopen_tildes :
    close "~~~(@9:30)~ or (@2026-10-20".toList = some "~~~~~(@9:30)~~~ or (@2026-10-20".toList ∧
      reopen "~~~~~(@9:30)~~~ or (@2026-10-20".toList = some "~~~(@9:30)~ or (@2026-10-20".toList := by
  have hclose : close "~~~(@9:30)~ or (@2026-10-20".toList = some "~~~~~(@9:30)~~~ or (@2026-10-20".toList := by decide
  exact ⟨hclose, (close_reopen hclose none).1⟩

end Thock.SyncCore.Reminder
