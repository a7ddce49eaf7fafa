import Thock.SyncCore.Reminder

/-!
# The checkbox of a line

A line's checkbox depends only on the text it stands in: blockquote markers, a list marker and
the box. A character that belongs to none of these ends that text, whatever follows it.
-/

namespace Thock.SyncCore.Reminder

open TextScan

/-- A character that neither a blockquote marker nor a list marker holds. -/
structure Inert (c : Char) : Prop where
  black : isWhitespace c = false
  digit : c.isDigit = false
  mark : c ∉ ['>', '-', '*', '+', '.', ')']

section Inert
variable {c : Char}

theorem Inert.not_blank (hc : Inert c) : c ≠ ' ' := by
  rintro rfl
  exact absurd hc.black (by decide)

theorem Inert.trimStart_append (hc : Inert c) (u x : Text) : trimStart (u ++ c :: x) = trimStart u ++ c :: x := by
  induction u with
  | nil => simp [trimStart, hc.black]
  | cons d u ih =>
    by_cases hd : isWhitespace d = true
    · simpa [trimStart, hd] using ih
    · simp [trimStart, hd]

theorem length_trimStart_le (t : Text) : (trimStart t).length ≤ t.length := List.length_dropWhile_le _ _

/-- Blockquote markers end at a character they do not hold, whatever fuel is left. -/
theorem Inert.stripQuotes_append (hc : Inert c) {fuel fuel' : ℕ} {u : Text} (hu : u.length ≤ fuel)
    (hu' : u.length ≤ fuel') (x : Text) : stripQuotes fuel (u ++ c :: x) = stripQuotes fuel' u ++ c :: x := by
  have hquote : c ≠ '>' := fun h => hc.mark (by simp [h])
  induction fuel generalizing fuel' u with
  | zero =>
    obtain rfl := List.eq_nil_of_length_eq_zero (by omega : u.length = 0)
    cases fuel' with
    | zero => rfl
    | succ fuel' => rfl
  | succ fuel ih =>
    cases u with
    | nil =>
      have hnone : stripPrefix ['>'] (c :: x) = none := by simp [stripPrefix, List.isPrefixOf, hquote.symm]
      have hempty : stripQuotes fuel' [] = [] := by cases fuel' <;> rfl
      rw [hempty, List.nil_append, stripQuotes, hnone]
    | cons d u =>
      obtain ⟨fuel', rfl⟩ : ∃ k, fuel' = k + 1 := ⟨fuel' - 1, by simp at hu'; omega⟩
      rw [List.length_cons] at hu hu'
      have hle := length_trimStart_le u
      by_cases hd : d = '>'
      · subst hd
        have hlong : stripPrefix ['>'] ('>' :: u ++ c :: x) = some (u ++ c :: x) := by rw [stripPrefix_eq_some]; rfl
        have hshort : stripPrefix ['>'] ('>' :: u) = some u := by rw [stripPrefix_eq_some]; rfl
        rw [stripQuotes, stripQuotes, hlong, hshort]
        dsimp only
        rw [hc.trimStart_append]
        exact ih (u := trimStart u) (by omega) (by omega)
      · have hlong : stripPrefix ['>'] (d :: u ++ c :: x) = none := by simp [stripPrefix, List.isPrefixOf, Ne.symm hd]
        have hshort : stripPrefix ['>'] (d :: u) = none := by simp [stripPrefix, List.isPrefixOf, Ne.symm hd]
        rw [stripQuotes, stripQuotes, hlong, hshort]

theorem Inert.stripQuoteMarkers_append (hc : Inert c) (u x : Text) :
    stripQuoteMarkers (u ++ c :: x) = stripQuoteMarkers u ++ c :: x := by
  have hle := length_trimStart_le u
  rw [stripQuoteMarkers, hc.trimStart_append]
  exact hc.stripQuotes_append (by simp; omega) hle x

/-- What follows a number's list marker, where there is one. -/
def afterNumber (text : Text) : Option Text :=
  match text with
  | '.' :: ' ' :: rest => some rest
  | ')' :: ' ' :: rest => some rest
  | _ => none

/-- What follows a bullet, where there is one. -/
def afterBullet (text : Text) : Option Text :=
  match text with
  | '-' :: ' ' :: rest => some rest
  | '*' :: ' ' :: rest => some rest
  | '+' :: ' ' :: rest => some rest
  | _ => none

theorem stripListMarker_eq (text : Text) :
    stripListMarker text =
      ((afterBullet text).or
        (if 1 ≤ (text.takeWhile Char.isDigit).length ∧ (text.takeWhile Char.isDigit).length ≤ 9 then
          afterNumber (text.drop (text.takeWhile Char.isDigit).length) else none)).getD text := by
  unfold stripListMarker
  split
  · rfl
  · rfl
  · rfl
  · rename_i hdash hstar hplus
    have hbullet : afterBullet text = none := by
      unfold afterBullet
      split
      · exact (hdash _ rfl).elim
      · exact (hstar _ rfl).elim
      · exact (hplus _ rfl).elim
      · rfl
    rw [hbullet, Option.none_or]
    dsimp only
    split
    · generalize text.drop (text.takeWhile Char.isDigit).length = after
      unfold afterNumber
      split
      · rfl
      · rfl
      · rename_i hdot hparen
        split
        · exact (hdot _ rfl).elim
        · exact (hparen _ rfl).elim
        · rfl
    · rfl

theorem Inert.afterBullet_append (hc : Inert c) (u x : Text) :
    afterBullet (u ++ c :: x) = (afterBullet u).map (· ++ c :: x) := by
  have hspace := hc.not_blank
  have hmark : c ≠ '-' ∧ c ≠ '*' ∧ c ≠ '+' := ⟨fun h => hc.mark (by simp [h]), fun h => hc.mark (by simp [h]), fun h =>
    hc.mark (by simp [h])⟩
  match u with
  | [] => simp [afterBullet, hmark]
  | [d] => simp [afterBullet, hspace]
  | d :: e :: u =>
    by_cases he : e = ' '
    · subst he
      by_cases hd : d = '-' ∨ d = '*' ∨ d = '+'
      · rcases hd with rfl | rfl | rfl <;> rfl
      · simp only [not_or] at hd
        simp [afterBullet, hd]
    · simp [afterBullet, he]

theorem Inert.afterNumber_append (hc : Inert c) (u x : Text) :
    afterNumber (u ++ c :: x) = (afterNumber u).map (· ++ c :: x) := by
  have hspace := hc.not_blank
  have hmark : c ≠ '.' ∧ c ≠ ')' := ⟨fun h => hc.mark (by simp [h]), fun h => hc.mark (by simp [h])⟩
  match u with
  | [] => simp [afterNumber, hmark]
  | [d] => simp [afterNumber, hspace]
  | d :: e :: u =>
    by_cases he : e = ' '
    · subst he
      by_cases hd : d = '.' ∨ d = ')'
      · rcases hd with rfl | rfl <;> rfl
      · simp only [not_or] at hd
        simp [afterNumber, hd]
    · simp [afterNumber, he]

/-- A list marker ends at a character it does not hold. -/
theorem Inert.stripListMarker_append (hc : Inert c) (u x : Text) :
    stripListMarker (u ++ c :: x) = stripListMarker u ++ c :: x := by
  have hdigits : (u ++ c :: x).takeWhile Char.isDigit = u.takeWhile Char.isDigit := by
    rw [List.takeWhile_append]
    split
    · rename_i hall
      have hwhole := (List.takeWhile_prefix (p := Char.isDigit) (l := u)).eq_of_length hall
      rw [List.takeWhile_cons, hc.digit]
      simpa using hwhole.symm
    · rfl
  have hle : (u.takeWhile Char.isDigit).length ≤ u.length := (List.takeWhile_prefix _).length_le
  rw [stripListMarker_eq, stripListMarker_eq, hdigits, hc.afterBullet_append, List.drop_append_of_le_length hle,
    hc.afterNumber_append]
  cases afterBullet u with
  | some rest => rfl
  | none =>
    rw [Option.map_none, Option.none_or, Option.none_or]
    split
    · cases afterNumber (u.drop (u.takeWhile Char.isDigit).length) with
      | some rest => rfl
      | none => rfl
    · rfl

end Inert

/-! ## Behind the markers -/

/-- A line behind its blockquote markers and its list marker. -/
def item (line : Text) : Text := stripListMarker (stripQuoteMarkers line)

theorem Inert.item_append {c : Char} (hc : Inert c) (u x : Text) : item (u ++ c :: x) = item u ++ c :: x := by
  rw [item, hc.stripQuoteMarkers_append, hc.stripListMarker_append]
  rfl

/-- What is cut off in front of a text holds only characters of markers. -/
def CutsMarkers (u v : Text) : Prop := ∃ pre, u = pre ++ v ∧ ∀ c ∈ pre, ¬Inert c

theorem CutsMarkers.refl (u : Text) : CutsMarkers u u := ⟨[], rfl, by simp⟩

theorem CutsMarkers.trans {u v w : Text} (huv : CutsMarkers u v) (hvw : CutsMarkers v w) : CutsMarkers u w := by
  obtain ⟨pre, rfl, hpre⟩ := huv
  obtain ⟨mid, rfl, hmid⟩ := hvw
  refine ⟨pre ++ mid, by simp, fun c hc => ?_⟩
  rcases List.mem_append.mp hc with hc | hc
  · exact hpre c hc
  · exact hmid c hc

theorem cutsMarkers_trimStart (u : Text) : CutsMarkers u (trimStart u) := by
  refine ⟨u.takeWhile isWhitespace, (takeWhile_append_trimStart u).symm, fun c hc hinert => ?_⟩
  have hblack := hinert.black
  rw [blank_takeWhile u c hc] at hblack
  cases hblack

theorem not_inert_of_mem {c : Char} (hc : c ∈ ['>', '-', '*', '+', '.', ')', ' ']) : ¬Inert c := by
  intro hinert
  simp only [List.mem_cons, List.not_mem_nil, or_false] at hc
  have hmark := hinert.mark
  have hblank := hinert.not_blank
  rcases hc with rfl | rfl | rfl | rfl | rfl | rfl | rfl
  all_goals simp_all

theorem cutsMarkers_stripQuotes (fuel : ℕ) (u : Text) : CutsMarkers u (stripQuotes fuel u) := by
  induction fuel generalizing u with
  | zero => exact .refl u
  | succ fuel ih =>
    unfold stripQuotes
    cases hstrip : stripPrefix ['>'] u with
    | none => exact .refl u
    | some inner =>
      rw [stripPrefix_eq_some] at hstrip
      have hquote : CutsMarkers u inner := by
        refine ⟨['>'], hstrip, fun c hc => not_inert_of_mem ?_⟩
        rw [List.mem_singleton.mp hc]
        exact List.mem_cons_self
      exact hquote.trans ((cutsMarkers_trimStart inner).trans (ih _))

theorem cutsMarkers_stripListMarker (u : Text) : CutsMarkers u (stripListMarker u) := by
  have hpair : ∀ (c : Char) (rest : Text), c ∈ ['>', '-', '*', '+', '.', ')', ' '] → CutsMarkers (c :: ' ' :: rest) rest := by
    intro c rest hc
    refine ⟨[c, ' '], rfl, fun d hd => not_inert_of_mem ?_⟩
    rcases List.mem_pair.mp hd with rfl | rfl
    · exact hc
    · decide
  unfold stripListMarker
  split
  · exact hpair _ _ (by decide)
  · exact hpair _ _ (by decide)
  · exact hpair _ _ (by decide)
  · dsimp only
    split
    · have hdigits : CutsMarkers u (u.drop (u.takeWhile Char.isDigit).length) := by
        refine ⟨u.takeWhile Char.isDigit, ?_, fun c hc hinert => ?_⟩
        · conv_lhs => rw [← List.take_append_drop (u.takeWhile Char.isDigit).length u]
          rw [← List.prefix_iff_eq_take.mp (List.takeWhile_prefix _)]
        · have hdigit := List.mem_takeWhile_imp hc
          rw [hinert.digit] at hdigit
          cases hdigit
      split
      · rename_i rest heq
        rw [heq] at hdigits
        exact hdigits.trans (hpair _ _ (by decide))
      · rename_i rest heq
        rw [heq] at hdigits
        exact hdigits.trans (hpair _ _ (by decide))
      · exact .refl u
    · exact .refl u

theorem cutsMarkers_item (line : Text) : CutsMarkers line (item line) :=
  ((cutsMarkers_trimStart line).trans (cutsMarkers_stripQuotes _ _)).trans (cutsMarkers_stripListMarker _)

/-! ## Boxes -/

/-- Markers that end in a list marker and leave nothing behind it. -/
structure Marked (pre : Text) : Prop where
  item : item pre = []
  list : stripQuoteMarkers pre ≠ []
  chars : ∀ c ∈ pre, ¬Inert c

/-- What the character in a box says. -/
def boxTask (c : Char) : Option Task := if c = ' ' then some .open_ else if c = 'x' ∨ c = 'X' then some .done else none

theorem inert_box : Inert '[' := ⟨by decide, by decide, by decide⟩

theorem boxTask_eq_some {c : Char} {task : Task} (h : boxTask c = some task) : c = ' ' ∨ c = 'x' ∨ c = 'X' := by
  unfold boxTask at h
  split at h
  · exact Or.inl ‹_›
  · split at h
    · exact Or.inr ‹_›
    · cases h

/-- The box behind a line's list marker. -/
theorem exists_box {line : Text} {task : Task} {mark : ℕ} (h : taskOf line = some (task, mark)) :
    ∃ c y, item line = '[' :: c :: ']' :: ' ' :: y ∧ boxTask c = some task ∧
      mark = line.length - (item line).length + 1 ∧ (item line).length ≠ (stripQuoteMarkers line).length := by
  unfold taskOf at h
  dsimp only at h
  split at h
  · cases h
  · rename_i hmarker
    have hbox := List.take_append_drop 4 (item line)
    split at h
    · rename_i hopen
      obtain ⟨rfl, rfl⟩ := Prod.mk.inj (Option.some.inj h)
      exact ⟨' ', (item line).drop 4, by rw [← hbox, item, hopen]; simp, rfl, rfl, hmarker⟩
    · split at h
      · rename_i hdone
        obtain ⟨rfl, rfl⟩ := Prod.mk.inj (Option.some.inj h)
        rcases hdone with hdone | hdone
        · exact ⟨'x', (item line).drop 4, by rw [← hbox, item, hdone]; simp, rfl, rfl, hmarker⟩
        · exact ⟨'X', (item line).drop 4, by rw [← hbox, item, hdone]; simp, rfl, rfl, hmarker⟩
      · cases h

/-- A line has a checkbox just where a box follows its list marker. -/
theorem taskOf_eq_some {line : Text} {task : Task} {mark : ℕ} :
    taskOf line = some (task, mark) ↔
      ∃ pre c y, line = pre ++ '[' :: c :: ']' :: ' ' :: y ∧ Marked pre ∧ boxTask c = some task ∧
        mark = pre.length + 1 := by
  constructor
  · intro h
    obtain ⟨c, y, hitem, hc, hmark, hmarker⟩ := exists_box h
    obtain ⟨pre, hline, hpre⟩ := cutsMarkers_item line
    rw [hitem] at hline hmark hmarker
    have hquotes := inert_box.stripQuoteMarkers_append pre (c :: ']' :: ' ' :: y)
    have hwhole := inert_box.item_append pre (c :: ']' :: ' ' :: y)
    rw [← hline] at hquotes hwhole
    rw [hitem] at hwhole
    refine ⟨pre, c, y, hline, ⟨List.self_eq_append_left.mp hwhole, ?_, hpre⟩, hc, ?_⟩
    · intro hnil
      rw [hquotes, hnil] at hmarker
      exact hmarker rfl
    · have hlength := congrArg List.length hline
      rw [List.length_append] at hlength
      omega
  · rintro ⟨pre, c, y, rfl, hpre, hc, rfl⟩
    have hquotes := inert_box.stripQuoteMarkers_append pre (c :: ']' :: ' ' :: y)
    have hwhole := inert_box.item_append pre (c :: ']' :: ' ' :: y)
    rw [hpre.item, List.nil_append, item] at hwhole
    have hpos := List.length_pos_iff.mpr hpre.list
    have hlength : ('[' :: c :: ']' :: ' ' :: y).length ≠
        (stripQuoteMarkers pre ++ '[' :: c :: ']' :: ' ' :: y).length := by
      rw [List.length_append]
      omega
    unfold taskOf
    dsimp only
    rw [hwhole, hquotes, if_neg hlength, List.length_append, Nat.add_sub_cancel]
    rcases boxTask_eq_some hc with rfl | rfl | rfl
    · obtain rfl := Option.some.inj hc
      simp
    · obtain rfl := Option.some.inj hc
      simp
    · obtain rfl := Option.some.inj hc
      simp

/-- What a text without a box's character ends in does not matter to a checkbox before it. -/
theorem taskOf_append {c : Char} (hc : Inert c) (hbox : c ∉ ['[', ']', 'x', 'X']) (u x : Text) :
    taskOf (u ++ c :: x) = taskOf u := by
  have hspace := hc.not_blank
  simp only [List.mem_cons, List.not_mem_nil, or_false, not_or] at hbox
  apply Option.ext
  rintro ⟨task, mark⟩
  rw [taskOf_eq_some, taskOf_eq_some]
  constructor
  · rintro ⟨pre, m, y, heq, hpre, hm, rfl⟩
    refine ⟨pre, m, ?_⟩
    have hmark := boxTask_eq_some hm
    rcases List.append_eq_append_iff.mp heq with ⟨z, hz, htail⟩ | ⟨z, hz, htail⟩
    · -- the other character would stand among the markers
      cases z with
      | nil =>
        obtain ⟨rfl, -⟩ := List.cons.inj htail
        exact absurd rfl hbox.1
      | cons d z =>
        obtain ⟨rfl, -⟩ := List.cons.inj htail
        exact absurd hc (hpre.chars c (by rw [hz]; simp))
    · match z with
      | [] =>
        obtain ⟨rfl, -⟩ := List.cons.inj htail
        exact absurd rfl hbox.1
      | [_] =>
        simp only [List.cons_append, List.nil_append, List.cons.injEq] at htail
        obtain ⟨-, rfl, -⟩ := htail
        rcases hmark with h | h | h
        · exact absurd h hspace
        · exact absurd h hbox.2.2.1
        · exact absurd h hbox.2.2.2
      | [_, _] =>
        simp only [List.cons_append, List.nil_append, List.cons.injEq] at htail
        exact absurd htail.2.2.1.symm hbox.2.1
      | [_, _, _] =>
        simp only [List.cons_append, List.nil_append, List.cons.injEq] at htail
        exact absurd htail.2.2.2.1.symm hspace
      | _ :: _ :: _ :: _ :: z =>
        simp only [List.cons_append, List.cons.injEq] at htail
        obtain ⟨rfl, rfl, rfl, rfl, -⟩ := htail
        exact ⟨z, hz, hpre, hm, rfl⟩
  · rintro ⟨pre, m, y, rfl, hpre, hm, rfl⟩
    exact ⟨pre, m, y ++ c :: x, by simp, hpre, hm, rfl⟩

theorem taskOf_append_paren (u x : Text) : taskOf (u ++ '(' :: x) = taskOf u :=
  taskOf_append ⟨by decide, by decide, by decide⟩ (by decide) u x

theorem taskOf_append_comment (u x : Text) : taskOf (u ++ '<' :: x) = taskOf u :=
  taskOf_append ⟨by decide, by decide, by decide⟩ (by decide) u x

end Thock.SyncCore.Reminder
