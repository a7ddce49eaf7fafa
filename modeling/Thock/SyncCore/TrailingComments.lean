import Thock.SyncCore.HomeEdits

/-!
# Trailing comments

The comments a text ends in, told apart from what stands before them. A text is cut in one way
into what ends in no comment and a run of comments behind it, and that is where the scan from the
end stops.
-/

namespace Thock.SyncCore.Reminder

open TextScan

/-- What a comment holds: nothing that opens one again or closes it before its end. -/
structure Inside (inner : Text) : Prop where
  opens : ¬commentOpen <:+: inner ++ commentClose
  closes : ¬commentClose <:+: inner

/-- White space and comments, one behind the other. -/
inductive CommentRun : Text → Prop
  | nil : CommentRun []
  | blank {c : Char} {t : Text} (hc : isWhitespace c = true) (next : CommentRun t) : CommentRun (c :: t)
  | comment {inner t : Text} (hinner : Inside inner) (next : CommentRun t) :
      CommentRun (commentOpen ++ inner ++ commentClose ++ t)

/-- Whether a comment is the last thing in a text. -/
def EndsInComment (t : Text) : Prop :=
  ∃ before inner, t = before ++ (commentOpen ++ inner ++ commentClose) ∧ Inside inner

/-! ## Runs of comments -/

theorem CommentRun.append {a b : Text} (ha : CommentRun a) (hb : CommentRun b) : CommentRun (a ++ b) := by
  induction ha with
  | nil => exact hb
  | blank hc _ ih => exact .blank hc ih
  | comment hinner _ ih =>
    rw [List.append_assoc]
    exact .comment hinner ih

theorem CommentRun.of_blank {t : Text} (h : Blank t) : CommentRun t := by
  induction t with
  | nil => exact .nil
  | cons c t ih => exact .blank (h c List.mem_cons_self) (ih fun d hd => h d (List.mem_cons_of_mem c hd))

/-- A run is white space, or white space and a comment's opening come first. -/
theorem CommentRun.head {t : Text} (h : CommentRun t) :
    Blank t ∨ ∃ w b, t = w ++ '<' :: b ∧ Blank w := by
  induction h with
  | nil => exact .inl .nil
  | @blank c t hc next ih =>
    rcases ih with hblank | ⟨w, b, rfl, hw⟩
    · exact .inl (List.forall_mem_cons.mpr ⟨hc, hblank⟩)
    · exact .inr ⟨c :: w, b, rfl, List.forall_mem_cons.mpr ⟨hc, hw⟩⟩
  | comment hinner next => exact .inr ⟨[], _, rfl, .nil⟩

/-- The last comment of a run that is not all white space. -/
theorem CommentRun.last {t : Text} (h : CommentRun t) :
    Blank t ∨ ∃ front inner w, t = front ++ (commentOpen ++ inner ++ commentClose) ++ w ∧ CommentRun front ∧
      Inside inner ∧ Blank w := by
  induction h with
  | nil => exact .inl .nil
  | @blank c t hc next ih =>
    rcases ih with hblank | ⟨front, inner, w, rfl, hfront, hinner, hw⟩
    · exact .inl (List.forall_mem_cons.mpr ⟨hc, hblank⟩)
    · exact .inr ⟨c :: front, inner, w, rfl, .blank hc hfront, hinner, hw⟩
  | @comment inner t hinner next ih =>
    rcases ih with hblank | ⟨front, inner', w, rfl, hfront, hinner', hw⟩
    · exact .inr ⟨[], inner, t, rfl, .nil, hinner, hblank⟩
    · exact .inr ⟨commentOpen ++ inner ++ commentClose ++ front, inner', w, by simp, .comment hinner hfront, hinner', hw⟩

/-! ## The end of a text -/

theorem untrailed_comment (before inner : Text) : Untrailed (before ++ (commentOpen ++ inner ++ commentClose)) := by
  intro c hc
  rw [← List.append_assoc, List.getLast?_append_of_ne_nil _ (by decide)] at hc
  obtain rfl : '>' = c := by simpa [commentClose] using hc
  decide

theorem EndsInComment.getLast? {t : Text} (h : EndsInComment t) : t.getLast? = some '>' := by
  obtain ⟨before, inner, rfl, -⟩ := h
  rw [← List.append_assoc, List.getLast?_append_of_ne_nil _ (by decide)]
  rfl

/-- Before a text that ends in no comment anything may stand that opens none. -/
theorem EndsInComment.of_append {front t : Text} (hfront : '<' ∉ front) (h : EndsInComment (front ++ t)) :
    EndsInComment t := by
  obtain ⟨before, inner, heq, hinner⟩ := h
  rcases List.append_eq_append_iff.mp heq with ⟨x, -, ht⟩ | ⟨x, hx, hcomment⟩
  · exact ⟨x, inner, ht, hinner⟩
  · cases x with
    | nil => exact ⟨[], inner, hcomment.symm, hinner⟩
    | cons c x =>
      obtain rfl : '<' = c := (List.cons.inj hcomment).1
      exact absurd (by rw [hx]; simp) hfront

/-- The scan from the end passes a comment and the white space before it. -/
theorem trailingCommentsFrom_comment {inner : Text} (hinner : Inside inner) (before : Text) (fuel : ℕ) :
    trailingCommentsFrom (fuel + 1) (before ++ (commentOpen ++ inner ++ commentClose)) =
      trailingCommentsFrom fuel (trimEnd before) := by
  have htext : before ++ (commentOpen ++ inner ++ commentClose) =
      before ++ commentOpen ++ (inner ++ commentClose) := by simp
  have hsplit : splitLast commentOpen (before ++ (commentOpen ++ inner ++ commentClose)) =
      some (before, inner ++ commentClose) := by
    rw [htext]
    exact splitLast_of_not_infix (by decide) hinner.opens before
  have hends : commentClose.isSuffixOf (before ++ (commentOpen ++ inner ++ commentClose)) = true := by
    rw [List.isSuffixOf_iff_suffix]
    exact ⟨before ++ (commentOpen ++ inner), by simp⟩
  have hlength : (before ++ (commentOpen ++ inner ++ commentClose)).length - commentClose.length =
      before.length + commentOpen.length + inner.length := by
    simp only [List.length_append]
    omega
  have hslice : slice (before ++ (commentOpen ++ inner ++ commentClose)) (before.length + commentOpen.length)
      (before.length + commentOpen.length + inner.length) = inner := by
    rw [htext, ← List.length_append]
    exact slice_append (before ++ commentOpen) inner commentClose
  have hholds : holds commentClose inner = false := holds_eq_false_iff.mpr hinner.closes
  rw [trailingCommentsFrom, if_neg (not_not.mpr hends), hsplit]
  dsimp only
  rw [hlength, hslice, hholds, if_neg (by simp)]

/-- The scan from the end stops where no comment ends. -/
theorem trailingCommentsFrom_of_not {t : Text} (h : ¬EndsInComment t) (fuel : ℕ) :
    trailingCommentsFrom fuel t = t.length := by
  cases fuel with
  | zero => rfl
  | succ fuel =>
    unfold trailingCommentsFrom
    split
    · rfl
    · next hends =>
      cases hsplit : splitLast commentOpen t with
      | none => rfl
      | some r =>
        obtain ⟨before, after⟩ := r
        dsimp only
        rw [if_pos]
        by_contra hcomment
        rw [not_or, not_lt, Bool.not_eq_true] at hcomment
        obtain ⟨hlong, hholds⟩ := hcomment
        rw [not_not, List.isSuffixOf_iff_suffix] at hends
        have htext := splitLast_eq hsplit
        have hlength := congrArg List.length htext
        rw [List.length_append, List.length_append] at hlength
        obtain ⟨inner, rfl⟩ : commentClose <:+ after :=
          List.suffix_of_suffix_length_le hends ⟨before ++ commentOpen, htext.symm⟩ (by
            have := hends.length_le
            omega)
        rw [List.length_append] at hlength
        have hstop : t.length - commentClose.length = (before ++ commentOpen).length + inner.length := by
          rw [List.length_append]
          omega
        have hslice : slice t (before.length + commentOpen.length) (t.length - commentClose.length) = inner := by
          rw [hstop, ← List.length_append, htext]
          exact slice_append (before ++ commentOpen) inner commentClose
        rw [hslice] at hholds
        exact h ⟨before, inner, by rw [htext]; simp, not_infix_of_splitLast (by decide) hsplit, holds_eq_false_iff.mp hholds⟩

/-- Behind what ends in no comment the whole run is passed. -/
theorem trailingCommentsFrom_run {words run : Text} (hwords : Untrailed words) (hends : ¬EndsInComment words)
    (hrun : CommentRun run) {fuel : ℕ} (hfuel : run.length ≤ fuel) :
    trailingCommentsFrom fuel (trimEnd (words ++ run)) = words.length := by
  induction fuel generalizing run with
  | zero =>
    obtain rfl := List.length_eq_zero_iff.mp (Nat.le_zero.mp hfuel)
    rw [List.append_nil, trimEnd_of_untrailed hwords]
    rfl
  | succ fuel ih =>
    rcases hrun.last with hblank | ⟨front, inner, w, rfl, hfront, hinner, hw⟩
    · rw [trimEnd_append_of_blank hblank, trimEnd_of_untrailed hwords]
      exact trailingCommentsFrom_of_not hends _
    · simp only [List.length_append, commentOpen, List.length_cons] at hfuel
      rw [← List.append_assoc, trimEnd_append_of_blank hw, ← List.append_assoc,
        trimEnd_of_untrailed (untrailed_comment _ _), trailingCommentsFrom_comment hinner]
      exact ih hfront (by omega)

/-! ## The cut -/

/-- Every text is what ends in no comment and the comments behind it. -/
theorem exists_run (t : Text) :
    ∃ words run, t = words ++ run ∧ Untrailed words ∧ ¬EndsInComment words ∧ CommentRun run := by
  generalize hlength : t.length = n
  induction n using Nat.strong_induction_on generalizing t with
  | _ n ih =>
    subst hlength
    have hspace := CommentRun.of_blank (blank_rtakeWhile t)
    by_cases hends : EndsInComment (trimEnd t)
    · obtain ⟨before, inner, htext, hinner⟩ := hends
      have hshort : before.length < t.length := by
        have hlong := (trimEnd_isPrefix t).length_le
        rw [htext] at hlong
        simp only [List.length_append, commentOpen, List.length_cons] at hlong
        omega
      obtain ⟨words, run, hbefore, hwords, hnot, hrun⟩ := ih before.length hshort before rfl
      have hlast := CommentRun.comment hinner hspace
      refine ⟨words, run ++ (commentOpen ++ inner ++ commentClose ++ t.rtakeWhile isWhitespace), ?_, hwords, hnot,
        hrun.append hlast⟩
      conv_lhs => rw [← trimEnd_append_rtakeWhile t, htext, hbefore]
      simp
    · exact ⟨trimEnd t, t.rtakeWhile isWhitespace, (trimEnd_append_rtakeWhile t).symm, untrailed_trimEnd t, hends, hspace⟩

/-- The scan finds the cut. -/
theorem trailingCommentsStart_append {words run : Text} (hwords : Untrailed words) (hends : ¬EndsInComment words)
    (hrun : CommentRun run) : trailingCommentsStart (words ++ run) = words.length :=
  trailingCommentsFrom_run hwords hends hrun (by simp)

end Thock.SyncCore.Reminder
