import Thock.SyncCore.Markdown

/-!
# A note and its lines

The lines of a note with their terminators are the note, and the lines a note can have are told
by each of them alone: only the last may lack a terminator, and a line that ends in a line feed
ends in no carriage return of its own.
-/

namespace Thock.SyncCore

open TextScan

/-! ## Joining -/

/-- A line with its terminator. -/
def Line.whole (line : Line) : Text := line.text ++ line.ending.text

/-- The text of a list of lines. -/
def textOfLines (lines : List Line) : Text := lines.flatMap Line.whole

@[simp] theorem textOfLines_nil : textOfLines [] = [] := rfl

@[simp] theorem textOfLines_cons (line : Line) (rest : List Line) :
    textOfLines (line :: rest) = line.whole ++ textOfLines rest := List.flatMap_cons

@[simp] theorem textOfLines_append (front back : List Line) :
    textOfLines (front ++ back) = textOfLines front ++ textOfLines back := List.flatMap_append

theorem join_eq (document : Document) : document.join = textOfLines document.lines := rfl

/-! ## Lines a note can have -/

/-- A line whose terminator is read back as it is. -/
def Line.Terminated (line : Line) : Prop :=
  '\n' ∉ line.text ∧ line.ending ≠ .none ∧ (line.ending = .lf → line.text.getLast? ≠ some '\r')

instance (line : Line) : Decidable line.Terminated := inferInstanceAs (Decidable (_ ∧ _ ∧ _))

/-- A line at the end of a note without a terminator. -/
def Line.Unterminated (line : Line) : Prop := '\n' ∉ line.text ∧ line.ending = .none ∧ line.text ≠ []

/-- The lines a note can have. -/
def WellFormed : List Line → Prop
  | [] => True
  | line :: rest => (line.Terminated ∧ WellFormed rest) ∨ (line.Unterminated ∧ rest = [])

theorem WellFormed.cons {line : Line} {rest : List Line} (h : line.Terminated) (hrest : WellFormed rest) :
    WellFormed (line :: rest) := Or.inl ⟨h, hrest⟩

theorem WellFormed.last {line : Line} (h : line.Unterminated) : WellFormed [line] := Or.inr ⟨h, rfl⟩

theorem WellFormed.tail {line : Line} {rest : List Line} (h : WellFormed (line :: rest)) : WellFormed rest := by
  rcases h with ⟨-, h⟩ | ⟨-, rfl⟩
  · exact h
  · trivial

theorem WellFormed.no_newline {lines : List Line} (h : WellFormed lines) : ∀ line ∈ lines, '\n' ∉ line.text := by
  induction lines with
  | nil => simp
  | cons line rest ih =>
    intro other hother
    rcases List.mem_cons.mp hother with rfl | hother
    · rcases h with ⟨h, -⟩ | ⟨h, -⟩
      · exact h.1
      · exact h.1
    · exact ih h.tail other hother

/-! ## Splitting -/

@[simp] theorem splitLines_nil : splitLines [] = [] := rfl

theorem splitLines_newline {x : Text} (hx : '\n' ∉ x) (t : Text) :
    splitLines (x ++ '\n' :: t) = terminated x :: splitLines t := by
  have hpieces : pieces (x ++ '\n' :: t) = x :: pieces t := by
    rw [pieces_append_newline, pieces_of_no_newline hx]
    rfl
  have hne : pieces t ≠ [] := List.splitOnP_ne_nil _ _
  unfold splitLines
  rw [hpieces, List.dropLast_cons_of_ne_nil hne, List.map_cons, List.cons_append, List.getLast?_cons,
    List.getLast?_eq_some_getLast hne, Option.getD_some]

theorem splitLines_last {x : Text} (hx : '\n' ∉ x) (hne : x ≠ []) : splitLines x = [⟨x, .none⟩] := by
  obtain ⟨c, rest, rfl⟩ := List.exists_cons_of_ne_nil hne
  unfold splitLines
  rw [pieces_of_no_newline hx]
  rfl

theorem terminated_whole (x : Text) : (terminated x).whole = x ++ ['\n'] := by
  unfold terminated
  cases hstrip : stripSuffix ['\r'] x with
  | some content =>
    rw [stripSuffix_eq_some] at hstrip
    rw [hstrip]
    simp [Line.whole, Ending.text]
  | none => rfl

theorem terminated_terminated {x : Text} (hx : '\n' ∉ x) : (terminated x).Terminated := by
  unfold terminated
  cases hstrip : stripSuffix ['\r'] x with
  | some content =>
    rw [stripSuffix_eq_some] at hstrip
    refine ⟨fun hmem => hx (by rw [hstrip]; exact List.mem_append_left _ hmem), nofun, nofun⟩
  | none =>
    refine ⟨hx, nofun, fun _ hlast => ?_⟩
    obtain ⟨content, rfl⟩ := List.getLast?_eq_some_iff.mp hlast
    rw [stripSuffix_eq_some.mpr rfl] at hstrip
    cases hstrip

/-- A terminated line is what its text and terminator split into. -/
theorem terminated_of {line : Line} (h : line.Terminated) :
    ∃ x, '\n' ∉ x ∧ line.whole = x ++ ['\n'] ∧ terminated x = line := by
  obtain ⟨text, ending⟩ := line
  obtain ⟨htext, hending, hreturn⟩ := h
  cases ending with
  | lf =>
    refine ⟨text, htext, rfl, ?_⟩
    unfold terminated
    cases hstrip : stripSuffix ['\r'] text with
    | some content =>
      rw [stripSuffix_eq_some] at hstrip
      exact absurd (by rw [hstrip]; simp) (hreturn rfl)
    | none => rfl
  | crLf =>
    refine ⟨text ++ ['\r'], ?_, by simp [Line.whole, Ending.text], ?_⟩
    · rw [List.mem_append, not_or]
      exact ⟨htext, by decide⟩
    · unfold terminated
      rw [stripSuffix_eq_some.mpr rfl]
  | none => exact absurd rfl hending

/-- A note's text falls into a first line and the rest, or is a last line without a terminator. -/
theorem text_cases (t : Text) : t = [] ∨ ('\n' ∉ t ∧ t ≠ []) ∨ ∃ x rest, '\n' ∉ x ∧ t = x ++ '\n' :: rest := by
  by_cases hmem : '\n' ∈ t
  · obtain ⟨x, rest, rfl, hx⟩ := List.eq_append_cons_of_mem hmem
    exact Or.inr (Or.inr ⟨x, rest, hx, rfl⟩)
  · by_cases hnil : t = []
    · exact Or.inl hnil
    · exact Or.inr (Or.inl ⟨hmem, hnil⟩)

/-- The lines of a note are the note. -/
theorem textOfLines_splitLines (t : Text) : textOfLines (splitLines t) = t := by
  generalize hlength : t.length = n
  induction n using Nat.strong_induction_on generalizing t with
  | _ n ih =>
    rcases text_cases t with rfl | ⟨hx, hne⟩ | ⟨x, rest, hx, rfl⟩
    · rfl
    · rw [splitLines_last hx hne]
      simp [Line.whole, Ending.text]
    · rw [splitLines_newline hx, textOfLines_cons, terminated_whole,
        ih rest.length (by simp at hlength; omega) rest rfl]
      simp

theorem wellFormed_splitLines (t : Text) : WellFormed (splitLines t) := by
  generalize hlength : t.length = n
  induction n using Nat.strong_induction_on generalizing t with
  | _ n ih =>
    rcases text_cases t with rfl | ⟨hx, hne⟩ | ⟨x, rest, hx, rfl⟩
    · trivial
    · rw [splitLines_last hx hne]
      exact .last ⟨hx, rfl, hne⟩
    · rw [splitLines_newline hx]
      exact .cons (terminated_terminated hx) (ih rest.length (by simp at hlength; omega) rest rfl)

/-- Lines a note can have are the lines of their text. -/
theorem splitLines_textOfLines {lines : List Line} (h : WellFormed lines) : splitLines (textOfLines lines) = lines := by
  induction lines with
  | nil => rfl
  | cons line rest ih =>
    rcases h with ⟨hline, hrest⟩ | ⟨hline, rfl⟩
    · obtain ⟨x, hx, hwhole, hterminated⟩ := terminated_of hline
      rw [textOfLines_cons, hwhole, List.append_assoc, List.singleton_append, splitLines_newline hx, hterminated, ih hrest]
    · obtain ⟨text, ending⟩ := line
      obtain ⟨htext, hending, hne⟩ := hline
      dsimp only at hending
      subst hending
      rw [textOfLines_cons, textOfLines_nil, List.append_nil, Line.whole]
      rw [Ending.text, List.append_nil]
      exact splitLines_last htext hne

theorem WellFormed.append {front back : List Line} (hfront : ∀ line ∈ front, line.Terminated) (hback : WellFormed back) :
    WellFormed (front ++ back) := by
  induction front with
  | nil => exact hback
  | cons line front ih =>
    exact .cons (hfront line List.mem_cons_self) (ih fun other hother => hfront other (List.mem_cons_of_mem _ hother))

/-- Only the last line of a note may lack a terminator. -/
theorem WellFormed.front {front back : List Line} (h : WellFormed (front ++ back)) (hback : back ≠ []) :
    ∀ line ∈ front, line.Terminated := by
  induction front with
  | nil => simp
  | cons line front ih =>
    intro other hother
    rcases h with ⟨hline, hrest⟩ | ⟨-, hnil⟩
    · rcases List.mem_cons.mp hother with rfl | hother
      · exact hline
      · exact ih hrest other hother
    · exact absurd (List.append_eq_nil_iff.mp hnil).2 hback

theorem WellFormed.back {front back : List Line} (h : WellFormed (front ++ back)) : WellFormed back := by
  induction front with
  | nil => exact h
  | cons line front ih => exact ih h.tail

end Thock.SyncCore
