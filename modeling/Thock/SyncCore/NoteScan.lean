import Thock.SyncCore.NoteLines

/-!
# The scan of a note, line by line

What one line does to the scan for fences and front matter, and with it the scan of some lines
followed by others: the later lines are scanned from where the earlier ones left off.
-/

namespace Thock.SyncCore

open TextScan

/-- A line that opens front matter: the first of a note in which it closes. -/
def OpensFrontMatter (closes : Bool) (index : ℕ) (text : Text) : Prop :=
  index = 0 ∧ text = ['-', '-', '-'] ∧ closes = true

instance (closes : Bool) (index : ℕ) (text : Text) : Decidable (OpensFrontMatter closes index text) :=
  inferInstanceAs (Decidable (_ ∧ _ ∧ _))

/-- Where the scan stands after one line. -/
def scanStep (closes : Bool) (index : ℕ) : Scan → Text → Scan
  | .frontMatter, text => if isFrontMatterEnd text then .body else .frontMatter
  | .fence character length, text => if closesFence text character length then .body else .fence character length
  | .body, text =>
    if OpensFrontMatter closes index text then .frontMatter
    else match opensFence text with
      | some (character, length) => .fence character length
      | none => .body

/-- Whether no rule may match a line. -/
def guards (closes : Bool) (index : ℕ) : Scan → Text → Bool
  | .body, text => OpensFrontMatter closes index text || (opensFence text).isSome
  | _, _ => true

/-- The heading a line is, if it is one. -/
def headingAt (closes : Bool) (index : ℕ) (state : Scan) (text : Text) : List HeadingLine :=
  if guards closes index state text then []
  else (parseHeading text).toList.map fun (level, words) => ⟨index, level, words⟩

theorem scanFrom_cons (closes : Bool) (index : ℕ) (state : Scan) (line : Line) (rest : List Line) :
    scanFrom closes index state (line :: rest) =
      (headingAt closes index state line.text ++
          (scanFrom closes (index + 1) (scanStep closes index state line.text) rest).1,
        guards closes index state line.text ::
          (scanFrom closes (index + 1) (scanStep closes index state line.text) rest).2) := by
  cases state with
  | frontMatter => rfl
  | fence character length => rfl
  | body =>
    rw [scanFrom]
    by_cases hfront : OpensFrontMatter closes index line.text
    · rw [if_pos (show _ ∧ _ ∧ _ from hfront)]
      simp [headingAt, guards, scanStep, hfront]
    · rw [if_neg (show ¬(_ ∧ _ ∧ _) from hfront)]
      obtain ⟨fence, hfence⟩ : ∃ fence, opensFence line.text = fence := ⟨_, rfl⟩
      cases fence with
      | some fence => simp [headingAt, guards, scanStep, hfront, hfence]
      | none => cases hheading : parseHeading line.text <;> simp [headingAt, guards, scanStep, hfront, hfence, hheading]

/-- Where the scan stands after some lines. -/
def stateAfter (closes : Bool) : ℕ → Scan → List Line → Scan
  | _, state, [] => state
  | index, state, line :: rest => stateAfter closes (index + 1) (scanStep closes index state line.text) rest

theorem stateAfter_append (closes : Bool) (index : ℕ) (state : Scan) (front back : List Line) :
    stateAfter closes index state (front ++ back) =
      stateAfter closes (index + front.length) (stateAfter closes index state front) back := by
  induction front generalizing index state with
  | nil => rfl
  | cons line front ih =>
    rw [List.cons_append, stateAfter, stateAfter, ih, List.length_cons]
    congr 1
    omega

/-- Later lines are scanned from where the earlier ones left off. -/
theorem scanFrom_append (closes : Bool) (index : ℕ) (state : Scan) (front back : List Line) :
    scanFrom closes index state (front ++ back) =
      ((scanFrom closes index state front).1 ++
          (scanFrom closes (index + front.length) (stateAfter closes index state front) back).1,
        (scanFrom closes index state front).2 ++
          (scanFrom closes (index + front.length) (stateAfter closes index state front) back).2) := by
  induction front generalizing index state with
  | nil => rfl
  | cons line front ih =>
    have hindex : index + 1 + front.length = index + (line :: front).length := by
      rw [List.length_cons]
      omega
    rw [List.cons_append, scanFrom_cons, scanFrom_cons, ih, hindex, stateAfter]
    simp only [List.append_assoc, List.cons_append]

/-- Whether a note's front matter closes matters to no line but the first. -/
theorem scanStep_of_pos {index : ℕ} (hindex : 0 < index) (closes closes' : Bool) (state : Scan) (text : Text) :
    scanStep closes index state text = scanStep closes' index state text := by
  have hfront : ∀ closes, ¬OpensFrontMatter closes index text := fun _ h => absurd h.1 (by omega)
  cases state <;> simp [scanStep, hfront]

theorem guards_of_pos {index : ℕ} (hindex : 0 < index) (closes closes' : Bool) (state : Scan) (text : Text) :
    guards closes index state text = guards closes' index state text := by
  have hfront : ∀ closes, ¬OpensFrontMatter closes index text := fun _ h => absurd h.1 (by omega)
  cases state <;> simp [guards, hfront]

/-- A line that opens nothing leaves the scan in the body of the note. -/
theorem scanStep_body {closes : Bool} {index : ℕ} {text : Text} (hfence : opensFence text = none)
    (hfront : ¬OpensFrontMatter closes index text) : scanStep closes index .body text = .body := by
  rw [scanStep, if_neg hfront, hfence]

theorem guards_body {closes : Bool} {index : ℕ} {text : Text} :
    guards closes index .body text = false ↔ ¬OpensFrontMatter closes index text ∧ opensFence text = none := by
  simp [guards]

theorem not_opensFrontMatter {text : Text} (h : isFrontMatterEnd text = false) (closes : Bool) (index : ℕ) :
    ¬OpensFrontMatter closes index text := by
  rintro ⟨-, rfl, -⟩
  cases h

/-- A line that ends no front matter may stand for another in the search for its end. -/
theorem frontMatterCloses_swap {front back : List Line} {line edited : Line} (hline : isFrontMatterEnd line.text = false)
    (hedited : isFrontMatterEnd edited.text = false) :
    frontMatterCloses (front ++ edited :: back) = frontMatterCloses (front ++ line :: back) := by
  cases front with
  | nil => rfl
  | cons first front => simp [frontMatterCloses, hline, hedited]

theorem frontMatterCloses_concat {front : List Line} {line : Line} (hline : isFrontMatterEnd line.text = false) :
    frontMatterCloses (front ++ [line]) = frontMatterCloses front := by
  cases front with
  | nil => rfl
  | cons first front => simp [frontMatterCloses, hline]

/-- Letters and digits of a small alphabet, for notes at hand. -/
def asciiPrimitives : Primitives :=
  ⟨fun c => c.isAlpha || c.isDigit, fun c => [c.toLower], List.map Char.toLower, id⟩

end Thock.SyncCore
