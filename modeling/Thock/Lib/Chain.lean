import Mathlib.Order.Basic

/-!
# Chains of changes

A value that is changed one step after another, each change starting from what the one before
left. A measure that no change lowers is no lower at the end than after any of them.
-/

/-- Changes that follow one another from a first value to a last, each as its value before and after. -/
inductive Chain {σ : Type*} : σ → List (σ × σ) → σ → Prop
  | nil (s : σ) : Chain s [] s
  | cons {s t u : σ} {rest : List (σ × σ)} (later : Chain t rest u) : Chain s ((s, t) :: rest) u

namespace Chain

variable {σ : Type*} {s t u : σ} {changes : List (σ × σ)}

/-- One more change at the end. -/
theorem snoc (chain : Chain s changes t) : Chain s (changes ++ [(t, u)]) u := by
  induction chain with
  | nil s => exact .cons (.nil u)
  | cons _ ih => exact .cons ih

section

variable {α : Type*} [Preorder α] {f : σ → α}

/-- No change lowers the measure, so it ends no lower than it starts. -/
theorem le (h : ∀ change ∈ changes, f change.1 ≤ f change.2) (chain : Chain s changes t) : f s ≤ f t := by
  induction chain with
  | nil s => exact le_rfl
  | cons _ ih =>
    have hfirst := h _ List.mem_cons_self
    exact hfirst.trans (ih fun change hchange => h change (List.mem_cons_of_mem _ hchange))

/-- It ends no lower than any change left it. -/
theorem le_of_mem (h : ∀ change ∈ changes, f change.1 ≤ f change.2) (chain : Chain s changes t) {change : σ × σ}
    (hmem : change ∈ changes) : f change.2 ≤ f t := by
  induction chain with
  | nil s => cases hmem
  | cons later ih =>
    have hrest := fun c hc => h c (List.mem_cons_of_mem _ hc)
    rcases List.mem_cons.mp hmem with rfl | hmem
    · exact later.le hrest
    · exact ih hrest hmem

end

end Chain
