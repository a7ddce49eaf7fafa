import Mathlib.Data.List.Defs

/-!
# Backtracking over tokens

A reader that goes through a list of tokens, each of which may be read in several ways, and takes the first way through
that ends in a result.

The tokens decide which ends are reached and in which order; readers that judge every end alike find the same.
-/

namespace Backtrack

variable {τ σ α : Type*} (ways : τ → σ → List σ)

/-- The first result at an end of the tokens, the ways of a token tried in order. -/
def search (judge : σ → Option α) : List τ → σ → Option α
  | [], s => judge s
  | token :: tokens, s => (ways token s).findSome? fun s => search judge tokens s

/-- A way through the tokens from one state to another. -/
def Reaches : List τ → σ → σ → Prop
  | [], s, stop => stop = s
  | token :: tokens, s, stop => ∃ next ∈ ways token s, Reaches tokens next stop

/-- What every way of every token keeps is kept on every way through. -/
theorem Reaches.keeps {P : σ → Prop} {tokens : List τ} {s stop : σ} (h : Reaches ways tokens s stop)
    (hways : ∀ token ∈ tokens, ∀ s next, next ∈ ways token s → P s → P next) (hs : P s) : P stop := by
  induction tokens generalizing s with
  | nil => exact h.symm ▸ hs
  | cons token tokens ih =>
    obtain ⟨next, hnext, hstop⟩ := h
    have hkept := hways token List.mem_cons_self s next hnext hs
    exact ih hstop (fun other hother => hways other (List.mem_cons_of_mem _ hother)) hkept

end Backtrack
