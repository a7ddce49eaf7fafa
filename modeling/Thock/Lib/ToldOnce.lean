import Mathlib.Data.List.Basic

/-!
# Histories that tell a thing once

A history is a list of events, oldest first. Some events tell a thing and some end it; a thing stands once it was told
and until it ends. Each thing is told once while it stands if no event tells what stands already, which is
how a system is checked: one event at a time.
-/

namespace ToldOnce

variable {E K : Type*}

/-- A thing was told, and no later event ended it. -/
def Standing (tells ends : E → K → Prop) (history : List E) (k : K) : Prop :=
  ∃ before e after, history = before ++ e :: after ∧ tells e k ∧ ∀ later ∈ after, ¬ends later k

/-- Between two events that tell the same thing, one ends it. -/
def Once (tells ends : E → K → Prop) (history : List E) : Prop :=
  ∀ k before first between second after, history = before ++ first :: (between ++ second :: after) →
    tells first k → tells second k → ∃ e ∈ between, ends e k

variable {tells ends : E → K → Prop} {history : List E} {e : E} {k : K}

theorem not_standing_nil : ¬Standing tells ends [] k := by
  intro h
  obtain ⟨before, e, after, heq, -⟩ := h
  simp at heq

/-- An event of a longer history is its last, or one of those before it. -/
theorem snoc_split {before after : List E} {first : E} (h : history ++ [e] = before ++ first :: after) :
    after = [] ∧ e = first ∨ ∃ init, after = init ++ [e] ∧ history = before ++ first :: init := by
  cases List.eq_nil_or_concat after with
  | inl hnil =>
    rw [hnil] at h
    exact Or.inl ⟨hnil, List.singleton_inj.mp (List.append_inj_right' h rfl)⟩
  | inr hconcat =>
    obtain ⟨init, last, rfl⟩ := hconcat
    have happend : history ++ [e] = (before ++ first :: init) ++ [last] := by
      rw [h, List.append_assoc, List.cons_append, List.concat_eq_append]
    have hlast : e = last := List.singleton_inj.mp (List.append_inj_right' happend rfl)
    exact Or.inr ⟨init, by rw [hlast, List.concat_eq_append], List.append_inj_left' happend rfl⟩

/-- What stands after one more event was told by it, or stood and did not end. -/
theorem standing_snoc : Standing tells ends (history ++ [e]) k ↔ tells e k ∨ Standing tells ends history k ∧ ¬ends e k := by
  constructor
  · intro h
    obtain ⟨before, first, after, heq, htells, hlater⟩ := h
    cases snoc_split heq with
    | inl hlast => exact Or.inl (hlast.2 ▸ htells)
    | inr hearlier =>
      obtain ⟨init, rfl, hhistory⟩ := hearlier
      exact Or.inr ⟨⟨before, first, init, hhistory, htells, fun later hmem => hlater later (List.mem_append_left _ hmem)⟩,
        hlater e (List.mem_append_right _ (List.mem_singleton_self e))⟩
  · intro h
    cases h with
    | inl htells => exact ⟨history, e, [], rfl, htells, fun _ hmem => absurd hmem List.not_mem_nil⟩
    | inr hstood =>
      obtain ⟨⟨before, first, after, rfl, htells, hlater⟩, hend⟩ := hstood
      refine ⟨before, first, after ++ [e], by simp, htells, fun later hmem => ?_⟩
      cases List.mem_append.mp hmem with
      | inl hold => exact hlater later hold
      | inr hnew => exact List.mem_singleton.mp hnew ▸ hend

theorem once_nil : Once tells ends ([] : List E) := by
  intro k before first between second after heq
  simp at heq

/-- An event that tells nothing that stands may follow. -/
theorem Once.snoc (h : Once tells ends history) (he : ∀ k, tells e k → ¬Standing tells ends history k) :
    Once tells ends (history ++ [e]) := by
  intro k before first between second after heq hfirst hsecond
  rw [← List.cons_append, ← List.append_assoc] at heq
  cases snoc_split heq with
  | inl hlast =>
    by_contra hnone
    apply he k (hlast.2 ▸ hsecond)
    have hhistory : history = before ++ first :: between := by
      rw [hlast.1, hlast.2] at heq
      exact List.append_inj_left' heq rfl
    exact ⟨before, first, between, hhistory, hfirst, fun later hmem hend => hnone ⟨later, hmem, hend⟩⟩
  | inr hearlier =>
    obtain ⟨init, -, hhistory⟩ := hearlier
    rw [List.append_assoc, List.cons_append] at hhistory
    exact h k before first between second init hhistory hfirst hsecond

end ToldOnce
