import Mathlib.Order.Basic

/-!
# Runs of a labelled transition relation

A system is a relation `next : S → A → S → Prop` between a state, an action and the state
after it. A run carries the actions it takes, so a statement may speak of the history as
well as of the last state. Restricting a run to steps that meet a condition is the run of
the restricted relation, which is how results about guarded histories are stated.
-/

namespace Transition

variable {S : Type*} {A : Type*}

/-- The states joined by a finite sequence of steps, with the actions taken in order. -/
inductive Run (next : S → A → S → Prop) : S → List A → S → Prop
  | nil (s : S) : Run next s [] s
  | cons {s t u : S} {a : A} {rest : List A} (first : next s a t) (later : Run next t rest u) :
      Run next s (a :: rest) u

/-- The relation that keeps only the steps whose action meets a condition on the state before. -/
def Guarded (next : S → A → S → Prop) (guard : S → A → Prop) (s : S) (a : A) (t : S) : Prop :=
  guard s a ∧ next s a t

/-- Follow a computable step function along a sequence of actions, as far as it accepts them. -/
def follow (step : S → A → Option S) : S → List A → Option S
  | s, [] => some s
  | s, a :: rest => (step s a).bind fun t => follow step t rest

/-- The step function that also refuses what a guard refuses. -/
def allow (guard : S → A → Prop) [∀ s a, Decidable (guard s a)] (step : S → A → Option S) (s : S)
    (a : A) : Option S := if guard s a then step s a else none

/-- A state reached from some initial state. -/
def Reachable (next : S → A → S → Prop) (initial : S → Prop) (t : S) : Prop :=
  ∃ s actions, initial s ∧ Run next s actions t

section

variable {next : S → A → S → Prop}

/-- One more step at the end of a run. -/
theorem Run.snoc {s t u : S} {actions : List A} {a : A} (run : Run next s actions t)
    (last : next t a u) : Run next s (actions ++ [a]) u := by
  induction run with
  | nil s => exact .cons last (.nil u)
  | cons first _ ih => exact .cons first (ih last)

/-- Two runs that meet are one run. -/
theorem Run.append {s t u : S} {before after : List A} (left : Run next s before t)
    (right : Run next t after u) : Run next s (before ++ after) u := by
  induction left with
  | nil s => exact right
  | cons first _ ih => exact .cons first (ih right)

/-- What every step preserves, a run preserves. -/
theorem Run.invariant (inv : S → Prop) (step : ∀ s a t, inv s → next s a t → inv t)
    {s t : S} {actions : List A} (run : Run next s actions t) (start : inv s) : inv t := by
  induction run with
  | nil s => exact start
  | cons first _ ih => exact ih (step _ _ _ start first)

/-- A measure that no step lowers is no lower at the end of a run. -/
theorem Run.monotone {α : Type*} [Preorder α] (measure : S → α)
    (step : ∀ s a t, next s a t → measure s ≤ measure t)
    {s t : S} {actions : List A} (run : Run next s actions t) : measure s ≤ measure t := by
  induction run with
  | nil s => exact le_rfl
  | cons first _ ih => exact (step _ _ _ first).trans ih

/-- A run of one relation is a run of any relation that contains its steps. -/
theorem Run.mono {wider : S → A → S → Prop} (sub : ∀ s a t, next s a t → wider s a t)
    {s t : S} {actions : List A} (run : Run next s actions t) : Run wider s actions t := by
  induction run with
  | nil s => exact .nil s
  | cons first _ ih => exact .cons (sub _ _ _ first) ih

/-- A guarded run is a run. -/
theorem Run.unguarded {guard : S → A → Prop} {s t : S} {actions : List A}
    (run : Run (Guarded next guard) s actions t) : Run next s actions t :=
  run.mono fun _ _ _ step => step.2

/-- Following accepted actions is a run. -/
theorem Run.of_follow {step : S → A → Option S} (sound : ∀ s a t, step s a = some t → next s a t)
    {s t : S} {actions : List A} (h : follow step s actions = some t) : Run next s actions t := by
  induction actions generalizing s with
  | nil => exact Option.some.inj h ▸ .nil s
  | cons a rest ih =>
    obtain ⟨u, hu, hrest⟩ := Option.bind_eq_some_iff.mp h
    exact .cons (sound s a u hu) (ih hrest)

/-- Following actions a guard allows is a guarded run. -/
theorem Run.of_follow_allow {guard : S → A → Prop} [∀ s a, Decidable (guard s a)]
    {step : S → A → Option S} (sound : ∀ s a t, step s a = some t → next s a t) {s t : S}
    {actions : List A} (h : follow (allow guard step) s actions = some t) :
    Run (Guarded next guard) s actions t := by
  refine Run.of_follow (fun s a t hstep => ?_) h
  unfold allow at hstep
  split at hstep
  · exact ⟨‹_›, sound s a t hstep⟩
  · cases hstep

/-- An invariant that holds initially and is preserved holds of every reachable state. -/
theorem Reachable.invariant {initial : S → Prop} (inv : S → Prop) (start : ∀ s, initial s → inv s)
    (step : ∀ s a t, inv s → next s a t → inv t) {t : S} (h : Reachable next initial t) : inv t := by
  obtain ⟨s, actions, hs, run⟩ := h
  exact run.invariant inv step (start s hs)

/-- A guard that refuses nothing leaves every reachable state reachable. -/
theorem Reachable.guarded {initial : S → Prop} {t : S} (h : Reachable next initial t) :
    Reachable (Guarded next fun _ _ => True) initial t := by
  obtain ⟨s, actions, hs, run⟩ := h
  exact ⟨s, actions, hs, run.mono fun _ _ _ step => ⟨trivial, step⟩⟩

/-- What guarded steps reach, steps reach. -/
theorem Reachable.unguarded {initial : S → Prop} {guard : S → A → Prop} {t : S}
    (h : Reachable (Guarded next guard) initial t) : Reachable next initial t := by
  obtain ⟨s, actions, hs, run⟩ := h
  exact ⟨s, actions, hs, run.unguarded⟩

end

end Transition
