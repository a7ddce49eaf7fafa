import Mathlib.Data.List.Basic

/-!
# Handling a list up to where it stops

A handler takes a state through the items of a list in order and may stop at one. How far it
gets is a number: the length of the longest prefix it takes the state through.
-/

namespace PrefixRun

variable {σ α : Type*}

/-- The state after every item, when none stops the handler. -/
def through (handle : σ → α → Option σ) (s : σ) (items : List α) : Option σ := items.foldlM handle s

@[simp] theorem through_nil (handle : σ → α → Option σ) (s : σ) : through handle s [] = some s := rfl

@[simp] theorem through_cons (handle : σ → α → Option σ) (s : σ) (item : α) (rest : List α) :
    through handle s (item :: rest) = (handle s item).bind fun t => through handle t rest := rfl

/-- The handler takes `s` to `t` through the first `k` items and through no more. -/
structure Reaches (handle : σ → α → Option σ) (s : σ) (items : List α) (k : ℕ) (t : σ) : Prop where
  within : k ≤ items.length
  goes : through handle s (items.take k) = some t
  stops : k < items.length → through handle s (items.take (k + 1)) = none

/-- With nothing to handle the state is where it was. -/
theorem Reaches.nil (handle : σ → α → Option σ) (s : σ) : Reaches handle s [] 0 s :=
  ⟨Nat.le_refl 0, rfl, fun h => absurd h (Nat.not_lt_zero 0)⟩

/-- An item that stops the handler leaves the state where it was. -/
theorem Reaches.stop {handle : σ → α → Option σ} {s : σ} {item : α} {rest : List α} (h : handle s item = none) :
    Reaches handle s (item :: rest) 0 s :=
  ⟨Nat.zero_le _, rfl, fun _ => by simp [h]⟩

/-- An item that goes through is one more. -/
theorem Reaches.cons {handle : σ → α → Option σ} {s t u : σ} {item : α} {rest : List α} {k : ℕ}
    (h : handle s item = some t) (later : Reaches handle t rest k u) : Reaches handle s (item :: rest) (k + 1) u where
  within := Nat.succ_le_succ later.within
  goes := by simpa [h] using later.goes
  stops hlt := by simpa [h] using later.stops (Nat.lt_of_succ_lt_succ hlt)

/-- A longer list is handled from where a shorter one left the state. -/
theorem through_append (handle : σ → α → Option σ) (s : σ) (front back : List α) :
    through handle s (front ++ back) = (through handle s front).bind fun t => through handle t back :=
  List.foldlM_append

end PrefixRun
