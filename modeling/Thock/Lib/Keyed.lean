import Mathlib.Data.List.Dedup
import Mathlib.Data.List.Sort
import Thock.Lib.Table

/-!
# Lists of keyed entries

What a pass over entries with distinct keys makes of one key comes from the entry of that key alone. The entries
of a table in the order of their keys are such a list.

The last value that a partial function takes on a list comes from one element, and no later one gives a value.
-/

namespace Keyed

variable {α β K V : Type*} [DecidableEq K]

/-- What only the entry of a key contributes is what that entry contributes. -/
theorem filterMap_of_key {key : α → K} {l : List α} (hnodup : (l.map key).Nodup) {g : α → Option β} {k : K}
    (hg : ∀ a, key a ≠ k → g a = none) : l.filterMap g = ((l.find? fun a => key a = k).bind g).toList := by
  induction l with
  | nil => rfl
  | cons a rest ih =>
    rw [List.map_cons, List.nodup_cons] at hnodup
    by_cases ha : key a = k
    · have hrest : rest.filterMap g = [] := by
        rw [List.filterMap_eq_nil_iff]
        intro b hb
        exact hg b fun hkey => hnodup.1 (ha.trans hkey.symm ▸ List.mem_map_of_mem hb)
      rw [List.find?_cons_of_pos (by simpa using ha), Option.bind_some, List.filterMap_cons]
      cases hga : g a with
      | none => simp [hrest]
      | some b => simp [hrest]
    · rw [List.find?_cons_of_neg (by simpa using ha), List.filterMap_cons_none (hg a ha), ih hnodup.2]

/-- An entry of a list with distinct keys is the one its key finds. -/
theorem find?_of_mem {key : α → K} {l : List α} (hnodup : (l.map key).Nodup) {a : α} (ha : a ∈ l) :
    (l.find? fun b => key b = key a) = some a := by
  induction l with
  | nil => cases ha
  | cons b rest ih =>
    rw [List.map_cons, List.nodup_cons] at hnodup
    cases List.mem_cons.mp ha with
    | inl heq => rw [heq, List.find?_cons_of_pos (by simp)]
    | inr hmem =>
      have hne : key b ≠ key a := fun hkey => hnodup.1 (hkey ▸ List.mem_map_of_mem hmem)
      rw [List.find?_cons_of_neg (by simpa using hne), ih hnodup.2 hmem]

/-- Entries that are kept are found as before. -/
theorem find?_filter {key : α → K} {l : List α} (hnodup : (l.map key).Nodup) (q : α → Bool) (k : K) :
    ((l.filter q).find? fun a => key a = k) = (l.find? fun a => key a = k).filter q := by
  induction l with
  | nil => rfl
  | cons a rest ih =>
    rw [List.map_cons, List.nodup_cons] at hnodup
    by_cases ha : key a = k
    · rw [List.find?_cons_of_pos (by simpa using ha)]
      cases hq : q a with
      | true => rw [List.filter_cons_of_pos hq, List.find?_cons_of_pos (by simpa using ha), Option.filter_some, if_pos hq]
      | false =>
        have hnone : ∀ b ∈ rest.filter q, ¬decide (key b = k) = true := by
          intro b hb hkey
          have hmem : key b ∈ rest.map key := List.mem_map_of_mem (List.mem_of_mem_filter hb)
          rw [of_decide_eq_true hkey, ← ha] at hmem
          exact hnodup.1 hmem
        rw [List.filter_cons_of_neg (by simp [hq]), List.find?_eq_none.mpr hnone, Option.filter_some, hq]
        rfl
    · rw [List.find?_cons_of_neg (by simpa using ha), ← ih hnodup.2]
      cases hq : q a with
      | true => rw [List.filter_cons_of_pos hq, List.find?_cons_of_neg (by simpa using ha)]
      | false => rw [List.filter_cons_of_neg (by simp [hq])]

/-- The last value of a partial function on a list, from the element that gives it. -/
theorem exists_last_of_filterMap {f : α → Option β} {l : List α} {b : β} (h : (l.filterMap f).getLast? = some b) :
    ∃ before a after, l = before ++ a :: after ∧ f a = some b ∧ after.filterMap f = [] := by
  induction l with
  | nil => cases h
  | cons c rest ih =>
    cases hrest : rest.filterMap f with
    | nil =>
      cases hc : f c with
      | none => simp [hc, hrest] at h
      | some d =>
        have hd : d = b := by simpa [hc, hrest] using h
        exact ⟨[], c, rest, rfl, hd ▸ hc, hrest⟩
    | cons d more =>
      have hlast : (rest.filterMap f).getLast? = some b := by
        cases hc : f c with
        | none => simpa [hc] using h
        | some e => simpa [hc, hrest] using h
      obtain ⟨before, a, after, heq, ha, hafter⟩ := ih hlast
      exact ⟨c :: before, a, after, congrArg (c :: ·) heq, ha, hafter⟩

end Keyed

namespace Table

variable {K V : Type*} [DecidableEq K] [LE K] [DecidableLE K]

/-- The entries that are read, in the order of their keys. -/
def ordered (t : Table K V) : List (K × V) :=
  ((t.map Prod.fst).dedup.insertionSort (· ≤ ·)).filterMap fun k => (t.get k).map (k, ·)

theorem mem_ordered {t : Table K V} {k : K} {v : V} : (k, v) ∈ t.ordered ↔ t.get k = some v := by
  have hkey : t.get k = some v → k ∈ t.map Prod.fst := by
    intro h
    obtain ⟨e, he, -⟩ := Option.map_eq_some_iff.mp h
    have hk : e.1 = k := by simpa using List.find?_some he
    exact hk ▸ List.mem_map_of_mem (List.mem_of_find?_eq_some he)
  simp only [ordered, List.mem_filterMap, List.mem_insertionSort, List.mem_dedup, Option.map_eq_some_iff, Prod.mk.injEq]
  constructor
  · rintro ⟨l, -, w, hw, rfl, rfl⟩
    exact hw
  · exact fun h => ⟨k, hkey h, v, h, rfl, rfl⟩

theorem nodup_ordered (t : Table K V) : (t.ordered.map Prod.fst).Nodup := by
  have hsub : ∀ l : List K, ((l.filterMap fun k => (t.get k).map (k, ·)).map Prod.fst).Sublist l := by
    intro l
    induction l with
    | nil => exact .slnil
    | cons k rest ih =>
      rw [List.filterMap_cons]
      cases t.get k with
      | none => exact ih.cons k
      | some v => exact ih.cons_cons k
  exact ((List.perm_insertionSort _ _).nodup_iff.mpr (List.nodup_dedup _)).sublist (hsub _)

/-- A key finds its own entry among the ordered ones. -/
theorem find?_ordered (t : Table K V) (k : K) : (t.ordered.find? fun e => e.1 = k) = (t.get k).map (k, ·) := by
  cases hget : t.get k with
  | none =>
    rw [Option.map_none, List.find?_eq_none]
    intro e he hk
    have hk : e.1 = k := by simpa using hk
    rw [← hk, mem_ordered.mp (show (e.1, e.2) ∈ t.ordered from he)] at hget
    cases hget
  | some v => exact Keyed.find?_of_mem t.nodup_ordered (mem_ordered.mpr hget)

end Table
