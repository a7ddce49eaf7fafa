import Mathlib.Data.List.Basic

/-!
# Tables

Finite maps as lists of entries, read by the first entry of a key. Writing a key drops its
older entries, so what is read after a write is settled by the key alone.
-/

/-- Entries by key. -/
abbrev Table (K : Type*) (V : Type*) := List (K × V)

namespace Table

variable {K : Type*} {V : Type*} [DecidableEq K]

def get (t : Table K V) (k : K) : Option V := (t.find? fun e => e.1 = k).map Prod.snd

def erase (t : Table K V) (k : K) : Table K V := t.filter fun e => e.1 ≠ k

def put (t : Table K V) (k : K) (v : V) : Table K V := (k, v) :: t.erase k

theorem get_cons (t : Table K V) (k l : K) (v : V) : get ((k, v) :: t) l = if k = l then some v else get t l := by
  by_cases h : k = l <;> simp [get, h]

@[simp] theorem get_put_self (t : Table K V) (k : K) (v : V) : (t.put k v).get k = some v := by
  simp [get, put]

@[simp] theorem get_erase_self (t : Table K V) (k : K) : (t.erase k).get k = none := by
  simp [get, erase]

@[simp] theorem get_erase_of_ne (t : Table K V) {k l : K} (h : l ≠ k) : (t.erase k).get l = t.get l := by
  induction t with
  | nil => rfl
  | cons e rest ih =>
    unfold get erase at ih ⊢
    by_cases hk : e.1 = k
    · have hl : e.1 ≠ l := fun hl => h (hl.symm.trans hk)
      simpa [hk, hl, Ne.symm h] using ih
    · by_cases hl : e.1 = l
      · simp [hl, h]
      · simpa [hk, hl] using ih

@[simp] theorem get_put_of_ne (t : Table K V) {k l : K} (v : V) (h : l ≠ k) : (t.put k v).get l = t.get l := by
  rw [← get_erase_of_ne t h]
  simp [get, put, Ne.symm h]

theorem mem_of_get {t : Table K V} {k : K} {v : V} (h : t.get k = some v) : (k, v) ∈ t := by
  obtain ⟨e, he, hv⟩ := Option.map_eq_some_iff.mp h
  have hk : e.1 = k := by simpa using List.find?_some he
  rw [← hk, ← hv]
  exact List.mem_of_find?_eq_some he

theorem get_erase (t : Table K V) (k l : K) : (t.erase k).get l = if l = k then none else t.get l := by
  split
  · next h => rw [h, get_erase_self]
  · next h => exact get_erase_of_ne t h

theorem get_put (t : Table K V) (k l : K) (v : V) : (t.put k v).get l = if l = k then some v else t.get l := by
  split
  · next h => rw [h, get_put_self]
  · next h => exact get_put_of_ne t v h

/-- What a test of the keys lets through is read as before. -/
theorem get_filter_key (t : Table K V) (q : K → Bool) (k : K) :
    get (t.filter fun e => q e.1) k = if q k then t.get k else none := by
  induction t with
  | nil => simp [get]
  | cons e rest ih =>
    obtain ⟨l, v⟩ := e
    cases hq : q l with
    | true =>
      rw [List.filter_cons_of_pos (by simpa using hq), get_cons, get_cons, ih]
      by_cases hkey : l = k
      · rw [if_pos hkey, if_pos hkey, if_pos (hkey ▸ hq)]
      · rw [if_neg hkey, if_neg hkey]
    | false =>
      rw [List.filter_cons_of_neg (by simp [hq]), get_cons, ih]
      by_cases hkey : l = k
      · rw [← hkey, if_neg (by simp [hq]), if_neg (by simp [hq])]
      · rw [if_neg hkey]

end Table
