import Mathlib.Data.List.Sort
import Mathlib.Data.List.Perm.Basic

/-!
# Reading a table page by page behind a cursor

Rows carry a key that orders them strictly. A reader asks for the rows above a cursor, takes
a page of them and moves the cursor to the last key it saw. The facts here say what remains
above the moved cursor; they assume nothing about how the table is stored.
-/

namespace CursorPaging

variable {α κ : Type*} [LinearOrder κ] (key : α → κ)

/-- Keys ascend strictly along the list. -/
def Ordered (rows : List α) : Prop := rows.Pairwise fun a b => key a < key b

/-- Ascending order by key, by insertion. -/
def orderBy (rows : List α) : List α := rows.insertionSort fun a b => key a ≤ key b

/-- The rows whose key lies above the cursor. -/
def above (cursor : κ) (rows : List α) : List α := rows.filter fun row => cursor < key row

/-- The cursor after a page: the last key on it, or where it stood. -/
def lastKey (cursor : κ) (page : List α) : κ := page.foldl (fun _ row => key row) cursor

/-- Ordering by key keeps exactly the rows. -/
theorem orderBy_perm (rows : List α) : (orderBy key rows).Perm rows := List.perm_insertionSort _ _

/-- Membership is unaffected by ordering. -/
@[simp] theorem mem_orderBy {rows : List α} {row : α} : row ∈ orderBy key rows ↔ row ∈ rows :=
  (orderBy_perm key rows).mem_iff

/-- Ordering keeps the number of rows. -/
@[simp] theorem length_orderBy (rows : List α) : (orderBy key rows).length = rows.length :=
  (orderBy_perm key rows).length_eq

/-- Rows with distinct keys come out strictly ascending. -/
theorem orderBy_ordered {rows : List α} (h : (rows.map key).Nodup) : Ordered key (orderBy key rows) := by
  have hsorted : (orderBy key rows).Pairwise fun a b => key a ≤ key b := by
    have h := List.pairwise_insertionSort (fun a b : α => key a ≤ key b) rows
    exact h
  have hdistinct : (orderBy key rows).Pairwise fun a b => key a ≠ key b := by
    have hmap : ((orderBy key rows).map key).Nodup :=
      ((orderBy_perm key rows).map key).nodup_iff.mpr h
    exact List.pairwise_map.mp hmap
  exact hsorted.imp₂ (fun _ _ hle hne => lt_of_le_of_ne hle hne) hdistinct

/-- Two strictly ascending lists with the same rows are one list. -/
theorem Ordered.eq_of_perm {left right : List α} (hl : Ordered key left) (hr : Ordered key right)
    (h : left.Perm right) : left = right :=
  h.eq_of_pairwise (fun _ _ _ _ hab hba => absurd (hab.trans hba) (lt_irrefl _)) hl hr

/-- Selecting rows before or after ordering gives the same list. -/
theorem orderBy_filter {rows : List α} (h : (rows.map key).Nodup) (keep : α → Bool) :
    orderBy key (rows.filter keep) = (orderBy key rows).filter keep := by
  apply Ordered.eq_of_perm key
  · exact orderBy_ordered key (h.sublist (List.filter_sublist.map key))
  · exact (orderBy_ordered key h).filter _
  · exact (orderBy_perm key _).trans ((orderBy_perm key rows).symm.filter _)

@[simp] theorem mem_above {cursor : κ} {rows : List α} {row : α} :
    row ∈ above key cursor rows ↔ row ∈ rows ∧ cursor < key row := by
  simp [above]

/-- Raising a cursor twice is raising it once. -/
theorem above_above {low high : κ} (h : low ≤ high) (rows : List α) :
    above key high (above key low rows) = above key high rows := by
  rw [above, above, List.filter_filter]
  refine List.filter_congr fun row _ => ?_
  simp only [Bool.and_eq_left_iff_imp, decide_eq_true_eq]
  exact fun hhigh => lt_of_le_of_lt h hhigh

/-- In an ascending list every row above the last key of a proper prefix lies in the rest. -/
theorem above_lastKey {before after : List α} (hb : before ≠ [])
    (h : Ordered key (before ++ after)) (cursor : κ) :
    above key (lastKey key cursor before) (before ++ after) = after := by
  obtain ⟨front, last, rfl⟩ : ∃ front last, before = front ++ [last] :=
    ⟨before.dropLast, before.getLast hb, (List.dropLast_append_getLast hb).symm⟩
  have hlast : lastKey key cursor (front ++ [last]) = key last := by
    simp [lastKey, List.foldl_append]
  rw [Ordered, List.pairwise_append] at h
  obtain ⟨hfront, hafter, hcross⟩ := h
  rw [List.pairwise_append] at hfront
  have hnone : (front ++ [last]).filter (fun row => key last < key row) = [] := by
    rw [List.filter_eq_nil_iff]
    intro row hrow
    rw [decide_eq_true_eq, not_lt]
    rcases List.mem_append.mp hrow with hrow | hrow
    · exact (hfront.2.2 row hrow last (by simp)).le
    · rw [List.mem_singleton.mp hrow]
  have hall : after.filter (fun row => key last < key row) = after := by
    rw [List.filter_eq_self]
    intro row hrow
    rw [decide_eq_true_eq]
    exact hcross last (by simp) row hrow
  rw [above, hlast, List.filter_append, hnone, hall, List.nil_append]

/-- A page cut from an ascending list leaves the rest above its last key. -/
theorem above_lastKey_take {rows : List α} (h : Ordered key rows) {limit : ℕ} (hlimit : 1 ≤ limit)
    (hmore : limit < rows.length) (cursor : κ) :
    above key (lastKey key cursor (rows.take limit)) rows = rows.drop limit := by
  have hsplit := List.take_append_drop limit rows
  have hnonempty : rows.take limit ≠ [] := by
    intro hnil
    have hlength := congrArg List.length hnil
    rw [List.length_take, List.length_nil] at hlength
    omega
  have hcut := above_lastKey key hnonempty (hsplit.symm ▸ h) cursor
  rwa [hsplit] at hcut

/-- The cut lies at or above a bound exactly when fewer rows than the page holds lie below it. -/
theorem le_lastKey_take_iff {rows : List α} (h : Ordered key rows) {limit : ℕ} (hlimit : 1 ≤ limit)
    (hmore : limit < rows.length) (cursor bound : κ) :
    bound ≤ lastKey key cursor (rows.take limit) ↔
      (rows.filter fun row => key row < bound).length < limit := by
  have hrows : (rows.take limit).length = limit := by
    rw [List.length_take]
    omega
  obtain ⟨front, last, hpage⟩ : ∃ front last, rows.take limit = front ++ [last] := by
    have hnonempty : rows.take limit ≠ [] := by
      intro hnil
      rw [hnil, List.length_nil] at hrows
      omega
    exact ⟨_, _, (List.dropLast_append_getLast hnonempty).symm⟩
  have hlast : lastKey key cursor (rows.take limit) = key last := by
    simp [hpage, lastKey, List.foldl_append]
  have hsplit : rows = (front ++ [last]) ++ rows.drop limit := by
    rw [← hpage, List.take_append_drop]
  have hordered : Ordered key ((front ++ [last]) ++ rows.drop limit) := hsplit ▸ h
  obtain ⟨hbefore, -, hcross⟩ := List.pairwise_append.mp hordered
  have hfront := (List.pairwise_append.mp hbefore).2.2
  have hlength : front.length + 1 = limit := by
    rw [← hrows, hpage, List.length_append, List.length_singleton]
  rw [hlast]
  constructor
  · intro hbound
    have hnone : (rows.drop limit).filter (fun row => key row < bound) = [] := by
      rw [List.filter_eq_nil_iff]
      intro row hrow
      rw [decide_eq_true_eq, not_lt]
      exact hbound.trans (hcross last (by simp) row hrow).le
    have hskip : ¬ key last < bound := not_lt.mpr hbound
    rw [hsplit, List.filter_append, List.filter_append, hnone, List.append_nil,
      List.filter_singleton, decide_eq_false hskip]
    simp only [cond_false, List.append_nil]
    exact (List.length_filter_le _ front).trans_lt (by omega)
  · intro hfew
    by_contra hbelow
    have hall : (front ++ [last]).filter (fun row => key row < bound) = front ++ [last] := by
      rw [List.filter_eq_self]
      intro row hrow
      rw [decide_eq_true_eq]
      rcases List.mem_append.mp hrow with hrow | hrow
      · exact (hfront row hrow last (by simp)).trans (not_le.mp hbelow)
      · rw [List.mem_singleton.mp hrow]
        exact not_le.mp hbelow
    rw [hsplit, List.filter_append, hall, List.length_append, List.length_append,
      List.length_singleton] at hfew
    omega

/-- The last key of a page of rows above the cursor is no lower than the cursor. -/
theorem le_lastKey {cursor : κ} {page : List α} (h : Ordered key page)
    (habove : ∀ row ∈ page, cursor < key row) : cursor ≤ lastKey key cursor page := by
  rcases List.eq_nil_or_concat page with rfl | ⟨front, last, rfl⟩
  · exact le_rfl
  · simp only [List.concat_eq_append] at habove ⊢
    simpa [lastKey, List.foldl_append] using (habove last (by simp)).le

/-- A row at or below the last key of a page, and in the ascending list it is a prefix of, is on the page. -/
theorem mem_page_of_le_lastKey {cursor : κ} {page rest : List α} (h : Ordered key (page ++ rest))
    {row : α} (hrow : row ∈ page ++ rest) (habove : cursor < key row)
    (hle : key row ≤ lastKey key cursor page) : row ∈ page := by
  rcases List.mem_append.mp hrow with hrow | hrest
  · exact hrow
  · rcases List.eq_nil_or_concat page with rfl | ⟨front, last, rfl⟩
    · exact absurd hle (not_le.mpr habove)
    · simp only [List.concat_eq_append] at h hle ⊢
      have hcross := (List.pairwise_append.mp h).2.2 last (by simp) row hrest
      have hlast : lastKey key cursor (front ++ [last]) = key last := by
        simp [lastKey, List.foldl_append]
      exact absurd hle (not_le.mpr (hlast ▸ hcross))

/-! ## The latest change of a name -/

variable {ν : Type*} (name : α → ν)

/-- A logged change that no later change of its name follows. -/
def Latest (log : List α) (row : α) : Prop :=
  row ∈ log ∧ ∀ other ∈ log, name other = name row → key other ≤ key row

/-- A latest change of a longer log is new, or was latest and no new change of its name is above it. -/
theorem Latest.of_append {log new : List α} {row : α} (h : Latest key name (log ++ new) row) :
    row ∈ new ∨ (Latest key name log row ∧ ∀ other ∈ new, name other = name row → key other ≤ key row) := by
  obtain ⟨hmem, hmax⟩ := h
  rcases List.mem_append.mp hmem with hold | hnew
  · exact Or.inr ⟨⟨hold, fun other ho => hmax other (List.mem_append_left _ ho)⟩,
      fun other ho => hmax other (List.mem_append_right _ ho)⟩
  · exact Or.inl hnew

end CursorPaging
