import Thock.SyncCore.InlinePieces

/-!
# Lines that open a fence

A fence opener is up to three spaces, a run of three or more backticks or tildes, and any text
behind it, in which an opener of backticks has no further backtick.
-/

namespace Thock.SyncCore

open TextScan Reminder

/-- Spaces, a run of one character and what follows. -/
def runLine (k n : ℕ) (c : Char) (rest : Text) : Text := List.replicate k ' ' ++ (List.replicate n c ++ rest)

theorem drop_replicate_append (k : ℕ) (c : Char) (t : Text) : (List.replicate k c ++ t).drop k = t := by
  rw [List.drop_left' List.length_replicate]

theorem dropWhile_spaces (k : ℕ) {t : Text} (h : t.head? ≠ some ' ') :
    (List.replicate k ' ' ++ t).dropWhile (· = ' ') = t := by
  rw [List.dropWhile_append_of_pos (by simp)]
  cases t with
  | nil => rfl
  | cons c t =>
    have hc : c ≠ ' ' := fun hc => h (by rw [hc]; rfl)
    simp [hc]

/-- Any text is spaces alone, or spaces, a run and text that does not go on with the run. -/
theorem exists_runLine (text : Text) :
    (∃ k, text = List.replicate k ' ') ∨
      ∃ k n c rest, text = runLine k (n + 1) c rest ∧ c ≠ ' ' ∧ rest.head? ≠ some c := by
  obtain ⟨hspaces, hhead⟩ := takeWhile_run ' ' text
  cases hrest : text.dropWhile (· = ' ') with
  | nil =>
    rw [hrest, List.append_nil] at hspaces
    exact Or.inl ⟨_, hspaces⟩
  | cons c t =>
    rw [hrest] at hspaces hhead
    obtain ⟨hrun, hnext⟩ := takeWhile_run c (c :: t)
    have hpos : 0 < ((c :: t).takeWhile (· = c)).length := by simp
    obtain ⟨n, hn⟩ : ∃ n, ((c :: t).takeWhile (· = c)).length = n + 1 := ⟨_, (Nat.sub_add_cancel hpos).symm⟩
    rw [hn] at hrun
    refine Or.inr ⟨(text.takeWhile (· = ' ')).length, n, c, (c :: t).dropWhile (· = c), ?_, fun hc => hhead (by rw [hc]; rfl), hnext⟩
    rw [runLine, ← hrun]
    exact hspaces

theorem opensFence_runLine {k n : ℕ} {c : Char} {rest : Text} (hc : c ≠ ' ') (hrest : rest.head? ≠ some c) :
    opensFence (runLine k (n + 1) c rest) =
      if k ≤ 3 ∧ (c = '`' ∨ c = '~') ∧ 3 ≤ n + 1 ∧ (c = '`' → '`' ∉ rest) then some (c, n + 1) else none := by
  have hhead : (List.replicate (n + 1) c ++ rest).head? ≠ some ' ' := by simp [List.replicate_succ, hc]
  have hindent : (runLine k (n + 1) c rest).length - (List.replicate (n + 1) c ++ rest).length = k := by
    simp [runLine]
  have hrun := length_takeWhile_run (n := n + 1) hrest
  unfold opensFence
  rw [runLine, dropWhile_spaces k hhead, ← runLine, hindent]
  dsimp only
  rw [runLine, drop_replicate_append]
  rw [List.replicate_succ, List.cons_append] at hrun ⊢
  dsimp only
  rw [hrun, ← List.cons_append, ← List.replicate_succ, drop_replicate_append]
  by_cases hk : k ≤ 3
  · rw [if_neg (not_lt.mpr hk)]
    by_cases hmark : c = '`' ∨ c = '~'
    · rw [if_neg (not_not.mpr hmark)]
      by_cases hlong : 3 ≤ n + 1
      · rw [if_neg (not_lt.mpr hlong)]
        by_cases hticks : c = '`' ∧ '`' ∈ rest
        · rw [if_pos hticks, if_neg fun h => h.2.2.2 hticks.1 hticks.2]
        · rw [if_neg hticks, if_pos ⟨hk, hmark, hlong, fun hc hmem => hticks ⟨hc, hmem⟩⟩]
      · rw [if_pos (not_le.mp hlong), if_neg fun h => hlong h.2.2.1]
    · rw [if_pos hmark, if_neg fun h => hmark h.2.1]
  · rw [if_pos (not_le.mp hk), if_neg fun h => hk h.1]

theorem opensFence_spaces (k : ℕ) : opensFence (List.replicate k ' ') = none := by
  unfold opensFence
  have hnil : (List.replicate k ' ').drop k = [] := by simp
  have hempty : (List.replicate k ' ').dropWhile (· = ' ') = [] := by
    rw [List.dropWhile_eq_nil_iff]
    simp
  dsimp only
  rw [hempty, List.length_replicate, List.length_nil, Nat.sub_zero, hnil]
  split <;> rfl

/-- What a fence opener is made of. -/
structure OpenerOf (text : Text) (k n : ℕ) (c : Char) (rest : Text) : Prop where
  eq : text = runLine k n c rest
  indent : k ≤ 3
  mark : c = '`' ∨ c = '~'
  run : 3 ≤ n
  ticks : c = '`' → '`' ∉ rest

theorem OpenerOf.not_space {text rest : Text} {c : Char} {k n : ℕ} (h : OpenerOf text k n c rest) : c ≠ ' ' := by
  rintro rfl
  exact absurd h.mark (by decide)

theorem OpenerOf.isSome {text rest : Text} {c : Char} {k n : ℕ} (h : OpenerOf text k n c rest) :
    (opensFence text).isSome = true := by
  obtain ⟨hrest, hhead⟩ := takeWhile_run c rest
  obtain ⟨m, hm⟩ : ∃ m, n + (rest.takeWhile (· = c)).length = m + 1 := ⟨_, (Nat.sub_add_cancel (by have := h.run; omega)).symm⟩
  have htext : text = runLine k (m + 1) c (rest.dropWhile (· = c)) := by
    rw [h.eq, runLine, runLine, ← hm, List.replicate_add, List.append_assoc, ← hrest]
  rw [htext, opensFence_runLine h.not_space hhead, if_pos]
  · rfl
  · refine ⟨h.indent, h.mark, by have := h.run; omega, fun hc hmem => h.ticks hc ?_⟩
    exact List.dropWhile_suffix _ |>.subset hmem

theorem exists_opener {text : Text} (h : (opensFence text).isSome = true) :
    ∃ k n c rest, OpenerOf text k n c rest ∧ rest.head? ≠ some c := by
  rcases exists_runLine text with ⟨k, rfl⟩ | ⟨k, n, c, rest, rfl, hc, hhead⟩
  · rw [opensFence_spaces] at h
    cases h
  · rw [opensFence_runLine hc hhead] at h
    split at h
    · rename_i hopener
      exact ⟨k, n + 1, c, rest, ⟨rfl, hopener.1, hopener.2.1, hopener.2.2.1, hopener.2.2.2⟩, hhead⟩
    · cases h

/-- Where a run of one character is cut. -/
theorem replicate_cut {u x y : Text} {c : Char} {n : ℕ} (h : u ++ x = List.replicate n c ++ y) :
    (∃ more, u = List.replicate n c ++ more ∧ y = more ++ x) ∨
      ∃ j i, j + (i + 1) = n ∧ u = List.replicate j c ∧ x = List.replicate (i + 1) c ++ y := by
  rcases List.append_eq_append_iff.mp h with ⟨tail, hrun, rfl⟩ | ⟨more, rfl, rfl⟩
  · obtain ⟨hlength, hu, htail⟩ := List.replicate_eq_append_iff.mp hrun
    cases hcount : tail.length with
    | zero =>
      obtain rfl := List.eq_nil_of_length_eq_zero hcount
      rw [List.append_nil] at hrun
      exact Or.inl ⟨[], by rw [← hrun, List.append_nil], rfl⟩
    | succ i =>
      rw [hcount] at htail hlength
      exact Or.inr ⟨u.length, i, hlength, hu, by rw [← htail]⟩
  · exact Or.inl ⟨more, rfl, rfl⟩

/-- Where a run of one character behind spaces is cut. -/
theorem runLine_cut {u x rest : Text} {c : Char} {k n : ℕ} (h : u ++ x = runLine k n c rest) :
    (∃ more, u = runLine k n c more ∧ rest = more ++ x) ∨
      (∃ j i, j + (i + 1) = n ∧ u = runLine k j c [] ∧ x = List.replicate (i + 1) c ++ rest) ∨
        ∃ j i, j + (i + 1) = k ∧ u = List.replicate j ' ' ∧ x = runLine (i + 1) n c rest := by
  rcases replicate_cut h with ⟨tail, rfl, hrun⟩ | ⟨j, i, hcount, rfl, rfl⟩
  · rcases replicate_cut hrun.symm with ⟨more, rfl, rfl⟩ | ⟨j, i, hcount, rfl, rfl⟩
    · exact Or.inl ⟨more, rfl, rfl⟩
    · exact Or.inr (Or.inl ⟨j, i, hcount, by rw [runLine, List.append_nil], rfl⟩)
  · exact Or.inr (Or.inr ⟨j, i, hcount, rfl, rfl⟩)

/-- What is put behind a text without a mark of its own makes no opener of it. -/
theorem opensFence_swap {u x y : Text} (hx : ∀ c ∈ (x.dropWhile (· = ' ')).head?, c ≠ '`' ∧ c ≠ '~')
    (hticks : '`' ∈ y → '`' ∈ x) (h : opensFence (u ++ y) = none) : opensFence (u ++ x) = none := by
  by_contra hopens
  obtain ⟨k, n, c, rest, hopener, -⟩ := exists_opener (Option.isSome_iff_ne_none.mpr hopens)
  have hrun := hopener.run
  have hmark : ∀ i j, 0 < j → x ≠ runLine i j c rest := by
    rintro i j hj rfl
    obtain ⟨j, rfl⟩ : ∃ m, j = m + 1 := ⟨j - 1, by omega⟩
    rw [runLine, dropWhile_spaces i (by simp [List.replicate_succ, hopener.not_space])] at hx
    have hc := hx c (by simp [List.replicate_succ])
    exact hopener.mark.elim hc.1 hc.2
  rcases runLine_cut hopener.eq with ⟨more, rfl, rfl⟩ | ⟨j, i, hcount, rfl, hx⟩ | ⟨j, i, hcount, rfl, hx⟩
  · have hline : OpenerOf (runLine k n c more ++ y) k n c (more ++ y) :=
      ⟨by simp [runLine], hopener.indent, hopener.mark, hrun, fun hc hmem => by
        refine hopener.ticks hc ?_
        rw [List.mem_append] at hmem ⊢
        exact hmem.imp_right hticks⟩
    have hsome := hline.isSome
    rw [h] at hsome
    cases hsome
  · exact hmark 0 (i + 1) (by omega) hx
  · exact hmark (i + 1) n (by omega) hx

end Thock.SyncCore
