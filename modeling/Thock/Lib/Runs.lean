import Thock.Lib.TextScan

/-!
# Runs of one character

The first run of a character that has a given length, found by one pass that carries the length
of the run it stands in. The pass over a text put together from two parts is the pass over the
first and then, from the state reached there, over the second.
-/

namespace TextScan

variable {c : Char} {n : ℕ}

/-- The offset behind the first run of `n` of a character, `run` of them standing right before. -/
def closeAt (c : Char) (n : ℕ) : ℕ → Text → Option ℕ
  | run, [] => if run = n ∧ 0 < n then some 0 else none
  | run, d :: rest =>
    if d = c then (closeAt c n (run + 1) rest).map (· + 1)
    else if run = n ∧ 0 < n then some 0
    else (closeAt c n 0 rest).map (· + 1)

/-- How many of a character end a text, `run` of them standing right before it. -/
def endRun (c : Char) : ℕ → Text → ℕ
  | run, [] => run
  | run, d :: rest => if d = c then endRun c (run + 1) rest else endRun c 0 rest

/-- Whether a text holds the end of no run of `n`. -/
def passes (c : Char) (n : ℕ) : ℕ → Text → Bool
  | _, [] => true
  | run, d :: rest =>
    if d = c then passes c n (run + 1) rest else !decide (run = n ∧ 0 < n) && passes c n 0 rest

theorem closeAt_cons_self (run : ℕ) (rest : Text) :
    closeAt c n run (c :: rest) = (closeAt c n (run + 1) rest).map (· + 1) := by
  simp [closeAt]

theorem closeAt_cons_of_ne {d : Char} (hd : d ≠ c) (run : ℕ) (rest : Text) :
    closeAt c n run (d :: rest) = if run = n ∧ 0 < n then some 0 else (closeAt c n 0 rest).map (· + 1) := by
  simp [closeAt, hd]

theorem endRun_cons_self (run : ℕ) (rest : Text) : endRun c run (c :: rest) = endRun c (run + 1) rest := by
  simp [endRun]

theorem endRun_cons_of_ne {d : Char} (hd : d ≠ c) (run : ℕ) (rest : Text) :
    endRun c run (d :: rest) = endRun c 0 rest := by
  simp [endRun, hd]

theorem passes_cons_self (run : ℕ) (rest : Text) : passes c n run (c :: rest) = passes c n (run + 1) rest := by
  simp [passes]

theorem passes_cons_of_ne {d : Char} (hd : d ≠ c) (run : ℕ) (rest : Text) :
    passes c n run (d :: rest) = (!decide (run = n ∧ 0 < n) && passes c n 0 rest) := by
  simp [passes, hd]

/-- The pass over two parts goes on from where the first one leaves it. -/
theorem closeAt_append (run : ℕ) (u v : Text) :
    closeAt c n run (u ++ v) =
      if passes c n run u then (closeAt c n (endRun c run u) v).map (· + u.length) else closeAt c n run u := by
  induction u generalizing run with
  | nil => simp [passes, endRun]
  | cons d u ih =>
    rw [List.cons_append]
    by_cases hd : d = c
    · subst hd
      rw [closeAt_cons_self, closeAt_cons_self, passes_cons_self, endRun_cons_self, ih]
      split
      · rw [Option.map_map, List.length_cons]
        rfl
      · rfl
    · rw [closeAt_cons_of_ne hd, closeAt_cons_of_ne hd, passes_cons_of_ne hd, endRun_cons_of_ne hd, ih]
      by_cases hrun : run = n ∧ 0 < n
      · simp [hrun]
      · have hopen : (!decide (run = n ∧ 0 < n)) = true := by simp [hrun]
        rw [if_neg hrun, if_neg hrun, hopen, Bool.true_and]
        split
        · rw [Option.map_map, List.length_cons]
          rfl
        · rfl

/-- A run that ends inside a text is found there. -/
theorem closeAt_of_passes {run : ℕ} {u : Text} (h : passes c n run u = false) :
    ∃ k, closeAt c n run u = some k ∧ k < u.length := by
  induction u generalizing run with
  | nil => cases h
  | cons d u ih =>
    by_cases hd : d = c
    · subst hd
      rw [passes_cons_self] at h
      obtain ⟨k, hk, hlt⟩ := ih h
      exact ⟨k + 1, by rw [closeAt_cons_self, hk]; rfl, by rw [List.length_cons]; omega⟩
    · rw [passes_cons_of_ne hd] at h
      rw [closeAt_cons_of_ne hd]
      by_cases hrun : run = n ∧ 0 < n
      · exact ⟨0, by rw [if_pos hrun], by rw [List.length_cons]; omega⟩
      · have hopen : (!decide (run = n ∧ 0 < n)) = true := by simp [hrun]
        rw [hopen, Bool.true_and] at h
        obtain ⟨k, hk, hlt⟩ := ih h
        exact ⟨k + 1, by rw [if_neg hrun, hk]; rfl, by rw [List.length_cons]; omega⟩

theorem passes_append (run : ℕ) (u v : Text) :
    passes c n run (u ++ v) = (passes c n run u && passes c n (endRun c run u) v) := by
  induction u generalizing run with
  | nil => simp [passes, endRun]
  | cons d u ih =>
    rw [List.cons_append]
    by_cases hd : d = c
    · subst hd
      rw [passes_cons_self, passes_cons_self, endRun_cons_self, ih]
    · rw [passes_cons_of_ne hd, passes_cons_of_ne hd, endRun_cons_of_ne hd, ih, Bool.and_assoc]

theorem endRun_append (run : ℕ) (u v : Text) : endRun c run (u ++ v) = endRun c (endRun c run u) v := by
  induction u generalizing run with
  | nil => rfl
  | cons d u ih =>
    simp only [List.cons_append, endRun]
    split
    · exact ih _
    · exact ih _

/-- Behind another character the pass starts anew. -/
theorem closeAt_of_head {run : ℕ} {t : Text} (hhead : t.head? ≠ some c) (hrun : ¬(run = n ∧ 0 < n)) :
    closeAt c n run t = closeAt c n 0 t := by
  cases t with
  | nil =>
    simp only [closeAt]
    rw [if_neg hrun, if_neg (by omega)]
  | cons d rest =>
    have hd : d ≠ c := fun h => hhead (by rw [h]; rfl)
    rw [closeAt_cons_of_ne hd, closeAt_cons_of_ne hd, if_neg hrun, if_neg (by omega)]

/-- A run of the wanted length that stands right before is closed where another character follows. -/
theorem closeAt_of_full {t : Text} (hn : 0 < n) (hhead : t.head? ≠ some c) : closeAt c n n t = some 0 := by
  cases t with
  | nil => simp [closeAt, hn]
  | cons d rest =>
    have hd : d ≠ c := fun h => hhead (by rw [h]; rfl)
    simp [closeAt, hd, hn]

/-- Text without the character is passed over. -/
theorem closeAt_plain {u : Text} (hu : c ∉ u) (v : Text) :
    closeAt c n 0 (u ++ v) = (closeAt c n 0 v).map (· + u.length) := by
  induction u with
  | nil => simp
  | cons d u ih =>
    have hd : d ≠ c := fun h => hu (by rw [h]; exact List.mem_cons_self)
    rw [List.cons_append, closeAt_cons_of_ne hd, if_neg (by omega), ih fun h => hu (List.mem_cons_of_mem _ h),
      Option.map_map, List.length_cons]
    rfl

theorem passes_plain {u : Text} (hu : c ∉ u) : passes c n 0 u = true := by
  induction u with
  | nil => rfl
  | cons d u ih =>
    have hd : d ≠ c := fun h => hu (by rw [h]; exact List.mem_cons_self)
    have hzero : ¬(0 = n ∧ 0 < n) := by omega
    rw [passes_cons_of_ne hd, ih fun h => hu (List.mem_cons_of_mem _ h), Bool.and_true]
    simp [hzero]

/-- A text that ends in another character, or is empty, leaves no run open. -/
theorem endRun_of_getLast? {u : Text} (h : u.getLast? ≠ some c) : endRun c 0 u = 0 := by
  rcases List.eq_nil_or_concat u with rfl | ⟨u, d, rfl⟩
  · rfl
  · have hd : d ≠ c := by
      rintro rfl
      exact h (by simp)
    rw [List.concat_eq_append, endRun_append]
    simp [endRun, hd]

theorem endRun_replicate (run m : ℕ) : endRun c run (List.replicate m c) = run + m := by
  induction m generalizing run with
  | zero => rfl
  | succ m ih =>
    simp only [List.replicate_succ, endRun, if_true, ih]
    omega

theorem passes_replicate (run m : ℕ) : passes c n run (List.replicate m c) = true := by
  induction m generalizing run with
  | zero => rfl
  | succ m ih => simp only [List.replicate_succ, passes, if_true, ih]

/-- A whole run closes when its length is the wanted one, and is passed over otherwise. -/
theorem closeAt_run {m : ℕ} {t : Text} (hn : 0 < n) (hhead : t.head? ≠ some c) :
    closeAt c n 0 (List.replicate m c ++ t) = if m = n then some m else (closeAt c n 0 t).map (· + m) := by
  rw [closeAt_append, passes_replicate, if_pos rfl, endRun_replicate, Nat.zero_add, List.length_replicate]
  split
  · subst m
    rw [closeAt_of_full hn hhead, Option.map_some, Nat.zero_add]
  · rw [closeAt_of_head hhead (by omega)]

/-- The run that is found ends where it is said to, another character following. -/
theorem closeAt_some {run k : ℕ} {t : Text} (h : closeAt c n run t = some k) :
    k ≤ t.length ∧ (t.drop k).head? ≠ some c ∧ passes c n run (t.take k) = true ∧
      endRun c run (t.take k) = n ∧ 0 < n := by
  induction t generalizing run k with
  | nil =>
    simp only [closeAt] at h
    split at h
    · rename_i hrun
      obtain rfl := Option.some.inj h
      exact ⟨by simp, by simp, rfl, by simpa [endRun] using hrun.1, hrun.2⟩
    · cases h
  | cons d rest ih =>
    by_cases hd : d = c
    · subst hd
      rw [closeAt_cons_self] at h
      obtain ⟨k, hk, rfl⟩ := Option.map_eq_some_iff.mp h
      obtain ⟨hle, hhead, hpass, hend, hn⟩ := ih hk
      refine ⟨by simpa using hle, by simpa using hhead, ?_, ?_, hn⟩
      · rw [List.take_succ_cons, passes_cons_self, hpass]
      · rw [List.take_succ_cons, endRun_cons_self, hend]
    · rw [closeAt_cons_of_ne hd] at h
      by_cases hrun : run = n ∧ 0 < n
      · rw [if_pos hrun] at h
        obtain rfl := Option.some.inj h
        exact ⟨by simp, by simpa using hd, rfl, by simpa [endRun] using hrun.1, hrun.2⟩
      · rw [if_neg hrun] at h
        obtain ⟨k, hk, rfl⟩ := Option.map_eq_some_iff.mp h
        obtain ⟨hle, hhead, hpass, hend, hn⟩ := ih hk
        refine ⟨by simpa using hle, by simpa using hhead, ?_, ?_, hn⟩
        · rw [List.take_succ_cons, passes_cons_of_ne hd, hpass, Bool.and_true]
          simp [hrun]
        · rw [List.take_succ_cons, endRun_cons_of_ne hd, hend]

/-- A text in which a run ends at its very end, another character following. -/
theorem closeAt_of_ends {u : Text} (hpass : passes c n 0 u = true) (hend : endRun c 0 u = n) (hn : 0 < n) {v : Text}
    (hv : v.head? ≠ some c) : closeAt c n 0 (u ++ v) = some u.length := by
  rw [closeAt_append, if_pos hpass, hend, closeAt_of_full hn hv, Option.map_some, Nat.zero_add]

end TextScan
