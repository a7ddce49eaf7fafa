import Thock.Desk.Calendar

/-!
# The lines of a section

The planner section and a child of it as the lists of their lines, apart from the rows they stand
at. Rows move when lines are inserted; what is under a heading is then found again as the list it
was, grown by the insertions.
-/

namespace Thock.Desk

open TextScan

/-! ## The best heading and what follows it -/

/-- How a line ranks as a heading of a level, and its level. -/
def rankOf (reader : HeadingReader) (names : HeadingNames) (level : Option ℕ) (line : Text) : Option (ℕ × ℕ) :=
  (headingLevelAndText line).bind fun (headingLevel, text) =>
    if level.any (· ≠ headingLevel) then none
    else (names.rank reader text).map fun rank => (rank, headingLevel)

/-- The level of the best-ranked heading and what comes after it. -/
def bestRest {α : Type*} (rank : α → Option (ℕ × ℕ)) : Option (ℕ × ℕ × List α) → List α → Option (ℕ × List α)
  | best, [] => best.map Prod.snd
  | best, line :: rest =>
    match rank line with
    | none => bestRest rank best rest
    | some (r, level) =>
      if r = 0 then some (level, rest)
      else if best.all (fun b => r < b.1) then bestRest rank (some (r, level, rest)) rest
      else bestRest rank best rest

/-- Lines numbered from a row. -/
def numberedFrom (row : ℕ) (ls : List Text) : List (ℕ × Text) := (ls.zipIdx row).map fun p => (p.2, p.1)

theorem numberedFrom_zero (ls : List Text) : numberedFrom 0 ls = numbered ls := rfl

theorem numberedFrom_cons (row : ℕ) (line : Text) (ls : List Text) :
    numberedFrom row (line :: ls) = (row, line) :: numberedFrom (row + 1) ls := by
  simp [numberedFrom]

theorem bestHeadingFrom_rest (reader : HeadingReader) (names : HeadingNames) (level : Option ℕ) (ls : List Text)
    (offset : ℕ) (best : Option (ℕ × ℕ × ℕ)) (rest : List Text) (row : ℕ) (h : rest = ls.drop row) :
    (bestHeadingFrom reader names level best (numberedFrom (offset + row) rest)).map
        (fun found => (found.2, ls.drop (found.1 - offset + 1))) =
      bestRest (rankOf reader names level) (best.map fun b => (b.1, b.2.2, ls.drop (b.2.1 - offset + 1))) rest := by
  induction rest generalizing best row with
  | nil =>
    cases best with
    | none => rfl
    | some b => rfl
  | cons line rest ih =>
    have hrest : rest = ls.drop (row + 1) := by
      have htail := congrArg List.tail h
      simpa using htail
    have hrow : ls.drop (offset + row - offset + 1) = rest := by
      rw [hrest]
      congr 2
      omega
    rw [numberedFrom_cons]
    unfold bestHeadingFrom bestRest rankOf
    cases hheading : headingLevelAndText line with
    | none => exact ih best (row + 1) hrest
    | some heading =>
      obtain ⟨headingLevel, text⟩ := heading
      simp only [Option.bind_some]
      by_cases hlevel : level.any (· ≠ headingLevel)
      · rw [if_pos hlevel, if_pos hlevel]
        exact ih best (row + 1) hrest
      · rw [if_neg hlevel, if_neg hlevel]
        cases hrank : names.rank reader text with
        | none => exact ih best (row + 1) hrest
        | some rank =>
          simp only [Option.map_some]
          by_cases hzero : rank = 0
          · rw [if_pos hzero, if_pos hzero]
            simp only [Option.map_some, hrow]
          · rw [if_neg hzero, if_neg hzero]
            have hall : (best.map fun b => (b.1, b.2.2, ls.drop (b.2.1 - offset + 1))).all (fun b => rank < b.1) =
                best.all fun b => rank < b.1 := by
              cases best <;> rfl
            rw [hall]
            by_cases hbetter : best.all (fun b => rank < b.1) = true
            · rw [if_pos hbetter, if_pos hbetter]
              have hnext := ih (some (rank, offset + row, headingLevel)) (row + 1) hrest
              simp only [Option.map_some, hrow] at hnext
              exact hnext
            · rw [if_neg hbetter, if_neg hbetter]
              exact ih best (row + 1) hrest

/-! ## The lines of the planner section and of its child -/

/-- Whether a line is a heading that ends a section of a level. -/
def endsSection (level : ℕ) (line : Text) : Bool := (headingLevelAndText line).any fun h => h.1 ≤ level

/-- The lines up to the next heading of a level or above it. -/
def under (level : ℕ) (ls : List Text) : List Text := ls.takeWhile fun line => !endsSection level line

/-- The lines of the section that names stand for, and its level. -/
def plannerBody (reader : HeadingReader) (names : HeadingNames) (ls : List Text) : Option (List Text × ℕ) :=
  if names.isEmpty then none
  else (bestRest (rankOf reader names none) none ls).map fun (level, rest) => (under level rest, level)

/-- The lines of a section's child of a name. -/
def childBody (reader : HeadingReader) (section_ : Text) (body : List Text) (level : ℕ) : Option (List Text) :=
  let names := HeadingNames.new reader [section_]
  if names.isEmpty then none
  else (bestRest (rankOf reader names (some (level + 1))) none body).map fun (_, rest) => under (level + 1) rest

/-- The lines of a range. -/
def RowRange.of (range : RowRange) (ls : List Text) : List Text := (ls.drop range.start).take (range.stop - range.start)

theorem take_findIdx? {α : Type*} (p : α → Bool) (ls : List α) :
    ls.take ((ls.findIdx? p).getD ls.length) = ls.takeWhile fun line => !p line := by
  rw [List.takeWhile_eq_take_findIdx_not, ← List.findIdx_eq_getD_findIdx?]
  simp only [Bool.not_not]

theorem bestHeading_numberedFrom (reader : HeadingReader) (names : HeadingNames) (level : Option ℕ) (ls : List Text)
    (offset : ℕ) :
    (bestHeading reader names level (numberedFrom offset ls)).map
        (fun found => (found.2, ls.drop (found.1 - offset + 1))) =
      if names.isEmpty then none else bestRest (rankOf reader names level) none ls := by
  unfold bestHeading
  by_cases hempty : names.isEmpty = true
  · rw [if_pos hempty, if_pos hempty]
    rfl
  · rw [if_neg hempty, if_neg hempty]
    exact bestHeadingFrom_rest reader names level ls offset none ls 0 rfl

theorem plannerSection_body (reader : HeadingReader) (ls : List Text) (names : HeadingNames) :
    (plannerSection reader ls names).map (fun found => (found.1.of ls, found.2)) = plannerBody reader names ls := by
  have hbest := bestHeading_numberedFrom reader names none ls 0
  rw [numberedFrom_zero] at hbest
  unfold plannerSection plannerBody
  cases hfound : bestHeading reader names none (numbered ls) with
  | none =>
    rw [hfound] at hbest
    split at hbest
    · next hempty => simp [hempty]
    · next hempty => simp [hempty, ← hbest]
  | some found =>
    obtain ⟨start, level⟩ := found
    rw [hfound] at hbest
    split at hbest
    · cases hbest
    · next hempty =>
      rw [if_neg hempty, ← hbest]
      simp only [Option.map_some, Nat.sub_zero, RowRange.of]
      congr 2
      rw [under, ← take_findIdx? (endsSection level)]
      have hend : (fun line : Text => (headingLevelAndText line).any fun h => decide (h.1 ≤ level)) =
          endsSection level := rfl
      rw [hend]
      cases hstop : (ls.drop (start + 1)).findIdx? (endsSection level) with
      | none => simp
      | some i => simp

/-- The best heading is one of the lines. -/
theorem bestHeadingFrom_mem {reader : HeadingReader} {names : HeadingNames} {level : Option ℕ}
    {best : Option (ℕ × ℕ × ℕ)} {candidates : List (ℕ × Text)} {found : ℕ × ℕ}
    (h : bestHeadingFrom reader names level best candidates = some found) :
    (∃ line, (found.1, line) ∈ candidates) ∨ ∃ rank, best = some (rank, found) := by
  induction candidates generalizing best with
  | nil =>
    obtain ⟨b, hb, rfl⟩ := Option.map_eq_some_iff.mp h
    exact .inr ⟨b.1, hb⟩
  | cons candidate rest ih =>
    obtain ⟨row, line⟩ := candidate
    have hrest : ∀ {best : Option (ℕ × ℕ × ℕ)}, bestHeadingFrom reader names level best rest = some found →
        (∃ line', (found.1, line') ∈ (row, line) :: rest) ∨ ∃ rank, best = some (rank, found) := fun hfound =>
      (ih hfound).imp_left fun ⟨line', hmem⟩ => ⟨line', List.mem_cons_of_mem _ hmem⟩
    unfold bestHeadingFrom at h
    split at h
    · exact hrest h
    · split at h
      · exact hrest h
      · split at h
        · exact hrest h
        · split at h
          · cases h
            exact .inl ⟨line, List.mem_cons_self⟩
          · split at h
            · refine .inl ((hrest h).elim id fun ⟨rank, hbest⟩ => ?_)
              cases hbest
              exact ⟨line, List.mem_cons_self⟩
            · exact hrest h

/-- The rows of numbered lines. -/
theorem row_of_mem_numberedFrom {offset row : ℕ} {line : Text} {ls : List Text}
    (h : (row, line) ∈ numberedFrom offset ls) : offset ≤ row ∧ row < offset + ls.length := by
  obtain ⟨p, hp, heq⟩ := List.mem_map.mp h
  cases heq
  exact ⟨(List.mem_zipIdx hp).1, by have := (List.mem_zipIdx hp).2.1; omega⟩

/-- Where the planner section stands among the rows. -/
theorem plannerSection_rows {reader : HeadingReader} {ls : List Text} {names : HeadingNames} {range : RowRange}
    {level : ℕ} (h : plannerSection reader ls names = some (range, level)) :
    range.start ≤ range.stop ∧ range.stop ≤ ls.length ∧ names.isEmpty = false ∧
      bestRest (rankOf reader names none) none ls = some (level, ls.drop range.start) := by
  have hbest := bestHeading_numberedFrom reader names none ls 0
  rw [numberedFrom_zero] at hbest
  unfold plannerSection at h
  obtain ⟨⟨start, foundLevel⟩, hfound, heq⟩ := Option.map_eq_some_iff.mp h
  cases heq
  rw [hfound] at hbest
  split at hbest
  · cases hbest
  · next hempty =>
    have hstart : start < ls.length := by
      unfold bestHeading at hfound
      rw [if_neg hempty] at hfound
      rcases bestHeadingFrom_mem hfound with ⟨line, hmem⟩ | ⟨rank, hnone⟩
      · rw [← numberedFrom_zero] at hmem
        have hrow := row_of_mem_numberedFrom hmem
        simpa using hrow.2
      · cases hnone
    refine ⟨?_, ?_, by simpa using hempty, hbest.symm⟩
    all_goals
      dsimp only
      cases hstop : (ls.drop (start + 1)).findIdx? fun line => (headingLevelAndText line).any fun h => h.1 ≤ level with
      | none => simp only [Option.map_none, Option.getD_none]; omega
      | some i =>
        have hi := (List.findIdx?_eq_some_iff_findIdx_eq.mp hstop).1
        simp only [List.length_drop] at hi
        simp only [Option.map_some, Option.getD_some]
        omega

/-! ## Growing a list -/

/-- A line with the lines that come to stand before it and the line that takes its place. -/
structure Grown where
  before : List Text
  old : Text
  new : Text

/-- The lines once the list has grown, with what comes after the last. -/
def grow (blocks : List Grown) (tail : List Text) : List Text :=
  blocks.flatMap (fun b => b.before ++ [b.new]) ++ tail

/-- What a search asks of a growth: new lines are passed over, and a changed line counts as before. -/
structure Passes {β : Type*} (f : Text → β) (none_ : β) (blocks : List Grown) (tail : List Text) : Prop where
  before : ∀ b ∈ blocks, ∀ line ∈ b.before, f line = none_
  new : ∀ b ∈ blocks, f b.new = f b.old
  tail : ∀ line ∈ tail, f line = none_

section

variable {β : Type*} {f : Text → β} {none_ : β} {blocks : List Grown} {tail : List Text}

theorem Passes.rest {b : Grown} (h : Passes f none_ (b :: blocks) tail) : Passes f none_ blocks tail :=
  ⟨fun c hc => h.before c (List.mem_cons_of_mem _ hc), fun c hc => h.new c (List.mem_cons_of_mem _ hc), h.tail⟩

end

/-- The lines that come to stand before the heading that ends a section, or after the last line. -/
def stopTail (level : ℕ) (tail : List Text) : List Grown → List Text
  | [] => tail
  | b :: rest => if endsSection level b.old then b.before else stopTail level tail rest

/-- The lines from one row up to another once the list has grown, with what comes to stand before
the second. -/
def rowsGrown (blocks : List Grown) (tail : List Text) (start stop : ℕ) : List Text :=
  grow ((blocks.drop start).take (stop - start)) (((blocks[stop]?).map Grown.before).getD tail)

section

variable {blocks : List Grown} {tail : List Text} {start stop : ℕ}

theorem Passes.rows {β : Type*} {f : Text → β} {none_ : β} (h : Passes f none_ blocks tail) (start stop : ℕ) :
    Passes f none_ ((blocks.drop start).take (stop - start)) (((blocks[stop]?).map Grown.before).getD tail) := by
  have hmem : ∀ b ∈ (blocks.drop start).take (stop - start), b ∈ blocks := fun b hb =>
    List.mem_of_mem_drop (List.mem_of_mem_take hb)
  refine ⟨fun b hb => h.before b (hmem b hb), fun b hb => h.new b (hmem b hb), fun line hline => ?_⟩
  cases hstop : blocks[stop]? with
  | none =>
    rw [hstop] at hline
    exact h.tail line hline
  | some b =>
    rw [hstop] at hline
    exact h.before b (List.mem_of_getElem? hstop) line hline

end

/-! ## The Calendar section of a grown note -/

/-- A search for headings passes what no heading is added or changed in. -/
theorem Passes.comp {β γ : Type*} {f : Text → β} {none_ : β} {blocks : List Grown} {tail : List Text}
    (h : Passes f none_ blocks tail) (g : β → γ) : Passes (fun line => g (f line)) (g none_) blocks tail :=
  ⟨fun b hb line hline => congrArg g (h.before b hb line hline), fun b hb => congrArg g (h.new b hb),
    fun line hline => congrArg g (h.tail line hline)⟩

theorem Passes.rankOf {reader : HeadingReader} {names : HeadingNames} {level : Option ℕ} {blocks : List Grown}
    {tail : List Text} (h : Passes headingLevelAndText none blocks tail) :
    Passes (rankOf reader names level) none blocks tail :=
  h.comp fun heading => heading.bind fun (headingLevel, text) =>
    if level.any (· ≠ headingLevel) then none
    else (names.rank reader text).map fun rank => (rank, headingLevel)

theorem Passes.endsSection {level : ℕ} {blocks : List Grown} {tail : List Text}
    (h : Passes headingLevelAndText none blocks tail) : Passes (endsSection level) false blocks tail :=
  h.comp (Option.any fun found : ℕ × Text => decide (found.1 ≤ level))

section

variable {reader : HeadingReader} {blocks : List Grown} {tail : List Text} {range child : RowRange} {level : ℕ}

end

/-! ## Lines put in at the end of a section -/

/-- The best heading seen so far, its rank, its level and what comes after it. -/
def bestSeen {α : Type*} (rank : α → Option (ℕ × ℕ)) : Option (ℕ × ℕ × List α) → List α → Option (ℕ × ℕ × List α)
  | best, [] => best
  | best, line :: rest =>
    match rank line with
    | none => bestSeen rank best rest
    | some (r, level) =>
      if best.all (fun b => r < b.1) then bestSeen rank (some (r, level, rest)) rest else bestSeen rank best rest

section

variable {α : Type*} {rank : α → Option (ℕ × ℕ)}

theorem bestSeen_cons (best : Option (ℕ × ℕ × List α)) (line : α) (rest : List α) :
    bestSeen rank best (line :: rest) = match rank line with
      | none => bestSeen rank best rest
      | some (r, level) =>
        if best.all (fun b => r < b.1) then bestSeen rank (some (r, level, rest)) rest else bestSeen rank best rest := rfl

/-- No line takes the place of a heading that ranks as well as each of them. -/
theorem bestSeen_of_le {r level : ℕ} {after ls : List α} (h : ∀ line ∈ ls, ∀ p ∈ rank line, r ≤ p.1) :
    bestSeen rank (some (r, level, after)) ls = some (r, level, after) := by
  induction ls with
  | nil => rfl
  | cons line rest ih =>
    have hrest := ih fun l hl => h l (List.mem_cons_of_mem _ hl)
    unfold bestSeen
    cases hrank : rank line with
    | none => exact hrest
    | some p =>
      have hle := h line List.mem_cons_self p hrank
      simp only [Option.all_some, decide_eq_true_eq]
      rw [if_neg (by omega)]
      exact hrest

/-- The search stops early only where nothing later counts. -/
theorem bestRest_seen (best : Option (ℕ × ℕ × List α)) (ls : List α) (h : best.all fun b => 0 < b.1) :
    bestRest rank best ls = (bestSeen rank best ls).map Prod.snd := by
  induction ls generalizing best with
  | nil => rfl
  | cons line rest ih =>
    unfold bestRest bestSeen
    cases hrank : rank line with
    | none => exact ih best h
    | some p =>
      obtain ⟨r, level⟩ := p
      by_cases hzero : r = 0
      · subst hzero
        simp only [if_true, h, bestSeen_of_le fun _ _ p _ => Nat.zero_le p.1, Option.map_some]
      · simp only [hzero, if_false]
        split
        · exact ih _ (by simpa using Nat.pos_of_ne_zero hzero)
        · exact ih best h

/-- What comes after the best heading of the first lines goes on with the later ones. -/
theorem bestSeen_append (best : Option (ℕ × ℕ × List α)) (ls later : List α) :
    bestSeen rank (best.map fun b => (b.1, b.2.1, b.2.2 ++ later)) (ls ++ later) =
      bestSeen rank ((bestSeen rank best ls).map fun b => (b.1, b.2.1, b.2.2 ++ later)) later := by
  induction ls generalizing best with
  | nil => rfl
  | cons line rest ih =>
    have hall : ∀ r : ℕ, (best.map fun b => (b.1, b.2.1, b.2.2 ++ later)).all (fun b => r < b.1) =
        best.all fun b => r < b.1 := by
      intro r
      cases best <;> rfl
    simp only [List.cons_append, bestSeen_cons]
    cases rank line with
    | none => exact ih best
    | some p =>
      simp only [hall]
      split
      · exact ih (some (p.1, p.2, rest))
      · exact ih best

/-- The best heading stands before what comes after it, and no line ranks better. -/
theorem bestSeen_some {best : Option (ℕ × ℕ × List α)} {ls after : List α} {r level : ℕ}
    (h : bestSeen rank best ls = some (r, level, after)) :
    (best = some (r, level, after) ∨ ∃ pre line, ls = pre ++ line :: after ∧ rank line = some (r, level)) ∧
      (∀ b ∈ best, r ≤ b.1) ∧ ∀ line ∈ ls, ∀ p ∈ rank line, r ≤ p.1 := by
  induction ls generalizing best with
  | nil =>
    have hbest : best = some (r, level, after) := h
    refine ⟨Or.inl hbest, fun b hb => ?_, fun line hline => (nomatch hline)⟩
    rw [hbest] at hb
    cases hb
    exact le_rfl
  | cons line rest ih =>
    have hcons : ∀ {pre x}, rest = pre ++ x :: after → line :: rest = (line :: pre) ++ x :: after := by
      rintro pre x rfl
      rfl
    unfold bestSeen at h
    cases hrank : rank line with
    | none =>
      rw [hrank] at h
      obtain ⟨hwhere, hbest, hrest⟩ := ih h
      refine ⟨hwhere.imp_right fun ⟨pre, x, hx, hr⟩ => ⟨line :: pre, x, hcons hx, hr⟩, hbest, fun x hx p hp => ?_⟩
      rcases List.mem_cons.mp hx with rfl | hx
      · rw [hrank] at hp
        cases hp
      · exact hrest x hx p hp
    | some q =>
      rw [hrank] at h
      dsimp only at h
      have hlines : r ≤ q.1 → (∀ x ∈ rest, ∀ p ∈ rank x, r ≤ p.1) → ∀ x ∈ line :: rest, ∀ p ∈ rank x, r ≤ p.1 := by
        intro hq hrest x hx p hp
        rcases List.mem_cons.mp hx with rfl | hx
        · rw [hrank] at hp
          cases hp
          exact hq
        · exact hrest x hx p hp
      split at h
      · rename_i hbetter
        obtain ⟨hwhere, hnew, hrest⟩ := ih h
        have hq : r ≤ q.1 := hnew _ rfl
        refine ⟨Or.inr ?_, fun b hb => ?_, hlines hq hrest⟩
        · rcases hwhere with heq | ⟨pre, x, hx, hr⟩
          · obtain ⟨rfl, rfl, rfl⟩ : q.1 = r ∧ q.2 = level ∧ rest = after := by simpa using heq
            exact ⟨[], line, rfl, hrank⟩
          · exact ⟨line :: pre, x, hcons hx, hr⟩
        · rw [Option.mem_def.mp hb] at hbetter
          simp only [Option.all_some, decide_eq_true_eq] at hbetter
          omega
      · rename_i hworse
        obtain ⟨hwhere, hbest, hrest⟩ := ih h
        refine ⟨hwhere.imp_right fun ⟨pre, x, hx, hr⟩ => ⟨line :: pre, x, hcons hx, hr⟩, hbest, hlines ?_ hrest⟩
        cases best with
        | none => simp at hworse
        | some b =>
          have hb := hbest b rfl
          simp only [Option.all_some, decide_eq_true_eq] at hworse
          omega

end

section

variable {reader : HeadingReader} {ls added : List Text} {range : RowRange} {level : ℕ}

end

end Thock.Desk
