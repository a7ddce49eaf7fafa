import Thock.Lib.TextScan

/-!
# Rows of a text

A text as its rows, each the characters up to a line feed. Every row but the last is ended by
one, and the last only where the text is. Texts that are put together at the end of a row have
the rows of both.
-/

open TextScan

namespace Rows

/-- The text cut behind every line feed. -/
def segments : Text → List Text
  | [] => []
  | c :: rest =>
    if c = '\n' then [c] :: segments rest
    else match segments rest with
      | [] => [[c]]
      | segment :: later => (c :: segment) :: later

/-- What a segment holds before its line feed. -/
def content (segment : Text) : Text := (stripSuffix ['\n'] segment).getD segment

def rows (t : Text) : List Text := (segments t).map content

/-- Rows with a line feed behind each. -/
def joined (ls : List Text) : Text := ls.flatMap (· ++ ['\n'])

/-- A text that ends where a row does. -/
def Ended (t : Text) : Prop := t = [] ∨ t.getLast? = some '\n'

@[simp] theorem joined_nil : joined [] = [] := rfl

@[simp] theorem joined_cons (l : Text) (ls : List Text) : joined (l :: ls) = l ++ '\n' :: joined ls := by
  simp [joined]

@[simp] theorem joined_append (a b : List Text) : joined (a ++ b) = joined a ++ joined b := List.flatMap_append

theorem segments_flatten (t : Text) : (segments t).flatten = t := by
  induction t with
  | nil => rfl
  | cons c rest ih =>
    unfold segments
    split
    · rw [List.flatten_cons, ih]
      rfl
    · cases hrest : segments rest with
      | nil =>
        rw [hrest] at ih
        rw [← ih]
        rfl
      | cons segment later =>
        rw [hrest, List.flatten_cons] at ih
        rw [List.flatten_cons, ← ih]
        rfl

/-- A row and its line feed are the first segment. -/
theorem segments_line {l : Text} (h : '\n' ∉ l) (t : Text) : segments (l ++ '\n' :: t) = (l ++ ['\n']) :: segments t := by
  induction l with
  | nil => simp [segments]
  | cons c l ih =>
    obtain ⟨hc, hl⟩ := not_or.mp (List.mem_cons.not.mp h)
    rw [List.cons_append, segments, if_neg (Ne.symm hc), ih hl]
    rfl

/-- A text without line feeds is one segment. -/
theorem segments_open {l : Text} (h : '\n' ∉ l) (hne : l ≠ []) : segments l = [l] := by
  induction l with
  | nil => exact absurd rfl hne
  | cons c l ih =>
    obtain ⟨hc, hl⟩ := not_or.mp (List.mem_cons.not.mp h)
    rw [segments, if_neg (Ne.symm hc)]
    cases l with
    | nil => rfl
    | cons d l => rw [ih hl (List.cons_ne_nil d l)]

theorem content_line (l : Text) : content (l ++ ['\n']) = l := by
  have hstrip : stripSuffix ['\n'] (l ++ ['\n']) = some l := stripSuffix_eq_some.mpr rfl
  rw [content, hstrip, Option.getD_some]

theorem content_open {l : Text} (h : '\n' ∉ l) : content l = l := by
  have hstrip : stripSuffix ['\n'] l = none := by
    rw [Option.eq_none_iff_forall_ne_some]
    intro rest hrest
    obtain rfl := stripSuffix_eq_some.mp hrest
    exact h (List.mem_append_right _ List.mem_cons_self)
  rw [content, hstrip, Option.getD_none]

theorem segments_joined {ls : List Text} (h : ∀ l ∈ ls, '\n' ∉ l) (t : Text) :
    segments (joined ls ++ t) = ls.map (· ++ ['\n']) ++ segments t := by
  induction ls with
  | nil => rfl
  | cons l ls ih =>
    have hl := h l List.mem_cons_self
    have hrest := ih fun m hm => h m (List.mem_cons_of_mem l hm)
    rw [joined_cons, List.append_assoc, List.cons_append, segments_line hl, hrest]
    rfl

/-- Every text is whole rows and what is left behind the last line feed. -/
theorem exists_joined (t : Text) :
    ∃ ls last, t = joined ls ++ last ∧ (∀ l ∈ ls, '\n' ∉ l) ∧ '\n' ∉ last := by
  induction t with
  | nil => exact ⟨[], [], rfl, fun _ h => absurd h List.not_mem_nil, List.not_mem_nil⟩
  | cons c rest ih =>
    obtain ⟨ls, last, rfl, hls, hlast⟩ := ih
    by_cases hc : c = '\n'
    · subst hc
      refine ⟨[] :: ls, last, rfl, ?_, hlast⟩
      intro l hl
      rcases List.mem_cons.mp hl with rfl | hl
      · exact List.not_mem_nil
      · exact hls l hl
    · cases ls with
      | nil => exact ⟨[], c :: last, rfl, hls, List.not_mem_cons_of_ne_of_not_mem (Ne.symm hc) hlast⟩
      | cons l ls =>
        refine ⟨(c :: l) :: ls, last, rfl, ?_, hlast⟩
        intro m hm
        rcases List.mem_cons.mp hm with rfl | hm
        · exact List.not_mem_cons_of_ne_of_not_mem (Ne.symm hc) (hls l List.mem_cons_self)
        · exact hls m (List.mem_cons_of_mem l hm)

theorem rows_joined {ls : List Text} (h : ∀ l ∈ ls, '\n' ∉ l) (t : Text) : rows (joined ls ++ t) = ls ++ rows t := by
  rw [rows, segments_joined h, List.map_append, List.map_map]
  congr 1
  conv_rhs => rw [← List.map_id ls]
  exact List.map_congr_left fun l _ => content_line l

theorem rows_of_joined {ls : List Text} (h : ∀ l ∈ ls, '\n' ∉ l) : rows (joined ls) = ls := by
  have hrows := rows_joined h []
  rwa [List.append_nil, show rows [] = [] from rfl, List.append_nil] at hrows

theorem rows_open {l : Text} (h : '\n' ∉ l) (hne : l ≠ []) : rows l = [l] := by
  rw [rows, segments_open h hne, List.map_singleton, content_open h]

/-- The rows of a text that ends where a row does. -/
theorem Ended.eq_joined {t : Text} (h : Ended t) : t = joined (rows t) ∧ ∀ l ∈ rows t, '\n' ∉ l := by
  obtain ⟨ls, last, rfl, hls, hlast⟩ := exists_joined t
  have hnil : last = [] := by
    by_contra hne
    rcases h with h | h
    · exact hne (List.append_eq_nil_iff.mp h).2
    · rw [List.getLast?_append_of_ne_nil _ hne] at h
      exact hlast (List.mem_of_getLast? h)
  subst hnil
  rw [List.append_nil, rows_of_joined hls]
  exact ⟨rfl, hls⟩

/-- Behind the end of a row the rows go on. -/
theorem rows_append {a : Text} (h : Ended a) (b : Text) : rows (a ++ b) = rows a ++ rows b := by
  obtain ⟨heq, hls⟩ := h.eq_joined
  conv_lhs => rw [heq, rows_joined hls]

theorem ended_joined (ls : List Text) : Ended (joined ls) := by
  rcases List.eq_nil_or_concat ls with rfl | ⟨ls, l, rfl⟩
  · exact .inl rfl
  · exact .inr (by simp)

/-- What follows the end of a row ends where a row does, and so do both. -/
theorem Ended.append {a b : Text} (ha : Ended a) (hb : Ended b) : Ended (a ++ b) := by
  rcases hb with rfl | hb
  · rwa [List.append_nil]
  · have hne : b ≠ [] := by
      rintro rfl
      cases hb
    exact .inr (by rwa [List.getLast?_append_of_ne_nil a hne])

theorem Ended.of_append {a b : Text} (h : Ended (a ++ b)) : Ended b := by
  by_cases hne : b = []
  · exact .inl hne
  · rcases h with h | h
    · exact absurd (List.append_eq_nil_iff.mp h).2 hne
    · rw [List.getLast?_append_of_ne_nil a hne] at h
      exact .inr h

theorem segments_append {a b : Text} (h : b = [] ∨ Ended a) : segments (a ++ b) = segments a ++ segments b := by
  rcases h with rfl | h
  · simp [segments]
  · obtain ⟨heq, hls⟩ := h.eq_joined
    have hwhole := segments_joined hls b
    have halone := segments_joined hls []
    rw [← heq] at hwhole halone
    rw [List.append_nil] at halone
    rw [hwhole, halone]
    simp [segments]

@[simp] theorem length_segments (t : Text) : (segments t).length = (rows t).length := by rw [rows, List.length_map]

/-- A text can be cut before any of its rows. -/
theorem exists_cut (t : Text) {k : ℕ} (h : k ≤ (rows t).length) :
    ∃ a b, t = a ++ b ∧ (rows a).length = k ∧ (b = [] ∨ Ended a) := by
  obtain ⟨ls, last, rfl, hls, hlast⟩ := exists_joined t
  by_cases hk : k ≤ ls.length
  · refine ⟨joined (ls.take k), joined (ls.drop k) ++ last, ?_, ?_, .inr (ended_joined _)⟩
    · rw [← List.append_assoc, ← joined_append, List.take_append_drop]
    · rw [rows_of_joined fun l hl => hls l (List.mem_of_mem_take hl), List.length_take]
      omega
  · refine ⟨joined ls ++ last, [], by rw [List.append_nil], ?_, .inl rfl⟩
    rw [rows_joined hls, List.length_append] at h ⊢
    have hopen : (rows last).length ≤ 1 := by
      by_cases hne : last = []
      · simp [hne, rows, segments]
      · rw [rows_open hlast hne]
        exact le_rfl
    omega

/-- A text that is not empty has the line feed its last row may lack added. -/
theorem joined_rows {t : Text} (hne : t ≠ []) :
    joined (rows t) = if t.getLast? = some '\n' then t else t ++ ['\n'] := by
  split
  · next hlast => exact (Ended.eq_joined (.inr hlast)).1.symm
  · next hlast =>
    obtain ⟨ls, last, rfl, hls, hopen⟩ := exists_joined t
    have hlast' : last ≠ [] := by
      rintro rfl
      rw [List.append_nil] at hne hlast
      exact hlast ((ended_joined ls).resolve_left hne)
    rw [rows_joined hls, rows_open hopen hlast', joined_append]
    simp

/-- Rows hold no line feeds. -/
theorem not_mem_of_mem_rows {t l : Text} (h : l ∈ rows t) : '\n' ∉ l := by
  obtain ⟨ls, last, rfl, hls, hlast⟩ := exists_joined t
  rw [rows_joined hls, List.mem_append] at h
  rcases h with h | h
  · exact hls l h
  · by_cases hne : last = []
    · rw [hne] at h
      cases h
    · rw [rows_open hlast hne, List.mem_singleton] at h
      rwa [h]

theorem joined_replicate (n : ℕ) : joined (List.replicate n []) = List.replicate n '\n' := by
  induction n with
  | zero => rfl
  | succ n ih => rw [List.replicate_succ, List.replicate_succ, joined_cons, ih, List.nil_append]

/-- Line feeds end the row before them and put in blank rows. -/
theorem exists_rows_breaks {p : Text} {n : ℕ} (h : Ended (p ++ List.replicate n '\n')) :
    ∃ m, ∀ t, rows (p ++ List.replicate n '\n' ++ t) = rows p ++ List.replicate m [] ++ rows t := by
  have hblank (n : ℕ) : rows (List.replicate n '\n') = List.replicate n [] := by
    rw [← joined_replicate]
    exact rows_of_joined fun l hl => by rw [List.eq_of_mem_replicate hl]; exact List.not_mem_nil
  obtain ⟨ls, last, rfl, hls, hlast⟩ := exists_joined p
  suffices hsome : ∃ m, rows (joined ls ++ last ++ List.replicate n '\n') = rows (joined ls ++ last) ++ List.replicate m [] by
    obtain ⟨m, hm⟩ := hsome
    exact ⟨m, fun t => by rw [rows_append h, hm]⟩
  by_cases hne : last = []
  · refine ⟨n, ?_⟩
    rw [hne, List.append_nil, rows_append (ended_joined ls), hblank]
  · cases n with
    | zero => exact ⟨0, by simp⟩
    | succ n =>
      refine ⟨n, ?_⟩
      have hshape : joined ls ++ last ++ List.replicate (n + 1) '\n' = joined (ls ++ [last]) ++ List.replicate n '\n' := by
        rw [joined_append, List.replicate_succ]
        simp
      rw [hshape, rows_append (ended_joined _), hblank, rows_joined hls, rows_open hlast hne, rows_of_joined]
      intro l hl
      rcases List.mem_append.mp hl with hl | hl
      · exact hls l hl
      · rwa [List.mem_singleton.mp hl]

end Rows
