import Thock.Lib.TextBytes

/-!
# Slices of a text at byte offsets

A text sliced at offsets in its bytes, where an offset inside a character or past the end gives nothing, and the searches
that find such offsets.

What stands at a byte of ASCII is a character of its own, so that an offset on either side of one is a boundary.
-/

open TextScan

/-! ## Sizes -/

/-- How many bytes a text takes. -/
def byteSize (t : Text) : ℕ := (asBytes t).length

@[simp] theorem byteSize_nil : byteSize [] = 0 := rfl

@[simp] theorem byteSize_cons (c : Char) (t : Text) : byteSize (c :: t) = c.utf8Size + byteSize t := by
  rw [byteSize, byteSize, length_asBytes, length_asBytes, List.map_cons, List.sum_cons]

@[simp] theorem byteSize_append (a b : Text) : byteSize (a ++ b) = byteSize a + byteSize b := by
  rw [byteSize, asBytes_append, List.length_append, byteSize, byteSize]

theorem byteSize_eq_zero {t : Text} : byteSize t = 0 ↔ t = [] := by
  cases t with
  | nil => simp
  | cons c t =>
    have := c.utf8Size_pos
    simp
    omega

theorem utf8Size_ascii {c : Char} (h : Ascii c) : c.utf8Size = 1 := by
  rw [← String.length_utf8EncodeChar, utf8EncodeChar_ascii h, List.length_singleton]

/-! ## Slices -/

/-- The slice from an offset to the end. -/
def sliceFrom : ℕ → Text → Option Text
  | 0, t => some t
  | _ + 1, [] => none
  | n + 1, c :: rest => if c.utf8Size ≤ n + 1 then sliceFrom (n + 1 - c.utf8Size) rest else none

/-- The slice from the start to an offset. -/
def sliceTo : ℕ → Text → Option Text
  | 0, _ => some []
  | _ + 1, [] => none
  | n + 1, c :: rest => if c.utf8Size ≤ n + 1 then (sliceTo (n + 1 - c.utf8Size) rest).map (List.cons c) else none

/-- The slice between two offsets. -/
def sliceBetween (start stop : ℕ) (t : Text) : Option Text :=
  if start ≤ stop then (sliceFrom start t).bind (sliceTo (stop - start)) else none

/-- An offset at which a text falls into two. -/
def Boundary (t : Text) (offset : ℕ) : Prop := ∃ front back, t = front ++ back ∧ byteSize front = offset

@[simp] theorem sliceFrom_zero (t : Text) : sliceFrom 0 t = some t := by
  cases t <;> rfl

@[simp] theorem sliceTo_zero (t : Text) : sliceTo 0 t = some [] := by
  cases t <;> rfl

theorem sliceFrom_append (front back : Text) : sliceFrom (byteSize front) (front ++ back) = some back := by
  induction front with
  | nil => exact sliceFrom_zero back
  | cons c front ih =>
    obtain ⟨n, hn⟩ : ∃ n, byteSize (c :: front) = n + 1 := ⟨byteSize (c :: front) - 1, by
      have := c.utf8Size_pos
      rw [byteSize_cons]
      omega⟩
    have hrest : n + 1 - c.utf8Size = byteSize front := by
      rw [← hn, byteSize_cons, Nat.add_sub_cancel_left]
    rw [hn, List.cons_append, sliceFrom, if_pos (by rw [← hn, byteSize_cons]; exact Nat.le_add_right _ _), hrest, ih]

theorem sliceTo_append (front back : Text) : sliceTo (byteSize front) (front ++ back) = some front := by
  induction front with
  | nil => exact sliceTo_zero back
  | cons c front ih =>
    obtain ⟨n, hn⟩ : ∃ n, byteSize (c :: front) = n + 1 := ⟨byteSize (c :: front) - 1, by
      have := c.utf8Size_pos
      rw [byteSize_cons]
      omega⟩
    have hrest : n + 1 - c.utf8Size = byteSize front := by
      rw [← hn, byteSize_cons, Nat.add_sub_cancel_left]
    rw [hn, List.cons_append, sliceTo, if_pos (by rw [← hn, byteSize_cons]; exact Nat.le_add_right _ _), hrest, ih,
      Option.map_some]

/-- A slice between two fronts is what one has beyond the other. -/
theorem sliceBetween_append (a b c : Text) : sliceBetween (byteSize a) (byteSize a + byteSize b) (a ++ (b ++ c)) = some b := by
  rw [sliceBetween, if_pos (Nat.le_add_right _ _), sliceFrom_append, Option.bind_some, Nat.add_sub_cancel_left, sliceTo_append]

theorem sliceFrom_eq_some {t back : Text} {offset : ℕ} (h : sliceFrom offset t = some back) :
    ∃ front, t = front ++ back ∧ byteSize front = offset := by
  induction t generalizing offset with
  | nil =>
    cases offset with
    | zero =>
      obtain rfl := Option.some.inj h
      exact ⟨[], rfl, rfl⟩
    | succ n => cases h
  | cons c rest ih =>
    cases offset with
    | zero =>
      obtain rfl := Option.some.inj h
      exact ⟨[], rfl, rfl⟩
    | succ n =>
      rw [sliceFrom] at h
      obtain ⟨hle, h⟩ := Option.ite_none_right_eq_some.mp h
      obtain ⟨front, rfl, hfront⟩ := ih h
      exact ⟨c :: front, rfl, by rw [byteSize_cons, hfront]; omega⟩

/-! ## Boundaries -/

namespace Boundary

variable {t : Text} {i j : ℕ}

theorem zero (t : Text) : Boundary t 0 := ⟨[], t, rfl, rfl⟩

theorem le_size (h : Boundary t i) : i ≤ byteSize t := by
  obtain ⟨front, back, rfl, rfl⟩ := h
  rw [byteSize_append]
  exact Nat.le_add_right _ _

/-- Two offsets cut a text into three. -/
theorem split (hi : Boundary t i) (hj : Boundary t j) (h : i ≤ j) :
    ∃ a b c, t = a ++ (b ++ c) ∧ byteSize a = i ∧ byteSize a + byteSize b = j := by
  obtain ⟨a, back, rfl, rfl⟩ := hi
  obtain ⟨front, c, heq, rfl⟩ := hj
  rcases List.append_eq_append_iff.mp heq with ⟨b, rfl, rfl⟩ | ⟨b, rfl, rfl⟩
  · exact ⟨a, b, c, rfl, rfl, (byteSize_append a b).symm⟩
  · rw [byteSize_append] at h
    obtain rfl : b = [] := byteSize_eq_zero.mp (by omega)
    exact ⟨front, [], back, by simp, by simp, by simp⟩

theorem sliceFrom (h : Boundary t i) : ∃ back, sliceFrom i t = some back := by
  obtain ⟨front, back, rfl, rfl⟩ := h
  exact ⟨back, sliceFrom_append front back⟩

theorem sliceBetween (hi : Boundary t i) (hj : Boundary t j) (h : i ≤ j) :
    ∃ a part c, t = a ++ (part ++ c) ∧ byteSize a = i ∧ byteSize a + byteSize part = j ∧ sliceBetween i j t = some part := by
  obtain ⟨a, b, c, rfl, rfl, rfl⟩ := hi.split hj h
  exact ⟨a, b, c, rfl, rfl, rfl, sliceBetween_append a b c⟩

/-- A boundary past a front is one of what follows it. -/
theorem of_back {front back : Text} (h : Boundary (front ++ back) i) (hle : byteSize front ≤ i) :
    Boundary back (i - byteSize front) := by
  obtain ⟨a, b, heq, rfl⟩ := h
  rcases List.append_eq_append_iff.mp heq with ⟨pre, rfl, rfl⟩ | ⟨rest, rfl, rfl⟩
  · exact ⟨pre, b, rfl, by rw [byteSize_append]; omega⟩
  · rw [byteSize_append] at hle
    obtain rfl : rest = [] := byteSize_eq_zero.mp (by omega)
    exact ⟨[], back, rfl, by simp⟩

/-- A boundary inside a front is one of it. -/
theorem of_front {front back : Text} (h : Boundary (front ++ back) i) (hle : i ≤ byteSize front) : Boundary front i := by
  obtain ⟨a, b, heq, rfl⟩ := h
  rcases List.append_eq_append_iff.mp heq with ⟨rest, rfl, rfl⟩ | ⟨post, rfl, rfl⟩
  · rw [byteSize_append] at hle
    obtain rfl : rest = [] := byteSize_eq_zero.mp (by omega)
    exact ⟨front, [], by simp, by simp⟩
  · exact ⟨a, post, rfl, rfl⟩

/-- What stands between a front and a back has a boundary on either side. -/
theorem around (front part back : Text) :
    Boundary (front ++ (part ++ back)) (byteSize front) ∧ Boundary (front ++ (part ++ back)) (byteSize front + byteSize part) :=
  ⟨⟨front, part ++ back, rfl, rfl⟩, front ++ part, back, (List.append_assoc _ _ _).symm, byteSize_append front part⟩

/-- A boundary of a front is one of the text. -/
theorem front {front back : Text} (h : Boundary front i) : Boundary (front ++ back) i := by
  obtain ⟨a, b, rfl, rfl⟩ := h
  exact ⟨a, b ++ back, List.append_assoc a b back, rfl⟩

end Boundary

/-! ## Bytes of ASCII -/

theorem le_of_not_ascii {c : Char} (h : ¬Ascii c) {b : UInt8} (hb : b ∈ String.utf8EncodeChar c) : 128 ≤ b.toNat := by
  have hlt : ¬c.val.toNat ≤ 127 := fun hle => h (Nat.lt_succ_of_le hle)
  simp only [String.utf8EncodeChar, if_neg hlt] at hb
  split at hb
  · rcases List.mem_pair.mp hb with rfl | rfl
    · simp only [UInt8.toNat_ofNat']
      omega
    · simp only [UInt8.toNat_ofNat']
      omega
  · split at hb
    · simp only [List.mem_cons, List.not_mem_nil, or_false] at hb
      rcases hb with rfl | rfl | rfl <;> simp only [UInt8.toNat_ofNat'] <;> omega
    · simp only [List.mem_cons, List.not_mem_nil, or_false] at hb
      rcases hb with rfl | rfl | rfl | rfl <;> simp only [UInt8.toNat_ofNat'] <;> omega

/-- What stands at a byte of ASCII is a character. -/
theorem char_of_byte {t : Text} {i : ℕ} {b : UInt8} (h : (asBytes t)[i]? = some b) (hb : b.toNat < 128) :
    ∃ front c back, t = front ++ c :: back ∧ byteSize front = i ∧ Ascii c ∧ c.toNat = b.toNat := by
  induction t generalizing i with
  | nil => cases h
  | cons c t ih =>
    change (String.utf8EncodeChar c ++ asBytes t)[i]? = some b at h
    by_cases hi : i < (String.utf8EncodeChar c).length
    · rw [List.getElem?_append_left hi] at h
      by_cases hc : Ascii c
      · rw [utf8EncodeChar_ascii hc] at h hi
        obtain rfl : i = 0 := by simpa using hi
        obtain rfl : UInt8.ofNat c.toNat = b := by simpa using h
        have hlt : c.toNat < 128 := hc
        exact ⟨[], c, t, rfl, rfl, hc, by simp only [UInt8.toNat_ofNat']; omega⟩
      · have hle := le_of_not_ascii hc (List.mem_of_getElem? h)
        omega
    · rw [List.getElem?_append_right (not_lt.mp hi)] at h
      obtain ⟨front, d, back, rfl, hfront, hd⟩ := ih h
      refine ⟨c :: front, d, back, rfl, ?_, hd⟩
      rw [String.length_utf8EncodeChar] at hi hfront
      rw [byteSize_cons, hfront]
      omega

/-- An offset at a byte of ASCII is a boundary, and so is the next. -/
theorem boundary_of_byte {t : Text} {i : ℕ} {b : UInt8} (h : (asBytes t)[i]? = some b) (hb : b.toNat < 128) :
    Boundary t i ∧ Boundary t (i + 1) := by
  obtain ⟨front, c, back, rfl, rfl, hc, -⟩ := char_of_byte h hb
  refine ⟨⟨front, c :: back, rfl, rfl⟩, front ++ [c], back, by simp, ?_⟩
  rw [byteSize_append, byteSize_cons, utf8Size_ascii hc, byteSize_nil]

/-! ## Searches -/

/-- The offset of the first place a pattern stands at. -/
def findText (p t : Text) : Option ℕ := (splitFirst p t).map fun parts => byteSize parts.1

/-- The offset of the first character of a kind. -/
def findWhere (p : Char → Bool) (t : Text) : Option ℕ :=
  if t.any p then some (byteSize (t.takeWhile fun c => !p c)) else none

theorem findText_eq_some {p t : Text} {offset : ℕ} (h : findText p t = some offset) :
    ∃ before after, t = before ++ (p ++ after) ∧ byteSize before = offset := by
  obtain ⟨⟨before, after⟩, hsplit, rfl⟩ := Option.map_eq_some_iff.mp h
  exact ⟨before, after, by rw [splitFirst_eq hsplit, List.append_assoc], rfl⟩

theorem findWhere_eq_some {p : Char → Bool} {t : Text} {offset : ℕ} (h : findWhere p t = some offset) :
    ∃ before c after, t = before ++ c :: after ∧ byteSize before = offset ∧ p c = true ∧ ∀ d ∈ before, p d = false := by
  obtain ⟨hany, hsome⟩ := Option.ite_none_right_eq_some.mp h
  obtain rfl := Option.some.inj hsome
  cases hdrop : t.dropWhile fun c => !p c with
  | nil =>
    rw [List.dropWhile_eq_nil_iff] at hdrop
    obtain ⟨c, hc, hpc⟩ := List.any_eq_true.mp hany
    have hnot := hdrop c hc
    rw [hpc] at hnot
    cases hnot
  | cons c after =>
    have hhead := List.head?_dropWhile_not (fun c => !p c) t
    rw [hdrop] at hhead
    refine ⟨t.takeWhile fun c => !p c, c, after, ?_, rfl, by simpa using hhead, fun d hd => ?_⟩
    · rw [← hdrop, List.takeWhile_append_dropWhile]
    · simpa using List.mem_takeWhile_imp hd

/-- A pattern found beyond an offset stands in the text. -/
theorem text_of_found {p t rest : Text} {cursor index : ℕ} (hrest : sliceFrom cursor t = some rest)
    (h : findText p rest = some index) : ∃ front back, t = front ++ (p ++ back) ∧ byteSize front = cursor + index := by
  obtain ⟨front, rfl, rfl⟩ := sliceFrom_eq_some hrest
  obtain ⟨before, after, rfl, rfl⟩ := findText_eq_some h
  exact ⟨front ++ before, after, (List.append_assoc _ _ _).symm, byteSize_append front before⟩

/-- A character found beyond an offset stands in the text, with none of its kind between. -/
theorem char_of_found {p : Char → Bool} {t rest : Text} {cursor index : ℕ} (hrest : sliceFrom cursor t = some rest)
    (h : findWhere p rest = some index) :
    ∃ front c back, t = front ++ c :: back ∧ byteSize front = cursor + index ∧ p c = true := by
  obtain ⟨front, rfl, rfl⟩ := sliceFrom_eq_some hrest
  obtain ⟨before, c, after, rfl, rfl, hc, -⟩ := findWhere_eq_some h
  exact ⟨front ++ before, c, after, (List.append_assoc _ _ _).symm, byteSize_append front before, hc⟩

theorem byte_of_char (front : Text) {c : Char} (hc : Ascii c) (back : Text) :
    (asBytes (front ++ c :: back))[byteSize front]? = some (UInt8.ofNat c.toNat) := by
  have hbytes : asBytes (c :: back) = UInt8.ofNat c.toNat :: asBytes back := by
    change String.utf8EncodeChar c ++ asBytes back = _
    rw [utf8EncodeChar_ascii hc]
    rfl
  rw [asBytes_append, byteSize, List.getElem?_append_right le_rfl, Nat.sub_self, hbytes]
  rfl

/-! ## Characters and where they stand -/

/-- The characters of a text, each with the offset it starts at. -/
def placed : ℕ → Text → List (ℕ × Char)
  | _, [] => []
  | offset, c :: rest => (offset, c) :: placed (offset + c.utf8Size) rest

theorem placed_append (offset : ℕ) (a b : Text) : placed offset (a ++ b) = placed offset a ++ placed (offset + byteSize a) b := by
  induction a generalizing offset with
  | nil => rfl
  | cons c a ih =>
    rw [List.cons_append, placed, placed, ih, byteSize_cons, Nat.add_assoc]
    rfl

theorem mem_placed {offset : ℕ} {t : Text} {place : ℕ × Char} (h : place ∈ placed offset t) :
    offset ≤ place.1 ∧ place.1 < offset + byteSize t := by
  induction t generalizing offset with
  | nil => cases h
  | cons c t ih =>
    have hpos := c.utf8Size_pos
    rw [byteSize_cons]
    rcases List.mem_cons.mp h with rfl | h
    · exact ⟨le_rfl, by omega⟩
    · have hrest := ih h
      omega

@[simp] theorem map_snd_placed (offset : ℕ) (t : Text) : (placed offset t).map Prod.snd = t := by
  induction t generalizing offset with
  | nil => rfl
  | cons c t ih => rw [placed, List.map_cons, ih]
