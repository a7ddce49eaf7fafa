import Mathlib.Algebra.GroupWithZero.Nat
import Mathlib.Algebra.Ring.Int.Defs
import Mathlib.Data.Char
import Mathlib.Data.List.DropRight
import Mathlib.Data.List.Infix
import Mathlib.Data.List.Lex

/-!
# Scanning text

Text as a list of characters, with the string functions that programs over notes are built
from: trimming, stripping a prefix or suffix, the first and the last occurrence of a pattern,
and splitting into lines and joining them. Each comes with the equation that says which
pieces the text falls into, so that proofs about scanners speak of pieces, not of offsets.
-/

namespace TextScan

abbrev Text := List Char

/-- What all characters of a text are is decided by going through the text, not through the alphabet. -/
instance (priority := high) (t : Text) (p : Char → Prop) [DecidablePred p] : Decidable (∀ c ∈ t, p c) :=
  List.decidableBAll p t

instance : LawfulBEq Text := inferInstanceAs (LawfulBEq (List Char))

/-! ## Trimming -/

/-- The white space characters of Unicode. -/
def isWhitespace (c : Char) : Bool :=
  let n := c.toNat
  (9 ≤ n && n ≤ 13) || n = 0x20 || n = 0x85 || n = 0xA0 || n = 0x1680 || (0x2000 ≤ n && n ≤ 0x200A) ||
    n = 0x2028 || n = 0x2029 || n = 0x202F || n = 0x205F || n = 0x3000

/-- Every character is white space. -/
def Blank (t : Text) : Prop := ∀ c ∈ t, isWhitespace c = true

/-- The text begins with a character that is not white space, or is empty. -/
def Unindented (t : Text) : Prop := ∀ c ∈ t.head?, isWhitespace c = false

/-- The text ends with a character that is not white space, or is empty. -/
def Untrailed (t : Text) : Prop := ∀ c ∈ t.getLast?, isWhitespace c = false

instance (t : Text) : Decidable (Blank t) := List.decidableBAll _ t

instance (t : Text) : Decidable (Unindented t) :=
  Option.decidableForallMem (p := fun c => isWhitespace c = false) (o := t.head?)

instance (t : Text) : Decidable (Untrailed t) :=
  Option.decidableForallMem (p := fun c => isWhitespace c = false) (o := t.getLast?)

def trimStart (t : Text) : Text := t.dropWhile isWhitespace

def trimEnd (t : Text) : Text := t.rdropWhile isWhitespace

def trim (t : Text) : Text := trimEnd (trimStart t)

theorem not_isWhitespace_of_isDigit {c : Char} (h : c.isDigit = true) : isWhitespace c = false := by
  have hrange : 48 ≤ c.toNat ∧ c.toNat ≤ 57 := by
    simp only [Char.isDigit, Bool.and_eq_true, decide_eq_true_eq] at h
    exact ⟨h.1, h.2⟩
  simp only [isWhitespace, Bool.or_eq_false_iff, Bool.and_eq_false_iff, decide_eq_false_iff_not]
  omega

theorem Blank.append {a b : Text} (ha : Blank a) (hb : Blank b) : Blank (a ++ b) := by
  intro c hc
  rcases List.mem_append.mp hc with hc | hc
  · exact ha c hc
  · exact hb c hc

theorem Blank.nil : Blank [] := fun _ hc => absurd hc List.not_mem_nil

/-- A text is its leading white space and the rest. -/
theorem takeWhile_append_trimStart (t : Text) : t.takeWhile isWhitespace ++ trimStart t = t :=
  List.takeWhile_append_dropWhile

theorem blank_takeWhile (t : Text) : Blank (t.takeWhile isWhitespace) :=
  fun _ hc => List.mem_takeWhile_imp hc

/-- A text is the part before its trailing white space, and that white space. -/
theorem trimEnd_append_rtakeWhile (t : Text) : trimEnd t ++ t.rtakeWhile isWhitespace = t :=
  List.rdropWhile_append_rtakeWhile

theorem blank_rtakeWhile (t : Text) : Blank (t.rtakeWhile isWhitespace) :=
  fun _ hc => List.mem_rtakeWhile_imp hc

theorem unindented_trimStart (t : Text) : Unindented (trimStart t) := by
  induction t with
  | nil => exact fun c hc => absurd hc (by simp [trimStart])
  | cons d rest ih =>
    unfold trimStart
    rw [List.dropWhile_cons]
    split
    · exact ih
    · intro c hc
      obtain rfl : d = c := by simpa using hc
      simpa using ‹¬isWhitespace d = true›

theorem trimStart_append_of_blank {a : Text} (ha : Blank a) (t : Text) : trimStart (a ++ t) = trimStart t := by
  induction a with
  | nil => rfl
  | cons c rest ih =>
    have hc : isWhitespace c = true := ha c List.mem_cons_self
    rw [List.cons_append, trimStart, List.dropWhile_cons, if_pos hc]
    exact ih fun d hd => ha d (List.mem_cons_of_mem c hd)

theorem unindented_cons {c : Char} (hc : isWhitespace c = false) (rest : Text) : Unindented (c :: rest) := by
  intro d hd
  obtain rfl : c = d := by simpa using hd
  exact hc

theorem trimStart_of_unindented {t : Text} (h : Unindented t) : trimStart t = t := by
  cases t with
  | nil => rfl
  | cons c rest =>
    have hc : isWhitespace c = false := h c rfl
    rw [trimStart, List.dropWhile_cons, if_neg (by simp [hc])]

theorem takeWhile_of_unindented {t : Text} (h : Unindented t) : t.takeWhile isWhitespace = [] := by
  cases t with
  | nil => rfl
  | cons c rest =>
    have hc : isWhitespace c = false := h c rfl
    rw [List.takeWhile_cons, if_neg (by simp [hc])]

theorem trimEnd_eq_reverse (t : Text) : trimEnd t = (trimStart t.reverse).reverse := rfl

theorem trimEnd_append_of_blank {a : Text} (ha : Blank a) (t : Text) : trimEnd (t ++ a) = trimEnd t := by
  have hblank : Blank a.reverse := fun c hc => ha c (List.mem_reverse.mp hc)
  rw [trimEnd_eq_reverse, List.reverse_append, trimStart_append_of_blank hblank, ← trimEnd_eq_reverse]

theorem untrailed_trimEnd (t : Text) : Untrailed (trimEnd t) := by
  intro c hc
  rw [trimEnd_eq_reverse, List.getLast?_reverse] at hc
  exact unindented_trimStart t.reverse c hc

theorem trimEnd_of_untrailed {t : Text} (h : Untrailed t) : trimEnd t = t := by
  have hrev : Unindented t.reverse := by
    intro c hc
    rw [List.head?_reverse] at hc
    exact h c hc
  rw [trimEnd_eq_reverse, trimStart_of_unindented hrev, List.reverse_reverse]

theorem blank_iff_trimStart {t : Text} : Blank t ↔ trimStart t = [] := by
  simp [Blank, trimStart, List.dropWhile_eq_nil_iff]

/-- Trimming the end keeps the start of a text that is not blank. -/
theorem Unindented.trimEnd {t : Text} (h : Unindented t) : Unindented (trimEnd t) := by
  intro c hc
  obtain ⟨rest, hrest⟩ : ∃ rest, TextScan.trimEnd t = c :: rest := by
    cases ht : TextScan.trimEnd t with
    | nil => simp [ht] at hc
    | cons d rest => exact ⟨rest, by simpa [ht] using hc⟩
  have hsplit := trimEnd_append_rtakeWhile t
  rw [hrest] at hsplit
  exact h c (by rw [← hsplit]; rfl)

theorem unindented_trim (t : Text) : Unindented (trim t) := (unindented_trimStart t).trimEnd

theorem untrailed_trim (t : Text) : Untrailed (trim t) := untrailed_trimEnd _

theorem trim_of_tight {t : Text} (hstart : Unindented t) (hend : Untrailed t) : trim t = t := by
  rw [trim, trimStart_of_unindented hstart, trimEnd_of_untrailed hend]

@[simp] theorem trim_trim (t : Text) : trim (trim t) = trim t :=
  trim_of_tight (unindented_trim t) (untrailed_trim t)

/-- Nothing is left of a text exactly when it is blank. -/
theorem trim_eq_nil_iff {t : Text} : trim t = [] ↔ Blank t := by
  constructor
  · intro h
    have hrest := trimEnd_append_rtakeWhile (trimStart t)
    have hstart : Blank (trimStart t) := by
      rw [show trimEnd (trimStart t) = [] from h, List.nil_append] at hrest
      exact hrest ▸ blank_rtakeWhile (trimStart t)
    exact takeWhile_append_trimStart t ▸ (blank_takeWhile t).append hstart
  · intro h
    rw [trim, blank_iff_trimStart.mp h]
    rfl

/-- A trimmed text is a stretch of it. -/
theorem trim_isInfix (t : Text) : trim t <:+: t :=
  (List.rdropWhile_prefix _ _).isInfix.trans (List.dropWhile_suffix _).isInfix

/-- A text that is not blank keeps its first characters where more follows. -/
theorem trimStart_append {t : Text} (h : ¬Blank t) (rest : Text) : trimStart (t ++ rest) = trimStart t ++ rest := by
  conv_lhs => rw [← takeWhile_append_trimStart t, List.append_assoc, trimStart_append_of_blank (blank_takeWhile t)]
  apply trimStart_of_unindented
  cases hstart : trimStart t with
  | nil => exact absurd (blank_iff_trimStart.mpr hstart) h
  | cons c more => exact unindented_cons (unindented_trimStart t c (by rw [hstart]; rfl)) _

/-- White space at the end is trimmed. -/
theorem trim_append_of_blank {a : Text} (ha : Blank a) (t : Text) : trim (t ++ a) = trim t := by
  by_cases ht : Blank t
  · rw [trim, trim, trimStart_append_of_blank ht, blank_iff_trimStart.mp ht, blank_iff_trimStart.mp ha]
  · rw [trim, trimStart_append ht, trimEnd_append_of_blank ha]
    rfl

/-- White space in front is trimmed. -/
theorem trim_append_of_blank_left {a : Text} (ha : Blank a) (t : Text) : trim (a ++ t) = trim t := by
  rw [trim, trimStart_append_of_blank ha]
  rfl

theorem trim_trimStart (t : Text) : trim (trimStart t) = trim t := by
  conv_rhs => rw [← takeWhile_append_trimStart t, trim_append_of_blank_left (blank_takeWhile t)]

/-- A text that is not blank keeps what stands before it. -/
theorem trimEnd_append {t : Text} (h : ¬Blank t) (front : Text) : trimEnd (front ++ t) = front ++ trimEnd t := by
  have hrev : ¬Blank t.reverse := fun hblank => h fun c hc => hblank c (List.mem_reverse.mpr hc)
  rw [trimEnd_eq_reverse, trimEnd_eq_reverse, List.reverse_append, trimStart_append hrev, List.reverse_append,
    List.reverse_reverse]

theorem Blank.not_mem {t : Text} (h : Blank t) {c : Char} (hc : isWhitespace c = false) : c ∉ t := fun hmem => by
  rw [h c hmem] at hc
  cases hc

theorem Blank.head?_ne {t : Text} (h : Blank t) {c : Char} (hc : isWhitespace c = false) : t.head? ≠ some c := fun hhead =>
  h.not_mem hc (List.mem_of_head? hhead)

theorem trimEnd_isPrefix (t : Text) : trimEnd t <+: t := List.rdropWhile_prefix _ _

/-! ## Prefixes, suffixes and occurrences -/

def stripPrefix (p t : Text) : Option Text := if p.isPrefixOf t then some (t.drop p.length) else none

def stripSuffix (p t : Text) : Option Text :=
  if p.isSuffixOf t then some (t.take (t.length - p.length)) else none

@[simp] theorem stripPrefix_eq_some {p t rest : Text} : stripPrefix p t = some rest ↔ t = p ++ rest := by
  unfold stripPrefix
  constructor
  · intro h
    split at h
    · rename_i hp
      obtain rfl := Option.some.inj h
      exact (List.prefix_iff_eq_append.mp (List.isPrefixOf_iff_prefix.mp hp)).symm
    · cases h
  · rintro rfl
    rw [if_pos (by rw [List.isPrefixOf_iff_prefix]; exact List.prefix_append _ _), List.drop_left]

@[simp] theorem stripSuffix_eq_some {p t rest : Text} : stripSuffix p t = some rest ↔ t = rest ++ p := by
  unfold stripSuffix
  constructor
  · intro h
    split at h
    · rename_i hp
      obtain rfl := Option.some.inj h
      exact (List.suffix_iff_eq_append.mp (List.isSuffixOf_iff_suffix.mp hp)).symm
    · cases h
  · rintro rfl
    rw [if_pos (by rw [List.isSuffixOf_iff_suffix]; exact List.suffix_append _ _), List.length_append,
      Nat.add_sub_cancel, List.take_left]

/-- The text before and after the first occurrence of a pattern. -/
def splitFirst (p : Text) : Text → Option (Text × Text)
  | [] => if p.isEmpty then some ([], []) else none
  | c :: rest =>
    if p.isPrefixOf (c :: rest) then some ([], (c :: rest).drop p.length)
    else (splitFirst p rest).map fun r => (c :: r.1, r.2)

/-- The text before and after the last occurrence of a pattern. -/
def splitLast (p t : Text) : Option (Text × Text) :=
  (splitFirst p.reverse t.reverse).map fun r => (r.2.reverse, r.1.reverse)

/-- The pieces of a first occurrence are the text. -/
theorem splitFirst_eq {p t before after : Text} (h : splitFirst p t = some (before, after)) :
    t = before ++ p ++ after := by
  induction t generalizing before with
  | nil =>
    unfold splitFirst at h
    split at h
    · obtain ⟨rfl, rfl⟩ := Prod.mk.inj (Option.some.inj h)
      simpa using ‹p.isEmpty = true›
    · cases h
  | cons c rest ih =>
    unfold splitFirst at h
    split at h
    · rename_i hp
      obtain ⟨rfl, rfl⟩ := Prod.mk.inj (Option.some.inj h)
      exact (List.prefix_iff_eq_append.mp (List.isPrefixOf_iff_prefix.mp hp)).symm
    · obtain ⟨⟨b, a⟩, hr, heq⟩ := Option.map_eq_some_iff.mp h
      obtain ⟨rfl, rfl⟩ := Prod.mk.inj heq
      rw [ih hr]
      simp

/-- A text that holds a pattern has a first occurrence of it. -/
theorem splitFirst_isSome (p before after : Text) : (splitFirst p (before ++ p ++ after)).isSome = true := by
  induction before with
  | nil =>
    cases h : [] ++ p ++ after with
    | nil =>
      have hp : p = [] := by simpa using (List.append_eq_nil_iff.mp h).1
      simp [splitFirst, hp]
    | cons c rest =>
      have hp : p.isPrefixOf (c :: rest) = true := by
        rw [← h, List.isPrefixOf_iff_prefix]
        exact ⟨after, rfl⟩
      simp [splitFirst, hp]
  | cons c rest ih =>
    rw [List.cons_append, List.cons_append]
    unfold splitFirst
    split
    · rfl
    · simpa using ih

/-- The pieces of a last occurrence are the text. -/
theorem splitLast_eq {p t before after : Text} (h : splitLast p t = some (before, after)) :
    t = before ++ p ++ after := by
  obtain ⟨⟨b, a⟩, hr, heq⟩ := Option.map_eq_some_iff.mp h
  obtain ⟨rfl, rfl⟩ := Prod.mk.inj heq
  have hrev := congrArg List.reverse (splitFirst_eq hr)
  rw [List.reverse_reverse] at hrev
  rw [hrev]
  simp

/-- The last occurrence in a text with one more character is at its end, or was the last one before. -/
theorem splitLast_append_singleton (p t : Text) (c : Char) :
    splitLast p (t ++ [c]) =
      if p.isSuffixOf (t ++ [c]) then some ((t ++ [c]).take (t.length + 1 - p.length), [])
      else (splitLast p t).map fun r => (r.1, r.2 ++ [c]) := by
  have hrev : (t ++ [c]).reverse = c :: t.reverse := by simp
  have hsuffix : p.isSuffixOf (t ++ [c]) = p.reverse.isPrefixOf (c :: t.reverse) := by
    rw [← hrev]
    rfl
  rw [splitLast, hrev, hsuffix]
  unfold splitFirst
  split
  · have hdrop : ((c :: t.reverse).drop p.reverse.length).reverse = (t ++ [c]).take (t.length + 1 - p.length) := by
      rw [← hrev, List.drop_reverse, List.reverse_reverse]
      simp
    simp only [Option.map_some, List.reverse_nil, hdrop]
  · rw [splitLast, Option.map_map, Option.map_map]
    apply Option.map_congr
    intro r _
    simp

/-- A pattern holding a character that is found neither in its own beginning nor before its
occurrence starts there first. -/
theorem splitFirst_of_mid (p' p'' : Text) {before : Text} (after : Text) {c : Char} (hbefore : c ∉ before)
    (hp' : c ∉ p') : splitFirst (p' ++ c :: p'') (before ++ (p' ++ c :: p'') ++ after) = some (before, after) := by
  induction before with
  | nil =>
    rw [List.nil_append]
    cases ht : (p' ++ c :: p'') ++ after with
    | nil => simp at ht
    | cons d rest =>
      unfold splitFirst
      rw [← ht, if_pos (by rw [List.isPrefixOf_iff_prefix]; exact List.prefix_append _ _), List.drop_left]
  | cons d rest ih =>
    have hearlier : ¬ (p' ++ c :: p'').isPrefixOf (d :: rest ++ (p' ++ c :: p'') ++ after) = true := by
      rw [List.isPrefixOf_iff_prefix]
      rintro ⟨tail, htail⟩
      have hat : (d :: rest ++ p' ++ (c :: p'' ++ after))[p'.length]? = some c := by
        have heq : d :: rest ++ p' ++ (c :: p'' ++ after) = p' ++ (c :: p'' ++ tail) := by
          simpa using htail.symm
        rw [heq, List.getElem?_append_right le_rfl]
        simp
      rw [List.getElem?_append_left (by rw [List.length_append, List.length_cons]; omega)] at hat
      rcases List.mem_append.mp (List.mem_of_getElem? hat) with hmem | hmem
      · exact hbefore hmem
      · exact hp' hmem
    change (if (p' ++ c :: p'').isPrefixOf (d :: rest ++ (p' ++ c :: p'') ++ after) = true then _
      else Option.map _ (splitFirst _ (rest ++ (p' ++ c :: p'') ++ after))) = _
    rw [if_neg hearlier, ih fun hmem => hbefore (List.mem_cons_of_mem _ hmem)]
    rfl

/-- A pattern that ends in a character found nowhere before its occurrence starts there first. -/
theorem splitFirst_of_last (p' : Text) {before : Text} (after : Text) {c : Char} (hbefore : c ∉ before) (hp' : c ∉ p') :
    splitFirst (p' ++ [c]) (before ++ (p' ++ [c]) ++ after) = some (before, after) :=
  splitFirst_of_mid p' [] after hbefore hp'

/-- A pattern holding a character that is found neither in its own end nor after its occurrence
is there last. -/
theorem splitLast_of_mid (p' p'' before : Text) {after : Text} {c : Char} (hafter : c ∉ after) (hp'' : c ∉ p'') :
    splitLast (p' ++ c :: p'') (before ++ (p' ++ c :: p'') ++ after) = some (before, after) := by
  have hfirst : splitFirst (p''.reverse ++ c :: p'.reverse)
      (after.reverse ++ (p''.reverse ++ c :: p'.reverse) ++ before.reverse) = some (after.reverse, before.reverse) :=
    splitFirst_of_mid _ _ _ (by simpa using hafter) (by simpa using hp'')
  have hpattern : (p' ++ c :: p'').reverse = p''.reverse ++ c :: p'.reverse := by simp
  have htext : (before ++ (p' ++ c :: p'') ++ after).reverse =
      after.reverse ++ (p''.reverse ++ c :: p'.reverse) ++ before.reverse := by simp
  rw [splitLast, hpattern, htext, hfirst]
  simp

/-- A pattern that begins with a character found nowhere after its occurrence ends the text last. -/
theorem splitLast_of_head (p' before : Text) {after : Text} {c : Char} (hafter : c ∉ after) (hp' : c ∉ p') :
    splitLast (c :: p') (before ++ (c :: p') ++ after) = some (before, after) :=
  splitLast_of_mid [] p' before hafter hp'

/-- Replace every occurrence of a pattern, from the left and without overlaps; `skip` characters
belong to an occurrence already replaced. -/
def replaceFrom (p new : Text) : ℕ → Text → Text
  | _, [] => []
  | skip + 1, _ :: rest => replaceFrom p new skip rest
  | 0, c :: rest =>
    if p.isPrefixOf (c :: rest) then new ++ replaceFrom p new (p.length - 1) rest
    else c :: replaceFrom p new 0 rest

def replaceAll (p new t : Text) : Text := replaceFrom p new 0 t

/-! ## Lines -/

/-- The pieces between line feeds. -/
def pieces (t : Text) : List Text := t.splitOn '\n'

/-- A line without the carriage return that ends it. -/
def chomp (t : Text) : Text := (stripSuffix ['\r'] t).getD t

theorem trimEnd_chomp (t : Text) : trimEnd (chomp t) = trimEnd t := by
  unfold chomp
  cases hstrip : stripSuffix ['\r'] t with
  | none => rfl
  | some rest =>
    rw [stripSuffix_eq_some] at hstrip
    rw [hstrip, trimEnd_append_of_blank (by decide)]
    rfl

/-- The lines of a text, as `str::lines` gives them. -/
def lines (t : Text) : List Text :=
  (pieces t).dropLast.map chomp ++
    match (pieces t).getLast? with
    | some (c :: rest) => [c :: rest]
    | _ => []

/-- Lines joined by line feeds. -/
def joinLines (ls : List Text) : Text := ['\n'].intercalate ls

/-- A text without line feeds is one piece. -/
theorem pieces_of_no_newline {t : Text} (h : '\n' ∉ t) : pieces t = [t] := List.splitOn_eq_singleton h

/-- A line feed separates the pieces before it from those after it. -/
theorem pieces_append_newline (a b : Text) : pieces (a ++ '\n' :: b) = pieces a ++ pieces b :=
  List.splitOn_append_cons_self a b

/-- No part of a split holds a separator. -/
theorem not_of_mem_splitOnP {p : Char → Bool} {t part : Text} (h : part ∈ t.splitOnP p) :
    ∀ c ∈ part, p c = false := by
  induction t generalizing part with
  | nil =>
    rw [List.splitOnP_nil, List.mem_singleton] at h
    simp [h]
  | cons c rest ih =>
    rw [List.splitOnP_cons_eq_if_modifyHead] at h
    split at h
    · rcases List.mem_cons.mp h with rfl | h
      · simp
      · exact ih h
    · rename_i hc
      have hc : p c = false := by simpa using hc
      cases hp : List.splitOnP p rest with
      | nil => exact absurd hp (List.splitOnP_ne_nil _ _)
      | cons q qs =>
        rw [hp, List.modifyHead_cons] at h
        rcases List.mem_cons.mp h with rfl | h
        · intro d hd
          rcases List.mem_cons.mp hd with rfl | hd
          · exact hc
          · exact ih (by rw [hp]; exact List.mem_cons_self) d hd
        · exact ih (by rw [hp]; exact List.mem_cons_of_mem q h)

/-- The parts of a text joined are the text without what was cut at. -/
theorem flatten_splitOnP (p : Char → Bool) (t : Text) : (t.splitOnP p).flatten = t.filter fun c => !p c := by
  induction t with
  | nil => rfl
  | cons c t ih =>
    rw [List.splitOnP_cons_eq_if_modifyHead]
    by_cases hc : p c = true
    · rw [if_pos hc, List.flatten_cons, List.nil_append, ih, List.filter_cons_of_neg (by simp [hc])]
    · rw [if_neg hc, List.filter_cons_of_pos (by simp [hc]), ← ih]
      cases hsplit : t.splitOnP p with
      | nil => exact absurd hsplit (List.splitOnP_ne_nil _ _)
      | cons part parts => rfl

/-- No piece holds a line feed. -/
theorem no_newline_of_mem_pieces {t p : Text} (h : p ∈ pieces t) : '\n' ∉ p := by
  intro hmem
  rw [pieces, List.splitOn_eq_splitOnP] at h
  exact absurd (not_of_mem_splitOnP h '\n' hmem) (by decide)

/-- A joined text holds what its parts and the separator hold. -/
theorem mem_intercalate {sep : Text} {parts : List Text} {c : Char} (h : c ∈ sep.intercalate parts) :
    c ∈ sep ∨ ∃ part ∈ parts, c ∈ part := by
  induction parts with
  | nil => cases h
  | cons part rest ih =>
    cases rest with
    | nil => exact Or.inr ⟨part, List.mem_cons_self, by simpa [List.intercalate] using h⟩
    | cons next rest =>
      have hjoin : sep.intercalate (part :: next :: rest) = part ++ (sep ++ sep.intercalate (next :: rest)) := by
        simp [List.intercalate, List.intersperse]
      rw [hjoin, List.mem_append, List.mem_append] at h
      rcases h with h | h | h
      · exact Or.inr ⟨part, List.mem_cons_self, h⟩
      · exact Or.inl h
      · exact (ih h).imp_right fun ⟨q, hq, hc⟩ => ⟨q, List.mem_cons_of_mem part hq, hc⟩

/-- No line holds a line feed. -/
theorem no_newline_of_mem_lines {t l : Text} (h : l ∈ lines t) : '\n' ∉ l := by
  unfold lines at h
  rcases List.mem_append.mp h with h | h
  · obtain ⟨p, hp, rfl⟩ := List.mem_map.mp h
    have hpiece := no_newline_of_mem_pieces (List.mem_of_mem_dropLast hp)
    unfold chomp
    cases hstrip : stripSuffix ['\r'] p with
    | none => exact hpiece
    | some rest =>
      rw [stripSuffix_eq_some] at hstrip
      exact fun hmem => hpiece (by rw [hstrip]; exact List.mem_append_left _ hmem)
  · split at h
    · rename_i c rest hlast
      rw [List.mem_singleton.mp h]
      exact no_newline_of_mem_pieces (List.mem_of_getLast? hlast)
    · cases h

/-- Joining lines joins their pieces. -/
theorem pieces_joinLines {ls : List Text} (h : ls ≠ []) : pieces (joinLines ls) = ls.flatMap pieces := by
  induction ls with
  | nil => exact absurd rfl h
  | cons l rest ih =>
    cases rest with
    | nil => simp [joinLines, List.intercalate]
    | cons m rest =>
      have hjoin : joinLines (l :: m :: rest) = l ++ '\n' :: joinLines (m :: rest) := by
        simp [joinLines, List.intercalate, List.intersperse]
      rw [hjoin, pieces_append_newline, ih (by simp), List.flatMap_cons, List.flatMap_cons,
        List.flatMap_cons]

end TextScan
