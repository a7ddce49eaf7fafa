import Thock.Lib.TextScan

/-!
# Occurrences of a pattern

Where a pattern occurs in a text that was put together from parts. A character that the
pattern does not hold keeps an occurrence on one side of it, and a pattern that does not hold
its own first character again never overlaps itself, so splitting at it finds every occurrence.
-/

namespace TextScan

/-! ## Splitting -/

/-- The text before the first occurrence of a pattern, or all of it. -/
def firstPart (p t : Text) : Text := ((splitFirst p t).map Prod.fst).getD t

/-- The parts between the occurrences of a pattern, from the left and without overlaps; `skip`
characters belong to an occurrence already passed. -/
def splitFrom (p : Text) : ℕ → Text → List Text
  | _, [] => [[]]
  | skip + 1, _ :: rest => splitFrom p skip rest
  | 0, c :: rest =>
    if p.isPrefixOf (c :: rest) then [] :: splitFrom p (p.length - 1) rest
    else (splitFrom p 0 rest).modifyHead (c :: ·)

def splitText (p t : Text) : List Text := splitFrom p 0 t

/-! ## One occurrence and a separating character -/

section Separator
variable {p a b before after : Text} {c : Char}

/-- An occurrence lies before or after a character that the pattern does not hold. -/
theorem occurrence_sep (hc : c ∉ p) (h : a ++ c :: b = before ++ p ++ after) :
    (∃ rest, a = before ++ p ++ rest ∧ after = rest ++ c :: b) ∨
      ∃ more, before = a ++ c :: more ∧ b = more ++ p ++ after := by
  rcases List.append_eq_append_iff.mp h with ⟨mid, hmid, hrest⟩ | ⟨rest, ha, hafter⟩
  · cases mid with
    | nil => exact Or.inl ⟨[], by simpa using hmid.symm, by simpa using hrest.symm⟩
    | cons d mid =>
      rw [List.cons_append] at hrest
      obtain ⟨rfl, rfl⟩ := List.cons.inj hrest
      rcases List.append_eq_append_iff.mp hmid with ⟨x, -, hp⟩ | ⟨x, hbefore, hx⟩
      · exact absurd (by rw [hp]; simp) hc
      · cases x with
        | nil => exact absurd (by rw [← show _ = p from hx]; simp) hc
        | cons e x =>
          rw [List.cons_append] at hx
          obtain ⟨rfl, rfl⟩ := List.cons.inj hx
          exact Or.inr ⟨x, hbefore, rfl⟩
  · exact Or.inl ⟨rest, ha, hafter⟩

theorem infix_sep (hc : c ∉ p) : p <:+: a ++ c :: b ↔ p <:+: a ∨ p <:+: b := by
  constructor
  · rintro ⟨before, after, h⟩
    rcases occurrence_sep hc h.symm with ⟨rest, ha, -⟩ | ⟨more, -, hb⟩
    · exact Or.inl ⟨before, rest, ha.symm⟩
    · exact Or.inr ⟨more, after, hb.symm⟩
  · rintro (h | h)
    · exact h.trans (List.prefix_append _ _).isInfix
    · exact h.trans ((List.suffix_cons c b).isInfix.trans (List.suffix_append _ _).isInfix)

/-- A pattern is not found where one of its characters is missing. -/
theorem not_infix_of_not_mem (hmem : c ∈ p) (h : c ∉ a) : ¬p <:+: a := fun hp => h (hp.mem hmem)

/-- No occurrence of a pattern lies across the place where two texts meet. -/
def Apart (p a b : Text) : Prop :=
  ∀ before after, a ++ b = before ++ p ++ after →
    (∃ rest, a = before ++ p ++ rest ∧ after = rest ++ b) ∨ ∃ more, before = a ++ more ∧ b = more ++ p ++ after

theorem apart_nil (p b : Text) : Apart p [] b := fun before _ h => Or.inr ⟨before, rfl, h⟩

theorem apart_concat (hc : c ∉ p) (a b : Text) : Apart p (a ++ [c]) b := by
  intro before after h
  rw [List.append_assoc] at h
  rcases occurrence_sep hc h with ⟨rest, ha, hafter⟩ | ⟨more, hbefore, hb⟩
  · exact Or.inl ⟨rest ++ [c], by rw [ha]; simp, by rw [hafter]; simp⟩
  · exact Or.inr ⟨more, by rw [hbefore]; simp, hb⟩

theorem apart_cons (hc : c ∉ p) (a b : Text) : Apart p a (c :: b) := by
  intro before after h
  rcases occurrence_sep hc h with ⟨rest, ha, hafter⟩ | ⟨more, hbefore, hb⟩
  · exact Or.inl ⟨rest, ha, hafter⟩
  · exact Or.inr ⟨c :: more, hbefore, by rw [hb]; simp⟩

/-- A pattern that holds its first character only once begins before such a character or at it. -/
theorem apart_head (hc : c ∉ p) (a b : Text) : Apart (c :: p) a (c :: b) := by
  intro before after h
  rw [List.append_assoc] at h
  rcases List.append_eq_append_iff.mp h with ⟨more, hbefore, hb⟩ | ⟨mid, ha, hmid⟩
  · exact Or.inr ⟨more, hbefore, by rw [hb]; simp⟩
  · cases mid with
    | nil =>
      refine Or.inr ⟨[], by rw [ha]; simp, ?_⟩
      rw [List.nil_append] at hmid
      rw [← hmid, List.nil_append]
    | cons d mid =>
      rw [List.cons_append, List.cons_append] at hmid
      obtain ⟨rfl, hrest⟩ := List.cons.inj hmid
      rcases List.append_eq_append_iff.mp hrest with ⟨rest, hmore, hafter⟩ | ⟨x, hp, hx⟩
      · exact Or.inl ⟨rest, by rw [ha, hmore]; simp, hafter⟩
      · cases x with
        | nil =>
          rw [List.append_nil] at hp
          exact Or.inl ⟨[], by rw [ha, hp]; simp, by simpa using hx.symm⟩
        | cons e x =>
          obtain ⟨rfl, -⟩ := List.cons.inj hx
          exact absurd (by rw [hp]; simp) hc

/-- A text without the pattern's first character holds the beginning of no occurrence. -/
theorem apart_of_not_mem (hc : c ∉ a) (b : Text) : Apart (c :: p) a b := by
  intro before after h
  rw [List.append_assoc] at h
  rcases List.append_eq_append_iff.mp h with ⟨more, hbefore, hb⟩ | ⟨mid, ha, hmid⟩
  · exact Or.inr ⟨more, hbefore, by rw [hb]; simp⟩
  · cases mid with
    | nil => exact Or.inr ⟨[], by rw [ha]; simp, by simpa using hmid.symm⟩
    | cons d mid =>
      obtain ⟨rfl, -⟩ := List.cons.inj hmid
      exact absurd (by rw [ha]; simp) hc

/-- Where a text holds the pattern's first character only in front, the pattern begins it. -/
theorem infix_cons_of_not_mem (hc : c ∉ a) : (c :: p) <:+: c :: a ↔ p <+: a := by
  rw [List.infix_cons_iff]
  constructor
  · rintro (h | h)
    · exact (List.cons_prefix_cons.mp h).2
    · exact absurd h (not_infix_of_not_mem List.mem_cons_self hc)
  · intro h
    exact Or.inl (List.cons_prefix_cons.mpr ⟨rfl, h⟩)

theorem infix_apart (h : Apart p a b) : p <:+: a ++ b ↔ p <:+: a ∨ p <:+: b := by
  constructor
  · rintro ⟨before, after, hoccurs⟩
    rcases h before after hoccurs.symm with ⟨rest, ha, -⟩ | ⟨more, -, hb⟩
    · exact Or.inl ⟨before, rest, ha.symm⟩
    · exact Or.inr ⟨more, after, hb.symm⟩
  · rintro (h | h)
    · exact h.trans (List.prefix_append _ _).isInfix
    · exact h.trans (List.suffix_append _ _).isInfix

end Separator

/-! ## Parts before an occurrence -/

theorem firstPart_of_none {p t : Text} (h : splitFirst p t = none) : firstPart p t = t := by
  rw [firstPart, h]
  rfl

theorem splitFirst_eq_none {p t : Text} (h : ¬p <:+: t) : splitFirst p t = none := by
  cases hsplit : splitFirst p t with
  | none => rfl
  | some r => exact absurd ⟨r.1, r.2, (@splitFirst_eq _ _ r.1 r.2 hsplit).symm⟩ h

theorem splitFirst_none {p t : Text} : splitFirst p t = none ↔ ¬p <:+: t := by
  constructor
  · rintro h ⟨before, after, rfl⟩
    have hsome := splitFirst_isSome p before after
    rw [h] at hsome
    cases hsome
  · exact splitFirst_eq_none

/-- No occurrence of a pattern begins before the first one. -/
theorem splitFirst_le {p t u v : Text} {r : Text × Text} (h : splitFirst p t = some r) (huv : t = u ++ p ++ v) :
    r.1.length ≤ u.length := by
  induction u generalizing t r with
  | nil =>
    have hprefix : p <+: t := ⟨v, huv.symm⟩
    cases t with
    | nil =>
      rw [splitFirst, if_pos (by simpa using hprefix)] at h
      obtain rfl := Option.some.inj h
      exact le_rfl
    | cons d t =>
      rw [splitFirst, if_pos (by rwa [List.isPrefixOf_iff_prefix])] at h
      obtain rfl := Option.some.inj h
      exact le_rfl
  | cons d u ih =>
    subst huv
    rw [List.cons_append, List.cons_append, splitFirst] at h
    split at h
    · obtain rfl := Option.some.inj h
      exact Nat.zero_le _
    · obtain ⟨r, hr, rfl⟩ := Option.map_eq_some_iff.mp h
      simpa using ih hr rfl

theorem firstPart_of_not_isInfix {p t : Text} (h : ¬p <:+: t) : firstPart p t = t :=
  firstPart_of_none (splitFirst_eq_none h)

theorem Apart.tail {p a b : Text} {d : Char} (h : Apart p (d :: a) b) : Apart p a b := by
  intro before after hoccurs
  rcases h (d :: before) after (by rw [List.cons_append, hoccurs]; simp) with ⟨rest, ha, hafter⟩ | ⟨more, hbefore, hb⟩
  · rw [List.cons_append, List.cons_append] at ha
    exact Or.inl ⟨rest, (List.cons.inj ha).2, hafter⟩
  · exact Or.inr ⟨more, (List.cons.inj hbefore).2, hb⟩

theorem Apart.suffix {p u v b : Text} (h : Apart p (u ++ v) b) : Apart p v b := by
  induction u with
  | nil => exact h
  | cons d u ih => exact ih h.tail

/-- A text that neither holds the pattern nor meets it half way stands before its first occurrence. -/
theorem splitFirst_apart {p a b : Text} (ha : ¬p <:+: a) (hapart : Apart p a b) :
    splitFirst p (a ++ b) = (splitFirst p b).map fun r => (a ++ r.1, r.2) := by
  induction a with
  | nil => simp
  | cons d a ih =>
    have hlater : ¬p <:+: a := fun h => ha (h.trans (List.suffix_cons d a).isInfix)
    have hhere : ¬p.isPrefixOf (d :: (a ++ b)) = true := by
      rw [List.isPrefixOf_iff_prefix]
      rintro ⟨after, hafter⟩
      rcases hapart [] after (by rw [List.cons_append, ← hafter]; simp) with ⟨rest, hrest, -⟩ | ⟨more, hmore, -⟩
      · exact ha ⟨[], rest, hrest.symm⟩
      · cases hmore
    rw [List.cons_append]
    change (if p.isPrefixOf (d :: (a ++ b)) then _ else Option.map _ (splitFirst p (a ++ b))) = _
    rw [if_neg hhere, ih hlater hapart.tail, Option.map_map]
    rfl

theorem splitFirst_self {p : Text} (hp : p ≠ []) (b : Text) : splitFirst p (p ++ b) = some ([], b) := by
  obtain ⟨c, p', rfl⟩ := List.exists_cons_of_ne_nil hp
  have hprefix : (c :: p').isPrefixOf (c :: (p' ++ b)) = true := by
    rw [List.isPrefixOf_iff_prefix]
    exact List.prefix_append (c :: p') b
  rw [List.cons_append, splitFirst, if_pos hprefix]
  simp

/-- What follows a text that holds the pattern does not change its first occurrence. -/
theorem splitFirst_of_isInfix {p a : Text} (ha : p <:+: a) (b : Text) :
    splitFirst p (a ++ b) = (splitFirst p a).map fun r => (r.1, r.2 ++ b) := by
  induction a with
  | nil =>
    obtain rfl := List.infix_nil.mp ha
    cases b <;> simp [splitFirst]
  | cons d a ih =>
    rw [List.cons_append]
    change (if p.isPrefixOf (d :: (a ++ b)) then _ else Option.map _ (splitFirst p (a ++ b))) =
      Option.map _ (if p.isPrefixOf (d :: a) then _ else Option.map _ (splitFirst p a))
    by_cases hhere : p <+: d :: a
    · have hlong : p <+: d :: (a ++ b) := hhere.trans (List.prefix_append (d :: a) b)
      have hdrop : (d :: (a ++ b)).drop p.length = (d :: a).drop p.length ++ b :=
        List.drop_append_of_le_length hhere.length_le
      rw [if_pos (by rwa [List.isPrefixOf_iff_prefix]), if_pos (by rwa [List.isPrefixOf_iff_prefix]), hdrop]
      rfl
    · have hlater : p <:+: a := (List.infix_cons_iff.mp ha).resolve_left hhere
      have hlong : ¬p <+: d :: (a ++ b) := by
        intro h
        exact hhere (List.prefix_of_prefix_length_le h (List.prefix_append (d :: a) b) ha.length_le)
      rw [if_neg (by rwa [List.isPrefixOf_iff_prefix]), if_neg (by rwa [List.isPrefixOf_iff_prefix]), ih hlater,
        Option.map_map, Option.map_map]
      rfl

theorem firstPart_apart {p a b : Text} (ha : ¬p <:+: a) (hapart : Apart p a b) :
    firstPart p (a ++ b) = a ++ firstPart p b := by
  unfold firstPart
  rw [splitFirst_apart ha hapart]
  cases splitFirst p b <;> rfl

/-- Text without the first character of the pattern stands before its first occurrence. -/
theorem firstPart_append {c : Char} {p' a : Text} (b : Text) (ha : c ∉ a) :
    firstPart (c :: p') (a ++ b) = a ++ firstPart (c :: p') b :=
  firstPart_apart (not_infix_of_not_mem List.mem_cons_self ha) (apart_of_not_mem ha b)

theorem firstPart_of_isInfix {p a : Text} (ha : p <:+: a) (b : Text) : firstPart p (a ++ b) = firstPart p a := by
  obtain ⟨before, after, rfl⟩ := ha
  have hsome := splitFirst_isSome p before after
  unfold firstPart
  rw [splitFirst_of_isInfix ⟨before, after, rfl⟩]
  cases h : splitFirst p (before ++ p ++ after) with
  | none =>
    rw [h] at hsome
    cases hsome
  | some r => rfl

/-! ## Every occurrence begins a part -/

section NoOverlap
variable {c : Char} {p' : Text}

theorem splitFrom_ne_nil (p : Text) (skip : ℕ) (t : Text) : splitFrom p skip t ≠ [] := by
  fun_induction splitFrom p skip t with
  | case1 => exact List.cons_ne_nil _ _
  | case2 _ _ _ ih => exact ih
  | case3 => exact List.cons_ne_nil _ _
  | case4 _ rest _ ih =>
    cases h : splitFrom p 0 rest with
    | nil => exact absurd h ih
    | cons part parts => exact List.cons_ne_nil _ _

theorem splitFrom_skip (p : Text) (skip : ℕ) (t : Text) : splitFrom p skip t = splitText p (t.drop skip) := by
  induction skip generalizing t with
  | zero => rfl
  | succ skip ih =>
    cases t with
    | nil => rfl
    | cons d rest => exact ih rest

/-- The parts of a text that begins with the pattern. -/
theorem splitText_prefix (t : Text) : splitText (c :: p') (c :: p' ++ t) = [] :: splitText (c :: p') t := by
  rw [splitText, List.cons_append]
  unfold splitFrom
  have hprefix : (c :: p').isPrefixOf (c :: (p' ++ t)) = true := by
    rw [List.isPrefixOf_iff_prefix, ← List.cons_append]
    exact List.prefix_append _ _
  rw [if_pos hprefix, splitFrom_skip]
  simp

/-- The parts of a text that does not begin with the pattern. -/
theorem splitText_cons {p : Text} {d : Char} {rest : Text} (h : ¬p <+: d :: rest) :
    splitText p (d :: rest) = (splitText p rest).modifyHead (d :: ·) := by
  rw [splitText]
  unfold splitFrom
  rw [if_neg (by rwa [List.isPrefixOf_iff_prefix])]
  rfl

theorem head?_splitText (t : Text) : (splitText (c :: p') t).head? = some (firstPart (c :: p') t) := by
  induction t with
  | nil => rfl
  | cons d rest ih =>
    by_cases h : (c :: p') <+: d :: rest
    · obtain ⟨t, ht⟩ := h
      rw [← ht, splitText_prefix, firstPart, ht]
      unfold splitFirst
      rw [if_pos (by rw [List.isPrefixOf_iff_prefix, ← ht]; exact List.prefix_append _ _)]
      rfl
    · rw [splitText_cons h, firstPart]
      unfold splitFirst
      rw [if_neg (by rwa [List.isPrefixOf_iff_prefix])]
      cases hparts : splitText (c :: p') rest with
      | nil => exact absurd hparts (splitFrom_ne_nil _ _ _)
      | cons part parts =>
        rw [hparts, List.head?_cons, Option.some.injEq, firstPart] at ih
        rw [List.modifyHead_cons, List.head?_cons, ih]
        cases splitFirst (c :: p') rest <;> rfl

/-- Where a text begins with the pattern, its other occurrences lie after that one. -/
theorem occurrence_after {t before after : Text} (hc : c ∉ p') (h : c :: p' ++ t = before ++ c :: p' ++ after) :
    before = [] ∧ t = after ∨ ∃ more, before = c :: p' ++ more ∧ t = more ++ c :: p' ++ after := by
  rw [List.append_assoc] at h
  rcases List.append_eq_append_iff.mp h with ⟨x, hx, ht⟩ | ⟨x, hx, ht⟩
  · exact Or.inr ⟨x, hx, by rw [ht, List.append_assoc]⟩
  · cases before with
    | nil =>
      rw [List.nil_append] at hx
      refine Or.inl ⟨rfl, ?_⟩
      rw [← hx] at ht
      exact (List.append_cancel_left ht).symm
    | cons d before =>
      rw [List.cons_append] at hx
      obtain ⟨rfl, rfl⟩ := List.cons.inj hx
      cases x with
      | nil => exact Or.inr ⟨[], by simp, by simpa using ht.symm⟩
      | cons e x =>
        obtain ⟨rfl, -⟩ := List.cons.inj ht
        exact absurd (by simp) hc

/-- No occurrence of a pattern begins behind the last one. -/
theorem splitLast_ge {p t u v : Text} {r : Text × Text} (h : splitLast p t = some r) (huv : t = u ++ p ++ v) :
    u.length ≤ r.1.length := by
  obtain ⟨⟨b, a⟩, hr, rfl⟩ := Option.map_eq_some_iff.mp h
  have hle := splitFirst_le (u := v.reverse) (v := u.reverse) hr (by rw [huv]; simp)
  have htext := congrArg List.length (splitFirst_eq hr)
  rw [huv] at htext
  simp only [List.length_reverse, List.length_append] at htext hle ⊢
  omega

/-- Nothing behind the last occurrence of a pattern holds it. -/
theorem not_infix_of_splitLast {p t before after : Text} (hp : p ≠ []) (h : splitLast p t = some (before, after)) :
    ¬p <:+: after := by
  rintro ⟨x, y, rfl⟩
  have htext : t = before ++ p ++ x ++ p ++ y := by
    rw [splitLast_eq h]
    simp
  have hle := splitLast_ge h htext
  have hpos := List.length_pos_iff.mpr hp
  simp only [List.length_append] at hle
  omega

/-- An occurrence with none behind it is the last one. -/
theorem splitLast_of_not_infix (hc : c ∉ p') {v : Text} (hv : ¬(c :: p') <:+: v) (b : Text) :
    splitLast (c :: p') (b ++ (c :: p') ++ v) = some (b, v) := by
  have hsome : (splitLast (c :: p') (b ++ (c :: p') ++ v)).isSome = true := by
    have hfirst := splitFirst_isSome (c :: p').reverse v.reverse b.reverse
    have hreverse : v.reverse ++ (c :: p').reverse ++ b.reverse = (b ++ (c :: p') ++ v).reverse := by simp
    rwa [splitLast, Option.isSome_map, ← hreverse]
  obtain ⟨⟨b', v'⟩, hlast⟩ := Option.isSome_iff_exists.mp hsome
  have hle := splitLast_ge hlast rfl
  have htext := splitLast_eq hlast
  rw [List.append_assoc, List.append_assoc] at htext
  obtain ⟨x, rfl⟩ : ∃ x, b' = b ++ x :=
    (List.prefix_of_prefix_length_le (List.prefix_append b _) (htext ▸ List.prefix_append b' _) hle).imp fun _ => Eq.symm
  rw [List.append_assoc] at htext
  have hbehind := List.append_cancel_left htext
  rw [← List.append_assoc] at hbehind
  rcases occurrence_after hc hbehind with ⟨rfl, rfl⟩ | ⟨more, -, rfl⟩
  · rw [hlast, List.append_nil]
  · exact absurd ⟨more, v', rfl⟩ hv

/-- The parts after the first are what follows the occurrences, each up to the next one. -/
theorem mem_tail_splitText (hc : c ∉ p') {t part : Text} :
    part ∈ (splitText (c :: p') t).tail ↔
      ∃ before after, t = before ++ c :: p' ++ after ∧ part = firstPart (c :: p') after := by
  generalize hlen : t.length = n
  induction n using Nat.strong_induction_on generalizing t with
  | _ n ih =>
    subst hlen
    cases t with
    | nil => simp [splitText, splitFrom]
    | cons d rest =>
      by_cases h : (c :: p') <+: d :: rest
      · obtain ⟨t, ht⟩ := h
        have hshort : t.length < (d :: rest).length := by
          rw [← ht, List.length_append, List.length_cons]
          omega
        have htail := ih t.length hshort rfl
        have hmem : part ∈ splitText (c :: p') t ↔
            part = firstPart (c :: p') t ∨ part ∈ (splitText (c :: p') t).tail := by
          cases hparts : splitText (c :: p') t with
          | nil => exact absurd hparts (splitFrom_ne_nil _ _ _)
          | cons first parts =>
            have hfirst : (splitText (c :: p') t).head? = some (firstPart (c :: p') t) := head?_splitText t
            rw [hparts, List.head?_cons, Option.some.injEq] at hfirst
            rw [hfirst, List.mem_cons, List.tail_cons]
        rw [← ht, splitText_prefix, List.tail_cons, hmem, htail]
        constructor
        · rintro (hpart | ⟨before, after, rfl, hpart⟩)
          · exact ⟨[], t, by simp, hpart⟩
          · exact ⟨c :: p' ++ before, after, by simp, hpart⟩
        · rintro ⟨before, after, hoccurs, hpart⟩
          rcases occurrence_after hc hoccurs with ⟨-, rfl⟩ | ⟨more, -, hmore⟩
          · exact Or.inl hpart
          · exact Or.inr ⟨more, after, hmore, hpart⟩
      · have htail : (splitText (c :: p') (d :: rest)).tail = (splitText (c :: p') rest).tail := by
          rw [splitText_cons h]
          cases splitText (c :: p') rest <;> rfl
        rw [htail, ih rest.length (by simp) rfl]
        constructor
        · rintro ⟨before, after, rfl, hpart⟩
          exact ⟨d :: before, after, by simp, hpart⟩
        · rintro ⟨before, after, hoccurs, hpart⟩
          cases before with
          | nil => exact absurd ⟨after, hoccurs.symm⟩ h
          | cons e before =>
            rw [List.cons_append, List.cons_append] at hoccurs
            exact ⟨before, after, (List.cons.inj hoccurs).2, hpart⟩

end NoOverlap

end TextScan
