import Thock.BudgetGuard.Guard

/-!
# The guard's records

What the numbered labels of a bucket say. A public binding on a predefined role is written under
its number and read back as the same member and role, and putting a binding back leaves every
other access alone.
-/

namespace Thock.BudgetGuard

open TextScan

/-- One member's access through a role, under a condition or none. -/
structure Grant where
  role : Text
  member : Text
  condition : Option Text
deriving DecidableEq, Repr

/-- The policy gives the access. -/
def Policy.Grants (p : Policy) (g : Grant) : Prop :=
  ∃ b ∈ p.bindings, b.role = g.role ∧ b.condition = g.condition ∧ g.member ∈ b.members

instance (p : Policy) (g : Grant) : Decidable (p.Grants g) := inferInstanceAs (Decidable (∃ b ∈ p.bindings, _))

/-- A predefined Storage role. -/
def Predefined (role : Text) : Prop := ∃ name ∈ roleNames, role = rolePrefix ++ name

instance (role : Text) : Decidable (Predefined role) :=
  inferInstanceAs (Decidable (∃ name ∈ roleNames, role = rolePrefix ++ name))

/-- A role that a label can hold. -/
def storable (text : LetterCase) (role : Text) : Bool :=
  ((stripPrefix rolePrefix role).bind fun short => (storageRoles text).get (text.toLower short)).isSome

/-- The public accesses of a policy through roles that a label can hold, in the policy's order. -/
def Policy.openings (text : LetterCase) (p : Policy) : List Grant :=
  (p.bindings.filter fun b => storable text b.role).flatMap fun b =>
    (b.members.filter isPublic).map fun member => { role := b.role, member, condition := b.condition }

/-- The label value of an access. -/
def bindingLabel (text : LetterCase) (g : Grant) : Text :=
  (publicMembers.get g.member).getD [] ++ '_' :: text.toLower (g.role.drop rolePrefix.length)

/-! ## Policies -/

section Policies
variable {p : Policy} {g : Grant} {role member : Text}

theorem mem_withMemberIn (role member : Text) (bindings : List Binding) :
    ∃ b ∈ withMemberIn role member bindings, b.role = role ∧ b.condition = none ∧ member ∈ b.members := by
  induction bindings with
  | nil => simp [withMemberIn]
  | cons b rest ih =>
    unfold withMemberIn
    split
    · obtain ⟨c, hc, h⟩ := ih
      exact ⟨c, List.mem_cons_of_mem b hc, h⟩
    · next hbinding =>
      rw [not_or, not_ne_iff, not_ne_iff] at hbinding
      split
      · next hmember => exact ⟨b, List.mem_cons_self, hbinding.1, hbinding.2, hmember⟩
      · exact ⟨_, List.mem_cons_self, hbinding.1, hbinding.2, by simp⟩

theorem Policy.Grants.withMemberIn (h : p.Grants g) (role member : Text) :
    ∃ b ∈ withMemberIn role member p.bindings, b.role = g.role ∧ b.condition = g.condition ∧ g.member ∈ b.members := by
  obtain ⟨b, hb, hrole, hcondition, hmember⟩ := h
  generalize p.bindings = bindings at hb
  induction bindings with
  | nil => cases hb
  | cons c rest ih =>
    unfold BudgetGuard.withMemberIn
    rcases List.mem_cons.mp hb with rfl | hb
    · split
      · exact ⟨b, List.mem_cons_self, hrole, hcondition, hmember⟩
      · split
        · exact ⟨b, List.mem_cons_self, hrole, hcondition, hmember⟩
        · exact ⟨_, List.mem_cons_self, hrole, hcondition, List.mem_append_left _ hmember⟩
    · split
      · obtain ⟨d, hd, hgrant⟩ := ih hb
        exact ⟨d, List.mem_cons_of_mem c hd, hgrant⟩
      · split
        · exact ⟨b, List.mem_cons_of_mem _ hb, hrole, hcondition, hmember⟩
        · exact ⟨b, List.mem_cons_of_mem _ hb, hrole, hcondition, hmember⟩

theorem grants_withMember : (withMember p role member).Grants { role, member, condition := none } :=
  mem_withMemberIn role member p.bindings

theorem Policy.Grants.withMember (h : p.Grants g) : (withMember p role member).Grants g :=
  h.withMemberIn role member

/-- Only public accesses leave a policy. -/
theorem isPublic_of_removed (h : p.Grants g) (hremoved : ¬(withoutPublicMembers p).1.Grants g) :
    isPublic g.member = true := by
  by_contra hprivate
  obtain ⟨b, hb, hrole, hcondition, hmember⟩ := h
  apply hremoved
  have hkept : g.member ∈ b.members.filter fun member => !isPublic member :=
    List.mem_filter.mpr ⟨hmember, by simpa using hprivate⟩
  have hne : (b.members.filter fun member => !isPublic member).isEmpty = false := by
    rw [List.isEmpty_eq_false_iff]
    exact List.ne_nil_of_mem hkept
  refine ⟨{ b with members := b.members.filter fun member => !isPublic member }, ?_, hrole, hcondition, hkept⟩
  exact List.mem_filterMap.mpr ⟨b, hb, by simp [hne]⟩

end Policies

/-! ## Labels -/

section Labels
variable {text : LetterCase}

theorem ascii_roleNames : ∀ name ∈ roleNames, ∀ c ∈ name, Ascii c := by decide

theorem storageRoles_eq : storageRoles text = roleNames.map fun name => (name.map Char.toLower, rolePrefix ++ name) := by
  apply List.map_congr_left
  intro name hname
  rw [text.toLower_ascii name (ascii_roleNames name hname)]

theorem stripPrefix_append (front rest : Text) : stripPrefix front (front ++ rest) = some rest := by
  simp [stripPrefix]

theorem storable_of_predefined {role : Text} (h : Predefined role) : storable text role = true := by
  obtain ⟨name, hname, rfl⟩ := h
  rw [storable, stripPrefix_append, Option.bind_some, text.toLower_ascii name (ascii_roleNames name hname),
    storageRoles_eq]
  revert name
  decide

/-- What the guard writes for a public member is its label value, where a label can hold the role. -/
theorem encode_member (b : Binding) (member : Text) :
    encodePublicBindings text [{ role := b.role, members := [member], condition := none }] =
      if storable text b.role then [bindingLabel text { role := b.role, member, condition := b.condition }] else [] := by
  cases hstrip : stripPrefix rolePrefix b.role with
  | none => simp [encodePublicBindings, storable, hstrip]
  | some short =>
    have hshort : short = b.role.drop rolePrefix.length := by
      unfold stripPrefix at hstrip
      split at hstrip
      · exact (Option.some.inj hstrip).symm
      · cases hstrip
    cases hget : (storageRoles text).get (text.toLower short) with
    | none => simp [encodePublicBindings, storable, hstrip, hget]
    | some role => simp [encodePublicBindings, storable, bindingLabel, hstrip, hget, ← hshort]

/-- A label value names the access it was made from. -/
theorem decode_bindingLabel {g : Grant} (hrole : Predefined g.role) (hpublic : isPublic g.member = true) :
    decodePublicBinding text (bindingLabel text g) = some (g.member, g.role) := by
  obtain ⟨role, member, condition⟩ := g
  obtain ⟨name, hname, rfl⟩ : Predefined role := hrole
  have hmember : member ∈ publicMembers.map Prod.fst := by
    obtain ⟨short, hshort⟩ := Option.isSome_iff_exists.mp hpublic
    obtain ⟨entry, hfind, -⟩ := Option.map_eq_some_iff.mp hshort
    have hkey : entry.1 = member := by simpa using List.find?_some hfind
    exact List.mem_map.mpr ⟨entry, List.mem_of_find?_eq_some hfind, hkey⟩
  simp only [bindingLabel, decodePublicBinding, List.drop_left]
  rw [text.toLower_ascii name (ascii_roleNames name hname), storageRoles_eq]
  clear hpublic
  revert member
  revert name
  decide

theorem encodePublicBindings_eq (p : Policy) :
    encodePublicBindings text (withoutPublicMembers p).2 = (p.openings text).map (bindingLabel text) := by
  have happend (l r : List Binding) : encodePublicBindings text (l ++ r) =
      encodePublicBindings text l ++ encodePublicBindings text r := List.filterMap_append
  have hmembers (b : Binding) (members : List Text) :
      encodePublicBindings text (members.map fun member => { role := b.role, members := [member], condition := none }) =
        if storable text b.role then members.map fun member =>
          bindingLabel text { role := b.role, member, condition := b.condition } else [] := by
    induction members with
    | nil => simp [encodePublicBindings]
    | cons member rest ih =>
      rw [List.map_cons, ← List.singleton_append, happend, encode_member, ih]
      split <;> rfl
  simp only [withoutPublicMembers, Policy.openings]
  induction p.bindings with
  | nil => rfl
  | cons b rest ih =>
    rw [List.flatMap_cons, happend, ih, hmembers, List.filter_cons]
    split <;> simp

theorem labelPublic_injective : Function.Injective labelPublic := by
  intro i j h
  have hdigits : Nat.toDigits 10 i = Nat.toDigits 10 j := List.append_cancel_left h
  calc i = Nat.ofDigitChars 10 (Nat.toDigits 10 i) 0 := Nat.ofDigitChars_ten_toDigits.symm
    _ = Nat.ofDigitChars 10 (Nat.toDigits 10 j) 0 := by rw [hdigits]
    _ = j := Nat.ofDigitChars_ten_toDigits

theorem labelGuard_ne_labelPublic (n : ℕ) : labelGuard ≠ labelPublic n := by
  intro h
  have hlength := congrArg List.length h
  rw [labelPublic, List.length_append] at hlength
  have hfixed : labelGuard.length = 12 ∧ labelPublicPrefix.length = 20 := by decide
  omega

/-- The records of a bucket after the values are written from a number on. -/
theorem get_numbered (values : List Text) (labels : Labels) (start n : ℕ) :
    (setBucketLabels labels ((values.zipIdx start).map fun (value, i) => (labelPublic i, some value))).get
        (labelPublic n) =
      if start ≤ n ∧ n < start + values.length then values[n - start]? else labels.get (labelPublic n) := by
  induction values generalizing labels start with
  | nil => simp [setBucketLabels, show ¬(start ≤ n ∧ n < start) by omega]
  | cons value rest ih =>
    have hstep := ih (labels.put (labelPublic start) value) (start + 1)
    simp only [Table.get_put, labelPublic_injective.eq_iff] at hstep
    apply hstep.trans
    rcases Nat.lt_trichotomy n start with hlt | rfl | hgt
    · rw [if_neg (by omega), if_neg (by omega), if_neg (by omega)]
    · rw [if_neg (by omega), if_pos rfl, if_pos (by simp)]
      simp
    · have hindex : n - start = n - (start + 1) + 1 := by omega
      rw [if_neg (by omega : ¬n = start), hindex, List.getElem?_cons_succ, List.length_cons]
      congr 1
      exact propext (by omega)

theorem get_numbered_guard (values : List Text) (labels : Labels) (start : ℕ) :
    (setBucketLabels labels ((values.zipIdx start).map fun (value, i) => (labelPublic i, some value))).get
        labelGuard = labels.get labelGuard := by
  induction values generalizing labels start with
  | nil => rfl
  | cons value rest ih =>
    have hstep := ih (labels.put (labelPublic start) value) (start + 1)
    rw [Table.get_put_of_ne _ _ (labelGuard_ne_labelPublic start)] at hstep
    exact hstep

end Labels

end Thock.BudgetGuard
