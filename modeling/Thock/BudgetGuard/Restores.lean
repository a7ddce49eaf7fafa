import Thock.BudgetGuard.Bindings
import Thock.Lib.Transition

/-!
# What a restore puts back

Runs of trips with outside edits of bucket policies between them. What a trip removed stays in
the bucket's records as long as later trips write nothing over it, and a restore that reports no
error reads every record back.

A service is closed once and carries the ingress it had, so nothing else is needed there.
-/

namespace Thock.BudgetGuard

open TextScan Transition

inductive Action where
  | trip (period : Text) (faults : Faults)
  | edit (bucket : ℕ) (policy : Policy)

def step (text : LetterCase) (guard : Guard) (project : Project) : Action → Project
  | .trip period faults => (trip text guard project period faults).1
  | .edit bucket policy =>
    { project with buckets := project.buckets.modify bucket fun b => { b with policy } }

def Next (text : LetterCase) (guard : Guard) (project : Project) (action : Action) (after : Project) : Prop :=
  after = step text guard project action

/-- A bucket's policy gives the access. -/
def Held (project : Project) (bucket : ℕ) (g : Grant) : Prop :=
  ∃ b, project.buckets[bucket]? = some b ∧ b.policy.Grants g

instance (project : Project) (bucket : ℕ) (g : Grant) : Decidable (Held project bucket g) :=
  inferInstanceAs (Decidable (∃ b ∈ project.buckets[bucket]?, b.policy.Grants g))

/-- A trip of the bucket would lose nothing: no public access on a predefined role is under a
condition, and a record that is written over names an access found again or kept further up. -/
structure Recordable (text : LetterCase) (b : Bucket) : Prop where
  unconditional : ∀ g ∈ b.policy.openings text, Predefined g.role → g.condition = none
  kept : ∀ n < (b.policy.openings text).length, ∀ value, b.labels.get (labelPublic n) = some value →
    value ∈ (b.policy.openings text).map (bindingLabel text) ∨
      ∃ k, (b.policy.openings text).length ≤ k ∧ b.labels.get (labelPublic k) = some value

/-- A trip finds only buckets that it skips or can record. -/
def Careful (text : LetterCase) (project : Project) : Action → Prop
  | .trip period _ => ∀ b ∈ project.buckets, skipTrip b.labels period = false → Recordable text b
  | .edit _ _ => True

/-- The API's ingress names are words of capitals. -/
def IngressName (ingress : Text) : Prop := ingress ≠ [] ∧ ∀ c ∈ ingress, c.isUpper = true ∨ c = '_'

instance (ingress : Text) : Decidable (IngressName ingress) := inferInstanceAs (Decidable (_ ∧ _))

/-- What is labelled exempt is the same after a step. -/
def ExemptKept (before after : Project) : Prop :=
  (∀ (i : ℕ) (s : Service), before.services[i]? = some s → s.labels.get labelGuard = some valueExempt → after.services[i]? = some s) ∧
    ∀ (i : ℕ) (b : Bucket), before.buckets[i]? = some b → b.labels.get labelGuard = some valueExempt → after.buckets[i]? = some b

/-- What a restore that reports no error owes for one trip of a run. -/
def Undone (text : LetterCase) (guard : Guard) (project before after last : Project) (period : Text)
    (faults : Faults) : Prop :=
  (restore text guard last period faults).2 = [] →
    (∀ bucket g, Predefined g.role → Held before bucket g → ¬Held after bucket g →
      Held (restore text guard last period faults).1 bucket g) ∧
    (∀ (i : ℕ) (s : Service), project.services[i]? = some s →
      ∃ s' : Service, (restore text guard last period faults).1.services[i]? = some s' ∧ s'.ingress = s.ingress) ∧
    ExemptKept before after ∧ ExemptKept last (restore text guard last period faults).1

/-! ## One call at a time -/

section Attempts
variable {α : Type*} {guard : Guard} {action resource kind project : Text} {failure : Option Text}

theorem getElem?_listed (attempt : α → α × List Text) {resources : List α} {i : ℕ} {r : α}
    (h : resources[i]? = some r) :
    (listed failure kind project attempt resources).1[i]? = some (if failure.isSome then r else (attempt r).1) := by
  cases failure with
  | some error => exact h
  | none => simp [listed, attemptEach, h]

theorem listed_no_errors {attempt : α → α × List Text} {resources : List α}
    (h : (listed failure kind project attempt resources).2 = []) :
    failure = none ∧ ∀ r ∈ resources, (attempt r).2 = [] := by
  cases failure with
  | some error => simp [listed] at h
  | none => exact ⟨rfl, List.flatMap_eq_nil_iff.mp h⟩

theorem act_of_live {before : α} {change : α × Option Text} (h : guard.dryRun = false) :
    (act guard action resource before change).1 = change.1 := by
  obtain ⟨after, error⟩ := change
  cases error <;> simp [act, h]

theorem act_of_dry {before : α} {change : α × Option Text} (h : guard.dryRun = true) :
    (act guard action resource before change).1 = before := by
  simp [act, h]

theorem act_no_errors {before : α} {change : α × Option Text} (h : guard.dryRun = false)
    (herrors : (act guard action resource before change).2 = []) : change.2 = none := by
  obtain ⟨after, error⟩ := change
  cases error with
  | none => rfl
  | some error => simp [act, h] at herrors

theorem Reply.apply_cases (reply : Reply) (before after : α) :
    (reply.apply before after).1 = before ∨ (reply.apply before after).1 = after := by
  cases reply with
  | done => exact Or.inr rfl
  | refused error => exact Or.inl rfl
  | lost error => exact Or.inr rfl

theorem Reply.apply_done {reply : Reply} {before after : α} (h : (reply.apply before after).2 = none) :
    (reply.apply before after).1 = after := by
  cases reply with
  | done => rfl
  | refused error => cases h
  | lost error => cases h

end Attempts

/-! ## Buckets -/

section Buckets
variable {text : LetterCase} {guard : Guard} {period : Text} {faults : Faults} {b : Bucket} {g : Grant}

/-- The labels a trip of the bucket writes. -/
def tripLabels (text : LetterCase) (b : Bucket) : Labels :=
  setBucketLabels (b.labels.put labelGuard valueTripped)
    (((b.policy.openings text).map (bindingLabel text)).zipIdx.map fun (value, i) => (labelPublic i, some value))

/-- A trip leaves a bucket alone, or labels it and may then take its public members out. -/
theorem tripBucket_cases (text : LetterCase) (guard : Guard) (period : Text) (faults : Faults) (b : Bucket) :
    (tripBucket text guard period faults b).1 = b ∨
      guard.dryRun = false ∧ skipTrip b.labels period = false ∧
        ∃ policy, (policy = b.policy ∨ policy = (withoutPublicMembers b.policy).1) ∧
          (tripBucket text guard period faults b).1 = { b with labels := tripLabels text b, policy } := by
  unfold tripBucket
  split
  · exact Or.inl rfl
  · next hskip =>
    split
    · exact Or.inl rfl
    · dsimp only
      split
      · exact Or.inl rfl
      · cases hdry : guard.dryRun with
        | true => exact Or.inl (act_of_dry hdry)
        | false =>
          rw [act_of_live hdry, encodePublicBindings_eq]
          split
          · next labelled error hlabels =>
            rcases (faults.setLabels b.name).apply_cases b { b with labels := tripLabels text b } with heq | heq
            · exact Or.inl ((congrArg Prod.fst hlabels).symm.trans heq)
            · exact Or.inr ⟨rfl, by simpa using hskip, b.policy, Or.inl rfl,
                (congrArg Prod.fst hlabels).symm.trans heq⟩
          · next labelled hlabels =>
            have hdone : labelled = { b with labels := tripLabels text b } :=
              (congrArg Prod.fst hlabels).symm.trans (Reply.apply_done (congrArg Prod.snd hlabels))
            rw [hdone]
            refine Or.inr ⟨rfl, by simpa using hskip, ?_⟩
            rcases (faults.setPolicy b.name).apply_cases { b with labels := tripLabels text b }
              { b with labels := tripLabels text b, policy := (withoutPublicMembers b.policy).1 } with heq | heq
            · exact ⟨b.policy, Or.inl rfl, heq⟩
            · exact ⟨_, Or.inr rfl, heq⟩

/-- The bucket's labels say that a trip took the access out. -/
def Recorded (text : LetterCase) (g : Grant) (b : Bucket) : Prop :=
  b.labels.get labelGuard = some valueTripped ∧ ∃ n, b.labels.get (labelPublic n) = some (bindingLabel text g)

theorem get_tripLabels_guard : (tripLabels text b).get labelGuard = some valueTripped := by
  rw [tripLabels, get_numbered_guard, Table.get_put_self]

theorem get_tripLabels (n : ℕ) :
    (tripLabels text b).get (labelPublic n) =
      if n < (b.policy.openings text).length then ((b.policy.openings text).map (bindingLabel text))[n]?
      else b.labels.get (labelPublic n) := by
  rw [tripLabels, get_numbered, Table.get_put_of_ne _ _ (labelGuard_ne_labelPublic n).symm]
  simp

/-- Every access found is recorded. -/
theorem recorded_of_opening {policy : Policy} (h : bindingLabel text g ∈ (b.policy.openings text).map (bindingLabel text)) :
    Recorded text g { b with labels := tripLabels text b, policy } := by
  refine ⟨get_tripLabels_guard, ?_⟩
  obtain ⟨n, hlt, hget⟩ := List.mem_iff_getElem.mp h
  rw [List.length_map] at hlt
  exact ⟨n, by rw [get_tripLabels, if_pos hlt, List.getElem?_eq_getElem (by simpa using hlt), hget]⟩

/-- A careful trip keeps what is recorded. -/
theorem Recorded.tripBucket (h : Recorded text g b)
    (hcareful : skipTrip b.labels period = false → Recordable text b) :
    Recorded text g (tripBucket text guard period faults b).1 := by
  rcases tripBucket_cases text guard period faults b with heq | ⟨-, hskip, policy, -, heq⟩
  · rw [heq]
    exact h
  · rw [heq]
    obtain ⟨-, n, hn⟩ := h
    by_cases hlt : n < (b.policy.openings text).length
    · rcases (hcareful hskip).kept n hlt _ hn with hmem | ⟨k, hk, hkept⟩
      · exact recorded_of_opening hmem
      · exact ⟨get_tripLabels_guard, k, by rw [get_tripLabels, if_neg (by omega), hkept]⟩
    · exact ⟨get_tripLabels_guard, n, by rw [get_tripLabels, if_neg hlt, hn]⟩

/-- An access that a careful trip takes out is public and unconditional, and is recorded. -/
theorem recorded_of_removed (hrole : Predefined g.role) (hheld : b.policy.Grants g)
    (hremoved : ¬(tripBucket text guard period faults b).1.policy.Grants g)
    (hcareful : skipTrip b.labels period = false → Recordable text b) :
    guard.dryRun = false ∧ isPublic g.member = true ∧ g.condition = none ∧
      Recorded text g (tripBucket text guard period faults b).1 := by
  rcases tripBucket_cases text guard period faults b with heq | ⟨hdry, hskip, policy, hpolicy, heq⟩
  · rw [heq] at hremoved
    exact absurd hheld hremoved
  · rw [heq] at hremoved ⊢
    have hpublic : isPublic g.member = true := by
      rcases hpolicy with rfl | rfl
      · exact absurd hheld hremoved
      · exact isPublic_of_removed hheld hremoved
    have hopening : g ∈ b.policy.openings text := by
      obtain ⟨binding, hbinding, hbrole, hcondition, hmember⟩ := hheld
      apply List.mem_flatMap.mpr ⟨binding, _, _⟩
      · exact List.mem_filter.mpr ⟨hbinding, by rw [hbrole]; exact storable_of_predefined hrole⟩
      · exact List.mem_map.mpr ⟨g.member, List.mem_filter.mpr ⟨hmember, hpublic⟩, by rw [hbrole, hcondition]⟩
    exact ⟨hdry, hpublic, (hcareful hskip).unconditional g hopening hrole,
      recorded_of_opening (List.mem_map_of_mem hopening)⟩

/-- Reading one more label takes no access away. -/
theorem grants_restoreLabel {name : Text} {acc : Policy × List (Text × Option Text) × List Text}
    (entry : Text × Text) (h : acc.1.Grants g) : (restoreLabel text name acc entry).1.Grants g := by
  unfold restoreLabel
  split
  · split
    · exact h.withMember
    · exact h
  · exact h

theorem grants_foldl {name : Text} (labels : Labels) {acc : Policy × List (Text × Option Text) × List Text}
    (h : acc.1.Grants g) : (labels.foldl (restoreLabel text name) acc).1.Grants g := by
  induction labels generalizing acc with
  | nil => exact h
  | cons entry rest ih => exact ih (grants_restoreLabel entry h)

/-- A record among the labels is put back. -/
theorem grants_of_label (name : Text) {labels : Labels} {n : ℕ} {role member : Text}
    (hlabel : (labelPublic n, bindingLabel text g) ∈ labels)
    (hdecode : decodePublicBinding text (bindingLabel text g) = some (member, role))
    (acc : Policy × List (Text × Option Text) × List Text) :
    (labels.foldl (restoreLabel text name) acc).1.Grants { role, member, condition := none } := by
  induction labels generalizing acc with
  | nil => cases hlabel
  | cons entry rest ih =>
    rcases List.mem_cons.mp hlabel with rfl | hrest
    · apply grants_foldl rest
      have hnumbered : labelPublicPrefix.isPrefixOf (labelPublic n) = true :=
        List.isPrefixOf_iff_prefix.mpr (List.prefix_append _ _)
      unfold restoreLabel
      rw [if_pos hnumbered, hdecode]
      exact grants_withMember
    · exact ih hrest _

theorem mem_of_get {labels : Labels} {k v : Text} (h : labels.get k = some v) : (k, v) ∈ labels := by
  obtain ⟨entry, hfind, rfl⟩ := Option.map_eq_some_iff.mp h
  have hkey : entry.1 = k := by simpa using List.find?_some hfind
  exact hkey ▸ List.mem_of_find?_eq_some hfind

/-- A restore without errors puts back what is recorded. -/
theorem Recorded.restoreBucket (h : Recorded text g b) (hdry : guard.dryRun = false) (hrole : Predefined g.role)
    (hpublic : isPublic g.member = true) (hcondition : g.condition = none)
    (herrors : (restoreBucket text guard period faults b).2 = []) :
    (restoreBucket text guard period faults b).1.policy.Grants g := by
  obtain ⟨htripped, n, hn⟩ := h
  unfold BudgetGuard.restoreBucket at herrors ⊢
  rw [if_neg (by simpa using htripped)] at herrors ⊢
  split at herrors
  · cases herrors
  · obtain ⟨-, hacted⟩ := List.append_eq_nil_iff.mp herrors
    have hdone := act_no_errors hdry hacted
    dsimp only
    rw [act_of_live hdry]
    split at hdone
    · cases hdone
    · next opened hpolicy =>
      have hopened := (congrArg Prod.fst hpolicy).symm.trans (Reply.apply_done (congrArg Prod.snd hpolicy))
      rw [Reply.apply_done hdone]
      dsimp only at hopened ⊢
      rw [hopened]
      have hgrant := grants_of_label b.name (mem_of_get hn) (decode_bindingLabel hrole hpublic)
        (b.policy, [(labelGuard, none), (labelRestored, some period)], [])
      have hg : g = { role := g.role, member := g.member, condition := none } := by rw [← hcondition]
      rw [hg]
      exact hgrant

end Buckets

/-! ## Services -/

section Services
variable {text : LetterCase} {guard : Guard} {period : Text} {faults : Faults} {ingress : Text} {s : Service}

/-- A service that is open with its own ingress, or closed with that ingress on its label. -/
def Remembers (text : LetterCase) (guard : Guard) (ingress : Text) (s : Service) : Prop :=
  s.labels.get labelGuard ≠ some valueTripped ∧ s.ingress = ingress ∨
    guard.dryRun = false ∧ s.labels.get labelGuard = some valueTripped ∧
      s.labels.get labelIngress = some (text.toLower ingress) ∧ s.ingress = ingressInternal

theorem labelGuard_ne_labelIngress : labelGuard ≠ labelIngress := by decide

theorem Remembers.tripService (h : Remembers text guard ingress s) :
    Remembers text guard ingress (tripService text guard period faults s).1 := by
  unfold BudgetGuard.tripService
  split
  · exact h
  · next hopen =>
    rcases h with ⟨hlabel, hingress⟩ | ⟨-, -, -, hclosed⟩
    · cases hdry : guard.dryRun with
      | true =>
        rw [act_of_dry hdry]
        exact Or.inl ⟨hlabel, hingress⟩
      | false =>
        rw [act_of_live hdry]
        rcases (faults.updateService s.name).apply_cases s { s with
          ingress := ingressInternal
          labels := (s.labels.put labelGuard valueTripped).put labelIngress (text.toLower s.ingress) } with heq | heq
        · rw [heq]
          exact Or.inl ⟨hlabel, hingress⟩
        · rw [heq]
          refine Or.inr ⟨hdry, ?_, ?_, rfl⟩
          · rw [Table.get_put_of_ne _ _ labelGuard_ne_labelIngress, Table.get_put_self]
          · rw [Table.get_put_self, hingress]
    · exact absurd (by simp [hclosed]) hopen

theorem upper_lower {c : Char} (h : c.isUpper = true ∨ c = '_') :
    Ascii c ∧ Ascii c.toLower ∧ c.toLower.toUpper = c := by
  rcases h with hupper | rfl
  · have hall : ∀ n, n < 91 → 65 ≤ n → Ascii (Char.ofNat n) ∧ Ascii (Char.ofNat n).toLower ∧
        (Char.ofNat n).toLower.toUpper = Char.ofNat n := by decide
    have hbounds : 65 ≤ c.toNat ∧ c.toNat ≤ 90 := (decide_eq_true_iff.mp hupper)
    have hchar := hall c.toNat (by omega) hbounds.1
    rwa [Char.ofNat_toNat] at hchar
  · decide

/-- An ingress name is back after it was kept in small letters. -/
theorem toUpper_toLower (h : IngressName ingress) : text.toUpper (text.toLower ingress) = ingress := by
  have hlower : text.toLower ingress = ingress.map Char.toLower :=
    text.toLower_ascii ingress fun c hc => (upper_lower (h.2 c hc)).1
  have hsmall : ∀ c ∈ ingress.map Char.toLower, Ascii c := by
    intro c hc
    obtain ⟨d, hd, rfl⟩ := List.mem_map.mp hc
    exact (upper_lower (h.2 d hd)).2.1
  rw [hlower, text.toUpper_ascii _ hsmall, List.map_map]
  calc ingress.map (Char.toUpper ∘ Char.toLower)
      = ingress.map id := List.map_congr_left fun c hc => (upper_lower (h.2 c hc)).2.2
    _ = ingress := List.map_id _

theorem Remembers.restoreService (h : Remembers text guard ingress s) (hname : IngressName ingress)
    (herrors : (restoreService text guard period faults s).2 = []) :
    (restoreService text guard period faults s).1.ingress = ingress := by
  unfold BudgetGuard.restoreService at herrors ⊢
  rcases h with ⟨hlabel, hingress⟩ | ⟨hdry, hlabel, hkept, -⟩
  · rw [if_pos hlabel]
    exact hingress
  · rw [if_neg (by simpa using hlabel)] at herrors ⊢
    dsimp only at herrors ⊢
    rw [act_of_live hdry, Reply.apply_done (act_no_errors hdry herrors), hkept, Option.getD_some,
      toUpper_toLower hname]
    exact if_neg hname.1

end Services

/-! ## Runs -/

section Projects
variable {text : LetterCase} {guard : Guard} {period : Text} {faults : Faults} {project : Project}

theorem getElem?_trip_services {i : ℕ} {s : Service} (h : project.services[i]? = some s) :
    (trip text guard project period faults).1.services[i]? =
      some (if faults.listServices.isSome then s else (tripService text guard period faults s).1) :=
  getElem?_listed _ h

theorem getElem?_trip_buckets {i : ℕ} {b : Bucket} (h : project.buckets[i]? = some b) :
    (trip text guard project period faults).1.buckets[i]? =
      some (if faults.listBuckets.isSome then b else (tripBucket text guard period faults b).1) :=
  getElem?_listed _ h

theorem getElem?_restore_services {i : ℕ} {s : Service} (h : project.services[i]? = some s) :
    (restore text guard project period faults).1.services[i]? =
      some (if faults.listServices.isSome then s else (restoreService text guard period faults s).1) :=
  getElem?_listed _ h

theorem getElem?_restore_buckets {i : ℕ} {b : Bucket} (h : project.buckets[i]? = some b) :
    (restore text guard project period faults).1.buckets[i]? =
      some (if faults.listBuckets.isSome then b else (restoreBucket text guard period faults b).1) :=
  getElem?_listed _ h

/-- A step leaves the recorded access of a bucket recorded, unless a trip is careless. -/
theorem recorded_step {i : ℕ} {g : Grant} {action : Action} {after : Project}
    (h : ∃ b, project.buckets[i]? = some b ∧ Recorded text g b) (hcareful : Careful text project action)
    (hstep : Next text guard project action after) : ∃ b, after.buckets[i]? = some b ∧ Recorded text g b := by
  obtain ⟨b, hb, hrecorded⟩ := h
  rw [hstep]
  cases action with
  | trip period faults =>
    refine ⟨_, getElem?_trip_buckets hb, ?_⟩
    split
    · exact hrecorded
    · exact hrecorded.tripBucket (hcareful b (List.mem_of_getElem? hb))
  | edit bucket policy =>
    by_cases hi : bucket = i
    · subst hi
      exact ⟨{ b with policy }, by simp [step, hb], hrecorded⟩
    · exact ⟨b, by simp [step, hi, hb], hrecorded⟩

theorem remembers_step {i : ℕ} {ingress : Text} {action : Action} {after : Project}
    (h : ∃ s, project.services[i]? = some s ∧ Remembers text guard ingress s)
    (hstep : Next text guard project action after) :
    ∃ s, after.services[i]? = some s ∧ Remembers text guard ingress s := by
  obtain ⟨s, hs, hremembers⟩ := h
  rw [hstep]
  cases action with
  | trip period faults =>
    refine ⟨_, getElem?_trip_services hs, ?_⟩
    split
    · exact hremembers
    · exact hremembers.tripService
  | edit bucket policy => exact ⟨s, hs, hremembers⟩

theorem exemptKept_trip : ExemptKept project (trip text guard project period faults).1 := by
  constructor
  · intro i s hs hexempt
    have hskip : tripService text guard period faults s = (s, []) := by simp [tripService, skipTrip, hexempt]
    rw [getElem?_trip_services hs, hskip, ite_self]
  · intro i b hb hexempt
    have hskip : tripBucket text guard period faults b = (b, []) := by simp [tripBucket, skipTrip, hexempt]
    rw [getElem?_trip_buckets hb, hskip, ite_self]

theorem valueExempt_ne_valueTripped : some valueExempt ≠ some valueTripped := by decide

theorem exemptKept_restore : ExemptKept project (restore text guard project period faults).1 := by
  constructor
  · intro i s hs hexempt
    have hskip : restoreService text guard period faults s = (s, []) :=
      if_pos (hexempt ▸ valueExempt_ne_valueTripped)
    rw [getElem?_restore_services hs, hskip, ite_self]
  · intro i b hb hexempt
    have hskip : restoreBucket text guard period faults b = (b, []) :=
      if_pos (hexempt ▸ valueExempt_ne_valueTripped)
    rw [getElem?_restore_buckets hb, hskip, ite_self]

end Projects

/-- In a run of careful trips, what a trip took out of a bucket is back after a restore that
reports no error, every service has the ingress it began with, and nothing exempt was changed. -/
theorem careful_trips_undone {text : LetterCase} {guard : Guard} {project before after last : Project}
    {earlier later : List Action} {tripPeriod period : Text} {tripFaults faults : Faults}
    (hfresh : ∀ s ∈ project.services, s.labels.get labelGuard ≠ some valueTripped)
    (hnamed : ∀ s ∈ project.services, IngressName s.ingress)
    (first : Run (Guarded (Next text guard) (Careful text)) project earlier before)
    (tripped : Guarded (Next text guard) (Careful text) before (.trip tripPeriod tripFaults) after)
    (rest : Run (Guarded (Next text guard) (Careful text)) after later last) :
    Undone text guard project before after last period faults := by
  intro herrors
  obtain ⟨hservices, hbuckets⟩ := List.append_eq_nil_iff.mp herrors
  obtain ⟨hlistServices, hservices⟩ := listed_no_errors hservices
  obtain ⟨hlistBuckets, hbuckets⟩ := listed_no_errors hbuckets
  refine ⟨?_, ?_, ?_, exemptKept_restore⟩
  · intro bucket g hrole hheld hremoved
    obtain ⟨b, hb, hgrant⟩ := hheld
    have hafter : after.buckets[bucket]? = some (if tripFaults.listBuckets.isSome then b else
        (tripBucket text guard tripPeriod tripFaults b).1) := by
      rw [tripped.2]
      exact getElem?_trip_buckets hb
    split at hafter
    · exact absurd ⟨b, hafter, hgrant⟩ hremoved
    · have hgone : ¬(tripBucket text guard tripPeriod tripFaults b).1.policy.Grants g :=
        fun hstill => hremoved ⟨_, hafter, hstill⟩
      obtain ⟨hdry, hpublic, hcondition, hrecorded⟩ :=
        recorded_of_removed hrole hgrant hgone (tripped.1 b (List.mem_of_getElem? hb))
      obtain ⟨b', hb', hkept⟩ := rest.invariant (fun p => ∃ b, p.buckets[bucket]? = some b ∧ Recorded text g b)
        (fun _ _ _ h hstep => recorded_step h hstep.1 hstep.2) ⟨_, hafter, hrecorded⟩
      have hback : (restore text guard last period faults).1.buckets[bucket]? = _ := getElem?_restore_buckets hb'
      rw [hlistBuckets] at hback
      exact ⟨_, hback, hkept.restoreBucket hdry hrole hpublic hcondition (hbuckets b' (List.mem_of_getElem? hb'))⟩
  · intro i s hs
    have hopen : Remembers text guard s.ingress s := Or.inl ⟨hfresh s (List.mem_of_getElem? hs), rfl⟩
    obtain ⟨s', hs', hremembers⟩ := (first.append (.cons tripped rest)).invariant
      (fun p => ∃ s', p.services[i]? = some s' ∧ Remembers text guard s.ingress s')
      (fun _ _ _ h hstep => remembers_step h hstep.2) ⟨s, hs, hopen⟩
    have hback : (restore text guard last period faults).1.services[i]? = _ := getElem?_restore_services hs'
    rw [hlistServices] at hback
    exact ⟨_, hback, hremembers.restoreService (hnamed s (List.mem_of_getElem? hs)) (hservices s' (List.mem_of_getElem? hs'))⟩
  · rw [tripped.2]
    exact exemptKept_trip

/-! ## A bucket that loses a record -/

/-- Letter case on ASCII alone. -/
def asciiCase : LetterCase where
  toLower := List.map Char.toLower
  toUpper := List.map Char.toUpper
  toLower_ascii _ _ := rfl
  toUpper_ascii _ _ := rfl

/-- Every call is carried out. -/
def Faults.none : Faults where
  listServices := Option.none
  updateService _ := .done
  listBuckets := Option.none
  readPolicy _ := Option.none
  setLabels _ := .done
  setPolicy _ := .done

/-- A policy that lets everyone in through one predefined role. -/
def publicPolicy (name : String) : Policy where
  version := 1
  etag := []
  bindings := [{ role := rolePrefix ++ name.toList, members := ["allUsers".toList], condition := Option.none }]

/-- A project with an open service and a public bucket. -/
def releases : Project where
  name := "thock".toList
  services := [{ name := "site".toList, ingress := ingressAll, labels := [] }]
  buckets := [{ name := "releases".toList, labels := [], policy := publicPolicy "objectViewer" }]

def october : Text := "2026-10".toList

def viewers : Grant := ⟨rolePrefix ++ "objectViewer".toList, "allUsers".toList, Option.none⟩

theorem careful_trips_undone_releases :
    ∃ after, Undone asciiCase ⟨false⟩ releases releases after after october Faults.none ∧
      (restore asciiCase ⟨false⟩ after october Faults.none).2 = [] ∧ Held releases 0 viewers ∧ ¬Held after 0 viewers := by
  have hcareful : Careful asciiCase releases (.trip october Faults.none) := by
    intro b hb _
    rw [List.mem_singleton.mp hb]
    exact ⟨by decide +kernel, fun _ _ _ h => by cases h⟩
  exact ⟨step asciiCase ⟨false⟩ releases (.trip october Faults.none),
    careful_trips_undone (by decide) (by decide) (.nil releases) ⟨hcareful, rfl⟩ (.nil _),
    by decide +kernel, by decide +kernel, by decide +kernel⟩

/-- A second trip numbers its records from zero again: a role opened after the first trip takes
the number of the one that trip removed, and the restore puts only the later one back. -/
theorem second_trip_overwrites_record :
    ∃ after last, Next asciiCase ⟨false⟩ releases (.trip october Faults.none) after ∧
      Run (Next asciiCase ⟨false⟩) after
        [.edit 0 (publicPolicy "legacyBucketReader"), .trip october Faults.none] last ∧
      (∀ s ∈ releases.services, s.labels.get labelGuard ≠ some valueTripped) ∧
      (∀ s ∈ releases.services, IngressName s.ingress) ∧
      ¬Undone asciiCase ⟨false⟩ releases releases after last october Faults.none := by
  refine ⟨_, _, rfl, .cons rfl (.cons rfl (.nil _)), by decide, by decide, ?_⟩
  intro hundone
  have hback := (hundone (by decide +kernel)).1 0 viewers ⟨"objectViewer".toList, by decide, rfl⟩
    (by decide +kernel) (by decide +kernel)
  revert hback
  decide +kernel

end Thock.BudgetGuard
