import Thock.Plus.Allowance

/-!
# The balance enforced at the gateway

After a pass that succeeds, each stored key is switched and capped as the balance says. A pass
configures a key only where the saved row says something changed, so what it relies on is that the
row speaks for the gateway: that holds of every key but those a failed pass had already changed.
-/

namespace Thock.Plus

open Transition

/-! ## Calls to the gateway -/

namespace Gateway

/-- Every key is still there, capped and switched as it was. -/
def KeepsSettings (g g' : Gateway) : Prop :=
  ∀ (i : ℕ) (k : RemoteKey), g[i]? = some k → ∃ k' : RemoteKey, g'[i]? = some k' ∧ k'.limitUSD = k.limitUSD ∧ k'.disabled = k.disabled

theorem KeepsSettings.refl (g : Gateway) : g.KeepsSettings g := fun _ k h => ⟨k, h, rfl, rfl⟩

theorem KeepsSettings.trans {g g' g'' : Gateway} (h : g.KeepsSettings g') (h' : g'.KeepsSettings g'') :
    g.KeepsSettings g'' := by
  intro i k hk
  obtain ⟨k', hk', hlimit, hdisabled⟩ := h i k hk
  obtain ⟨k'', hk'', hlimit', hdisabled'⟩ := h' i k' hk'
  exact ⟨k'', hk'', hlimit'.trans hlimit, hdisabled'.trans hdisabled⟩

/-- Changing one entry in nothing but its spend and its being there. -/
theorem keepsSettings_set {g : Gateway} {hash : ℕ} {k k' : RemoteKey} (hk : g[hash]? = some k)
    (hlimit : k'.limitUSD = k.limitUSD) (hdisabled : k'.disabled = k.disabled) :
    g.KeepsSettings (g.set hash k') := by
  intro i other hother
  by_cases hi : i = hash
  · subst hi
    obtain rfl := Option.some.inj (hk.symm.trans hother)
    have hlt := (List.getElem?_eq_some_iff.mp hk).1
    exact ⟨k', by rw [List.getElem?_set_self hlt], hlimit, hdisabled⟩
  · exact ⟨other, by rw [List.getElem?_set_ne (Ne.symm hi)]; exact hother, rfl, rfl⟩

theorem keepsSettings_spend (g : Gateway) (hash : ℕ) (usd : ℚ) : g.KeepsSettings (g.spend hash usd) := by
  unfold spend
  split
  · exact .refl g
  · next k hk => exact keepsSettings_set hk rfl rfl

theorem keepsSettings_revoke (g : Gateway) (hash : ℕ) (call : Call) : g.KeepsSettings (g.revoke hash call) := by
  unfold revoke
  split
  · exact .refl g
  · next k hk =>
    split
    · exact keepsSettings_set hk rfl rfl
    · exact .refl g

theorem keepsSettings_append (g : Gateway) (k : RemoteKey) : g.KeepsSettings (g ++ [k]) := by
  intro i other hother
  have hlt := (List.getElem?_eq_some_iff.mp hother).1
  exact ⟨other, by rw [List.getElem?_append_left hlt]; exact hother, rfl, rfl⟩

theorem configure_of_ne (g : Gateway) {hash i : ℕ} (limitUSD : ℚ) (disabled : Bool) (call : Call) (hi : i ≠ hash) :
    (g.configure hash limitUSD disabled call).1[i]? = g[i]? := by
  unfold configure
  split
  · rfl
  · split
    · exact List.getElem?_set_ne (Ne.symm hi)
    · rfl

/-- Changing an entry in nothing that is asked about. -/
theorem map_set {β : Type*} {f : RemoteKey → β} {g : Gateway} {hash : ℕ} {k k' : RemoteKey} (hk : g[hash]? = some k)
    (hf : f k' = f k) (i : ℕ) : ((g.set hash k')[i]?).map f = (g[i]?).map f := by
  by_cases hi : i = hash
  · subst hi
    have hlt := (List.getElem?_eq_some_iff.mp hk).1
    rw [List.getElem?_set_self hlt, hk, Option.map_some, Option.map_some, hf]
  · rw [List.getElem?_set_ne (Ne.symm hi)]

/-- Configuring takes no key away, and changes its cap and its switch alone. -/
theorem configure_map {β : Type*} {f : RemoteKey → β}
    (hf : ∀ (k : RemoteKey) (limitUSD : ℚ) (disabled : Bool), f { k with limitUSD, disabled } = f k) (g : Gateway)
    (hash i : ℕ) (limitUSD : ℚ) (disabled : Bool) (call : Call) :
    ((g.configure hash limitUSD disabled call).1[i]?).map f = (g[i]?).map f := by
  unfold configure
  split
  · rfl
  · next k hk =>
    split
    · exact map_set (Option.filter_eq_some_iff.mp hk).1 (hf k limitUSD disabled) i
    · rfl

/-- A call answered well has set what was asked. -/
theorem configure_ok {g g' : Gateway} {hash : ℕ} {limitUSD : ℚ} {disabled : Bool} {call : Call}
    (h : g.configure hash limitUSD disabled call = (g', true)) :
    ∃ k, g'[hash]? = some k ∧ k.limitUSD = limitUSD ∧ k.disabled = disabled := by
  unfold configure at h
  split at h
  · cases h
  · next k hk =>
    obtain ⟨rfl, hcall⟩ := Prod.mk.inj h
    have hdone : call = .done := of_decide_eq_true hcall
    subst hdone
    have hthere := (Option.filter_eq_some_iff.mp hk).1
    have hlt := (List.getElem?_eq_some_iff.mp hthere).1
    exact ⟨_, List.getElem?_set_self hlt, rfl, rfl⟩

/-- A call made only where it is needed: the key is as wanted where it was, as it was where not, and every other key
is as it was. -/
theorem configure_if_ok {g g' : Gateway} {hash : ℕ} {limitUSD : ℚ} {disabled needed : Bool} {call : Call}
    (h : (if needed then g.configure hash limitUSD disabled call else (g, true)) = (g', true)) :
    (if needed then ∃ k, g'[hash]? = some k ∧ k.limitUSD = limitUSD ∧ k.disabled = disabled
      else g'[hash]? = g[hash]?) ∧ ∀ i, i ≠ hash → g'[i]? = g[i]? := by
  cases needed with
  | false =>
    simp only [Bool.false_eq_true, if_false, Prod.mk.injEq, and_true] at h ⊢
    subst h
    exact ⟨rfl, fun _ _ => rfl⟩
  | true =>
    simp only [if_true] at h ⊢
    refine ⟨configure_ok h, fun i hi => ?_⟩
    have hsame := configure_of_ne g limitUSD disabled call hi
    rwa [h] at hsame

end Gateway

/-! ## One pass -/

namespace UserAllowance

/-- A sync leaves the keys, the switch and the access as they are. -/
theorem sync_keeps {u v : UserAllowance} {plan : Plan} {unitsPerDollar : ℚ} {syncEvery now : Time} {g : Gateway}
    {a : PassAnswers} {rolledOver : Bool} (h : u.sync plan unitsPerDollar syncEvery now g a = some (v, rolledOver)) :
    v.gateway = u.gateway ∧ v.phoneGateway = u.phoneGateway ∧ v.exhausted = u.exhausted ∧ v.revoked = u.revoked ∧
      v.plan = u.plan := by
  unfold sync at h
  split at h
  · obtain ⟨⟨usage, phoneUsage⟩, -, heq⟩ := Option.map_eq_some_iff.mp h
    obtain ⟨rfl, -⟩ := Prod.mk.inj heq
    exact ⟨rfl, rfl, rfl, rfl, rfl⟩
  · split at h
    · obtain ⟨⟨usage, phoneUsage⟩, -, heq⟩ := Option.map_eq_some_iff.mp h
      obtain ⟨rfl, -⟩ := Prod.mk.inj heq
      exact ⟨rfl, rfl, rfl, rfl, rfl⟩
    · obtain ⟨rfl, -⟩ := Prod.mk.inj (Option.some.inj h)
      exact ⟨rfl, rfl, rfl, rfl, rfl⟩

/-- A pass that begins no cycle moves at most the count and the sync clock. -/
theorem sync_counts {u v : UserAllowance} {plan : Plan} {unitsPerDollar : ℚ} {syncEvery now : Time} {g : Gateway}
    {a : PassAnswers} (h : u.sync plan unitsPerDollar syncEvery now g a = some (v, false)) :
    v = { u with usedUnits := v.usedUnits, lastSyncAt := v.lastSyncAt } := by
  unfold sync at h
  split at h
  · obtain ⟨⟨usage, phoneUsage⟩, -, heq⟩ := Option.map_eq_some_iff.mp h
    cases (Prod.mk.inj heq).2
  · split at h
    · obtain ⟨⟨usage, phoneUsage⟩, -, heq⟩ := Option.map_eq_some_iff.mp h
      obtain ⟨rfl, -⟩ := Prod.mk.inj heq
      rfl
    · obtain ⟨rfl, -⟩ := Prod.mk.inj (Option.some.inj h)
      rfl

/-- What is not configured is switched as it should be already. -/
theorem exhausted_of_not_flipped {u : UserAllowance} {plan : Plan} {rolledOver : Bool}
    (h : u.flipped plan rolledOver = false) : u.shouldBeExhausted plan = u.exhausted := by
  unfold flipped at h
  simp only [decide_eq_false_iff_not, not_or, not_not] at h
  exact h.1

theorem not_flipped_of_desk {u : UserAllowance} {plan : Plan} {unitsPerDollar : ℚ} {rolledOver : Bool}
    (h : u.configureDesk plan unitsPerDollar rolledOver = false) : u.flipped plan rolledOver = false := by
  unfold configureDesk at h
  simp only [decide_eq_false_iff_not, not_or, Bool.not_eq_true] at h
  exact h.1

/-- The calls of a pass take no key away, and change caps and switches alone. -/
theorem enforce_map {β : Type*} {f : RemoteKey → β}
    (hf : ∀ (k : RemoteKey) (limitUSD : ℚ) (disabled : Bool), f { k with limitUSD, disabled } = f k)
    {u : UserAllowance} {plan : Plan} {unitsPerDollar : ℚ} {rolledOver : Bool} {g g' : Gateway} {a : PassAnswers}
    {v : Option UserAllowance} (h : u.enforce plan unitsPerDollar rolledOver g a = (g', v)) (i : ℕ) :
    (g'[i]?).map f = (g[i]?).map f := by
  rw [show g' = (u.enforce plan unitsPerDollar rolledOver g a).1 by rw [h]]
  have hdesk : ((if u.configureDesk plan unitsPerDollar rolledOver then
      g.configure u.gateway.hash (u.wantLimit plan unitsPerDollar) (u.shouldBeExhausted plan) a.configureDesk
      else (g, true)).1[i]?).map f = (g[i]?).map f := by
    split
    · exact Gateway.configure_map hf ..
    · rfl
  simp only [enforce]
  generalize hcalled : (if u.configureDesk plan unitsPerDollar rolledOver then
      g.configure u.gateway.hash (u.wantLimit plan unitsPerDollar) (u.shouldBeExhausted plan) a.configureDesk
      else (g, true)) = called at hdesk ⊢
  obtain ⟨g', ok⟩ := called
  split
  · exact hdesk
  · split
    · exact hdesk
    · split
      · split
        · exact (Gateway.configure_map hf ..).trans hdesk
        · exact (Gateway.configure_map hf ..).trans hdesk
      · exact hdesk

/-- What a pass whose calls were all answered well has done: the row is switched as it should be, and a key it
configured is as wanted while one it left alone is as it was. -/
theorem enforce_ok {u v : UserAllowance} {plan : Plan} {unitsPerDollar : ℚ} {rolledOver : Bool} {g g' : Gateway}
    {a : PassAnswers} (h : u.enforce plan unitsPerDollar rolledOver g a = (g', some v))
    (apart : ∀ p ∈ u.phoneGateway, p.hash ≠ u.gateway.hash) :
    (if u.configureDesk plan unitsPerDollar rolledOver then
        v.gateway = { u.gateway with limitUSD := u.wantLimit plan unitsPerDollar } ∧
          ∃ k : RemoteKey, g'[u.gateway.hash]? = some k ∧ k.limitUSD = u.wantLimit plan unitsPerDollar ∧
            k.disabled = u.shouldBeExhausted plan
      else v.gateway = u.gateway ∧ g'[u.gateway.hash]? = g[u.gateway.hash]?) ∧
    (∀ p ∈ u.phoneGateway, if u.configurePhone plan unitsPerDollar rolledOver then
        v.phoneGateway = some { p with limitUSD := u.wantPhoneLimit plan unitsPerDollar } ∧
          ∃ k : RemoteKey, g'[p.hash]? = some k ∧ k.limitUSD = u.wantPhoneLimit plan unitsPerDollar ∧
            k.disabled = u.shouldBeExhausted plan
      else v.phoneGateway = u.phoneGateway ∧ g'[p.hash]? = g[p.hash]?) ∧
    (u.phoneGateway = none → v.phoneGateway = none) ∧
    v = { u with gateway := v.gateway, phoneGateway := v.phoneGateway, exhausted := u.shouldBeExhausted plan } := by
  simp only [enforce] at h
  generalize hfirst : (if u.configureDesk plan unitsPerDollar rolledOver then
      g.configure u.gateway.hash (u.wantLimit plan unitsPerDollar) (u.shouldBeExhausted plan) a.configureDesk
    else (g, true)) = first at h
  obtain ⟨g₁, ok⟩ := first
  cases ok with
  | false => cases h
  | true =>
    obtain ⟨hset, hleft⟩ := Gateway.configure_if_ok hfirst
    -- the row the desk's half leaves
    have hrow : (if u.configureDesk plan unitsPerDollar rolledOver then
          { u with gateway := { u.gateway with limitUSD := u.wantLimit plan unitsPerDollar },
                   exhausted := u.shouldBeExhausted plan } else u) =
        { u with
          gateway := if u.configureDesk plan unitsPerDollar rolledOver then
            { u.gateway with limitUSD := u.wantLimit plan unitsPerDollar } else u.gateway
          exhausted := u.shouldBeExhausted plan } := by
      cases hdesk : u.configureDesk plan unitsPerDollar rolledOver with
      | false =>
        simp only [Bool.false_eq_true, if_false, exhausted_of_not_flipped (not_flipped_of_desk hdesk)]
      | true => simp only [if_true]
    simp only [Bool.not_true, Bool.false_eq_true, if_false, hrow] at h
    have hdesk {x : GatewayKey} (hx : x = if u.configureDesk plan unitsPerDollar rolledOver then
          { u.gateway with limitUSD := u.wantLimit plan unitsPerDollar } else u.gateway) {g₂ : Gateway}
        (hg : g₂[u.gateway.hash]? = g₁[u.gateway.hash]?) :
        if u.configureDesk plan unitsPerDollar rolledOver then
          x = { u.gateway with limitUSD := u.wantLimit plan unitsPerDollar } ∧
            ∃ k : RemoteKey, g₂[u.gateway.hash]? = some k ∧ k.limitUSD = u.wantLimit plan unitsPerDollar ∧
              k.disabled = u.shouldBeExhausted plan
        else x = u.gateway ∧ g₂[u.gateway.hash]? = g[u.gateway.hash]? := by
      rw [hg]
      split
      · next hconf =>
        rw [if_pos hconf] at hx hset
        exact ⟨hx, hset⟩
      · next hconf =>
        rw [if_neg hconf] at hx hset
        exact ⟨hx, hset⟩
    cases hphone : u.phoneGateway with
    | none =>
      simp only [hphone] at h
      obtain ⟨rfl, hv⟩ := Prod.mk.inj h
      obtain rfl := Option.some.inj hv
      exact ⟨hdesk rfl rfl, nofun, fun _ => rfl, rfl⟩
    | some p =>
      have hp := apart p hphone
      simp only [hphone] at h
      cases hconf : u.configurePhone plan unitsPerDollar rolledOver with
      | false =>
        simp only [hconf, Bool.false_eq_true, if_false] at h
        obtain ⟨rfl, hv⟩ := Prod.mk.inj h
        obtain rfl := Option.some.inj hv
        refine ⟨hdesk rfl rfl, fun q hq => ?_, nofun, rfl⟩
        obtain rfl := Option.some.inj hq
        exact ⟨rfl, hleft p.hash hp⟩
      | true =>
        simp only [hconf, if_true] at h
        generalize hcalled : g₁.configure p.hash (u.wantPhoneLimit plan unitsPerDollar) (u.shouldBeExhausted plan)
          a.configurePhone = called at h
        obtain ⟨g₂, ok⟩ := called
        cases ok with
        | false => cases h
        | true =>
          obtain ⟨rfl, hv⟩ := Prod.mk.inj h
          obtain rfl := Option.some.inj hv
          have hother := Gateway.configure_of_ne g₁ (u.wantPhoneLimit plan unitsPerDollar) (u.shouldBeExhausted plan)
            a.configurePhone (Ne.symm hp)
          rw [hcalled] at hother
          refine ⟨hdesk rfl hother, fun q hq => ?_, nofun, rfl⟩
          obtain rfl := Option.some.inj hq
          exact ⟨rfl, Gateway.configure_ok hcalled⟩

end UserAllowance

/-! ## The row speaks for the gateway -/

namespace Service

/-- A key of the row is at the gateway, and as the row says unless a failed pass changed it there. -/
def Kept (σ : Service) (key : GatewayKey) : Prop :=
  ∃ k : RemoteKey, σ.gateway[key.hash]? = some k ∧
    (key.hash ∉ σ.unsaved → k.limitUSD = key.limitUSD ∧ k.disabled = σ.user.exhausted)

structure InStep (σ : Service) : Prop where
  active : σ.user.revoked = false
  apart : ∀ p ∈ σ.user.phoneGateway, p.hash ≠ σ.user.gateway.hash
  desk : σ.Kept σ.user.gateway
  phone : ∀ p ∈ σ.user.phoneGateway, σ.Kept p

/-- What leaves every key as it is at the gateway, and takes none into the row, keeps row and gateway in step. -/
theorem InStep.inherit {σ τ : Service} (h : σ.InStep) (hgateway : σ.gateway.KeepsSettings τ.gateway)
    (hunsaved : τ.unsaved = σ.unsaved) (hrevoked : τ.user.revoked = σ.user.revoked)
    (hexhausted : τ.user.exhausted = σ.user.exhausted) (hdesk : τ.user.gateway = σ.user.gateway)
    (hphone : τ.user.phoneGateway = σ.user.phoneGateway ∨ τ.user.phoneGateway = none) : τ.InStep := by
  have keep (key : GatewayKey) (hkept : σ.Kept key) : τ.Kept key := by
    obtain ⟨k, hk, hsame⟩ := hkept
    obtain ⟨k', hk', hlimit, hdisabled⟩ := hgateway key.hash k hk
    refine ⟨k', hk', fun hsaved => ?_⟩
    rw [hlimit, hdisabled, hexhausted]
    exact hsame (hunsaved ▸ hsaved)
  have stored (p : GatewayKey) (hp : p ∈ τ.user.phoneGateway) : p ∈ σ.user.phoneGateway := by
    rcases hphone with hsame | hnone
    · rwa [hsame] at hp
    · rw [hnone] at hp
      cases hp
  constructor
  · rw [hrevoked]
    exact h.active
  · intro p hp
    rw [hdesk]
    exact h.apart p (stored p hp)
  · rw [hdesk]
    exact keep _ h.desk
  · exact fun p hp => keep p (h.phone p (stored p hp))

/-- Keys a failed pass changed are noted, and it leaves the others as they were. -/
theorem Kept.of_failed {σ : Service} {g : Gateway} {key : GatewayKey} (h : σ.Kept key)
    (hkey : key ∈ σ.user.storedKeys) (hthere : (g[key.hash]?).isSome = (σ.gateway[key.hash]?).isSome) :
    Kept { σ with gateway := g, unsaved := σ.changedKeys g ++ σ.unsaved } key := by
  obtain ⟨k, hk, hsame⟩ := h
  by_cases hchanged : g[key.hash]? = σ.gateway[key.hash]?
  · exact ⟨k, hchanged.trans hk, fun hsaved => hsame fun hmem => hsaved (List.mem_append_right _ hmem)⟩
  · rw [hk, Option.isSome_some, Option.isSome_iff_exists] at hthere
    obtain ⟨k', hk'⟩ := hthere
    refine ⟨k', hk', fun hsaved => absurd (List.mem_append_left _ ?_) hsaved⟩
    rw [changedKeys, List.mem_filter, decide_eq_true_eq]
    exact ⟨List.mem_map_of_mem hkey, hchanged⟩

theorem InStep.failed {σ : Service} (h : σ.InStep) {g : Gateway}
    (hthere : ∀ i : ℕ, (g[i]?).isSome = (σ.gateway[i]?).isSome) :
    InStep { σ with gateway := g, unsaved := σ.changedKeys g ++ σ.unsaved } := by
  constructor
  · exact h.active
  · exact h.apart
  · exact h.desk.of_failed List.mem_cons_self (hthere _)
  · exact fun p hp => (h.phone p hp).of_failed (List.mem_cons_of_mem _ (Option.mem_toList.mpr hp)) (hthere _)

/-- The ways a pass can go. -/
theorem allowanceLoop_cases {σ : Service} {now : Time} {a : PassAnswers} (hactive : σ.user.revoked = false) :
    (∃ e, σ.allowanceLoop now a = (σ, .error e)) ∨
    (∃ plan u rolledOver g v e, σ.plans.get σ.user.plan = some plan ∧
      σ.user.sync plan σ.unitsPerDollar σ.syncEvery now σ.gateway a = some (u, rolledOver) ∧
      u.enforce plan σ.unitsPerDollar rolledOver σ.gateway a = (g, v) ∧
      σ.allowanceLoop now a = ({ σ with gateway := g, unsaved := σ.changedKeys g ++ σ.unsaved }, .error e)) ∨
    (∃ plan u rolledOver g v, σ.plans.get σ.user.plan = some plan ∧
      σ.user.sync plan σ.unitsPerDollar σ.syncEvery now σ.gateway a = some (u, rolledOver) ∧
      u.enforce plan σ.unitsPerDollar rolledOver σ.gateway a = (g, some v) ∧
      σ.allowanceLoop now a = ({ σ with
        user := v
        gateway := g
        unsaved := σ.unsaved.filter fun hash =>
          ¬(u.configureDesk plan σ.unitsPerDollar rolledOver ∧ hash = v.gateway.hash) ∧
            ¬(u.configurePhone plan σ.unitsPerDollar rolledOver ∧ v.phoneGateway.any fun p => p.hash = hash)
        spentUSD := if rolledOver then 0 else σ.spentUSD
        missedUSD := if rolledOver then 0 else σ.missedUSD }, .ok (v.entitlement plan))) ∨
    (∃ plan u g v lastSyncAt, σ.plans.get σ.user.plan = some plan ∧
      σ.user.sync plan σ.unitsPerDollar σ.syncEvery now σ.gateway a = some (u, false) ∧
      u.enforce plan σ.unitsPerDollar false σ.gateway a = (g, some v) ∧ v.usedUnits = σ.user.usedUnits ∧
      u.configureDesk plan σ.unitsPerDollar false = false ∧ u.configurePhone plan σ.unitsPerDollar false = false ∧
      σ.allowanceLoop now a = ({ σ with user := { σ.user with lastSyncAt } }, .ok (v.entitlement plan))) := by
  cases hplan : σ.plans.get σ.user.plan with
  | none => exact Or.inl ⟨.planMissing, by simp [allowanceLoop, hplan]⟩
  | some plan =>
    cases hsync : σ.user.sync plan σ.unitsPerDollar σ.syncEvery now σ.gateway a with
    | none => exact Or.inl ⟨.gateway, by simp [allowanceLoop, hplan, hactive, hsync]⟩
    | some read =>
      obtain ⟨u, rolledOver⟩ := read
      cases henforce : u.enforce plan σ.unitsPerDollar rolledOver σ.gateway a with
      | mk g v =>
        cases v with
        | none =>
          refine Or.inr (Or.inl ⟨plan, u, rolledOver, g, none, .gateway, rfl, hsync, henforce, ?_⟩)
          simp [allowanceLoop, hplan, hactive, hsync, henforce]
        | some v =>
          by_cases hchanged : rolledOver ∨ v.usedUnits ≠ σ.user.usedUnits ∨
              u.configureDesk plan σ.unitsPerDollar rolledOver ∨ u.configurePhone plan σ.unitsPerDollar rolledOver
          · cases hsaved : a.saved with
            | false =>
              refine Or.inr (Or.inl ⟨plan, u, rolledOver, g, some v, .store, rfl, hsync, henforce, ?_⟩)
              simp only [allowanceLoop, hplan, hactive, hsync, henforce, hsaved]
              rw [if_pos hchanged]
              rfl
            | true =>
              refine Or.inr (Or.inr (Or.inl ⟨plan, u, rolledOver, g, v, rfl, hsync, henforce, ?_⟩))
              simp only [allowanceLoop, hplan, hactive, hsync, henforce, hsaved]
              rw [if_pos hchanged]
              rfl
          · have hidle := hchanged
            simp only [not_or, ne_eq, not_not, Bool.not_eq_true] at hidle
            obtain ⟨rfl, hunits, hdesk, hphone⟩ := hidle
            refine Or.inr (Or.inr (Or.inr ⟨plan, u, g, v, if a.touched then v.lastSyncAt else σ.user.lastSyncAt, rfl,
              hsync, henforce, hunits, hdesk, hphone, ?_⟩))
            simp only [allowanceLoop, hplan, hactive, hsync, henforce]
            rw [if_neg hchanged]
            rfl

/-- What a pass that saved its row did to one of the row's keys. -/
def Passed (σ : Service) (g : Gateway) (before after : GatewayKey) (configured : Bool) (wanted : ℚ) (exhausted : Bool) :
    Prop :=
  if configured then
    after = { before with limitUSD := wanted } ∧
      ∃ k : RemoteKey, g[before.hash]? = some k ∧ k.limitUSD = wanted ∧ k.disabled = exhausted
  else after = before ∧ g[before.hash]? = σ.gateway[before.hash]? ∧ exhausted = σ.user.exhausted

theorem Passed.hash {σ : Service} {g : Gateway} {before after : GatewayKey} {configured : Bool} {wanted : ℚ}
    {exhausted : Bool} (h : σ.Passed g before after configured wanted exhausted) : after.hash = before.hash := by
  unfold Passed at h
  split at h
  · rw [h.1]
  · rw [h.1]

/-- A key a saved pass configured is in step, and one it left alone is as far as it was before. -/
theorem Passed.kept {σ τ : Service} {before after : GatewayKey} {configured : Bool} {wanted : ℚ}
    (h : σ.Passed τ.gateway before after configured wanted τ.user.exhausted) (hbefore : σ.Kept before)
    (hunsaved : configured = false → before.hash ∉ τ.unsaved → before.hash ∉ σ.unsaved) : τ.Kept after := by
  unfold Passed at h
  cases configured with
  | true =>
    obtain ⟨rfl, k, hk, hlimit, hdisabled⟩ := h
    exact ⟨k, hk, fun _ => ⟨hlimit, hdisabled⟩⟩
  | false =>
    obtain ⟨rfl, hsame, hexhausted⟩ := h
    obtain ⟨k, hk, hkept⟩ := hbefore
    refine ⟨k, hsame.trans hk, fun hsaved => ?_⟩
    rw [hexhausted]
    exact hkept (hunsaved rfl hsaved)

/-- A key a pass left alone is as wanted where the row spoke for it and wanted nothing else. -/
theorem Passed.enforced {σ : Service} {g : Gateway} {before after : GatewayKey} {configured : Bool} {wanted : ℚ}
    {exhausted : Bool} (h : σ.Passed g before after configured wanted exhausted) (hbefore : σ.Kept before)
    (hsettled : configured = false → before.hash ∉ σ.unsaved ∧ wanted = before.limitUSD) :
    ∃ k : RemoteKey, g[after.hash]? = some k ∧ k.limitUSD = wanted ∧ k.disabled = exhausted := by
  rw [h.hash]
  unfold Passed at h
  cases configured with
  | true => exact h.2
  | false =>
    obtain ⟨-, hsame, hexhausted⟩ := h
    obtain ⟨hsaved, hwanted⟩ := hsettled rfl
    obtain ⟨k, hk, hkept⟩ := hbefore
    obtain ⟨hlimit, hdisabled⟩ := hkept hsaved
    exact ⟨k, hsame.trans hk, hlimit.trans hwanted.symm, hdisabled.trans hexhausted.symm⟩

/-- What a pass whose calls were all answered well did to the row's keys. -/
theorem passed_of_enforce {σ : Service} {plan : Plan} {now : Time} {a : PassAnswers} {u v : UserAllowance}
    {rolledOver : Bool} {g : Gateway} (h : σ.InStep)
    (hsync : σ.user.sync plan σ.unitsPerDollar σ.syncEvery now σ.gateway a = some (u, rolledOver))
    (henforce : u.enforce plan σ.unitsPerDollar rolledOver σ.gateway a = (g, some v)) :
    σ.Passed g σ.user.gateway v.gateway (u.configureDesk plan σ.unitsPerDollar rolledOver)
        (u.wantLimit plan σ.unitsPerDollar) (u.shouldBeExhausted plan) ∧
      (∀ p ∈ σ.user.phoneGateway, ∃ q, v.phoneGateway = some q ∧
        σ.Passed g p q (u.configurePhone plan σ.unitsPerDollar rolledOver) (u.wantPhoneLimit plan σ.unitsPerDollar)
          (u.shouldBeExhausted plan)) ∧
      (σ.user.phoneGateway = none → v.phoneGateway = none) ∧
      v = { u with gateway := v.gateway, phoneGateway := v.phoneGateway, exhausted := u.shouldBeExhausted plan } := by
  obtain ⟨hgateway, hphone, hexhausted, -, -⟩ := UserAllowance.sync_keeps hsync
  have hapart : ∀ p ∈ u.phoneGateway, p.hash ≠ u.gateway.hash := by
    rw [hgateway, hphone]
    exact h.apart
  obtain ⟨hdesk, hphones, hnone, hv⟩ := UserAllowance.enforce_ok henforce hapart
  rw [hgateway] at hdesk
  rw [hphone] at hphones hnone
  refine ⟨?_, fun p hp => ?_, hnone, hv⟩
  · unfold Passed
    cases hconfigured : u.configureDesk plan σ.unitsPerDollar rolledOver with
    | true =>
      rw [hconfigured] at hdesk
      exact hdesk
    | false =>
      rw [hconfigured] at hdesk
      exact ⟨hdesk.1, hdesk.2, (UserAllowance.exhausted_of_not_flipped
        (UserAllowance.not_flipped_of_desk hconfigured)).trans hexhausted⟩
  · have hone := hphones p hp
    unfold Passed
    cases hconfigured : u.configurePhone plan σ.unitsPerDollar rolledOver with
    | true =>
      rw [hconfigured] at hone
      exact ⟨_, hone.1, rfl, hone.2⟩
    | false =>
      rw [hconfigured] at hone
      have hsettled : u.flipped plan rolledOver = false := by
        unfold UserAllowance.configurePhone at hconfigured
        rw [hphone, hp] at hconfigured
        simp only [Option.any_some, decide_eq_false_iff_not, not_or, Bool.not_eq_true] at hconfigured
        exact hconfigured.1
      exact ⟨p, hone.1.trans hp, rfl, hone.2, (UserAllowance.exhausted_of_not_flipped hsettled).trans hexhausted⟩

theorem InStep.pass {σ : Service} (h : σ.InStep) (now : Time) (a : PassAnswers) : (σ.allowanceLoop now a).1.InStep := by
  rcases @allowanceLoop_cases σ now a h.active with ⟨e, heq⟩ |
    ⟨plan, u, rolledOver, g, v, e, hplan, hsync, henforce, heq⟩ |
    ⟨plan, u, rolledOver, g, v, hplan, hsync, henforce, heq⟩ |
    ⟨plan, u, g, v, lastSyncAt, hplan, hsync, henforce, hunits, hdesk, hphone, heq⟩
  · rw [heq]
    exact h
  · rw [heq]
    refine h.failed fun i => ?_
    have hthere := congrArg Option.isSome (UserAllowance.enforce_map (f := RemoteKey.usageUSD) (fun _ _ _ => rfl) henforce i)
    rwa [Option.isSome_map, Option.isSome_map] at hthere
  · rw [heq]
    obtain ⟨hdesk, hphones, hnone, hv⟩ := passed_of_enforce h hsync henforce
    obtain ⟨-, -, -, hrevoked, -⟩ := UserAllowance.sync_keeps hsync
    have hexhausted : v.exhausted = u.shouldBeExhausted plan := by rw [hv]
    rw [← hexhausted] at hdesk
    have stored (q : GatewayKey) (hq : q ∈ v.phoneGateway) : ∃ p ∈ σ.user.phoneGateway, σ.Passed g p q
        (u.configurePhone plan σ.unitsPerDollar rolledOver) (u.wantPhoneLimit plan σ.unitsPerDollar) v.exhausted := by
      cases hbefore : σ.user.phoneGateway with
      | none => rw [hnone hbefore] at hq; cases hq
      | some p =>
        obtain ⟨q', hq', hpassed⟩ := hphones p hbefore
        rw [hq'] at hq
        obtain rfl := Option.some.inj hq
        exact ⟨p, rfl, hexhausted ▸ hpassed⟩
    constructor
    · simp only
      rw [hv]
      exact hrevoked.trans h.active
    · intro q hq
      obtain ⟨p, hp, hpassed⟩ := stored q hq
      simp only
      rw [hpassed.hash, hdesk.hash]
      exact h.apart p hp
    · refine hdesk.kept h.desk fun hconfigured hsaved hmem => hsaved (List.mem_filter.mpr ⟨hmem, ?_⟩)
      simp only [hconfigured, Bool.false_eq_true, false_and, not_false_eq_true, true_and, decide_eq_true_eq, not_and,
        Bool.not_eq_true, Option.any_eq_false_iff_get, decide_eq_false_iff_not]
      intro hconf hsome
      have hq : v.phoneGateway.get hsome ∈ v.phoneGateway := Option.get_mem hsome
      obtain ⟨p, hp, hpassed⟩ := stored _ hq
      rw [hpassed.hash]
      exact h.apart p hp
    · intro q hq
      obtain ⟨p, hp, hpassed⟩ := stored q hq
      refine hpassed.kept (h.phone p hp) fun hconfigured hsaved hmem => hsaved (List.mem_filter.mpr ⟨hmem, ?_⟩)
      have hne : p.hash ≠ v.gateway.hash := by
        rw [hdesk.hash]
        exact h.apart p hp
      simp [hconfigured, hne]
  · rw [heq]
    exact h.inherit (.refl _) rfl rfl rfl rfl (Or.inl rfl)

/-- A key just minted into the row. -/
theorem InStep.minted {σ : Service} (h : σ.InStep) {g : Gateway} {limitUSD : ℚ} {handed : List ℕ} {k : RemoteKey}
    (hgateway : σ.gateway.KeepsSettings g) (hk : g[σ.gateway.length]? = some k) (hlimit : k.limitUSD = limitUSD)
    (hdisabled : k.disabled = σ.user.exhausted) :
    InStep { σ with
      user := { σ.user with phoneGateway := some { hash := σ.gateway.length, limitUSD }, phoneUsageBaselineUSD := 0 }
      gateway := g
      handed } := by
  constructor
  · exact h.active
  · intro p hp
    obtain rfl := Option.some.inj hp
    obtain ⟨k', hk', -⟩ := h.desk
    have hlt := (List.getElem?_eq_some_iff.mp hk').1
    simp only
    omega
  · obtain ⟨k', hk', hsame⟩ := h.desk
    obtain ⟨k'', hk'', hlimit', hdisabled'⟩ := hgateway _ k' hk'
    refine ⟨k'', hk'', fun hsaved => ?_⟩
    rw [hlimit', hdisabled']
    exact hsame hsaved
  · intro p hp
    obtain rfl := Option.some.inj hp
    exact ⟨k, hk, fun _ => ⟨hlimit, hdisabled⟩⟩

theorem InStep.mint {σ τ : Service} (h : σ.InStep) {a : MintAnswers} (hmint : σ.mintPhoneKey a = some τ) : τ.InStep := by
  obtain ⟨plan, -, rfl⟩ := Option.map_eq_some_iff.mp hmint
  by_cases hanswered : a.mint = .done
  · simp only [hanswered, ne_eq, not_true_eq_false, if_false, Call.took, reduceCtorEq, not_false_eq_true, decide_true,
      if_true]
    have hadded : σ.gateway.KeepsSettings (σ.gateway ++ [{ limitUSD := σ.user.allowance plan / σ.unitsPerDollar }]) :=
      Gateway.keepsSettings_append _ _
    by_cases hexhausted : σ.user.exhausted = true
    · rw [if_pos hexhausted]
      generalize hcalled : Gateway.configure (σ.gateway ++ [{ limitUSD := σ.user.allowance plan / σ.unitsPerDollar }])
        σ.gateway.length (σ.user.allowance plan / σ.unitsPerDollar) true a.configure = called
      obtain ⟨g, ok⟩ := called
      have hkept : σ.gateway.KeepsSettings g := by
        intro i k hk
        have hlt := (List.getElem?_eq_some_iff.mp hk).1
        have hother := Gateway.configure_of_ne
          (σ.gateway ++ [{ limitUSD := σ.user.allowance plan / σ.unitsPerDollar }])
          (σ.user.allowance plan / σ.unitsPerDollar) true a.configure (show i ≠ σ.gateway.length by omega)
        rw [hcalled] at hother
        refine ⟨k, ?_, rfl, rfl⟩
        rw [hother, List.getElem?_append_left hlt]
        exact hk
      simp only
      split
      · exact h.inherit (hkept.trans (Gateway.keepsSettings_revoke _ _ _)) rfl rfl rfl rfl (Or.inl rfl)
      · next hstored =>
        simp only [Bool.not_eq_true', not_or, Bool.not_eq_false] at hstored
        obtain ⟨rfl, -⟩ := hstored
        obtain ⟨k, hk, hlimit, hdisabled⟩ := Gateway.configure_ok hcalled
        exact h.minted hkept hk hlimit (hdisabled.trans hexhausted.symm)
    · rw [if_neg hexhausted]
      simp only
      split
      · exact h.inherit (hadded.trans (Gateway.keepsSettings_revoke _ _ _)) rfl rfl rfl rfl (Or.inl rfl)
      · exact h.minted (k := { limitUSD := σ.user.allowance plan / σ.unitsPerDollar }) hadded (by simp) rfl
          (Bool.not_eq_true _ ▸ hexhausted).symm
  · simp only [ne_eq, hanswered, not_false_eq_true, if_true]
    split
    · exact h.inherit (Gateway.keepsSettings_append _ _) rfl rfl rfl rfl (Or.inl rfl)
    · exact h.inherit (.refl _) rfl rfl rfl rfl (Or.inl rfl)

theorem InStep.drop {σ : Service} (h : σ.InStep) (a : DropAnswers) : (σ.dropPhoneKey a).InStep := by
  unfold dropPhoneKey
  split
  · exact h
  · simp only
    split
    · exact h.inherit ((Gateway.keepsSettings_spend _ _ _).trans (Gateway.keepsSettings_revoke _ _ _)) rfl rfl rfl rfl
        (Or.inl rfl)
    · exact h.inherit ((Gateway.keepsSettings_spend _ _ _).trans (Gateway.keepsSettings_revoke _ _ _)) rfl rfl rfl rfl
        (Or.inr rfl)

theorem inStep_step {σ τ : Service} {a : Action} (h : σ.InStep) (hnext : σ.Next a τ) : τ.InStep := by
  cases a with
  | pass now a =>
    obtain rfl := Option.some.inj hnext
    exact h.pass now a
  | spend hash usd =>
    simp only [Next, step] at hnext
    split at hnext
    · obtain rfl := Option.some.inj hnext
      exact h.inherit (Gateway.keepsSettings_spend _ _ _) rfl rfl rfl rfl (Or.inl rfl)
    · cases hnext
  | changeAllowance request now usage phoneUsage =>
    simp only [Next, step, changeAllowance] at hnext
    split at hnext
    · cases hnext
    · split at hnext
      · obtain ⟨⟨desk, phone⟩, -, rfl⟩ := Option.map_eq_some_iff.mp hnext
        exact h.inherit (.refl _) rfl rfl rfl rfl (Or.inl rfl)
      · obtain rfl := Option.some.inj hnext
        exact h.inherit (.refl _) rfl rfl rfl rfl (Or.inl rfl)
  | putPlan id plan =>
    simp only [Next, step] at hnext
    split at hnext
    · obtain rfl := Option.some.inj hnext
      exact h.inherit (.refl _) rfl rfl rfl rfl (Or.inl rfl)
    · cases hnext
  | putSettings unitsPerDollar =>
    simp only [Next, step] at hnext
    split at hnext
    · obtain rfl := Option.some.inj hnext
      exact h.inherit (.refl _) rfl rfl rfl rfl (Or.inl rfl)
    · cases hnext
  | mint a =>
    simp only [Next, step] at hnext
    split at hnext
    · cases hnext
    · exact h.mint hnext
  | drop a =>
    simp only [Next, step] at hnext
    split at hnext
    · obtain rfl := Option.some.inj hnext
      exact h.drop a
    · cases hnext

/-- Row and gateway are in step in every state reached, but for keys a failed pass changed. -/
theorem inStep {σ : Service} (hσ : Reachable Next Initial σ) : σ.InStep := by
  refine hσ.invariant InStep ?_ fun σ a τ h hnext => inStep_step h hnext
  rintro σ ⟨plans, unitsPerDollar, syncEvery, id, plan, now, -, -, rfl⟩
  exact ⟨rfl, by simp [connected], ⟨_, rfl, fun _ => ⟨rfl, rfl⟩⟩, by simp [connected]⟩

end Service

/-! ## The balance enforced -/

/-- Each key is one to configure, or one no failed pass has changed whose cap is already as wanted. -/
def UserAllowance.ConfiguresUnsettled (u : UserAllowance) (plan : Plan) (unitsPerDollar : ℚ) (rolledOver : Bool)
    (unsaved : List ℕ) : Prop :=
  (u.configureDesk plan unitsPerDollar rolledOver = false →
    u.gateway.hash ∉ unsaved ∧ u.wantLimit plan unitsPerDollar = u.gateway.limitUSD) ∧
  ∀ p ∈ u.phoneGateway, u.configurePhone plan unitsPerDollar rolledOver = false →
    p.hash ∉ unsaved ∧ u.wantPhoneLimit plan unitsPerDollar = p.limitUSD

instance (u : UserAllowance) (plan : Plan) (unitsPerDollar : ℚ) (rolledOver : Bool) (unsaved : List ℕ) :
    Decidable (u.ConfiguresUnsettled plan unitsPerDollar rolledOver unsaved) :=
  inferInstanceAs (Decidable (_ ∧ _))

namespace Service

/-- Each stored key is switched as the pass answered, and capped as its row and plan want. -/
def Enforced (σ : Service) (plan : Plan) (e : Entitlement) : Prop :=
  (∃ k : RemoteKey, σ.gateway[σ.user.gateway.hash]? = some k ∧ k.limitUSD = σ.user.wantLimit plan σ.unitsPerDollar ∧
    k.disabled = decide (e.status = .exhausted)) ∧
  ∀ p ∈ σ.user.phoneGateway, ∃ k : RemoteKey, σ.gateway[p.hash]? = some k ∧
    k.limitUSD = σ.user.wantPhoneLimit plan σ.unitsPerDollar ∧ k.disabled = decide (e.status = .exhausted)

/-- A pass that reaches its switches configures every key a failed pass left changed at the gateway, and every key
whose cap is to change at all. -/
def Settles (σ : Service) (now : Time) (a : PassAnswers) : Prop :=
  ∀ plan ∈ σ.plans.get σ.user.plan,
    ∀ read ∈ σ.user.sync plan σ.unitsPerDollar σ.syncEvery now σ.gateway a,
      read.1.ConfiguresUnsettled plan σ.unitsPerDollar read.2 σ.unsaved

instance (σ : Service) (now : Time) (a : PassAnswers) : Decidable (σ.Settles now a) :=
  inferInstanceAs (Decidable (∀ plan ∈ σ.plans.get σ.user.plan,
    ∀ read ∈ σ.user.sync plan σ.unitsPerDollar σ.syncEvery now σ.gateway a,
      read.1.ConfiguresUnsettled plan σ.unitsPerDollar read.2 σ.unsaved))

end Service

open Service

/-- In every state reached, a pass that configures every key a failed pass left changed switches and caps each stored
key as the balance it answers says. -/
theorem enforcement_matches_balance {σ τ : Service} (hσ : Reachable Service.Next Service.Initial σ) {now : Time}
    {a : PassAnswers} {e : Entitlement} {plan : Plan} (hplan : σ.plans.get σ.user.plan = some plan)
    (hsettles : σ.Settles now a) (hpass : σ.allowanceLoop now a = (τ, .ok e)) : τ.Enforced plan e := by
  have h := inStep hσ
  rcases @allowanceLoop_cases σ now a h.active with ⟨e', heq⟩ |
    ⟨plan', u, rolledOver, g, v, e', hplan', hsync, henforce, heq⟩ |
    ⟨plan', u, rolledOver, g, v, hplan', hsync, henforce, heq⟩ |
    ⟨plan', u, g, v, lastSyncAt, hplan', hsync, henforce, hunits, hdeskIdle, hphoneIdle, heq⟩
  · rw [heq] at hpass
    cases (Prod.mk.inj hpass).2
  · rw [heq] at hpass
    cases (Prod.mk.inj hpass).2
  · obtain rfl := Option.some.inj (hplan.symm.trans hplan')
    rw [heq] at hpass
    obtain ⟨rfl, he⟩ := Prod.mk.inj hpass
    obtain rfl := Except.ok.inj he
    obtain ⟨hdesk, hphones, hnone, hv⟩ := passed_of_enforce h hsync henforce
    obtain ⟨hdeskSettled, hphoneSettled⟩ := hsettles plan hplan (u, rolledOver) hsync
    obtain ⟨hgateway, hphone, -, -, -⟩ := UserAllowance.sync_keeps hsync
    have hstatus : decide ((v.entitlement plan).status = .exhausted) = u.shouldBeExhausted plan := by
      rw [hv]
      cases hshould : u.shouldBeExhausted plan <;> simp [UserAllowance.entitlement]
    have hwant : v.wantLimit plan σ.unitsPerDollar = u.wantLimit plan σ.unitsPerDollar := by rw [hv]; rfl
    have hwantPhone : v.wantPhoneLimit plan σ.unitsPerDollar = u.wantPhoneLimit plan σ.unitsPerDollar := by
      rw [hv]
      rfl
    unfold Enforced
    simp only [hstatus, hwant, hwantPhone]
    refine ⟨hdesk.enforced h.desk (hgateway ▸ hdeskSettled), fun q hq => ?_⟩
    cases hbefore : σ.user.phoneGateway with
    | none =>
      rw [hnone hbefore] at hq
      cases hq
    | some p =>
      obtain ⟨q', hq', hpassed⟩ := hphones p hbefore
      rw [hq'] at hq
      obtain rfl := Option.some.inj hq
      exact hpassed.enforced (h.phone p hbefore) (hphoneSettled p (hphone.trans hbefore))
  · obtain rfl := Option.some.inj (hplan.symm.trans hplan')
    rw [heq] at hpass
    obtain ⟨rfl, he⟩ := Prod.mk.inj hpass
    obtain rfl := Except.ok.inj he
    obtain ⟨hdesk, -, -, hv⟩ := passed_of_enforce h hsync henforce
    obtain ⟨hdeskSettled, hphoneSettled⟩ := hsettles plan hplan (u, false) hsync
    obtain ⟨hgateway, hphone, -, -, -⟩ := UserAllowance.sync_keeps hsync
    have hu := UserAllowance.sync_counts hsync
    have hstatus : decide ((v.entitlement plan).status = .exhausted) = u.shouldBeExhausted plan := by
      rw [hv]
      cases hshould : u.shouldBeExhausted plan <;> simp [UserAllowance.entitlement]
    -- Nothing was configured, so the keys stand as they did before.
    have idle (key : GatewayKey) (wanted : ℚ) :
        σ.Passed σ.gateway key key false wanted (u.shouldBeExhausted plan) := by
      unfold Passed at hdesk
      rw [hdeskIdle] at hdesk
      exact ⟨rfl, rfl, hdesk.2.2⟩
    have hwant : { σ.user with lastSyncAt }.wantLimit plan σ.unitsPerDollar = u.wantLimit plan σ.unitsPerDollar := by
      rw [hu]
      rfl
    have hwantPhone : { σ.user with lastSyncAt }.wantPhoneLimit plan σ.unitsPerDollar =
        u.wantPhoneLimit plan σ.unitsPerDollar := by
      rw [hu]
      rfl
    unfold Enforced
    simp only [hstatus, hwant, hwantPhone]
    refine ⟨(idle _ _).enforced h.desk fun _ => hgateway ▸ hdeskSettled hdeskIdle, fun p hp => ?_⟩
    exact (idle _ _).enforced (h.phone p hp) fun _ => hphoneSettled p (hphone.trans hp) hphoneIdle

/-! ## A top-up half done and taken back -/

def plusPlan : Plan := { allowanceUnits := 500, cycleDays := 30 }

def connectedUser : Service := connected [("plus", plusPlan)] 100 (30 * 1000000) "plus" plusPlan 0

def minute : Time := 60 * 1000000

/-- The allowance spent at the desk and noticed. -/
def spentOut : List Service.Action := [.spend 0 5, .pass minute {}]

/-- A top-up whose pass switches the key on and saves nothing, then taken back. -/
def toppedUpAndBack : List Service.Action :=
  spentOut ++ [.changeAllowance { adjustUnits := 200 } (2 * minute) true true, .pass (3 * minute) { saved := false },
    .changeAllowance { adjustUnits := -200 } (4 * minute) true true]

def serviceAfter (actions : List Service.Action) : Service := (follow Service.step connectedUser actions).getD connectedUser

theorem serviceAfter_reachable {actions : List Service.Action}
    (h : follow Service.step connectedUser actions = some (serviceAfter actions)) :
    Reachable Service.Next Service.Initial (serviceAfter actions) :=
  ⟨connectedUser, actions, ⟨_, _, _, _, _, _, rfl, by norm_num, rfl⟩, Run.of_follow (fun _ _ _ h => h) h⟩

/-- The pass after it answers that the allowance is spent, and the desk's key works, with room for two dollars more. -/
theorem exhausted_key_enabled :
    Reachable Service.Next Service.Initial (serviceAfter toppedUpAndBack) ∧
    ∃ τ e, (serviceAfter toppedUpAndBack).allowanceLoop (5 * minute) {} = (τ, .ok e) ∧ e.status = .exhausted ∧
      ∃ k : RemoteKey, τ.gateway[τ.user.gateway.hash]? = some k ∧ k.disabled = false ∧ k.limitUSD = 7 ∧ k.usageUSD = 5 ∧
        τ.user.wantLimit plusPlan τ.unitsPerDollar = 5 := by
  refine ⟨serviceAfter_reachable (by decide +kernel), ?_⟩
  refine ⟨((serviceAfter toppedUpAndBack).allowanceLoop (5 * minute) {}).1,
    { status := .exhausted, allowanceUnits := 500, usedUnits := 500, cycleEndsAt := 30 * day }, by decide +kernel, rfl,
    { limitUSD := 7, disabled := false, usageUSD := 5 }, by decide +kernel, rfl, rfl, rfl, by decide +kernel⟩

/-- A phone that spends the allowance alone: the next pass switches both keys off. -/
theorem both_keys_switched_off : ∃ τ e, (serviceAfter [.mint {}, .spend 1 5]).allowanceLoop minute {} = (τ, .ok e) ∧
    e.status = .exhausted ∧ τ.Enforced plusPlan e := by
  have hpass : (serviceAfter [.mint {}, .spend 1 5]).allowanceLoop minute {} =
      (((serviceAfter [.mint {}, .spend 1 5]).allowanceLoop minute {}).1,
        .ok { status := .exhausted, allowanceUnits := 500, usedUnits := 500, cycleEndsAt := 30 * day }) := by
    decide +kernel
  exact ⟨_, _, hpass, rfl, enforcement_matches_balance (serviceAfter_reachable (by decide +kernel))
    (by decide +kernel) (by decide +kernel) hpass⟩

end Thock.Plus
