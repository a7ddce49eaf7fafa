import Thock.Plus.Enforcement

/-!
# The spend counted against a cycle

What a pass counts is the spend of two keys above their baselines. A dropped key's spend is carried
into the desk key's side of that sum, so the count stays the total spent through every key the user
had since the cycle began, but for what a key spends after the drop that forgets it has read it.
-/

namespace Thock.Plus

open Transition

/-! ## Readings -/

namespace Gateway

/-- What a key has spent, whether or not the gateway would say. -/
def spentThrough (g : Gateway) (hash : ℕ) : ℚ := ((g[hash]?).map RemoteKey.usageUSD).getD 0

theorem spentThrough_congr {g g' : Gateway} {hash : ℕ}
    (h : (g'[hash]?).map RemoteKey.usageUSD = (g[hash]?).map RemoteKey.usageUSD) :
    g'.spentThrough hash = g.spentThrough hash := by
  unfold spentThrough
  rw [h]

theorem usage_eq_some {g : Gateway} {hash : ℕ} {answers : Bool} {usd : ℚ} (h : g.usage hash answers = some usd) :
    usd = g.spentThrough hash ∧ g.live hash = true := by
  unfold usage at h
  split at h
  · obtain ⟨k, hk, rfl⟩ := Option.map_eq_some_iff.mp h
    obtain ⟨hthere, hlive⟩ := Option.filter_eq_some_iff.mp hk
    exact ⟨by simp [spentThrough, hthere], by simpa [live, hthere] using hlive⟩
  · cases h

theorem spentThrough_spend_self {g : Gateway} {hash : ℕ} (usd : ℚ) (h : (g[hash]?).isSome = true) :
    (g.spend hash usd).spentThrough hash = g.spentThrough hash + usd := by
  obtain ⟨k, hk⟩ := Option.isSome_iff_exists.mp h
  have hlt := (List.getElem?_eq_some_iff.mp hk).1
  unfold spend
  rw [hk]
  simp only [spentThrough]
  rw [List.getElem?_set_self hlt, hk]
  rfl

theorem spentThrough_spend_of_ne {g : Gateway} {hash i : ℕ} (usd : ℚ) (h : i ≠ hash) :
    (g.spend hash usd).spentThrough i = g.spentThrough i := by
  unfold spend
  split
  · rfl
  · simp only [spentThrough]
    rw [List.getElem?_set_ne (Ne.symm h)]

theorem revoke_usage (g : Gateway) (hash i : ℕ) (call : Call) :
    ((g.revoke hash call)[i]?).map RemoteKey.usageUSD = (g[i]?).map RemoteKey.usageUSD := by
  unfold revoke
  split
  · rfl
  · next k hk =>
    split
    · refine map_set hk ?_ i
      rfl
    · rfl

theorem append_usage {g : Gateway} {hash : ℕ} (k : RemoteKey) (h : (g[hash]?).isSome = true) :
    ((g ++ [k])[hash]?).map RemoteKey.usageUSD = (g[hash]?).map RemoteKey.usageUSD := by
  obtain ⟨other, hother⟩ := Option.isSome_iff_exists.mp h
  have hlt := (List.getElem?_eq_some_iff.mp hother).1
  rw [List.getElem?_append_left hlt]

theorem there_of_live {g : Gateway} {hash : ℕ} (h : g.live hash = true) : (g[hash]?).isSome = true := by
  unfold live at h
  cases hk : g[hash]? with
  | none => rw [hk] at h; cases h
  | some k => rfl

end Gateway

namespace Service

/-- What the phone's key has spent, nothing where there is none. -/
def phoneReading (g : Gateway) (phone : Option GatewayKey) : ℚ := (phone.map fun p => g.spentThrough p.hash).getD 0

/-- The spend a pass would count now. -/
def countedUSD (σ : Service) : ℚ :=
  σ.user.spent (σ.gateway.spentThrough σ.user.gateway.hash) (phoneReading σ.gateway σ.user.phoneGateway)

theorem keyUsage_eq_some {g : Gateway} {u : UserAllowance} {desk phone : Bool} {read : ℚ × ℚ}
    (h : g.keyUsage u desk phone = some read) :
    read = (g.spentThrough u.gateway.hash, phoneReading g u.phoneGateway) := by
  obtain ⟨usage, husage, hrest⟩ := Option.bind_eq_some_iff.mp h
  obtain ⟨rfl, -⟩ := Gateway.usage_eq_some husage
  split at hrest
  · next hnone =>
    rw [← Option.some.inj hrest, hnone]
    rfl
  · next p hp =>
    obtain ⟨phoneUsage, hphone, rfl⟩ := Option.map_eq_some_iff.mp hrest
    obtain ⟨rfl, -⟩ := Gateway.usage_eq_some hphone
    rw [hp]
    rfl

/-! ## What every step keeps -/

/-- The drop of a phone's key finds its usage readable. -/
def Readable (σ : Service) : Action → Prop
  | .drop a => ∀ p ∈ σ.user.phoneGateway, (σ.gateway.usage p.hash a.usage).isSome = true
  | _ => True

/-- No baseline is above its key's reading, and the sum above them is what was spent. -/
structure Balanced (σ : Service) : Prop where
  desk : σ.user.usageBaselineUSD ≤ σ.gateway.spentThrough σ.user.gateway.hash
  phone : σ.user.phoneUsageBaselineUSD ≤ phoneReading σ.gateway σ.user.phoneGateway
  bare : σ.user.phoneGateway = none → σ.user.phoneUsageBaselineUSD = 0
  total : σ.countedUSD = σ.spentUSD - σ.missedUSD

/-- Where no baseline is above its reading, the count is a plain sum. -/
theorem counted_eq {σ : Service} (hdesk : σ.user.usageBaselineUSD ≤ σ.gateway.spentThrough σ.user.gateway.hash)
    (hphone : σ.user.phoneUsageBaselineUSD ≤ phoneReading σ.gateway σ.user.phoneGateway) :
    σ.countedUSD = σ.gateway.spentThrough σ.user.gateway.hash - σ.user.usageBaselineUSD +
      (phoneReading σ.gateway σ.user.phoneGateway - σ.user.phoneUsageBaselineUSD) := by
  unfold countedUSD UserAllowance.spent
  rw [max_eq_right (by linarith), max_eq_right (by linarith)]

/-- Readings and baselines that stay as they are, keep the count. -/
theorem Balanced.inherit {σ τ : Service} (h : σ.Balanced)
    (hdesk : τ.gateway.spentThrough τ.user.gateway.hash = σ.gateway.spentThrough σ.user.gateway.hash)
    (hphone : phoneReading τ.gateway τ.user.phoneGateway = phoneReading σ.gateway σ.user.phoneGateway)
    (hbase : τ.user.usageBaselineUSD = σ.user.usageBaselineUSD)
    (hphoneBase : τ.user.phoneUsageBaselineUSD = σ.user.phoneUsageBaselineUSD)
    (hnone : τ.user.phoneGateway = none → σ.user.phoneGateway = none)
    (hspent : τ.spentUSD = σ.spentUSD) (hmissed : τ.missedUSD = σ.missedUSD) :
    τ.Balanced ∧ τ.countedUSD = σ.countedUSD := by
  have hcount : τ.countedUSD = σ.countedUSD := by
    unfold countedUSD UserAllowance.spent
    rw [hdesk, hphone, hbase, hphoneBase]
  refine ⟨⟨?_, ?_, ?_, ?_⟩, hcount⟩
  · rw [hbase, hdesk]
    exact h.desk
  · rw [hphoneBase, hphone]
    exact h.phone
  · intro hτ
    rw [hphoneBase]
    exact h.bare (hnone hτ)
  · rw [hcount, hspent, hmissed]
    exact h.total

/-- Baselines set to the readings start the count from zero. -/
theorem balanced_afresh {τ : Service} (hdesk : τ.user.usageBaselineUSD = τ.gateway.spentThrough τ.user.gateway.hash)
    (hphone : τ.user.phoneUsageBaselineUSD = phoneReading τ.gateway τ.user.phoneGateway) (hspent : τ.spentUSD = 0)
    (hmissed : τ.missedUSD = 0) : τ.Balanced ∧ τ.countedUSD = 0 := by
  have hcount : τ.countedUSD = 0 := by
    rw [counted_eq (by rw [hdesk]) (by rw [hphone]), hdesk, hphone]
    ring
  refine ⟨⟨by rw [hdesk], by rw [hphone], fun hnone => ?_, ?_⟩, hcount⟩
  · rw [hphone, hnone]
    rfl
  · rw [hcount, hspent, hmissed, sub_zero]

/-- A step that starts the count from zero: a pass that succeeds past the cycle's end, and a reset. -/
def BeginsCycle (σ : Service) : Action → Prop
  | .pass now a => (∃ e, (σ.allowanceLoop now a).2 = .ok e) ∧
      ∃ plan ∈ σ.plans.get σ.user.plan, σ.user.cycleStartedAt + plan.cycleLength ≤ now
  | .changeAllowance request _ _ _ => request.reset = true
  | _ => False

/-- What a step does to the count. -/
structure Counts (σ : Service) (a : Action) (τ : Service) : Prop where
  balanced : τ.Balanced
  afresh : σ.BeginsCycle a → τ.countedUSD = 0 ∧ τ.spentUSD = 0 ∧ τ.missedUSD = 0
  onwards : ¬σ.BeginsCycle a → σ.countedUSD ≤ τ.countedUSD

theorem sync_rolledOver {u v : UserAllowance} {plan : Plan} {unitsPerDollar : ℚ} {syncEvery now : Time} {g : Gateway}
    {a : PassAnswers} {rolledOver : Bool} (h : u.sync plan unitsPerDollar syncEvery now g a = some (v, rolledOver)) :
    (rolledOver = true ↔ u.cycleStartedAt + plan.cycleLength ≤ now) ∧
      (rolledOver = true → v.usageBaselineUSD = g.spentThrough u.gateway.hash ∧
        v.phoneUsageBaselineUSD = phoneReading g u.phoneGateway ∧ v.usedUnits = 0) := by
  unfold UserAllowance.sync at h
  split at h
  · next hended =>
    obtain ⟨⟨usage, phoneUsage⟩, hread, heq⟩ := Option.map_eq_some_iff.mp h
    obtain ⟨rfl, rfl⟩ := Prod.mk.inj heq
    obtain ⟨rfl, rfl⟩ := Prod.mk.inj (keyUsage_eq_some hread)
    exact ⟨by simp [hended], fun _ => ⟨rfl, rfl, rfl⟩⟩
  · next hrunning =>
    have hfalse : rolledOver = false := by
      split at h
      · obtain ⟨⟨usage, phoneUsage⟩, -, heq⟩ := Option.map_eq_some_iff.mp h
        exact (Prod.mk.inj heq).2.symm
      · exact (Prod.mk.inj (Option.some.inj h)).2.symm
    subst hfalse
    exact ⟨by simp [hrunning], by simp⟩

/-- What the pass kept of the keys' hashes. -/
theorem passed_readings {σ : Service} {plan : Plan} {now : Time} {a : PassAnswers} {u v : UserAllowance}
    {rolledOver : Bool} {g : Gateway} (h : σ.InStep)
    (hsync : σ.user.sync plan σ.unitsPerDollar σ.syncEvery now σ.gateway a = some (u, rolledOver))
    (henforce : u.enforce plan σ.unitsPerDollar rolledOver σ.gateway a = (g, some v)) :
    g.spentThrough v.gateway.hash = σ.gateway.spentThrough σ.user.gateway.hash ∧
      phoneReading g v.phoneGateway = phoneReading σ.gateway σ.user.phoneGateway ∧
      (v.phoneGateway = none → σ.user.phoneGateway = none) ∧
      v.usageBaselineUSD = u.usageBaselineUSD ∧ v.phoneUsageBaselineUSD = u.phoneUsageBaselineUSD ∧
      v.usedUnits = u.usedUnits := by
  obtain ⟨hdesk, hphones, hnone, hv⟩ := passed_of_enforce h hsync henforce
  have hspent (hash : ℕ) : g.spentThrough hash = σ.gateway.spentThrough hash :=
    Gateway.spentThrough_congr (UserAllowance.enforce_map (fun _ _ _ => rfl) henforce hash)
  refine ⟨?_, ?_, fun hv' => ?_, by rw [hv], by rw [hv], by rw [hv]⟩
  · rw [hdesk.hash, hspent]
  · cases hbefore : σ.user.phoneGateway with
    | none => rw [hnone hbefore]; rfl
    | some p =>
      obtain ⟨q, hq, hpassed⟩ := hphones p hbefore
      rw [hq]
      simp only [phoneReading, Option.map_some, Option.getD_some, hpassed.hash, hspent]
  · cases hbefore : σ.user.phoneGateway with
    | none => rfl
    | some p =>
      obtain ⟨q, hq, -⟩ := hphones p hbefore
      rw [hq] at hv'
      cases hv'

theorem Counts.pass {σ : Service} (hstep : σ.InStep) (h : σ.Balanced) (now : Time) (a : PassAnswers) :
    σ.Counts (.pass now a) (σ.allowanceLoop now a).1 := by
  rcases @allowanceLoop_cases σ now a hstep.active with ⟨e, heq⟩ |
    ⟨plan, u, rolledOver, g, v, e, hplan, hsync, henforce, heq⟩ |
    ⟨plan, u, rolledOver, g, v, hplan, hsync, henforce, heq⟩ |
    ⟨plan, u, g, v, lastSyncAt, hplan, hsync, henforce, hunits, hdesk, hphone, heq⟩
  · refine ⟨by rw [heq]; exact h, ?_, fun _ => by rw [heq]⟩
    rintro ⟨⟨e', he'⟩, -⟩
    rw [heq] at he'
    cases he'
  · have hspent (hash : ℕ) : g.spentThrough hash = σ.gateway.spentThrough hash :=
      Gateway.spentThrough_congr (UserAllowance.enforce_map (fun _ _ _ => rfl) henforce hash)
    obtain ⟨hbalanced, hcount⟩ := h.inherit (τ := (σ.allowanceLoop now a).1) (by rw [heq]; exact hspent _)
      (by rw [heq]; simp only [phoneReading, hspent]) (by rw [heq]) (by rw [heq]) (by rw [heq]; exact id) (by rw [heq])
      (by rw [heq])
    refine ⟨hbalanced, ?_, fun _ => hcount.ge⟩
    rintro ⟨⟨e', he'⟩, -⟩
    rw [heq] at he'
    cases he'
  · obtain ⟨hrolled, hreadings⟩ := sync_rolledOver hsync
    obtain ⟨hdesk, hphone, hnone, hbase, hphoneBase, -⟩ := passed_readings hstep hsync henforce
    cases rolledOver with
    | true =>
      obtain ⟨hdeskBase, hphoneBase', -⟩ := hreadings rfl
      have hafresh := balanced_afresh (τ := (σ.allowanceLoop now a).1)
        (by rw [heq]; simp only; rw [hbase, hdeskBase, hdesk])
        (by rw [heq]; simp only; rw [hphoneBase, hphoneBase', hphone]) (by rw [heq]; rfl) (by rw [heq]; rfl)
      refine ⟨hafresh.1, fun _ => ⟨hafresh.2, by rw [heq]; rfl, by rw [heq]; rfl⟩, fun hnot => ?_⟩
      exact absurd ⟨⟨_, by rw [heq]⟩, plan, hplan, hrolled.mp rfl⟩ hnot
    | false =>
      have hu := UserAllowance.sync_counts hsync
      obtain ⟨hbalanced, hcount⟩ := h.inherit (τ := (σ.allowanceLoop now a).1) (by rw [heq]; exact hdesk)
        (by rw [heq]; exact hphone) (by rw [heq]; simp only; rw [hbase, hu]) (by rw [heq]; simp only; rw [hphoneBase, hu])
        (by rw [heq]; exact hnone) (by rw [heq]; rfl) (by rw [heq]; rfl)
      refine ⟨hbalanced, ?_, fun _ => hcount.ge⟩
      rintro ⟨-, plan', hplan', hended⟩
      obtain rfl := Option.some.inj (hplan.symm.trans hplan')
      cases hrolled.mpr hended
  · obtain ⟨hrolled, -⟩ := sync_rolledOver hsync
    obtain ⟨hbalanced, hcount⟩ := h.inherit (τ := (σ.allowanceLoop now a).1) (by rw [heq]) (by rw [heq]) (by rw [heq])
      (by rw [heq]) (by rw [heq]; exact id) (by rw [heq]) (by rw [heq])
    refine ⟨hbalanced, ?_, fun _ => hcount.ge⟩
    rintro ⟨-, plan', hplan', hended⟩
    obtain rfl := Option.some.inj (hplan.symm.trans hplan')
    cases hrolled.mpr hended

/-- Spend through a stored key is counted, through any other it is missed. -/
theorem Counts.spend {σ τ : Service} (hstep : σ.InStep) (h : σ.Balanced) {hash : ℕ} {usd : ℚ}
    (hnext : σ.Next (.spend hash usd) τ) : σ.Counts (.spend hash usd) τ := by
  simp only [Next, step] at hnext
  split at hnext
  case isFalse => cases hnext
  case isTrue hspend =>
    obtain ⟨-, hlive, husd⟩ := hspend
    obtain rfl := Option.some.inj hnext
    have hthere := Gateway.there_of_live hlive
    have hdesk := h.desk
    have hphone := h.phone
    have htotal := h.total
    rw [counted_eq hdesk hphone] at htotal
    by_cases hdeskKey : hash = σ.user.gateway.hash
    · subst hdeskKey
      have hother : phoneReading (σ.gateway.spend σ.user.gateway.hash usd) σ.user.phoneGateway =
          phoneReading σ.gateway σ.user.phoneGateway := by
        cases hp : σ.user.phoneGateway with
        | none => rfl
        | some p => exact Gateway.spentThrough_spend_of_ne usd (hstep.apart p hp)
      have hself := Gateway.spentThrough_spend_self usd hthere
      refine ⟨⟨?_, ?_, h.bare, ?_⟩, fun hbegins => hbegins.elim, fun _ => ?_⟩
      · simp only [hself]
        linarith
      · simp only [hother]
        exact hphone
      · rw [counted_eq (by simp only [hself]; linarith) (by simp only [hother]; exact hphone)]
        simp only [hself, hother, UserAllowance.storedKeys, List.map_cons, List.mem_cons, true_or, if_true]
        linarith
      · rw [counted_eq hdesk hphone, counted_eq (by simp only [hself]; linarith) (by simp only [hother]; exact hphone)]
        simp only [hself, hother]
        linarith
    · have hother : (σ.gateway.spend hash usd).spentThrough σ.user.gateway.hash =
          σ.gateway.spentThrough σ.user.gateway.hash := Gateway.spentThrough_spend_of_ne usd (Ne.symm hdeskKey)
      have hgrows : phoneReading (σ.gateway.spend hash usd) σ.user.phoneGateway =
          phoneReading σ.gateway σ.user.phoneGateway +
            if hash ∈ σ.user.storedKeys.map GatewayKey.hash then usd else 0 := by
        cases hp : σ.user.phoneGateway with
        | none => simp [phoneReading, UserAllowance.storedKeys, hp, hdeskKey]
        | some p =>
          by_cases hphoneKey : hash = p.hash
          · subst hphoneKey
            simp [phoneReading, UserAllowance.storedKeys, hp, Gateway.spentThrough_spend_self usd hthere]
          · simp [phoneReading, UserAllowance.storedKeys, hp, hdeskKey, hphoneKey,
              Gateway.spentThrough_spend_of_ne usd (Ne.symm hphoneKey)]
      have hnonneg : 0 ≤ if hash ∈ σ.user.storedKeys.map GatewayKey.hash then usd else 0 := by
        split
        · exact husd
        · exact le_rfl
      refine ⟨⟨?_, ?_, h.bare, ?_⟩, fun hbegins => hbegins.elim, fun _ => ?_⟩
      · simp only [hother]
        exact hdesk
      · simp only [hgrows]
        linarith
      · rw [counted_eq (by simp only [hother]; exact hdesk) (by simp only [hgrows]; linarith)]
        simp only [hother, hgrows]
        split <;> linarith
      · rw [counted_eq hdesk hphone, counted_eq (by simp only [hother]; exact hdesk) (by simp only [hgrows]; linarith)]
        simp only [hother, hgrows]
        linarith

theorem Counts.changeAllowance {σ τ : Service} (h : σ.Balanced) {request : AllowanceRequest} {now : Time}
    {usage phoneUsage : Bool} (hnext : σ.Next (.changeAllowance request now usage phoneUsage) τ) :
    σ.Counts (.changeAllowance request now usage phoneUsage) τ := by
  simp only [Next, step, Service.changeAllowance] at hnext
  split at hnext
  · cases hnext
  · split at hnext
    · next hreset =>
      obtain ⟨⟨desk, phone⟩, hread, rfl⟩ := Option.map_eq_some_iff.mp hnext
      obtain ⟨rfl, rfl⟩ := Prod.mk.inj (keyUsage_eq_some hread)
      obtain ⟨hbalanced, hcount⟩ := balanced_afresh (τ := { σ with
        user := { σ.user with
          plan := request.plan.getD σ.user.plan
          lastSyncAt := neverSynced
          cycleStartedAt := now
          usageBaselineUSD := σ.gateway.spentThrough σ.user.gateway.hash
          phoneUsageBaselineUSD := phoneReading σ.gateway σ.user.phoneGateway
          usedUnits := 0
          adjustUnits := request.adjustUnits }
        spentUSD := 0
        missedUSD := 0 }) rfl rfl rfl rfl
      exact ⟨hbalanced, fun _ => ⟨hcount, rfl, rfl⟩, fun hnot => absurd hreset hnot⟩
    · next hkept =>
      obtain rfl := Option.some.inj hnext
      obtain ⟨hbalanced, hcount⟩ := h.inherit (τ := { σ with
        user := { σ.user with
          plan := request.plan.getD σ.user.plan
          lastSyncAt := neverSynced
          adjustUnits := σ.user.adjustUnits + request.adjustUnits } }) rfl rfl rfl rfl id rfl rfl
      exact ⟨hbalanced, fun hbegins => absurd hbegins hkept, fun _ => hcount.ge⟩

/-- Calls that spend through no key the row holds leave the count as it is. -/
theorem Balanced.calls {σ : Service} (hstep : σ.InStep) (h : σ.Balanced) {g : Gateway}
    (hspent : ∀ hash, (σ.gateway[hash]?).isSome = true → g.spentThrough hash = σ.gateway.spentThrough hash) :
    Balanced { σ with gateway := g } ∧ countedUSD { σ with gateway := g } = σ.countedUSD := by
  have hdesk : (σ.gateway[σ.user.gateway.hash]?).isSome = true := by
    obtain ⟨k, hk, -⟩ := hstep.desk
    rw [hk]
    rfl
  refine h.inherit (hspent _ hdesk) ?_ rfl rfl id rfl rfl
  cases hp : σ.user.phoneGateway with
  | none => rfl
  | some p =>
    obtain ⟨k, hk, -⟩ := hstep.phone p hp
    exact hspent _ (by rw [hk]; rfl)

/-- A key just minted has spent nothing, and the one key there was is counted as before. -/
theorem Balanced.minted {σ : Service} (hstep : σ.InStep) (h : σ.Balanced) (hbare : σ.user.phoneGateway = none)
    {g : Gateway} {limitUSD : ℚ} {handed : List ℕ}
    (hspent : ∀ hash, (σ.gateway[hash]?).isSome = true → g.spentThrough hash = σ.gateway.spentThrough hash)
    (hnew : g.spentThrough σ.gateway.length = 0) :
    let τ : Service := { σ with
      user := { σ.user with phoneGateway := some { hash := σ.gateway.length, limitUSD }, phoneUsageBaselineUSD := 0 }
      gateway := g
      handed }
    τ.Balanced ∧ τ.countedUSD = σ.countedUSD := by
  obtain ⟨k, hk, -⟩ := hstep.desk
  have hdesk : g.spentThrough σ.user.gateway.hash = σ.gateway.spentThrough σ.user.gateway.hash :=
    hspent _ (by rw [hk]; rfl)
  refine h.inherit hdesk ?_ rfl (h.bare hbare).symm (fun hτ => by cases hτ) rfl rfl
  rw [hbare]
  exact hnew

theorem Counts.mint {σ τ : Service} (hstep : σ.InStep) (h : σ.Balanced) {a : MintAnswers}
    (hnext : σ.Next (.mint a) τ) : σ.Counts (.mint a) τ := by
  suffices hsame : τ.Balanced ∧ τ.countedUSD = σ.countedUSD from
    ⟨hsame.1, fun hbegins => hbegins.elim, fun _ => hsame.2.ge⟩
  simp only [Next, step] at hnext
  split at hnext
  · cases hnext
  · next hbare =>
    have hnone : σ.user.phoneGateway = none := by simpa using hbare
    obtain ⟨plan, -, rfl⟩ := Option.map_eq_some_iff.mp hnext
    generalize hlimit : (σ.user.allowance plan / σ.unitsPerDollar : ℚ) = limitUSD
    have hadded (hash : ℕ) (hthere : (σ.gateway[hash]?).isSome = true) :
        Gateway.spentThrough (σ.gateway ++ [{ limitUSD := limitUSD }]) hash = σ.gateway.spentThrough hash :=
      Gateway.spentThrough_congr (Gateway.append_usage _ hthere)
    have hnew : Gateway.spentThrough (σ.gateway ++ [{ limitUSD := limitUSD }]) σ.gateway.length = 0 := by
      simp [Gateway.spentThrough]
    have hrevoked (g : Gateway) (hspent : ∀ hash, (σ.gateway[hash]?).isSome = true →
        g.spentThrough hash = σ.gateway.spentThrough hash) (hash : ℕ) (hthere : (σ.gateway[hash]?).isSome = true) :
        (g.revoke σ.gateway.length a.revokeOrphan).spentThrough hash = σ.gateway.spentThrough hash :=
      (Gateway.spentThrough_congr (Gateway.revoke_usage ..)).trans (hspent hash hthere)
    by_cases hanswered : a.mint = .done
    · simp only [hanswered, ne_eq, not_true_eq_false, if_false, Call.took, reduceCtorEq, not_false_eq_true, decide_true,
        if_true]
      by_cases hexhausted : σ.user.exhausted = true
      · rw [if_pos hexhausted]
        generalize hcalled : Gateway.configure (σ.gateway ++ [{ limitUSD := limitUSD }]) σ.gateway.length limitUSD true a.configure =
          called
        obtain ⟨g, ok⟩ := called
        have hset (hash : ℕ) : g.spentThrough hash = Gateway.spentThrough (σ.gateway ++ [{ limitUSD := limitUSD }]) hash := by
          have hsame := Gateway.configure_map (f := RemoteKey.usageUSD) (fun _ _ _ => rfl)
            (σ.gateway ++ [{ limitUSD := limitUSD }]) σ.gateway.length hash limitUSD true a.configure
          rw [hcalled] at hsame
          exact Gateway.spentThrough_congr hsame
        have hspent (hash : ℕ) (hthere : (σ.gateway[hash]?).isSome = true) :
            g.spentThrough hash = σ.gateway.spentThrough hash := (hset hash).trans (hadded hash hthere)
        simp only
        split
        · exact h.calls hstep (hrevoked g hspent)
        · exact h.minted hstep hnone hspent ((hset _).trans hnew)
      · rw [if_neg hexhausted]
        simp only
        split
        · exact h.calls hstep (hrevoked _ hadded)
        · exact h.minted hstep hnone hadded hnew
    · simp only [ne_eq, hanswered, not_false_eq_true, if_true]
      split
      · exact h.calls hstep hadded
      · exact h.calls hstep fun _ _ => rfl

/-- A drop that reads its key's spend carries it over; what the key spends afterwards is missed. -/
theorem Counts.drop {σ τ : Service} (hstep : σ.InStep) (h : σ.Balanced) {a : DropAnswers}
    (hreadable : σ.Readable (.drop a)) (hnext : σ.Next (.drop a) τ) : σ.Counts (.drop a) τ := by
  simp only [Next, step] at hnext
  split at hnext
  case isFalse => cases hnext
  case isTrue hmeanwhile =>
    obtain rfl := Option.some.inj hnext
    unfold dropPhoneKey
    cases hp : σ.user.phoneGateway with
    | none => exact ⟨h, fun hbegins => hbegins.elim, fun _ => le_rfl⟩
    | some p =>
      obtain ⟨usage, husage⟩ := Option.isSome_iff_exists.mp (hreadable p hp)
      obtain ⟨rfl, hlive⟩ := Gateway.usage_eq_some husage
      have hapart := hstep.apart p hp
      have hdesk := h.desk
      have hphone := h.phone
      have htotal := h.total
      rw [counted_eq hdesk hphone] at htotal
      simp only [hp, phoneReading, Option.map_some, Option.getD_some] at hphone htotal
      have hthere := Gateway.there_of_live hlive
      have hdeskKept : ((σ.gateway.spend p.hash a.meanwhileUSD).revoke p.hash a.revoke).spentThrough
          σ.user.gateway.hash = σ.gateway.spentThrough σ.user.gateway.hash :=
        (Gateway.spentThrough_congr (Gateway.revoke_usage ..)).trans
          (Gateway.spentThrough_spend_of_ne _ (Ne.symm hapart))
      have hphoneGrows : ((σ.gateway.spend p.hash a.meanwhileUSD).revoke p.hash a.revoke).spentThrough p.hash =
          σ.gateway.spentThrough p.hash + a.meanwhileUSD :=
        (Gateway.spentThrough_congr (Gateway.revoke_usage ..)).trans (Gateway.spentThrough_spend_self _ hthere)
      have hbefore : σ.countedUSD = σ.gateway.spentThrough σ.user.gateway.hash - σ.user.usageBaselineUSD +
          (σ.gateway.spentThrough p.hash - σ.user.phoneUsageBaselineUSD) := by
        rw [counted_eq hdesk h.phone, hp]
        rfl
      have hcarried : max 0 (σ.gateway.spentThrough p.hash - σ.user.phoneUsageBaselineUSD) =
          σ.gateway.spentThrough p.hash - σ.user.phoneUsageBaselineUSD := max_eq_right (by linarith)
      simp only [husage, Option.map_some, Option.getD_some, hlive, if_true, hcarried]
      cases hsaved : a.saved with
      | false =>
        simp only [Bool.not_false, if_true]
        have hcount : countedUSD { σ with
            gateway := (σ.gateway.spend p.hash a.meanwhileUSD).revoke p.hash a.revoke
            spentUSD := σ.spentUSD + a.meanwhileUSD } = σ.countedUSD + a.meanwhileUSD := by
          rw [counted_eq (by simp only [hdeskKept]; exact hdesk)
            (by simp only [phoneReading, hp, Option.map_some, Option.getD_some, hphoneGrows]; linarith), hbefore]
          simp only [hdeskKept, phoneReading, hp, Option.map_some, Option.getD_some, hphoneGrows]
          ring
        refine ⟨⟨?_, ?_, h.bare, ?_⟩, fun hbegins => hbegins.elim, fun _ => ?_⟩
        · simp only [hdeskKept]
          exact hdesk
        · simp only [phoneReading, hp, Option.map_some, Option.getD_some, hphoneGrows]
          linarith
        · rw [hcount, hbefore]
          linarith
        · rw [hcount]
          linarith
      | true =>
        simp only [Bool.not_true, Bool.false_eq_true, if_false]
        have hcount : countedUSD { σ with
            gateway := (σ.gateway.spend p.hash a.meanwhileUSD).revoke p.hash a.revoke
            spentUSD := σ.spentUSD + a.meanwhileUSD
            user := { σ.user with
              phoneGateway := none
              phoneUsageBaselineUSD := 0
              usageBaselineUSD := σ.user.usageBaselineUSD -
                (σ.gateway.spentThrough p.hash - σ.user.phoneUsageBaselineUSD)
              lastSyncAt := epoch }
            missedUSD := σ.missedUSD + a.meanwhileUSD } = σ.countedUSD := by
          rw [counted_eq (by simp only [hdeskKept]; linarith) le_rfl, hbefore]
          simp only [hdeskKept, phoneReading, Option.map_none, Option.getD_none]
          ring
        refine ⟨⟨?_, le_rfl, fun _ => rfl, ?_⟩, fun hbegins => hbegins.elim, fun _ => hcount.ge⟩
        · simp only [hdeskKept]
          linarith
        · rw [hcount, hbefore]
          simp only
          linarith

theorem counts_step {σ τ : Service} {a : Action} (hstep : σ.InStep) (h : σ.Balanced) (hreadable : σ.Readable a)
    (hnext : σ.Next a τ) : σ.Counts a τ := by
  cases a with
  | pass now a =>
    obtain rfl := Option.some.inj hnext
    exact Counts.pass hstep h now a
  | spend hash usd => exact Counts.spend hstep h hnext
  | changeAllowance request now usage phoneUsage => exact Counts.changeAllowance h hnext
  | putPlan name plan =>
    simp only [Next, step] at hnext
    split at hnext
    · obtain rfl := Option.some.inj hnext
      have hsame := h.inherit (τ := { σ with plans := σ.plans.put name plan }) rfl rfl rfl rfl id rfl rfl
      exact ⟨hsame.1, fun hbegins => hbegins.elim, fun _ => hsame.2.ge⟩
    · cases hnext
  | putSettings unitsPerDollar =>
    simp only [Next, step] at hnext
    split at hnext
    · obtain rfl := Option.some.inj hnext
      have hsame := h.inherit (τ := { σ with unitsPerDollar }) rfl rfl rfl rfl id rfl rfl
      exact ⟨hsame.1, fun hbegins => hbegins.elim, fun _ => hsame.2.ge⟩
    · cases hnext
  | mint a => exact Counts.mint hstep h hnext
  | drop a => exact Counts.drop hstep h hreadable hnext

/-- The count is right in every state reached while drops can read what they drop. -/
theorem balanced {σ : Service} (hσ : Reachable (Guarded Next Readable) Initial σ) : σ.Balanced := by
  suffices hinv : σ.InStep ∧ σ.Balanced from hinv.2
  refine hσ.invariant (fun σ => σ.InStep ∧ σ.Balanced) ?_ ?_
  · intro σ hinit
    refine ⟨inStep ⟨σ, [], hinit, .nil σ⟩, ?_⟩
    obtain ⟨plans, unitsPerDollar, syncEvery, id, plan, now, -, -, rfl⟩ := hinit
    exact (balanced_afresh rfl rfl rfl rfl).1
  · rintro σ a τ ⟨hstep, hbalanced⟩ ⟨hreadable, hnext⟩
    exact ⟨inStep_step hstep hnext, (counts_step hstep hbalanced hreadable hnext).balanced⟩

theorem roundUnits_zero : roundUnits 0 = 0 := by
  unfold roundUnits
  norm_num

/-- What a pass that read the gateway answers is the rounded count. -/
theorem pass_answers {σ τ : Service} (hstep : σ.InStep) (h : σ.Balanced) {now : Time} {a : PassAnswers}
    {e : Entitlement} {plan : Plan} (hplan : σ.plans.get σ.user.plan = some plan)
    (hread : σ.user.cycleStartedAt + plan.cycleLength ≤ now ∨ σ.syncEvery ≤ now - σ.user.lastSyncAt)
    (hpass : σ.allowanceLoop now a = (τ, .ok e)) : e.usedUnits = roundUnits (τ.countedUSD * σ.unitsPerDollar) := by
  have hcounts := Counts.pass hstep h now a
  have hτ : (σ.allowanceLoop now a).1 = τ := by rw [hpass]
  rw [hτ] at hcounts
  -- The row the pass worked on, after the reading.
  have hrow : ∃ (u : UserAllowance) (rolledOver : Bool) (v : UserAllowance),
      σ.user.sync plan σ.unitsPerDollar σ.syncEvery now σ.gateway a = some (u, rolledOver) ∧
      v.usedUnits = u.usedUnits ∧ e = v.entitlement plan ∧ (rolledOver = false → τ.countedUSD = σ.countedUSD) := by
    rcases @allowanceLoop_cases σ now a hstep.active with ⟨e', heq⟩ |
      ⟨plan', u, rolledOver, g, v, e', hplan', hsync, henforce, heq⟩ |
      ⟨plan', u, rolledOver, g, v, hplan', hsync, henforce, heq⟩ |
      ⟨plan', u, g, v, lastSyncAt, hplan', hsync, henforce, hunits, hdesk, hphone, heq⟩
    · rw [heq] at hpass
      cases (Prod.mk.inj hpass).2
    · rw [heq] at hpass
      cases (Prod.mk.inj hpass).2
    · obtain rfl := Option.some.inj (hplan.symm.trans hplan')
      rw [heq] at hpass
      obtain ⟨hafter, he⟩ := Prod.mk.inj hpass
      obtain ⟨hdesk, hphone, hnone, hbase, hphoneBase, hused⟩ := passed_readings hstep hsync henforce
      refine ⟨u, rolledOver, v, hsync, hused, (Except.ok.inj he).symm, ?_⟩
      rintro rfl
      have hu := UserAllowance.sync_counts hsync
      exact (h.inherit (τ := τ) (by rw [← hafter]; exact hdesk) (by rw [← hafter]; exact hphone)
        (by rw [← hafter]; exact hbase.trans (by rw [hu])) (by rw [← hafter]; exact hphoneBase.trans (by rw [hu]))
        (by rw [← hafter]; exact hnone) (by rw [← hafter]; rfl) (by rw [← hafter]; rfl)).2
    · obtain rfl := Option.some.inj (hplan.symm.trans hplan')
      rw [heq] at hpass
      obtain ⟨rfl, he⟩ := Prod.mk.inj hpass
      obtain ⟨-, -, -, -, -, hused⟩ := passed_readings hstep hsync henforce
      exact ⟨u, false, v, hsync, hused, (Except.ok.inj he).symm, fun _ => rfl⟩
  obtain ⟨u, rolledOver, v, hsync, hused, rfl, hcount⟩ := hrow
  obtain ⟨hrolled, hreadings⟩ := sync_rolledOver hsync
  change v.usedUnits = _
  rw [hused]
  cases rolledOver with
  | true =>
    have hbegins : σ.BeginsCycle (.pass now a) := ⟨⟨_, by rw [hpass]⟩, plan, hplan, hrolled.mp rfl⟩
    rw [(hreadings rfl).2.2, (hcounts.afresh hbegins).1, zero_mul, roundUnits_zero]
  | false =>
    have hrunning : ¬σ.user.cycleStartedAt + plan.cycleLength ≤ now := fun hended => by cases hrolled.mpr hended
    have hstale := hread.resolve_left hrunning
    unfold UserAllowance.sync at hsync
    rw [if_neg hrunning, if_pos hstale] at hsync
    obtain ⟨read, hread, heq⟩ := Option.map_eq_some_iff.mp hsync
    obtain ⟨rfl, -⟩ := Prod.mk.inj heq
    rw [keyUsage_eq_some hread, hcount rfl]
    rfl

end Service

open Service

/-- The spend counted against a cycle is what went through all of the user's keys since it began, but for what a
phone's key spent after the drop that forgot it had read it; a rollover or a reset starts it from zero, no other step
lowers it, and it is what a pass that reads the gateway answers. -/
theorem count_is_total_spend {σ : Service} (hσ : Reachable (Guarded Service.Next Readable) Service.Initial σ) :
    σ.countedUSD = σ.spentUSD - σ.missedUSD ∧
    (∀ a τ, σ.Readable a → σ.Next a τ →
      (σ.BeginsCycle a → τ.countedUSD = 0 ∧ τ.spentUSD = 0 ∧ τ.missedUSD = 0) ∧
        (¬σ.BeginsCycle a → σ.countedUSD ≤ τ.countedUSD)) ∧
    ∀ now a τ e plan, σ.plans.get σ.user.plan = some plan →
      σ.user.cycleStartedAt + plan.cycleLength ≤ now ∨ σ.syncEvery ≤ now - σ.user.lastSyncAt →
        σ.allowanceLoop now a = (τ, .ok e) → e.usedUnits = roundUnits (τ.countedUSD * σ.unitsPerDollar) := by
  have hstep := inStep hσ.unguarded
  have hbalanced := balanced hσ
  refine ⟨hbalanced.total, fun a τ hreadable hnext => ?_, fun now a τ e plan hplan hread hpass => ?_⟩
  · have hcounts := counts_step hstep hbalanced hreadable hnext
    exact ⟨hcounts.afresh, hcounts.onwards⟩
  · exact pass_answers hstep hbalanced hplan hread hpass

/-! ## A key that outlives its drop -/

instance (σ : Service) (a : Service.Action) : Decidable (σ.Readable a) :=
  match a with
  | .drop a => inferInstanceAs (Decidable (∀ p ∈ σ.user.phoneGateway, (σ.gateway.usage p.hash a.usage).isSome = true))
  | .pass .. | .spend .. | .changeAllowance .. | .putPlan .. | .putSettings .. | .mint .. => isTrue trivial

/-- A phone's key spends a dollar, is dropped while the gateway refuses to revoke it, and spends two more. -/
def outlivedDrop : List Service.Action := [.mint {}, .spend 1 1, .drop { revoke := .refused }, .spend 1 2]

/-- Three dollars were spent and one is counted. -/
theorem outlived_key_spends_uncounted :
    Reachable (Guarded Service.Next Readable) Service.Initial (serviceAfter outlivedDrop) ∧
      (serviceAfter outlivedDrop).countedUSD = 1 ∧ (serviceAfter outlivedDrop).spentUSD = 3 := by
  refine ⟨⟨connectedUser, outlivedDrop, ⟨_, _, _, _, _, _, rfl, by norm_num, rfl⟩,
    Run.of_follow_allow (fun _ _ _ h => h) (by decide +kernel)⟩, by decide +kernel, by decide +kernel⟩

/-- A phone is paired again in mid-cycle: what its first key spent stays counted. -/
theorem paired_again_still_counted : (serviceAfter [.mint {}, .spend 1 3, .drop {}, .mint {}, .spend 2 1]).countedUSD = 4 := by
  have hreach : Reachable (Guarded Service.Next Readable) Service.Initial
      (serviceAfter [.mint {}, .spend 1 3, .drop {}, .mint {}, .spend 2 1]) :=
    ⟨connectedUser, [.mint {}, .spend 1 3, .drop {}, .mint {}, .spend 2 1], ⟨_, _, _, _, _, _, rfl, by norm_num, rfl⟩,
      Run.of_follow_allow (fun _ _ _ h => h) (by decide +kernel)⟩
  rw [(count_is_total_spend hreach).1]
  decide +kernel

end Thock.Plus
