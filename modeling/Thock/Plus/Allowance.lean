import Mathlib.Data.Rat.Floor
import Thock.Lib.Table
import Thock.Lib.Transition
import Thock.Plus.VaultStore

/-!
# The allowance and the gateway's keys

One user's allowance: the columns of the user's row, the keys the gateway keeps for the user, and
what reads and writes both: the pass of the allowance loop, an admin change, the mint and the drop
of the phone's key. They hold one mutex, so each is one step here; spending is not under it and may
fall between any two steps, and between the two calls by which a drop reads a key's usage and
revokes it.

A call to the gateway may fail before or after it took effect. A save that fails has saved nothing.
Dollars are rationals. A key's secret goes with its hash and is left out, as are the ledger lines.
-/

namespace Thock.Plus

/-! ## The gateway -/

/-- How a call to the gateway ends. -/
inductive Call
  | done
  | refused
  /-- It took effect and was answered with an error. -/
  | lost
deriving DecidableEq, Repr

def Call.took (c : Call) : Bool := c ≠ .refused

/-- What the gateway keeps of a key. -/
structure RemoteKey where
  limitUSD : ℚ
  disabled : Bool := false
  usageUSD : ℚ := 0
  revoked : Bool := false
deriving DecidableEq, Repr

/-- The keys in the order they were minted; a key's hash is its place. -/
abbrev Gateway := List RemoteKey

/-- A key as the user's row keeps it. -/
structure GatewayKey where
  hash : ℕ
  limitUSD : ℚ
deriving DecidableEq, Repr

namespace Gateway

/-- Cumulative spend, where the key is there and the call is answered. -/
def usage (g : Gateway) (hash : ℕ) (answers : Bool) : Option ℚ :=
  if answers then (g[hash]?.filter fun k => !k.revoked).map RemoteKey.usageUSD else none

/-- Set a key's cap and switch it on or off; whether the call was answered well. -/
def configure (g : Gateway) (hash : ℕ) (limitUSD : ℚ) (disabled : Bool) (call : Call) : Gateway × Bool :=
  match g[hash]?.filter fun k => !k.revoked with
  | none => (g, false)
  | some k => (if call.took then g.set hash { k with limitUSD, disabled } else g, call = .done)

def revoke (g : Gateway) (hash : ℕ) (call : Call) : Gateway :=
  match g[hash]? with
  | none => g
  | some k => if call.took then g.set hash { k with revoked := true } else g

def spend (g : Gateway) (hash : ℕ) (usd : ℚ) : Gateway :=
  match g[hash]? with
  | none => g
  | some k => g.set hash { k with usageUSD := k.usageUSD + usd }

/-- Whether a key still works at the gateway, for calls already under way at least. -/
def live (g : Gateway) (hash : ℕ) : Bool := (g[hash]?).any fun k => !k.revoked

end Gateway

/-! ## Plans and the user's row -/

structure Plan where
  allowanceUnits : ℤ
  cycleDays : ℕ
deriving DecidableEq, Repr

def Plan.cycleLength (p : Plan) : Time := p.cycleDays * day

def Plan.allowanceDollars (p : Plan) (unitsPerDollar : ℚ) : ℚ :=
  if unitsPerDollar ≤ 0 then 0 else p.allowanceUnits / unitsPerDollar

/-- The columns of a user's row that the allowance is kept in. -/
structure UserAllowance where
  plan : String
  revoked : Bool := false
  cycleStartedAt : Time
  gateway : GatewayKey
  usageBaselineUSD : ℚ := 0
  usedUnits : ℤ := 0
  adjustUnits : ℤ := 0
  lastSyncAt : Time
  exhausted : Bool := false
  phoneGateway : Option GatewayKey := none
  phoneUsageBaselineUSD : ℚ := 0
deriving DecidableEq, Repr

/-- The zero time, long before any sync. -/
def neverSynced : Time := -62135596800 * 1000000

/-- The epoch, which a dropped key sets the sync clock to. -/
def epoch : Time := 0

/-- Halves round away from zero. -/
def roundUnits (x : ℚ) : ℤ := if 0 ≤ x then ⌊x + 1 / 2⌋ else -⌊-x + 1 / 2⌋

namespace UserAllowance

/-- The keys of the row, the desk's first. -/
def storedKeys (u : UserAllowance) : List GatewayKey := u.gateway :: u.phoneGateway.toList

/-- Spend above the baselines, from what the gateway says each key has spent. -/
def spent (u : UserAllowance) (usage phoneUsage : ℚ) : ℚ :=
  max 0 (usage - u.usageBaselineUSD) + max 0 (phoneUsage - u.phoneUsageBaselineUSD)

def allowance (u : UserAllowance) (plan : Plan) : ℤ := max 0 (plan.allowanceUnits + u.adjustUnits)

def shouldBeExhausted (u : UserAllowance) (plan : Plan) : Bool := u.allowance plan - u.usedUnits ≤ 0

/-- The cap of the desk's key that would end this cycle's allowance on that key alone. -/
def wantLimit (u : UserAllowance) (plan : Plan) (unitsPerDollar : ℚ) : ℚ :=
  max 0 (u.usageBaselineUSD + u.allowance plan / unitsPerDollar)

def wantPhoneLimit (u : UserAllowance) (plan : Plan) (unitsPerDollar : ℚ) : ℚ :=
  u.phoneUsageBaselineUSD + u.allowance plan / unitsPerDollar

/-- Caps closer than this are taken for one. -/
def limitTolerance : ℚ := 1 / 1000000000

/-- Whether the keys are to be switched, or a new cycle began. -/
def flipped (u : UserAllowance) (plan : Plan) (rolledOver : Bool) : Bool :=
  u.shouldBeExhausted plan ≠ u.exhausted ∨ rolledOver

def configureDesk (u : UserAllowance) (plan : Plan) (unitsPerDollar : ℚ) (rolledOver : Bool) : Bool :=
  u.flipped plan rolledOver ∨ limitTolerance < |u.wantLimit plan unitsPerDollar - u.gateway.limitUSD|

def configurePhone (u : UserAllowance) (plan : Plan) (unitsPerDollar : ℚ) (rolledOver : Bool) : Bool :=
  u.phoneGateway.any fun p =>
    u.flipped plan rolledOver ∨ limitTolerance < |u.wantPhoneLimit plan unitsPerDollar - p.limitUSD|

end UserAllowance

/-! ## The service -/

/-- The rows, the gateway's keys, and what happened to them that no code reads. -/
structure Service where
  plans : Table String Plan
  unitsPerDollar : ℚ
  syncEvery : Time
  user : UserAllowance
  gateway : Gateway
  /-- The keys ever given to a device. -/
  handed : List ℕ
  /-- Keys last changed at the gateway by a pass that then saved nothing. -/
  unsaved : List ℕ := []
  /-- Dollars spent through all of the user's keys since the cycle began. -/
  spentUSD : ℚ := 0
  /-- The part of them that went through a phone's key after the drop that forgot it had read its usage. -/
  missedUSD : ℚ := 0
deriving DecidableEq, Repr

/-- How the calls of a pass end. -/
structure PassAnswers where
  usage : Bool := true
  phoneUsage : Bool := true
  configureDesk : Call := .done
  configurePhone : Call := .done
  saved : Bool := true
  touched : Bool := true
deriving DecidableEq, Repr

inductive Status
  | active
  | exhausted
  | revoked
deriving DecidableEq, Repr

structure Entitlement where
  status : Status
  allowanceUnits : ℤ := 0
  usedUnits : ℤ := 0
  remainingUnits : ℤ := 0
  cycleEndsAt : Time
deriving DecidableEq, Repr

inductive PassError
  | planMissing
  | gateway
  | store
deriving DecidableEq, Repr

/-- What each of the user's keys has spent in all. -/
def Gateway.keyUsage (g : Gateway) (u : UserAllowance) (usage phoneUsage : Bool) : Option (ℚ × ℚ) :=
  (g.usage u.gateway.hash usage).bind fun desk =>
    match u.phoneGateway with
    | none => some (desk, 0)
    | some p => (g.usage p.hash phoneUsage).map fun phone => (desk, phone)

namespace UserAllowance

/-- A cycle that starts at `now`'s from these readings. -/
def rollOver (u : UserAllowance) (plan : Plan) (now : Time) (usage phoneUsage : ℚ) : UserAllowance :=
  { u with
    -- Whole cycles that passed while nobody was looking are skipped.
    cycleStartedAt := u.cycleStartedAt + (now - u.cycleStartedAt) / plan.cycleLength * plan.cycleLength
    usageBaselineUSD := usage
    phoneUsageBaselineUSD := phoneUsage
    usedUnits := 0
    adjustUnits := 0
    lastSyncAt := now }

/-- The row after a new cycle, or after a sync where the last is stale, and whether a cycle began. -/
def sync (u : UserAllowance) (plan : Plan) (unitsPerDollar : ℚ) (syncEvery now : Time) (g : Gateway)
    (a : PassAnswers) : Option (UserAllowance × Bool) :=
  if u.cycleStartedAt + plan.cycleLength ≤ now then
    (g.keyUsage u a.usage a.phoneUsage).map fun (usage, phoneUsage) => (u.rollOver plan now usage phoneUsage, true)
  else if syncEvery ≤ now - u.lastSyncAt then
    (g.keyUsage u a.usage a.phoneUsage).map fun (usage, phoneUsage) =>
      ({ u with usedUnits := roundUnits (u.spent usage phoneUsage * unitsPerDollar), lastSyncAt := now }, false)
  else some (u, false)

/-- Configure what needs it, the desk's key first; the row with what was set, where no call failed. -/
def enforce (u : UserAllowance) (plan : Plan) (unitsPerDollar : ℚ) (rolledOver : Bool) (g : Gateway)
    (a : PassAnswers) : Gateway × Option UserAllowance :=
  let exhausted := u.shouldBeExhausted plan
  let wantLimit := u.wantLimit plan unitsPerDollar
  let wantPhoneLimit := u.wantPhoneLimit plan unitsPerDollar
  let desk := u.configureDesk plan unitsPerDollar rolledOver
  let phone := u.configurePhone plan unitsPerDollar rolledOver
  let (g, ok) := if desk then g.configure u.gateway.hash wantLimit exhausted a.configureDesk else (g, true)
  if !ok then (g, none)
  else
    let v := if desk then { u with gateway := { u.gateway with limitUSD := wantLimit }, exhausted } else u
    match u.phoneGateway with
    | none => (g, some v)
    | some p =>
      if phone then
        let (g, ok) := g.configure p.hash wantPhoneLimit exhausted a.configurePhone
        if !ok then (g, none)
        else (g, some { v with phoneGateway := some { p with limitUSD := wantPhoneLimit }, exhausted })
      else (g, some v)

def entitlement (u : UserAllowance) (plan : Plan) : Entitlement :=
  { status := if u.exhausted then .exhausted else .active
    allowanceUnits := u.allowance plan
    usedUnits := u.usedUnits
    remainingUnits := max (u.allowance plan - u.usedUnits) 0
    cycleEndsAt := u.cycleStartedAt + plan.cycleLength }

end UserAllowance

namespace Service

/-- The keys of the row whose entries a pass changed at the gateway. -/
def changedKeys (σ : Service) (g : Gateway) : List ℕ :=
  (σ.user.storedKeys.map GatewayKey.hash).filter fun hash => g[hash]? ≠ σ.gateway[hash]?

/-- One pass for the user. -/
def allowanceLoop (σ : Service) (now : Time) (a : PassAnswers) : Service × Except PassError Entitlement :=
  match σ.plans.get σ.user.plan with
  | none => (σ, .error .planMissing)
  | some plan =>
    if σ.user.revoked then
      (σ, .ok { status := .revoked, cycleEndsAt := σ.user.cycleStartedAt + plan.cycleLength })
    else match σ.user.sync plan σ.unitsPerDollar σ.syncEvery now σ.gateway a with
      | none => (σ, .error .gateway)
      | some (u, rolledOver) =>
        match u.enforce plan σ.unitsPerDollar rolledOver σ.gateway a with
        | (g, none) => ({ σ with gateway := g, unsaved := σ.changedKeys g ++ σ.unsaved }, .error .gateway)
        | (g, some v) =>
          let desk := u.configureDesk plan σ.unitsPerDollar rolledOver
          let phone := u.configurePhone plan σ.unitsPerDollar rolledOver
          if rolledOver ∨ v.usedUnits ≠ σ.user.usedUnits ∨ desk ∨ phone then
            if !a.saved then ({ σ with gateway := g, unsaved := σ.changedKeys g ++ σ.unsaved }, .error .store)
            else
              ({ σ with
                user := v
                gateway := g
                unsaved := σ.unsaved.filter fun hash =>
                  ¬(desk ∧ hash = v.gateway.hash) ∧ ¬(phone ∧ v.phoneGateway.any fun p => p.hash = hash)
                spentUSD := if rolledOver then 0 else σ.spentUSD
                missedUSD := if rolledOver then 0 else σ.missedUSD }, .ok (v.entitlement plan))
          else
            -- Only the sync clock moved, and losing that is no failure.
            ({ σ with user := { σ.user with lastSyncAt := if a.touched then v.lastSyncAt else σ.user.lastSyncAt } },
              .ok (v.entitlement plan))

/-! ## Admin changes -/

structure AllowanceRequest where
  reset : Bool := false
  adjustUnits : ℤ := 0
  plan : Option String := none
deriving DecidableEq, Repr

/-- Record an admin change; the gateway hears of it from the next pass. -/
def changeAllowance (σ : Service) (request : AllowanceRequest) (now : Time) (usage phoneUsage : Bool) : Option Service :=
  if request.plan.any fun id => (σ.plans.get id).isNone then none
  else
    let u := { σ.user with plan := request.plan.getD σ.user.plan, lastSyncAt := neverSynced }
    if request.reset then
      (σ.gateway.keyUsage σ.user usage phoneUsage).map fun (usage, phoneUsage) =>
        { σ with
          user := { u with
            cycleStartedAt := now, usageBaselineUSD := usage, phoneUsageBaselineUSD := phoneUsage, usedUnits := 0
            adjustUnits := request.adjustUnits }
          spentUSD := 0
          missedUSD := 0 }
    else some { σ with user := { u with adjustUnits := u.adjustUnits + request.adjustUnits } }

/-! ## The phone's key -/

/-- How the calls of a mint end. -/
structure MintAnswers where
  mint : Call := .done
  configure : Call := .done
  revokeOrphan : Call := .done
  saved : Bool := true
deriving DecidableEq, Repr

/-- Give the user a phone key, capped at this cycle's allowance from zero spend. -/
def mintPhoneKey (σ : Service) (a : MintAnswers) : Option Service :=
  (σ.plans.get σ.user.plan).map fun plan =>
    let limitUSD := σ.user.allowance plan / σ.unitsPerDollar
    let minted := if a.mint.took then σ.gateway ++ [{ limitUSD }] else σ.gateway
    let key : GatewayKey := { hash := σ.gateway.length, limitUSD }
    if a.mint ≠ .done then { σ with gateway := minted }
    else
      -- Keys are minted enabled, so one born into a spent allowance is switched off here.
      let (g, ok) := if σ.user.exhausted then minted.configure key.hash limitUSD true a.configure else (minted, true)
      if !ok ∨ !a.saved then { σ with gateway := g.revoke key.hash a.revokeOrphan }
      else
        { σ with
          user := { σ.user with phoneGateway := some key, phoneUsageBaselineUSD := 0 }
          gateway := g
          handed := key.hash :: σ.handed }

/-- How the calls of a drop end, and what the key spends between its usage being read and the revocation. -/
structure DropAnswers where
  usage : Bool := true
  meanwhileUSD : ℚ := 0
  revoke : Call := .done
  saved : Bool := true
deriving DecidableEq, Repr

/-- End the phone's key after its device went: its spend moves onto the desk key's side of the sum. -/
def dropPhoneKey (σ : Service) (a : DropAnswers) : Service :=
  match σ.user.phoneGateway with
  | none => σ
  | some p =>
    let carriedUSD := ((σ.gateway.usage p.hash a.usage).map fun usage =>
      max 0 (usage - σ.user.phoneUsageBaselineUSD)).getD 0
    let meanwhileUSD := if σ.gateway.live p.hash then a.meanwhileUSD else 0
    let g := (σ.gateway.spend p.hash meanwhileUSD).revoke p.hash a.revoke
    let σ := { σ with gateway := g, spentUSD := σ.spentUSD + meanwhileUSD }
    if !a.saved then σ
    else
      { σ with
        user := { σ.user with
          phoneGateway := none
          phoneUsageBaselineUSD := 0
          usageBaselineUSD := σ.user.usageBaselineUSD - carriedUSD
          lastSyncAt := epoch }
        missedUSD := σ.missedUSD + meanwhileUSD }

/-! ## The system -/

inductive Action
  | pass (now : Time) (a : PassAnswers)
  | spend (hash : ℕ) (usd : ℚ)
  | changeAllowance (request : AllowanceRequest) (now : Time) (usage phoneUsage : Bool)
  | putPlan (id : String) (plan : Plan)
  | putSettings (unitsPerDollar : ℚ)
  | mint (a : MintAnswers)
  | drop (a : DropAnswers)
deriving DecidableEq, Repr

def step (σ : Service) : Action → Option Service
  | .pass now a => some (σ.allowanceLoop now a).1
  | .spend hash usd =>
    if hash ∈ σ.handed ∧ σ.gateway.live hash ∧ 0 ≤ usd then
      some { σ with
        gateway := σ.gateway.spend hash usd
        spentUSD := σ.spentUSD + usd
        missedUSD := if hash ∈ σ.user.storedKeys.map GatewayKey.hash then σ.missedUSD else σ.missedUSD + usd }
    else none
  | .changeAllowance request now usage phoneUsage => σ.changeAllowance request now usage phoneUsage
  | .putPlan id plan =>
    if 0 ≤ plan.allowanceUnits ∧ 0 < plan.cycleDays then some { σ with plans := σ.plans.put id plan } else none
  | .putSettings unitsPerDollar => if 0 < unitsPerDollar then some { σ with unitsPerDollar } else none
  | .mint a => if σ.user.phoneGateway.isSome then none else σ.mintPhoneKey a
  | .drop a => if 0 ≤ a.meanwhileUSD then some (σ.dropPhoneKey a) else none

def Next (σ : Service) (a : Action) (τ : Service) : Prop := σ.step a = some τ

/-- A user who has just connected under a plan. -/
def connected (plans : Table String Plan) (unitsPerDollar : ℚ) (syncEvery : Time) (id : String) (plan : Plan) (now : Time) :
    Service :=
  let limitUSD := plan.allowanceDollars unitsPerDollar
  { plans, unitsPerDollar, syncEvery
    user := { plan := id, cycleStartedAt := now, lastSyncAt := now, gateway := { hash := 0, limitUSD } }
    gateway := [{ limitUSD }]
    handed := [0] }

def Initial (σ : Service) : Prop :=
  ∃ plans unitsPerDollar syncEvery id plan now, plans.get id = some plan ∧ 0 < unitsPerDollar ∧
    σ = connected plans unitsPerDollar syncEvery id plan now

end Service

end Thock.Plus
