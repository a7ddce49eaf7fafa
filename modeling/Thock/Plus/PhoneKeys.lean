import Thock.Lib.Table
import Thock.Plus.Access

/-!
# The phone's key at the gateway

Who mints, hands out, drops and revokes the phone's key, and in which order. The requests that take
a phone away or end its plan commit first and drop the key afterwards, under the mutex that grants
and passes hold; a grant asks again under the mutex who is calling, in three reads between which
other requests may commit. Every step of the mutex's holder is one step here.

Calls to the gateway and to the rows succeed. A phone is told apart by its credential's hash.
-/

namespace Thock.Plus

open Transition

/-- A phone key at the gateway, with the user and the phone it was minted for. -/
structure PhoneKey where
  userID : String
  phone : String
  revoked : Bool := false
deriving DecidableEq, Repr

/-- A request that has taken a phone away or ended its plan, and has yet to drop the key. A pairing then answers with
the new phone's credential. -/
structure Drop where
  userID : String
  answers : Option String := none
deriving DecidableEq, Repr

/-- What holds the mutex, and how far it is. -/
inductive Holder
  | grantDevice (credentialHash : String)
  | grantVault (credentialHash vaultID : String)
  | grantUser (credentialHash : String) (v : Vault)
  | grantMint (credentialHash userID : String)
  | grantStore (credentialHash userID : String) (hash : ℕ)
  | grantAnswer (credentialHash userID : String) (hash : ℕ)
  | dropRead (d : Drop)
  | dropRevoke (d : Drop) (hash : ℕ)
  | dropClear (d : Drop) (hash : ℕ)
  | revokeRead (userID : String)
  | revokePhone (userID : String) (hash : ℕ)
  | revokeClear (userID : String) (hash : ℕ)
  | revokeSave (userID : String)
  | passRead (userID : String)
  | passSave (userID : String) (hash : Option ℕ)
deriving DecidableEq, Repr

/-- The rows, the gateway's phone keys and the requests under way; and what happened so far that no code reads. -/
structure PhoneKeys where
  access : Access := {}
  users : List User
  /-- The phone key of each user's row. -/
  stored : Table String ℕ := []
  keys : List PhoneKey := []
  dropping : List Drop := []
  holder : Option Holder := none
  /-- The ids of the vaults ever made. -/
  made : List String := []
  /-- The credentials phones have been answered with. -/
  released : List String := []
  /-- The keys phones have been answered with. -/
  handed : List (String × ℕ) := []
deriving DecidableEq, Repr

/-- The user whose key a committed change has yet to drop. -/
def Access.drops (σ : Access) : Access.Action → List Drop
  | .redeem codeHash d =>
    (σ.store.redeemPairing codeHash d).toOption.toList.map fun (_, v) => { userID := v.userID, answers := d.credentialHash }
  | .revoke vaultID _ => (σ.store.vaultByID vaultID).toList.map fun v => { userID := v.userID }
  | .request (.resetVault vaultID _) => (σ.store.vaultByID vaultID).toList.map fun v => { userID := v.userID }
  | .request (.deleteVault vaultID) => (σ.store.vaultByID vaultID).toList.map fun v => { userID := v.userID }
  | .request (.setVaultLapsed vaultID (some _)) => (σ.store.vaultByID vaultID).toList.map fun v => { userID := v.userID }
  | _ => []

/-- The id a new vault would take. -/
def Access.Action.creates : Access.Action → Option String
  | .request op => op.creates
  | _ => none

/-- The vaults of a user lapse with the access. -/
def Store.lapseUser (s : Store) (userID : String) (at_ : Time) : Store :=
  { s with vaults := s.vaults.map fun v =>
      if v.userID = userID ∧ v.lapsedAt = none then { v with lapsedAt := some at_ } else v }

namespace PhoneKeys

def userByID (σ : PhoneKeys) (userID : String) : Option User := σ.users.find? fun u => u.id = userID

def revokeKey (σ : PhoneKeys) (hash : ℕ) : List PhoneKey :=
  σ.keys.modify hash fun k => { k with revoked := true }

/-- Forget the key with this hash; another that took its place is left alone. -/
def clearPhoneKey (σ : PhoneKeys) (userID : String) (hash : ℕ) : Table String ℕ :=
  if σ.stored.get userID = some hash then σ.stored.erase userID else σ.stored

/-- The next step of the mutex's holder. -/
def proceed (σ : PhoneKeys) (now : Time) : Holder → PhoneKeys
  | .grantDevice c =>
    match σ.access.store.deviceByCredential c with
    | none => { σ with holder := none }
    | some (v, _) => { σ with holder := some (.grantVault c v.id) }
  | .grantVault c vaultID =>
    match σ.access.store.vaultByID vaultID with
    | none => { σ with holder := none }
    | some v => { σ with holder := some (.grantUser c v) }
  | .grantUser c v =>
    match σ.userByID v.userID with
    | none => { σ with holder := none }
    | some u =>
      if v.lapsedAt.isSome ∨ u.revoked then { σ with holder := none }
      else match σ.stored.get u.id with
        | none => { σ with holder := some (.grantMint c u.id) }
        | some hash => { σ with holder := some (.grantAnswer c u.id hash) }
  | .grantMint c userID =>
    { σ with
      keys := σ.keys ++ [{ userID, phone := c }]
      holder := some (.grantStore c userID σ.keys.length) }
  | .grantStore c userID hash =>
    match σ.stored.get userID with
    | none => { σ with stored := σ.stored.put userID hash, holder := some (.grantAnswer c userID hash) }
    -- Another instance stored a key first; that one is handed out.
    | some other => { σ with keys := σ.revokeKey hash, holder := some (.grantAnswer c userID other) }
  -- The pass a grant answers from writes the row back as it read it.
  | .grantAnswer c userID hash =>
    { σ with stored := σ.stored.put userID hash, handed := (c, hash) :: σ.handed, holder := none }
  | .dropRead d =>
    match σ.stored.get d.userID with
    | none => { σ with released := d.answers.toList ++ σ.released, holder := none }
    | some hash => { σ with holder := some (.dropRevoke d hash) }
  | .dropRevoke d hash => { σ with keys := σ.revokeKey hash, holder := some (.dropClear d hash) }
  | .dropClear d hash =>
    { σ with
      stored := σ.clearPhoneKey d.userID hash, released := d.answers.toList ++ σ.released, holder := none }
  | .revokeRead userID =>
    match σ.userByID userID with
    | none => { σ with holder := none }
    | some u =>
      if u.revoked then { σ with holder := none }
      else match σ.stored.get userID with
        | none => { σ with holder := some (.revokeSave userID) }
        | some hash => { σ with holder := some (.revokePhone userID hash) }
  | .revokePhone userID hash => { σ with keys := σ.revokeKey hash, holder := some (.revokeClear userID hash) }
  | .revokeClear userID hash =>
    { σ with stored := σ.clearPhoneKey userID hash, holder := some (.revokeSave userID) }
  | .revokeSave userID =>
    { σ with
      users := σ.users.map fun u => if u.id = userID then { u with revoked := true } else u
      access := { σ.access with store := σ.access.store.lapseUser userID now }
      holder := none }
  | .passRead userID => { σ with holder := some (.passSave userID (σ.stored.get userID)) }
  | .passSave userID hash =>
    { σ with
      stored := match hash with
        | none => σ.stored.erase userID
        | some hash => σ.stored.put userID hash
      holder := none }

inductive Action
  /-- A change of the vaults and devices, which takes no mutex. -/
  | access (a : Access.Action)
  /-- A request that found its phone or vault already gone drops the key all the same. -/
  | alsoDrops (userID : String)
  | lockGrant (credentialHash : String)
  | lockDrop (d : Drop)
  | lockRevoke (userID : String)
  | lockPass (userID : String)
  | proceed (now : Time)
deriving DecidableEq, Repr

def step (σ : PhoneKeys) : Action → Option PhoneKeys
  | .access a => (σ.access.step a).map fun access =>
    { σ with
      access
      dropping := σ.access.drops a ++ σ.dropping
      made := access.store.vaults.map Vault.id ++ σ.made }
  | .alsoDrops userID => some { σ with dropping := { userID } :: σ.dropping }
  -- Only a phone that was answered with its credential can present it.
  | .lockGrant c => if σ.holder = none ∧ c ∈ σ.released then some { σ with holder := some (.grantDevice c) } else none
  | .lockDrop d =>
    if σ.holder = none ∧ d ∈ σ.dropping then
      some { σ with holder := some (.dropRead d), dropping := σ.dropping.erase d }
    else none
  | .lockRevoke userID => if σ.holder = none then some { σ with holder := some (.revokeRead userID) } else none
  | .lockPass userID => if σ.holder = none then some { σ with holder := some (.passRead userID) } else none
  | .proceed now => σ.holder.map fun h => σ.proceed now h

/-- What a step draws at random was never drawn before. -/
def Draws (σ : PhoneKeys) : Action → Prop
  | .access a => σ.access.Draws a ∧ ∀ id ∈ a.creates, id ∉ σ.made
  | _ => True

def Next (σ : PhoneKeys) (a : Action) (τ : PhoneKeys) : Prop := σ.Draws a ∧ σ.step a = some τ

def Initial (σ : PhoneKeys) : Prop := ∃ users, σ = { users }

/-- No request that drops a key, and none that holds the mutex, is under way. -/
def Finished (σ : PhoneKeys) : Prop := σ.dropping = [] ∧ σ.holder = none

end PhoneKeys

/-! ## What a change of the vaults leaves of a phone -/

/-- The change a request makes of a vault's owner, lapse and phones, and what it has to drop for it. -/
structure Vault.Stands (v w : Vault) (dropped : Prop) : Prop where
  userID : w.userID = v.userID
  lapsed : v.lapsedAt = none → w.lapsedAt = none ∨ dropped
  phones : w.phones = v.phones ∨ dropped ∧ w.phones.Sublist v.phones

/-- A request that ends a phone or a plan is one that drops a key. -/
theorem Vault.Applied.stands {v w : Vault} {op : Op} (h : v.Applied op w) :
    v.Stands w ((∃ keyCheck, op = .resetVault v.id keyCheck) ∨ ∃ at_, op = .setVaultLapsed v.id (some at_)) := by
  cases h with
  | untouched => exact ⟨rfl, Or.inl, Or.inl rfl⟩
  | ensured => exact ⟨rfl, Or.inl, Or.inl (phones_upsertDesk _ _ _ _)⟩
  | begun ok =>
    obtain ⟨-, -, rfl⟩ := Vault.beginUpload_ok ok
    exact ⟨rfl, Or.inl, Or.inl rfl⟩
  | committed ok =>
    rcases Vault.commitUpload_ok ok with ⟨rfl, -⟩ | ⟨p, -, -, -, -, -, rfl, -⟩
    · exact ⟨rfl, Or.inl, Or.inl rfl⟩
    · exact ⟨rfl, Or.inl, Or.inl rfl⟩
  | tombstoned ok =>
    rcases Vault.tombstoneFile_ok ok with ⟨rfl, -⟩ | ⟨-, -, -, rfl, -⟩
    · exact ⟨rfl, Or.inl, Or.inl rfl⟩
    · exact ⟨rfl, Or.inl, Or.inl rfl⟩
  | wiped => exact ⟨rfl, Or.inl, Or.inr ⟨Or.inl ⟨_, rfl⟩, List.filter_sublist.filter _⟩⟩
  | @lapsed at_ =>
    refine ⟨rfl, fun _ => ?_, Or.inl rfl⟩
    cases at_ with
    | none => exact Or.inl rfl
    | some at_ => exact Or.inr (Or.inr ⟨at_, rfl⟩)
  | queued =>
    unfold Vault.enqueueWrite
    split <;> exact ⟨rfl, Or.inl, Or.inl rfl⟩
  | acked ok =>
    unfold Vault.ackWrites at ok
    split at ok
    · cases ok
    · split at ok <;> (obtain ⟨rfl, rfl⟩ := Prod.mk.inj (Except.ok.inj ok); exact ⟨rfl, Or.inl, Or.inl rfl⟩)
  | swept => exact ⟨rfl, Or.inl, Or.inl rfl⟩

namespace Access

/-- A step has to drop the key of this user. -/
def Drops (σ : Access) (a : Action) (userID : String) : Prop := ∃ d ∈ σ.drops a, d.userID = userID

/-- A vault is made for a user who has none. -/
theorem made_alone {s t : Store} {op : Op} (h : s.after op = some t) {w : Vault} (hw : w ∈ t.vaults)
    (hmakes : op.Makes w) (hnew : w.id ∉ s.vaults.map Vault.id) : ∀ v ∈ s.vaults, v.userID ≠ w.userID := by
  obtain ⟨userID, keyCheck, deviceName, deviceID, now, rfl, hvault⟩ := hmakes
  obtain ⟨blobs, hstep⟩ := Store.after_next _ _ _ h
  simp only [Store.step] at hstep
  cases he : s.ensureVault userID keyCheck deviceName w.id deviceID now with
  | error e => rw [he] at hstep; cases hstep
  | ok r =>
    rw [he] at hstep
    obtain ⟨rfl, -⟩ := Prod.mk.inj (Except.ok.inj hstep)
    unfold Store.ensureVault at he
    split at he
    · next hnone =>
      intro v hv heq
      rw [hvault] at heq
      simpa [newVault, heq] using List.find?_eq_none.mp hnone v hv
    · next v hv =>
      split at he
      · cases he
      · obtain rfl := Except.ok.inj he
        rcases Store.mem_put hw with rfl | ⟨hmem, -⟩
        · exact absurd (List.mem_map.mpr ⟨v, List.mem_of_find?_eq_some hv, rfl⟩) hnew
        · exact absurd (List.mem_map.mpr ⟨w, hmem, rfl⟩) hnew

/-- Every vault after a step is new and without phones, or was there before: with its owner, and with its phones and
its plan unless the step drops its owner's key; a phone it did not have is a new one. -/
theorem next_vault {σ τ : Access} {a : Action} (hσ : σ.Sound) (h : σ.Next a τ) {w : Vault}
    (hw : w ∈ τ.store.vaults) :
    (w.phones = [] ∧ (∃ op, a = .request op ∧ op.creates = some w.id) ∧ ∀ v ∈ σ.store.vaults, v.userID ≠ w.userID) ∨
    ∃ v ∈ σ.store.vaults, v.id = w.id ∧ v.userID = w.userID ∧
      (v.lapsedAt = none → w.lapsedAt = none ∨ σ.Drops a v.userID) ∧
      ((∀ p ∈ v.phones, p ∈ w.phones) ∨ σ.Drops a v.userID) ∧
      ∀ p ∈ w.phones, p ∈ v.phones ∨ ∀ c, p.credentialHash = some c → c ∉ σ.minted := by
  obtain ⟨hdraws, hstep⟩ := h
  -- A vault that keeps its row but for codes.
  have same (v : Vault) (hv : v ∈ σ.store.vaults) (hid : v.id = w.id) (huser : v.userID = w.userID)
      (hlapsed : w.lapsedAt = v.lapsedAt) (hphones : w.phones = v.phones) :
      ∃ v ∈ σ.store.vaults, v.id = w.id ∧ v.userID = w.userID ∧
        (v.lapsedAt = none → w.lapsedAt = none ∨ σ.Drops a v.userID) ∧
        ((∀ p ∈ v.phones, p ∈ w.phones) ∨ σ.Drops a v.userID) ∧
        ∀ p ∈ w.phones, p ∈ v.phones ∨ ∀ c, p.credentialHash = some c → c ∉ σ.minted := by
    refine ⟨v, hv, hid, huser, fun hplan => Or.inl (hlapsed.trans hplan), Or.inl ?_, ?_⟩
    · rw [hphones]
      exact fun p hp => hp
    · rw [hphones]
      exact fun p hp => Or.inl hp
  rcases step_cases hstep with ⟨op, t, rfl, ht, rfl⟩ | ⟨r, v, hv, rfl, hid, rfl⟩ | ⟨r, hr, rfl, hgone, rfl⟩ |
    ⟨r, hr, v, hv, rfl, hid, rfl⟩ | ⟨codeHash, d, t, v, rfl, hok, rfl⟩ | ⟨vaultID, id, v, hv, rfl, hid, rfl⟩
  · obtain ⟨blobs, hserver⟩ := Store.after_next _ _ _ ht
    rcases Store.step_applied hserver hw with ⟨hmakes, hnew⟩ | ⟨v, hv, hid, happlied⟩
    · have halone := made_alone ht hw hmakes hnew
      obtain ⟨userID, keyCheck, deviceName, deviceID, now, rfl, hvault⟩ := hmakes
      refine Or.inl ⟨by rw [hvault]; rfl, ⟨_, rfl, rfl⟩, halone⟩
    · have hfind := Store.vaultByID_of_mem hσ.ids hv
      have hdrops : (∃ keyCheck, op = .resetVault v.id keyCheck) ∨ (∃ at_, op = .setVaultLapsed v.id (some at_)) →
          σ.Drops (.request op) v.userID := by
        rintro (⟨keyCheck, rfl⟩ | ⟨at_, rfl⟩) <;> exact ⟨{ userID := v.userID }, by simp [drops, hfind], rfl⟩
      obtain ⟨huser, hlapsed, hphones⟩ := happlied.stands
      refine Or.inr ⟨v, hv, hid, huser.symm, fun hplan => (hlapsed hplan).imp_right hdrops, ?_, ?_⟩
      · rcases hphones with hsame | ⟨hdropped, -⟩
        · rw [hsame]
          exact Or.inl fun p hp => hp
        · exact Or.inr (hdrops hdropped)
      · exact fun p hp => Or.inl (happlied.access.1.subset hp)
  · rcases Store.mem_put hw with rfl | ⟨hmem, -⟩
    · exact Or.inr (same v hv rfl rfl rfl rfl)
    · exact Or.inr (same w hmem rfl rfl rfl rfl)
  · exact Or.inr (same w hw rfl rfl rfl rfl)
  · rcases Store.mem_put hw with rfl | ⟨hmem, -⟩
    · exact Or.inr (same v hv rfl rfl rfl rfl)
    · exact Or.inr (same w hmem rfl rfl rfl rfl)
  · obtain ⟨fresh, hfresh, hunminted⟩ := hdraws
    have hdrops : σ.Drops (.redeem codeHash d) v.userID :=
      ⟨{ userID := v.userID, answers := d.credentialHash }, by simp [drops, hok, Except.toOption], rfl⟩
    obtain ⟨u, hu, p, hp, -, -, -, rfl, rfl⟩ := Store.redeemPairing_ok hok
    rcases Store.mem_put hw with rfl | ⟨hmem, -⟩
    · refine Or.inr ⟨u, hu, rfl, rfl, Or.inl, Or.inr hdrops, fun p hp => Or.inr fun c hc => ?_⟩
      rw [phones_redeemed, List.mem_singleton] at hp
      rw [hp] at hc
      rw [← Option.some.inj (hfresh.symm.trans hc)]
      exact hunminted
    · exact Or.inr (same w hmem rfl rfl rfl rfl)
  · have hdrops : σ.Drops (.revoke vaultID id) v.userID :=
      ⟨{ userID := v.userID }, by simp [drops, ← hid, Store.vaultByID_of_mem hσ.ids hv], rfl⟩
    rcases Store.mem_put hw with rfl | ⟨hmem, -⟩
    · exact Or.inr ⟨v, hv, rfl, rfl, Or.inl, Or.inr hdrops,
        fun p hp => Or.inl ((List.filter_sublist.filter _).subset hp)⟩
    · exact Or.inr (same w hmem rfl rfl rfl rfl)

/-- A vault whose plan runs is still there after a step, unless the step drops its owner's key. -/
theorem next_kept {σ τ : Access} {a : Action} (hσ : σ.Sound) (h : σ.Next a τ) {v : Vault} (hv : v ∈ σ.store.vaults)
    (hplan : v.lapsedAt = none) : (∃ w ∈ τ.store.vaults, w.id = v.id) ∨ σ.Drops a v.userID := by
  have ofIds {t : Store} (hids : v.id ∈ t.vaults.map Vault.id) : ∃ w ∈ t.vaults, w.id = v.id := by
    obtain ⟨w, hw, hid⟩ := List.mem_map.mp hids
    exact ⟨w, hw, hid⟩
  have hmem : v.id ∈ σ.store.vaults.map Vault.id := List.mem_map_of_mem hv
  rcases step_cases h.2 with ⟨op, t, rfl, ht, rfl⟩ | ⟨r, u, hu, rfl, hid, rfl⟩ | ⟨r, hr, rfl, hgone, rfl⟩ |
    ⟨r, hr, u, hu, rfl, hid, rfl⟩ | ⟨codeHash, d, t, u, rfl, hok, rfl⟩ | ⟨vaultID, id, u, hu, rfl, hid, rfl⟩
  · obtain ⟨blobs, hserver⟩ := Store.after_next _ _ _ ht
    obtain ⟨new, hids, -⟩ := Store.step_ids hserver
    cases hremoved : op.removesVault v with
    | false =>
      refine Or.inl (ofIds ?_)
      rw [hids]
      exact List.mem_append_left _ (List.mem_map_of_mem (List.mem_filter.mpr ⟨hv, by simp [hremoved]⟩))
    | true =>
      have hfind := Store.vaultByID_of_mem hσ.ids hv
      cases op <;> simp only [Op.removesVault, Bool.false_eq_true, decide_eq_true_eq] at hremoved
      case deleteVault vaultID =>
        subst hremoved
        exact Or.inr ⟨{ userID := v.userID }, by simp [drops, hfind], rfl⟩
      case sweep now => simp [Vault.lapsedBefore, hplan] at hremoved
  · exact Or.inl (ofIds (by rw [Store.put_ids]; exact hmem))
  · exact Or.inl ⟨v, hv, rfl⟩
  · exact Or.inl (ofIds (by rw [Store.put_ids]; exact hmem))
  · obtain ⟨x, hx, p, hp, -, -, -, rfl, rfl⟩ := Store.redeemPairing_ok hok
    exact Or.inl (ofIds (by rw [Store.put_ids]; exact hmem))
  · exact Or.inl (ofIds (by rw [Store.put_ids]; exact hmem))

end Access

/-- The drop under way. -/
def Holder.drop? : Holder → Option Drop
  | .dropRead d | .dropRevoke d _ | .dropClear d _ => some d
  | _ => none

/-- Whether a call has a key to store. -/
def Holder.storing : Holder → Bool
  | .grantStore _ _ _ => true
  | _ => false

theorem Holder.ne_grantStore {x : Holder} (h : x.storing = false) (c userID : String) (hash : ℕ) :
    x ≠ .grantStore c userID hash := by
  rintro rfl
  cases h

namespace PhoneKeys

/-! ## The invariant -/

/-- A user whose vault has a phone and whose plan runs. -/
def Standing (σ : PhoneKeys) (userID : String) : Prop :=
  (∃ v ∈ σ.access.store.vaults, v.userID = userID ∧ v.lapsedAt = none ∧ v.phones ≠ []) ∧
    ∃ u, σ.userByID userID = some u ∧ u.revoked = false

/-- The user has a phone with this credential. -/
def HasPhone (σ : PhoneKeys) (userID c : String) : Prop :=
  ∃ v ∈ σ.access.store.vaults, v.userID = userID ∧ ∃ p ∈ v.phones, p.credentialHash = some c

def MintedFor (σ : PhoneKeys) (hash : ℕ) (c : String) : Prop := ∃ k, σ.keys[hash]? = some k ∧ k.phone = c

/-- A committed change waits to drop the user's key. -/
def Pending (σ : PhoneKeys) (userID : String) : Prop := ∃ d ∈ σ.dropping, d.userID = userID

def Dropping (σ : PhoneKeys) (userID : String) : Prop :=
  σ.Pending userID ∨ ∃ d, σ.holder.bind Holder.drop? = some d ∧ d.userID = userID

/-- The user's phone with this credential is the only one that can call, and a stored key was minted for it. -/
structure Alone (σ : PhoneKeys) (c userID : String) : Prop where
  released : c ∈ σ.released
  only : ∀ other, σ.HasPhone userID other → other ∈ σ.released → other = c
  own : ∀ hash, σ.stored.get userID = some hash → σ.MintedFor hash c

/-- The phone was found in this vault, and is there still unless its user's key is to be dropped. -/
structure Found (σ : PhoneKeys) (c vaultID userID : String) : Prop where
  alone : σ.Alone c userID
  made : vaultID ∈ σ.made
  there : ∀ w ∈ σ.access.store.vaults, w.id = vaultID →
    w.userID = userID ∧ (σ.Pending userID ∨ ∃ p ∈ w.phones, p.credentialHash = some c)

/-- What the mutex's holder relies on. -/
def Relies (σ : PhoneKeys) : Holder → Prop
  | .grantDevice c => c ∈ σ.released
  | .grantVault c vaultID => ∃ userID, σ.Found c vaultID userID
  | .grantUser c v => σ.Found c v.id v.userID ∧
      (v.lapsedAt = none → σ.Pending v.userID ∨ ∃ w ∈ σ.access.store.vaults, w.id = v.id ∧ w.lapsedAt = none)
  | .grantMint c userID => σ.Alone c userID ∧ (σ.Standing userID ∨ σ.Pending userID)
  | .grantStore c userID hash =>
    σ.Alone c userID ∧ (σ.Standing userID ∨ σ.Pending userID) ∧ ∃ k, σ.keys[hash]? = some k ∧ k.userID = userID ∧ k.phone = c
  | .grantAnswer c userID hash => σ.stored.get userID = some hash ∧ σ.MintedFor hash c
  | .dropRevoke d hash => σ.stored.get d.userID = some hash
  | .dropClear d hash => σ.stored.get d.userID = some hash ∧ ∃ k, σ.keys[hash]? = some k ∧ k.revoked = true
  | .revokePhone userID hash => σ.stored.get userID = some hash
  | .revokeClear userID hash => σ.stored.get userID = some hash ∧ ∃ k, σ.keys[hash]? = some k ∧ k.revoked = true
  | .revokeSave userID => σ.stored.get userID = none
  | .passSave userID hash => σ.stored.get userID = hash
  | .dropRead _ | .revokeRead _ | .passRead _ => True

/-- Every key at the gateway is accounted for, at every moment. -/
structure Accounted (σ : PhoneKeys) : Prop where
  access : σ.access.Sound
  owners : ∀ v ∈ σ.access.store.vaults, ∀ w ∈ σ.access.store.vaults, v.userID = w.userID → v.id = w.id
  made : ∀ v ∈ σ.access.store.vaults, v.id ∈ σ.made
  released : σ.released ⊆ σ.access.minted
  keyed : ∀ userID hash, σ.stored.get userID = some hash → ∃ k, σ.keys[hash]? = some k ∧ k.userID = userID
  live : ∀ hash k, σ.keys[hash]? = some k → k.revoked = false →
    σ.stored.get k.userID = some hash ∨ ∃ c, σ.holder = some (.grantStore c k.userID hash)
  standing : ∀ userID hash, σ.stored.get userID = some hash → σ.Standing userID ∨ σ.Dropping userID
  mine : ∀ userID hash, σ.stored.get userID = some hash →
    ∀ c, σ.HasPhone userID c → c ∈ σ.released → σ.MintedFor hash c
  answers : ∀ d, d ∈ σ.dropping ∨ σ.holder.bind Holder.drop? = some d → ∀ c, d.answers = some c →
    c ∈ σ.access.minted ∧ ∀ userID, σ.HasPhone userID c → userID = d.userID
  relies : ∀ x, σ.holder = some x → σ.Relies x
  handed : ∀ e ∈ σ.handed, σ.MintedFor e.2 e.1

/-! ## Changes of the vaults -/

section

variable {σ τ : PhoneKeys} {a : Access.Action}

/-- A change of the vaults, as the rows see it. -/
structure Changed (σ : PhoneKeys) (a : Access.Action) (τ : PhoneKeys) : Prop where
  next : σ.access.Next a τ.access
  fresh : ∀ op, a = .request op → ∀ id, op.creates = some id → id ∉ σ.made
  users : τ.users = σ.users
  stored : τ.stored = σ.stored
  keys : τ.keys = σ.keys
  dropping : τ.dropping = σ.access.drops a ++ σ.dropping
  holder : τ.holder = σ.holder
  made : τ.made = τ.access.store.vaults.map Vault.id ++ σ.made
  released : τ.released = σ.released
  handed : τ.handed = σ.handed

/-- A phone a user has after a change is one the user had, or one with a new credential. -/
theorem Changed.hasPhone (h : σ.Changed a τ) (hσ : σ.Accounted) {userID c : String} (hphone : τ.HasPhone userID c)
    (hminted : c ∈ σ.access.minted) : σ.HasPhone userID c := by
  obtain ⟨w, hw, huser, p, hp, hc⟩ := hphone
  rcases Access.next_vault hσ.access h.next hw with ⟨hnone, -⟩ | ⟨v, hv, -, hvuser, -, -, hphones⟩
  · simp [hnone] at hp
  · rcases hphones p hp with hold | hnew
    · exact ⟨v, hv, hvuser.trans huser, p, hold, hc⟩
    · exact absurd hminted (hnew c hc)

theorem Changed.pending (h : σ.Changed a τ) {userID : String} (hpending : σ.Pending userID) : τ.Pending userID := by
  obtain ⟨d, hd, huser⟩ := hpending
  exact ⟨d, by rw [h.dropping]; exact List.mem_append_right _ hd, huser⟩

theorem Changed.pending_of_drops (h : σ.Changed a τ) {userID : String} (hdrops : σ.access.Drops a userID) :
    τ.Pending userID := by
  obtain ⟨d, hd, huser⟩ := hdrops
  exact ⟨d, by rw [h.dropping]; exact List.mem_append_left _ hd, huser⟩

/-- A vault that was there is, after a change, the one it was made of. -/
theorem Changed.vault (h : σ.Changed a τ) (hσ : σ.Accounted) {v w : Vault} (hv : v ∈ σ.access.store.vaults)
    (hw : w ∈ τ.access.store.vaults) (hid : w.id = v.id) :
    w.userID = v.userID ∧ (v.lapsedAt = none → w.lapsedAt = none ∨ τ.Pending v.userID) ∧
      ((∀ p ∈ v.phones, p ∈ w.phones) ∨ τ.Pending v.userID) := by
  rcases Access.next_vault hσ.access h.next hw with ⟨-, ⟨op, hop, hcreates⟩, -⟩ | ⟨u, hu, huid, huser, hlapsed, hphones, -⟩
  · exact absurd (hid ▸ hσ.made v hv) (h.fresh op hop w.id hcreates)
  · obtain rfl := List.inj_on_of_nodup_map hσ.access.ids hu hv (huid.trans hid)
    exact ⟨huser.symm, fun hplan => (hlapsed hplan).imp_right h.pending_of_drops,
      hphones.imp_right h.pending_of_drops⟩

/-- A user stands after a change as before, or a drop waits. -/
theorem Changed.standing (h : σ.Changed a τ) (hσ : σ.Accounted) {userID : String} (hstanding : σ.Standing userID) :
    τ.Standing userID ∨ τ.Pending userID := by
  obtain ⟨⟨v, hv, rfl, hplan, hphones⟩, u, hu, hactive⟩ := hstanding
  rcases Access.next_kept hσ.access h.next hv hplan with ⟨w, hw, hid⟩ | hdrops
  · obtain ⟨huser, hlapsed, hkept⟩ := h.vault hσ hv hw hid
    rcases hlapsed hplan with hlapsed | hpending
    · rcases hkept with hkept | hpending
      · refine Or.inl ⟨⟨w, hw, huser, hlapsed, fun hempty => ?_⟩, u, ?_, hactive⟩
        · obtain ⟨p, hp⟩ := List.exists_mem_of_ne_nil _ hphones
          simpa [hempty] using hkept p hp
        · unfold userByID at hu ⊢
          rw [h.users]
          exact hu
      · exact Or.inr hpending
    · exact Or.inr hpending
  · exact Or.inr (h.pending_of_drops hdrops)

theorem Changed.mintedFor (h : σ.Changed a τ) {hash : ℕ} {c : String} (hminted : σ.MintedFor hash c) :
    τ.MintedFor hash c := by
  unfold MintedFor at hminted ⊢
  rw [h.keys]
  exact hminted

theorem Changed.alone (h : σ.Changed a τ) (hσ : σ.Accounted) {c userID : String} (halone : σ.Alone c userID) :
    τ.Alone c userID := by
  constructor
  · rw [h.released]
    exact halone.released
  · intro other hphone hreleased
    rw [h.released] at hreleased
    exact halone.only other (h.hasPhone hσ hphone (hσ.released hreleased)) hreleased
  · intro hash hstored
    rw [h.stored] at hstored
    exact h.mintedFor (halone.own hash hstored)

theorem Changed.found (h : σ.Changed a τ) (hσ : σ.Accounted) {c vaultID userID : String}
    (hfound : σ.Found c vaultID userID) : τ.Found c vaultID userID := by
  refine ⟨h.alone hσ hfound.alone, by rw [h.made]; exact List.mem_append_right _ hfound.made, fun w hw hid => ?_⟩
  rcases Access.next_vault hσ.access h.next hw with ⟨-, ⟨op, hop, hcreates⟩, -⟩ | ⟨v, hv, hvid, -⟩
  · exact absurd (hid ▸ hfound.made) (h.fresh op hop w.id hcreates)
  · obtain ⟨huser, -, hphones⟩ := h.vault hσ hv hw hvid.symm
    obtain ⟨howner, hthere⟩ := hfound.there v hv (hvid.trans hid)
    refine ⟨huser.trans howner, ?_⟩
    rcases hthere with hpending | ⟨p, hp, hc⟩
    · exact Or.inl (h.pending hpending)
    · rcases hphones with hkept | hpending
      · exact Or.inr ⟨p, hkept p hp, hc⟩
      · exact Or.inl (howner ▸ hpending)

/-- What the mutex's holder relies on survives the changes others commit meanwhile. -/
theorem Changed.relies (h : σ.Changed a τ) (hσ : σ.Accounted) {x : Holder} (hx : σ.Relies x) : τ.Relies x := by
  have kept (userID : String) : τ.stored.get userID = σ.stored.get userID := by rw [h.stored]
  have entitled {userID : String} (hs : σ.Standing userID ∨ σ.Pending userID) : τ.Standing userID ∨ τ.Pending userID := by
    rcases hs with hstanding | hpending
    · exact h.standing hσ hstanding
    · exact Or.inr (h.pending hpending)
  cases x with
  | grantDevice c => exact (congrArg (c ∈ ·) h.released).mpr hx
  | grantVault c vaultID =>
    obtain ⟨userID, hfound⟩ := hx
    exact ⟨userID, h.found hσ hfound⟩
  | grantUser c v =>
    obtain ⟨hfound, hplan⟩ := hx
    refine ⟨h.found hσ hfound, fun hlapsed => ?_⟩
    rcases hplan hlapsed with hpending | ⟨w, hw, hid, hrunning⟩
    · exact Or.inl (h.pending hpending)
    · have howner := (hfound.there w hw hid).1
      rcases Access.next_kept hσ.access h.next hw hrunning with ⟨w', hw', hid'⟩ | hdrops
      · rcases (h.vault hσ hw hw' hid').2.1 hrunning with hrunning' | hpending
        · exact Or.inr ⟨w', hw', hid'.trans hid, hrunning'⟩
        · exact Or.inl (howner ▸ hpending)
      · exact Or.inl (howner ▸ h.pending_of_drops hdrops)
  | grantMint c userID => exact ⟨h.alone hσ hx.1, entitled hx.2⟩
  | grantStore c userID hash =>
    refine ⟨h.alone hσ hx.1, entitled hx.2.1, ?_⟩
    rw [h.keys]
    exact hx.2.2
  | grantAnswer c userID hash =>
    refine ⟨?_, h.mintedFor hx.2⟩
    rw [h.stored]
    exact hx.1
  | dropRead d => trivial
  | dropRevoke d hash => exact (kept d.userID).trans (show σ.stored.get d.userID = some hash from hx)
  | dropClear d hash =>
    refine ⟨(kept d.userID).trans hx.1, ?_⟩
    rw [h.keys]
    exact hx.2
  | revokeRead userID => trivial
  | revokePhone userID hash => exact (kept userID).trans (show σ.stored.get userID = some hash from hx)
  | revokeClear userID hash =>
    refine ⟨(kept userID).trans hx.1, ?_⟩
    rw [h.keys]
    exact hx.2
  | revokeSave userID => exact (kept userID).trans (show σ.stored.get userID = none from hx)
  | passRead userID => trivial
  | passSave userID hash => exact (kept userID).trans (show σ.stored.get userID = hash from hx)

end

/-- The phone a redeemed code makes, with its credential. -/
theorem redeemed_phone {σ τ : PhoneKeys} {a : Access.Action} (h : σ.Changed a τ) (hσ : σ.Accounted) {d : Drop}
    (hd : d ∈ σ.access.drops a) {c : String} (hc : d.answers = some c) :
    c ∈ τ.access.minted ∧ ∀ userID, τ.HasPhone userID c → userID = d.userID := by
  have hsound := Access.sound_step hσ.access h.next
  obtain ⟨hdraws, hstep⟩ := h.next
  cases a with
  | redeem codeHash e =>
    obtain ⟨⟨t, w⟩, hok, hτ⟩ := Option.map_eq_some_iff.mp hstep
    simp only [Access.drops, hok, Option.toList_some, List.map_cons, List.map_nil, List.mem_singleton] at hd
    rw [hd] at hc ⊢
    simp only at hc
    refine ⟨by rw [← hτ]; simp [hc], fun userID hphone => ?_⟩
    -- The credential is the new phone's, and no two vaults share one.
    obtain ⟨v, hv, huser, p, hp, hpc⟩ := hphone
    obtain ⟨u, hu, q, hq, -, -, -, rfl, rfl⟩ := Store.redeemPairing_ok (Access.toOption_eq_some hok)
    have hw : { u.spendCode codeHash e.pairedAt with
        devices := (u.spendCode codeHash e.pairedAt).devices ++
          [{ e with role := .phone, lastSeenAt := e.pairedAt }] } ∈ τ.access.store.vaults := by
      rw [← hτ]
      exact List.mem_map.mpr ⟨u, hu, if_pos rfl⟩
    have hnew : { e with role := .phone, lastSeenAt := e.pairedAt } ∈ Vault.phones
        { u.spendCode codeHash e.pairedAt with
          devices := (u.spendCode codeHash e.pairedAt).devices ++
            [{ e with role := .phone, lastSeenAt := e.pairedAt }] } := by
      rw [phones_redeemed]
      exact List.mem_singleton_self _
    have hid := hsound.apart v hv _ hw p hp _ hnew (hpc.trans hc.symm)
    rw [← huser, List.inj_on_of_nodup_map hsound.ids hv hw hid]
  | request op =>
    cases op <;> simp only [Access.drops, List.not_mem_nil] at hd
    case setVaultLapsed vaultID at_ =>
      cases at_ with
      | none => cases hd
      | some at_ =>
        obtain ⟨v, -, rfl⟩ := List.mem_map.mp hd
        cases hc
    all_goals
      obtain ⟨v, -, rfl⟩ := List.mem_map.mp hd
      cases hc
  | revoke vaultID id =>
    obtain ⟨v, -, rfl⟩ := List.mem_map.mp hd
    cases hc
  | dropCodes r => cases hd
  | insertCode r => cases hd

theorem Changed.dropping_mono {σ τ : PhoneKeys} {a : Access.Action} (h : σ.Changed a τ) {userID : String}
    (hdropping : σ.Dropping userID) : τ.Dropping userID := by
  rcases hdropping with hpending | ⟨d, hd, huser⟩
  · exact Or.inl (h.pending hpending)
  · exact Or.inr ⟨d, by rw [h.holder]; exact hd, huser⟩

/-- Whatever the vaults' requests commit, the keys stay accounted for. -/
theorem Accounted.changed {σ τ : PhoneKeys} {a : Access.Action} (hσ : σ.Accounted) (h : σ.Changed a τ) :
    τ.Accounted := by
  constructor
  · exact Access.sound_step hσ.access h.next
  · intro v hv w hw huser
    rcases Access.next_vault hσ.access h.next hv with ⟨-, ⟨op, hop, hcreates⟩, halone⟩ | ⟨v', hv', hvid, hvuser, -⟩
    · rcases Access.next_vault hσ.access h.next hw with ⟨-, ⟨op', hop', hcreates'⟩, -⟩ | ⟨w', hw', -, hwuser, -⟩
      · obtain rfl := Access.Action.request.inj (hop.symm.trans hop')
        exact Option.some.inj (hcreates.symm.trans hcreates')
      · exact absurd (hwuser.trans huser.symm) (halone w' hw')
    · rcases Access.next_vault hσ.access h.next hw with ⟨-, -, halone⟩ | ⟨w', hw', hwid, hwuser, -⟩
      · exact absurd (hvuser.trans huser) (halone v' hv')
      · rw [← hvid, ← hwid]
        exact hσ.owners v' hv' w' hw' (hvuser.trans (huser.trans hwuser.symm))
  · intro v hv
    rw [h.made]
    exact List.mem_append_left _ (List.mem_map_of_mem hv)
  · rw [h.released]
    exact fun c hc => Access.minted_step h.next.2 (hσ.released hc)
  · rw [h.stored, h.keys]
    exact hσ.keyed
  · rw [h.stored, h.keys, h.holder]
    exact hσ.live
  · intro userID hash hstored
    rw [h.stored] at hstored
    rcases hσ.standing userID hash hstored with hstanding | hdropping
    · exact (h.standing hσ hstanding).imp_right Or.inl
    · exact Or.inr (h.dropping_mono hdropping)
  · intro userID hash hstored c hphone hreleased
    rw [h.stored] at hstored
    rw [h.released] at hreleased
    exact h.mintedFor (hσ.mine userID hash hstored c (h.hasPhone hσ hphone (hσ.released hreleased)) hreleased)
  · intro d hd c hc
    rw [h.dropping, h.holder, List.mem_append] at hd
    rcases hd with (hnew | hold) | hholder
    · exact redeemed_phone h hσ hnew hc
    all_goals
      obtain ⟨hminted, honly⟩ := hσ.answers d (by tauto) c hc
      exact ⟨Access.minted_step h.next.2 hminted, fun userID hphone => honly userID (h.hasPhone hσ hphone hminted)⟩
  · intro x hx
    rw [h.holder] at hx
    exact h.relies hσ (hσ.relies x hx)
  · rw [h.handed]
    exact fun e he => h.mintedFor (hσ.handed e he)

/-! ## The mutex and its holder -/

theorem dropping_of_holder {σ : PhoneKeys} {x : Holder} (hx : σ.holder = some x) (hdrop : x.drop? = none)
    {userID : String} (h : σ.Dropping userID) : σ.Pending userID := by
  rcases h with hpending | ⟨d, hd, -⟩
  · exact hpending
  · rw [hx, Option.bind_some, hdrop] at hd
    cases hd

theorem Alone.rehold {σ : PhoneKeys} {c userID : String} (h : σ.Alone c userID) (x : Option Holder)
    (dropping : List Drop) : Alone { σ with holder := x, dropping } c userID :=
  ⟨h.released, h.only, h.own⟩

/-- Who holds the mutex is nothing a holder relies on, and neither is that fewer drops wait. -/
theorem relies_rehold {σ : PhoneKeys} {y : Holder} (hy : σ.Relies y) (x : Option Holder) {dropping : List Drop}
    (hsub : σ.dropping ⊆ dropping) : Relies { σ with holder := x, dropping } y := by
  have pending {userID : String} (h : σ.Pending userID) : Pending { σ with holder := x, dropping } userID := by
    obtain ⟨d, hd, huser⟩ := h
    exact ⟨d, hsub hd, huser⟩
  have found {c vaultID userID : String} (h : σ.Found c vaultID userID) :
      Found { σ with holder := x, dropping } c vaultID userID :=
    ⟨h.alone.rehold x dropping, h.made, fun w hw hid => (h.there w hw hid).imp_right fun hthere => hthere.imp_left pending⟩
  cases y with
  | grantVault c vaultID =>
    obtain ⟨userID, hfound⟩ := hy
    exact ⟨userID, found hfound⟩
  | grantUser c v => exact ⟨found hy.1, fun hplan => (hy.2 hplan).imp_left pending⟩
  | grantMint c userID => exact ⟨hy.1.rehold x dropping, hy.2.imp_right pending⟩
  | grantStore c userID hash => exact ⟨hy.1.rehold x dropping, hy.2.1.imp_right pending, hy.2.2⟩
  | _ => exact hy

/-- The mutex passes on, or its holder goes a step further, with nothing written. -/
theorem Accounted.rehold {σ : PhoneKeys} (h : σ.Accounted) {x : Option Holder} (dropping : List Drop)
    (hstore : ∀ c userID hash, σ.holder = some (.grantStore c userID hash) → x = some (.grantStore c userID hash))
    (hstanding : ∀ userID hash, σ.stored.get userID = some hash → σ.Dropping userID →
      σ.Standing userID ∨ Dropping { σ with holder := x, dropping } userID)
    (hanswers : ∀ d, d ∈ dropping ∨ x.bind Holder.drop? = some d →
      (d ∈ σ.dropping ∨ σ.holder.bind Holder.drop? = some d) ∨ d.answers = none)
    (hx : ∀ y, x = some y → Relies { σ with holder := x, dropping } y) : Accounted { σ with holder := x, dropping } := by
  constructor
  · exact h.access
  · exact h.owners
  · exact h.made
  · exact h.released
  · exact h.keyed
  · intro hash k hk hlive
    rcases h.live hash k hk hlive with hstored | ⟨c, hholder⟩
    · exact Or.inl hstored
    · exact Or.inr ⟨c, hstore c k.userID hash hholder⟩
  · intro userID hash hstored
    rcases h.standing userID hash hstored with hstands | hdropping
    · exact Or.inl hstands
    · exact hstanding userID hash hstored hdropping
  · exact h.mine
  · intro d hd c hc
    rcases hanswers d hd with hold | hnone
    · exact h.answers d hold c hc
    · rw [hnone] at hc
      cases hc
  · exact hx
  · exact h.handed

/-- The mutex's holder goes a step further, or lets go, in a grant, a revocation or a pass that has written nothing. -/
theorem Accounted.read {σ : PhoneKeys} (h : σ.Accounted) {y : Holder} (hy : σ.holder = some y) (hdrop : y.drop? = none)
    (hstore : ∀ c userID hash, y ≠ .grantStore c userID hash) {x : Option Holder} (hxdrop : x.bind Holder.drop? = none)
    (hx : ∀ z, x = some z → σ.Relies z) : Accounted { σ with holder := x } := by
  refine h.rehold σ.dropping ?_ ?_ ?_ ?_
  · intro c userID hash hholder
    exact absurd (Option.some.inj (hy.symm.trans hholder)) (hstore c userID hash)
  · exact fun userID hash _ hdropping => Or.inr (Or.inl (dropping_of_holder hy hdrop hdropping))
  · intro d hd
    rcases hd with hmem | hd
    · exact Or.inl (Or.inl hmem)
    · rw [hxdrop] at hd
      cases hd
  · exact fun z hz => relies_rehold (hx z hz) x (List.Subset.refl _)

theorem getElem?_revokeKey (σ : PhoneKeys) (hash i : ℕ) :
    (σ.revokeKey hash)[i]? = if hash = i then (σ.keys[i]?).map fun k => { k with revoked := true } else σ.keys[i]? := by
  unfold revokeKey
  rw [List.getElem?_modify]
  split
  · rfl
  · exact Option.map_id_apply

/-- Revoking leaves every key with the user and the phone it was minted for. -/
theorem mintedFor_revokeKey {σ : PhoneKeys} (hash : ℕ) {i : ℕ} {k : PhoneKey} (hk : σ.keys[i]? = some k) :
    ∃ k', (σ.revokeKey hash)[i]? = some k' ∧ k'.userID = k.userID ∧ k'.phone = k.phone := by
  rw [getElem?_revokeKey]
  split
  · exact ⟨{ k with revoked := true }, by rw [hk]; rfl, rfl, rfl⟩
  · exact ⟨k, hk, rfl, rfl⟩

/-- A key still live after a revocation is another one, and as it was. -/
theorem live_of_revokeKey {σ : PhoneKeys} {hash i : ℕ} {k : PhoneKey} (hk : (σ.revokeKey hash)[i]? = some k)
    (hlive : k.revoked = false) : i ≠ hash ∧ σ.keys[i]? = some k := by
  rw [getElem?_revokeKey] at hk
  split at hk
  · obtain ⟨k', -, rfl⟩ := Option.map_eq_some_iff.mp hk
    cases hlive
  · next hne => exact ⟨Ne.symm hne, hk⟩

theorem revoked_of_revokeKey {σ : PhoneKeys} {hash : ℕ} {k : PhoneKey} (hk : σ.keys[hash]? = some k) :
    ∃ k', (σ.revokeKey hash)[hash]? = some k' ∧ k'.revoked = true := by
  refine ⟨{ k with revoked := true }, ?_, rfl⟩
  rw [getElem?_revokeKey, if_pos rfl, hk]
  rfl

/-- A stored key is revoked at the gateway before its row is cleared. -/
theorem Accounted.revoke {σ : PhoneKeys} (h : σ.Accounted) {y x : Holder} (hy : σ.holder = some y)
    (hstore : ∀ c userID hash, y ≠ .grantStore c userID hash) (hdrop : x.drop? = y.drop?) {hash : ℕ}
    (hx : Relies { σ with keys := σ.revokeKey hash, holder := some x } x) :
    Accounted { σ with keys := σ.revokeKey hash, holder := some x } := by
  have minted {i : ℕ} {c : String} (hm : σ.MintedFor i c) :
      MintedFor { σ with keys := σ.revokeKey hash, holder := some x } i c := by
    obtain ⟨k, hk, hphone⟩ := hm
    obtain ⟨k', hk', -, hsame⟩ := mintedFor_revokeKey hash hk
    exact ⟨k', hk', hsame.trans hphone⟩
  have drops (d : Drop) : (some x).bind Holder.drop? = some d ↔ σ.holder.bind Holder.drop? = some d := by
    rw [hy, Option.bind_some, Option.bind_some, hdrop]
  constructor
  · exact h.access
  · exact h.owners
  · exact h.made
  · exact h.released
  · intro userID i hstored
    obtain ⟨k, hk, huser⟩ := h.keyed userID i hstored
    obtain ⟨k', hk', hsame, -⟩ := mintedFor_revokeKey hash hk
    exact ⟨k', hk', hsame.trans huser⟩
  · intro i k hk hlive
    obtain ⟨-, hk'⟩ := live_of_revokeKey hk hlive
    rcases h.live i k hk' hlive with hstored | ⟨c, hholder⟩
    · exact Or.inl hstored
    · exact absurd (Option.some.inj (hy.symm.trans hholder)) (hstore c k.userID i)
  · intro userID i hstored
    rcases h.standing userID i hstored with hstands | hpending | ⟨d, hd, huser⟩
    · exact Or.inl hstands
    · exact Or.inr (Or.inl hpending)
    · exact Or.inr (Or.inr ⟨d, (drops d).mpr hd, huser⟩)
  · exact fun userID i hstored c hphone hreleased => minted (h.mine userID i hstored c hphone hreleased)
  · exact fun d hd => h.answers d (hd.imp_right (drops d).mp)
  · intro z hz
    obtain rfl := Option.some.inj hz
    exact hx
  · exact fun e he => minted (h.handed e he)

theorem getElem_clearPhoneKey {σ : PhoneKeys} {userID : String} {hash : ℕ} (hstored : σ.stored.get userID = some hash)
    (other : String) :
    (σ.clearPhoneKey userID hash).get other = if other = userID then none else σ.stored.get other := by
  unfold clearPhoneKey
  rw [if_pos hstored, Table.get_erase]

/-- Once a user's key is gone from the row, the holder may let go, and a pairing may answer. -/
theorem Accounted.forgotten {σ : PhoneKeys} (h : σ.Accounted) {y : Holder} (hy : σ.holder = some y)
    (hstore : ∀ c userID hash, y ≠ .grantStore c userID hash) {stored : Table String ℕ} (userID : String)
    (hforgot : ∀ other, stored.get other = if other = userID then none else σ.stored.get other)
    (hgone : ∀ hash k, σ.keys[hash]? = some k → k.revoked = false → k.userID = userID → σ.stored.get userID ≠ some hash)
    (hdrop : ∀ d, y.drop? = some d → d.userID = userID) (released : List String)
    (hreleased : ∀ c ∈ released, ∃ d, y.drop? = some d ∧ d.answers = some c) {x : Option Holder}
    (hxdrop : x.bind Holder.drop? = none)
    (hx : ∀ z, x = some z → Relies { σ with stored, released := released ++ σ.released, holder := x } z) :
    Accounted { σ with stored, released := released ++ σ.released, holder := x } := by
  have before {other : String} {hash : ℕ} (hstored : stored.get other = some hash) :
      other ≠ userID ∧ σ.stored.get other = some hash := by
    rw [hforgot] at hstored
    split at hstored
    · cases hstored
    · next hne => exact ⟨hne, hstored⟩
  constructor
  · exact h.access
  · exact h.owners
  · exact h.made
  · intro c hc
    rcases List.mem_append.mp hc with hnew | hold
    · obtain ⟨d, hd, hanswers⟩ := hreleased c hnew
      exact (h.answers d (Or.inr (by rw [hy]; exact hd)) c hanswers).1
    · exact h.released hold
  · exact fun other hash hstored => h.keyed other hash (before hstored).2
  · intro hash k hk hlive
    rcases h.live hash k hk hlive with hstored | ⟨c, hholder⟩
    · refine Or.inl ?_
      simp only
      rw [hforgot]
      split
      · next heq => exact absurd (heq ▸ hstored) (hgone hash k hk hlive heq)
      · exact hstored
    · exact absurd (Option.some.inj (hy.symm.trans hholder)) (hstore c k.userID hash)
  · intro other hash hstored
    obtain ⟨hne, hstored⟩ := before hstored
    rcases h.standing other hash hstored with hstands | hpending | ⟨d, hd, huser⟩
    · exact Or.inl hstands
    · exact Or.inr (Or.inl hpending)
    · rw [hy, Option.bind_some] at hd
      exact absurd (huser.symm.trans (hdrop d hd)) hne
  · intro other hash hstored c hphone hc
    obtain ⟨hne, hstored⟩ := before hstored
    rcases List.mem_append.mp hc with hnew | hold
    · -- The credential just answered is of a phone of the user whose key is gone.
      obtain ⟨d, hd, hanswers⟩ := hreleased c hnew
      have howner := (h.answers d (Or.inr (by rw [hy]; exact hd)) c hanswers).2 other hphone
      exact absurd (howner.trans (hdrop d hd)) hne
    · exact h.mine other hash hstored c hphone hold
  · intro d hd
    rcases hd with hmem | hholder
    · exact h.answers d (Or.inl hmem)
    · rw [hxdrop] at hholder
      cases hholder
  · exact hx
  · exact h.handed

/-- A key is minted before it is stored, and only its grant knows of it. -/
theorem Accounted.mint {σ : PhoneKeys} (h : σ.Accounted) {c userID : String}
    (hholder : σ.holder = some (.grantMint c userID)) :
    Accounted { σ with
      keys := σ.keys ++ [{ userID, phone := c }]
      holder := some (.grantStore c userID σ.keys.length) } := by
  obtain ⟨halone, hentitled⟩ := h.relies _ hholder
  have kept {i : ℕ} {k : PhoneKey} (hk : σ.keys[i]? = some k) : (σ.keys ++ [{ userID, phone := c }])[i]? = some k := by
    rw [List.getElem?_append_left (List.getElem?_eq_some_iff.mp hk).1]
    exact hk
  have minted {i : ℕ} {other : String} (hm : σ.MintedFor i other) : MintedFor { σ with
      keys := σ.keys ++ [{ userID, phone := c }]
      holder := some (.grantStore c userID σ.keys.length) } i other := by
    obtain ⟨k, hk, hphone⟩ := hm
    exact ⟨k, kept hk, hphone⟩
  constructor
  · exact h.access
  · exact h.owners
  · exact h.made
  · exact h.released
  · intro user i hstored
    obtain ⟨k, hk, huser⟩ := h.keyed user i hstored
    exact ⟨k, kept hk, huser⟩
  · intro i k hk hlive
    simp only at hk
    by_cases hi : i < σ.keys.length
    · rw [List.getElem?_append_left hi] at hk
      rcases h.live i k hk hlive with hstored | ⟨c', hother⟩
      · exact Or.inl hstored
      · cases hholder.symm.trans hother
    · have hlt := (List.getElem?_eq_some_iff.mp hk).1
      rw [List.length_append, List.length_singleton] at hlt
      obtain rfl : i = σ.keys.length := by omega
      rw [List.getElem?_append_right le_rfl, Nat.sub_self] at hk
      obtain rfl := Option.some.inj hk
      exact Or.inr ⟨c, rfl⟩
  · intro user i hstored
    rcases h.standing user i hstored with hstands | hdropping
    · exact Or.inl hstands
    · exact Or.inr (Or.inl (dropping_of_holder hholder rfl hdropping))
  · exact fun user i hstored other hphone hreleased => minted (h.mine user i hstored other hphone hreleased)
  · intro d hd
    rcases hd with hmem | hd
    · exact h.answers d (Or.inl hmem)
    · cases hd
  · intro z hz
    obtain rfl := Option.some.inj hz
    refine ⟨⟨halone.released, halone.only, fun i hstored => minted (halone.own i hstored)⟩, hentitled, ?_⟩
    exact ⟨{ userID, phone := c }, by simp, rfl, rfl⟩
  · exact fun e he => minted (h.handed e he)

/-- A key that lost to one stored before it is revoked, and the stored one is handed out. -/
theorem Accounted.lost {σ : PhoneKeys} (h : σ.Accounted) {c userID : String} {hash other : ℕ}
    (hholder : σ.holder = some (.grantStore c userID hash)) (hstored : σ.stored.get userID = some other) :
    Accounted { σ with keys := σ.revokeKey hash, holder := some (.grantAnswer c userID other) } := by
  obtain ⟨halone, -, -⟩ := h.relies _ hholder
  have minted {i : ℕ} {x : String} (hm : σ.MintedFor i x) :
      MintedFor { σ with keys := σ.revokeKey hash, holder := some (.grantAnswer c userID other) } i x := by
    obtain ⟨k, hk, hphone⟩ := hm
    obtain ⟨k', hk', -, hsame⟩ := mintedFor_revokeKey hash hk
    exact ⟨k', hk', hsame.trans hphone⟩
  constructor
  · exact h.access
  · exact h.owners
  · exact h.made
  · exact h.released
  · intro user i hs
    obtain ⟨k, hk, huser⟩ := h.keyed user i hs
    obtain ⟨k', hk', hsame, -⟩ := mintedFor_revokeKey hash hk
    exact ⟨k', hk', hsame.trans huser⟩
  · intro i k hk hlive
    obtain ⟨hne, hk'⟩ := live_of_revokeKey hk hlive
    rcases h.live i k hk' hlive with hs | ⟨c', hother⟩
    · exact Or.inl hs
    · have hsame := Option.some.inj (hholder.symm.trans hother)
      injection hsame with _ _ hi
      exact absurd hi.symm hne
  · intro user i hs
    rcases h.standing user i hs with hstands | hdropping
    · exact Or.inl hstands
    · exact Or.inr (Or.inl (dropping_of_holder hholder rfl hdropping))
  · exact fun user i hs x hphone hreleased => minted (h.mine user i hs x hphone hreleased)
  · intro d hd
    rcases hd with hmem | hd
    · exact h.answers d (Or.inl hmem)
    · cases hd
  · intro z hz
    obtain rfl := Option.some.inj hz
    exact ⟨hstored, minted (halone.own other hstored)⟩
  · exact fun e he => minted (h.handed e he)

/-- A minted key goes into the row of a user who stands, for the phone that may call. -/
theorem Accounted.store {σ : PhoneKeys} (h : σ.Accounted) {c userID : String} {hash : ℕ}
    (hholder : σ.holder = some (.grantStore c userID hash)) (hnone : σ.stored.get userID = none) :
    Accounted { σ with stored := σ.stored.put userID hash, holder := some (.grantAnswer c userID hash) } := by
  obtain ⟨halone, hentitled, k, hk, huser, hphone⟩ := h.relies _ hholder
  have before {other : String} {i : ℕ} (hs : (σ.stored.put userID hash).get other = some i) :
      other = userID ∧ i = hash ∨ other ≠ userID ∧ σ.stored.get other = some i := by
    rw [Table.get_put] at hs
    split at hs
    · next heq => exact Or.inl ⟨heq, (Option.some.inj hs).symm⟩
    · next hne => exact Or.inr ⟨hne, hs⟩
  constructor
  · exact h.access
  · exact h.owners
  · exact h.made
  · exact h.released
  · intro other i hs
    rcases before hs with ⟨rfl, rfl⟩ | ⟨-, hs⟩
    · exact ⟨k, hk, huser⟩
    · exact h.keyed other i hs
  · intro i k' hk' hlive
    refine Or.inl ?_
    simp only
    rw [Table.get_put]
    rcases h.live i k' hk' hlive with hs | ⟨c', hother⟩
    · rw [if_neg fun heq => by rw [heq, hnone] at hs; cases hs]
      exact hs
    · have hsame := Option.some.inj (hholder.symm.trans hother)
      injection hsame with _ huser' hi
      rw [if_pos huser'.symm, hi]
  · intro other i hs
    rcases before hs with ⟨rfl, rfl⟩ | ⟨-, hs⟩
    · exact hentitled.imp_right Or.inl
    · rcases h.standing other i hs with hstands | hdropping
      · exact Or.inl hstands
      · exact Or.inr (Or.inl (dropping_of_holder hholder rfl hdropping))
  · intro other i hs x hphone' hreleased
    rcases before hs with ⟨rfl, rfl⟩ | ⟨-, hs⟩
    · rw [halone.only x hphone' hreleased]
      exact ⟨k, hk, hphone⟩
    · exact h.mine other i hs x hphone' hreleased
  · intro d hd
    rcases hd with hmem | hd
    · exact h.answers d (Or.inl hmem)
    · cases hd
  · intro z hz
    obtain rfl := Option.some.inj hz
    exact ⟨Table.get_put_self .., k, hk, hphone⟩
  · exact h.handed

/-- Writing the row back as it was read changes no key; a grant answers with the key it read or stored. -/
theorem Accounted.save {σ : PhoneKeys} (h : σ.Accounted) {y : Holder} (hy : σ.holder = some y) (hdrop : y.drop? = none)
    (hstore : ∀ c userID hash, y ≠ .grantStore c userID hash) {stored : Table String ℕ}
    (hsame : ∀ userID, stored.get userID = σ.stored.get userID) (handed : List (String × ℕ))
    (hhanded : ∀ e ∈ handed, σ.MintedFor e.2 e.1) :
    Accounted { σ with stored, handed := handed ++ σ.handed, holder := none } := by
  constructor
  · exact h.access
  · exact h.owners
  · exact h.made
  · exact h.released
  · exact fun userID hash hs => h.keyed userID hash (hsame userID ▸ hs)
  · intro hash k hk hlive
    rcases h.live hash k hk hlive with hs | ⟨c, hholder⟩
    · exact Or.inl ((hsame k.userID).trans hs)
    · exact absurd (Option.some.inj (hy.symm.trans hholder)) (hstore c k.userID hash)
  · intro userID hash hs
    rcases h.standing userID hash (hsame userID ▸ hs) with hstands | hdropping
    · exact Or.inl hstands
    · exact Or.inr (Or.inl (dropping_of_holder hy hdrop hdropping))
  · exact fun userID hash hs c hphone hreleased => h.mine userID hash (hsame userID ▸ hs) c hphone hreleased
  · intro d hd
    rcases hd with hmem | hd
    · exact h.answers d (Or.inl hmem)
    · cases hd
  · nofun
  · intro e he
    rcases List.mem_append.mp he with hnew | hold
    · exact hhanded e hnew
    · exact h.handed e hold

theorem mem_lapseUser {s : Store} {userID : String} {at_ : Time} {w : Vault} (hw : w ∈ (s.lapseUser userID at_).vaults) :
    ∃ v ∈ s.vaults, w.id = v.id ∧ w.userID = v.userID ∧ w.devices = v.devices := by
  obtain ⟨v, hv, rfl⟩ := List.mem_map.mp hw
  refine ⟨v, hv, ?_⟩
  split <;> exact ⟨rfl, rfl, rfl⟩

/-- Another user's row stands when one is revoked. -/
theorem userByID_revoked {σ : PhoneKeys} {userID other : String} (hne : other ≠ userID) {u : User}
    (hu : σ.userByID other = some u) :
    (σ.users.map fun u => if u.id = userID then { u with revoked := true } else u).find? (fun u => u.id = other) = some u := by
  rw [List.find?_map]
  have hsame : ((fun u : User => decide (u.id = other)) ∘
      fun u => if u.id = userID then { u with revoked := true } else u) = fun u => decide (u.id = other) := by
    funext v
    simp only [Function.comp_apply]
    split <;> rfl
  have hid : u.id = other := by simpa using List.find?_some hu
  unfold userByID at hu
  rw [hsame, hu, Option.map_some, if_neg (hid ▸ hne)]

/-- A user is revoked once no key of the user's is stored. -/
theorem Accounted.revokeUser {σ : PhoneKeys} (h : σ.Accounted) {userID : String} (now : Time)
    (hholder : σ.holder = some (.revokeSave userID)) : Accounted { σ with
      users := σ.users.map fun u => if u.id = userID then { u with revoked := true } else u
      access := { σ.access with store := σ.access.store.lapseUser userID now }
      holder := none } := by
  have hgone : σ.stored.get userID = none := h.relies _ hholder
  have phones {w v : Vault} (hdevices : w.devices = v.devices) : w.phones = v.phones := by
    unfold Vault.phones
    rw [hdevices]
  have hasPhone {other c : String} (hphone : HasPhone { σ with
      users := σ.users.map fun u => if u.id = userID then { u with revoked := true } else u
      access := { σ.access with store := σ.access.store.lapseUser userID now }
      holder := none } other c) : σ.HasPhone other c := by
    obtain ⟨w, hw, huser, p, hp, hc⟩ := hphone
    obtain ⟨v, hv, -, hsame, hdevices⟩ := mem_lapseUser hw
    exact ⟨v, hv, hsame.symm.trans huser, p, phones hdevices ▸ hp, hc⟩
  have hids : (σ.access.store.lapseUser userID now).vaults.map Vault.id = σ.access.store.vaults.map Vault.id := by
    rw [Store.lapseUser, List.map_map]
    refine List.map_congr_left fun v _ => ?_
    simp only [Function.comp_apply]
    split <;> rfl
  constructor
  · refine h.access.inherit ?_ (by rw [hids]; exact h.access.ids) (List.Subset.refl _) ?_
    · intro w hw d hd
      obtain ⟨v, hv, -, -, hdevices⟩ := mem_lapseUser hw
      exact h.access.bare v hv d (hdevices ▸ hd)
    · intro w hw
      obtain ⟨v, hv, hid, -, hdevices⟩ := mem_lapseUser hw
      exact Or.inr ⟨v, hv, hid.symm, by rw [phones hdevices]⟩
  · intro v hv w hw heq
    obtain ⟨v', hv', hvid, hvuser, -⟩ := mem_lapseUser hv
    obtain ⟨w', hw', hwid, hwuser, -⟩ := mem_lapseUser hw
    rw [hvid, hwid]
    exact h.owners v' hv' w' hw' (hvuser.symm.trans (heq.trans hwuser))
  · intro v hv
    obtain ⟨v', hv', hid, -⟩ := mem_lapseUser hv
    exact hid ▸ h.made v' hv'
  · exact h.released
  · exact h.keyed
  · intro hash k hk hlive
    rcases h.live hash k hk hlive with hs | ⟨c, hother⟩
    · exact Or.inl hs
    · cases hholder.symm.trans hother
  · intro other hash hs
    have hne : other ≠ userID := by
      rintro rfl
      rw [hgone] at hs
      cases hs
    rcases h.standing other hash hs with ⟨⟨v, hv, hvuser, hplan, hphones⟩, u, hu, hactive⟩ | hdropping
    · refine Or.inl ⟨⟨v, List.mem_map.mpr ⟨v, hv, if_neg fun hboth => ?_⟩, hvuser, hplan, hphones⟩, u, ?_, hactive⟩
      · exact hne (hvuser.symm.trans hboth.1)
      · exact userByID_revoked hne hu
    · exact Or.inr (Or.inl (dropping_of_holder hholder rfl hdropping))
  · exact fun other hash hs c hphone hreleased => h.mine other hash hs c (hasPhone hphone) hreleased
  · intro d hd c hc
    rcases hd with hmem | hd
    · obtain ⟨hminted, honly⟩ := h.answers d (Or.inl hmem) c hc
      exact ⟨hminted, fun other hphone => honly other (hasPhone hphone)⟩
    · cases hd
  · nofun
  · exact h.handed

/-! ## Every step -/

/-- The device read under the mutex is the user's only phone that can call. -/
theorem Accounted.found {σ : PhoneKeys} (h : σ.Accounted) {c : String} (hc : c ∈ σ.released) {v : Vault} {d : Device}
    (hfound : σ.access.store.deviceByCredential c = some (v, d)) : σ.Found c v.id v.userID := by
  have hmem := List.mem_of_find?_eq_some hfound
  have hcred := List.find?_some hfound
  simp only [decide_eq_true_eq] at hcred
  obtain ⟨v', hv, hrow⟩ := List.mem_flatMap.mp hmem
  obtain ⟨d', hd, heq⟩ := List.mem_map.mp hrow
  obtain ⟨rfl, rfl⟩ := Prod.mk.inj heq
  have hphone : d' ∈ v'.phones := by
    refine List.mem_filter.mpr ⟨hd, decide_eq_true (h.access.bare v' hv d' hd ?_)⟩
    rw [hcred]
    simp
  have hhas : σ.HasPhone v'.userID c := ⟨v', hv, rfl, d', hphone, hcred⟩
  refine ⟨⟨hc, ?_, fun hash hs => h.mine _ hash hs c hhas hc⟩, h.made v' hv, fun w hw hid => ?_⟩
  · rintro other ⟨w, hw, huser, p, hp, hother⟩ -
    obtain rfl := List.inj_on_of_nodup_map h.access.ids hw hv (h.owners w hw v' hv huser)
    rw [h.access.phone_eq hv hp hphone] at hother
    exact Option.some.inj (hother.symm.trans hcred)
  · obtain rfl := List.inj_on_of_nodup_map h.access.ids hw hv hid
    exact ⟨rfl, Or.inr ⟨d', hphone, hcred⟩⟩

theorem Accounted.proceed {σ : PhoneKeys} (h : σ.Accounted) (now : Time) {x : Holder} (hx : σ.holder = some x) :
    (σ.proceed now x).Accounted := by
  have hrelies := h.relies x hx
  have letGo (hdrop : x.drop? = none) (hstore : ∀ c userID hash, x ≠ .grantStore c userID hash) :
      Accounted { σ with holder := none } := h.read hx hdrop hstore rfl fun z hz => by cases hz
  have goOn (hdrop : x.drop? = none) (hstore : ∀ c userID hash, x ≠ .grantStore c userID hash) {y : Holder}
      (hy : y.drop? = none) (hrelies : σ.Relies y) : Accounted { σ with holder := some y } :=
    h.read hx hdrop hstore hy fun z hz => Option.some.inj hz ▸ hrelies
  cases x with
  | grantDevice c =>
    simp only [PhoneKeys.proceed]
    split
    · exact letGo rfl (Holder.ne_grantStore rfl)
    · next v d hfound => exact goOn rfl (Holder.ne_grantStore rfl) rfl ⟨v.userID, h.found hrelies hfound⟩
  | grantVault c vaultID =>
    simp only [PhoneKeys.proceed]
    split
    · exact letGo rfl (Holder.ne_grantStore rfl)
    · next v hfind =>
      obtain ⟨hv, rfl⟩ := Store.vaultByID_some hfind
      obtain ⟨userID, hfound⟩ := hrelies
      obtain rfl := (hfound.there v hv rfl).1
      exact goOn rfl (Holder.ne_grantStore rfl) rfl ⟨hfound, fun hplan => Or.inr ⟨v, hv, rfl, hplan⟩⟩
  | grantUser c v =>
    simp only [PhoneKeys.proceed]
    split
    · exact letGo rfl (Holder.ne_grantStore rfl)
    · next u hu =>
      split
      · exact letGo rfl (Holder.ne_grantStore rfl)
      · next hentitled =>
        simp only [Bool.not_eq_true, not_or, Option.isSome_eq_false_iff, Option.isNone_iff_eq_none] at hentitled
        obtain ⟨hplan, hactive⟩ := hentitled
        obtain ⟨hfound, hrunning⟩ := hrelies
        have hid : u.id = v.userID := by simpa using List.find?_some hu
        -- The phone was found and the plan ran when they were read, and what ended either since waits to drop.
        have hstanding : σ.Standing v.userID ∨ σ.Pending v.userID := by
          rcases hrunning hplan with hpending | ⟨w, hw, hwid, hwplan⟩
          · exact Or.inr hpending
          · obtain ⟨howner, hpending | ⟨p, hp, -⟩⟩ := hfound.there w hw hwid
            · exact Or.inr hpending
            · exact Or.inl ⟨⟨w, hw, howner, hwplan, List.ne_nil_of_mem hp⟩, u, hu, hactive⟩
        rw [hid]
        split
        · exact goOn rfl (Holder.ne_grantStore rfl) rfl ⟨hfound.alone, hstanding⟩
        · next hash hs => exact goOn rfl (Holder.ne_grantStore rfl) rfl ⟨hs, hfound.alone.own hash hs⟩
  | grantMint c userID => exact h.mint hx
  | grantStore c userID hash =>
    simp only [PhoneKeys.proceed]
    split
    · next hnone => exact h.store hx hnone
    · next other hs => exact h.lost hx hs
  | grantAnswer c userID hash =>
    obtain ⟨hs, hminted⟩ := hrelies
    refine h.save hx rfl (Holder.ne_grantStore rfl) (fun other => ?_) [(c, hash)] ?_
    · rw [Table.get_put]
      split
      · next heq => rw [heq, hs]
      · rfl
    · intro e he
      rw [List.mem_singleton.mp he]
      exact hminted
  | dropRead d =>
    simp only [PhoneKeys.proceed]
    split
    · next hnone =>
      refine h.forgotten hx (Holder.ne_grantStore rfl) d.userID (fun other => ?_) (fun hash k hk hlive huser => ?_) ?_
        d.answers.toList ?_ rfl fun z hz => by cases hz
      · split
        · next heq => rw [heq, hnone]
        · rfl
      · rw [hnone]
        exact (Option.some_ne_none hash).symm
      · rintro e he
        rw [Option.some.inj he]
      · exact fun c hc => ⟨d, rfl, Option.mem_toList.mp hc⟩
    · next hash hs =>
      refine h.rehold σ.dropping (fun c userID hash hholder => ?_) (fun userID hash _ hdropping => Or.inr ?_)
        (fun e he => Or.inl ?_) (fun z hz => ?_)
      · cases hx.symm.trans hholder
      · rcases hdropping with hpending | ⟨e, he, huser⟩
        · exact Or.inl hpending
        · rw [hx] at he
          exact Or.inr ⟨e, he, huser⟩
      · rw [hx]
        exact he
      · obtain rfl := Option.some.inj hz
        exact hs
  | dropRevoke d hash =>
    obtain ⟨k, hk, -⟩ := h.keyed _ _ hrelies
    exact h.revoke (x := .dropClear d hash) hx (Holder.ne_grantStore rfl) rfl ⟨hrelies, revoked_of_revokeKey hk⟩
  | dropClear d hash =>
    obtain ⟨hs, k, hk, hrevoked⟩ := hrelies
    refine h.forgotten hx (Holder.ne_grantStore rfl) d.userID (getElem_clearPhoneKey hs)
      (fun i k' hk' hlive huser hstored => ?_) ?_ d.answers.toList ?_ rfl fun z hz => by cases hz
    · obtain rfl := Option.some.inj (hs.symm.trans hstored)
      rw [Option.some.inj (hk.symm.trans hk')] at hrevoked
      rw [hlive] at hrevoked
      cases hrevoked
    · rintro e he
      rw [Option.some.inj he]
    · exact fun c hc => ⟨d, rfl, Option.mem_toList.mp hc⟩
  | revokeRead userID =>
    simp only [PhoneKeys.proceed]
    split
    · exact letGo rfl (Holder.ne_grantStore rfl)
    · split
      · exact letGo rfl (Holder.ne_grantStore rfl)
      · split
        · next hnone => exact goOn rfl (Holder.ne_grantStore rfl) rfl hnone
        · next hash hs => exact goOn rfl (Holder.ne_grantStore rfl) rfl hs
  | revokePhone userID hash =>
    obtain ⟨k, hk, -⟩ := h.keyed _ _ hrelies
    exact h.revoke (x := .revokeClear userID hash) hx (Holder.ne_grantStore rfl) rfl ⟨hrelies, revoked_of_revokeKey hk⟩
  | revokeClear userID hash =>
    obtain ⟨hs, k, hk, hrevoked⟩ := hrelies
    refine h.forgotten hx (Holder.ne_grantStore rfl) userID (getElem_clearPhoneKey hs)
      (fun i k' hk' hlive huser hstored => ?_) (fun d hd => by cases hd) [] (fun c hc => absurd hc List.not_mem_nil) rfl
      (fun z hz => ?_)
    · obtain rfl := Option.some.inj (hs.symm.trans hstored)
      rw [Option.some.inj (hk.symm.trans hk')] at hrevoked
      rw [hlive] at hrevoked
      cases hrevoked
    · obtain rfl := Option.some.inj hz
      exact (getElem_clearPhoneKey hs userID).trans (if_pos rfl)
  | revokeSave userID => exact h.revokeUser now hx
  | passRead userID => exact goOn rfl (Holder.ne_grantStore rfl) rfl rfl
  | passSave userID hash =>
    refine h.save hx rfl (Holder.ne_grantStore rfl) (fun other => ?_) [] fun e he => absurd he List.not_mem_nil
    have hs : σ.stored.get userID = hash := hrelies
    cases hash with
    | none =>
      rw [Table.get_erase]
      split
      · next heq => rw [heq, hs]
      · rfl
    | some hash =>
      rw [Table.get_put]
      split
      · next heq => rw [heq, hs]
      · rfl

theorem accounted_step {σ τ : PhoneKeys} {a : Action} (h : σ.Accounted) (hnext : σ.Next a τ) : τ.Accounted := by
  obtain ⟨hdraws, hstep⟩ := hnext
  have lock {x : Holder} (hfree : σ.holder = none) (hdrop : x.drop? = none) (hx : σ.Relies x) :
      Accounted { σ with holder := some x } := by
    refine h.rehold σ.dropping (fun c userID hash hholder => ?_) (fun userID hash _ hdropping => Or.inr ?_)
      (fun d hd => Or.inl ?_) (fun z hz => ?_)
    · cases hfree.symm.trans hholder
    · rcases hdropping with hpending | ⟨d, hd, -⟩
      · exact Or.inl hpending
      · rw [hfree] at hd
        cases hd
    · rcases hd with hmem | hd
      · exact Or.inl hmem
      · rw [Option.bind_some, hdrop] at hd
        cases hd
    · obtain rfl := Option.some.inj hz
      exact relies_rehold hx _ (List.Subset.refl _)
  cases a with
  | access a =>
    obtain ⟨access, haccess, rfl⟩ := Option.map_eq_some_iff.mp hstep
    refine h.changed (a := a) ⟨⟨hdraws.1, haccess⟩, ?_, rfl, rfl, rfl, rfl, rfl, rfl, rfl, rfl⟩
    rintro op rfl id hid
    exact hdraws.2 id hid
  | alsoDrops userID =>
    obtain rfl := Option.some.inj hstep
    refine h.rehold ({ userID } :: σ.dropping) (fun _ _ _ hholder => hholder) (fun user hash _ hdropping => Or.inr ?_)
      (fun d hd => ?_) (fun z hz => relies_rehold (h.relies z hz) _ (List.subset_cons_self ..))
    · rcases hdropping with ⟨d, hd, huser⟩ | hholder
      · exact Or.inl ⟨d, List.mem_cons_of_mem _ hd, huser⟩
      · exact Or.inr hholder
    · rcases hd with hmem | hholder
      · rcases List.mem_cons.mp hmem with rfl | hold
        · exact Or.inr rfl
        · exact Or.inl (Or.inl hold)
      · exact Or.inl (Or.inr hholder)
  | lockGrant c =>
    simp only [step] at hstep
    split at hstep
    case isFalse => cases hstep
    case isTrue hlock =>
      obtain rfl := Option.some.inj hstep
      exact lock hlock.1 rfl hlock.2
  | lockDrop d =>
    simp only [step] at hstep
    split at hstep
    case isFalse => cases hstep
    case isTrue hlock =>
      obtain ⟨hfree, hd⟩ := hlock
      obtain rfl := Option.some.inj hstep
      refine h.rehold (σ.dropping.erase d) (fun c userID hash hholder => ?_)
        (fun userID hash _ hdropping => Or.inr ?_) (fun e he => Or.inl (Or.inl ?_)) (fun z hz => ?_)
      · cases hfree.symm.trans hholder
      · rcases hdropping with ⟨e, he, huser⟩ | ⟨e, he, -⟩
        · by_cases heq : e = d
          · exact Or.inr ⟨d, rfl, heq ▸ huser⟩
          · exact Or.inl ⟨e, (List.mem_erase_of_ne heq).mpr he, huser⟩
        · rw [hfree] at he
          cases he
      · rcases he with hmem | hholder
        · exact List.mem_of_mem_erase hmem
        · rw [← Option.some.inj hholder]
          exact hd
      · obtain rfl := Option.some.inj hz
        trivial
  | lockRevoke userID =>
    simp only [step] at hstep
    split at hstep
    case isFalse => cases hstep
    case isTrue hfree =>
      obtain rfl := Option.some.inj hstep
      exact lock hfree rfl trivial
  | lockPass userID =>
    simp only [step] at hstep
    split at hstep
    case isFalse => cases hstep
    case isTrue hfree =>
      obtain rfl := Option.some.inj hstep
      exact lock hfree rfl trivial
  | proceed now =>
    obtain ⟨x, hx, rfl⟩ := Option.map_eq_some_iff.mp hstep
    exact h.proceed now hx

/-- The keys are accounted for in every state reached, at every moment of every request. -/
theorem accounted {σ : PhoneKeys} (hσ : Reachable Next Initial σ) : σ.Accounted := by
  refine hσ.invariant Accounted ?_ fun σ a τ h hnext => accounted_step h hnext
  rintro σ ⟨users, rfl⟩
  constructor
  · exact ⟨by simp, by simp, by simp, by simp, by simp⟩
  all_goals simp [Table.get]

end PhoneKeys

open PhoneKeys

/-- Once the requests under way are finished, every live phone key at the gateway is the one stored for its user, and
one is stored only for a user whose vault has a phone and whose plan runs; and at every moment, a phone has only been
handed keys that were minted for it. -/
theorem phone_keys_accounted {σ : PhoneKeys} (hσ : Reachable PhoneKeys.Next PhoneKeys.Initial σ) :
    (σ.Finished →
      (∀ hash k, σ.keys[hash]? = some k → k.revoked = false → σ.stored.get k.userID = some hash) ∧
        ∀ userID hash, σ.stored.get userID = some hash → σ.Standing userID) ∧
    ∀ c hash, (c, hash) ∈ σ.handed → σ.MintedFor hash c := by
  have h := accounted hσ
  refine ⟨?_, fun c hash hmem => h.handed (c, hash) hmem⟩
  rintro ⟨hidle, hfree⟩
  constructor
  · intro hash k hk hlive
    rcases h.live hash k hk hlive with hstored | ⟨c, hholder⟩
    · exact hstored
    · cases hfree.symm.trans hholder
  · intro userID hash hstored
    rcases h.standing userID hash hstored with hstands | ⟨d, hd, -⟩ | ⟨d, hd, -⟩
    · exact hstands
    · rw [hidle] at hd
      cases hd
    · rw [hfree] at hd
      cases hd

/-! ## A phone paired in place of another -/

instance (σ : PhoneKeys) (a : PhoneKeys.Action) : Decidable (σ.Draws a) :=
  match a with
  | .access a => inferInstanceAs (Decidable (σ.access.Draws a ∧ ∀ id ∈ a.creates, id ∉ σ.made))
  | .alsoDrops _ | .lockGrant _ | .lockDrop _ | .lockRevoke _ | .lockPass _ | .proceed _ => isTrue trivial

/-- Pairing, up to the answer with the credential: a code, its redeem and the drop of the key there was. -/
def pairing (r : PairingRequest) (d : Device) (steps : ℕ) : List PhoneKeys.Action :=
  [.access (.dropCodes r), .access (.insertCode r), .access (.redeem r.codeHash d),
    .lockDrop { userID := "user", answers := d.credentialHash }] ++ List.replicate steps (.proceed d.pairedAt)

def otherPhone : Device :=
  { id := "other", role := .phone, name := "other", credentialHash := some "other-hash", pairedAt := 3, lastSeenAt := 3 }

/-- A phone is paired and granted a key, then another is paired in its place and granted one. -/
def pairedTwice : List PhoneKeys.Action :=
  .access Access.madeVault :: pairing Access.firstAsk Access.pairedPhone 1 ++
    (.lockGrant "hash" :: List.replicate 6 (.proceed 2)) ++
    pairing Access.secondAsk otherPhone 3 ++ (.lockGrant "other-hash" :: List.replicate 6 (.proceed 3))

def keysAfter (actions : List PhoneKeys.Action) : PhoneKeys :=
  (follow (allow Draws PhoneKeys.step) { users := [{ id := "user", credentialHash := "desk" }] } actions).getD
    { users := [] }

/-- The second phone's key is stored and live, the first phone's is neither, and each was handed its own. -/
theorem second_phone_has_own_key : (keysAfter pairedTwice).stored.get "user" = some 1 ∧
    (keysAfter pairedTwice).Standing "user" ∧ (keysAfter pairedTwice).MintedFor 1 "other-hash" ∧
    (keysAfter pairedTwice).MintedFor 0 "hash" := by
  have hreach : Reachable PhoneKeys.Next PhoneKeys.Initial (keysAfter pairedTwice) :=
    ⟨{ users := [{ id := "user", credentialHash := "desk" }] }, pairedTwice, ⟨_, rfl⟩,
      Run.of_follow_allow (fun _ _ _ h => h) (by decide +kernel)⟩
  have hstored : (keysAfter pairedTwice).stored.get "user" = some 1 := by decide +kernel
  obtain ⟨hfinished, hhanded⟩ := phone_keys_accounted hreach
  exact ⟨hstored, (hfinished ⟨by decide +kernel, by decide +kernel⟩).2 _ _ hstored,
    hhanded _ _ (by decide +kernel), hhanded _ _ (by decide +kernel)⟩

end Thock.Plus
