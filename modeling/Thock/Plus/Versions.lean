import Thock.Lib.Transition
import Thock.Plus.VaultStore

/-!
# What a step can do to a vault, and the version order it keeps

Every store transaction is read back once here: what it demands and which rows it leaves. A
server step then does one of six things to each vault it keeps, and the version invariant is
a short case analysis over them. Distinct, bounded row versions are what make one number a
pull cursor.
-/

namespace Thock.Plus

open CursorPaging Transition

/-! ## Rows and keys -/

@[simp] theorem mem_upsertFile {row f : FileRow} {files : List FileRow} :
    f ∈ upsertFile row files ↔ f = row ∨ f ∈ files ∧ f.path ≠ row.path := by
  simp [upsertFile]

@[simp] theorem mem_upsertPending {p q : PendingUpload} {pending : List PendingUpload} :
    q ∈ upsertPending p pending ↔ q = p ∨ q ∈ pending ∧ q.blobID ≠ p.blobID := by
  simp [upsertPending]

/-- A path's current row is one of the table's, or the blank row of a path never seen. -/
theorem Vault.currentVersion_cases (v : Vault) (path : String) :
    (v.currentVersion path ∈ v.files ∧ (v.currentVersion path).path = path) ∨
      (v.currentVersion path = { path := path } ∧ ∀ f ∈ v.files, f.path ≠ path) := by
  unfold Vault.currentVersion Vault.fileByPath
  cases h : v.files.find? (fun f => f.path = path) with
  | none =>
    refine Or.inr ⟨rfl, fun f hf => ?_⟩
    simpa using List.find?_eq_none.mp h f hf
  | some f =>
    exact Or.inl ⟨List.mem_of_find?_eq_some h, by simpa using List.find?_some h⟩

/-- Either way the current row is about the path asked for. -/
@[simp] theorem Vault.currentVersion_path (v : Vault) (path : String) :
    (v.currentVersion path).path = path := by
  rcases v.currentVersion_cases path with ⟨-, h⟩ | ⟨h, -⟩
  · exact h
  · rw [h]

/-! ## The transactions read back -/

/-- The row a commit writes. -/
def committedRow (v : Vault) (p : PendingUpload) (now : Time) : FileRow :=
  { path := p.path, version := v.latestVersion + 1, deleted := false, blobID := some p.blobID,
    sizeBytes := p.sizeBytes, contentHash := some p.contentHash, updatedBy := "desk", updatedAt := now }

/-- The row a deletion writes. -/
def tombstoneRow (v : Vault) (path : String) (now : Time) : FileRow :=
  { v.currentVersion path with
    version := v.latestVersion + 1, deleted := true, blobID := none, sizeBytes := 0,
    contentHash := none, updatedBy := "desk", updatedAt := now }

/-- The vault after an upload is begun. -/
def Vault.begun (v : Vault) (p : PendingUpload) : Vault :=
  { v with pendingUploads := upsertPending p v.pendingUploads }

/-- The vault after a commit that publishes `p`. -/
def Vault.published (v : Vault) (p : PendingUpload) (now : Time) : Vault :=
  { v with
    files := upsertFile (committedRow v p now) v.files
    pendingUploads := v.pendingUploads.filter fun q => q.blobID ≠ p.blobID
    latestVersion := v.latestVersion + 1
    bytesUsed := v.bytesUsed - (v.currentVersion p.path).live + p.sizeBytes }

/-- The vault after a deletion that leaves a tombstone. -/
def Vault.tombstoned (v : Vault) (path : String) (now : Time) : Vault :=
  { v with
    files := upsertFile (tombstoneRow v path now) v.files
    latestVersion := v.latestVersion + 1
    bytesUsed := v.bytesUsed - (v.currentVersion path).sizeBytes }

/-- An accepted begin records the upload and nothing else. -/
theorem Vault.beginUpload_ok {v w : Vault} {p : PendingUpload} {hardCap : ℤ}
    (h : v.beginUpload p hardCap = .ok w) :
    (v.currentVersion p.path).version = p.expectedVersion ∧
      v.bytesUsed - (v.currentVersion p.path).live + p.sizeBytes ≤ hardCap ∧
      w = v.begun p := by
  unfold Vault.beginUpload at h
  dsimp only at h
  split at h
  · cases h
  · rename_i hversion
    split at h
    · cases h
    · rename_i hquota
      exact ⟨not_ne_iff.mp hversion, not_lt.mp hquota, (Except.ok.inj h).symm⟩

/-- An accepted commit finds its blob already published, or publishes a pending upload of it. -/
theorem Vault.commitUpload_ok {v w : Vault} {path blobID : String} {expectedVersion : ℕ}
    {hardCap : ℤ} {now : Time} {r : CommitResult}
    (h : v.commitUpload path blobID expectedVersion hardCap now = .ok (w, r)) :
    (w = v ∧ r.alreadyCommitted = true ∧ (v.currentVersion path).deleted = false ∧
      (v.currentVersion path).blobID = some blobID) ∨
    (∃ p ∈ v.pendingUploads, p.blobID = blobID ∧ p.path = path ∧
      (v.currentVersion path).version = expectedVersion ∧
      v.bytesUsed - (v.currentVersion path).live + p.sizeBytes ≤ hardCap ∧
      w = v.published p now ∧ r.alreadyCommitted = false ∧ r.version = v.latestVersion + 1 ∧
      r.replacedBlob = if (v.currentVersion path).deleted then none else (v.currentVersion path).blobID) := by
  unfold Vault.commitUpload at h
  dsimp only at h
  split at h
  · rename_i hsame
    obtain ⟨rfl, rfl⟩ := Prod.mk.inj (Except.ok.inj h)
    exact Or.inl ⟨rfl, rfl, hsame.1, hsame.2.1⟩
  · split at h
    · cases h
    · rename_i p hp
      have hfound := List.find?_some hp
      simp only [decide_eq_true_eq] at hfound
      obtain ⟨hblob, hpath⟩ := hfound
      split at h
      · cases h
      · rename_i hversion
        split at h
        · cases h
        · rename_i hquota
          obtain ⟨rfl, rfl⟩ := Prod.mk.inj (Except.ok.inj h)
          refine Or.inr ⟨p, List.mem_of_find?_eq_some hp, hblob, hpath, not_ne_iff.mp hversion,
            not_lt.mp hquota, ?_, rfl, rfl, rfl⟩
          subst hblob hpath
          rfl

/-- An accepted deletion finds a tombstone, or leaves one in the place of a live row. -/
theorem Vault.tombstoneFile_ok {v w : Vault} {path : String} {expectedVersion : ℕ} {now : Time}
    {r : TombstoneResult} (h : v.tombstoneFile path expectedVersion now = .ok (w, r)) :
    (w = v ∧ r.alreadyDeleted = true ∧ (v.currentVersion path).deleted = true) ∨
    ((v.currentVersion path).deleted = false ∧ 0 < (v.currentVersion path).version ∧
      (v.currentVersion path).version = expectedVersion ∧ w = v.tombstoned path now ∧
      r.alreadyDeleted = false ∧ r.version = v.latestVersion + 1 ∧
      r.freedBlob = (v.currentVersion path).blobID) := by
  unfold Vault.tombstoneFile at h
  dsimp only at h
  split at h
  · rename_i hdeleted
    obtain ⟨rfl, rfl⟩ := Prod.mk.inj (Except.ok.inj h)
    exact Or.inl ⟨rfl, rfl, hdeleted⟩
  · rename_i hlive
    split at h
    · cases h
    · rename_i hzero
      split at h
      · cases h
      · rename_i hversion
        obtain ⟨rfl, rfl⟩ := Prod.mk.inj (Except.ok.inj h)
        exact Or.inr ⟨by simpa using hlive, Nat.pos_of_ne_zero hzero, not_ne_iff.mp hversion,
          rfl, rfl, rfl, rfl⟩

/-- A transaction under the lock starts from the vault's row and writes its result back. -/
theorem Store.withVaultLock_ok {R : Type} {s t : Store} {vaultID : String}
    {fn : Vault → Except StoreError (Vault × R)} {r : R}
    (h : s.withVaultLock vaultID fn = .ok (t, r)) :
    ∃ v w, s.vaultByID vaultID = some v ∧ fn v = .ok (w, r) ∧ t = s.put w := by
  unfold Store.withVaultLock at h
  split at h
  · cases h
  · rename_i v hv
    split at h
    · cases h
    · rename_i w r' hfn
      obtain ⟨rfl, rfl⟩ := Prod.mk.inj (Except.ok.inj h)
      exact ⟨v, w, hv, hfn, rfl⟩

theorem Store.vaultByID_some {s : Store} {id : String} {v : Vault} (h : s.vaultByID id = some v) :
    v ∈ s.vaults ∧ v.id = id :=
  ⟨List.mem_of_find?_eq_some h, by simpa using List.find?_some h⟩

/-- Writing a vault back replaces the one of its id and keeps the others. -/
theorem Store.mem_put {s : Store} {v w : Vault} (h : w ∈ (s.put v).vaults) :
    w = v ∨ w ∈ s.vaults ∧ w.id ≠ v.id := by
  obtain ⟨u, hu, rfl⟩ := List.mem_map.mp h
  split
  · exact Or.inl rfl
  · exact Or.inr ⟨hu, ‹_›⟩

/-- What an answer is made from. -/
theorem Except.map_eq_ok {ε α β : Type} {f : α → β} {x : Except ε α} {b : β} (h : x.map f = .ok b) :
    ∃ a, x = .ok a ∧ f a = b := by
  cases x with
  | error e => cases h
  | ok a => exact ⟨a, rfl, Except.ok.inj h⟩

/-! ## What a step does to each vault -/

/-- The rows and counters that syncing files reads and writes are the same. -/
structure Vault.SameFiles (v w : Vault) : Prop where
  files : w.files = v.files
  pendingUploads : w.pendingUploads = v.pendingUploads
  latestVersion : w.latestVersion = v.latestVersion
  tombstoneHorizon : w.tombstoneHorizon = v.tombstoneHorizon
  bytesUsed : w.bytesUsed = v.bytesUsed

theorem Vault.SameFiles.refl (v : Vault) : v.SameFiles v := ⟨rfl, rfl, rfl, rfl, rfl⟩

/-- The six things a step can do to a vault it keeps. -/
inductive Vault.Change (v : Vault) : Op → Vault → Prop
  | kept {op : Op} {w : Vault} (same : v.SameFiles w) : v.Change op w
  | begun {p : PendingUpload} {hardCap : ℤ}
      (version : (v.currentVersion p.path).version = p.expectedVersion) :
      v.Change (.beginUpload v.id p hardCap) (v.begun p)
  | published {p : PendingUpload} {expectedVersion : ℕ} {hardCap : ℤ} {now : Time}
      (pending : p ∈ v.pendingUploads)
      (quota : v.bytesUsed - (v.currentVersion p.path).live + p.sizeBytes ≤ hardCap) :
      v.Change (.commitUpload v.id p.path p.blobID expectedVersion hardCap now) (v.published p now)
  | tombstoned {path : String} {expectedVersion : ℕ} {now : Time}
      (live : (v.currentVersion path).deleted = false) (known : 0 < (v.currentVersion path).version) :
      v.Change (.tombstoneFile v.id path expectedVersion now) (v.tombstoned path now)
  | wiped {keyCheck : String} : v.Change (.resetVault v.id keyCheck) (v.resetVault keyCheck).1
  | swept {now : Time} : v.Change (.sweep now) (v.sweep now)

/-- A vault as its creation leaves it. -/
structure Vault.Fresh (w : Vault) : Prop where
  files : w.files = []
  pendingUploads : w.pendingUploads = []
  latestVersion : w.latestVersion = 0
  tombstoneHorizon : w.tombstoneHorizon = 0
  bytesUsed : w.bytesUsed = 0

/-- A queued write leaves the file rows alone. -/
theorem Vault.enqueueWrite_sameFiles (v : Vault) (row : WriteRow) :
    v.SameFiles (v.enqueueWrite row).1 := by
  unfold Vault.enqueueWrite
  split <;> exact ⟨rfl, rfl, rfl, rfl, rfl⟩

/-- An ack leaves the file rows alone. -/
theorem Vault.ackWrites_sameFiles {v w : Vault} {through : ℕ} {now : Time} {r : AckResult}
    (h : v.ackWrites through now = .ok (w, r)) : v.SameFiles w := by
  unfold Vault.ackWrites at h
  split at h
  · cases h
  · split at h <;> (obtain ⟨rfl, rfl⟩ := Prod.mk.inj (Except.ok.inj h); exact ⟨rfl, rfl, rfl, rfl, rfl⟩)

/-- The vault a transaction runs on. -/
def Op.addresses : Op → Option String
  | .ensureVault .. => none
  | .beginUpload vaultID _ _ => some vaultID
  | .commitUpload vaultID _ _ _ _ _ => some vaultID
  | .tombstoneFile vaultID _ _ _ => some vaultID
  | .resetVault vaultID _ => some vaultID
  | .deleteVault vaultID => some vaultID
  | .setVaultLapsed vaultID _ => some vaultID
  | .enqueueWrite vaultID _ => some vaultID
  | .ackWrites vaultID _ _ => some vaultID
  | .sweep _ => none

/-- What an accepted step makes of a vault it keeps: the result of the transaction it runs on it. -/
inductive Vault.Applied (v : Vault) : Op → Vault → Prop
  | untouched {op : Op} (elsewhere : op.addresses ≠ some v.id) (unswept : ∀ now, op ≠ .sweep now) : v.Applied op v
  | ensured {userID keyCheck deviceName vaultID deviceID : String} {now : Time} :
      v.Applied (.ensureVault userID keyCheck deviceName vaultID deviceID now)
        { v with keyCheck, devices := upsertDesk v.devices deviceID deviceName now }
  | begun {p : PendingUpload} {hardCap : ℤ} {w : Vault} (ok : v.beginUpload p hardCap = .ok w) :
      v.Applied (.beginUpload v.id p hardCap) w
  | committed {path blobID : String} {expectedVersion : ℕ} {hardCap : ℤ} {now : Time} {w : Vault}
      {r : CommitResult} (ok : v.commitUpload path blobID expectedVersion hardCap now = .ok (w, r)) :
      v.Applied (.commitUpload v.id path blobID expectedVersion hardCap now) w
  | tombstoned {path : String} {expectedVersion : ℕ} {now : Time} {w : Vault} {r : TombstoneResult}
      (ok : v.tombstoneFile path expectedVersion now = .ok (w, r)) :
      v.Applied (.tombstoneFile v.id path expectedVersion now) w
  | wiped {keyCheck : String} : v.Applied (.resetVault v.id keyCheck) (v.resetVault keyCheck).1
  | lapsed {at_ : Option Time} : v.Applied (.setVaultLapsed v.id at_) { v with lapsedAt := at_ }
  | queued {row : WriteRow} : v.Applied (.enqueueWrite v.id row) (v.enqueueWrite row).1
  | acked {through : ℕ} {now : Time} {w : Vault} {r : AckResult} (ok : v.ackWrites through now = .ok (w, r)) :
      v.Applied (.ackWrites v.id through now) w
  | swept {now : Time} : v.Applied (.sweep now) (v.sweep now)

/-- A vault as its creation leaves it, with the desk's device row. -/
def newVault (vaultID userID keyCheck deviceName deviceID : String) (now : Time) : Vault :=
  { id := vaultID, userID, keyCheck, createdAt := now, devices := upsertDesk [] deviceID deviceName now }

/-- A vault a step has made. -/
def Op.Makes (op : Op) (w : Vault) : Prop :=
  ∃ userID keyCheck deviceName deviceID now,
    op = .ensureVault userID keyCheck deviceName w.id deviceID now ∧
      w = newVault w.id userID keyCheck deviceName deviceID now

/-- A transaction under the lock of one vault: the others stand. -/
theorem Store.locked_applied {s t : Store} {R : Type} {op : Op} {vaultID : String}
    {fn : Vault → Except StoreError (Vault × R)} {r : R} (h : s.withVaultLock vaultID fn = .ok (t, r))
    (hop : op.addresses = some vaultID) (happlied : ∀ v u, v.id = vaultID → fn v = .ok (u, r) → v.Applied op u)
    (hid : ∀ v u, fn v = .ok (u, r) → u.id = v.id) {w : Vault} (hw : w ∈ t.vaults) :
    ∃ v ∈ s.vaults, v.id = w.id ∧ v.Applied op w := by
  obtain ⟨v, u, hv, hfn, rfl⟩ := Store.withVaultLock_ok h
  obtain ⟨hmem, hvid⟩ := Store.vaultByID_some hv
  rcases Store.mem_put hw with rfl | ⟨hmem', hne⟩
  · exact ⟨v, hmem, (hid v w hfn).symm, happlied v w hvid hfn⟩
  · refine ⟨w, hmem', rfl, .untouched ?_ ?_⟩
    · rw [hop, ← hvid, ← hid v u hfn]
      exact fun heq => hne (Option.some.inj heq).symm
    · rintro now rfl
      cases hop

/-- The one reading of the step function: each vault after a step is new, or is what the step's
transaction makes of the vault of its id. -/
theorem Store.step_applied {s t : Store} {op : Op} {blobs : List BlobRef} (h : s.step op = .ok (t, blobs))
    {w : Vault} (hw : w ∈ t.vaults) :
    (op.Makes w ∧ w.id ∉ s.vaults.map Vault.id) ∨ ∃ v ∈ s.vaults, v.id = w.id ∧ v.Applied op w := by
  cases op with
  | ensureVault userID keyCheck deviceName vaultID deviceID now =>
    simp only [Store.step] at h
    cases he : s.ensureVault userID keyCheck deviceName vaultID deviceID now with
    | error e => rw [he] at h; cases h
    | ok r =>
      rw [he] at h
      obtain ⟨rfl, -⟩ := Prod.mk.inj (Except.ok.inj h)
      unfold Store.ensureVault at he
      split at he
      · split at he
        · cases he
        · rename_i hfree
          obtain rfl := Except.ok.inj he
          rcases List.mem_append.mp hw with hw | hw
          · exact Or.inr ⟨w, hw, rfl, .untouched (by simp [Op.addresses]) (by simp)⟩
          · obtain rfl := List.mem_singleton.mp hw
            refine Or.inl ⟨⟨userID, keyCheck, deviceName, deviceID, now, rfl, rfl⟩, fun htaken => hfree ?_⟩
            obtain ⟨v, hv, hvid⟩ := List.mem_map.mp htaken
            exact List.find?_isSome.mpr ⟨v, hv, by simpa using hvid⟩
      · rename_i v hv
        split at he
        · cases he
        · obtain rfl := Except.ok.inj he
          rcases Store.mem_put hw with rfl | ⟨hmem, -⟩
          · exact Or.inr ⟨v, List.mem_of_find?_eq_some hv, rfl, .ensured⟩
          · exact Or.inr ⟨w, hmem, rfl, .untouched (by simp [Op.addresses]) (by simp)⟩
  | beginUpload vaultID p hardCap =>
    refine Or.inr (Store.locked_applied h rfl ?_ ?_ hw)
    · rintro v u rfl hfn
      cases hb : v.beginUpload p hardCap with
      | error e => rw [hb] at hfn; cases hfn
      | ok u' =>
        rw [hb] at hfn
        obtain ⟨rfl, -⟩ := Prod.mk.inj (Except.ok.inj hfn)
        exact .begun hb
    · intro v u hfn
      cases hb : v.beginUpload p hardCap with
      | error e => rw [hb] at hfn; cases hfn
      | ok u' =>
        rw [hb] at hfn
        obtain ⟨rfl, -⟩ := Prod.mk.inj (Except.ok.inj hfn)
        rw [(Vault.beginUpload_ok hb).2.2]
        rfl
  | commitUpload vaultID path blobID expectedVersion hardCap now =>
    refine Or.inr (Store.locked_applied h rfl ?_ ?_ hw)
    · rintro v u rfl hfn
      obtain ⟨⟨u', r⟩, hc, hr⟩ := Except.map_eq_ok hfn
      obtain ⟨rfl, -⟩ := Prod.mk.inj hr
      exact .committed hc
    · intro v u hfn
      obtain ⟨⟨u', r⟩, hc, hr⟩ := Except.map_eq_ok hfn
      obtain ⟨rfl, -⟩ := Prod.mk.inj hr
      rcases Vault.commitUpload_ok hc with ⟨rfl, -⟩ | ⟨p, -, -, -, -, -, rfl, -⟩ <;> rfl
  | tombstoneFile vaultID path expectedVersion now =>
    refine Or.inr (Store.locked_applied h rfl ?_ ?_ hw)
    · rintro v u rfl hfn
      obtain ⟨⟨u', r⟩, hd, hr⟩ := Except.map_eq_ok hfn
      obtain ⟨rfl, -⟩ := Prod.mk.inj hr
      exact .tombstoned hd
    · intro v u hfn
      obtain ⟨⟨u', r⟩, hd, hr⟩ := Except.map_eq_ok hfn
      obtain ⟨rfl, -⟩ := Prod.mk.inj hr
      rcases Vault.tombstoneFile_ok hd with ⟨rfl, -⟩ | ⟨-, -, -, rfl, -⟩ <;> rfl
  | resetVault vaultID keyCheck =>
    simp only [Store.step] at h
    refine Or.inr (Store.locked_applied h rfl ?_ ?_ hw)
    · rintro v u rfl hfn
      obtain ⟨rfl, -⟩ := Prod.mk.inj (Except.ok.inj hfn)
      exact .wiped
    · intro v u hfn
      obtain ⟨rfl, -⟩ := Prod.mk.inj (Except.ok.inj hfn)
      rfl
  | deleteVault vaultID =>
    simp only [Store.step, Store.deleteVault] at h
    split at h
    · cases h
    · obtain ⟨rfl, -⟩ := Prod.mk.inj (Except.ok.inj h)
      obtain ⟨hmem, hne⟩ := List.mem_filter.mp hw
      refine Or.inr ⟨w, hmem, rfl, .untouched (fun heq => ?_) (by simp)⟩
      simp [Option.some.inj heq] at hne
  | setVaultLapsed vaultID at_ =>
    simp only [Store.step, Store.setVaultLapsed] at h
    split at h
    · cases h
    · rename_i v hv
      obtain ⟨rfl, -⟩ := Prod.mk.inj (Except.ok.inj h)
      obtain ⟨hmem, rfl⟩ := Store.vaultByID_some hv
      rcases Store.mem_put hw with rfl | ⟨hmem', hne⟩
      · exact Or.inr ⟨v, hmem, rfl, .lapsed⟩
      · refine Or.inr ⟨w, hmem', rfl, .untouched ?_ (by simp)⟩
        exact fun heq => hne (Option.some.inj heq).symm
  | enqueueWrite vaultID row =>
    simp only [Store.step] at h
    refine Or.inr (Store.locked_applied h rfl ?_ ?_ hw)
    · rintro v u rfl hfn
      obtain ⟨rfl, -⟩ := Prod.mk.inj (Except.ok.inj hfn)
      exact .queued
    · intro v u hfn
      obtain ⟨rfl, -⟩ := Prod.mk.inj (Except.ok.inj hfn)
      unfold Vault.enqueueWrite
      split <;> rfl
  | ackWrites vaultID through now =>
    refine Or.inr (Store.locked_applied h rfl ?_ ?_ hw)
    · rintro v u rfl hfn
      obtain ⟨⟨u', r⟩, ha, hr⟩ := Except.map_eq_ok hfn
      obtain ⟨rfl, -⟩ := Prod.mk.inj hr
      exact .acked ha
    · intro v u hfn
      obtain ⟨⟨u', r⟩, ha, hr⟩ := Except.map_eq_ok hfn
      obtain ⟨rfl, -⟩ := Prod.mk.inj hr
      unfold Vault.ackWrites at ha
      split at ha
      · cases ha
      · split at ha <;> (obtain ⟨rfl, rfl⟩ := Prod.mk.inj (Except.ok.inj ha); rfl)
  | sweep now =>
    obtain ⟨rfl, -⟩ := Prod.mk.inj (Except.ok.inj h)
    obtain ⟨v, hv, rfl⟩ := List.mem_map.mp hw
    exact Or.inr ⟨v, (List.mem_filter.mp hv).1, rfl, .swept⟩

/-- A transaction keeps the vault's id. -/
theorem Vault.Applied.id_eq {v w : Vault} {op : Op} (h : v.Applied op w) : w.id = v.id := by
  cases h with
  | untouched => rfl
  | ensured => rfl
  | begun ok => rw [(Vault.beginUpload_ok ok).2.2]; rfl
  | committed ok => rcases Vault.commitUpload_ok ok with ⟨rfl, -⟩ | ⟨p, -, -, -, -, -, rfl, -⟩ <;> rfl
  | tombstoned ok => rcases Vault.tombstoneFile_ok ok with ⟨rfl, -⟩ | ⟨-, -, -, rfl, -⟩ <;> rfl
  | wiped => rfl
  | lapsed => rfl
  | queued =>
    unfold Vault.enqueueWrite
    split <;> rfl
  | acked ok =>
    unfold Vault.ackWrites at ok
    split at ok
    · cases ok
    · split at ok <;> (obtain ⟨rfl, rfl⟩ := Prod.mk.inj (Except.ok.inj ok); rfl)
  | swept => rfl

/-- As far as files go, a transaction does one of the six changes. -/
theorem Vault.Applied.change {v w : Vault} {op : Op} (h : v.Applied op w) : v.Change op w := by
  cases h with
  | untouched => exact .kept (.refl _)
  | ensured => exact .kept ⟨rfl, rfl, rfl, rfl, rfl⟩
  | begun ok =>
    obtain ⟨hversion, -, rfl⟩ := Vault.beginUpload_ok ok
    exact .begun hversion
  | committed ok =>
    rcases Vault.commitUpload_ok ok with ⟨rfl, -⟩ | ⟨p, hp, rfl, rfl, -, hquota, rfl, -⟩
    · exact .kept (.refl _)
    · exact .published hp hquota
  | tombstoned ok =>
    rcases Vault.tombstoneFile_ok ok with ⟨rfl, -⟩ | ⟨hlive, hknown, -, rfl, -⟩
    · exact .kept (.refl _)
    · exact .tombstoned hlive hknown
  | wiped => exact .wiped
  | lapsed => exact .kept ⟨rfl, rfl, rfl, rfl, rfl⟩
  | queued => exact .kept (v.enqueueWrite_sameFiles _)
  | acked ok => exact .kept (Vault.ackWrites_sameFiles ok)
  | swept => exact .swept

/-- Each vault after a step is new, or comes from the vault of its id by one of the six changes. -/
theorem Store.step_vault {s t : Store} {op : Op} {blobs : List BlobRef}
    (h : s.step op = .ok (t, blobs)) {w : Vault} (hw : w ∈ t.vaults) :
    (w.Fresh ∧ op.creates = some w.id) ∨ ∃ v ∈ s.vaults, v.id = w.id ∧ v.Change op w := by
  rcases Store.step_applied h hw with
    ⟨⟨userID, keyCheck, deviceName, deviceID, now, hop, hnew⟩, -⟩ | ⟨v, hv, hid, happlied⟩
  · refine Or.inl ⟨?_, by rw [hop]; rfl⟩
    rw [hnew]
    exact ⟨rfl, rfl, rfl, rfl, rfl⟩
  · exact Or.inr ⟨v, hv, hid, happlied.change⟩

/-- Writing a vault back changes no vault's id. -/
theorem Store.put_ids (s : Store) (v : Vault) :
    (s.put v).vaults.map Vault.id = s.vaults.map Vault.id := by
  rw [Store.put, List.map_map]
  refine List.map_congr_left fun w _ => ?_
  simp only [Function.comp_apply]
  split
  · exact Eq.symm ‹_›
  · rfl

/-- The vaults of a step are those it does not remove, and at most one new one under a new id. -/
theorem Store.step_ids {s t : Store} {op : Op} {blobs : List BlobRef}
    (h : s.step op = .ok (t, blobs)) :
    ∃ new, t.vaults.map Vault.id = (s.vaults.filter fun v => !op.removesVault v).map Vault.id ++ new ∧
      (new = [] ∨ ∃ id, op.creates = some id ∧ id ∉ s.vaults.map Vault.id ∧ new = [id]) := by
  have unchanged (hkeep : ∀ v, op.removesVault v = false)
      (hids : t.vaults.map Vault.id = s.vaults.map Vault.id) :
      ∃ new, t.vaults.map Vault.id = (s.vaults.filter fun v => !op.removesVault v).map Vault.id ++ new ∧
        (new = [] ∨ ∃ id, op.creates = some id ∧ id ∉ s.vaults.map Vault.id ∧ new = [id]) := by
    refine ⟨[], ?_, Or.inl rfl⟩
    rw [List.append_nil, hids, List.filter_eq_self.mpr fun v _ => by rw [hkeep v]; rfl]
  have locked {R : Type} {id : String} {fn : Vault → Except StoreError (Vault × R)} {r : R}
      (hlock : s.withVaultLock id fn = .ok (t, r)) : t.vaults.map Vault.id = s.vaults.map Vault.id := by
    obtain ⟨v, w, -, -, rfl⟩ := Store.withVaultLock_ok hlock
    exact s.put_ids w
  cases op with
  | ensureVault userID keyCheck deviceName vaultID deviceID now =>
    simp only [Store.step] at h
    cases he : s.ensureVault userID keyCheck deviceName vaultID deviceID now with
    | error e => rw [he] at h; cases h
    | ok r =>
      rw [he] at h
      obtain ⟨rfl, -⟩ := Prod.mk.inj (Except.ok.inj h)
      unfold Store.ensureVault at he
      split at he
      · split at he
        · cases he
        · rename_i hfree
          obtain rfl := Except.ok.inj he
          refine ⟨[vaultID], ?_, Or.inr ⟨vaultID, rfl, fun hid => hfree ?_, rfl⟩⟩
          · have hall : (s.vaults.filter fun v => !(Op.ensureVault userID keyCheck deviceName vaultID
                deviceID now).removesVault v) = s.vaults := List.filter_eq_self.mpr fun _ _ => rfl
            rw [hall, List.map_append]
            rfl
          · obtain ⟨v, hv, hvid⟩ := List.mem_map.mp hid
            exact List.find?_isSome.mpr ⟨v, hv, by simpa using hvid⟩
      · split at he
        · cases he
        · obtain rfl := Except.ok.inj he
          exact unchanged (fun _ => rfl) (s.put_ids _)
  | beginUpload vaultID p hardCap => exact unchanged (fun _ => rfl) (locked h)
  | commitUpload vaultID path blobID expectedVersion hardCap now =>
    exact unchanged (fun _ => rfl) (locked h)
  | tombstoneFile vaultID path expectedVersion now => exact unchanged (fun _ => rfl) (locked h)
  | resetVault vaultID keyCheck =>
    simp only [Store.step] at h
    exact unchanged (fun _ => rfl) (locked h)
  | deleteVault vaultID =>
    simp only [Store.step, Store.deleteVault] at h
    split at h
    · cases h
    · obtain ⟨rfl, -⟩ := Prod.mk.inj (Except.ok.inj h)
      refine ⟨[], ?_, Or.inl rfl⟩
      rw [List.append_nil]
      simp only [Op.removesVault, ne_eq, decide_not]
  | setVaultLapsed vaultID at_ =>
    simp only [Store.step, Store.setVaultLapsed] at h
    split at h
    · cases h
    · obtain ⟨rfl, -⟩ := Prod.mk.inj (Except.ok.inj h)
      exact unchanged (fun _ => rfl) (s.put_ids _)
  | enqueueWrite vaultID row =>
    simp only [Store.step] at h
    exact unchanged (fun _ => rfl) (locked h)
  | ackWrites vaultID through now => exact unchanged (fun _ => rfl) (locked h)
  | sweep now =>
    obtain ⟨rfl, -⟩ := Prod.mk.inj (Except.ok.inj h)
    refine ⟨[], ?_, Or.inl rfl⟩
    rw [List.append_nil, List.map_map]
    rfl

/-- Vault ids stay apart. -/
theorem Store.step_ids_nodup {s t : Store} {op : Op} {blobs : List BlobRef}
    (h : s.step op = .ok (t, blobs)) (ids : (s.vaults.map Vault.id).Nodup) :
    (t.vaults.map Vault.id).Nodup := by
  obtain ⟨new, hids, hnew⟩ := Store.step_ids h
  have hsub : List.Sublist ((s.vaults.filter fun v => !op.removesVault v).map Vault.id)
      (s.vaults.map Vault.id) := List.filter_sublist.map _
  rw [hids]
  rcases hnew with rfl | ⟨id, -, hfree, rfl⟩
  · rw [List.append_nil]
    exact ids.sublist hsub
  · rw [List.nodup_append]
    refine ⟨ids.sublist hsub, List.nodup_singleton _, ?_⟩
    rintro taken htaken _ hid rfl
    rw [List.mem_singleton.mp hid] at htaken
    exact hfree (hsub.subset htaken)

/-- With ids apart, a vault is found under its id. -/
theorem Store.vaultByID_of_mem {s : Store} (ids : (s.vaults.map Vault.id).Nodup) {v : Vault}
    (hv : v ∈ s.vaults) : s.vaultByID v.id = some v := by
  cases hfind : s.vaultByID v.id with
  | none => simpa using List.find?_eq_none.mp hfind v hv
  | some w =>
    obtain ⟨hw, hid⟩ := Store.vaultByID_some hfind
    rw [List.inj_on_of_nodup_map ids hw hv hid]

/-- Vault ids are apart in every reachable server. -/
theorem Store.ids_nodup {s : Store} (hs : Reachable Store.Next Store.Initial s) :
    (s.vaults.map Vault.id).Nodup := by
  refine hs.invariant (fun s => (s.vaults.map Vault.id).Nodup) ?_ ?_
  · intro s hempty
    rw [hempty]
    exact List.nodup_nil
  · rintro s op t ids ⟨blobs, hstep⟩
    exact Store.step_ids_nodup hstep ids

/-- What an accepted request leaves is a step. -/
theorem Store.after_next (s : Store) (op : Op) (t : Store) (h : s.after op = some t) :
    Store.Next s op t := by
  unfold Store.after at h
  cases hstep : s.step op with
  | error e => rw [hstep] at h; cases h
  | ok r =>
    rw [hstep] at h
    obtain rfl := Option.some.inj h
    exact ⟨r.2, hstep⟩

/-- A property of new vaults that each of the six changes keeps, where the steps meet a guard,
holds of every vault of every server reached by such steps. -/
theorem Store.vault_invariant {guard : Store → Op → Prop} {inv : Vault → Prop}
    (fresh : ∀ w, w.Fresh → inv w)
    (change : ∀ s v op w, guard s op → v ∈ s.vaults → inv v → v.Change op w → inv w) {s : Store}
    (hs : Reachable (Guarded Store.Next guard) Store.Initial s) : ∀ v ∈ s.vaults, inv v := by
  refine hs.invariant (fun s => ∀ v ∈ s.vaults, inv v) ?_ ?_
  · intro s hempty v hv
    rw [hempty] at hv
    exact absurd hv List.not_mem_nil
  · rintro s op t ih ⟨hguard, blobs, hstep⟩ w hw
    rcases Store.step_vault hstep hw with ⟨hfresh, -⟩ | ⟨v, hv, -, hchange⟩
    · exact fresh w hfresh
    · exact change s v op w hguard hv (ih v hv) hchange

/-- Where ids are apart, a vault that a step keeps is what the step's transaction makes of it. -/
theorem Store.applied_of_id {s t : Store} {op : Op} (h : Store.Next s op t)
    (ids : (s.vaults.map Vault.id).Nodup) {v w : Vault} (hv : v ∈ s.vaults) (hw : w ∈ t.vaults)
    (hid : w.id = v.id) : v.Applied op w := by
  obtain ⟨blobs, hstep⟩ := h
  rcases Store.step_applied hstep hw with ⟨-, hnew⟩ | ⟨u, hu, huid, happlied⟩
  · exact absurd (List.mem_map.mpr ⟨v, hv, hid.symm⟩) hnew
  · rwa [List.inj_on_of_nodup_map ids hu hv (huid.trans hid)] at happlied

/-- A step that does not take the vault of an id away. -/
def Op.Spares (vaultID : String) (s : Store) (op : Op) : Prop :=
  ∀ v ∈ s.vaults, v.id = vaultID → op.removesVault v = false

/-- A run that spares a vault is a run of transactions on it. -/
theorem Store.vault_run {vaultID : String} {s t : Store} {ops : List Op}
    (run : Run (Guarded Store.Next (fun s op => op.Spares vaultID s)) s ops t)
    (ids : (s.vaults.map Vault.id).Nodup) {v : Vault} (hv : v ∈ s.vaults) (hid : v.id = vaultID) :
    ∃ w ∈ t.vaults, w.id = vaultID ∧ Run Vault.Applied v ops w := by
  induction run generalizing v with
  | nil s => exact ⟨v, hv, hid, .nil v⟩
  | @cons s t' t op rest first _ ih =>
    obtain ⟨hspares, blobs, hstep⟩ := first
    have hkept : v.id ∈ t'.vaults.map Vault.id := by
      obtain ⟨new, hids, -⟩ := Store.step_ids hstep
      rw [hids]
      refine List.mem_append_left _ (List.mem_map.mpr ⟨v, List.mem_filter.mpr ⟨hv, ?_⟩, rfl⟩)
      rw [hspares v hv hid]
      rfl
    obtain ⟨u, hu, huid⟩ := List.mem_map.mp hkept
    have happlied := Store.applied_of_id ⟨blobs, hstep⟩ ids hv hu huid
    obtain ⟨w, hw, hwid, later⟩ := ih (Store.step_ids_nodup hstep ids) hu (huid.trans hid)
    exact ⟨w, hw, hwid, .cons happlied later⟩

/-- A property of new vaults that every transaction keeps holds of every vault of every server. -/
theorem Store.vault_inv {inv : Vault → Prop}
    (fresh : ∀ vaultID userID keyCheck deviceName deviceID now,
      inv (newVault vaultID userID keyCheck deviceName deviceID now))
    (applied : ∀ v op w, inv v → v.Applied op w → inv w) {s : Store}
    (hs : Reachable Store.Next Store.Initial s) : ∀ v ∈ s.vaults, inv v := by
  refine hs.invariant (fun s => ∀ v ∈ s.vaults, inv v) ?_ ?_
  · intro s hempty v hv
    rw [hempty] at hv
    exact absurd hv List.not_mem_nil
  · rintro s op t ih ⟨blobs, hstep⟩ w hw
    rcases Store.step_applied hstep hw with
      ⟨⟨userID, keyCheck, deviceName, deviceID, now, -, hnew⟩, -⟩ | ⟨v, hv, -, happlied⟩
    · exact hnew ▸ fresh ..
    · exact applied v op w (ih v hv) happlied

/-! ## The version order -/

/-- Paths and versions name rows apart, and the counter bounds every version and the horizon. -/
structure Vault.Versioned (v : Vault) : Prop where
  paths : (v.files.map FileRow.path).Nodup
  versions : (v.files.map FileRow.version).Nodup
  bounded : ∀ f ∈ v.files, f.version ≤ v.latestVersion
  horizon : v.tombstoneHorizon ≤ v.latestVersion

/-- Replacing a path's row by one above the counter keeps paths and versions apart. -/
theorem Vault.Versioned.upsert {v : Vault} (h : v.Versioned) (row : FileRow)
    (hrow : row.version = v.latestVersion + 1) :
    ((upsertFile row v.files).map FileRow.path).Nodup ∧
      ((upsertFile row v.files).map FileRow.version).Nodup ∧
      ∀ f ∈ upsertFile row v.files, f.version ≤ v.latestVersion + 1 := by
  have hsub : List.Sublist (v.files.filter fun f => f.path ≠ row.path) v.files := List.filter_sublist
  refine ⟨?_, ?_, ?_⟩
  · refine List.nodup_cons.mpr ⟨?_, h.paths.sublist (hsub.map _)⟩
    rintro hmem
    obtain ⟨f, hf, hpath⟩ := List.mem_map.mp hmem
    simp only [ne_eq, decide_not, List.mem_filter, Bool.not_eq_true', decide_eq_false_iff_not] at hf
    exact hf.2 hpath
  · refine List.nodup_cons.mpr ⟨?_, h.versions.sublist (hsub.map _)⟩
    rintro hmem
    obtain ⟨f, hf, hversion⟩ := List.mem_map.mp hmem
    have := h.bounded f (hsub.subset hf)
    omega
  · intro f hf
    rcases mem_upsertFile.mp hf with rfl | ⟨hf, -⟩
    · exact hrow.le
    · exact (h.bounded f hf).trans (Nat.le_succ _)

/-- The largest of some row versions and the old horizon stays below any bound on them. -/
theorem foldl_max_le {versions : List ℕ} {start bound : ℕ} (hs : start ≤ bound)
    (h : ∀ n ∈ versions, n ≤ bound) : versions.foldl max start ≤ bound := by
  induction versions generalizing start with
  | nil => exact hs
  | cons n rest ih =>
    exact ih (max_le hs (h n List.mem_cons_self)) fun m hm => h m (List.mem_cons_of_mem _ hm)

/-- The version order survives every change. -/
theorem Vault.Versioned.change {v w : Vault} {op : Op} (h : v.Versioned) (hc : v.Change op w) :
    w.Versioned := by
  cases hc with
  | kept same =>
    exact ⟨same.files ▸ h.paths, same.files ▸ h.versions,
      by rw [same.files, same.latestVersion]; exact h.bounded,
      by rw [same.tombstoneHorizon, same.latestVersion]; exact h.horizon⟩
  | begun version => exact ⟨h.paths, h.versions, h.bounded, h.horizon⟩
  | published pending quota =>
    obtain ⟨hpaths, hversions, hbounded⟩ := h.upsert (committedRow v _ _) rfl
    exact ⟨hpaths, hversions, hbounded, h.horizon.trans (Nat.le_succ _)⟩
  | tombstoned live known =>
    obtain ⟨hpaths, hversions, hbounded⟩ := h.upsert (tombstoneRow v _ _) rfl
    exact ⟨hpaths, hversions, hbounded, h.horizon.trans (Nat.le_succ _)⟩
  | wiped => exact ⟨List.nodup_nil, List.nodup_nil, by simp [Vault.resetVault], le_rfl⟩
  | @swept now =>
    have hsub : List.Sublist (v.files.filter fun f => !f.prunedAt now) v.files := List.filter_sublist
    refine ⟨h.paths.sublist (hsub.map _), h.versions.sublist (hsub.map _),
      fun f hf => h.bounded f (hsub.subset hf), ?_⟩
    refine foldl_max_le h.horizon fun n hn => ?_
    obtain ⟨f, hf, rfl⟩ := List.mem_map.mp hn
    exact h.bounded f (List.mem_filter.mp hf).1

/-- Every vault of every reachable server keeps its versions in order. -/
theorem Store.versioned {s : Store} (hs : Reachable Store.Next Store.Initial s) :
    ∀ v ∈ s.vaults, v.Versioned := by
  refine Store.vault_invariant (fun w hw => ?_) (fun _ v op w _ _ h hc => h.change hc) hs.guarded
  exact ⟨by simp [hw.files], by simp [hw.files], by simp [hw.files],
    by rw [hw.tombstoneHorizon]; exact Nat.zero_le _⟩

end Thock.Plus
