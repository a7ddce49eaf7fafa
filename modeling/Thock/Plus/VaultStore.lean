import Thock.Lib.CursorPaging

/-!
# The server's vault rows

The tables of the sync server and the transactions of its store. Every table is keyed by
vault and deleted with it, so a vault value here carries its own rows; a server is its
vaults. Each transaction runs under the vault's row lock, which makes it one function from
the vault as it is at lock time to the vault it writes back, or the error it answers.

Times are whole microseconds, the precision of the timestamps the tables hold. Counters are
natural numbers and byte counts integers, as no transaction lowers a counter while the byte
count is adjusted by differences.
-/

namespace Thock.Plus

open CursorPaging

abbrev Time := ℤ

/-- One hour of table time. -/
def hour : Time := 3600 * 1000000

/-- One day of table time. -/
def day : Time := 24 * hour

/-- A row of `files`: a live file, or the tombstone left where one was. -/
structure FileRow where
  path : String
  version : ℕ := 0
  deleted : Bool := false
  blobID : Option String := none
  sizeBytes : ℤ := 0
  contentHash : Option String := none
  updatedBy : String := ""
  updatedAt : Time := 0
deriving DecidableEq, Repr

/-- A row of `pending_uploads`: begun, its signed address handed out, not committed yet. -/
structure PendingUpload where
  blobID : String
  path : String
  expectedVersion : ℕ
  sizeBytes : ℤ
  contentHash : String
  createdAt : Time
deriving DecidableEq, Repr

/-- A row of `writes`, the phone's queue. -/
structure WriteRow where
  seq : ℕ := 0
  clientID : String
  path : String
  baseVersion : ℕ
  payload : List UInt8
  createdAt : Time
  ackedAt : Option Time := none
deriving DecidableEq, Repr

inductive DeviceRole
  | desk
  | phone
deriving DecidableEq, Repr

structure Device where
  id : String
  role : DeviceRole
  name : String
  credentialHash : Option String := none
  apnsToken : Option String := none
  pairedAt : Time
  lastSeenAt : Time
deriving DecidableEq, Repr

structure Pairing where
  codeHash : String
  expiresAt : Time
  createdAt : Time
  usedAt : Option Time := none
deriving DecidableEq, Repr

/-- A row of `vaults` with the rows of every table that references it. -/
structure Vault where
  id : String
  userID : String
  keyCheck : String
  createdAt : Time
  latestVersion : ℕ := 0
  latestSeq : ℕ := 0
  ackedThroughSeq : ℕ := 0
  ackedAtVersion : ℕ := 0
  bytesUsed : ℤ := 0
  tombstoneHorizon : ℕ := 0
  lapsedAt : Option Time := none
  files : List FileRow := []
  pendingUploads : List PendingUpload := []
  writes : List WriteRow := []
  devices : List Device := []
  pairings : List Pairing := []
deriving DecidableEq, Repr

inductive StoreError
  | staleVersion (current : FileRow)
  | blobMissing
  | quota
  | notFound
  | keyMismatch
  /-- An insert refused by a unique key. -/
  | conflict
deriving DecidableEq, Repr

/-- The row of a path, tombstone or not. -/
def Vault.fileByPath (v : Vault) (path : String) : Option FileRow :=
  v.files.find? fun f => f.path = path

/-- What an expected version is compared against: the path's row, or version 0 for a path the
vault never had. -/
def Vault.currentVersion (v : Vault) (path : String) : FileRow :=
  (v.fileByPath path).getD { path := path }

/-- The bytes a row counts against the quota. -/
def FileRow.live (f : FileRow) : ℤ := if f.deleted then 0 else f.sizeBytes

/-- Insert a row, or replace the one of its path. -/
def upsertFile (row : FileRow) (files : List FileRow) : List FileRow :=
  row :: files.filter fun f => f.path ≠ row.path

/-- Insert a pending upload, or replace the one of its blob. -/
def upsertPending (p : PendingUpload) (pending : List PendingUpload) : List PendingUpload :=
  p :: pending.filter fun q => q.blobID ≠ p.blobID

/-- Every blob the vault's files and begun uploads name. -/
def Vault.allBlobIDs (v : Vault) : List String :=
  v.files.filterMap FileRow.blobID ++ v.pendingUploads.map PendingUpload.blobID

/-- The version and the quota are checked, then the pending upload is recorded. -/
def Vault.beginUpload (v : Vault) (p : PendingUpload) (hardCap : ℤ) : Except StoreError Vault :=
  let current := v.currentVersion p.path
  if current.version ≠ p.expectedVersion then .error (.staleVersion current)
  else if v.bytesUsed - current.live + p.sizeBytes > hardCap then .error .quota
  else .ok { v with pendingUploads := upsertPending p v.pendingUploads }

structure CommitResult where
  version : ℕ
  updatedAt : Time
  replacedBlob : Option String := none
  /-- The blob was already the file's current version: nothing changed. -/
  alreadyCommitted : Bool := false
deriving DecidableEq, Repr

/-- Publish an uploaded blob as the path's new version. -/
def Vault.commitUpload (v : Vault) (path blobID : String) (expectedVersion : ℕ) (hardCap : ℤ)
    (now : Time) : Except StoreError (Vault × CommitResult) :=
  let current := v.currentVersion path
  if current.deleted = false ∧ current.blobID = some blobID ∧ 0 < current.version then
    .ok (v, { version := current.version, updatedAt := current.updatedAt, alreadyCommitted := true })
  else match v.pendingUploads.find? fun p => p.blobID = blobID ∧ p.path = path with
  | none => .error .blobMissing
  | some p =>
    if current.version ≠ expectedVersion then .error (.staleVersion current)
    else if v.bytesUsed - current.live + p.sizeBytes > hardCap then .error .quota
    else
      let version := v.latestVersion + 1
      let row : FileRow :=
        { path, version, deleted := false, blobID := some blobID, sizeBytes := p.sizeBytes,
          contentHash := some p.contentHash, updatedBy := "desk", updatedAt := now }
      .ok ({ v with
              files := upsertFile row v.files
              pendingUploads := v.pendingUploads.filter fun q => q.blobID ≠ blobID
              latestVersion := version
              bytesUsed := v.bytesUsed - current.live + p.sizeBytes },
           { version, updatedAt := now,
             replacedBlob := if current.deleted then none else current.blobID })

structure TombstoneResult where
  version : ℕ
  freedBlob : Option String := none
  /-- Already a tombstone: nothing changed. -/
  alreadyDeleted : Bool := false
deriving DecidableEq, Repr

/-- Record a deletion: the row stays as a tombstone with a version of its own. -/
def Vault.tombstoneFile (v : Vault) (path : String) (expectedVersion : ℕ) (now : Time) :
    Except StoreError (Vault × TombstoneResult) :=
  let current := v.currentVersion path
  if current.deleted then .ok (v, { version := current.version, alreadyDeleted := true })
  -- A desk whose record outlived the row hears that the path is gone, not that it is stale.
  else if current.version = 0 then .error .notFound
  else if current.version ≠ expectedVersion then .error (.staleVersion current)
  else
    let version := v.latestVersion + 1
    let row : FileRow :=
      { current with
        version, deleted := true, blobID := none, sizeBytes := 0, contentHash := none,
        updatedBy := "desk", updatedAt := now }
    .ok ({ v with
            files := upsertFile row v.files
            latestVersion := version
            bytesUsed := v.bytesUsed - current.sizeBytes },
         { version, freedBlob := current.blobID })

/-- Wipe files, uploads, writes, codes and the phone. Counters keep going up and the horizon
moves to the latest version, so a stale cursor is told to pull afresh. -/
def Vault.resetVault (v : Vault) (keyCheck : String) : Vault × List String :=
  ({ v with
      keyCheck, bytesUsed := 0, tombstoneHorizon := v.latestVersion, files := [],
      pendingUploads := [], writes := [], pairings := [],
      devices := v.devices.filter fun d => d.role ≠ .phone },
   v.allBlobIDs)

/-- The next seq for a new write, or the seq its client id already has. -/
def Vault.enqueueWrite (v : Vault) (w : WriteRow) : Vault × ℕ × Bool :=
  match v.writes.find? fun row => row.clientID = w.clientID with
  | some row => (v, row.seq, false)
  | none =>
    let seq := v.latestSeq + 1
    ({ v with writes := v.writes ++ [{ w with seq, ackedAt := none }], latestSeq := seq }, seq, true)

/-- Unacked writes above `after`, one more than asked so the caller can tell whether more follow. -/
def Vault.listWrites (v : Vault) (after limit : ℕ) : List WriteRow :=
  (orderBy WriteRow.seq (v.writes.filter fun w => after < w.seq ∧ w.ackedAt = none)).take (limit + 1)

structure AckResult where
  throughSeq : ℕ
  atVersion : ℕ
  advanced : Bool := false
deriving DecidableEq, Repr

/-- Drop the payloads through a seq and record where the version counter stood. -/
def Vault.ackWrites (v : Vault) (through : ℕ) (now : Time) : Except StoreError (Vault × AckResult) :=
  if through > v.latestSeq then .error .notFound
  else if through ≤ v.ackedThroughSeq then
    .ok (v, { throughSeq := v.ackedThroughSeq, atVersion := v.ackedAtVersion })
  else
    .ok ({ v with
            writes := v.writes.map fun w =>
              if w.seq ≤ through ∧ w.ackedAt = none then { w with ackedAt := some now, payload := [] } else w
            ackedThroughSeq := through
            ackedAtVersion := v.latestVersion },
         { throughSeq := through, atVersion := v.latestVersion, advanced := true })

/-- Live rows for a full pull (`since` absent), else every row above the cursor, in version
order; one more than asked so the caller can tell whether more follow. -/
def Vault.listFiles (v : Vault) (since : Option ℕ) (limit : ℕ) : List FileRow :=
  match since with
  | none => (orderBy FileRow.version (v.files.filter fun f => !f.deleted)).take (limit + 1)
  | some since => (orderBy FileRow.version (above FileRow.version since v.files)).take (limit + 1)

/-- A tombstone old enough to be pruned at `now`. -/
def FileRow.prunedAt (f : FileRow) (now : Time) : Bool := f.deleted && f.updatedAt ≤ now - 30 * day

/-- An upload begun long enough ago to be dropped at `now`. -/
def PendingUpload.staleAt (p : PendingUpload) (now : Time) : Bool := p.createdAt ≤ now - hour

/-- A vault thirty days past its lapse at `now`. -/
def Vault.lapsedBefore (v : Vault) (now : Time) : Bool :=
  v.lapsedAt.any fun at_ => at_ ≤ now - 30 * day

/-- What the sweep does to a vault it keeps: stale uploads go, the horizon moves over the
tombstones about to be pruned, then they go, with old acked writes and spent codes. -/
def Vault.sweep (v : Vault) (now : Time) : Vault :=
  { v with
    pendingUploads := v.pendingUploads.filter fun p => !p.staleAt now
    tombstoneHorizon :=
      ((v.files.filter fun f => f.prunedAt now).map FileRow.version).foldl max v.tombstoneHorizon
    files := v.files.filter fun f => !f.prunedAt now
    writes := v.writes.filter fun w => !(w.ackedAt.any fun at_ => at_ ≤ now - 7 * day)
    pairings := v.pairings.filter fun p => !(p.usedAt.isSome || p.expiresAt ≤ now) }

/-- A blob object, addressed under its vault. -/
structure BlobRef where
  vaultID : String
  blobID : String
deriving DecidableEq, Repr

/-- Every vault of the service. -/
structure Store where
  vaults : List Vault := []
deriving DecidableEq, Repr

def Store.vaultByID (s : Store) (id : String) : Option Vault :=
  s.vaults.find? fun v => v.id = id

def Store.vaultByUser (s : Store) (userID : String) : Option Vault :=
  s.vaults.find? fun v => v.userID = userID

/-- Write a vault back in the place of the one with its id. -/
def Store.put (s : Store) (v : Vault) : Store :=
  { s with vaults := s.vaults.map fun w => if w.id = v.id then v else w }

/-- Run a transaction on a vault's row as it is at lock time. -/
def Store.withVaultLock {R : Type} (s : Store) (vaultID : String)
    (fn : Vault → Except StoreError (Vault × R)) : Except StoreError (Store × R) :=
  match s.vaultByID vaultID with
  | none => .error .notFound
  | some v =>
    match fn v with
    | .error e => .error e
    | .ok (w, r) => .ok (s.put w, r)

/-- The desk's device row, refreshed or inserted. -/
def upsertDesk (devices : List Device) (id name : String) (now : Time) : List Device :=
  if devices.any fun d => d.role = .desk then
    devices.map fun d => if d.role = .desk then { d with name, lastSeenAt := now } else d
  else devices ++ [{ id, role := .desk, name, pairedAt := now, lastSeenAt := now }]

/-- Create the user's vault on the first call. Later the key check must match, unless the
vault holds no live file, in which case the new one is adopted. -/
def Store.ensureVault (s : Store) (userID keyCheck deviceName vaultID deviceID : String)
    (now : Time) : Except StoreError (Store × Vault) :=
  match s.vaultByUser userID with
  | none =>
    if (s.vaultByID vaultID).isSome then .error .conflict
    else
      let v : Vault := { id := vaultID, userID, keyCheck, createdAt := now }
      .ok ({ s with vaults := s.vaults ++ [{ v with devices := upsertDesk [] deviceID deviceName now }] }, v)
  | some v =>
    if v.keyCheck ≠ keyCheck ∧ v.files.any fun f => !f.deleted then .error .keyMismatch
    else
      let v := { v with keyCheck }
      .ok (s.put { v with devices := upsertDesk v.devices deviceID deviceName now }, v)

/-- Remove the vault and everything under it; the caller deletes its blobs. -/
def Store.deleteVault (s : Store) (vaultID : String) : Except StoreError (Store × List String) :=
  match s.vaultByID vaultID with
  | none => .error .notFound
  | some v => .ok ({ s with vaults := s.vaults.filter fun w => w.id ≠ vaultID }, v.allBlobIDs)

def Store.setVaultLapsed (s : Store) (vaultID : String) (at_ : Option Time) :
    Except StoreError Store :=
  match s.vaultByID vaultID with
  | none => .error .notFound
  | some v => .ok (s.put { v with lapsedAt := at_ })

/-- The blobs a sweep hands to deletion: all of a lapsed vault's, and those of stale uploads. -/
def Store.sweepBlobs (s : Store) (now : Time) : List BlobRef :=
  (s.vaults.filter fun v => v.lapsedBefore now).flatMap
      (fun v => v.allBlobIDs.map fun b => ⟨v.id, b⟩) ++
    (s.vaults.filter fun v => !v.lapsedBefore now).flatMap fun v =>
      (v.pendingUploads.filter fun p => p.staleAt now).map fun p => ⟨v.id, p.blobID⟩

/-- Prune what has aged out; lapsed vaults go whole. -/
def Store.sweep (s : Store) (now : Time) : Store × List BlobRef :=
  ({ s with vaults := (s.vaults.filter fun v => !v.lapsedBefore now).map fun v => v.sweep now },
   s.sweepBlobs now)

/-- The requests and timers that change the rows. -/
inductive Op
  | ensureVault (userID keyCheck deviceName vaultID deviceID : String) (now : Time)
  | beginUpload (vaultID : String) (p : PendingUpload) (hardCap : ℤ)
  | commitUpload (vaultID path blobID : String) (expectedVersion : ℕ) (hardCap : ℤ) (now : Time)
  | tombstoneFile (vaultID path : String) (expectedVersion : ℕ) (now : Time)
  | resetVault (vaultID keyCheck : String)
  | deleteVault (vaultID : String)
  | setVaultLapsed (vaultID : String) (at_ : Option Time)
  | enqueueWrite (vaultID : String) (w : WriteRow)
  | ackWrites (vaultID : String) (through : ℕ) (now : Time)
  | sweep (now : Time)
deriving DecidableEq, Repr

/-- The id a new vault would take. -/
def Op.creates : Op → Option String
  | .ensureVault _ _ _ vaultID _ _ => some vaultID
  | _ => none

/-- The vaults a request takes away whole. -/
def Op.removesVault (op : Op) (v : Vault) : Bool :=
  match op with
  | .deleteVault vaultID => v.id = vaultID
  | .sweep now => v.lapsedBefore now
  | _ => false

/-- The file rows a request takes away without a version of their own to say so. -/
def Op.removes (op : Op) (v : Vault) (f : FileRow) : Bool :=
  op.removesVault v ||
    match op with
    | .resetVault vaultID _ => v.id = vaultID
    | .sweep now => f.prunedAt now
    | _ => false

/-- One accepted request: the rows after it and the blobs its handler deletes from blob storage. -/
def Store.step (s : Store) : Op → Except StoreError (Store × List BlobRef)
  | .ensureVault userID keyCheck deviceName vaultID deviceID now =>
    (s.ensureVault userID keyCheck deviceName vaultID deviceID now).map fun r => (r.1, [])
  | .beginUpload vaultID p hardCap =>
    (s.withVaultLock vaultID fun v => (v.beginUpload p hardCap).map fun w => (w, [])) 
  | .commitUpload vaultID path blobID expectedVersion hardCap now =>
    s.withVaultLock vaultID fun v =>
      (v.commitUpload path blobID expectedVersion hardCap now).map fun r =>
        (r.1, if r.2.alreadyCommitted then [] else r.2.replacedBlob.toList.map (⟨vaultID, ·⟩))
  | .tombstoneFile vaultID path expectedVersion now =>
    s.withVaultLock vaultID fun v =>
      (v.tombstoneFile path expectedVersion now).map fun r =>
        (r.1, if r.2.alreadyDeleted then [] else r.2.freedBlob.toList.map (⟨vaultID, ·⟩))
  | .resetVault vaultID keyCheck =>
    s.withVaultLock vaultID fun v =>
      let r := v.resetVault keyCheck
      .ok (r.1, r.2.map (⟨vaultID, ·⟩))
  | .deleteVault vaultID =>
    (s.deleteVault vaultID).map fun r => (r.1, r.2.map (⟨vaultID, ·⟩))
  | .setVaultLapsed vaultID at_ => (s.setVaultLapsed vaultID at_).map fun t => (t, [])
  | .enqueueWrite vaultID w => s.withVaultLock vaultID fun v => .ok ((v.enqueueWrite w).1, [])
  | .ackWrites vaultID through now =>
    s.withVaultLock vaultID fun v => (v.ackWrites through now).map fun r => (r.1, [])
  | .sweep now => .ok (s.sweep now)

/-- The rows after a request, if it is accepted. -/
def Store.after (s : Store) (op : Op) : Option Store := (s.step op).toOption.map Prod.fst

/-- The accepted steps of the server. -/
def Store.Next (s : Store) (op : Op) (t : Store) : Prop := ∃ blobs, s.step op = .ok (t, blobs)

/-- The service before its first vault. -/
def Store.Initial (s : Store) : Prop := s.vaults = []

end Thock.Plus
