import Thock.Plus.Walk
import Thock.Plus.Writes
import Thock.ThockKit.PhoneView

/-!
# A phone's rounds beside the server

One vault of the server and the phone that syncs it. A round sends what is queued, pulls page
by page, reads the vault's ack and prunes. Every request is a step of its own, resolving its
caller and being answered apart, every blob is fetched by a step of its own, and any other
request of the server and any write of the person's may run between two of them.

What no code reads is kept beside them: every row a commit or a deletion wrote, the acks with
the file rows as they stood, the vault as a pull last listed it, and the notes the phone itself
moved away.
-/

namespace Thock.Sync

open TextScan CursorPaging Transition
open Plus (FileRow Vault Op FilesAnswer handleFilesList)
open ThockKit (Path Phone VaultStore Pulling RemoteFile PlannedWrite PendingWrite takeRow finishPull startsFull
  isSyncableImagePath wellFormedExtension)

/-! ## The state -/

/-- An ack that moved the mark, with the version it recorded and the file rows it found. -/
structure Ack where
  through : ℕ
  atVersion : ℕ
  files : List FileRow
deriving DecidableEq, Repr

/-- A pull under way, its store apart. -/
structure Round where
  since : Option ℕ
  fullPull : Bool
  listed : List Path := []
  failed : List Path := []
deriving DecidableEq, Repr

/-- Where a round stands. -/
inductive Stage
  /-- Between rounds, or sending what is queued. -/
  | sending
  /-- The next page is to be asked for. -/
  | asking (round : Round)
  /-- A request is on its way, its caller resolved. -/
  | resolved (round : Round) (principal : Vault)
  /-- A page arrived and its rows are taken one by one. -/
  | taking (round : Round) (rest : List FileRow) (nextSince : ℕ) (hasMore : Bool)
  | pulled
  /-- The vault's ack is read. -/
  | told (ackedThroughSeq ackedAtVersion : ℕ)
deriving DecidableEq, Repr

structure Link (Seed : Type) where
  vault : Vault
  store : VaultStore Seed := .empty
  stage : Stage := .sending
  /-- Every row a commit or a deletion wrote. -/
  written : List FileRow := []
  /-- The acks in order, after the mark the vault starts with. -/
  acks : List Ack := [⟨0, 0, []⟩]
  /-- The vault as the pull last listed it, or as the pull found it. -/
  listing : Vault := vault
  /-- The notes the phone moved away since it last took a row of theirs. -/
  away : List Path := []

/-- The page size the phone asks for. -/
def pullLimit : ℕ := 500

/-- A row as the phone is sent it, with the text its blob yields. -/
def remoteFile (row : FileRow) (arrives : Option Text) : RemoteFile where
  path := row.path.toList
  version := row.version
  deleted := row.deleted
  contentHash := row.contentHash.map String.toList
  blobId := row.blobID.map String.toList
  arrives

/-- A round and its store. -/
def Round.pulling {Seed : Type} (round : Round) (store : VaultStore Seed) : Pulling Seed :=
  ⟨store, round.since, round.fullPull, round.listed, round.failed⟩

/-- The round of a pull. -/
def Round.ofPulling {Seed : Type} (pulling : Pulling Seed) : Round :=
  ⟨pulling.since, pulling.fullPull, pulling.listed, pulling.failed⟩

/-! ## Steps -/

variable {Seed : Type}

/-- What recorded writes move away. -/
def leaves (phone : Phone Seed) : VaultStore Seed → List (PlannedWrite Seed) → List Path
  | _, [] => []
  | store, planned :: rest =>
    match store.recordOne phone planned with
    | none => []
    | some (after, _) =>
      (if planned.document.kind = .moveFile ∧ (store.content planned.document.path).isSome ∧
          after.content planned.document.path = none then [planned.document.path] else []) ++
        leaves phone after rest

inductive Move (Seed : Type)
  /-- A request or timer of the server that takes no file row away. -/
  | server (op : Op)
  | record (writes : List (PlannedWrite Seed))
  | sent (clientId : Text) (seq : ℕ)
  | refused (clientId : Text)
  | startPull
  | resolve
  | answer
  /-- A row of the page is taken; `arrives` is the text its blob yields, if one arrives that is right. -/
  | take (arrives : Option Text)
  | pageDone
  | readStates
  | prune
  /-- A request fails, and the round with it. -/
  | fail

/-- The vault after a request. -/
def serve (v : Vault) (op : Op) : Option Vault :=
  if op.creates = some v.id ∨ v.files.any (op.removes v) then none
  else ((⟨[v]⟩ : Plus.Store).after op).bind fun s => s.vaultByID v.id

/-- The acks after a request: one more where the mark moved. -/
def acksAfter (v w : Vault) (acks : List Ack) : List Ack :=
  if w.ackedThroughSeq = v.ackedThroughSeq then acks
  else acks ++ [⟨w.ackedThroughSeq, w.ackedAtVersion, v.files⟩]

/-- A row of the page is taken into the store. -/
def Link.take (phone : Phone Seed) (σ : Link Seed) (round : Round) (row : FileRow) (arrives : Option Text) :
    Link Seed × Round :=
  let after := takeRow phone (round.pulling σ.store) (remoteFile row arrives)
  ({ σ with
      store := after.store
      away := σ.away.filter fun path =>
        path ≠ row.path.toList ∨ after.store.contentHash path ≠ row.contentHash.map String.toList },
    Round.ofPulling after)

def Link.step (phone : Phone Seed) (σ : Link Seed) : Move Seed → Option (Link Seed)
  | .server op => (serve σ.vault op).map fun w =>
      { σ with
        vault := w
        written := σ.written ++ w.files.filter fun f => σ.vault.latestVersion < f.version
        acks := acksAfter σ.vault w σ.acks }
  | .record writes => (σ.store.record phone writes).map fun (store, _) =>
      { σ with store, away := σ.away ++ leaves phone σ.store writes }
  | .sent clientId seq =>
    match σ.stage with
    | .sending => some { σ with store := σ.store.markSent clientId seq }
    | _ => none
  | .refused clientId =>
    match σ.stage with
    | .sending => some { σ with store := σ.store.discard phone clientId }
    | _ => none
  | .startPull =>
    match σ.stage with
    | .sending =>
      let full := startsFull σ.store
      some { σ with stage := .asking ⟨if full then none else some σ.store.cursor, full, [], []⟩, listing := σ.vault }
    | _ => none
  | .resolve =>
    match σ.stage with
    | .asking round => some { σ with stage := .resolved round σ.vault }
    | _ => none
  | .answer =>
    match σ.stage with
    | .resolved round principal =>
      match handleFilesList principal σ.vault round.since pullLimit with
      | .cursorExpired => some { σ with stage := .asking { round with since := none, fullPull := true, listed := [] } }
      | .page page => some { σ with stage := .taking round page.files page.nextSince page.hasMore, listing := σ.vault }
    | _ => none
  | .take arrives =>
    match σ.stage with
    | .taking round (row :: rest) nextSince hasMore =>
      let (after, round) := σ.take phone round row arrives
      some { after with stage := .taking round rest nextSince hasMore }
    | _ => none
  | .pageDone =>
    match σ.stage with
    | .taking round [] nextSince hasMore =>
      let round := { round with since := some nextSince }
      if hasMore then some { σ with stage := .asking round }
      else some { σ with store := finishPull phone (round.pulling σ.store), stage := .pulled }
    | _ => none
  | .readStates =>
    match σ.stage with
    | .pulled => some { σ with stage := .told σ.vault.ackedThroughSeq σ.vault.ackedAtVersion }
    | _ => none
  | .prune =>
    match σ.stage with
    | .told ackedThroughSeq ackedAtVersion =>
      some { σ with store := σ.store.prune phone ackedThroughSeq ackedAtVersion, stage := .sending }
    | _ => none
  | .fail => some { σ with stage := .sending }

def Link.Next (phone : Phone Seed) (σ : Link Seed) (m : Move Seed) (τ : Link Seed) : Prop := σ.step phone m = some τ

/-- A vault just created and a phone just paired. -/
def Link.Opens (σ : Link Seed) : Prop :=
  ∃ v : Vault, v.Fresh ∧ v.ackedThroughSeq = 0 ∧ v.ackedAtVersion = 0 ∧ σ = { vault := v }

/-! ## What the phone holds -/

/-- The version a path had at an ack, 0 where it had no row. -/
def Ack.versionOf (ack : Ack) (path : Path) : ℕ :=
  ((ack.files.find? fun f => f.path.toList = path).map FileRow.version).getD 0

/-- The ack that covered a write: the first through its seq. -/
def Link.covering (σ : Link Seed) (write : PendingWrite Seed) : Option Ack :=
  σ.acks.find? fun ack => write.seq.any fun seq => decide (seq ≤ ack.through)

/-- The phone's copy of a path is that of a row written at a version or later: its snapshot where the row is a
file's, none where it is a deletion. -/
def Link.Holds (σ : Link Seed) (path : Path) (version : ℕ) : Prop :=
  ∃ row ∈ σ.written, row.path.toList = path ∧ version ≤ row.version ∧
    σ.store.contentHash path = row.contentHash.map String.toList ∧
    (σ.store.snapshot path).isSome = row.contentHash.isSome

instance (σ : Link Seed) (path : Path) (version : ℕ) : Decidable (σ.Holds path version) :=
  inferInstanceAs (Decidable (∃ row ∈ σ.written, _))

/-- Whether a path has a picture's extension. -/
def isPicture (phone : Phone Seed) (path : Path) : Bool :=
  (wellFormedExtension phone path).any fun extension => decide (extension ∈ SyncCore.imageExtensions)

theorem isPicture_of_syncable {phone : Phone Seed} {path imagesDir : Path}
    (h : isSyncableImagePath phone path imagesDir = true) : isPicture phone path = true := by
  unfold isSyncableImagePath at h
  simp only at h
  split at h
  · cases h
  · exact h

/-! ## The server's side -/

/-- What a request makes of the vault. -/
theorem serve_some {v w : Vault} {op : Op} (h : serve v op = some w) :
    v.Applied op w ∧ w.id = v.id ∧ ∀ f ∈ v.files, op.removes v f = false := by
  unfold serve at h
  split at h
  · cases h
  next hkeeps =>
    obtain ⟨s, hafter, hfound⟩ := Option.bind_eq_some_iff.mp h
    obtain ⟨blobs, hstep⟩ := Plus.Store.after_next _ op s hafter
    obtain ⟨hw, hid⟩ := Plus.Store.vaultByID_some hfound
    refine ⟨?_, hid, fun f hf => ?_⟩
    · rcases Plus.Store.step_applied hstep hw with ⟨⟨_, _, _, _, _, hop, -⟩, -⟩ | ⟨u, hu, -, happlied⟩
      · exact absurd (Or.inl (by rw [hop, ← hid]; rfl)) hkeeps
      · rwa [List.mem_singleton.mp hu] at happlied
    · cases hremoved : op.removes v f with
      | false => rfl
      | true => exact absurd (Or.inr (List.any_eq_true.mpr ⟨f, hf, hremoved⟩)) hkeeps

/-- A request moves the mark only by an ack, which records the version counter and leaves the files alone. -/
theorem applied_mark {v w : Vault} {op : Op} (h : v.Applied op w) :
    (w.ackedThroughSeq = v.ackedThroughSeq ∧ w.ackedAtVersion = v.ackedAtVersion) ∨
      (v.ackedThroughSeq < w.ackedThroughSeq ∧ w.ackedAtVersion = v.latestVersion ∧ w.files = v.files ∧
        w.latestVersion = v.latestVersion) := by
  cases h with
  | untouched => exact Or.inl ⟨rfl, rfl⟩
  | ensured => exact Or.inl ⟨rfl, rfl⟩
  | begun ok =>
    obtain ⟨-, -, rfl⟩ := Plus.Vault.beginUpload_ok ok
    exact Or.inl ⟨rfl, rfl⟩
  | committed ok =>
    rcases Plus.Vault.commitUpload_ok ok with ⟨rfl, -⟩ | ⟨p, -, -, -, -, -, rfl, -⟩
    · exact Or.inl ⟨rfl, rfl⟩
    · exact Or.inl ⟨rfl, rfl⟩
  | tombstoned ok =>
    rcases Plus.Vault.tombstoneFile_ok ok with ⟨rfl, -⟩ | ⟨-, -, -, rfl, -⟩
    · exact Or.inl ⟨rfl, rfl⟩
    · exact Or.inl ⟨rfl, rfl⟩
  | wiped => exact Or.inl ⟨rfl, rfl⟩
  | lapsed => exact Or.inl ⟨rfl, rfl⟩
  | @queued row =>
    rcases v.enqueueWrite_cases row with ⟨kept, -, -, hsame⟩ | ⟨-, hadded⟩
    · rw [hsame]
      exact Or.inl ⟨rfl, rfl⟩
    · rw [hadded]
      exact Or.inl ⟨rfl, rfl⟩
  | acked ok =>
    obtain ⟨-, ⟨-, rfl, -⟩ | ⟨habove, -, rfl⟩⟩ := Plus.Vault.ackWrites_ok ok
    · exact Or.inl ⟨rfl, rfl⟩
    · exact Or.inr ⟨habove, rfl, rfl, rfl⟩
  | swept => exact Or.inl ⟨rfl, rfl⟩

/-- A row as the server writes it: a file's has a hash and a blob, a deletion's has no hash. -/
def Shaped (row : FileRow) : Prop :=
  if row.deleted then row.contentHash = none else row.contentHash.isSome ∧ row.blobID.isSome

/-- A row of the table after a change is an old one, or is new and written as rows are. -/
theorem change_files {v w : Vault} {op : Op} (h : v.Change op w) {f : FileRow} (hf : f ∈ w.files) :
    f ∈ v.files ∨ (v.latestVersion < f.version ∧ Shaped f) := by
  cases h with
  | kept same => exact Or.inl (same.files ▸ hf)
  | begun => exact Or.inl hf
  | published pending quota =>
    rcases Plus.mem_upsertFile.mp hf with rfl | ⟨hold, -⟩
    · exact Or.inr ⟨Nat.lt_succ_self _, rfl, rfl⟩
    · exact Or.inl hold
  | tombstoned live known =>
    rcases Plus.mem_upsertFile.mp hf with rfl | ⟨hold, -⟩
    · exact Or.inr ⟨Nat.lt_succ_self _, rfl⟩
    · exact Or.inl hold
  | wiped => exact absurd hf List.not_mem_nil
  | swept => exact Or.inl (List.mem_filter.mp hf).1

end Thock.Sync
