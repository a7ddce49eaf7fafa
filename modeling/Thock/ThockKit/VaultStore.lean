import Mathlib.Data.List.Dedup
import Mathlib.Data.List.Sort
import Thock.Lib.Table
import Thock.ThockKit.Apply

/-!
# The phone's store

The phone's copy of the vault: a row per note with the desk's last snapshot of it and the text
it shows, and the queue of writes the desk has not applied yet. Every change from the desk
rebuilds the rows it names from a snapshot and the writes waiting for that path.

Captures, questions, the watch and the search index are left out, and so is what the rows of
the queue are numbered by: they stand in the order they were made. Expanding a template is a
parameter.
-/

namespace Thock.ThockKit

open TextScan
open SyncCore (Primitives Outcome)

abbrev Path := Text

abbrev Bytes := List UInt8

/-- What the store asks of the platform and of the templates; `Seed` names the template a note is made from. -/
structure Phone (Seed : Type) where
  prim : Primitives
  isNfc : Text → Bool
  decodeBase64 : Text → Option Bytes
  imagesDir : (Path → Option Text) → Text
  expandSeed : (Path → Option Text) → Seed → Option Text

structure FileRow where
  version : ℕ
  snapshot : Option Text
  content : Text
  contentHash : Option Text
  blobId : Option Text
deriving DecidableEq, Repr

/-- A write waiting for the desk; `seq` is set once the server has it. -/
structure PendingWrite (Seed : Type) where
  document : WriteDocument
  baseVersion : ℕ
  seed : Option Seed
  seq : Option ℕ

structure PlannedWrite (Seed : Type) where
  document : WriteDocument
  seed : Option Seed

structure VaultStore (Seed : Type) where
  files : Table Path FileRow
  pendingWrites : List (PendingWrite Seed)
  blobs : Table Path (Bytes × Text)
  cursor : ℕ
  refetchPaths : List Path

namespace VaultStore

variable {Seed : Type}

def empty : VaultStore Seed := ⟨[], [], [], 0, []⟩

def content (store : VaultStore Seed) (path : Path) : Option Text := (store.files.get path).map FileRow.content

def version (store : VaultStore Seed) (path : Path) : ℕ := ((store.files.get path).map FileRow.version).getD 0

def contentHash (store : VaultStore Seed) (path : Path) : Option Text := (store.files.get path).bind FileRow.contentHash

/-- Every path held, in order. -/
def paths (store : VaultStore Seed) : List Path :=
  ((store.files.map Prod.fst).dedup).insertionSort (· ≤ ·)

/-- The waiting writes that read back as ones the phone may use. -/
def pending (store : VaultStore Seed) : List (PendingWrite Seed) :=
  store.pendingWrites.filter fun write => write.document.validate

def pendingAt (store : VaultStore Seed) (path : Path) : List (PendingWrite Seed) :=
  store.pending.filter fun write => write.document.path = path

def seedText (phone : Phone Seed) (store : VaultStore Seed) (seed : Option Seed) : Option Text :=
  seed.bind (phone.expandSeed store.content)

/-! ## Writes -/

/-- Queue a write; a client id stands in the queue once. -/
def queue (store : VaultStore Seed) (write : PendingWrite Seed) : Option (VaultStore Seed) :=
  if store.pendingWrites.any fun other => other.document.clientId = write.document.clientId then none
  else some { store with pendingWrites := store.pendingWrites ++ [write] }

/-- A move on the local copy: the note takes its new path at once. -/
def renameFile (store : VaultStore Seed) (document : WriteDocument) : Option (VaultStore Seed × Outcome) :=
  match document.toPath, store.content document.path with
  | some to_, some source =>
    if (store.content to_).isSome then some (store, .noop)
    else
      let files := (store.files.put to_ ⟨0, none, source, none, none⟩).erase document.path
      (({ store with files } : VaultStore Seed).queue ⟨document, store.version document.path, none, none⟩).map
        fun store => (store, .applied)
  | _, _ => some (store, .noop)

/-- A picture is kept beside the notes and queued once. -/
def storeBlob (phone : Phone Seed) (store : VaultStore Seed) (document : WriteDocument) :
    Option (VaultStore Seed × Outcome) :=
  match document.contentBase64.bind phone.decodeBase64, document.contentHash with
  | some bytes, some hash =>
    if (store.blobs.get document.path).isSome then some (store, .noop)
    else (({ store with blobs := store.blobs.put document.path (bytes, hash) } : VaultStore Seed).queue
      ⟨document, 0, none, none⟩).map fun store => (store, .applied)
  | _, _ => some (store, .noop)

/-- A write on the text of a note, dropped when its effect is already there. -/
def editFile (phone : Phone Seed) (store : VaultStore Seed) (planned : PlannedWrite Seed) :
    Option (VaultStore Seed × Outcome) :=
  let document := planned.document
  let applied := apply phone.prim (store.content document.path) document (store.seedText phone planned.seed)
  if applied.outcome = .noop then some (store, .noop)
  else
    let row := match store.files.get document.path with
      | some row => { row with content := applied.text }
      | none => ⟨0, none, applied.text, none, none⟩
    (({ store with files := store.files.put document.path row } : VaultStore Seed).queue
      ⟨document, store.version document.path, planned.seed, none⟩).map fun store => (store, applied.outcome)

def recordOne (phone : Phone Seed) (store : VaultStore Seed) (planned : PlannedWrite Seed) :
    Option (VaultStore Seed × Outcome) :=
  if planned.document.kind = .moveFile then store.renameFile planned.document
  else if planned.document.kind = .putFile then store.storeBlob phone planned.document
  else store.editFile phone planned

/-- Apply writes to the local copy and queue them for the desk: all of them, or none when one cannot be queued. -/
def record (phone : Phone Seed) : VaultStore Seed → List (PlannedWrite Seed) → Option (VaultStore Seed × List Outcome)
  | store, [] => some (store, [])
  | store, planned :: rest =>
    (store.recordOne phone planned).bind fun (store, outcome) =>
      (record phone store rest).map fun (store, outcomes) => (store, outcome :: outcomes)

def markSent (store : VaultStore Seed) (clientId : Text) (seq : ℕ) : VaultStore Seed :=
  { store with
    pendingWrites := store.pendingWrites.map fun write =>
      if write.document.clientId = clientId then { write with seq := some seq } else write }

/-! ## From the desk -/

/-- A snapshot with the writes waiting for its path on top. -/
def rebased (phone : Phone Seed) (store : VaultStore Seed) (snapshot : Option Text) (path : Path) : Option Text :=
  (store.pendingAt path).foldl (fun content write =>
    let applied := apply phone.prim content write.document (store.seedText phone write.seed)
    if content = none ∧ applied.outcome = .noop then content else some applied.text) snapshot

/-- Rebuild the row of a path from a snapshot. -/
def rebuild (phone : Phone Seed) (store : VaultStore Seed) (path : Path) (version : ℕ) (snapshot : Option Text)
    (contentHash blobId : Option Text) : VaultStore Seed :=
  match store.rebased phone snapshot path with
  | none => { store with files := store.files.erase path }
  | some content => { store with files := store.files.put path ⟨version, snapshot, content, contentHash, blobId⟩ }

/-- Rebuild the row of a path from the snapshot it holds. -/
def rebuildHeld (phone : Phone Seed) (store : VaultStore Seed) (path : Path) : VaultStore Seed :=
  let row := store.files.get path
  store.rebuild phone path ((row.map FileRow.version).getD 0) (row.bind FileRow.snapshot)
    (row.bind FileRow.contentHash) (row.bind FileRow.blobId)

/-- Drop a write the service will never accept. -/
def discard (phone : Phone Seed) (store : VaultStore Seed) (clientId : Text) : VaultStore Seed :=
  match store.pendingWrites.find? fun write => write.document.clientId = clientId with
  | none => store
  | some write =>
    let pendingWrites := store.pendingWrites.filter fun write => write.document.clientId ≠ clientId
    rebuildHeld phone { store with pendingWrites } write.document.path

def applySnapshot (phone : Phone Seed) (store : VaultStore Seed) (path : Path) (version : ℕ) (content : Text)
    (contentHash blobId : Text) : VaultStore Seed :=
  store.rebuild phone path version (some content) (some contentHash) (some blobId)

def applyTombstone (phone : Phone Seed) (store : VaultStore Seed) (path : Path) (version : ℕ) : VaultStore Seed :=
  store.rebuild phone path version none none none

/-- After a full pull: what the desk does not list goes, unless a write is waiting for it. -/
def removeFiles (phone : Phone Seed) (store : VaultStore Seed) (listed : List Path) : VaultStore Seed :=
  let waiting := store.pending.map fun write => write.document.path
  (store.paths.filter fun path => path ∉ listed).foldl (fun store path =>
    if path ∈ waiting then store.rebuild phone path 0 none none none
    else { store with files := store.files.erase path }) store

/-- Whether the desk has applied a write up to a sequence number. -/
def ackedThrough (write : PendingWrite Seed) (seq : ℕ) : Bool := write.seq.any fun sent => sent ≤ seq

/-- The paths of the writes an ack covers, those whose snapshot did not arrive left out. -/
def acked (store : VaultStore Seed) (seq : ℕ) : List Path :=
  (((store.pendingWrites.filter fun write => ackedThrough write seq).map
    fun write => write.document.path).dedup).filter fun path => path ∉ store.refetchPaths

/-- The queue once an ack is taken in. -/
def unacked (store : VaultStore Seed) (seq : ℕ) : List (PendingWrite Seed) :=
  store.pendingWrites.filter fun write =>
    !(ackedThrough write seq && decide (write.document.path ∈ store.acked seq))

/-- Drop the writes the desk has applied, once the phone has pulled past the version it acked at. -/
def prune (phone : Phone Seed) (store : VaultStore Seed) (ackedThroughSeq ackedAtVersion : ℕ) : VaultStore Seed :=
  if ¬ackedAtVersion ≤ store.cursor then store
  else (store.acked ackedThroughSeq).foldl (rebuildHeld phone)
    { store with pendingWrites := store.unacked ackedThroughSeq }

/-! ## What a rebuild leaves -/

@[simp] theorem rebuild_pendingWrites (phone : Phone Seed) (store : VaultStore Seed) (path : Path) (version : ℕ)
    (snapshot contentHash blobId : Option Text) :
    (store.rebuild phone path version snapshot contentHash blobId).pendingWrites = store.pendingWrites := by
  unfold rebuild
  split <;> rfl

/-- A rebuilt path shows the rebased snapshot, and every other path what it showed. -/
theorem content_rebuild (phone : Phone Seed) (store : VaultStore Seed) (path : Path) (version : ℕ)
    (snapshot contentHash blobId : Option Text) (other : Path) :
    (store.rebuild phone path version snapshot contentHash blobId).content other =
      if other = path then store.rebased phone snapshot path else store.content other := by
  unfold rebuild
  cases hrebased : store.rebased phone snapshot path with
  | none =>
    simp only [content, Table.get_erase]
    split <;> rfl
  | some text =>
    simp only [content, Table.get_put]
    split <;> rfl

end VaultStore

/-- Whether a waiting write edits the text of its note. -/
def PendingWrite.isText {Seed : Type} (write : PendingWrite Seed) : Bool :=
  write.document.kind != .moveFile && write.document.kind != .putFile

namespace VaultStore

variable {Seed : Type}

/-- Whether a text write waits for a path. -/
def awaits (store : VaultStore Seed) (path : Path) : Bool := (store.pendingAt path).any PendingWrite.isText

/-- A rebase has a text exactly where there is a snapshot or a text write waits. -/
theorem rebased_isSome (phone : Phone Seed) (store : VaultStore Seed) (snapshot : Option Text) (path : Path) :
    (store.rebased phone snapshot path).isSome = (snapshot.isSome || store.awaits path) := by
  unfold rebased awaits
  induction store.pendingAt path generalizing snapshot with
  | nil => simp
  | cons write rest ih =>
    rw [List.foldl_cons, ih, List.any_cons]
    cases snapshot with
    | some text => simp
    | none =>
      cases htext : write.isText with
      | true =>
        have hkind : write.document.kind ≠ .moveFile ∧ write.document.kind ≠ .putFile := by
          simpa [PendingWrite.isText] using htext
        simp [apply_none_outcome _ _ _ hkind]
      | false =>
        have hkind : write.document.kind = .moveFile ∨ write.document.kind = .putFile := by
          simp only [PendingWrite.isText, Bool.and_eq_false_iff, bne_eq_false_iff_eq] at htext
          exact htext
        simp [apply, hkind]

end VaultStore

end Thock.ThockKit
