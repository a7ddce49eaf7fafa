import Thock.Lib.Transition
import Thock.SyncCore.Paths
import Thock.ThockKit.VaultStore

/-!
# The phone's sync engine

A round of the phone: unsent writes are posted, or dropped where the service refuses them for
good; the desk's changes are pulled page by page; and writes the desk acked are pruned. A pull
that fails keeps what it took so far and leaves the cursor where it was.

The service is what it answers. Downloading, checking and opening a blob is one answer: the text
that arrived, or none. What the engine shows of its state, the feed and the pairing are left out.
-/

namespace Thock.ThockKit

open TextScan Transition

/-! ## Pictures -/

/-- The extension of a path that passes every rule but the allow-list, in lower case. -/
def wellFormedExtension {Seed : Type} (phone : Phone Seed) (path : Path) : Option Text :=
  if path.isEmpty ∨ SyncCore.utf8Length path > 1024 ∨ ¬phone.isNfc path then none
  else if '\\' ∈ path ∨ path.any SyncCore.isControl then none
  else
    let segments := path.splitOn '/'
    if segments.any fun segment => segment.isEmpty || segment = ['.'] || segment = ['.', '.'] then none
    else match segments.getLast?.bind (splitLast ['.']) with
      | none => none
      | some (stem, extension) =>
        if stem.isEmpty then none
        else if SyncCore.excludedPrefixes.any fun folder => folder.isPrefixOf path then none
        else some (phone.prim.lowercase extension)

/-- Whether a path is a picture that syncs as bytes. -/
def isSyncableImagePath {Seed : Type} (phone : Phone Seed) (path imagesDir : Path) : Bool :=
  let folder := trimmingCharacters (· = '/') imagesDir
  if folder.isEmpty || !(folder ++ ['/']).isPrefixOf path then false
  else (wellFormedExtension phone path).any fun extension => decide (extension ∈ SyncCore.imageExtensions)

/-! ## Pulls -/

/-- A row of the service's list; `arrives` is the text its blob yields, if one arrives that is right. -/
structure RemoteFile where
  path : Path
  version : ℕ
  deleted : Bool
  contentHash : Option Text
  blobId : Option Text
  arrives : Option Text
deriving DecidableEq, Repr

/-- What the service answers when it is asked for a page. -/
inductive Answer
  | page (files : List RemoteFile) (nextSince : Option ℕ) (hasMore : Bool)
  | cursorExpired
  | failed
deriving DecidableEq, Repr

/-- A pull under way. -/
structure Pulling (Seed : Type) where
  store : VaultStore Seed
  since : Option ℕ
  fullPull : Bool
  listed : List Path
  failed : List Path

variable {Seed : Type}

/-- Take one row of a page. -/
def takeRow (phone : Phone Seed) (pulling : Pulling Seed) (row : RemoteFile) : Pulling Seed :=
  let store := pulling.store
  if row.deleted then { pulling with store := store.applyTombstone phone row.path row.version }
  else
    let pulling := { pulling with listed := row.path :: pulling.listed }
    if isSyncableImagePath phone row.path (phone.imagesDir store.content) then pulling
    else match row.contentHash, row.blobId with
      | some hash, some blobId =>
        if store.contentHash row.path = some hash then pulling
        else match row.arrives with
          | none => { pulling with failed := row.path :: pulling.failed }
          | some text =>
            { pulling with store := store.applySnapshot phone row.path row.version text hash blobId }
      | _, _ => pulling

/-- Ask for pages until there are no more; whether the last one came, too. -/
def takePages (phone : Phone Seed) : Pulling Seed → List Answer → Pulling Seed × Bool
  | pulling, [] => (pulling, false)
  | pulling, .failed :: _ => (pulling, false)
  | pulling, .cursorExpired :: rest =>
    takePages phone { pulling with since := none, fullPull := true, listed := [] } rest
  | pulling, .page files nextSince hasMore :: rest =>
    let pulling := files.foldl (takeRow phone) pulling
    let since := (nextSince.or ((files.map RemoteFile.version).max?)).or pulling.since
    let pulling := { pulling with since := some (since.getD 0) }
    if hasMore then takePages phone pulling rest else (pulling, true)

/-- Whether a store's next pull asks for everything. -/
def startsFull (store : VaultStore Seed) : Bool := !(decide (0 < store.cursor) && store.refetchPaths.isEmpty)

/-- The end of a pull whose last page came: what a full pull does not list goes, and the cursor moves. -/
def finishPull (phone : Phone Seed) (pulling : Pulling Seed) : VaultStore Seed :=
  let store := if pulling.fullPull then pulling.store.removeFiles phone pulling.listed else pulling.store
  { store with cursor := pulling.since.getD 0, refetchPaths := pulling.failed }

/-- A pull before its first page. -/
def startPull (store : VaultStore Seed) : Pulling Seed :=
  ⟨store, if startsFull store then none else some store.cursor, startsFull store, [], []⟩

/-- Pull what changed, or with no cursor everything. -/
def pull (phone : Phone Seed) (store : VaultStore Seed) (answers : List Answer) : VaultStore Seed :=
  let taken := takePages phone (startPull store) answers
  if taken.2 then finishPull phone taken.1 else taken.1.store

/-! ## Steps -/

/-- What changes the phone's store: the person's own writes, and the parts of a round. -/
inductive Action (Seed : Type)
  | record (writes : List (PlannedWrite Seed))
  | sent (clientId : Text) (seq : ℕ)
  | refused (clientId : Text)
  | pull (answers : List Answer)
  | prune (ackedThroughSeq ackedAtVersion : ℕ)

def step (phone : Phone Seed) (store : VaultStore Seed) : Action Seed → VaultStore Seed
  | .record writes => ((store.record phone writes).map Prod.fst).getD store
  | .sent clientId seq => store.markSent clientId seq
  | .refused clientId => store.discard phone clientId
  | .pull answers => pull phone store answers
  | .prune ackedThroughSeq ackedAtVersion => store.prune phone ackedThroughSeq ackedAtVersion

def next (phone : Phone Seed) (store : VaultStore Seed) (action : Action Seed) (after : VaultStore Seed) : Prop :=
  after = step phone store action

/-- A store the phone gets to from an empty one. -/
def Reached (phone : Phone Seed) (store : VaultStore Seed) : Prop :=
  Reachable (next phone) (fun store => store = .empty) store

end Thock.ThockKit
