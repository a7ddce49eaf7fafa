import Thock.Lib.Table
import Thock.Lib.Transition
import Thock.SyncCore.Apply
import Thock.SyncCore.Paths

/-!
# The desk's vault sync

The worker that keeps the server's copy of a vault in step with the desk: a pass scans for
what changed, drains the phone's queued writes into the vault, uploads what is dirty,
tombstones what is gone and only then acks the writes. A pass is taken in its own steps, so
that watcher events fall between them and any call to the server may fail.

The server is what the desk sees of it: a row per path with a version and, unless it is a
tombstone, the content, and the writes not acked yet. Sealing, the digest, base64, template
expansion and path normal form are parameters. What the status row and the toasts show, blob
ids, and the cursor, which nothing on the desk reads, are left out.
-/

namespace Thock.Desk.VaultSync

open TextScan SyncCore Transition

abbrev Path := Text

abbrev Bytes := List UInt8

/-- The files on disk. -/
abbrev Disk := Table Path Bytes

/-- Plaintext files above this many bytes never leave the desk. -/
def maxFileBytes : ℕ := 2 * 1024 * 1024

/-- Where the phone may move a file to. -/
def phoneMoveDestinations : List Text := ["archives/inbox/".toList]

/-- A queued write as the server hands it out. -/
structure WriteRow where
  seq : ℕ
  path : Path
  clientId : Text
  payload : Text
deriving DecidableEq, Repr

/-- Why a phone write was not applied: it is unreadable or not one the desk accepts, the vault could
not be read or written, or it is from a newer phone. -/
inductive ApplyFailure
  | refused
  | vault
  | unsupported
deriving DecidableEq, Repr

/-- What the worker asks of the platform. `openPayload` decrypts, parses and checks a sealed write. -/
structure Platform where
  prim : Primitives
  isNfc : Text → Bool
  plaintextHash : Bytes → Text
  decodeBase64 : Text → Option Bytes
  openPayload : (clientId payload : Text) → Except ApplyFailure Write
  templateSeed : Disk → Path → Option Text
  imagesDir : Text

def Platform.isSyncable (pf : Platform) (path : Path) : Bool := isSyncablePath pf.isNfc path

def Platform.isImage (pf : Platform) (path : Path) : Bool := isSyncableImagePath pf.isNfc pf.imagesDir path

def decodeUtf8 (bytes : Bytes) : Option Text := (String.fromUTF8? ⟨bytes.toArray⟩).map String.toList

def encodeUtf8 (text : Text) : Bytes := (String.ofList text).toUTF8.toList

/-! ## Jobs and records -/

/-- One pass of the worker: what it must look at. -/
structure Job where
  catchUp : Bool := false
  drain : Bool := false
  dirty : List Path := []
  removed : List Path := []
deriving DecidableEq, Repr

def Job.isEmpty (job : Job) : Bool := !job.catchUp && !job.drain && job.dirty.isEmpty && job.removed.isEmpty

/-- The work of two jobs. -/
def Job.extend (pending job : Job) : Job :=
  { catchUp := pending.catchUp || job.catchUp
    drain := pending.drain || job.drain
    dirty := pending.dirty ++ job.dirty
    removed := pending.removed ++ job.removed }

structure FileRecord where
  version : ℕ
  plaintextHash : Text
deriving DecidableEq, Repr

/-- What the desk knows the server to have. -/
structure LocalState where
  ackedThroughSeq : ℕ := 0
  files : Table Path FileRecord := []
deriving DecidableEq, Repr

/-! ## The server -/

/-- The server's row of a path; a tombstone has no content. -/
structure ServerRow where
  version : ℕ
  content : Option Bytes
deriving DecidableEq, Repr

structure Server where
  rows : Table Path ServerRow := []
  latestVersion : ℕ := 0
  /-- The writes not acked, in seq order. -/
  writes : List WriteRow := []
  latestSeq : ℕ := 0
  ackedThroughSeq : ℕ := 0
deriving DecidableEq, Repr

/-- The content the server has for a path. -/
def Server.content (server : Server) (path : Path) : Option Bytes := (server.rows.get path).bind ServerRow.content

def Server.currentVersion (server : Server) (path : Path) : ℕ := ((server.rows.get path).map ServerRow.version).getD 0

/-- Why a call fails whatever it asks: the subscription lapsed, the credential or the vault is gone,
or anything that a later try may get past. -/
inductive Outage
  | lapsed
  | stopped
  | other
deriving DecidableEq, Repr

/-- What the worker is told of a call that did not go through. -/
inductive ErrorCode
  | staleVersion (current : ℕ)
  | notFound
  | outage (cause : Outage)
deriving DecidableEq, Repr

/-- What becomes of a call: it is answered, it fails before it has an effect, or its answer is lost
on the way back. -/
inductive Fate
  | answered
  | failed (cause : Outage)
  | unanswered
deriving DecidableEq, Repr

/-- A call under its fate. -/
def call {α : Type} (fate : Fate) (effect : Server → Except ErrorCode (Server × α)) (server : Server) :
    Server × Except ErrorCode α :=
  match fate, effect server with
  | .failed cause, _ => (server, .error (.outage cause))
  | .answered, .ok (after, answer) => (after, .ok answer)
  | .answered, .error code => (server, .error code)
  | .unanswered, .ok (after, _) => (after, .error (.outage .other))
  | .unanswered, .error _ => (server, .error (.outage .other))

/-- A begun upload records nothing about the path; its version is checked. -/
def Server.beginUpload (path : Path) (expected : ℕ) (server : Server) : Except ErrorCode (Server × Unit) :=
  if server.currentVersion path ≠ expected then .error (.staleVersion (server.currentVersion path))
  else .ok (server, ())

def Server.commit (path : Path) (expected : ℕ) (bytes : Bytes) (server : Server) : Except ErrorCode (Server × ℕ) :=
  if server.currentVersion path ≠ expected then .error (.staleVersion (server.currentVersion path))
  else
    let version := server.latestVersion + 1
    .ok ({ server with rows := server.rows.put path ⟨version, some bytes⟩, latestVersion := version }, version)

def Server.tombstone (path : Path) (expected : ℕ) (server : Server) : Except ErrorCode (Server × ℕ) :=
  match server.rows.get path with
  | none => .error .notFound
  | some row =>
    match row.content with
    | none => .ok (server, row.version)
    | some _ =>
      if row.version ≠ expected then .error (.staleVersion row.version)
      else
        let version := server.latestVersion + 1
        .ok ({ server with rows := server.rows.put path ⟨version, none⟩, latestVersion := version }, version)

def Server.ack (through : ℕ) (server : Server) : Except ErrorCode (Server × ℕ) :=
  if through > server.latestSeq then .error .notFound
  else if through ≤ server.ackedThroughSeq then .ok (server, server.ackedThroughSeq)
  else
    .ok ({ server with
            writes := server.writes.filter fun row => through < row.seq
            ackedThroughSeq := through }, through)

/-- The fate of the call an operation makes at an index. -/
def fateAt (fates : List Fate) (index : ℕ) : Fate := fates[index]?.getD .answered

/-- Publish one file: begin, put, commit. A stale version is taken from the server and tried once
more; `attempts` counts down from two. -/
def uploadFile (path : Path) (bytes : Bytes) : ℕ → ℕ → List Fate → Server → Server × Except ErrorCode ℕ
  | 0, _, _, server => (server, .error (.outage .other))
  | attempts + 1, expected, fates, server =>
    match call (fateAt fates 0) (Server.beginUpload path expected) server with
    | (server, .error (.staleVersion current)) =>
      if attempts = 1 then uploadFile path bytes attempts current (fates.drop 1) server
      else (server, .error (.staleVersion current))
    | (server, .error code) => (server, .error code)
    | (server, .ok ()) =>
      match fateAt fates 1 with
      | .failed cause => (server, .error (.outage cause))
      | .unanswered => (server, .error (.outage .other))
      | .answered =>
        match call (fateAt fates 2) (Server.commit path expected bytes) server with
        | (server, .ok version) => (server, .ok version)
        | (server, .error (.staleVersion current)) =>
          if attempts = 1 then uploadFile path bytes attempts current (fates.drop 3) server
          else (server, .error (.staleVersion current))
        | (server, .error code) => (server, .error code)

/-- A tombstone call, made once more at the server's version when the desk's is stale. -/
def tombstoneAttempt (path : Path) (version : ℕ) (fates : List Fate) (server : Server) :
    Server × Except ErrorCode ℕ :=
  match call (fateAt fates 0) (Server.tombstone path version) server with
  | (server, .error (.staleVersion current)) => call (fateAt fates 1) (Server.tombstone path current) server
  | attempt => attempt

/-- Tombstone a path; one the server does not have counts as done. -/
def tombstonePath (path : Path) (version : ℕ) (fates : List Fate) (server : Server) :
    Server × Except ErrorCode ℕ :=
  match tombstoneAttempt path version fates server with
  | (server, .error .notFound) => (server, .ok version)
  | attempt => attempt

/-! ## Applying queued writes -/

/-- What applying a write did on disk: the file to upload, and the path a move left empty. -/
structure AppliedWrite where
  changed : Option Path := none
  removed : Option Path := none
deriving DecidableEq, Repr

def openWrite (pf : Platform) (row : WriteRow) : Except ApplyFailure Write :=
  match pf.openPayload row.clientId row.payload with
  | .error failure => .error failure
  | .ok write =>
    if write.path ≠ row.path ∨ write.clientId ≠ row.clientId then .error .refused
    else if !pf.isSyncable write.path && !pf.isImage write.path then .error .refused
    else .ok write

/-- A picture from the phone: checked against its hash, and written only where nothing is. -/
def applyPutFile (pf : Platform) (disk : Disk) (write : Write) (contentBase64 contentHash : Text) :
    Except ApplyFailure (Disk × AppliedWrite) :=
  if !pf.isImage write.path then .error .refused
  else match pf.decodeBase64 (trim contentBase64) with
    | none => .error .refused
    | some bytes =>
      if bytes.length > maxFileBytes then .error .refused
      else if pf.plaintextHash bytes ≠ contentHash then .error .refused
      else match disk.get write.path with
        | some _ => .ok (disk, {})
        | none => .ok (disk.put write.path bytes, { changed := some write.path })

/-- A rename from the phone: into the inbox archive only, never over a file, never from none. -/
def applyMoveFile (pf : Platform) (disk : Disk) (write : Write) (to_ : Path) :
    Except ApplyFailure (Disk × AppliedWrite) :=
  if !pf.isSyncable to_ || !phoneMoveDestinations.any fun folder => folder.isPrefixOf to_ then .error .refused
  else match disk.get write.path, disk.get to_ with
    | none, _ => .ok (disk, {})
    | some _, some _ => .ok (disk, {})
    | some bytes, none =>
      .ok ((disk.erase write.path).put to_ bytes, { changed := some to_, removed := some write.path })

/-- A write to a note's text. -/
def applyOpenedWrite (pf : Platform) (disk : Disk) (write : Write) (existing : Option Text) : Disk × AppliedWrite :=
  let seed := if existing.isNone && write.operation.createFromTemplate then pf.templateSeed disk write.path else none
  let applied := apply pf.prim existing write seed
  if applied.outcome = .noop ∨ existing = some applied.text then (disk, {})
  else (disk.put write.path (encodeUtf8 applied.text), { changed := some write.path })

/-- Apply one queued write to the files on disk. -/
def applyWrite (pf : Platform) (disk : Disk) (row : WriteRow) : Except ApplyFailure (Disk × AppliedWrite) :=
  match openWrite pf row with
  | .error failure => .error failure
  | .ok write =>
    match write.operation with
    | .putFile contentBase64 contentHash => applyPutFile pf disk write contentBase64 contentHash
    | .moveFile to_ => applyMoveFile pf disk write to_
    | _ =>
      match disk.get write.path with
      | none => .ok (applyOpenedWrite pf disk write none)
      | some bytes =>
        match decodeUtf8 bytes with
        | none => .error .refused
        | some text => .ok (applyOpenedWrite pf disk write (some text))

/-- What a queued write left on disk that the server has not had since: the content of a changed
file, nothing for a vacated path. -/
structure Owed where
  seq : ℕ
  path : Path
  content : Option Bytes
deriving DecidableEq, Repr

/-- Record what a write left at a path; what was owed for the path before is owed as it stands now. -/
def owe (seq : ℕ) (path : Path) (content : Option Bytes) (owed : List Owed) : List Owed :=
  (owed.map fun o => if o.path = path then { o with content } else o) ++ [⟨seq, path, content⟩]

/-- Record what a write left at the path it marks, if it marks one. -/
def oweAt (seq : ℕ) (disk : Disk) (path : Option Path) (owed : List Owed) : List Owed :=
  path.elim owed fun path => owe seq path (disk.get path) owed

/-- What the server has is owed no longer. -/
def settle (server : Server) (owed : List Owed) : List Owed :=
  owed.filter fun o => server.content o.path ≠ o.content

/-- A batch on its way into the vault. -/
structure Drained where
  disk : Disk
  owed : List Owed
  changed : List Path := []
  vacated : List Path := []
  last : Option ℕ := none
  blocked : Bool := false
deriving DecidableEq, Repr

/-- One applied write's marks on the batch. -/
def Drained.record (d : Drained) (seq : ℕ) (disk : Disk) (result : AppliedWrite) : Drained :=
  { d with
    disk
    owed := oweAt seq disk result.removed (oweAt seq disk result.changed d.owed)
    changed := d.changed ++ result.changed.toList
    vacated := d.vacated ++ result.removed.toList
    last := some (d.last.elim seq (max seq)) }

/-- Apply rows in order; `faulty` says where the file system fails. A refused write is passed over,
a blocked one ends the batch. -/
def drainRows (pf : Platform) (faulty : ℕ → Bool) : List WriteRow → Drained → Drained
  | [], d => d
  | row :: rest, d =>
    match applyWrite pf d.disk row with
    | .ok (disk, result) =>
      if faulty row.seq then { d with blocked := true }
      else drainRows pf faulty rest (d.record row.seq disk result)
    | .error .refused => drainRows pf faulty rest { d with last := some (d.last.elim row.seq (max row.seq)) }
    | .error _ => { d with blocked := true }

/-! ## The worker -/

/-- Where a pass stands. -/
inductive Stage
  | draining
  | sending
deriving DecidableEq, Repr

/-- A running pass: the job it was given, what is left of it, and the state it will leave. -/
structure Pass where
  job : Job
  stage : Stage
  dirty : List Path
  removed : List Path
  state : LocalState
  quotaBytes : ℕ
  usedBytes : ℕ
  lastSeq : Option ℕ := none
  blocked : Bool := false
deriving DecidableEq, Repr

/-- The desk with its vault on disk, and the server. -/
structure World where
  disk : Disk
  server : Server
  state : LocalState := {}
  /-- The quota and the bytes in use, of the last vault summary. -/
  info : Option (ℕ × ℕ) := none
  pending : Job := {}
  session : Bool := true
  pass : Option Pass := none
  /-- What drained writes changed on disk and the server has not had; no code reads it. -/
  owed : List Owed := []
deriving DecidableEq, Repr

/-- Over the size limit, or not text where text is expected. -/
def unsendable (bytes : Bytes) (isImage : Bool) : Bool :=
  decide (bytes.length > maxFileBytes) || (!isImage && (decodeUtf8 bytes).isNone)

/-- What a pass does about a dirty path. -/
inductive Decision
  | gone
  | skipped
  | unchanged
  | heldBack
  | send (bytes : Bytes)
deriving DecidableEq, Repr

def uploadDecision (pf : Platform) (disk : Disk) (pass : Pass) (path : Path) : Decision :=
  match disk.get path with
  | none => .gone
  | some bytes =>
    if unsendable bytes (pf.isImage path) then .skipped
    else
      match pass.state.files.get path with
      | some record => if record.plaintextHash = pf.plaintextHash bytes then .unchanged else .send bytes
      | none =>
        if decide (0 < pass.quotaBytes) && "reference/".toList.isPrefixOf path &&
            decide (pass.usedBytes + (bytes.length + 32) > pass.quotaBytes) then .heldBack
        else .send bytes

/-- The catch-up scan. `unlisted` paths lie in folders that could not be listed, `unread` files could
not be read. -/
def scanVault (pf : Platform) (disk : Disk) (known : Table Path FileRecord) (unlisted unread : List Path) :
    List Path × List Path :=
  let seen := disk.filter fun (path, _) => (pf.isImage path || pf.isSyncable path) && !unlisted.contains path
  let changed := seen.filter fun (path, bytes) =>
    !unread.contains path && !unsendable bytes (pf.isImage path) &&
      (known.get path).all fun record => record.plaintextHash ≠ pf.plaintextHash bytes
  let removed := known.filter fun (path, _) => (seen.map Prod.fst).all (· ≠ path) && !unlisted.contains path
  (changed.map Prod.fst, removed.map Prod.fst)

/-- A failed pass: its job is put back, or dropped with the session. -/
def World.fail (d : World) (pass : Pass) (code : ErrorCode) : World :=
  match code with
  | .outage .lapsed => { d with pending := {}, pass := none }
  | .outage .stopped => { d with pending := {}, pass := none, session := false }
  | _ => { d with pending := d.pending.extend pass.job, pass := none }

inductive Action
  /-- The phone queues a write. -/
  | post (path : Path) (clientId payload : Text)
  /-- A watcher event for a path is delivered. -/
  | watch (path : Path)
  /-- The minute poll. -/
  | poll
  /-- A sync asked for by the person. -/
  | syncNow
  /-- A session starts again after one that ended. -/
  | restart
  | start (unlisted unread : List Path)
  | drain (fetch : Fate) (faulty : List ℕ)
  | upload (path : Path) (fates : List Fate)
  | tombstone (path : Path) (fates : List Fate)
  | finish (ack summary : Fate) (saved : Bool) (info : ℕ × ℕ)
deriving DecidableEq, Repr

/-- A watcher event: only paths that sync as text are taken in. -/
def World.handleProjectEvent (pf : Platform) (d : World) (path : Path) : World :=
  if !d.session || !pf.isSyncable path then d
  else if (d.disk.get path).isNone then
    { d with pending := { d.pending with
        dirty := d.pending.dirty.filter (· ≠ path), removed := path :: d.pending.removed } }
  else
    { d with pending := { d.pending with
        dirty := path :: d.pending.dirty, removed := d.pending.removed.filter (· ≠ path) } }

/-- A pass takes the pending job and, to catch up, scans the vault. -/
def World.start (pf : Platform) (d : World) (unlisted unread : List Path) : Option World :=
  if d.pass.isSome || !d.session || d.pending.isEmpty then none
  else
    let job := d.pending
    let (changed, removed) :=
      if job.catchUp then scanVault pf d.disk d.state.files unlisted unread else ([], [])
    let (quotaBytes, usedBytes) := d.info.getD (0, 0)
    some { d with
      pending := {}
      pass := some
        { job, stage := .draining, dirty := job.dirty ++ changed, removed := job.removed ++ removed
          state := d.state, quotaBytes, usedBytes } }

/-- The writes a pass fetches: those above the seq it knows to be acked. -/
def World.fetched (d : World) (pass : Pass) : List WriteRow :=
  d.server.writes.filter fun row => pass.state.ackedThroughSeq < row.seq

/-- The queue is fetched and applied. -/
def World.drain (pf : Platform) (d : World) (pass : Pass) (fetch : Fate) (faulty : List ℕ) : World :=
  if !pass.job.drain then { d with pass := some { pass with stage := .sending } }
  else match fetch with
    | .failed cause => d.fail pass (.outage cause)
    | .unanswered => d.fail pass (.outage .other)
    | .answered =>
      let drained := drainRows pf faulty.contains (d.fetched pass) { disk := d.disk, owed := d.owed }
      { d with
        disk := drained.disk
        owed := settle d.server drained.owed
        pass := some { pass with
          stage := .sending
          dirty := pass.dirty ++ drained.changed
          removed := pass.removed ++ drained.vacated
          lastSeq := drained.last
          blocked := drained.blocked } }

/-- One dirty path is sent, or passed over. -/
def World.upload (pf : Platform) (d : World) (pass : Pass) (path : Path) (fates : List Fate) : World :=
  let rest := { pass with dirty := pass.dirty.filter (· ≠ path) }
  match uploadDecision pf d.disk pass path with
  | .send bytes =>
    let expected := ((pass.state.files.get path).map FileRecord.version).getD 0
    let (server, result) := uploadFile path bytes 2 expected fates d.server
    let d := { d with server, owed := settle server d.owed }
    match result with
    | .ok version =>
      { d with pass := some { rest with
          state := { pass.state with files := pass.state.files.put path ⟨version, pf.plaintextHash bytes⟩ }
          usedBytes := pass.usedBytes + (bytes.length + 32) } }
    | .error code => d.fail pass code
  | _ => { d with pass := some rest }

/-- One removed path is tombstoned, when the desk has a record of it. -/
def World.tombstone (d : World) (pass : Pass) (path : Path) (fates : List Fate) : World :=
  let rest := { pass with removed := pass.removed.filter (· ≠ path) }
  match pass.state.files.get path with
  | none => { d with pass := some rest }
  | some record =>
    let (server, result) := tombstonePath path record.version fates d.server
    let d := { d with server, owed := settle server d.owed }
    match result with
    | .ok _ => { d with pass := some { rest with state := { pass.state with files := pass.state.files.erase path } } }
    | .error code => d.fail pass code

/-- After the ack the vault summary is read and the state saved, and the pass is folded in. -/
def World.settled (d : World) (pass : Pass) (acked : Except ErrorCode ℕ) (summary : Fate) (saved : Bool)
    (info : ℕ × ℕ) : World :=
  match acked, summary with
  | .error code, _ => d.fail pass code
  | .ok _, .failed cause => d.fail pass (.outage cause)
  | .ok _, .unanswered => d.fail pass (.outage .other)
  | .ok ackedThroughSeq, .answered =>
    if !saved then d.fail pass (.outage .other)
    else
      { d with
        state := { pass.state with ackedThroughSeq }
        info := some info
        pending := { d.pending with drain := d.pending.drain || pass.blocked }
        pass := none }

/-- The writes are acked, once everything is sent. -/
def World.finish (d : World) (pass : Pass) (ack summary : Fate) (saved : Bool) (info : ℕ × ℕ) : World :=
  match pass.lastSeq with
  | none => World.settled d pass (.ok pass.state.ackedThroughSeq) summary saved info
  | some seq =>
    let (server, acked) := call ack (Server.ack seq) d.server
    World.settled { d with server } pass acked summary saved info

/-- One step of the desk, the phone's queue or the watcher. -/
def World.step (pf : Platform) (d : World) : Action → Option World
  | .post path clientId payload =>
    let seq := d.server.latestSeq + 1
    some { d with server := { d.server with
      writes := d.server.writes ++ [⟨seq, path, clientId, payload⟩], latestSeq := seq } }
  | .watch path => some (d.handleProjectEvent pf path)
  | .poll => some { d with pending := { d.pending with drain := d.pending.drain || d.session } }
  | .syncNow =>
    some { d with pending := { d.pending with
      catchUp := d.pending.catchUp || d.session, drain := d.pending.drain || d.session } }
  | .restart =>
    if d.session then none
    else some { d with session := true, pending := { d.pending with catchUp := true, drain := true } }
  | .start unlisted unread => d.start pf unlisted unread
  | .drain fetch faulty =>
    match d.pass with
    | some pass => if pass.stage = .draining then some (d.drain pf pass fetch faulty) else none
    | none => none
  | .upload path fates =>
    match d.pass with
    | some pass =>
      if pass.stage = .sending ∧ path ∈ pass.dirty then some (d.upload pf pass path fates) else none
    | none => none
  | .tombstone path fates =>
    match d.pass with
    | some pass =>
      if pass.stage = .sending ∧ pass.dirty = [] ∧ path ∈ pass.removed then some (d.tombstone pass path fates)
      else none
    | none => none
  | .finish ack summary saved info =>
    match d.pass with
    | some pass =>
      if pass.stage = .sending ∧ pass.dirty = [] ∧ pass.removed = [] then some (d.finish pass ack summary saved info)
      else none
    | none => none

end Thock.Desk.VaultSync
