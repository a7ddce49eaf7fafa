import Thock.Desk.VaultSyncAck
import Thock.Lib.PrefixRun
import Thock.Plus.Writes
import Thock.SyncCore.ParseWrite

/-!
# The desk's drain, call by call

The queue is fetched page by page and applied row by row, and any call to the file system may
fail on the way. What is proved of a batch is how far it goes: the rows handled are a prefix,
the ack covers that prefix and nothing else, and a row from a newer phone ends it.
-/

namespace Thock.Desk.VaultSync.Drain

open TextScan SyncCore CursorPaging PrefixRun

/-! ## Reading a row -/

/-- Sealing and the JSON library as the desk calls them. -/
structure Codec where
  openSealed : (clientId : Text) → Bytes → Option Bytes
  serde : Serde

/-- A desk that reads the writes it is sent. -/
structure Reader where
  pf : Platform
  codec : Codec

/-- The sealed text of a payload, when it is base64, was sealed for the client id and is UTF-8. -/
def Reader.unseal (desk : Reader) (clientId payload : Text) : Option Text :=
  ((desk.pf.decodeBase64 (trim payload)).bind (desk.codec.openSealed clientId)).bind decodeUtf8

/-- Decrypt, parse and check a payload: one from a newer phone is told from one that is not readable. -/
def Reader.openPayload (desk : Reader) (clientId payload : Text) : Except ApplyFailure Write :=
  match desk.unseal clientId payload with
  | none => .error .refused
  | some json =>
    match parseWrite desk.codec.serde json with
    | .error error => .error (if error.needsNewerReader then .unsupported else .refused)
    | .ok write => .ok write

/-- The platform of a desk: how a payload is opened is settled by its reader. -/
def Reader.platform (desk : Reader) : Platform := { desk.pf with openPayload := desk.openPayload }

/-- The document a row carries. -/
def Reader.document (desk : Reader) (row : WriteRow) : Option Json :=
  (desk.unseal row.clientId row.payload).bind fun json => (desk.codec.serde.fromStr json).toOption

/-- A row whose document is a newer phone's. -/
def Reader.FromNewer (desk : Reader) (row : WriteRow) : Prop :=
  ∃ value, desk.document row = some value ∧ value.FromNewer

/-! ## Applying a row -/

/-- What becomes of writing a picture's bytes, which is not atomic: a failed write may leave a file. -/
inductive FileWrite
  | done
  | failed (left : Option Bytes)
deriving DecidableEq, Repr

/-- The file system calls that go through while a row is applied. -/
structure Faults where
  load : Bool := true
  createDir : Bool := true
  atomicWrite : Bool := true
  rename : Bool := true
  write : FileWrite := .done
deriving DecidableEq, Repr

/-- What a failed write left at a path. -/
def leave (disk : Disk) (path : Path) : Option Bytes → Disk
  | none => disk
  | some bytes => disk.put path bytes

/-- A picture from the phone: checked against its hash, and written only where nothing is. -/
def applyPutFile (pf : Platform) (faults : Faults) (disk : Disk) (write : Write) (contentBase64 contentHash : Text) :
    Disk × Except ApplyFailure AppliedWrite :=
  if !pf.isImage write.path then (disk, .error .refused)
  else match pf.decodeBase64 (trim contentBase64) with
    | none => (disk, .error .refused)
    | some bytes =>
      if bytes.length > maxFileBytes then (disk, .error .refused)
      else if pf.plaintextHash bytes ≠ contentHash then (disk, .error .refused)
      else match disk.get write.path with
        | some _ => if !faults.load then (disk, .error .vault) else (disk, .ok {})
        | none =>
          if !faults.createDir then (disk, .error .vault)
          else match faults.write with
            | .failed left => (leave disk write.path left, .error .vault)
            | .done => (disk.put write.path bytes, .ok { changed := some write.path })

/-- A rename from the phone: into the inbox archive only, never over a file, never from none. -/
def applyMoveFile (pf : Platform) (faults : Faults) (disk : Disk) (write : Write) (to_ : Path) :
    Disk × Except ApplyFailure AppliedWrite :=
  if !pf.isSyncable to_ || !phoneMoveDestinations.any fun folder => folder.isPrefixOf to_ then (disk, .error .refused)
  else match disk.get write.path, disk.get to_ with
    | none, _ => (disk, .ok {})
    | some _, some _ => (disk, .ok {})
    | some bytes, none =>
      if !faults.rename then (disk, .error .vault)
      else
        ((disk.erase write.path).put to_ bytes, .ok { changed := some to_, removed := some write.path })

/-- A write to a note's text. -/
def applyOpenedWrite (pf : Platform) (faults : Faults) (disk : Disk) (write : Write) (existing : Option Text) :
    Disk × Except ApplyFailure AppliedWrite :=
  let seed := if existing.isNone && write.operation.createFromTemplate then pf.templateSeed disk write.path else none
  let applied := apply pf.prim existing write seed
  if applied.outcome = .noop ∨ existing = some applied.text then (disk, .ok {})
  else if !faults.createDir then (disk, .error .vault)
  else if !faults.atomicWrite then (disk, .error .vault)
  else (disk.put write.path (encodeUtf8 applied.text), .ok { changed := some write.path })

/-- Apply one queued write to the files on disk. -/
def applyWrite (pf : Platform) (faults : Faults) (disk : Disk) (row : WriteRow) :
    Disk × Except ApplyFailure AppliedWrite :=
  match openWrite pf row with
  | .error failure => (disk, .error failure)
  | .ok write =>
    match write.operation with
    | .putFile contentBase64 contentHash => applyPutFile pf faults disk write contentBase64 contentHash
    | .moveFile to_ => applyMoveFile pf faults disk write to_
    | _ =>
      match disk.get write.path with
      | none => applyOpenedWrite pf faults disk write none
      | some bytes =>
        if !faults.load then (disk, .error .vault)
        else match decodeUtf8 bytes with
          | none => (disk, .error .refused)
          | some text => applyOpenedWrite pf faults disk write (some text)

/-! ## The batch -/

/-- A batch on its way into the vault, as the pass that drains it is told. -/
structure Batch where
  disk : Disk
  changed : List Path := []
  vacated : List Path := []
  applied : ℕ := 0
  refused : List Path := []
  blocked : Option Text := none
  last : Option ℕ := none
deriving DecidableEq, Repr

/-- The highest seq handled. -/
def advance (last : Option ℕ) (seq : ℕ) : Option ℕ := some (last.elim seq fun last => max last seq)

/-- Why a batch stopped at a write the vault could not take. -/
def couldNotSave (path : Path) : Text := "a change from your phone to ".toList ++ path ++ " couldn't be saved".toList

/-- Why a batch stopped at a write from a newer phone. -/
def needsNewerDesk (path : Path) : Text :=
  "a change from your phone to ".toList ++ path ++
    " needs a newer Thock on this desk. Update Thock to apply it".toList

/-- Apply rows in order. A refused write is passed over; one the vault or this build cannot take ends the
batch. -/
def applyAll (pf : Platform) (faults : ℕ → Faults) : List WriteRow → Batch → Batch
  | [], b => b
  | row :: rest, b =>
    match applyWrite pf (faults row.seq) b.disk row with
    | (disk, .ok result) =>
      applyAll pf faults rest { b with
        disk
        changed := b.changed ++ result.changed.toList
        vacated := b.vacated ++ result.removed.toList
        applied := if result.changed.isSome then b.applied + 1 else b.applied
        last := advance b.last row.seq }
    | (disk, .error .refused) =>
      applyAll pf faults rest { b with
        disk
        refused := b.refused ++ [row.path]
        last := advance b.last row.seq }
    | (disk, .error .vault) => { b with disk, blocked := some (couldNotSave row.path) }
    | (disk, .error .unsupported) => { b with disk, blocked := some (needsNewerDesk row.path) }

/-- The seq a pass acks, once what the batch changed is on the server. -/
def Batch.ack (b : Batch) (sent : Bool) : Option ℕ := if sent then b.last else none

/-- A page of the queue: rows above the seq asked for, ascending. -/
structure WritesPage (after : ℕ) where
  writes : List WriteRow
  hasMore : Bool
  ascending : Ordered WriteRow.seq writes
  above : ∀ row ∈ writes, after < row.seq

/-- What the server answers one request for the rows above a seq; `none` where the call fails. -/
abbrev Answer := (after : ℕ) → Option (WritesPage after)

/-- Ask for pages until one is empty or the last; a failed call fails the fetch. -/
def fetchPages : List Answer → ℕ → List WriteRow → Option (List WriteRow)
  | [], _, _ => none
  | answer :: later, after, writes =>
    match answer after with
    | none => none
    | some page =>
      match page.writes.getLast? with
      | none => some writes
      | some last =>
        if page.hasMore then fetchPages later last.seq (writes ++ page.writes) else some (writes ++ page.writes)

/-- The queued rows above a seq, in seq order. -/
def fetchWrites (answers : List Answer) (after : ℕ) : Option (List WriteRow) :=
  (fetchPages answers after []).map (orderBy WriteRow.seq)

/-! ## One row -/

/-- A refused payload is not from a newer phone; one that is from a newer phone is held. -/
theorem Reader.openPayload_newer (desk : Reader) {row : WriteRow} (h : desk.FromNewer row) :
    desk.openPayload row.clientId row.payload = .error .unsupported := by
  obtain ⟨value, hvalue, hnewer⟩ := h
  obtain ⟨json, hjson, hread⟩ := Option.bind_eq_some_iff.mp hvalue
  have hparsed : desk.codec.serde.fromStr json = .ok value := by
    cases hfrom : desk.codec.serde.fromStr json with
    | error message =>
      rw [hfrom] at hread
      cases hread
    | ok read =>
      rw [hfrom] at hread
      exact congrArg Except.ok (Option.some.inj hread)
  obtain ⟨error, herror, hneeds⟩ := readWrite_newer desk.codec.serde hnewer
  have hparse : parseWrite desk.codec.serde json = .error error := by
    rw [parseWrite, hparsed]
    exact herror
  rw [Reader.openPayload, hjson]
  simp only [hparse, hneeds, if_true]

/-- A row from a newer phone is held, whatever is on disk and whatever fails, and leaves the disk alone. -/
theorem applyWrite_newer (desk : Reader) {row : WriteRow} (h : desk.FromNewer row) (faults : Faults) (disk : Disk) :
    applyWrite desk.platform faults disk row = (disk, .error .unsupported) := by
  have hopen : openWrite desk.platform row = .error .unsupported := by
    rw [openWrite, Reader.platform]
    simp only [desk.openPayload_newer h]
  rw [applyWrite, hopen]

/-- What one row does to the files on disk when it is not applied: nothing, a picture's failed write apart. -/
inductive Unapplied (faults : Faults) (disk : Disk) (row : WriteRow) : ApplyFailure → Disk → Prop
  | untouched (failure : ApplyFailure) : Unapplied faults disk row failure disk
  | torn (left : Bytes) (failed : faults.write = .failed (some left)) (fresh : disk.get row.path = none) :
      Unapplied faults disk row .vault (disk.put row.path left)

theorem applyPutFile_unapplied {pf : Platform} {faults : Faults} {disk after : Disk} {write : Write} {row : WriteRow}
    {contentBase64 contentHash : Text} {failure : ApplyFailure} (hpath : write.path = row.path)
    (h : applyPutFile pf faults disk write contentBase64 contentHash = (after, .error failure)) :
    Unapplied faults disk row failure after := by
  have hsame {f : ApplyFailure} (hf : ((disk, .error f) : Disk × Except ApplyFailure AppliedWrite) = (after, .error failure)) :
      Unapplied faults disk row failure after := by
    obtain ⟨rfl, -⟩ := Prod.mk.inj hf
    exact .untouched failure
  unfold applyPutFile at h
  split at h
  · exact hsame h
  split at h
  · exact hsame h
  split at h
  · exact hsame h
  split at h
  · exact hsame h
  split at h
  · split at h
    · exact hsame h
    · cases (Prod.mk.inj h).2
  · next hfresh =>
    split at h
    · exact hsame h
    · split at h
      · next left hfailed =>
        obtain ⟨hafter, hvault⟩ := Prod.mk.inj h
        obtain rfl := Except.error.inj hvault
        cases left with
        | none =>
          rw [← hafter]
          exact .untouched .vault
        | some bytes =>
          rw [hpath] at hfresh hafter
          rw [← hafter]
          exact .torn bytes hfailed hfresh
      · cases (Prod.mk.inj h).2

theorem applyMoveFile_unapplied {pf : Platform} {faults : Faults} {disk after : Disk} {write : Write} {to_ : Path}
    {failure : ApplyFailure} (h : applyMoveFile pf faults disk write to_ = (after, .error failure)) : after = disk := by
  unfold applyMoveFile at h
  split at h
  · exact (Prod.mk.inj h).1.symm
  split at h
  · cases (Prod.mk.inj h).2
  · cases (Prod.mk.inj h).2
  split at h
  · exact (Prod.mk.inj h).1.symm
  · cases (Prod.mk.inj h).2

theorem applyOpenedWrite_unapplied {pf : Platform} {faults : Faults} {disk after : Disk} {write : Write}
    {existing : Option Text} {failure : ApplyFailure}
    (h : applyOpenedWrite pf faults disk write existing = (after, .error failure)) : after = disk ∧ failure = .vault := by
  unfold applyOpenedWrite at h
  extract_lets seed applied at h
  split at h
  · cases (Prod.mk.inj h).2
  split at h
  · exact ⟨(Prod.mk.inj h).1.symm, (Except.error.inj (Prod.mk.inj h).2).symm⟩
  split at h
  · exact ⟨(Prod.mk.inj h).1.symm, (Except.error.inj (Prod.mk.inj h).2).symm⟩
  · cases (Prod.mk.inj h).2

/-- An opened write is for the path and the client id of its row. -/
theorem openWrite_path {pf : Platform} {row : WriteRow} {write : Write} (h : openWrite pf row = .ok write) :
    write.path = row.path := by
  unfold openWrite at h
  split at h
  · cases h
  split at h
  · cases h
  next hnames =>
    split at h
    · cases h
    · obtain rfl := Except.ok.inj h
      exact not_not.mp fun hne => hnames (Or.inl hne)

/-- A row that is refused or held leaves the files on disk as they are; one the vault fails on does too, or
leaves what there is of its picture. -/
theorem applyWrite_unapplied {pf : Platform} {faults : Faults} {disk after : Disk} {row : WriteRow}
    {failure : ApplyFailure} (h : applyWrite pf faults disk row = (after, .error failure)) :
    Unapplied faults disk row failure after := by
  have hsame (hafter : after = disk) : Unapplied faults disk row failure after := by
    rw [hafter]
    exact .untouched failure
  unfold applyWrite at h
  split at h
  · exact hsame (Prod.mk.inj h).1.symm
  next write hopen =>
    split at h
    · exact applyPutFile_unapplied (openWrite_path hopen) h
    · exact hsame (applyMoveFile_unapplied h)
    · split at h
      · exact hsame (applyOpenedWrite_unapplied h).1
      · split at h
        · exact hsame (Prod.mk.inj h).1.symm
        · split at h
          · exact hsame (Prod.mk.inj h).1.symm
          · exact hsame (applyOpenedWrite_unapplied h).1

/-! ## The prefix -/

/-- The files on disk after a row that does not end its batch. -/
def handled (pf : Platform) (faults : ℕ → Faults) (disk : Disk) (row : WriteRow) : Option Disk :=
  match applyWrite pf (faults row.seq) disk row with
  | (after, .ok _) => some after
  | (after, .error .refused) => some after
  | (_, .error .vault) => none
  | (_, .error .unsupported) => none

/-- A row that ends its batch. -/
def Blocks (pf : Platform) (faults : ℕ → Faults) (disk : Disk) (row : WriteRow) : Prop :=
  (applyWrite pf (faults row.seq) disk row).2 = .error .vault ∨
    (applyWrite pf (faults row.seq) disk row).2 = .error .unsupported

theorem handled_eq_some {pf : Platform} {faults : ℕ → Faults} {disk after : Disk} {row : WriteRow}
    (h : handled pf faults disk row = some after) : ¬ Blocks pf faults disk row := by
  intro hblocks
  unfold handled at h
  unfold Blocks at hblocks
  split at h
  · next happly => simp [happly] at hblocks
  · next happly => simp [happly] at hblocks
  · cases h
  · cases h

theorem handled_eq_none {pf : Platform} {faults : ℕ → Faults} {disk : Disk} {row : WriteRow}
    (h : handled pf faults disk row = none) : Blocks pf faults disk row := by
  unfold handled at h
  split at h
  · cases h
  · cases h
  · next happly => exact Or.inl (congrArg Prod.snd happly)
  · next happly => exact Or.inr (congrArg Prod.snd happly)

/-- A refused row leaves the files on disk as they are and does not end its batch. -/
theorem handled_refused {pf : Platform} {faults : ℕ → Faults} {disk : Disk} {row : WriteRow}
    (h : (applyWrite pf (faults row.seq) disk row).2 = .error .refused) : handled pf faults disk row = some disk := by
  have happly : applyWrite pf (faults row.seq) disk row =
      ((applyWrite pf (faults row.seq) disk row).1, .error .refused) := Prod.ext rfl h
  have hkept : (applyWrite pf (faults row.seq) disk row).1 = disk := by
    have hunapplied := applyWrite_unapplied happly
    generalize (applyWrite pf (faults row.seq) disk row).1 = after at hunapplied
    cases hunapplied with
    | untouched => rfl
  rw [handled, happly]
  simp only [hkept]

/-- The seq acked for rows handled after a batch stood at `last`. -/
def lastSeq (last : Option ℕ) (rows : List WriteRow) : Option ℕ := rows.foldl (fun last row => advance last row.seq) last

/-- Ascending rows leave their last seq. -/
theorem lastSeq_ascending {rows : List WriteRow} (h : Ordered WriteRow.seq rows) {last : Option ℕ}
    (hlast : ∀ seq, last = some seq → ∀ row ∈ rows, seq < row.seq) :
    lastSeq last rows = (rows.getLast?.map WriteRow.seq).or last := by
  induction rows generalizing last with
  | nil => rfl
  | cons row rest ih =>
    obtain ⟨hrow, hrest⟩ := List.pairwise_cons.mp h
    have hadvance : advance last row.seq = some row.seq := by
      cases last with
      | none => rfl
      | some seq =>
        have hlt : seq < row.seq := hlast seq rfl row List.mem_cons_self
        simp only [advance, Option.elim_some, max_eq_right hlt.le]
    have hbelow : ∀ seq, some row.seq = some seq → ∀ later ∈ rest, seq < later.seq := by
      intro seq hseq later hlater
      obtain rfl := Option.some.inj hseq
      exact hrow later hlater
    have hstep : lastSeq last (row :: rest) = lastSeq (some row.seq) rest := by
      rw [lastSeq, List.foldl_cons, hadvance]
      rfl
    rw [hstep, ih hrest hbelow]
    cases rest with
    | nil => rfl
    | cons next later => simp [List.getLast?_cons]

/-- What the drain of a batch comes to: the rows handled, what they left on disk, the seq it may ack, and what
stopped it. -/
structure Handles (pf : Platform) (faults : ℕ → Faults) (rows : List WriteRow) (b after : Batch) (k : ℕ)
    (reached : Disk) : Prop where
  reaches : Reaches (handled pf faults) b.disk rows k reached
  last : after.last = lastSeq b.last (rows.take k)
  disk : after.disk = reached ∨ ∃ row left, rows[k]? = some row ∧ (faults row.seq).write = .failed (some left) ∧
    reached.get row.path = none ∧ after.disk = reached.put row.path left
  stopped : k < rows.length → after.blocked.isSome = true
  ended : k = rows.length → after.blocked = b.blocked
  refused : b.refused <+: after.refused
  named : ∀ i row before, i < k → rows[i]? = some row → through (handled pf faults) b.disk (rows.take i) = some before →
    (applyWrite pf (faults row.seq) before row).2 = .error .refused → row.path ∈ after.refused

/-- A row that does not end its batch is one more handled. -/
theorem Handles.cons {pf : Platform} {faults : ℕ → Faults} {row : WriteRow} {rest : List WriteRow}
    {b next after : Batch} {k : ℕ} {reached : Disk} (later : Handles pf faults rest next after k reached)
    (hhandled : handled pf faults b.disk row = some next.disk) (hlast : next.last = advance b.last row.seq)
    (hblocked : next.blocked = b.blocked) (hrefused : b.refused <+: next.refused)
    (hnamed : (applyWrite pf (faults row.seq) b.disk row).2 = .error .refused → row.path ∈ next.refused) :
    Handles pf faults (row :: rest) b after (k + 1) reached where
  reaches := later.reaches.cons hhandled
  last := by
    rw [later.last, hlast]
    rfl
  disk := later.disk
  stopped hlt := later.stopped (Nat.lt_of_succ_lt_succ hlt)
  ended hend := by
    rw [later.ended (Nat.succ_injective hend), hblocked]
  refused := hrefused.trans later.refused
  named i found before hi hfound hbefore hrefuses := by
    cases i with
    | zero =>
      obtain rfl := Option.some.inj hfound
      obtain rfl := Option.some.inj hbefore
      exact later.refused.subset (hnamed hrefuses)
    | succ i =>
      rw [List.take_succ_cons, through_cons, hhandled] at hbefore
      exact later.named i found before (Nat.lt_of_succ_lt_succ hi) hfound hbefore hrefuses

/-- A row that ends its batch leaves the disk as it found it, what there is of a picture apart. -/
theorem Handles.stop {pf : Platform} {faults : ℕ → Faults} {row : WriteRow} {rest : List WriteRow} {b after : Batch}
    {disk : Disk} {failure : ApplyFailure} (happly : applyWrite pf (faults row.seq) b.disk row = (disk, .error failure))
    (hfailure : failure ≠ .refused) (hdisk : after.disk = disk) (hblocked : after.blocked.isSome = true)
    (hlast : after.last = b.last) (hrefused : after.refused = b.refused) :
    Handles pf faults (row :: rest) b after 0 b.disk where
  reaches := by
    apply Reaches.stop
    rw [handled, happly]
    cases failure with
    | refused => exact absurd rfl hfailure
    | vault => rfl
    | unsupported => rfl
  last := hlast
  disk := by
    have hunapplied := applyWrite_unapplied happly
    rw [hdisk]
    cases hunapplied with
    | untouched => exact Or.inl rfl
    | torn left hfailed hfresh => exact Or.inr ⟨row, left, rfl, hfailed, hfresh, rfl⟩
  stopped _ := hblocked
  ended hend := absurd hend (by simp)
  refused := by rw [hrefused]
  named _ _ _ hi := absurd hi (Nat.not_lt_zero _)

/-- The drain of any batch, under any faults. -/
theorem applyAll_handles (pf : Platform) (faults : ℕ → Faults) (rows : List WriteRow) (b : Batch) :
    ∃ k reached, Handles pf faults rows b (applyAll pf faults rows b) k reached := by
  induction rows generalizing b with
  | nil =>
    exact ⟨0, b.disk,
      { reaches := Reaches.nil _ _, last := rfl, disk := Or.inl rfl, stopped := fun h => absurd h (Nat.not_lt_zero 0)
        ended := fun _ => rfl, refused := List.prefix_rfl, named := fun _ _ _ hi => absurd hi (Nat.not_lt_zero _) }⟩
  | cons row rest ih =>
    unfold applyAll
    split
    · next disk result happly =>
      have hhandled : handled pf faults b.disk row = some disk := by rw [handled, happly]
      obtain ⟨k, reached, hlater⟩ := ih { b with
        disk
        changed := b.changed ++ result.changed.toList
        vacated := b.vacated ++ result.removed.toList
        applied := if result.changed.isSome then b.applied + 1 else b.applied
        last := advance b.last row.seq }
      refine ⟨k + 1, reached, hlater.cons hhandled rfl rfl List.prefix_rfl fun hrefuses => ?_⟩
      rw [happly] at hrefuses
      cases hrefuses
    · next disk happly =>
      have hhandled : handled pf faults b.disk row = some disk := by rw [handled, happly]
      obtain ⟨k, reached, hlater⟩ := ih { b with
        disk
        refused := b.refused ++ [row.path]
        last := advance b.last row.seq }
      refine ⟨k + 1, reached, hlater.cons hhandled rfl rfl (List.prefix_append _ _) fun _ => ?_⟩
      exact List.mem_append_right _ (List.mem_singleton_self _)
    · next disk happly => exact ⟨0, b.disk, Handles.stop happly (by decide) rfl rfl rfl rfl⟩
    · next disk happly => exact ⟨0, b.disk, Handles.stop happly (by decide) rfl rfl rfl rfl⟩

/-! ## The fetch -/

/-- Pages asked for above the last seq seen ascend together. -/
theorem fetchPages_ascending {answers : List Answer} {after : ℕ} {writes rows : List WriteRow}
    (hascending : Ordered WriteRow.seq writes) (hbelow : ∀ row ∈ writes, row.seq ≤ after)
    (h : fetchPages answers after writes = some rows) : Ordered WriteRow.seq rows := by
  induction answers generalizing after writes with
  | nil => cases h
  | cons answer later ih =>
    unfold fetchPages at h
    split at h
    · cases h
    next page _ =>
      have htogether : Ordered WriteRow.seq (writes ++ page.writes) := by
        apply List.pairwise_append.mpr
        exact ⟨hascending, page.ascending, fun row hrow next hnext =>
          lt_of_le_of_lt (hbelow row hrow) (page.above next hnext)⟩
      split at h
      · obtain rfl := Option.some.inj h
        exact hascending
      next last hlast =>
        split at h
        · apply ih htogether (fun row hrow => ?_) h
          have hmem : last ∈ page.writes := List.mem_of_getLast? hlast
          rcases List.mem_append.mp hrow with hold | hnew
          · exact (hbelow row hold).trans (page.above last hmem).le
          · obtain ⟨front, hfront⟩ := List.getLast?_eq_some_iff.mp hlast
            rw [hfront] at hnew
            rcases List.mem_append.mp hnew with hbefore | hself
            · have hord := page.ascending
              rw [hfront] at hord
              exact ((List.pairwise_append.mp hord).2.2 row hbefore last (List.mem_singleton_self last)).le
            · rw [List.mem_singleton.mp hself]
        · obtain rfl := Option.some.inj h
          exact htogether

/-- A fetched batch ascends. -/
theorem fetchWrites_ascending {answers : List Answer} {after : ℕ} {rows : List WriteRow}
    (h : fetchWrites answers after = some rows) : Ordered WriteRow.seq rows := by
  obtain ⟨fetched, hfetched, rfl⟩ := Option.map_eq_some_iff.mp h
  have hascending := fetchPages_ascending List.Pairwise.nil (fun _ hrow => absurd hrow List.not_mem_nil) hfetched
  apply orderBy_ordered
  exact List.pairwise_map.mpr (hascending.imp ne_of_lt)

/-! ## The pass and the server -/

/-- A row as the desk is sent it; `encode` is base64. -/
def sentRow (encode : List UInt8 → Text) (row : Plus.WriteRow) : WriteRow :=
  ⟨row.seq, row.path.toList, row.clientID.toList, encode row.payload⟩

/-- The page of the queue the server answers. -/
def servedPage (encode : List UInt8 → Text) (principal : Plus.Vault) {v : Plus.Vault} (h : v.QueueOrdered)
    (after limit : ℕ) : WritesPage after :=
  let page := Plus.handleWritesList principal v (some after) limit
  have hsublist : page.writes.Sublist (v.unackedAbove after) := by
    rw [show page = _ from Plus.handleWritesList_eq v after limit]
    exact List.take_sublist _ _
  { writes := page.writes.map (sentRow encode)
    hasMore := page.hasMore
    ascending := List.pairwise_map.mpr ((h.unackedAbove_ordered after).sublist hsublist)
    above := by
      intro row hrow
      obtain ⟨kept, hkept, rfl⟩ := List.mem_map.mp hrow
      have hmem := (mem_orderBy Plus.WriteRow.seq).mp (hsublist.subset hkept)
      exact (of_decide_eq_true (List.mem_filter.mp hmem).2).1 }

/-- Asked page by page, the server answers its unacked rows one after the other. -/
theorem fetchPages_served (encode : List UInt8 → Text) (principal : Plus.Vault) {v : Plus.Vault} (h : v.QueueOrdered)
    {limit after requests : ℕ} (hlimit : 1 ≤ limit) (hrequests : (v.unackedAbove after).length < requests)
    (writes : List WriteRow) :
    fetchPages (List.replicate requests fun after => some (servedPage encode principal h after limit)) after writes =
      some (writes ++ (v.unackedAbove after).map (sentRow encode)) := by
  induction requests generalizing after writes with
  | zero => omega
  | succ requests ih =>
    have hserved := Plus.handleWritesList_eq v after limit
    have hwrites : (servedPage encode principal h after limit).writes =
        ((v.unackedAbove after).take limit).map (sentRow encode) :=
          congrArg (fun page : Plus.WritesPage => page.writes.map (sentRow encode)) hserved
    have hmore : (servedPage encode principal h after limit).hasMore = decide (limit < (v.unackedAbove after).length) :=
      congrArg Plus.WritesPage.hasMore hserved
    rw [List.replicate_succ, fetchPages]
    dsimp only
    rw [hwrites, hmore]
    rcases List.eq_nil_or_concat ((v.unackedAbove after).take limit) with hnil | ⟨front, last, hpage⟩
    · obtain hnone : v.unackedAbove after = [] := (List.take_eq_nil_iff.mp hnil).resolve_left (by omega)
      simp [hnone]
    · have hlast : (((v.unackedAbove after).take limit).map (sentRow encode)).getLast? = some (sentRow encode last) := by
        simp [hpage]
      have hcut : lastKey Plus.WriteRow.seq after ((v.unackedAbove after).take limit) = last.seq := by
        simp [hpage, lastKey]
      rw [hlast]
      dsimp only
      by_cases hlong : limit < (v.unackedAbove after).length
      · have hrest := h.unackedAbove_cut hlimit hlong
        rw [hcut] at hrest
        have hshorter : (v.unackedAbove last.seq).length < requests := by
          rw [hrest, List.length_drop]
          omega
        rw [if_pos (decide_eq_true hlong)]
        refine (ih hshorter _).trans ?_
        rw [hrest, List.append_assoc, ← List.map_append, List.take_append_drop]
      · rw [if_neg (by simpa using hlong), List.take_of_length_le (by omega)]

/-- While the queue stands still a fetch takes all of it, in seq order, however long a page is. -/
theorem fetch_is_the_queue (encode : List UInt8 → Text) (principal : Plus.Vault) {v : Plus.Vault} (h : v.QueueOrdered)
    {limit after requests : ℕ} (hlimit : 1 ≤ limit) (hrequests : (v.unackedAbove after).length < requests) :
    fetchWrites (List.replicate requests fun after => some (servedPage encode principal h after limit)) after =
      some ((v.unackedAbove after).map (sentRow encode)) := by
  have hordered : Ordered WriteRow.seq ((v.unackedAbove after).map (sentRow encode)) :=
    List.pairwise_map.mpr (h.unackedAbove_ordered after)
  rw [fetchWrites, fetchPages_served encode principal h hlimit hrequests, Option.map_some, List.nil_append]
  exact congrArg some (List.Pairwise.insertionSort_eq (hordered.imp le_of_lt))

/-- A pass over a reachable server's queue takes every row waiting above a seq, in order, and goes through a prefix of
them. Its ack, sent when later rows may have come in, is taken and leaves waiting the rows after that prefix and the
later ones; a pass that acks nothing went through none. -/
theorem pass_leaves_what_it_did_not_handle (encode : List UInt8 → Text) (principal : Plus.Vault) {s t : Plus.Store}
    (hs : Transition.Reachable Plus.Store.Next Plus.Store.Initial s) {v : Plus.Vault} (hv : v ∈ s.vaults)
    (ht : Transition.Reachable Plus.Store.Next Plus.Store.Initial t) {u : Plus.Vault} (hu : u ∈ t.vaults)
    {limit after requests : ℕ} (hlimit : 1 ≤ limit) (hrequests : (v.unackedAbove after).length < requests)
    {later : List Plus.WriteRow} (hlater : u.unackedAbove after = v.unackedAbove after ++ later)
    (pf : Platform) (faults : ℕ → Faults) (disk : Disk) (now : Plus.Time) {rows : List WriteRow}
    (hrows : fetchWrites (List.replicate requests fun after =>
      some (servedPage encode principal (Plus.Store.queueOrdered hs v hv) after limit)) after = some rows) :
    rows = (v.unackedAbove after).map (sentRow encode) ∧ ∃ k reached, Reaches (handled pf faults) disk rows k reached ∧
      match (applyAll pf faults rows { disk }).ack true with
      | none => k = 0
      | some seq => ∃ w r, u.ackWrites seq now = .ok (w, r) ∧
          w.unackedAbove after = (v.unackedAbove after).drop k ++ later := by
  obtain rfl := Option.some.inj ((fetch_is_the_queue encode principal _ hlimit hrequests).symm.trans hrows)
  obtain ⟨k, reached, hb⟩ := applyAll_handles pf faults ((v.unackedAbove after).map (sentRow encode)) { disk }
  have huq := Plus.Store.queueOrdered ht u hu
  have hordered := huq.unackedAbove_ordered after
  have hacked : (applyAll pf faults ((v.unackedAbove after).map (sentRow encode)) { disk }).ack true =
      ((v.unackedAbove after).take k).getLast?.map Plus.WriteRow.seq := by
    have hascending := (fetchWrites_ascending hrows).sublist (List.take_sublist k _)
    refine hb.last.trans ((lastSeq_ascending hascending fun _ hnone => by cases hnone).trans ?_)
    rw [Option.or_none, ← List.map_take, List.getLast?_map, Option.map_map]
    rfl
  refine ⟨rfl, k, reached, hb.reaches, ?_⟩
  have hwithin := hb.reaches.within
  rw [hacked]
  cases hlast : ((v.unackedAbove after).take k).getLast? with
  | none =>
    have hlength := congrArg List.length (List.getLast?_eq_none_iff.mp hlast)
    rw [List.length_take, List.length_nil] at hlength
    rw [List.length_map] at hwithin
    exact (Nat.min_eq_left hwithin).symm.trans hlength
  | some last =>
    have hmem : last ∈ u.unackedAbove after :=
      hlater ▸ List.mem_append_left _ (List.mem_of_mem_take (List.mem_of_getLast? hlast))
    have hbounded := huq.bounded last (List.mem_filter.mp ((mem_orderBy Plus.WriteRow.seq).mp hmem)).1
    obtain ⟨w, r, hack⟩ : ∃ w r, u.ackWrites last.seq now = .ok (w, r) := by
      unfold Plus.Vault.ackWrites
      rw [if_neg hbounded.not_gt]
      split
      · exact ⟨_, _, rfl⟩
      · exact ⟨_, _, rfl⟩
    refine ⟨w, r, hack, ?_⟩
    obtain ⟨front, hfront⟩ := List.getLast?_eq_some_iff.mp hlast
    have hsplit : u.unackedAbove after = (front ++ [last]) ++ ((v.unackedAbove after).drop k ++ later) := by
      rw [hlater, ← hfront, ← List.append_assoc, List.take_append_drop]
    have hcut := above_lastKey Plus.WriteRow.seq (List.concat_ne_nil last front) (hsplit ▸ hordered) after
    rw [huq.unackedAbove_acked hack, hsplit]
    simpa [lastKey] using hcut

theorem waiting_write_leaves_the_queue : ∃ v ∈ (Plus.serverAfter (Plus.waitingHistory [])).vaults, ∃ k w r,
    v.ackWrites 1 5 = .ok (w, r) ∧ w.unackedAbove 0 = (v.unackedAbove 0).drop k := by
  have hserver := Plus.serverAfter_reachable (show (Transition.follow Plus.Store.after {} (Plus.waitingHistory [])).isSome by decide)
  obtain ⟨v, hv, hqueue⟩ : ∃ v ∈ (Plus.serverAfter (Plus.waitingHistory [])).vaults,
      v.unackedAbove 0 = [{ Plus.phoneWrite with seq := 1 }] := by decide
  have hrequests : (v.unackedAbove 0).length < 2 := by rw [hqueue]; decide
  obtain ⟨-, k, _, -, hpass⟩ := pass_leaves_what_it_did_not_handle (fun _ => []) v hserver hv hserver hv le_rfl hrequests
    (List.append_nil _).symm samplePlatform (fun _ => {}) [] 5 (fetch_is_the_queue _ _ _ le_rfl hrequests)
  have hacked : (applyAll samplePlatform (fun _ => {}) [sentRow (fun _ => []) { Plus.phoneWrite with seq := 1 }]
      { disk := [] }).ack true = some 1 := by decide +kernel
  rw [hqueue, List.map_singleton, hacked] at hpass
  obtain ⟨w, r, hack, hleft⟩ := hpass
  exact ⟨v, hv, k, w, r, hack, by simpa [hqueue] using hleft⟩

/-! ## The law -/

/-- A desk handles a prefix of a batch: it goes through the first `k` rows and no more, acks the last of them,
and leaves the rest for a later pass. -/
structure HandlesPrefix (desk : Reader) (faults : ℕ → Faults) (disk : Disk) (rows : List WriteRow) (b : Batch)
    (k : ℕ) (reached : Disk) : Prop where
  /-- Rows are taken in increasing seq. -/
  ascending : rows.Pairwise fun row later => row.seq < later.seq
  /-- The rows handled are the longest prefix without a vault failure or an unsupported row. -/
  longest : Reaches (handled desk.platform faults) disk rows k reached
  /-- The row after them is one of those. -/
  blocker : ∀ row, rows[k]? = some row → Blocks desk.platform faults reached row
  blocked : b.blocked.isSome = true ↔ k < rows.length
  /-- The ack is for the last row handled. -/
  acked : b.ack true = (rows.take k).getLast?.map WriteRow.seq
  covered : ∀ row ∈ rows.take k, ∃ seq, b.ack true = some seq ∧ row.seq ≤ seq
  /-- Neither the row that ends the batch nor a later one is acked. -/
  left : ∀ row ∈ rows.drop k, ∀ sent seq, b.ack sent = some seq → seq < row.seq
  /-- Nor are they applied: the disk is as the prefix left it, where the row that ended the batch is not a picture
  whose file the vault failed to write. -/
  unapplied : b.disk = reached ∨ ∃ row bytes, rows[k]? = some row ∧ (faults row.seq).write = .failed (some bytes) ∧
    reached.get row.path = none ∧ b.disk = reached.put row.path bytes
  /-- A refused row changes nothing, does not end the batch and is reported. -/
  refused : ∀ i row before, i < k → rows[i]? = some row →
    through (handled desk.platform faults) disk (rows.take i) = some before →
    (applyWrite desk.platform (faults row.seq) before row).2 = .error .refused →
    through (handled desk.platform faults) disk (rows.take (i + 1)) = some before ∧ row.path ∈ b.refused
  /-- A row from a newer phone is not among those handled. -/
  newer : ∀ row ∈ rows.take k, ¬ desk.FromNewer row

/-- The rows that go through are none that the desk would hold. -/
theorem through_not_newer {desk : Reader} {faults : ℕ → Faults} {disk reached : Disk} {rows : List WriteRow}
    (h : through (handled desk.platform faults) disk rows = some reached) : ∀ row ∈ rows, ¬ desk.FromNewer row := by
  induction rows generalizing disk with
  | nil => exact fun _ hrow => absurd hrow List.not_mem_nil
  | cons row rest ih =>
    obtain ⟨after, hafter, hlater⟩ := Option.bind_eq_some_iff.mp h
    intro found hfound hnewer
    rcases List.mem_cons.mp hfound with rfl | hrest
    · apply handled_eq_some hafter
      exact Or.inr (congrArg Prod.snd (applyWrite_newer desk hnewer (faults found.seq) disk))
    · exact ih hlater found hrest hnewer

/-- One row more is handled from where the rows before it left the disk. -/
theorem through_take_succ {pf : Platform} {faults : ℕ → Faults} {disk before : Disk} {rows : List WriteRow}
    {row : WriteRow} {i : ℕ} (hrow : rows[i]? = some row)
    (hbefore : through (handled pf faults) disk (rows.take i) = some before) :
    through (handled pf faults) disk (rows.take (i + 1)) = handled pf faults before row := by
  have hsplit : rows.take (i + 1) = rows.take i ++ [row] := by
    rw [List.take_add_one, hrow]
    rfl
  rw [hsplit, through_append, hbefore]
  simp

/-- Every batch is drained as a prefix, whatever its rows come to, and a row from a newer phone is held
wherever it stands. -/
theorem drain_covers_what_it_handles (desk : Reader) (faults : ℕ → Faults) (answers : List Answer) (after : ℕ)
    (disk : Disk) {rows : List WriteRow} (h : fetchWrites answers after = some rows) :
    (∃ k reached, HandlesPrefix desk faults disk rows (applyAll desk.platform faults rows { disk }) k reached) ∧
      ∀ row, desk.FromNewer row → ∀ (calls : Faults) (files : Disk),
        applyWrite desk.platform calls files row = (files, .error .unsupported) := by
  refine ⟨?_, fun row hnewer calls files => applyWrite_newer desk hnewer calls files⟩
  obtain ⟨k, reached, hb⟩ := applyAll_handles desk.platform faults rows { disk }
  have hascending : Ordered WriteRow.seq rows := fetchWrites_ascending h
  have hacked : (applyAll desk.platform faults rows { disk }).last = (rows.take k).getLast?.map WriteRow.seq := by
    rw [hb.last, lastSeq_ascending (hascending.sublist (List.take_sublist k rows)) (fun _ hnone => by cases hnone),
      Option.or_none]
  refine ⟨k, reached, hascending, hb.reaches, ?blocker, ?blocked, hacked, ?covered, ?left, hb.disk, ?refused,
    through_not_newer hb.reaches.goes⟩
  case blocker =>
    intro row hrow
    have hlt : k < rows.length := (List.getElem?_eq_some_iff.mp hrow).1
    apply handled_eq_none
    rw [← through_take_succ hrow hb.reaches.goes]
    exact hb.reaches.stops hlt
  case blocked =>
    constructor
    · intro hsome
      by_contra hend
      have hnone := hb.ended (le_antisymm hb.reaches.within (not_lt.mp hend))
      rw [hnone] at hsome
      cases hsome
    · exact hb.stopped
  case covered =>
    intro row hrow
    obtain ⟨front, last, hsplit⟩ : ∃ front last, rows.take k = front ++ [last] :=
      ⟨_, _, (List.dropLast_append_getLast (List.ne_nil_of_mem hrow)).symm⟩
    refine ⟨last.seq, ?_, ?_⟩
    · simp only [Batch.ack, if_true, hacked, hsplit, List.getLast?_concat, Option.map_some]
    · have hord := hascending.sublist (List.take_sublist k rows)
      rw [hsplit] at hrow hord
      rcases List.mem_append.mp hrow with hfront | hself
      · exact ((List.pairwise_append.mp hord).2.2 row hfront last (List.mem_singleton_self last)).le
      · rw [List.mem_singleton.mp hself]
  case left =>
    intro row hrow sent seq hack
    cases sent with
    | false => cases hack
    | true =>
      have hseq : (rows.take k).getLast?.map WriteRow.seq = some seq := hacked.symm.trans hack
      obtain ⟨last, hlast, rfl⟩ := Option.map_eq_some_iff.mp hseq
      have hord := hascending
      rw [← List.take_append_drop k rows] at hord
      exact (List.pairwise_append.mp hord).2.2 last (List.mem_of_getLast? hlast) row hrow
  case refused =>
    intro i row before hi hrow hbefore hrefuses
    rw [through_take_succ hrow hbefore]
    exact ⟨handled_refused hrefuses, hb.named i row before hi hrow hbefore hrefuses⟩

/-! ## A batch with garbage and a newer phone's write -/

/-- A document of version 0, which no build ever read, of a kind this one does not know. -/
def olderDocument : Text :=
  "\x7b\"v\":0,\"client_id\":\"c\",\"kind\":\"teleport\",\"path\":\"p.md\"\x7d".toList

/-- A document of version 2. -/
def newerDocument : Text := "\x7b\"v\":2,\"client_id\":\"d\",\"kind\":\"create\",\"path\":\"p.md\"\x7d".toList

def olderValue : Json :=
  .object [("v".toList, .number (.unsigned 0)), ("client_id".toList, .string "c".toList),
    ("kind".toList, .string "teleport".toList), ("path".toList, .string "p.md".toList)]

def newerValue : Json :=
  .object [("v".toList, .number (.unsigned 2)), ("client_id".toList, .string "d".toList),
    ("kind".toList, .string "create".toList), ("path".toList, .string "p.md".toList)]

/-- The rows the two are sent in. -/
def olderRow : WriteRow :=
  ⟨1, "p.md".toList, "c".toList,
    "eyJ2IjowLCJjbGllbnRfaWQiOiJjIiwia2luZCI6InRlbGVwb3J0IiwicGF0aCI6InAubWQifQ==".toList⟩

def newerRow : WriteRow :=
  ⟨2, "p.md".toList, "d".toList, "eyJ2IjoyLCJjbGllbnRfaWQiOiJkIiwia2luZCI6ImNyZWF0ZSIsInBhdGgiOiJwLm1kIn0=".toList⟩

/-- A JSON library that knows the two documents. -/
def sampleSerde : Serde where
  fromStr := fun text =>
    if text = olderDocument then .ok olderValue
    else if text = newerDocument then .ok newerValue else .error "expected value".toList
  fromValue := fun _ => .error "missing field".toList

/-- A desk that reads the two documents, from envelopes that are not sealed. -/
def sampleReader : Reader where
  pf := { samplePlatform with
    decodeBase64 := fun text =>
      if text = olderRow.payload then some (encodeUtf8 olderDocument)
      else if text = newerRow.payload then some (encodeUtf8 newerDocument) else none }
  codec := { openSealed := fun _ envelope => some envelope, serde := sampleSerde }

/-- The two rows, one a page. -/
def sampleAnswers : List Answer :=
  [fun after => if h : after < 1 then
      some ⟨[olderRow], true, List.pairwise_singleton _ _, fun row hrow => by rw [List.mem_singleton.mp hrow]; exact h⟩
    else none,
   fun after => if h : after < 2 then
      some ⟨[newerRow], false, List.pairwise_singleton _ _, fun row hrow => by rw [List.mem_singleton.mp hrow]; exact h⟩
    else none]

/-- Garbage is passed over and acked, the newer phone's write after it is held. -/
theorem newer_row_waits :
    ((∃ k reached, HandlesPrefix sampleReader (fun _ => {}) [] [olderRow, newerRow]
        (applyAll sampleReader.platform (fun _ => {}) [olderRow, newerRow] { disk := [] }) k reached) ∧
      ∀ row, sampleReader.FromNewer row → ∀ (calls : Faults) (files : Disk),
        applyWrite sampleReader.platform calls files row = (files, .error .unsupported)) ∧
      (applyAll sampleReader.platform (fun _ => {}) [olderRow, newerRow] { disk := [] }).ack true = some 1 := by
  have hfetched : fetchWrites sampleAnswers 0 = some [olderRow, newerRow] := by decide +kernel
  exact ⟨drain_covers_what_it_handles sampleReader (fun _ => {}) sampleAnswers 0 [] hfetched, by decide +kernel⟩

/-- A row of an unknown kind is refused and acked when its version is one no build ever read. -/
theorem older_unknown_kind_is_refused :
    ∃ (desk : Reader) (row : WriteRow) (value : Json) (kind : Text), desk.document row = some value ∧
      value.kind = some kind ∧ kind ∉ knownKinds ∧
      (applyAll desk.platform (fun _ => {}) [row] { disk := [] }).refused = [row.path] ∧
      (applyAll desk.platform (fun _ => {}) [row] { disk := [] }).blocked = none ∧
      (applyAll desk.platform (fun _ => {}) [row] { disk := [] }).ack true = some row.seq := by
  have hunseal : sampleReader.unseal olderRow.clientId olderRow.payload = some olderDocument := by decide +kernel
  have hread : sampleReader.document olderRow = some olderValue := by
    have hfrom : sampleSerde.fromStr olderDocument = .ok olderValue := by
      dsimp only [sampleSerde]
      exact if_pos rfl
    rw [Reader.document, hunseal]
    exact congrArg Except.toOption hfrom
  have hdrained : applyAll sampleReader.platform (fun _ => {}) [olderRow] { disk := [] } =
      { disk := [], refused := [olderRow.path], last := some 1 } := by decide +kernel
  refine ⟨sampleReader, olderRow, olderValue, "teleport".toList, hread, rfl, by decide, ?_⟩
  rw [hdrained]
  exact ⟨rfl, rfl, rfl⟩

end Thock.Desk.VaultSync.Drain
