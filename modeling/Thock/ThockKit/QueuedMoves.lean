import Thock.ThockKit.SyncEngine

/-!
# Moves waiting for the desk

A move the phone queued is one pending row at the path the note left, while the note already
stands at the path it goes to. A rebuild looks at one path: it leaves a text where it has a
snapshot or a text write waits for the path, and a move is neither. So the note is safe in the
rounds whose steps never rebuild or drop either end without such a text, and never give the
end it left one.
-/

namespace Thock.ThockKit

open TextScan Transition

variable {Seed : Type}

/-! ## What a round does to one path -/

namespace VaultStore

/-- Which writes wait for a path is settled by the queue. -/
theorem awaits_congr {a b : VaultStore Seed} (hqueue : a.pendingWrites = b.pendingWrites) (path : Path) :
    a.awaits path = b.awaits path := by
  unfold awaits pendingAt pending
  rw [hqueue]

/-- A path is listed exactly when it is held. -/
theorem mem_paths (store : VaultStore Seed) (path : Path) : path ∈ store.paths ↔ (store.content path).isSome := by
  unfold paths content Table.get
  rw [(List.perm_insertionSort _ _).mem_iff, List.mem_dedup, Option.isSome_map, Option.isSome_map, List.find?_isSome, List.mem_map]
  simp

@[simp] theorem rebuildHeld_pendingWrites (phone : Phone Seed) (store : VaultStore Seed) (path : Path) :
    (store.rebuildHeld phone path).pendingWrites = store.pendingWrites := rebuild_pendingWrites ..

end VaultStore

open VaultStore

/-! ## Moves and what spares them -/

/-- A move of a note, with the path it goes to. -/
structure Move where
  document : WriteDocument
  to_ : Path
  isMove : document.kind = .moveFile
  leads : document.toPath = some to_

namespace Move

/-- The path the note left. -/
def source (move : Move) : Path := move.document.path

def Queued (move : Move) (store : VaultStore Seed) : Prop :=
  ∃ write ∈ store.pendingWrites, write.document = move.document

instance (move : Move) (store : VaultStore Seed) : Decidable (move.Queued store) :=
  inferInstanceAs (Decidable (∃ write ∈ store.pendingWrites, write.document = move.document))

/-- A rebuild of a path from the snapshot it holds does the move no harm: nothing comes back where the
note left, and where it went a text is left. -/
def KeptBy (move : Move) (store : VaultStore Seed) (path : Path) : Prop :=
  (path = move.source → store.awaits path = false) ∧
    (path = move.to_ → ((store.files.get path).bind FileRow.snapshot).isSome ∨ store.awaits path = true)

/-- The rows a pull takes. -/
def rows : List Answer → List RemoteFile
  | .page files _ hasMore :: rest => files ++ if hasMore then rows rest else []
  | .cursorExpired :: rest => rows rest
  | _ => []

/-- What a full pull that goes through has listed at its end, from what it had listed so far. -/
def listing : Bool → List Path → List Answer → Option (List Path)
  | fullPull, listed, .page files _ hasMore :: rest =>
    let listed := listed ++ (files.filter fun row => !row.deleted).map RemoteFile.path
    if hasMore then listing fullPull listed rest else if fullPull then some listed else none
  | _, _, .cursorExpired :: rest => listing true [] rest
  | _, _, _ => none

/-- A row that does the move no harm: no text arrives where the note left, and a tombstone of either end
finds no text write there, or finds one. -/
def KeptByRow (move : Move) (store : VaultStore Seed) (row : RemoteFile) : Prop :=
  (row.path = move.source →
    if row.deleted then store.awaits row.path = false
    else row.contentHash = none ∨ row.blobId = none ∨ row.arrives = none) ∧
  (row.path = move.to_ → row.deleted = true → store.awaits row.path = true)

/-- The condition on a step and the store before it. -/
def Spared (move : Move) (store : VaultStore Seed) : Action Seed → Prop
  | .record _ => True
  | .sent _ _ => True
  | .refused clientId =>
    ∀ write, store.pendingWrites.find? (fun write => write.document.clientId = clientId) = some write →
      move.KeptBy
        { store with pendingWrites := store.pendingWrites.filter fun write => write.document.clientId ≠ clientId }
        write.document.path
  | .pull answers =>
    (∀ row ∈ rows answers, move.KeptByRow store row) ∧
      ∀ listed, listing (startsFull store) [] answers = some listed → move.to_ ∈ listed ∨ store.awaits move.to_ = true
  | .prune seq version => version ≤ store.cursor →
    ∀ path ∈ store.acked seq, move.KeptBy { store with pendingWrites := store.unacked seq } path

/-- The steps of rounds, as long as the move waits for the desk. -/
def rounds (phone : Phone Seed) (move : Move) (store : VaultStore Seed) (action : Action Seed)
    (after : VaultStore Seed) : Prop :=
  (∀ writes, action ≠ .record writes) ∧ next phone store action after ∧ move.Queued after

/-- A note that stands where the move put it, and not where it was. -/
structure Done (move : Move) (store : VaultStore Seed) : Prop where
  readable : (store.content move.to_).isSome
  gone : store.content move.source = none

/-- What a later store keeps of an earlier one: the note where it went, and nothing where it left. -/
structure Stays (move : Move) (store after : VaultStore Seed) : Prop where
  readable : (store.content move.to_).isSome → (after.content move.to_).isSome
  gone : store.content move.source = none → after.content move.source = none

theorem Stays.refl (move : Move) (store : VaultStore Seed) : move.Stays store store := ⟨id, id⟩

theorem Stays.trans {move : Move} {a b c : VaultStore Seed} (hab : move.Stays a b) (hbc : move.Stays b c) :
    move.Stays a c :=
  ⟨fun h => hbc.readable (hab.readable h), fun h => hbc.gone (hab.gone h)⟩

/-- Recording a move that applies does it. -/
theorem done_of_renameFile {move : Move} {store after : VaultStore Seed}
    (h : store.renameFile move.document = some (after, .applied)) : move.Done after ∧ move.Queued after := by
  unfold renameFile at h
  rw [move.leads] at h
  cases hsource : store.content move.document.path with
  | none => simp [hsource] at h
  | some text =>
    simp only [hsource] at h
    split at h
    · simp at h
    case isFalse hfree =>
      have hne : move.to_ ≠ move.document.path := by
        intro heq
        rw [heq, hsource] at hfree
        exact hfree rfl
      unfold queue at h
      split at h
      · simp at h
      · simp only [Option.map_some, Option.some.injEq, Prod.mk.injEq, and_true] at h
        subst h
        constructor
        · constructor
          · simp [content, hne]
          · simp [content, source]
        · exact ⟨⟨move.document, store.version move.document.path, none, none⟩, by simp, rfl⟩

/-! ## Rebuilds -/

/-! ## Steps -/

theorem KeptByRow.congr {move : Move} {a b : VaultStore Seed} (hqueue : a.pendingWrites = b.pendingWrites)
    {row : RemoteFile} (h : move.KeptByRow a row) : move.KeptByRow b row := by
  unfold KeptByRow at h ⊢
  rwa [awaits_congr hqueue] at h

/-! ## Files the desk does not list -/

/-- One file dropped or rebuilt, as `waiting` says. -/
def dropFile (phone : Phone Seed) (waiting : List Path) (store : VaultStore Seed) (path : Path) : VaultStore Seed :=
  if path ∈ waiting then store.rebuild phone path 0 none none none
  else { store with files := store.files.erase path }

@[simp] theorem dropFile_pendingWrites (phone : Phone Seed) (waiting : List Path) (store : VaultStore Seed)
    (path : Path) : (dropFile phone waiting store path).pendingWrites = store.pendingWrites := by
  unfold dropFile
  split
  · exact rebuild_pendingWrites ..
  · rfl

end Move

/-! ## A note moved out of the inbox -/

/-- A phone on plain text, without templates. -/
def plainPhone : Phone Unit where
  prim := { isAlphanumeric := Char.isAlphanum, toLowercase := fun c => [c.toLower], lowercase := List.map Char.toLower,
            shortHash := id }
  isNfc := fun _ => true
  decodeBase64 := fun _ => none
  imagesDir := fun _ => []
  expandSeed := fun _ _ => none

/-- Out of `i.md` into `a.md`. -/
def archive : Move :=
  { document := { clientId := ['m'], kind := .moveFile, path := ['i', '.', 'm', 'd'], toPath := some ['a', '.', 'm', 'd'] },
    to_ := ['a', '.', 'm', 'd'], isMove := rfl, leads := rfl }

/-- The desk's copy of a note. -/
def deskCopy (path : Path) (version : ℕ) : RemoteFile := ⟨path, version, false, some ['h'], some ['b'], some ['x']⟩

/-- The phone pulls a note and moves it. -/
def archived : VaultStore Unit :=
  step plainPhone (step plainPhone .empty (.pull [.page [deskCopy archive.source 1] none false]))
    (.record [⟨archive.document, none⟩])

/-- The desk archives the note, and the phone pulls that before its ack. -/
def deskMoved : List Answer :=
  [.page [⟨archive.source, 2, true, none, none, none⟩, deskCopy archive.to_ 3] none false]

end Thock.ThockKit
