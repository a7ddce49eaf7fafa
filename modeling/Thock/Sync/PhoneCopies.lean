import Thock.Sync.PhoneRounds

/-!
# The phone's copies

What a phone holds of the desk's at a path is the hash and the text of a snapshot. Its own steps
leave every copy, but that of a note it moves away. A row taken from a page replaces the copy of
its path, unless the fetch failed or the path is a picture's, and the end of a full pull takes
the copies of what was not listed.
-/

namespace Thock.Sync

open TextScan
open Plus (FileRow)
open ThockKit (Path Phone VaultStore Pulling PlannedWrite PendingWrite takeRow finishPull isSyncableImagePath)
open ThockKit.VaultStore (rebuild rebuildHeld)

variable {Seed : Type}

/-! ## The phone's copies -/

/-- What the phone holds of the desk's at a path: the hash and the text of a snapshot. -/
def copy (store : VaultStore Seed) (path : Path) : Option Text × Option Text :=
  (store.contentHash path, store.snapshot path)

/-- A hash stands for a text, and a text has its hash. -/
def Whole (store : VaultStore Seed) : Prop := ∀ path, (copy store path).1.isSome = (copy store path).2.isSome

/-- A rebuild leaves its path the copy it was given, and the others theirs. -/
theorem copy_rebuild (phone : Phone Seed) (store : VaultStore Seed) (path : Path) (version : ℕ)
    (text hash blobId : Option Text) (hwhole : hash.isSome → text.isSome) (other : Path) :
    copy (store.rebuild phone path version text hash blobId) other =
      if other = path then (hash, text) else copy store other := by
  split
  · next heq =>
    rw [heq]
    have hsnapshot := VaultStore.snapshot_rebuild phone store path version text hash blobId
    have hhash : (store.rebuild phone path version text hash blobId).contentHash path = hash := by
      have hsome := VaultStore.rebased_isSome phone store text path
      unfold VaultStore.rebuild
      cases hrebased : store.rebased phone text path with
      | some shown => simp [VaultStore.contentHash]
      | none =>
        rw [hrebased] at hsome
        cases hash with
        | none => simp [VaultStore.contentHash]
        | some digest =>
          rw [hwhole rfl] at hsome
          simp at hsome
    exact Prod.ext hhash hsnapshot
  · next hne =>
    unfold copy VaultStore.contentHash VaultStore.snapshot
    rw [VaultStore.get_rebuild_of_ne phone store version text hash blobId hne]

/-- A rebuild from what is held leaves every copy. -/
theorem copy_rebuildHeld (phone : Phone Seed) {store : VaultStore Seed} (hwhole : Whole store) (path other : Path) :
    copy (store.rebuildHeld phone path) other = copy store other := by
  unfold VaultStore.rebuildHeld
  rw [copy_rebuild]
  · split
    · next heq =>
      rw [heq]
      rfl
    · rfl
  · exact fun hsome => (hwhole path).symm.trans hsome

theorem Whole.of_copy {a b : VaultStore Seed} (h : Whole a)
    (hcopy : ∀ path, copy b path = copy a path ∨ copy b path = (none, none)) : Whole b := by
  intro path
  rcases hcopy path with hsame | hnone
  · rw [hsame]
    exact h path
  · rw [hnone]

theorem copy_rebuilds (phone : Phone Seed) (paths : List Path) {store : VaultStore Seed} (hwhole : Whole store)
    (other : Path) : copy (paths.foldl (rebuildHeld phone) store) other = copy store other := by
  induction paths generalizing store with
  | nil => rfl
  | cons first rest ih =>
    have hsame := copy_rebuildHeld phone hwhole first
    rw [List.foldl_cons, ih (hwhole.of_copy fun path => Or.inl (hsame path)), hsame]

/-- What a rebuild leaves of the rest of the store. -/
theorem rebuild_cursor (phone : Phone Seed) (store : VaultStore Seed) (path : Path) (version : ℕ)
    (text hash blobId : Option Text) :
    (store.rebuild phone path version text hash blobId).cursor = store.cursor ∧
      (store.rebuild phone path version text hash blobId).refetchPaths = store.refetchPaths := by
  unfold VaultStore.rebuild
  split <;> exact ⟨rfl, rfl⟩

theorem rebuilds_cursor (phone : Phone Seed) (paths : List Path) (store : VaultStore Seed) :
    (paths.foldl (rebuildHeld phone) store).cursor = store.cursor ∧
      (paths.foldl (rebuildHeld phone) store).refetchPaths = store.refetchPaths := by
  induction paths generalizing store with
  | nil => exact ⟨rfl, rfl⟩
  | cons first rest ih =>
    obtain ⟨hcursor, hrefetch⟩ := ih (store.rebuildHeld phone first)
    have hone : (store.rebuildHeld phone first).cursor = store.cursor ∧
        (store.rebuildHeld phone first).refetchPaths = store.refetchPaths := by
      unfold VaultStore.rebuildHeld
      exact rebuild_cursor phone store first _ _ _ _
    exact ⟨hcursor.trans hone.1, hrefetch.trans hone.2⟩

/-! ## What the phone's own steps do to its copies -/

/-- A step of the phone's own: the cursor stands and a copy is lost only where a note is moved away. -/
structure Keeps (store after : VaultStore Seed) (left : List Path) : Prop where
  cursor : after.cursor = store.cursor
  refetch : after.refetchPaths = store.refetchPaths
  copies : ∀ path, copy after path = copy store path ∨ (path ∈ left ∧ copy after path = (none, none))

theorem Keeps.refl (store : VaultStore Seed) (left : List Path) : Keeps store store left :=
  ⟨rfl, rfl, fun _ => Or.inl rfl⟩

theorem Keeps.whole {store after : VaultStore Seed} {left : List Path} (h : Keeps store after left)
    (hwhole : Whole store) : Whole after :=
  hwhole.of_copy fun path => (h.copies path).imp_right And.right

/-- A step that leaves the rows of notes alone. -/
theorem Keeps.of_files {store after : VaultStore Seed} (hfiles : after.files = store.files)
    (hcursor : after.cursor = store.cursor) (hrefetch : after.refetchPaths = store.refetchPaths) :
    Keeps store after [] := by
  refine ⟨hcursor, hrefetch, fun path => Or.inl ?_⟩
  unfold copy VaultStore.contentHash VaultStore.snapshot
  rw [hfiles]

theorem keeps_discard (phone : Phone Seed) {store : VaultStore Seed} (hwhole : Whole store) (clientId : Text) :
    Keeps store (store.discard phone clientId) [] := by
  unfold VaultStore.discard
  split
  · exact Keeps.refl store []
  · next write _ =>
    have hqueue : Whole ({ store with pendingWrites := store.pendingWrites.filter fun write =>
        write.document.clientId ≠ clientId } : VaultStore Seed) := hwhole
    obtain ⟨hcursor, hrefetch⟩ := rebuilds_cursor phone [write.document.path]
      { store with pendingWrites := store.pendingWrites.filter fun write => write.document.clientId ≠ clientId }
    exact ⟨hcursor, hrefetch, fun path => Or.inl (copy_rebuildHeld phone hqueue write.document.path path)⟩

theorem keeps_prune (phone : Phone Seed) {store : VaultStore Seed} (hwhole : Whole store)
    (ackedThroughSeq ackedAtVersion : ℕ) : Keeps store (store.prune phone ackedThroughSeq ackedAtVersion) [] := by
  unfold VaultStore.prune
  split
  · exact Keeps.refl store []
  · have hqueue : Whole ({ store with pendingWrites := store.unacked ackedThroughSeq } : VaultStore Seed) := hwhole
    obtain ⟨hcursor, hrefetch⟩ := rebuilds_cursor phone (store.acked ackedThroughSeq)
      { store with pendingWrites := store.unacked ackedThroughSeq }
    exact ⟨hcursor, hrefetch, fun path => Or.inl (copy_rebuilds phone _ hqueue path)⟩

theorem keeps_queue {store after : VaultStore Seed} {write : PendingWrite Seed} (h : store.queue write = some after) :
    after.files = store.files ∧ after.cursor = store.cursor ∧ after.refetchPaths = store.refetchPaths := by
  obtain ⟨rfl, -⟩ := VaultStore.queue_some h
  exact ⟨rfl, rfl, rfl⟩

/-- Putting a row under a path that shows nothing, or editing one that is there, leaves the copies. -/
theorem copy_put {store after : VaultStore Seed} {path : Path} {row : ThockKit.FileRow}
    (hfiles : after.files = store.files.put path row) (hrow : (row.contentHash, row.snapshot) = copy store path)
    (other : Path) : copy after other = copy store other := by
  unfold copy VaultStore.contentHash VaultStore.snapshot at hrow ⊢
  rw [hfiles]
  by_cases heq : other = path
  · rw [heq, Table.get_put_self]
    exact hrow
  · rw [Table.get_put_of_ne _ _ heq]

theorem copy_of_content_none {store : VaultStore Seed} {path : Path} (h : store.content path = none) :
    copy store path = (none, none) := by
  have hrow : store.files.get path = none := Option.map_eq_none_iff.mp h
  unfold copy VaultStore.contentHash VaultStore.snapshot
  rw [hrow]
  rfl

theorem Keeps.trans {store between after : VaultStore Seed} {first later : List Path} (h : Keeps store between first)
    (h' : Keeps between after later) : Keeps store after (first ++ later) := by
  refine ⟨h'.cursor.trans h.cursor, h'.refetch.trans h.refetch, fun path => ?_⟩
  rcases h'.copies path with hsame | ⟨hleft, hnone⟩
  · rcases h.copies path with hheld | ⟨hleft, hnone⟩
    · exact Or.inl (hsame.trans hheld)
    · exact Or.inr ⟨List.mem_append_left _ hleft, hsame.trans hnone⟩
  · exact Or.inr ⟨List.mem_append_right _ hleft, hnone⟩

/-- A move on the local copy takes the copy of the path it leaves, and no other. -/
theorem keeps_renameFile {store after : VaultStore Seed} {document : ThockKit.WriteDocument}
    {outcome : SyncCore.Outcome} (h : store.renameFile document = some (after, outcome)) :
    after.cursor = store.cursor ∧ after.refetchPaths = store.refetchPaths ∧ ∀ path, copy after path = copy store path ∨
      (path = document.path ∧ (store.content path).isSome ∧ after.content path = none ∧
        copy after path = (none, none)) := by
  unfold VaultStore.renameFile at h
  cases hto : document.toPath with
  | none =>
    simp only [hto, Option.some.injEq, Prod.mk.injEq] at h
    obtain ⟨rfl, -⟩ := h
    exact ⟨rfl, rfl, fun _ => Or.inl rfl⟩
  | some to_ =>
    cases hsource : store.content document.path with
    | none =>
      simp only [hto, hsource, Option.some.injEq, Prod.mk.injEq] at h
      obtain ⟨rfl, -⟩ := h
      exact ⟨rfl, rfl, fun _ => Or.inl rfl⟩
    | some source =>
      simp only [hto, hsource] at h
      cases htaken : store.content to_ with
      | some there =>
        simp only [htaken, Option.isSome_some, if_true, Option.some.injEq, Prod.mk.injEq] at h
        obtain ⟨rfl, -⟩ := h
        exact ⟨rfl, rfl, fun _ => Or.inl rfl⟩
      | none =>
        simp only [htaken, Option.isSome_none, Bool.false_eq_true, if_false, Option.map_eq_some_iff] at h
        obtain ⟨queued, hqueue, hafter⟩ := h
        obtain ⟨rfl, -⟩ := Prod.mk.inj hafter
        obtain ⟨hfiles, hcursor, hrefetch⟩ := keeps_queue hqueue
        refine ⟨hcursor, hrefetch, fun path => ?_⟩
        unfold copy VaultStore.contentHash VaultStore.snapshot VaultStore.content
        rw [hfiles]
        by_cases hpath : path = document.path
        · right
          rw [hpath, Table.get_erase_self]
          exact ⟨rfl, by rw [← VaultStore.content, hsource]; rfl, rfl, rfl⟩
        · left
          rw [Table.get_erase_of_ne _ hpath]
          by_cases heq : path = to_
          · have hnothing := copy_of_content_none htaken
            rw [heq, Table.get_put_self]
            exact hnothing.symm
          · rw [Table.get_put_of_ne _ _ heq]

theorem keeps_storeBlob {phone : Phone Seed} {store after : VaultStore Seed} {document : ThockKit.WriteDocument}
    {outcome : SyncCore.Outcome} (h : store.storeBlob phone document = some (after, outcome)) :
    Keeps store after [] := by
  unfold VaultStore.storeBlob at h
  split at h
  · split at h
    · obtain ⟨rfl, -⟩ := Prod.mk.inj (Option.some.inj h)
      exact Keeps.refl store []
    · obtain ⟨queued, hqueue, hafter⟩ := Option.map_eq_some_iff.mp h
      obtain ⟨rfl, -⟩ := Prod.mk.inj hafter
      obtain ⟨hfiles, hcursor, hrefetch⟩ := keeps_queue hqueue
      exact Keeps.of_files hfiles hcursor hrefetch
  · obtain ⟨rfl, -⟩ := Prod.mk.inj (Option.some.inj h)
    exact Keeps.refl store []

theorem keeps_editFile {phone : Phone Seed} {store after : VaultStore Seed} {planned : PlannedWrite Seed}
    {outcome : SyncCore.Outcome} (h : store.editFile phone planned = some (after, outcome)) : Keeps store after [] := by
  unfold VaultStore.editFile at h
  simp only at h
  split at h
  · obtain ⟨rfl, -⟩ := Prod.mk.inj (Option.some.inj h)
    exact Keeps.refl store []
  · obtain ⟨queued, hqueue, hafter⟩ := Option.map_eq_some_iff.mp h
    obtain ⟨rfl, -⟩ := Prod.mk.inj hafter
    obtain ⟨hfiles, hcursor, hrefetch⟩ := keeps_queue hqueue
    refine ⟨hcursor, hrefetch, fun path => Or.inl (copy_put hfiles ?_ path)⟩
    unfold copy VaultStore.contentHash VaultStore.snapshot
    cases store.files.get planned.document.path <;> rfl

/-- A write of the person's loses a copy only where it moves the note away. -/
theorem keeps_recordOne {phone : Phone Seed} {store after : VaultStore Seed} {planned : PlannedWrite Seed}
    {outcome : SyncCore.Outcome} (h : store.recordOne phone planned = some (after, outcome)) :
    Keeps store after (if planned.document.kind = .moveFile ∧ (store.content planned.document.path).isSome ∧
      after.content planned.document.path = none then [planned.document.path] else []) := by
  unfold VaultStore.recordOne at h
  split at h
  · next hmove =>
    obtain ⟨hcursor, hrefetch, hcopies⟩ := keeps_renameFile h
    refine ⟨hcursor, hrefetch, fun path => (hcopies path).imp_right ?_⟩
    rintro ⟨rfl, hsource, hgone, hnone⟩
    rw [if_pos ⟨hmove, hsource, hgone⟩]
    exact ⟨List.mem_singleton_self _, hnone⟩
  · next hstays =>
    rw [if_neg fun hmoved => hstays hmoved.1]
    split at h
    · exact keeps_storeBlob h
    · exact keeps_editFile h

/-- The person's writes lose copies only where they move notes away. -/
theorem keeps_record {phone : Phone Seed} {writes : List (PlannedWrite Seed)} {store after : VaultStore Seed}
    {outcomes : List SyncCore.Outcome} (h : store.record phone writes = some (after, outcomes)) :
    Keeps store after (leaves phone store writes) := by
  induction writes generalizing store outcomes with
  | nil =>
    obtain ⟨rfl, -⟩ := Prod.mk.inj (Option.some.inj h)
    exact Keeps.refl store _
  | cons planned rest ih =>
    unfold VaultStore.record at h
    obtain ⟨⟨between, outcome⟩, hone, hlater⟩ := Option.bind_eq_some_iff.mp h
    obtain ⟨⟨last, later⟩, hrest, hafter⟩ := Option.map_eq_some_iff.mp hlater
    obtain ⟨rfl, -⟩ := Prod.mk.inj hafter
    unfold leaves
    rw [hone]
    exact (keeps_recordOne hone).trans (ih hrest)

/-! ## What a pull does to them -/

/-- A row taken from a page: its path holds the row's copy, unless the fetch failed or the path is a picture's. -/
structure Takes (phone : Phone Seed) (store : VaultStore Seed) (round : Round) (row : FileRow)
    (after : Pulling Seed) : Prop where
  cursor : after.store.cursor = store.cursor
  refetch : after.store.refetchPaths = store.refetchPaths
  since : after.since = round.since
  fullPull : after.fullPull = round.fullPull
  listed : after.listed = if row.deleted then round.listed else row.path.toList :: round.listed
  others : ∀ path, path ≠ row.path.toList → copy after.store path = copy store path
  taken : (after.store.contentHash row.path.toList = row.contentHash.map String.toList ∧ after.failed = round.failed) ∨
    (after.store = store ∧ round.failed ⊆ after.failed ∧
      (row.path.toList ∈ after.failed ∨ isPicture phone row.path.toList = true))
  whole : Whole after.store

theorem takes_row (phone : Phone Seed) {store : VaultStore Seed} (hwhole : Whole store) (round : Round)
    {row : FileRow} (hshaped : Shaped row) (arrives : Option Text) :
    Takes phone store round row (takeRow phone (round.pulling store) (remoteFile row arrives)) := by
  unfold Shaped at hshaped
  unfold takeRow
  cases hdeleted : row.deleted with
  | true =>
    rw [if_pos hdeleted] at hshaped
    have hcopy := copy_rebuild phone store row.path.toList row.version none none none (by simp)
    obtain ⟨hcursor, hrefetch⟩ := rebuild_cursor phone store row.path.toList row.version none none none
    simp only [remoteFile, Round.pulling, hdeleted, if_true]
    refine ⟨hcursor, hrefetch, rfl, rfl, by simp [hdeleted], fun path hne => ?_, Or.inl ⟨?_, rfl⟩, ?_⟩
    · exact (hcopy path).trans (if_neg hne)
    · have hhash := congrArg Prod.fst (hcopy row.path.toList)
      rw [if_pos rfl] at hhash
      rw [hshaped]
      exact hhash
    · apply hwhole.of_copy
      intro path
      by_cases heq : path = row.path.toList
      · exact Or.inr ((hcopy path).trans (if_pos heq))
      · exact Or.inl ((hcopy path).trans (if_neg heq))
  | false =>
    rw [if_neg (by simp [hdeleted])] at hshaped
    obtain ⟨⟨hash, hhash⟩, ⟨blobId, hblob⟩⟩ :=
      And.imp Option.isSome_iff_exists.mp Option.isSome_iff_exists.mp hshaped
    simp only [remoteFile, Round.pulling, hdeleted, Bool.false_eq_true, if_false, hhash, hblob, Option.map_some]
    by_cases hpicture : isSyncableImagePath phone row.path.toList (phone.imagesDir store.content) = true
    · rw [if_pos hpicture]
      exact ⟨rfl, rfl, rfl, rfl, by simp [hdeleted], fun _ _ => rfl,
        Or.inr ⟨rfl, List.Subset.refl _, Or.inr (isPicture_of_syncable hpicture)⟩, hwhole⟩
    · rw [if_neg hpicture]
      by_cases hsame : store.contentHash row.path.toList = some hash.toList
      · rw [if_pos hsame]
        exact ⟨rfl, rfl, rfl, rfl, by simp [hdeleted], fun _ _ => rfl,
          Or.inl ⟨by rw [hsame, hhash]; rfl, rfl⟩, hwhole⟩
      · rw [if_neg hsame]
        cases arrives with
        | none =>
          exact ⟨rfl, rfl, rfl, rfl, by simp [hdeleted], fun _ _ => rfl,
            Or.inr ⟨rfl, List.subset_cons_self _ _, Or.inl List.mem_cons_self⟩, hwhole⟩
        | some text =>
          have hcopy := copy_rebuild phone store row.path.toList row.version (some text) (some hash.toList)
            (some blobId.toList) (fun _ => rfl)
          obtain ⟨hcursor, hrefetch⟩ := rebuild_cursor phone store row.path.toList row.version (some text)
            (some hash.toList) (some blobId.toList)
          refine ⟨hcursor, hrefetch, rfl, rfl, by simp [hdeleted], fun path hne => ?_, Or.inl ⟨?_, rfl⟩, ?_⟩
          · exact (hcopy path).trans (if_neg hne)
          · have hheld := congrArg Prod.fst (hcopy row.path.toList)
            rw [if_pos rfl] at hheld
            rw [hhash]
            exact hheld
          · intro path
            change (copy (store.rebuild phone _ _ _ _ _) path).1.isSome = _
            by_cases heq : path = row.path.toList
            · have hnew := (hcopy path).trans (if_pos heq)
              exact congrArg (fun pair => pair.1.isSome) hnew |>.trans (congrArg (fun pair => pair.2.isSome) hnew).symm
            · have hold := (hcopy path).trans (if_neg heq)
              exact (congrArg (fun pair => pair.1.isSome) hold).trans
                ((hwhole path).trans (congrArg (fun pair => pair.2.isSome) hold).symm)

/-- A file of a full pull that is dropped or rebuilt from nothing has no copy after. -/
theorem copy_dropFiles (phone : Phone Seed) (waiting paths : List Path) (store : VaultStore Seed) (other : Path) :
    copy (paths.foldl (ThockKit.Move.dropFile phone waiting) store) other =
      if other ∈ paths then (none, none) else copy store other := by
  have hone (store : VaultStore Seed) (path : Path) : copy (ThockKit.Move.dropFile phone waiting store path) other =
      if other = path then (none, none) else copy store other := by
    unfold ThockKit.Move.dropFile
    split
    · exact copy_rebuild phone store path 0 none none none (by simp) other
    · unfold copy VaultStore.contentHash VaultStore.snapshot
      rw [Table.get_erase]
      split <;> rfl
  induction paths generalizing store with
  | nil => rfl
  | cons first rest ih =>
    rw [List.foldl_cons, ih, hone]
    by_cases hrest : other ∈ rest
    · simp [hrest]
    · simp [hrest]

/-- The end of a pull: a full one takes the copies of what is not listed, and the cursor and the failures move. -/
theorem copy_finishPull (phone : Phone Seed) (store : VaultStore Seed) (round : Round) (path : Path) :
    copy (finishPull phone (round.pulling store)) path =
      if round.fullPull = true ∧ path ∉ round.listed then (none, none) else copy store path := by
  change copy (if round.fullPull then store.removeFiles phone round.listed else store) path = _
  cases hfull : round.fullPull with
  | false => simp
  | true =>
    simp only [if_true, true_and]
    change copy ((store.paths.filter fun path => path ∉ round.listed).foldl
      (ThockKit.Move.dropFile phone (store.pending.map fun write => write.document.path)) store) path = _
    rw [copy_dropFiles]
    by_cases hlisted : path ∈ round.listed
    · simp [hlisted]
    · by_cases hheld : path ∈ store.paths
      · simp [hlisted, hheld]
      · have hnothing : store.content path = none := by
          rw [VaultStore.mem_paths] at hheld
          exact Option.not_isSome_iff_eq_none.mp hheld
        simp [hlisted, hheld, copy_of_content_none hnothing]

end Thock.Sync
