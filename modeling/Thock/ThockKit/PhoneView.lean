import Thock.ThockKit.QueuedMoves

/-!
# What the phone shows

The phone shows of a path the desk's last snapshot with the writes waiting for that path on
top. Writes that are made keep this one by one, and every rebuild restores it for the path it
names. A move is what it is not kept by: the note is put under its new path without a snapshot,
and nothing but a rebuild of that path ends that.
-/

namespace Thock.ThockKit

open TextScan Transition
open SyncCore (Primitives Outcome)

variable {Seed : Type}

/-! ## The view -/

/-- One waiting write on top of what a path shows; where there is no file a write without effect makes none. -/
def layer (prim : Primitives) (content : Option Text) (write : PendingWrite Seed) : Option Text :=
  let applied := apply prim content write.document none
  if content = none ∧ applied.outcome = .noop then none else some applied.text

/-- A snapshot with writes on top, in the order they were made. -/
def view (prim : Primitives) (snapshot : Option Text) (writes : List (PendingWrite Seed)) : Option Text :=
  writes.foldl (layer prim) snapshot

/-- A file-level write shows nothing of its own. -/
theorem layer_fileLevel (prim : Primitives) (content : Option Text) {write : PendingWrite Seed}
    (hkind : write.document.kind = .moveFile ∨ write.document.kind = .putFile) : layer prim content write = content := by
  cases content with
  | none => simp [layer, apply, hkind]
  | some text => simp [layer, apply, hkind]

namespace VaultStore

/-- The desk's snapshot of a path. -/
def snapshot (store : VaultStore Seed) (path : Path) : Option Text := (store.files.get path).bind FileRow.snapshot

/-- The rows of the queue for a path, in the order they were made. -/
def queuedAt (store : VaultStore Seed) (path : Path) : List (PendingWrite Seed) :=
  store.pendingWrites.filter fun write => write.document.path = path

/-- Every row of the queue reads back. -/
def Readable (store : VaultStore Seed) : Prop := ∀ write ∈ store.pendingWrites, write.document.validate = true

/-- No write waiting for a path names a template. -/
def Unseeded (store : VaultStore Seed) (path : Path) : Prop := ∀ write ∈ store.queuedAt path, write.seed = none

/-- What a path shows is its snapshot with its writes on top. -/
def Shows (phone : Phone Seed) (store : VaultStore Seed) (path : Path) : Prop :=
  store.Unseeded path → store.content path = view phone.prim (store.snapshot path) (store.queuedAt path)

theorem pendingAt_eq {store : VaultStore Seed} (h : store.Readable) (path : Path) :
    store.pendingAt path = store.queuedAt path := by
  unfold pendingAt pending queuedAt
  rw [List.filter_eq_self.mpr h]

/-- A rebase without templates is the view. -/
theorem rebased_eq_view (phone : Phone Seed) {store : VaultStore Seed} (h : store.Readable) {path : Path}
    (hunseeded : store.Unseeded path) (snapshot : Option Text) :
    store.rebased phone snapshot path = view phone.prim snapshot (store.queuedAt path) := by
  unfold rebased view
  rw [pendingAt_eq h]
  unfold Unseeded at hunseeded
  generalize store.queuedAt path = writes at hunseeded
  induction writes generalizing snapshot with
  | nil => rfl
  | cons write rest ih =>
    have hseed : write.seed = none := hunseeded write List.mem_cons_self
    have hrest : ∀ later ∈ rest, later.seed = none := fun later hlater => hunseeded later (List.mem_cons_of_mem _ hlater)
    rw [List.foldl_cons, List.foldl_cons, ← ih _ hrest]
    congr 1
    simp only [layer, seedText, hseed, Option.bind_none]
    split
    · next hnothing => exact hnothing.1
    · rfl

/-- A path shows the same where its row and its queue are the same. -/
theorem Shows.congr {phone : Phone Seed} {a b : VaultStore Seed} {path : Path}
    (hrow : b.files.get path = a.files.get path) (hqueue : b.queuedAt path = a.queuedAt path)
    (h : a.Shows phone path) : b.Shows phone path := by
  unfold Shows Unseeded content snapshot at h ⊢
  rw [hrow, hqueue]
  exact h

/-- The row a rebuild leaves at its path. -/
theorem snapshot_rebuild (phone : Phone Seed) (store : VaultStore Seed) (path : Path) (version : ℕ)
    (snapshot contentHash blobId : Option Text) :
    (store.rebuild phone path version snapshot contentHash blobId).snapshot path = snapshot := by
  have hsome := rebased_isSome phone store snapshot path
  unfold rebuild
  cases hrebased : store.rebased phone snapshot path with
  | none =>
    rw [hrebased] at hsome
    cases snapshot with
    | none => simp [VaultStore.snapshot]
    | some text => simp at hsome
  | some text => simp [VaultStore.snapshot]

/-- A rebuild looks at no other path's row. -/
theorem get_rebuild_of_ne (phone : Phone Seed) (store : VaultStore Seed) {path other : Path} (version : ℕ)
    (snapshot contentHash blobId : Option Text) (hne : other ≠ path) :
    (store.rebuild phone path version snapshot contentHash blobId).files.get other = store.files.get other := by
  unfold rebuild
  split <;> simp [hne]

/-- A rebuilt path shows what it should. -/
theorem shows_rebuild (phone : Phone Seed) {store : VaultStore Seed} (h : store.Readable) (path : Path) (version : ℕ)
    (snapshot contentHash blobId : Option Text) :
    (store.rebuild phone path version snapshot contentHash blobId).Shows phone path := by
  intro hunseeded
  have hqueue : (store.rebuild phone path version snapshot contentHash blobId).queuedAt path = store.queuedAt path := by
    unfold queuedAt
    rw [rebuild_pendingWrites]
  unfold Unseeded at hunseeded
  rw [hqueue] at hunseeded ⊢
  rw [content_rebuild, if_pos rfl, snapshot_rebuild, rebased_eq_view phone h hunseeded]

/-- Another path shows after a rebuild what it showed. -/
theorem Shows.rebuild {phone : Phone Seed} {store : VaultStore Seed} {other : Path} (h : store.Shows phone other)
    (hread : store.Readable) (path : Path) (version : ℕ) (snapshot contentHash blobId : Option Text) :
    (store.rebuild phone path version snapshot contentHash blobId).Shows phone other := by
  by_cases heq : other = path
  · rw [heq]
    exact shows_rebuild phone hread path version snapshot contentHash blobId
  · apply h.congr (get_rebuild_of_ne phone store version snapshot contentHash blobId heq)
    unfold queuedAt
    rw [rebuild_pendingWrites]

/-- A path rebuilt from the snapshot it holds shows what it should. -/
theorem shows_rebuildHeld (phone : Phone Seed) {store : VaultStore Seed} (h : store.Readable) (path : Path) :
    (store.rebuildHeld phone path).Shows phone path := by
  unfold rebuildHeld
  exact shows_rebuild phone h path _ _ _ _

theorem Shows.rebuildHeld {phone : Phone Seed} {store : VaultStore Seed} {other : Path} (h : store.Shows phone other)
    (hread : store.Readable) (path : Path) : (store.rebuildHeld phone path).Shows phone other := by
  unfold VaultStore.rebuildHeld
  exact h.rebuild hread path _ _ _ _

theorem readable_of_subset {a b : VaultStore Seed} (h : a.Readable) (hsub : b.pendingWrites ⊆ a.pendingWrites) :
    b.Readable := fun write hwrite => h write (hsub hwrite)

/-- Rebuilds of several paths from what they hold: those paths show what they should, and the others what they did. -/
theorem shows_rebuilds (phone : Phone Seed) (paths : List Path) {store : VaultStore Seed} (hread : store.Readable)
    {path : Path} (h : path ∈ paths ∨ store.Shows phone path) :
    (paths.foldl (rebuildHeld phone) store).Shows phone path := by
  induction paths generalizing store with
  | nil => exact h.resolve_left List.not_mem_nil
  | cons first rest ih =>
    have hread' : (store.rebuildHeld phone first).Readable := readable_of_subset hread (by simp)
    rw [List.foldl_cons]
    apply ih hread'
    rcases h with hmem | hshows
    · rcases List.mem_cons.mp hmem with rfl | hrest
      · exact Or.inr (shows_rebuildHeld phone hread path)
      · exact Or.inl hrest
    · exact Or.inr (hshows.rebuildHeld hread first)

theorem rebuilds_pendingWrites (phone : Phone Seed) (paths : List Path) (store : VaultStore Seed) :
    (paths.foldl (rebuildHeld phone) store).pendingWrites = store.pendingWrites := by
  induction paths generalizing store with
  | nil => rfl
  | cons first rest ih => rw [List.foldl_cons, ih, rebuildHeld_pendingWrites]

end VaultStore

open VaultStore

/-! ## The operations -/

/-- What changes a store, one call each; the engine sets the cursor at the end of a pull. -/
inductive Op (Seed : Type)
  | record (writes : List (PlannedWrite Seed))
  | applySnapshot (path : Path) (version : ℕ) (content contentHash blobId : Text)
  | applyTombstone (path : Path) (version : ℕ)
  | removeFiles (listed : List Path)
  | markSent (clientId : Text) (seq : ℕ)
  | discard (clientId : Text)
  | prune (ackedThroughSeq ackedAtVersion : ℕ)
  | setCursor (cursor : ℕ) (refetchPaths : List Path)

def perform (phone : Phone Seed) (store : VaultStore Seed) : Op Seed → VaultStore Seed
  | .record writes => ((store.record phone writes).map Prod.fst).getD store
  | .applySnapshot path version content contentHash blobId =>
    store.applySnapshot phone path version content contentHash blobId
  | .applyTombstone path version => store.applyTombstone phone path version
  | .removeFiles listed => store.removeFiles phone listed
  | .markSent clientId seq => store.markSent clientId seq
  | .discard clientId => store.discard phone clientId
  | .prune ackedThroughSeq ackedAtVersion => store.prune phone ackedThroughSeq ackedAtVersion
  | .setCursor cursor refetchPaths => { store with cursor, refetchPaths }

/-- Whether a path is the source of a queued move. -/
def MoveSource (writes : List (PendingWrite Seed)) (path : Path) : Prop :=
  ∃ write ∈ writes, write.document.kind = .moveFile ∧ write.document.path = path

/-- Whether a path is the source or the destination of a queued move. -/
def MoveEnd (writes : List (PendingWrite Seed)) (path : Path) : Prop :=
  ∃ write ∈ writes, write.document.kind = .moveFile ∧
    (write.document.path = path ∨ write.document.toPath = some path)

/-- A store with the paths a move put its note under that nothing has rebuilt since; no code reads those. -/
structure Traced (Seed : Type) where
  store : VaultStore Seed
  unsettled : List Path := []

/-- A recorded move leaves its destination to be settled. -/
def unsettledBy (store : VaultStore Seed) (planned : PlannedWrite Seed) (unsettled : List Path) : List Path :=
  if planned.document.kind = .moveFile then
    match planned.document.toPath, store.content planned.document.path with
    | some to_, some _ => if (store.content to_).isSome then unsettled else to_ :: unsettled
    | _, _ => unsettled
  else unsettled

def unsettledByAll (phone : Phone Seed) : VaultStore Seed → List (PlannedWrite Seed) → List Path → List Path
  | _, [], unsettled => unsettled
  | store, planned :: rest, unsettled =>
    match store.recordOne phone planned with
    | none => unsettled
    | some (after, _) => unsettledByAll phone after rest (unsettledBy store planned unsettled)

/-- What is left unsettled: every path the operation rebuilds or drops is settled. -/
def settledBy (phone : Phone Seed) (s : Traced Seed) : Op Seed → List Path
  | .record writes =>
    if (s.store.record phone writes).isSome then unsettledByAll phone s.store writes s.unsettled else s.unsettled
  | .applySnapshot path .. => s.unsettled.filter (· ≠ path)
  | .applyTombstone path _ => s.unsettled.filter (· ≠ path)
  | .removeFiles listed => s.unsettled.filter fun path => path ∈ listed ∨ path ∉ s.store.paths
  | .markSent _ _ => s.unsettled
  | .discard clientId =>
    match s.store.pendingWrites.find? fun write => write.document.clientId = clientId with
    | none => s.unsettled
    | some write => s.unsettled.filter (· ≠ write.document.path)
  | .prune ackedThroughSeq ackedAtVersion =>
    if ackedAtVersion ≤ s.store.cursor then s.unsettled.filter (· ∉ s.store.acked ackedThroughSeq) else s.unsettled
  | .setCursor _ _ => s.unsettled

def Traced.perform (phone : Phone Seed) (s : Traced Seed) (op : Op Seed) : Traced Seed :=
  ⟨ThockKit.perform phone s.store op, settledBy phone s op⟩

/-- The condition on a step: what is recorded reads back, and no move leaves the queue whose destination is
still unsettled. -/
def Settles (s : Traced Seed) : Op Seed → Prop
  | .record writes => ∀ planned ∈ writes, planned.document.validate = true
  | .discard clientId =>
    ∀ write, s.store.pendingWrites.find? (fun write => write.document.clientId = clientId) = some write →
      ∀ path ∈ s.unsettled, path ≠ write.document.path →
        MoveEnd (s.store.pendingWrites.filter fun write => write.document.clientId ≠ clientId) path
  | .prune ackedThroughSeq ackedAtVersion => ackedAtVersion ≤ s.store.cursor →
    ∀ path ∈ s.unsettled, path ∉ s.store.acked ackedThroughSeq → MoveEnd (s.store.unacked ackedThroughSeq) path
  | _ => True

def tracedNext (phone : Phone Seed) (s : Traced Seed) (op : Op Seed) (after : Traced Seed) : Prop :=
  after = s.perform phone op

/-! ## The invariant -/

/-- Every path shows what it should that is not unsettled and not left by a queued move. -/
structure Kept (phone : Phone Seed) (s : Traced Seed) : Prop where
  readable : s.store.Readable
  apart : (s.store.pendingWrites.map fun write => write.document.clientId).Nodup
  ends : ∀ path ∈ s.unsettled, MoveEnd s.store.pendingWrites path
  shows : ∀ path, path ∉ s.unsettled → ¬ MoveSource s.store.pendingWrites path → s.store.Shows phone path

theorem Kept.empty (phone : Phone Seed) : Kept phone ⟨.empty, []⟩ where
  readable := fun _ hwrite => absurd hwrite List.not_mem_nil
  apart := List.nodup_nil
  ends := fun _ hpath => absurd hpath List.not_mem_nil
  shows := fun _ _ _ _ => rfl

namespace VaultStore

/-- A queued write is the last row, and its client id is new. -/
theorem queue_some {store after : VaultStore Seed} {write : PendingWrite Seed} (h : store.queue write = some after) :
    after = { store with pendingWrites := store.pendingWrites ++ [write] } ∧
      write.document.clientId ∉ store.pendingWrites.map fun other => other.document.clientId := by
  unfold queue at h
  split at h
  · cases h
  next hfresh =>
    refine ⟨(Option.some.inj h).symm, fun hmem => hfresh ?_⟩
    obtain ⟨other, hother, heq⟩ := List.mem_map.mp hmem
    exact List.any_eq_true.mpr ⟨other, hother, decide_eq_true heq⟩

theorem queuedAt_append (store : VaultStore Seed) (write : PendingWrite Seed) (path : Path) :
    ({ store with pendingWrites := store.pendingWrites ++ [write] } : VaultStore Seed).queuedAt path =
      store.queuedAt path ++ if write.document.path = path then [write] else [] := by
  unfold queuedAt
  rw [List.filter_append]
  congr 1
  by_cases hpath : write.document.path = path <;> simp [hpath]

end VaultStore

theorem MoveEnd.mono {a b : List (PendingWrite Seed)} (h : a ⊆ b) {path : Path} (hend : MoveEnd a path) :
    MoveEnd b path := by
  obtain ⟨write, hwrite, hrest⟩ := hend
  exact ⟨write, h hwrite, hrest⟩

theorem MoveSource.mono {a b : List (PendingWrite Seed)} (h : a ⊆ b) {path : Path} (hsource : MoveSource a path) :
    MoveSource b path := by
  obtain ⟨write, hwrite, hrest⟩ := hsource
  exact ⟨write, h hwrite, hrest⟩

/-- A write joins the queue: the rest of what is kept is what the paths show. -/
theorem Kept.queued {phone : Phone Seed} {s : Traced Seed} (h : Kept phone s) {store after : VaultStore Seed}
    {write : PendingWrite Seed} {unsettled : List Path} (hqueue : store.queue write = some after)
    (hwrites : store.pendingWrites = s.store.pendingWrites) (hvalid : write.document.validate = true)
    (hends : ∀ path ∈ unsettled, path ∈ s.unsettled ∨ MoveEnd [write] path)
    (hkeeps : s.unsettled ⊆ unsettled)
    (hshows : ∀ path, path ∉ unsettled → ¬ MoveSource [write] path → s.store.Shows phone path →
      after.Shows phone path) : Kept phone ⟨after, unsettled⟩ := by
  obtain ⟨rfl, hfresh⟩ := queue_some hqueue
  rw [hwrites] at hfresh
  refine ⟨fun other hother => ?readable, ?apart, fun path hpath => ?ends, fun path hpath hsource => ?shows⟩
  case readable =>
    simp only [hwrites] at hother
    rcases List.mem_append.mp hother with hold | hnew
    · exact h.readable other hold
    · rw [List.mem_singleton.mp hnew]
      exact hvalid
  case apart =>
    simp only [hwrites, List.map_append, List.map_cons, List.map_nil]
    apply List.nodup_append.mpr
    refine ⟨h.apart, List.nodup_singleton _, fun a ha b hb heq => hfresh ?_⟩
    rw [← List.mem_singleton.mp hb, ← heq]
    exact ha
  case ends =>
    simp only [hwrites]
    rcases hends path hpath with hold | hnew
    · exact (h.ends path hold).mono (List.subset_append_left _ _)
    · exact hnew.mono (List.subset_append_right _ _)
  case shows =>
    simp only [hwrites] at hsource
    apply hshows path hpath (fun hnew => hsource (hnew.mono (List.subset_append_right _ _)))
    apply h.shows path (fun hold => hpath (hkeeps hold))
    exact fun hold => hsource (hold.mono (List.subset_append_left _ _))

/-- A path that the new write is not for, and whose row stays, shows what it showed. -/
theorem VaultStore.Shows.append {phone : Phone Seed} {a b : VaultStore Seed} {write : PendingWrite Seed} {path : Path}
    (h : a.Shows phone path) (hrow : b.files.get path = a.files.get path)
    (hwrites : b.pendingWrites = a.pendingWrites ++ [write]) (hpath : write.document.path ≠ path) :
    b.Shows phone path := by
  apply h.congr hrow
  unfold queuedAt
  rw [hwrites, List.filter_append]
  simp [hpath]

/-- A write with an effect shows what applying it to what was shown gives. -/
theorem VaultStore.Shows.edited {phone : Phone Seed} {store : VaultStore Seed} {write : PendingWrite Seed} {path : Path}
    (h : store.Shows phone path) (hpath : write.document.path = path) {row : FileRow}
    (hsnapshot : row.snapshot = store.snapshot path)
    (hcontent : write.seed = none → (apply phone.prim (store.content path) write.document none).outcome ≠ .noop ∧
      row.content = (apply phone.prim (store.content path) write.document none).text) :
    ({ store with files := store.files.put path row, pendingWrites := store.pendingWrites ++ [write] } :
      VaultStore Seed).Shows phone path := by
  intro hunseeded
  unfold Unseeded at hunseeded
  have hqueue : ({ store with files := store.files.put path row, pendingWrites := store.pendingWrites ++ [write] } :
      VaultStore Seed).queuedAt path = store.queuedAt path ++ [write] := by
    unfold queuedAt
    rw [List.filter_append]
    simp [hpath]
  rw [hqueue] at hunseeded ⊢
  obtain ⟨hnoop, htext⟩ := hcontent (hunseeded write (List.mem_append_right _ (List.mem_singleton_self _)))
  have hold := h fun other hother => hunseeded other (List.mem_append_left _ hother)
  have hlayer : layer phone.prim (store.content path) write = some row.content := by
    unfold layer
    rw [if_neg (fun hboth => hnoop hboth.2), htext]
  unfold view at hold ⊢
  rw [List.foldl_append, List.foldl_cons, List.foldl_nil]
  simp only [VaultStore.content, VaultStore.snapshot, Table.get_put_self, Option.map_some, Option.bind_some]
  rw [hsnapshot, ← hold, hlayer]

theorem Kept.renameFile {phone : Phone Seed} {s : Traced Seed} (h : Kept phone s) {planned : PlannedWrite Seed}
    (hvalid : planned.document.validate = true) (hkind : planned.document.kind = .moveFile)
    {after : VaultStore Seed} {outcome : Outcome} (hstep : s.store.renameFile planned.document = some (after, outcome)) :
    Kept phone ⟨after, unsettledBy s.store planned s.unsettled⟩ := by
  unfold VaultStore.renameFile at hstep
  unfold unsettledBy
  rw [if_pos hkind]
  cases hto : planned.document.toPath with
  | none =>
    rw [hto] at hstep
    obtain ⟨rfl, -⟩ := Prod.mk.inj (Option.some.inj hstep)
    exact h
  | some to_ =>
    cases hsource : s.store.content planned.document.path with
    | none =>
      rw [hto, hsource] at hstep
      obtain ⟨rfl, -⟩ := Prod.mk.inj (Option.some.inj hstep)
      exact h
    | some source =>
      rw [hto, hsource] at hstep
      dsimp only at hstep ⊢
      by_cases htaken : (s.store.content to_).isSome = true
      · rw [if_pos htaken] at hstep ⊢
        obtain ⟨rfl, -⟩ := Prod.mk.inj (Option.some.inj hstep)
        exact h
      · rw [if_neg htaken] at hstep ⊢
        obtain ⟨queued, hqueue, hafter⟩ := Option.map_eq_some_iff.mp hstep
        obtain ⟨rfl, -⟩ := Prod.mk.inj hafter
        apply h.queued hqueue rfl hvalid
        · intro path hpath
          rcases List.mem_cons.mp hpath with rfl | hold
          · exact Or.inr ⟨_, List.mem_singleton_self _, hkind, Or.inr hto⟩
          · exact Or.inl hold
        · exact List.subset_cons_self _ _
        · intro path hpath hnot hshows
          have hne : planned.document.path ≠ path := by
            intro heq
            exact hnot ⟨_, List.mem_singleton_self _, hkind, heq⟩
          have hto_ : path ≠ to_ := fun heq => hpath (heq ▸ List.mem_cons_self)
          obtain ⟨rfl, -⟩ := queue_some hqueue
          apply hshows.append ?_ rfl hne
          simp only [Table.get_erase_of_ne _ (Ne.symm hne), Table.get_put_of_ne _ _ hto_]

theorem Kept.storeBlob {phone : Phone Seed} {s : Traced Seed} (h : Kept phone s) {planned : PlannedWrite Seed}
    (hvalid : planned.document.validate = true) (hkind : planned.document.kind = .putFile)
    {after : VaultStore Seed} {outcome : Outcome}
    (hstep : s.store.storeBlob phone planned.document = some (after, outcome)) :
    Kept phone ⟨after, unsettledBy s.store planned s.unsettled⟩ := by
  have hmark : unsettledBy s.store planned s.unsettled = s.unsettled := by
    unfold unsettledBy
    rw [if_neg (by rw [hkind]; decide)]
  rw [hmark]
  unfold VaultStore.storeBlob at hstep
  split at hstep
  · split at hstep
    · obtain ⟨rfl, -⟩ := Prod.mk.inj (Option.some.inj hstep)
      exact h
    · obtain ⟨queued, hqueue, hafter⟩ := Option.map_eq_some_iff.mp hstep
      obtain ⟨rfl, -⟩ := Prod.mk.inj hafter
      apply h.queued hqueue rfl hvalid (fun path hpath => Or.inl hpath) (List.Subset.refl _)
      intro path _ _ hshows hunseeded
      obtain ⟨rfl, -⟩ := queue_some hqueue
      unfold Unseeded at hunseeded
      rw [queuedAt_append] at hunseeded ⊢
      have hold := hshows fun write hwrite => hunseeded write (List.mem_append_left _ hwrite)
      unfold view at hold ⊢
      rw [List.foldl_append]
      split
      · rw [List.foldl_cons, List.foldl_nil, layer_fileLevel _ _ (Or.inr hkind)]
        exact hold
      · exact hold
  · obtain ⟨rfl, -⟩ := Prod.mk.inj (Option.some.inj hstep)
    exact h

theorem Kept.editFile {phone : Phone Seed} {s : Traced Seed} (h : Kept phone s) {planned : PlannedWrite Seed}
    (hvalid : planned.document.validate = true) (hkind : planned.document.kind ≠ .moveFile)
    {after : VaultStore Seed} {outcome : Outcome} (hstep : s.store.editFile phone planned = some (after, outcome)) :
    Kept phone ⟨after, unsettledBy s.store planned s.unsettled⟩ := by
  have hmark : unsettledBy s.store planned s.unsettled = s.unsettled := by
    unfold unsettledBy
    rw [if_neg hkind]
  rw [hmark]
  unfold VaultStore.editFile at hstep
  simp only at hstep
  split at hstep
  · obtain ⟨rfl, -⟩ := Prod.mk.inj (Option.some.inj hstep)
    exact h
  case isFalse hnoop =>
    obtain ⟨queued, hqueue, hafter⟩ := Option.map_eq_some_iff.mp hstep
    obtain ⟨rfl, -⟩ := Prod.mk.inj hafter
    apply h.queued hqueue rfl hvalid (fun path hpath => Or.inl hpath) (List.Subset.refl _)
    intro path _ _ hshows
    obtain ⟨rfl, -⟩ := queue_some hqueue
    by_cases hpath : planned.document.path = path
    · subst hpath
      apply hshows.edited rfl
      · cases hrow : s.store.files.get planned.document.path with
        | none => simp [VaultStore.snapshot, hrow]
        | some row => simp [VaultStore.snapshot, hrow]
      · intro hseed
        simp only at hseed
        rw [hseed] at hnoop ⊢
        refine ⟨hnoop, ?_⟩
        cases s.store.files.get planned.document.path <;> rfl
    · apply hshows.append ?_ rfl hpath
      exact Table.get_put_of_ne _ _ (Ne.symm hpath)

theorem Kept.recordOne {phone : Phone Seed} {s : Traced Seed} (h : Kept phone s) {planned : PlannedWrite Seed}
    (hvalid : planned.document.validate = true) {after : VaultStore Seed} {outcome : Outcome}
    (hstep : s.store.recordOne phone planned = some (after, outcome)) :
    Kept phone ⟨after, unsettledBy s.store planned s.unsettled⟩ := by
  unfold VaultStore.recordOne at hstep
  split at hstep
  · next hmove => exact h.renameFile hvalid hmove hstep
  next hmove =>
    split at hstep
    · next hput => exact h.storeBlob hvalid hput hstep
    · exact h.editFile hvalid hmove hstep

/-- Writes recorded together. -/
theorem Kept.record {phone : Phone Seed} {writes : List (PlannedWrite Seed)} {s : Traced Seed} (h : Kept phone s)
    (hvalid : ∀ planned ∈ writes, planned.document.validate = true) {after : VaultStore Seed} {outcomes : List Outcome}
    (hstep : s.store.record phone writes = some (after, outcomes)) :
    Kept phone ⟨after, unsettledByAll phone s.store writes s.unsettled⟩ := by
  induction writes generalizing s outcomes with
  | nil =>
    obtain ⟨rfl, -⟩ := Prod.mk.inj (Option.some.inj hstep)
    exact h
  | cons planned rest ih =>
    unfold VaultStore.record at hstep
    obtain ⟨⟨next, outcome⟩, hone, hrest⟩ := Option.bind_eq_some_iff.mp hstep
    obtain ⟨⟨last, later⟩, hlater, hafter⟩ := Option.map_eq_some_iff.mp hrest
    obtain ⟨rfl, -⟩ := Prod.mk.inj hafter
    have hnext := h.recordOne (hvalid planned List.mem_cons_self) hone
    unfold unsettledByAll
    rw [hone]
    exact ih hnext (fun write hwrite => hvalid write (List.mem_cons_of_mem _ hwrite)) hlater

/-! ## Steps from the desk -/

/-- A rebuild settles its path. -/
theorem Kept.rebuild {phone : Phone Seed} {s : Traced Seed} (h : Kept phone s) (path : Path) (version : ℕ)
    (snapshot contentHash blobId : Option Text) :
    Kept phone ⟨s.store.rebuild phone path version snapshot contentHash blobId, s.unsettled.filter (· ≠ path)⟩ := by
  have hsame := rebuild_pendingWrites phone s.store path version snapshot contentHash blobId
  refine ⟨fun write hwrite => ?_, ?_, fun other hother => ?_, fun other hother hsource => ?_⟩
  · simp only [hsame] at hwrite
    exact h.readable write hwrite
  · simp only [hsame]
    exact h.apart
  · simp only [hsame]
    exact h.ends other (List.mem_filter.mp hother).1
  · simp only [hsame] at hsource
    by_cases heq : other = path
    · rw [heq]
      exact shows_rebuild phone h.readable path version snapshot contentHash blobId
    · have hnot : other ∉ s.unsettled := fun hmem => hother (List.mem_filter.mpr ⟨hmem, decide_eq_true heq⟩)
      exact (h.shows other hnot hsource).rebuild h.readable path version snapshot contentHash blobId

/-- One file of a full pull dropped or rebuilt: its path shows what it should, and the others what they did. -/
theorem VaultStore.shows_dropFile (phone : Phone Seed) {store : VaultStore Seed} (hread : store.Readable)
    {waiting : List Path} (hwaiting : ∀ path, path ∉ waiting → store.queuedAt path = []) (path : Path) {other : Path}
    (h : other = path ∨ store.Shows phone other) : (Move.dropFile phone waiting store path).Shows phone other := by
  unfold Move.dropFile
  split
  · rcases h with rfl | hshows
    · exact shows_rebuild phone hread other _ _ _ _
    · exact hshows.rebuild hread path _ _ _ _
  case isFalse hnot =>
    by_cases heq : other = path
    · intro _
      have hqueue : ({ store with files := store.files.erase path } : VaultStore Seed).queuedAt other = [] := by
        rw [heq]
        exact hwaiting path hnot
      rw [hqueue, heq]
      simp [VaultStore.content, VaultStore.snapshot, view]
    · apply (h.resolve_left heq).congr
      · exact Table.get_erase_of_ne _ heq
      · rfl

theorem VaultStore.shows_dropFiles (phone : Phone Seed) (paths : List Path) {store : VaultStore Seed}
    (hread : store.Readable) {waiting : List Path} (hwaiting : ∀ path, path ∉ waiting → store.queuedAt path = [])
    {path : Path} (h : path ∈ paths ∨ store.Shows phone path) :
    (paths.foldl (Move.dropFile phone waiting) store).Shows phone path := by
  induction paths generalizing store with
  | nil => exact h.resolve_left List.not_mem_nil
  | cons first rest ih =>
    have hsame := Move.dropFile_pendingWrites phone waiting store first
    rw [List.foldl_cons]
    apply ih
    · exact readable_of_subset hread (by rw [hsame]; exact List.Subset.refl _)
    · intro other hother
      unfold queuedAt
      rw [hsame]
      exact hwaiting other hother
    · rcases h with hmem | hshows
      · rcases List.mem_cons.mp hmem with heq | hrest
        · exact Or.inr (shows_dropFile phone hread hwaiting first (Or.inl heq))
        · exact Or.inl hrest
      · exact Or.inr (shows_dropFile phone hread hwaiting first (Or.inr hshows))

theorem VaultStore.dropFiles_pendingWrites (phone : Phone Seed) (waiting paths : List Path) (store : VaultStore Seed) :
    (paths.foldl (Move.dropFile phone waiting) store).pendingWrites = store.pendingWrites := by
  induction paths generalizing store with
  | nil => rfl
  | cons first rest ih => rw [List.foldl_cons, ih, Move.dropFile_pendingWrites]

/-- A full pull settles what it drops. -/
theorem Kept.removeFiles {phone : Phone Seed} {s : Traced Seed} (h : Kept phone s) (listed : List Path) :
    Kept phone (s.perform phone (.removeFiles listed)) := by
  have hfold : s.store.removeFiles phone listed = (s.store.paths.filter fun path => path ∉ listed).foldl
      (Move.dropFile phone (s.store.pending.map fun write => write.document.path)) s.store := rfl
  have hsame : (s.store.removeFiles phone listed).pendingWrites = s.store.pendingWrites := by
    rw [hfold]
    exact dropFiles_pendingWrites ..
  have hwaiting : ∀ path, path ∉ s.store.pending.map (fun write => write.document.path) →
      s.store.queuedAt path = [] := by
    intro path hnot
    apply List.filter_eq_nil_iff.mpr
    intro write hwrite hpath
    apply hnot
    apply List.mem_map.mpr
    exact ⟨write, List.mem_filter.mpr ⟨hwrite, h.readable write hwrite⟩, of_decide_eq_true hpath⟩
  refine ⟨fun write hwrite => ?_, ?_, fun path hpath => ?_, fun path hpath hsource => ?_⟩
  · simp only [Traced.perform, perform, hsame] at hwrite
    exact h.readable write hwrite
  · simp only [Traced.perform, perform, hsame]
    exact h.apart
  · simp only [Traced.perform, perform, settledBy, hsame] at hpath ⊢
    exact h.ends path (List.mem_filter.mp hpath).1
  · simp only [Traced.perform, perform, settledBy, hsame] at hpath hsource ⊢
    rw [hfold]
    apply shows_dropFiles phone _ h.readable hwaiting
    by_cases hdropped : path ∈ s.store.paths ∧ path ∉ listed
    · exact Or.inl (List.mem_filter.mpr ⟨hdropped.1, decide_eq_true hdropped.2⟩)
    · refine Or.inr (h.shows path (fun hmem => hpath (List.mem_filter.mpr ⟨hmem, decide_eq_true ?_⟩)) hsource)
      by_cases hlisted : path ∈ listed
      · exact Or.inl hlisted
      · exact Or.inr fun hheld => hdropped ⟨hheld, hlisted⟩

/-- A sequence number says nothing of what a path shows. -/
theorem Kept.markSent {phone : Phone Seed} {s : Traced Seed} (h : Kept phone s) (clientId : Text) (seq : ℕ) :
    Kept phone (s.perform phone (.markSent clientId seq)) := by
  have hsent : ∃ sent : PendingWrite Seed → PendingWrite Seed,
      (∀ write, (sent write).document = write.document ∧ (sent write).seed = write.seed) ∧
        (s.store.markSent clientId seq).pendingWrites = s.store.pendingWrites.map sent := by
    refine ⟨_, fun write => ?_, rfl⟩
    split <;> exact ⟨rfl, rfl⟩
  obtain ⟨sent, hkeeps, hwrites⟩ := hsent
  refine ⟨fun write hwrite => ?_, ?_, fun path hpath => ?_, fun path hpath hsource => ?_⟩
  · simp only [Traced.perform, perform, hwrites] at hwrite
    obtain ⟨old, hold, rfl⟩ := List.mem_map.mp hwrite
    rw [(hkeeps old).1]
    exact h.readable old hold
  · simp only [Traced.perform, perform, hwrites, List.map_map]
    have hids : ((fun write : PendingWrite Seed => write.document.clientId) ∘ sent) =
        fun write => write.document.clientId := by
      funext write
      exact congrArg WriteDocument.clientId (hkeeps write).1
    rw [hids]
    exact h.apart
  · simp only [Traced.perform, perform, settledBy, hwrites] at hpath ⊢
    obtain ⟨write, hwrite, hkind, hend⟩ := h.ends path hpath
    refine ⟨sent write, List.mem_map_of_mem hwrite, ?_⟩
    rw [(hkeeps write).1]
    exact ⟨hkind, hend⟩
  · simp only [Traced.perform, perform, settledBy, hwrites] at hpath hsource ⊢
    have hold : s.store.Shows phone path := by
      apply h.shows path hpath
      rintro ⟨write, hwrite, hkind, hpath⟩
      apply hsource
      refine ⟨sent write, List.mem_map_of_mem hwrite, ?_⟩
      rw [(hkeeps write).1]
      exact ⟨hkind, hpath⟩
    have hqueue : (s.store.markSent clientId seq).queuedAt path = (s.store.queuedAt path).map sent := by
      unfold queuedAt
      rw [hwrites, List.filter_map]
      congr 1
      apply List.filter_congr
      intro write _
      simp only [Function.comp_apply, (hkeeps write).1]
    intro hunseeded
    unfold Unseeded at hunseeded
    rw [hqueue] at hunseeded ⊢
    have hplain : s.store.Unseeded path := by
      intro write hwrite
      rw [← (hkeeps write).2]
      exact hunseeded _ (List.mem_map_of_mem hwrite)
    have hlayer : ∀ content write, layer phone.prim content (sent write) = layer phone.prim content write := by
      intro content write
      unfold layer
      rw [(hkeeps write).1]
    unfold view
    simp only [List.foldl_map, hlayer]
    exact hold hplain

/-- Writes leave the queue and the paths they were for are rebuilt: the other paths show what they did. -/
theorem Kept.dropped {phone : Phone Seed} {s : Traced Seed} (h : Kept phone s) (keep : PendingWrite Seed → Bool)
    (paths : List Path) (hothers : ∀ write ∈ s.store.pendingWrites, write.document.path ∉ paths → keep write = true)
    (hends : ∀ path ∈ s.unsettled, path ∉ paths → MoveEnd (s.store.pendingWrites.filter keep) path) :
    Kept phone ⟨paths.foldl (rebuildHeld phone) { s.store with pendingWrites := s.store.pendingWrites.filter keep },
      s.unsettled.filter (· ∉ paths)⟩ := by
  have hsame := rebuilds_pendingWrites phone paths { s.store with pendingWrites := s.store.pendingWrites.filter keep }
  have hread : ({ s.store with pendingWrites := s.store.pendingWrites.filter keep } : VaultStore Seed).Readable :=
    readable_of_subset h.readable List.filter_sublist.subset
  refine ⟨fun write hwrite => ?_, ?_, fun path hpath => ?_, fun path hpath hsource => ?_⟩
  · simp only [hsame] at hwrite
    exact hread write hwrite
  · simp only [hsame]
    exact h.apart.sublist (List.filter_sublist.map _)
  · simp only [hsame]
    obtain ⟨hmem, hnot⟩ := List.mem_filter.mp hpath
    exact hends path hmem (of_decide_eq_true hnot)
  · simp only [hsame] at hsource
    apply shows_rebuilds phone paths hread
    by_cases hdropped : path ∈ paths
    · exact Or.inl hdropped
    · right
      have hkept : ∀ write ∈ s.store.pendingWrites, write.document.path = path → keep write = true := by
        intro write hwrite heq
        apply hothers write hwrite
        rw [heq]
        exact hdropped
      have hold : s.store.Shows phone path := by
        apply h.shows path (fun hmem => hpath (List.mem_filter.mpr ⟨hmem, decide_eq_true hdropped⟩))
        rintro ⟨write, hwrite, hkind, heq⟩
        exact hsource ⟨write, List.mem_filter.mpr ⟨hwrite, hkept write hwrite heq⟩, hkind, heq⟩
      refine Shows.congr (a := s.store) rfl ?_ hold
      unfold queuedAt
      rw [List.filter_filter]
      apply List.filter_congr
      intro write hwrite
      by_cases heq : write.document.path = path
      · simp [heq, hkept write hwrite heq]
      · simp [heq]

theorem Kept.discard {phone : Phone Seed} {s : Traced Seed} (h : Kept phone s) (clientId : Text)
    (hsettles : Settles s (.discard clientId)) : Kept phone (s.perform phone (.discard clientId)) := by
  dsimp only [Traced.perform, perform, settledBy, VaultStore.discard]
  cases hfound : s.store.pendingWrites.find? fun write => write.document.clientId = clientId with
  | none => exact h
  | some write =>
    have hmem := List.mem_of_find?_eq_some hfound
    have hid : write.document.clientId = clientId := by simpa using List.find?_some hfound
    have hdropped := h.dropped (fun write => decide (write.document.clientId ≠ clientId)) [write.document.path] ?_ ?_
    · simpa using hdropped
    · -- Client ids are apart, so no other row leaves.
      intro other hother hpath
      apply decide_eq_true
      intro heq
      have hsame : other = write := List.inj_on_of_nodup_map h.apart hother hmem (heq.trans hid.symm)
      exact hpath (by rw [hsame]; exact List.mem_singleton_self _)
    · intro path hpath hnot
      exact hsettles write hfound path hpath fun heq => hnot (by rw [heq]; exact List.mem_singleton_self _)

theorem Kept.prune {phone : Phone Seed} {s : Traced Seed} (h : Kept phone s) (ackedThroughSeq ackedAtVersion : ℕ)
    (hsettles : Settles s (.prune ackedThroughSeq ackedAtVersion)) :
    Kept phone (s.perform phone (.prune ackedThroughSeq ackedAtVersion)) := by
  dsimp only [Traced.perform, perform, settledBy, VaultStore.prune]
  by_cases hpulled : ackedAtVersion ≤ s.store.cursor
  · rw [if_neg (not_not.mpr hpulled), if_pos hpulled]
    refine h.dropped _ (s.store.acked ackedThroughSeq) (fun write _ hnot => ?_) (hsettles hpulled)
    simp [hnot]
  · rw [if_pos hpulled, if_neg hpulled]
    exact h

/-- One step that meets the condition. -/
theorem Kept.step {phone : Phone Seed} {s : Traced Seed} (h : Kept phone s) (op : Op Seed) (hsettles : Settles s op) :
    Kept phone (s.perform phone op) := by
  cases op with
  | record writes =>
    dsimp only [Traced.perform, perform, settledBy]
    cases hrecord : s.store.record phone writes with
    | none => exact h
    | some recorded => exact h.record hsettles hrecord
  | applySnapshot path version content contentHash blobId => exact h.rebuild ..
  | applyTombstone path version => exact h.rebuild ..
  | removeFiles listed => exact h.removeFiles listed
  | markSent clientId seq => exact h.markSent clientId seq
  | discard clientId => exact h.discard clientId hsettles
  | prune ackedThroughSeq ackedAtVersion => exact h.prune ackedThroughSeq ackedAtVersion hsettles
  | setCursor cursor refetchPaths => exact ⟨h.readable, h.apart, h.ends, h.shows⟩

/-! ## Rounds -/

/-- The operations done one after another. -/
def performAll (phone : Phone Seed) (store : VaultStore Seed) (ops : List (Op Seed)) : VaultStore Seed :=
  ops.foldl (perform phone) store

theorem performAll_append (phone : Phone Seed) (store : VaultStore Seed) (first later : List (Op Seed)) :
    performAll phone store (first ++ later) = performAll phone (performAll phone store first) later :=
  List.foldl_append

/-- A row taken from a page is one operation or none. -/
theorem takeRow_ops (phone : Phone Seed) (pulling : Pulling Seed) (row : RemoteFile) :
    ∃ ops, (takeRow phone pulling row).store = performAll phone pulling.store ops := by
  unfold takeRow
  split
  · exact ⟨[.applyTombstone row.path row.version], rfl⟩
  · dsimp only
    split
    · exact ⟨[], rfl⟩
    · split
      · next hash blobId _ _ =>
        split
        · exact ⟨[], rfl⟩
        · split
          · exact ⟨[], rfl⟩
          · next text _ => exact ⟨[.applySnapshot row.path row.version text hash blobId], rfl⟩
      · exact ⟨[], rfl⟩

theorem takeRows_ops (phone : Phone Seed) (files : List RemoteFile) (pulling : Pulling Seed) :
    ∃ ops, (files.foldl (takeRow phone) pulling).store = performAll phone pulling.store ops := by
  induction files generalizing pulling with
  | nil => exact ⟨[], rfl⟩
  | cons row rest ih =>
    obtain ⟨first, hfirst⟩ := takeRow_ops phone pulling row
    obtain ⟨later, hlater⟩ := ih (takeRow phone pulling row)
    exact ⟨first ++ later, by rw [performAll_append, ← hfirst]; exact hlater⟩

theorem takePages_ops (phone : Phone Seed) (answers : List Answer) (pulling : Pulling Seed) :
    ∃ ops, (takePages phone pulling answers).1.store = performAll phone pulling.store ops := by
  fun_induction takePages phone pulling answers with
  | case1 pulling => exact ⟨[], rfl⟩
  | case2 pulling rest => exact ⟨[], rfl⟩
  | case3 pulling rest ih => exact ih
  | case4 pulling files nextSince rest taken since last ih =>
    obtain ⟨first, hfirst⟩ := takeRows_ops phone files pulling
    obtain ⟨later, hlater⟩ := ih
    exact ⟨first ++ later, by rw [performAll_append, ← hfirst]; exact hlater⟩
  | case5 pulling files nextSince hasMore rest taken since last hmore => exact takeRows_ops phone files pulling

/-- What a round does to a store is a sequence of operations. -/
theorem step_ops (phone : Phone Seed) (store : VaultStore Seed) (action : Action Seed) :
    ∃ ops, step phone store action = performAll phone store ops := by
  cases action with
  | record writes => exact ⟨[.record writes], rfl⟩
  | sent clientId seq => exact ⟨[.markSent clientId seq], rfl⟩
  | refused clientId => exact ⟨[.discard clientId], rfl⟩
  | prune ackedThroughSeq ackedAtVersion => exact ⟨[.prune ackedThroughSeq ackedAtVersion], rfl⟩
  | pull answers =>
    obtain ⟨taken, htaken⟩ := takePages_ops phone answers (startPull store)
    change (takePages phone (startPull store) answers).1.store = performAll phone store taken at htaken
    dsimp only [step, pull]
    split
    · generalize (takePages phone (startPull store) answers).1 = pulling at htaken ⊢
      unfold finishPull
      rw [htaken]
      split
      · exact ⟨taken ++ [.removeFiles pulling.listed, .setCursor (pulling.since.getD 0) pulling.failed],
          by rw [performAll_append]; rfl⟩
      · exact ⟨taken ++ [.setCursor (pulling.since.getD 0) pulling.failed], by rw [performAll_append]; rfl⟩
    · exact ⟨taken, htaken⟩

/-- The steps of a store as a relation. -/
def Performs (phone : Phone Seed) (store : VaultStore Seed) (op : Op Seed) (after : VaultStore Seed) : Prop :=
  after = perform phone store op

theorem performAll_run (phone : Phone Seed) (store : VaultStore Seed) (ops : List (Op Seed)) :
    Run (Performs phone) store ops (performAll phone store ops) := by
  induction ops generalizing store with
  | nil => exact .nil store
  | cons op rest ih => exact .cons rfl (ih _)

/-- What rounds and records reach, operations reach. -/
theorem Reached.performs {phone : Phone Seed} {store : VaultStore Seed} (h : Reached phone store) :
    Reachable (Performs phone) (fun store => store = .empty) store := by
  obtain ⟨start, actions, hstart, run⟩ := h
  apply run.invariant (fun store => Reachable (Performs phone) (fun store => store = .empty) store)
  · rintro store action after ⟨first, ops, hfirst, hops⟩ hnext
    obtain ⟨later, hlater⟩ := step_ops phone store action
    have hafter : after = performAll phone store later := hnext.trans hlater
    rw [hafter]
    exact ⟨first, ops ++ later, hfirst, hops.append (performAll_run phone store later)⟩
  · exact ⟨start, [], hstart, .nil start⟩

/-! ## A note moved and the move refused -/

/-- The desk's copy of the note arrives and the phone moves it. -/
def pulledAndMoved : List (Op Unit) :=
  [.applySnapshot archive.source 1 ['x'] ['h'] ['b'], .record [⟨archive.document, none⟩]]

/-- The desk archives the note, and the phone pulls that before the ack. -/
def archivedByDesk : List (Op Unit) :=
  [.markSent ['m'] 1, .applyTombstone archive.source 2, .applySnapshot archive.to_ 3 ['x'] ['h'] ['b'],
    .setCursor 3 [], .prune 1 3]

end Thock.ThockKit
