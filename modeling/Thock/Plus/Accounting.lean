import Mathlib.Algebra.BigOperators.Group.List.Basic
import Mathlib.Algebra.GroupWithZero.Nat
import Mathlib.Algebra.Ring.Int.Defs
import Thock.Plus.FilesList

/-!
# Version and byte accounting

The byte count of a vault is kept by differences, and live rows and tombstones share one
version counter. Over any transactions the count stays the sum of the live rows' sizes, no
counter goes down, and a row that changes is numbered above everything the vault had before.
-/

namespace Thock.Plus

open CursorPaging Transition

/-- The bytes the live rows take. -/
def liveBytes (files : List FileRow) : ℤ := (files.map FileRow.live).sum

/-- The bytes of some rows without those of one path. -/
theorem liveBytes_filter_path {files : List FileRow} (hpaths : (files.map FileRow.path).Nodup) (path : String) :
    liveBytes (files.filter fun f => f.path ≠ path) =
      liveBytes files - (((files.find? fun f => f.path = path).map FileRow.live).getD 0) := by
  induction files with
  | nil => rfl
  | cons f rest ih =>
    obtain ⟨hfresh, hrest⟩ := List.nodup_cons.mp hpaths
    by_cases hpath : f.path = path
    · have hnone : ∀ g ∈ rest, g.path ≠ path := fun g hg heq =>
        hfresh (List.mem_map.mpr ⟨g, hg, heq.trans hpath.symm⟩)
      have hall : (rest.filter fun g => g.path ≠ path) = rest := by
        apply List.filter_eq_self.mpr
        intro g hg
        simpa using hnone g hg
      rw [List.filter_cons_of_neg (by simp [hpath]), hall, List.find?_cons_of_pos (by simp [hpath])]
      simp [liveBytes]
    · have hkeep := ih hrest
      rw [List.filter_cons_of_pos (by simp [hpath]), List.find?_cons_of_neg (by simp [hpath])]
      simp only [liveBytes, List.map_cons, List.sum_cons] at hkeep ⊢
      omega

/-- The current row of a path weighs what the table has for the path. -/
theorem Vault.currentVersion_live (v : Vault) (path : String) :
    (v.currentVersion path).live = ((v.files.find? fun f => f.path = path).map FileRow.live).getD 0 := by
  unfold Vault.currentVersion Vault.fileByPath
  cases v.files.find? fun f => f.path = path with
  | none => rfl
  | some f => rfl

/-- Replacing the row of a path moves the bytes by the difference of the two rows. -/
theorem liveBytes_upsertFile {v : Vault} (hpaths : (v.files.map FileRow.path).Nodup) (row : FileRow) :
    liveBytes (upsertFile row v.files) = liveBytes v.files - (v.currentVersion row.path).live + row.live := by
  have hrest := liveBytes_filter_path hpaths row.path
  rw [← v.currentVersion_live] at hrest
  simp only [upsertFile, liveBytes, List.map_cons, List.sum_cons] at hrest ⊢
  omega

/-- Dropping tombstones drops no bytes. -/
theorem liveBytes_filter_deleted (files : List FileRow) {keep : FileRow → Bool}
    (hdropped : ∀ f ∈ files, keep f = false → f.deleted = true) : liveBytes (files.filter keep) = liveBytes files := by
  induction files with
  | nil => rfl
  | cons f rest ih =>
    have hrest := ih fun g hg => hdropped g (List.mem_cons_of_mem _ hg)
    simp only [liveBytes] at hrest
    cases hkeep : keep f with
    | true => simp [hkeep, liveBytes, hrest]
    | false =>
      have hlive : f.live = 0 := by simp [FileRow.live, hdropped f List.mem_cons_self hkeep]
      simp [hkeep, liveBytes, hrest, hlive]

/-! ## The invariant -/

/-- What the books of a vault say: versions name rows apart below the counter, the byte count is the live
rows', and a tombstone holds nothing. -/
structure Vault.Accounted (v : Vault) : Prop where
  versions : (v.files.map FileRow.version).Nodup
  bounded : ∀ f ∈ v.files, f.version ≤ v.latestVersion
  bytes : v.bytesUsed = ((v.files.filter fun f => !f.deleted).map FileRow.sizeBytes).sum
  tombstones : ∀ f ∈ v.files, f.deleted = true → f.sizeBytes = 0 ∧ f.blobID = none

/-- The live rows' sizes are what every row counts. -/
theorem sum_sizeBytes_live (files : List FileRow) :
    ((files.filter fun f => !f.deleted).map FileRow.sizeBytes).sum = liveBytes files := by
  induction files with
  | nil => rfl
  | cons f rest ih =>
    simp only [liveBytes] at ih
    cases hdeleted : f.deleted <;> simp [liveBytes, FileRow.live, hdeleted, ih]

/-- The byte count follows every change, and tombstones stay empty. -/
theorem Vault.Change.accounted {v w : Vault} {op : Op} (h : v.Change op w) (hv : v.Versioned)
    (hbytes : v.bytesUsed = liveBytes v.files)
    (htombstones : ∀ f ∈ v.files, f.deleted = true → f.sizeBytes = 0 ∧ f.blobID = none) :
    w.bytesUsed = liveBytes w.files ∧ ∀ f ∈ w.files, f.deleted = true → f.sizeBytes = 0 ∧ f.blobID = none := by
  cases h with
  | kept same => exact ⟨by rw [same.bytesUsed, same.files, hbytes], by rw [same.files]; exact htombstones⟩
  | begun => exact ⟨hbytes, htombstones⟩
  | @published p expectedVersion hardCap now pending quota =>
    constructor
    · simp only [Vault.published]
      rw [liveBytes_upsertFile hv.paths, hbytes]
      rfl
    · intro f hf hdeleted
      rcases mem_upsertFile.mp hf with rfl | ⟨hf, -⟩
      · cases hdeleted
      · exact htombstones f hf hdeleted
  | @tombstoned path expectedVersion now live known =>
    have hlive : (v.currentVersion path).live = (v.currentVersion path).sizeBytes := by simp [FileRow.live, live]
    have hpath : (tombstoneRow v path now).path = path := v.currentVersion_path path
    constructor
    · simp only [Vault.tombstoned]
      rw [liveBytes_upsertFile hv.paths, hbytes, hpath, hlive]
      simp [tombstoneRow, FileRow.live]
    · intro f hf hdeleted
      rcases mem_upsertFile.mp hf with rfl | ⟨hf, -⟩
      · exact ⟨rfl, rfl⟩
      · exact htombstones f hf hdeleted
  | wiped => exact ⟨rfl, by simp [Vault.resetVault]⟩
  | @swept now =>
    constructor
    · have hpruned : ∀ f ∈ v.files, (!f.prunedAt now) = false → f.deleted = true := by
        intro f _ hf
        simp only [FileRow.prunedAt, Bool.not_eq_false', Bool.and_eq_true] at hf
        exact hf.1
      simp only [Vault.sweep]
      rw [liveBytes_filter_deleted v.files hpruned]
      exact hbytes
    · intro f hf hdeleted
      exact htombstones f (List.mem_filter.mp hf).1 hdeleted

/-- The books of every vault of every reachable server. -/
theorem Store.accounted {s : Store} (hs : Reachable Store.Next Store.Initial s) : ∀ v ∈ s.vaults, v.Accounted := by
  have hbooks : ∀ v ∈ s.vaults, v.Versioned ∧ v.bytesUsed = liveBytes v.files ∧
      ∀ f ∈ v.files, f.deleted = true → f.sizeBytes = 0 ∧ f.blobID = none := by
    refine Store.vault_inv (fun vaultID userID keyCheck deviceName deviceID now => ?_) (fun v op w hv happlied => ?_) hs
    · exact ⟨⟨List.nodup_nil, List.nodup_nil, by simp [newVault], le_rfl⟩, rfl, by simp [newVault]⟩
    · exact ⟨hv.1.change happlied.change, happlied.change.accounted hv.1 hv.2.1 hv.2.2⟩
  intro v hv
  obtain ⟨hversioned, hbytes, htombstones⟩ := hbooks v hv
  exact ⟨hversioned.versions, hversioned.bounded, hbytes.trans (sum_sizeBytes_live v.files).symm, htombstones⟩

/-! ## What a transaction does to the counters -/

/-- No counter of the later vault is below the earlier one's. -/
structure Vault.CountersLe (v w : Vault) : Prop where
  version : v.latestVersion ≤ w.latestVersion
  seq : v.latestSeq ≤ w.latestSeq
  acked : v.ackedThroughSeq ≤ w.ackedThroughSeq

theorem Vault.CountersLe.refl (v : Vault) : v.CountersLe v := ⟨le_rfl, le_rfl, le_rfl⟩

theorem Vault.CountersLe.trans {u v w : Vault} (huv : u.CountersLe v) (hvw : v.CountersLe w) : u.CountersLe w :=
  ⟨huv.version.trans hvw.version, huv.seq.trans hvw.seq, huv.acked.trans hvw.acked⟩

/-- No transaction lowers a counter. -/
theorem Vault.Applied.countersLe {v w : Vault} {op : Op} (h : v.Applied op w) : v.CountersLe w := by
  cases h with
  | untouched => exact .refl v
  | ensured => exact ⟨le_rfl, le_rfl, le_rfl⟩
  | begun ok =>
    obtain ⟨-, -, rfl⟩ := Vault.beginUpload_ok ok
    exact ⟨le_rfl, le_rfl, le_rfl⟩
  | committed ok =>
    rcases Vault.commitUpload_ok ok with ⟨rfl, -⟩ | ⟨p, -, -, -, -, -, rfl, -⟩
    · exact .refl _
    · exact ⟨Nat.le_succ _, le_rfl, le_rfl⟩
  | tombstoned ok =>
    rcases Vault.tombstoneFile_ok ok with ⟨rfl, -⟩ | ⟨-, -, -, rfl, -⟩
    · exact .refl _
    · exact ⟨Nat.le_succ _, le_rfl, le_rfl⟩
  | wiped => exact ⟨le_rfl, le_rfl, le_rfl⟩
  | lapsed => exact ⟨le_rfl, le_rfl, le_rfl⟩
  | queued =>
    unfold Vault.enqueueWrite
    split
    · exact .refl v
    · exact ⟨le_rfl, Nat.le_succ _, le_rfl⟩
  | acked ok =>
    unfold Vault.ackWrites at ok
    split at ok
    · cases ok
    · split at ok
      · obtain ⟨rfl, -⟩ := Prod.mk.inj (Except.ok.inj ok)
        exact .refl _
      case isFalse hbeyond =>
        obtain ⟨rfl, -⟩ := Prod.mk.inj (Except.ok.inj ok)
        exact ⟨le_rfl, le_rfl, (not_le.mp hbeyond).le⟩
  | swept => exact ⟨le_rfl, le_rfl, le_rfl⟩

/-- No run of transactions lowers a counter. -/
theorem Vault.countersLe_of_run {v w : Vault} {ops : List Op} (run : Run Vault.Applied v ops w) : v.CountersLe w := by
  induction run with
  | nil v => exact .refl v
  | cons first _ ih => exact first.countersLe.trans ih

/-- A row that was not there before is numbered above the old counter. -/
theorem Vault.Change.new_row {v w : Vault} {op : Op} (h : v.Change op w) {f : FileRow} (hf : f ∈ w.files)
    (hnew : f ∉ v.files) : v.latestVersion < f.version := by
  cases h with
  | kept same => exact absurd (same.files ▸ hf) hnew
  | begun => exact absurd hf hnew
  | published =>
    rcases mem_upsertFile.mp hf with rfl | ⟨hf, -⟩
    · exact Nat.lt_succ_self _
    · exact absurd hf hnew
  | tombstoned =>
    rcases mem_upsertFile.mp hf with rfl | ⟨hf, -⟩
    · exact Nat.lt_succ_self _
    · exact absurd hf hnew
  | wiped => simp [Vault.resetVault] at hf
  | swept => exact absurd (List.mem_filter.mp hf).1 hnew

/-- A commit that changes the vault leaves its bytes within the cap it was given. -/
theorem Vault.Applied.within_cap {v w : Vault} {path blobID : String} {expectedVersion : ℕ} {hardCap : ℤ} {now : Time}
    (h : v.Applied (.commitUpload v.id path blobID expectedVersion hardCap now) w) (hchanged : w ≠ v) :
    w.bytesUsed ≤ hardCap := by
  cases h with
  | untouched => exact absurd rfl hchanged
  | committed ok =>
    rcases Vault.commitUpload_ok ok with ⟨rfl, -⟩ | ⟨p, -, -, rfl, -, hquota, rfl, -⟩
    · exact absurd rfl hchanged
    · exact hquota

/-- In every vault of every reachable server the books hold; and however it goes on, as long as the vault is
there, no counter has gone down, a row that is new takes a version above every earlier one, and a commit that
changes the vault keeps it within the cap it was given. -/
theorem versions_and_bytes_hold {s : Store} (hs : Reachable Store.Next Store.Initial s) {v : Vault}
    (hv : v ∈ s.vaults) :
    v.Accounted ∧ ∀ ops t, Run (Guarded Store.Next (fun s op => op.Spares v.id s)) s ops t →
      ∃ w ∈ t.vaults, w.id = v.id ∧ v.CountersLe w ∧ ∀ op u, Store.Next t op u → ∀ x ∈ u.vaults, x.id = v.id →
        (∀ f ∈ x.files, f ∉ w.files → ∀ g ∈ v.files, g.version < f.version) ∧
        ∀ path blobID expectedVersion hardCap now,
          op = .commitUpload v.id path blobID expectedVersion hardCap now → x ≠ w → x.bytesUsed ≤ hardCap := by
  have hbooks := Store.accounted hs v hv
  refine ⟨hbooks, fun ops t run => ?_⟩
  have ids := Store.ids_nodup hs
  obtain ⟨w, hw, hwid, later⟩ := Store.vault_run run ids hv rfl
  have hcounters := Vault.countersLe_of_run later
  have htids : (t.vaults.map Vault.id).Nodup := by
    refine run.invariant (fun s => (s.vaults.map Vault.id).Nodup) ?_ ids
    rintro s op t hids ⟨-, blobs, hstep⟩
    exact Store.step_ids_nodup hstep hids
  refine ⟨w, hw, hwid, hcounters, fun op u hnext x hx hxid => ?_⟩
  have happlied := Store.applied_of_id hnext htids hw hx (hxid.trans hwid.symm)
  constructor
  · intro f hf hnew g hg
    have hbelow := hbooks.bounded g hg
    have habove := happlied.change.new_row hf hnew
    have hgrown := hcounters.version
    omega
  · rintro path blobID expectedVersion hardCap now rfl hchanged
    rw [← hwid] at happlied
    exact happlied.within_cap hchanged

/-- The books of `agedVault` hold, and a reset lowers none of its counters. -/
theorem aged_vault_books : agedVault.Accounted ∧ agedVault.CountersLe (agedVault.resetVault "other").1 := by
  obtain ⟨hbooks, hlater⟩ := versions_and_bytes_hold agedVault_reachable (List.mem_singleton.mpr rfl)
  have hreset : Run (Guarded Store.Next (fun s op => op.Spares "vault" s)) ⟨[agedVault]⟩
      [.resetVault "vault" "other"] ⟨[(agedVault.resetVault "other").1]⟩ :=
    .cons ⟨fun _ _ _ => rfl, _, rfl⟩ (.nil _)
  obtain ⟨w, hw, -, hcounters, -⟩ := hlater _ _ hreset
  obtain rfl := List.mem_singleton.mp hw
  exact ⟨hbooks, hcounters⟩

end Thock.Plus
