import Thock.Plus.Versions

/-!
# Which blobs a step hands to deletion

A blob id moves from the begun uploads into a file row when its upload is committed, and four
steps compute lists of blobs to delete from the two tables. As long as no upload is begun
under the blob of a live file the tables share no blob, and nothing a step deletes is still
pointed at. A begin of a live blob breaks this: the upload goes stale and the sweep takes the
blob of a file that still stands.
-/

namespace Thock.Plus

open Transition

/-! ## The steps that free a blob -/

/-- How a step on a vault comes to hand a blob of it to deletion. -/
inductive Vault.Frees (v : Vault) : Op → Vault → String → Prop
  | replaced {p : PendingUpload} {expectedVersion : ℕ} {hardCap : ℤ} {now : Time} {b : String}
      (pending : p ∈ v.pendingUploads) (blob : (v.currentVersion p.path).blobID = some b) :
      v.Frees (.commitUpload v.id p.path p.blobID expectedVersion hardCap now) (v.published p now) b
  | freed {path : String} {expectedVersion : ℕ} {now : Time} {b : String}
      (blob : (v.currentVersion path).blobID = some b) :
      v.Frees (.tombstoneFile v.id path expectedVersion now) (v.tombstoned path now) b
  | wiped {keyCheck b : String} : v.Frees (.resetVault v.id keyCheck) (v.resetVault keyCheck).1 b
  | expired {p : PendingUpload} {now : Time} (pending : p ∈ v.pendingUploads) :
      v.Frees (.sweep now) (v.sweep now) p.blobID

/-- The one reading of the deletion lists: a blob a step deletes under a vault that survives was
freed by the step on that vault. -/
theorem Store.step_blobs {s t : Store} {op : Op} {blobs : List BlobRef}
    (h : s.step op = .ok (t, blobs)) (ids : (s.vaults.map Vault.id).Nodup) {ref : BlobRef}
    (href : ref ∈ blobs) {w : Vault} (hw : w ∈ t.vaults) (hid : w.id = ref.vaultID) :
    ∃ v ∈ s.vaults, v.id = w.id ∧ v.Frees op w ref.blobID := by
  cases op with
  | ensureVault userID keyCheck deviceName vaultID deviceID now =>
    simp only [Store.step] at h
    cases he : s.ensureVault userID keyCheck deviceName vaultID deviceID now with
    | error e => rw [he] at h; cases h
    | ok r =>
      rw [he] at h
      obtain ⟨-, rfl⟩ := Prod.mk.inj (Except.ok.inj h)
      exact absurd href List.not_mem_nil
  | beginUpload vaultID p hardCap =>
    obtain ⟨v, u, hv, hfn, rfl⟩ := Store.withVaultLock_ok h
    cases hb : v.beginUpload p hardCap with
    | error e => rw [hb] at hfn; cases hfn
    | ok u' =>
      rw [hb] at hfn
      obtain ⟨-, rfl⟩ := Prod.mk.inj (Except.ok.inj hfn)
      exact absurd href List.not_mem_nil
  | commitUpload vaultID path blobID expectedVersion hardCap now =>
    obtain ⟨v, u, hv, hfn, rfl⟩ := Store.withVaultLock_ok h
    obtain ⟨hmem, rfl⟩ := Store.vaultByID_some hv
    cases hc : v.commitUpload path blobID expectedVersion hardCap now with
    | error e => rw [hc] at hfn; cases hfn
    | ok r =>
      obtain ⟨u', r⟩ := r
      rw [hc] at hfn
      obtain ⟨rfl, rfl⟩ := Prod.mk.inj (Except.ok.inj hfn)
      rcases Vault.commitUpload_ok hc with ⟨-, halready, -⟩ | ⟨p, hp, rfl, rfl, -, -, rfl, halready, -, hreplaced⟩
      · rw [halready] at href
        exact absurd href List.not_mem_nil
      · simp only [halready, Bool.false_eq_true, if_false, hreplaced, List.mem_map,
          Option.mem_toList, Option.ite_none_left_eq_some] at href
        obtain ⟨b, ⟨-, hb⟩, rfl⟩ := href
        rcases Store.mem_put hw with rfl | ⟨-, hne⟩
        · exact ⟨v, hmem, rfl, .replaced hp hb⟩
        · exact absurd hid hne
  | tombstoneFile vaultID path expectedVersion now =>
    obtain ⟨v, u, hv, hfn, rfl⟩ := Store.withVaultLock_ok h
    obtain ⟨hmem, rfl⟩ := Store.vaultByID_some hv
    cases hd : v.tombstoneFile path expectedVersion now with
    | error e => rw [hd] at hfn; cases hfn
    | ok r =>
      obtain ⟨u', r⟩ := r
      rw [hd] at hfn
      obtain ⟨rfl, rfl⟩ := Prod.mk.inj (Except.ok.inj hfn)
      rcases Vault.tombstoneFile_ok hd with ⟨-, halready, -⟩ | ⟨-, -, -, rfl, halready, -, hfreed⟩
      · rw [halready] at href
        exact absurd href List.not_mem_nil
      · simp only [halready, Bool.false_eq_true, if_false, hfreed, List.mem_map,
          Option.mem_toList] at href
        obtain ⟨b, hb, rfl⟩ := href
        rcases Store.mem_put hw with rfl | ⟨-, hne⟩
        · exact ⟨v, hmem, rfl, .freed hb⟩
        · exact absurd hid hne
  | resetVault vaultID keyCheck =>
    simp only [Store.step] at h
    obtain ⟨v, u, hv, hfn, rfl⟩ := Store.withVaultLock_ok h
    obtain ⟨hmem, rfl⟩ := Store.vaultByID_some hv
    obtain ⟨rfl, rfl⟩ := Prod.mk.inj (Except.ok.inj hfn)
    obtain ⟨b, -, rfl⟩ := List.mem_map.mp href
    rcases Store.mem_put hw with rfl | ⟨-, hne⟩
    · exact ⟨v, hmem, rfl, .wiped⟩
    · exact absurd hid hne
  | deleteVault vaultID =>
    simp only [Store.step, Store.deleteVault] at h
    split at h
    · cases h
    · obtain ⟨rfl, rfl⟩ := Prod.mk.inj (Except.ok.inj h)
      obtain ⟨b, -, rfl⟩ := List.mem_map.mp href
      simp only [ne_eq, decide_not, List.mem_filter, Bool.not_eq_true', decide_eq_false_iff_not] at hw
      exact absurd hid hw.2
  | setVaultLapsed vaultID at_ =>
    simp only [Store.step, Store.setVaultLapsed] at h
    split at h
    · cases h
    · obtain ⟨-, rfl⟩ := Prod.mk.inj (Except.ok.inj h)
      exact absurd href List.not_mem_nil
  | enqueueWrite vaultID row =>
    simp only [Store.step] at h
    obtain ⟨v, u, -, hfn, -⟩ := Store.withVaultLock_ok h
    obtain ⟨-, rfl⟩ := Prod.mk.inj (Except.ok.inj hfn)
    exact absurd href List.not_mem_nil
  | ackWrites vaultID through now =>
    obtain ⟨v, u, -, hfn, -⟩ := Store.withVaultLock_ok h
    cases ha : v.ackWrites through now with
    | error e => rw [ha] at hfn; cases hfn
    | ok r =>
      rw [ha] at hfn
      obtain ⟨-, rfl⟩ := Prod.mk.inj (Except.ok.inj hfn)
      exact absurd href List.not_mem_nil
  | sweep now =>
    obtain ⟨rfl, rfl⟩ := Prod.mk.inj (Except.ok.inj h)
    obtain ⟨v, hv, rfl⟩ := List.mem_map.mp hw
    obtain ⟨hv, hkept⟩ := List.mem_filter.mp hv
    -- The id names one vault, so the blob was listed for the vault that survives.
    have same {u : Vault} (hu : u ∈ s.vaults) (huid : u.id = ref.vaultID) : u = v :=
      List.inj_on_of_nodup_map ids hu hv (huid.trans hid.symm)
    rcases List.mem_append.mp href with href | href
    · obtain ⟨u, hu, href⟩ := List.mem_flatMap.mp href
      obtain ⟨b, -, rfl⟩ := List.mem_map.mp href
      obtain ⟨hu, hlapsed⟩ := List.mem_filter.mp hu
      rw [same hu rfl] at hlapsed
      rw [hlapsed] at hkept
      cases hkept
    · obtain ⟨u, hu, href⟩ := List.mem_flatMap.mp href
      obtain ⟨p, hp, rfl⟩ := List.mem_map.mp href
      rw [same (List.mem_filter.mp hu).1 rfl] at hp
      exact ⟨v, hv, rfl, .expired (List.mem_filter.mp hp).1⟩

/-! ## Blobs stay apart -/

/-- No two files share a blob, a tombstone has none, and no begun upload is under a file's blob. -/
structure Vault.BlobsApart (v : Vault) : Prop where
  files : ∀ f ∈ v.files, ∀ g ∈ v.files, ∀ b, f.blobID = some b → g.blobID = some b → f = g
  tombstones : ∀ f ∈ v.files, f.deleted = true → f.blobID = none
  pending : ∀ p ∈ v.pendingUploads, ∀ f ∈ v.files, f.blobID ≠ some p.blobID

/-- The vault and the upload of a request that begins one. -/
def Op.begins : Op → Option (String × PendingUpload)
  | .beginUpload vaultID p _ => some (vaultID, p)
  | _ => none

/-- The begin of an upload does not reuse the blob of a live file of its vault. -/
def BeginsFreshBlob (s : Store) (op : Op) : Prop :=
  ∀ b ∈ op.begins, ∀ v ∈ s.vaults, v.id = b.1 → ∀ f ∈ v.files, f.deleted = false → f.blobID ≠ some b.2.blobID

instance (s : Store) (op : Op) : Decidable (BeginsFreshBlob s op) :=
  inferInstanceAs (Decidable (∀ b ∈ op.begins, _))

/-- A path's current row that has a blob is in the table. -/
theorem Vault.currentVersion_mem_of_blob {v : Vault} {path b : String}
    (h : (v.currentVersion path).blobID = some b) : v.currentVersion path ∈ v.files := by
  rcases v.currentVersion_cases path with ⟨hm, -⟩ | ⟨heq, -⟩
  · exact hm
  · rw [heq] at h
    cases h

/-- Steps that begin uploads only under fresh blobs keep blobs apart. -/
theorem Vault.BlobsApart.change {s : Store} {v w : Vault} {op : Op} (h : v.BlobsApart)
    (hv : v ∈ s.vaults) (hfresh : BeginsFreshBlob s op) (hc : v.Change op w) : w.BlobsApart := by
  cases hc with
  | kept same =>
    refine ⟨?_, ?_, ?_⟩
    · rw [same.files]; exact h.files
    · rw [same.files]; exact h.tombstones
    · rw [same.files, same.pendingUploads]; exact h.pending
  | @begun p hardCap version =>
    refine ⟨h.files, h.tombstones, fun q hq f hf hblob => ?_⟩
    rcases mem_upsertPending.mp hq with rfl | ⟨hq, -⟩
    · by_cases hdeleted : f.deleted = true
      · rw [h.tombstones f hf hdeleted] at hblob
        cases hblob
      · exact hfresh (v.id, q) rfl v hv rfl f hf (by simpa using hdeleted) hblob
    · exact h.pending q hq f hf hblob
  | @published p expectedVersion hardCap now pending quota =>
    refine ⟨fun f hf g hg b hfb hgb => ?_, fun f hf hdeleted => ?_, fun q hq f hf hblob => ?_⟩
    · rcases mem_upsertFile.mp hf with rfl | ⟨hf, -⟩ <;> rcases mem_upsertFile.mp hg with rfl | ⟨hg, -⟩
      · rfl
      · exact absurd (hgb.trans hfb.symm) (h.pending p pending g hg)
      · exact absurd (hfb.trans hgb.symm) (h.pending p pending f hf)
      · exact h.files f hf g hg b hfb hgb
    · rcases mem_upsertFile.mp hf with rfl | ⟨hf, -⟩
      · cases hdeleted
      · exact h.tombstones f hf hdeleted
    · obtain ⟨hq, hother⟩ := List.mem_filter.mp hq
      rcases mem_upsertFile.mp hf with rfl | ⟨hf, -⟩
      · have hsame : p.blobID = q.blobID := Option.some.inj hblob
        simp [hsame] at hother
      · exact h.pending q hq f hf hblob
  | @tombstoned path expectedVersion now live known =>
    have hblank : (tombstoneRow v path now).blobID = none := rfl
    refine ⟨fun f hf g hg b hfb hgb => ?_, fun f hf hdeleted => ?_, fun q hq f hf hblob => ?_⟩
    · rcases mem_upsertFile.mp hf with rfl | ⟨hf, -⟩
      · cases hblank.symm.trans hfb
      · rcases mem_upsertFile.mp hg with rfl | ⟨hg, -⟩
        · cases hblank.symm.trans hgb
        · exact h.files f hf g hg b hfb hgb
    · rcases mem_upsertFile.mp hf with rfl | ⟨hf, -⟩
      · exact hblank
      · exact h.tombstones f hf hdeleted
    · rcases mem_upsertFile.mp hf with rfl | ⟨hf, -⟩
      · cases hblank.symm.trans hblob
      · exact h.pending q hq f hf hblob
  | wiped => exact ⟨by simp [Vault.resetVault], by simp [Vault.resetVault], by simp [Vault.resetVault]⟩
  | @swept now =>
    refine ⟨fun f hf g hg => ?_, fun f hf => ?_, fun q hq f hf => ?_⟩
    · exact h.files f (List.mem_filter.mp hf).1 g (List.mem_filter.mp hg).1
    · exact h.tombstones f (List.mem_filter.mp hf).1
    · exact h.pending q (List.mem_filter.mp hq).1 f (List.mem_filter.mp hf).1

/-- Where blobs are apart, no blob a step frees is the blob of a file after it. -/
theorem Vault.BlobsApart.frees {v w : Vault} {op : Op} {b : String} (h : v.BlobsApart)
    (hfrees : v.Frees op w b) : ∀ f ∈ w.files, f.blobID ≠ some b := by
  intro f hf hblob
  cases hfrees with
  | @replaced p expectedVersion hardCap now b pending blob =>
    have hcurrent := Vault.currentVersion_mem_of_blob blob
    rcases mem_upsertFile.mp hf with rfl | ⟨hf, hother⟩
    · exact h.pending p pending _ hcurrent (blob.trans hblob.symm)
    · rw [h.files f hf _ hcurrent _ hblob blob] at hother
      exact hother (v.currentVersion_path p.path)
  | @freed path expectedVersion now b blob =>
    have hcurrent := Vault.currentVersion_mem_of_blob blob
    rcases mem_upsertFile.mp hf with rfl | ⟨hf, hother⟩
    · cases hblob
    · rw [h.files f hf _ hcurrent _ hblob blob] at hother
      exact hother rfl
  | wiped => exact absurd hf List.not_mem_nil
  | @expired p now pending => exact h.pending p pending f (List.mem_filter.mp hf).1 hblob

/-- In every run whose begins use fresh blobs, no blob that a step hands to deletion is the blob
of a live file after that step. -/
theorem deleted_blob_not_live {s : Store}
    (hs : Reachable (Guarded Store.Next BeginsFreshBlob) Store.Initial s) {op : Op} {t : Store}
    {blobs : List BlobRef} (hstep : s.step op = .ok (t, blobs)) :
    ∀ ref ∈ blobs, ∀ w ∈ t.vaults, w.id = ref.vaultID →
      ∀ f ∈ w.files, f.deleted = false → f.blobID ≠ some ref.blobID := by
  intro ref href w hw hid f hf _
  have happart : ∀ v ∈ s.vaults, v.BlobsApart := by
    refine Store.vault_invariant (fun w hw => ?_) (fun s v op w hop hv h hc => h.change hv hop hc) hs
    exact ⟨by simp [hw.files], by simp [hw.files], by simp [hw.files]⟩
  obtain ⟨v, hv, -, hfrees⟩ := Store.step_blobs hstep (Store.ids_nodup hs.unguarded) href hw hid
  exact (happart v hv).frees hfrees f hf

/-- An upload begun under the blob of a live file and left for an hour takes the file's blob
along when it is swept, and the file stays. -/
theorem begun_live_blob_swept {s t : Store} (ids : (s.vaults.map Vault.id).Nodup) {v : Vault}
    (hv : v ∈ s.vaults) {f : FileRow} (hf : f ∈ v.files) (hlive : f.deleted = false)
    {p : PendingUpload} (hblob : f.blobID = some p.blobID) {hardCap : ℤ} {blobs : List BlobRef}
    (hbegin : s.step (.beginUpload v.id p hardCap) = .ok (t, blobs)) {now : Time}
    (hlate : p.createdAt ≤ now - hour) (hkept : v.lapsedBefore now = false) :
    ∃ u swept, t.step (.sweep now) = .ok (u, swept) ∧ ∃ w ∈ u.vaults, f ∈ w.files ∧
      ∃ ref ∈ swept, ref.vaultID = w.id ∧ f.blobID = some ref.blobID := by
  obtain ⟨v', w, hv', hfn, rfl⟩ := Store.withVaultLock_ok hbegin
  obtain ⟨hmem, hid⟩ := Store.vaultByID_some hv'
  obtain rfl : v' = v := List.inj_on_of_nodup_map ids hmem hv hid
  cases hb : v'.beginUpload p hardCap with
  | error e => rw [hb] at hfn; cases hfn
  | ok w' =>
    rw [hb] at hfn
    obtain ⟨rfl, -⟩ := Prod.mk.inj (Except.ok.inj hfn)
    obtain ⟨-, -, rfl⟩ := Vault.beginUpload_ok hb
    have hput : v'.begun p ∈ (s.put (v'.begun p)).vaults := List.mem_map.mpr ⟨v', hv, if_pos rfl⟩
    have hstays : (!(v'.begun p).lapsedBefore now) = true := by
      change (!v'.lapsedBefore now) = true
      rw [hkept]
      rfl
    have hstale : p.staleAt now = true := decide_eq_true hlate
    refine ⟨_, _, rfl, (v'.begun p).sweep now, ?_, ?_, ⟨v'.id, p.blobID⟩, List.mem_append_right _ ?_, rfl, hblob⟩
    · exact List.mem_map.mpr ⟨v'.begun p, List.mem_filter.mpr ⟨hput, hstays⟩, rfl⟩
    · refine List.mem_filter.mpr ⟨hf, ?_⟩
      simp [FileRow.prunedAt, hlive]
    · refine List.mem_flatMap.mpr ⟨v'.begun p, List.mem_filter.mpr ⟨hput, hstays⟩, ?_⟩
      refine List.mem_map.mpr ⟨p, List.mem_filter.mpr ⟨?_, hstale⟩, rfl⟩
      exact mem_upsertPending.mpr (Or.inl rfl)

/-- The upload that publishes a note. -/
def keptUpload : PendingUpload :=
  { blobID := "0a0a0a0a0a0a0a0a0a0a0a0a0a0a0a0a", path := "notes/a.md", expectedVersion := 0, sizeBytes := 10,
    contentHash := "a1a1a1a1a1a1a1a1a1a1a1a1a1a1a1a1a1a1a1a1a1a1a1a1a1a1a1a1a1a1a1a1", createdAt := 0 }

/-- A new version of the note under a blob of its own. -/
def freshUpload : PendingUpload :=
  { keptUpload with
    blobID := "0b0b0b0b0b0b0b0b0b0b0b0b0b0b0b0b", expectedVersion := 1
    contentHash := "b1b1b1b1b1b1b1b1b1b1b1b1b1b1b1b1b1b1b1b1b1b1b1b1b1b1b1b1b1b1b1b1" }

/-- The note is committed, another upload of it is begun, and nothing more comes of that. -/
def begunHistory (second : PendingUpload) : List Op :=
  [.ensureVault "user" "check" "desk" "vault" "device" 0, .beginUpload "vault" keptUpload 1000,
    .commitUpload "vault" keptUpload.path keptUpload.blobID 0 1000 0, .beginUpload "vault" second 1000]

def keptFile : FileRow :=
  { path := keptUpload.path, version := 1, blobID := some keptUpload.blobID, sizeBytes := 10,
    contentHash := some keptUpload.contentHash, updatedBy := "desk" }

/-- The vault of `begunHistory`, with the uploads still begun. -/
def keptVault (pendingUploads : List PendingUpload) : Vault :=
  { id := "vault", userID := "user", keyCheck := "check", createdAt := 0, latestVersion := 1, bytesUsed := 10,
    files := [keptFile], pendingUploads,
    devices := [{ id := "device", role := .desk, name := "desk", pairedAt := 0, lastSeenAt := 0 }] }

/-- The note's own blob begun again: an hour later the sweep deletes it while the note stands. -/
theorem live_blob_deleted :
    ¬ ∀ s t op blobs, Reachable Store.Next Store.Initial s → s.step op = .ok (t, blobs) →
      ∀ ref ∈ blobs, ∀ w ∈ t.vaults, w.id = ref.vaultID →
        ∀ f ∈ w.files, f.deleted = false → f.blobID ≠ some ref.blobID := by
  intro hall
  have hs : Reachable Store.Next Store.Initial ⟨[keptVault [{ keptUpload with expectedVersion := 1 }]]⟩ :=
    ⟨{}, begunHistory { keptUpload with expectedVersion := 1 }, rfl, Run.of_follow Store.after_next (by decide)⟩
  have hsweep : Store.step ⟨[keptVault [{ keptUpload with expectedVersion := 1 }]]⟩ (.sweep hour) =
      .ok (⟨[keptVault []]⟩, [⟨"vault", keptUpload.blobID⟩]) := by decide
  exact hall _ _ _ _ hs hsweep _ (List.mem_singleton.mpr rfl) _ (List.mem_singleton.mpr rfl) rfl keptFile
    (List.mem_singleton.mpr rfl) rfl rfl

/-- A second upload under a blob of its own: the sweep takes that blob and leaves the note's. -/
theorem fresh_blob_swept :
    Store.step ⟨[keptVault [freshUpload]]⟩ (.sweep hour) =
        .ok (⟨[keptVault []]⟩, [⟨"vault", freshUpload.blobID⟩]) ∧
      keptFile.blobID ≠ some freshUpload.blobID := by
  have hs : Reachable (Guarded Store.Next BeginsFreshBlob) Store.Initial ⟨[keptVault [freshUpload]]⟩ :=
    ⟨{}, begunHistory freshUpload, rfl, Run.of_follow_allow Store.after_next (by decide)⟩
  have hsweep : Store.step ⟨[keptVault [freshUpload]]⟩ (.sweep hour) =
      .ok (⟨[keptVault []]⟩, [⟨"vault", freshUpload.blobID⟩]) := by decide
  exact ⟨hsweep, deleted_blob_not_live hs hsweep _ (List.mem_singleton.mpr rfl) _
    (List.mem_singleton.mpr rfl) rfl keptFile (List.mem_singleton.mpr rfl) rfl⟩

end Thock.Plus
