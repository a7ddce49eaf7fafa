import Thock.Plus.FilesList

/-!
# A client's walk between other requests

A GET files request reads the caller's vault row when it resolves the credential, checks the
cursor against that row's horizon, and lists the file rows later. Here the three are separate
moves and any request may run between two of them. A log keeps the row every change wrote,
from the vault's creation on, so that a change stays known after its tombstone is pruned.

A walk misses a change in one way only: a step between the resolution and the listing takes
away a row above the request's cursor. The check has passed by then, and the page reads as if
the row had never been.
-/

namespace Thock.Plus

open CursorPaging Transition

/-! ## The client beside the server -/

/-- Where a client stands in a walk that started at cursor `c`. -/
inductive Client
  | resting
  /-- Between requests, with the cursor of the next. -/
  | walking (c since : ℕ) (delivered : List FileRow)
  /-- The request's caller is resolved: its vault row is read. -/
  | resolved (c since : ℕ) (delivered : List FileRow) (principal : Vault)
  /-- The horizon check has passed. -/
  | checked (c since : ℕ) (delivered : List FileRow) (principal : Vault)
  | finished (c next : ℕ) (delivered : List FileRow)
  | expired
deriving DecidableEq, Repr

/-- The server, the log of the rows the vault's changes wrote, and the client. -/
structure Walk where
  store : Store
  log : List FileRow := []
  client : Client := .resting
deriving DecidableEq, Repr

inductive Move
  /-- Any request or timer of the server. -/
  | server (op : Op)
  | start (c : ℕ)
  | resolve
  | check
  | list (limit : ℕ)
  /-- The request fails or its answer is lost; the client may ask again. -/
  | lost
  | leave
deriving DecidableEq, Repr

/-- The rows a step wrote: those with a version above the old counter. -/
def newRows (vaultID : String) (s t : Store) : List FileRow :=
  match s.vaultByID vaultID, t.vaultByID vaultID with
  | some v, some w => w.files.filter fun f => v.latestVersion < f.version
  | _, _ => []

/-- The rows listed for a vault id; none when the vault is gone. -/
def Store.listFiles (s : Store) (vaultID : String) (since : Option ℕ) (limit : ℕ) : List FileRow :=
  match s.vaultByID vaultID with
  | some v => v.listFiles since limit
  | none => []

/-- A page as the client takes it: the rows are delivered and the cursor moves. -/
def takePage (c : ℕ) (delivered : List FileRow) (p : FilesPage) : Client :=
  if p.hasMore then .walking c p.nextSince (delivered ++ p.files)
  else .finished c p.nextSince (delivered ++ p.files)

/-- One move. A vault id is drawn afresh, so no request creates the walked vault again. -/
def Walk.step (vaultID : String) (σ : Walk) : Move → Option Walk
  | .server op =>
    if op.creates = some vaultID then none
    else match σ.store.after op with
      | none => none
      | some t => some { σ with store := t, log := σ.log ++ newRows vaultID σ.store t }
  | .start c =>
    match σ.client with
    | .resting => some { σ with client := .walking c c [] }
    | _ => none
  | .resolve =>
    match σ.client, σ.store.vaultByID vaultID with
    | .walking c since delivered, some v => some { σ with client := .resolved c since delivered v }
    | _, _ => none
  | .check =>
    match σ.client with
    | .resolved c since delivered principal =>
      some { σ with
        client := if cursorExpired principal (some since) then .expired
          else .checked c since delivered principal }
    | _ => none
  | .list limit =>
    match σ.client with
    | .checked c since delivered principal =>
      some { σ with
        client := takePage c delivered
          (filesPage principal (σ.store.listFiles vaultID (some since) limit) (some since) limit) }
    | _ => none
  | .lost =>
    match σ.client with
    | .resolved c since delivered _ => some { σ with client := .walking c since delivered }
    | .checked c since delivered _ => some { σ with client := .walking c since delivered }
    | _ => none
  | .leave => some { σ with client := .resting }

def Walk.Next (vaultID : String) (σ : Walk) (m : Move) (τ : Walk) : Prop := σ.step vaultID m = some τ

/-- The vault has just been created and the client has not started. -/
def Walk.Opens (vaultID : String) (σ : Walk) : Prop :=
  Reachable Store.Next Store.Initial σ.store ∧ (∃ v, σ.store.vaultByID vaultID = some v ∧ v.Fresh) ∧
    σ.log = [] ∧ σ.client = .resting

/-- The cursor of a request in flight. -/
def Client.inFlight : Client → Option ℕ
  | .resolved _ since _ _ => some since
  | .checked _ since _ _ => some since
  | _ => none

/-- The request a move makes of the server. -/
def Move.request : Move → Option Op
  | .server op => some op
  | _ => none

/-- While a request is in flight no step takes away a row above its cursor. -/
def KeepsRowsAbove (vaultID : String) (σ : Walk) (m : Move) : Prop :=
  ∀ op ∈ m.request, ∀ since ∈ σ.client.inFlight, ∀ v ∈ σ.store.vaultByID vaultID, ∀ f ∈ v.files,
    since < f.version → op.removes v f = false

instance (vaultID : String) (σ : Walk) (m : Move) : Decidable (KeepsRowsAbove vaultID σ m) :=
  inferInstanceAs (Decidable (∀ op ∈ m.request, _))

/-! ## What a step leaves of a row -/

/-- The new horizon is no lower than a pruned version, nor than the old horizon. -/
theorem le_foldl_max {versions : List ℕ} {start n : ℕ} (h : n ≤ start ∨ n ∈ versions) :
    n ≤ versions.foldl max start := by
  induction versions generalizing start with
  | nil => simpa using h
  | cons m rest ih =>
    refine ih ?_
    rcases h with h | h
    · exact Or.inl (h.trans (le_max_left _ _))
    · rcases List.mem_cons.mp h with rfl | h
      · exact Or.inl (le_max_right _ _)
      · exact Or.inr h

/-- No change lowers the version counter. -/
theorem Vault.Change.latestVersion_le {v w : Vault} {op : Op} (h : v.Change op w) :
    v.latestVersion ≤ w.latestVersion := by
  cases h with
  | kept same => exact same.latestVersion.ge
  | begun => exact le_rfl
  | published => exact Nat.le_succ _
  | tombstoned => exact Nat.le_succ _
  | wiped => exact le_rfl
  | swept => exact le_rfl

/-- No change lowers the horizon of a vault in version order. -/
theorem Vault.Change.horizon_le {v w : Vault} {op : Op} (h : v.Change op w) (hv : v.Versioned) :
    v.tombstoneHorizon ≤ w.tombstoneHorizon := by
  cases h with
  | kept same => exact same.tombstoneHorizon.ge
  | begun => exact le_rfl
  | published => exact le_rfl
  | tombstoned => exact le_rfl
  | wiped => exact hv.horizon
  | swept => exact le_foldl_max (Or.inl le_rfl)

/-- A row stands, or a row of its path took a new version, or it was taken away and the horizon
moved over it. -/
theorem Vault.Change.row {v w : Vault} {op : Op} (h : v.Change op w) (hv : v.Versioned) {f : FileRow}
    (hf : f ∈ v.files) :
    f ∈ w.files ∨ (∃ g ∈ w.files, g.path = f.path ∧ v.latestVersion < g.version) ∨
      (op.removes v f = true ∧ f.version ≤ w.tombstoneHorizon) := by
  have replaced (row : FileRow) (hrow : v.latestVersion < row.version) :
      f ∈ upsertFile row v.files ∨
        ∃ g ∈ upsertFile row v.files, g.path = f.path ∧ v.latestVersion < g.version := by
    by_cases hpath : f.path = row.path
    · exact Or.inr ⟨row, mem_upsertFile.mpr (Or.inl rfl), hpath.symm, hrow⟩
    · exact Or.inl (mem_upsertFile.mpr (Or.inr ⟨hf, hpath⟩))
  cases h with
  | kept same => exact Or.inl (same.files ▸ hf)
  | begun => exact Or.inl hf
  | published pending quota =>
    exact (replaced (committedRow v _ _) (Nat.lt_succ_self _)).imp_right Or.inl
  | tombstoned live known =>
    exact (replaced (tombstoneRow v _ _) (Nat.lt_succ_self _)).imp_right Or.inl
  | wiped => exact Or.inr (Or.inr ⟨by simp [Op.removes], hv.bounded f hf⟩)
  | @swept now =>
    by_cases hpruned : f.prunedAt now = true
    · refine Or.inr (Or.inr ⟨by simp [Op.removes, hpruned], le_foldl_max (Or.inr ?_)⟩)
      exact List.mem_map.mpr ⟨f, List.mem_filter.mpr ⟨hf, hpruned⟩, rfl⟩
    · exact Or.inl (List.mem_filter.mpr ⟨hf, by simpa using hpruned⟩)

/-! ## The walked vault across a step -/

/-- A step changes the vault of an id it does not create, or takes it away with all its rows. -/
theorem Store.step_vaultByID {s t : Store} {op : Op} {blobs : List BlobRef} {vaultID : String}
    (h : s.step op = .ok (t, blobs)) (ids : (s.vaults.map Vault.id).Nodup)
    (hnew : op.creates ≠ some vaultID) :
    (∃ v w, s.vaultByID vaultID = some v ∧ t.vaultByID vaultID = some w ∧ v.Change op w) ∨
      (t.vaultByID vaultID = none ∧ ∀ v ∈ s.vaultByID vaultID, ∀ f, op.removes v f = true) := by
  cases ht : t.vaultByID vaultID with
  | some w =>
    obtain ⟨hw, rfl⟩ := Store.vaultByID_some ht
    rcases Store.step_vault h hw with ⟨-, hcreates⟩ | ⟨v, hv, hid, hchange⟩
    · exact absurd hcreates hnew
    · exact Or.inl ⟨v, w, hid ▸ Store.vaultByID_of_mem ids hv, rfl, hchange⟩
  | none =>
    refine Or.inr ⟨rfl, fun v hv f => ?_⟩
    obtain ⟨hmem, rfl⟩ := Store.vaultByID_some hv
    by_contra hstays
    obtain ⟨new, hids, -⟩ := Store.step_ids h
    have hkept : op.removesVault v = false := by
      cases hremoved : op.removesVault v with
      | false => rfl
      | true => exact absurd (by simp [Op.removes, hremoved]) hstays
    have hid : v.id ∈ t.vaults.map Vault.id := by
      rw [hids]
      refine List.mem_append_left _ (List.mem_map.mpr ⟨v, List.mem_filter.mpr ⟨hmem, ?_⟩, rfl⟩)
      rw [hkept]
      rfl
    obtain ⟨w, hw, hwid⟩ := List.mem_map.mp hid
    simpa [hwid] using List.find?_eq_none.mp ht w hw

/-- The latest logged change of a path. -/
abbrev Walk.Latest (σ : Walk) (r : FileRow) : Prop :=
  CursorPaging.Latest FileRow.version FileRow.path σ.log r

/-- What the log and the table say of each other in every run. -/
structure Walk.Tracked (vaultID : String) (σ : Walk) : Prop where
  reachable : Reachable Store.Next Store.Initial σ.store
  logged : ∀ v ∈ σ.store.vaultByID vaultID, ∀ r ∈ σ.log, r.version ≤ v.latestVersion
  table : ∀ v ∈ σ.store.vaultByID vaultID, ∀ r, σ.Latest r → r ∈ v.files ∨ r.version ≤ v.tombstoneHorizon

/-- Every latest change above a cursor is in the table. -/
def Walk.Owes (vaultID : String) (σ : Walk) (since : ℕ) : Prop :=
  ∀ r, σ.Latest r → since < r.version → ∃ v ∈ σ.store.vaultByID vaultID, r ∈ v.files

/-- The client holds every latest change between where it started and its cursor, and the cursor
lies below every change to come, unless nothing was asked yet. -/
structure Walk.Caught (vaultID : String) (σ : Walk) (c since : ℕ) (delivered : List FileRow) : Prop where
  forward : c ≤ since
  reached : since = c ∨ ∀ v ∈ σ.store.vaultByID vaultID, since ≤ v.latestVersion
  held : ∀ r, σ.Latest r → c < r.version → r.version ≤ since → r ∈ delivered

/-- What holds of the client at each stage of its walk. -/
def Walk.ClientInv (vaultID : String) (σ : Walk) : Prop :=
  match σ.client with
  | .resting => True
  | .walking c since delivered => σ.Caught vaultID c since delivered
  | .resolved c since delivered principal =>
    σ.Caught vaultID c since delivered ∧
      (∀ v ∈ σ.store.vaultByID vaultID, principal.latestVersion ≤ v.latestVersion) ∧
      (principal.tombstoneHorizon ≤ since → σ.Owes vaultID since)
  | .checked c since delivered principal =>
    σ.Caught vaultID c since delivered ∧
      (∀ v ∈ σ.store.vaultByID vaultID, principal.latestVersion ≤ v.latestVersion) ∧
      σ.Owes vaultID since
  | .finished c next delivered => σ.Caught vaultID c next delivered
  | .expired => True

section

variable {vaultID : String} {σ : Walk} {t : Store} {op : Op} {blobs : List BlobRef}

/-- The walk after a request: the rows move on and the log grows. -/
def Walk.served (vaultID : String) (σ : Walk) (t : Store) : Walk :=
  { σ with store := t, log := σ.log ++ newRows vaultID σ.store t }

/-- A latest change after a request was just written, or was latest before it with no newer row. -/
theorem Walk.Tracked.latest_served (h : σ.Tracked vaultID) {v w : Vault}
    (hv : σ.store.vaultByID vaultID = some v) (hw : t.vaultByID vaultID = some w) {r : FileRow}
    (hr : (σ.served vaultID t).Latest r) :
    (r ∈ w.files ∧ v.latestVersion < r.version) ∨
      (σ.Latest r ∧ r.version ≤ v.latestVersion ∧
        ∀ g ∈ w.files, g.path = r.path → g.version ≤ v.latestVersion) := by
  have hnew : newRows vaultID σ.store t = w.files.filter fun f => v.latestVersion < f.version := by
    simp only [newRows, hv, hw]
  rcases CursorPaging.Latest.of_append FileRow.version FileRow.path hr with hr | ⟨hr, hnone⟩
  · rw [hnew, List.mem_filter, decide_eq_true_eq] at hr
    exact Or.inl hr
  · have hold := h.logged v hv r hr.1
    refine Or.inr ⟨hr, hold, fun g hg hpath => ?_⟩
    by_contra habove
    have hmem : g ∈ newRows vaultID σ.store t := by
      rw [hnew, List.mem_filter, decide_eq_true_eq]
      exact ⟨hg, not_le.mp habove⟩
    exact habove ((hnone g hmem hpath).trans hold)

/-- When the vault is gone the log stays as it was. -/
theorem Walk.served_log_of_none (ht : t.vaultByID vaultID = none) :
    (σ.served vaultID t).log = σ.log := by
  have hnone : newRows vaultID σ.store t = [] := by
    unfold newRows
    split
    · rename_i hsome
      rw [ht] at hsome
      cases hsome
    · rfl
  change σ.log ++ newRows vaultID σ.store t = σ.log
  rw [hnone, List.append_nil]

/-- The log and the table agree after any request. -/
theorem Walk.Tracked.served (h : σ.Tracked vaultID) (hstep : σ.store.step op = .ok (t, blobs))
    (hnew : op.creates ≠ some vaultID) : (σ.served vaultID t).Tracked vaultID := by
  have hreach : Reachable Store.Next Store.Initial t := by
    obtain ⟨s, actions, hs, run⟩ := h.reachable
    exact ⟨s, _, hs, run.snoc ⟨blobs, hstep⟩⟩
  have ids := Store.ids_nodup h.reachable
  rcases Store.step_vaultByID hstep ids hnew with ⟨v, w, hv, hw, hchange⟩ | ⟨ht, -⟩
  · have hvv := Store.versioned h.reachable v (Store.vaultByID_some hv).1
    have hwv := Store.versioned hreach w (Store.vaultByID_some hw).1
    refine ⟨hreach, fun w' hw' r hr => ?_, fun w' hw' r hr => ?_⟩
    · obtain rfl : w' = w := Option.some.inj (hw'.symm.trans hw)
      rcases List.mem_append.mp hr with hr | hr
      · exact (h.logged v hv r hr).trans hchange.latestVersion_le
      · simp only [newRows, hv, hw, List.mem_filter] at hr
        exact hwv.bounded r hr.1
    · obtain rfl : w' = w := Option.some.inj (hw'.symm.trans hw)
      rcases h.latest_served hv hw hr with ⟨hmem, -⟩ | ⟨hold, hle, hnone⟩
      · exact Or.inl hmem
      · rcases h.table v hv r hold with hmem | hhorizon
        · rcases hchange.row hvv hmem with hkept | ⟨g, hg, hpath, habove⟩ | ⟨-, hhorizon⟩
          · exact Or.inl hkept
          · exact absurd (hnone g hg hpath) (not_le.mpr habove)
          · exact Or.inr hhorizon
        · exact Or.inr (hhorizon.trans (hchange.horizon_le hvv))
  · refine ⟨hreach, fun w hw => ?_, fun w hw => ?_⟩ <;>
    · rw [Option.mem_def] at hw
      exact absurd (ht.symm.trans hw) (by simp)

/-- Requests take nothing from what a client has caught up with. -/
theorem Walk.Caught.served {c since : ℕ} {delivered : List FileRow} (h : σ.Tracked vaultID)
    (hc : σ.Caught vaultID c since delivered) (hstep : σ.store.step op = .ok (t, blobs))
    (hnew : op.creates ≠ some vaultID) : (σ.served vaultID t).Caught vaultID c since delivered := by
  have ids := Store.ids_nodup h.reachable
  rcases Store.step_vaultByID hstep ids hnew with ⟨v, w, hv, hw, hchange⟩ | ⟨ht, -⟩
  · refine ⟨hc.forward, hc.reached.imp_right fun hle w' hw' => ?_, fun r hr hlow hhigh => ?_⟩
    · obtain rfl : w' = w := Option.some.inj (hw'.symm.trans hw)
      exact (hle v hv).trans hchange.latestVersion_le
    · rcases h.latest_served hv hw hr with ⟨-, habove⟩ | ⟨hold, -, -⟩
      · rcases hc.reached with rfl | hle
        · exact absurd hhigh (not_le.mpr hlow)
        · exact absurd (hhigh.trans (hle v hv)) (not_le.mpr habove)
      · exact hc.held r hold hlow hhigh
  · refine ⟨hc.forward, Or.inr fun w hw => ?_, fun r hr hlow hhigh => hc.held r ?_ hlow hhigh⟩
    · exact absurd (ht.symm.trans hw) (by simp)
    · have hlog := Walk.served_log_of_none (σ := σ) ht
      rw [Walk.Latest, hlog] at hr
      exact hr

/-- A request that takes away no row above the cursor leaves every latest change above it listed. -/
theorem Walk.Owes.served {since : ℕ} (h : σ.Tracked vaultID) (howes : σ.Owes vaultID since)
    (hstep : σ.store.step op = .ok (t, blobs)) (hnew : op.creates ≠ some vaultID)
    (hkeeps : ∀ v ∈ σ.store.vaultByID vaultID, ∀ f ∈ v.files, since < f.version → op.removes v f = false) :
    (σ.served vaultID t).Owes vaultID since := by
  have ids := Store.ids_nodup h.reachable
  intro r hr habove
  rcases Store.step_vaultByID hstep ids hnew with ⟨v, w, hv, hw, hchange⟩ | ⟨ht, hremoved⟩
  · refine ⟨w, hw, ?_⟩
    rcases h.latest_served hv hw hr with ⟨hmem, -⟩ | ⟨hold, hle, hnone⟩
    · exact hmem
    · obtain ⟨v', hv', hmem⟩ := howes r hold habove
      obtain rfl : v' = v := Option.some.inj (hv'.symm.trans hv)
      have hvv := Store.versioned h.reachable v' (Store.vaultByID_some hv).1
      rcases hchange.row hvv hmem with hkept | ⟨g, hg, hpath, hg_above⟩ | ⟨hgone, -⟩
      · exact hkept
      · exact absurd (hnone g hg hpath) (not_le.mpr hg_above)
      · exact absurd hgone (by simp [hkeeps v' hv r hmem habove])
  · have hlog := Walk.served_log_of_none (σ := σ) ht
    rw [Walk.Latest, hlog] at hr
    obtain ⟨v, hv, hmem⟩ := howes r hr habove
    exact absurd (hremoved v hv r) (by simp [hkeeps v hv r hmem habove])

/-- A principal's counter stays at or below its vault's. -/
theorem Walk.Tracked.principal_served {principal : Vault} (h : σ.Tracked vaultID)
    (hle : ∀ v ∈ σ.store.vaultByID vaultID, principal.latestVersion ≤ v.latestVersion)
    (hstep : σ.store.step op = .ok (t, blobs)) (hnew : op.creates ≠ some vaultID) :
    ∀ w ∈ t.vaultByID vaultID, principal.latestVersion ≤ w.latestVersion := by
  intro w' hw'
  rcases Store.step_vaultByID hstep (Store.ids_nodup h.reachable) hnew with
    ⟨v, w, hv, hw, hchange⟩ | ⟨ht, -⟩
  · obtain rfl : w' = w := Option.some.inj (hw'.symm.trans hw)
    exact (hle v hv).trans hchange.latestVersion_le
  · exact absurd (ht.symm.trans hw') (by simp)

/-- A request beside the client keeps what holds at every stage, given the guard in flight. -/
theorem Walk.ClientInv.served (h : σ.Tracked vaultID) (hclient : σ.ClientInv vaultID)
    (hstep : σ.store.step op = .ok (t, blobs)) (hnew : op.creates ≠ some vaultID)
    (hkeeps : ∀ since ∈ σ.client.inFlight, ∀ v ∈ σ.store.vaultByID vaultID, ∀ f ∈ v.files,
      since < f.version → op.removes v f = false) : (σ.served vaultID t).ClientInv vaultID := by
  unfold Walk.ClientInv at hclient ⊢
  change match σ.client with
    | .resting => True
    | .walking c since delivered => (σ.served vaultID t).Caught vaultID c since delivered
    | .resolved c since delivered principal =>
      (σ.served vaultID t).Caught vaultID c since delivered ∧
        (∀ v ∈ t.vaultByID vaultID, principal.latestVersion ≤ v.latestVersion) ∧
        (principal.tombstoneHorizon ≤ since → (σ.served vaultID t).Owes vaultID since)
    | .checked c since delivered principal =>
      (σ.served vaultID t).Caught vaultID c since delivered ∧
        (∀ v ∈ t.vaultByID vaultID, principal.latestVersion ≤ v.latestVersion) ∧
        (σ.served vaultID t).Owes vaultID since
    | .finished c next delivered => (σ.served vaultID t).Caught vaultID c next delivered
    | .expired => True
  cases hc : σ.client with
  | resting => trivial
  | expired => trivial
  | walking c since delivered =>
    simp only [hc] at hclient
    exact hclient.served h hstep hnew
  | finished c next delivered =>
    simp only [hc] at hclient
    exact hclient.served h hstep hnew
  | resolved c since delivered principal =>
    simp only [hc] at hclient
    obtain ⟨hcaught, hle, howes⟩ := hclient
    exact ⟨hcaught.served h hstep hnew, h.principal_served hle hstep hnew, fun hhorizon =>
      (howes hhorizon).served h hstep hnew (hkeeps since (by simp [hc, Client.inFlight]))⟩
  | checked c since delivered principal =>
    simp only [hc] at hclient
    obtain ⟨hcaught, hle, howes⟩ := hclient
    exact ⟨hcaught.served h hstep hnew, h.principal_served hle hstep hnew,
      howes.served h hstep hnew (hkeeps since (by simp [hc, Client.inFlight]))⟩

/-! ## The client's own moves -/

/-- Where the client stands is nothing to the log and the table. -/
theorem Walk.Tracked.withClient (h : σ.Tracked vaultID) (client : Client) :
    ({ σ with client } : Walk).Tracked vaultID := ⟨h.reachable, h.logged, h.table⟩

theorem Walk.Caught.withClient {c since : ℕ} {delivered : List FileRow}
    (h : σ.Caught vaultID c since delivered) (client : Client) :
    ({ σ with client } : Walk).Caught vaultID c since delivered := ⟨h.forward, h.reached, h.held⟩

/-- Resolving reads a row whose horizon lies below every latest change that is not in the table. -/
theorem Walk.Tracked.resolve (h : σ.Tracked vaultID) {v : Vault}
    (hv : σ.store.vaultByID vaultID = some v) {since : ℕ} (hsince : v.tombstoneHorizon ≤ since) :
    σ.Owes vaultID since := by
  intro r hr habove
  refine ⟨v, hv, ?_⟩
  rcases h.table v hv r hr with hmem | hhorizon
  · exact hmem
  · exact absurd (hhorizon.trans hsince) (not_le.mpr habove)

/-- The rows a request is owed, in order. -/
def Walk.owedRows (vaultID : String) (σ : Walk) (since : ℕ) : List FileRow :=
  match σ.store.vaultByID vaultID with
  | some v => v.rowsAbove since
  | none => []

theorem Walk.listFiles_eq (since limit : ℕ) :
    σ.store.listFiles vaultID (some since) limit = (σ.owedRows vaultID since).take (limit + 1) := by
  unfold Store.listFiles Walk.owedRows
  split
  · rfl
  · rw [List.take_nil]

/-- The owed rows ascend, lie above the cursor and below the counter, and hold every latest change. -/
theorem Walk.Tracked.owedRows (h : σ.Tracked vaultID) (since : ℕ) :
    Ordered FileRow.version (σ.owedRows vaultID since) ∧
      (∀ r ∈ σ.owedRows vaultID since, since < r.version ∧
        ∀ v ∈ σ.store.vaultByID vaultID, r.version ≤ v.latestVersion) ∧
      (σ.Owes vaultID since → ∀ r, σ.Latest r → since < r.version → r ∈ σ.owedRows vaultID since) := by
  unfold Walk.owedRows
  cases hv : σ.store.vaultByID vaultID with
  | none =>
    refine ⟨List.Pairwise.nil, by simp, fun howes r hr habove => ?_⟩
    obtain ⟨v, hv', -⟩ := howes r hr habove
    exact absurd (hv.symm.trans hv') (by simp)
  | some v =>
    have hvv := Store.versioned h.reachable v (Store.vaultByID_some hv).1
    refine ⟨hvv.rowsAbove_ordered since, fun r hr => ?_, fun howes r hr habove => ?_⟩
    · simp only [Vault.rowsAbove, mem_orderBy, mem_above] at hr
      refine ⟨hr.2, fun w hw => ?_⟩
      obtain rfl : v = w := Option.some.inj hw
      exact hvv.bounded r hr.1
    · obtain ⟨w, hw, hmem⟩ := howes r hr habove
      obtain rfl : v = w := Option.some.inj (hv.symm.trans hw)
      simp only [Vault.rowsAbove, mem_orderBy, mem_above]
      exact ⟨hmem, habove⟩

/-- The last key of a page is the cursor it was asked with or the version of a row on it. -/
theorem lastKey_mem (since : ℕ) (page : List FileRow) :
    lastKey FileRow.version since page = since ∨
      ∃ r ∈ page, lastKey FileRow.version since page = r.version := by
  rcases List.eq_nil_or_concat page with rfl | ⟨front, last, rfl⟩
  · exact Or.inl rfl
  · refine Or.inr ⟨last, by simp, ?_⟩
    simp [lastKey, List.foldl_append]

/-- A page moves the client's cursor over exactly the changes it delivers. -/
theorem Walk.Caught.page {c since : ℕ} {delivered : List FileRow} {principal : Vault} (h : σ.Tracked vaultID)
    (hc : σ.Caught vaultID c since delivered)
    (hle : ∀ v ∈ σ.store.vaultByID vaultID, principal.latestVersion ≤ v.latestVersion)
    (howes : σ.Owes vaultID since) (limit : ℕ) :
    σ.Caught vaultID c
      (filesPage principal (σ.store.listFiles vaultID (some since) limit) (some since) limit).nextSince
      (delivered ++
        (filesPage principal (σ.store.listFiles vaultID (some since) limit) (some since) limit).files) := by
  obtain ⟨hordered, hrows, howed⟩ := h.owedRows since
  rw [Walk.listFiles_eq]
  have hforward : c ≤ lastKey FileRow.version since (σ.owedRows vaultID since) :=
    hc.forward.trans (le_lastKey FileRow.version hordered fun r hr => (hrows r hr).1)
  have hreached (page : List FileRow) (hsub : ∀ r ∈ page, r ∈ σ.owedRows vaultID since) :
      lastKey FileRow.version since page = c ∨
        ∀ v ∈ σ.store.vaultByID vaultID, lastKey FileRow.version since page ≤ v.latestVersion := by
    rcases lastKey_mem since page with heq | ⟨r, hr, heq⟩
    · rw [heq]
      exact hc.reached
    · rw [heq]
      exact Or.inr (hrows r (hsub r hr)).2
  by_cases hfits : (σ.owedRows vaultID since).length ≤ limit
  · obtain ⟨-, hfiles, hnext⟩ := filesPage_last principal (some since) hfits
    rw [hfiles, hnext, Option.getD_some]
    refine ⟨hforward.trans (le_max_left _ _), ?_, fun r hr hlow _ => ?_⟩
    · rcases hreached _ fun r hr => hr with hstill | hbounded
      · rcases le_or_gt principal.latestVersion c with hbehind | hahead
        · exact Or.inl (by rw [hstill, max_eq_left hbehind])
        · refine Or.inr fun v hv => ?_
          rw [hstill, max_eq_right hahead.le]
          exact hle v hv
      · exact Or.inr fun v hv => max_le (hbounded v hv) (hle v hv)
    · rcases le_or_gt r.version since with hbehind | habove
      · exact List.mem_append_left _ (hc.held r hr hlow hbehind)
      · exact List.mem_append_right _ (howed howes r hr habove)
  · obtain ⟨-, hfiles, hnext⟩ := filesPage_more principal (some since) (not_le.mp hfits)
    rw [hfiles, hnext, Option.getD_some]
    have hsplit := List.take_append_drop limit (σ.owedRows vaultID since)
    refine ⟨?_, hreached _ fun r hr => List.mem_of_mem_take hr, fun r hr hlow hhigh => ?_⟩
    · refine hc.forward.trans (le_lastKey FileRow.version ?_ fun r hr => (hrows r (List.mem_of_mem_take hr)).1)
      exact List.Pairwise.sublist (List.take_sublist _ _) hordered
    · rcases le_or_gt r.version since with hbehind | habove
      · exact List.mem_append_left _ (hc.held r hr hlow hbehind)
      · refine List.mem_append_right _ ?_
        have hmem : r ∈ (σ.owedRows vaultID since).take limit ++ (σ.owedRows vaultID since).drop limit := by
          rw [hsplit]
          exact howed howes r hr habove
        exact mem_page_of_le_lastKey FileRow.version (hsplit.symm ▸ hordered) hmem habove hhigh

end

/-! ## The walk misses nothing -/

/-- Both invariants survive every guarded move. -/
theorem Walk.inv_step {vaultID : String} {σ τ : Walk} {m : Move}
    (h : σ.Tracked vaultID ∧ σ.ClientInv vaultID)
    (hstep : Guarded (Walk.Next vaultID) (KeepsRowsAbove vaultID) σ m τ) :
    τ.Tracked vaultID ∧ τ.ClientInv vaultID := by
  obtain ⟨htracked, hclient⟩ := h
  obtain ⟨hguard, hnext⟩ := hstep
  unfold Walk.Next at hnext
  cases m with
  | server op =>
    simp only [Walk.step] at hnext
    split at hnext
    · cases hnext
    · rename_i hnew
      split at hnext
      · cases hnext
      · rename_i t hafter
        obtain ⟨blobs, hop⟩ := Store.after_next _ _ _ hafter
        obtain rfl := Option.some.inj hnext
        exact ⟨htracked.served hop hnew, hclient.served htracked hop hnew fun since hsince =>
          hguard op rfl since hsince⟩
  | start c =>
    simp only [Walk.step] at hnext
    split at hnext
    · obtain rfl := Option.some.inj hnext
      exact ⟨htracked.withClient _, le_rfl, Or.inl rfl,
        fun r _ hlow hhigh => absurd hhigh (not_le.mpr hlow)⟩
    · cases hnext
  | resolve =>
    simp only [Walk.step] at hnext
    split at hnext
    · rename_i c since delivered v hc hv
      obtain rfl := Option.some.inj hnext
      simp only [Walk.ClientInv, hc] at hclient
      refine ⟨htracked.withClient _, hclient.withClient _,
        fun w hw => ?_, fun hhorizon => htracked.resolve hv hhorizon⟩
      obtain rfl : v = w := Option.some.inj (hv.symm.trans hw)
      exact le_rfl
    · cases hnext
  | check =>
    simp only [Walk.step] at hnext
    split at hnext
    · rename_i c since delivered principal hc
      obtain rfl := Option.some.inj hnext
      simp only [Walk.ClientInv, hc] at hclient
      obtain ⟨hcaught, hle, howes⟩ := hclient
      refine ⟨htracked.withClient _, ?_⟩
      by_cases hexpired : cursorExpired principal (some since) = true
      · simp only [Walk.ClientInv, hexpired, if_true]
      · simp only [Walk.ClientInv, hexpired, Bool.false_eq_true, if_false]
        have hhorizon : principal.tombstoneHorizon ≤ since := by
          simpa [cursorExpired] using hexpired
        exact ⟨hcaught.withClient _, hle, howes hhorizon⟩
    · cases hnext
  | list limit =>
    simp only [Walk.step] at hnext
    split at hnext
    · rename_i c since delivered principal hc
      obtain rfl := Option.some.inj hnext
      simp only [Walk.ClientInv, hc] at hclient
      obtain ⟨hcaught, hle, howes⟩ := hclient
      have hpage := hcaught.page htracked hle howes limit
      refine ⟨htracked.withClient _, ?_⟩
      unfold takePage
      split
      · exact hpage.withClient _
      · exact hpage.withClient _
    · cases hnext
  | lost =>
    simp only [Walk.step] at hnext
    split at hnext
    · rename_i c since delivered principal hc
      obtain rfl := Option.some.inj hnext
      simp only [Walk.ClientInv, hc] at hclient
      exact ⟨htracked.withClient _, hclient.1.withClient _⟩
    · rename_i c since delivered principal hc
      obtain rfl := Option.some.inj hnext
      simp only [Walk.ClientInv, hc] at hclient
      exact ⟨htracked.withClient _, hclient.1.withClient _⟩
    · cases hnext
  | leave =>
    simp only [Walk.step] at hnext
    obtain rfl := Option.some.inj hnext
    exact ⟨htracked.withClient _, trivial⟩

/-- Both invariants hold of every walk whose requests lose no row above their cursor in flight. -/
theorem Walk.inv_of_reachable {vaultID : String} {σ : Walk}
    (h : Reachable (Guarded (Walk.Next vaultID) (KeepsRowsAbove vaultID)) (Walk.Opens vaultID) σ) :
    σ.Tracked vaultID ∧ σ.ClientInv vaultID := by
  refine h.invariant (fun σ => σ.Tracked vaultID ∧ σ.ClientInv vaultID) ?_ ?_
  · rintro σ ⟨hreach, -, hlog, hclient⟩
    refine ⟨⟨hreach, fun v _ r hr => ?_, fun v _ r hr => ?_⟩, ?_⟩
    · rw [hlog] at hr
      exact absurd hr List.not_mem_nil
    · rw [Walk.Latest, hlog] at hr
      exact absurd hr.1 List.not_mem_nil
    · simp only [Walk.ClientInv, hclient]
  · intro σ m τ hinv hstep
    exact Walk.inv_step hinv hstep

/-- In every interleaving in which no step takes away a row above the cursor of a request in
flight, a walk that finishes from cursor `c` at `n` was delivered every change with a version in
`(c, n]` that is the latest of its path. -/
theorem finished_walk_holds_latest {vaultID : String} {σ : Walk}
    (h : Reachable (Guarded (Walk.Next vaultID) (KeepsRowsAbove vaultID)) (Walk.Opens vaultID) σ)
    {c n : ℕ} {delivered : List FileRow} (hfinished : σ.client = .finished c n delivered) :
    ∀ r, σ.Latest r → c < r.version → r.version ≤ n → r ∈ delivered := by
  have hclient := (Walk.inv_of_reachable h).2
  simp only [Walk.ClientInv, hfinished] at hclient
  exact hclient.held

/-! ## A sweep in flight -/

/-- A note and its deletion, a client that starts after the note, and a sweep a month later. -/
def prunedHistory (between : List Move) : List Move :=
  [.server (.beginUpload "vault"
      { blobID := "0a0a0a0a0a0a0a0a0a0a0a0a0a0a0a0a", path := "notes/a.md", expectedVersion := 0, sizeBytes := 10,
        contentHash := "a1a1a1a1a1a1a1a1a1a1a1a1a1a1a1a1a1a1a1a1a1a1a1a1a1a1a1a1a1a1a1a1", createdAt := 0 } 1000),
    .server (.commitUpload "vault" "notes/a.md" "0a0a0a0a0a0a0a0a0a0a0a0a0a0a0a0a" 0 1000 0),
    .server (.tombstoneFile "vault" "notes/a.md" 1 0), .start 1, .resolve] ++ between ++ [.check, .list 500]

/-- The vault as `prunedHistory` finds it. -/
def openedVault : Vault :=
  { id := "vault", userID := "user", keyCheck := "check", createdAt := 0,
    devices := [{ id := "device", role := .desk, name := "desk", pairedAt := 0, lastSeenAt := 0 }] }

/-- The row the commit writes. -/
def committedFile : FileRow :=
  { path := "notes/a.md", version := 1, blobID := some "0a0a0a0a0a0a0a0a0a0a0a0a0a0a0a0a", sizeBytes := 10,
    contentHash := some "a1a1a1a1a1a1a1a1a1a1a1a1a1a1a1a1a1a1a1a1a1a1a1a1a1a1a1a1a1a1a1a1", updatedBy := "desk" }

/-- The row the deletion leaves. -/
def deletedFile : FileRow := { path := "notes/a.md", version := 2, deleted := true, updatedBy := "desk" }

/-- Where the walk of `prunedHistory` ends. -/
def prunedWalk (horizon : ℕ) (files delivered : List FileRow) : Walk :=
  { store := ⟨[{ openedVault with latestVersion := 2, tombstoneHorizon := horizon, files }]⟩
    log := [committedFile, deletedFile]
    client := .finished 1 2 delivered }

theorem openedVault_opens : Walk.Opens "vault" { store := ⟨[openedVault]⟩ } :=
  ⟨⟨{}, [.ensureVault "user" "check" "desk" "vault" "device" 0], rfl, Run.of_follow Store.after_next (by decide)⟩,
    ⟨openedVault, by decide, ⟨rfl, rfl, rfl, rfl, rfl⟩⟩, rfl, rfl⟩

/-- The deletion is the latest change of its path. -/
theorem deletedFile_latest (horizon : ℕ) (files delivered : List FileRow) :
    (prunedWalk horizon files delivered).Latest deletedFile := by
  refine ⟨List.mem_cons_of_mem _ (List.mem_singleton.mpr rfl), fun other hother _ => ?_⟩
  rcases List.mem_cons.mp hother with rfl | hother
  · exact Nat.le_succ 1
  · rw [List.mem_singleton.mp hother]

/-- The sweep runs after the caller is resolved: the walk finishes at 2 and the deletion is lost. -/
theorem sweep_in_flight_skips_deletion :
    ¬ ∀ vaultID σ, Reachable (Walk.Next vaultID) (Walk.Opens vaultID) σ →
      ∀ c n delivered, σ.client = .finished c n delivered →
        ∀ r, σ.Latest r → c < r.version → r.version ≤ n → ∃ d ∈ delivered, d.path = r.path := by
  intro hall
  have hrun : Run (Walk.Next "vault") { store := ⟨[openedVault]⟩ }
      (prunedHistory [.server (.sweep (31 * day))]) (prunedWalk 2 [] []) :=
    Run.of_follow (fun _ _ _ h => h) (by decide : follow (Walk.step "vault") _ _ = _)
  obtain ⟨d, hd, -⟩ := hall "vault" _ ⟨_, _, openedVault_opens, hrun⟩ 1 2 [] rfl deletedFile
    (deletedFile_latest 2 [] []) (by decide) (by decide)
  exact absurd hd List.not_mem_nil

/-- A sweep in flight that prunes nothing above the cursor leaves the deletion to be delivered. -/
theorem quiet_walk_delivers_deletion :
    follow (allow (KeepsRowsAbove "vault") (Walk.step "vault")) { store := ⟨[openedVault]⟩ }
        (prunedHistory [.server (.sweep day)]) = some (prunedWalk 0 [deletedFile] [deletedFile]) ∧
      deletedFile ∈ [deletedFile] := by
  have hfollow : follow (allow (KeepsRowsAbove "vault") (Walk.step "vault")) { store := ⟨[openedVault]⟩ }
      (prunedHistory [.server (.sweep day)]) = some (prunedWalk 0 [deletedFile] [deletedFile]) := by decide
  exact ⟨hfollow, finished_walk_holds_latest
    ⟨_, _, openedVault_opens, Run.of_follow_allow (fun _ _ _ h => h) hfollow⟩ rfl deletedFile
    (deletedFile_latest 0 [deletedFile] [deletedFile]) (by decide) (by decide)⟩

end Thock.Plus
