import Thock.Plus.Versions

/-!
# Listing the vault's files, page by page

The GET files handler in its two halves, the horizon check against the vault row the caller
was resolved with and the page cut from the rows listed afterwards, and the walk of a client
that follows each answer's cursor while more is promised. Signing the download addresses
changes no field kept here and is left out.

A full pull lists live rows only on its first page; every later page goes through the
incremental check. It completes exactly when that check has nothing to say about the cut
the first page makes.
-/

namespace Thock.Plus

open CursorPaging Transition

/-! ## The handler -/

structure FilesPage where
  files : List FileRow
  nextSince : ℕ
  hasMore : Bool
deriving DecidableEq, Repr

inductive FilesAnswer
  | cursorExpired
  | page (p : FilesPage)
deriving DecidableEq, Repr

/-- A cursor below the horizon of the caller's vault row is refused; a full pull has none. -/
def cursorExpired (principal : Vault) : Option ℕ → Bool
  | none => false
  | some since => since < principal.tombstoneHorizon

/-- The page cut from the listed rows. The last page's cursor jumps to the latest version of
the caller's vault row. -/
def filesPage (principal : Vault) (rows : List FileRow) (since : Option ℕ) (limit : ℕ) : FilesPage :=
  let hasMore : Bool := limit < rows.length
  let files := if hasMore then rows.take limit else rows
  let nextSince := lastKey FileRow.version (since.getD 0) files
  { files
    nextSince := if !hasMore && nextSince < principal.latestVersion then principal.latestVersion else nextSince
    hasMore }

/-- GET files: the caller's vault row as it was resolved, and the vault as it is when listed. -/
def handleFilesList (principal v : Vault) (since : Option ℕ) (limit : ℕ) : FilesAnswer :=
  if cursorExpired principal since then .cursorExpired
  else .page (filesPage principal (v.listFiles since limit) since limit)

/-! ## The walk over a vault that stands still -/

/-- The pages of a client that starts at a cursor and follows each answer's own while more is
promised. No request of it is answered with an expired cursor, and its last page says so. -/
inductive Pull (v : Vault) (limit : ℕ) : Option ℕ → List FilesPage → Prop
  | last {since : Option ℕ} {p : FilesPage} (answer : handleFilesList v v since limit = .page p)
      (done : p.hasMore = false) : Pull v limit since [p]
  | more {since : Option ℕ} {p : FilesPage} {rest : List FilesPage}
      (answer : handleFilesList v v since limit = .page p) (more : p.hasMore = true)
      (later : Pull v limit (some p.nextSince) rest) : Pull v limit since (p :: rest)

/-- The live files of a vault. -/
def Vault.liveFiles (v : Vault) : List FileRow := v.files.filter fun f => !f.deleted

/-- Every file row a client received. -/
def received (pages : List FilesPage) : List FileRow := pages.flatMap FilesPage.files

theorem received_cons (p : FilesPage) (rest : List FilesPage) :
    received (p :: rest) = p.files ++ received rest := rfl

/-- The phone's page loop within a number of requests: an expired cursor starts it afresh. -/
def pullPages (v : Vault) (limit : ℕ) : ℕ → Option ℕ → List FileRow → Option (List FileRow)
  | 0, _, _ => none
  | requests + 1, since, listed =>
    match handleFilesList v v since limit with
    | .cursorExpired => pullPages v limit requests none []
    | .page p =>
      if p.hasMore then pullPages v limit requests (some p.nextSince) (listed ++ p.files)
      else some (listed ++ p.files)

/-! ## What one request answers -/

theorem handleFilesList_of_horizon {v : Vault} {since : ℕ} (limit : ℕ) (h : v.tombstoneHorizon ≤ since) :
    handleFilesList v v (some since) limit =
      .page (filesPage v (v.listFiles (some since) limit) (some since) limit) := by
  simp [handleFilesList, cursorExpired, h]

theorem handleFilesList_expired {v : Vault} {since : ℕ} (limit : ℕ) (h : since < v.tombstoneHorizon) :
    handleFilesList v v (some since) limit = .cursorExpired := by
  simp [handleFilesList, cursorExpired, h]

/-- A listing that fits is the last page and holds all of it; its cursor covers the counter. -/
theorem filesPage_last (principal : Vault) (since : Option ℕ) {rows : List FileRow} {limit : ℕ}
    (h : rows.length ≤ limit) :
    (filesPage principal (rows.take (limit + 1)) since limit).hasMore = false ∧
      (filesPage principal (rows.take (limit + 1)) since limit).files = rows ∧
      (filesPage principal (rows.take (limit + 1)) since limit).nextSince =
        max (lastKey FileRow.version (since.getD 0) rows) principal.latestVersion := by
  have htake : rows.take (limit + 1) = rows := List.take_of_length_le (by omega)
  have hfits : ¬ limit < rows.length := not_lt.mpr h
  refine ⟨by simp [filesPage, htake, hfits], by simp [filesPage, htake, hfits], ?_⟩
  simp only [filesPage, htake, hfits, decide_false, Bool.not_false, Bool.true_and,
    Bool.false_eq_true, if_false, decide_eq_true_eq]
  split
  · exact (max_eq_right (le_of_lt ‹_›)).symm
  · exact (max_eq_left (not_lt.mp ‹_›)).symm

/-- A longer listing is cut at the limit, and its cursor is the last version before the cut. -/
theorem filesPage_more (principal : Vault) (since : Option ℕ) {rows : List FileRow} {limit : ℕ}
    (h : limit < rows.length) :
    (filesPage principal (rows.take (limit + 1)) since limit).hasMore = true ∧
      (filesPage principal (rows.take (limit + 1)) since limit).files = rows.take limit ∧
      (filesPage principal (rows.take (limit + 1)) since limit).nextSince =
        lastKey FileRow.version (since.getD 0) (rows.take limit) := by
  have hlength : limit < (rows.take (limit + 1)).length := by
    rw [List.length_take]
    omega
  have htake : (rows.take (limit + 1)).take limit = rows.take limit := by
    rw [List.take_take, Nat.min_eq_left (Nat.le_succ limit)]
  simp only [filesPage, hlength, htake, decide_true, if_true, Bool.not_true, Bool.false_and,
    Bool.false_eq_true, if_false, and_self]

/-! ## Incremental pages -/

/-- The rows an incremental pull owes, in version order. -/
def Vault.rowsAbove (v : Vault) (since : ℕ) : List FileRow :=
  orderBy FileRow.version (above FileRow.version since v.files)

/-- Rows above a cursor, ordered, are the ordered table above the cursor. -/
theorem Vault.Versioned.rowsAbove_eq {v : Vault} (h : v.Versioned) (since : ℕ) :
    v.rowsAbove since = above FileRow.version since (orderBy FileRow.version v.files) :=
  orderBy_filter FileRow.version h.versions _

theorem Vault.Versioned.rowsAbove_ordered {v : Vault} (h : v.Versioned) (since : ℕ) :
    Ordered FileRow.version (v.rowsAbove since) :=
  orderBy_ordered FileRow.version (h.versions.sublist (List.filter_sublist.map _))

@[simp] theorem Vault.listFiles_some (v : Vault) (since limit : ℕ) :
    v.listFiles (some since) limit = (v.rowsAbove since).take (limit + 1) := rfl

/-- A page's cursor is no lower than the one it was asked with. -/
theorem Vault.Versioned.le_cut {v : Vault} (h : v.Versioned) (since limit : ℕ) :
    since ≤ lastKey FileRow.version since ((v.rowsAbove since).take limit) := by
  refine le_lastKey FileRow.version
    (List.Pairwise.sublist (List.take_sublist _ _) (h.rowsAbove_ordered since)) ?_
  intro row hrow
  have hmem := List.mem_of_mem_take hrow
  simp only [Vault.rowsAbove, mem_orderBy, mem_above] at hmem
  exact hmem.2

/-- After a page is cut, the rows above its cursor are the rest of the listing. -/
theorem Vault.Versioned.rowsAbove_cut {v : Vault} (h : v.Versioned) {since limit : ℕ}
    (hlimit : 1 ≤ limit) (hmore : limit < (v.rowsAbove since).length) :
    v.rowsAbove (lastKey FileRow.version since ((v.rowsAbove since).take limit)) =
      (v.rowsAbove since).drop limit := by
  have hrest := above_lastKey_take FileRow.version (h.rowsAbove_ordered since) hlimit hmore since
  rw [← hrest, h.rowsAbove_eq since, h.rowsAbove_eq, above_above FileRow.version]
  rw [← h.rowsAbove_eq]
  exact h.le_cut since limit

/-- From a cursor at or above the horizon the walk ends, and receives every row above it in order. -/
theorem Vault.Versioned.pull_above {v : Vault} (h : v.Versioned) {limit : ℕ} (hlimit : 1 ≤ limit)
    {since : ℕ} (hsince : v.tombstoneHorizon ≤ since) :
    ∃ pages, Pull v limit (some since) pages ∧ received pages = v.rowsAbove since := by
  induction hn : (v.rowsAbove since).length using Nat.strong_induction_on generalizing since with
  | h n ih =>
    have hanswer := handleFilesList_of_horizon limit hsince
    rw [v.listFiles_some] at hanswer
    by_cases hfits : (v.rowsAbove since).length ≤ limit
    · obtain ⟨hdone, hfiles, -⟩ := filesPage_last v (some since) hfits
      refine ⟨[_], .last hanswer hdone, ?_⟩
      simpa [received] using hfiles
    · have hmore : limit < (v.rowsAbove since).length := not_le.mp hfits
      obtain ⟨hpromise, hfiles, hnext⟩ := filesPage_more v (some since) hmore
      have hrest := h.rowsAbove_cut hlimit hmore
      have hshorter : (v.rowsAbove (lastKey FileRow.version since
          ((v.rowsAbove since).take limit))).length < n := by
        rw [hrest, List.length_drop]
        omega
      obtain ⟨pages, hpull, hreceived⟩ :=
        ih _ hshorter (hsince.trans (h.le_cut since limit)) rfl
      refine ⟨_ :: pages, .more hanswer hpromise (hnext ▸ hpull), ?_⟩
      rw [received_cons, hfiles, hreceived, hrest, List.take_append_drop]

/-! ## Full pulls -/

/-- The first page's cut has nothing to fear from the horizon: all live files fit the page, or
fewer of them than it holds are older than the horizon. -/
def Vault.CutClearsHorizon (v : Vault) (limit : ℕ) : Prop :=
  v.liveFiles.length ≤ limit ∨
    (v.liveFiles.filter fun f => f.version < v.tombstoneHorizon).length < limit

instance (v : Vault) (limit : ℕ) : Decidable (v.CutClearsHorizon limit) :=
  inferInstanceAs (Decidable (_ ∨ _))

/-- The live files in version order, the listing of a full pull. -/
def Vault.liveInOrder (v : Vault) : List FileRow := orderBy FileRow.version v.liveFiles

@[simp] theorem Vault.listFiles_none (v : Vault) (limit : ℕ) :
    v.listFiles none limit = v.liveInOrder.take (limit + 1) := rfl

theorem handleFilesList_none (v : Vault) (limit : ℕ) :
    handleFilesList v v none limit = .page (filesPage v (v.liveInOrder.take (limit + 1)) none limit) := rfl

theorem Vault.Versioned.liveInOrder_ordered {v : Vault} (h : v.Versioned) :
    Ordered FileRow.version v.liveInOrder :=
  orderBy_ordered FileRow.version (h.versions.sublist (List.filter_sublist.map _))

theorem Vault.live_of_mem_liveInOrder {v : Vault} {f : FileRow} (hf : f ∈ v.liveInOrder) :
    (!f.deleted) = true := by
  simp only [Vault.liveInOrder, mem_orderBy, Vault.liveFiles, List.mem_filter] at hf
  exact hf.2

/-- The cut's version against the horizon, counted in live files older than the horizon. -/
theorem Vault.Versioned.horizon_le_cut_iff {v : Vault} (h : v.Versioned) {limit : ℕ}
    (hlimit : 1 ≤ limit) (hmore : limit < v.liveInOrder.length) :
    v.tombstoneHorizon ≤ lastKey FileRow.version 0 (v.liveInOrder.take limit) ↔
      v.CutClearsHorizon limit := by
  have hlength : v.liveInOrder.length = v.liveFiles.length := length_orderBy _ _
  have hcount : (v.liveInOrder.filter fun f => f.version < v.tombstoneHorizon).length =
      (v.liveFiles.filter fun f => f.version < v.tombstoneHorizon).length :=
    ((orderBy_perm FileRow.version v.liveFiles).filter _).length_eq
  rw [le_lastKey_take_iff FileRow.version h.liveInOrder_ordered hlimit hmore, hcount,
    Vault.CutClearsHorizon]
  omega

/-- What the later pages of a full pull bring of live files is the rest of the first listing. -/
theorem Vault.Versioned.live_rowsAbove_cut {v : Vault} (h : v.Versioned) {limit : ℕ}
    (hlimit : 1 ≤ limit) (hmore : limit < v.liveInOrder.length) :
    (v.rowsAbove (lastKey FileRow.version 0 (v.liveInOrder.take limit))).filter (fun f => !f.deleted) =
      v.liveInOrder.drop limit := by
  have hlive : v.liveInOrder = (orderBy FileRow.version v.files).filter fun f => !f.deleted :=
    orderBy_filter FileRow.version h.versions _
  rw [h.rowsAbove_eq, above, List.filter_filter]
  rw [← above_lastKey_take FileRow.version h.liveInOrder_ordered hlimit hmore 0]
  conv_rhs => rw [hlive, above, List.filter_filter]
  exact List.filter_congr fun f _ => by rw [hlive, Bool.and_comm]

/-- When the cut clears the horizon, a full pull walks to its last page with every live file once. -/
theorem Vault.Versioned.full_pull {v : Vault} (h : v.Versioned) {limit : ℕ} (hlimit : 1 ≤ limit)
    (hclear : v.CutClearsHorizon limit) :
    ∃ pages, Pull v limit none pages ∧
      ((received pages).filter fun f => !f.deleted).Perm v.liveFiles := by
  have hanswer := handleFilesList_none v limit
  by_cases hfits : v.liveInOrder.length ≤ limit
  · obtain ⟨hdone, hfiles, -⟩ := filesPage_last v none hfits
    refine ⟨[_], .last hanswer hdone, ?_⟩
    simp only [received, List.flatMap_cons, List.flatMap_nil, List.append_nil, hfiles]
    rw [List.filter_eq_self.mpr fun f hf => Vault.live_of_mem_liveInOrder hf]
    exact orderBy_perm _ _
  · have hmore : limit < v.liveInOrder.length := not_le.mp hfits
    obtain ⟨hpromise, hfiles, hnext⟩ := filesPage_more v none hmore
    obtain ⟨pages, hpull, hreceived⟩ :=
      h.pull_above hlimit ((h.horizon_le_cut_iff hlimit hmore).mpr hclear)
    refine ⟨_ :: pages, .more hanswer hpromise (hnext ▸ hpull), ?_⟩
    have hfirst : (v.liveInOrder.take limit).filter (fun f => !f.deleted) = v.liveInOrder.take limit :=
      List.filter_eq_self.mpr fun f hf => Vault.live_of_mem_liveInOrder (List.mem_of_mem_take hf)
    have hlater := h.live_rowsAbove_cut hlimit hmore
    rw [received_cons, hfiles, hreceived, List.filter_append, hfirst, hlater, List.take_append_drop]
    exact orderBy_perm _ _

/-- A walk from a cursor was never below the horizon. -/
theorem Pull.horizon_le {v : Vault} {limit since : ℕ} {pages : List FilesPage}
    (h : Pull v limit (some since) pages) : v.tombstoneHorizon ≤ since := by
  by_contra hbelow
  have hexpired := handleFilesList_expired limit (not_le.mp hbelow)
  cases h with
  | last answer _ => rw [hexpired] at answer; cases answer
  | more answer _ _ => rw [hexpired] at answer; cases answer

/-- A full pull that walks to its last page was cut clear of the horizon. -/
theorem Vault.Versioned.cutClearsHorizon_of_pull {v : Vault} (h : v.Versioned) {limit : ℕ}
    (hlimit : 1 ≤ limit) {pages : List FilesPage} (hpull : Pull v limit none pages) :
    v.CutClearsHorizon limit := by
  have hlength : v.liveInOrder.length = v.liveFiles.length := length_orderBy _ _
  by_cases hfits : v.liveInOrder.length ≤ limit
  · exact Or.inl (hlength ▸ hfits)
  · have hmore : limit < v.liveInOrder.length := not_le.mp hfits
    obtain ⟨hpromise, -, hnext⟩ := filesPage_more v none hmore
    rw [← h.horizon_le_cut_iff hlimit hmore]
    cases hpull with
    | last answer done =>
      rw [handleFilesList_none, FilesAnswer.page.injEq] at answer
      rw [← answer, hpromise] at done
      cases done
    | more answer _ later =>
      rw [handleFilesList_none, FilesAnswer.page.injEq] at answer
      have hhorizon := later.horizon_le
      rwa [← answer, hnext] at hhorizon

/-! ## The phone's loop -/

/-- The phone's loop follows a walk to its end. -/
theorem Pull.pullPages {v : Vault} {limit : ℕ} {since : Option ℕ} {pages : List FilesPage}
    (h : Pull v limit since pages) (listed : List FileRow) :
    pullPages v limit pages.length since listed = some (listed ++ received pages) := by
  induction h generalizing listed with
  | last answer done => simp [Plus.pullPages, answer, done, received]
  | more answer more _ ih =>
    simp only [List.length_cons, Plus.pullPages, answer, more, if_true]
    rw [ih, received_cons, List.append_assoc]

/-- Where the cut falls below the horizon the phone is sent back to the first page for ever. -/
theorem Vault.Versioned.pullPages_eq_none {v : Vault} (h : v.Versioned) {limit : ℕ}
    (hlimit : 1 ≤ limit) (hcut : ¬ v.CutClearsHorizon limit) (requests : ℕ) (listed : List FileRow) :
    pullPages v limit requests none listed = none := by
  have hlength : v.liveInOrder.length = v.liveFiles.length := length_orderBy _ _
  have hmore : limit < v.liveInOrder.length := by
    by_contra hfits
    exact hcut (Or.inl (hlength ▸ not_lt.mp hfits))
  obtain ⟨hpromise, -, hnext⟩ := filesPage_more v none hmore
  have hbelow : lastKey FileRow.version 0 (v.liveInOrder.take limit) < v.tombstoneHorizon :=
    not_le.mp fun hle => hcut ((h.horizon_le_cut_iff hlimit hmore).mp hle)
  induction requests using Nat.twoStepInduction generalizing listed with
  | zero => rfl
  | one => simp only [pullPages, handleFilesList_none, hpromise, if_true]
  | more requests ih _ =>
    simp only [pullPages, handleFilesList_none, hpromise, if_true]
    rw [hnext]
    simp only [Option.getD_none, handleFilesList_expired limit hbelow]
    exact ih []

/-- In every reachable vault, for every page limit: a full pull is never told its cursor expired,
receives every live file once and ends, and the phone's loop with it, exactly when the first
page's cut clears the tombstone horizon. -/
theorem full_pull_completes_iff {s : Store} (hs : Reachable Store.Next Store.Initial s) {v : Vault}
    (hv : v ∈ s.vaults) {limit : ℕ} (hlimit : 1 ≤ limit) :
    ((∃ pages, Pull v limit none pages ∧
        ((received pages).filter fun f => !f.deleted).Perm v.liveFiles) ∧
      ∃ requests rows, pullPages v limit requests none [] = some rows) ↔ v.CutClearsHorizon limit := by
  have h := Store.versioned hs v hv
  constructor
  · rintro ⟨⟨pages, hpull, -⟩, -⟩
    exact h.cutClearsHorizon_of_pull hlimit hpull
  · intro hclear
    obtain ⟨pages, hpull, hlive⟩ := h.full_pull hlimit hclear
    exact ⟨⟨pages, hpull, hlive⟩, pages.length, _, hpull.pullPages []⟩

def blobA : String := "0a0a0a0a0a0a0a0a0a0a0a0a0a0a0a0a"
def blobB : String := "0b0b0b0b0b0b0b0b0b0b0b0b0b0b0b0b"
def blobC : String := "0c0c0c0c0c0c0c0c0c0c0c0c0c0c0c0c"
def hashA : String := "a1a1a1a1a1a1a1a1a1a1a1a1a1a1a1a1a1a1a1a1a1a1a1a1a1a1a1a1a1a1a1a1"
def hashB : String := "b1b1b1b1b1b1b1b1b1b1b1b1b1b1b1b1b1b1b1b1b1b1b1b1b1b1b1b1b1b1b1b1"
def hashC : String := "c1c1c1c1c1c1c1c1c1c1c1c1c1c1c1c1c1c1c1c1c1c1c1c1c1c1c1c1c1c1c1c1"

/-- Two notes committed around one that is deleted, and a sweep a month later. -/
def agedHistory : List Op :=
  [.ensureVault "user" "check" "desk" "vault" "device" 0,
    .beginUpload "vault" { blobID := blobA, path := "notes/a.md", expectedVersion := 0, sizeBytes := 10, contentHash := hashA, createdAt := 0 } 1000,
    .commitUpload "vault" "notes/a.md" blobA 0 1000 0,
    .beginUpload "vault" { blobID := blobB, path := "notes/b.md", expectedVersion := 0, sizeBytes := 10, contentHash := hashB, createdAt := 0 } 1000,
    .commitUpload "vault" "notes/b.md" blobB 0 1000 0,
    .tombstoneFile "vault" "notes/b.md" 2 0,
    .beginUpload "vault" { blobID := blobC, path := "notes/c.md", expectedVersion := 0, sizeBytes := 10, contentHash := hashC, createdAt := day } 1000,
    .commitUpload "vault" "notes/c.md" blobC 0 1000 day,
    .sweep (31 * day)]

/-- The vault `agedHistory` leaves: its horizon lies between its two live files. -/
def agedVault : Vault :=
  { id := "vault", userID := "user", keyCheck := "check", createdAt := 0,
    latestVersion := 4, bytesUsed := 20, tombstoneHorizon := 3,
    files :=
      [{ path := "notes/c.md", version := 4, blobID := some blobC, sizeBytes := 10, contentHash := some hashC, updatedBy := "desk", updatedAt := day },
        { path := "notes/a.md", version := 1, blobID := some blobA, sizeBytes := 10, contentHash := some hashA, updatedBy := "desk", updatedAt := 0 }],
    devices := [{ id := "device", role := .desk, name := "desk", pairedAt := 0, lastSeenAt := 0 }] }

theorem agedVault_reachable : Reachable Store.Next Store.Initial ⟨[agedVault]⟩ :=
  ⟨{}, agedHistory, rfl, Run.of_follow Store.after_next (by decide)⟩

/-- With pages of one file the pull of `agedVault` is told its cursor expired. -/
theorem full_pull_expires :
    ¬ ∀ s : Store, Reachable Store.Next Store.Initial s → ∀ v ∈ s.vaults, ∀ limit, 1 ≤ limit →
      ∃ pages, Pull v limit none pages := by
  intro hall
  obtain ⟨pages, hpull⟩ := hall _ agedVault_reachable agedVault (by simp) 1 le_rfl
  have h := Store.versioned agedVault_reachable agedVault (by simp)
  exact absurd (h.cutClearsHorizon_of_pull le_rfl hpull) (by decide)

/-- With room for both live files on a page the pull of `agedVault` completes. -/
theorem full_pull_completes_two :
    (∃ pages, Pull agedVault 2 none pages ∧
        ((received pages).filter fun f => !f.deleted).Perm agedVault.liveFiles) ∧
      ∃ requests rows, pullPages agedVault 2 requests none [] = some rows :=
  (full_pull_completes_iff agedVault_reachable (List.mem_singleton.mpr rfl) (by decide)).mpr (by decide)

end Thock.Plus
