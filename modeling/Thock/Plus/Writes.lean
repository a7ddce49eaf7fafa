import Thock.Plus.Accounting

/-!
# The phone's queue on the server

The writes handlers page by page, and what holds of the queue over any enqueues, listings,
acks and sweeps: seqs ascend in the order of acceptance, a retry of a kept client id is
answered with its own seq, and a write is listed until an ack reaches it.
-/

namespace Thock.Plus

open CursorPaging Transition

/-! ## Listing -/

structure WritesPage where
  writes : List WriteRow
  hasMore : Bool
deriving DecidableEq, Repr

/-- GET writes: above a seq, or above the mark of the caller's vault row when none is given. -/
def handleWritesList (principal v : Vault) (after : Option ℕ) (limit : ℕ) : WritesPage :=
  let rows := v.listWrites (after.getD principal.ackedThroughSeq) limit
  let hasMore : Bool := limit < rows.length
  { writes := if hasMore then rows.take limit else rows, hasMore }

/-- The unacked rows above a seq, in order. -/
def Vault.unackedAbove (v : Vault) (after : ℕ) : List WriteRow :=
  orderBy WriteRow.seq (v.writes.filter fun w => after < w.seq ∧ w.ackedAt = none)

/-- The rows a client lists that asks again above the last seq it saw while more is promised. -/
inductive Listed (v : Vault) (limit : ℕ) : ℕ → List WriteRow → Prop
  | last {after : ℕ} (done : (handleWritesList v v (some after) limit).hasMore = false) :
      Listed v limit after (handleWritesList v v (some after) limit).writes
  | more {after : ℕ} {rest : List WriteRow} (promised : (handleWritesList v v (some after) limit).hasMore = true)
      (later : Listed v limit (lastKey WriteRow.seq after (handleWritesList v v (some after) limit).writes) rest) :
      Listed v limit after ((handleWritesList v v (some after) limit).writes ++ rest)

/-! ## The invariant -/

/-- The queue in order: seqs ascend below the counter, client ids are apart, and the unacked rows are those
above the mark. -/
structure Vault.QueueOrdered (v : Vault) : Prop where
  ascending : v.writes.Pairwise fun a b => a.seq < b.seq
  clients : (v.writes.map WriteRow.clientID).Nodup
  bounded : ∀ row ∈ v.writes, row.seq ≤ v.latestSeq
  mark : v.ackedThroughSeq ≤ v.latestSeq
  unacked : ∀ row ∈ v.writes, row.ackedAt = none ↔ v.ackedThroughSeq < row.seq

/-- The row a new write becomes. -/
def queuedRow (v : Vault) (row : WriteRow) : WriteRow := { row with seq := v.latestSeq + 1, ackedAt := none }

/-- An enqueue answers with the row its client id has, or adds one under the next seq. -/
theorem Vault.enqueueWrite_cases (v : Vault) (row : WriteRow) :
    (∃ kept ∈ v.writes, kept.clientID = row.clientID ∧ v.enqueueWrite row = (v, kept.seq, false)) ∨
      ((∀ kept ∈ v.writes, kept.clientID ≠ row.clientID) ∧
        v.enqueueWrite row =
          ({ v with writes := v.writes ++ [queuedRow v row], latestSeq := v.latestSeq + 1 }, v.latestSeq + 1, true)) := by
  unfold Vault.enqueueWrite
  cases hfound : v.writes.find? fun kept => kept.clientID = row.clientID with
  | some kept =>
    refine Or.inl ⟨kept, List.mem_of_find?_eq_some hfound, ?_, rfl⟩
    simpa using List.find?_some hfound
  | none =>
    refine Or.inr ⟨fun kept hkept => ?_, rfl⟩
    simpa using List.find?_eq_none.mp hfound kept hkept

/-- An accepted ack is at or below the mark and changes nothing, or moves it and marks the rows it covers. -/
theorem Vault.ackWrites_ok {v w : Vault} {through : ℕ} {now : Time} {r : AckResult}
    (h : v.ackWrites through now = .ok (w, r)) :
    through ≤ v.latestSeq ∧
      ((through ≤ v.ackedThroughSeq ∧ w = v ∧ r = { throughSeq := v.ackedThroughSeq, atVersion := v.ackedAtVersion }) ∨
        (v.ackedThroughSeq < through ∧ r = { throughSeq := through, atVersion := v.latestVersion, advanced := true } ∧
          w = { v with
            writes := v.writes.map fun row =>
              if row.seq ≤ through ∧ row.ackedAt = none then { row with ackedAt := some now, payload := [] } else row
            ackedThroughSeq := through
            ackedAtVersion := v.latestVersion })) := by
  unfold Vault.ackWrites at h
  split at h
  · cases h
  case isFalse hwithin =>
    refine ⟨not_lt.mp hwithin, ?_⟩
    split at h
    case isTrue hbelow =>
      obtain ⟨rfl, rfl⟩ := Prod.mk.inj (Except.ok.inj h)
      exact Or.inl ⟨hbelow, rfl, rfl⟩
    case isFalse habove =>
      obtain ⟨rfl, rfl⟩ := Prod.mk.inj (Except.ok.inj h)
      exact Or.inr ⟨not_le.mp habove, rfl, rfl⟩

/-- What a transaction does to the queue: nothing, or it adds a row, moves the mark, or drops rows. -/
inductive Vault.QueueChange (v : Vault) : Op → Vault → Prop
  | kept {op : Op} {w : Vault} (writes : w.writes = v.writes) (seq : w.latestSeq = v.latestSeq)
      (mark : w.ackedThroughSeq = v.ackedThroughSeq) : v.QueueChange op w
  | queued {row : WriteRow} (fresh : ∀ kept ∈ v.writes, kept.clientID ≠ row.clientID) :
      v.QueueChange (.enqueueWrite v.id row)
        { v with writes := v.writes ++ [queuedRow v row], latestSeq := v.latestSeq + 1 }
  | acked {through : ℕ} {now : Time} (within : through ≤ v.latestSeq) (above : v.ackedThroughSeq < through) :
      v.QueueChange (.ackWrites v.id through now)
        { v with
          writes := v.writes.map fun row =>
            if row.seq ≤ through ∧ row.ackedAt = none then { row with ackedAt := some now, payload := [] } else row
          ackedThroughSeq := through
          ackedAtVersion := v.latestVersion }
  | wiped {keyCheck : String} : v.QueueChange (.resetVault v.id keyCheck) (v.resetVault keyCheck).1
  | swept {now : Time} : v.QueueChange (.sweep now) (v.sweep now)

theorem Vault.Applied.queueChange {v w : Vault} {op : Op} (h : v.Applied op w) : v.QueueChange op w := by
  cases h with
  | untouched => exact .kept rfl rfl rfl
  | ensured => exact .kept rfl rfl rfl
  | begun ok =>
    obtain ⟨-, -, rfl⟩ := Vault.beginUpload_ok ok
    exact .kept rfl rfl rfl
  | committed ok =>
    rcases Vault.commitUpload_ok ok with ⟨rfl, -⟩ | ⟨p, -, -, -, -, -, rfl, -⟩
    · exact .kept rfl rfl rfl
    · exact .kept rfl rfl rfl
  | tombstoned ok =>
    rcases Vault.tombstoneFile_ok ok with ⟨rfl, -⟩ | ⟨-, -, -, rfl, -⟩
    · exact .kept rfl rfl rfl
    · exact .kept rfl rfl rfl
  | wiped => exact .wiped
  | lapsed => exact .kept rfl rfl rfl
  | @queued row =>
    rcases v.enqueueWrite_cases row with ⟨kept, -, -, hsame⟩ | ⟨hfresh, hadded⟩
    · rw [hsame]
      exact .kept rfl rfl rfl
    · rw [hadded]
      exact .queued hfresh
  | acked ok =>
    obtain ⟨hwithin, ⟨-, rfl, -⟩ | ⟨habove, -, rfl⟩⟩ := Vault.ackWrites_ok ok
    · exact .kept rfl rfl rfl
    · exact .acked hwithin habove
  | swept => exact .swept

/-- Seqs and client ids of marked rows are what they were. -/
theorem map_acked {β : Type} (field : WriteRow → β) (through : ℕ) (now : Time) (writes : List WriteRow)
    (hfield : ∀ row : WriteRow, field { row with ackedAt := some now, payload := [] } = field row) :
    (writes.map fun row =>
      if row.seq ≤ through ∧ row.ackedAt = none then { row with ackedAt := some now, payload := [] } else row).map
        field = writes.map field := by
  rw [List.map_map]
  refine List.map_congr_left fun row _ => ?_
  simp only [Function.comp_apply]
  split
  · exact hfield row
  · rfl

/-- The queue stays in order. -/
theorem Vault.QueueChange.ordered {v w : Vault} {op : Op} (h : v.QueueChange op w) (hv : v.QueueOrdered) :
    w.QueueOrdered := by
  cases h with
  | kept writes seq mark =>
    constructor
    · rw [writes]; exact hv.ascending
    · rw [writes]; exact hv.clients
    · rw [writes, seq]; exact hv.bounded
    · rw [mark, seq]; exact hv.mark
    · rw [writes, mark]; exact hv.unacked
  | @queued row fresh =>
    constructor
    · refine List.pairwise_append.mpr ⟨hv.ascending, List.pairwise_singleton _ _, fun old hold new hnew => ?_⟩
      obtain rfl := List.mem_singleton.mp hnew
      exact Nat.lt_succ_of_le (hv.bounded old hold)
    · rw [List.map_append, List.nodup_append]
      refine ⟨hv.clients, List.nodup_singleton _, ?_⟩
      rintro id hid _ hnew rfl
      obtain ⟨old, hold, hclient⟩ := List.mem_map.mp hid
      exact fresh old hold (hclient.trans (List.mem_singleton.mp hnew))
    · intro other hother
      rcases List.mem_append.mp hother with hold | hnew
      · exact (hv.bounded other hold).trans (Nat.le_succ _)
      · exact (congrArg WriteRow.seq (List.mem_singleton.mp hnew)).le
    · exact hv.mark.trans (Nat.le_succ _)
    · intro other hother
      rcases List.mem_append.mp hother with hold | hnew
      · exact hv.unacked other hold
      · obtain rfl := List.mem_singleton.mp hnew
        have hmark := hv.mark
        simp only [queuedRow, true_iff]
        omega
  | @acked through now within above =>
    have hseqs := map_acked WriteRow.seq through now v.writes fun _ => rfl
    have hclients := map_acked WriteRow.clientID through now v.writes fun _ => rfl
    constructor
    · rw [← List.pairwise_map (f := WriteRow.seq) (R := (· < ·)), hseqs]
      exact List.pairwise_map.mpr hv.ascending
    · rw [hclients]
      exact hv.clients
    · intro row hrow
      have hmem : row.seq ∈ v.writes.map WriteRow.seq := hseqs ▸ List.mem_map_of_mem hrow
      obtain ⟨old, hold, hseq⟩ := List.mem_map.mp hmem
      exact hseq ▸ hv.bounded old hold
    · exact within
    · intro row hrow
      obtain ⟨old, hold, rfl⟩ := List.mem_map.mp hrow
      have hunacked := hv.unacked old hold
      split
      case isTrue hcovered =>
        simp only [reduceCtorEq, false_iff, not_lt]
        exact hcovered.1
      case isFalse hfree =>
        constructor
        · intro hnone
          by_contra hbelow
          exact hfree ⟨not_lt.mp hbelow, hnone⟩
        · intro habove
          exact hunacked.mpr (above.trans habove)
  | wiped => exact ⟨List.Pairwise.nil, List.nodup_nil, by simp [Vault.resetVault], hv.mark, by simp [Vault.resetVault]⟩
  | @swept now =>
    have hsub : List.Sublist (v.sweep now).writes v.writes := List.filter_sublist
    exact ⟨hv.ascending.sublist hsub, hv.clients.sublist (hsub.map _), fun row hrow => hv.bounded row (hsub.subset hrow),
      hv.mark, fun row hrow => hv.unacked row (hsub.subset hrow)⟩

/-- The queue of every vault of every reachable server is in order. -/
theorem Store.queueOrdered {s : Store} (hs : Reachable Store.Next Store.Initial s) :
    ∀ v ∈ s.vaults, v.QueueOrdered := by
  refine Store.vault_inv (fun vaultID userID keyCheck deviceName deviceID now => ?_) (fun v op w hv happlied => ?_) hs
  · exact ⟨List.Pairwise.nil, List.nodup_nil, by simp [newVault], le_rfl, by simp [newVault]⟩
  · exact happlied.queueChange.ordered hv

/-! ## Listing page by page -/

theorem Vault.QueueOrdered.seqs {v : Vault} (hv : v.QueueOrdered) : (v.writes.map WriteRow.seq).Nodup :=
  List.pairwise_map.mpr (hv.ascending.imp fun h => h.ne)

/-- Moving the cursor up leaves the unacked rows above it. -/
theorem Vault.QueueOrdered.unackedAbove_above {v : Vault} (hv : v.QueueOrdered) {low high : ℕ} (h : low ≤ high) :
    v.unackedAbove high = above WriteRow.seq high (v.unackedAbove low) := by
  have hseqs : ((v.writes.filter fun w => low < w.seq ∧ w.ackedAt = none).map WriteRow.seq).Nodup :=
    hv.seqs.sublist (List.filter_sublist.map _)
  unfold Vault.unackedAbove above
  rw [← orderBy_filter WriteRow.seq hseqs, List.filter_filter]
  congr 1
  refine List.filter_congr fun row _ => ?_
  by_cases hhigh : high < row.seq
  · have hlow : low < row.seq := h.trans_lt hhigh
    simp [hhigh, hlow]
  · simp [hhigh]

theorem Vault.QueueOrdered.unackedAbove_ordered {v : Vault} (hv : v.QueueOrdered) (after : ℕ) :
    Ordered WriteRow.seq (v.unackedAbove after) :=
  orderBy_ordered _ (hv.seqs.sublist (List.filter_sublist.map _))

/-- A page that fits holds every unacked row above the cursor; a longer listing is cut at the limit. -/
theorem handleWritesList_eq (v : Vault) (after limit : ℕ) :
    handleWritesList v v (some after) limit =
      { writes := (v.unackedAbove after).take limit, hasMore := limit < (v.unackedAbove after).length } := by
  have hrows : v.listWrites after limit = (v.unackedAbove after).take (limit + 1) := rfl
  unfold handleWritesList
  simp only [Option.getD_some, hrows, WritesPage.mk.injEq]
  rw [List.length_take]
  by_cases hmore : limit < (v.unackedAbove after).length
  · have hcut : limit < min (limit + 1) (v.unackedAbove after).length := by omega
    simp [hmore, List.take_take]
  · have hfits : ¬limit < min (limit + 1) (v.unackedAbove after).length := by omega
    have hall : (v.unackedAbove after).length ≤ limit := not_lt.mp hmore
    rw [List.take_of_length_le (hall.trans (Nat.le_succ limit)), List.take_of_length_le hall]
    simp [hmore]

/-- Above a page that is cut, the rest of the rows is left. -/
theorem Vault.QueueOrdered.unackedAbove_cut {v : Vault} (hv : v.QueueOrdered) {after limit : ℕ} (hlimit : 1 ≤ limit)
    (hmore : limit < (v.unackedAbove after).length) :
    v.unackedAbove (lastKey WriteRow.seq after ((v.unackedAbove after).take limit)) =
      (v.unackedAbove after).drop limit := by
  have hordered := hv.unackedAbove_ordered after
  have hrise : after ≤ lastKey WriteRow.seq after ((v.unackedAbove after).take limit) := by
    apply (le_lastKey_take_iff WriteRow.seq hordered hlimit hmore after after).mpr
    have hnone : ((v.unackedAbove after).filter fun row => row.seq < after) = [] := by
      apply List.filter_eq_nil_iff.mpr
      intro row hrow
      simp only [Vault.unackedAbove, mem_orderBy, List.mem_filter, decide_eq_true_eq] at hrow
      simpa using hrow.2.1.le
    rw [hnone]
    exact hlimit
  rw [hv.unackedAbove_above hrise]
  exact above_lastKey_take WriteRow.seq hordered hlimit hmore after

/-- What a client lists that goes on to the end is every unacked row above where it started, in order. -/
theorem Vault.QueueOrdered.listed_iff {v : Vault} (hv : v.QueueOrdered) {limit : ℕ} (hlimit : 1 ≤ limit) (after : ℕ)
    (rows : List WriteRow) : Listed v limit after rows ↔ rows = v.unackedAbove after := by
  constructor
  · intro hlisted
    induction hlisted with
    | @last after done =>
      rw [handleWritesList_eq] at done ⊢
      exact List.take_of_length_le (by simpa using done)
    | @more after rest promised _ ih =>
      rw [handleWritesList_eq] at promised ih ⊢
      simp only [decide_eq_true_eq] at promised
      rw [ih, hv.unackedAbove_cut hlimit promised, List.take_append_drop]
  · rintro rfl
    induction hlength : (v.unackedAbove after).length using Nat.strong_induction_on generalizing after with
    | _ n ih =>
      by_cases hmore : limit < (v.unackedAbove after).length
      · have hcut := hv.unackedAbove_cut hlimit hmore
        have hshorter : (v.unackedAbove (lastKey WriteRow.seq after ((v.unackedAbove after).take limit))).length < n := by
          rw [hcut, List.length_drop]
          omega
        have hlater := ih _ hshorter _ rfl
        rw [hcut] at hlater
        have hpage := @Listed.more v limit after ((v.unackedAbove after).drop limit)
        rw [handleWritesList_eq, List.take_append_drop] at hpage
        exact hpage (by simpa using hmore) hlater
      · have hpage := @Listed.last v limit after
        rw [handleWritesList_eq, List.take_of_length_le (by omega)] at hpage
        exact hpage (by simpa using hmore)

/-- An ack leaves the unacked rows above its seq. -/
theorem Vault.QueueOrdered.unackedAbove_acked {v w : Vault} (hv : v.QueueOrdered) {through : ℕ} {now : Time} {r : AckResult}
    (h : v.ackWrites through now = .ok (w, r)) (after : ℕ) :
    w.unackedAbove after = above WriteRow.seq through (v.unackedAbove after) := by
  obtain ⟨-, ⟨hbelow, hsame, -⟩ | ⟨-, -, hacked⟩⟩ := Vault.ackWrites_ok h
  · rw [hsame]
    refine (List.filter_eq_self.mpr fun row hrow => ?_).symm
    simp only [Vault.unackedAbove, mem_orderBy, List.mem_filter, decide_eq_true_eq] at hrow
    exact decide_eq_true (hbelow.trans_lt ((hv.unacked row hrow.1).mp hrow.2.2))
  · have hseqs : ((v.writes.filter fun row => after < row.seq ∧ row.ackedAt = none).map WriteRow.seq).Nodup :=
      hv.seqs.sublist (List.filter_sublist.map _)
    rw [hacked]
    unfold Vault.unackedAbove above
    rw [← orderBy_filter WriteRow.seq hseqs, List.filter_filter, List.filter_map]
    congr 1
    -- The rows the ack stamps are not unacked, and it leaves the others as they are.
    have hkept : ∀ row ∈ v.writes.filter fun row => through < row.seq && decide (after < row.seq ∧ row.ackedAt = none),
        (if row.seq ≤ through ∧ row.ackedAt = none then { row with ackedAt := some now, payload := [] } else row) = row := by
      intro row hrow
      obtain ⟨hlong, -⟩ := Bool.and_eq_true_iff.mp (List.mem_filter.mp hrow).2
      exact if_neg fun hshort => (of_decide_eq_true hlong).not_ge hshort.1
    refine Eq.trans (congrArg _ (List.filter_congr fun row _ => ?_)) ((List.map_congr_left hkept).trans (List.map_id' _))
    by_cases hshort : row.seq ≤ through ∧ row.ackedAt = none
    · simp [hshort]
    · rw [Function.comp_apply, if_neg hshort]
      grind

/-! ## Runs -/

/-- A step that keeps the vault of an id and does not reset it. -/
def Op.KeepsQueue (vaultID : String) (s : Store) (op : Op) : Prop :=
  op.Spares vaultID s ∧ ∀ keyCheck, op ≠ .resetVault vaultID keyCheck

/-- An unacked row stands as it is until an ack reaches it. -/
theorem Vault.QueueChange.row_stands {v w : Vault} {op : Op} (h : v.QueueChange op w)
    (hkept : ∀ keyCheck, op ≠ .resetVault v.id keyCheck) {row : WriteRow} (hrow : row ∈ v.writes)
    (hunacked : row.ackedAt = none) (hshort : ∀ through now, op = .ackWrites v.id through now → through < row.seq) :
    row ∈ w.writes := by
  cases h with
  | kept writes => exact writes ▸ hrow
  | queued => exact List.mem_append_left _ hrow
  | @acked through now =>
    refine List.mem_map.mpr ⟨row, hrow, ?_⟩
    have hbelow := hshort through now rfl
    rw [if_neg (by omega)]
  | @wiped keyCheck => exact absurd rfl (hkept keyCheck)
  | swept => exact List.mem_filter.mpr ⟨hrow, by simp [hunacked]⟩

/-- A run that keeps a vault's queue is a run of transactions on it. -/
theorem Store.queue_run {vaultID : String} {s t : Store} {ops : List Op}
    (run : Run (Guarded Store.Next (fun s op => op.KeepsQueue vaultID s)) s ops t)
    (ids : (s.vaults.map Vault.id).Nodup) {v : Vault} (hv : v ∈ s.vaults) (hid : v.id = vaultID) :
    ∃ w ∈ t.vaults, w.id = vaultID ∧ Run Vault.Applied v ops w ∧
      ∀ keyCheck, Op.resetVault vaultID keyCheck ∉ ops := by
  have hspared : Run (Guarded Store.Next (fun s op => op.Spares vaultID s)) s ops t :=
    run.mono fun _ _ _ step => ⟨step.1.1, step.2⟩
  obtain ⟨w, hw, hwid, later⟩ := Store.vault_run hspared ids hv hid
  refine ⟨w, hw, hwid, later, fun keyCheck => ?_⟩
  clear hspared later
  induction run generalizing v with
  | nil => exact List.not_mem_nil
  | cons first _ ih =>
    obtain ⟨⟨hspares, hkeeps⟩, blobs, hstep⟩ := first
    obtain ⟨u, hu, huid, -⟩ := Store.vault_run (.cons ⟨hspares, blobs, hstep⟩ (.nil _)) ids hv hid
    refine List.not_mem_cons_of_ne_of_not_mem (fun heq => hkeeps keyCheck heq.symm) ?_
    exact ih (Store.step_ids_nodup hstep ids) hu huid hw

/-- A row no ack reaches stands through a run of transactions. -/
theorem Vault.row_stands {v w : Vault} {ops : List Op} (run : Run Vault.Applied v ops w)
    (hkept : ∀ keyCheck, Op.resetVault v.id keyCheck ∉ ops) {row : WriteRow} (hrow : row ∈ v.writes)
    (hunacked : row.ackedAt = none) (hshort : ∀ through now, Op.ackWrites v.id through now ∈ ops → through < row.seq) :
    row ∈ w.writes := by
  induction run with
  | nil v => exact hrow
  | @cons v u w op rest first _ ih =>
    have hid : u.id = v.id := first.id_eq
    have hstands : row ∈ u.writes := by
      apply first.queueChange.row_stands _ hrow hunacked
      · rintro through now rfl
        exact hshort through now List.mem_cons_self
      · rintro keyCheck rfl
        exact hkept keyCheck List.mem_cons_self
    apply ih _ hstands
    · rw [hid]
      exact fun through now hop => hshort through now (List.mem_cons_of_mem _ hop)
    · rw [hid]
      exact fun keyCheck hop => hkept keyCheck (List.mem_cons_of_mem _ hop)

/-- What the queue promises at a point of a run, `start` being an earlier one. -/
structure QueueKept (start w : Vault) (ops : List Op) : Prop where
  /-- Seqs are unique and ascend in the order the rows were accepted. -/
  ascending : w.writes.Pairwise fun a b => a.seq < b.seq
  /-- A retry of a kept client id is answered with its seq and changes nothing. -/
  retry : ∀ row : WriteRow, ∀ kept ∈ w.writes, kept.clientID = row.clientID →
    w.enqueueWrite row = (w, kept.seq, false)
  /-- Any other write is added at the end, under a seq above every one given before. -/
  accept : ∀ row : WriteRow, (∀ kept ∈ w.writes, kept.clientID ≠ row.clientID) →
    ∃ seq u, w.enqueueWrite row = (u, seq, true) ∧ u.writes = w.writes ++ [{ row with seq, ackedAt := none }] ∧
      start.latestSeq < seq ∧ (∀ old ∈ start.writes, old.seq < seq) ∧ ∀ old ∈ w.writes, old.seq < seq
  /-- The unacked rows are those above the mark. -/
  unacked : ∀ row ∈ w.writes, row.ackedAt = none ↔ w.ackedThroughSeq < row.seq
  /-- A row accepted earlier is listed, from any seq below it and in pages of any size, while no ack has reached it. -/
  listed : ∀ row ∈ start.writes, row.ackedAt = none →
    (∀ through now, Op.ackWrites start.id through now ∈ ops → through < row.seq) →
      ∀ after < row.seq, ∀ limit, 1 ≤ limit → ∃ rows, Listed w limit after rows ∧ row ∈ rows
  /-- An ack past the last seq is refused. -/
  refused : ∀ through now, w.latestSeq < through → w.ackWrites through now = .error .notFound
  /-- An ack that moves the mark records where the version counter stands; any other changes nothing. -/
  acked : ∀ through now u r, w.ackWrites through now = .ok (u, r) →
    if w.ackedThroughSeq < through then u.ackedThroughSeq = through ∧ u.ackedAtVersion = w.latestVersion else u = w
  /-- Repeating an ack changes nothing. -/
  repeated : ∀ through now later u r, w.ackWrites through now = .ok (u, r) → ∃ r', u.ackWrites through later = .ok (u, r')

/-- The client ids of a queue in order tell its rows apart. -/
theorem Vault.QueueOrdered.eq_of_client {v : Vault} (hv : v.QueueOrdered) {a b : WriteRow} (ha : a ∈ v.writes)
    (hb : b ∈ v.writes) (h : a.clientID = b.clientID) : a = b := List.inj_on_of_nodup_map hv.clients ha hb h

/-- Repeating an accepted ack finds the mark where it left it. -/
theorem Vault.ackWrites_again {v w : Vault} {through : ℕ} {now : Time} {r : AckResult}
    (h : v.ackWrites through now = .ok (w, r)) (later : Time) : ∃ r', w.ackWrites through later = .ok (w, r') := by
  obtain ⟨hwithin, ⟨hbelow, rfl, -⟩ | ⟨-, -, rfl⟩⟩ := Vault.ackWrites_ok h
  · unfold Vault.ackWrites
    rw [if_neg (not_lt.mpr hwithin), if_pos hbelow]
    exact ⟨_, rfl⟩
  · unfold Vault.ackWrites
    rw [if_neg (not_lt.mpr hwithin), if_pos le_rfl]
    exact ⟨_, rfl⟩

/-- In any run of the server that keeps a vault and does not reset it, its queue loses and duplicates nothing. -/
theorem queue_loses_nothing {s t : Store} (hs : Reachable Store.Next Store.Initial s) {v : Vault} (hv : v ∈ s.vaults)
    {ops : List Op} (run : Run (Guarded Store.Next (fun s op => op.KeepsQueue v.id s)) s ops t) :
    ∃ w ∈ t.vaults, w.id = v.id ∧ QueueKept v w ops := by
  obtain ⟨w, hw, hwid, later, hkept⟩ := Store.queue_run run (Store.ids_nodup hs) hv rfl
  have hstart := Store.queueOrdered hs v hv
  have horder : w.QueueOrdered :=
    later.invariant Vault.QueueOrdered (fun _ _ _ h happlied => happlied.queueChange.ordered h) hstart
  have hseq : v.latestSeq ≤ w.latestSeq :=
    later.monotone Vault.latestSeq fun _ _ _ happlied => happlied.countersLe.seq
  refine ⟨w, hw, hwid, ?_⟩
  constructor
  case ascending => exact horder.ascending
  case unacked => exact horder.unacked
  case retry =>
    intro row kept hmem hclient
    rcases w.enqueueWrite_cases row with ⟨found, hfound, hsame, heq⟩ | ⟨hfresh, -⟩
    · rw [heq, horder.eq_of_client hfound hmem (hsame.trans hclient.symm)]
    · exact absurd hclient (hfresh kept hmem)
  case accept =>
    intro row hfresh
    rcases w.enqueueWrite_cases row with ⟨found, hfound, hsame, -⟩ | ⟨-, heq⟩
    · exact absurd hsame (hfresh found hfound)
    · refine ⟨w.latestSeq + 1, _, heq, rfl, by omega, fun old hold => ?_, fun old hold => ?_⟩
      · have hbelow := hstart.bounded old hold
        omega
      · exact Nat.lt_succ_of_le (horder.bounded old hold)
  case listed =>
    intro row hrow hunacked hshort after hafter limit hlimit
    have hstands := Vault.row_stands later hkept hrow hunacked hshort
    refine ⟨w.unackedAbove after, (horder.listed_iff hlimit after _).mpr rfl, ?_⟩
    simp [Vault.unackedAbove, hstands, hafter, hunacked]
  case refused =>
    intro through now hbeyond
    unfold Vault.ackWrites
    rw [if_pos hbeyond]
  case acked =>
    intro through now u r hack
    obtain ⟨-, ⟨hbelow, rfl, -⟩ | ⟨habove, -, rfl⟩⟩ := Vault.ackWrites_ok hack
    · rw [if_neg (not_lt.mpr hbelow)]
    · rw [if_pos habove]
      exact ⟨rfl, rfl⟩
  case repeated =>
    intro through now later u r hack
    exact Vault.ackWrites_again hack later

/-! ## What a row does not record -/

/-- The phone's write, before the server takes it. -/
def phoneWrite : WriteRow :=
  { clientID := "11111111-1111-4111-8111-111111111111", path := "notes/a.md", baseVersion := 0, payload := [1], createdAt := 0 }

/-- A vault with one file at version 1 or none, and one write, unacked. -/
def waitingHistory (uploads : List Op) : List Op :=
  .ensureVault "user" "check" "desk" "vault" "device" 0 :: uploads ++ [.enqueueWrite "vault" phoneWrite]

def oneUpload : List Op :=
  [.beginUpload "vault" { blobID := blobA, path := "notes/a.md", expectedVersion := 0, sizeBytes := 10, contentHash := hashA, createdAt := 0 } 1000,
    .commitUpload "vault" "notes/a.md" blobA 0 1000 0]

/-- What a history leaves, from the empty server on. -/
def serverAfter (history : List Op) : Store := (follow Store.after {} history).getD {}

theorem serverAfter_reachable {history : List Op} (h : (follow Store.after {} history).isSome) :
    Reachable Store.Next Store.Initial (serverAfter history) := by
  obtain ⟨s, hs⟩ := Option.isSome_iff_exists.mp h
  refine ⟨{}, history, rfl, ?_⟩
  rw [serverAfter, hs]
  exact Run.of_follow Store.after_next hs

/-- The row of `phoneWrite` once it is acked. -/
def ackedRow : WriteRow := { phoneWrite with seq := 1, ackedAt := some 5, payload := [] }

/-- Two vaults whose version counters differ come out of an ack with the same row: it does not say where the
counter stood. -/
theorem acked_row_has_no_version :
    ¬ ∃ recorded : WriteRow → ℕ, ∀ s through now t, Reachable Store.Next Store.Initial s →
      Store.Next s (.ackWrites "vault" through now) t → ∀ v ∈ s.vaults, ∀ w ∈ t.vaults, w.id = v.id →
        ∀ row ∈ w.writes, row ∉ v.writes → row.ackedAt.isSome → recorded row = v.latestVersion := by
  rintro ⟨recorded, hall⟩
  have recorded_eq (uploads : List Op) (version : ℕ)
      (hreached : (follow Store.after {} (waitingHistory uploads)).isSome)
      (hstep : Store.Next (serverAfter (waitingHistory uploads)) (.ackWrites "vault" 1 5)
        (serverAfter (waitingHistory uploads ++ [.ackWrites "vault" 1 5])))
      (hrow : ∃ v ∈ (serverAfter (waitingHistory uploads)).vaults, v.latestVersion = version ∧ ackedRow ∉ v.writes ∧
        ∃ w ∈ (serverAfter (waitingHistory uploads ++ [.ackWrites "vault" 1 5])).vaults,
          w.id = v.id ∧ ackedRow ∈ w.writes) : recorded ackedRow = version := by
    obtain ⟨v, hv, hversion, hnew, w, hw, hid, hmem⟩ := hrow
    rw [← hversion]
    exact hall _ _ _ _ (serverAfter_reachable hreached) hstep v hv w hw hid ackedRow hmem hnew rfl
  have hearly := recorded_eq [] 0 (by decide) ⟨[], by decide⟩ (by decide)
  have hlate := recorded_eq oneUpload 1 (by decide) ⟨[], by decide⟩ (by decide)
  rw [hearly] at hlate
  cases hlate

/-- The write of `phoneWrite` stays listed while the desk commits. -/
theorem waiting_write_listed : ∃ w ∈ (serverAfter (waitingHistory [] ++ oneUpload)).vaults, w.id = "vault" ∧
    ∃ rows, Listed w 1 0 rows ∧ { phoneWrite with seq := 1 } ∈ rows := by
  have hrow : ∃ v ∈ (serverAfter (waitingHistory [])).vaults, v.id = "vault" ∧ { phoneWrite with seq := 1 } ∈ v.writes := by
    decide
  obtain ⟨v, hv, hid, hmem⟩ := hrow
  have hrun : Run (Guarded Store.Next (fun s op => op.KeepsQueue v.id s)) (serverAfter (waitingHistory []))
      oneUpload (serverAfter (waitingHistory [] ++ oneUpload)) := by
    refine .cons (t := serverAfter (waitingHistory [] ++ oneUpload.take 1)) ⟨⟨fun _ _ _ => rfl, nofun⟩, [], by decide⟩
      (.cons ⟨⟨fun _ _ _ => rfl, nofun⟩, [], by decide⟩ (.nil _))
  obtain ⟨w, hw, hwid, hkept⟩ := queue_loses_nothing (serverAfter_reachable (by decide)) hv hrun
  exact ⟨w, hw, hwid.trans hid, hkept.listed _ hmem rfl (by simp [oneUpload]) 0 (by decide) 1 le_rfl⟩

end Thock.Plus
