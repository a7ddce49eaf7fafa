import Thock.Desk.VaultSync

/-!
# What an ack stands for

An ack is honest when nothing that the acked writes changed on disk is still owed to the
server. The paths a pass must send live in the pass alone: a failed pass puts back the job it
was given, not what its writes changed, and the writes it applied change nothing the second
time. So the next pass has those paths only where the watcher reported them, which it does
not for pictures.
-/

namespace Thock.Desk.VaultSync

open TextScan SyncCore Transition

/-! ## Owing and settling -/

/-- What is owed after a write is what it left, or what was owed for another path. -/
theorem mem_owe {seq : ℕ} {path : Path} {content : Option Bytes} {owed : List Owed} {o : Owed}
    (h : o ∈ owe seq path content owed) :
    (o.path = path ∧ o.content = content ∧ (o.seq = seq ∨ ∃ before ∈ owed, before.seq = o.seq)) ∨
      (o ∈ owed ∧ o.path ≠ path) := by
  unfold owe at h
  rcases List.mem_append.mp h with hold | hnew
  · obtain ⟨before, hbefore, rfl⟩ := List.mem_map.mp hold
    by_cases hpath : before.path = path
    · rw [if_pos hpath]
      exact Or.inl ⟨hpath, rfl, Or.inr ⟨before, hbefore, rfl⟩⟩
    · rw [if_neg hpath]
      exact Or.inr ⟨hbefore, hpath⟩
  · rw [List.mem_singleton.mp hnew]
    exact Or.inl ⟨rfl, rfl, Or.inl rfl⟩

theorem mem_oweAt {seq : ℕ} {disk : Disk} {path : Option Path} {owed : List Owed} {o : Owed}
    (h : o ∈ oweAt seq disk path owed) :
    (o.path ∈ path ∧ o.content = disk.get o.path ∧ (o.seq = seq ∨ ∃ before ∈ owed, before.seq = o.seq)) ∨
      (o ∈ owed ∧ o.path ∉ path) := by
  cases path with
  | none => exact Or.inr ⟨h, fun hmem => by cases hmem⟩
  | some path =>
    rcases mem_owe h with ⟨rfl, hcontent, hseq⟩ | ⟨hold, hne⟩
    · exact Or.inl ⟨rfl, hcontent, hseq⟩
    · exact Or.inr ⟨hold, fun hmem => hne (Option.some.inj hmem).symm⟩

theorem mem_settle {server : Server} {owed : List Owed} {o : Owed} :
    o ∈ settle server owed ↔ o ∈ owed ∧ server.content o.path ≠ o.content := by
  simp [settle]

/-- A pass will still send what is owed: a changed file is among its dirty paths, a vacated path
among its removed ones. -/
structure Owed.Covered (o : Owed) (dirty removed : List Path) : Prop where
  changed : o.content ≠ none → o.path ∈ dirty
  vacated : o.content = none → o.path ∈ removed

instance (o : Owed) (dirty removed : List Path) : Decidable (o.Covered dirty removed) :=
  decidable_of_iff ((o.content ≠ none → o.path ∈ dirty) ∧ (o.content = none → o.path ∈ removed))
    ⟨fun h => ⟨h.1, h.2⟩, fun h => ⟨h.1, h.2⟩⟩

theorem Owed.Covered.mono {o : Owed} {dirty removed dirty' removed' : List Path} (h : o.Covered dirty removed)
    (hd : dirty ⊆ dirty') (hr : removed ⊆ removed') : o.Covered dirty' removed' :=
  ⟨fun hc => hd (h.changed hc), fun hc => hr (h.vacated hc)⟩

/-! ## Calls to the server -/

/-- A server that changed at most the row of one path. -/
structure Server.Touches (path : Path) (before after : Server) : Prop where
  elsewhere : ∀ other ≠ path, after.content other = before.content other
  writes : after.writes = before.writes
  latestSeq : after.latestSeq = before.latestSeq
  acked : after.ackedThroughSeq = before.ackedThroughSeq

theorem Server.Touches.refl (path : Path) (server : Server) : Server.Touches path server server :=
  ⟨fun _ _ => rfl, rfl, rfl, rfl⟩

theorem Server.Touches.trans {path : Path} {a b c : Server} (hab : Server.Touches path a b)
    (hbc : Server.Touches path b c) : Server.Touches path a c :=
  ⟨fun other hother => (hbc.elsewhere other hother).trans (hab.elsewhere other hother), hbc.writes.trans hab.writes,
    hbc.latestSeq.trans hab.latestSeq, hbc.acked.trans hab.acked⟩

/-- A call leaves the server as it was or as its effect leaves it, and an answer is its effect's. -/
theorem call_cases {α : Type} {fate : Fate} {effect : Server → Except ErrorCode (Server × α)} {server after : Server}
    {result : Except ErrorCode α} (h : call fate effect server = (after, result)) :
    (after = server ∧ ∀ answer, result ≠ .ok answer) ∨
      (∃ answer, effect server = .ok (after, answer) ∧ ∀ answered, result = .ok answered → answered = answer) := by
  unfold call at h
  split at h
  · obtain ⟨rfl, rfl⟩ := Prod.mk.inj h
    exact Or.inl ⟨rfl, fun answer hok => by cases hok⟩
  · rename_i answer heffect
    obtain ⟨rfl, rfl⟩ := Prod.mk.inj h
    exact Or.inr ⟨answer, heffect, fun answered hok => (Except.ok.inj hok).symm⟩
  · obtain ⟨rfl, rfl⟩ := Prod.mk.inj h
    exact Or.inl ⟨rfl, fun answer hok => by cases hok⟩
  · rename_i answer heffect
    obtain ⟨rfl, rfl⟩ := Prod.mk.inj h
    exact Or.inr ⟨answer, heffect, fun answered hok => by cases hok⟩
  · obtain ⟨rfl, rfl⟩ := Prod.mk.inj h
    exact Or.inl ⟨rfl, fun answer hok => by cases hok⟩

/-- An accepted commit puts the content at its path. -/
theorem Server.commit_ok {path : Path} {expected version : ℕ} {bytes : Bytes} {server after : Server}
    (h : Server.commit path expected bytes server = .ok (after, version)) :
    Server.Touches path server after ∧ after.content path = some bytes := by
  unfold Server.commit at h
  split at h
  · cases h
  · obtain ⟨rfl, -⟩ := Prod.mk.inj (Except.ok.inj h)
    refine ⟨⟨fun other hother => ?_, rfl, rfl, rfl⟩, ?_⟩
    · simp [content, Table.get_put_of_ne _ _ hother]
    · simp [content]

/-- An accepted tombstone leaves nothing at its path. -/
theorem Server.tombstone_ok {path : Path} {expected version : ℕ} {server after : Server}
    (h : Server.tombstone path expected server = .ok (after, version)) :
    Server.Touches path server after ∧ after.content path = none := by
  unfold Server.tombstone at h
  split at h
  · cases h
  · rename_i row hrow
    split at h
    · rename_i hcontent
      obtain ⟨rfl, -⟩ := Prod.mk.inj (Except.ok.inj h)
      exact ⟨.refl path server, by rw [content, hrow, Option.bind_some, hcontent]⟩
    · split at h
      · cases h
      · obtain ⟨rfl, -⟩ := Prod.mk.inj (Except.ok.inj h)
        refine ⟨⟨fun other hother => ?_, rfl, rfl, rfl⟩, ?_⟩
        · simp [content, Table.get_put_of_ne _ _ hother]
        · simp [content]

theorem Server.tombstone_notFound {path : Path} {expected : ℕ} {server : Server}
    (h : Server.tombstone path expected server = .error .notFound) : server.content path = none := by
  unfold Server.tombstone at h
  split at h
  · rename_i hrow
    rw [content, hrow]
    rfl
  · split at h
    · cases h
    · split at h
      · cases h
      · cases h

/-- Beginning an upload changes nothing. -/
theorem call_beginUpload {path : Path} {expected : ℕ} {fate : Fate} {server after : Server}
    {result : Except ErrorCode Unit} (h : call fate (Server.beginUpload path expected) server = (after, result)) :
    after = server := by
  rcases call_cases h with ⟨hsame, -⟩ | ⟨answer, heffect, -⟩
  · exact hsame
  · unfold Server.beginUpload at heffect
    split at heffect
    · cases heffect
    · exact (Prod.mk.inj (Except.ok.inj heffect)).1.symm

/-- A commit touches its path alone, and one that is answered puts the content there. -/
theorem call_commit {path : Path} {expected : ℕ} {bytes : Bytes} {fate : Fate} {server after : Server}
    {result : Except ErrorCode ℕ} (h : call fate (Server.commit path expected bytes) server = (after, result)) :
    Server.Touches path server after ∧ ∀ version, result = .ok version → after.content path = some bytes := by
  rcases call_cases h with ⟨rfl, hfailed⟩ | ⟨answer, heffect, -⟩
  · exact ⟨.refl path after, fun version hok => absurd hok (hfailed version)⟩
  · obtain ⟨htouches, hcontent⟩ := Server.commit_ok heffect
    exact ⟨htouches, fun _ _ => hcontent⟩

/-- An upload touches its path alone, and one that succeeds puts the content there. -/
theorem uploadFile_spec {path : Path} {bytes : Bytes} {attempts expected : ℕ} {fates : List Fate}
    {server after : Server} {result : Except ErrorCode ℕ}
    (h : uploadFile path bytes attempts expected fates server = (after, result)) :
    Server.Touches path server after ∧ ∀ version, result = .ok version → after.content path = some bytes := by
  induction attempts generalizing expected fates server with
  | zero =>
    obtain ⟨rfl, rfl⟩ := Prod.mk.inj h
    exact ⟨.refl path server, fun version hok => by cases hok⟩
  | succ attempts ih =>
    have failed (code : ErrorCode) (h : (server, Except.error code) = (after, result)) :
        Server.Touches path server after ∧ ∀ version, result = .ok version → after.content path = some bytes := by
      obtain ⟨rfl, rfl⟩ := Prod.mk.inj h
      exact ⟨.refl path server, fun version hok => by cases hok⟩
    unfold uploadFile at h
    cases hbegin : call (fateAt fates 0) (Server.beginUpload path expected) server with
    | mk begun answer =>
      obtain rfl := call_beginUpload hbegin
      rw [hbegin] at h
      split at h
      · rename_i heq
        obtain ⟨rfl, -⟩ := Prod.mk.inj heq
        split at h
        · exact ih h
        · exact failed _ h
      · rename_i heq
        obtain ⟨rfl, -⟩ := Prod.mk.inj heq
        exact failed _ h
      · rename_i heq
        obtain ⟨rfl, -⟩ := Prod.mk.inj heq
        split at h
        · exact failed _ h
        · exact failed _ h
        · cases hcommit : call (fateAt fates 2) (Server.commit path expected bytes) begun with
          | mk committed answer =>
            obtain ⟨htouches, hcontent⟩ := call_commit hcommit
            rw [hcommit] at h
            split at h
            · rename_i heq
              obtain ⟨rfl, rfl⟩ := Prod.mk.inj heq
              obtain ⟨rfl, rfl⟩ := Prod.mk.inj h
              exact ⟨htouches, hcontent⟩
            · rename_i heq
              obtain ⟨rfl, rfl⟩ := Prod.mk.inj heq
              split at h
              · obtain ⟨hagain, hdone⟩ := ih h
                exact ⟨htouches.trans hagain, hdone⟩
              · obtain ⟨rfl, rfl⟩ := Prod.mk.inj h
                exact ⟨htouches, fun version hok => by cases hok⟩
            · rename_i heq
              obtain ⟨rfl, rfl⟩ := Prod.mk.inj heq
              obtain ⟨rfl, rfl⟩ := Prod.mk.inj h
              exact ⟨htouches, fun version hok => by cases hok⟩

/-- A tombstone call touches its path alone; one that is answered, with success or with word that there
is nothing, leaves nothing there. -/
theorem call_tombstone {path : Path} {expected : ℕ} {fate : Fate} {server after : Server}
    {result : Except ErrorCode ℕ} (h : call fate (Server.tombstone path expected) server = (after, result)) :
    Server.Touches path server after ∧
      ((∃ version, result = .ok version) ∨ result = .error .notFound → after.content path = none) := by
  cases heffect : Server.tombstone path expected server with
  | ok answer =>
    obtain ⟨tombstoned, version⟩ := answer
    obtain ⟨htouches, hcontent⟩ := Server.tombstone_ok heffect
    cases fate with
    | answered =>
      simp only [call, heffect] at h
      obtain ⟨rfl, -⟩ := Prod.mk.inj h
      exact ⟨htouches, fun _ => hcontent⟩
    | failed cause =>
      simp only [call] at h
      obtain ⟨rfl, rfl⟩ := Prod.mk.inj h
      refine ⟨.refl path server, ?_⟩
      rintro (⟨version, hok⟩ | hnone)
      · cases hok
      · cases hnone
    | unanswered =>
      simp only [call, heffect] at h
      obtain ⟨rfl, -⟩ := Prod.mk.inj h
      exact ⟨htouches, fun _ => hcontent⟩
  | error code =>
    have hsame : after = server := by
      cases fate <;> simp only [call, heffect] at h <;> exact (Prod.mk.inj h).1.symm
    subst hsame
    refine ⟨.refl path after, ?_⟩
    rintro (⟨version, hok⟩ | hnone)
    · cases fate <;> simp only [call, heffect] at h <;> rw [hok] at h <;> cases (Prod.mk.inj h).2
    · cases fate with
      | answered =>
        simp only [call, heffect] at h
        rw [hnone] at h
        exact Server.tombstone_notFound (heffect.trans (congrArg Except.error (Except.error.inj (Prod.mk.inj h).2)))
      | failed cause =>
        simp only [call] at h
        rw [hnone] at h
        cases (Prod.mk.inj h).2
      | unanswered =>
        simp only [call, heffect] at h
        rw [hnone] at h
        cases (Prod.mk.inj h).2

theorem tombstoneAttempt_spec {path : Path} {version : ℕ} {fates : List Fate} {server after : Server}
    {result : Except ErrorCode ℕ} (h : tombstoneAttempt path version fates server = (after, result)) :
    Server.Touches path server after ∧
      ((∃ version, result = .ok version) ∨ result = .error .notFound → after.content path = none) := by
  unfold tombstoneAttempt at h
  cases hfirst : call (fateAt fates 0) (Server.tombstone path version) server with
  | mk first answer =>
    obtain ⟨htouches, hgone⟩ := call_tombstone hfirst
    rw [hfirst] at h
    split at h
    · rename_i heq
      obtain ⟨rfl, -⟩ := Prod.mk.inj heq
      obtain ⟨hagain, hdone⟩ := call_tombstone h
      exact ⟨htouches.trans hagain, hdone⟩
    · obtain ⟨rfl, rfl⟩ := Prod.mk.inj h
      exact ⟨htouches, hgone⟩

/-- A tombstoning touches its path alone, and one that succeeds leaves nothing there. -/
theorem tombstonePath_spec {path : Path} {version : ℕ} {fates : List Fate} {server after : Server}
    {result : Except ErrorCode ℕ} (h : tombstonePath path version fates server = (after, result)) :
    Server.Touches path server after ∧ ∀ answer, result = .ok answer → after.content path = none := by
  unfold tombstonePath at h
  cases hattempt : tombstoneAttempt path version fates server with
  | mk attempted answer =>
    obtain ⟨htouches, hgone⟩ := tombstoneAttempt_spec hattempt
    rw [hattempt] at h
    split at h
    · rename_i heq
      obtain ⟨rfl, rfl⟩ := Prod.mk.inj heq
      obtain ⟨rfl, rfl⟩ := Prod.mk.inj h
      exact ⟨htouches, fun _ _ => hgone (Or.inr rfl)⟩
    · obtain ⟨rfl, rfl⟩ := Prod.mk.inj h
      exact ⟨htouches, fun answer hok => hgone (Or.inl ⟨answer, hok⟩)⟩

/-! ## Writes on disk -/

/-- What an applied write did on disk: nothing away from its marks, a file at the changed path,
nothing at the removed one. -/
structure AppliedWrite.Effect (result : AppliedWrite) (before after : Disk) : Prop where
  elsewhere : ∀ path, path ∉ result.changed → path ∉ result.removed → after.get path = before.get path
  changed : ∀ path ∈ result.changed, after.get path ≠ none
  removed : ∀ path ∈ result.removed, after.get path = none

theorem AppliedWrite.Effect.none (disk : Disk) : AppliedWrite.Effect {} disk disk :=
  ⟨fun _ _ _ => rfl, (fun _ h => by cases h), (fun _ h => by cases h)⟩

theorem AppliedWrite.Effect.put (disk : Disk) (path : Path) (bytes : Bytes) :
    AppliedWrite.Effect { changed := some path } disk (disk.put path bytes) := by
  refine ⟨fun other hchanged _ => ?_, fun other hchanged => ?_, fun other hremoved => by cases hremoved⟩
  · exact Table.get_put_of_ne _ _ fun h => hchanged (by rw [h]; rfl)
  · obtain rfl := Option.some.inj hchanged
    simp

theorem applyMoveFile_effect {pf : Platform} {disk after : Disk} {write : Write} {to_ : Path} {result : AppliedWrite}
    (h : applyMoveFile pf disk write to_ = .ok (after, result)) : result.Effect disk after := by
  unfold applyMoveFile at h
  split at h
  · cases h
  · split at h
    · cases h
      exact .none disk
    · cases h
      exact .none disk
    · rename_i bytes hfrom hto
      cases h
      have hne : write.path ≠ to_ := by
        intro heq
        rw [heq, hto] at hfrom
        cases hfrom
      refine ⟨fun path hchanged hremoved => ?_, fun path hchanged => ?_, fun path hremoved => ?_⟩
      · rw [Table.get_put_of_ne _ _ fun h => hchanged (by rw [h]; rfl),
          Table.get_erase_of_ne _ fun h => hremoved (by rw [h]; rfl)]
      · obtain rfl := Option.some.inj hchanged
        simp
      · obtain rfl := Option.some.inj hremoved
        rw [Table.get_put_of_ne _ _ hne, Table.get_erase_self]

theorem applyOpenedWrite_effect {pf : Platform} {disk after : Disk} {write : Write} {existing : Option Text}
    {result : AppliedWrite} (h : applyOpenedWrite pf disk write existing = (after, result)) :
    result.Effect disk after := by
  unfold applyOpenedWrite at h
  dsimp only at h
  generalize apply pf.prim existing write _ = applied at h
  split at h
  · obtain ⟨rfl, rfl⟩ := Prod.mk.inj h
    exact .none disk
  · obtain ⟨rfl, rfl⟩ := Prod.mk.inj h
    exact .put disk write.path _

/-- Every write that is applied marks what it did on disk. -/
theorem applyWrite_effect {pf : Platform} {disk after : Disk} {row : WriteRow} {result : AppliedWrite}
    (h : applyWrite pf disk row = .ok (after, result)) : result.Effect disk after := by
  unfold applyWrite at h
  split at h
  · cases h
  · split at h
    · unfold applyPutFile at h
      split at h
      · cases h
      · split at h
        · cases h
        · split at h
          · cases h
          · split at h
            · cases h
            · split at h
              · cases h
                exact .none disk
              · cases h
                exact .put disk _ _
    · exact applyMoveFile_effect h
    · split at h
      · exact applyOpenedWrite_effect (Except.ok.inj h)
      · split at h
        · cases h
        · exact applyOpenedWrite_effect (Except.ok.inj h)

/-! ## Draining a batch -/

/-- A batch whose debts are true of the disk, are above the acked seq and will be sent. -/
structure Drained.Sound (acked : ℕ) (dirty removed : List Path) (d : Drained) : Prop where
  disk : ∀ o ∈ d.owed, d.disk.get o.path = o.content
  honest : ∀ o ∈ d.owed, acked < o.seq
  covered : ∀ o ∈ d.owed, o.Covered (dirty ++ d.changed) (removed ++ d.vacated)

/-- An applied write leaves a sound batch sound. -/
theorem Drained.Sound.record {acked : ℕ} {dirty removed : List Path} {d : Drained} (h : d.Sound acked dirty removed)
    {seq : ℕ} (hseq : acked < seq) {after : Disk} {result : AppliedWrite} (heffect : result.Effect d.disk after) :
    (d.record seq after result).Sound acked dirty removed := by
  -- A debt after the write is of a path it marks, or an older one of a path it left alone.
  have hcases : ∀ o ∈ (d.record seq after result).owed,
      (acked < o.seq ∧ o.content = after.get o.path ∧ (o.path ∈ result.changed ∨ o.path ∈ result.removed)) ∨
        (o ∈ d.owed ∧ o.path ∉ result.changed ∧ o.path ∉ result.removed) := by
    intro o ho
    have habove : ∀ before ∈ oweAt seq after result.changed d.owed, acked < before.seq := by
      intro before hbefore
      rcases mem_oweAt hbefore with ⟨-, -, rfl | ⟨older, holder, hsame⟩⟩ | ⟨hold, -⟩
      · exact hseq
      · rw [← hsame]
        exact h.honest older holder
      · exact h.honest before hold
    rcases mem_oweAt ho with ⟨hmarked, hcontent, rfl | ⟨older, holder, hsame⟩⟩ | ⟨hold, hleft⟩
    · exact Or.inl ⟨hseq, hcontent, Or.inr hmarked⟩
    · exact Or.inl ⟨by rw [← hsame]; exact habove older holder, hcontent, Or.inr hmarked⟩
    · rcases mem_oweAt hold with ⟨hmarked, hcontent, -⟩ | ⟨holder, hkept⟩
      · exact Or.inl ⟨habove o hold, hcontent, Or.inl hmarked⟩
      · exact Or.inr ⟨holder, hkept, hleft⟩
  refine ⟨fun o ho => ?_, fun o ho => ?_, fun o ho => ?_⟩
  · rcases hcases o ho with ⟨-, hcontent, -⟩ | ⟨hold, hkept, hleft⟩
    · exact hcontent.symm
    · exact (heffect.elsewhere o.path hkept hleft).trans (h.disk o hold)
  · rcases hcases o ho with ⟨habove, -, -⟩ | ⟨hold, -, -⟩
    · exact habove
    · exact h.honest o hold
  · rcases hcases o ho with ⟨-, hcontent, hchanged | hremoved⟩ | ⟨hold, -, -⟩
    · refine ⟨fun _ => ?_, fun hnone => ?_⟩
      · simp [Drained.record, Option.mem_def.mp hchanged]
      · exact absurd (hcontent.symm.trans hnone) (heffect.changed o.path hchanged)
    · refine ⟨fun hsome => ?_, fun _ => ?_⟩
      · exact absurd (hcontent.trans (heffect.removed o.path hremoved)) hsome
      · simp [Drained.record, Option.mem_def.mp hremoved]
    · apply (h.covered o hold).mono
      · intro path hpath
        simp only [Drained.record]
        rw [← List.append_assoc]
        exact List.mem_append_left _ hpath
      · intro path hpath
        simp only [Drained.record]
        rw [← List.append_assoc]
        exact List.mem_append_left _ hpath

/-- Draining leaves a sound batch sound. -/
theorem drainRows_sound {pf : Platform} {faulty : ℕ → Bool} {acked : ℕ} {dirty removed : List Path}
    {rows : List WriteRow} {d : Drained} (h : d.Sound acked dirty removed) (hrows : ∀ row ∈ rows, acked < row.seq) :
    (drainRows pf faulty rows d).Sound acked dirty removed := by
  induction rows generalizing d with
  | nil => exact h
  | cons row rest ih =>
    have hseq := hrows row List.mem_cons_self
    have hrest : ∀ row ∈ rest, acked < row.seq := fun other hother => hrows other (List.mem_cons_of_mem row hother)
    unfold drainRows
    split
    · rename_i after result happly
      split
      · exact ⟨h.disk, h.honest, h.covered⟩
      · exact ih (h.record hseq (applyWrite_effect happly)) hrest
    · exact ih ⟨h.disk, h.honest, h.covered⟩ hrest
    · exact ⟨h.disk, h.honest, h.covered⟩

/-! ## The condition and the invariant -/

/-- The steps under which an ack is honest. A pass that fetches writes has every path still owed among
those it will send; an owed file is sent when its turn comes, not passed over; and an owed
deletion is of a path the desk has a record of. -/
def Sends (pf : Platform) (d : World) : Action → Prop
  | .drain _ _ => ∀ pass ∈ d.pass, pass.job.drain = true → d.fetched pass ≠ [] →
      ∀ o ∈ d.owed, o.Covered pass.dirty pass.removed
  | .upload path _ => ∀ pass ∈ d.pass, pass.lastSeq ≠ none → ∀ o ∈ d.owed, o.path = path → ∀ bytes ∈ o.content,
      uploadDecision pf d.disk pass path = .send bytes
  | .tombstone path _ => ∀ pass ∈ d.pass, pass.lastSeq ≠ none → ∀ o ∈ d.owed, o.path = path → o.content = none →
      pass.state.files.get path ≠ none
  | _ => True

/-- What every step of a run that sends keeps. -/
structure Inv (d : World) : Prop where
  disk : ∀ o ∈ d.owed, d.disk.get o.path = o.content
  queued : ∀ row ∈ d.server.writes, d.server.ackedThroughSeq < row.seq
  latest : d.server.ackedThroughSeq ≤ d.server.latestSeq
  honest : ∀ o ∈ d.owed, d.server.ackedThroughSeq < o.seq
  fresh : ∀ pass ∈ d.pass, pass.stage = .draining → pass.lastSeq = none
  covered : ∀ pass ∈ d.pass, pass.lastSeq ≠ none → ∀ o ∈ d.owed, o.Covered pass.dirty pass.removed

/-- A failed pass leaves the server, the disk and the debts. -/
theorem Inv.fail {d : World} (disk : ∀ o ∈ d.owed, d.disk.get o.path = o.content)
    (queued : ∀ row ∈ d.server.writes, d.server.ackedThroughSeq < row.seq)
    (latest : d.server.ackedThroughSeq ≤ d.server.latestSeq)
    (honest : ∀ o ∈ d.owed, d.server.ackedThroughSeq < o.seq) (pass : Pass) (code : ErrorCode) :
    Inv (d.fail pass code) := by
  unfold World.fail
  split <;> exact ⟨disk, queued, latest, honest, (fun _ hpass => by cases hpass), (fun _ hpass => by cases hpass)⟩

/-- A server that one path's upload or tombstone touched, with the debts it settles. -/
theorem Inv.touched {d : World} (h : Inv d) {path : Path} {server : Server}
    (htouches : Server.Touches path d.server server) :
    (∀ o ∈ settle server d.owed, d.disk.get o.path = o.content) ∧
      (∀ row ∈ server.writes, server.ackedThroughSeq < row.seq) ∧ server.ackedThroughSeq ≤ server.latestSeq ∧
      (∀ o ∈ settle server d.owed, server.ackedThroughSeq < o.seq) := by
  rw [htouches.writes, htouches.acked, htouches.latestSeq]
  exact ⟨fun o ho => h.disk o (mem_settle.mp ho).1, h.queued, h.latest, fun o ho => h.honest o (mem_settle.mp ho).1⟩

theorem Inv.drain {pf : Platform} {d : World} (h : Inv d) {pass : Pass} (hpass : d.pass = some pass)
    (hfresh : pass.lastSeq = none) {fetch : Fate} {faulty : List ℕ} (hsends : Sends pf d (.drain fetch faulty)) :
    Inv (d.drain pf pass fetch faulty) := by
  unfold World.drain
  split
  · refine ⟨h.disk, h.queued, h.latest, h.honest, fun after hafter hstage => ?_, fun after hafter hlast => ?_⟩
    · obtain rfl := Option.some.inj hafter
      cases hstage
    · obtain rfl := Option.some.inj hafter
      exact absurd hfresh hlast
  · rename_i hdrain
    have hdrain : pass.job.drain = true := by simpa using hdrain
    split
    · exact Inv.fail h.disk h.queued h.latest h.honest pass _
    · exact Inv.fail h.disk h.queued h.latest h.honest pass _
    · dsimp only
      have hrows : ∀ row ∈ d.fetched pass, d.server.ackedThroughSeq < row.seq := fun row hrow =>
        h.queued row (List.mem_filter.mp hrow).1
      by_cases hempty : d.fetched pass = []
      · rw [hempty]
        refine ⟨fun o ho => h.disk o (mem_settle.mp ho).1, h.queued, h.latest,
          fun o ho => h.honest o (mem_settle.mp ho).1, fun after hafter hstage => ?_, fun after hafter hlast => ?_⟩
        · obtain rfl := Option.some.inj hafter
          cases hstage
        · obtain rfl := Option.some.inj hafter
          exact absurd rfl hlast
      · have hstart : Drained.Sound d.server.ackedThroughSeq pass.dirty pass.removed { disk := d.disk, owed := d.owed } := by
          refine ⟨h.disk, h.honest, fun o ho => ?_⟩
          simpa using hsends pass hpass hdrain hempty o ho
        have hsound : (drainRows pf faulty.contains (d.fetched pass) { disk := d.disk, owed := d.owed }).Sound
            d.server.ackedThroughSeq pass.dirty pass.removed := drainRows_sound hstart hrows
        refine ⟨fun o ho => hsound.disk o (mem_settle.mp ho).1, h.queued, h.latest,
          fun o ho => hsound.honest o (mem_settle.mp ho).1, fun after hafter hstage => ?_,
          fun after hafter _ o ho => ?_⟩
        · obtain rfl := Option.some.inj hafter
          cases hstage
        · obtain rfl := Option.some.inj hafter
          exact hsound.covered o (mem_settle.mp ho).1

theorem Inv.upload {pf : Platform} {d : World} (h : Inv d) {pass : Pass} (hpass : d.pass = some pass) {path : Path}
    {fates : List Fate} (hsends : Sends pf d (.upload path fates)) : Inv (d.upload pf pass path fates) := by
  -- A debt of another path keeps its place among the paths to send.
  have hother (owed : List Owed) (hsub : ∀ o ∈ owed, o ∈ d.owed) (hleft : ∀ o ∈ owed, o.path = path → o.content = none)
      (hlast : pass.lastSeq ≠ none) : ∀ o ∈ owed, o.Covered (pass.dirty.filter (· ≠ path)) pass.removed := by
    intro o ho
    have hcovered := h.covered pass hpass hlast o (hsub o ho)
    refine ⟨fun hsome => ?_, hcovered.vacated⟩
    rw [List.mem_filter]
    exact ⟨hcovered.changed hsome, by simpa using fun heq => hsome (hleft o ho heq)⟩
  have passed (hnot : ∀ bytes, uploadDecision pf d.disk pass path ≠ .send bytes) :
      Inv { d with pass := some { pass with dirty := pass.dirty.filter (· ≠ path) } } := by
    refine ⟨h.disk, h.queued, h.latest, h.honest, fun after hafter hstage => ?_, fun after hafter hlast => ?_⟩
    · obtain rfl := Option.some.inj hafter
      exact h.fresh pass hpass hstage
    obtain rfl := Option.some.inj hafter
    refine hother d.owed (fun _ ho => ho) (fun o ho heq => ?_) hlast
    cases hcontent : o.content with
    | none => rfl
    | some bytes => exact absurd (hsends pass hpass hlast o ho heq bytes hcontent) (hnot bytes)
  unfold World.upload
  dsimp only
  split
  · rename_i bytes hdecision
    cases hupload : uploadFile path bytes 2 (((pass.state.files.get path).map FileRecord.version).getD 0) fates
        d.server with
    | mk server result =>
      obtain ⟨htouches, hcontent⟩ := uploadFile_spec hupload
      obtain ⟨hdisk, hqueued, hlatest, hhonest⟩ := h.touched htouches
      cases result with
      | error code => exact Inv.fail hdisk hqueued hlatest hhonest pass code
      | ok version =>
        refine ⟨hdisk, hqueued, hlatest, hhonest, fun after hafter hstage => ?_, fun after hafter hlast => ?_⟩
        · obtain rfl := Option.some.inj hafter
          exact h.fresh pass hpass hstage
        obtain rfl := Option.some.inj hafter
        refine hother _ (fun o ho => (mem_settle.mp ho).1) (fun o ho heq => ?_) hlast
        obtain ⟨hold, hunsettled⟩ := mem_settle.mp ho
        cases howed : o.content with
        | none => rfl
        | some owedBytes =>
          have hsent := hsends pass hpass hlast o hold heq owedBytes howed
          rw [hdecision] at hsent
          injection hsent with hsame
          rw [heq, hcontent version rfl, howed, hsame] at hunsettled
          exact absurd rfl hunsettled
  · rename_i hnot
    exact passed hnot

theorem Inv.tombstone {pf : Platform} {d : World} (h : Inv d) {pass : Pass} (hpass : d.pass = some pass)
    {path : Path} {fates : List Fate} (hsends : Sends pf d (.tombstone path fates)) :
    Inv (d.tombstone pass path fates) := by
  have hother (owed : List Owed) (hsub : ∀ o ∈ owed, o ∈ d.owed) (hleft : ∀ o ∈ owed, o.path = path → o.content ≠ none)
      (hlast : pass.lastSeq ≠ none) : ∀ o ∈ owed, o.Covered pass.dirty (pass.removed.filter (· ≠ path)) := by
    intro o ho
    have hcovered := h.covered pass hpass hlast o (hsub o ho)
    refine ⟨hcovered.changed, fun hnone => ?_⟩
    rw [List.mem_filter]
    exact ⟨hcovered.vacated hnone, by simpa using fun heq => hleft o ho heq hnone⟩
  unfold World.tombstone
  dsimp only
  split
  · rename_i hrecord
    refine ⟨h.disk, h.queued, h.latest, h.honest, fun after hafter hstage => ?_, fun after hafter hlast => ?_⟩
    · obtain rfl := Option.some.inj hafter
      exact h.fresh pass hpass hstage
    obtain rfl := Option.some.inj hafter
    refine hother d.owed (fun _ ho => ho) (fun o ho heq hnone => ?_) hlast
    exact hsends pass hpass hlast o ho heq hnone hrecord
  · rename_i record hrecord
    cases htombstone : tombstonePath path record.version fates d.server with
    | mk server result =>
      obtain ⟨htouches, hgone⟩ := tombstonePath_spec htombstone
      obtain ⟨hdisk, hqueued, hlatest, hhonest⟩ := h.touched htouches
      cases result with
      | error code => exact Inv.fail hdisk hqueued hlatest hhonest pass code
      | ok version =>
        refine ⟨hdisk, hqueued, hlatest, hhonest, fun after hafter hstage => ?_, fun after hafter hlast => ?_⟩
        · obtain rfl := Option.some.inj hafter
          exact h.fresh pass hpass hstage
        obtain rfl := Option.some.inj hafter
        refine hother _ (fun o ho => (mem_settle.mp ho).1) (fun o ho heq hnone => ?_) hlast
        obtain ⟨hold, hunsettled⟩ := mem_settle.mp ho
        rw [heq, hgone version rfl, hnone] at hunsettled
        exact hunsettled rfl

theorem Inv.finish {d : World} (h : Inv d) {pass : Pass} (hpass : d.pass = some pass) (hdirty : pass.dirty = [])
    (hremoved : pass.removed = []) (ack summary : Fate) (saved : Bool) (info : ℕ × ℕ) :
    Inv (d.finish pass ack summary saved info) := by
  -- With nothing left to send, a pass that acks owes nothing.
  have hpaid : pass.lastSeq ≠ none → d.owed = [] := by
    intro hlast
    rw [List.eq_nil_iff_forall_not_mem]
    intro o ho
    have hcovered := h.covered pass hpass hlast o ho
    rw [hdirty, hremoved] at hcovered
    by_cases hnone : o.content = none
    · exact absurd (hcovered.vacated hnone) List.not_mem_nil
    · exact absurd (hcovered.changed hnone) List.not_mem_nil
  have settled (server : Server) (acked : Except ErrorCode ℕ) (hdisk : ∀ o ∈ d.owed, d.disk.get o.path = o.content)
      (hqueued : ∀ row ∈ server.writes, server.ackedThroughSeq < row.seq)
      (hlatest : server.ackedThroughSeq ≤ server.latestSeq)
      (hhonest : ∀ o ∈ d.owed, server.ackedThroughSeq < o.seq) :
      Inv (World.settled { d with server } pass acked summary saved info) := by
    unfold World.settled
    split
    · exact Inv.fail (d := { d with server }) hdisk hqueued hlatest hhonest pass _
    · exact Inv.fail (d := { d with server }) hdisk hqueued hlatest hhonest pass _
    · exact Inv.fail (d := { d with server }) hdisk hqueued hlatest hhonest pass _
    · split
      · exact Inv.fail (d := { d with server }) hdisk hqueued hlatest hhonest pass _
      · exact ⟨hdisk, hqueued, hlatest, hhonest, (fun _ hpass => by cases hpass), (fun _ hpass => by cases hpass)⟩
  unfold World.finish
  cases hlast : pass.lastSeq with
  | none => exact settled d.server _ h.disk h.queued h.latest h.honest
  | some seq =>
    have hnone : d.owed = [] := hpaid (by rw [hlast]; exact Option.some_ne_none seq)
    cases hack : call ack (Server.ack seq) d.server with
    | mk server acked =>
      have hserver : (∀ row ∈ server.writes, server.ackedThroughSeq < row.seq) ∧
          server.ackedThroughSeq ≤ server.latestSeq := by
        rcases call_cases hack with ⟨rfl, -⟩ | ⟨answer, heffect, -⟩
        · exact ⟨h.queued, h.latest⟩
        · unfold Server.ack at heffect
          split at heffect
          · cases heffect
          · rename_i hknown
            split at heffect
            · obtain ⟨rfl, -⟩ := Prod.mk.inj (Except.ok.inj heffect)
              exact ⟨h.queued, h.latest⟩
            · obtain ⟨rfl, -⟩ := Prod.mk.inj (Except.ok.inj heffect)
              exact ⟨fun row hrow => by simpa using (List.mem_filter.mp hrow).2, Nat.le_of_not_lt hknown⟩
      dsimp only
      rw [hack]
      refine settled server acked h.disk hserver.1 hserver.2 fun o ho => ?_
      rw [hnone] at ho
      exact absurd ho List.not_mem_nil

/-- Every step that sends keeps the invariant. -/
theorem Inv.step {pf : Platform} {d t : World} {action : Action} (h : Inv d) (hsends : Sends pf d action)
    (hstep : d.step pf action = some t) : Inv t := by
  cases action with
  | post path clientId payload =>
    obtain rfl := Option.some.inj hstep
    refine ⟨h.disk, fun row hrow => ?_, Nat.le_succ_of_le h.latest, h.honest, h.fresh, h.covered⟩
    rcases List.mem_append.mp hrow with hold | hnew
    · exact h.queued row hold
    · rw [List.mem_singleton.mp hnew]
      exact Nat.lt_succ_of_le h.latest
  | watch path =>
    obtain rfl := Option.some.inj hstep
    unfold World.handleProjectEvent
    split
    · exact h
    · split <;> exact ⟨h.disk, h.queued, h.latest, h.honest, h.fresh, h.covered⟩
  | poll =>
    obtain rfl := Option.some.inj hstep
    exact ⟨h.disk, h.queued, h.latest, h.honest, h.fresh, h.covered⟩
  | syncNow =>
    obtain rfl := Option.some.inj hstep
    exact ⟨h.disk, h.queued, h.latest, h.honest, h.fresh, h.covered⟩
  | restart =>
    simp only [World.step] at hstep
    split at hstep
    · cases hstep
    · obtain rfl := Option.some.inj hstep
      exact ⟨h.disk, h.queued, h.latest, h.honest, h.fresh, h.covered⟩
  | start unlisted unread =>
    simp only [World.step, World.start] at hstep
    split at hstep
    · cases hstep
    · obtain rfl := Option.some.inj hstep
      refine ⟨h.disk, h.queued, h.latest, h.honest, fun after hafter _ => ?_, fun after hafter hlast => ?_⟩
      · obtain rfl := Option.some.inj hafter
        rfl
      · obtain rfl := Option.some.inj hafter
        exact absurd rfl hlast
  | drain fetch faulty =>
    simp only [World.step] at hstep
    split at hstep
    · rename_i pass hpass
      split at hstep
      · rename_i hstage
        obtain rfl := Option.some.inj hstep
        exact h.drain hpass (h.fresh pass hpass hstage) hsends
      · cases hstep
    · cases hstep
  | upload path fates =>
    simp only [World.step] at hstep
    split at hstep
    · rename_i pass hpass
      split at hstep
      · obtain rfl := Option.some.inj hstep
        exact h.upload hpass hsends
      · cases hstep
    · cases hstep
  | tombstone path fates =>
    simp only [World.step] at hstep
    split at hstep
    · rename_i pass hpass
      split at hstep
      · obtain rfl := Option.some.inj hstep
        exact h.tombstone hpass hsends
      · cases hstep
    · cases hstep
  | finish ack summary saved info =>
    simp only [World.step] at hstep
    split at hstep
    · rename_i pass hpass
      split at hstep
      · rename_i hready
        obtain rfl := Option.some.inj hstep
        exact h.finish hpass hready.2.1 hready.2.2 ack summary saved info
      · cases hstep
    · cases hstep

/-- The steps of the desk as a relation. -/
def Steps (pf : Platform) (d : World) (action : Action) (t : World) : Prop := d.step pf action = some t

/-- A desk and a server that owe each other nothing, between passes. -/
structure World.Idle (d : World) : Prop where
  owed : d.owed = []
  pass : d.pass = none
  queued : ∀ row ∈ d.server.writes, d.server.ackedThroughSeq < row.seq
  latest : d.server.ackedThroughSeq ≤ d.server.latestSeq

/-- In every run whose passes send what is owed, whatever calls fail in between, what the acked writes
changed on disk has been on the server: nothing of theirs is owed. -/
theorem acked_writes_are_sent {pf : Platform} {d t : World} {actions : List Action} (hidle : d.Idle)
    (run : Run (Guarded (Steps pf) (Sends pf)) d actions t) :
    ∀ o ∈ t.owed, t.server.ackedThroughSeq < o.seq := by
  have hstart : Inv d := by
    refine ⟨fun o ho => ?_, hidle.queued, hidle.latest, fun o ho => ?_, fun pass hpass => ?_, fun pass hpass => ?_⟩
    · rw [hidle.owed] at ho
      exact absurd ho List.not_mem_nil
    · rw [hidle.owed] at ho
      exact absurd ho List.not_mem_nil
    · rw [hidle.pass] at hpass
      cases hpass
    · rw [hidle.pass] at hpass
      cases hpass
  exact (run.invariant Inv (fun _ _ _ h step => h.step step.1 step.2) hstart).honest

instance (pf : Platform) (d : World) : ∀ action, Decidable (Sends pf d action)
  | .drain _ _ => by unfold Sends; infer_instance
  | .upload _ _ => by unfold Sends; infer_instance
  | .tombstone _ _ => by unfold Sends; infer_instance
  | .post _ _ _ => isTrue trivial
  | .watch _ => isTrue trivial
  | .poll => isTrue trivial
  | .syncNow => isTrue trivial
  | .restart => isTrue trivial
  | .start _ _ => isTrue trivial
  | .finish _ _ _ _ => isTrue trivial

/-! ## A retried batch -/

/-- A platform that opens one picture and one move. -/
def samplePlatform : Platform where
  prim := ⟨Char.isAlphanum, fun c => [c.toLower], fun t => t.map Char.toLower, id⟩
  isNfc := fun _ => true
  plaintextHash := fun bytes => bytes.map fun b => Char.ofNat b.toNat
  decodeBase64 := fun text => if text = "AQ==".toList then some [1] else none
  openPayload := fun clientId payload =>
    if payload = "picture".toList then .ok ⟨1, clientId, "images/a.png".toList, .putFile "AQ==".toList [Char.ofNat 1]⟩
    else .ok ⟨1, clientId, "inbox/a.md".toList, .moveFile "archives/inbox/a.md".toList⟩
  templateSeed := fun _ _ => none
  imagesDir := "images".toList

/-- A vault with one note in its inbox, which the server has. -/
def inboxWorld : World where
  disk := [("inbox/a.md".toList, [97])]
  server := { rows := [("inbox/a.md".toList, ⟨1, some [97]⟩)], latestVersion := 1 }
  state := { files := [("inbox/a.md".toList, ⟨1, ['a']⟩)] }

/-- A pass that moves the note and fails to upload it, the watcher's events, and the pass after. -/
def retriedMove : List Action :=
  [.post "inbox/a.md".toList "c".toList "move".toList, .poll, .start [] [], .drain .answered [],
    .upload "archives/inbox/a.md".toList [.failed .other], .watch "inbox/a.md".toList,
    .watch "archives/inbox/a.md".toList, .start [] [], .drain .answered [], .upload "archives/inbox/a.md".toList [],
    .tombstone "inbox/a.md".toList [], .finish .answered .answered true (0, 0)]

theorem inboxWorld_idle : inboxWorld.Idle := ⟨rfl, rfl, (fun row hrow => by cases hrow), le_rfl⟩

/-- A failed pass whose events reach the next one is acked honestly. -/
theorem retried_move_is_sent :
    ∃ t, follow (allow (Sends samplePlatform) (World.step samplePlatform)) inboxWorld retriedMove = some t ∧
      t.server.ackedThroughSeq = 1 ∧ ∀ o ∈ t.owed, t.server.ackedThroughSeq < o.seq := by
  have hacked : (follow (allow (Sends samplePlatform) (World.step samplePlatform)) inboxWorld retriedMove).map
      (fun t => t.server.ackedThroughSeq) = some 1 := by decide +kernel
  obtain ⟨t, ht, hone⟩ := Option.map_eq_some_iff.mp hacked
  exact ⟨t, ht, hone, acked_writes_are_sent inboxWorld_idle (Run.of_follow_allow (fun _ _ _ hstep => hstep) ht)⟩

/-- A pass that writes a picture and fails to upload it, and the pass after. -/
def retriedPicture : List Action :=
  [.post "images/a.png".toList "c".toList "picture".toList, .poll, .start [] [], .drain .answered [],
    .upload "images/a.png".toList [.failed .other], .watch "images/a.png".toList, .start [] [], .drain .answered [],
    .finish .answered .answered true (0, 0)]

/-- A picture whose first upload fails is acked by the next pass and never sent: the retry finds the
file on disk, and the watcher's event for it is not taken in. -/
theorem retried_picture_is_owed :
    ∃ (pf : Platform) (d t : World) (actions : List Action), d.Idle ∧ Run (Steps pf) d actions t ∧
      ∃ o ∈ t.owed, o.seq ≤ t.server.ackedThroughSeq := by
  have howed : ((follow (World.step samplePlatform) inboxWorld retriedPicture).any
      fun t => t.owed.any fun o => decide (o.seq ≤ t.server.ackedThroughSeq)) = true := by decide +kernel
  obtain ⟨t, ht, hany⟩ := (Option.any_eq_true _ _).mp howed
  obtain ⟨o, ho, hacked⟩ := List.any_eq_true.mp hany
  exact ⟨samplePlatform, inboxWorld, t, retriedPicture, inboxWorld_idle, Run.of_follow (fun _ _ _ hstep => hstep) ht,
    o, ho, of_decide_eq_true hacked⟩

end Thock.Desk.VaultSync
