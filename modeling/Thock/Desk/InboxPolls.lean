import Thock.Desk.InboxCapture

/-!
# The inbox service's polls

A poll of the inbox service as the steps it awaits: the saved state is read once for a provider, the landing folder
and the log are scanned, the plan is made, each note is looked for and written, and the saved state is read again and
rewritten with the new records. Files may come and go between any two steps, and every read and write may fail.

A note that finds a file of its name is passed over and recorded all the same, and a failed read is taken for an empty
file. Runs in which neither happens before a rewrite keep the record honest and lose nothing of it.
-/

namespace Thock.Desk.Inbox.Polls

open TextScan SyncCore Transition

/-- A line of `imported.jsonl`. -/
structure StateEntry where
  record : ImportRecord
  at_ : Text
deriving DecidableEq

/-- What is recorded once the notes are written. -/
structure Saving where
  records : List ImportRecord
  capturedAt : Text
deriving DecidableEq

/-- How far a poll is. -/
inductive Stage
  | idle
  /-- The digests taken so far are known. -/
  | loaded (imported : List Text)
  /-- The digests and the names in the vault are known as well. -/
  | scanned (imported digests stems : List Text)
  /-- The notes still to be written; the name of the first was found free if the flag is set. -/
  | writing (files : List InboxFile) (free : Bool) (saving : Saving)
  /-- What was read of the saved state. -/
  | opened (contents : List StateEntry) (saving : Saving)
  | saved (records : List ImportRecord)
deriving DecidableEq

/-- The landing folder, the triage log, the saved state and what the service keeps of it, and the digests carried by
any note that was ever in the vault. -/
structure World where
  notes : List InboxNote
  log : Text
  file : Option (List StateEntry)
  cache : Option (List Text)
  stage : Stage
  carried : List Text
deriving DecidableEq

def digests (entries : List StateEntry) : List Text := entries.map fun entry => entry.record.digest

/-- The digests recorded in the saved state. -/
def World.recorded (w : World) : List Text := digests (w.file.getD [])

inductive Action
  /-- `imported_state`: the saved state is read, or the read fails. -/
  | load (reads : Bool)
  /-- `scan_vault`: the folder is listed but for some notes that cannot be read, and the log is read, or not. -/
  | scan (listed : Bool) (unread : List Text) (logReads : Bool)
  /-- `plan_inbox_capture` for what the sources returned. -/
  | plan (account dir : Text) (items : List CapturedItem) (capturedAt : Text)
  /-- A note's name is looked for. -/
  | check
  /-- A note is written, or making the folder or writing fails. -/
  | write (writes : Bool)
  /-- `append_state` reads the saved state, or the read fails. -/
  | open_ (reads : Bool)
  /-- `append_state` rewrites it, or the write fails. -/
  | save (writes : Bool)
  /-- The service's own copy is brought up to date. -/
  | remember
  /-- The poll is dropped where it waits. -/
  | stop
  /-- The account or the configuration changed. -/
  | reset
  /-- Files appear, move or vanish in the folder, and the log is written. -/
  | edit (notes : List InboxNote) (log : Text)

def noteDigests (notes : List InboxNote) : List Text := notes.filterMap fun note => inboxNoteDigest note.content

/-- One step, unless the poll is elsewhere; a log names only digests that notes carried. -/
def World.step (host : Host) (w : World) : Action → Option World
  | .load reads =>
    match w.stage, w.cache with
    | .idle, some imported => some { w with stage := .loaded imported }
    | .idle, none =>
      let imported := if reads then w.recorded else []
      some { w with cache := some imported, stage := .loaded imported }
    | _, _ => none
  | .scan listed unread logReads =>
    match w.stage with
    | .loaded imported =>
      let seen := if listed then w.notes else []
      let read := noteDigests (seen.filter fun note => !unread.contains note.stem)
      some { w with
        stage := .scanned imported (read ++ if logReads then scanTriageLogMarkers w.log else []) (seen.map InboxNote.stem) }
    | _ => none
  | .plan account dir items capturedAt =>
    match w.stage with
    | .scanned imported digests stems =>
      let plan := planInboxCapture ⟨host, account, imported, digests, dir, capturedAt⟩ items stems
      if plan.files.isEmpty && plan.newlyImported.isEmpty then some { w with stage := .idle }
      else some { w with stage := .writing plan.files false ⟨plan.newlyImported, capturedAt⟩ }
    | _ => none
  | .check =>
    match w.stage with
    | .writing (file :: rest) false saving =>
      if file.stem ∈ w.notes.map InboxNote.stem then
        some { w with stage := .writing rest false saving }
      else some { w with stage := .writing (file :: rest) true saving }
    | _ => none
  | .write writes =>
    match w.stage with
    | .writing (file :: rest) true saving =>
      if writes then
        some { w with
          notes := w.notes.filter (fun note => note.stem ≠ file.stem) ++ [⟨file.stem, file.content⟩]
          carried := w.carried ++ (inboxNoteDigest file.content).toList
          stage := .writing rest false saving }
      else some { w with stage := .idle }
    | _ => none
  | .open_ reads =>
    match w.stage with
    | .writing [] false saving =>
      if saving.records.isEmpty then some { w with stage := .saved [] }
      else some { w with stage := .opened (if reads then w.file.getD [] else []) saving }
    | _ => none
  | .save writes =>
    match w.stage with
    | .opened contents saving =>
      if writes then
        some { w with
          file := some (contents ++ saving.records.map fun record => ⟨record, saving.capturedAt⟩)
          stage := .saved saving.records }
      else some { w with stage := .idle }
    | _ => none
  | .remember =>
    match w.stage with
    | .saved records =>
      some { w with cache := w.cache.map (· ++ records.map ImportRecord.digest), stage := .idle }
    | _ => none
  | .stop => some { w with stage := .idle }
  | .reset => some { w with cache := none, stage := .idle }
  | .edit notes log =>
    let carried := w.carried ++ noteDigests notes
    if ∀ digest ∈ scanTriageLogMarkers log, digest ∈ carried then some { w with notes, log, carried } else none

def Next (host : Host) (w : World) (action : Action) (t : World) : Prop := w.step host action = some t

/-- No poll is under way, and what the folder, the log and the saved state name was carried by a note. -/
structure Initial (w : World) : Prop where
  idle : w.stage = .idle
  notes : ∀ digest ∈ noteDigests w.notes, digest ∈ w.carried
  log : ∀ digest ∈ scanTriageLogMarkers w.log, digest ∈ w.carried
  file : ∀ digest ∈ w.recorded, digest ∈ w.carried

/-- A note that is passed over is of a digest that some note carried, and a read that fails before a rewrite leaves
no digest out that is not recorded anew. -/
def Careful (w : World) (action : Action) : Prop :=
  match action, w.stage with
  | .check, .writing (file :: _) false _ => file.stem ∈ w.notes.map InboxNote.stem → file.digest ∈ w.carried
  | .open_ false, .writing [] false saving => ∀ digest ∈ w.recorded, digest ∈ saving.records.map ImportRecord.digest
  | _, _ => True

instance (w : World) (action : Action) : Decidable (Careful w action) := by
  unfold Careful
  split <;> infer_instance

/-! ## What a plan records -/

/-- A record is of a digest found in the vault or of a note of the plan. -/
theorem recorded_of_mem (poll : Poll) (items : List CapturedItem) (planned claimed : List Text) :
    ∀ record ∈ (poll.planFrom items planned claimed).newlyImported,
      record.digest ∈ poll.vaultDigests ∨
        record.digest ∈ (poll.planFrom items planned claimed).files.map InboxFile.digest := by
  induction items generalizing planned claimed with
  | nil => exact fun record h => absurd h List.not_mem_nil
  | cons item rest ih =>
    intro record hrecord
    simp only [Poll.planFrom] at hrecord ⊢
    split
    · next hknown =>
      rw [if_pos hknown] at hrecord
      exact ih planned claimed record hrecord
    · next hknown =>
      rw [if_neg hknown] at hrecord
      split
      · next hvault =>
        rw [if_pos hvault] at hrecord
        cases List.mem_cons.mp hrecord with
        | inl heq =>
          rw [heq]
          exact Or.inl (by simpa using hvault)
        | inr hrest => exact ih _ _ record hrest
      · next hvault =>
        rw [if_neg hvault] at hrecord
        cases List.mem_cons.mp hrecord with
        | inl heq =>
          rw [heq]
          exact Or.inr List.mem_cons_self
        | inr hrest => exact (ih _ _ record hrest).imp_right (List.mem_cons_of_mem _)

/-- A planned note reads back as the item's it is for. -/
theorem reads_of_mem (poll : Poll) (items : List CapturedItem) (planned claimed : List Text) :
    ∀ file ∈ (poll.planFrom items planned claimed).files, inboxNoteDigest file.content = some file.digest := by
  intro file hfile
  obtain ⟨item, -, hdigest, hcontent⟩ := (poll.fresh_of_mem items planned claimed file hfile).item
  rw [hcontent, hdigest]
  exact inboxNoteDigest_render poll.host poll.account item _ _

/-! ## The record over a run -/

/-- What is known at a stage of the digests that may be recorded from there, and of those that are. -/
def StageHolds (carried recorded : List Text) : Stage → Prop
  | .idle | .loaded _ | .saved _ => True
  | .scanned _ digests _ => ∀ digest ∈ digests, digest ∈ carried
  | .writing files _ saving =>
    (∀ file ∈ files, inboxNoteDigest file.content = some file.digest) ∧
      ∀ record ∈ saving.records, record.digest ∈ carried ∨ record.digest ∈ files.map InboxFile.digest
  | .opened contents saving =>
    (∀ digest ∈ digests contents, digest ∈ carried) ∧ (∀ record ∈ saving.records, record.digest ∈ carried) ∧
      ∀ digest ∈ recorded, digest ∈ digests contents ∨ digest ∈ saving.records.map ImportRecord.digest

structure Inv (w : World) : Prop where
  notes : ∀ digest ∈ noteDigests w.notes, digest ∈ w.carried
  log : ∀ digest ∈ scanTriageLogMarkers w.log, digest ∈ w.carried
  honest : ∀ digest ∈ w.recorded, digest ∈ w.carried
  stage : StageHolds w.carried w.recorded w.stage

variable {host : Host} {w t : World}

/-- What holds at a stage holds when more digests were carried. -/
theorem StageHolds.mono {carried more recorded : List Text} {stage : Stage} (h : StageHolds carried recorded stage)
    (hmore : ∀ digest ∈ carried, digest ∈ more) : StageHolds more recorded stage := by
  cases stage with
  | idle => trivial
  | loaded imported => trivial
  | saved records => trivial
  | scanned imported digests stems => exact fun digest hdigest => hmore digest (h digest hdigest)
  | writing files free saving => exact ⟨h.1, fun record hrecord => (h.2 record hrecord).imp_left (hmore _)⟩
  | opened contents saving =>
    exact ⟨fun digest hdigest => hmore digest (h.1 digest hdigest), fun record hrecord => hmore _ (h.2.1 record hrecord),
      h.2.2⟩

/-- A record of a note still to be written is of the first of them or of one after it. -/
theorem carried_or_rest {carried : List Text} {file : InboxFile} {rest : List InboxFile} {digest : Text}
    (h : digest ∈ carried ∨ digest ∈ (file :: rest).map InboxFile.digest) (hfile : file.digest ∈ carried) :
    digest ∈ carried ∨ digest ∈ rest.map InboxFile.digest := by
  cases h with
  | inl hcarried => exact Or.inl hcarried
  | inr hlater =>
    rw [List.map_cons] at hlater
    cases List.mem_cons.mp hlater with
    | inl heq => exact Or.inl (heq ▸ hfile)
    | inr hrest => exact Or.inr hrest

theorem digests_append (entries : List StateEntry) (records : List ImportRecord) (at_ : Text) :
    digests (entries ++ records.map fun record => ⟨record, at_⟩) = digests entries ++ records.map ImportRecord.digest := by
  rw [digests, digests, List.map_append, List.map_map]
  rfl

/-- The digests recorded by a rewrite were read or are new. -/
theorem recorded_save {contents : List StateEntry} {saving : Saving} :
    (World.recorded { w with
      file := some (contents ++ saving.records.map fun record => ⟨record, saving.capturedAt⟩)
      stage := .saved saving.records }) = digests contents ++ saving.records.map ImportRecord.digest :=
  digests_append _ _ _

/-- A scan finds only digests that notes carried. -/
theorem Inv.scanned (h : Inv w) (listed : Bool) (unread : List Text) (logReads : Bool) :
    ∀ digest ∈ noteDigests ((if listed then w.notes else []).filter fun note => !unread.contains note.stem) ++
      (if logReads then scanTriageLogMarkers w.log else []), digest ∈ w.carried := by
  intro digest hdigest
  cases List.mem_append.mp hdigest with
  | inl hnote =>
    obtain ⟨note, hmem, hread⟩ := List.mem_filterMap.mp hnote
    have hseen := (List.mem_filter.mp hmem).1
    split at hseen
    · exact h.notes digest (List.mem_filterMap.mpr ⟨note, hseen, hread⟩)
    · exact absurd hseen List.not_mem_nil
  | inr hlog =>
    split at hlog
    · exact h.log digest hlog
    · exact absurd hlog List.not_mem_nil

/-- A written note carries its digest from then on. -/
theorem Inv.write (h : Inv w) {file : InboxFile} {rest : List InboxFile} {free : Bool} {saving : Saving}
    (hstage : w.stage = .writing (file :: rest) free saving) :
    Inv { w with
      notes := w.notes.filter (fun note => note.stem ≠ file.stem) ++ [⟨file.stem, file.content⟩]
      carried := w.carried ++ (inboxNoteDigest file.content).toList
      stage := .writing rest false saving } := by
  have hmore : ∀ digest ∈ w.carried, digest ∈ w.carried ++ (inboxNoteDigest file.content).toList :=
    fun digest hdigest => List.mem_append_left _ hdigest
  have hwriting := h.stage
  rw [hstage] at hwriting
  obtain ⟨hreads, hrecords⟩ := hwriting
  have hread := hreads file List.mem_cons_self
  refine ⟨?_, fun digest hdigest => hmore digest (h.log digest hdigest),
    fun digest hdigest => hmore digest (h.honest digest hdigest), ?_, ?_⟩
  · intro digest hdigest
    rw [noteDigests, List.filterMap_append, List.mem_append] at hdigest
    cases hdigest with
    | inl hold =>
      obtain ⟨note, hnote, hold⟩ := List.mem_filterMap.mp hold
      exact hmore digest (h.notes digest (List.mem_filterMap.mpr ⟨note, (List.mem_filter.mp hnote).1, hold⟩))
    | inr hnew =>
      obtain ⟨note, hnote, hnew⟩ := List.mem_filterMap.mp hnew
      rw [List.mem_singleton.mp hnote] at hnew
      rw [hnew]
      exact List.mem_append_right _ (List.mem_singleton_self _)
  · exact fun other hother => hreads other (List.mem_cons_of_mem file hother)
  · intro record hrecord
    apply carried_or_rest ((hrecords record hrecord).imp_left (hmore _))
    rw [hread]
    exact List.mem_append_right _ (List.mem_singleton_self _)

/-- A step of a careful run keeps the record honest. -/
theorem Inv.next {action : Action} (h : Inv w) (hcareful : Careful w action) (hstep : Next host w action t) : Inv t := by
  have hholds := h.stage
  cases action with
  | load reads =>
    simp only [Next, World.step] at hstep
    split at hstep
    · exact Option.some.inj hstep ▸ ⟨h.notes, h.log, h.honest, trivial⟩
    · exact Option.some.inj hstep ▸ ⟨h.notes, h.log, h.honest, trivial⟩
    · cases hstep
  | scan listed unread logReads =>
    simp only [Next, World.step] at hstep
    split at hstep
    · exact Option.some.inj hstep ▸ ⟨h.notes, h.log, h.honest, h.scanned listed unread logReads⟩
    · cases hstep
  | plan account dir items capturedAt =>
    simp only [Next, World.step] at hstep
    split at hstep
    · next imported digests stems hstage =>
      rw [hstage] at hholds
      split at hstep
      · exact Option.some.inj hstep ▸ ⟨h.notes, h.log, h.honest, trivial⟩
      · obtain rfl := Option.some.inj hstep
        refine ⟨h.notes, h.log, h.honest, reads_of_mem _ _ _ _, ?_⟩
        intro record hrecord
        exact (recorded_of_mem _ _ _ _ record hrecord).imp_left (hholds _)
    · cases hstep
  | check =>
    simp only [Next, World.step] at hstep
    split at hstep
    · next file rest saving hstage =>
      rw [hstage] at hholds
      obtain ⟨hreads, hrecords⟩ := hholds
      simp only [Careful, hstage] at hcareful
      split at hstep
      · next htaken =>
        obtain rfl := Option.some.inj hstep
        exact ⟨h.notes, h.log, h.honest, fun other hother => hreads other (List.mem_cons_of_mem file hother),
          fun record hrecord => carried_or_rest (hrecords record hrecord) (hcareful htaken)⟩
      · exact Option.some.inj hstep ▸ ⟨h.notes, h.log, h.honest, hreads, hrecords⟩
    · cases hstep
  | write writes =>
    simp only [Next, World.step] at hstep
    split at hstep
    · next file rest saving hstage =>
      split at hstep
      · exact Option.some.inj hstep ▸ h.write hstage
      · exact Option.some.inj hstep ▸ ⟨h.notes, h.log, h.honest, trivial⟩
    · cases hstep
  | open_ reads =>
    simp only [Next, World.step] at hstep
    split at hstep
    · next saving hstage =>
      rw [hstage] at hholds
      have hrecords : ∀ record ∈ saving.records, record.digest ∈ w.carried := fun record hrecord =>
        (hholds.2 record hrecord).resolve_right List.not_mem_nil
      split at hstep
      · exact Option.some.inj hstep ▸ ⟨h.notes, h.log, h.honest, trivial⟩
      · obtain rfl := Option.some.inj hstep
        cases reads with
        | true => exact ⟨h.notes, h.log, h.honest, h.honest, hrecords, fun digest hdigest => Or.inl hdigest⟩
        | false =>
          simp only [Careful, hstage] at hcareful
          exact ⟨h.notes, h.log, h.honest, fun digest hdigest => absurd hdigest List.not_mem_nil, hrecords,
            fun digest hdigest => Or.inr (hcareful digest hdigest)⟩
    · cases hstep
  | save writes =>
    simp only [Next, World.step] at hstep
    split at hstep
    · next contents saving hstage =>
      rw [hstage] at hholds
      split at hstep
      · obtain rfl := Option.some.inj hstep
        refine ⟨h.notes, h.log, ?_, trivial⟩
        intro digest hdigest
        rw [recorded_save] at hdigest
        cases List.mem_append.mp hdigest with
        | inl hread => exact hholds.1 digest hread
        | inr hnew =>
          obtain ⟨record, hrecord, rfl⟩ := List.mem_map.mp hnew
          exact hholds.2.1 record hrecord
      · exact Option.some.inj hstep ▸ ⟨h.notes, h.log, h.honest, trivial⟩
    · cases hstep
  | remember =>
    simp only [Next, World.step] at hstep
    split at hstep
    · exact Option.some.inj hstep ▸ ⟨h.notes, h.log, h.honest, trivial⟩
    · cases hstep
  | stop => exact Option.some.inj hstep ▸ ⟨h.notes, h.log, h.honest, trivial⟩
  | reset => exact Option.some.inj hstep ▸ ⟨h.notes, h.log, h.honest, trivial⟩
  | edit notes log =>
    simp only [Next, World.step] at hstep
    split at hstep
    · next hlog =>
      obtain rfl := Option.some.inj hstep
      have hmore : ∀ digest ∈ w.carried, digest ∈ w.carried ++ noteDigests notes := fun digest hdigest =>
        List.mem_append_left _ hdigest
      exact ⟨fun digest hdigest => List.mem_append_right _ hdigest, hlog,
        fun digest hdigest => hmore digest (h.honest digest hdigest), h.stage.mono hmore⟩
    · cases hstep

/-- Only a rewrite changes the saved state. -/
theorem file_next {action : Action} (hstep : Next host w action t) :
    t.file = w.file ∨ ∃ contents saving, w.stage = .opened contents saving ∧
      t.recorded = digests contents ++ saving.records.map ImportRecord.digest := by
  simp only [Next] at hstep
  cases action with
  | save writes =>
    simp only [World.step] at hstep
    split at hstep
    · next contents saving hstage =>
      split at hstep
      · exact Or.inr ⟨contents, saving, hstage, Option.some.inj hstep ▸ recorded_save⟩
      · exact Or.inl (Option.some.inj hstep ▸ rfl)
    · cases hstep
  | stop => exact Or.inl (Option.some.inj hstep ▸ rfl)
  | reset => exact Or.inl (Option.some.inj hstep ▸ rfl)
  | load reads =>
    simp only [World.step] at hstep
    split at hstep
    · exact Or.inl (Option.some.inj hstep ▸ rfl)
    · exact Or.inl (Option.some.inj hstep ▸ rfl)
    · cases hstep
  | scan | check | write | open_ | remember | edit | plan =>
    simp only [World.step] at hstep
    split at hstep <;> try split at hstep
    all_goals first | exact Or.inl (Option.some.inj hstep ▸ rfl) | cases hstep

/-- A step of a careful run takes no digest out of the record. -/
theorem recorded_next {action : Action} (h : Inv w) (hstep : Next host w action t) :
    ∀ digest ∈ w.recorded, digest ∈ t.recorded := by
  intro digest hdigest
  cases file_next hstep with
  | inl hfile =>
    rw [World.recorded, hfile]
    exact hdigest
  | inr hsaved =>
    obtain ⟨contents, saving, hstage, hrecorded⟩ := hsaved
    have hholds := h.stage
    rw [hstage] at hholds
    rw [hrecorded]
    exact List.mem_append.mpr (hholds.2.2 digest hdigest)

theorem Initial.inv (h : Initial w) : Inv w := by
  refine ⟨h.notes, h.log, h.file, ?_⟩
  rw [h.idle]
  trivial

/-- Over every run in which no note of another digest stands in a planned note's place and no failed read is taken
for an empty file, what is recorded was carried by a note, and nothing recorded is lost. -/
theorem captured_record (host : Host) {s w t : World} {before after : List Action} (hs : Initial s)
    (hw : Run (Guarded (Next host) Careful) s before w) (ht : Run (Guarded (Next host) Careful) w after t) :
    (∀ digest ∈ w.recorded, digest ∈ w.carried) ∧ ∀ digest ∈ w.recorded, digest ∈ t.recorded := by
  have hinv : Inv w := hw.invariant Inv (fun _ _ _ hinv hstep => hinv.next hstep.1 hstep.2) hs.inv
  have hkept : Inv t ∧ ∀ digest ∈ w.recorded, digest ∈ t.recorded :=
    ht.invariant (fun u => Inv u ∧ ∀ digest ∈ w.recorded, digest ∈ u.recorded)
      (fun _ _ _ hu hstep => ⟨hu.1.next hstep.1 hstep.2,
        fun digest hdigest => recorded_next hu.1 hstep.2 digest (hu.2 digest hdigest)⟩)
      ⟨hinv, fun _ hdigest => hdigest⟩
  exact ⟨hinv.honest, hkept.2⟩

/-! ## Runs of one poll -/

def morning : Text := "2026-08-23T18:22:00+02:00".toList

/-- The second task was taken the day before, and its note is gone. -/
def taken : StateEntry := ⟨⟨(task "t2" "b").digest fourTasks myAccount, tasks, "t2".toList, "b".toList⟩, "2026-08-22T18:22:00+02:00".toList⟩

def beforePoll : World := ⟨[], [], some [taken], none, .idle, [taken.record.digest]⟩

theorem beforePoll_initial : Initial beforePoll :=
  ⟨rfl, fun _ h => absurd h List.not_mem_nil, fun _ h => absurd h List.not_mem_nil, fun _ h => h⟩

/-- The first task is planned. -/
def planned : World :=
  let plan := Poll.planFrom ⟨fourTasks, myAccount, [taken.record.digest], [], "inbox".toList, morning⟩ [task "t1" "a"] [] []
  { beforePoll with
    cache := some [taken.record.digest]
    stage := .writing plan.files false ⟨plan.newlyImported, morning⟩ }

theorem plan_run : Run (Guarded (Next fourTasks) Careful) beforePoll
    [.load true, .scan true [] true, .plan myAccount "inbox".toList [task "t1" "a"] morning] planned := by
  refine .cons ⟨trivial, rfl⟩ (.cons ⟨trivial, rfl⟩ (.cons ⟨trivial, ?_⟩ (.nil planned)))
  simp only [Next, World.step, planInboxCapture, List.mergeSort_singleton]
  decide +kernel

/-- The world after some steps, if each of them is possible. -/
def finish (w : World) (actions : List Action) : World := (follow (World.step fourTasks) w actions).getD w

theorem finish_run {w : World} {actions : List Action} (h : (follow (World.step fourTasks) w actions).isSome) :
    Run (Next fourTasks) w actions (finish w actions) := by
  obtain ⟨t, ht⟩ := Option.isSome_iff_exists.mp h
  rw [finish, ht]
  exact Run.of_follow (fun _ _ _ hstep => hstep) ht

/-- The planned note is written and recorded. -/
def writes : List Action := [.check, .write true, .open_ true, .save true]

theorem captured_record_writes :
    (∀ digest ∈ planned.recorded, digest ∈ planned.carried) ∧
      ∀ digest ∈ planned.recorded, digest ∈ (finish planned writes).recorded := by
  have hrun : Run (Guarded (Next fourTasks) Careful) planned writes (finish planned writes) :=
    Run.of_follow_allow (fun _ _ _ hstep => hstep) (by decide +kernel)
  exact captured_record fourTasks beforePoll_initial plan_run hrun

/-- A file takes the planned name before it is looked for. -/
def takenName : List Action :=
  [.edit [⟨"2026-08-23-1822-a".toList, "# a\n".toList⟩] [], .check, .open_ true, .save true]

/-- The saved state cannot be read before it is rewritten. -/
def failedRead : List Action := [.check, .write true, .open_ false, .save true]

/-- A digest is recorded whose note was never written, and a rewrite loses what was recorded. -/
theorem record_fails :
    (¬∀ (host : Host) (s w : World) (before : List Action), Initial s → Run (Next host) s before w →
      ∀ digest ∈ w.recorded, digest ∈ w.carried) ∧
    ¬∀ (host : Host) (s w t : World) (before after : List Action), Initial s → Run (Next host) s before w →
      Run (Next host) w after t → ∀ digest ∈ w.recorded, digest ∈ t.recorded := by
  constructor
  · intro h
    have htaken := h fourTasks beforePoll (finish planned takenName) _ beforePoll_initial
      (plan_run.unguarded.append (finish_run (by decide +kernel)))
    revert htaken
    decide +kernel
  · intro h
    have hlost := h fourTasks beforePoll planned (finish planned failedRead) _ _ beforePoll_initial
      plan_run.unguarded (finish_run (by decide +kernel))
    revert hlost
    decide +kernel

end Thock.Desk.Inbox.Polls
