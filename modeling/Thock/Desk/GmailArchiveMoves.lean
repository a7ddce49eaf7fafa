import Thock.Desk.GmailArchive

/-!
# What a pass of Gmail archive does

The ways in which one pass moves the mark of a digest, each with what the pass found. Everything that is said of
runs follows from them.

A pass that turns a class on baselines the decisions of that class whose threads' capture records lie in the
inbox folder then. One whose record is elsewhere keeps its mark.
-/

namespace Thock.Desk.Gmail

open TextScan

/-! ## What a pass finds and does -/

/-- The classes the archive is on for. -/
def Pass.on (p : Pass) : Option (Finset DecisionClass) :=
  match p.archive with
  | .on on _ => some on
  | .off | .unreadable => none

/-- Whether a line of the log names a digest. -/
def Pass.Logs (p : Pass) (digest : Text) : Prop := digest ∈ p.log.map LoggedDecision.digest

/-- The pass looks at the log and finds the digest in it. -/
def Pass.Finds (p : Pass) (digest : Text) : Prop := p.on ≠ none ∧ p.Logs digest

/-- The digest's newest line is of a class that is on, and its thread was captured into the inbox folder. -/
def Pass.Decides (p : Pass) (digest : Text) (class_ : DecisionClass) (thread : ImportedThread) : Prop :=
  (∃ on, p.on = some on ∧ class_ ∈ on) ∧ newest p.log digest = some class_ ∧ p.imported digest = some thread ∧
    thread.path = Readwise.trimMatches (· = '/') p.inboxDir

/-- The decision's class was not on before, and nothing keeps its digest from being archived yet. -/
def Pass.Baselines (p : Pass) (state : ArchiveState) (digest : Text) : Prop :=
  ∃ class_ thread, p.Decides digest class_ thread ∧ class_ ∉ state.previous ∧ settled (state.marks.get digest) = false

/-- The log no longer names a digest that waits out its grace. -/
def Pass.Withdraws (p : Pass) (state : ArchiveState) (digest : Text) : Prop :=
  p.on ≠ none ∧ ¬p.Logs digest ∧ ∃ at_, state.marks.get digest = some (.seen at_)

/-- The decision was seen a grace ago, by the record. -/
def Pass.Archives (p : Pass) (state : ArchiveState) (digest thread : Text) : Prop :=
  ∃ class_ captured at_, p.Decides digest class_ captured ∧ captured.thread = thread ∧ class_ ∈ state.previous ∧
    state.marks.get digest = some (.seen at_) ∧ archiveGrace ≤ p.now - at_

/-- The thread was archived less than a day ago, by the record, and no line of the log names its digest. -/
def Pass.Unarchives (p : Pass) (state : ArchiveState) (digest thread : Text) : Prop :=
  p.on ≠ none ∧ ¬p.Logs digest ∧
    ∃ at_, state.marks.get digest = some (.archived thread at_) ∧ p.now - at_ < undoHorizon

/-- What a pass may do to the mark of a digest. -/
inductive Move (p : Pass) (state : ArchiveState) (digest : Text) : Option ArchiveMark → Prop
  | stays (notBaselined : ¬p.Baselines state digest) (notWithdrawn : ¬p.Withdraws state digest) :
      Move p state digest none
  | baseline (h : p.Baselines state digest) : Move p state digest (some .baseline)
  | seen (finds : p.Finds digest) (notBaselined : ¬p.Baselines state digest)
      (live : settled (state.marks.get digest) = false) :
      Move p state digest (some (.seen p.now))
  | withdrawn (h : p.Withdraws state digest) : Move p state digest (some .withdrawn)
  | archived {thread : Text} {at_ : Instant} (h : p.Archives state digest thread) :
      Move p state digest (some (.archived thread at_))
  | unarchived {thread : Text} (h : p.Unarchives state digest thread) : Move p state digest (some .unarchived)

section Pass

variable {p : Pass} {state : ArchiveState} {digest : Text}

theorem newest_isSome {log : List LoggedDecision} {class_ : DecisionClass} (h : newest log digest = some class_) :
    digest ∈ log.map LoggedDecision.digest := by
  obtain ⟨line, hline, -⟩ := Option.map_eq_some_iff.mp h
  have hdigest : line.digest = digest := by simpa using List.find?_some hline
  exact hdigest ▸ List.mem_map_of_mem (List.mem_reverse.mp (List.mem_of_find?_eq_some hline))

theorem Pass.looks {on : Finset DecisionClass} (p : Pass) (h : p.on = some on) : p.on ≠ none := by
  rw [h]
  exact Option.some_ne_none on

theorem Pass.Decides.finds {class_ : DecisionClass} {thread : ImportedThread} (h : p.Decides digest class_ thread) :
    p.Finds digest := by
  obtain ⟨⟨on, hon, -⟩, hnewest, -⟩ := h
  exact ⟨p.looks hon, newest_isSome hnewest⟩

/-- The entry of a digest among those found is its decision. -/
theorem find?_present {log : List LoggedDecision} {imported : ImportedIndex} {inboxDir : Text} {e : Present} :
    ((present log imported inboxDir).find? fun p => p.digest = digest) = some e ↔
      e.digest = digest ∧ newest log digest = some e.class_ ∧ imported digest = some e.thread ∧
        e.thread.path = Readwise.trimMatches (· = '/') inboxDir := by
  constructor
  · intro h
    have hdigest : e.digest = digest := by simpa using List.find?_some h
    have hmem := mem_present.mp (List.mem_of_find?_eq_some h)
    rw [hdigest] at hmem
    exact ⟨hdigest, hmem⟩
  · rintro ⟨hdigest, h⟩
    subst hdigest
    exact Keyed.find?_of_mem (nodup_present _ _ _) (mem_present.mpr h)

theorem Pass.plan_of_on {on : Finset DecisionClass} (h : p.on = some on) :
    p.plan state = planArchive p.log p.imported state on p.inboxDir p.now := by
  unfold Pass.on at h
  split at h
  · next classes _ harchive =>
    rw [Pass.plan, harchive, ← Option.some.inj h]
  · cases h
  · cases h

theorem Pass.plan_of_off (h : p.on = none) :
    p.plan state = ⟨if state.lastOn.any fun on => decide (on ≠ ∅) then [.on ∅ p.now] else [], []⟩ := by
  unfold Pass.on at h
  split at h
  · cases h
  · next harchive => rw [Pass.plan, harchive]
  · next harchive => rw [Pass.plan, harchive]

/-- The writes a pass plans are of decisions seen long enough, and of threads whose decision is gone. -/
theorem Pass.of_mem_actions {action : ArchiveAction} (h : action ∈ (p.plan state).actions) :
    match action.change with
    | .archive => p.Archives state action.digest action.thread
    | .unarchive => p.Unarchives state action.digest action.thread := by
  cases hon : p.on with
  | none =>
    rw [p.plan_of_off hon] at h
    cases h
  | some on =>
    rw [p.plan_of_on hon, planArchive, List.mem_append, List.mem_filterMap, List.mem_filterMap] at h
    cases h with
    | inl h =>
      obtain ⟨e, he, haction⟩ := h
      rw [waiting_eq (nodup_present _ _ _), List.mem_filter, decide_eq_true_eq] at he
      obtain ⟨hfound, hclass, hprevious⟩ := he
      unfold archiveAction at haction
      split at haction
      · next at_ hmark =>
        split at haction
        · next hgrace =>
          rw [← Option.some.inj haction]
          have hold : e.class_ ∈ state.previous := hprevious.resolve_right (by simp [hmark, settled])
          exact ⟨e.class_, e.thread, at_, ⟨⟨on, hon, hclass⟩, mem_present.mp hfound⟩, rfl, hold, hmark, hgrace⟩
        · cases haction
      · cases haction
    | inr h =>
      obtain ⟨⟨d, mark⟩, he, haction⟩ := h
      unfold unarchiveAction at haction
      split at haction
      · next d' thread at_ heq =>
        obtain ⟨rfl, rfl⟩ := Prod.mk.inj heq
        split at haction
        · cases haction
        · next hlog =>
          split at haction
          · next hrecent =>
            rw [← Option.some.inj haction]
            exact ⟨p.looks hon, hlog, at_, Table.mem_ordered.mp he, hrecent⟩
          · cases haction
      · cases haction

/-- The mark that the answer to a write gives a digest. -/
def answered (answer : ArchiveAction → Answer) (digest : Text) (action : ArchiveAction) : Option ArchiveMark :=
  match answer action with
  | .done at_ => (action.written at_).markOf digest
  | .missingPermission | .failed _ _ => none

theorem markOf_written (action : ArchiveAction) (at_ : Instant) :
    (action.written at_).markOf digest =
      if action.digest = digest then
        some (match action.change with | .archive => .archived action.thread at_ | .unarchive => .unarchived)
      else none := by
  cases hchange : action.change with
  | archive => simp [ArchiveAction.written, hchange, ArchiveEvent.markOf]
  | unarchive => simp [ArchiveAction.written, hchange, ArchiveEvent.markOf]

/-- The writes that went through are among those that were planned. -/
theorem marks_send (answer : ArchiveAction → Answer) (actions : List ArchiveAction) :
    ((send answer actions).filterMap (ArchiveEvent.markOf digest)).Sublist
      (actions.filterMap (answered answer digest)) := by
  induction actions with
  | nil => exact .slnil
  | cons action rest ih =>
    cases hanswer : answer action with
    | done at_ =>
      simp only [send, hanswer, List.filterMap_cons, answered]
      cases (action.written at_).markOf digest with
      | none => exact ih
      | some mark => exact ih.cons_cons mark
    | missingPermission =>
      simp only [send, hanswer]
      exact List.nil_sublist _
    | failed at_ error =>
      simp only [send, hanswer, List.filterMap_cons, answered]
      exact ih

theorem answered_of_ne {answer : ArchiveAction → Answer} {action : ArchiveAction} (h : action.digest ≠ digest) :
    answered answer digest action = none := by
  unfold answered
  split
  · rw [markOf_written, if_neg h]
  · rfl
  · rfl

/-- The mark that the record gets, or else the one an answered write gives. -/
theorem marks_events {recorded written : Option ArchiveMark}
    (hevents : (p.plan state).events.filterMap (ArchiveEvent.markOf digest) = recorded.toList)
    (hactions : (p.plan state).actions.filterMap (answered p.answer digest) = written.toList)
    (hone : recorded = none ∨ written = none) :
    (p.events state).filterMap (ArchiveEvent.markOf digest) = recorded.toList ∨
      recorded = none ∧ (p.events state).filterMap (ArchiveEvent.markOf digest) = written.toList := by
  rw [Pass.events, List.filterMap_append, hevents]
  split
  · simp
  · have hsent := @marks_send digest p.answer (p.plan state).actions
    rw [hactions] at hsent
    cases written with
    | none =>
      rw [Option.toList_none, List.sublist_nil] at hsent
      simp [hsent]
    | some mark =>
      obtain rfl := hone.resolve_right (Option.some_ne_none mark)
      rw [Option.toList_some, List.sublist_singleton] at hsent
      cases hsent with
      | inl h => simp [h]
      | inr h => simp [h]

/-- What an answered write makes of a digest. -/
theorem answered_eq_some {answer : ArchiveAction → Answer} {action : ArchiveAction} {mark : ArchiveMark}
    (h : answered answer digest action = some mark) :
    action.digest = digest ∧
      match action.change with
      | .archive => ∃ at_, mark = .archived action.thread at_
      | .unarchive => mark = .unarchived := by
  unfold answered at h
  split at h
  · next at_ _ =>
    rw [markOf_written] at h
    split at h
    · next hdigest =>
      refine ⟨hdigest, ?_⟩
      rw [← Option.some.inj h]
      cases action.change with
      | archive => exact ⟨at_, rfl⟩
      | unarchive => rfl
    · cases h
  · cases h
  · cases h

/-- A write moves the mark as it was planned, and the record moves it first. -/
theorem moves_of_plan {recorded written : Option ArchiveMark}
    (hevents : (p.plan state).events.filterMap (ArchiveEvent.markOf digest) = recorded.toList)
    (hactions : (p.plan state).actions.filterMap (answered p.answer digest) = written.toList)
    (hone : recorded = none ∨ written = none)
    (hrecorded : ∀ mark, recorded = some mark → Move p state digest (some mark))
    (hstays : recorded = none → ¬p.Baselines state digest ∧ ¬p.Withdraws state digest) :
    ∃ mark : Option ArchiveMark,
      (p.events state).filterMap (ArchiveEvent.markOf digest) = mark.toList ∧ Move p state digest mark := by
  cases marks_events hevents hactions hone with
  | inl h =>
    refine ⟨recorded, h, ?_⟩
    cases recorded with
    | none => exact .stays (hstays rfl).1 (hstays rfl).2
    | some mark => exact hrecorded mark rfl
  | inr h =>
    refine ⟨written, h.2, ?_⟩
    cases written with
    | none => exact .stays (hstays h.1).1 (hstays h.1).2
    | some mark =>
      have hmem : mark ∈ (p.plan state).actions.filterMap (answered p.answer digest) := by simp [hactions]
      obtain ⟨action, haction, hmark⟩ := List.mem_filterMap.mp hmem
      have hplanned := p.of_mem_actions haction
      obtain ⟨rfl, hmove⟩ := answered_eq_some hmark
      cases hchange : action.change with
      | archive =>
        rw [hchange] at hplanned hmove
        obtain ⟨at_, rfl⟩ := hmove
        exact .archived hplanned
      | unarchive =>
        rw [hchange] at hplanned hmove
        rw [hmove]
        exact .unarchived hplanned

/-- A pass moves a digest's mark once at most, in one of the ways listed. -/
theorem Pass.moves (p : Pass) (state : ArchiveState) (digest : Text) :
    ∃ mark : Option ArchiveMark,
      (p.events state).filterMap (ArchiveEvent.markOf digest) = mark.toList ∧ Move p state digest mark := by
  cases hon : p.on with
  | none =>
    have hplan := @Pass.plan_of_off p state hon
    refine @moves_of_plan p state digest none none ?_ ?_ (Or.inl rfl) (by intro _ h; cases h) ?_
    · rw [hplan]
      simp only
      split
      · rfl
      · rfl
    · rw [hplan]
      rfl
    · intro _
      refine ⟨?_, fun h => h.1 hon⟩
      intro hbaselines
      obtain ⟨_, _, ⟨⟨_, hsome, _⟩, _⟩, _⟩ := hbaselines
      rw [hon] at hsome
      cases hsome
  | some on =>
    have hevents := @filterMap_plan_events p.log p.imported state on p.inboxDir p.now digest
    have hactions := @filterMap_plan_actions p.log p.imported state on p.inboxDir p.now digest _
      (answered p.answer digest) fun a ha => answered_of_ne ha
    rw [← p.plan_of_on hon] at hevents hactions
    cases hfind : (present p.log p.imported p.inboxDir).find? fun e => e.digest = digest with
    | none =>
      have hbaselined : ¬p.Baselines state digest := by
        intro hbaselines
        obtain ⟨class_, thread, ⟨_, hdecides⟩, _⟩ := hbaselines
        have hsome : _ = some (⟨digest, class_, thread⟩ : Present) := find?_present.mpr ⟨rfl, hdecides⟩
        rw [hfind] at hsome
        cases hsome
      simp only [hfind, Option.filter_none, Option.map_none, Option.bind_none, Option.toList_none, List.nil_append]
        at hevents hactions
      refine moves_of_plan hevents hactions ?_ ?_ ?_
      · cases hmark : state.marks.get digest with
        | none => exact Or.inl rfl
        | some mark =>
          cases mark with
          | seen at_ => exact Or.inr rfl
          | baseline | archived thread at_ | unarchived | withdrawn => exact Or.inl rfl
      · intro mark hsome
        obtain ⟨old, hold, hsome⟩ := Option.bind_eq_some_iff.mp hsome
        cases old with
        | seen at_ =>
          rw [withdrawnEvent] at hsome
          split at hsome
          · cases hsome
          · next hlog =>
            obtain rfl : ArchiveMark.withdrawn = mark := by simpa [ArchiveEvent.markOf] using hsome
            exact .withdrawn ⟨p.looks hon, hlog, at_, hold⟩
        | baseline | archived thread at_ | unarchived | withdrawn => cases hsome
      · intro hnone
        refine ⟨hbaselined, ?_⟩
        intro hwithdraws
        obtain ⟨_, hlog, at_, hmark⟩ := hwithdraws
        have hgone : digest ∉ p.log.map LoggedDecision.digest := hlog
        rw [hmark, Option.bind_some, withdrawnEvent, if_neg hgone] at hnone
        simp [ArchiveEvent.markOf] at hnone
    | some e =>
      obtain ⟨rfl, hdecides⟩ := find?_present.mp hfind
      have hlog : e.digest ∈ p.log.map LoggedDecision.digest := newest_isSome hdecides.1
      have hwithdrawn : ¬p.Withdraws state e.digest := fun h => h.2.1 hlog
      have hgone : ((state.marks.get e.digest).bind fun mark =>
          (withdrawnEvent p.log p.now (e.digest, mark)).bind (ArchiveEvent.markOf e.digest)) = none := by
        rw [Option.bind_eq_none_iff]
        intro mark _
        cases mark with
        | seen at_ => simp [withdrawnEvent, hlog]
        | baseline | archived thread at_ | unarchived | withdrawn => rfl
      have hkept : ((state.marks.get e.digest).bind fun mark =>
          (unarchiveAction p.log p.now (e.digest, mark)).bind (answered p.answer e.digest)) = none := by
        rw [Option.bind_eq_none_iff]
        intro mark _
        cases mark with
        | archived thread at_ => simp [unarchiveAction, hlog]
        | baseline | seen at_ | unarchived | withdrawn => rfl
      simp only [hfind, hgone, hkept, Option.filter_some, Option.toList_none, List.append_nil, decide_eq_true_eq]
        at hevents hactions
      have hbaselines : p.Baselines state e.digest ↔
          e.class_ ∈ on ∧ e.class_ ∉ state.previous ∧ settled (state.marks.get e.digest) = false := by
        constructor
        · intro hnew
          obtain ⟨class_, thread, ⟨⟨classes, hclasses, hmem⟩, hnewest, _⟩, hrest⟩ := hnew
          obtain rfl : class_ = e.class_ := Option.some.inj (hnewest.symm.trans hdecides.1)
          obtain rfl := Option.some.inj (hclasses.symm.trans hon)
          exact ⟨hmem, hrest⟩
        · intro hcond
          exact ⟨e.class_, e.thread, ⟨⟨on, hon, hcond.1⟩, hdecides⟩, hcond.2⟩
      by_cases hnew : p.Baselines state e.digest
      · have hcond := hbaselines.mp hnew
        have hnot : ¬(e.class_ ∈ on ∧ (e.class_ ∈ state.previous ∨ settled (state.marks.get e.digest) = true)) := by
          simp [hcond]
        rw [if_pos hcond, if_neg hnot] at hevents
        rw [if_neg hnot] at hactions
        refine @moves_of_plan p state e.digest (some .baseline) none hevents hactions (Or.inr rfl) ?_ ?_
        · intro mark hmark
          obtain rfl := Option.some.inj hmark
          exact .baseline hnew
        · intro h
          cases h
      · rw [if_neg fun h => hnew (hbaselines.mpr h)] at hevents
        simp only [Option.map_none, Option.toList_none, List.nil_append] at hevents
        refine moves_of_plan hevents hactions ?_ ?_ fun _ => ⟨hnew, hwithdrawn⟩
        · split
          · simp only [Option.bind_some, seenEvent, archiveAction]
            cases hmark : state.marks.get e.digest with
            | none => exact Or.inr rfl
            | some mark =>
              cases mark with
              | seen at_ => exact Or.inl rfl
              | baseline | archived thread at_ | unarchived | withdrawn => exact Or.inr rfl
          · exact Or.inl rfl
        · intro mark hsome
          split at hsome
          · obtain ⟨event, hevent, hmark⟩ := Option.bind_eq_some_iff.mp (Option.bind_some _ _ ▸ hsome)
            have hfinds : p.Finds e.digest := ⟨p.looks hon, hlog⟩
            have hseen : settled (state.marks.get e.digest) = false ∧ event = .seen e.digest e.thread.thread p.now := by
              rw [seenEvent] at hevent
              split at hevent
              · next hold => exact ⟨by rw [hold]; rfl, (Option.some.inj hevent).symm⟩
              · next hold => exact ⟨by rw [hold]; rfl, (Option.some.inj hevent).symm⟩
              · next hold => exact ⟨by rw [hold]; rfl, (Option.some.inj hevent).symm⟩
              · cases hevent
            obtain rfl : ArchiveMark.seen p.now = mark := by simpa [hseen.2, ArchiveEvent.markOf] using hmark
            exact .seen hfinds hnew hseen.1
          · cases hsome

theorem listed_send (answer : ArchiveAction → Answer) (actions : List ArchiveAction) :
    (send answer actions).filterMap ArchiveEvent.listed = [] := by
  induction actions with
  | nil => rfl
  | cons action rest ih =>
    cases hanswer : answer action with
    | done at_ =>
      simp only [send, hanswer, ArchiveAction.written]
      cases action.change with
      | archive => exact ih
      | unarchive => exact ih
    | missingPermission => simp only [send, hanswer, List.filterMap_nil]
    | failed at_ error =>
      simp only [send, hanswer]
      exact ih

/-- The plan lists the classes that are on unless they were on before. -/
theorem listed_plan_events (log : List LoggedDecision) (imported : ImportedIndex) (state : ArchiveState)
    (on : Finset DecisionClass) (inboxDir : Text) (now : Instant) :
    (planArchive log imported state on inboxDir now).events.filterMap ArchiveEvent.listed =
      if state.lastOn = some on then [] else [on] := by
  have hseen : ∀ e, (seenEvent state now e).bind ArchiveEvent.listed = none := by
    intro e
    unfold seenEvent
    split
    · rfl
    · rfl
    · rfl
    · rfl
  have hwithdrawn : ∀ e, (withdrawnEvent log now e).bind ArchiveEvent.listed = none := by
    intro e
    unfold withdrawnEvent
    split
    · split
      · rfl
      · rfl
    · rfl
  have hbaseline : ∀ l : List Present,
      (l.map fun e => ArchiveEvent.baseline e.digest now).filterMap ArchiveEvent.listed = [] := by
    intro l
    rw [List.filterMap_map, List.filterMap_eq_nil_iff]
    exact fun _ _ => rfl
  rw [planArchive, List.filterMap_append, List.filterMap_append, List.filterMap_filterMap, List.filterMap_filterMap,
    List.filterMap_eq_nil_iff.mpr fun e _ => hseen e, List.filterMap_eq_nil_iff.mpr fun e _ => hwithdrawn e,
    List.append_nil, List.append_nil]
  split
  · rfl
  · rw [List.filterMap_append, hbaseline]
    rfl

/-- What the record says was on, after a pass. -/
theorem lastOn_extend (happened : List ArchiveEvent) (p : Pass) :
    (reloaded (extend happened p)).lastOn =
      match p.on with
      | some on => some on
      | none => if (reloaded happened).lastOn.any fun on => decide (on ≠ ∅) then some ∅ else (reloaded happened).lastOn := by
  have hsent : ∀ actions, (if p.permissionMissing then [] else send p.answer actions).filterMap ArchiveEvent.listed = [] := by
    intro actions
    split
    · rfl
    · exact listed_send p.answer actions
  rw [extend, lastOn_reloaded, List.filterMap_append, Pass.events, List.filterMap_append, hsent, List.append_nil]
  cases hon : p.on with
  | some on =>
    rw [p.plan_of_on hon, listed_plan_events]
    split
    · next hlast => rw [List.append_nil, ← lastOn_reloaded, hlast]
    · simp
  | none =>
    rw [Pass.plan_of_off hon]
    simp only
    split
    · simp [ArchiveEvent.listed]
    · rw [List.filterMap_nil, List.append_nil, ← lastOn_reloaded]

/-- What an earlier archive leaves a pass to do. -/
theorem Move.of_archived {mark : ArchiveMark} {thread : Text} {at_ : Instant}
    (h : Move p state digest (some mark)) (hmark : state.marks.get digest = some (.archived thread at_)) :
    mark = .unarchived := by
  cases h with
  | baseline h =>
    obtain ⟨_, _, _, _, hlive⟩ := h
    rw [hmark] at hlive
    cases hlive
  | seen _ _ hlive =>
    rw [hmark] at hlive
    cases hlive
  | withdrawn h =>
    obtain ⟨_, _, _, hseen⟩ := h
    rw [hmark] at hseen
    cases hseen
  | archived h =>
    obtain ⟨_, _, _, _, _, _, hseen, _⟩ := h
    rw [hmark] at hseen
    cases hseen
  | unarchived _ => rfl

/-- A settled digest whose line stays is left alone. -/
theorem Move.of_settled {mark : Option ArchiveMark} (h : Move p state digest mark)
    (hsettled : settled (state.marks.get digest) = true) (hlogs : p.Logs digest) : mark = none := by
  cases h with
  | stays _ _ => rfl
  | baseline h =>
    obtain ⟨_, _, _, _, hlive⟩ := h
    rw [hsettled] at hlive
    cases hlive
  | seen _ _ hlive =>
    rw [hsettled] at hlive
    cases hlive
  | withdrawn h => exact absurd hlogs h.2.1
  | archived h =>
    obtain ⟨_, _, _, _, _, _, hseen, _⟩ := h
    rw [hseen] at hsettled
    cases hsettled
  | unarchived h => exact absurd hlogs h.2.1

end Pass

end Thock.Desk.Gmail
