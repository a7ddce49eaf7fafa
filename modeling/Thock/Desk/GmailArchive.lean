import Mathlib.Data.Finset.Insert
import Thock.Desk.Readwise
import Thock.Lib.Keyed

/-!
# Gmail archive

The reconciler that archives the mail of logged inbox decisions and puts it back when a decision leaves the log,
with the record it keeps between passes. The record holds whole seconds, so a mark reads back up to a second
earlier than it was made.

A digest takes part in one event of a pass at most, and what a pass does to its mark is settled by the mark, the
digest's newest log line and the capture record of its thread.
-/

namespace Thock.Desk.Gmail

open TextScan SyncCore

/-! ## Decisions and marks -/

/-- Nanoseconds of universal time. -/
abbrev Instant := ℤ

def second : Instant := 1000000000

/-- How long a decision sits in the log before Gmail hears of it. -/
def archiveGrace : Instant := 60 * second

/-- How long after an archive an undo still puts the thread back. -/
def undoHorizon : Instant := 24 * 60 * 60 * second

/-- The moment as it is written, without the part of a second. -/
def wholeSecond (at_ : Instant) : Instant := at_ / second * second

inductive DecisionClass
  | today
  | soon
  | someday
  | archive
  | discard
  | other
deriving DecidableEq, Repr

structure LoggedDecision where
  digest : Text
  class_ : DecisionClass
deriving DecidableEq

structure ImportedThread where
  thread : Text
  /-- The mapping folder that captured it. -/
  path : Text
deriving DecidableEq

/-- Digest to thread, from the capture state file. -/
abbrev ImportedIndex := Text → Option ImportedThread

/-- Where one digest stands. -/
inductive ArchiveMark
  | baseline
  | seen (at_ : Instant)
  | archived (thread : Text) (at_ : Instant)
  | unarchived
  | withdrawn
deriving DecidableEq

inductive ArchiveEvent
  | on (classes : Finset DecisionClass) (at_ : Instant)
  | baseline (digest : Text) (at_ : Instant)
  | seen (digest thread : Text) (at_ : Instant)
  | archived (digest thread : Text) (at_ : Instant)
  | unarchived (digest thread : Text) (at_ : Instant)
  | withdrawn (digest : Text) (at_ : Instant)
  /-- A write that did not go through; the mark stays, so the next pass tries again. -/
  | failed (digest thread : Text) (at_ : Instant) (error : Text)
deriving DecidableEq

/-- The event as a later pass reads it from the record. -/
def ArchiveEvent.reread : ArchiveEvent → ArchiveEvent
  | .on classes at_ => .on classes (wholeSecond at_)
  | .baseline digest at_ => .baseline digest (wholeSecond at_)
  | .seen digest thread at_ => .seen digest thread (wholeSecond at_)
  | .archived digest thread at_ => .archived digest thread (wholeSecond at_)
  | .unarchived digest thread at_ => .unarchived digest thread (wholeSecond at_)
  | .withdrawn digest at_ => .withdrawn digest (wholeSecond at_)
  | .failed digest thread at_ error => .failed digest thread (wholeSecond at_) error

/-- The record folded into the latest mark of each digest. -/
structure ArchiveState where
  marks : Table Text ArchiveMark
  /-- The classes of the last `on` record. -/
  lastOn : Option (Finset DecisionClass)
deriving DecidableEq

def ArchiveState.apply (state : ArchiveState) : ArchiveEvent → ArchiveState
  | .on classes _ => { state with lastOn := some classes }
  | .failed _ _ _ _ => state
  | .baseline digest _ => { state with marks := state.marks.put digest .baseline }
  | .seen digest _ at_ => { state with marks := state.marks.put digest (.seen at_) }
  | .archived digest thread at_ => { state with marks := state.marks.put digest (.archived thread at_) }
  | .unarchived digest _ _ => { state with marks := state.marks.put digest .unarchived }
  | .withdrawn digest _ => { state with marks := state.marks.put digest .withdrawn }

def ArchiveState.ofEvents (events : List ArchiveEvent) : ArchiveState := events.foldl ArchiveState.apply ⟨[], none⟩

/-- The mark as a later pass reads it from the record. -/
def ArchiveMark.reread : ArchiveMark → ArchiveMark
  | .seen at_ => .seen (wholeSecond at_)
  | .archived thread at_ => .archived thread (wholeSecond at_)
  | mark => mark

/-- Whether a digest with this mark is left alone while its line stays. -/
def settled : Option ArchiveMark → Bool
  | some .baseline | some (.archived _ _) => true
  | _ => false

/-! ## The plan -/

inductive ThreadMove
  | archive
  | unarchive
deriving DecidableEq

/-- A write the reconciler wants sent. -/
structure ArchiveAction where
  digest : Text
  thread : Text
  change : ThreadMove
deriving DecidableEq

/-- The records to append now and the writes to send. -/
structure ArchivePlan where
  events : List ArchiveEvent
  actions : List ArchiveAction
deriving DecidableEq

/-- A digest in the log whose thread was captured into the inbox folder. -/
structure Present where
  digest : Text
  class_ : DecisionClass
  thread : ImportedThread
deriving DecidableEq

/-- The newest line of a digest is its decision: the lines come newest first, with the digests already met. -/
def presentFrom (imported : ImportedIndex) (inboxDir : Text) : List Text → List LoggedDecision → List Present
  | _, [] => []
  | met, decision :: rest =>
    if decision.digest ∈ met then presentFrom imported inboxDir met rest
    else
      match (imported decision.digest).filter fun thread => thread.path = inboxDir with
      | some thread => ⟨decision.digest, decision.class_, thread⟩ :: presentFrom imported inboxDir (decision.digest :: met) rest
      | none => presentFrom imported inboxDir (decision.digest :: met) rest

def present (log : List LoggedDecision) (imported : ImportedIndex) (inboxDir : Text) : List Present :=
  (presentFrom imported (Readwise.trimMatches (· = '/') inboxDir) [] log.reverse).reverse

/-- The classes that were on before. -/
def ArchiveState.previous (state : ArchiveState) : Finset DecisionClass := state.lastOn.getD ∅

/-- The decisions that were logged before their class was turned on. -/
def baselined (state : ArchiveState) (on : Finset DecisionClass) (found : List Present) : List Present :=
  if state.lastOn = some on then []
  else found.filter fun p =>
    p.class_ ∈ on ∧ p.class_ ∉ state.previous ∧ settled (state.marks.get p.digest) = false

/-- The decisions whose marks the pass goes through. -/
def waiting (state : ArchiveState) (on : Finset DecisionClass) (found : List Present) : List Present :=
  found.filter fun p => p.class_ ∈ on ∧ p.digest ∉ (baselined state on found).map Present.digest

/-- A decision met for the first time, or again after an undo, starts its grace. -/
def seenEvent (state : ArchiveState) (now : Instant) (p : Present) : Option ArchiveEvent :=
  match state.marks.get p.digest with
  | none | some .unarchived | some .withdrawn => some (.seen p.digest p.thread.thread now)
  | _ => none

def archiveAction (state : ArchiveState) (now : Instant) (p : Present) : Option ArchiveAction :=
  match state.marks.get p.digest with
  | some (.seen at_) => if archiveGrace ≤ now - at_ then some ⟨p.digest, p.thread.thread, .archive⟩ else none
  | _ => none

/-- A decision that left the log within its grace. -/
def withdrawnEvent (log : List LoggedDecision) (now : Instant) : Text × ArchiveMark → Option ArchiveEvent
  | (digest, .seen _) => if digest ∈ log.map LoggedDecision.digest then none else some (.withdrawn digest now)
  | _ => none

def unarchiveAction (log : List LoggedDecision) (now : Instant) : Text × ArchiveMark → Option ArchiveAction
  | (digest, .archived thread at_) =>
    if digest ∈ log.map LoggedDecision.digest then none
    else if now - at_ < undoHorizon then some ⟨digest, thread, .unarchive⟩
    else none
  | _ => none

def planArchive (log : List LoggedDecision) (imported : ImportedIndex) (state : ArchiveState)
    (on : Finset DecisionClass) (inboxDir : Text) (now : Instant) : ArchivePlan :=
  let found := present log imported inboxDir
  let turnedOn :=
    if state.lastOn = some on then []
    else (baselined state on found).map (fun p => .baseline p.digest now) ++ [.on on now]
  ⟨turnedOn ++ (waiting state on found).filterMap (seenEvent state now) ++
      state.marks.ordered.filterMap (withdrawnEvent log now),
    (waiting state on found).filterMap (archiveAction state now) ++
      state.marks.ordered.filterMap (unarchiveAction log now)⟩

/-! ## A pass -/

/-- The `[archive]` table: a listing that names no class is no listing. -/
inductive ArchiveConfig
  | off
  | on (classes : Finset DecisionClass) (some_ : classes.Nonempty)
  | unreadable

/-- What Gmail answers a write, and when. -/
inductive Answer
  | done (at_ : Instant)
  | missingPermission
  | failed (at_ : Instant) (error : Text)

/-- What one pass finds and is answered. -/
structure Pass where
  archive : ArchiveConfig
  log : List LoggedDecision
  imported : ImportedIndex
  inboxDir : Text
  now : Instant
  permissionMissing : Bool
  answer : ArchiveAction → Answer

def ArchiveAction.written (action : ArchiveAction) (at_ : Instant) : ArchiveEvent :=
  match action.change with
  | .archive => .archived action.digest action.thread at_
  | .unarchive => .unarchived action.digest action.thread at_

/-- The events of the writes, which end where the permission is missing. -/
def send (answer : ArchiveAction → Answer) : List ArchiveAction → List ArchiveEvent
  | [] => []
  | action :: rest =>
    match answer action with
    | .done at_ => action.written at_ :: send answer rest
    | .missingPermission => []
    | .failed at_ error => .failed action.digest action.thread at_ error :: send answer rest

/-- When the archive is off the log is not looked at, and that it is off is remembered. -/
def Pass.plan (p : Pass) (state : ArchiveState) : ArchivePlan :=
  match p.archive with
  | .on on _ => planArchive p.log p.imported state on p.inboxDir p.now
  | .off | .unreadable =>
    ⟨if state.lastOn.any fun on => decide (on ≠ ∅) then [.on ∅ p.now] else [], []⟩

/-- What a pass appends to the record. -/
def Pass.events (p : Pass) (state : ArchiveState) : List ArchiveEvent :=
  (p.plan state).events ++ if p.permissionMissing then [] else send p.answer (p.plan state).actions

/-- The state a pass reads back after some events. -/
def reloaded (happened : List ArchiveEvent) : ArchiveState := .ofEvents (happened.map ArchiveEvent.reread)

/-- The events after one more pass. -/
def extend (happened : List ArchiveEvent) (p : Pass) : List ArchiveEvent := happened ++ p.events (reloaded happened)

/-! ## Marks -/

/-- The mark an event gives a digest. -/
def ArchiveEvent.markOf (digest : Text) : ArchiveEvent → Option ArchiveMark
  | .baseline d _ => if d = digest then some .baseline else none
  | .seen d _ at_ => if d = digest then some (.seen at_) else none
  | .archived d thread at_ => if d = digest then some (.archived thread at_) else none
  | .unarchived d _ _ => if d = digest then some .unarchived else none
  | .withdrawn d _ => if d = digest then some .withdrawn else none
  | .on _ _ | .failed _ _ _ _ => none

/-- The classes an event lists. -/
def ArchiveEvent.listed : ArchiveEvent → Option (Finset DecisionClass)
  | .on classes _ => some classes
  | _ => none

theorem marks_apply (state : ArchiveState) (event : ArchiveEvent) (digest : Text) :
    (state.apply event).marks.get digest = (event.markOf digest).or (state.marks.get digest) := by
  cases event with
  | on classes at_ => rfl
  | failed d thread at_ error => rfl
  | baseline d at_ | seen d thread at_ | archived d thread at_ | unarchived d thread at_ | withdrawn d at_ =>
    simp only [ArchiveState.apply, ArchiveEvent.markOf, Table.get_put, eq_comm]
    split
    · rfl
    · rfl

theorem lastOn_apply (state : ArchiveState) (event : ArchiveEvent) :
    (state.apply event).lastOn = event.listed.or state.lastOn := by
  cases event with
  | on classes at_ | failed d thread at_ error | baseline d at_ | seen d thread at_ | archived d thread at_
  | unarchived d thread at_ | withdrawn d at_ => rfl

/-- The mark of a digest is the last one an event gave it. -/
theorem marks_ofEvents (events : List ArchiveEvent) (digest : Text) :
    (ArchiveState.ofEvents events).marks.get digest = (events.filterMap (ArchiveEvent.markOf digest)).getLast? := by
  induction events using List.reverseRecOn with
  | nil => rfl
  | append_singleton events event ih =>
    rw [ArchiveState.ofEvents, List.foldl_append, List.foldl_cons, List.foldl_nil, marks_apply, ← ArchiveState.ofEvents, ih]
    cases hmark : event.markOf digest with
    | none => simp [hmark]
    | some mark => simp [hmark]

theorem lastOn_ofEvents (events : List ArchiveEvent) :
    (ArchiveState.ofEvents events).lastOn = (events.filterMap ArchiveEvent.listed).getLast? := by
  induction events using List.reverseRecOn with
  | nil => rfl
  | append_singleton events event ih =>
    rw [ArchiveState.ofEvents, List.foldl_append, List.foldl_cons, List.foldl_nil, lastOn_apply, ← ArchiveState.ofEvents, ih]
    cases hlisted : event.listed with
    | none => simp [hlisted]
    | some classes => simp [hlisted]

theorem markOf_reread (event : ArchiveEvent) (digest : Text) :
    event.reread.markOf digest = (event.markOf digest).map ArchiveMark.reread := by
  cases event with
  | on classes at_ => rfl
  | failed d thread at_ error => rfl
  | baseline d at_ | seen d thread at_ | archived d thread at_ | unarchived d thread at_ | withdrawn d at_ =>
    simp only [ArchiveEvent.reread, ArchiveEvent.markOf]
    split
    · rfl
    · rfl

/-- A digest reads back with the mark it was given, in whole seconds. -/
theorem marks_reloaded (happened : List ArchiveEvent) (digest : Text) :
    (reloaded happened).marks.get digest =
      ((ArchiveState.ofEvents happened).marks.get digest).map ArchiveMark.reread := by
  have hcomp : ArchiveEvent.markOf digest ∘ ArchiveEvent.reread =
      fun event => (event.markOf digest).map ArchiveMark.reread := funext fun event => markOf_reread event digest
  rw [reloaded, marks_ofEvents, marks_ofEvents, List.filterMap_map, hcomp, ← List.map_filterMap, List.getLast?_map]

theorem lastOn_reloaded (happened : List ArchiveEvent) :
    (reloaded happened).lastOn = (happened.filterMap ArchiveEvent.listed).getLast? := by
  have hcomp : ArchiveEvent.listed ∘ ArchiveEvent.reread = ArchiveEvent.listed := by
    funext event
    cases event with
    | on classes at_ | failed d thread at_ error | baseline d at_ | seen d thread at_ | archived d thread at_
    | unarchived d thread at_ | withdrawn d at_ => rfl
  rw [reloaded, lastOn_ofEvents, List.filterMap_map, hcomp]

theorem wholeSecond_le (at_ : Instant) : wholeSecond at_ ≤ at_ := Int.ediv_mul_le at_ (by decide)

/-! ## What a pass finds -/

/-- The class of the newest line of a digest. -/
def newest (log : List LoggedDecision) (digest : Text) : Option DecisionClass :=
  (log.reverse.find? fun line => line.digest = digest).map LoggedDecision.class_

theorem mem_presentFrom {imported : ImportedIndex} {inboxDir : Text} {met : List Text} {ls : List LoggedDecision}
    {e : Present} :
    e ∈ presentFrom imported inboxDir met ls ↔
      e.digest ∉ met ∧ (ls.find? fun line => line.digest = e.digest).map LoggedDecision.class_ = some e.class_ ∧
        imported e.digest = some e.thread ∧ e.thread.path = inboxDir := by
  obtain ⟨digest, class_, found⟩ := e
  simp only
  induction ls generalizing met with
  | nil => simp [presentFrom]
  | cons line rest ih =>
    by_cases hline : line.digest = digest
    · rw [List.find?_cons_of_pos (by simpa using hline), Option.map_some, Option.some_inj]
      simp only [presentFrom, hline]
      split
      · next hmet => simp [ih, hmet]
      · next hmet =>
        split
        · next thread hthread =>
          have hfilter := Option.filter_eq_some_iff.mp hthread
          rw [List.mem_cons, ih]
          constructor
          · intro h
            cases h with
            | inl heq =>
              obtain ⟨-, hclass, hfound⟩ := Present.mk.inj heq
              rw [hclass, hfound]
              exact ⟨hmet, rfl, hfilter.1, of_decide_eq_true hfilter.2⟩
            | inr h => exact absurd List.mem_cons_self h.1
          · rintro ⟨_, hclass, himported, _⟩
            rw [himported] at hfilter
            rw [hclass, ← Option.some.inj hfilter.1]
            exact Or.inl rfl
        · next hthread =>
          rw [ih]
          constructor
          · exact fun h => absurd List.mem_cons_self h.1
          · rintro ⟨_, _, himported, hpath⟩
            simp [himported, hpath] at hthread
    · rw [List.find?_cons_of_neg (by simpa using hline)]
      have hcons : digest ∉ line.digest :: met ↔ digest ∉ met := by
        simp [Ne.symm hline]
      simp only [presentFrom]
      split
      · exact ih
      · split
        · rw [List.mem_cons, ih, hcons]
          constructor
          · intro h
            cases h with
            | inl heq => exact absurd (Present.mk.inj heq).1.symm hline
            | inr h => exact h
          · exact Or.inr
        · rw [ih, hcons]

theorem nodup_presentFrom (imported : ImportedIndex) (inboxDir : Text) (met : List Text) (ls : List LoggedDecision) :
    ((presentFrom imported inboxDir met ls).map Present.digest).Nodup := by
  induction ls generalizing met with
  | nil => exact List.nodup_nil
  | cons line rest ih =>
    simp only [presentFrom]
    split
    · exact ih met
    · split
      · rw [List.map_cons, List.nodup_cons]
        refine ⟨?_, ih _⟩
        intro hmem
        obtain ⟨e, he, hdigest⟩ := List.mem_map.mp hmem
        exact (mem_presentFrom.mp he).1 (hdigest ▸ List.mem_cons_self)
      · exact ih _

/-- A decision is found where it is the digest's newest and its thread was captured into the inbox folder. -/
theorem mem_present {log : List LoggedDecision} {imported : ImportedIndex} {inboxDir : Text} {e : Present} :
    e ∈ present log imported inboxDir ↔
      newest log e.digest = some e.class_ ∧ imported e.digest = some e.thread ∧
        e.thread.path = Readwise.trimMatches (· = '/') inboxDir := by
  rw [present, List.mem_reverse, mem_presentFrom]
  simp [newest]

theorem nodup_present (log : List LoggedDecision) (imported : ImportedIndex) (inboxDir : Text) :
    ((present log imported inboxDir).map Present.digest).Nodup := by
  rw [present, List.map_reverse, List.nodup_reverse]
  exact nodup_presentFrom _ _ _ _

/-! ## What the plan holds for one digest -/

section Plan

variable {log : List LoggedDecision} {imported : ImportedIndex} {state : ArchiveState} {on : Finset DecisionClass}
  {inboxDir : Text} {now : Instant} {digest : Text} {found : List Present}

/-- Where the classes are those that were on, none of them is new. -/
theorem baselined_eq (state : ArchiveState) (on : Finset DecisionClass) (found : List Present) :
    baselined state on found = found.filter fun p =>
      p.class_ ∈ on ∧ p.class_ ∉ state.previous ∧ settled (state.marks.get p.digest) = false := by
  unfold baselined
  split
  · next hon =>
    have hprevious : state.previous = on := by rw [ArchiveState.previous, hon, Option.getD_some]
    rw [eq_comm, List.filter_eq_nil_iff]
    intro p _ hp
    obtain ⟨hmem, hnew, -⟩ := of_decide_eq_true hp
    exact hnew (hprevious ▸ hmem)
  · rfl

theorem waiting_eq (hnodup : (found.map Present.digest).Nodup) :
    waiting state on found = found.filter fun p =>
      p.class_ ∈ on ∧ (p.class_ ∈ state.previous ∨ settled (state.marks.get p.digest) = true) := by
  apply List.filter_congr
  intro p hp
  have hmem : p.digest ∈ (baselined state on found).map Present.digest ↔ p ∈ baselined state on found := by
    constructor
    · intro h
      obtain ⟨q, hq, hdigest⟩ := List.mem_map.mp h
      have hq' : q ∈ found := by
        rw [baselined_eq] at hq
        exact List.mem_of_mem_filter hq
      rwa [← List.inj_on_of_nodup_map hnodup hq' hp hdigest]
    · exact List.mem_map_of_mem
  rw [decide_eq_decide, hmem, baselined_eq, List.mem_filter, decide_eq_true_eq]
  cases hsettled : settled (state.marks.get p.digest) with
  | true => simp
  | false => simp +contextual [hp]

theorem markOf_seenEvent {p : Present} (h : p.digest ≠ digest) :
    (seenEvent state now p).bind (ArchiveEvent.markOf digest) = none := by
  unfold seenEvent
  split
  · simp [ArchiveEvent.markOf, h]
  · simp [ArchiveEvent.markOf, h]
  · simp [ArchiveEvent.markOf, h]
  · rfl

theorem markOf_withdrawnEvent {e : Text × ArchiveMark} (h : e.1 ≠ digest) :
    (withdrawnEvent log now e).bind (ArchiveEvent.markOf digest) = none := by
  unfold withdrawnEvent
  split
  · next d at_ =>
    have hd : d ≠ digest := h
    split
    · rfl
    · simp [ArchiveEvent.markOf, hd]
  · rfl

/-- A digest's marks in the events of a plan. -/
theorem filterMap_plan_events :
    (planArchive log imported state on inboxDir now).events.filterMap (ArchiveEvent.markOf digest) =
      (((((present log imported inboxDir).find? fun p => p.digest = digest).filter fun p =>
          p.class_ ∈ on ∧ p.class_ ∉ state.previous ∧ settled (state.marks.get p.digest) = false).map
        fun _ => ArchiveMark.baseline).toList ++
      ((((present log imported inboxDir).find? fun p => p.digest = digest).filter fun p =>
          p.class_ ∈ on ∧ (p.class_ ∈ state.previous ∨ settled (state.marks.get p.digest) = true)).bind
        fun p => (seenEvent state now p).bind (ArchiveEvent.markOf digest)).toList) ++
      ((state.marks.get digest).bind fun mark =>
        (withdrawnEvent log now (digest, mark)).bind (ArchiveEvent.markOf digest)).toList := by
  have hnodup := nodup_present log imported inboxDir
  generalize hfound : present log imported inboxDir = found at hnodup
  have hturned : (if state.lastOn = some on then []
      else (baselined state on found).map (fun p => ArchiveEvent.baseline p.digest now) ++ [.on on now]).filterMap
        (ArchiveEvent.markOf digest) =
      (((found.find? fun p => p.digest = digest).filter fun p =>
        p.class_ ∈ on ∧ p.class_ ∉ state.previous ∧ settled (state.marks.get p.digest) = false).map
          fun _ => ArchiveMark.baseline).toList := by
    have hone : ∀ p : Present, p.digest ≠ digest →
        (ArchiveEvent.markOf digest ∘ fun p : Present => ArchiveEvent.baseline p.digest now) p = none := by
      intro p hp
      simp [ArchiveEvent.markOf, hp]
    have hsplit : (if state.lastOn = some on then []
        else (baselined state on found).map (fun p => ArchiveEvent.baseline p.digest now) ++ [.on on now]).filterMap
          (ArchiveEvent.markOf digest) =
        (baselined state on found).filterMap
          (ArchiveEvent.markOf digest ∘ fun p => ArchiveEvent.baseline p.digest now) := by
      split
      · next hon => simp [baselined, hon]
      · rw [List.filterMap_append, List.filterMap_map]
        simp [ArchiveEvent.markOf]
    have hsub : ((baselined state on found).map Present.digest).Nodup := by
      rw [baselined_eq]
      exact hnodup.sublist (List.filter_sublist.map _)
    rw [hsplit, Keyed.filterMap_of_key hsub hone, baselined_eq, Keyed.find?_filter hnodup]
    congr 1
    cases hfind : found.find? fun p => p.digest = digest with
    | none => rfl
    | some p =>
      have hp : p.digest = digest := by simpa using List.find?_some hfind
      simp only [Option.filter_some]
      split
      · simp [ArchiveEvent.markOf, hp]
      · rfl
  have hwaiting : ((waiting state on found).map Present.digest).Nodup :=
    hnodup.sublist (List.filter_sublist.map _)
  rw [planArchive, hfound, List.filterMap_append, List.filterMap_append, List.filterMap_filterMap,
    List.filterMap_filterMap, hturned,
    Keyed.filterMap_of_key hwaiting (fun p hp => markOf_seenEvent hp),
    Keyed.filterMap_of_key state.marks.nodup_ordered (fun e he => markOf_withdrawnEvent he), Table.find?_ordered,
    waiting_eq hnodup, Keyed.find?_filter hnodup, Option.bind_map]
  rfl

theorem digest_of_archiveAction {p : Present} {action : ArchiveAction} (h : archiveAction state now p = some action) :
    action.digest = p.digest := by
  unfold archiveAction at h
  split at h
  · split at h
    · rw [← Option.some.inj h]
    · cases h
  · cases h

theorem digest_of_unarchiveAction {e : Text × ArchiveMark} {action : ArchiveAction}
    (h : unarchiveAction log now e = some action) : action.digest = e.1 := by
  unfold unarchiveAction at h
  split at h
  · split at h
    · cases h
    · split at h
      · rw [← Option.some.inj h]
      · cases h
  · cases h

/-- What one digest's writes come to. -/
theorem filterMap_plan_actions {β : Type*} {g : ArchiveAction → Option β} (hg : ∀ a, a.digest ≠ digest → g a = none) :
    (planArchive log imported state on inboxDir now).actions.filterMap g =
      ((((present log imported inboxDir).find? fun p => p.digest = digest).filter fun p =>
          p.class_ ∈ on ∧ (p.class_ ∈ state.previous ∨ settled (state.marks.get p.digest) = true)).bind
        fun p => (archiveAction state now p).bind g).toList ++
      ((state.marks.get digest).bind fun mark => (unarchiveAction log now (digest, mark)).bind g).toList := by
  have hnodup := nodup_present log imported inboxDir
  generalize hfound : present log imported inboxDir = found at hnodup
  have harchive : ∀ p : Present, p.digest ≠ digest → (archiveAction state now p).bind g = none := by
    intro p hp
    rw [Option.bind_eq_none_iff]
    exact fun action haction => hg action (digest_of_archiveAction haction ▸ hp)
  have hunarchive : ∀ e : Text × ArchiveMark, e.1 ≠ digest → (unarchiveAction log now e).bind g = none := by
    intro e he
    rw [Option.bind_eq_none_iff]
    exact fun action haction => hg action (digest_of_unarchiveAction haction ▸ he)
  have hwaiting : ((waiting state on found).map Present.digest).Nodup :=
    hnodup.sublist (List.filter_sublist.map _)
  rw [planArchive, hfound, List.filterMap_append, List.filterMap_filterMap, List.filterMap_filterMap,
    Keyed.filterMap_of_key hwaiting harchive, Keyed.filterMap_of_key state.marks.nodup_ordered hunarchive,
    Table.find?_ordered, waiting_eq hnodup, Keyed.find?_filter hnodup, Option.bind_map]
  rfl

end Plan

end Thock.Desk.Gmail
