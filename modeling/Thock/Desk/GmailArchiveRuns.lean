import Mathlib.Data.List.Chain
import Thock.Desk.GmailArchiveMoves
import Thock.Lib.Transition

/-!
# Runs of Gmail archive

What any sequence of passes keeps to, whatever the log, the capture records, the inbox folder, the classes and
Gmail's answers are at each of them: once archived a thread is archived again only after it was put back, and it
is put back only while its digest is out of the log.

That nothing old is archived, and nothing within its grace, holds of the runs in which each decision that a pass
should baseline has its capture record in the inbox folder, and no pass falls into the part of a second that the
record leaves out.
-/

namespace Thock.Desk.Gmail

open TextScan Transition

/-! ## Runs -/

/-- The events of passes from the first one on. -/
def replay (passes : List Pass) : List ArchiveEvent := passes.foldl extend []

def Next (happened : List ArchiveEvent) (p : Pass) (after : List ArchiveEvent) : Prop := after = extend happened p

/-- The pass is the first one with the class on. -/
def Pass.TurnsOn (p : Pass) (state : ArchiveState) (class_ : DecisionClass) : Prop :=
  (∃ on, p.on = some on ∧ class_ ∈ on) ∧ class_ ∉ state.previous

/-- What a run of passes keeps to. -/
structure Kept (passes : List Pass) : Prop where
  /-- No decision is archived while a line stays that the pass turning its class on had in the log. -/
  notOld : ∀ before since p after q digest class_, passes = before ++ since ++ p :: after →
    (since ++ [p]).head? = some q → q.TurnsOn (reloaded (replay before)) class_ →
    (∀ r ∈ since ++ [p], ⟨digest, class_⟩ ∈ r.log) →
    ∀ action ∈ (p.plan (reloaded (replay (before ++ since)))).actions, action.digest = digest →
      action.change ≠ .archive
  /-- A thread is archived when two passes a grace apart, and all between them, found its digest in the log. -/
  graced : ∀ before p after, passes = before ++ p :: after →
    ∀ action ∈ (p.plan (reloaded (replay before))).actions, action.change = .archive →
      ∃ earlier q since, before = earlier ++ q :: since ∧ archiveGrace ≤ p.now - q.now ∧
        ∀ r ∈ q :: since ++ [p], r.Finds action.digest
  /-- Between two archives of one digest it is unarchived. -/
  once : ∀ digest before thread at_ between thread' at_' after,
    replay passes = before ++ .archived digest thread at_ :: (between ++ .archived digest thread' at_' :: after) →
      ∃ thread'' at_'', .unarchived digest thread'' at_'' ∈ between
  /-- A thread is put back that was archived less than a day ago and not put back since, and no line names it. -/
  undone : ∀ before p after, passes = before ++ p :: after →
    ∀ action ∈ (p.plan (reloaded (replay before))).actions, action.change = .unarchive →
      ¬p.Logs action.digest ∧
        ∃ earlier at_ since, replay before = earlier ++ .archived action.digest action.thread at_ :: since ∧
          (∀ thread' at_', .unarchived action.digest thread' at_' ∉ since) ∧ p.now - at_ < undoHorizon

/-- Nothing that a pass finds escapes the baseline or the grace. -/
structure Clear (happened : List ArchiveEvent) (p : Pass) : Prop where
  /-- A logged decision whose class is turned on is its digest's newest, of a class that is turned on, and its
  thread was captured into the inbox folder, unless it was baselined or archived before. -/
  baselined : ∀ line ∈ p.log, p.TurnsOn (reloaded happened) line.class_ →
    settled ((reloaded happened).marks.get line.digest) = true ∨
      ∃ class_ thread, p.Decides line.digest class_ thread ∧ class_ ∉ (reloaded happened).previous
  /-- After the archive was off, so is each decision that waited when it was turned off. -/
  restarted : (reloaded happened).lastOn = some ∅ → ∀ digest at_, (reloaded happened).marks.get digest = some (.seen at_) →
    p.Finds digest → ∃ class_ thread, p.Decides digest class_ thread
  /-- The pass does not come in the part of a second by which the record shortens a grace. -/
  whole : ∀ digest class_ thread at_, p.Decides digest class_ thread → class_ ∈ (reloaded happened).previous →
    (ArchiveState.ofEvents happened).marks.get digest = some (.seen at_) →
      archiveGrace ≤ p.now - wholeSecond at_ → archiveGrace ≤ p.now - at_

section Run

variable {passes : List Pass} {digest : Text}

theorem replay_concat (passes : List Pass) (p : Pass) : replay (passes ++ [p]) = extend (replay passes) p := by
  rw [replay, List.foldl_append]
  rfl

/-- Each pass of a guarded run meets the guard where it stands. -/
theorem guard_of_run {guard : List ArchiveEvent → Pass → Prop} {start happened : List ArchiveEvent}
    (run : Run (Guarded Next guard) start passes happened) {before : List Pass} {p : Pass} {after : List Pass}
    (h : passes = before ++ p :: after) : guard (before.foldl extend start) p := by
  induction run generalizing before with
  | nil s => simp at h
  | cons first later ih =>
    obtain ⟨hguard, rfl⟩ := first
    cases before with
    | nil =>
      obtain ⟨rfl, -⟩ := List.cons.inj h
      exact hguard
    | cons q before =>
      obtain ⟨rfl, hrest⟩ := List.cons.inj h
      exact ih hrest

/-- The mark of a digest after one more pass. -/
theorem mark_extend (happened : List ArchiveEvent) (p : Pass) (digest : Text) :
    ∃ mark, Move p (reloaded happened) digest mark ∧
      (ArchiveState.ofEvents (extend happened p)).marks.get digest =
        mark.or ((ArchiveState.ofEvents happened).marks.get digest) := by
  obtain ⟨mark, hmarks, hmove⟩ := p.moves (reloaded happened) digest
  refine ⟨mark, hmove, ?_⟩
  rw [extend, marks_ofEvents, marks_ofEvents, List.filterMap_append, hmarks]
  cases mark with
  | none => simp
  | some mark => simp

theorem settled_reread (mark : Option ArchiveMark) : settled (mark.map ArchiveMark.reread) = settled mark := by
  cases mark with
  | none => rfl
  | some mark =>
    cases mark with
    | baseline | seen at_ | archived thread at_ | unarchived | withdrawn => rfl

/-! ## Nothing twice -/

/-- After an archive only an unarchive moves the mark. -/
def Follows (a b : ArchiveMark) : Prop := (∃ thread at_, a = .archived thread at_) → b = .unarchived

/-- The marks of a digest, in the order they were given. -/
theorem marks_follow (passes : List Pass) (digest : Text) :
    ((replay passes).filterMap (ArchiveEvent.markOf digest)).IsChain Follows := by
  induction passes using List.reverseRecOn with
  | nil => exact .nil
  | append_singleton passes p ih =>
    obtain ⟨mark, hmarks, hmove⟩ := p.moves (reloaded (replay passes)) digest
    rw [replay_concat, extend, List.filterMap_append, hmarks, List.isChain_append]
    refine ⟨ih, ?_, ?_⟩
    · cases mark with
      | none => exact .nil
      | some mark => exact .singleton mark
    · intro last hlast mark' hmark' hlastArchived
      obtain ⟨thread, at_, harchived⟩ := hlastArchived
      obtain rfl : mark = some mark' := by simpa using hmark'
      have hread : (reloaded (replay passes)).marks.get digest = some (.archived thread (wholeSecond at_)) := by
        rw [marks_reloaded, marks_ofEvents, hlast, harchived]
        rfl
      exact hmove.of_archived hread

theorem unarchived_of_markOf {event : ArchiveEvent} (h : event.markOf digest = some .unarchived) :
    ∃ thread at_, event = .unarchived digest thread at_ := by
  cases event with
  | unarchived d thread at_ =>
    simp only [ArchiveEvent.markOf] at h
    split at h
    · next hd => exact ⟨thread, at_, by rw [hd]⟩
    · cases h
  | on classes at_ | failed d thread at_ error => cases h
  | baseline d at_ | seen d thread at_ | archived d thread at_ | withdrawn d at_ => simp [ArchiveEvent.markOf] at h

theorem archived_of_markOf {event : ArchiveEvent} {thread : Text} {at_ : Instant}
    (h : event.markOf digest = some (.archived thread at_)) : event = .archived digest thread at_ := by
  cases event with
  | archived d thread' at_' =>
    simp only [ArchiveEvent.markOf] at h
    split at h
    · next hd =>
      obtain ⟨rfl, rfl⟩ := ArchiveMark.archived.inj (Option.some.inj h)
      rw [hd]
    · cases h
  | on classes at_ | failed d thread at_ error => cases h
  | baseline d at_ | seen d thread at_ | unarchived d thread at_ | withdrawn d at_ => simp [ArchiveEvent.markOf] at h

theorem archives_apart {before between after : List ArchiveEvent} {thread thread' : Text} {at_ at_' : Instant}
    (h : replay passes = before ++ .archived digest thread at_ :: (between ++ .archived digest thread' at_' :: after)) :
    ∃ thread'' at_'', .unarchived digest thread'' at_'' ∈ between := by
  have hchain := marks_follow passes digest
  have hone : ∀ thread at_, (ArchiveEvent.archived digest thread at_).markOf digest = some (.archived thread at_) :=
    fun _ _ => if_pos rfl
  rw [h, List.filterMap_append, List.filterMap_cons_some (hone _ _), List.filterMap_append,
    List.filterMap_cons_some (hone _ _)] at hchain
  have htail := (List.isChain_append.mp hchain).2.1
  cases hbetween : between.filterMap (ArchiveEvent.markOf digest) with
  | nil =>
    rw [hbetween, List.nil_append, List.isChain_cons_cons] at htail
    cases htail.1 ⟨thread, at_, rfl⟩
  | cons mark rest =>
    rw [hbetween, List.cons_append, List.isChain_cons_cons] at htail
    have hmem : ArchiveMark.unarchived ∈ between.filterMap (ArchiveEvent.markOf digest) := by
      rw [hbetween, ← htail.1 ⟨thread, at_, rfl⟩]
      exact List.mem_cons_self
    obtain ⟨event, hevent, hmark⟩ := List.mem_filterMap.mp hmem
    obtain ⟨thread'', at_'', rfl⟩ := unarchived_of_markOf hmark
    exact ⟨thread'', at_'', hevent⟩

/-- What a mark that reads as archived was given by. -/
theorem archived_in_replay {thread : Text} {read : Instant}
    (h : (reloaded (replay passes)).marks.get digest = some (.archived thread read)) :
    ∃ earlier at_ since, replay passes = earlier ++ .archived digest thread at_ :: since ∧ read = wholeSecond at_ ∧
      ∀ thread' at_', .unarchived digest thread' at_' ∉ since := by
  rw [marks_reloaded, marks_ofEvents] at h
  obtain ⟨mark, hlast, hread⟩ := Option.map_eq_some_iff.mp h
  obtain ⟨earlier, event, since, hreplay, hmark, hsince⟩ := Keyed.exists_last_of_filterMap hlast
  cases mark with
  | archived thread' at_ =>
    obtain ⟨rfl, rfl⟩ := ArchiveMark.archived.inj hread
    refine ⟨earlier, at_, since, archived_of_markOf hmark ▸ hreplay, rfl, ?_⟩
    intro thread' at_' hmem
    have hnone := List.filterMap_eq_nil_iff.mp hsince _ hmem
    rw [ArchiveEvent.markOf, if_pos rfl] at hnone
    cases hnone
  | baseline | seen at_ | unarchived | withdrawn => cases hread

theorem undone_in_time (p : Pass) {action : ArchiveAction}
    (h : action ∈ (p.plan (reloaded (replay passes))).actions) (hchange : action.change = .unarchive) :
    ¬p.Logs action.digest ∧
      ∃ earlier at_ since, replay passes = earlier ++ .archived action.digest action.thread at_ :: since ∧
        (∀ thread' at_', .unarchived action.digest thread' at_' ∉ since) ∧ p.now - at_ < undoHorizon := by
  have hplanned := p.of_mem_actions h
  rw [hchange] at hplanned
  obtain ⟨-, hlogs, read, hmark, hrecent⟩ := hplanned
  obtain ⟨earlier, at_, since, hreplay, rfl, hsince⟩ := archived_in_replay hmark
  have hlater : p.now - at_ ≤ p.now - wholeSecond at_ := Int.sub_le_sub_left (wholeSecond_le at_) p.now
  exact ⟨hlogs, earlier, at_, since, hreplay, hsince, lt_of_le_of_lt hlater hrecent⟩

/-! ## Nothing early -/

/-- A digest that waits was in the log at every pass since it was seen, or the archive was off in between. -/
theorem seen_since (hclear : ∀ before p after, passes = before ++ p :: after → Clear (replay before) p)
    {at_ : Instant} (h : (ArchiveState.ofEvents (replay passes)).marks.get digest = some (.seen at_)) :
    ∃ earlier q since, passes = earlier ++ q :: since ∧ q.now = at_ ∧ q.Finds digest ∧
      (reloaded (replay passes)).lastOn ≠ none ∧
      ((∀ r ∈ since, r.Finds digest) ∨ (reloaded (replay passes)).lastOn = some ∅) := by
  induction passes using List.reverseRecOn with
  | nil => cases h
  | append_singleton passes p ih =>
    rw [replay_concat] at h ⊢
    obtain ⟨mark, hmove, hmark⟩ := mark_extend (replay passes) p digest
    rw [h] at hmark
    cases hmove with
    | baseline _ | withdrawn _ | archived _ | unarchived _ => cases hmark
    | seen hfinds _ _ =>
      obtain rfl := ArchiveMark.seen.inj (Option.some.inj hmark)
      obtain ⟨on, hon⟩ := Option.ne_none_iff_exists'.mp hfinds.1
      refine ⟨passes, p, [], rfl, rfl, hfinds, ?_, Or.inl fun r hr => absurd hr List.not_mem_nil⟩
      rw [lastOn_extend, hon]
      exact Option.some_ne_none on
    | stays hbaselined hwithdrawn =>
      rw [Option.none_or] at hmark
      obtain ⟨earlier, q, since, hpasses, hnow, hq, hlast, hsince⟩ :=
        ih (fun before r after hsplit => hclear before r (after ++ [p]) (by rw [hsplit]; simp)) hmark.symm
      have hread : (reloaded (replay passes)).marks.get digest = some (.seen (wholeSecond at_)) := by
        rw [marks_reloaded, ← hmark]
        rfl
      refine ⟨earlier, q, since ++ [p], by rw [hpasses]; simp, hnow, hq, ?_⟩
      rw [lastOn_extend]
      cases hon : p.on with
      | none =>
        obtain ⟨classes, hclasses⟩ := Option.ne_none_iff_exists'.mp hlast
        have hoff : (if (reloaded (replay passes)).lastOn.any fun on => decide (on ≠ ∅) then some ∅
            else (reloaded (replay passes)).lastOn) = some ∅ := by
          rw [hclasses]
          split
          · rfl
          · next hempty => simpa using hempty
        simp only [hoff]
        exact ⟨Option.some_ne_none ∅, Or.inr trivial⟩
      | some on =>
        -- A pass that looks at the log withdraws a digest that is gone, and after an off one baselines what waited.
        have hlogs : p.Logs digest := by
          by_contra hgone
          exact hwithdrawn ⟨p.looks hon, hgone, _, hread⟩
        have hfinds : p.Finds digest := ⟨p.looks hon, hlogs⟩
        refine ⟨Option.some_ne_none on, Or.inl ?_⟩
        cases hsince with
        | inl hall =>
          intro r hr
          cases List.mem_append.mp hr with
          | inl hr => exact hall r hr
          | inr hr => exact List.mem_singleton.mp hr ▸ hfinds
        | inr hoff =>
          obtain ⟨class_, thread, hdecides⟩ := (hclear passes p [] rfl).restarted hoff digest _ hread hfinds
          have hnew : class_ ∉ (reloaded (replay passes)).previous := by simp [ArchiveState.previous, hoff]
          exact absurd ⟨class_, thread, hdecides, hnew, by rw [hread]; rfl⟩ hbaselined

theorem archived_after_grace (hclear : ∀ before p after, passes = before ++ p :: after → Clear (replay before) p)
    {before after : List Pass} {p : Pass} (hpasses : passes = before ++ p :: after) {action : ArchiveAction}
    (haction : action ∈ (p.plan (reloaded (replay before))).actions) (hchange : action.change = .archive) :
    ∃ earlier q since, before = earlier ++ q :: since ∧ archiveGrace ≤ p.now - q.now ∧
      ∀ r ∈ q :: since ++ [p], r.Finds action.digest := by
  have hplanned := p.of_mem_actions haction
  rw [hchange] at hplanned
  obtain ⟨class_, captured, read, hdecides, -, hold, hmark, hgrace⟩ := hplanned
  obtain ⟨mark, hexact, hread⟩ := Option.map_eq_some_iff.mp (marks_reloaded (replay before) action.digest ▸ hmark)
  cases mark with
  | seen at_ =>
    obtain rfl := ArchiveMark.seen.inj hread
    obtain ⟨earlier, q, since, hbefore, rfl, hq, -, hsince⟩ :=
      seen_since (fun b r a hsplit => hclear b r (a ++ p :: after) (by rw [hpasses, hsplit]; simp)) hexact
    have hfinds : ∀ r ∈ since, r.Finds action.digest := by
      refine hsince.resolve_right fun hoff => ?_
      simp [ArchiveState.previous, hoff] at hold
    refine ⟨earlier, q, since, hbefore, (hclear before p after hpasses).whole _ _ _ _ hdecides hold hexact hgrace, ?_⟩
    intro r hr
    cases List.mem_append.mp hr with
    | inl hr =>
      cases List.mem_cons.mp hr with
      | inl heq => exact heq ▸ hq
      | inr hr => exact hfinds r hr
    | inr hr => exact List.mem_singleton.mp hr ▸ hdecides.finds
  | baseline | archived thread at_ | unarchived | withdrawn => cases hread

/-! ## Nothing old -/

/-- A settled digest stays so over passes whose logs name it. -/
theorem settled_over (passes : List Pass) {before : List Pass} (hlogs : ∀ r ∈ passes, r.Logs digest)
    (h : settled ((reloaded (replay before)).marks.get digest) = true) :
    settled ((reloaded (replay (before ++ passes))).marks.get digest) = true := by
  induction passes using List.reverseRecOn with
  | nil => rwa [List.append_nil]
  | append_singleton passes p ih =>
    have hbefore := ih fun r hr => hlogs r (List.mem_append_left _ hr)
    obtain ⟨mark, hmove, hmark⟩ := mark_extend (replay (before ++ passes)) p digest
    obtain rfl := hmove.of_settled hbefore (hlogs p (List.mem_append_right _ List.mem_cons_self))
    rw [← List.append_assoc, replay_concat, marks_reloaded, hmark, Option.none_or, ← marks_reloaded]
    exact hbefore

theorem not_archived_of_settled {p : Pass} {happened : List ArchiveEvent} {action : ArchiveAction}
    (haction : action ∈ (p.plan (reloaded happened)).actions)
    (h : settled ((reloaded happened).marks.get action.digest) = true) : action.change ≠ .archive := by
  intro hchange
  have hplanned := p.of_mem_actions haction
  rw [hchange] at hplanned
  obtain ⟨_, _, _, _, _, _, hseen, _⟩ := hplanned
  rw [hseen] at h
  cases h

/-- A pass that turns a class on leaves its logged decisions settled. -/
theorem settled_of_turnsOn {happened : List ArchiveEvent} {p : Pass} (hclear : Clear happened p) {class_ : DecisionClass}
    (hline : ⟨digest, class_⟩ ∈ p.log) (hturns : p.TurnsOn (reloaded happened) class_) :
    settled ((reloaded (extend happened p)).marks.get digest) = true := by
  obtain ⟨mark, hmove, hmark⟩ := mark_extend happened p digest
  have hlogs : p.Logs digest := List.mem_map_of_mem hline
  rw [marks_reloaded, hmark, settled_reread]
  cases hsettled : settled ((reloaded happened).marks.get digest) with
  | true =>
    obtain rfl := hmove.of_settled hsettled hlogs
    rwa [Option.none_or, ← settled_reread, ← marks_reloaded]
  | false =>
    obtain ⟨newest, thread, hdecides, hnew⟩ :=
      (hclear.baselined _ hline hturns).resolve_left (by simp [hsettled])
    have hbaselines : p.Baselines (reloaded happened) digest := ⟨newest, thread, hdecides, hnew, hsettled⟩
    cases hmove with
    | baseline _ | archived _ => rfl
    | stays hnot _ | seen _ hnot _ => exact absurd hbaselines hnot
    | withdrawn h | unarchived h => exact absurd hlogs h.2.1

theorem not_archived_when_old (hclear : ∀ before p after, passes = before ++ p :: after → Clear (replay before) p)
    {before since after : List Pass} {p q : Pass} {class_ : DecisionClass}
    (hpasses : passes = before ++ since ++ p :: after) (hfirst : (since ++ [p]).head? = some q)
    (hturns : q.TurnsOn (reloaded (replay before)) class_) (hlines : ∀ r ∈ since ++ [p], ⟨digest, class_⟩ ∈ r.log)
    {action : ArchiveAction} (haction : action ∈ (p.plan (reloaded (replay (before ++ since)))).actions)
    (hdigest : action.digest = digest) : action.change ≠ .archive := by
  have hlogs : ∀ r ∈ since ++ [p], r.Logs digest := fun r hr => List.mem_map_of_mem (hlines r hr)
  subst hdigest
  cases since with
  | nil =>
    obtain rfl := Option.some.inj hfirst
    rw [List.append_nil] at haction hpasses
    intro hchange
    -- The pass itself: what it baselines it does not archive.
    have hplanned := p.of_mem_actions haction
    rw [hchange] at hplanned
    obtain ⟨class', _, read, hdecides, -, hold, hseen, -⟩ := hplanned
    have hlive : ¬settled ((reloaded (replay before)).marks.get action.digest) = true := by simp [hseen, settled]
    obtain ⟨newest, _, hnewest, hnew⟩ :=
      ((hclear before p after hpasses).baselined _ (hlines p (List.mem_append_right _ List.mem_cons_self)) hturns).resolve_left hlive
    obtain rfl : class' = newest := Option.some.inj (hdecides.2.1.symm.trans hnewest.2.1)
    exact hnew hold
  | cons first rest =>
    obtain rfl := Option.some.inj hfirst
    have hfirst : Clear (replay before) first := hclear before first (rest ++ p :: after) (by rw [hpasses]; simp)
    have hsettled := settled_of_turnsOn hfirst (hlines first List.mem_cons_self) hturns
    rw [← replay_concat] at hsettled
    have hover := settled_over rest (fun r hr => hlogs r (List.mem_cons_of_mem _ (List.mem_append_left _ hr))) hsettled
    rw [List.append_assoc, List.singleton_append] at hover
    exact not_archived_of_settled haction hover

end Run

/-- Runs whose passes find every decision they should baseline, and leave each grace whole, archive nothing old,
nothing early and nothing twice. -/
theorem archives_new_decisions_once {passes : List Pass} {happened : List ArchiveEvent}
    (run : Run (Guarded Next Clear) [] passes happened) : Kept passes := by
  have hclear : ∀ before p after, passes = before ++ p :: after → Clear (replay before) p :=
    fun _ _ _ h => guard_of_run run h
  constructor
  · intro before since p after q digest class_ hpasses hfirst hturns hlines action haction hdigest
    exact not_archived_when_old hclear hpasses hfirst hturns hlines haction hdigest
  · intro before p after hpasses action haction hchange
    exact archived_after_grace hclear hpasses haction hchange
  · intro digest before thread at_ between thread' at_' after h
    exact archives_apart h
  · intro before p after _ action haction hchange
    exact undone_in_time p haction hchange

/-- A pass with archived decisions on, over one captured thread. -/
def passAt (log : List LoggedDecision) (inboxDir : Text) (seconds : ℤ) : Pass where
  archive := .on {.archive} (Finset.singleton_nonempty _)
  log := log
  imported := fun digest => if digest = "d-1".toList then some ⟨"t-1".toList, "inbox".toList⟩ else none
  inboxDir := inboxDir
  now := seconds * second
  permissionMissing := false
  answer := fun _ => .done (seconds * second)

/-- A decision made after the archive was turned on, archived a minute after it was seen. -/
def decidedLater : List Pass :=
  [passAt [] "inbox".toList 0, passAt [⟨"d-1".toList, .archive⟩] "inbox".toList 10,
    passAt [⟨"d-1".toList, .archive⟩] "inbox".toList 70]

theorem archives_new_decisions_once_decidedLater : Kept decidedLater := by
  have hold : ∀ class_ : DecisionClass, class_ ∈ ({.archive} : Finset DecisionClass) → ∀ state : ArchiveState,
      state.lastOn = some {.archive} → class_ ∈ state.previous := by
    intro class_ hclass state hlast
    rw [ArchiveState.previous, hlast]
    exact hclass
  have hclear : ∀ log dir seconds happened, (reloaded happened).lastOn = some {.archive} →
      (∀ digest at_, (ArchiveState.ofEvents happened).marks.get digest = some (.seen at_) → wholeSecond at_ = at_) →
        Clear happened (passAt log dir seconds) := by
    intro log dir seconds happened hlast hwhole
    refine ⟨?_, ?_, ?_⟩
    · intro line _ hturned
      obtain ⟨⟨on, hon', hclass⟩, hnew⟩ := hturned
      obtain rfl := Option.some.inj hon'
      exact absurd (hold _ hclass _ hlast) hnew
    · intro hoff
      rw [hlast] at hoff
      exact absurd (Option.some.inj hoff) (by decide)
    · intro digest class_ thread at_ _ _ hseen hgrace
      rwa [hwhole digest at_ hseen] at hgrace
  have hfirst : Clear [] (passAt [] "inbox".toList 0) := by
    refine ⟨fun line hline => absurd hline List.not_mem_nil, (fun hoff => by cases hoff), ?_⟩
    intro digest class_ thread at_ _ _ hseen
    cases hseen
  have hseen : replay [passAt [] "inbox".toList 0, passAt [⟨"d-1".toList, .archive⟩] "inbox".toList 10] =
      [.on {.archive} 0, .seen "d-1".toList "t-1".toList (10 * second)] := by decide
  refine archives_new_decisions_once (.cons ⟨hfirst, rfl⟩ (.cons ⟨hclear _ _ _ _ rfl ?_, rfl⟩ (.cons ⟨hclear _ _ _ _ rfl ?_, rfl⟩ (.nil _))))
  · intro digest at_ h
    cases h
  · intro digest at_ h
    change (ArchiveState.ofEvents (replay [passAt [] "inbox".toList 0, passAt [⟨"d-1".toList, .archive⟩] "inbox".toList 10])).marks.get digest = _ at h
    rw [hseen, marks_ofEvents] at h
    by_cases hd : "d-1".toList = digest
    · simp only [List.filterMap_cons, List.filterMap_nil, ArchiveEvent.markOf, if_pos hd, List.getLast?_singleton] at h
      obtain rfl := ArchiveMark.seen.inj (Option.some.inj h)
      decide
    · simp only [List.filterMap_cons, List.filterMap_nil, ArchiveEvent.markOf, if_neg hd, List.getLast?_nil] at h
      cases h

/-- A decision logged before the archive was turned on, while the inbox folder was another one. -/
def movedFolder : List Pass :=
  [passAt [⟨"d-1".toList, .archive⟩] "elsewhere".toList 0, passAt [⟨"d-1".toList, .archive⟩] "inbox".toList 10]

/-- Once the folder is back the old decision is met as new, and archived a minute later. -/
theorem old_decision_archived : ¬∀ passes, Kept passes := by
  intro h
  have hkept := (h (movedFolder ++ [passAt [⟨"d-1".toList, .archive⟩] "inbox".toList 70])).notOld [] movedFolder
    (passAt [⟨"d-1".toList, .archive⟩] "inbox".toList 70) [] (passAt [⟨"d-1".toList, .archive⟩] "elsewhere".toList 0)
    "d-1".toList .archive rfl rfl ⟨⟨_, rfl, by decide⟩, by decide⟩ (by decide)
    ⟨"d-1".toList, "t-1".toList, .archive⟩ (by decide) rfl
  exact hkept rfl

end Thock.Desk.Gmail
