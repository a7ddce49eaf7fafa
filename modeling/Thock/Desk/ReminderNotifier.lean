import Thock.Lib.Table
import Thock.Lib.ToldOnce
import Thock.Lib.Transition
import Thock.SyncCore.DueText

/-!
# The desk's reminder notifier

Open reminders ring once they are due, by themselves or counted in one summary of those that came due while the app
was closed. What has rung is kept in memory and in a file, which is rewritten by a save of its own after each change.

Saves may land in any order, and a restart reads what landed last. Where an older save lands after a newer one, what
rang in between rings again.
-/

namespace Thock.Desk.ReminderNotifier

open TextScan SyncCore Transition ToldOnce

inductive IndexedState
  | open_
  | closed
  | dropped
  /-- No home line, and the entry is stamped removed. -/
  | removed
  /-- No home line yet. -/
  | missing
deriving DecidableEq, Repr

/-- An entry of the index: what the notifier reads of it. -/
structure IndexedReminder where
  id : Text
  due : Option Due
  state : IndexedState
deriving DecidableEq, Repr

def IndexedReminder.isOpen (reminder : IndexedReminder) : Bool := reminder.state = .open_

structure ReminderSettings where
  dateOnlyAt : ClockTime
  ringOnDesk : Bool
deriving DecidableEq

/-- What the date library gives: the nanosecond at which a day begins. -/
structure Chronology where
  midnight : Day → ℤ

def nanosPerMinute : ℤ := 60 * 10 ^ 9

def nanosPerMilli : ℤ := 10 ^ 6

/-- The moment a reminder rings: its time, or that for reminders without one, on its day. -/
def dueAt (dates : Chronology) (due : Due) (dateOnlyAt : ClockTime) : ℤ :=
  let time := due.time.getD dateOnlyAt
  dates.midnight due.date + (60 * time.hour + time.minute : ℕ) * nanosPerMinute

/-- The due of every reminder that has rung, as text, by its id. -/
abbrev Fired := Table Text Text

inductive Event
  /-- A check read these entries. -/
  | read (reminders : List IndexedReminder)
  /-- A reminder rang by itself. -/
  | rung (id : Text) (due : Due)
  /-- A reminder was counted in the summary. -/
  | missed (id : Text) (due : Due)
deriving DecidableEq

structure Notifier where
  fired : Fired
  firedLoaded : Bool
  startedAt : ℤ
  summarized : Bool
  /-- When the next check is planned. -/
  wake : Option ℤ
deriving DecidableEq

/-! ## A check -/

/-- What a pass over the open reminders makes of those before. -/
structure Pass where
  fired : Fired
  next : Option ℤ
  told : List Event
  changed : Bool

/-- An open reminder with a due is passed. -/
def Notifier.visit (dates : Chronology) (notifier : Notifier) (settings : ReminderSettings) (now : ℤ) (pass : Pass)
    (id : Text) (due : Due) : Pass :=
  let key := Reminder.dueText due
  let at_ := dueAt dates due settings.dateOnlyAt
  if pass.fired.get id = some key then pass
  else if now < at_ then { pass with next := some (pass.next.elim at_ fun next => min next at_) }
  else
    let event := if at_ < notifier.startedAt && !notifier.summarized then Event.missed id due else Event.rung id due
    { pass with fired := pass.fired.put id key, told := pass.told ++ [event], changed := true }

/-- The open reminders are passed, in the index's order. -/
def Notifier.visitAll (dates : Chronology) (notifier : Notifier) (settings : ReminderSettings) (now : ℤ) (pass : Pass)
    (dues : List (Text × Due)) : Pass :=
  dues.foldl (fun pass entry => notifier.visit dates settings now pass entry.1 entry.2) pass

/-- The open reminders with a due. -/
def openDues (reminders : List IndexedReminder) : List (Text × Due) :=
  (reminders.filter IndexedReminder.isOpen).filterMap fun reminder => reminder.due.map fun due => (reminder.id, due)

/-- A reminder known to be closed, dropped or removed. -/
def isOver (reminders : List IndexedReminder) (id : Text) : Bool :=
  reminders.any fun reminder => reminder.id = id && reminder.state ∈ [.closed, .dropped, .removed]

/-- The notifier after a check, what it told and what it saves. -/
structure Checked where
  notifier : Notifier
  told : List Event
  save : Option Fired

/-- Rings what is due, then sleeps until the next due or a minute. -/
def Notifier.check (dates : Chronology) (notifier : Notifier) (reminders : List IndexedReminder)
    (settings : ReminderSettings) (now : ℤ) : Checked :=
  let wake := fun next : Option ℤ =>
    some (now + max nanosPerMilli (min (next.elim nanosPerMinute fun next => max 0 (next - now)) nanosPerMinute))
  if notifier.firedLoaded && settings.ringOnDesk then
    let pass := notifier.visitAll dates settings now ⟨notifier.fired, none, [], false⟩ (openDues reminders)
    let kept := pass.fired.filter fun entry => !isOver reminders entry.1
    ⟨{ notifier with fired := kept, summarized := true, wake := wake pass.next }, pass.told,
      if pass.changed || kept.length ≠ pass.fired.length then some kept else none⟩
  else ⟨{ notifier with wake := wake none }, [], none⟩

/-! ## Runs -/

/-- The notifier, what the index last read, the file of what has rung, the saves that have not landed, and what was
read and told so far. -/
structure World where
  notifier : Notifier
  reminders : Option (List IndexedReminder)
  file : Fired
  saves : List Fired
  history : List Event
deriving DecidableEq

/-- A check, once the index is loaded. -/
def World.check (dates : Chronology) (settings : ReminderSettings) (now : ℤ) (w : World) : World :=
  match w.reminders with
  | none => w
  | some reminders =>
    let checked := w.notifier.check dates reminders settings now
    { w with
      notifier := checked.notifier
      saves := w.saves ++ checked.save.toList
      history := w.history ++ [.read reminders] ++ checked.told }

inductive Action
  /-- What has rung is read from its file. -/
  | loadFired (settings : ReminderSettings) (now : ℤ)
  /-- The index was read. -/
  | index (reminders : List IndexedReminder) (settings : ReminderSettings) (now : ℤ)
  /-- The timer rings, or the day changes. -/
  | wake (settings : ReminderSettings) (now : ℤ)
  /-- A save lands. -/
  | land (save : ℕ)
  /-- The app is started again once every save has landed. -/
  | restart (now : ℤ)

def World.step (dates : Chronology) (w : World) : Action → Option World
  | .loadFired settings now =>
    if w.notifier.firedLoaded then none
    else some (World.check dates settings now { w with notifier := { w.notifier with fired := w.file, firedLoaded := true } })
  | .index reminders settings now => some (World.check dates settings now { w with reminders := some reminders })
  | .wake settings now => some (w.check dates settings now)
  | .land save => (w.saves[save]?).map fun fired => { w with file := fired, saves := w.saves.eraseIdx save }
  | .restart now =>
    if w.saves.isEmpty then some { w with notifier := ⟨[], false, now, false, none⟩, reminders := none } else none

def Next (dates : Chronology) (w : World) (action : Action) (t : World) : Prop := w.step dates action = some t

/-- A vault that never rang, as the app is started. -/
def Initial (w : World) : Prop := ∃ now, w = ⟨⟨[], false, now, false, none⟩, none, [], [], []⟩

/-! ## What is told once -/

/-- An event tells that a reminder is due. -/
def Tells (event : Event) (due : Text × Due) : Prop := event = .rung due.1 due.2 ∨ event = .missed due.1 due.2

/-- A reminder is open at a due, or is not found. -/
def StaysOpen (reminders : List IndexedReminder) (due : Text × Due) : Prop :=
  (∃ reminder ∈ reminders, reminder.id = due.1 ∧ reminder.state = .open_ ∧ reminder.due = some due.2) ∨
    ∀ reminder ∈ reminders, reminder.id = due.1 → reminder.state = .missing

/-- The entries that were read end it. -/
def Ends (event : Event) (due : Text × Due) : Prop := ∃ reminders, event = .read reminders ∧ ¬StaysOpen reminders due

/-- The entries of one id that have a line or are removed say the same. -/
def Agreeing (reminders : List IndexedReminder) : Prop :=
  ∀ a ∈ reminders, ∀ b ∈ reminders, a.id = b.id → a.state ≠ .missing → b.state ≠ .missing →
    a.state = b.state ∧ a.due = b.due

/-- Entries of one id agree in what a check reads, and at a restart the file holds what has rung in memory. -/
def Careful (w : World) : Action → Prop
  | .loadFired _ _ | .wake _ _ => ∀ reminders ∈ w.reminders, Agreeing reminders
  | .index reminders _ _ => Agreeing reminders
  | .land _ => True
  | .restart _ => w.notifier.firedLoaded → ∀ entry ∈ w.notifier.fired, w.file.get entry.1 = some entry.2

instance (reminders : List IndexedReminder) : Decidable (Agreeing reminders) := by
  unfold Agreeing
  infer_instance

instance (w : World) (action : Action) : Decidable (Careful w action) := by
  unfold Careful
  split <;> infer_instance

/-! ## One check -/

section

variable {dates : Chronology} {notifier : Notifier} {settings : ReminderSettings} {now : ℤ} {history : List Event}
  {reminders : List IndexedReminder} {fired : Fired}

theorem mem_openDues {entry : Text × Due} :
    entry ∈ openDues reminders ↔ ∃ reminder ∈ reminders, reminder.id = entry.1 ∧ reminder.state = .open_ ∧
      reminder.due = some entry.2 := by
  obtain ⟨id, due⟩ := entry
  simp only [openDues, List.mem_filterMap, List.mem_filter, IndexedReminder.isOpen, decide_eq_true_eq,
    Option.map_eq_some_iff, Prod.mk.injEq]
  constructor
  · intro h
    obtain ⟨reminder, ⟨hmem, hopen⟩, due', hdue, hid, rfl⟩ := h
    exact ⟨reminder, hmem, hid, hopen, hdue⟩
  · intro h
    obtain ⟨reminder, hmem, hid, hopen, hdue⟩ := h
    exact ⟨reminder, ⟨hmem, hopen⟩, due, hdue, hid, rfl⟩

/-- Of entries that agree, those of a reminder that is open at a due have no other. -/
theorem Agreeing.due_unique (h : Agreeing reminders) {id : Text} {due other : Due} (hdue : (id, due) ∈ openDues reminders)
    (hstays : StaysOpen reminders (id, other)) : other = due := by
  obtain ⟨reminder, hmem, hid, hopen, hat⟩ := mem_openDues.mp hdue
  cases hstays with
  | inl hthere =>
    obtain ⟨found, hfound, hsame, hstate, hother⟩ := hthere
    have hagree := h reminder hmem found hfound (hid.trans hsame.symm) (by simp [hopen]) (by simp [hstate])
    exact Option.some.inj (hother.symm.trans (hagree.2.symm.trans hat))
  | inr hmissing =>
    have hstate := hmissing reminder hmem hid
    rw [hopen] at hstate
    cases hstate

/-- Of entries that agree, none is over of a reminder that stays open. -/
theorem Agreeing.not_over (h : Agreeing reminders) {due : Text × Due} (hstays : StaysOpen reminders due) :
    isOver reminders due.1 = false := by
  rw [Bool.eq_false_iff]
  intro hover
  obtain ⟨ended, hmem, hstate⟩ := List.any_eq_true.mp hover
  simp only [List.mem_cons, List.not_mem_nil, or_false, Bool.and_eq_true, decide_eq_true_eq] at hstate
  obtain ⟨hid, hstate⟩ := hstate
  cases hstays with
  | inl hthere =>
    obtain ⟨found, hfound, hsame, hopen, -⟩ := hthere
    have hagree := h ended hmem found hfound (hid.trans hsame.symm) (by rintro hmissing; simp [hmissing] at hstate)
      (by simp [hopen])
    simp [hagree.1, hopen] at hstate
  | inr hmissing => simp [hmissing ended hmem hid] at hstate

/-- What has rung names only what was told. -/
def Told (history : List Event) (fired : Fired) : Prop :=
  ∀ id key, fired.get id = some key → ∃ due, key = Reminder.dueText due ∧ ∃ event ∈ history, Tells event (id, due)

theorem Told.mono (h : Told history fired) {more : List Event} : Told (history ++ more) fired := by
  intro id key hkey
  obtain ⟨due, hdue, event, hmem, htells⟩ := h id key hkey
  exact ⟨due, hdue, event, List.mem_append_left _ hmem, htells⟩

/-- What has rung names the due of every reminder that stands told, and nothing else than what was told. -/
structure Holds (history : List Event) (fired : Fired) : Prop where
  once : Once Tells Ends history
  held : ∀ due, Standing Tells Ends history due → fired.get due.1 = some (Reminder.dueText due.2)
  told : Told history fired

/-- What a pass over some open reminders made of a history that ends in reading them all. -/
structure Passed (reminders : List IndexedReminder) (history : List Event) (settings : ReminderSettings)
    (dates : Chronology) (now : ℤ) (visited : List (Text × Due)) (pass : Pass) : Prop where
  holds : Holds (history ++ pass.told) pass.fired
  stays : ∀ due, Standing Tells Ends (history ++ pass.told) due → StaysOpen reminders due
  settled : ∀ due ∈ visited, (∃ event ∈ history ++ pass.told, Tells event due) ∨
    now < dueAt dates due.2 settings.dateOnlyAt ∧ ∃ next, pass.next = some next ∧ next ≤ dueAt dates due.2 settings.dateOnlyAt

/-- An event of a check tells one due and ends none. -/
theorem tells_iff {event : Event} {id : Text} {due : Due} (hevent : event = .missed id due ∨ event = .rung id due)
    {other : Text × Due} : Tells event other ↔ other = (id, due) := by
  obtain ⟨otherId, otherDue⟩ := other
  cases hevent with
  | inl hmissed => simp [Tells, hmissed, eq_comm]
  | inr hrung => simp [Tells, hrung, eq_comm]

theorem not_ends {event : Event} {id : Text} {due : Due} (hevent : event = .missed id due ∨ event = .rung id due)
    {other : Text × Due} : ¬Ends event other := by
  intro hends
  obtain ⟨reminders, hread, -⟩ := hends
  cases hevent with
  | inl hmissed => simp [hmissed] at hread
  | inr hrung => simp [hrung] at hread

/-- A reminder is told that does not stand told. -/
theorem Holds.tell (h : Holds history fired) {event : Event} {id : Text} {due : Due}
    (hevent : event = .missed id due ∨ event = .rung id due) (hnew : fired.get id ≠ some (Reminder.dueText due))
    (hother : ∀ other, Standing Tells Ends history (id, other) → other = due) :
    Holds (history ++ [event]) (fired.put id (Reminder.dueText due)) := by
  refine ⟨h.once.snoc fun k hk hstanding => ?_, fun k hk => ?_, fun k key hkey => ?_⟩
  · rw [tells_iff hevent] at hk
    rw [hk] at hstanding
    exact hnew (h.held _ hstanding)
  · cases standing_snoc.mp hk with
    | inl htells =>
      rw [(tells_iff hevent).mp htells]
      exact Table.get_put_self _ _ _
    | inr hstood =>
      by_cases hid : k.1 = id
      · obtain ⟨kId, kDue⟩ := k
        obtain rfl : kId = id := hid
        rw [hother kDue hstood.1]
        exact Table.get_put_self _ _ _
      · rw [Table.get_put_of_ne _ _ hid]
        exact h.held k hstood.1
  · by_cases hid : k = id
    · rw [hid, Table.get_put_self] at hkey
      refine ⟨due, (Option.some.inj hkey).symm, event, List.mem_append_right _ (List.mem_singleton_self event), ?_⟩
      rw [hid]
      exact (tells_iff hevent).mpr rfl
    · rw [Table.get_put_of_ne _ _ hid] at hkey
      exact h.told.mono k key hkey

/-- One open reminder is passed. -/
theorem Passed.visit (notifier : Notifier) (hagree : Agreeing reminders) {visited : List (Text × Due)} {pass : Pass}
    (h : Passed reminders history settings dates now visited pass) {due : Text × Due} (hdue : due ∈ openDues reminders) :
    Passed reminders history settings dates now (visited ++ [due])
      (notifier.visit dates settings now pass due.1 due.2) := by
  unfold Notifier.visit
  dsimp only
  split
  · next hfired =>
    refine ⟨h.holds, h.stays, fun other hother => ?_⟩
    cases List.mem_append.mp hother with
    | inl hold => exact h.settled other hold
    | inr hlast =>
      obtain ⟨told, hkey, event, hmem, htells⟩ := h.holds.told _ _ hfired
      rw [List.mem_singleton.mp hlast]
      refine Or.inl ⟨event, hmem, ?_⟩
      rwa [← Reminder.dueText_injective hkey] at htells
  · next hfired =>
    split
    · next hfuture =>
      refine ⟨h.holds, h.stays, fun other hother => ?_⟩
      cases List.mem_append.mp hother with
      | inl hold =>
        refine (h.settled other hold).imp_right fun hlater => ⟨hlater.1, ?_⟩
        obtain ⟨next, hnext, hle⟩ := hlater.2
        rw [hnext]
        exact ⟨_, rfl, Int.le_trans (Int.min_le_left _ _) hle⟩
      | inr hlast =>
        rw [List.mem_singleton.mp hlast]
        refine Or.inr ⟨hfuture, _, rfl, ?_⟩
        cases pass.next with
        | none => exact Int.le_refl _
        | some next => exact Int.min_le_right _ _
    · next hpast =>
      generalize hevent : (if dueAt dates due.2 settings.dateOnlyAt < notifier.startedAt && !notifier.summarized then
        Event.missed due.1 due.2 else Event.rung due.1 due.2) = event
      have hkind : event = .missed due.1 due.2 ∨ event = .rung due.1 due.2 := by
        rw [← hevent]
        split
        · exact Or.inl rfl
        · exact Or.inr rfl
      have hholds := h.holds.tell hkind hfired fun other hother => hagree.due_unique hdue (h.stays _ hother)
      rw [List.append_assoc] at hholds
      refine ⟨hholds, fun other hother => ?_, fun other hother => ?_⟩
      · rw [← List.append_assoc] at hother
        cases standing_snoc.mp hother with
        | inl htells =>
          rw [(tells_iff hkind).mp htells]
          exact Or.inl (mem_openDues.mp hdue)
        | inr hstood => exact h.stays other hstood.1
      · rw [← List.append_assoc]
        cases List.mem_append.mp hother with
        | inl hold =>
          refine (h.settled other hold).imp_left fun htold => ?_
          obtain ⟨event', hmem, htells⟩ := htold
          exact ⟨event', List.mem_append_left _ hmem, htells⟩
        | inr hlast =>
          rw [List.mem_singleton.mp hlast]
          exact Or.inl ⟨event, List.mem_append_right _ (List.mem_singleton_self event), (tells_iff hkind).mpr rfl⟩

theorem Passed.visitAll (hagree : Agreeing reminders) {visited dues : List (Text × Due)} {pass : Pass}
    (h : Passed reminders history settings dates now visited pass) (hdues : ∀ due ∈ dues, due ∈ openDues reminders) :
    Passed reminders history settings dates now (visited ++ dues) (notifier.visitAll dates settings now pass dues) := by
  induction dues generalizing visited pass with
  | nil =>
    rw [List.append_nil]
    exact h
  | cons due rest ih =>
    have hnext := ih (h.visit notifier hagree (hdues due List.mem_cons_self)) fun other hother =>
      hdues other (List.mem_cons_of_mem due hother)
    rw [List.append_assoc] at hnext
    exact hnext

/-- Forgetting what is over keeps what stands told. -/
theorem Passed.kept (hagree : Agreeing reminders) {visited : List (Text × Due)} {pass : Pass}
    (h : Passed reminders history settings dates now visited pass) :
    Holds (history ++ pass.told) (pass.fired.filter fun entry => !isOver reminders entry.1) := by
  refine ⟨h.holds.once, fun due hdue => ?_, fun id key hkey => ?_⟩
  · rw [Table.get_filter_key pass.fired (fun id => !isOver reminders id), if_pos (by simp [hagree.not_over (h.stays due hdue)])]
    exact h.holds.held due hdue
  · rw [Table.get_filter_key pass.fired (fun id => !isOver reminders id)] at hkey
    split at hkey
    · exact h.holds.told id key hkey
    · cases hkey

theorem read_silent {due : Text × Due} : ¬Tells (.read reminders) due := by
  intro htells
  cases htells with
  | inl hrung => cases hrung
  | inr hmissed => cases hmissed

/-- What stands told after the entries were read stays open in them. -/
theorem stays_of_read {due : Text × Due} (h : Standing Tells Ends (history ++ [.read reminders]) due) :
    Standing Tells Ends history due ∧ StaysOpen reminders due := by
  obtain ⟨hstood, hends⟩ := (standing_snoc.mp h).resolve_left read_silent
  exact ⟨hstood, by_contra fun hnot => hends ⟨reminders, rfl, hnot⟩⟩

/-- Reading tells nothing. -/
theorem Holds.read (h : Holds history fired) (reminders : List IndexedReminder) :
    Holds (history ++ [.read reminders]) fired :=
  ⟨h.once.snoc fun _ hdue => absurd hdue read_silent, fun due hdue => h.held due (stays_of_read hdue).1, h.told.mono⟩

/-- A pass begins once the entries were read. -/
theorem Holds.start (h : Holds history fired) : Passed reminders (history ++ [.read reminders]) settings dates now []
    ⟨fired, none, [], false⟩ := by
  refine ⟨?_, fun due hdue => ?_, fun due hdue => absurd hdue List.not_mem_nil⟩
  · rw [List.append_nil]
    exact h.read reminders
  · rw [List.append_nil] at hdue
    exact (stays_of_read hdue).2

/-- The pass of a check over all open reminders. -/
theorem Holds.pass (dates : Chronology) (settings : ReminderSettings) (now : ℤ) (h : Holds history notifier.fired)
    (hagree : Agreeing reminders) : Passed reminders (history ++ [.read reminders]) settings dates now (openDues reminders)
      (notifier.visitAll dates settings now ⟨notifier.fired, none, [], false⟩ (openDues reminders)) :=
  Passed.visitAll hagree h.start fun _ hdue => hdue

/-- A check keeps what is told once, and saves what has rung. -/
theorem Holds.check (dates : Chronology) (settings : ReminderSettings) (now : ℤ) (h : Holds history notifier.fired)
    (hagree : Agreeing reminders) :
    Holds (history ++ [.read reminders] ++ (notifier.check dates reminders settings now).told)
        (notifier.check dates reminders settings now).notifier.fired ∧
      ∀ save ∈ (notifier.check dates reminders settings now).save,
        save = (notifier.check dates reminders settings now).notifier.fired := by
  unfold Notifier.check
  dsimp only
  split
  · refine ⟨(h.pass dates settings now hagree).kept hagree, fun save hsave => ?_⟩
    dsimp only at hsave
    split at hsave
    · exact (Option.some.inj hsave).symm
    · cases hsave
  · refine ⟨?_, fun save hsave => nomatch hsave⟩
    rw [List.append_nil]
    exact h.read reminders

end

/-! ## Runs -/

section

variable {dates : Chronology} {w t : World} {settings : ReminderSettings} {now : ℤ}

/-- What has rung, in memory or, before it is read, in the file. -/
def World.fired (w : World) : Fired := if w.notifier.firedLoaded then w.notifier.fired else w.file

structure Inv (w : World) : Prop where
  holds : Holds w.history w.fired
  file : Told w.history w.file
  saves : ∀ save ∈ w.saves, Told w.history save
  quiet : w.notifier.firedLoaded = false → w.saves = []

/-- After a check every open reminder was told whose due has passed, and the next check is planned in time. -/
structure Rings (dates : Chronology) (settings : ReminderSettings) (now : ℤ) (reminders : List IndexedReminder)
    (t : World) : Prop where
  told : ∀ due ∈ openDues reminders, dueAt dates due.2 settings.dateOnlyAt ≤ now → ∃ event ∈ t.history, Tells event due
  wake : ∃ wake, t.notifier.wake = some wake ∧ now < wake ∧ wake ≤ now + nanosPerMinute ∧
    ∀ due ∈ openDues reminders, (∀ event ∈ t.history, ¬Tells event due) →
      wake ≤ max (now + nanosPerMilli) (dueAt dates due.2 settings.dateOnlyAt)

theorem check_firedLoaded (notifier : Notifier) (reminders : List IndexedReminder) :
    (notifier.check dates reminders settings now).notifier.firedLoaded = notifier.firedLoaded := by
  unfold Notifier.check
  dsimp only
  split <;> rfl

/-- Before what has rung is read, a check changes nothing of it. -/
theorem check_unloaded (dates : Chronology) (settings : ReminderSettings) (now : ℤ) (notifier : Notifier)
    (reminders : List IndexedReminder) (h : notifier.firedLoaded = false) :
    (notifier.check dates reminders settings now).told = [] ∧ (notifier.check dates reminders settings now).save = none := by
  unfold Notifier.check
  simp [h]

theorem Inv.check (h : Inv w) (hagree : ∀ reminders, w.reminders = some reminders → Agreeing reminders) :
    Inv (w.check dates settings now) := by
  unfold World.check
  cases hreminders : w.reminders with
  | none => exact h
  | some reminders =>
    have hholds := h.holds
    unfold World.fired at hholds
    dsimp only
    cases hloaded : w.notifier.firedLoaded with
    | false =>
      obtain ⟨htold, hsave⟩ := check_unloaded dates settings now w.notifier reminders hloaded
      rw [hloaded, if_neg Bool.false_ne_true] at hholds
      refine ⟨?_, ?_, ?_, fun _ => ?_⟩
      · simp only [World.fired, check_firedLoaded, hloaded, Bool.false_eq_true, if_false, htold, List.append_nil]
        exact hholds.read reminders
      · simpa only [htold, List.append_nil] using h.file.mono
      · simpa only [htold, hsave, Option.toList_none, List.append_nil] using fun save hsave => (h.saves save hsave).mono
      · simpa only [hsave, Option.toList_none, List.append_nil] using h.quiet hloaded
    | true =>
      rw [hloaded, if_pos rfl] at hholds
      obtain ⟨hchecked, hsaves⟩ := hholds.check dates settings now (hagree reminders hreminders)
      refine ⟨?_, ?_, fun save hsave => ?_, fun hunloaded => ?_⟩
      · simp only [World.fired, check_firedLoaded, hloaded, if_true]
        exact hchecked
      · exact h.file.mono.mono
      · cases List.mem_append.mp hsave with
        | inl hold => exact (h.saves save hold).mono.mono
        | inr hnew =>
          rw [hsaves save (Option.mem_toList.mp hnew)]
          exact hchecked.told
      · rw [check_firedLoaded, hloaded] at hunloaded
        cases hunloaded

/-- What has rung is read from the file. -/
theorem Inv.load (h : Inv w) (hloaded : ¬w.notifier.firedLoaded = true) :
    Inv { w with notifier := { w.notifier with fired := w.file, firedLoaded := true } } := by
  have hfile : w.fired = w.file := if_neg hloaded
  exact ⟨hfile ▸ h.holds, h.file, h.saves, fun hfalse => absurd hfalse.symm Bool.false_ne_true⟩

theorem Inv.index (h : Inv w) (reminders : List IndexedReminder) : Inv { w with reminders := some reminders } :=
  ⟨h.holds, h.file, h.saves, h.quiet⟩

/-- A step of a careful run keeps the invariant. -/
theorem Inv.next {action : Action} (h : Inv w) (hcareful : Careful w action) (hstep : Next dates w action t) : Inv t := by
  cases action with
  | loadFired settings now =>
    simp only [Next, World.step] at hstep
    split at hstep
    · cases hstep
    · next hloaded => exact Option.some.inj hstep ▸ (h.load hloaded).check hcareful
  | index reminders settings now =>
    exact Option.some.inj hstep ▸ (h.index reminders).check fun read hread => Option.some.inj hread ▸ hcareful
  | wake settings now => exact Option.some.inj hstep ▸ h.check hcareful
  | land save =>
    obtain ⟨fired, hfired, rfl⟩ := Option.map_eq_some_iff.mp hstep
    have hmem : fired ∈ w.saves := List.mem_of_getElem? hfired
    refine ⟨?_, h.saves fired hmem, fun other hother => h.saves other (List.mem_of_mem_eraseIdx hother), fun hunloaded => ?_⟩
    · cases hloaded : w.notifier.firedLoaded with
      | false =>
        rw [h.quiet hloaded] at hmem
        exact absurd hmem List.not_mem_nil
      | true =>
        have hholds := h.holds
        simp only [World.fired, hloaded, if_true] at hholds ⊢
        exact hholds
    · rw [h.quiet hunloaded] at hmem
      exact absurd hmem List.not_mem_nil
  | restart now =>
    simp only [Next, World.step] at hstep
    split at hstep
    · next hsaves =>
      obtain rfl := Option.some.inj hstep
      refine ⟨⟨h.holds.once, fun due hdue => ?_, h.file⟩, h.file, h.saves, fun _ => List.isEmpty_iff.mp hsaves⟩
      have hheld := h.holds.held due hdue
      unfold World.fired at hheld
      split at hheld
      · next hloaded => exact hcareful hloaded _ (Table.mem_of_get hheld)
      · exact hheld
    · cases hstep

theorem told_nil (history : List Event) : Told history [] := fun _ _ hkey => absurd hkey (Option.some_ne_none _).symm

theorem Initial.inv (h : Initial w) : Inv w := by
  obtain ⟨now, rfl⟩ := h
  have hholds : Holds [] [] := ⟨once_nil, fun _ hdue => absurd hdue not_standing_nil, told_nil []⟩
  exact ⟨hholds, told_nil [], fun _ hsave => absurd hsave List.not_mem_nil, fun _ => rfl⟩

/-- A check reads the reminders and what has rung as they are. -/
theorem check_reads (dates : Chronology) (settings : ReminderSettings) (now : ℤ) (w : World) :
    (w.check dates settings now).reminders = w.reminders ∧ (w.check dates settings now).notifier.firedLoaded = w.notifier.firedLoaded := by
  unfold World.check
  cases hreminders : w.reminders with
  | none => exact ⟨hreminders, rfl⟩
  | some reminders => exact ⟨rfl, check_firedLoaded _ _⟩

/-- What a check with ringing on makes of what has rung. -/
theorem Inv.rings (h : Inv w) (hagree : ∀ reminders, w.reminders = some reminders → Agreeing reminders)
    (hloaded : (w.check dates settings now).notifier.firedLoaded = true) (hring : settings.ringOnDesk = true)
    {reminders : List IndexedReminder} (hreminders : (w.check dates settings now).reminders = some reminders) :
    Rings dates settings now reminders (w.check dates settings now) := by
  obtain ⟨hread, hfired⟩ := check_reads dates settings now w
  rw [hread] at hreminders
  rw [hfired] at hloaded
  have hholds := h.holds
  rw [World.fired, if_pos hloaded] at hholds
  have hpassed := hholds.pass dates settings now (hagree reminders hreminders)
  simp only [World.check, hreminders, Notifier.check, hloaded, hring, Bool.and_self, if_true]
  generalize w.notifier.visitAll dates settings now ⟨w.notifier.fired, none, [], false⟩ (openDues reminders) = pass at hpassed
  refine ⟨fun due hdue hpast => ?_, _, rfl, ?_, ?_, fun due hdue hnone => ?_⟩
  · exact (hpassed.settled due hdue).resolve_right fun hfuture => by omega
  · unfold nanosPerMilli nanosPerMinute
    omega
  · unfold nanosPerMilli nanosPerMinute
    omega
  · obtain ⟨hfuture, next, hnext, hle⟩ := (hpassed.settled due hdue).resolve_left fun htold => by
      obtain ⟨event, hmem, htells⟩ := htold
      exact hnone event hmem htells
    rw [hnext]
    unfold nanosPerMilli nanosPerMinute
    simp only [Option.elim_some]
    omega

end

/-- The settings and the moment of a step that checks. -/
def Action.checkOf : Action → Option (ReminderSettings × ℤ)
  | .loadFired settings now | .index _ settings now | .wake settings now => some (settings, now)
  | .land _ | .restart _ => none

/-- In every run whose readings agree and whose restarts find in the file what has rung, no reminder is told twice while it
stays open at its due, and each check with ringing on tells every open reminder whose due has passed. -/
theorem rung_once (dates : Chronology) {w : World} (h : Reachable (Guarded (Next dates) Careful) Initial w) :
    Once Tells Ends w.history ∧ ∀ action t settings now reminders, Guarded (Next dates) Careful w action t →
      action.checkOf = some (settings, now) → t.notifier.firedLoaded = true → settings.ringOnDesk = true →
      t.reminders = some reminders → Rings dates settings now reminders t := by
  have hinv : Inv w := h.invariant Inv (fun _ hinitial => hinitial.inv) fun _ _ _ hinv hstep => hinv.next hstep.1 hstep.2
  refine ⟨hinv.holds.once, fun action t settings now reminders hstep hcheck hloaded hring hreminders => ?_⟩
  obtain ⟨hcareful, hnext⟩ := hstep
  cases action with
  | loadFired asked moment =>
    obtain ⟨rfl, rfl⟩ := Prod.mk.inj (Option.some.inj hcheck)
    simp only [Next, World.step] at hnext
    split at hnext
    · cases hnext
    · next hunloaded =>
      obtain rfl := Option.some.inj hnext
      exact (hinv.load hunloaded).rings hcareful hloaded hring hreminders
  | index read asked moment =>
    obtain ⟨rfl, rfl⟩ := Prod.mk.inj (Option.some.inj hcheck)
    obtain rfl := Option.some.inj hnext
    exact (hinv.index read).rings (fun other hother => Option.some.inj hother ▸ hcareful) hloaded hring hreminders
  | wake asked moment =>
    obtain ⟨rfl, rfl⟩ := Prod.mk.inj (Option.some.inj hcheck)
    obtain rfl := Option.some.inj hnext
    exact hinv.rings hcareful hloaded hring hreminders
  | land save => cases hcheck
  | restart moment => cases hcheck

/-! ## Runs that ring twice, and one that does not -/

def plumber : Text × Due :=
  ("7d3e55a1c0f2".toList, ⟨(Day.ofYmd 2026 10 21).get (by decide), ClockTime.ofHm 14 30⟩)

def boiler : Text × Due := ("7c11e0b4d2a9".toList, ⟨plumber.2.date, ClockTime.ofHm 14 31⟩)

/-- One day, which begins at zero. -/
def oneDay : Chronology := ⟨fun _ => 0⟩

def nineOClock : ReminderSettings := ⟨(ClockTime.ofHm 9 0).get (by decide), true⟩

def entry (due : Text × Due) : IndexedReminder := ⟨due.1, some due.2, .open_⟩

def minutes (n : ℤ) : ℤ := n * nanosPerMinute

def started : World := ⟨⟨[], false, minutes 840, false, none⟩, none, [], [], []⟩

theorem started_initial : Initial started := ⟨_, rfl⟩

/-- One reminder rings, then another. -/
def ringing : List Action :=
  [.loadFired nineOClock (minutes 840), .index [entry plumber, entry boiler] nineOClock (minutes 840),
    .wake nineOClock (minutes 870), .wake nineOClock (minutes 871)]

/-- After a restart the reminders are read again. -/
def again : List Action :=
  [.restart (minutes 900), .loadFired nineOClock (minutes 900), .index [entry plumber, entry boiler] nineOClock (minutes 900)]

def landedInOrder : List Action := ringing ++ [.land 0, .land 0] ++ again

/-- The first save lands after the second. -/
def landedLate : List Action := ringing ++ [.land 1, .land 0] ++ again

def after (actions : List Action) : World := (follow (World.step oneDay) started actions).getD started

theorem after_run {actions : List Action} (h : (follow (World.step oneDay) started actions).isSome) :
    Run (Next oneDay) started actions (after actions) := by
  obtain ⟨t, ht⟩ := Option.isSome_iff_exists.mp h
  rw [after, ht]
  exact Run.of_follow (fun _ _ _ hstep => hstep) ht

theorem rung_once_landedInOrder : Once Tells Ends (after landedInOrder).history ∧
    Rings oneDay nineOClock (minutes 901) [entry plumber, entry boiler]
      ((after landedInOrder).check oneDay nineOClock (minutes 901)) := by
  have hrun : Run (Guarded (Next oneDay) Careful) started landedInOrder (after landedInOrder) :=
    Run.of_follow_allow (fun _ _ _ hstep => hstep) (by decide +kernel)
  have honce := rung_once oneDay ⟨started, landedInOrder, started_initial, hrun⟩
  exact ⟨honce.1, honce.2 (.wake nineOClock (minutes 901)) _ _ _ _ ⟨by decide +kernel, rfl⟩ rfl (by decide +kernel) rfl
    (by decide +kernel)⟩

/-- What a reading shows open at a due does not end it. -/
theorem not_ends_of_open {reminders : List IndexedReminder} {due : Text × Due} (h : entry due ∈ reminders) :
    ¬Ends (.read reminders) due := by
  intro hends
  obtain ⟨read, hread, hnot⟩ := hends
  rw [← Event.read.inj hread] at hnot
  exact hnot (Or.inl ⟨entry due, h, rfl, rfl, rfl⟩)

/-- A reminder that rang before a restart is counted as missed after it, where the newer save landed first. -/
theorem late_save_rings_again : ¬∀ (dates : Chronology) (s w : World) (actions : List Action), Initial s →
    Run (Next dates) s actions w → Once Tells Ends w.history := by
  intro h
  have honce := h oneDay started (after landedLate) landedLate started_initial (after_run (by decide +kernel))
  obtain ⟨event, hmem, hends⟩ := honce boiler
    [.read [entry plumber, entry boiler], .read [entry plumber, entry boiler], .rung plumber.1 plumber.2,
      .read [entry plumber, entry boiler]]
    (.rung boiler.1 boiler.2) [.read [entry plumber, entry boiler]] (.missed boiler.1 boiler.2) [] (by decide +kernel)
    (Or.inl rfl) (Or.inr rfl)
  rw [List.mem_singleton.mp hmem] at hends
  exact not_ends_of_open (by decide) hends

/-- The index lists the id of a line that was copied and given another due. -/
def copied : List IndexedReminder := [entry plumber, entry (plumber.1, boiler.2)]

/-- Two dues of one id ring at every check. -/
theorem copied_id_rings_again : ¬Once Tells Ends
    (after [.loadFired nineOClock (minutes 840), .index copied nineOClock (minutes 871), .wake nineOClock (minutes 872)]).history := by
  intro honce
  obtain ⟨event, hmem, hends⟩ := honce plumber [.read copied] (.rung plumber.1 plumber.2)
    [.rung plumber.1 boiler.2, .read copied] (.rung plumber.1 plumber.2) [.rung plumber.1 boiler.2] (by decide +kernel)
    (Or.inl rfl) (Or.inl rfl)
  cases List.mem_cons.mp hmem with
  | inl hrung => exact not_ends (Or.inr hrung) hends
  | inr hread =>
    rw [List.mem_singleton.mp hread] at hends
    exact not_ends_of_open (by decide) hends

end Thock.Desk.ReminderNotifier
