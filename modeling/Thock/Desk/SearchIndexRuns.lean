import Thock.Desk.SearchIndexBuilds

/-!
# When the search index is the vault again

The stored index fits a note when the newest read of it has seen the note as it is, or there is none and the
entry is a fresh one. That holds of every note no event is on its way for, as long as the steps keep an order.

An index falls behind in four ways: a change arrives after a build is past the note, an older read is stored
over a newer one or over a removal, a note that can no longer be read keeps its entry, and a note below a link
is read at all.
-/

namespace Thock.Desk.Bridge.Search

open TextScan SyncCore Transition

variable {prim : Primitives}

/-! ## The newest read of a note -/

/-- The read of a note that was started last, of those under way. -/
def newest (path : NotePath) (reads : List NoteRead) : Option NoteRead :=
  (reads.filter fun read => read.path = path).getLast?

theorem newest_append (path : NotePath) (older newer : List NoteRead) :
    newest path (older ++ newer) = (newest path newer).or (newest path older) := by
  rw [newest, List.filter_append, List.getLast?_append]
  rfl

theorem newest_eq_none_iff {path : NotePath} {reads : List NoteRead} :
    newest path reads = none ↔ ∀ read ∈ reads, read.path ≠ path := by
  simp [newest]

theorem newest_mem {path : NotePath} {reads : List NoteRead} {read : NoteRead} (h : newest path reads = some read) :
    read ∈ reads ∧ read.path = path := by
  simpa using List.mem_of_getLast? h

/-- What stands between older and newer reads is the newest where no newer one is of its note. -/
theorem newest_middle (path : NotePath) (older newer : List NoteRead) (read : NoteRead) :
    newest path (older ++ read :: newer) =
      ((newest path newer).or (if read.path = path then some read else none)).or (newest path older) := by
  rw [← List.singleton_append, newest_append, newest_append]
  congr 2
  by_cases h : read.path = path <;> simp [newest, h]

/-! ## Steps that keep an order -/

/-- No event of a note is on its way. -/
def Service.Told (service : Service) (path : NotePath) : Prop := ∀ event ∈ service.events, event.path ≠ path

/-- The last event of a note arrives while every build has still to come to it, and a removal before a read of
it has seen anything. The newest read of a note is stored before an older one has seen anything, and the only
one finds something of a note a walk comes to and nothing of a note without an entry. -/
def Orderly (service : Service) : Move → Prop
  | .deliver => ∀ event rest, service.events = event :: rest → indexes event.path = true →
      (∀ later ∈ rest, later.path ≠ event.path) →
      (∀ build ∈ service.builds, build.Ahead service.disk event.path) ∧
        (event.removed = true → ∀ read ∈ service.reads, read.path = event.path → read.stage = .started)
  | .store n => ∀ path found, service.reads[n]? = some ⟨path, .finished found⟩ → service.Told path →
      (∀ newer ∈ service.reads.drop (n + 1), newer.path ≠ path) →
      (∀ older ∈ service.reads.take n, older.path = path → older.stage = .started) ∧
        ((∀ older ∈ service.reads.take n, older.path ≠ path) →
          if found.isSome then service.disk.Reaches path else ∀ index ∈ service.index, index path = none)
  | _ => True

/-- The index and the reads under way fit a note. -/
structure Service.Fits (prim : Primitives) (service : Service) (path : NotePath) : Prop where
  builds : ∀ build ∈ service.builds, build.Fits prim service.disk path
  current : ∀ read ∈ newest path service.reads, read.Current service.disk
  entry : ∀ index ∈ service.index, newest path service.reads = none → index path = freshIndex prim service.disk path

structure Service.Inv (prim : Primitives) (service : Service) : Prop where
  apart : ∀ build ∈ service.builds, build.Apart
  gone : ∀ front event back, service.events = front ++ event :: back → indexes event.path = true →
    event.removed = true → (∀ other ∈ back, other.path ≠ event.path) → service.disk.metadata event.path = none
  idle : service.index = none → service.reads = []
  indexed : ∀ read ∈ service.reads, indexes read.path = true
  only : ∀ index ∈ service.index, ∀ path, index path ≠ none → indexes path = true
  fits : ∀ path, indexes path = true → service.Told path → service.Fits prim path

theorem Service.inv_initial {service : Service} (h : Initial service) : service.Inv prim := by
  obtain ⟨hevents, hindex, hreads, hbuilds⟩ := h
  exact
    { apart := by simp [hbuilds]
      gone := by simp [hevents]
      idle := fun _ => hreads
      indexed := by simp [hreads]
      only := by simp [hindex]
      fits := fun path _ _ =>
        { builds := by simp [hbuilds]
          current := by simp [hreads, newest]
          entry := by simp [hindex] } }

/-! ## What a step does -/

section

variable {service later : Service}

theorem Service.Inv.change (h : service.Inv prim) {disk : Disk} {events : List FileEvent}
    (hreports : Reports service.disk disk events) :
    Service.Inv prim { service with disk := disk, events := service.events ++ events } where
  apart := h.apart
  gone := fun front event back hsplit hindexes hremoved hback => by
    cases List.append_eq_append_iff.mp hsplit with
    | inl hnew =>
      obtain ⟨middle, -, hevents⟩ := hnew
      exact hreports.gone middle event back hevents hremoved hback
    | inr hold =>
      obtain ⟨middle, hevents, hmiddle⟩ := hold
      cases middle with
      | nil => exact hreports.gone [] event back hmiddle.symm hremoved hback
      | cons first middle =>
        obtain ⟨rfl, hbackEvents⟩ := List.cons.inj hmiddle
        have hmissing := h.gone front event middle hevents hindexes hremoved fun other hother =>
          hback other (hbackEvents.symm ▸ List.mem_append_left events hother)
        have hsame := hreports.told event.path hindexes fun other hother =>
          hback other (hbackEvents.symm ▸ List.mem_append_right middle hother)
        exact hsame.metadata.trans hmissing
  idle := h.idle
  indexed := h.indexed
  only := h.only
  fits := fun path hindexes htold => by
    have hsame := hreports.told path hindexes fun event hevent => htold event (List.mem_append_right _ hevent)
    have hfits := h.fits path hindexes fun event hevent => htold event (List.mem_append_left _ hevent)
    exact
      { builds := fun build hbuild => hsame.fits (hfits.builds build hbuild)
        current := fun read hread =>
          SameNote.current ((newest_mem hread).2.symm ▸ hsame) (hfits.current read hread)
        entry := fun index hindex hnone => (hfits.entry index hindex hnone).trans hsame.freshIndex.symm }

/-- Whatever happens to a note's events, the events still on their way end as they did. -/
theorem Service.Inv.gone_rest (h : service.Inv prim) {event : FileEvent} {rest : List FileEvent}
    (hevents : service.events = event :: rest) : ∀ front event' back, rest = front ++ event' :: back →
      indexes event'.path = true → event'.removed = true → (∀ other ∈ back, other.path ≠ event'.path) →
        service.disk.metadata event'.path = none := by
  intro front event' back hrest
  exact h.gone (event :: front) event' back (by rw [hevents, hrest]; rfl)

theorem Service.told_rest {event : FileEvent} {rest : List FileEvent} (hevents : service.events = event :: rest)
    {path : NotePath} (hne : event.path ≠ path) (htold : ∀ other ∈ rest, other.path ≠ path) : service.Told path := by
  intro other hother
  rw [hevents] at hother
  cases List.mem_cons.mp hother with
  | inl heq => exact heq ▸ hne
  | inr hrest => exact htold other hrest

/-- An event of a path the index does not hold is passed over. -/
theorem Service.Inv.pass (h : service.Inv prim) {event : FileEvent} {rest : List FileEvent}
    (hevents : service.events = event :: rest) (hindexes : indexes event.path = false) :
    Service.Inv prim { service with events := rest } where
  apart := h.apart
  gone := h.gone_rest hevents
  idle := h.idle
  indexed := h.indexed
  only := h.only
  fits := fun path hpath htold => by
    have hne : event.path ≠ path := by
      rintro rfl
      simp [hpath] at hindexes
    have hfits := h.fits path hpath (Service.told_rest hevents hne htold)
    exact ⟨hfits.builds, hfits.current, hfits.entry⟩

/-- An event that arrives before there is an index is lost. -/
theorem Service.Inv.lose (h : service.Inv prim) {event : FileEvent} {rest : List FileEvent}
    (hevents : service.events = event :: rest) (hindex : service.index = none)
    (hbuilds : (∀ later ∈ rest, later.path ≠ event.path) →
      ∀ build ∈ service.builds, build.Ahead service.disk event.path) :
    Service.Inv prim { service with events := rest } where
  apart := h.apart
  gone := h.gone_rest hevents
  idle := h.idle
  indexed := h.indexed
  only := h.only
  fits := fun path hpath htold => by
    by_cases hne : event.path = path
    · rw [← hne] at htold ⊢
      exact
        { builds := fun build hbuild => Or.inl (hbuilds htold build hbuild)
          current := by simp [h.idle hindex, newest]
          entry := by simp [hindex] }
    · have hfits := h.fits path hpath (Service.told_rest hevents hne htold)
      exact ⟨hfits.builds, hfits.current, hfits.entry⟩

theorem Service.Inv.remove (h : service.Inv prim) {event : FileEvent} {rest : List FileEvent}
    (hevents : service.events = event :: rest) (hindexes : indexes event.path = true) (hremoved : event.removed = true)
    {index : SearchIndex} (hindex : service.index = some index)
    (horderly : (∀ later ∈ rest, later.path ≠ event.path) →
      (∀ build ∈ service.builds, build.Ahead service.disk event.path) ∧
        ∀ read ∈ service.reads, read.path = event.path → read.stage = .started) :
    Service.Inv prim { service with events := rest, index := some (index.remove event.path) } where
  apart := h.apart
  gone := h.gone_rest hevents
  idle := fun hnone => by cases hnone
  indexed := h.indexed
  only := fun later hlater path hfound => by
    obtain rfl := Option.some.inj hlater
    by_cases hne : path = event.path
    · rw [hne]
      exact hindexes
    · rw [SearchIndex.remove, Function.update_of_ne hne] at hfound
      exact h.only index hindex path hfound
  fits := fun path hpath htold => by
    by_cases hne : event.path = path
    · rw [← hne] at htold ⊢
      have hmissing := h.gone [] event rest hevents hindexes hremoved htold
      exact
        { builds := fun build hbuild => Or.inl ((horderly htold).1 build hbuild)
          current := fun read hread => by
            obtain ⟨hmem, hnote⟩ := newest_mem hread
            exact NoteRead.current_of_started ((horderly htold).2 read hmem hnote)
          entry := fun later hlater _ => by
            obtain rfl := Option.some.inj hlater
            rw [freshIndex_of_unread (readIndexEntry_of_missing hmissing)]
            exact Function.update_self _ _ _ }
    · have hfits := h.fits path hpath (Service.told_rest hevents hne htold)
      exact
        { builds := hfits.builds
          current := hfits.current
          entry := fun later hlater hnone => by
            obtain rfl := Option.some.inj hlater
            exact (Function.update_of_ne (Ne.symm hne) _ _).trans (hfits.entry index hindex hnone) }

/-- A change starts a read, which has seen nothing yet. -/
theorem Service.Inv.start (h : service.Inv prim) {event : FileEvent} {rest : List FileEvent}
    (hevents : service.events = event :: rest) (hindexes : indexes event.path = true) (hindex : service.index ≠ none)
    (hbuilds : (∀ later ∈ rest, later.path ≠ event.path) →
      ∀ build ∈ service.builds, build.Ahead service.disk event.path) :
    Service.Inv prim { service with events := rest, reads := service.reads ++ [⟨event.path, .started⟩] } where
  apart := h.apart
  gone := h.gone_rest hevents
  idle := fun hnone => absurd hnone hindex
  indexed := fun read hmem => by
    cases List.mem_append.mp hmem with
    | inl hold => exact h.indexed read hold
    | inr hnew =>
      rw [List.mem_singleton.mp hnew]
      exact hindexes
  only := h.only
  fits := fun path hpath htold => by
    by_cases hne : event.path = path
    · rw [← hne] at htold ⊢
      have hnewest : newest event.path (service.reads ++ [⟨event.path, .started⟩]) = some ⟨event.path, .started⟩ := by
        simp [newest]
      exact
        { builds := fun build hbuild => Or.inl (hbuilds htold build hbuild)
          current := fun read hmem => by
            obtain rfl := Option.some.inj (hnewest.symm.trans hmem)
            exact NoteRead.current_of_started rfl
          entry := fun later hlater hnone => by
            rw [hnewest] at hnone
            cases hnone }
    · have hfits := h.fits path hpath (Service.told_rest hevents hne htold)
      have hnewest : newest path (service.reads ++ [⟨event.path, .started⟩]) = newest path service.reads := by
        simp [newest, hne]
      exact
        { builds := hfits.builds
          current := fun read hmem => hfits.current read (hnewest ▸ hmem)
          entry := fun later hlater hnone => hfits.entry later hlater (hnewest.symm.trans hnone) }

theorem Service.Inv.deliver (h : service.Inv prim) {event : FileEvent} {rest : List FileEvent}
    (hevents : service.events = event :: rest) (hindexes : indexes event.path = true)
    (horderly : (∀ later ∈ rest, later.path ≠ event.path) →
      (∀ build ∈ service.builds, build.Ahead service.disk event.path) ∧
        (event.removed = true → ∀ read ∈ service.reads, read.path = event.path → read.stage = .started)) :
    (Service.indexChanged { service with events := rest } event).Inv prim := by
  have hbuilds := fun hlast => (horderly hlast).1
  obtain hindex | ⟨index, hindex⟩ := Option.eq_none_or_eq_some service.index
  · have hlose : Service.indexChanged { service with events := rest } event = { service with events := rest } := by
      simp [Service.indexChanged, hindex]
    rw [hlose]
    exact h.lose hevents hindex hbuilds
  · cases hremoved : event.removed with
    | true =>
      have hremove : Service.indexChanged { service with events := rest } event =
          { service with events := rest, index := some (index.remove event.path) } := by
        simp [Service.indexChanged, hindex, hremoved]
      rw [hremove]
      exact h.remove hevents hindexes hremoved hindex fun hlast =>
        ⟨hbuilds hlast, (horderly hlast).2 hremoved⟩
    | false =>
      have hstart : Service.indexChanged { service with events := rest } event =
          { service with events := rest, reads := service.reads ++ [⟨event.path, .started⟩] } := by
        simp [Service.indexChanged, hindex, hremoved]
      rw [hstart]
      exact h.start hevents hindexes (by simp [hindex]) hbuilds

/-- A read that looks at its note once more. -/
theorem Service.Inv.look (h : service.Inv prim) {older newer : List NoteRead} {read next : NoteRead}
    (hreads : service.reads = older ++ read :: newer) (hnext : read.advance service.disk = some next) :
    Service.Inv prim { service with reads := older ++ next :: newer } where
  apart := h.apart
  gone := h.gone
  idle := fun hnone => by
    have hempty := h.idle hnone
    simp [hreads] at hempty
  indexed := fun read' hmem => by
    have hpath := NoteRead.advance_path hnext
    rw [List.mem_append, List.mem_cons] at hmem
    obtain hold | rfl | hnew := hmem
    · exact h.indexed read' (by simp [hreads, hold])
    · rw [hpath]
      exact h.indexed read (by simp [hreads])
    · exact h.indexed read' (by simp [hreads, hnew])
  only := h.only
  fits := fun path hpath htold => by
    have hfits := h.fits path hpath htold
    have hnewest := newest_middle path older newer
    have hsame := NoteRead.advance_path hnext
    exact
      { builds := hfits.builds
        current := fun read' hmem => by
          have hcurrent := hfits.current
          rw [hreads, hnewest read] at hcurrent
          rw [hnewest next, hsame] at hmem
          cases hnew : newest path newer with
          | some latest =>
            rw [hnew] at hmem hcurrent
            exact hcurrent read' hmem
          | none =>
            rw [hnew] at hmem hcurrent
            by_cases hnote : read.path = path
            · rw [if_pos hnote] at hmem hcurrent
              obtain rfl := Option.some.inj hmem
              exact NoteRead.advance_current (hcurrent read rfl) hnext
            · rw [if_neg hnote] at hmem hcurrent
              exact hcurrent read' hmem
        entry := fun index hindex hnone => hfits.entry index hindex (by
          rw [newest_eq_none_iff] at hnone ⊢
          intro read' hmem
          rw [hreads, List.mem_append, List.mem_cons] at hmem
          obtain hold | rfl | hnew := hmem
          · exact hnone read' (by simp [hold])
          · rw [← hsame]
            exact hnone next (by simp)
          · exact hnone read' (by simp [hnew])) }

/-- A read that is through leaves the notes it is not of as they are. -/
theorem newest_remove {path : NotePath} {older newer : List NoteRead} {read : NoteRead} (h : read.path ≠ path) :
    newest path (older ++ newer) = newest path (older ++ read :: newer) := by
  rw [newest_append, newest_middle, if_neg h, Option.or_none]

/-- A read that is through: the newest of its note is stored before an older one has seen anything. -/
theorem Service.Inv.store (h : service.Inv prim) {older newer : List NoteRead} {note : NotePath}
    {found : Option (Day × Text)} (hreads : service.reads = older ++ ⟨note, .finished found⟩ :: newer)
    (horderly : service.Told note → (∀ read ∈ newer, read.path ≠ note) →
      (∀ read ∈ older, read.path = note → read.stage = .started) ∧
        ((∀ read ∈ older, read.path ≠ note) →
          if found.isSome then service.disk.Reaches note else ∀ index ∈ service.index, index note = none)) :
    Service.Inv prim { service with
      reads := older ++ newer
      index := service.index.map fun index => index.take prim note found } where
  apart := h.apart
  gone := h.gone
  idle := fun hnone => by
    have hempty := h.idle (Option.map_eq_none_iff.mp hnone)
    simp [hreads] at hempty
  indexed := fun read hmem => by
    cases List.mem_append.mp hmem with
    | inl hold => exact h.indexed read (by simp [hreads, hold])
    | inr hnew => exact h.indexed read (by simp [hreads, hnew])
  only := fun later hlater path hfound => by
    obtain ⟨index, hindex, rfl⟩ := Option.map_eq_some_iff.mp hlater
    by_cases hne : path = note
    · rw [hne]
      exact h.indexed ⟨note, .finished found⟩ (by simp [hreads])
    · rw [index.take_of_ne hne] at hfound
      exact h.only index hindex path hfound
  fits := fun path hpath htold => by
    have hfits := h.fits path hpath htold
    by_cases hne : note = path
    · subst hne
      have hcurrent := hfits.current
      have hentry := hfits.entry
      rw [hreads, newest_middle] at hcurrent
      refine ⟨hfits.builds, fun read hmem => ?_, fun later hlater hnone => ?_⟩
      · rw [newest_append] at hmem
        cases hnew : newest note newer with
        | some latest =>
          rw [hnew] at hmem hcurrent
          exact hcurrent read hmem
        | none =>
          rw [hnew, Option.none_or] at hmem
          obtain ⟨hold, hnote⟩ := newest_mem hmem
          exact NoteRead.current_of_started ((horderly htold (newest_eq_none_iff.mp hnew)).1 read hold hnote)
      · obtain ⟨index, hindex, rfl⟩ := Option.map_eq_some_iff.mp hlater
        rw [newest_append, Option.or_eq_none_iff] at hnone
        have hlast := (horderly htold (newest_eq_none_iff.mp hnone.1)).2 (newest_eq_none_iff.mp hnone.2)
        have hfound : found = readIndexEntry service.disk note := by
          rw [hnone.1, if_pos rfl, Option.none_or, Option.some_or] at hcurrent
          exact hcurrent _ rfl
        cases found with
        | some read =>
          rw [freshIndex_of_reaches hpath (by simpa using hlast), ← hfound]
          exact Function.update_self _ _ _
        | none =>
          rw [freshIndex_of_unread hfound.symm]
          exact (by simpa using hlast : ∀ index ∈ service.index, index note = none) index hindex
    · have hnewest := @newest_remove path older newer ⟨note, .finished found⟩ hne
      rw [← hreads] at hnewest
      exact
        { builds := hfits.builds
          current := fun read hmem => hfits.current read (hnewest ▸ hmem)
          entry := fun later hlater hnone => by
            obtain ⟨index, hindex, rfl⟩ := Option.map_eq_some_iff.mp hlater
            exact (index.take_of_ne (Ne.symm hne) found).trans (hfits.entry index hindex (hnewest.symm.trans hnone)) }

theorem Service.Inv.build (h : service.Inv prim) :
    Service.Inv prim { service with builds := service.builds ++ [.start] } where
  apart := fun build hbuild => by
    cases List.mem_append.mp hbuild with
    | inl hold => exact h.apart build hold
    | inr hnew => exact (List.mem_singleton.mp hnew) ▸ IndexBuild.apart_start
  gone := h.gone
  idle := h.idle
  indexed := h.indexed
  only := h.only
  fits := fun path hpath htold => by
    have hfits := h.fits path hpath htold
    refine ⟨fun build hbuild => ?_, hfits.current, hfits.entry⟩
    cases List.mem_append.mp hbuild with
    | inl hold => exact hfits.builds build hold
    | inr hnew =>
      rw [List.mem_singleton.mp hnew]
      exact IndexBuild.fits_start hpath

theorem Service.Inv.walk (h : service.Inv prim) {n : ℕ} {build next : IndexBuild} (hbuild : build ∈ service.builds)
    (hnext : build.advance prim service.disk = some next) :
    Service.Inv prim { service with builds := service.builds.set n next } where
  apart := fun other hother => by
    cases List.mem_or_eq_of_mem_set hother with
    | inl hold => exact h.apart other hold
    | inr heq => exact heq ▸ (h.apart build hbuild).advance hnext
  gone := h.gone
  idle := h.idle
  indexed := h.indexed
  only := h.only
  fits := fun path hpath htold => by
    have hfits := h.fits path hpath htold
    refine ⟨fun other hother => ?_, hfits.current, hfits.entry⟩
    cases List.mem_or_eq_of_mem_set hother with
    | inl hold => exact hfits.builds other hold
    | inr heq => exact heq ▸ (hfits.builds build hbuild).advance (h.apart build hbuild) hnext hpath

theorem Service.Inv.install (h : service.Inv prim) {n : ℕ} {build : IndexBuild} (hbuild : build ∈ service.builds)
    (hfinished : build.Finished) :
    Service.Inv prim { service with builds := service.builds.eraseIdx n, index := some build.index } where
  apart := fun other hother => h.apart other (List.mem_of_mem_eraseIdx hother)
  gone := h.gone
  idle := fun hnone => by cases hnone
  indexed := h.indexed
  only := fun index hindex path hfound => by
    obtain rfl := Option.some.inj hindex
    exact (h.apart build hbuild).only path hfound
  fits := fun path hpath htold => by
    have hfits := h.fits path hpath htold
    refine ⟨fun other hother => hfits.builds other (List.mem_of_mem_eraseIdx hother), hfits.current, ?_⟩
    intro index hindex _
    obtain rfl := Option.some.inj hindex
    exact (hfits.builds build hbuild).entry hfinished

/-- A step in order keeps what the index and the reads under way fit. -/
theorem Service.Inv.next (h : service.Inv prim) {move : Move} (horderly : Orderly service move)
    (hnext : Next prim service move later) : later.Inv prim := by
  obtain ⟨hstep, hreports⟩ := hnext
  cases move with
  | change disk events =>
    obtain rfl := Option.some.inj hstep
    exact h.change (hreports disk events rfl)
  | deliver =>
    cases hevents : service.events with
    | nil => simp [Service.step, hevents] at hstep
    | cons event rest =>
      rw [Service.step, hevents] at hstep
      obtain rfl := Option.some.inj hstep
      by_cases hindexes : indexes event.path = true
      · rw [if_pos hindexes]
        exact h.deliver hevents hindexes (horderly event rest hevents hindexes)
      · rw [if_neg hindexes]
        exact h.pass hevents (by simpa using hindexes)
  | look n =>
    obtain ⟨read, hread, hstep⟩ := Option.bind_eq_some_iff.mp hstep
    obtain ⟨next, hnext, rfl⟩ := Option.map_eq_some_iff.mp hstep
    obtain ⟨hn, hget⟩ := List.getElem?_eq_some_iff.mp hread
    rw [List.set_eq_take_append_cons_drop, if_pos hn]
    apply h.look _ hnext
    rw [← hget, List.getElem_cons_drop, List.take_append_drop]
  | store n =>
    rw [Service.step] at hstep
    split at hstep
    · rename_i path found hread
      obtain rfl := Option.some.inj hstep
      obtain ⟨hn, hget⟩ := List.getElem?_eq_some_iff.mp hread
      rw [List.eraseIdx_eq_take_drop_succ]
      apply h.store _ (horderly path found hread)
      rw [← hget, List.getElem_cons_drop, List.take_append_drop]
    · cases hstep
  | build =>
    rw [Service.step] at hstep
    split at hstep
    · obtain rfl := Option.some.inj hstep
      exact h.build
    · cases hstep
  | walk n =>
    obtain ⟨build, hbuild, hstep⟩ := Option.bind_eq_some_iff.mp hstep
    obtain ⟨next, hnext, rfl⟩ := Option.map_eq_some_iff.mp hstep
    exact h.walk (List.mem_of_getElem? hbuild) hnext
  | install n =>
    obtain ⟨build, hbuild, hstep⟩ := Option.bind_eq_some_iff.mp hstep
    split at hstep
    · rename_i hfinished
      obtain rfl := Option.some.inj hstep
      exact h.install (List.mem_of_getElem? hbuild) hfinished
    · cases hstep

end

/-! ## The index is the vault -/

/-- After a run in order, once nothing is on its way or under way, the index holds what a fresh build would. -/
theorem index_is_fresh (prim : Primitives) {service : Service}
    (hrun : Reachable (Guarded (Next prim) Orderly) Initial service) (hquiet : service.Quiescent) {index : SearchIndex}
    (hindex : service.index = some index) :
    index = freshIndex prim service.disk ∧ ∀ fresh, FreshBuild prim service.disk fresh → fresh = index := by
  have hinv : service.Inv prim := hrun.invariant (Service.Inv prim) (fun _ => Service.inv_initial)
    fun _ _ _ hinv hnext => hinv.next hnext.1 hnext.2
  have hfresh : index = freshIndex prim service.disk := by
    funext path
    by_cases hindexes : indexes path = true
    · have hfits := hinv.fits path hindexes (by simp [Service.Told, hquiet.1])
      exact hfits.entry index hindex (by simp [hquiet.2.1, newest])
    · rw [freshIndex_of_not_indexes (by simpa using hindexes)]
      by_contra hfound
      exact hindexes (hinv.only index hindex path hfound)
  exact ⟨hfresh, fun fresh hbuild => hbuild.eq_freshIndex.trans hfresh.symm⟩

/-! ## A vault with one note -/

def plainLetters : Primitives := ⟨Char.isAlphanum, fun c => [c.toLower], List.map Char.toLower, id⟩

def notePath : NotePath := ["a.md".toList]

def noteMetadata : Metadata := ⟨false, false, 5, ⟨2026, 8, 23, by decide, by decide, by decide⟩⟩

/-- A vault without files. -/
def bareDisk : Disk where
  metadata := fun _ => none
  load := fun _ => none
  readDir := fun path => if path = [] then some [] else none
  readDir_nodup := fun path names h => by
    split at h
    · exact (Option.some.inj h) ▸ List.nodup_nil
    · cases h

def noteDisk : Disk where
  metadata := fun path => if path = notePath then some noteMetadata else none
  load := fun path => if path = notePath then some "# Ana".toList else none
  readDir := fun path => if path = [] then some ["a.md".toList] else none
  readDir_nodup := fun path names h => by
    split at h
    · exact (Option.some.inj h) ▸ List.pairwise_singleton _ _
    · cases h

theorem sameNote_of_ne {path : NotePath} (h : path ≠ notePath) :
    SameNote bareDisk noteDisk path ∧ SameNote noteDisk bareDisk path := by
  constructor
  · exact ⟨if_neg h, if_neg h, fun hthere => absurd rfl hthere⟩
  · exact ⟨(if_neg h).symm, (if_neg h).symm, fun hthere => absurd (if_neg h) hthere⟩

theorem reports_added : Reports bareDisk noteDisk [⟨notePath, false⟩] where
  told := fun _ _ htold => (sameNote_of_ne fun heq => htold _ (List.mem_singleton_self _) heq.symm).1
  gone := fun front event back hevents hremoved => by
    have hmem : event ∈ [(⟨notePath, false⟩ : FileEvent)] := by simp [hevents]
    simp [List.mem_singleton.mp hmem] at hremoved

theorem reports_removed : Reports noteDisk bareDisk [⟨notePath, true⟩] where
  told := fun _ _ htold => (sameNote_of_ne fun heq => htold _ (List.mem_singleton_self _) heq.symm).2
  gone := fun _ _ _ _ _ _ => rfl

def bareService : Service := ⟨bareDisk, [], none, [], []⟩

/-- The vault was opened without files and searched, then a note was added and its read has found it. -/
def noteFound : Service :=
  ⟨noteDisk, [], some .empty, [⟨notePath, .finished (some (noteMetadata.modified, "# Ana".toList))⟩], []⟩

def noteStored : Service :=
  ⟨noteDisk, [], some (SearchIndex.empty.upsert plainLetters notePath (noteMetadata.modified, "# Ana".toList)), [], []⟩

/-- The note was removed again, and its read was stored after the removal. -/
def noteGone : Service :=
  ⟨bareDisk, [], some ((SearchIndex.empty.remove notePath).upsert plainLetters notePath
    (noteMetadata.modified, "# Ana".toList)), [], []⟩

theorem run_noteFound : Run (Guarded (Next plainLetters) Orderly) bareService
    [.build, .walk 0, .install 0, .change noteDisk [⟨notePath, false⟩], .deliver, .look 0, .look 0] noteFound := by
  have hreports : ∀ disk events, Move.change noteDisk [⟨notePath, false⟩] = .change disk events →
      Reports bareDisk disk events := by
    intro disk events h
    obtain ⟨rfl, rfl⟩ := Move.change.inj h
    exact reports_added
  have hdeliver : ∀ service : Service, service.events = [⟨notePath, false⟩] → service.builds = [] →
      Orderly service .deliver := by
    intro service hevents hbuilds event rest hsplit _ _
    obtain ⟨rfl, rfl⟩ := List.cons.inj (hevents.symm.trans hsplit)
    exact ⟨by simp [hbuilds], fun hremoved => by cases hremoved⟩
  apply Run.cons ⟨trivial, rfl, fun _ _ h => by cases h⟩
  apply Run.cons ⟨trivial, rfl, fun _ _ h => by cases h⟩
  apply Run.cons ⟨trivial, rfl, fun _ _ h => by cases h⟩
  apply Run.cons ⟨trivial, rfl, hreports⟩
  apply Run.cons ⟨hdeliver _ rfl rfl, rfl, fun _ _ h => by cases h⟩
  apply Run.cons ⟨trivial, rfl, fun _ _ h => by cases h⟩
  apply Run.cons ⟨trivial, rfl, fun _ _ h => by cases h⟩
  exact Run.nil _

theorem reaches_notePath : noteDisk.Reaches notePath := by
  intro front name back hpath
  cases front with
  | nil =>
    obtain ⟨rfl, rfl⟩ := List.cons.inj hpath
    exact ⟨rfl, by decide⟩
  | cons first front => simp [notePath] at hpath

/-- A note added after the first search is found by the next one as it is. -/
theorem noteStored_is_fresh : noteStored.index = some (freshIndex plainLetters noteDisk) := by
  have horderly : Orderly noteFound (.store 0) := by
    intro path found hread _ _
    obtain ⟨rfl, hfound⟩ := NoteRead.mk.inj (Option.some.inj hread)
    rw [← Stage.finished.inj hfound]
    exact ⟨by simp, fun _ => reaches_notePath⟩
  have hrun : Reachable (Guarded (Next plainLetters) Orderly) Initial noteStored :=
    ⟨bareService, _, ⟨rfl, rfl, rfl, rfl⟩, run_noteFound.snoc ⟨horderly, rfl, fun _ _ h => by cases h⟩⟩
  exact congrArg some (index_is_fresh plainLetters hrun ⟨rfl, rfl, rfl⟩ rfl).1

/-- A read stored after the removal of its note puts the note back. -/
theorem removed_note_stays : ¬∀ prim service, Reachable (Next prim) Initial service → service.Quiescent →
    ∀ index, service.index = some index → ∀ fresh, FreshBuild prim service.disk fresh → fresh = index := by
  intro h
  have hreports : ∀ disk events, Move.change bareDisk [⟨notePath, true⟩] = .change disk events →
      Reports noteDisk disk events := by
    intro disk events h
    obtain ⟨rfl, rfl⟩ := Move.change.inj h
    exact reports_removed
  have hrun : Run (Next plainLetters) noteFound [.change bareDisk [⟨notePath, true⟩], .deliver, .store 0] noteGone := by
    apply Run.cons ⟨rfl, hreports⟩
    apply Run.cons ⟨rfl, fun _ _ h => by cases h⟩
    apply Run.cons ⟨rfl, fun _ _ h => by cases h⟩
    exact Run.nil _
  have hfresh : FreshBuild plainLetters bareDisk .empty :=
    ⟨[()], ⟨[], [], none, .empty⟩, .cons rfl (.nil _), ⟨rfl, rfl, rfl⟩, rfl⟩
  have heq := h plainLetters noteGone ⟨bareService, _, ⟨rfl, rfl, rfl, rfl⟩, run_noteFound.unguarded.append hrun⟩
    ⟨rfl, rfl, rfl⟩ _ rfl .empty hfresh
  have hentry := congrFun heq notePath
  rw [SearchIndex.upsert, Function.update_self] at hentry
  cases hentry

end Thock.Desk.Bridge.Search
