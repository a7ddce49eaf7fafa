import Mathlib.Order.OrderDual
import Thock.Lib.Chain
import Thock.Lib.Table
import Thock.Lib.Transition
import Thock.SyncCore.Apply

/-!
# Two writers at the desk

The two workers that change a vault's notes at the desk: the drain of the phone's queue and the
bridge that serves the agents. Each takes its writes one at a time. A write looks for its note,
loads it, is applied to the text it loaded, has the folder made and writes the whole text back; a
move looks at both of its ends and renames. Between any two of these the other worker may step.

A failed write stays at the head of the phone's queue; an agent is told of it and it is dropped.
-/

namespace Thock.Desk.NoteWriters

open TextScan SyncCore Transition

abbrev Path := Text

inductive Lane
  | phone
  | bridge
deriving DecidableEq, Repr

/-- What a worker has to do: a write to a note's text, with the template a missing note is made
from, or a move. -/
inductive Job
  | text (write : Write) (seed : Option Text)
  | moveFile (from_ to_ : Path)
deriving DecidableEq, Repr

/-- How far a worker is with its first job. -/
inductive Phase
  | idle
  /-- Whether there is a note at the path, or at the source of a move. -/
  | found (there : Bool)
  | loaded (existing : Option Text)
  | applied (existing : Option Text) (text : Text)
  /-- The folder is there. -/
  | ready (existing : Option Text) (text : Text)
  /-- Nothing is at a move's destination. -/
  | clear
deriving DecidableEq, Repr

structure Writer where
  queue : List Job
  phase : Phase := .idle
deriving DecidableEq, Repr

/-- What a job did to a note: the text it started from and the text it left. -/
structure Change where
  job : Job
  path : Path
  before : Option Text
  after : Option Text
deriving DecidableEq, Repr

structure World where
  disk : Table Path Text
  phone : Writer
  bridge : Writer
  /-- What was reported applied, in order. -/
  landed : List Change := []
deriving DecidableEq

inductive Action
  | advance (lane : Lane)
  | fail (lane : Lane)
deriving DecidableEq, Repr

namespace World

def writer (w : World) : Lane → Writer
  | .phone => w.phone
  | .bridge => w.bridge

def setWriter (w : World) (writer : Writer) : Lane → World
  | .phone => { w with phone := writer }
  | .bridge => { w with bridge := writer }

/-- The worker's first job is at a phase. -/
def enter (w : World) (lane : Lane) (phase : Phase) : World :=
  w.setWriter { w.writer lane with phase } lane

/-- The worker is through with its first job. -/
def done (w : World) (lane : Lane) : World := w.setWriter { queue := (w.writer lane).queue.tail } lane

/-- The worker's first job fails. -/
def giveUp (w : World) : Lane → World
  | .phone => w.enter .phone .idle
  | .bridge => w.done .bridge

/-- The next step of a write. -/
def advanceText (prim : Primitives) (w : World) (lane : Lane) (write : Write) (seed : Option Text) :
    Phase → Option World
  | .idle => some (w.enter lane (.found (w.disk.get write.path).isSome))
  | .found false => some (w.enter lane (.loaded none))
  | .found true =>
    match w.disk.get write.path with
    | some text => some (w.enter lane (.loaded (some text)))
    | none => some (w.giveUp lane)
  | .loaded existing =>
    let applied := apply prim existing write seed
    if applied.outcome = .noop ∨ existing = some applied.text then some (w.done lane)
    else some (w.enter lane (.applied existing applied.text))
  | .applied existing text => some (w.enter lane (.ready existing text))
  | .ready existing text =>
    some (done { w with
      disk := w.disk.put write.path text
      landed := w.landed ++ [⟨.text write seed, write.path, existing, some text⟩] } lane)
  | .clear => none

/-- The next step of a move, which renames in one step and never over a file. -/
def advanceMove (w : World) (lane : Lane) (from_ to_ : Path) : Phase → Option World
  | .idle =>
    if (w.disk.get from_).isSome then some (w.enter lane (.found true)) else some (w.done lane)
  | .found _ => if (w.disk.get to_).isSome then some (w.done lane) else some (w.enter lane .clear)
  | .clear =>
    match w.disk.get from_, w.disk.get to_ with
    | some text, none =>
      some (done { w with
        disk := (w.disk.erase from_).put to_ text
        landed := w.landed ++
          [⟨.moveFile from_ to_, from_, some text, none⟩, ⟨.moveFile from_ to_, to_, none, some text⟩] } lane)
    | _, _ => some (w.giveUp lane)
  | _ => none

def step (prim : Primitives) (w : World) : Action → Option World
  | .advance lane =>
    match (w.writer lane).queue with
    | [] => none
    | .text write seed :: _ => w.advanceText prim lane write seed (w.writer lane).phase
    | .moveFile from_ to_ :: _ => w.advanceMove lane from_ to_ (w.writer lane).phase
  | .fail lane => if (w.writer lane).phase = .idle then none else some (w.giveUp lane)

/-- The steps as a relation. -/
def Next (prim : Primitives) (w : World) (action : Action) (t : World) : Prop := w.step prim action = some t

/-- Neither worker has started. -/
def Initial (w : World) : Prop := w.phone.phase = .idle ∧ w.bridge.phase = .idle ∧ w.landed = []

/-- Both workers are through with their queues. -/
def Finished (w : World) : Prop := w.phone.queue = [] ∧ w.bridge.queue = []

/-- A worker writes a note back only while it still is what the worker loaded. -/
def Fresh (w : World) : Action → Prop
  | .advance lane =>
    match (w.writer lane).queue, (w.writer lane).phase with
    | .text write _ :: _, .ready existing _ => w.disk.get write.path = existing
    | _, _ => True
  | .fail _ => True

/-- What was applied to a note, in order. -/
def changes (w : World) (path : Path) : List Change := w.landed.filter fun change => change.path = path

end World

/-! ## What an applied write leaves in the note -/

/-- How often a line stands in a note. -/
def lineCount (line : Text) (note : Option Text) : ℕ :=
  note.elim 0 fun text => ((splitLines text).map Line.text).count line

def Change.Adds (change : Change) (line : Text) : Prop := lineCount line change.before < lineCount line change.after

def Change.Takes (change : Change) (line : Text) : Prop := lineCount line change.after < lineCount line change.before

/-- The change is what its job makes of the text it started from. -/
def Change.Made (prim : Primitives) (change : Change) : Prop :=
  match change.job with
  | .text write seed =>
    change.path = write.path ∧ (apply prim change.before write seed).outcome ≠ .noop ∧
      change.after = some (apply prim change.before write seed).text
  | .moveFile from_ to_ =>
    change.path = from_ ∧ change.before.isSome ∧ change.after = none ∨
      change.path = to_ ∧ change.before = none ∧ change.after.isSome

/-- A change has its effect in the note: the lines it added are there unless another took them, and
the lines it took are gone unless another added them. -/
def World.Stands (w : World) (change : Change) : Prop :=
  ∀ line,
    (change.Adds line → (∀ other ∈ w.changes change.path, ¬ other.Takes line) →
      lineCount line change.after ≤ lineCount line (w.disk.get change.path)) ∧
    (change.Takes line → (∀ other ∈ w.changes change.path, ¬ other.Adds line) →
      lineCount line (w.disk.get change.path) ≤ lineCount line change.after)

/-- The text a worker is about to write is what its first job makes of the text it loaded. -/
def Writer.Honest (prim : Primitives) (writer : Writer) : Prop :=
  ∀ write seed rest existing text, writer.queue = .text write seed :: rest →
    writer.phase = .applied existing text ∨ writer.phase = .ready existing text →
      (apply prim existing write seed).outcome ≠ .noop ∧ text = (apply prim existing write seed).text

/-- What holds throughout a run in which writes land on what they loaded. -/
structure Sound (prim : Primitives) (start w : World) : Prop where
  chain : ∀ path, Chain (start.disk.get path)
    ((w.changes path).map fun change => (change.before, change.after)) (w.disk.get path)
  made : ∀ change ∈ w.landed, change.Made prim
  honest : ∀ lane, (w.writer lane).Honest prim

namespace Sound

variable {prim : Primitives} {start w t : World}

theorem of_initial (h : start.Initial) : Sound prim start start := by
  obtain ⟨hphone, hbridge, hlanded⟩ := h
  refine ⟨fun path => ?_, fun change hchange => ?_, fun lane write seed rest existing text _ hphase => ?_⟩
  · have hnone : start.changes path = [] := by simp [World.changes, hlanded]
    rw [hnone]
    exact .nil _
  · simp [hlanded] at hchange
  · cases lane <;> simp [World.writer, hphone, hbridge] at hphase

/-- A worker moves on, and the notes stay. -/
theorem setWriter (h : Sound prim start w) {writer : Writer} (hwriter : writer.Honest prim) (lane : Lane) :
    Sound prim start (w.setWriter writer lane) := by
  cases lane with
  | phone =>
    refine ⟨h.chain, h.made, fun other => ?_⟩
    cases other with
    | phone => exact hwriter
    | bridge => exact h.honest .bridge
  | bridge =>
    refine ⟨h.chain, h.made, fun other => ?_⟩
    cases other with
    | phone => exact h.honest .phone
    | bridge => exact hwriter

/-- A phase with no text to write in it. -/
theorem enter (h : Sound prim start w) (lane : Lane) {phase : Phase}
    (hphase : ∀ existing text, phase ≠ .applied existing text ∧ phase ≠ .ready existing text) :
    Sound prim start (w.enter lane phase) := by
  refine h.setWriter (fun write seed rest existing text _ htext => ?_) lane
  rcases htext with happlied | hready
  · exact absurd happlied (hphase existing text).1
  · exact absurd hready (hphase existing text).2

theorem done (h : Sound prim start w) (lane : Lane) : Sound prim start (w.done lane) := by
  refine h.setWriter (fun write seed rest existing text _ htext => ?_) lane
  rcases htext with happlied | hready
  · cases happlied
  · cases hready

theorem giveUp (h : Sound prim start w) (lane : Lane) : Sound prim start (w.giveUp lane) := by
  cases lane with
  | phone => exact h.enter .phone fun _ _ => ⟨Phase.noConfusion, Phase.noConfusion⟩
  | bridge => exact h.done .bridge

/-- A change that starts from the note as it is goes at the end of the note's chain. -/
theorem change (h : Sound prim start w) {change : Change} {disk : Table Path Text} (hmade : change.Made prim)
    (hbefore : w.disk.get change.path = change.before)
    (hdisk : ∀ path, disk.get path = if path = change.path then change.after else w.disk.get path) :
    Sound prim start { w with disk, landed := w.landed ++ [change] } := by
  refine ⟨fun path => ?_, fun other hother => ?_, h.honest⟩
  · have hchain := h.chain path
    rw [hdisk path]
    by_cases hpath : path = change.path
    · have hchanges : World.changes { w with disk, landed := w.landed ++ [change] } path
          = w.changes path ++ [change] := by
        simp [World.changes, hpath]
      rw [hchanges, List.map_append, if_pos hpath]
      rw [hpath, hbefore, ← hpath] at hchain
      exact hchain.snoc
    · have hchanges : World.changes { w with disk, landed := w.landed ++ [change] } path = w.changes path := by
        simp [World.changes, Ne.symm hpath]
      rw [hchanges, if_neg hpath]
      exact hchain
  · rcases List.mem_append.mp hother with hold | hnew
    · exact h.made other hold
    · exact List.mem_singleton.mp hnew ▸ hmade

theorem advanceText (h : Sound prim start w) {lane : Lane} {write : Write} {seed : Option Text} {rest : List Job}
    (hqueue : (w.writer lane).queue = .text write seed :: rest)
    (hfresh : ∀ existing text, (w.writer lane).phase = .ready existing text → w.disk.get write.path = existing)
    (hstep : w.advanceText prim lane write seed (w.writer lane).phase = some t) : Sound prim start t := by
  cases hphase : (w.writer lane).phase with
  | idle =>
    rw [hphase] at hstep
    exact Option.some.inj hstep ▸ h.enter lane fun _ _ => ⟨Phase.noConfusion, Phase.noConfusion⟩
  | found there =>
    rw [hphase] at hstep
    cases there with
    | false => exact Option.some.inj hstep ▸ h.enter lane fun _ _ => ⟨Phase.noConfusion, Phase.noConfusion⟩
    | true =>
      simp only [World.advanceText] at hstep
      split at hstep
      · exact Option.some.inj hstep ▸ h.enter lane fun _ _ => ⟨Phase.noConfusion, Phase.noConfusion⟩
      · exact Option.some.inj hstep ▸ h.giveUp lane
  | loaded existing =>
    rw [hphase] at hstep
    simp only [World.advanceText] at hstep
    split at hstep
    · exact Option.some.inj hstep ▸ h.done lane
    · next hchanged =>
      refine Option.some.inj hstep ▸ h.setWriter (fun write' seed' rest' existing' text' hqueue' htext => ?_) lane
      rw [hqueue] at hqueue'
      cases hqueue'
      rcases htext with happlied | hready
      · cases happlied
        exact ⟨fun hnoop => hchanged (.inl hnoop), rfl⟩
      · cases hready
  | applied existing text =>
    rw [hphase] at hstep
    refine Option.some.inj hstep ▸ h.setWriter (fun write' seed' rest' existing' text' hqueue' htext => ?_) lane
    rcases htext with happlied | hready
    · cases happlied
    · cases hready
      exact h.honest lane write' seed' rest' existing text hqueue' (.inl hphase)
  | ready existing text =>
    have hhonest := h.honest lane write seed rest existing text hqueue (.inr hphase)
    have hbefore := hfresh existing text hphase
    rw [hphase] at hstep
    refine Option.some.inj hstep ▸ Sound.done (h.change ?_ hbefore fun path => Table.get_put _ _ _ _) lane
    exact ⟨rfl, hhonest.1, congrArg some hhonest.2⟩
  | clear =>
    rw [hphase] at hstep
    cases hstep

theorem advanceMove (h : Sound prim start w) {lane : Lane} {from_ to_ : Path} {phase : Phase}
    (hstep : w.advanceMove lane from_ to_ phase = some t) : Sound prim start t := by
  unfold World.advanceMove at hstep
  split at hstep
  · split at hstep
    · exact Option.some.inj hstep ▸ h.enter lane fun _ _ => ⟨Phase.noConfusion, Phase.noConfusion⟩
    · exact Option.some.inj hstep ▸ h.done lane
  · split at hstep
    · exact Option.some.inj hstep ▸ h.done lane
    · exact Option.some.inj hstep ▸ h.enter lane fun _ _ => ⟨Phase.noConfusion, Phase.noConfusion⟩
  · split at hstep
    · next text hfrom hto =>
      have hne : to_ ≠ from_ := fun heq => by simp [heq, hfrom] at hto
      -- the rename is two changes: the source goes, then the destination comes
      have hgone : Change.Made prim ⟨.moveFile from_ to_, from_, some text, none⟩ := .inl ⟨rfl, rfl, rfl⟩
      have hthere : Change.Made prim ⟨.moveFile from_ to_, to_, none, some text⟩ := .inr ⟨rfl, rfl, rfl⟩
      have hleft := h.change hgone hfrom fun path => Table.get_erase w.disk from_ path
      have hcame := hleft.change hthere ((Table.get_erase_of_ne _ hne).trans hto) fun path =>
        Table.get_put _ to_ path text
      simp only [List.append_assoc, List.singleton_append] at hcame
      exact Option.some.inj hstep ▸ hcame.done lane
    · exact Option.some.inj hstep ▸ h.giveUp lane
  · cases hstep

/-- Every step that lands on what it loaded keeps the notes' chains. -/
theorem step (h : Sound prim start w) {action : Action} (hfresh : w.Fresh action)
    (hstep : w.step prim action = some t) : Sound prim start t := by
  cases action with
  | advance lane =>
    simp only [World.step] at hstep
    split at hstep
    · cases hstep
    · next write seed rest hqueue =>
      refine h.advanceText hqueue (fun existing text hphase => ?_) hstep
      simpa only [World.Fresh, hqueue, hphase] using hfresh
    · exact h.advanceMove hstep
  | fail lane =>
    simp only [World.step, Option.ite_none_left_eq_some] at hstep
    exact Option.some.inj hstep.2 ▸ h.giveUp lane

/-- Along a note's chain an effect stands unless another change undoes it. -/
theorem stands (h : Sound prim start w) {change : Change} (hchange : change ∈ w.landed) : w.Stands change := by
  have hmem : (change.before, change.after) ∈ (w.changes change.path).map fun c => (c.before, c.after) := by
    have : change ∈ w.changes change.path := by simp [World.changes, hchange]
    exact List.mem_map_of_mem this
  intro line
  refine ⟨fun _ hkept => ?_, fun _ hkept => ?_⟩
  · refine (h.chain change.path).le_of_mem (f := lineCount line) (fun pair hpair => ?_) hmem
    obtain ⟨other, hother, rfl⟩ := List.mem_map.mp hpair
    exact Nat.le_of_not_lt (hkept other hother)
  · refine (h.chain change.path).le_of_mem (f := fun note => OrderDual.toDual (lineCount line note))
      (fun pair hpair => ?_) hmem
    obtain ⟨other, hother, rfl⟩ := List.mem_map.mp hpair
    exact Nat.le_of_not_lt (hkept other hother)

end Sound

namespace World

instance (w : World) (action : Action) : Decidable (w.Fresh action) := by
  unfold Fresh
  split
  · split <;> infer_instance
  · infer_instance

/-- When every write lands on what it loaded, each note is the applied writes one after another, and
every effect stands that no other write undid. -/
theorem landed_stand (prim : Primitives) {start w : World} {actions : List Action} (hstart : start.Initial)
    (run : Run (Guarded (Next prim) Fresh) start actions w) :
    (∀ path, Chain (start.disk.get path) ((w.changes path).map fun change => (change.before, change.after))
      (w.disk.get path)) ∧
    ∀ change ∈ w.landed, change.Made prim ∧ w.Stands change := by
  have hsound : Sound prim start w :=
    run.invariant (Sound prim start) (fun _ _ _ hs hnext => hs.step hnext.1 hnext.2) (.of_initial hstart)
  exact ⟨hsound.chain, fun change hchange => ⟨hsound.made change hchange, hsound.stands hchange⟩⟩

/-! ## Two appends to one section -/

/-- Character data good enough for plain words. -/
def plainWords : Primitives where
  isAlphanumeric c := c.isAlphanum
  toLowercase c := [c]
  lowercase text := text
  shortHash text := text

def logHeading : Heading := ⟨"Log".toList, 2, 1⟩

/-- An append of one line to a note's log. -/
def logLine (clientId line : String) : Job :=
  .text ⟨1, clientId.toList, "day.md".toList, .append (some logHeading) [line.toList] .end_ false false none⟩ none

/-- A day's note with an empty log, a line from the phone and one from an agent. -/
def twoAppends : World where
  disk := [("day.md".toList, "## Log\n".toList)]
  phone := ⟨[logLine "p" "- phone"], .idle⟩
  bridge := ⟨[logLine "a" "- agent"], .idle⟩

/-- The agent's line is written after the phone's, to the note as the phone left it. -/
theorem landed_stand_twoAppends :
    ∃ w : World, w.disk.get "day.md".toList = some "## Log\n- phone\n- agent\n".toList ∧
      ∀ change ∈ w.landed, change.Made plainWords ∧ w.Stands change := by
  let actions : List Action := List.replicate 5 (.advance .phone) ++ List.replicate 5 (.advance .bridge)
  have hfollow : ∃ w, follow (allow Fresh (step plainWords)) twoAppends actions = some w ∧
      w.disk.get "day.md".toList = some "## Log\n- phone\n- agent\n".toList := by
    decide +kernel
  obtain ⟨w, hrun, hnote⟩ := hfollow
  exact ⟨w, hnote, (landed_stand plainWords ⟨rfl, rfl, rfl⟩ (Run.of_follow_allow (fun _ _ _ h => h) hrun)).2⟩

/-- The agent's line is written while the phone's waits for its folder, and is gone after it. -/
theorem landed_not_stand :
    twoAppends.Initial ∧ ∃ w actions, Run (Next plainWords) twoAppends actions w ∧ w.Finished ∧
      ∃ change ∈ w.landed, ¬ w.Stands change := by
  let actions : List Action :=
    List.replicate 4 (.advance .phone) ++ List.replicate 5 (.advance .bridge) ++ [.advance .phone]
  let line : Text := "- agent".toList
  have hfollow : ∃ w, follow (step plainWords) twoAppends actions = some w ∧ w.Finished ∧
      ∃ change ∈ w.landed, change.Adds line ∧ (∀ other ∈ w.changes change.path, ¬ other.Takes line) ∧
        lineCount line (w.disk.get change.path) < lineCount line change.after := by
    unfold Finished Change.Adds Change.Takes
    decide +kernel
  obtain ⟨w, hrun, hfinished, change, hchange, hadds, hkept, hlost⟩ := hfollow
  refine ⟨⟨rfl, rfl, rfl⟩, w, actions, Run.of_follow (fun _ _ _ h => h) hrun, hfinished, change, hchange,
    fun hstands => ?_⟩
  exact absurd ((hstands line).1 hadds hkept) (Nat.not_le_of_lt hlost)

end World

end Thock.Desk.NoteWriters
