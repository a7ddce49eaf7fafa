import Thock.Lib.Table
import Thock.Lib.Transition

/-!
# Checkpoint history

The service that keeps restore points of a vault, and the machine writes that ask it for one
first: an agent's write through the bridge and the daily tidy of untouched pages. A checkpoint
runs in the background and takes its snapshot at some moment of its own; a request made while
one runs is folded into the next; a write does not wait for either.

The vault is the part of it a checkpoint records. The repository is ready and no snapshot fails.
-/

namespace Thock.Desk.History

open Transition

variable {Path : Type*} {Content : Type*}

inductive CheckpointTrigger
  | initial
  | idle
  | heartbeat
  | preAiWrite
deriving DecidableEq, Repr

/-- A machine write that has asked for its checkpoint: a note's new text, or the days still to be
tidied and whether the first was read and found untouched. -/
inductive Machine (Path : Type*) (Content : Type*)
  | applyWrite (path : Path) (text : Content)
  | cleanPastDays (candidates : List Path) (untouched : Bool)
deriving DecidableEq, Repr

/-- The file a machine write changes next. -/
def Machine.target : Machine Path Content → Option Path
  | .applyWrite path _ => some path
  | .cleanPastDays (path :: _) true => some path
  | .cleanPastDays _ _ => none

structure World (Path : Type*) (Content : Type*) where
  vault : Table Path Content
  dirty : Bool := false
  inFlight : Bool := false
  pendingTrigger : Option CheckpointTrigger := none
  /-- Whether the idle timer is armed. -/
  idleTask : Bool := false
  /-- The checkpoint in flight, and its snapshot once that is taken. -/
  running : Option (Option (Table Path Content)) := none
  checkpoints : List (Table Path Content) := []
  machines : List (Machine Path Content) := []
  /-- Whether a snapshot was taken, and the files changed since the last. -/
  captured : Bool := false
  touched : List Path := []
  /-- What each machine write changed or removed, as it stood just before. -/
  replaced : List (Path × Content) := []
deriving DecidableEq

inductive Action (Path : Type*) (Content : Type*)
  | edit (path : Path) (content : Option Content)
  | noteEdit
  | idle
  | heartbeat
  | ask (machine : Machine Path Content)
  | capture
  | finish
  | judge (i : ℕ)
  | land (i : ℕ)

namespace World

/-- Start a checkpoint, or leave a request for the next when one is in flight. -/
def tryCheckpoint (trigger : CheckpointTrigger) (w : World Path Content) : World Path Content :=
  if w.inFlight then { w with pendingTrigger := some trigger }
  else { w with inFlight := true, dirty := false, idleTask := false, running := some none }

/-- The checkpoint in flight lands, and the one folded into it starts. -/
def finishCheckpoint (snapshot : Table Path Content) (w : World Path Content) : World Path Content :=
  let w := { w with inFlight := false, running := none, checkpoints := w.checkpoints ++ [snapshot] }
  match w.pendingTrigger with
  | some trigger => tryCheckpoint trigger { w with pendingTrigger := none }
  | none => w

variable [DecidableEq Path] [DecidableEq Content]

/-- A file takes a content, or is removed. -/
def change (path : Path) (content : Option Content) (w : World Path Content) : World Path Content :=
  { w with
    vault := content.elim (w.vault.erase path) (w.vault.put path)
    touched := path :: w.touched }

/-- A machine write changes a file; what it replaces is noted unless it is the same. -/
def machineChange (path : Path) (content : Option Content) (w : World Path Content) : World Path Content :=
  let before := w.vault.get path
  change path content
    { w with
      replaced := if before = content then w.replaced else before.elim w.replaced fun c => (path, c) :: w.replaced }

/-- The next write of a machine. -/
def landMachine (w : World Path Content) (i : ℕ) : Machine Path Content → Option (World Path Content)
  | .applyWrite path text => some (machineChange path (some text) { w with machines := w.machines.eraseIdx i })
  | .cleanPastDays (path :: rest) true =>
    some (machineChange path none { w with machines := w.machines.set i (.cleanPastDays rest false) })
  | .cleanPastDays _ _ => none

/-- The tidy reads its first candidate, and passes over a page that is more than its template. -/
def judgeMachine (templateOnly : Path → Content → Bool) (w : World Path Content) (i : ℕ) :
    Machine Path Content → Option (World Path Content)
  | .cleanPastDays (path :: rest) false =>
    let machine : Machine Path Content :=
      if (w.vault.get path).any (templateOnly path) then .cleanPastDays (path :: rest) true
      else .cleanPastDays rest false
    some { w with machines := w.machines.set i machine }
  | _ => none

def step (templateOnly : Path → Content → Bool) (w : World Path Content) :
    Action Path Content → Option (World Path Content)
  | .edit path content => some (w.change path content)
  | .noteEdit => some { w with dirty := true, idleTask := true }
  | .idle => if w.idleTask then some (w.tryCheckpoint .idle) else none
  | .heartbeat => if w.dirty ∧ ¬w.inFlight then some (w.tryCheckpoint .heartbeat) else none
  | .ask machine => some (tryCheckpoint .preAiWrite { w with machines := w.machines ++ [machine] })
  | .capture =>
    if w.running = some none then some { w with running := some (some w.vault), captured := true, touched := [] }
    else none
  | .finish =>
    match w.running with
    | some (some snapshot) => some (w.finishCheckpoint snapshot)
    | _ => none
  | .judge i => (w.machines[i]?).bind (w.judgeMachine templateOnly i)
  | .land i => (w.machines[i]?).bind (w.landMachine i)

/-- The steps as a relation. -/
def Next (templateOnly : Path → Content → Bool) (w : World Path Content) (action : Action Path Content)
    (t : World Path Content) : Prop := w.step templateOnly action = some t

/-- The repository is ready, and the first checkpoint starts. -/
def Initial (w : World Path Content) : Prop :=
  ∃ vault checkpoints, w = tryCheckpoint .initial { vault, checkpoints }

/-- The restore points: the checkpoints, and the snapshot that is about to be one. -/
def recorded (w : World Path Content) : List (Table Path Content) := w.checkpoints ++ w.running.join.toList

/-- What every machine write replaced is in some restore point. -/
def Restorable (w : World Path Content) : Prop :=
  ∀ before ∈ w.replaced, ∃ snapshot ∈ w.recorded, snapshot.get before.1 = some before.2

/-- No change to a file since the last snapshot. -/
def Clean (w : World Path Content) (path : Path) : Prop := w.captured = true ∧ path ∉ w.touched

/-- A machine write lands on a file that is there only when it has not changed since the last snapshot. -/
def Waits (w : World Path Content) : Action Path Content → Prop
  | .land i => ∀ machine ∈ w.machines[i]?, ∀ path ∈ machine.target, w.vault.get path ≠ none → w.Clean path
  | _ => True

instance (w : World Path Content) (action : Action Path Content) : Decidable (w.Waits action) := by
  unfold Waits Clean
  split <;> infer_instance

instance (w : World Path Content) : Decidable w.Restorable := by
  unfold Restorable
  infer_instance

/-- What holds throughout a run in which machine writes wait. -/
structure Kept (w : World Path Content) : Prop where
  flight : w.inFlight = w.running.isSome
  /-- The last snapshot agrees with the vault outside what changed since. -/
  latest : w.captured = true → ∃ snapshot ∈ w.recorded, ∀ path, path ∉ w.touched →
    snapshot.get path = w.vault.get path
  restorable : w.Restorable

end World

namespace World

variable {w t : World Path Content} {templateOnly : Path → Content → Bool}

theorem tryCheckpoint_of_inFlight (trigger : CheckpointTrigger) (h : w.inFlight = true) :
    w.tryCheckpoint trigger = { w with pendingTrigger := some trigger } := by
  simp [tryCheckpoint, h]

theorem tryCheckpoint_of_idle (trigger : CheckpointTrigger) (h : w.inFlight = false) :
    w.tryCheckpoint trigger = { w with inFlight := true, dirty := false, idleTask := false, running := some none } := by
  simp [tryCheckpoint, h]

variable [DecidableEq Path]

/-- Asking for a checkpoint keeps the restore points. -/
theorem Kept.tryCheckpoint (h : w.Kept) (trigger : CheckpointTrigger) : (w.tryCheckpoint trigger).Kept := by
  cases hflight : w.inFlight with
  | true =>
    rw [tryCheckpoint_of_inFlight trigger hflight]
    exact ⟨h.flight, h.latest, h.restorable⟩
  | false =>
    rw [tryCheckpoint_of_idle trigger hflight]
    have hrunning : w.running = none := by simpa [hflight] using h.flight
    have hrecorded : w.recorded = w.checkpoints := by simp [recorded, hrunning]
    refine ⟨rfl, fun hcaptured => ?_, fun before hbefore => ?_⟩
    · simpa [recorded, hrunning] using h.latest hcaptured
    · simpa [recorded, hrunning] using h.restorable before hbefore

/-- A snapshot becomes a restore point, and the vault is as it has it. -/
theorem Kept.capture (h : w.Kept) (hrunning : w.running = some none) :
    Kept { w with running := some (some w.vault), captured := true, touched := [] } := by
  have hflight : w.inFlight = true := by simpa [hrunning] using h.flight
  refine ⟨hflight, fun _ => ⟨w.vault, by simp [recorded], fun _ _ => rfl⟩, fun before hbefore => ?_⟩
  obtain ⟨snapshot, hmem, hget⟩ := h.restorable before hbefore
  have hold : snapshot ∈ w.checkpoints := by simpa [recorded, hrunning] using hmem
  exact ⟨snapshot, by simp [recorded, hold], hget⟩

/-- The checkpoint that lands was a restore point already. -/
theorem Kept.finishCheckpoint (h : w.Kept) {snapshot : Table Path Content}
    (hrunning : w.running = some (some snapshot)) : (w.finishCheckpoint snapshot).Kept := by
  have hrecorded : w.recorded = w.checkpoints ++ [snapshot] := by simp [recorded, hrunning]
  have hdone : ∀ pending, Kept
      { w with inFlight := false, running := none, checkpoints := w.checkpoints ++ [snapshot],
               pendingTrigger := pending } := by
    intro pending
    refine ⟨rfl, fun hcaptured => ?_, fun before hbefore => ?_⟩
    · simpa [recorded, hrunning] using h.latest hcaptured
    · simpa [recorded, hrunning] using h.restorable before hbefore
  unfold World.finishCheckpoint
  cases hpending : w.pendingTrigger with
  | none =>
    have hsame := hdone none
    rw [← hpending] at hsame
    simpa [hpending] using hsame
  | some trigger => simpa [hpending] using (hdone none).tryCheckpoint trigger

theorem get_change (path other : Path) (content : Option Content) (h : other ≠ path) :
    (w.change path content).vault.get other = w.vault.get other := by
  cases content with
  | none => exact Table.get_erase_of_ne _ h
  | some c => exact Table.get_put_of_ne _ c h

/-- A change to the vault keeps the restore points. -/
theorem Kept.change (h : w.Kept) (path : Path) (content : Option Content) : (w.change path content).Kept := by
  refine ⟨h.flight, fun hcaptured => ?_, h.restorable⟩
  obtain ⟨snapshot, hmem, hagree⟩ := h.latest hcaptured
  refine ⟨snapshot, hmem, fun other hother => ?_⟩
  have hne : other ≠ path := fun heq => hother (heq ▸ List.mem_cons_self)
  rw [get_change path other content hne]
  exact hagree other fun hold => hother (List.mem_cons_of_mem _ hold)

theorem Kept.setMachines (h : w.Kept) (machines : List (Machine Path Content)) :
    Kept { w with machines } := ⟨h.flight, h.latest, h.restorable⟩

theorem Kept.judgeMachine (h : w.Kept) {i : ℕ} {machine : Machine Path Content}
    (hjudge : w.judgeMachine templateOnly i machine = some t) : t.Kept := by
  unfold World.judgeMachine at hjudge
  split at hjudge
  · exact Option.some.inj hjudge ▸ h.setMachines _
  · cases hjudge

theorem Initial.kept (h : w.Initial) : w.Kept := by
  obtain ⟨vault, checkpoints, rfl⟩ := h
  refine Kept.tryCheckpoint ⟨rfl, fun hcaptured => ?_, fun before hbefore => ?_⟩ _
  · simp at hcaptured
  · simp at hbefore

variable [DecidableEq Content]

/-- What a machine write on an unchanged file replaces is in the last snapshot. -/
theorem Kept.machineChange (h : w.Kept) (path : Path) (content : Option Content)
    (hclean : w.vault.get path ≠ none → w.Clean path) : (w.machineChange path content).Kept := by
  suffices hreplaced : ∀ before ∈ (w.machineChange path content).replaced,
      ∃ snapshot ∈ w.recorded, snapshot.get before.1 = some before.2 from
    Kept.change (w := { w with replaced := (w.machineChange path content).replaced })
      ⟨h.flight, h.latest, hreplaced⟩ path content
  intro before hbefore
  unfold World.machineChange World.change at hbefore
  by_cases hsame : w.vault.get path = content
  · exact h.restorable before (by simpa [hsame] using hbefore)
  · cases hget : w.vault.get path with
    | none =>
      rw [hget] at hsame
      exact h.restorable before (by simpa [hget, hsame] using hbefore)
    | some c =>
      rw [hget] at hsame
      have hcases : before = (path, c) ∨ before ∈ w.replaced := by simpa [hget, hsame] using hbefore
      rcases hcases with rfl | hold
      · have hclean' := hclean (by simp [hget])
        obtain ⟨snapshot, hmem, hagree⟩ := h.latest hclean'.1
        exact ⟨snapshot, hmem, (hagree path hclean'.2).trans hget⟩
      · exact h.restorable before hold

theorem Kept.landMachine (h : w.Kept) {i : ℕ} {machine : Machine Path Content}
    (hwaits : ∀ path ∈ machine.target, w.vault.get path ≠ none → w.Clean path)
    (hland : w.landMachine i machine = some t) : t.Kept := by
  unfold World.landMachine at hland
  split at hland
  · next path text =>
    exact Option.some.inj hland ▸ (h.setMachines _).machineChange path _ (hwaits path rfl)
  · next path rest =>
    exact Option.some.inj hland ▸ (h.setMachines _).machineChange path _ (hwaits path rfl)
  · cases hland

/-- Every step in which a machine write waits keeps the restore points. -/
theorem Kept.step (h : w.Kept) {action : Action Path Content} (hwaits : w.Waits action)
    (hstep : w.step templateOnly action = some t) : t.Kept := by
  cases action with
  | edit path content => exact Option.some.inj hstep ▸ h.change path content
  | noteEdit => exact Option.some.inj hstep ▸ ⟨h.flight, h.latest, h.restorable⟩
  | idle =>
    simp only [World.step, Option.ite_none_right_eq_some] at hstep
    exact Option.some.inj hstep.2 ▸ h.tryCheckpoint _
  | heartbeat =>
    simp only [World.step, Option.ite_none_right_eq_some] at hstep
    exact Option.some.inj hstep.2 ▸ h.tryCheckpoint _
  | ask machine => exact Option.some.inj hstep ▸ (h.setMachines _).tryCheckpoint _
  | capture =>
    simp only [World.step, Option.ite_none_right_eq_some] at hstep
    exact Option.some.inj hstep.2 ▸ h.capture hstep.1
  | finish =>
    simp only [World.step] at hstep
    split at hstep
    · next snapshot hrunning => exact Option.some.inj hstep ▸ h.finishCheckpoint hrunning
    · cases hstep
  | judge i =>
    obtain ⟨machine, -, hjudge⟩ := Option.bind_eq_some_iff.mp hstep
    exact h.judgeMachine hjudge
  | land i =>
    obtain ⟨machine, hmachine, hland⟩ := Option.bind_eq_some_iff.mp hstep
    exact h.landMachine (hwaits machine hmachine) hland

/-- When machine writes wait for a snapshot of what they change, all they replace can be restored. -/
theorem replaced_restorable {templateOnly : Path → Content → Bool} {t : World Path Content}
    (h : Reachable (Guarded (Next templateOnly) Waits) Initial t) : t.Restorable := by
  have hkept : t.Kept :=
    h.invariant Kept (fun _ => Initial.kept) fun s action u hs hnext => hs.step hnext.1 hnext.2
  exact hkept.restorable

/-- A first checkpoint of one file, and then an agent's write to that file that waits for its own. -/
theorem replaced_restorable_waiting :
    ∃ t : World ℕ ℕ, t.replaced = [(0, 1)] ∧ t.Restorable := by
  let start : World ℕ ℕ := tryCheckpoint .initial { vault := [(0, 1)] }
  let actions : List (Action ℕ ℕ) :=
    [.ask (.applyWrite 0 2), .capture, .finish, .capture, .land 0, .finish]
  have hfollow : ∃ t, follow (allow Waits (step fun _ _ => false)) start actions = some t ∧
      t.replaced = [(0, 1)] := by
    decide
  obtain ⟨t, hrun, hreplaced⟩ := hfollow
  have hreach : Reachable (Guarded (Next fun _ _ => false) Waits) Initial t :=
    ⟨start, actions, ⟨_, _, rfl⟩, Run.of_follow_allow (fun _ _ _ h => h) hrun⟩
  exact ⟨t, hreplaced, replaced_restorable hreach⟩

/-- An edit, the agent's write that follows it at once, and the snapshot that comes too late. -/
theorem replaced_not_restorable :
    ∃ t : World ℕ ℕ, Reachable (Next fun _ _ => false) Initial t ∧ t.inFlight = false ∧ t.machines = [] ∧
      ¬ t.Restorable := by
  let start : World ℕ ℕ := tryCheckpoint .initial { vault := [(0, 0)] }
  let actions : List (Action ℕ ℕ) :=
    [.capture, .finish, .edit 0 (some 1), .noteEdit, .ask (.applyWrite 0 2), .land 0, .capture, .finish]
  have hfollow : ∃ t, follow (step fun _ _ => false) start actions = some t ∧ t.inFlight = false ∧
      t.machines = [] ∧ ¬ t.Restorable := by
    decide
  obtain ⟨t, hrun, hlost⟩ := hfollow
  exact ⟨t, ⟨start, actions, ⟨_, _, rfl⟩, Run.of_follow (fun _ _ _ h => h) hrun⟩, hlost⟩

/-- A file whose last content is in a snapshot already, or in the one that is still to be taken. -/
structure Covered (w : World Path Content) (path : Path) : Prop where
  pending : w.pendingTrigger.isSome → w.inFlight = true
  flight : w.inFlight = w.running.isSome
  awaited : w.pendingTrigger.isSome ∨ w.running = some none ∨ w.Clean path

/-- A step that leaves a file alone. -/
def Spares (path : Path) (w : World Path Content) : Action Path Content → Prop
  | .edit other _ => path ≠ other
  | .land i => ∀ machine ∈ w.machines[i]?, machine.target ≠ some path
  | _ => True

omit [DecidableEq Path] [DecidableEq Content] in
/-- Whatever is in flight, asking for a checkpoint covers every file. -/
theorem covered_tryCheckpoint (path : Path) (trigger : CheckpointTrigger)
    (hflight : w.inFlight = w.running.isSome) : (w.tryCheckpoint trigger).Covered path := by
  cases h : w.inFlight with
  | true =>
    rw [tryCheckpoint_of_inFlight trigger h]
    exact ⟨fun _ => h, hflight, .inl rfl⟩
  | false =>
    rw [tryCheckpoint_of_idle trigger h]
    exact ⟨fun _ => rfl, rfl, .inr (.inl rfl)⟩

omit [DecidableEq Path] [DecidableEq Content] in
theorem Covered.finishCheckpoint {path : Path} (h : w.Covered path) {snapshot : Table Path Content}
    (hrunning : w.running = some (some snapshot)) : (w.finishCheckpoint snapshot).Covered path := by
  unfold World.finishCheckpoint
  cases hpending : w.pendingTrigger with
  | none =>
    have hclean : w.Clean path := by simpa [hpending, hrunning] using h.awaited
    exact ⟨fun hsome => by simp at hsome, rfl, .inr (.inr hclean)⟩
  | some trigger =>
    refine covered_tryCheckpoint path trigger ?_
    rfl

omit [DecidableEq Content] in
theorem Covered.change {path other : Path} (h : w.Covered path) (hne : path ≠ other) (content : Option Content) :
    (w.change other content).Covered path := by
  refine ⟨h.pending, h.flight, ?_⟩
  rcases h.awaited with hpending | hrunning | hclean
  · exact .inl hpending
  · exact .inr (.inl hrunning)
  · exact .inr (.inr ⟨hclean.1, by simpa [World.change, hne] using hclean.2⟩)

theorem Covered.landMachine {path : Path} (h : w.Covered path) {i : ℕ} {machine : Machine Path Content}
    (hspares : machine.target ≠ some path) (hland : w.landMachine i machine = some t) : t.Covered path := by
  unfold World.landMachine at hland
  split at hland
  · next other text =>
    have hne : path ≠ other := fun heq => hspares (heq ▸ rfl)
    refine Option.some.inj hland ▸ Covered.change (w := { w with machines := _, replaced := _ }) ?_ hne _
    exact ⟨h.pending, h.flight, h.awaited⟩
  · next other rest =>
    have hne : path ≠ other := fun heq => hspares (heq ▸ rfl)
    refine Option.some.inj hland ▸ Covered.change (w := { w with machines := _, replaced := _ }) ?_ hne _
    exact ⟨h.pending, h.flight, h.awaited⟩
  · cases hland

/-- Every step that leaves the file alone keeps it covered. -/
theorem Covered.step {path : Path} (h : w.Covered path) {action : Action Path Content}
    (hspares : w.Spares path action) (hstep : w.step templateOnly action = some t) : t.Covered path := by
  cases action with
  | edit other content => exact Option.some.inj hstep ▸ h.change hspares content
  | noteEdit => exact Option.some.inj hstep ▸ ⟨h.pending, h.flight, h.awaited⟩
  | idle =>
    simp only [World.step, Option.ite_none_right_eq_some] at hstep
    exact Option.some.inj hstep.2 ▸ covered_tryCheckpoint path _ h.flight
  | heartbeat =>
    simp only [World.step, Option.ite_none_right_eq_some] at hstep
    exact Option.some.inj hstep.2 ▸ covered_tryCheckpoint path _ h.flight
  | ask machine => exact Option.some.inj hstep ▸ covered_tryCheckpoint path _ h.flight
  | capture =>
    simp only [World.step, Option.ite_none_right_eq_some] at hstep
    refine Option.some.inj hstep.2 ▸ ⟨h.pending, ?_, .inr (.inr ⟨rfl, List.not_mem_nil⟩)⟩
    simpa [hstep.1] using h.flight
  | finish =>
    simp only [World.step] at hstep
    split at hstep
    · next snapshot hrunning => exact Option.some.inj hstep ▸ h.finishCheckpoint hrunning
    · cases hstep
  | judge i =>
    obtain ⟨machine, -, hjudge⟩ := Option.bind_eq_some_iff.mp hstep
    unfold World.judgeMachine at hjudge
    split at hjudge
    · exact Option.some.inj hjudge ▸ ⟨h.pending, h.flight, h.awaited⟩
    · cases hjudge
  | land i =>
    obtain ⟨machine, hmachine, hland⟩ := Option.bind_eq_some_iff.mp hstep
    exact h.landMachine (hspares machine hmachine) hland

end World

end Thock.Desk.History
