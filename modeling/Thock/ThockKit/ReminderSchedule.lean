import Mathlib.Data.List.Count
import Mathlib.Data.List.Sort
import Thock.ThockKit.Inline
import Thock.ThockKit.Reminder

/-!
# The phone's reminder notifications

What the phone takes back from the notification center and adds when it looks again at the reminders it wants to
ring. The center holds one notification for each identifier it was given, takes back every one that an identifier
names, and lets a new one replace those of its identifier.

A look converges when every wanted alert whose notification is there already is there alone: an identifier that is
held twice is taken back with the notification that was to be kept.
-/

namespace Thock.ThockKit

open TextScan
open SyncCore (Day ClockTime Due)

namespace ReminderSchedule

def plainText (letters : Inline.Letters) (text : Text) : Text :=
  ((Inline.parse letters text).filter fun run => !run.style.comment).flatMap Inline.InlineRun.text

def identifierPrefix : Text := "rem:".toList

def identifier (id : Text) (due : Due) : Text := identifierPrefix ++ id ++ ':' :: Reminders.dueText due

end ReminderSchedule

/-- One local notification for a reminder, under the identifier of its id and due. -/
structure ReminderAlert where
  identifier : Text
  reminderID : Text
  due : Due
  date : Day
  time : ClockTime
  title : Text
  body : Text
  named : identifier = ReminderSchedule.identifier reminderID due
deriving DecidableEq

namespace ReminderSchedule

/-! ## What changes -/

/-- A notification the center holds: what it says and the minute it rings. -/
structure Pending where
  identifier : Text
  title : Text
  body : Text
  date : Option Day
  time : Option ClockTime
deriving DecidableEq

structure Changes where
  remove : List Text
  add : List ReminderAlert
deriving DecidableEq

def isOurs (request : Pending) : Bool := identifierPrefix.isPrefixOf request.identifier

/-- The first alert of each identifier. -/
def wantedByIdentifier (wanted : List ReminderAlert) (identifier : Text) : Option ReminderAlert :=
  wanted.find? fun alert => alert.identifier = identifier

/-- The words and the minute of a request are those of its alert. -/
def stillWanted (wanted : List ReminderAlert) (request : Pending) : Bool :=
  (wantedByIdentifier wanted request.identifier).any fun alert =>
    alert.title = request.title && alert.body = request.body && some alert.date = request.date &&
      some alert.time = request.time

/-- The identifiers kept and those to take back, from the requests that are left. -/
def sortOut (wanted : List ReminderAlert) : List Pending → List Text → List Text × List Text
  | [], kept => (kept, [])
  | request :: rest, kept =>
    if stillWanted wanted request && !kept.contains request.identifier then
      sortOut wanted rest (request.identifier :: kept)
    else
      let (kept, remove) := sortOut wanted rest kept
      (kept, request.identifier :: remove)

/-- What to take back and what to add, given what the center holds. -/
def changes (pending : List Pending) (wanted : List ReminderAlert) : Changes :=
  let (kept, remove) := sortOut wanted (pending.filter isOurs) []
  ⟨remove, wanted.filter fun alert => !kept.contains alert.identifier⟩

/-! ## The center -/

/-- The notification an alert is added as. -/
def held (alert : ReminderAlert) : Pending := ⟨alert.identifier, alert.title, alert.body, some alert.date, some alert.time⟩

def removePending (identifiers : List Text) (pending : List Pending) : List Pending :=
  pending.filter fun request => !identifiers.contains request.identifier

/-- A new notification replaces those of its identifier. -/
def addRequest (pending : List Pending) (alert : ReminderAlert) : List Pending :=
  pending.filter (fun request => request.identifier ≠ alert.identifier) ++ [held alert]

def Changes.apply (changes : Changes) (pending : List Pending) : List Pending :=
  changes.add.foldl addRequest (removePending changes.remove pending)

/-! ## What is sorted out -/

variable {pending : List Pending} {wanted : List ReminderAlert} {id : Text}

theorem isOurs_of_identifier {request : Pending} {alert : ReminderAlert} (h : request.identifier = alert.identifier) :
    isOurs request = true := by
  rw [isOurs, h, alert.named, identifier, List.append_assoc]
  exact List.isPrefixOf_iff_prefix.mpr (List.prefix_append _ _)

/-- A request is still wanted when the first alert of its identifier is held as that request. -/
theorem stillWanted_iff {request : Pending} :
    stillWanted wanted request = true ↔ ∃ alert, wantedByIdentifier wanted request.identifier = some alert ∧ held alert = request := by
  rw [stillWanted, Option.any_eq_true]
  constructor
  · intro h
    obtain ⟨alert, hfind, hsame⟩ := h
    simp only [Bool.and_eq_true, decide_eq_true_eq] at hsame
    refine ⟨alert, hfind, ?_⟩
    have hid : alert.identifier = request.identifier := by simpa using List.find?_some hfind
    rw [held, hid, hsame.1.1.1, hsame.1.1.2, hsame.1.2, hsame.2]
  · intro h
    obtain ⟨alert, hfind, rfl⟩ := h
    exact ⟨alert, hfind, by simp [held]⟩

theorem sortOut_keep {request : Pending} {rest : List Pending} {kept : List Text}
    (h : stillWanted wanted request = true) (hkept : request.identifier ∉ kept) :
    sortOut wanted (request :: rest) kept = sortOut wanted rest (request.identifier :: kept) := by
  rw [sortOut, if_pos]
  simp [h, hkept]

theorem sortOut_remove {request : Pending} {rest : List Pending} {kept : List Text}
    (h : stillWanted wanted request = true → request.identifier ∈ kept) :
    sortOut wanted (request :: rest) kept =
      ((sortOut wanted rest kept).1, request.identifier :: (sortOut wanted rest kept).2) := by
  rw [sortOut, if_neg]
  intro hcond
  simp only [Bool.and_eq_true, Bool.not_eq_true', List.contains_eq_mem, decide_eq_false_iff_not] at hcond
  exact hcond.2 (h hcond.1)

/-- An identifier is kept for a request that is still wanted. -/
theorem mem_kept_iff (ours : List Pending) (kept : List Text) :
    id ∈ (sortOut wanted ours kept).1 ↔
      id ∈ kept ∨ ∃ request ∈ ours, request.identifier = id ∧ stillWanted wanted request = true := by
  induction ours generalizing kept with
  | nil => simp [sortOut]
  | cons request rest ih =>
    by_cases h : stillWanted wanted request = true ∧ request.identifier ∉ kept
    · rw [sortOut_keep h.1 h.2, ih, List.mem_cons, List.exists_mem_cons_iff, and_iff_left h.1, or_comm (a := id = _),
        or_assoc, eq_comm]
    · have hkept : stillWanted wanted request = true → request.identifier ∈ kept := fun hwanted =>
        not_not.mp fun hnot => h ⟨hwanted, hnot⟩
      rw [sortOut_remove hkept, ih, List.exists_mem_cons_iff]
      constructor
      · exact Or.imp_right Or.inr
      · intro hmem
        cases hmem with
        | inl hold => exact Or.inl hold
        | inr hsome =>
          cases hsome with
          | inl hfirst => exact Or.inl (hfirst.1 ▸ hkept hfirst.2)
          | inr hrest => exact Or.inr hrest

/-- Each request is kept, once for its identifier, or taken back. -/
theorem count_sortOut (ours : List Pending) (kept : List Text) :
    (sortOut wanted ours kept).2.count id + (if id ∈ (sortOut wanted ours kept).1 ∧ id ∉ kept then 1 else 0) =
      ours.countP fun request => request.identifier = id := by
  induction ours generalizing kept with
  | nil => simp [sortOut]
  | cons request rest ih =>
    rw [List.countP_cons]
    by_cases h : stillWanted wanted request = true ∧ request.identifier ∉ kept
    · have hrest := ih (request.identifier :: kept)
      rw [sortOut_keep h.1 h.2, ← hrest]
      by_cases hid : request.identifier = id
      · obtain rfl := hid
        have hmem : request.identifier ∈ (sortOut wanted rest (request.identifier :: kept)).1 :=
          (mem_kept_iff _ _).mpr (Or.inl List.mem_cons_self)
        simp [hmem, h.2]
      · simp [hid, Ne.symm hid]
    · have hkept : stillWanted wanted request = true → request.identifier ∈ kept := fun hwanted =>
        not_not.mp fun hnot => h ⟨hwanted, hnot⟩
      have hrest := ih kept
      rw [sortOut_remove hkept, List.count_cons, ← hrest]
      simp only [beq_iff_eq, decide_eq_true_eq]
      omega

/-- The identifiers of a list of requests that are kept. -/
def Kept (pending : List Pending) (wanted : List ReminderAlert) (id : Text) : Prop :=
  ∃ request ∈ pending, isOurs request = true ∧ request.identifier = id ∧ stillWanted wanted request = true

instance (pending : List Pending) (wanted : List ReminderAlert) (id : Text) : Decidable (Kept pending wanted id) :=
  inferInstanceAs (Decidable (∃ request ∈ pending, isOurs request = true ∧ request.identifier = id ∧
    stillWanted wanted request = true))

theorem mem_kept_iff_kept : id ∈ (sortOut wanted (pending.filter isOurs) []).1 ↔ Kept pending wanted id := by
  rw [mem_kept_iff, Kept]
  simp only [List.not_mem_nil, false_or, List.mem_filter, and_assoc]

theorem mem_add_iff {alert : ReminderAlert} :
    alert ∈ (changes pending wanted).add ↔ alert ∈ wanted ∧ ¬Kept pending wanted alert.identifier := by
  rw [changes, List.mem_filter, ← mem_kept_iff_kept]
  simp

/-- An identifier of ours is taken back when a request has it that is not kept. -/
theorem mem_remove_iff :
    id ∈ (changes pending wanted).remove ↔
      (if Kept pending wanted id then 1 else 0) < (pending.filter isOurs).countP fun request => request.identifier = id := by
  have hcount := @count_sortOut wanted id (pending.filter isOurs) []
  simp only [mem_kept_iff_kept, List.not_mem_nil, not_false_eq_true, and_true] at hcount
  change id ∈ (sortOut wanted (pending.filter isOurs) []).2 ↔ _
  rw [← hcount, ← List.count_pos_iff]
  by_cases hkeeps : Kept pending wanted id
  · rw [if_pos hkeeps]
    omega
  · rw [if_neg hkeeps]
    omega

/-! ## What the center then holds -/

variable {base : List Pending} {add : List ReminderAlert}

/-- The requests of an identifier. -/
def ofIdentifier (pending : List Pending) (id : Text) : List Pending := pending.filter fun request => request.identifier = id

theorem mem_ofIdentifier {request : Pending} : request ∈ ofIdentifier pending id ↔ request ∈ pending ∧ request.identifier = id := by
  rw [ofIdentifier, List.mem_filter, decide_eq_true_eq]

theorem ofIdentifier_addRequest (alert : ReminderAlert) :
    ofIdentifier (addRequest pending alert) id =
      if alert.identifier = id then [held alert] else ofIdentifier pending id := by
  rw [addRequest, ofIdentifier, List.filter_append, List.filter_filter]
  split
  · next hid =>
    obtain rfl := hid
    simp [held]
  · next hid =>
    have hother : ∀ request ∈ pending, (decide (request.identifier = id) && decide (request.identifier ≠ alert.identifier)) =
        decide (request.identifier = id) := by
      intro request _
      by_cases hrequest : request.identifier = id
      · simp [hrequest, Ne.symm hid]
      · simp [hrequest]
    rw [List.filter_congr hother]
    simp [ofIdentifier, held, hid]

theorem ofIdentifier_foldl_of_ne (h : ∀ alert ∈ add, alert.identifier ≠ id) :
    ofIdentifier (add.foldl addRequest base) id = ofIdentifier base id := by
  induction add generalizing base with
  | nil => rfl
  | cons alert rest ih =>
    obtain ⟨hfirst, hrest⟩ := List.forall_mem_cons.mp h
    rw [List.foldl_cons, ih hrest, ofIdentifier_addRequest, if_neg hfirst]

theorem ofIdentifier_foldl (h : ∃ alert ∈ add, alert.identifier = id) :
    ∃ alert ∈ add, alert.identifier = id ∧ ofIdentifier (add.foldl addRequest base) id = [held alert] := by
  induction add generalizing base with
  | nil =>
    obtain ⟨alert, hmem, -⟩ := h
    exact absurd hmem List.not_mem_nil
  | cons alert rest ih =>
    by_cases hrest : ∃ later ∈ rest, later.identifier = id
    · obtain ⟨later, hmem, hid, hheld⟩ := @ih (addRequest base alert) hrest
      exact ⟨later, List.mem_cons_of_mem alert hmem, hid, hheld⟩
    · have hid := (List.exists_mem_cons_iff _ _ _).mp h |>.resolve_right hrest
      have hne : ∀ later ∈ rest, later.identifier ≠ id := fun later hmem heq => hrest ⟨later, hmem, heq⟩
      refine ⟨alert, List.mem_cons_self, hid, ?_⟩
      rw [List.foldl_cons, ofIdentifier_foldl_of_ne hne, ofIdentifier_addRequest, if_pos hid]

theorem foreign_foldl :
    (add.foldl addRequest base).filter (fun request => !isOurs request) = base.filter fun request => !isOurs request := by
  induction add generalizing base with
  | nil => rfl
  | cons alert rest ih =>
    have hother : ∀ request ∈ base, (!isOurs request && decide (request.identifier ≠ alert.identifier)) = !isOurs request := by
      intro request _
      by_cases hid : request.identifier = alert.identifier
      · simp [isOurs_of_identifier hid]
      · simp [hid]
    have hheld : isOurs (held alert) = true := isOurs_of_identifier rfl
    rw [List.foldl_cons, ih, addRequest, List.filter_append, List.filter_filter, List.filter_congr hother]
    simp [hheld]

/-- What the center holds of an identifier of ours: the added alert, the kept request, or nothing. -/
theorem ofIdentifier_removePending :
    ofIdentifier (removePending (changes pending wanted).remove pending) id =
      if id ∈ (changes pending wanted).remove then [] else ofIdentifier pending id := by
  rw [removePending, ofIdentifier, List.filter_filter]
  split
  · next hmem =>
    rw [List.filter_eq_nil_iff]
    intro request _ hcond
    simp only [Bool.and_eq_true, decide_eq_true_eq, Bool.not_eq_true', List.contains_eq_mem, decide_eq_false_iff_not] at hcond
    exact hcond.2 (hcond.1 ▸ hmem)
  · next hmem =>
    apply List.filter_congr
    intro request _
    by_cases hid : request.identifier = id
    · simp [hid, hmem]
    · simp [hid]

theorem countP_ours {alert : ReminderAlert} :
    (pending.filter isOurs).countP (fun request => request.identifier = alert.identifier) =
      (ofIdentifier pending alert.identifier).length := by
  rw [List.countP_filter, ofIdentifier, ← List.countP_eq_length_filter]
  apply List.countP_congr
  intro request _
  simp only [Bool.and_eq_true, decide_eq_true_eq]
  exact ⟨fun h => h.1, fun h => ⟨h, isOurs_of_identifier h⟩⟩

/-! ## Convergence -/

/-- Each wanted alert is pending once as it is now worded and timed, no other alert is, and what is not ours was left
alone; nothing is left to change. -/
structure Converged (pending after : List Pending) (wanted : List ReminderAlert) : Prop where
  once : ∀ alert ∈ wanted, after.count (held alert) = 1
  others : ∀ request ∈ after, isOurs request = true → ∃ alert ∈ wanted, request = held alert
  foreign : (after.filter fun request => !isOurs request) = pending.filter fun request => !isOurs request
  settled : changes after wanted = ⟨[], []⟩

/-- Alerts of one identifier say the same at the same minute, and one that is held already is held alone. -/
structure Unrepeated (pending : List Pending) (wanted : List ReminderAlert) : Prop where
  alike : ∀ a ∈ wanted, ∀ b ∈ wanted, a.identifier = b.identifier → held a = held b
  alone : ∀ alert ∈ wanted, held alert ∈ pending → (ofIdentifier pending alert.identifier).length = 1

theorem stillWanted_held (h : ∀ a ∈ wanted, ∀ b ∈ wanted, a.identifier = b.identifier → held a = held b)
    {alert : ReminderAlert} (halert : alert ∈ wanted) : stillWanted wanted (held alert) = true := by
  rw [stillWanted_iff]
  cases hfind : wantedByIdentifier wanted alert.identifier with
  | none => simpa using List.find?_eq_none.mp hfind alert halert
  | some first =>
    have hid : first.identifier = alert.identifier := by simpa using List.find?_some hfind
    exact ⟨first, hfind, h first (List.mem_of_find?_eq_some hfind) alert halert hid⟩

/-- The wanted alert a request is still wanted for. -/
theorem exists_of_stillWanted {request : Pending} (h : stillWanted wanted request = true) :
    ∃ alert ∈ wanted, held alert = request := by
  obtain ⟨alert, hfind, hheld⟩ := stillWanted_iff.mp h
  exact ⟨alert, List.mem_of_find?_eq_some hfind, hheld⟩

/-- An alert that is added is what the center holds of its identifier. -/
theorem ofIdentifier_apply_of_add {alert : ReminderAlert} (h : alert ∈ (changes pending wanted).add) :
    ∃ added ∈ wanted, added.identifier = alert.identifier ∧
      ofIdentifier ((changes pending wanted).apply pending) alert.identifier = [held added] := by
  obtain ⟨added, hmem, hid, hheld⟩ :=
    @ofIdentifier_foldl alert.identifier (removePending (changes pending wanted).remove pending) _ ⟨alert, h, rfl⟩
  exact ⟨added, (mem_add_iff.mp hmem).1, hid, hheld⟩

/-- Where no alert is added, the center holds what it held unless it was taken back. -/
theorem ofIdentifier_apply (h : ∀ alert ∈ (changes pending wanted).add, alert.identifier ≠ id) :
    ofIdentifier ((changes pending wanted).apply pending) id =
      if id ∈ (changes pending wanted).remove then [] else ofIdentifier pending id := by
  rw [Changes.apply, ofIdentifier_foldl_of_ne h, ofIdentifier_removePending]

/-- An identifier of ours is held at most once afterwards. -/
theorem length_ofIdentifier_apply_le (alert : ReminderAlert) :
    (ofIdentifier ((changes pending wanted).apply pending) alert.identifier).length ≤ 1 := by
  by_cases hadd : ∃ added ∈ (changes pending wanted).add, added.identifier = alert.identifier
  · obtain ⟨added, hmem, hid⟩ := hadd
    obtain ⟨last, -, -, hheld⟩ := ofIdentifier_apply_of_add hmem
    rw [← hid, hheld]
    exact Nat.le_refl 1
  · have hne : ∀ added ∈ (changes pending wanted).add, added.identifier ≠ alert.identifier := fun added hmem hid =>
      hadd ⟨added, hmem, hid⟩
    rw [ofIdentifier_apply hne]
    split
    · exact Nat.zero_le 1
    · next hremove =>
      rw [mem_remove_iff, countP_ours] at hremove
      split at hremove
      · omega
      · omega

theorem mem_apply {request : Pending} (h : request ∈ (changes pending wanted).apply pending) :
    request ∈ ofIdentifier ((changes pending wanted).apply pending) request.identifier := mem_ofIdentifier.mpr ⟨h, rfl⟩

/-- A notification that a wanted alert is held as already is kept when it is held alone. -/
theorem Unrepeated.once (h : Unrepeated pending wanted) {alert : ReminderAlert} (halert : alert ∈ wanted) :
    ofIdentifier ((changes pending wanted).apply pending) alert.identifier = [held alert] := by
  by_cases hadd : ∃ added ∈ (changes pending wanted).add, added.identifier = alert.identifier
  · obtain ⟨added, hmem, hid⟩ := hadd
    obtain ⟨last, hlast, hlastid, hheld⟩ := ofIdentifier_apply_of_add hmem
    rw [hid] at hheld hlastid
    rw [hheld, h.alike last hlast alert halert hlastid]
  · have hne : ∀ added ∈ (changes pending wanted).add, added.identifier ≠ alert.identifier := fun added hmem hid =>
      hadd ⟨added, hmem, hid⟩
    have hkept : Kept pending wanted alert.identifier := by
      by_contra hnot
      exact hne alert (mem_add_iff.mpr ⟨halert, hnot⟩) rfl
    obtain ⟨request, hrequest, -, hid, hwanted⟩ := hkept
    obtain ⟨other, hother, rfl⟩ := exists_of_stillWanted hwanted
    have hsame : held other = held alert := h.alike other hother alert halert hid
    rw [hsame] at hrequest
    have halone := h.alone alert halert hrequest
    have hnot : alert.identifier ∉ (changes pending wanted).remove := by
      rw [mem_remove_iff, countP_ours, halone, if_pos]
      · exact Nat.lt_irrefl 1
      · exact ⟨held alert, hrequest, isOurs_of_identifier rfl, rfl, stillWanted_held h.alike halert⟩
    rw [ofIdentifier_apply hne, if_neg hnot]
    obtain ⟨only, honly⟩ := List.length_eq_one_iff.mp halone
    have hmem : held alert ∈ ofIdentifier pending alert.identifier := mem_ofIdentifier.mpr ⟨hrequest, rfl⟩
    rw [honly, List.mem_singleton] at hmem
    rw [honly, hmem]

/-- What the center holds of ours afterwards is wanted. -/
theorem exists_of_mem_apply {request : Pending} (h : request ∈ (changes pending wanted).apply pending)
    (hours : isOurs request = true) : ∃ alert ∈ wanted, request = held alert := by
  have hmem := mem_apply h
  by_cases hadd : ∃ added ∈ (changes pending wanted).add, added.identifier = request.identifier
  · obtain ⟨added, hadded, hid⟩ := hadd
    obtain ⟨last, hlast, -, hheld⟩ := ofIdentifier_apply_of_add hadded
    rw [← hid, hheld, List.mem_singleton] at hmem
    exact ⟨last, hlast, hmem⟩
  · have hne : ∀ added ∈ (changes pending wanted).add, added.identifier ≠ request.identifier := fun added hadded hid =>
      hadd ⟨added, hadded, hid⟩
    rw [ofIdentifier_apply hne] at hmem
    split at hmem
    · exact absurd hmem List.not_mem_nil
    · next hremove =>
      have hin := (mem_ofIdentifier.mp hmem).1
      have hpos : 0 < (pending.filter isOurs).countP fun other => other.identifier = request.identifier :=
        List.countP_pos_iff.mpr ⟨request, List.mem_filter.mpr ⟨hin, hours⟩, by simp⟩
      rw [mem_remove_iff] at hremove
      by_cases hkept : Kept pending wanted request.identifier
      · rw [if_pos hkept] at hremove
        obtain ⟨kept, hkept, hkeptours, hid, hwanted⟩ := hkept
        have honly : (pending.filter isOurs).countP (fun other => other.identifier = request.identifier) = 1 := by omega
        rw [List.countP_eq_length_filter] at honly
        obtain ⟨only, honly⟩ := List.length_eq_one_iff.mp honly
        have hfirst : request ∈ (pending.filter isOurs).filter fun other => other.identifier = request.identifier := by
          simp [hin, hours]
        have hsecond : kept ∈ (pending.filter isOurs).filter fun other => other.identifier = request.identifier := by
          simp [hkept, hkeptours, hid]
        rw [honly, List.mem_singleton] at hfirst hsecond
        obtain ⟨alert, halert, hheld⟩ := exists_of_stillWanted hwanted
        exact ⟨alert, halert, by rw [hheld, hfirst, hsecond]⟩
      · rw [if_neg hkept] at hremove
        exact absurd hpos hremove

/-- Nothing changes where every alert is held alone and no other notification of ours is. -/
theorem changes_eq_nil {after : List Pending} (halike : ∀ a ∈ wanted, ∀ b ∈ wanted, a.identifier = b.identifier → held a = held b)
    (honce : ∀ alert ∈ wanted, ofIdentifier after alert.identifier = [held alert])
    (hothers : ∀ request ∈ after, isOurs request = true → ∃ alert ∈ wanted, request = held alert) :
    changes after wanted = ⟨[], []⟩ := by
  have hkept : ∀ alert ∈ wanted, Kept after wanted alert.identifier := by
    intro alert halert
    have hmem : held alert ∈ ofIdentifier after alert.identifier := by
      rw [honce alert halert]
      exact List.mem_singleton_self _
    exact ⟨held alert, (mem_ofIdentifier.mp hmem).1, isOurs_of_identifier rfl, rfl, stillWanted_held halike halert⟩
  have hremove : (changes after wanted).remove = [] := by
    rw [List.eq_nil_iff_forall_not_mem]
    intro id hid
    rw [mem_remove_iff] at hid
    obtain ⟨request, hrequest, hrequestid⟩ := List.countP_pos_iff.mp (Nat.lt_of_le_of_lt (Nat.zero_le _) hid)
    obtain ⟨hin, hours⟩ := List.mem_filter.mp hrequest
    obtain ⟨alert, halert, rfl⟩ := hothers request hin hours
    obtain rfl : alert.identifier = id := of_decide_eq_true hrequestid
    rw [if_pos (hkept alert halert), countP_ours, honce alert halert] at hid
    exact Nat.lt_irrefl 1 hid
  have hadd : (changes after wanted).add = [] := by
    rw [List.eq_nil_iff_forall_not_mem]
    intro alert halert
    obtain ⟨hwanted, hnot⟩ := mem_add_iff.mp halert
    exact hnot (hkept alert hwanted)
  rw [← hremove, ← hadd]

theorem foreign_removePending :
    (removePending (changes pending wanted).remove pending).filter (fun request => !isOurs request) =
      pending.filter fun request => !isOurs request := by
  rw [removePending, List.filter_filter]
  apply List.filter_congr
  intro request hrequest
  cases hours : isOurs request with
  | true => rfl
  | false =>
    have hnot : request.identifier ∉ (changes pending wanted).remove := by
      intro hmem
      rw [mem_remove_iff] at hmem
      obtain ⟨other, hother, hid⟩ := List.countP_pos_iff.mp (Nat.lt_of_le_of_lt (Nat.zero_le _) hmem)
      have hotherours := (List.mem_filter.mp hother).2
      have hsame : other.identifier = request.identifier := by simpa using hid
      rw [isOurs] at hours hotherours
      rw [hsame, hours] at hotherours
      cases hotherours
    simp [hnot]

/-- Taking back and adding what changed leaves just the wanted alerts, each once, exactly when alerts of one identifier
are alike and no notification of a wanted alert is held with another of its identifier. -/
theorem converged_iff (pending : List Pending) (wanted : List ReminderAlert) :
    Converged pending ((changes pending wanted).apply pending) wanted ↔ Unrepeated pending wanted := by
  constructor
  · intro h
    have hmem : ∀ alert ∈ wanted,
        held alert ∈ ofIdentifier ((changes pending wanted).apply pending) alert.identifier := by
      intro alert halert
      have hpos : 0 < ((changes pending wanted).apply pending).count (held alert) := by
        rw [h.once alert halert]
        exact Nat.one_pos
      exact mem_ofIdentifier.mpr ⟨List.count_pos_iff.mp hpos, rfl⟩
    have halike : ∀ a ∈ wanted, ∀ b ∈ wanted, a.identifier = b.identifier → held a = held b := by
      intro a ha b hb hid
      have hfirst := hmem a ha
      have hsecond := hmem b hb
      rw [← hid] at hsecond
      have hle := @length_ofIdentifier_apply_le pending wanted a
      cases hlist : ofIdentifier ((changes pending wanted).apply pending) a.identifier with
      | nil =>
        rw [hlist] at hfirst
        exact absurd hfirst List.not_mem_nil
      | cons only rest =>
        rw [hlist] at hle hfirst hsecond
        obtain rfl : rest = [] := by simpa using hle
        rw [List.mem_singleton.mp hfirst, List.mem_singleton.mp hsecond]
    refine ⟨halike, ?_⟩
    intro alert halert hheld
    have hkept : Kept pending wanted alert.identifier :=
      ⟨held alert, hheld, isOurs_of_identifier rfl, rfl, stillWanted_held halike halert⟩
    have hne : ∀ added ∈ (changes pending wanted).add, added.identifier ≠ alert.identifier := by
      intro added hadded hid
      exact (mem_add_iff.mp hadded).2 (hid ▸ hkept)
    have hin := hmem alert halert
    rw [ofIdentifier_apply hne] at hin
    split at hin
    · exact absurd hin List.not_mem_nil
    · next hremove =>
      rw [mem_remove_iff, countP_ours, if_pos hkept] at hremove
      have hpos : 0 < (ofIdentifier pending alert.identifier).length := List.length_pos_of_mem hin
      omega
  · intro h
    have hothers : ∀ request ∈ (changes pending wanted).apply pending, isOurs request = true →
        ∃ alert ∈ wanted, request = held alert := fun request hmem hours => exists_of_mem_apply hmem hours
    refine ⟨?_, hothers, ?_, changes_eq_nil h.alike (fun alert halert => h.once halert) hothers⟩
    · intro alert halert
      have hcount : ((changes pending wanted).apply pending).count (held alert) =
          (ofIdentifier ((changes pending wanted).apply pending) alert.identifier).count (held alert) := by
        rw [ofIdentifier, List.count_filter]
        simp [held]
      rw [hcount, h.once halert, List.count_singleton_self]
    · rw [Changes.apply, foreign_foldl, foreign_removePending]

/-! ## A reworded reminder held twice -/

def plumberDay : Day := (Day.ofYmd 2026 10 22).get (by decide)

def plumberTime : ClockTime := (ClockTime.ofHm 14 30).get (by decide)

def plumber : ReminderAlert where
  identifier := identifier "7d3e55a1c0f2".toList ⟨plumberDay, some plumberTime⟩
  reminderID := "7d3e55a1c0f2".toList
  due := ⟨plumberDay, some plumberTime⟩
  date := plumberDay
  time := plumberTime
  title := "Call the plumber".toList
  body := "14:30 · reminders".toList
  named := rfl

/-- The same reminder's notification from before it was reworded. -/
def oldPlumber : Pending := { held plumber with title := "Call plumber".toList }

/-- The notification with the present words goes with the one that has the old ones, and none is added. -/
theorem held_twice_lost :
    (changes [held plumber, oldPlumber] [plumber]).apply [held plumber, oldPlumber] = [] ∧
      ¬Converged [held plumber, oldPlumber] ((changes [held plumber, oldPlumber] [plumber]).apply [held plumber, oldPlumber])
        [plumber] := by
  have hempty : (changes [held plumber, oldPlumber] [plumber]).apply [held plumber, oldPlumber] = [] := by decide
  refine ⟨hempty, ?_⟩
  intro h
  have honce := h.once plumber (List.mem_singleton_self _)
  rw [hempty] at honce
  cases honce

end ReminderSchedule

end Thock.ThockKit
