import Mathlib.Data.List.Nodup
import Thock.Lib.Table
import Thock.Lib.TextScan
import Thock.Lib.Transition

/-!
# Requests from the watch

The watch's outbox and the two transports of a request, by message while the phone is in reach and by transfer, and
what the phone makes of a request: it answers an id that it has handled as it did then, and writes the others.

A request that was refused may be tried again under a new id, of which the phone knows nothing. Where the old one can
still arrive, what it asks for is written twice.
-/

namespace Thock.ThockKit.Watch

open TextScan Transition

/-! ## The outbox -/

abbrev UUID := ℕ

structure WatchCapture where
  id : UUID
  text : Text
deriving DecidableEq

/-- A tick; the line that it names is left out. -/
structure WatchTick where
  id : UUID
deriving DecidableEq

inductive Request
  | capture (said : WatchCapture)
  | tick (ticked : WatchTick)
deriving DecidableEq

def Request.id : Request → UUID
  | .capture said => said.id
  | .tick ticked => ticked.id

/-- The capture that a request is. -/
def Request.captured : Request → List UUID
  | .capture said => [said.id]
  | .tick _ => []

/-- The same request under a new id. -/
def Request.renewed (new : UUID) : Request → Request
  | .capture said => .capture { said with id := new }
  | .tick _ => .tick ⟨new⟩

inductive State
  | waiting
  | refused (message : Text)
  | saved (date : ℤ)
deriving DecidableEq

structure Item where
  request : Request
  state : State
  transferred : Bool
deriving DecidableEq

def Item.id (item : Item) : UUID := item.request.id

inductive Outcome
  | saved
  | refused
deriving DecidableEq

/-- What the phone answers a request with. -/
structure WatchAck where
  id : UUID
  outcome : Outcome
  message : Option Text
deriving DecidableEq

abbrev Outbox := List Item

def failedMessage : Text := "That didn't save. Try again.".toList

def updateMessage : Text := "Update Thock on your iPhone".toList

namespace Outbox

def add (outbox : Outbox) (request : Request) : Outbox := outbox ++ [⟨request, .waiting, false⟩]

/-- The first item of an id gives way to others. -/
def change (id : UUID) (f : Item → List Item) : Outbox → Outbox
  | [] => []
  | item :: rest => if item.id = id then f item ++ rest else item :: change id f rest

/-- The phone's answer: a refused tick is dropped, a refused capture stays. -/
def apply (outbox : Outbox) (ack : WatchAck) (date : ℤ) : Outbox :=
  change ack.id (fun item =>
    match ack.outcome, item.request with
    | .saved, _ => [{ item with state := .saved date }]
    | .refused, .tick _ => []
    | .refused, .capture _ => [{ item with state := .refused (ack.message.getD failedMessage) }]) outbox

/-- A request the phone's app cannot read waits, refused. -/
def needsUpdate (outbox : Outbox) (id : UUID) : Outbox :=
  change id (fun item => [{ item with state := .refused updateMessage }]) outbox

/-- The same request under a new id, waiting. -/
def retry (outbox : Outbox) (id new : UUID) : Outbox :=
  change id (fun item => [⟨item.request.renewed new, .waiting, false⟩]) outbox

def markTransferred (outbox : Outbox) (id : UUID) : Outbox :=
  change id (fun item => [{ item with transferred := true }]) outbox

def item (outbox : Outbox) (id : UUID) : Option Item := outbox.find? fun item => item.id = id

def isWaiting (outbox : Outbox) (id : UUID) : Bool := outbox.any fun item => item.id = id && item.state = .waiting

def isTransferred (outbox : Outbox) (id : UUID) : Bool := (outbox.item id).any Item.transferred

/-- Waiting requests that the system no longer holds may go again. -/
def reconcile (outbox : Outbox) (outstanding : List UUID) : Outbox :=
  outbox.map fun item =>
    if item.transferred && item.state = .waiting && !outstanding.contains item.id then { item with transferred := false }
    else item

def delete (outbox : Outbox) (id : UUID) : Outbox := outbox.filter fun item => item.id ≠ id

/-- Saved requests that a snapshot already shows are forgotten. -/
def forgetSaved (outbox : Outbox) (snapshot : ℤ) : Outbox :=
  outbox.filter fun item =>
    match item.state with
    | .saved date => !decide (date ≤ snapshot)
    | _ => true

end Outbox

/-! ## The phone -/

/-- The answers the phone remembers, and the requests it has written to the vault. -/
structure Phone where
  handled : Table UUID WatchAck
  written : List Request
deriving DecidableEq

/-- How a request is taken; a write that is refused says why. -/
inductive Taking
  /-- The app does not read it. -/
  | unreadable
  /-- Whether it was handled cannot be looked up. -/
  | lookupFails
  | handled (refusal : Option Text)
deriving DecidableEq

/-- What the phone writes and remembers of a request, and its answer to one that it reads. -/
def Phone.handle (phone : Phone) (request : Request) : Taking → Phone × Option WatchAck
  | .unreadable => (phone, none)
  | .lookupFails => (phone, some ⟨request.id, .refused, some failedMessage⟩)
  | .handled refusal =>
    match phone.handled.get request.id with
    | some ack => (phone, some ack)
    | none =>
      let ack := refusal.elim ⟨request.id, .saved, none⟩ fun message => ⟨request.id, .refused, some message⟩
      (⟨phone.handled.put request.id ack, if refusal.isNone then phone.written ++ [request] else phone.written⟩, some ack)

/-! ## The link -/

/-- Whether the session is active, and the phone in reach. -/
inductive Session
  | inactive
  | unreachable
  | reachable
deriving DecidableEq

/-- What comes back for a message: an answer, or that it was not read. -/
inductive Answer
  | ack (ack : WatchAck)
  | unreadable (id : UUID)
deriving DecidableEq

/-- The watch's outbox and its file, what is on its way either way, the sends that may still fall back on a transfer,
and the phone. The ids that were drawn, the id a renewed request had first, and the captures that were enqueued and
deleted, under their first id, are kept for the account. -/
structure World where
  outbox : Outbox
  file : Outbox
  messages : List Request
  transfers : List Request
  fallbacks : List Request
  answers : List Answer
  phone : Phone
  drawn : List UUID
  renewed : Table UUID UUID
  enqueued : List UUID
  deleted : List UUID
deriving DecidableEq

def World.persist (w : World) (outbox : Outbox) : World := { w with outbox, file := outbox }

/-- A request is handed to the queued transport once, if it is still waiting. -/
def World.transfer (w : World) (request : Request) : World :=
  if w.outbox.isWaiting request.id && !w.outbox.isTransferred request.id then
    World.persist { w with transfers := w.transfers ++ [request] } (w.outbox.markTransferred request.id)
  else w

def World.send (session : Session) (w : World) (request : Request) : World :=
  match session with
  | .inactive => w
  | .unreachable => w.transfer request
  | .reachable => { w with messages := w.messages ++ [request], fallbacks := w.fallbacks ++ [request] }

/-- The first id of a request. -/
def World.first (w : World) (id : UUID) : UUID := (w.renewed.get id).getD id

inductive Action
  | enqueue (request : Request) (session : Session)
  | resendWaiting (session : Session)
  /-- Ten seconds are over, or the message failed. -/
  | fallback (send : ℕ)
  | message (place : ℕ) (taking : Taking)
  | transferred (place : ℕ) (taking : Taking)
  | answer (place : ℕ) (date : ℤ)
  | reconcile (outstanding : List UUID)
  /-- *Try again*, which the screen offers for a refused request. -/
  | retry (id new : UUID) (session : Session)
  | delete (id : UUID)
  | snapshot (madeAt : ℤ)
  /-- The watch's app starts again from its file. -/
  | restart
deriving DecidableEq

def World.step (w : World) : Action → Option World
  | .enqueue request session =>
    if request.id ∈ w.drawn then none
    else
      let enqueued := w.enqueued ++ request.captured
      some (World.send session (World.persist { w with drawn := request.id :: w.drawn, enqueued } (w.outbox.add request)) request)
  | .resendWaiting session =>
    some (((w.outbox.filter fun item => item.state = .waiting && !item.transferred).map Item.request).foldl (World.send session) w)
  | .fallback send => (w.fallbacks[send]?).map w.transfer
  | .message place taking =>
    (w.messages[place]?).map fun request =>
      let (phone, ack) := w.phone.handle request taking
      { w with
        messages := w.messages.eraseIdx place
        phone
        answers := w.answers ++ [ack.elim (.unreadable request.id) .ack] }
  | .transferred place taking =>
    (w.transfers[place]?).map fun request =>
      let (phone, ack) := w.phone.handle request taking
      { w with
        transfers := w.transfers.eraseIdx place
        phone
        answers := w.answers ++ (ack.map Answer.ack).toList }
  | .answer place date =>
    (w.answers[place]?).map fun answer =>
      let w := { w with answers := w.answers.eraseIdx place }
      match answer with
      | .ack ack => w.persist (w.outbox.apply ack date)
      | .unreadable id => w.persist (w.outbox.needsUpdate id)
  | .reconcile outstanding => some (w.persist (w.outbox.reconcile outstanding))
  | .retry id new session =>
    (w.outbox.item id).bind fun item =>
      match item.state with
      | .refused _ =>
        if new ∈ w.drawn then none
        else
          some (World.send session
            (World.persist { w with drawn := new :: w.drawn, renewed := w.renewed.put new (w.first id) } (w.outbox.retry id new))
            (item.request.renewed new))
      | _ => none
  | .delete id => some (World.persist { w with deleted := w.first id :: w.deleted } (w.outbox.delete id))
  | .snapshot madeAt => some (w.persist (w.outbox.forgetSaved madeAt))
  | .restart => some { w with outbox := w.file, fallbacks := [] }

def Next (w : World) (action : Action) (t : World) : Prop := w.step action = some t

def Initial (w : World) : Prop := w = ⟨[], [], [], [], [], [], ⟨[], []⟩, [], [], [], []⟩

/-- The ids of the requests on their way to the phone. -/
def World.flying (w : World) : List UUID := (w.messages ++ w.transfers).map Request.id

/-- A request is tried again only when nothing was written under its id and, unless the phone has answered it for good,
nothing is on its way under it. -/
def Careful (w : World) : Action → Prop
  | .retry id _ _ => id ∉ w.phone.written.map Request.id ∧ (w.phone.handled.get id = none → id ∉ w.flying)
  | _ => True

/-- No request was written twice, under the ids it was given taken together. -/
def WrittenOnce (w : World) : Prop := (w.phone.written.map fun request => w.first request.id).Nodup

/-- Every capture that was enqueued was deleted, is in the outbox or is written. -/
def NoneLost (w : World) : Prop :=
  ∀ id ∈ w.enqueued, id ∈ w.deleted ∨ (∃ item ∈ w.outbox, w.first item.id = id) ∨
    ∃ request ∈ w.phone.written, w.first request.id = id

/-! ## Changing one item -/

namespace Outbox

variable {outbox : Outbox} {id : UUID} {f : Item → List Item} {item : Item}

theorem mem_change (h : item ∈ change id f outbox) : item ∈ outbox ∨ ∃ old ∈ outbox, old.id = id ∧ item ∈ f old := by
  induction outbox with
  | nil => exact absurd h List.not_mem_nil
  | cons first rest ih =>
    rw [change] at h
    split at h
    · next hfirst =>
      cases List.mem_append.mp h with
      | inl hnew => exact Or.inr ⟨first, List.mem_cons_self, hfirst, hnew⟩
      | inr hold => exact Or.inl (List.mem_cons_of_mem first hold)
    · cases List.mem_cons.mp h with
      | inl heq => exact Or.inl (heq ▸ List.mem_cons_self)
      | inr hrest =>
        refine (ih hrest).imp (List.mem_cons_of_mem first) fun hnew => ?_
        obtain ⟨old, hold, hid, hitem⟩ := hnew
        exact ⟨old, List.mem_cons_of_mem first hold, hid, hitem⟩

/-- The items of other ids stay. -/
theorem mem_change_of_ne (h : item ∈ outbox) (hid : item.id ≠ id) : item ∈ change id f outbox := by
  induction outbox with
  | nil => exact absurd h List.not_mem_nil
  | cons first rest ih =>
    rw [change]
    split
    · next hfirst =>
      cases List.mem_cons.mp h with
      | inl heq => exact absurd (heq ▸ hfirst) hid
      | inr hrest => exact List.mem_append_right _ hrest
    · cases List.mem_cons.mp h with
      | inl heq => exact heq ▸ List.mem_cons_self
      | inr hrest => exact List.mem_cons_of_mem first (ih hrest)

/-- The only item of an id gives way. -/
theorem mem_change_self (hnodup : (outbox.map Item.id).Nodup) (h : item ∈ outbox) (hid : item.id = id) {new : Item}
    (hnew : new ∈ f item) : new ∈ change id f outbox := by
  induction outbox with
  | nil => exact absurd h List.not_mem_nil
  | cons first rest ih =>
    rw [List.map_cons, List.nodup_cons] at hnodup
    rw [change]
    cases List.mem_cons.mp h with
    | inl heq =>
      rw [if_pos (heq ▸ hid), ← heq]
      exact List.mem_append_left _ hnew
    | inr hrest =>
      have hne : first.id ≠ id := fun hfirst => hnodup.1 (hfirst.trans hid.symm ▸ List.mem_map_of_mem hrest)
      rw [if_neg hne]
      exact List.mem_cons_of_mem first (ih hnodup.2 hrest)

/-- What only the item of an id is read as stays. -/
theorem map_change {α : Type*} {g h : Item → α} (hsame : ∀ item ∈ outbox, item.id ≠ id → g item = h item)
    (hf : ∀ item ∈ outbox, item.id = id → (f item).map g = [h item]) (hnodup : (outbox.map Item.id).Nodup) :
    (change id f outbox).map g = outbox.map h := by
  induction outbox with
  | nil => rfl
  | cons first rest ih =>
    rw [List.map_cons, List.nodup_cons] at hnodup
    rw [change, List.map_cons]
    split
    · next hfirst =>
      rw [List.map_append, hf first List.mem_cons_self hfirst, List.singleton_append]
      congr 1
      refine List.map_congr_left fun item hitem => hsame item (List.mem_cons_of_mem first hitem) fun hid => ?_
      exact hnodup.1 (hfirst.trans hid.symm ▸ List.mem_map_of_mem hitem)
    · next hfirst =>
      rw [List.map_cons, hsame first List.mem_cons_self hfirst,
        ih (fun item hitem => hsame item (List.mem_cons_of_mem first hitem))
          (fun item hitem => hf item (List.mem_cons_of_mem first hitem)) hnodup.2]

/-- What the item of an id is read as before and after stays. -/
theorem map_change_same {α : Type*} {g : Item → α} (hf : ∀ item, (f item).map g = [g item]) :
    (change id f outbox).map g = outbox.map g := by
  induction outbox with
  | nil => rfl
  | cons first rest ih =>
    rw [change, List.map_cons]
    split
    · rw [List.map_append, hf first, List.singleton_append]
    · rw [List.map_cons, ih]

theorem ids_change_sublist (hf : ∀ item, item.id = id → ((f item).map Item.id).Sublist [item.id]) :
    ((change id f outbox).map Item.id).Sublist (outbox.map Item.id) := by
  induction outbox with
  | nil => exact List.Sublist.refl _
  | cons first rest ih =>
    rw [change, List.map_cons]
    split
    · next hfirst =>
      rw [List.map_append]
      exact (hf first hfirst).append (List.Sublist.refl _)
    · exact ih.cons_cons _

end Outbox

/-! ## Requests apart -/

/-- Of the requests that were one at first, at most one is written, and of those the phone has not answered for good at
most one can still be: the one in the outbox, if it is there. -/
structure Apart (first : UUID → UUID) (handled : Table UUID WatchAck) (written ids flying : List UUID) : Prop where
  once : (written.map first).Nodup
  known : ∀ id ∈ written, handled.get id ≠ none
  items : (ids.map first).Nodup
  live : ∀ a ∈ flying, ∀ b ∈ flying, handled.get a = none → handled.get b = none → first a = first b → a = b
  current : ∀ a ∈ ids, ∀ b ∈ flying, handled.get b = none → first b = first a → b = a
  done : ∀ a ∈ written, ∀ b ∈ flying, handled.get b = none → first b ≠ first a
  under : ∀ a ∈ ids, ∀ b ∈ written, first b = first a → b = a

namespace Apart

variable {first : UUID → UUID} {handled : Table UUID WatchAck} {written ids flying : List UUID}

theorem inj (h : Apart first handled written ids flying) {a b : UUID} (ha : a ∈ ids) (hb : b ∈ ids)
    (hfirst : first a = first b) : a = b := List.inj_on_of_nodup_map h.items ha hb hfirst

/-- Items may go, and requests of the outbox may be on their way once more. -/
theorem shrink (h : Apart first handled written ids flying) {ids' flying' : List UUID} (hids : ids'.Sublist ids)
    (hflying : ∀ id ∈ flying', id ∈ flying ∨ id ∈ ids) : Apart first handled written ids' flying' where
  once := h.once
  known := h.known
  items := h.items.sublist (hids.map first)
  live := by
    intro a ha b hb hunhandled hunhandled' hfirst
    cases hflying a ha with
    | inl haway =>
      cases hflying b hb with
      | inl hbway => exact h.live a haway b hbway hunhandled hunhandled' hfirst
      | inr hbid => exact h.current b hbid a haway hunhandled hfirst
    | inr haid =>
      cases hflying b hb with
      | inl hbway => exact (h.current a haid b hbway hunhandled' hfirst.symm).symm
      | inr hbid => exact h.inj haid hbid hfirst
  current := by
    intro a ha b hb hunhandled hfirst
    cases hflying b hb with
    | inl hbway => exact h.current a (hids.subset ha) b hbway hunhandled hfirst
    | inr hbid => exact h.inj hbid (hids.subset ha) hfirst
  done := by
    intro a ha b hb hunhandled hfirst
    cases hflying b hb with
    | inl hbway => exact h.done a ha b hbway hunhandled hfirst
    | inr hbid =>
      have hsame := h.under b hbid a ha hfirst.symm
      exact h.known a ha (hsame ▸ hunhandled)
  under := fun a ha => h.under a (hids.subset ha)

/-- The phone answers a request on its way for good. -/
theorem handle (h : Apart first handled written ids flying) {id : UUID} (hid : id ∈ flying) (hnew : handled.get id = none)
    (ack : WatchAck) (writes : Bool) {flying' : List UUID} (hflying : flying' ⊆ flying) :
    Apart first (handled.put id ack) (if writes then written ++ [id] else written) ids flying' := by
  have hget : ∀ other, (handled.put id ack).get other = none → handled.get other = none ∧ other ≠ id := by
    intro other hother
    rw [Table.get_put] at hother
    split at hother
    · cases hother
    · next hne => exact ⟨hother, hne⟩
  have hknown : ∀ other ∈ written, (handled.put id ack).get other ≠ none := fun other hmem hnone =>
    h.known other hmem (hget other hnone).1
  have hrest : Apart first (handled.put id ack) written ids flying' :=
    { once := h.once
      known := hknown
      items := h.items
      live := fun a ha b hb hunhandled hunhandled' =>
        h.live a (hflying ha) b (hflying hb) (hget a hunhandled).1 (hget b hunhandled').1
      current := fun a ha b hb hunhandled => h.current a ha b (hflying hb) (hget b hunhandled).1
      done := fun a ha b hb hunhandled => h.done a ha b (hflying hb) (hget b hunhandled).1
      under := h.under }
  cases writes with
  | false => exact hrest
  | true =>
    refine { hrest with once := ?_, known := ?_, done := ?_, under := ?_ }
    · rw [if_pos rfl, List.map_append, List.map_singleton, List.nodup_append]
      refine ⟨h.once, List.nodup_singleton _, fun a ha b hb heq => ?_⟩
      obtain ⟨other, hother, rfl⟩ := List.mem_map.mp ha
      rw [List.mem_singleton.mp hb] at heq
      exact h.done other hother id hid hnew heq.symm
    · intro other hother
      cases List.mem_append.mp hother with
      | inl hold => exact hknown other hold
      | inr hlast =>
        rw [List.mem_singleton.mp hlast, Table.get_put_self]
        exact Option.some_ne_none _
    · intro a ha b hb hunhandled hfirst
      cases List.mem_append.mp ha with
      | inl hold => exact hrest.done a hold b hb hunhandled hfirst
      | inr hlast =>
        rw [List.mem_singleton.mp hlast] at hfirst
        exact (hget b hunhandled).2 (h.live b (hflying hb) id hid (hget b hunhandled).1 hnew hfirst)
    · intro a ha b hb hfirst
      cases List.mem_append.mp hb with
      | inl hold => exact h.under a ha b hold hfirst
      | inr hlast =>
        rw [List.mem_singleton.mp hlast] at hfirst ⊢
        exact h.current a ha id hid hnew hfirst

/-- A new request joins the outbox under an id that was never drawn. -/
theorem enqueue (h : Apart first handled written ids flying) {id : UUID} (hself : first id = id)
    (hnew : ∀ other, other ∈ ids ∨ other ∈ flying ∨ other ∈ written → first other ≠ id) :
    Apart first handled written (ids ++ [id]) flying := by
  refine { h with items := ?_, current := ?_, under := ?_ }
  · rw [List.map_append, List.map_singleton, List.nodup_append]
    refine ⟨h.items, List.nodup_singleton _, fun a ha b hb heq => ?_⟩
    obtain ⟨other, hother, rfl⟩ := List.mem_map.mp ha
    rw [List.mem_singleton.mp hb, hself] at heq
    exact hnew other (Or.inl hother) heq
  · intro a ha b hb hunhandled hfirst
    cases List.mem_append.mp ha with
    | inl hold => exact h.current a hold b hb hunhandled hfirst
    | inr hlast =>
      rw [List.mem_singleton.mp hlast, hself] at hfirst
      exact absurd hfirst (hnew b (Or.inr (Or.inl hb)))
  · intro a ha b hb hfirst
    cases List.mem_append.mp ha with
    | inl hold => exact h.under a hold b hb hfirst
    | inr hlast =>
      rw [List.mem_singleton.mp hlast, hself] at hfirst
      exact absurd hfirst (hnew b (Or.inr (Or.inr hb)))

/-- A request of the outbox that is not written, and not on its way unless it was answered for good, gets a new id. -/
theorem retry (h : Apart first handled written ids flying) {id new : UUID} {first' : UUID → UUID} {ids' : List UUID}
    (hid : id ∈ ids) (hnew : first' new = first id)
    (hsame : ∀ other, other ∈ ids ∨ other ∈ flying ∨ other ∈ written → first' other = first other)
    (hmap : ids'.map first' = ids.map first) (hids : ∀ other ∈ ids', other = new ∨ other ∈ ids)
    (hunwritten : id ∉ written) (haway : handled.get id = none → id ∉ flying) :
    Apart first' handled written ids' flying where
  once := by
    have hmapped : written.map first' = written.map first := List.map_congr_left fun other hother => hsame other (by simp [hother])
    rw [hmapped]
    exact h.once
  known := h.known
  items := hmap ▸ h.items
  live := fun a ha b hb hunhandled hunhandled' hfirst => by
    rw [hsame a (by simp [ha]), hsame b (by simp [hb])] at hfirst
    exact h.live a ha b hb hunhandled hunhandled' hfirst
  current := fun a ha b hb hunhandled hfirst => by
    rw [hsame b (by simp [hb])] at hfirst
    cases hids a ha with
    | inl heq =>
      rw [heq, hnew] at hfirst
      have hb' := h.current id hid b hb hunhandled hfirst
      exact absurd (hb' ▸ hb) (haway (hb' ▸ hunhandled))
    | inr hold =>
      rw [hsame a (by simp [hold])] at hfirst
      exact h.current a hold b hb hunhandled hfirst
  done := fun a ha b hb hunhandled hfirst => by
    rw [hsame b (by simp [hb]), hsame a (by simp [ha])] at hfirst
    exact h.done a ha b hb hunhandled hfirst
  under := fun a ha b hb hfirst => by
    rw [hsame b (by simp [hb])] at hfirst
    cases hids a ha with
    | inl heq =>
      rw [heq, hnew] at hfirst
      exact absurd (h.under id hid b hb hfirst ▸ hb) hunwritten
    | inr hold =>
      rw [hsame a (by simp [hold])] at hfirst
      exact h.under a hold b hb hfirst

end Apart

/-! ## What holds of every run -/

section

variable {w t : World}

def World.ids (w : World) : List UUID := w.outbox.map Item.id

def World.writtenIds (w : World) : List UUID := w.phone.written.map Request.id

/-- Every id in use was drawn. -/
structure Drawn (w : World) : Prop where
  used : ∀ id, id ∈ w.ids ∨ id ∈ w.flying ∨ id ∈ w.writtenIds → id ∈ w.drawn
  renewed : ∀ id first, w.renewed.get id = some first → id ∈ w.drawn ∧ first ∈ w.drawn
  enqueued : ∀ id ∈ w.enqueued, id ∈ w.drawn

/-- What is said to be saved is written, and no capture that was enqueued is lost. -/
structure Kept (w : World) : Prop where
  answers : ∀ ack, Answer.ack ack ∈ w.answers → ack.outcome = .saved → ack.id ∈ w.writtenIds
  handled : ∀ id ack, w.phone.handled.get id = some ack → ack.id = id ∧ (ack.outcome = .saved → id ∈ w.writtenIds)
  saved : ∀ item ∈ w.outbox, ∀ date, item.state = .saved date → item.id ∈ w.writtenIds
  ticks : ∀ item ∈ w.outbox, ∀ tick, item.request = .tick tick → w.first item.id ∉ w.enqueued
  lost : NoneLost w

structure Inv (w : World) : Prop where
  file : w.file = w.outbox
  apart : Apart w.first w.phone.handled w.writtenIds w.ids w.flying
  drawn : Drawn w
  kept : Kept w

theorem Drawn.first_mem (h : Drawn w) {id : UUID} (hid : id ∈ w.drawn) : w.first id ∈ w.drawn := by
  unfold World.first
  cases hget : w.renewed.get id with
  | none => exact hid
  | some first => exact (h.renewed id first hget).2

theorem Drawn.first_self (h : Drawn w) {id : UUID} (hid : id ∉ w.drawn) : w.first id = id := by
  unfold World.first
  cases hget : w.renewed.get id with
  | none => rfl
  | some first => exact absurd (h.renewed id first hget).1 hid

theorem Inv.nodup (h : Inv w) : w.ids.Nodup := h.apart.items.of_map

/-- What an item asks for and how far it is. -/
def Item.core (item : Item) : Request × State := (item.request, item.state)

/-- Requests of the outbox are on their way once more; the marks of a transfer may have changed. -/
structure Resends (w t : World) : Prop where
  outbox : t.outbox.map Item.core = w.outbox.map Item.core
  file : t.file = t.outbox
  flying : ∀ id ∈ t.flying, id ∈ w.flying ∨ id ∈ w.ids
  answers : t.answers = w.answers
  phone : t.phone = w.phone
  drawn : t.drawn = w.drawn
  renewed : t.renewed = w.renewed
  enqueued : t.enqueued = w.enqueued
  deleted : t.deleted = w.deleted

theorem Resends.ids (h : Resends w t) : t.ids = w.ids := by
  have hids := congrArg (List.map fun core => core.1.id) h.outbox
  rwa [List.map_map, List.map_map] at hids

theorem Resends.mem (h : Resends w t) {item : Item} (hitem : item ∈ t.outbox) : ∃ old ∈ w.outbox, old.core = item.core := by
  have hcore : item.core ∈ t.outbox.map Item.core := List.mem_map_of_mem hitem
  rw [h.outbox] at hcore
  exact List.mem_map.mp hcore

theorem Resends.first (h : Resends w t) : t.first = w.first := by
  funext id
  rw [World.first, World.first, h.renewed]

theorem Resends.trans {u : World} (h : Resends w t) (h' : Resends t u) : Resends w u where
  outbox := h'.outbox.trans h.outbox
  file := h'.file
  flying := fun id hid => by
    cases h'.flying id hid with
    | inl hflying => exact h.flying id hflying
    | inr hids => exact Or.inr (h.ids ▸ hids)
  answers := h'.answers.trans h.answers
  phone := h'.phone.trans h.phone
  drawn := h'.drawn.trans h.drawn
  renewed := h'.renewed.trans h.renewed
  enqueued := h'.enqueued.trans h.enqueued
  deleted := h'.deleted.trans h.deleted

theorem Resends.refl (h : w.file = w.outbox) : Resends w w :=
  ⟨rfl, h, fun _ hid => Or.inl hid, rfl, rfl, rfl, rfl, rfl, rfl⟩

/-- The captures that are not lost, read off the first ids of the items. -/
theorem NoneLost.of_first (h : NoneLost w) (hfirst : t.first = w.first) (hphone : t.phone = w.phone)
    (henqueued : t.enqueued = w.enqueued) (hdeleted : ∀ id ∈ w.deleted, id ∈ t.deleted)
    (hitems : ∀ item ∈ w.outbox, w.first item.id ∈ w.enqueued → (∃ kept ∈ t.outbox, w.first kept.id = w.first item.id) ∨
      w.first item.id ∈ t.deleted ∨ item.id ∈ w.writtenIds) : NoneLost t := by
  intro id hid
  rw [henqueued] at hid
  rw [hfirst, hphone]
  cases h id hid with
  | inl hgone => exact Or.inl (hdeleted id hgone)
  | inr hthere =>
    cases hthere with
    | inr hwritten => exact Or.inr (Or.inr hwritten)
    | inl hitem =>
      obtain ⟨item, hmem, rfl⟩ := hitem
      cases hitems item hmem hid with
      | inl hkept => exact Or.inr (Or.inl hkept)
      | inr hrest =>
        refine hrest.imp id fun hwritten => Or.inr ?_
        obtain ⟨request, hrequest, hsame⟩ := List.mem_map.mp hwritten
        exact ⟨request, hrequest, congrArg w.first hsame⟩

theorem Inv.resends (h : Inv w) (hsends : Resends w t) : Inv t := by
  refine ⟨hsends.file, ?_, ⟨fun id hid => ?_, ?_, ?_⟩, ⟨?_, ?_, ?_, ?_, ?_⟩⟩
  · rw [hsends.first, World.writtenIds, hsends.phone, hsends.ids]
    exact h.apart.shrink (List.Sublist.refl _) hsends.flying
  · rw [hsends.drawn]
    refine h.drawn.used id ?_
    rw [World.writtenIds, hsends.phone, hsends.ids] at hid
    cases hid with
    | inl hids => exact Or.inl hids
    | inr hrest =>
      cases hrest with
      | inl hflying => exact (hsends.flying id hflying).symm.imp_right Or.inl
      | inr hwritten => exact Or.inr (Or.inr hwritten)
  · rw [hsends.renewed, hsends.drawn]
    exact h.drawn.renewed
  · rw [hsends.enqueued, hsends.drawn]
    exact h.drawn.enqueued
  · rw [hsends.answers, World.writtenIds, hsends.phone]
    exact h.kept.answers
  · rw [World.writtenIds, hsends.phone]
    exact h.kept.handled
  · intro item hitem date hdate
    obtain ⟨old, hold, hcore⟩ := hsends.mem hitem
    obtain ⟨hrequest, hstate⟩ := Prod.mk.inj hcore
    rw [World.writtenIds, hsends.phone, Item.id, ← hrequest]
    exact h.kept.saved old hold date (hstate.trans hdate)
  · intro item hitem tick htick
    obtain ⟨old, hold, hcore⟩ := hsends.mem hitem
    obtain ⟨hrequest, -⟩ := Prod.mk.inj hcore
    rw [hsends.first, hsends.enqueued, Item.id, ← hrequest]
    exact h.kept.ticks old hold tick (hrequest.trans htick)
  · refine h.kept.lost.of_first hsends.first hsends.phone hsends.enqueued (fun id hid => hsends.deleted ▸ hid) ?_
    intro item hitem _
    have hid : item.id ∈ t.ids := hsends.ids ▸ List.mem_map_of_mem hitem
    obtain ⟨kept, hkept, hsame⟩ := List.mem_map.mp hid
    exact Or.inl ⟨kept, hkept, congrArg w.first hsame⟩

theorem transfer_resends (hfile : w.file = w.outbox) (request : Request) : Resends w (w.transfer request) := by
  unfold World.transfer
  split
  · next hwaiting =>
    rw [Bool.and_eq_true] at hwaiting
    obtain ⟨item, hitem, hid⟩ := List.any_eq_true.mp hwaiting.1
    rw [Bool.and_eq_true, decide_eq_true_eq] at hid
    refine ⟨Outbox.map_change_same fun _ => rfl, rfl, fun id hflying => ?_, rfl, rfl, rfl, rfl, rfl, rfl⟩
    simp only [World.flying, World.persist, ← List.append_assoc, List.map_append, List.mem_append] at hflying
    cases hflying with
    | inl hold => exact Or.inl (by simpa [World.flying] using hold)
    | inr hnew =>
      have hrequest : id = request.id := by simpa using hnew
      rw [hrequest, ← hid.1]
      exact Or.inr (List.mem_map_of_mem hitem)
  · exact Resends.refl hfile

theorem send_resends (hfile : w.file = w.outbox) (session : Session) {request : Request} (hid : request.id ∈ w.ids) :
    Resends w (w.send session request) := by
  cases session with
  | inactive => exact Resends.refl hfile
  | unreachable => exact transfer_resends hfile request
  | reachable =>
    refine ⟨rfl, hfile, fun id hflying => ?_, rfl, rfl, rfl, rfl, rfl, rfl⟩
    simp only [World.flying, World.send, List.map_append, List.mem_append] at hflying ⊢
    rcases hflying with (hold | hnew) | hold
    · exact Or.inl (Or.inl hold)
    · have hrequest : id = request.id := by simpa using hnew
      exact Or.inr (hrequest ▸ hid)
    · exact Or.inl (Or.inr hold)

theorem sends_resends (session : Session) {requests : List Request} (hfile : w.file = w.outbox)
    (hids : ∀ request ∈ requests, request.id ∈ w.ids) : Resends w (requests.foldl (World.send session) w) := by
  induction requests generalizing w with
  | nil => exact Resends.refl hfile
  | cons request rest ih =>
    have hfirst := send_resends hfile session (hids request List.mem_cons_self)
    exact hfirst.trans (ih hfirst.file fun other hother => hfirst.ids ▸ hids other (List.mem_cons_of_mem request hother))

/-- The phone leaves what it remembers as it is, or answers a request that it never answered for good. -/
theorem handle_cases (phone : Phone) (request : Request) (taking : Taking) :
    (phone.handle request taking).1 = phone ∧
        (∀ ack, (phone.handle request taking).2 = some ack → ack.outcome = .saved → phone.handled.get request.id = some ack) ∨
      ∃ ack writes, phone.handled.get request.id = none ∧ ack.id = request.id ∧ (ack.outcome = .saved → writes = true) ∧
        phone.handle request taking =
          (⟨phone.handled.put request.id ack, if writes = true then phone.written ++ [request] else phone.written⟩, some ack) := by
  cases taking with
  | unreadable => exact Or.inl ⟨rfl, fun ack hack => absurd hack (Option.some_ne_none _).symm⟩
  | lookupFails =>
    refine Or.inl ⟨rfl, fun ack hack hsaved => ?_⟩
    rw [← Option.some.inj hack] at hsaved
    cases hsaved
  | handled refusal =>
    cases hget : phone.handled.get request.id with
    | some ack =>
      refine Or.inl ⟨?_, fun other hother _ => ?_⟩
      · simp only [Phone.handle, hget]
      · simp only [Phone.handle, hget, Option.some.injEq] at hother
        rw [hother]
    | none =>
      refine Or.inr ⟨refusal.elim ⟨request.id, .saved, none⟩ fun message => ⟨request.id, .refused, some message⟩,
        refusal.isNone, rfl, ?_, ?_, ?_⟩
      · cases refusal <;> rfl
      · cases refusal with
        | none => exact fun _ => rfl
        | some message => exact fun hsaved => by cases hsaved
      · simp only [Phone.handle, hget]

/-- A request that is on its way arrives. -/
theorem Inv.handle (h : Inv w) {request : Request} {taking : Taking} (hflying : request.id ∈ w.flying)
    (houtbox : t.outbox = w.outbox) (hfile : t.file = w.file) (hway : t.flying ⊆ w.flying)
    (hphone : t.phone = (w.phone.handle request taking).1) (hdrawn : t.drawn = w.drawn) (hrenewed : t.renewed = w.renewed)
    (henqueued : t.enqueued = w.enqueued) (hdeleted : t.deleted = w.deleted)
    (hanswers : ∀ ack, Answer.ack ack ∈ t.answers →
      Answer.ack ack ∈ w.answers ∨ (w.phone.handle request taking).2 = some ack) : Inv t := by
  have hfirst : t.first = w.first := by
    funext id
    rw [World.first, World.first, hrenewed]
  have hids : t.ids = w.ids := congrArg (List.map Item.id) houtbox
  have hrequest : request.id ∈ w.drawn := h.drawn.used _ (Or.inr (Or.inl hflying))
  cases handle_cases w.phone request taking with
  | inl hsame =>
    rw [hsame.1] at hphone
    refine ⟨?_, ?_, ⟨fun id hid => ?_, ?_, ?_⟩, ⟨fun ack hack hsaved => ?_, ?_, ?_, ?_, ?_⟩⟩
    · rw [hfile, houtbox, h.file]
    · rw [hfirst, World.writtenIds, hphone, hids]
      exact h.apart.shrink (List.Sublist.refl _) fun id hid => Or.inl (hway hid)
    · rw [World.writtenIds, hphone, hids] at hid
      rw [hdrawn]
      exact h.drawn.used id (hid.imp_right (Or.imp_left fun hid => hway hid))
    · rw [hrenewed, hdrawn]
      exact h.drawn.renewed
    · rw [henqueued, hdrawn]
      exact h.drawn.enqueued
    · rw [World.writtenIds, hphone]
      cases hanswers ack hack with
      | inl hold => exact h.kept.answers ack hold hsaved
      | inr hnew =>
        obtain ⟨hid, hwritten⟩ := h.kept.handled _ _ (hsame.2 ack hnew hsaved)
        exact hid ▸ hwritten hsaved
    · rw [World.writtenIds, hphone]
      exact h.kept.handled
    · rw [World.writtenIds, hphone, houtbox]
      exact h.kept.saved
    · rw [houtbox, hfirst, henqueued]
      exact h.kept.ticks
    · refine h.kept.lost.of_first hfirst hphone henqueued (fun id hid => hdeleted ▸ hid) fun item hitem _ => ?_
      exact Or.inl ⟨item, houtbox ▸ hitem, rfl⟩
  | inr hanswer =>
    obtain ⟨ack, writes, hnew, hack, hwrites, hhandle⟩ := hanswer
    rw [hhandle] at hphone hanswers
    have hwritten : t.writtenIds = if writes = true then w.writtenIds ++ [request.id] else w.writtenIds := by
      rw [World.writtenIds, hphone]
      cases writes with
      | false => rfl
      | true => simp [World.writtenIds]
    have hmore : ∀ id ∈ w.writtenIds, id ∈ t.writtenIds := by
      intro id hid
      rw [hwritten]
      split
      · exact List.mem_append_left _ hid
      · exact hid
    have hsaves : ack.outcome = .saved → request.id ∈ t.writtenIds := by
      intro hsaved
      rw [hwritten, if_pos (hwrites hsaved)]
      exact List.mem_append_right _ (List.mem_singleton_self _)
    refine ⟨?_, ?_, ⟨fun id hid => ?_, ?_, ?_⟩, ⟨fun other hother hsaved => ?_, fun id other hother => ?_, ?_, ?_, ?_⟩⟩
    · rw [hfile, houtbox, h.file]
    · rw [hfirst, hwritten, hids, hphone]
      exact h.apart.handle hflying hnew ack writes hway
    · rw [hids, hwritten] at hid
      rw [hdrawn]
      cases hid with
      | inl hitem => exact h.drawn.used id (Or.inl hitem)
      | inr hrest =>
        cases hrest with
        | inl hmoving => exact h.drawn.used id (Or.inr (Or.inl (hway hmoving)))
        | inr hdone =>
          split at hdone
          · cases List.mem_append.mp hdone with
            | inl hold => exact h.drawn.used id (Or.inr (Or.inr hold))
            | inr hlast => exact List.mem_singleton.mp hlast ▸ hrequest
          · exact h.drawn.used id (Or.inr (Or.inr hdone))
    · rw [hrenewed, hdrawn]
      exact h.drawn.renewed
    · rw [henqueued, hdrawn]
      exact h.drawn.enqueued
    · cases hanswers other hother with
      | inl hold => exact hmore _ (h.kept.answers other hold hsaved)
      | inr hsame =>
        rw [← Option.some.inj hsame] at hsaved ⊢
        rw [hack]
        exact hsaves hsaved
    · rw [hphone] at hother
      dsimp only at hother
      rw [Table.get_put] at hother
      split at hother
      · next hid =>
        rw [← Option.some.inj hother, hid]
        exact ⟨hack, hsaves⟩
      · exact (h.kept.handled id other hother).imp_right fun hold hsaved => hmore id (hold hsaved)
    · rw [houtbox]
      exact fun item hitem date hdate => hmore _ (h.kept.saved item hitem date hdate)
    · rw [houtbox, hfirst, henqueued]
      exact h.kept.ticks
    · intro id hid
      rw [henqueued] at hid
      rw [hdeleted, houtbox, hfirst]
      refine (h.kept.lost id hid).imp_right (Or.imp_right fun hdone => ?_)
      obtain ⟨done, hmem, hsame⟩ := hdone
      refine ⟨done, ?_, hsame⟩
      rw [hphone]
      dsimp only
      split
      · exact List.mem_append_left _ hmem
      · exact hmem

/-- Some items change or go, of those that go none that is lost. -/
theorem Inv.shrink (h : Inv w) {outbox : Outbox} {answers : List Answer} {deleted : List UUID}
    (hids : (outbox.map Item.id).Sublist w.ids) (hanswers : answers ⊆ w.answers) (hdeleted : w.deleted ⊆ deleted)
    (hsaved : ∀ item ∈ outbox, ∀ date, item.state = .saved date → item.id ∈ w.writtenIds)
    (hticks : ∀ item ∈ outbox, ∀ tick, item.request = .tick tick → w.first item.id ∉ w.enqueued)
    (hitems : ∀ item ∈ w.outbox, w.first item.id ∈ w.enqueued → (∃ kept ∈ outbox, w.first kept.id = w.first item.id) ∨
      w.first item.id ∈ deleted ∨ item.id ∈ w.writtenIds) :
    Inv { w with outbox := outbox, file := outbox, answers := answers, deleted := deleted } where
  file := rfl
  apart := h.apart.shrink hids fun _ hid => Or.inl hid
  drawn := ⟨fun id hid => h.drawn.used id (hid.imp_left fun hid => hids.subset hid), h.drawn.renewed, h.drawn.enqueued⟩
  kept := ⟨fun ack hack => h.kept.answers ack (hanswers hack), h.kept.handled, hsaved, hticks,
    h.kept.lost.of_first rfl rfl rfl (fun _ hid => hdeleted hid) hitems⟩

/-- A request joins the outbox. -/
theorem Inv.add (h : Inv w) {request : Request} {enqueued : List UUID} (hnew : request.id ∉ w.drawn)
    (henqueued : ∀ id ∈ enqueued, id ∈ w.enqueued ∨ id = request.id ∧ ∀ ticked, request ≠ .tick ticked) :
    Inv (World.persist { w with drawn := request.id :: w.drawn, enqueued := enqueued } (w.outbox.add request)) := by
  have hself : w.first request.id = request.id := h.drawn.first_self hnew
  have hdrawn : ∀ other, other ∈ w.ids ∨ other ∈ w.flying ∨ other ∈ w.writtenIds → w.first other ≠ request.id :=
    fun other hother heq => hnew (heq ▸ h.drawn.first_mem (h.drawn.used other hother))
  have hids : (w.outbox.add request).map Item.id = w.ids ++ [request.id] := by
    rw [Outbox.add, List.map_append]
    rfl
  refine ⟨rfl, ?_, ⟨fun id hid => ?_, fun id first hget => ?_, fun id hid => ?_⟩,
    ⟨h.kept.answers, h.kept.handled, fun item hitem date hdate => ?_, fun item hitem ticked htick hin => ?_, fun id hid => ?_⟩⟩
  · have hnext := h.apart.enqueue hself hdrawn
    rw [← hids] at hnext
    exact hnext
  · cases hid with
    | inl hitem =>
      have hitem' : id ∈ w.ids ++ [request.id] := hids ▸ hitem
      cases List.mem_append.mp hitem' with
      | inl hold => exact List.mem_cons_of_mem _ (h.drawn.used id (Or.inl hold))
      | inr hlast => exact List.mem_cons.mpr (Or.inl (List.mem_singleton.mp hlast))
    | inr hrest => exact List.mem_cons_of_mem _ (h.drawn.used id (Or.inr hrest))
  · exact (h.drawn.renewed id first hget).imp (List.mem_cons_of_mem _) (List.mem_cons_of_mem _)
  · cases henqueued id hid with
    | inl hold => exact List.mem_cons_of_mem _ (h.drawn.enqueued id hold)
    | inr hsame => exact List.mem_cons.mpr (Or.inl hsame.1)
  · cases List.mem_append.mp hitem with
    | inl hold => exact h.kept.saved item hold date hdate
    | inr hlast =>
      rw [List.mem_singleton.mp hlast] at hdate
      cases hdate
  · cases List.mem_append.mp hitem with
    | inl hold =>
      cases henqueued _ hin with
      | inl hin' => exact h.kept.ticks item hold ticked htick hin'
      | inr hsame => exact hdrawn item.id (Or.inl (List.mem_map_of_mem hold)) hsame.1
    | inr hlast =>
      rw [List.mem_singleton.mp hlast] at htick hin
      cases henqueued _ hin with
      | inl hin' => exact hnew (hself ▸ h.drawn.enqueued _ hin')
      | inr hsame => exact hsame.2 ticked htick
  · cases henqueued id hid with
    | inl hold =>
      refine (h.kept.lost id hold).imp_right (Or.imp_left fun hitem => ?_)
      obtain ⟨item, hmem, hfirst⟩ := hitem
      exact ⟨item, List.mem_append_left _ hmem, hfirst⟩
    | inr hsame =>
      rw [hsame.1]
      exact Or.inr (Or.inl ⟨_, List.mem_append_right _ (List.mem_singleton_self _), hself⟩)

/-- A refused request is tried again under an id that was never drawn. -/
theorem Inv.retry (h : Inv w) {id new : UUID} {item : Item} (hitem : item ∈ w.outbox) (hid : item.id = id)
    (hnew : new ∉ w.drawn) (hunwritten : id ∉ w.writtenIds) (haway : w.phone.handled.get id = none → id ∉ w.flying) :
    Inv (World.persist { w with drawn := new :: w.drawn, renewed := w.renewed.put new (w.first id) }
      (w.outbox.retry id new)) := by
  generalize ht : World.persist { w with drawn := new :: w.drawn, renewed := w.renewed.put new (w.first id) }
    (w.outbox.retry id new) = t
  have houtbox : t.outbox = w.outbox.retry id new := by rw [← ht]; rfl
  have hfirst : ∀ other, t.first other = if other = new then w.first id else w.first other := by
    intro other
    rw [← ht]
    simp only [World.first, World.persist, Table.get_put]
    split
    · rfl
    · rfl
  have hmem : id ∈ w.ids := hid ▸ List.mem_map_of_mem hitem
  have hused : ∀ other, other ∈ w.ids ∨ other ∈ w.flying ∨ other ∈ w.writtenIds → t.first other = w.first other := by
    intro other hother
    have hne : other ≠ new := fun heq => hnew (heq ▸ h.drawn.used other hother)
    rw [hfirst, if_neg hne]
  have hrenewed : ∀ request : Request, (request.renewed new).id = new := by
    intro request
    cases request <;> rfl
  have hmap : t.outbox.map (fun item => t.first item.id) = w.outbox.map fun item => w.first item.id := by
    rw [houtbox]
    refine Outbox.map_change (fun other hother _ => hused _ (Or.inl (List.mem_map_of_mem hother))) (fun other _ hsame => ?_)
      h.nodup
    rw [List.map_singleton, hsame]
    exact congrArg (fun first => [first]) ((congrArg t.first (hrenewed other.request)).trans ((hfirst new).trans (if_pos rfl)))
  have hold : ∀ kept ∈ t.outbox, kept ∈ w.outbox ∨ kept.id = new ∧ kept.state = .waiting ∧
      ∃ old ∈ w.outbox, old.id = id ∧ kept.request = old.request.renewed new := by
    intro kept hkept
    rw [houtbox] at hkept
    refine (Outbox.mem_change hkept).imp_right fun hchanged => ?_
    obtain ⟨old, hmemOld, hidOld, hsame⟩ := hchanged
    rw [List.mem_singleton.mp hsame]
    exact ⟨hrenewed _, rfl, old, hmemOld, hidOld, rfl⟩
  have hids : ∀ other ∈ t.ids, other = new ∨ other ∈ w.ids := by
    intro other hother
    obtain ⟨kept, hkept, rfl⟩ := List.mem_map.mp hother
    cases hold kept hkept with
    | inl hthere => exact Or.inr (List.mem_map_of_mem hthere)
    | inr hchanged => exact Or.inl hchanged.1
  have hphone : t.phone = w.phone := by rw [← ht]; rfl
  have hwritten : t.writtenIds = w.writtenIds := congrArg (fun phone => phone.written.map Request.id) hphone
  have hflying : t.flying = w.flying := by rw [← ht]; rfl
  have hdrawn : t.drawn = new :: w.drawn := by rw [← ht]; rfl
  have henqueued : t.enqueued = w.enqueued := by rw [← ht]; rfl
  refine ⟨?_, ?_, ⟨fun other hother => ?_, fun other first hget => ?_, fun other hother => ?_⟩, ⟨?_, ?_, ?_, ?_, ?_⟩⟩
  · rw [← ht]; rfl
  · rw [hphone, hwritten, hflying]
    refine h.apart.retry hmem ((hfirst new).trans (if_pos rfl)) hused ?_ hids hunwritten haway
    rw [World.ids, World.ids, List.map_map, List.map_map]
    exact hmap
  · rw [hflying, hwritten] at hother
    rw [hdrawn]
    cases hother with
    | inl hitems =>
      cases hids other hitems with
      | inl heq => exact List.mem_cons.mpr (Or.inl heq)
      | inr hthere => exact List.mem_cons_of_mem _ (h.drawn.used other (Or.inl hthere))
    | inr hrest => exact List.mem_cons_of_mem _ (h.drawn.used other (Or.inr hrest))
  · rw [hdrawn]
    have hget' : (w.renewed.put new (w.first id)).get other = some first := by rw [← ht] at hget; exact hget
    rw [Table.get_put] at hget'
    split at hget'
    · next heq =>
      rw [← Option.some.inj hget', heq]
      exact ⟨List.mem_cons_self, List.mem_cons_of_mem _ (h.drawn.first_mem (h.drawn.used id (Or.inl hmem)))⟩
    · exact (h.drawn.renewed other first hget').imp (List.mem_cons_of_mem _) (List.mem_cons_of_mem _)
  · rw [henqueued] at hother
    rw [hdrawn]
    exact List.mem_cons_of_mem _ (h.drawn.enqueued other hother)
  · rw [hwritten, ← ht]
    exact h.kept.answers
  · rw [hwritten, hphone]
    exact h.kept.handled
  · intro kept hkept date hdate
    rw [hwritten]
    cases hold kept hkept with
    | inl hthere => exact h.kept.saved kept hthere date hdate
    | inr hchanged =>
      rw [hchanged.2.1] at hdate
      cases hdate
  · intro kept hkept ticked htick
    rw [henqueued]
    cases hold kept hkept with
    | inl hthere =>
      rw [hused _ (Or.inl (List.mem_map_of_mem hthere))]
      exact h.kept.ticks kept hthere ticked htick
    | inr hchanged =>
      obtain ⟨hkeptId, -, old, hmemOld, hidOld, hrequest⟩ := hchanged
      rw [hkeptId, hfirst, if_pos rfl, ← hidOld]
      cases hask : old.request with
      | capture said =>
        rw [hrequest, hask] at htick
        cases htick
      | tick was => exact h.kept.ticks old hmemOld was hask
  · intro other hother
    rw [henqueued] at hother
    rw [hphone]
    cases h.kept.lost other hother with
    | inl hgone => exact Or.inl (by rw [← ht]; exact hgone)
    | inr hthere =>
      cases hthere with
      | inl hkept =>
        obtain ⟨kept, hkept, rfl⟩ := hkept
        have hmapped : w.first kept.id ∈ t.outbox.map fun item => t.first item.id := hmap ▸ List.mem_map_of_mem hkept
        exact Or.inr (Or.inl (List.mem_map.mp hmapped))
      | inr hdone =>
        obtain ⟨request, hrequest, rfl⟩ := hdone
        exact Or.inr (Or.inr ⟨request, hrequest, hused _ (Or.inr (Or.inr (List.mem_map_of_mem hrequest)))⟩)

/-- The phone's answer reaches the outbox. -/
theorem Inv.apply (h : Inv w) {ack : WatchAck} {answers : List Answer} (date : ℤ) (hanswers : answers ⊆ w.answers)
    (hack : Answer.ack ack ∈ w.answers) : Inv (World.persist { w with answers := answers } (w.outbox.apply ack date)) := by
  refine h.shrink ?_ hanswers (List.Subset.refl _) (fun item hitem saved hsaved => ?_) (fun item hitem ticked htick => ?_)
    fun item hitem hin => ?_
  · refine Outbox.ids_change_sublist fun item _ => ?_
    split
    · exact List.Sublist.refl _
    · exact List.nil_sublist _
    · exact List.Sublist.refl _
  · cases Outbox.mem_change hitem with
    | inl hold => exact h.kept.saved item hold saved hsaved
    | inr hchanged =>
      obtain ⟨old, -, hid, hnew⟩ := hchanged
      split at hnew
      · next houtcome =>
        rw [List.mem_singleton.mp hnew]
        exact hid.symm ▸ h.kept.answers ack hack houtcome
      · exact absurd hnew List.not_mem_nil
      · rw [List.mem_singleton.mp hnew] at hsaved
        cases hsaved
  · cases Outbox.mem_change hitem with
    | inl hold => exact h.kept.ticks item hold ticked htick
    | inr hchanged =>
      obtain ⟨old, hold, -, hnew⟩ := hchanged
      split at hnew
      · rw [List.mem_singleton.mp hnew] at htick ⊢
        exact h.kept.ticks old hold ticked htick
      · exact absurd hnew List.not_mem_nil
      · rw [List.mem_singleton.mp hnew] at htick ⊢
        exact h.kept.ticks old hold ticked htick
  · by_cases hid : item.id = ack.id
    · cases houtcome : ack.outcome with
      | saved => exact Or.inr (Or.inr (hid ▸ h.kept.answers ack hack houtcome))
      | refused =>
        cases hask : item.request with
        | tick ticked => exact absurd hin (h.kept.ticks item hitem ticked hask)
        | capture said =>
          refine Or.inl ⟨{ item with state := .refused (ack.message.getD failedMessage) }, ?_, rfl⟩
          refine Outbox.mem_change_self h.nodup hitem hid ?_
          simp only [houtcome, hask, List.mem_singleton]
    · exact Or.inl ⟨item, Outbox.mem_change_of_ne hitem hid, rfl⟩

/-- That a request was not read reaches the outbox. -/
theorem Inv.needsUpdate (h : Inv w) {answers : List Answer} (id : UUID) (hanswers : answers ⊆ w.answers) :
    Inv (World.persist { w with answers := answers } (w.outbox.needsUpdate id)) := by
  refine h.shrink ?_ hanswers (List.Subset.refl _) (fun item hitem saved hsaved => ?_) (fun item hitem ticked htick => ?_)
    fun item hitem _ => ?_
  · exact Outbox.ids_change_sublist fun item _ => List.Sublist.refl _
  · cases Outbox.mem_change hitem with
    | inl hold => exact h.kept.saved item hold saved hsaved
    | inr hchanged =>
      obtain ⟨old, -, -, hnew⟩ := hchanged
      rw [List.mem_singleton.mp hnew] at hsaved
      cases hsaved
  · cases Outbox.mem_change hitem with
    | inl hold => exact h.kept.ticks item hold ticked htick
    | inr hchanged =>
      obtain ⟨old, hold, -, hnew⟩ := hchanged
      rw [List.mem_singleton.mp hnew] at htick ⊢
      exact h.kept.ticks old hold ticked htick
  · by_cases hid : item.id = id
    · exact Or.inl ⟨{ item with state := .refused updateMessage },
        Outbox.mem_change_self h.nodup hitem hid (List.mem_singleton_self _), rfl⟩
    · exact Or.inl ⟨item, Outbox.mem_change_of_ne hitem hid, rfl⟩

/-- Items are dropped, each deleted by its person or saved. -/
theorem Inv.filter (h : Inv w) (keeps : Item → Bool) {deleted : List UUID} (hdeleted : w.deleted ⊆ deleted)
    (hdropped : ∀ item ∈ w.outbox, keeps item = false → w.first item.id ∈ deleted ∨ item.id ∈ w.writtenIds) :
    Inv (World.persist { w with deleted := deleted } (w.outbox.filter keeps)) := by
  refine h.shrink ((List.filter_sublist).map Item.id) (List.Subset.refl _) hdeleted
    (fun item hitem => h.kept.saved item (List.mem_filter.mp hitem).1)
    (fun item hitem => h.kept.ticks item (List.mem_filter.mp hitem).1) fun item hitem _ => ?_
  cases hkeeps : keeps item with
  | true => exact Or.inl ⟨item, List.mem_filter.mpr ⟨hitem, hkeeps⟩, rfl⟩
  | false => exact Or.inr (hdropped item hitem hkeeps)

theorem reconcile_resends (w : World) (outstanding : List UUID) : Resends w (w.persist (w.outbox.reconcile outstanding)) := by
  refine ⟨?_, rfl, fun id hid => Or.inl hid, rfl, rfl, rfl, rfl, rfl, rfl⟩
  change (w.outbox.reconcile outstanding).map Item.core = _
  rw [Outbox.reconcile, List.map_map]
  refine List.map_congr_left fun item _ => ?_
  rw [Function.comp_apply]
  split
  · rfl
  · rfl

theorem mem_of_item {outbox : Outbox} {id : UUID} {item : Item} (h : outbox.item id = some item) :
    item ∈ outbox ∧ item.id = id :=
  ⟨List.mem_of_find?_eq_some h, by simpa using List.find?_some h⟩

theorem flying_of_message {place : ℕ} {request : Request} (h : w.messages[place]? = some request) :
    request.id ∈ w.flying := List.mem_map_of_mem (List.mem_append_left _ (List.mem_of_getElem? h))

theorem flying_of_transfer {place : ℕ} {request : Request} (h : w.transfers[place]? = some request) :
    request.id ∈ w.flying := List.mem_map_of_mem (List.mem_append_right _ (List.mem_of_getElem? h))

theorem Inv.next {action : Action} (h : Inv w) (hcareful : Careful w action) (hnext : Next w action t) : Inv t := by
  cases action with
  | enqueue request session =>
    simp only [Next, World.step] at hnext
    split at hnext
    · cases hnext
    · next hnew =>
      rw [← Option.some.inj hnext]
      have hcaptured : ∀ id ∈ w.enqueued ++ request.captured,
          id ∈ w.enqueued ∨ id = request.id ∧ ∀ ticked, request ≠ .tick ticked := by
        intro id hid
        refine (List.mem_append.mp hid).imp_right fun hlast => ?_
        cases request with
        | capture said => exact ⟨List.mem_singleton.mp hlast, fun ticked htick => by cases htick⟩
        | tick ticked => exact absurd hlast List.not_mem_nil
      refine (h.add hnew hcaptured).resends (send_resends rfl session ?_)
      exact List.mem_map_of_mem (List.mem_append_right _ (List.mem_singleton_self _))
  | resendWaiting session =>
    rw [← Option.some.inj hnext]
    refine h.resends (sends_resends session h.file fun request hrequest => ?_)
    obtain ⟨item, hitem, rfl⟩ := List.mem_map.mp hrequest
    exact List.mem_map_of_mem (List.mem_filter.mp hitem).1
  | fallback send =>
    obtain ⟨request, -, rfl⟩ := Option.map_eq_some_iff.mp hnext
    exact h.resends (transfer_resends h.file request)
  | message place taking =>
    obtain ⟨request, hrequest, rfl⟩ := Option.map_eq_some_iff.mp hnext
    refine h.handle (flying_of_message hrequest) rfl rfl (fun id hid => ?_) rfl rfl rfl rfl rfl fun ack hack => ?_
    · refine List.map_subset _ (fun other hother => ?_) hid
      exact (List.mem_append.mp hother).elim (fun hleft => List.mem_append_left _ (List.mem_of_mem_eraseIdx hleft))
        (List.mem_append_right _)
    · refine (List.mem_append.mp hack).imp_right fun hlast => ?_
      cases hreply : (w.phone.handle request taking).2 with
      | none =>
        rw [hreply] at hlast
        cases List.mem_singleton.mp hlast
      | some reply =>
        rw [hreply] at hlast
        cases List.mem_singleton.mp hlast
        rfl
  | transferred place taking =>
    obtain ⟨request, hrequest, rfl⟩ := Option.map_eq_some_iff.mp hnext
    refine h.handle (flying_of_transfer hrequest) rfl rfl (fun id hid => ?_) rfl rfl rfl rfl rfl fun ack hack => ?_
    · refine List.map_subset _ (fun other hother => ?_) hid
      exact (List.mem_append.mp hother).elim (List.mem_append_left _)
        fun hright => List.mem_append_right _ (List.mem_of_mem_eraseIdx hright)
    · refine (List.mem_append.mp hack).imp_right fun hlast => ?_
      rw [Option.mem_toList, Option.map_eq_some_iff] at hlast
      obtain ⟨reply, hreply, hsame⟩ := hlast
      cases hsame
      exact hreply
  | answer place date =>
    obtain ⟨answer, hanswer, rfl⟩ := Option.map_eq_some_iff.mp hnext
    have hless : w.answers.eraseIdx place ⊆ w.answers := fun other hother => List.mem_of_mem_eraseIdx hother
    cases answer with
    | ack ack => exact h.apply date hless (List.mem_of_getElem? hanswer)
    | unreadable id => exact h.needsUpdate id hless
  | reconcile outstanding =>
    rw [← Option.some.inj hnext]
    exact h.resends (reconcile_resends w outstanding)
  | retry id new session =>
    obtain ⟨item, hitem, hretried⟩ := Option.bind_eq_some_iff.mp hnext
    obtain ⟨hmem, hid⟩ := mem_of_item hitem
    split at hretried
    · split at hretried
      · cases hretried
      · next hnew =>
        rw [← Option.some.inj hretried]
        refine (h.retry hmem hid hnew hcareful.1 hcareful.2).resends (send_resends rfl session ?_)
        exact List.mem_map.mpr ⟨_, Outbox.mem_change_self h.nodup hmem hid (List.mem_singleton_self _), rfl⟩
    · cases hretried
  | delete id =>
    rw [← Option.some.inj hnext]
    refine h.filter _ (List.subset_cons_self _ _) fun item _ hgone => Or.inl ?_
    have hid : item.id = id := by simpa using hgone
    exact hid ▸ List.mem_cons_self
  | snapshot madeAt =>
    rw [← Option.some.inj hnext]
    refine h.filter _ (List.Subset.refl _) fun item hitem hgone => Or.inr ?_
    split at hgone
    · next date hdate => exact h.kept.saved item hitem date hdate
    · cases hgone
  | restart =>
    rw [← Option.some.inj hnext]
    refine h.resends ⟨?_, rfl, fun id hid => Or.inl hid, rfl, rfl, rfl, rfl, rfl, rfl⟩
    exact congrArg (List.map Item.core) h.file

theorem Initial.inv (h : Initial w) : Inv w := by
  rw [h]
  refine ⟨rfl, ⟨List.nodup_nil, ?_, List.nodup_nil, ?_, ?_, ?_, ?_⟩, ⟨?_, ?_, ?_⟩, ⟨?_, ?_, ?_, ?_, ?_⟩⟩
  all_goals simp [World.ids, World.flying, World.writtenIds, NoneLost, Table.get]

end

instance (w : World) (action : Action) : Decidable (Careful w action) := by
  cases action <;> unfold Careful <;> infer_instance

/-- A capture that the app did not read, tried again once it does. -/
def afterUpdate : List Action :=
  [.enqueue (.capture ⟨1, "Buy milk".toList⟩) .reachable, .message 0 .unreadable, .answer 0 0, .retry 1 2 .unreachable,
    .transferred 0 (.handled none), .answer 0 5]

def start : World := ⟨[], [], [], [], [], [], ⟨[], []⟩, [], [], [], []⟩

/-- The transfer of a capture is on its way when the message of it is refused unrecorded, and is tried again. -/
def stillOnItsWay : List Action :=
  [.enqueue (.capture ⟨1, "Buy milk".toList⟩) .reachable, .fallback 0, .message 0 .lookupFails, .answer 0 0,
    .retry 1 2 .reachable, .message 0 (.handled none), .transferred 0 (.handled none)]

end Thock.ThockKit.Watch
