import Mathlib.Algebra.Order.Ring.Int
import Thock.Lib.Table
import Thock.Lib.Transition

/-!
# The push coalescer

Spaced pushes to each vault's phone. Every operation is the critical sections it takes: a nudge
sets its push held and goes on to a flush, a flush claims its slot under the lock and sends
outside it, and the answer of a send is written back under the lock again.

Any section may run at any time, so a flush is also the second half of a nudge. A send begins
where its slot is claimed, at the time that was read there, in nanoseconds since the zero time.
-/

namespace Thock.Plus

open Transition

structure PushCoalescer (V : Type*) where
  lastSent : Table V ℤ
  held : Table V Bool
  spacing : ℤ
deriving DecidableEq, Repr

/-- A push that was begun: when its slot was claimed, what the slot held before, and whether the
answer said that the push must stay held, once there is one. -/
structure Send (V : Type*) where
  vault : V
  start : ℤ
  previous : Option ℤ
  stillHeld : Option Bool
deriving DecidableEq, Repr

namespace PushCoalescer

variable {V : Type*} [DecidableEq V]

def isHeld (c : PushCoalescer V) (vault : V) : Bool := (c.held.get vault).getD false

/-- The first section of a nudge. -/
def nudge (c : PushCoalescer V) (vault : V) : PushCoalescer V := { c with held := c.held.put vault true }

/-- The first section of a flush: the slot it claims, and what was there. -/
def claim (c : PushCoalescer V) (vault : V) (now : ℤ) : Option (PushCoalescer V × Option ℤ) :=
  let previous := c.lastSent.get vault
  if !c.isHeld vault || previous.any fun p => now - p < c.spacing then none
  else some ({ c with held := c.held.erase vault, lastSent := c.lastSent.put vault now }, previous)

/-- The second section of a flush, after its send has answered. -/
def answered (c : PushCoalescer V) (vault : V) (now : ℤ) (previous : Option ℤ) (stillHeld : Bool) :
    PushCoalescer V :=
  if stillHeld = false then c
  else
    let held := c.held.put vault true
    -- a missing entry reads as the zero time
    if (c.lastSent.get vault).getD 0 = now then
      match previous with
      | some p => { c with held, lastSent := c.lastSent.put vault p }
      | none => { c with held, lastSent := c.lastSent.erase vault }
    else { c with held }

def clear (c : PushCoalescer V) (vault : V) : PushCoalescer V := { c with held := c.held.erase vault }

end PushCoalescer

/-- The coalescer, its clock, and every send begun so far. -/
structure PushState (V : Type*) where
  coalescer : PushCoalescer V
  clock : ℤ
  sends : List (Send V)

inductive PushAction (V : Type*) where
  | tick (clock : ℤ)
  | nudge (vault : V)
  | flush (vault : V)
  | answer (send : ℕ) (stillHeld : Bool)
  | clear (vault : V)
deriving DecidableEq

variable {V : Type*} [DecidableEq V]

def pushStep (s : PushState V) : PushAction V → Option (PushState V)
  | .tick clock => if s.clock ≤ clock then some { s with clock } else none
  | .nudge vault => some { s with coalescer := s.coalescer.nudge vault }
  | .flush vault =>
    match s.coalescer.claim vault s.clock with
    | none => some s
    | some (coalescer, previous) =>
      some { s with coalescer, sends := s.sends ++ [⟨vault, s.clock, previous, none⟩] }
  | .answer i stillHeld =>
    match s.sends[i]? with
    | some ⟨vault, start, previous, none⟩ =>
      some { s with
        coalescer := s.coalescer.answered vault start previous stillHeld
        sends := s.sends.set i ⟨vault, start, previous, some stillHeld⟩ }
    | _ => none
  | .clear vault => some { s with coalescer := s.coalescer.clear vault }

def PushNext (s : PushState V) (action : PushAction V) (t : PushState V) : Prop := pushStep s action = some t

/-- Ten minutes. -/
def pushSpacing : ℤ := 10 * 60 * 10 ^ 9

def newPushCoalescer (V : Type*) : PushCoalescer V := { lastSent := [], held := [], spacing := pushSpacing }

def PushState.start (V : Type*) (clock : ℤ) : PushState V :=
  { coalescer := newPushCoalescer V, clock, sends := [] }

/-- A send that took its slot, as far as is known. -/
def Send.Took (send : Send V) : Prop := send.stillHeld ≠ some true

/-- What the slots say of the sends that took one. -/
structure Spaced (s : PushState V) : Prop where
  begun : ∀ send ∈ s.sends, send.start ≤ s.clock
  prior : ∀ send ∈ s.sends, ∀ p, send.previous = some p → p ≤ s.clock
  latest : ∀ vault last, s.coalescer.lastSent.get vault = some last → last ≤ s.clock
  slot : ∀ send ∈ s.sends, send.Took → ∃ last, s.coalescer.lastSent.get send.vault = some last ∧ send.start ≤ last
  before : s.sends.Pairwise fun a b => a.vault = b.vault → a.Took → b.stillHeld = none →
    ∃ p, b.previous = some p ∧ a.start ≤ p
  apart : s.sends.Pairwise fun a b => a.vault = b.vault → a.Took → b.Took → a.start + s.coalescer.spacing ≤ b.start

/-! ## Sections -/

section Sections
variable {c c' : PushCoalescer V} {vault : V} {now : ℤ} {previous : Option ℤ}

/-- What a flush takes when it claims a slot. -/
theorem claim_some (h : c.claim vault now = some (c', previous)) :
    c.isHeld vault = true ∧ previous = c.lastSent.get vault ∧ (∀ p, previous = some p → p + c.spacing ≤ now) ∧
      c' = { c with held := c.held.erase vault, lastSent := c.lastSent.put vault now } := by
  unfold PushCoalescer.claim at h
  dsimp only at h
  split at h
  · cases h
  · next hfree =>
    rw [Bool.or_eq_true, not_or] at hfree
    obtain ⟨rfl, rfl⟩ := Prod.mk.inj (Option.some.inj h)
    refine ⟨by simpa using hfree.1, rfl, ?_, rfl⟩
    intro p hp
    have hspaced : ¬now - p < c.spacing := by simpa [hp] using hfree.2
    omega

theorem claim_isSome (hheld : c.isHeld vault = true)
    (hspaced : ∀ p, c.lastSent.get vault = some p → p + c.spacing ≤ now) : (c.claim vault now).isSome = true := by
  have hfree : (c.lastSent.get vault).any (fun p => now - p < c.spacing) = false := by
    cases hget : c.lastSent.get vault with
    | none => rfl
    | some p =>
      have hp := hspaced p hget
      simpa using (by omega : c.spacing ≤ now - p)
  simp [PushCoalescer.claim, hheld, hfree]

end Sections

theorem pairwise_replace {α : Type*} {related : α → α → Prop} {front back : List α} {a b : α}
    (h : (front ++ a :: back).Pairwise related) (hleft : ∀ x, related x a → related x b)
    (hright : ∀ x, related a x → related b x) : (front ++ b :: back).Pairwise related := by
  obtain ⟨hfront, hback, hcross⟩ := List.pairwise_append.mp h
  obtain ⟨hhead, htail⟩ := List.pairwise_cons.mp hback
  apply List.pairwise_append.mpr ⟨hfront, List.pairwise_cons.mpr ⟨fun x hx => hright x (hhead x hx), htail⟩, _⟩
  intro x hx y hy
  rcases List.mem_cons.mp hy with rfl | hy
  · exact hleft x (hcross x hx a List.mem_cons_self)
  · exact hcross x hx y (List.mem_cons_of_mem a hy)

/-! ## What every action keeps -/

section Steps
variable {s t : PushState V} {action : PushAction V}

/-- What one action can do. -/
theorem pushStep_cases (h : PushNext s action t) :
    (∃ clock, action = .tick clock ∧ s.clock ≤ clock ∧ t = { s with clock }) ∨
    (∃ vault, action = .nudge vault ∧ t = { s with coalescer := s.coalescer.nudge vault }) ∨
    (∃ vault, action = .flush vault ∧ (t = s ∨
      ∃ coalescer previous, s.coalescer.claim vault s.clock = some (coalescer, previous) ∧
        t = { s with coalescer, sends := s.sends ++ [⟨vault, s.clock, previous, none⟩] })) ∨
    (∃ i vault start previous stillHeld, action = .answer i stillHeld ∧
      s.sends[i]? = some ⟨vault, start, previous, none⟩ ∧
        t = { s with
          coalescer := s.coalescer.answered vault start previous stillHeld
          sends := s.sends.set i ⟨vault, start, previous, some stillHeld⟩ }) ∨
    ∃ vault, action = .clear vault ∧ t = { s with coalescer := s.coalescer.clear vault } := by
  cases action with
  | tick clock =>
    simp only [PushNext, pushStep] at h
    split at h
    · next hle => exact Or.inl ⟨clock, rfl, hle, (Option.some.inj h).symm⟩
    · cases h
  | nudge vault => exact Or.inr (Or.inl ⟨vault, rfl, (Option.some.inj h).symm⟩)
  | flush vault =>
    refine Or.inr (Or.inr (Or.inl ⟨vault, rfl, ?_⟩))
    simp only [PushNext, pushStep] at h
    split at h
    · exact Or.inl (Option.some.inj h).symm
    · next coalescer previous hclaim => exact Or.inr ⟨coalescer, previous, hclaim, (Option.some.inj h).symm⟩
  | answer i stillHeld =>
    simp only [PushNext, pushStep] at h
    split at h
    · next vault start previous hsend =>
      exact Or.inr (Or.inr (Or.inr (Or.inl ⟨i, vault, start, previous, stillHeld, rfl, hsend,
        (Option.some.inj h).symm⟩)))
    · cases h
  | clear vault => exact Or.inr (Or.inr (Or.inr (Or.inr ⟨vault, rfl, (Option.some.inj h).symm⟩)))

theorem Spaced.flush (h : Spaced s) {vault : V} {coalescer : PushCoalescer V} {previous : Option ℤ}
    (hclaim : s.coalescer.claim vault s.clock = some (coalescer, previous)) :
    Spaced { s with coalescer, sends := s.sends ++ [⟨vault, s.clock, previous, none⟩] } := by
  obtain ⟨-, hprevious, hspaced, rfl⟩ := claim_some hclaim
  constructor
  · intro send hsend
    rcases List.mem_append.mp hsend with hold | hnew
    · exact h.begun send hold
    · rw [List.mem_singleton.mp hnew]
  · intro send hsend p hp
    rcases List.mem_append.mp hsend with hold | hnew
    · exact h.prior send hold p hp
    · rw [List.mem_singleton.mp hnew] at hp
      exact h.latest vault p (hprevious ▸ hp)
  · intro other last hlast
    rw [Table.get_put] at hlast
    split at hlast
    · exact (Option.some.inj hlast).ge
    · exact h.latest other last hlast
  · intro send hsend htook
    rw [Table.get_put]
    rcases List.mem_append.mp hsend with hold | hnew
    · split
      · exact ⟨s.clock, rfl, h.begun send hold⟩
      · exact h.slot send hold htook
    · rw [List.mem_singleton.mp hnew]
      exact ⟨s.clock, if_pos rfl, le_rfl⟩
  · apply List.pairwise_append.mpr ⟨h.before, List.pairwise_singleton _ _, _⟩
    intro a ha b hb hvault htook _
    rw [List.mem_singleton.mp hb] at hvault ⊢
    obtain ⟨last, hlast, hle⟩ := h.slot a ha htook
    exact ⟨last, by rw [hprevious, ← hlast, hvault], hle⟩
  · apply List.pairwise_append.mpr ⟨h.apart, List.pairwise_singleton _ _, _⟩
    intro a ha b hb hvault htook _
    rw [List.mem_singleton.mp hb] at hvault ⊢
    obtain ⟨last, hlast, hle⟩ := h.slot a ha htook
    have hlater := hspaced last (by rw [hprevious, ← hlast, hvault])
    dsimp only at hlater ⊢
    omega

/-- The slot after an answer: put back to what it was before the send, or as it was. -/
theorem get_answered (c : PushCoalescer V) (vault other : V) (now : ℤ) (previous : Option ℤ)
    (stillHeld : Bool) :
    (c.answered vault now previous stillHeld).lastSent.get other =
      if stillHeld = true ∧ other = vault ∧ (c.lastSent.get vault).getD 0 = now then previous
      else c.lastSent.get other := by
  unfold PushCoalescer.answered
  cases stillHeld with
  | false => simp
  | true =>
    dsimp only
    rw [if_neg (by decide)]
    split
    · next heq =>
      cases previous with
      | none => simp [Table.get_erase, heq]
      | some p => simp [Table.get_put, heq]
    · next hne => simp [hne]

@[simp] theorem spacing_answered (c : PushCoalescer V) (vault : V) (now : ℤ) (previous : Option ℤ) (stillHeld : Bool) :
    (c.answered vault now previous stillHeld).spacing = c.spacing := by
  unfold PushCoalescer.answered
  split
  · rfl
  · dsimp only
    split
    · split <;> rfl
    · rfl

theorem Spaced.answer (h : Spaced s) (hspacing : 0 < s.coalescer.spacing) {i : ℕ} {vault : V} {start : ℤ}
    {previous : Option ℤ} {stillHeld : Bool} (hsend : s.sends[i]? = some ⟨vault, start, previous, none⟩) :
    Spaced { s with
      coalescer := s.coalescer.answered vault start previous stillHeld
      sends := s.sends.set i ⟨vault, start, previous, some stillHeld⟩ } := by
  obtain ⟨hbegun, hprior, hlatest, hslot, hbefore, hapart⟩ := h
  obtain ⟨hlt, hget⟩ := List.getElem?_eq_some_iff.mp hsend
  obtain ⟨front, back, hsplit, hset⟩ : ∃ front back, s.sends = front ++ ⟨vault, start, previous, none⟩ :: back ∧
      s.sends.set i ⟨vault, start, previous, some stillHeld⟩ =
        front ++ ⟨vault, start, previous, some stillHeld⟩ :: back :=
    ⟨s.sends.take i, s.sends.drop (i + 1), by rw [← hget, List.getElem_cons_drop, List.take_append_drop],
      List.set_eq_take_append_cons_drop.trans (if_pos hlt)⟩
  rw [hset]
  rw [hsplit] at hbegun hprior hslot hbefore hapart
  have hmine : (⟨vault, start, previous, none⟩ : Send V) ∈ front ++ ⟨vault, start, previous, none⟩ :: back := by simp
  -- the answered send is told apart from the others by its place only
  have hothers : ∀ send ∈ front ++ ⟨vault, start, previous, some stillHeld⟩ :: back,
      send = ⟨vault, start, previous, some stillHeld⟩ ∨ send ∈ front ++ ⟨vault, start, previous, none⟩ :: back ∧
        (send ∈ front ∨ send ∈ back) := by
    intro send hmem
    rcases List.mem_append.mp hmem with hfront | hrest
    · exact Or.inr ⟨List.mem_append_left _ hfront, Or.inl hfront⟩
    · rcases List.mem_cons.mp hrest with rfl | hback
      · exact Or.inl rfl
      · exact Or.inr ⟨List.mem_append_right _ (List.mem_cons_of_mem _ hback), Or.inr hback⟩
  constructor
  · intro send hmem
    rcases hothers send hmem with rfl | ⟨hold, -⟩
    · exact hbegun ⟨vault, start, previous, none⟩ hmine
    · exact hbegun send hold
  · intro send hmem p hp
    rcases hothers send hmem with rfl | ⟨hold, -⟩
    · exact hprior ⟨vault, start, previous, none⟩ hmine p hp
    · exact hprior send hold p hp
  · intro other last hlast
    rw [get_answered] at hlast
    split at hlast
    · exact hprior ⟨vault, start, previous, none⟩ hmine last hlast
    · exact hlatest other last hlast
  · intro send hmem htook
    rw [get_answered]
    rcases hothers send hmem with rfl | ⟨hold, hside⟩
    · have hquiet : stillHeld ≠ true := fun hheld => htook (congrArg some hheld)
      rw [if_neg (fun hcase => hquiet hcase.1)]
      exact hslot ⟨vault, start, previous, none⟩ hmine (by simp [Send.Took])
    · split
      · next hback =>
        obtain ⟨-, hvault, hequal⟩ := hback
        obtain ⟨last, hlast, hle⟩ := hslot send hold htook
        rw [← hvault, hlast, Option.getD_some] at hequal
        rcases hside with hfront | hafter
        · have hpast := (List.pairwise_append.mp hbefore).2.2 send hfront _ List.mem_cons_self hvault htook rfl
          exact hpast
        · have hlater := List.rel_of_pairwise_cons (List.pairwise_append.mp hapart).2.1 hafter hvault.symm
            (by simp [Send.Took]) htook
          dsimp only at hlater
          omega
      · exact hslot send hold htook
  · apply pairwise_replace hbefore
    · intro x _ _ _ hnone
      cases hnone
    · intro x hx hvault htook hnone
      exact hx hvault (by simp [Send.Took]) hnone
  · rw [spacing_answered]
    apply pairwise_replace hapart
    · intro x hx hvault htook _
      exact hx hvault htook (by simp [Send.Took])
    · intro x hx hvault _ htook
      exact hx hvault (by simp [Send.Took]) htook

theorem spacing_pushStep (h : PushNext s action t) : t.coalescer.spacing = s.coalescer.spacing := by
  rcases pushStep_cases h with ⟨_, -, -, rfl⟩ | ⟨_, -, rfl⟩ | ⟨_, -, rfl | ⟨_, _, hclaim, rfl⟩⟩ |
    ⟨_, _, _, _, _, -, -, rfl⟩ | ⟨_, -, rfl⟩
  · rfl
  · rfl
  · rfl
  · rw [(claim_some hclaim).2.2.2]
  · exact spacing_answered _ _ _ _ _
  · rfl

/-- No action brings two sends closer. -/
theorem Spaced.step (h : Spaced s) (hspacing : 0 < s.coalescer.spacing) (hstep : PushNext s action t) : Spaced t := by
  rcases pushStep_cases hstep with ⟨clock, -, hle, rfl⟩ | ⟨_, -, rfl⟩ | ⟨_, -, rfl | ⟨_, _, hclaim, rfl⟩⟩ |
    ⟨_, _, _, _, _, -, hsend, rfl⟩ | ⟨_, -, rfl⟩
  · exact ⟨fun send hsend => (h.begun send hsend).trans hle, fun send hsend p hp => (h.prior send hsend p hp).trans hle,
      fun vault last hlast => (h.latest vault last hlast).trans hle, h.slot, h.before, h.apart⟩
  · exact ⟨h.begun, h.prior, h.latest, h.slot, h.before, h.apart⟩
  · exact h
  · exact h.flush hclaim
  · exact h.answer hspacing hsend
  · exact ⟨h.begun, h.prior, h.latest, h.slot, h.before, h.apart⟩

/-- A push that is held, or taken by a send begun after the first `n`. -/
def Kept (n : ℕ) (vault : V) (s : PushState V) : Prop :=
  s.coalescer.isHeld vault = true ∨
    ∃ i send, n ≤ i ∧ s.sends[i]? = some send ∧ send.vault = vault ∧ send.Took

theorem isHeld_answered (c : PushCoalescer V) (vault other : V) (now : ℤ) (previous : Option ℤ) (stillHeld : Bool) :
    (c.answered vault now previous stillHeld).isHeld other =
      if stillHeld = true ∧ other = vault then true else c.isHeld other := by
  have hheld : (c.answered vault now previous stillHeld).held =
      if stillHeld = true then c.held.put vault true else c.held := by
    unfold PushCoalescer.answered
    cases stillHeld with
    | false => rfl
    | true =>
      dsimp only
      rw [if_neg (by decide)]
      split
      · split <;> rfl
      · rfl
  unfold PushCoalescer.isHeld
  rw [hheld]
  cases stillHeld with
  | false => simp
  | true =>
    rw [if_pos rfl, Table.get_put]
    by_cases heq : other = vault <;> simp [heq]

/-- Nothing but a clear drops a push that is held. -/
theorem Kept.step {n : ℕ} {vault : V} (h : Kept n vault s) (hn : n ≤ s.sends.length) (hclear : action ≠ .clear vault)
    (hstep : PushNext s action t) : Kept n vault t ∧ n ≤ t.sends.length := by
  rcases pushStep_cases hstep with ⟨_, -, -, rfl⟩ | ⟨other, -, rfl⟩ | ⟨other, -, rfl | ⟨coalescer, previous, hclaim, rfl⟩⟩ |
    ⟨i, other, start, previous, stillHeld, -, hsend, rfl⟩ | ⟨other, rfl, rfl⟩
  · exact ⟨h, hn⟩
  · refine ⟨h.imp_left fun hheld => ?_, hn⟩
    unfold PushCoalescer.isHeld PushCoalescer.nudge at *
    dsimp only
    rw [Table.get_put]
    split
    · rfl
    · exact hheld
  · exact ⟨h, hn⟩
  · obtain ⟨-, -, -, rfl⟩ := claim_some hclaim
    refine ⟨?_, by simp; omega⟩
    by_cases hvault : other = vault
    · exact Or.inr ⟨s.sends.length, _, hn, List.getElem?_concat_length, hvault, by simp [Send.Took]⟩
    · rcases h with hheld | ⟨i, send, hi, hsend, hrest⟩
      · apply Or.inl
        unfold PushCoalescer.isHeld at *
        rw [Table.get_erase_of_ne _ (Ne.symm hvault)]
        exact hheld
      · have hlt := (List.getElem?_eq_some_iff.mp hsend).1
        exact Or.inr ⟨i, send, hi, by rw [List.getElem?_append_left hlt, hsend], hrest⟩
  · refine ⟨?_, by simpa using hn⟩
    by_cases hback : stillHeld = true ∧ vault = other
    · exact Or.inl (by rw [isHeld_answered, if_pos hback])
    · rcases h with hheld | ⟨k, send, hk, hkept, hvault, htook⟩
      · exact Or.inl (by rw [isHeld_answered, if_neg hback]; exact hheld)
      · apply Or.inr
        by_cases hik : i = k
        · subst hik
          have hlt := (List.getElem?_eq_some_iff.mp hsend).1
          rw [hsend] at hkept
          cases hkept
          refine ⟨i, ⟨other, start, previous, some stillHeld⟩, hk, List.getElem?_set_self hlt, hvault, ?_⟩
          intro hheld
          exact hback ⟨Option.some.inj hheld, hvault.symm⟩
        · exact ⟨k, send, hk, by rw [List.getElem?_set_ne hik, hkept], hvault, htook⟩
  · refine ⟨h.imp_left fun hheld => ?_, hn⟩
    have hvault : vault ≠ other := fun heq => hclear (by rw [heq])
    unfold PushCoalescer.isHeld PushCoalescer.clear at *
    rw [Table.get_erase_of_ne _ hvault]
    exact hheld

end Steps

/-- A held push that any flush sends from some time on, at most a spacing away. -/
def Due (s : PushState V) (vault : V) : Prop :=
  s.coalescer.isHeld vault = true ∧
    ∃ due ≤ s.clock + pushSpacing, ∀ now, due ≤ now → (s.coalescer.claim vault now).isSome = true

/-- Every reachable state has its sends spaced. -/
theorem spaced_of_run {clock : ℤ} {actions : List (PushAction V)} {s : PushState V}
    (run : Run PushNext (PushState.start V clock) actions s) :
    Spaced s ∧ s.coalescer.spacing = pushSpacing := by
  apply run.invariant (fun s => Spaced s ∧ s.coalescer.spacing = pushSpacing)
  · intro s action t h hstep
    have hpositive : 0 < s.coalescer.spacing := by rw [h.2]; decide
    exact ⟨h.1.step hpositive hstep, (spacing_pushStep hstep).trans h.2⟩
  · refine ⟨⟨by simp [PushState.start], by simp [PushState.start], ?_, by simp [PushState.start], ?_, ?_⟩, rfl⟩
    · intro vault last hlast
      cases hlast
    · exact List.Pairwise.nil
    · exact List.Pairwise.nil

theorem kept_of_run {n : ℕ} {vault : V} {actions : List (PushAction V)} {s t : PushState V}
    (h : Kept n vault s) (hn : n ≤ s.sends.length) (hclear : .clear vault ∉ actions) (run : Run PushNext s actions t) :
    Kept n vault t := by
  induction run with
  | nil s => exact h
  | cons first later ih =>
    obtain ⟨hfirst, hlater⟩ := not_or.mp (List.mem_cons.not.mp hclear)
    obtain ⟨hkept, hlength⟩ := h.step hn (Ne.symm hfirst) first
    exact ih hkept hlength hlater

/-- In every interleaving the sends that took their slot begin a spacing apart, and after a nudge
that no clear follows a send began or the push is held and due. -/
theorem pushes_spaced_and_kept {clock : ℤ} {actions : List (PushAction V)} {s : PushState V}
    (run : Run PushNext (PushState.start V clock) actions s) :
    (s.sends.Pairwise fun a b => a.vault = b.vault → a.Took → b.Took → a.start + pushSpacing ≤ b.start) ∧
      ∀ earlier later vault before after, Run PushNext (PushState.start V clock) earlier before →
        PushNext before (.nudge vault) after → Run PushNext after later s → .clear vault ∉ later →
          (∃ i send, before.sends.length ≤ i ∧ s.sends[i]? = some send ∧ send.vault = vault ∧ send.Took) ∨
            Due s vault := by
  obtain ⟨hspaced, hspacing⟩ := spaced_of_run run
  refine ⟨by simpa only [hspacing] using hspaced.apart, ?_⟩
  intro earlier later vault before after _ hnudge hlater hclear
  cases hnudge
  have hnow : Kept before.sends.length vault { before with coalescer := before.coalescer.nudge vault } :=
    Or.inl (by simp [PushCoalescer.isHeld, PushCoalescer.nudge])
  rcases kept_of_run hnow le_rfl hclear hlater with hheld | hsent
  · refine Or.inr ⟨hheld, ?_⟩
    cases hlast : s.coalescer.lastSent.get vault with
    | none =>
      refine ⟨s.clock + pushSpacing, le_rfl, fun now _ => claim_isSome hheld ?_⟩
      intro p hp
      rw [hlast] at hp
      cases hp
    | some last =>
      refine ⟨last + pushSpacing, by have := hspaced.latest vault last hlast; omega, fun now hnow => ?_⟩
      apply claim_isSome hheld
      intro p hp
      rw [hlast] at hp
      cases hp
      rwa [hspacing]
  · exact Or.inl hsent

/-- Two nudges ten minutes apart, the first one's answer late: both pushes are sent. -/
theorem pushes_spaced_and_kept_twice :
    ∃ s : PushState ℕ, (s.sends.map fun send => (send.start, send.stillHeld)) =
        [(0, some false), (pushSpacing, none)] ∧
      s.sends.Pairwise fun a b => a.vault = b.vault → a.Took → b.Took → a.start + pushSpacing ≤ b.start := by
  have run := Run.of_follow (fun _ _ _ h => h) (show follow pushStep (PushState.start ℕ 0)
    [.nudge 1, .flush 1, .nudge 1, .flush 1, .tick pushSpacing, .flush 1, .answer 0 false] = some _ from rfl)
  exact ⟨_, by decide, (pushes_spaced_and_kept run).1⟩

end Thock.Plus
