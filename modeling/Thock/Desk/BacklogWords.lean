import Thock.Desk.Backlog
import Thock.SyncCore.LineWords
import Thock.SyncCore.StampedLine

/-!
# The words a backlog task is known by

A task's text is compared without its reminder ids, its token and its completion stamp. Ids are
taken out place by place, the token once, and each of the two on both sides of a stamp alike, so
what the stamp leaves of the text is known from the text before it was stamped.
-/

namespace Thock.Desk.BacklogFile

open TextScan
open SyncCore (Day commentOpen commentClose words collapse words_append_left words_append_right count_collapse)
open SyncCore.Reminder

/-! ## Reminder ids -/

/-- A text and what is left of it when every reminder id is a blank. -/
inductive Unmarked : Text → Text → Prop
  | nil : Unmarked [] []
  | id {id s t : Text} (hid : isId id = true) (next : Unmarked s t) : Unmarked (idMarker id ++ s) (' ' :: t)
  | keep {c : Char} {s t : Text} (hnone : ∀ id, isId id = true → ¬idMarker id <+: c :: s) (next : Unmarked s t) :
      Unmarked (c :: s) (c :: t)

theorem idMarker_eq (id : Text) : idMarker id = idOpen ++ (id ++ commentClose) := List.append_assoc _ _ _

/-- Where an id is, it is the only one. -/
theorem idMarker_inj {id id' rest rest' : Text} (hid : isId id = true) (hid' : isId id' = true)
    (h : idMarker id ++ rest = idMarker id' ++ rest') : id = id' ∧ rest = rest' := by
  have hlength : (idMarker id).length = (idMarker id').length := by
    simp only [isId, Bool.and_eq_true, decide_eq_true_eq] at hid hid'
    simp only [idMarker, List.length_append, hid.1, hid'.1]
  obtain ⟨hmarker, hrest⟩ := List.append_inj h hlength
  rw [idMarker_eq, idMarker_eq, List.append_cancel_left_eq] at hmarker
  exact ⟨List.append_cancel_right hmarker, hrest⟩

theorem Unmarked.unique {s t t' : Text} (h : Unmarked s t) (h' : Unmarked s t') : t = t' := by
  induction h generalizing t' with
  | nil =>
    generalize hs : ([] : Text) = s at h'
    cases h' with
    | nil => rfl
    | id hid next => cases hs
    | keep hnone next => cases hs
  | @id id s t hid next ih =>
    generalize hs : idMarker id ++ s = s' at h'
    cases h' with
    | nil => cases hs
    | @id id' s' t' hid' next' =>
      obtain ⟨-, rfl⟩ := idMarker_inj hid hid' hs
      rw [ih next']
    | keep hnone next' => exact absurd ⟨s, hs⟩ (hnone id hid)
  | @keep c s t hnone next ih =>
    generalize hs : c :: s = s' at h'
    cases h' with
    | nil => cases hs
    | @id id s' t' hid next' => exact absurd ⟨s', hs.symm⟩ (hnone id hid)
    | @keep d s' t' hnone' next' =>
      obtain ⟨rfl, rfl⟩ := List.cons.inj hs
      rw [ih next']

/-- A text that opens no id is left as it is. -/
theorem Unmarked.refl {t : Text} (h : ¬idOpen <:+: t) : Unmarked t t := by
  induction t with
  | nil => exact .nil
  | cons c t ih =>
    refine .keep (fun id _ hfront => h ?_) (ih fun hin => h (hin.trans (List.suffix_cons c t).isInfix))
    rw [idMarker_eq] at hfront
    exact ((List.prefix_append _ _).trans hfront).isInfix

/-- What stands before the first opening of an id is left as it is. -/
theorem Unmarked.before {s t before after : Text} (hsplit : splitFirst idOpen s = some (before, after))
    (h : Unmarked (idOpen ++ after) t) : Unmarked s (before ++ t) := by
  have htext := splitFirst_eq hsplit
  induction before generalizing s with
  | nil =>
    rw [htext]
    exact h
  | cons c before ih =>
    subst htext
    rw [List.cons_append, List.cons_append, splitFirst] at hsplit
    split at hsplit
    · cases hsplit
    · next hfront =>
      obtain ⟨⟨b, a⟩, hrest, heq⟩ := Option.map_eq_some_iff.mp hsplit
      obtain ⟨hb, rfl⟩ := Prod.mk.inj heq
      obtain rfl : b = before := (List.cons.inj hb).2
      refine .keep (fun id _ hmarker => hfront ?_) (ih hrest rfl)
      rw [List.isPrefixOf_iff_prefix]
      rw [idMarker_eq] at hmarker
      exact (List.prefix_append _ _).trans hmarker

/-- An opening of an id that none follows is left as it is. -/
theorem Unmarked.opening {s t : Text} (hnone : ∀ id, isId id = true → ¬idMarker id <+: idOpen ++ s) (h : Unmarked s t) :
    Unmarked (idOpen ++ s) (idOpen ++ t) := by
  have hopen : idOpen = '<' :: "!--rem:".toList := by decide
  have hfurther : ∀ l : Text, '<' ∉ l → Unmarked (l ++ s) (l ++ t) := by
    intro l hl
    induction l with
    | nil => exact h
    | cons c l ih =>
      refine .keep (fun id _ hmarker => ?_) (ih fun hmem => hl (List.mem_cons_of_mem c hmem))
      obtain ⟨more, hmore⟩ := hmarker
      have hhead : '<' = c := (List.cons.inj hmore).1
      exact hl (by rw [hhead]; exact List.mem_cons_self)
  rw [hopen] at hnone ⊢
  exact .keep hnone (hfurther _ (by decide))

theorem unmarked_removeReminderIdsFrom {fuel : ℕ} {t : Text} (hfuel : t.length ≤ fuel) :
    Unmarked t (removeReminderIdsFrom fuel t) := by
  induction fuel generalizing t with
  | zero =>
    obtain rfl := List.length_eq_zero_iff.mp (Nat.le_zero.mp hfuel)
    exact .nil
  | succ fuel ih =>
    unfold removeReminderIdsFrom
    cases hsplit : splitFirst idOpen t with
    | none =>
      apply Unmarked.refl
      rintro ⟨x, y, rfl⟩
      have hsome := splitFirst_isSome idOpen x y
      rw [hsplit] at hsome
      cases hsome
    | some r =>
      obtain ⟨before, after⟩ := r
      have hlength := congrArg List.length (splitFirst_eq hsplit)
      simp only [List.length_append, show idOpen.length = 8 from rfl] at hlength
      dsimp only
      cases hclose : (splitFirst commentClose after).filter fun r => isId r.1 with
      | some r =>
        obtain ⟨hsome, hid⟩ := Option.filter_eq_some_iff.mp hclose
        have hafter := congrArg List.length (@splitFirst_eq _ _ r.1 r.2 hsome)
        simp only [List.length_append] at hafter
        apply Unmarked.before hsplit
        rw [@splitFirst_eq _ _ r.1 r.2 hsome, ← List.append_assoc, ← List.append_assoc]
        exact .id hid (ih (by omega))
      | none =>
        rw [List.append_assoc]
        refine (Unmarked.opening (fun id hid hmarker => ?_) (ih (by omega))).before hsplit
        obtain ⟨rest, hrest⟩ := hmarker
        rw [idMarker_eq, List.append_assoc, List.append_cancel_left_eq, List.append_assoc] at hrest
        have hsome : splitFirst commentClose after = some (id, rest) := by
          rw [← hrest, ← List.append_assoc]
          exact splitFirst_of_last ['-', '-'] rest (not_mem_id hid (by decide)) (by decide)
        rw [hsome] at hclose
        simp [hid] at hclose

theorem unmarked_removeReminderIds (t : Text) : Unmarked t (removeReminderIds t) :=
  unmarked_removeReminderIdsFrom le_rfl

theorem Unmarked.eq {s t : Text} (h : Unmarked s t) : removeReminderIds s = t := (unmarked_removeReminderIds s).unique h

theorem Unmarked.append {a b s t : Text} (ha : Unmarked a s) (hb : Unmarked b t)
    (hseam : ∀ id, isId id = true → Apart (idMarker id) a b) : Unmarked (a ++ b) (s ++ t) := by
  induction ha with
  | nil => exact hb
  | id hid next ih =>
    rw [List.append_assoc]
    exact .id hid (ih fun id hid => (hseam id hid).suffix)
  | @keep c a s hnone next ih =>
    refine .keep (fun id hid hmarker => ?_) (ih fun id hid => (hseam id hid).tail)
    obtain ⟨rest, hrest⟩ := hmarker
    rcases hseam id hid [] rest (by simpa using hrest.symm) with ⟨more, hmore, -⟩ | ⟨more, hmore, -⟩
    · exact hnone id hid ⟨more, by simpa using hmore.symm⟩
    · cases hmore

theorem idMarker_cons (id : Text) : idMarker id = '<' :: ("!--rem:".toList ++ (id ++ commentClose)) := by
  rw [idMarker_eq, show idOpen = '<' :: "!--rem:".toList by decide]
  rfl

/-- What stands in an id: its opening and letters, digits and marks behind. -/
theorem not_mem_idTail_of {id : Text} (hid : isId id = true) {c : Char} (hc : (c.isDigit || ('a' ≤ c && c ≤ 'f')) = false)
    (hmarks : c ∉ "!--rem:-->".toList) : c ∉ "!--rem:".toList ++ (id ++ commentClose) := by
  have hopen : c ∉ "!--rem:".toList := fun hmem => hmarks (List.mem_append_left "-->".toList hmem)
  have hclose : c ∉ commentClose := fun hmem => hmarks (List.mem_append_right "!--rem:".toList hmem)
  simp only [List.mem_append, not_or]
  exact ⟨hopen, not_mem_id hid hc, hclose⟩

theorem isHex_of_isWhitespace {c : Char} (hc : isWhitespace c = true) : (c.isDigit || ('a' ≤ c && c ≤ 'f')) = false := by
  rw [Bool.eq_false_iff]
  intro hhex
  rcases (Bool.or_eq_true _ _).mp hhex with hdigit | hletter
  · rw [not_isWhitespace_of_isDigit hdigit] at hc
    cases hc
  · rw [Bool.and_eq_true, decide_eq_true_eq, decide_eq_true_eq] at hletter
    have hfrom : 97 ≤ c.toNat := hletter.1
    have hto : c.toNat ≤ 102 := hletter.2
    simp only [isWhitespace, Bool.or_eq_true, Bool.and_eq_true, decide_eq_true_eq] at hc
    omega

theorem not_mem_idMarker_of_isWhitespace {id : Text} (hid : isId id = true) {c : Char} (hc : isWhitespace c = true) :
    c ∉ idMarker id := by
  have hmarks : ∀ d ∈ '<' :: "!--rem:-->".toList, isWhitespace d = false := by decide
  have hnot : c ∉ '<' :: "!--rem:-->".toList := fun hmem => by
    rw [hmarks c hmem] at hc
    cases hc
  rw [idMarker_cons]
  refine List.not_mem_cons_of_ne_of_not_mem (List.ne_of_not_mem_cons hnot) ?_
  exact not_mem_idTail_of hid (isHex_of_isWhitespace hc) (List.not_mem_of_not_mem_cons hnot)

/-- No id lies across the place before trailing comments. -/
theorem apart_id_of_trails {t : Text} (h : Trails t) {id : Text} (hid : isId id = true) (a : Text) :
    Apart (idMarker id) a t := by
  cases hcons : t with
  | nil => exact apart_nil_right _ a
  | cons c rest =>
    rcases h.head? (by rw [hcons]; rfl : c ∈ t.head?) with rfl | hwhite
    · rw [idMarker_cons]
      exact apart_head (not_mem_idTail_of hid (by decide) (by decide)) a rest
    · exact apart_cons (not_mem_idMarker_of_isWhitespace hid hwhite) a rest

theorem apart_id_of_mute {m : Text} (hm : Mute m) {id : Text} (hid : isId id = true) (a b : Text) :
    Apart (idMarker id) a (m ++ b) := by
  apply apart_of_head
  rw [List.head?_append_of_ne_nil _ hm.ne_nil]
  intro c hc hmem
  rcases hm.head c hc with rfl | hwhite
  · rw [idMarker_cons] at hmem
    rcases List.mem_cons.mp hmem with heq | hmem
    · exact absurd heq (by decide)
    · exact not_mem_idTail_of hid (by decide) (by decide) hmem
  · exact not_mem_idMarker_of_isWhitespace hid hwhite hmem

/-- Ids stay on their side of the place before trailing comments. -/
theorem removeReminderIds_append {comments : Text} (hbehind : Trails comments) (said : Text) :
    removeReminderIds (said ++ comments) = removeReminderIds said ++ removeReminderIds comments :=
  ((unmarked_removeReminderIds said).append (unmarked_removeReminderIds comments) fun _ hid =>
    apart_id_of_trails hbehind hid said).eq

theorem unmarked_mute {m : Text} (hm : Mute m) : Unmarked m m :=
  .refl (not_infix_of_not_mem (c := '<') (by decide) hm.plain.opens)

/-- Words put in before trailing comments stay there when ids are taken out. -/
theorem removeReminderIds_put_in {comments m : Text} (hbehind : Trails comments) (hm : Mute m) (said : Text) :
    removeReminderIds (said ++ (m ++ comments)) = removeReminderIds said ++ (m ++ removeReminderIds comments) :=
  ((unmarked_removeReminderIds said).append ((unmarked_mute hm).append (unmarked_removeReminderIds comments) fun _ hid =>
    apart_id_of_trails hbehind hid m) fun _ hid => apart_id_of_mute hm hid said comments).eq

/-! ## Runs of comments -/

/-- White space and reminder ids. -/
inductive IdRun : Text → Prop
  | nil : IdRun []
  | blank {c : Char} {t : Text} (hc : isWhitespace c = true) (next : IdRun t) : IdRun (c :: t)
  | id {id t : Text} (hid : isId id = true) (next : IdRun t) : IdRun (idMarker id ++ t)

theorem IdRun.of_cons {c : Char} {t : Text} (h : IdRun (c :: t)) (hc : isWhitespace c = true) : IdRun t := by
  generalize hs : c :: t = s at h
  cases h with
  | nil => cases hs
  | blank hd next =>
    obtain ⟨-, rfl⟩ := List.cons.inj hs
    exact next
  | @id id rest hid next =>
    rw [idMarker_cons] at hs
    obtain rfl : c = '<' := (List.cons.inj hs).1
    exact absurd hc (by decide)

/-- A run that begins like a comment begins with an id. -/
theorem IdRun.exists_id {t : Text} (h : IdRun t) (hopen : t.head? = some '<') :
    ∃ id rest, isId id = true ∧ t = idMarker id ++ rest ∧ IdRun rest := by
  cases h with
  | nil => cases hopen
  | blank hc next =>
    obtain rfl := Option.some.inj hopen
    exact absurd hc (by decide)
  | @id id rest hid next => exact ⟨id, rest, hid, rfl, next⟩

theorem idMarker_comment (id : Text) : idMarker id = commentOpen ++ ("rem:".toList ++ id) ++ commentClose := by
  rw [idMarker_eq, show idOpen = commentOpen ++ "rem:".toList by decide]
  simp

/-- A comment that begins like an id is one. -/
theorem inner_of_idMarker {inner id t : Text} (hinner : Inside inner) (hid : isId id = true)
    (h : idMarker id <+: commentOpen ++ inner ++ commentClose ++ t) : inner = "rem:".toList ++ id := by
  obtain ⟨more, hmore⟩ := h
  have hbehind : ("rem:".toList ++ id) ++ (commentClose ++ more) = inner ++ (commentClose ++ t) := by
    rw [idMarker_comment] at hmore
    simp only [List.append_assoc, List.append_cancel_left_eq] at hmore ⊢
    exact hmore
  have hdash : '-' ∉ "rem:".toList ++ id := by
    rw [List.mem_append, not_or]
    exact ⟨by decide, not_mem_id hid (by decide)⟩
  rcases List.append_eq_append_iff.mp hbehind with ⟨z, hz, hclose⟩ | ⟨z, hz, hclose⟩
  · match z, hz, hclose with
    | [], hz, _ => simpa using hz
    | [c], _, hclose => simp [commentClose] at hclose
    | [c, d], _, hclose => simp [commentClose] at hclose
    | c :: d :: e :: z, hz, hclose =>
      refine absurd ⟨"rem:".toList ++ id, z, ?_⟩ hinner.closes
      have hcde : c = '-' ∧ d = '-' ∧ e = '>' := by
        simp only [commentClose, List.cons_append, List.nil_append, List.cons.injEq] at hclose
        exact ⟨hclose.1.symm, hclose.2.1.symm, hclose.2.2.1.symm⟩
      obtain ⟨rfl, rfl, rfl⟩ := hcde
      rw [hz]
      simp [commentClose]
  · cases z with
    | nil => simpa using hz.symm
    | cons c z =>
      obtain rfl : '-' = c := (List.cons.inj hclose).1
      exact absurd (by rw [hz]; simp) hdash

/-- A comment that is no id is left as it is. -/
theorem unmarked_comment {inner : Text} (hinner : Inside inner) (hnone : ∀ id, isId id = true → inner ≠ "rem:".toList ++ id) :
    Unmarked (commentOpen ++ inner ++ commentClose) (commentOpen ++ inner ++ commentClose) := by
  have hcons : commentOpen ++ inner ++ commentClose = '<' :: (['!', '-', '-'] ++ (inner ++ commentClose)) := by
    simp [commentOpen]
  have hopens : ¬commentOpen <:+: ['!', '-', '-'] ++ (inner ++ commentClose) := by
    have hapart : Apart commentOpen ['!', '-', '-'] (inner ++ commentClose) := apart_of_not_mem (by decide) _
    rw [infix_apart hapart]
    rintro (hin | hin)
    · exact absurd (hin.subset (by decide : '<' ∈ commentOpen)) (by decide)
    · exact hinner.opens hin
  have hfront : commentOpen <+: idOpen := ⟨"rem:".toList, by decide⟩
  have hrest := Unmarked.refl fun hin => hopens (hfront.isInfix.trans hin)
  rw [hcons]
  refine .keep (fun id hid hmarker => hnone id hid ?_) hrest
  rw [← hcons, ← List.append_nil (commentOpen ++ inner ++ commentClose)] at hmarker
  exact inner_of_idMarker hinner hid hmarker

/-- Without its ids a run is one still, and blank just where it held nothing else. -/
theorem removeReminderIds_run {t : Text} (h : CommentRun t) :
    CommentRun (removeReminderIds t) ∧ (Blank (removeReminderIds t) ↔ IdRun t) := by
  induction h with
  | nil =>
    rw [Unmarked.nil.eq]
    exact ⟨.nil, iff_of_true .nil .nil⟩
  | @blank c t hc next ih =>
    have hkeep : Unmarked (c :: t) (c :: removeReminderIds t) := by
      refine .keep (fun id _ hmarker => ?_) (unmarked_removeReminderIds t)
      rw [idMarker_cons, List.cons_prefix_cons] at hmarker
      rw [← hmarker.1] at hc
      exact absurd hc (by decide)
    rw [hkeep.eq]
    refine ⟨.blank hc ih.1, fun hblank => .blank hc (ih.2.mp fun d hd => hblank d (List.mem_cons_of_mem c hd)), fun hrun => ?_⟩
    exact List.forall_mem_cons.mpr ⟨hc, ih.2.mpr (hrun.of_cons hc)⟩
  | @comment inner t hinner next ih =>
    by_cases hid : ∃ id, isId id = true ∧ inner = "rem:".toList ++ id
    · obtain ⟨id, hid, rfl⟩ := hid
      rw [← idMarker_comment, (Unmarked.id hid (unmarked_removeReminderIds t)).eq]
      refine ⟨.blank (by decide) ih.1, fun hblank => .id hid (ih.2.mp fun d hd => hblank d (List.mem_cons_of_mem _ hd)),
        fun hrun => ?_⟩
      obtain ⟨id', rest, hid', heq, hrest⟩ := hrun.exists_id (by rw [idMarker_cons]; rfl)
      obtain ⟨-, rfl⟩ := idMarker_inj hid hid' heq
      exact List.forall_mem_cons.mpr ⟨by decide, ih.2.mpr hrest⟩
    · have hnone : ∀ id, isId id = true → inner ≠ "rem:".toList ++ id := fun id hid' heq => hid ⟨id, hid', heq⟩
      have hkeep := (unmarked_comment hinner hnone).append (unmarked_removeReminderIds t) fun id hid' =>
        apart_id_of_trails next.head hid' _
      rw [hkeep.eq]
      refine ⟨.comment hinner ih.1, iff_of_false (fun hblank => ?_) fun hrun => ?_⟩
      · exact absurd (hblank '<' (by simp [commentOpen])) (by decide)
      · obtain ⟨id, rest, hid', heq, -⟩ := hrun.exists_id (by simp [commentOpen])
        exact hnone id hid' (inner_of_idMarker hinner hid' ⟨rest, heq.symm⟩)

/-! ## The token -/

/-- A text, and what is left of it when a stretch of a token is a blank, or none is. -/
def Untokened (s t : Text) : Prop := t = s ∨ ∃ u x v, s = u ++ (x ++ v) ∧ IsStretch x ∧ t = u ++ ' ' :: v

theorem mem_stretch {x : Text} (h : IsStretch x) {c : Char} (hc : c ∈ x) :
    c ∈ ['(', '@', ')', '~'] ∨ isTokenChar c = true := by
  obtain ⟨inner, when_, hread, hx⟩ := h
  have hopen : ∀ d ∈ tokenOpen, d ∈ ['(', '@', ')', '~'] := by decide
  have hstrike : ∀ d ∈ strike, d ∈ ['(', '@', ')', '~'] := by decide
  have htoken : ∀ d ∈ tokenAround inner, d ∈ ['(', '@', ')', '~'] ∨ isTokenChar d = true := by
    intro d hd
    rcases List.mem_append.mp hd with hd | hd
    · rcases List.mem_append.mp hd with hd | hd
      · exact .inl (hopen d hd)
      · exact .inr (isTokenChar_of_parseWhen hread d hd)
    · rw [List.mem_singleton.mp hd]
      exact .inl (by decide)
  rcases hx with rfl | rfl
  · exact htoken c hc
  · rcases List.mem_append.mp hc with hc | hc
    · exact .inl (hstrike c hc)
    · rcases List.mem_append.mp hc with hc | hc
      · exact htoken c hc
      · exact .inl (hstrike c hc)

theorem not_mem_stretch {x : Text} (h : IsStretch x) {c : Char} (hc : isTokenChar c = false)
    (hmarks : c ∉ ['(', '@', ')', '~']) : c ∉ x := by
  intro hmem
  rcases mem_stretch h hmem with hmark | htoken
  · exact hmarks hmark
  · rw [htoken] at hc
    cases hc

theorem head?_stretch {x : Text} (h : IsStretch x) : x.head? = some '(' ∨ x.head? = some '~' := by
  obtain ⟨inner, when_, -, rfl | rfl⟩ := h
  · exact .inl rfl
  · exact .inr rfl

theorem getLast?_stretch {x : Text} (h : IsStretch x) : x.getLast? = some ')' ∨ x.getLast? = some '~' := by
  obtain ⟨inner, when_, -, rfl | rfl⟩ := h
  · left
    rw [tokenAround, List.getLast?_concat]
  · right
    rw [← List.append_assoc, List.getLast?_append_of_ne_nil _ (by decide)]
    rfl

theorem stretch_ne_nil {x : Text} (h : IsStretch x) : x ≠ [] := by
  rintro rfl
  rcases head?_stretch h with hhead | hhead
  · cases hhead
  · cases hhead

/-- A stretch inside a comment lies inside what the comment holds. -/
theorem inside_cut {inner u x y : Text} (hinner : Inside inner) (hx : IsStretch x)
    (h : commentOpen ++ inner ++ commentClose = u ++ (x ++ y)) :
    ∃ u' y', u = commentOpen ++ u' ∧ y = y' ++ commentClose ∧ Inside (u' ++ ' ' :: y') := by
  rw [List.append_assoc] at h
  obtain ⟨u', rfl, hbehind⟩ : ∃ u', u = commentOpen ++ u' ∧ inner ++ commentClose = u' ++ (x ++ y) := by
    rcases List.append_eq_append_iff.mp h with ⟨u', hu, hrest⟩ | ⟨w, hw, hrest⟩
    · exact ⟨u', hu, hrest⟩
    · cases w with
      | nil => exact ⟨[], by simpa using hw.symm, by simpa using hrest.symm⟩
      | cons c w =>
        have hmem : c ∈ commentOpen := by rw [hw]; simp
        have hhead : x.head? = some c := by
          have hsame := congrArg List.head? hrest
          rwa [List.head?_append_of_ne_nil _ (stretch_ne_nil hx)] at hsame
        rcases head?_stretch hx with hround | htilde
        · rw [← Option.some.inj (hround.symm.trans hhead)] at hmem
          exact absurd hmem (by decide)
        · rw [← Option.some.inj (htilde.symm.trans hhead)] at hmem
          exact absurd hmem (by decide)
  obtain ⟨y', rfl, hwhole⟩ : ∃ y', y = y' ++ commentClose ∧ inner = u' ++ (x ++ y') := by
    rw [← List.append_assoc] at hbehind
    rcases List.append_eq_append_iff.mp hbehind with ⟨w, hw, hrest⟩ | ⟨y', hy, hrest⟩
    · rcases List.eq_nil_or_concat w with rfl | ⟨w, c, rfl⟩
      · exact ⟨[], by simpa using hrest.symm, by simpa using hw.symm⟩
      · rw [List.concat_eq_append] at hw hrest
        have hmem : c ∈ commentClose := by rw [hrest]; simp
        have hlast : x.getLast? = some c := by
          have hsame := congrArg List.getLast? hw
          rwa [List.getLast?_append_of_ne_nil _ (stretch_ne_nil hx), ← List.append_assoc, List.getLast?_concat] at hsame
        rcases getLast?_stretch hx with hround | htilde
        · rw [← Option.some.inj (hround.symm.trans hlast)] at hmem
          exact absurd hmem (by decide)
        · rw [← Option.some.inj (htilde.symm.trans hlast)] at hmem
          exact absurd hmem (by decide)
    · exact ⟨y', hrest, by rw [hy, List.append_assoc]⟩
  subst hwhole
  refine ⟨u', y', rfl, rfl, ⟨fun hin => hinner.opens ?_, fun hin => hinner.closes ?_⟩⟩
  · rw [List.append_assoc, List.cons_append, infix_sep (by decide)] at hin
    rcases hin with hin | hin
    · exact hin.trans ⟨[], x ++ y' ++ commentClose, by simp⟩
    · exact hin.trans ⟨u' ++ x, [], by simp⟩
  · rw [infix_sep (by decide)] at hin
    rcases hin with hin | hin
    · exact hin.trans ⟨[], x ++ y', by simp⟩
    · exact hin.trans ⟨u' ++ x, [], by simp⟩

/-- A token among trailing comments lies inside one of them, and without it they are trailing comments still. -/
theorem run_cut {t u x v : Text} (h : CommentRun t) (hx : IsStretch x) (ht : t = u ++ (x ++ v)) :
    CommentRun (u ++ ' ' :: v) ∧ '<' ∈ t ∧ '<' ∈ u ++ ' ' :: v := by
  induction h generalizing u with
  | nil =>
    rw [eq_comm, List.append_eq_nil_iff, List.append_eq_nil_iff] at ht
    exact absurd ht.2.1 (stretch_ne_nil hx)
  | @blank c t hc next ih =>
    cases u with
    | nil =>
      have hhead : x.head? = some c := by
        have hsame := congrArg List.head? ht
        rw [List.nil_append, List.head?_append_of_ne_nil _ (stretch_ne_nil hx)] at hsame
        exact hsame.symm
      rcases head?_stretch hx with hround | htilde
      · rw [← Option.some.inj (hround.symm.trans hhead)] at hc
        exact absurd hc (by decide)
      · rw [← Option.some.inj (htilde.symm.trans hhead)] at hc
        exact absurd hc (by decide)
    | cons d u =>
      obtain ⟨rfl, hrest⟩ := List.cons.inj ht
      obtain ⟨hrun, hopen, hopen'⟩ := ih hrest
      exact ⟨.blank hc hrun, List.mem_cons_of_mem c hopen, List.mem_cons_of_mem c hopen'⟩
  | @comment inner t hinner next ih =>
    have hopen : ∀ r : Text, '<' ∈ commentOpen ++ r := fun r => List.mem_append_left r (by decide)
    rcases List.append_eq_append_iff.mp ht with ⟨z, rfl, hrest⟩ | ⟨z, hcomment, hrest⟩
    · obtain ⟨hrun, -, -⟩ := ih hrest
      refine ⟨?_, by simp [commentOpen], by simp [commentOpen]⟩
      rw [List.append_assoc]
      exact .comment hinner hrun
    · rcases List.append_eq_append_iff.mp hrest with ⟨y, rfl, rfl⟩ | ⟨y, hxy, hy⟩
      · obtain ⟨u', y', rfl, rfl, hcut⟩ := inside_cut hinner hx hcomment
        refine ⟨?_, by simp [commentOpen], by simp [commentOpen]⟩
        have hshape : commentOpen ++ u' ++ ' ' :: (y' ++ commentClose ++ t) =
            commentOpen ++ (u' ++ ' ' :: y') ++ commentClose ++ t := by simp
        rw [hshape]
        exact .comment hcut next
      · rcases List.eq_nil_or_concat z with rfl | ⟨z, c, rfl⟩
        · obtain ⟨hrun, -, -⟩ := ih (u := []) (by rw [hy, hxy]; simp)
          rw [List.append_nil] at hcomment
          refine ⟨?_, by simp [commentOpen], by simp [← hcomment, commentOpen]⟩
          rw [← hcomment]
          exact .comment hinner hrun
        · have hlast := congrArg List.getLast? hcomment
          rw [List.getLast?_append_of_ne_nil _ (by decide), List.concat_eq_append, ← List.append_assoc,
            List.getLast?_concat] at hlast
          obtain rfl : '>' = c := Option.some.inj hlast
          exact absurd (by rw [hxy]; simp) (not_mem_stretch hx (c := '>') (by decide) (by decide))

theorem Untokened.run {s t : Text} (h : Untokened s t) (hrun : CommentRun s) : CommentRun t ∧ (Blank t ↔ Blank s) := by
  rcases h with rfl | ⟨u, x, v, hs, hx, rfl⟩
  · exact ⟨hrun, Iff.rfl⟩
  · obtain ⟨hcut, hopen, hopen'⟩ := run_cut hrun hx hs
    exact ⟨hcut, iff_of_false (fun hblank => hblank.not_mem (by decide) hopen') fun hblank =>
      hblank.not_mem (by decide) hopen⟩

theorem removeToken_of_none {t : Text} (h : tokenOf t = none) : removeToken t = t := by
  unfold removeToken
  rw [show ((parseLine t none).bind fun reminder => reminder.token) = none from h]

theorem removeToken_of_tokenIs {u x v : Text} (h : TokenIs (u ++ (x ++ v)) u x) :
    removeToken (u ++ (x ++ v)) = u ++ ' ' :: v := by
  obtain ⟨token, htoken, hrange⟩ := h
  unfold removeToken
  rw [show ((parseLine (u ++ (x ++ v)) none).bind fun reminder => reminder.token) = some token from htoken]
  dsimp only
  rw [hrange, List.take_left]
  dsimp only
  rw [← List.length_append, ← List.append_assoc, List.drop_left]

/-- Words put in before trailing comments stay there when the token is taken out. -/
theorem removeToken_put_in {said comments m : Text} (hbehind : Trails comments) (hm : Mute m) :
    ∃ said' comments', Untokened comments comments' ∧ removeToken (said ++ comments) = said' ++ comments' ∧
      removeToken (said ++ (m ++ comments)) = said' ++ (m ++ comments') := by
  rcases @token_put_in said comments m hbehind hm with ⟨hnone, hnone'⟩ | ⟨u, x, v, rfl, hx, hat, hat'⟩ |
    ⟨u, x, v, rfl, hx, hat, hat'⟩
  · exact ⟨said, comments, .inl rfl, removeToken_of_none hnone, removeToken_of_none hnone'⟩
  · have hline : ∀ t : Text, u ++ (x ++ v) ++ t = u ++ (x ++ (v ++ t)) := by
      intro t
      simp
    rw [hline] at hat hat' ⊢
    rw [hline]
    exact ⟨u ++ ' ' :: v, comments, .inl rfl, by rw [removeToken_of_tokenIs hat]; simp,
      by rw [removeToken_of_tokenIs hat']; simp⟩
  · have hline : said ++ (u ++ (x ++ v)) = said ++ u ++ (x ++ v) := by simp
    have hline' : said ++ (m ++ (u ++ (x ++ v))) = said ++ m ++ u ++ (x ++ v) := by simp
    rw [hline] at hat
    rw [hline'] at hat'
    refine ⟨said, u ++ ' ' :: v, .inr ⟨u, x, v, rfl, hx, rfl⟩, ?_, ?_⟩
    · rw [hline, removeToken_of_tokenIs hat]
      simp
    · rw [hline', removeToken_of_tokenIs hat']
      simp

/-! ## Without ids and token -/

/-- A text as it is looked at for a stamp: its ids and its token taken out. -/
def bareText (text : Text) : Text := trimEnd (removeToken (removeReminderIds text))

theorem normalizeTaskText_eq (text : Text) : normalizeTaskText text = collapse (splitCompletion (bareText text)).1 := rfl

/-- What is left of a text with words put in before its trailing comments, and of the text without them. -/
theorem bareText_put_in {said comments m : Text} (hrun : CommentRun comments) (hm : Mute m) :
    ∃ said' comments', CommentRun comments' ∧ (Blank comments' ↔ IdRun comments) ∧
      bareText (said ++ comments) = trimEnd (said' ++ comments') ∧
      bareText (said ++ (m ++ comments)) = trimEnd (said' ++ (m ++ comments')) := by
  obtain ⟨hids, hblank⟩ := removeReminderIds_run hrun
  obtain ⟨said', comments', hout, hbare, hbare'⟩ := @removeToken_put_in (removeReminderIds said)
    (removeReminderIds comments) m hids.head hm
  obtain ⟨hrun', hsame⟩ := hout.run hids
  refine ⟨said', comments', hrun', hsame.trans hblank, ?_, ?_⟩
  · rw [bareText, removeReminderIds_append hrun.head, hbare]
  · rw [bareText, removeReminderIds_put_in hrun.head hm, hbare']

theorem mute_of_blank {w : Text} (hw : Blank w) (hne : w ≠ []) : Mute w where
  ne_nil := hne
  head := fun c hc => .inr (hw c (List.mem_of_head? hc))
  mark := .inr hw
  free := by
    intro c hc hmem
    have hnone : ∀ d ∈ ['`', '<', '>', '(', ')', '~'], isWhitespace d = false := by decide
    have hwhite := hw c hc
    rw [hnone c hmem] at hwhite
    cases hwhite

/-- White space at the end of a text is no part of it. -/
theorem bareText_append_blank {w : Text} (hw : Blank w) (text : Text) : bareText (text ++ w) = bareText text := by
  by_cases hne : w = []
  · rw [hne, List.append_nil]
  · obtain ⟨said', comments', -, hblank, hbare, hbare'⟩ := @bareText_put_in text [] w .nil (mute_of_blank hw hne)
    have hcomments := hblank.mpr .nil
    rw [List.append_nil] at hbare hbare'
    rw [hbare, hbare', trimEnd_append_of_blank (hw.append hcomments), trimEnd_append_of_blank hcomments]

/-! ## The stamp -/

theorem dateText_ne_nil (date : Day) : dateText date ≠ [] := by simp [dateText]

/-- A date is written in digits and dashes up to the year 9999. -/
theorem dateText_all (date : Day) : ((dateText date).all fun c => c.isDigit || c = '-') = true ↔ date.year ≤ 9999 := by
  have hpadded : ∀ width n : ℕ, ((SyncCore.padded width n).all fun c => c.isDigit || c = '-') = true := by
    intro width n
    rw [List.all_eq_true]
    intro c hc
    rw [SyncCore.isDigit_of_mem_padded hc]
    rfl
  have hyear : ((yearText date.year).all fun c => c.isDigit || c = '-') = true ↔ date.year ≤ 9999 := by
    unfold yearText
    split
    · next h => exact iff_of_true (hpadded _ _) h.2
    · next h =>
      rw [List.all_cons, hpadded, Bool.and_true]
      by_cases hneg : date.year < 0
      · rw [if_pos hneg]
        exact iff_of_true rfl (by omega)
      · rw [if_neg hneg]
        exact iff_of_false (by decide) (by omega)
  rw [dateText, List.all_append, List.all_append, List.all_cons, List.all_cons, hpadded, hpadded, ← hyear]
  simp

theorem getLast?_dateText (date : Day) : ∃ c, (dateText date).getLast? = some c ∧ c.isDigit = true := by
  have hday : SyncCore.padded 2 date.day ≠ [] := by
    rw [← List.length_pos_iff, SyncCore.padded_length]
    omega
  obtain ⟨c, hc⟩ := Option.ne_none_iff_exists'.mp (mt List.getLast?_eq_none_iff.mp hday)
  refine ⟨c, ?_, SyncCore.isDigit_of_mem_padded (List.mem_of_getLast? hc)⟩
  rw [dateText, List.getLast?_append_of_ne_nil _ (List.cons_ne_nil _ _), List.getLast?_cons, hc]
  rfl

theorem isWhitespace_of_mem_dateText {date : Day} {c : Char} (hc : c ∈ dateText date) : isWhitespace c = false := by
  rw [Bool.eq_false_iff]
  intro hwhite
  have hdigit : c.isDigit = false := ((Bool.or_eq_false_iff).mp (isHex_of_isWhitespace hwhite)).1
  refine not_mem_dateText hdigit ⟨?_, ?_⟩ date hc
  · rintro rfl
    exact absurd hwhite (by decide)
  · rintro rfl
    exact absurd hwhite (by decide)

theorem trim_date (date : Day) : trim (' ' :: dateText date) = dateText date := by
  have hspace : Blank [' '] := by
    intro c hc
    rw [List.mem_singleton.mp hc]
    decide
  have htight := trim_of_tight (t := dateText date) (fun _ hc => isWhitespace_of_mem_dateText (List.mem_of_head? hc))
    fun _ hc => isWhitespace_of_mem_dateText (List.mem_of_getLast? hc)
  rw [show ' ' :: dateText date = [' '] ++ dateText date from rfl, trim_append_of_blank_left hspace, htight]

/-- A stamp before trailing comments is found and read, up to the year 9999. -/
theorem splitCompletion_stamp {said gap run : Text} (hrun : CommentRun run) (date : Day) :
    splitCompletion (said ++ (gap ++ '✅' :: ' ' :: dateText date) ++ run) =
      if date.year ≤ 9999 then (trimEnd (said ++ gap), some (dateText date))
      else (said ++ (gap ++ '✅' :: ' ' :: dateText date) ++ run, none) := by
  obtain ⟨c, hlast, hdigit⟩ := getLast?_dateText date
  have hends : (said ++ (gap ++ '✅' :: ' ' :: dateText date)).getLast? = some c := by
    rw [← List.append_assoc, List.getLast?_append_of_ne_nil _ (List.cons_ne_nil _ _), List.getLast?_cons,
      List.getLast?_cons, hlast]
    rfl
  have huntrailed : Untrailed (said ++ (gap ++ '✅' :: ' ' :: dateText date)) := by
    intro d hd
    rw [← Option.some.inj (hends.symm.trans hd)]
    exact not_isWhitespace_of_isDigit hdigit
  have hnot : ¬EndsInComment (said ++ (gap ++ '✅' :: ' ' :: dateText date)) := by
    intro hcomment
    rw [Option.some.inj (hends.symm.trans hcomment.getLast?)] at hdigit
    exact absurd hdigit (by decide)
  have hmark : '✅' ∉ ' ' :: dateText date := by
    rw [List.mem_cons, not_or]
    exact ⟨by decide, not_mem_dateText (by decide) (by decide) date⟩
  have hsplit : splitLast ['✅'] (said ++ (gap ++ '✅' :: ' ' :: dateText date)) = some (said ++ gap, ' ' :: dateText date) := by
    have hparts := splitLast_of_head [] (said ++ gap) hmark List.not_mem_nil
    simpa using hparts
  unfold splitCompletion
  dsimp only
  rw [trailingCommentsStart_append huntrailed hnot hrun, List.take_left, hsplit]
  dsimp only
  rw [trim_date]
  by_cases hyear : date.year ≤ 9999
  · rw [if_pos hyear, (dateText_all date).mpr hyear, if_pos]
    simp [dateText_ne_nil]
  · rw [if_neg hyear, if_neg]
    rw [Bool.and_eq_true, dateText_all]
    exact fun h => hyear h.2

/-- What is compared begins the text. -/
theorem splitCompletion_front (t : Text) : (splitCompletion t).1 <+: t := by
  unfold splitCompletion
  dsimp only
  split
  · exact List.prefix_refl t
  · next before behind hsplit =>
    split
    · have hbefore : before <+: t.take (trailingCommentsStart t) := by
        rw [splitLast_eq hsplit, List.append_assoc]
        exact List.prefix_append _ _
      exact (trimEnd_isPrefix before).trans (hbefore.trans (List.take_prefix _ t))
    · exact List.prefix_refl t

/-- Without a stamp the whole text is compared. -/
theorem splitCompletion_of_none {t : Text} (h : (splitCompletion t).2 = none) : (splitCompletion t).1 = t := by
  unfold splitCompletion at h ⊢
  dsimp only at h ⊢
  split
  · rfl
  · next before behind hsplit =>
    rw [hsplit] at h
    dsimp only at h
    split
    · next hdate =>
      rw [if_pos hdate] at h
      cases h
    · rfl

/-- A stamp leaves less of a text than stands before the trailing comments. -/
theorem count_of_stamped {said run : Text} (hsaid : Untrailed said) (hends : ¬EndsInComment said) (hrun : CommentRun run)
    (hstamp : (splitCompletion (said ++ run)).2 ≠ none) : (splitCompletion (said ++ run)).1.count '✅' < said.count '✅' := by
  unfold splitCompletion at hstamp ⊢
  dsimp only at hstamp ⊢
  rw [trailingCommentsStart_append hsaid hends hrun, List.take_left] at hstamp ⊢
  cases hsplit : splitLast ['✅'] said with
  | none =>
    rw [hsplit] at hstamp
    exact absurd rfl hstamp
  | some r =>
    obtain ⟨before, behind⟩ := r
    rw [hsplit] at hstamp
    dsimp only at hstamp ⊢
    split
    · have hsaid' := congrArg (List.count '✅') (splitLast_eq hsplit)
      rw [List.count_append, List.count_append, List.count_singleton_self] at hsaid'
      have hle := (trimEnd_isPrefix before).sublist.count_le '✅'
      dsimp only
      omega
    · next hnone =>
      rw [if_neg hnone] at hstamp
      exact absurd rfl hstamp

/-! ## Comparing -/

theorem collapse_append_blank {w : Text} (hw : Blank w) (t : Text) : collapse (t ++ w) = collapse t := by
  rw [collapse, collapse, words_append_right hw]

theorem collapse_trimEnd (t : Text) : collapse (trimEnd t) = collapse t := by
  conv_rhs => rw [← trimEnd_append_rtakeWhile t, collapse_append_blank (blank_rtakeWhile t)]

theorem run_trimEnd {run : Text} (hrun : CommentRun run) : CommentRun (trimEnd run) := by
  rcases hrun.last with hblank | ⟨front, inner, w, rfl, hfront, hinner, hw⟩
  · rw [show trimEnd run = [] from trimEnd_append_of_blank hblank []]
    exact .nil
  · have hlast := CommentRun.comment hinner .nil
    rw [List.append_nil] at hlast
    rw [trimEnd_append_of_blank hw, trimEnd_of_untrailed (untrailed_comment front inner)]
    exact hfront.append hlast

/-- A stamp with white space around it. -/
def stampText (gap : Text) (date : Day) (after : Text) : Text := gap ++ '✅' :: ' ' :: dateText date ++ after

theorem mute_stampText {gap after : Text} (hgap : Blank gap) (hafter : Blank after) (date : Day) :
    Mute (stampText gap date after) where
  ne_nil := by simp [stampText]
  head := by
    intro c hc
    cases gap with
    | nil => exact .inl (Option.some.inj hc).symm
    | cons d gap =>
      obtain rfl := Option.some.inj hc
      exact .inr (hgap d List.mem_cons_self)
  mark := .inl (by simp [stampText])
  free := by
    intro c hc hmem
    have hblack : ∀ d ∈ ['`', '<', '>', '(', ')', '~'], isWhitespace d = false ∧ d ≠ '✅' ∧ d ≠ ' ' ∧
        d.isDigit = false ∧ d ≠ '-' ∧ d ≠ '+' := by decide
    obtain ⟨hblack, hmark, hspace, hdigit, hdash, hplus⟩ := hblack c hmem
    simp only [stampText, List.mem_append, List.mem_cons] at hc
    rcases hc with (hc | rfl | rfl | hc) | hc
    · exact hgap.not_mem hblack hc
    · exact hmark rfl
    · exact hspace rfl
    · exact not_mem_dateText hdigit ⟨hdash, hplus⟩ date hc
    · exact hafter.not_mem hblack hc

/-- A stamp put in before the trailing comments is seen through just where the date can be read back, the comments are
all ids, and without ids and token no other stamp shows. -/
theorem normalizeTaskText_stamp_iff {said comments gap after : Text} (hrun : CommentRun comments) (hgap : Blank gap)
    (hafter : Blank after) (date : Day) :
    normalizeTaskText (said ++ (stampText gap date after ++ comments)) = normalizeTaskText (said ++ comments) ↔
      date.year ≤ 9999 ∧ IdRun comments ∧ (splitCompletion (bareText (said ++ comments))).2 = none := by
  obtain ⟨said', comments', hrun', hids, hbare, hbare'⟩ := @bareText_put_in said comments _ hrun (mute_stampText hgap hafter date)
  rw [normalizeTaskText_eq, normalizeTaskText_eq, hbare, hbare', ← hids]
  have hstamped : ∃ run, CommentRun run ∧ trimEnd (said' ++ (stampText gap date after ++ comments')) =
      said' ++ (gap ++ '✅' :: ' ' :: dateText date) ++ run := by
    have hshape : said' ++ (stampText gap date after ++ comments') =
        said' ++ (gap ++ '✅' :: ' ' :: dateText date) ++ (after ++ comments') := by simp [stampText]
    have huntrailed : Untrailed (said' ++ (gap ++ '✅' :: ' ' :: dateText date)) := by
      intro c hc
      rw [← List.append_assoc, List.getLast?_append_of_ne_nil _ (List.cons_ne_nil _ _), List.getLast?_cons,
        List.getLast?_cons] at hc
      obtain ⟨d, hd, hdigit⟩ := getLast?_dateText date
      rw [hd] at hc
      rw [← Option.some.inj hc]
      exact not_isWhitespace_of_isDigit hdigit
    refine ⟨_, run_trimEnd ((CommentRun.of_blank hafter).append hrun'), ?_⟩
    rw [hshape, trimEnd_of_untrailed_append huntrailed]
  obtain ⟨run, hstamprun, hstamp⟩ := hstamped
  rw [hstamp, splitCompletion_stamp hstamprun]
  have hmark : isWhitespace '✅' = false := by decide
  have hcount : (collapse (splitCompletion (trimEnd (said' ++ comments'))).1).count '✅' ≤
      said'.count '✅' + comments'.count '✅' := by
    rw [count_collapse hmark, ← List.count_append]
    exact ((splitCompletion_front _).trans (trimEnd_isPrefix _)).sublist.count_le '✅'
  by_cases hyear : date.year ≤ 9999
  · rw [if_pos hyear]
    dsimp only
    rw [collapse_trimEnd, collapse_append_blank hgap]
    constructor
    · intro heq
      have hsame : ∀ c, isWhitespace c = false →
          said'.count c = (splitCompletion (trimEnd (said' ++ comments'))).1.count c := by
        intro c hc
        rw [← count_collapse hc, heq, count_collapse hc]
      have hnone : (splitCompletion (trimEnd (said' ++ comments'))).2 = none := by
        by_contra hsome
        obtain ⟨words, tail, rfl, hwords, hends, htail⟩ := exists_run said'
        rw [List.append_assoc] at hsome hsame
        rw [trimEnd_of_untrailed_append hwords] at hsome hsame
        have hlt := count_of_stamped hwords hends (run_trimEnd (htail.append hrun')) hsome
        have hmarks := hsame '✅' hmark
        rw [List.count_append] at hmarks
        omega
      refine ⟨hyear, fun c hc => ?_, hnone⟩
      by_contra hblack
      rw [Bool.not_eq_true] at hblack
      have hcounts := hsame c hblack
      rw [splitCompletion_of_none hnone, ← count_collapse hblack (trimEnd _), collapse_trimEnd, count_collapse hblack,
        List.count_append] at hcounts
      have hpos := List.count_pos_iff.mpr hc
      omega
    · rintro ⟨-, hblank, hnone⟩
      rw [splitCompletion_of_none hnone, collapse_trimEnd, collapse_append_blank hblank]
  · rw [if_neg hyear]
    refine iff_of_false (fun heq => ?_) fun h => hyear h.1
    dsimp only at heq
    have hpos : 0 < (stampText gap date after).count '✅' := List.count_pos_iff.mpr (by simp [stampText])
    rw [← heq, ← hstamp, collapse_trimEnd, count_collapse hmark, List.count_append, List.count_append] at hcount
    omega

end Thock.Desk.BacklogFile
