import Thock.Lib.Occurrence
import Thock.Lib.Runs
import Thock.SyncCore.Reminder

/-!
# The pieces of a line

The scan of a line, told in pieces of the line instead of offsets: code spans and comments, which
hide what they hold, and the text between them. A line that ends in a comment it never closes has
that comment left over.
-/

namespace Thock.SyncCore.Reminder

open TextScan

/-! ## Searches from an offset -/

theorem splitFirst_singleton {c : Char} {t before after : Text} (h : splitFirst [c] t = some (before, after)) :
    c ∉ before ∧ t = before ++ c :: after := by
  refine ⟨?_, by simpa using splitFirst_eq h⟩
  induction t generalizing before with
  | nil => simp [splitFirst] at h
  | cons d rest ih =>
    unfold splitFirst at h
    split at h
    · obtain ⟨rfl, -⟩ := Prod.mk.inj (Option.some.inj h)
      exact List.not_mem_nil
    · rename_i hd
      obtain ⟨⟨b, a⟩, hr, heq⟩ := Option.map_eq_some_iff.mp h
      obtain ⟨rfl, rfl⟩ := Prod.mk.inj heq
      have hne : c ≠ d := by
        rintro rfl
        exact hd (by simp [List.isPrefixOf])
      exact List.not_mem_cons_of_ne_of_not_mem hne (ih hr)

theorem splitFirst_singleton_none {c : Char} {t : Text} (h : splitFirst [c] t = none) : c ∉ t := by
  intro hmem
  obtain ⟨before, after, rfl⟩ := List.append_of_mem hmem
  have hsome := splitFirst_isSome [c] before after
  rw [show before ++ [c] ++ after = before ++ c :: after by simp, h] at hsome
  cases hsome

/-- The whole run a text begins with, and what follows it. -/
theorem takeWhile_run (c : Char) (t : Text) :
    t = List.replicate (t.takeWhile (· = c)).length c ++ t.dropWhile (· = c) ∧ (t.dropWhile (· = c)).head? ≠ some c := by
  induction t with
  | nil => simp
  | cons d rest ih =>
    by_cases hd : d = c
    · subst hd
      simp only [List.takeWhile_cons, List.dropWhile_cons, decide_true, if_true, List.length_cons, List.replicate_succ,
        List.cons_append]
      exact ⟨congrArg _ ih.1, ih.2⟩
    · simp [hd]

theorem length_takeWhile_run {c : Char} {n : ℕ} {t : Text} (hhead : t.head? ≠ some c) :
    ((List.replicate n c ++ t).takeWhile (· = c)).length = n := by
  induction n with
  | zero =>
    cases t with
    | nil => rfl
    | cons d t =>
      have hd : d ≠ c := fun h => hhead (by rw [h]; rfl)
      simp [hd]
  | succ n ih => simpa [List.replicate_succ] using ih

/-- The search for a closing run, as one pass over what follows the offset. -/
theorem closingRun_eq {text : Text} {n fuel search : ℕ} (hn : 0 < n) (hfuel : text.length - search < fuel) :
    closingRun text n fuel search = (closeAt '`' n 0 (text.drop search)).map (search + ·) := by
  induction fuel generalizing search with
  | zero => omega
  | succ fuel ih =>
    unfold closingRun findFrom
    cases hsplit : splitFirst ['`'] (text.drop search) with
    | none =>
      have hplain := closeAt_plain (n := n) (splitFirst_singleton_none hsplit) []
      have hnil : closeAt '`' n 0 [] = none := by
        unfold closeAt
        rw [if_neg (by omega)]
      rw [List.append_nil, hnil] at hplain
      simp [hplain]
    | some r =>
      obtain ⟨before, after⟩ := r
      obtain ⟨hbefore, hdrop⟩ := splitFirst_singleton hsplit
      have hcandidate : text.drop (search + before.length) = '`' :: after := by
        rw [← List.drop_drop, hdrop, List.drop_left]
      obtain ⟨hrun, hhead⟩ := takeWhile_run '`' ('`' :: after)
      have hpositive : 0 < (('`' :: after).takeWhile (· = '`')).length := by simp
      simp only [Option.map_some, runLength, hcandidate]
      generalize (('`' :: after).takeWhile (· = '`')).length = run at hrun hpositive
      generalize ('`' :: after).dropWhile (· = '`') = rest at hrun hhead
      have hlength := congrArg List.length hdrop
      simp only [List.length_drop, List.length_append, List.length_cons] at hlength
      have hnext : text.drop (search + before.length + run) = rest := by
        rw [← List.drop_drop, hcandidate, hrun, List.drop_left' (by simp)]
      rw [hdrop, closeAt_plain hbefore, hrun, closeAt_run hn hhead, ih (by omega), hnext]
      by_cases heq : run = n
      · rw [if_pos heq, if_pos heq]
        simp only [Option.map_some, Option.some.injEq]
        omega
      · rw [if_neg heq, if_neg heq, Option.map_map, Option.map_map]
        apply Option.map_congr
        intro k _
        simp only [Function.comp]
        omega

/-! ## Pieces -/

/-- A stretch of a line; code spans and comments hide what they hold. -/
inductive Piece
  | words (text : Text)
  | code (text : Text)
  | comment (text : Text)
deriving DecidableEq, Repr

def Piece.text : Piece → Text
  | .words text => text
  | .code text => text
  | .comment text => text

/-- The text pieces are the pieces of. -/
def textOf (pieces : List Piece) : Text := pieces.flatMap Piece.text

@[simp] theorem textOf_nil : textOf [] = [] := rfl

@[simp] theorem textOf_cons (piece : Piece) (pieces : List Piece) :
    textOf (piece :: pieces) = piece.text ++ textOf pieces := List.flatMap_cons

@[simp] theorem textOf_append (front back : List Piece) : textOf (front ++ back) = textOf front ++ textOf back :=
  List.flatMap_append

/-- Every character a piece of its own. -/
def letters (text : Text) : List Piece := text.map fun c => .words [c]

@[simp] theorem textOf_letters (text : Text) : textOf (letters text) = text := by
  induction text with
  | nil => rfl
  | cons c rest ih => simpa [letters, Piece.text] using ih

/-- A comment from its opening to its first closing, which may share the dashes of the opening. -/
def IsComment (c : Text) : Prop := commentOpen <+: c ∧ ∃ inner, splitFirst commentClose (c.drop 2) = some (inner, [])

/-- A comment is opened and never closed. -/
def Unclosed (t : Text) : Prop := commentOpen <+: t ∧ splitFirst commentClose (t.drop 2) = none

/-- A run of backticks and all up to the first run of the same length. -/
def IsCode (c : Text) : Prop :=
  ∃ n body, 0 < n ∧ c = List.replicate n '`' ++ body ∧ body.head? ≠ some '`' ∧ passes '`' n 0 body = true ∧
    endRun '`' 0 body = n

/-- Reading an input piece by piece down to what is left of it. -/
inductive Reads : Text → List Piece → Text → Prop
  | stay (rest : Text) : Reads rest [] rest
  | comment {c t rest : Text} {pieces : List Piece} (hc : IsComment c) (next : Reads t pieces rest) :
      Reads (c ++ t) (.comment c :: pieces) rest
  | code {c t rest : Text} {pieces : List Piece} (hc : IsCode c) (hhead : t.head? ≠ some '`')
      (next : Reads t pieces rest) : Reads (c ++ t) (.code c :: pieces) rest
  | ticks {n : ℕ} {t rest : Text} {pieces : List Piece} (hn : 0 < n) (hhead : t.head? ≠ some '`')
      (hopen : closeAt '`' n 0 t = none) (next : Reads t pieces rest) :
      Reads (List.replicate n '`' ++ t) (.words (List.replicate n '`') :: pieces) rest
  | letter {d : Char} {t rest : Text} {pieces : List Piece} (htick : d ≠ '`') (hopen : ¬commentOpen <+: d :: t)
      (next : Reads t pieces rest) : Reads (d :: t) (.words [d] :: pieces) rest

/-- The pieces of a line and the comment it leaves open, if it does. -/
structure Scanned (line : Text) (pieces : List Piece) (rest : Text) : Prop where
  reads : Reads line pieces rest
  ends : rest = [] ∨ Unclosed rest

theorem Reads.text_eq {input rest : Text} {pieces : List Piece} (h : Reads input pieces rest) :
    input = textOf pieces ++ rest := by
  induction h with
  | stay => rfl
  | comment _ _ ih => rw [textOf_cons, List.append_assoc, ← ih]; rfl
  | code _ _ _ ih => rw [textOf_cons, List.append_assoc, ← ih]; rfl
  | ticks _ _ _ _ ih => rw [textOf_cons, List.append_assoc, ← ih]; rfl
  | letter _ _ _ ih => rw [textOf_cons, List.append_assoc, ← ih]; rfl

theorem Reads.append {input middle rest : Text} {front back : List Piece} (h : Reads input front middle)
    (hnext : Reads middle back rest) : Reads input (front ++ back) rest := by
  induction h with
  | stay => exact hnext
  | comment hc _ ih => exact .comment hc (ih hnext)
  | code hc hhead _ ih => exact .code hc hhead (ih hnext)
  | ticks hn hhead hopen _ ih => exact .ticks hn hhead hopen (ih hnext)
  | letter htick hopen _ ih => exact .letter htick hopen (ih hnext)

theorem IsComment.ne_nil {c : Text} (h : IsComment c) : c ≠ [] := by
  rintro rfl
  exact absurd (List.prefix_nil.mp h.1) (by decide)

theorem IsCode.ne_nil {c : Text} (h : IsCode c) : c ≠ [] := by
  obtain ⟨n, body, hn, rfl, -⟩ := h
  intro hnil
  have hzero := (List.append_eq_nil_iff.mp hnil).1
  rw [List.replicate_eq_nil_iff] at hzero
  omega

/-- An input that opens no comment and no code is read a character at a time. -/
theorem reads_letters {m : Text} (hticks : '`' ∉ m) (hopens : '<' ∉ m) (t : Text) : Reads (m ++ t) (letters m) t := by
  induction m with
  | nil => exact .stay t
  | cons d m ih =>
    have hd : d ≠ '`' := fun h => hticks (by rw [h]; exact List.mem_cons_self)
    have hless : ¬commentOpen <+: d :: (m ++ t) := by
      rintro ⟨more, hmore⟩
      have hd : '<' = d := (List.cons.inj hmore).1
      exact hopens (by rw [hd]; exact List.mem_cons_self)
    exact .letter hd hless (ih (fun h => hticks (List.mem_cons_of_mem _ h)) fun h => hopens (List.mem_cons_of_mem _ h))

/-! ## The scan reads the pieces -/

/-- A comment's length is that of the opening and of what runs to the first closing. -/
theorem commentLength_eq (inside : Text) :
    commentLength inside = (splitFirst commentClose ('-' :: '-' :: inside)).map fun r => 2 + r.1.length + 3 := by
  have hfirst : commentClose.isPrefixOf ('-' :: '-' :: inside) = ['>'].isPrefixOf inside := by
    simp [commentClose, List.isPrefixOf]
  have hsecond : commentClose.isPrefixOf ('-' :: inside) = ['-', '>'].isPrefixOf inside := by
    simp [commentClose]
  unfold commentLength
  rw [splitFirst, hfirst]
  split
  · rfl
  · rw [splitFirst, hsecond]
    split
    · rfl
    · rw [Option.map_map, Option.map_map]
      apply Option.map_congr
      intro r _
      simp only [Function.comp, List.length_cons, commentOpen, commentClose, List.length_nil]
      omega

theorem commentLength_of_isComment {c : Text} (h : IsComment c) (t : Text) :
    commentLength ((c ++ t).drop commentOpen.length) = some c.length := by
  obtain ⟨⟨more, rfl⟩, inner, hinner⟩ := h
  have hdrop : (commentOpen ++ more ++ t).drop commentOpen.length = more ++ t := by
    rw [List.append_assoc, List.drop_left]
  have htext := splitFirst_eq hinner
  have hinfix : commentClose <:+: '-' :: '-' :: more := ⟨inner, [], htext.symm⟩
  have hlength := congrArg List.length htext
  simp only [commentOpen, List.cons_append, List.nil_append, List.drop_succ_cons, List.drop_zero, List.length_cons,
    List.length_append, commentClose, List.length_nil] at hlength hinner
  rw [hdrop, commentLength_eq, show '-' :: '-' :: (more ++ t) = ('-' :: '-' :: more) ++ t from rfl,
    splitFirst_of_isInfix hinfix, show splitFirst commentClose ('-' :: '-' :: more) = some (inner, []) from hinner]
  simp only [Option.map_some, commentOpen, List.cons_append, List.nil_append, List.length_cons, Option.some.injEq]
  omega

/-- A comment with a length is a whole one, and the rest follows it. -/
theorem isComment_of_commentLength {input inside : Text} {n : ℕ} (hopen : input = commentOpen ++ inside)
    (hlength : commentLength inside = some n) : ∃ c t, input = c ++ t ∧ IsComment c ∧ c.length = n := by
  rw [commentLength_eq] at hlength
  obtain ⟨⟨inner, after⟩, hsplit, rfl⟩ := Option.map_eq_some_iff.mp hlength
  have htext := splitFirst_eq hsplit
  refine ⟨'<' :: '!' :: (inner ++ commentClose), after, ?_, ⟨?_, inner, ?_⟩, ?_⟩
  · rw [hopen]
    change '<' :: '!' :: ('-' :: '-' :: inside) = _
    rw [htext]
    simp
  · have hprefix : ['-', '-'] <+: inner ++ commentClose ++ after := ⟨inside, htext⟩
    have hshort : ['-', '-'] <+: inner ++ commentClose := by
      apply List.prefix_of_prefix_length_le hprefix (List.prefix_append _ after)
      simp only [List.length_append, commentClose, List.length_cons, List.length_nil]
      omega
    obtain ⟨more, hmore⟩ := hshort
    exact ⟨more, by rw [← hmore]; rfl⟩
  · have hinfix : commentClose <:+: inner ++ commentClose := ⟨inner, [], by simp⟩
    have hwhole := splitFirst_of_isInfix hinfix after
    rw [← htext, hsplit] at hwhole
    obtain ⟨⟨b, a⟩, hb, heq⟩ := Option.map_eq_some_iff.mp hwhole.symm
    obtain ⟨rfl, ha⟩ := Prod.mk.inj heq
    have hlen := congrArg List.length (splitFirst_eq hb)
    have hnil : a = [] := by
      rw [← List.length_eq_zero_iff]
      simp only [List.length_append] at hlen
      omega
    rw [List.drop_succ_cons, List.drop_succ_cons, List.drop_zero, hb, hnil]
  · simp only [List.length_cons, List.length_append, commentClose, List.length_nil]
    omega

theorem unclosed_iff {inside : Text} : Unclosed (commentOpen ++ inside) ↔ commentLength inside = none := by
  rw [commentLength_eq, Option.map_eq_none_iff]
  exact ⟨fun h => h.2, fun h => ⟨List.prefix_append _ _, h⟩⟩

/-- The id a piece carries. -/
def Piece.id : Piece → Option Text
  | .comment text => idInComment text
  | _ => none

/-- The last id among pieces. -/
def lastId : List Piece → Option Text
  | [] => none
  | piece :: rest => (lastId rest).or piece.id

/-- The stretches the hidden pieces take, from an offset on. -/
def hiddenFrom : ℕ → List Piece → List Span
  | _, [] => []
  | offset, .words text :: rest => hiddenFrom (offset + text.length) rest
  | offset, .code text :: rest => ⟨offset, offset + text.length⟩ :: hiddenFrom (offset + text.length) rest
  | offset, .comment text :: rest => ⟨offset, offset + text.length⟩ :: hiddenFrom (offset + text.length) rest

/-- What the scan of a line says of its pieces and of the comment left over. -/
def scanOf (line : Text) (pieces : List Piece) (rest : Text) : InlineScan where
  excluded := hiddenFrom 0 pieces ++ if rest = [] then [] else [⟨line.length - rest.length, line.length⟩]
  id := lastId pieces
  commentOpen := !rest.isEmpty
  unclosedComment := if rest = [] then none else some (line.length - rest.length)

theorem slice_append (u c t : Text) : slice (u ++ (c ++ t)) u.length (u.length + c.length) = c := by
  unfold slice
  rw [← List.append_assoc, ← List.length_append, List.take_left, List.drop_left]

/-- From a cursor on, the scan finds the pieces of what follows. -/
theorem scanInlineFrom_reads {input rest : Text} {pieces : List Piece} (h : Reads input pieces rest)
    (hends : rest = [] ∨ Unclosed rest) (u : Text) {fuel : ℕ} (hfuel : input.length < fuel) (excluded : List Span)
    (id : Option Text) :
    scanInlineFrom (u ++ input) fuel u.length excluded id =
      { excluded := excluded ++ hiddenFrom u.length pieces ++
          if rest = [] then [] else [⟨(u ++ input).length - rest.length, (u ++ input).length⟩]
        id := (lastId pieces).or id
        commentOpen := !rest.isEmpty
        unclosedComment := if rest = [] then none else some ((u ++ input).length - rest.length) } := by
  induction h generalizing u fuel excluded id with
  | stay rest =>
    obtain ⟨fuel, rfl⟩ : ∃ k, fuel = k + 1 := ⟨fuel - 1, by omega⟩
    unfold scanInlineFrom
    rcases hends with rfl | hunclosed
    · rw [if_pos (by simp)]
      simp [hiddenFrom, lastId]
    · obtain ⟨inside, rfl⟩ := hunclosed.1
      have hnone : commentLength inside = none := unclosed_iff.mp hunclosed
      have hstrip : stripPrefix commentOpen ((u ++ (commentOpen ++ inside)).drop u.length) = some inside := by
        rw [List.drop_left, stripPrefix_eq_some]
      have hne : commentOpen ++ inside ≠ [] := by simp [commentOpen]
      rw [if_neg (by simp [commentOpen]), hstrip]
      simp only [hnone, if_neg hne, List.length_append, Nat.add_sub_cancel]
      simp [hiddenFrom, lastId, commentOpen]
  | @comment c t rest pieces hc next ih =>
    obtain ⟨fuel, rfl⟩ : ∃ k, fuel = k + 1 := ⟨fuel - 1, by omega⟩
    obtain ⟨more, hmore⟩ := hc.1
    have hlength := commentLength_of_isComment hc t
    have hstrip : stripPrefix commentOpen ((u ++ (c ++ t)).drop u.length) = some (more ++ t) := by
      rw [List.drop_left, stripPrefix_eq_some, ← List.append_assoc, hmore]
    rw [← hmore, List.append_assoc, List.drop_left] at hlength
    have hpositive := List.length_pos_iff.mpr hc.ne_nil
    rw [List.length_append] at hfuel
    unfold scanInlineFrom
    rw [if_neg (by simp only [List.length_append]; omega), hstrip]
    simp only [hlength, hmore, slice_append]
    have hstep := ih hends (u ++ c) (by omega : t.length < fuel) (excluded ++ [⟨u.length, u.length + c.length⟩])
      ((idInComment c).or id)
    rw [List.append_assoc, List.length_append] at hstep
    rw [hstep]
    simp [hiddenFrom, lastId, Piece.id, Option.or_assoc]
  | @code c t rest pieces hc hhead next ih =>
    obtain ⟨fuel, rfl⟩ : ∃ k, fuel = k + 1 := ⟨fuel - 1, by omega⟩
    have hpositive := List.length_pos_iff.mpr hc.ne_nil
    obtain ⟨n, body, hn, rfl, hbody, hpass, hend⟩ := hc
    have hdrop : (u ++ (List.replicate n '`' ++ body ++ t)).drop u.length = List.replicate n '`' ++ (body ++ t) := by
      rw [List.drop_left, List.append_assoc]
    have htick : (u ++ (List.replicate n '`' ++ body ++ t))[u.length]? = some '`' := by
      rw [List.getElem?_append_right le_rfl, Nat.sub_self, List.append_assoc]
      obtain ⟨m, rfl⟩ : ∃ m, n = m + 1 := ⟨n - 1, by omega⟩
      rfl
    have hnotopen : stripPrefix commentOpen (List.replicate n '`' ++ (body ++ t)) = none := by
      obtain ⟨m, rfl⟩ : ∃ m, n = m + 1 := ⟨n - 1, by omega⟩
      simp [stripPrefix, commentOpen, List.replicate_succ, List.isPrefixOf]
    have hbodyne : body ≠ [] := by
      rintro rfl
      simp only [endRun] at hend
      omega
    have hheadbody : (body ++ t).head? ≠ some '`' := by
      rw [List.head?_append_of_ne_nil _ hbodyne]
      exact hbody
    have hrun : runLength '`' (u ++ (List.replicate n '`' ++ body ++ t)) u.length = n := by
      rw [runLength, hdrop]
      exact length_takeWhile_run hheadbody
    have hclose : closingBackticks (u ++ (List.replicate n '`' ++ body ++ t)) (u.length + n) n =
        some (u.length + (List.replicate n '`' ++ body).length) := by
      rw [closingBackticks, closingRun_eq hn (by omega), ← List.drop_drop, hdrop, List.drop_left' (by simp),
        closeAt_of_ends hpass hend hn hhead]
      simp only [Option.map_some, List.length_append, List.length_replicate, Option.some.injEq]
      omega
    rw [List.length_append] at hfuel
    unfold scanInlineFrom
    rw [if_neg (by simp only [List.length_append] at hpositive ⊢; omega), hdrop, hnotopen]
    simp only [htick, if_true, hrun, hclose]
    have hstep := ih hends (u ++ (List.replicate n '`' ++ body)) (by omega : t.length < fuel)
      (excluded ++ [⟨u.length, u.length + (List.replicate n '`' ++ body).length⟩]) id
    rw [List.append_assoc u, @List.length_append _ u] at hstep
    rw [hstep]
    simp [hiddenFrom, lastId, Piece.id]
  | @ticks n t rest pieces hn hhead hopen next ih =>
    obtain ⟨fuel, rfl⟩ : ∃ k, fuel = k + 1 := ⟨fuel - 1, by omega⟩
    have hdrop : (u ++ (List.replicate n '`' ++ t)).drop u.length = List.replicate n '`' ++ t := List.drop_left
    have htick : (u ++ (List.replicate n '`' ++ t))[u.length]? = some '`' := by
      rw [List.getElem?_append_right le_rfl, Nat.sub_self]
      obtain ⟨m, rfl⟩ : ∃ m, n = m + 1 := ⟨n - 1, by omega⟩
      rfl
    have hnotopen : stripPrefix commentOpen (List.replicate n '`' ++ t) = none := by
      obtain ⟨m, rfl⟩ : ∃ m, n = m + 1 := ⟨n - 1, by omega⟩
      simp [stripPrefix, commentOpen, List.replicate_succ, List.isPrefixOf]
    have hrun : runLength '`' (u ++ (List.replicate n '`' ++ t)) u.length = n := by
      rw [runLength, hdrop]
      exact length_takeWhile_run hhead
    have hclose : closingBackticks (u ++ (List.replicate n '`' ++ t)) (u.length + n) n = none := by
      rw [closingBackticks, closingRun_eq hn (by omega), ← List.drop_drop, hdrop, List.drop_left' (by simp), hopen]
      rfl
    rw [List.length_append, List.length_replicate] at hfuel
    unfold scanInlineFrom
    rw [if_neg (by simp only [List.length_append, List.length_replicate]; omega), hdrop, hnotopen]
    simp only [htick, if_true, hrun, hclose]
    have hstep := ih hends (u ++ List.replicate n '`') (by omega : t.length < fuel) excluded id
    rw [List.append_assoc u, @List.length_append _ u, List.length_replicate] at hstep
    rw [hstep]
    simp [hiddenFrom, lastId, Piece.id]
  | @letter d t rest pieces htick hopen next ih =>
    obtain ⟨fuel, rfl⟩ : ∃ k, fuel = k + 1 := ⟨fuel - 1, by omega⟩
    have hdrop : (u ++ d :: t).drop u.length = d :: t := List.drop_left
    have hchar : (u ++ d :: t)[u.length]? = some d := by
      rw [List.getElem?_append_right le_rfl, Nat.sub_self]
      rfl
    have hnotopen : stripPrefix commentOpen (d :: t) = none := by
      rw [stripPrefix, if_neg (by rwa [List.isPrefixOf_iff_prefix])]
    rw [List.length_cons] at hfuel
    unfold scanInlineFrom
    rw [if_neg (by simp), hdrop, hnotopen]
    simp only [hchar, Option.some.injEq, htick, if_false]
    have hstep := ih hends (u ++ [d]) (by omega : t.length < fuel) excluded id
    rw [List.append_assoc u, @List.length_append _ u, List.length_singleton, List.singleton_append] at hstep
    rw [hstep]
    simp [hiddenFrom, lastId, Piece.id]

/-- The scan of a line is that of its pieces. -/
theorem Scanned.scanInline {line rest : Text} {pieces : List Piece} (h : Scanned line pieces rest) :
    scanInline line false = scanOf line pieces rest := by
  have hscan := scanInlineFrom_reads h.reads h.ends [] (by omega : line.length < line.length + 1) [] none
  simpa [Reminder.scanInline, scanOf] using hscan

/-- Every line falls into pieces. -/
theorem exists_scanned (line : Text) : ∃ pieces rest, Scanned line pieces rest := by
  generalize hlength : line.length = n
  induction n using Nat.strong_induction_on generalizing line with
  | _ n ih =>
    subst hlength
    cases line with
    | nil => exact ⟨[], [], .stay [], Or.inl rfl⟩
    | cons d t =>
      by_cases hopen : commentOpen <+: d :: t
      · obtain ⟨inside, hinside⟩ := hopen
        cases hlength : commentLength inside with
        | none => exact ⟨[], d :: t, .stay _, Or.inr (hinside ▸ unclosed_iff.mpr hlength)⟩
        | some n =>
          obtain ⟨c, rest, heq, hc, -⟩ := isComment_of_commentLength hinside.symm hlength
          have hshort : rest.length < (d :: t).length := by
            have := List.length_pos_iff.mpr hc.ne_nil
            rw [heq, List.length_append]
            omega
          obtain ⟨pieces, left, hreads, hends⟩ := ih _ hshort rest rfl
          exact ⟨_, left, by rw [heq]; exact Reads.comment hc hreads, hends⟩
      · by_cases htick : d = '`'
        · subst htick
          obtain ⟨hrun, hhead⟩ := takeWhile_run '`' ('`' :: t)
          have hpositive : 0 < (('`' :: t).takeWhile (· = '`')).length := by simp
          generalize (('`' :: t).takeWhile (· = '`')).length = run at hrun hpositive
          generalize ('`' :: t).dropWhile (· = '`') = after at hrun hhead
          have hlen := congrArg List.length hrun
          rw [List.length_append, List.length_replicate] at hlen
          cases hclose : closeAt '`' run 0 after with
          | none =>
            obtain ⟨pieces, left, hreads, hends⟩ := ih after.length (by omega) after rfl
            exact ⟨_, left, by rw [hrun]; exact Reads.ticks hpositive hhead hclose hreads, hends⟩
          | some k =>
            obtain ⟨hk, hnext, hpass, hend, -⟩ := closeAt_some hclose
            obtain ⟨pieces, left, hreads, hends⟩ := ih (after.drop k).length (by rw [List.length_drop]; omega) _ rfl
            have hbody : (after.take k).head? ≠ some '`' := by
              cases k with
              | zero =>
                simp only [List.take_zero, endRun] at hend
                omega
              | succ k =>
                rwa [List.head?_take, if_neg (by omega)]
            have hcode : IsCode (List.replicate run '`' ++ after.take k) :=
              ⟨run, _, hpositive, rfl, hbody, hpass, hend⟩
            have heq : '`' :: t = List.replicate run '`' ++ after.take k ++ after.drop k := by
              rw [List.append_assoc, List.take_append_drop]
              exact hrun
            exact ⟨_, left, by rw [heq]; exact Reads.code hcode hnext hreads, hends⟩
        · obtain ⟨pieces, left, hreads, hends⟩ := ih t.length (by simp) t rfl
          exact ⟨_, left, .letter htick hopen hreads, hends⟩

end Thock.SyncCore.Reminder
