import Thock.SyncCore.AttachReads
import Thock.SyncCore.TrailingComments

/-!
# Words put in before the trailing comments

A line keeps its token when words that hide nothing and belong to no token are put in between what
it says and the comments behind. The pieces around them stay as they were, or the words go inside a
piece that hides them, or into a comment the line leaves open.
-/

namespace Thock.SyncCore.Reminder

open TextScan

/-- White space, with a comment's opening behind it or nothing. -/
def Trails (t : Text) : Prop := Blank t ∨ ∃ w b, t = w ++ '<' :: b ∧ Blank w

/-- Words in which nothing opens or closes: white space, or words with a mark no token holds. -/
structure Mute (m : Text) : Prop where
  ne_nil : m ≠ []
  head : ∀ c ∈ m.head?, c = '✅' ∨ isWhitespace c = true
  mark : '✅' ∈ m ∨ Blank m
  free : ∀ c ∈ m, c ∉ ['`', '<', '>', '(', ')', '~']

theorem Mute.plain {m : Text} (h : Mute m) : Plain m where
  ne_nil := h.ne_nil
  ticks := fun hc => h.free _ hc (by decide)
  opens := fun hc => h.free _ hc (by decide)
  head := by
    intro c hc
    rcases h.head c hc with rfl | hblank
    · decide
    · intro hmem
      have hnone : ∀ d ∈ commentOpen, isWhitespace d = false := by decide
      rw [hnone c hmem] at hblank
      cases hblank

theorem Mute.append_blank {m w : Text} (h : Mute m) (hw : Blank w) : Mute (m ++ w) where
  ne_nil := List.append_ne_nil_of_left_ne_nil h.ne_nil w
  head := by
    rw [List.head?_append_of_ne_nil _ h.ne_nil]
    exact h.head
  mark := h.mark.imp (List.mem_append_left w) fun hm => hm.append hw
  free := by
    intro c hc
    rcases List.mem_append.mp hc with hc | hc
    · exact h.free c hc
    · intro hmem
      have hnone : ∀ d ∈ ['`', '<', '>', '(', ')', '~'], isWhitespace d = false := by decide
      have hblank := hw c hc
      rw [hnone c hmem] at hblank
      cases hblank

theorem Trails.head? {t : Text} (h : Trails t) {c : Char} (hc : c ∈ t.head?) : c = '<' ∨ isWhitespace c = true := by
  rcases h with hblank | ⟨w, b, rfl, hw⟩
  · exact .inr (hblank c (List.mem_of_head? hc))
  · cases w with
    | nil => exact .inl (Option.some.inj hc).symm
    | cons d w =>
      obtain rfl := Option.some.inj hc
      exact .inr (hw d List.mem_cons_self)

theorem Trails.head?_ne {t : Text} (h : Trails t) {c : Char} (hc : c ≠ '<') (hblank : isWhitespace c = false) :
    t.head? ≠ some c := by
  intro hhead
  rcases h.head? hhead with rfl | hwhite
  · exact hc rfl
  · rw [hblank] at hwhite
    cases hwhite

theorem Trails.prepend_blank {w t : Text} (h : Trails t) (hw : Blank w) : Trails (w ++ t) := by
  rcases h with hblank | ⟨w', b, rfl, hw'⟩
  · exact .inl (hw.append hblank)
  · exact .inr ⟨w ++ w', b, by simp, hw.append hw'⟩

/-- A pattern that holds nothing a text may begin with lies across no place before it. -/
theorem apart_of_head {p t : Text} (h : ∀ c ∈ t.head?, c ∉ p) (a : Text) : Apart p a t := by
  cases t with
  | nil => exact apart_nil_right p a
  | cons c t => exact apart_cons (h c rfl) a t

theorem Trails.apart {t p : Text} (h : Trails t) (hp : ∀ c ∈ p, c ≠ '<' ∧ isWhitespace c = false) (a : Text) :
    Apart p a t := by
  apply apart_of_head
  intro c hc hmem
  obtain ⟨hopen, hblack⟩ := hp c hmem
  exact h.head?_ne hopen hblack hc

/-- A beginning without a character ends before that character. -/
theorem prefix_of_not_mem {t a b : Text} {c : Char} (h : t <+: a ++ c :: b) (hc : c ∉ t) : t <+: a := by
  obtain ⟨rest, hrest⟩ := h
  rcases List.append_eq_append_iff.mp hrest with ⟨x, ha, -⟩ | ⟨x, ht, hb⟩
  · exact ⟨x, ha.symm⟩
  · cases x with
    | nil => exact ⟨[], by simpa using ht⟩
    | cons d x =>
      obtain rfl := (List.cons.inj hb).1
      exact absurd (by rw [ht]; simp) hc

/-! ## The pieces -/

section Line
variable {said comments m rest : Text} {pieces : List Piece}

/-- Where words may be put in: between two pieces, inside a hiding one, or in a comment that is left open. -/
theorem Scanned.seam (h : Scanned (said ++ comments) pieces rest) (hbehind : Trails comments) :
    (∃ front back, pieces = front ++ back ∧ said = textOf front ∧ comments = textOf back ++ rest) ∨
      (∃ front piece back a c, pieces = front ++ piece :: back ∧ piece.Hides ∧ said = textOf front ++ a ∧
        piece.text = a ++ c ∧ comments = c ++ (textOf back ++ rest) ∧ a ≠ [] ∧ c ≠ []) ∨
        ∃ r, said = textOf pieces ++ r ∧ rest = r ++ comments ∧ r ≠ [] := by
  rcases List.append_eq_append_iff.mp h.text_eq with ⟨z, hz, hcomments⟩ | ⟨r, hsaid, hrest⟩
  · by_cases hcut : ∃ span ∈ hiddenFrom 0 pieces, span.start < said.length ∧ said.length < span.stop
    · obtain ⟨span, hspan, hstart, hstop⟩ := hcut
      obtain ⟨front, piece, back, rfl, hhides, hfrom, hto⟩ := exists_piece hspan
      rw [Nat.zero_add] at hfrom hto
      rw [textOf_append, textOf_cons] at hz
      obtain ⟨a, rfl⟩ : textOf front <+: said :=
        List.prefix_of_prefix_length_le ⟨_, hz⟩ (List.prefix_append said z) (by omega)
      rw [List.append_assoc, List.append_cancel_left_eq] at hz
      rw [List.length_append] at hstart hstop
      obtain ⟨c, hc⟩ : a <+: piece.text :=
        List.prefix_of_prefix_length_le (List.prefix_append a z) ⟨_, hz⟩ (by omega)
      have hlength := congrArg List.length hc
      rw [List.length_append] at hlength
      rw [← hc, List.append_assoc, List.append_cancel_left_eq] at hz
      refine .inr (.inl ⟨front, piece, back, a, c, rfl, hhides, rfl, hc.symm, ?_, ?_, ?_⟩)
      · rw [hcomments, ← hz, List.append_assoc]
      · rintro rfl
        rw [List.length_nil] at hstart
        omega
      · rintro rfl
        rw [List.length_nil] at hlength
        omega
    · have hhead : ([] ++ z).head? ≠ some '`' := by
        rw [List.nil_append]
        intro hc
        refine hbehind.head?_ne (c := '`') (by decide) (by decide) ?_
        rw [hcomments, List.head?_append, hc]
        rfl
      obtain ⟨front, back, hpieces, hfront⟩ := @exists_letters _ h.reads.sound 0 said [] z (by rw [hz]; simp)
        List.not_mem_nil (fun _ => hhead) fun span hspan hmeets => by
          rw [List.length_nil] at hmeets
          exact hcut ⟨span, hspan, by omega, by omega⟩
      obtain rfl : pieces = front ++ back := by simpa [letters] using hpieces
      rw [textOf_append, hfront, List.append_cancel_left_eq] at hz
      exact .inl ⟨front, back, rfl, hfront.symm, by rw [hcomments, hz]⟩
  · by_cases hr : r = []
    · subst hr
      exact .inl ⟨pieces, [], by simp, by simpa using hsaid, by simpa using hrest.symm⟩
    · exact .inr (.inr ⟨r, hsaid, hrest, hr⟩)

/-- Words between two pieces are read letter by letter. -/
theorem Scanned.between {front back : List Piece} (h : Scanned (textOf front ++ comments) (front ++ back) rest)
    (hcomments : comments = textOf back ++ rest) (hbehind : Trails comments) (hm : Mute m) :
    Scanned (textOf front ++ (m ++ comments)) (front ++ letters m ++ back) rest := by
  have hreads := h.reads
  obtain ⟨hfront, hback⟩ := hreads.split
  rw [← hcomments] at hfront hback
  have hclose : ∀ n, closeAt '`' n 0 comments = none → closeAt '`' n 0 (m ++ comments) = none := by
    intro n hn
    rw [closeAt_plain hm.plain.ticks, hn]
    rfl
  have hswap := hfront.swap (hbehind.head?_ne (by decide) (by decide)) hclose (hm.plain.unjoined _ comments)
    (hm.plain.apart _ comments)
  exact ⟨(hswap.append (reads_letters hm.plain.ticks hm.plain.opens comments)).append hback, h.ends⟩

/-- Words inside a hiding piece leave it one. -/
theorem Scanned.inside {front back : List Piece} {piece : Piece} {a c : Text}
    (h : Scanned (textOf front ++ a ++ comments) (front ++ piece :: back) rest) (hhides : piece.Hides)
    (hpiece : piece.text = a ++ c) (hcomments : comments = c ++ (textOf back ++ rest)) (ha : a ≠ []) (hc : c ≠ [])
    (hbehind : Trails comments) (hm : Mute m) :
    ∃ piece' : Piece, piece'.Hides ∧ Scanned (textOf front ++ a ++ (m ++ comments)) (front ++ piece' :: back) rest := by
  have huntrailed : Untrailed c := fun d hd =>
    hhides.untrailed (h.reads.sound piece (by simp)) d (by rwa [hpiece, List.getLast?_append_of_ne_nil _ hc])
  have hblank : ¬Blank c := by
    intro hblank
    obtain ⟨d, hd⟩ := Option.ne_none_iff_exists'.mp (mt List.getLast?_eq_none_iff.mp hc)
    have hwhite := huntrailed d hd
    rw [hblank d (List.mem_of_getLast? hd)] at hwhite
    cases hwhite
  have hopen : (trimStart c).head? = some '<' := by
    have hne : trimStart c ≠ [] := fun hnil => hblank (blank_iff_trimStart.mpr hnil)
    rcases hbehind with hall | ⟨w, b, hw, hwblank⟩
    · exact absurd (fun d hd => hall d (by rw [hcomments]; exact List.mem_append_left _ hd)) hblank
    · have htrim := congrArg trimStart (hcomments.symm.trans hw)
      rw [trimStart_append hblank, trimStart_append_of_blank hwblank,
        trimStart_of_unindented (unindented_cons (by decide) b)] at htrim
      have hhead := congrArg List.head? htrim
      rwa [List.head?_append_of_ne_nil _ hne] at hhead
  have hsplit := takeWhile_append_trimStart c
  have hw := blank_takeWhile c
  generalize trimStart c = b at hopen hsplit
  generalize c.takeWhile isWhitespace = w at hsplit hw
  subst hsplit
  have hspread := hm.append_blank hw
  obtain ⟨hfront, hbehind'⟩ := h.reads.split
  rw [textOf_cons, hpiece] at hfront hbehind'
  have hnext : Reads (textOf back ++ rest) back rest := by
    have hreads := h.reads
    rw [show front ++ piece :: back = front ++ [piece] ++ back by simp] at hreads
    exact hreads.split.2
  have hpieces : Reads (piece.text ++ (textOf back ++ rest)) (piece :: back) rest := by
    rwa [hpiece, ← List.append_assoc]
  obtain ⟨piece', hhides', hread⟩ := hpieces.rehide hhides hpiece ha hw hopen hspread.plain
    (fun hmem => hspread.free _ hmem (by decide)) hnext id
  have hclose : ∀ n, closeAt '`' n 0 comments = none → closeAt '`' n 0 (m ++ comments) = none := by
    intro n hn
    rw [closeAt_plain hm.plain.ticks, hn]
    rfl
  have hfront' : Reads (textOf front ++ (a ++ comments)) front (a ++ comments) := by
    simpa [hcomments] using hfront
  have hswap := hfront'.swap_behind (hbehind.head?_ne (by decide) (by decide)) hclose (hm.plain.unjoined _ comments)
    (hm.plain.apart _ comments)
  refine ⟨piece', hhides', ?_, h.ends⟩
  rw [List.append_assoc]
  refine hswap.append ?_
  rw [hcomments]
  simpa using hread

/-- Words in a comment that is left open leave it open. -/
theorem Scanned.open_ {r : Text} (h : Scanned (textOf pieces ++ r ++ comments) pieces rest)
    (hrest : rest = r ++ comments) (hr : r ≠ []) (hbehind : Trails comments) (hm : Mute m) :
    Scanned (textOf pieces ++ r ++ (m ++ comments)) pieces (r ++ (m ++ comments)) := by
  subst hrest
  have hunclosed := h.ends.resolve_left (by simp [hr])
  have hopen : commentOpen <+: r := by
    obtain ⟨more, hmore⟩ := hunclosed.1
    rcases List.append_eq_append_iff.mp hmore with ⟨x, hx, -⟩ | ⟨x, hx, hcomments⟩
    · exact ⟨x, hx.symm⟩
    · cases x with
      | nil => exact ⟨[], by simpa using hx⟩
      | cons d x =>
        obtain ⟨e, r, rfl⟩ := List.exists_cons_of_ne_nil hr
        have hmem : d ∈ ['!', '-', '-'] := by
          have htail : ['!', '-', '-'] = r ++ d :: x := (List.cons.inj hx).2
          rw [htail]
          simp
        rcases hbehind.head? (by rw [hcomments]; rfl : d ∈ comments.head?) with rfl | hwhite
        · exact absurd hmem (by decide)
        · have hnone : ∀ d ∈ ['!', '-', '-'], isWhitespace d = false := by decide
          rw [hnone d hmem] at hwhite
          cases hwhite
  have hlong : 2 ≤ r.length := le_trans (by decide) hopen.length_le
  have hclosed : ∀ d ∈ commentClose, d ≠ '<' ∧ isWhitespace d = false := by decide
  have hnone : ¬commentClose <:+: (r ++ (m ++ comments)).drop 2 := by
    have hbefore : ¬commentClose <:+: r.drop 2 ++ comments := by
      rw [← List.drop_append_of_le_length hlong]
      intro hin
      have hsome := hunclosed.2
      obtain ⟨x, y, hxy⟩ := hin
      have hfound := splitFirst_isSome commentClose x y
      rw [hxy, hsome] at hfound
      cases hfound
    have hhead : ∀ d ∈ (m ++ comments).head?, d ∉ commentClose := by
      rw [List.head?_append_of_ne_nil _ hm.plain.ne_nil]
      intro d hd hmem
      rcases hm.head d hd with rfl | hwhite
      · exact absurd hmem (by decide)
      · rw [(hclosed d hmem).2] at hwhite
        cases hwhite
    rw [List.drop_append_of_le_length hlong, infix_apart (apart_of_head hhead _), infix_apart (hbehind.apart hclosed m)]
    rintro (hin | hin | hin)
    · exact hbefore (hin.trans (List.prefix_append _ _).isInfix)
    · exact hm.free '>' (hin.subset (by decide)) (by decide)
    · exact hbefore (hin.trans (List.suffix_append _ _).isInfix)
  have hclose : ∀ n, closeAt '`' n 0 comments = none → closeAt '`' n 0 (m ++ comments) = none := by
    intro n hn
    rw [closeAt_plain hm.plain.ticks, hn]
    rfl
  have hreads := h.reads
  rw [List.append_assoc] at hreads ⊢
  have hswap := hreads.swap_behind (hbehind.head?_ne (by decide) (by decide)) hclose (hm.plain.unjoined _ comments)
    (hm.plain.apart _ comments)
  exact ⟨hswap, .inr ⟨hopen.trans (List.prefix_append _ _), splitFirst_eq_none hnone⟩⟩

end Line

/-! ## Tokens across the seam -/

theorem close_mem_behind {inner t₁ t₂ : Text} (h : tokenAround inner = t₁ ++ t₂) (hne : t₂ ≠ []) : ')' ∈ t₂ := by
  have hlast := congrArg List.getLast? h
  rw [List.getLast?_append_of_ne_nil _ hne, tokenAround, List.getLast?_concat] at hlast
  exact List.mem_of_getLast? hlast.symm

theorem not_mem_token_behind {inner t₁ t₂ : Text} {when_ : When} (hread : parseWhen inner = some when_)
    (h : tokenAround inner = t₁ ++ t₂) (hne : t₁ ≠ []) {c : Char} (hc : isTokenChar c = false) (hat : c ≠ '@') (hclose : c ≠ ')') :
    c ∉ t₂ := by
  intro hmem
  rcases mem_behind h hne hmem with rfl | hinner | rfl
  · exact hat rfl
  · exact not_mem_of_parseWhen hread hc hinner
  · exact hclose rfl

/-- No token lies across the place where the trailing comments start. -/
theorem Quiet.append_of_trails {u v : List Piece} {t : Text} (hu : Quiet u) (hv : Quiet v) (ht : Trails (textOf v ++ t)) :
    Quiet (u ++ v) := by
  apply hu.append hv
  intro front t₁ t₂ inner when_ back hread h₁ h₂ htoken _ hback
  have hfront : t₂ <+: textOf v ++ t := by
    rw [hback, textOf_append, textOf_letters, List.append_assoc]
    exact List.prefix_append _ _
  have hclose := close_mem_behind htoken h₂
  rcases ht with hblank | ⟨w, b, hw, hblank⟩
  · exact hblank.not_mem (by decide) (hfront.subset hclose)
  · rw [hw] at hfront
    have hopen := not_mem_token_behind hread htoken h₁ (c := '<') (by decide) (by decide) (by decide)
    exact hblank.not_mem (by decide) ((prefix_of_not_mem hfront hopen).subset hclose)

/-- No token reaches from what a line says into mute words or over them. -/
theorem Quiet.append_mute {u v : List Piece} {m t : Text} (hu : Quiet u) (hv : Quiet v) (hm : Mute m)
    (ht : Trails (textOf v ++ t)) : Quiet (u ++ (letters m ++ v)) := by
  have hround : Piece.words ['('] ∉ letters m := words_not_mem_letters fun hmem => hm.free '(' hmem (by decide)
  have hbehind := hv.prepend_of_not_mem hround
  rcases hm.mark with hmark | hblank
  · apply hu.append hbehind
    intro front t₁ t₂ inner when_ back hread h₁ h₂ htoken _ hback
    have htext := congrArg textOf hback
    rw [textOf_append, textOf_letters, textOf_append, textOf_letters] at htext
    obtain ⟨m₁, m₂, hsplit⟩ := List.append_of_mem hmark
    have hfront : t₂ <+: m₁ ++ '✅' :: (m₂ ++ textOf v) := ⟨textOf back, by rw [← htext, hsplit]; simp⟩
    have hnot := not_mem_token_behind hread htoken h₁ (c := '✅') (by decide) (by decide) (by decide)
    have hclose := (prefix_of_not_mem hfront hnot).subset (close_mem_behind htoken h₂)
    exact hm.free ')' (by rw [hsplit]; exact List.mem_append_left _ hclose) (by decide)
  · apply hu.append_of_trails hbehind (t := t)
    rw [textOf_append, textOf_letters, List.append_assoc]
    exact ht.prepend_blank hblank

/-- A token behind a hiding piece counts in the whole line. -/
theorem Live.behind_hiding {v front back : List Piece} {inner : Text} {when_ : When} {piece : Piece}
    (h : Live v front inner when_ back) (u : List Piece) (hhides : piece.Hides) (hsound : piece.Sound) :
    Live (u ++ piece :: v) (u ++ piece :: front) inner when_ back where
  eq := by rw [h.eq]; simp
  free := by
    have hlast : piece.text.getLast? ≠ some '\\' := by
      intro hc
      cases piece with
      | words t => exact hhides
      | code t => cases hsound.symm.trans hc
      | comment t => cases hsound.symm.trans hc
    rw [textOf_append, textOf_cons]
    by_cases hfront : textOf front = []
    · rwa [hfront, List.append_nil, List.getLast?_append_of_ne_nil _ hsound.text_ne_nil]
    · rw [List.getLast?_append_of_ne_nil _ (by simp [hfront]), List.getLast?_append_of_ne_nil _ hfront]
      exact h.free
  reads := h.reads

/-- A hiding piece keeps what is quiet on both sides quiet. -/
theorem Quiet.append_hiding {u v : List Piece} {piece : Piece} (hu : Quiet u) (hv : Quiet v) (hhides : piece.Hides) :
    Quiet (u ++ piece :: v) := by
  have hwords : ∀ t, piece ≠ .words t := by
    rintro t rfl
    exact hhides
  have hbehind : Quiet (piece :: v) := by
    intro front inner when_ back hlive
    cases front with
    | nil => exact hwords _ (List.cons.inj hlive.eq).1
    | cons first front =>
      refine hv front inner when_ back ⟨(List.cons.inj hlive.eq).2, ?_, hlive.reads⟩
      have hfree := hlive.free
      rw [textOf_cons] at hfree
      by_cases hfront : textOf front = []
      · rw [hfront]
        exact fun hc => nomatch hc
      · rwa [List.getLast?_append_of_ne_nil _ hfront] at hfree
  apply hu.append hbehind
  intro front t₁ t₂ inner when_ back _ _ h₂ _ _ hback
  obtain ⟨d, t₂, rfl⟩ := List.exists_cons_of_ne_nil h₂
  exact hwords _ (List.cons.inj hback).1

/-! ## The stretch of a token -/

/-- What a token takes up, its strikes with it. -/
def IsStretch (x : Text) : Prop :=
  ∃ inner when_, parseWhen inner = some when_ ∧ (x = tokenAround inner ∨ x = strike ++ (tokenAround inner ++ strike))

def tokenOf (line : Text) : Option Token := (parseLine line none).bind LineReminder.token

/-- The token of a line is the stretch behind a text. -/
def TokenIs (line u x : Text) : Prop := ∃ token ∈ tokenOf line, token.range = ⟨u.length, u.length + x.length⟩

theorem strike_prefix_append {t : Text} (g : Text) (h : t.head? ≠ some '~') : strike <+: g ++ t ↔ strike <+: g := by
  refine ⟨fun hfront => ?_, fun hfront => hfront.trans (List.prefix_append g t)⟩
  by_cases hlong : strike.length ≤ g.length
  · exact List.prefix_of_prefix_length_le hfront (List.prefix_append g t) hlong
  · obtain ⟨more, hmore⟩ := hfront
    cases g with
    | nil => exact absurd (by rw [List.nil_append] at hmore; rw [← hmore]; rfl) h
    | cons c g =>
      obtain rfl : g = [] := List.eq_nil_of_length_eq_zero (by
        rw [show strike.length = 2 from rfl, List.length_cons] at hlong
        omega)
      exact absurd (by
        have htail : '~' :: more = t := (List.cons.inj hmore).2
        rw [← htail]
        rfl) h

theorem strike_suffix_append {f : Text} (a : Text) (hne : f ≠ []) (h : f.head? ≠ some '~') :
    strike <:+ a ++ f ↔ strike <:+ f := by
  refine ⟨fun hsuffix => ?_, fun hsuffix => hsuffix.trans (List.suffix_append a f)⟩
  by_cases hlong : strike.length ≤ f.length
  · exact List.suffix_of_suffix_length_le hsuffix (List.suffix_append a f) hlong
  · obtain ⟨c, f, rfl⟩ := List.exists_cons_of_ne_nil hne
    obtain rfl : f = [] := List.eq_nil_of_length_eq_zero (by
      rw [show strike.length = 2 from rfl, List.length_cons] at hlong
      omega)
    obtain ⟨more, hmore⟩ := hsuffix
    have hlast := congrArg List.getLast? hmore
    rw [List.getLast?_concat, List.getLast?_append_of_ne_nil _ (by decide)] at hlast
    exact absurd hlast.symm h

/-- Where a token stands between two texts, its stretch lies between two parts of them wherever they go on with no
tilde. -/
theorem exists_stretch {inner : Text} {when_ : When} (hread : parseWhen inner = some when_) (f g : Text) :
    ∃ u x v, f ++ (tokenAround inner ++ g) = u ++ (x ++ v) ∧ IsStretch x ∧ ∀ a b : Text,
      (strike <:+ a ++ f ↔ strike <:+ f) → (strike <+: g ++ b ↔ strike <+: g) →
        (tokenAt (a ++ (f ++ (tokenAround inner ++ g)) ++ b) (a ++ f).length ((a ++ f).length + 2 + inner.length + 1)
          when_).range = ⟨(a ++ u).length, (a ++ u).length + x.length⟩ := by
  have hline : ∀ a b : Text, a ++ (f ++ (tokenAround inner ++ g)) ++ b = a ++ f ++ (tokenAround inner ++ (g ++ b)) := by
    intro a b
    simp
  have htake : ∀ a b : Text, (a ++ (f ++ (tokenAround inner ++ g)) ++ b).take (a ++ f).length = a ++ f := by
    intro a b
    rw [hline, List.take_left]
  have hdrop : ∀ a b : Text,
      (a ++ (f ++ (tokenAround inner ++ g)) ++ b).drop ((a ++ f).length + 2 + inner.length + 1) = g ++ b := by
    intro a b
    have hlong : (a ++ f).length + 2 + inner.length + 1 = (a ++ f).length + (tokenAround inner).length := by
      rw [tokenAround_length]
      omega
    rw [hline, hlong, ← List.drop_drop, List.drop_left, List.drop_left]
  by_cases hstruck : strike <:+ f ∧ strike <+: g
  · obtain ⟨⟨u, rfl⟩, ⟨v, rfl⟩⟩ := hstruck
    refine ⟨u, strike ++ (tokenAround inner ++ strike), v, by simp, ⟨inner, when_, hread, .inr rfl⟩, fun a b hf hg => ?_⟩
    have hboth : (strike.isSuffixOf (a ++ (u ++ strike)) && strike.isPrefixOf (strike ++ v ++ b)) = true := by
      rw [Bool.and_eq_true, List.isSuffixOf_iff_suffix, List.isPrefixOf_iff_prefix]
      exact ⟨hf.mpr (List.suffix_append u strike), hg.mpr (List.prefix_append strike v)⟩
    rw [tokenAt, htake, hdrop, hboth]
    simp only [if_true, Span.mk.injEq, List.length_append, tokenAround_length]
    omega
  · refine ⟨f, tokenAround inner, g, rfl, ⟨inner, when_, hread, .inl rfl⟩, fun a b hf hg => ?_⟩
    have hnot : (strike.isSuffixOf (a ++ f) && strike.isPrefixOf (g ++ b)) = false := by
      rw [Bool.eq_false_iff, Ne, Bool.and_eq_true, List.isSuffixOf_iff_suffix, List.isPrefixOf_iff_prefix, hf, hg]
      exact hstruck
    rw [tokenAt, htake, hdrop, hnot]
    simp only [Bool.false_eq_true, if_false, Span.mk.injEq, tokenAround_length, true_and]
    omega

section Line
variable {line said comments m rest : Text} {pieces : List Piece}

theorem tokenOf_of_quiet (h : Scanned line pieces rest) (hcalendar : holds calendarMarker line = false)
    (hquiet : Quiet pieces) : tokenOf line = none := by
  rw [tokenOf, parseLine_of_quiet h hcalendar hquiet]
  cases lastId pieces <;> rfl

/-- The last token that counts is the token of the line. -/
theorem tokenOf_of_live {front back : List Piece} {inner a f g b : Text} {when_ : When} (h : Scanned line pieces rest)
    (hcalendar : holds calendarMarker line = false) (hlive : Live pieces front inner when_ back) (hquiet : Quiet back)
    (hline : line = a ++ (f ++ (tokenAround inner ++ g)) ++ b) (hbehind : g ++ b = textOf back ++ rest) :
    tokenOf line = some (tokenAt line (a ++ f).length ((a ++ f).length + 2 + inner.length + 1) when_) := by
  have htext := h.text_eq
  have hfront : textOf front = a ++ f := by
    have hsame : a ++ f ++ (tokenAround inner ++ (g ++ b)) = textOf front ++ (tokenAround inner ++ (g ++ b)) := by
      calc a ++ f ++ (tokenAround inner ++ (g ++ b)) = line := by rw [hline]; simp
        _ = textOf front ++ (tokenAround inner ++ (textOf back ++ rest)) := by
          rw [htext, hlive.eq, textOf_append, textOf_append, textOf_letters]
          simp
        _ = textOf front ++ (tokenAround inner ++ (g ++ b)) := by rw [hbehind]
    exact (List.append_cancel_right hsame).symm
  rw [tokenOf, parseLine_of_live h hcalendar hlive hquiet, ← hfront]
  rfl

/-- A token among what a line says stays where it is. -/
theorem tokenIs_said {front back front' back' pieces' : List Piece} {inner f g rest' : Text} {when_ : When}
    (h : Scanned (said ++ comments) pieces rest) (h' : Scanned (said ++ (m ++ comments)) pieces' rest')
    (hcalendar : holds calendarMarker (said ++ comments) = false)
    (hcalendar' : holds calendarMarker (said ++ (m ++ comments)) = false) (hbehind : Trails comments) (hm : Mute m)
    (hlive : Live pieces front inner when_ back) (hquiet : Quiet back)
    (hlive' : Live pieces' front' inner when_ back') (hquiet' : Quiet back')
    (hsaid : said = f ++ (tokenAround inner ++ g)) (hback : g ++ comments = textOf back ++ rest)
    (hback' : g ++ (m ++ comments) = textOf back' ++ rest') :
    ∃ u x v, said = u ++ (x ++ v) ∧ IsStretch x ∧ TokenIs (said ++ comments) u x ∧
      TokenIs (said ++ (m ++ comments)) u x := by
  obtain ⟨u, x, v, hsplit, hx, hrange⟩ := exists_stretch hlive.reads f g
  have htilde : (m ++ comments).head? ≠ some '~' := by
    rw [List.head?_append_of_ne_nil _ hm.plain.ne_nil]
    exact fun hc => hm.free '~' (List.mem_of_head? hc) (by decide)
  subst hsaid
  have htoken := tokenOf_of_live (a := []) h hcalendar hlive hquiet rfl hback
  have htoken' := tokenOf_of_live (a := []) h' hcalendar' hlive' hquiet' rfl hback'
  refine ⟨u, x, v, hsplit, hx, ⟨_, htoken, ?_⟩, ⟨_, htoken', ?_⟩⟩
  · exact hrange [] comments Iff.rfl (strike_prefix_append g (hbehind.head?_ne (by decide) (by decide)))
  · exact hrange [] (m ++ comments) Iff.rfl (strike_prefix_append g htilde)

/-- A token among the comments moves with them. -/
theorem tokenIs_comments {front back front' back' pieces' : List Piece} {inner f g rest' : Text} {when_ : When}
    (h : Scanned (said ++ comments) pieces rest) (h' : Scanned (said ++ (m ++ comments)) pieces' rest')
    (hcalendar : holds calendarMarker (said ++ comments) = false)
    (hcalendar' : holds calendarMarker (said ++ (m ++ comments)) = false) (hbehind : Trails comments)
    (hlive : Live pieces front inner when_ back) (hquiet : Quiet back)
    (hlive' : Live pieces' front' inner when_ back') (hquiet' : Quiet back')
    (hcomments : comments = f ++ (tokenAround inner ++ g)) (hback : g = textOf back ++ rest)
    (hback' : g = textOf back' ++ rest') :
    ∃ u x v, comments = u ++ (x ++ v) ∧ IsStretch x ∧ TokenIs (said ++ comments) (said ++ u) x ∧
      TokenIs (said ++ (m ++ comments)) (said ++ m ++ u) x := by
  obtain ⟨u, x, v, hsplit, hx, hrange⟩ := exists_stretch hlive.reads f g
  have hne : f ≠ [] := by
    rintro rfl
    refine hbehind.head?_ne (c := '(') (by decide) (by decide) ?_
    rw [hcomments]
    rfl
  have htilde : f.head? ≠ some '~' := by
    intro hc
    refine hbehind.head?_ne (c := '~') (by decide) (by decide) ?_
    rw [hcomments, List.head?_append_of_ne_nil _ hne, hc]
  subst hcomments
  have hline : said ++ (f ++ (tokenAround inner ++ g)) = said ++ (f ++ (tokenAround inner ++ g)) ++ [] := by simp
  have hline' : said ++ (m ++ (f ++ (tokenAround inner ++ g))) = said ++ m ++ (f ++ (tokenAround inner ++ g)) ++ [] := by
    simp
  have htoken := tokenOf_of_live h hcalendar hlive hquiet hline (by simpa using hback)
  have htoken' := tokenOf_of_live h' hcalendar' hlive' hquiet' hline' (by simpa using hback')
  refine ⟨u, x, v, hsplit, hx, ⟨_, htoken, ?_⟩, ⟨_, htoken', ?_⟩⟩
  · have hhere := hrange said [] (strike_suffix_append said hne htilde) (by simp)
    rwa [List.append_nil] at hhere
  · have hhere := hrange (said ++ m) [] (strike_suffix_append (said ++ m) hne htilde) (by simp)
    rwa [List.append_nil, List.append_assoc said m (f ++ _)] at hhere

/-- No calendar marker forms or goes where words are put in. -/
theorem calendar_put_in (hbehind : Trails comments) (hm : Mute m) :
    holds calendarMarker (said ++ (m ++ comments)) = holds calendarMarker (said ++ comments) := by
  have hmarker : calendarMarker = '<' :: "!--gcal:".toList := by decide
  have hcomments : ∀ a : Text, Apart calendarMarker a comments := by
    intro a
    cases hcons : comments with
    | nil => exact apart_nil_right _ a
    | cons c t =>
      rcases hbehind.head? (by rw [hcons]; rfl : c ∈ comments.head?) with rfl | hwhite
      · rw [hmarker]
        exact apart_head (by decide) a t
      · apply apart_cons
        intro hmem
        have hnone : ∀ d ∈ calendarMarker, isWhitespace d = false := by decide
        rw [hnone c hmem] at hwhite
        cases hwhite
  have hwords : Apart calendarMarker said (m ++ comments) := by
    apply apart_of_head
    rw [List.head?_append_of_ne_nil _ hm.plain.ne_nil]
    intro c hc hmem
    rcases hm.head c hc with rfl | hwhite
    · exact absurd hmem (by decide)
    · have hnone : ∀ d ∈ calendarMarker, isWhitespace d = false := by decide
      rw [hnone c hmem] at hwhite
      cases hwhite
  have hmute : ¬calendarMarker <:+: m := not_infix_of_not_mem (c := '<') (by decide) hm.plain.opens
  have hiff : calendarMarker <:+: said ++ (m ++ comments) ↔ calendarMarker <:+: said ++ comments := by
    rw [infix_apart hwords, infix_apart (hcomments m), infix_apart (hcomments said), or_iff_right hmute]
  rw [Bool.eq_iff_iff, ← not_iff_not, Bool.not_eq_true, Bool.not_eq_true, holds_eq_false_iff, holds_eq_false_iff, hiff]

/-- A line keeps its token when words are put in before its trailing comments. -/
theorem token_put_in (hbehind : Trails comments) (hm : Mute m) :
    tokenOf (said ++ comments) = none ∧ tokenOf (said ++ (m ++ comments)) = none ∨
      (∃ u x v, said = u ++ (x ++ v) ∧ IsStretch x ∧ TokenIs (said ++ comments) u x ∧
        TokenIs (said ++ (m ++ comments)) u x) ∨
      ∃ u x v, comments = u ++ (x ++ v) ∧ IsStretch x ∧ TokenIs (said ++ comments) (said ++ u) x ∧
        TokenIs (said ++ (m ++ comments)) (said ++ m ++ u) x := by
  have hsame := @calendar_put_in said comments m hbehind hm
  by_cases hcalendar : holds calendarMarker (said ++ comments) = true
  · have hnone : ∀ line, holds calendarMarker line = true → tokenOf line = none := by
      intro line hline
      rw [tokenOf, parseLine, readLine, if_pos hline]
      rfl
    exact .inl ⟨hnone _ hcalendar, hnone _ (hsame.trans hcalendar)⟩
  rw [Bool.not_eq_true] at hcalendar
  rw [hcalendar] at hsame
  obtain ⟨pieces, rest, h⟩ := exists_scanned (said ++ comments)
  rcases h.seam hbehind with ⟨front, back, rfl, rfl, hcomments⟩ | ⟨front, piece, back, a, c, rfl, hhides, rfl, hpiece, hcomments, ha, hc⟩ |
    ⟨r, rfl, rfl, hr⟩
  · have h' := h.between hcomments hbehind hm
    rw [List.append_assoc] at h'
    have htrails : Trails (textOf back ++ rest) := hcomments ▸ hbehind
    rcases quiet_or_live back with hback | ⟨x, inner, when_, y, hlive, hquiet⟩
    · rcases quiet_or_live front with hfront | ⟨x, inner, when_, y, hlive, hquiet⟩
      · exact .inl ⟨tokenOf_of_quiet h hcalendar (hfront.append_of_trails hback htrails),
          tokenOf_of_quiet h' hsame (hfront.append_mute hback hm htrails)⟩
      · refine .inr (.inl (tokenIs_said h h' hcalendar hsame hbehind hm (hlive.append back)
          (hquiet.append_of_trails hback htrails) (hlive.append (letters m ++ back)) (hquiet.append_mute hback hm htrails)
          (f := textOf x) (g := textOf y) ?_ ?_ ?_))
        · rw [hlive.eq, textOf_append, textOf_append, textOf_letters, List.append_assoc]
        · rw [hcomments, textOf_append, List.append_assoc]
        · rw [hcomments, textOf_append, textOf_append, textOf_letters]
          simp
    · have hx : textOf x ≠ [] := by
        intro hx
        refine htrails.head?_ne (c := '(') (by decide) (by decide) ?_
        rw [hlive.eq, textOf_append, textOf_append, hx, textOf_letters]
        rfl
      have hlive' := hlive.prepend (front ++ letters m) hx
      rw [List.append_assoc front] at hlive'
      refine .inr (.inr (tokenIs_comments h h' hcalendar hsame hbehind (hlive.prepend front hx) hquiet hlive' hquiet
        (f := textOf x) (g := textOf y ++ rest) ?_ rfl rfl))
      rw [hcomments, hlive.eq, textOf_append, textOf_append, textOf_letters]
      simp
  · obtain ⟨piece', hhides', h'⟩ := h.inside hhides hpiece hcomments ha hc hbehind hm
    have hsound := h.reads.sound piece (by simp)
    have hsound' := h'.reads.sound piece' (by simp)
    rcases quiet_or_live back with hback | ⟨x, inner, when_, y, hlive, hquiet⟩
    · rcases quiet_or_live front with hfront | ⟨x, inner, when_, y, hlive, hquiet⟩
      · exact .inl ⟨tokenOf_of_quiet h hcalendar (hfront.append_hiding hback hhides),
          tokenOf_of_quiet h' hsame (hfront.append_hiding hback hhides')⟩
      · refine .inr (.inl (tokenIs_said h h' hcalendar hsame hbehind hm (hlive.append _)
          (hquiet.append_hiding hback hhides) (hlive.append _) (hquiet.append_hiding hback hhides')
          (f := textOf x) (g := textOf y ++ a) ?_ ?_ ?_))
        · rw [hlive.eq, textOf_append, textOf_append, textOf_letters]
          simp
        · rw [hcomments, textOf_append, textOf_cons, hpiece]
          simp
        · have htext := h'.text_eq
          rw [textOf_append, textOf_cons, List.append_assoc, List.append_assoc, List.append_cancel_left_eq] at htext
          rw [textOf_append, textOf_cons, List.append_assoc, htext]
          simp
    · refine .inr (.inr (tokenIs_comments h h' hcalendar hsame hbehind (hlive.behind_hiding front hhides hsound) hquiet
        (hlive.behind_hiding front hhides' hsound') hquiet (f := c ++ textOf x) (g := textOf y ++ rest) ?_ rfl rfl))
      rw [hcomments, hlive.eq, textOf_append, textOf_append, textOf_letters]
      simp
  · have h' := h.open_ rfl hr hbehind hm
    rcases quiet_or_live pieces with hquiet | ⟨x, inner, when_, y, hlive, hquiet⟩
    · exact .inl ⟨tokenOf_of_quiet h hcalendar hquiet, tokenOf_of_quiet h' hsame hquiet⟩
    · refine .inr (.inl (tokenIs_said h h' hcalendar hsame hbehind hm hlive hquiet hlive hquiet
        (f := textOf x) (g := textOf y ++ r) ?_ ?_ ?_))
      · rw [hlive.eq, textOf_append, textOf_append, textOf_letters]
        simp
      · simp
      · simp

end Line

end Thock.SyncCore.Reminder
