import Thock.SyncCore.InlinePieces

/-!
# Seams between the pieces of a line

Where a line may be cut between two of its pieces, and when what follows a cut can be exchanged
without a change to the pieces before it. A text that holds no backtick and no `<` is read a
letter at a time wherever it stands outside the hidden pieces.
-/

namespace Thock.SyncCore.Reminder

open TextScan

/-! ## Lists of pieces -/

theorem letters_append (u v : Text) : letters (u ++ v) = letters u ++ letters v := List.map_append

theorem letters_cons (c : Char) (t : Text) : letters (c :: t) = .words [c] :: letters t := rfl

theorem hiddenFrom_append (offset : ℕ) (front back : List Piece) :
    hiddenFrom offset (front ++ back) = hiddenFrom offset front ++ hiddenFrom (offset + (textOf front).length) back := by
  induction front generalizing offset with
  | nil => rfl
  | cons piece front ih =>
    cases piece with
    | words text => simp [hiddenFrom, ih, Piece.text, Nat.add_assoc]
    | code text => simp [hiddenFrom, ih, Piece.text, Nat.add_assoc]
    | comment text => simp [hiddenFrom, ih, Piece.text, Nat.add_assoc]

@[simp] theorem hiddenFrom_letters (offset : ℕ) (t : Text) : hiddenFrom offset (letters t) = [] := by
  induction t generalizing offset with
  | nil => rfl
  | cons c t ih =>
    rw [letters_cons, hiddenFrom]
    exact ih _

/-- The hidden stretches of pieces lie within them. -/
theorem hiddenFrom_bounds {offset : ℕ} {pieces : List Piece} {span : Span} (h : span ∈ hiddenFrom offset pieces) :
    offset ≤ span.start ∧ span.stop ≤ offset + (textOf pieces).length := by
  induction pieces generalizing offset with
  | nil => cases h
  | cons piece rest ih =>
    rw [textOf_cons, List.length_append]
    cases piece with
    | words text =>
      have := ih h
      simp only [Piece.text]
      omega
    | code text =>
      simp only [Piece.text]
      rcases List.mem_cons.mp h with rfl | h
      · dsimp only
        omega
      · have := ih h
        omega
    | comment text =>
      simp only [Piece.text]
      rcases List.mem_cons.mp h with rfl | h
      · dsimp only
        omega
      · have := ih h
        omega

theorem lastId_append (front back : List Piece) : lastId (front ++ back) = (lastId back).or (lastId front) := by
  induction front with
  | nil => simp [lastId]
  | cons piece front ih => rw [List.cons_append, lastId, lastId, ih, Option.or_assoc]

@[simp] theorem lastId_letters (t : Text) : lastId (letters t) = none := by
  induction t with
  | nil => rfl
  | cons c t ih => rw [letters_cons, lastId, ih]; rfl

/-! ## What a piece holds -/

/-- Words are one character or a run of backticks, a code span ends in a backtick and a comment in its closing. -/
def Piece.Sound : Piece → Prop
  | .words text => (∃ d, d ≠ '`' ∧ text = [d]) ∨ ∃ n, text = List.replicate (n + 1) '`'
  | .code text => text.getLast? = some '`'
  | .comment text => text.getLast? = some '>'

theorem IsComment.getLast? {c : Text} (h : IsComment c) : c.getLast? = some '>' := by
  obtain ⟨⟨more, rfl⟩, inner, hinner⟩ := h
  have htext := splitFirst_eq hinner
  have hlast : (commentOpen ++ more).drop 2 ≠ [] := by simp [commentOpen]
  have hsame : (commentOpen ++ more).getLast? = ((commentOpen ++ more).drop 2).getLast? := by
    rw [List.getLast?_drop, if_neg (by simp [commentOpen])]
  rw [hsame, htext]
  simp [commentClose]

theorem IsCode.getLast? {c : Text} (h : IsCode c) : c.getLast? = some '`' := by
  obtain ⟨n, body, hn, rfl, hbody, -, hend⟩ := h
  by_contra hlast
  have hne : body ≠ [] := by
    rintro rfl
    simp only [endRun] at hend
    omega
  rw [List.getLast?_append_of_ne_nil _ hne] at hlast
  have hzero := endRun_of_getLast? hlast
  omega

theorem Reads.sound {input rest : Text} {pieces : List Piece} (h : Reads input pieces rest) :
    ∀ piece ∈ pieces, piece.Sound := by
  induction h with
  | stay => simp
  | comment hc _ ih =>
    intro piece hpiece
    rcases List.mem_cons.mp hpiece with rfl | hpiece
    · exact hc.getLast?
    · exact ih piece hpiece
  | code hc _ _ ih =>
    intro piece hpiece
    rcases List.mem_cons.mp hpiece with rfl | hpiece
    · exact hc.getLast?
    · exact ih piece hpiece
  | @ticks n t rest pieces hn _ _ _ ih =>
    intro piece hpiece
    rcases List.mem_cons.mp hpiece with rfl | hpiece
    · exact Or.inr ⟨n - 1, by rw [Nat.sub_add_cancel hn]⟩
    · exact ih piece hpiece
  | letter htick _ _ ih =>
    intro piece hpiece
    rcases List.mem_cons.mp hpiece with rfl | hpiece
    · exact Or.inl ⟨_, htick, rfl⟩
    · exact ih piece hpiece

/-! ## Cuts -/

theorem Reads.split {input rest : Text} {front back : List Piece} (h : Reads input (front ++ back) rest) :
    Reads input front (textOf back ++ rest) ∧ Reads (textOf back ++ rest) back rest := by
  induction front generalizing input with
  | nil =>
    have htext := h.text_eq
    rw [List.nil_append] at h htext
    rw [← htext]
    exact ⟨.stay _, h⟩
  | cons piece front ih =>
    rw [List.cons_append] at h
    cases h with
    | comment hc next => exact ⟨.comment hc (ih next).1, (ih next).2⟩
    | code hc hhead next => exact ⟨.code hc hhead (ih next).1, (ih next).2⟩
    | ticks hn hhead hopen next => exact ⟨.ticks hn hhead hopen (ih next).1, (ih next).2⟩
    | letter htick hopen next => exact ⟨.letter htick hopen (ih next).1, (ih next).2⟩

theorem Piece.Sound.text_ne_nil {piece : Piece} (h : piece.Sound) : piece.text ≠ [] := by
  cases piece with
  | words text =>
    rcases h with ⟨d, -, rfl⟩ | ⟨n, rfl⟩
    · exact List.cons_ne_nil _ _
    · exact List.cons_ne_nil _ _
  | code text =>
    rintro hnil
    rw [Piece.Sound, show text = [] from hnil] at h
    cases h
  | comment text =>
    rintro hnil
    rw [Piece.Sound, show text = [] from hnil] at h
    cases h

theorem eq_nil_of_textOf {pieces : List Piece} (hsound : ∀ piece ∈ pieces, piece.Sound) (h : textOf pieces = []) :
    pieces = [] := by
  cases pieces with
  | nil => rfl
  | cons piece rest =>
    rw [textOf_cons, List.append_eq_nil_iff] at h
    exact absurd h.1 (hsound piece List.mem_cons_self).text_ne_nil

/-- A stretch without backticks that no hidden piece overlaps is made of letters. -/
theorem exists_letters {pieces : List Piece} (hsound : ∀ piece ∈ pieces, piece.Sound) {offset : ℕ} {u m v : Text}
    (htext : textOf pieces = u ++ m ++ v) (hm : '`' ∉ m) (hhead : u ≠ [] → (m ++ v).head? ≠ some '`')
    (hout : ∀ span ∈ hiddenFrom offset pieces,
      ¬(span.start < offset + u.length + m.length ∧ offset + u.length < span.stop)) :
    ∃ front back, pieces = front ++ letters m ++ back ∧ textOf front = u := by
  induction pieces generalizing offset u m with
  | nil =>
    rw [textOf_nil, eq_comm, List.append_assoc, List.append_eq_nil_iff, List.append_eq_nil_iff] at htext
    obtain ⟨rfl, rfl, -⟩ := htext
    exact ⟨[], [], rfl, rfl⟩
  | cons piece rest ih =>
    have hrest : ∀ p ∈ rest, p.Sound := fun p hp => hsound p (List.mem_cons_of_mem _ hp)
    have hhere := hsound piece List.mem_cons_self
    rw [textOf_cons] at htext
    have hlater : ∀ span ∈ hiddenFrom (offset + piece.text.length) rest, span ∈ hiddenFrom offset (piece :: rest) := by
      intro span hspan
      cases piece with
      | words text => exact hspan
      | code text => exact List.mem_cons_of_mem _ hspan
      | comment text => exact List.mem_cons_of_mem _ hspan
    by_cases hlong : piece.text.length ≤ u.length
    · -- the piece stands before the stretch
      have hprefix : piece.text <+: u := by
        apply List.prefix_of_prefix_length_le (List.prefix_append _ (textOf rest)) _ hlong
        rw [htext, List.append_assoc]
        exact List.prefix_append _ _
      obtain ⟨u', rfl⟩ := hprefix
      rw [List.append_assoc, List.append_assoc, List.append_cancel_left_eq, ← List.append_assoc] at htext
      rw [List.length_append] at hout
      have hnext : u' ≠ [] → (m ++ v).head? ≠ some '`' := fun hne => hhead (by simp [hne])
      obtain ⟨front, back, rfl, rfl⟩ := ih hrest htext hm hnext fun span hspan h =>
        hout span (hlater span hspan) ⟨by omega, by omega⟩
      exact ⟨piece :: front, back, rfl, rfl⟩
    · rw [not_le] at hlong
      have hempty : u = [] → m = [] → ∃ front back, piece :: rest = front ++ letters m ++ back ∧ textOf front = u := by
        rintro rfl rfl
        exact ⟨[], piece :: rest, rfl, rfl⟩
      have hhidden : (⟨offset, offset + piece.text.length⟩ : Span) ∈ hiddenFrom offset (piece :: rest) →
          u = [] ∧ m = [] := by
        intro hspan
        have := hout _ hspan
        dsimp only at this
        rw [← List.length_eq_zero_iff, ← List.length_eq_zero_iff]
        omega
      cases piece with
      | code text => exact hempty (hhidden List.mem_cons_self).1 (hhidden List.mem_cons_self).2
      | comment text => exact hempty (hhidden List.mem_cons_self).1 (hhidden List.mem_cons_self).2
      | words text =>
        simp only [Piece.text] at hlong htext
        rcases hhere with ⟨d, -, rfl⟩ | ⟨n, rfl⟩
        · obtain rfl := List.eq_nil_of_length_eq_zero (by simpa using hlong : u.length = 0)
          cases m with
          | nil => exact hempty rfl rfl
          | cons e m =>
            obtain ⟨rfl, htail⟩ := List.cons.inj htext
            obtain ⟨front, back, rfl, hfront⟩ := ih hrest (u := []) htail (fun h => hm (List.mem_cons_of_mem _ h)) (absurd rfl)
              fun span hspan h => hout span (hlater span hspan) ⟨by
                simp only [Piece.text, List.length_cons, List.length_nil] at h ⊢
                omega, by
                simp only [Piece.text, List.length_cons, List.length_nil] at h ⊢
                omega⟩
            obtain rfl := eq_nil_of_textOf (fun p hp => hrest p (by simp [hp])) hfront
            exact ⟨[], back, rfl, rfl⟩
        · -- a run of backticks is not cut
          have htick : (m ++ v).head? = some '`' := by
            have hat := congrArg (fun t => t[u.length]?) htext
            rw [List.append_assoc, List.getElem?_append_right le_rfl, List.getElem?_append_left hlong, Nat.sub_self,
              ← List.head?_eq_getElem?, List.getElem?_replicate, if_pos (by simpa using hlong)] at hat
            exact hat.symm
          by_cases hu : u = []
          · cases m with
            | nil => exact hempty hu rfl
            | cons e m =>
              obtain rfl : e = '`' := by simpa using htick
              exact absurd List.mem_cons_self hm
          · exact absurd htick (hhead hu)

/-- Characters that end no hidden piece and no run of backticks are letters at the end of pieces. -/
theorem exists_letters_at_end {pieces : List Piece} (hsound : ∀ piece ∈ pieces, piece.Sound) {u w : Text}
    (htext : textOf pieces = u ++ w) (hw : '`' ∉ w ∧ '>' ∉ w) : ∃ front, pieces = front ++ letters w ∧ textOf front = u := by
  induction w using List.reverseRecOn generalizing pieces with
  | nil => exact ⟨pieces, by simp [letters], by simpa using htext⟩
  | append_singleton w d ih =>
    rcases List.eq_nil_or_concat pieces with rfl | ⟨pieces, piece, rfl⟩
    · simp at htext
    · rw [List.concat_eq_append] at hsound htext ⊢
      have htick : d ≠ '`' := fun h => hw.1 (by simp [h])
      have hgreater : d ≠ '>' := fun h => hw.2 (by simp [h])
      have hlast : piece.text.getLast? = some d := by
        have := congrArg List.getLast? htext
        rwa [textOf_append, textOf_cons, textOf_nil, List.append_nil,
          List.getLast?_append_of_ne_nil _ (hsound piece (by simp)).text_ne_nil, ← List.append_assoc,
          List.getLast?_concat] at this
      obtain rfl : piece = .words [d] := by
        have hpiece := hsound piece (by simp)
        cases piece with
        | words text =>
          rcases hpiece with ⟨e, -, rfl⟩ | ⟨n, rfl⟩
          · simpa [Piece.text] using hlast
          · rw [Piece.text, List.getLast?_replicate, if_neg (by omega)] at hlast
            exact absurd (Option.some.inj hlast).symm htick
        | code text => exact absurd (Option.some.inj (hpiece.symm.trans hlast)).symm htick
        | comment text => exact absurd (Option.some.inj (hpiece.symm.trans hlast)).symm hgreater
      have hfront : textOf pieces = u ++ w := by
        rw [textOf_append, ← List.append_assoc] at htext
        exact List.append_cancel_right (htext.trans (by simp [Piece.text]))
      obtain ⟨front, rfl, rfl⟩ := ih (fun p hp => hsound p (by simp [hp])) hfront
        ⟨fun h => hw.1 (by simp [h]), fun h => hw.2 (by simp [h])⟩
      exact ⟨front, by simp [letters], rfl⟩

/-- White space at the end of pieces is made of letters. -/
theorem exists_letters_of_blank {pieces : List Piece} (hsound : ∀ piece ∈ pieces, piece.Sound) {u w : Text}
    (htext : textOf pieces = u ++ w) (hw : Blank w) : ∃ front, pieces = front ++ letters w ∧ textOf front = u :=
  exists_letters_at_end hsound htext ⟨hw.not_mem (by decide), hw.not_mem (by decide)⟩

/-! ## What follows a cut -/

/-- No backtick follows a text that ends in one. -/
def Unjoined (u v : Text) : Prop := v.head? = some '`' → u.getLast? ≠ some '`'

theorem Unjoined.suffix {u v y : Text} (h : Unjoined (u ++ v) y) : Unjoined v y := by
  intro hy hv
  have hne : v ≠ [] := by
    rintro rfl
    cases hv
  exact h hy (by rwa [List.getLast?_append_of_ne_nil _ hne])

/-- Another character still follows a text that ends in a backtick. -/
theorem Unjoined.head? {c u x y : Text} (h : Unjoined (c ++ u) y) (hc : c.getLast? = some '`')
    (hhead : (u ++ x).head? ≠ some '`') : (u ++ y).head? ≠ some '`' := by
  cases u with
  | nil =>
    rw [List.append_nil] at h
    exact fun hy => h hy hc
  | cons d u => exact hhead

/-- A run that stays open over one text and what follows it stays open over another that closes no run either. -/
theorem closeAt_none_swap {u x y : Text} {n : ℕ} (hx : x.head? ≠ some '`')
    (hclose : closeAt '`' n 0 x = none → closeAt '`' n 0 y = none) (hticks : Unjoined u y)
    (hopen : closeAt '`' n 0 (u ++ x) = none) : closeAt '`' n 0 (u ++ y) = none := by
  rw [closeAt_append] at hopen ⊢
  by_cases hpass : passes '`' n 0 u = true
  · rw [if_pos hpass, Option.map_eq_none_iff] at hopen ⊢
    by_cases hzero : endRun '`' 0 u = 0
    · rw [hzero] at hopen ⊢
      exact hclose hopen
    · have hlast : u.getLast? = some '`' := by
        by_contra hlast
        exact hzero (endRun_of_getLast? hlast)
      have hy : y.head? ≠ some '`' := fun hy => hticks hy hlast
      have hshort : ¬(endRun '`' 0 u = n ∧ 0 < n) := by
        rintro ⟨hn, hpos⟩
        rw [hn, closeAt_of_full hpos hx] at hopen
        cases hopen
      rw [closeAt_of_head hx hshort] at hopen
      rw [closeAt_of_head hy hshort, hclose hopen]
  · obtain ⟨k, hk, -⟩ := closeAt_of_passes (by simpa using hpass)
    rw [if_neg hpass, hk] at hopen
    cases hopen

/-- What follows pieces from some way on may be exchanged where no run and no opening forms across the cut, and no
run that is left open before it is closed. -/
theorem Reads.swap_behind {input k x : Text} {pieces : List Piece} (h : Reads input pieces (k ++ x)) {y : Text}
    (hx : x.head? ≠ some '`') (hclose : ∀ n, closeAt '`' n 0 x = none → closeAt '`' n 0 y = none)
    (hticks : Unjoined (textOf pieces ++ k) y) (hopen : Apart commentOpen (textOf pieces ++ k) y) :
    Reads (textOf pieces ++ (k ++ y)) pieces (k ++ y) := by
  generalize hrest : k ++ x = rest at h
  induction h with
  | stay => exact .stay _
  | comment hc next ih =>
    rw [textOf_cons, List.append_assoc] at hticks hopen ⊢
    exact .comment hc (ih hticks.suffix hopen.suffix hrest)
  | code hc hhead next ih =>
    rw [next.text_eq, ← hrest, ← List.append_assoc] at hhead
    rw [textOf_cons, List.append_assoc] at hticks hopen ⊢
    refine .code hc ?_ (ih hticks.suffix hopen.suffix hrest)
    rw [← List.append_assoc]
    exact hticks.head? hc.getLast? hhead
  | @ticks n t rest pieces hn hhead hrun next ih =>
    rw [next.text_eq, ← hrest, ← List.append_assoc] at hhead hrun
    have hlast : (List.replicate n '`').getLast? = some '`' := by
      rw [List.getLast?_replicate, if_neg (by omega)]
    rw [textOf_cons, List.append_assoc] at hticks hopen ⊢
    have hswap := closeAt_none_swap hx (hclose n) hticks.suffix hrun
    have hnext := hticks.head? hlast hhead
    rw [List.append_assoc] at hswap hnext
    exact .ticks hn hnext hswap (ih hticks.suffix hopen.suffix hrest)
  | @letter d t rest pieces htick hnone next ih =>
    rw [next.text_eq, ← hrest, ← List.append_assoc] at hnone
    rw [textOf_cons, List.append_assoc] at hticks hopen ⊢
    refine .letter htick ?_ (ih hticks.suffix hopen.suffix hrest)
    rintro ⟨after, hafter⟩
    rcases hopen [] after (by simpa [Piece.text] using hafter.symm) with ⟨more, hmore, -⟩ | ⟨more, hmore, -⟩
    · apply hnone
      rw [Piece.text, List.singleton_append, List.nil_append] at hmore
      rw [← List.cons_append, hmore, List.append_assoc]
      exact List.prefix_append _ _
    · cases hmore

/-- What follows pieces may be exchanged where no run and no opening forms across the cut, and no run that the
pieces leave open is closed. -/
theorem Reads.swap {input x : Text} {pieces : List Piece} (h : Reads input pieces x) {y : Text}
    (hx : x.head? ≠ some '`') (hclose : ∀ n, closeAt '`' n 0 x = none → closeAt '`' n 0 y = none)
    (hticks : Unjoined (textOf pieces) y) (hopen : Apart commentOpen (textOf pieces) y) :
    Reads (textOf pieces ++ y) pieces y := by
  rw [← List.append_nil (textOf pieces)] at hticks hopen
  exact Reads.swap_behind (k := []) h hx hclose hticks hopen

/-! ## Plain text -/

/-- A text that stands outside comments and code wherever the scan meets it outside of them. -/
structure Plain (m : Text) : Prop where
  ne_nil : m ≠ []
  ticks : '`' ∉ m
  opens : '<' ∉ m
  head : ∀ c ∈ m.head?, c ∉ commentOpen

theorem Plain.head?_append {m : Text} (h : Plain m) (b : Text) : (m ++ b).head? ≠ some '`' := by
  obtain ⟨c, m, rfl⟩ := List.exists_cons_of_ne_nil h.ne_nil
  intro hhead
  obtain rfl := Option.some.inj hhead
  exact h.ticks List.mem_cons_self

theorem Plain.unjoined {m : Text} (h : Plain m) (u b : Text) : Unjoined u (m ++ b) := fun hy =>
  absurd hy (h.head?_append b)

theorem Plain.apart {m : Text} (h : Plain m) (u b : Text) : Apart commentOpen u (m ++ b) := by
  obtain ⟨c, m, rfl⟩ := List.exists_cons_of_ne_nil h.ne_nil
  exact apart_cons (h.head c rfl) u (m ++ b)

/-- Plain text in the place of other text without backticks leaves the pieces around it as they are. -/
theorem Reads.respell {front back : List Piece} {m m' b rest : Text}
    (h : Reads (textOf front ++ (m ++ b)) front (m ++ b)) (hback : Reads b back rest) (hne : m ≠ []) (hm : '`' ∉ m)
    (hm' : Plain m') : Reads (textOf front ++ (m' ++ b)) (front ++ letters m' ++ back) rest := by
  have hx : (m ++ b).head? ≠ some '`' := by
    obtain ⟨c, m, rfl⟩ := List.exists_cons_of_ne_nil hne
    intro hhead
    obtain rfl := Option.some.inj hhead
    exact hm List.mem_cons_self
  have hclose : ∀ n, closeAt '`' n 0 (m ++ b) = none → closeAt '`' n 0 (m' ++ b) = none := by
    intro n hn
    rw [closeAt_plain hm, Option.map_eq_none_iff] at hn
    rw [closeAt_plain hm'.ticks, hn]
    rfl
  have hfront := h.swap hx hclose (hm'.unjoined _ b) (hm'.apart _ b)
  exact (hfront.append (reads_letters hm'.ticks hm'.opens b)).append hback

end Thock.SyncCore.Reminder
