import Thock.SyncCore.DueText
import Thock.SyncCore.InlineSeams

/-!
# Where a token stands

The token a line carries, told by the pieces of the line: it stands among the letters, nothing
escapes it, and the last one that does so is the one the scan finds.
-/

namespace Thock.SyncCore.Reminder

open TextScan

/-! ## Among the pieces -/

/-- The text of a token. -/
def tokenAround (inner : Text) : Text := tokenOpen ++ inner ++ [')']

/-- A token that counts, between the pieces before it and those behind it. -/
structure Live (pieces front : List Piece) (inner : Text) (when_ : When) (back : List Piece) : Prop where
  eq : pieces = front ++ letters (tokenAround inner) ++ back
  free : (textOf front).getLast? ≠ some '\\'
  reads : parseWhen inner = some when_

/-- No token counts among pieces. -/
def Quiet (pieces : List Piece) : Prop := ∀ front inner when_ back, ¬Live pieces front inner when_ back

theorem not_mem_of_parseWhen {inner : Text} {when_ : When} (h : parseWhen inner = some when_) {c : Char}
    (hc : isTokenChar c = false) : c ∉ inner := fun hmem => by
  rw [isTokenChar_of_parseWhen h c hmem] at hc
  cases hc

theorem tokenAround_length (inner : Text) : (tokenAround inner).length = inner.length + 3 := by
  simp [tokenAround, tokenOpen]

theorem plain_tokenAround {inner : Text} {when_ : When} (h : parseWhen inner = some when_) : Plain (tokenAround inner) where
  ne_nil := by simp [tokenAround]
  ticks := by simpa [tokenAround, tokenOpen] using not_mem_of_parseWhen h (by decide)
  opens := by simpa [tokenAround, tokenOpen] using not_mem_of_parseWhen h (by decide)
  head := by
    intro c hc
    obtain rfl : '(' = c := by simpa [tokenAround, tokenOpen] using hc
    decide

theorem Live.plain {pieces front back : List Piece} {inner : Text} {when_ : When}
    (h : Live pieces front inner when_ back) : Plain (tokenAround inner) := plain_tokenAround h.reads

/-- A token among the pieces behind another one counts in the whole line too. -/
theorem Live.behind {pieces front back front' back' : List Piece} {inner inner' : Text} {when_ when' : When}
    (h : Live pieces front inner when_ back) (hback : Live back front' inner' when' back') :
    Live pieces (front ++ letters (tokenAround inner) ++ front') inner' when' back' where
  eq := by rw [h.eq, hback.eq]; simp
  free := by
    by_cases hfront : textOf front' = []
    · simp [hfront, tokenAround]
    · rw [textOf_append, List.getLast?_append_of_ne_nil _ hfront]
      exact hback.free
  reads := hback.reads

/-- Where a line is cut in two, a token that counts lies before the cut, across it or behind it. -/
theorem Live.cut {u v front back : List Piece} {inner : Text} {when_ : When} (h : Live (u ++ v) front inner when_ back) :
    (∃ x, Live u front inner when_ x ∧ back = x ++ v) ∨
      (∃ t₁ t₂, t₁ ≠ [] ∧ t₂ ≠ [] ∧ tokenAround inner = t₁ ++ t₂ ∧ u = front ++ letters t₁ ∧ v = letters t₂ ++ back) ∨
        ∃ x, front = u ++ x ∧ Live v x inner when_ back := by
  have heq := h.eq
  rw [List.append_assoc] at heq
  rcases List.append_eq_append_iff.mp heq with ⟨x, hfront, hv⟩ | ⟨y, hu, hv⟩
  · refine Or.inr (Or.inr ⟨x, hfront, by rw [hv, List.append_assoc], ?_, h.reads⟩)
    by_cases hx : textOf x = []
    · simp [hx]
    · have hfree := h.free
      rwa [hfront, textOf_append, List.getLast?_append_of_ne_nil _ hx] at hfree
  · rcases List.append_eq_append_iff.mp hv with ⟨z, hy, hback⟩ | ⟨z, hletters, hv⟩
    · exact Or.inl ⟨z, ⟨by rw [hu, hy, List.append_assoc], h.free, h.reads⟩, hback⟩
    · obtain ⟨t₁, t₂, htoken, hy, hz⟩ := List.map_eq_append_iff.mp hletters
      by_cases h₁ : t₁ = []
      · obtain rfl : y = [] := by rw [← hy, h₁]; rfl
        rw [List.append_nil] at hu
        exact Or.inr (Or.inr ⟨[], by rw [hu, List.append_nil], hv.symm, by simp, h.reads⟩)
      · by_cases h₂ : t₂ = []
        · obtain rfl : z = [] := by rw [← hz, h₂]; rfl
          rw [List.append_nil] at hletters
          exact Or.inl ⟨[], ⟨by rw [hu, ← hletters, List.append_nil], h.free, h.reads⟩, by simpa using hv.symm⟩
        · exact Or.inr (Or.inl ⟨t₁, t₂, h₁, h₂, htoken, by rw [hu, ← hy]; rfl, by rw [hv, ← hz]; rfl⟩)

/-- A token that counts before a cut counts in the whole line. -/
theorem Live.append {u front back : List Piece} {inner : Text} {when_ : When} (h : Live u front inner when_ back)
    (v : List Piece) : Live (u ++ v) front inner when_ (back ++ v) where
  eq := by rw [h.eq, List.append_assoc]
  free := h.free
  reads := h.reads

/-- A token that counts behind a cut counts in the whole line, unless it stands right at the cut. -/
theorem Live.prepend {v front back : List Piece} {inner : Text} {when_ : When} (h : Live v front inner when_ back)
    (u : List Piece) (hfront : textOf front ≠ []) : Live (u ++ v) (u ++ front) inner when_ back where
  eq := by rw [h.eq, List.append_assoc, List.append_assoc, List.append_assoc]
  free := by
    rw [textOf_append, List.getLast?_append_of_ne_nil _ hfront]
    exact h.free
  reads := h.reads

theorem Quiet.left {u v : List Piece} (h : Quiet (u ++ v)) : Quiet u := fun front inner when_ back hlive =>
  h front inner when_ (back ++ v) (hlive.append v)

/-- What stands in a token behind a place inside it. -/
theorem mem_behind {inner t₁ t₂ : Text} (h : tokenAround inner = t₁ ++ t₂) (hne : t₁ ≠ []) {c : Char} (hc : c ∈ t₂) :
    c = '@' ∨ c ∈ inner ∨ c = ')' := by
  obtain ⟨d, t₁, rfl⟩ := List.exists_cons_of_ne_nil hne
  have hcons : '(' :: ('@' :: inner ++ [')']) = d :: (t₁ ++ t₂) := h
  have htail := List.tail_eq_of_cons_eq hcons
  have hmem : c ∈ '@' :: inner ++ [')'] := by
    rw [htail]
    exact List.mem_append_right _ hc
  simpa [or_assoc] using hmem

/-- Behind the start of a token the next one that counts stands behind all of it. -/
theorem Live.behind_token {inner inner' : Text} {when_ when' : When} {front back back' : List Piece}
    (h : Live (letters (tokenAround inner) ++ back) front inner' when' back') (hinner : parseWhen inner = some when_)
    (hfront : textOf front ≠ []) : ∃ x, Live back x inner' when' back' := by
  have hopen : ∀ t₁ t₂, tokenAround inner = t₁ ++ t₂ → t₁ ≠ [] → '(' ∉ t₂ := by
    intro t₁ t₂ htoken hne hmem
    rcases mem_behind htoken hne hmem with h | h | h
    · cases h
    · exact not_mem_of_parseWhen hinner (by decide) h
    · cases h
  rcases h.cut with ⟨x, hleft, -⟩ | ⟨t₁, t₂, h₁, -, htoken, hletters, -⟩ | ⟨x, -, hright⟩
  · have htext := congrArg textOf hleft.eq
    rw [textOf_letters, textOf_append, textOf_append, textOf_letters, List.append_assoc] at htext
    exact absurd (by simp [tokenAround, tokenOpen]) (hopen _ _ htext hfront)
  · have htext := congrArg textOf hletters
    rw [textOf_letters, textOf_append, textOf_letters] at htext
    obtain ⟨d, t₁, rfl⟩ := List.exists_cons_of_ne_nil h₁
    obtain rfl : '(' = d := by simpa [tokenAround, tokenOpen] using congrArg List.head? htoken
    exact absurd List.mem_cons_self (hopen _ _ htext hfront)
  · exact ⟨x, hright⟩

/-- Two quiet stretches are quiet together when no token lies across the place where they meet. -/
theorem Quiet.append {u v : List Piece} (hu : Quiet u) (hv : Quiet v)
    (hacross : ∀ front t₁ t₂ inner when_ back, parseWhen inner = some when_ → t₁ ≠ [] → t₂ ≠ [] →
      tokenAround inner = t₁ ++ t₂ → u = front ++ letters t₁ → v ≠ letters t₂ ++ back) : Quiet (u ++ v) := by
  intro front inner when_ back hlive
  rcases hlive.cut with ⟨x, hleft, -⟩ | ⟨t₁, t₂, h₁, h₂, htoken, hfront, hback⟩ | ⟨x, -, hright⟩
  · exact hu _ _ _ _ hleft
  · exact hacross front t₁ t₂ inner when_ back hlive.reads h₁ h₂ htoken hfront hback
  · exact hv _ _ _ _ hright

/-- Either no token counts, or one does and none behind it. -/
theorem quiet_or_live (pieces : List Piece) :
    Quiet pieces ∨ ∃ front inner when_ back, Live pieces front inner when_ back ∧ Quiet back := by
  generalize hlength : pieces.length = n
  induction n using Nat.strong_induction_on generalizing pieces with
  | _ n ih =>
    subst hlength
    by_cases hquiet : Quiet pieces
    · exact Or.inl hquiet
    · simp only [Quiet, not_forall, not_not] at hquiet
      obtain ⟨front, inner, when_, back, hlive⟩ := hquiet
      have hshort : back.length < pieces.length := by
        rw [hlive.eq]
        simp only [letters, List.length_append, List.length_map, tokenAround_length]
        omega
      rcases ih back.length hshort back rfl with hback | ⟨front', inner', when', back', hback, hlast⟩
      · exact Or.inr ⟨front, inner, when_, back, hlive, hback⟩
      · exact Or.inr ⟨_, inner', when', back', hlive.behind hback, hlast⟩

/-! ## At an offset -/

/-- The token that starts at an offset and ends at another, as the scan records it. -/
def tokenAt (line : Text) (start stop : ℕ) (when_ : When) : Token :=
  let struck := strike.isSuffixOf (line.take start) && strike.isPrefixOf (line.drop stop)
  ⟨if struck then ⟨start - strike.length, stop + strike.length⟩ else ⟨start, stop⟩, when_, struck⟩

/-- A token that the scan takes at an offset. -/
structure CountsAt (line : Text) (excluded : List Span) (start close : ℕ) (when_ : When) : Prop where
  opens : tokenOpen <+: line.drop start
  free : ¬['\\'].isSuffixOf (line.take start) = true
  closes : findFrom [')'] line (start + tokenOpen.length) = some close
  outside : (excluded.any fun range => range.start < close + 1 && start < range.stop) = false
  reads : parseWhen (slice line (start + tokenOpen.length) close) = some when_

theorem findFrom_some {pattern line : Text} {search start : ℕ} (h : findFrom pattern line search = some start) :
    search ≤ start ∧ pattern <+: line.drop start ∧ ∀ k, search ≤ k → pattern <+: line.drop k → start ≤ k := by
  obtain ⟨r, hr, rfl⟩ := Option.map_eq_some_iff.mp h
  have htext := @splitFirst_eq _ _ r.1 r.2 hr
  refine ⟨Nat.le_add_right _ _, ?_, ?_⟩
  · rw [← List.drop_drop, htext, List.append_assoc, List.drop_left]
    exact List.prefix_append _ _
  · rintro k hk ⟨after, hafter⟩
    have hcut : line.drop search = (line.drop search).take (k - search) ++ pattern ++ after := by
      rw [List.append_assoc, hafter]
      conv_lhs => rw [← List.take_append_drop (k - search) (line.drop search), List.drop_drop]
      rw [show search + (k - search) = k by omega]
    have hle := splitFirst_le hr hcut
    rw [List.length_take] at hle
    omega

theorem findFrom_none {pattern line : Text} {search : ℕ} (h : findFrom pattern line search = none) {k : ℕ}
    (hk : search ≤ k) : ¬pattern <+: line.drop k := by
  rintro ⟨after, hafter⟩
  have hcut : line.drop search = (line.drop search).take (k - search) ++ pattern ++ after := by
    rw [List.append_assoc, hafter]
    conv_lhs => rw [← List.take_append_drop (k - search) (line.drop search), List.drop_drop]
    rw [show search + (k - search) = k by omega]
  have hsome := splitFirst_isSome pattern ((line.drop search).take (k - search)) after
  rw [← hcut, Option.map_eq_none_iff.mp h] at hsome
  cases hsome

section Scan
variable {line : Text} {excluded : List Span}

/-- Where no token counts from an offset on, the one found before it stays. -/
theorem lastTokenFrom_none {fuel search : ℕ} {found : Option Token}
    (hnone : ∀ start close when_, search ≤ start → ¬CountsAt line excluded start close when_) :
    lastTokenFrom line excluded fuel search found = found := by
  induction fuel generalizing search with
  | zero => rfl
  | succ fuel ih =>
    unfold lastTokenFrom
    cases hstart : findFrom tokenOpen line search with
    | none => rfl
    | some start =>
      obtain ⟨hle, hopens, -⟩ := findFrom_some hstart
      have hnext := @ih (start + tokenOpen.length) fun s close when_ hs =>
        hnone s close when_ (by omega)
      dsimp only
      split
      · exact hnext
      · rename_i hfree
        cases hclose : findFrom [')'] line (start + tokenOpen.length) with
        | none => rfl
        | some close =>
          dsimp only
          split
          · exact hnext
          · rename_i houtside
            cases hwhen : parseWhen (slice line (start + tokenOpen.length) close) with
            | none => exact hnext
            | some when_ =>
              exact absurd ⟨hopens, hfree, hclose, by simpa using houtside, hwhen⟩ (hnone start close when_ hle)

/-- The scan finds a token that counts when none behind it does. -/
theorem lastTokenFrom_some {start close : ℕ} {when_ : When} (hcounts : CountsAt line excluded start close when_)
    (hlast : ∀ later close when_, start < later → ¬CountsAt line excluded later close when_) {fuel search : ℕ}
    (hsearch : search ≤ start) (hfuel : line.length < fuel + search) (found : Option Token) :
    lastTokenFrom line excluded fuel search found = some (tokenAt line start (close + 1) when_) := by
  obtain ⟨after, hafter⟩ := hcounts.opens
  have hlength := congrArg List.length hafter
  simp only [List.length_append, List.length_drop, tokenOpen] at hlength
  simp at hlength
  induction fuel generalizing search found with
  | zero => omega
  | succ fuel ih =>
    unfold lastTokenFrom
    cases hfirst : findFrom tokenOpen line search with
    | none => exact absurd hcounts.opens (findFrom_none hfirst hsearch)
    | some first =>
      obtain ⟨hle, hopens, hmin⟩ := findFrom_some hfirst
      have hfirstle := hmin start hsearch hcounts.opens
      dsimp only
      by_cases heq : first = start
      · subst heq
        rw [if_neg hcounts.free, hcounts.closes]
        dsimp only
        rw [if_neg (by rw [hcounts.outside]; decide), hcounts.reads]
        exact lastTokenFrom_none fun later close when_ hlater => hlast later close when_ (by simp [tokenOpen] at hlater; omega)
      · -- an opening holds no second one
        have hapart : first + tokenOpen.length ≤ start := by
          have hnext : start ≠ first + 1 := by
            rintro rfl
            obtain ⟨more, hmore⟩ := hopens
            have hat : (line.drop first).drop 1 = '@' :: more := by rw [← hmore]; rfl
            rw [List.drop_drop, ← hafter] at hat
            cases hat
          simp only [tokenOpen] at hnext ⊢
          simp
          omega
        have hih := fun found => @ih (first + tokenOpen.length) hapart (by simp [tokenOpen]; omega) found
        split
        · exact hih found
        · cases hclose : findFrom [')'] line (first + tokenOpen.length) with
          | none =>
            obtain ⟨hbehind, hparen, -⟩ := findFrom_some hcounts.closes
            exact absurd hparen (findFrom_none hclose (by omega))
          | some close' =>
            dsimp only
            split
            · exact hih found
            · cases parseWhen (slice line (first + tokenOpen.length) close') with
              | none => exact hih found
              | some when' => exact hih _

end Scan

/-! ## Pieces and offsets -/

theorem isSuffixOf_singleton_iff {c : Char} {t : Text} : [c].isSuffixOf t = true ↔ t.getLast? = some c := by
  rw [List.isSuffixOf_iff_suffix]
  constructor
  · rintro ⟨u, rfl⟩
    simp
  · intro h
    obtain ⟨u, rfl⟩ := List.getLast?_eq_some_iff.mp h
    exact List.suffix_append u [c]

section Line
variable {line rest : Text} {pieces : List Piece}

theorem Scanned.text_eq (h : Scanned line pieces rest) : line = textOf pieces ++ rest := h.reads.text_eq

/-- A stretch of the pieces is not hidden where the pieces in it are not. -/
theorem not_excluded {front back : List Piece} {m : Text} (h : Scanned line (front ++ letters m ++ back) rest) :
    ((scanOf line (front ++ letters m ++ back) rest).excluded.any fun range =>
      range.start < (textOf front).length + m.length && (textOf front).length < range.stop) = false := by
  have hlength := congrArg List.length h.text_eq
  simp only [textOf_append, textOf_letters, List.length_append] at hlength
  rw [Bool.eq_false_iff]
  intro hany
  obtain ⟨range, hrange, hmeets⟩ := List.any_eq_true.mp hany
  rw [Bool.and_eq_true, decide_eq_true_eq, decide_eq_true_eq] at hmeets
  simp only [scanOf, hiddenFrom_append, hiddenFrom_letters, List.append_nil, List.mem_append] at hrange
  rcases hrange with (hrange | hrange) | hrange
  · have := hiddenFrom_bounds hrange
    omega
  · have := hiddenFrom_bounds hrange
    simp only [textOf_append, textOf_letters, List.length_append] at this
    omega
  · split at hrange
    · cases hrange
    · obtain rfl := List.mem_singleton.mp hrange
      dsimp only at hmeets
      omega

theorem countsAt_of_live {front back : List Piece} {inner : Text} {when_ : When} (h : Scanned line pieces rest)
    (hlive : Live pieces front inner when_ back) :
    CountsAt line (scanOf line pieces rest).excluded (textOf front).length ((textOf front).length + 2 + inner.length)
      when_ := by
  have htext := h.text_eq
  rw [hlive.eq, textOf_append, textOf_append, textOf_letters] at htext
  have hdrop : line.drop (textOf front).length = tokenOpen ++ (inner ++ ')' :: (textOf back ++ rest)) := by
    rw [htext, List.append_assoc, List.append_assoc, List.drop_left]
    simp [tokenAround]
  have hinner : line.drop ((textOf front).length + 2) = inner ++ ')' :: (textOf back ++ rest) := by
    rw [← List.drop_drop, hdrop]
    rfl
  have htake : line.take (textOf front).length = textOf front := by
    rw [htext, List.append_assoc, List.append_assoc, List.take_left]
  refine ⟨⟨_, hdrop.symm⟩, ?_, ?_, ?_, ?_⟩
  · rw [htake, isSuffixOf_singleton_iff]
    exact hlive.free
  · change (splitFirst [')'] (line.drop ((textOf front).length + 2))).map _ = _
    rw [hinner, splitFirst_char (not_mem_of_parseWhen hlive.reads (by decide))]
    rfl
  · obtain rfl := hlive.eq
    have hfree := not_excluded h
    rwa [tokenAround_length, show (textOf front).length + (inner.length + 3) = (textOf front).length + 2 + inner.length + 1
      by omega] at hfree
  · change parseWhen (slice line ((textOf front).length + 2) ((textOf front).length + 2 + inner.length)) = _
    rw [slice, List.drop_take, hinner, Nat.add_sub_cancel_left, List.take_left]
    exact hlive.reads

/-- A token that the scan takes stands among the pieces. -/
theorem live_of_countsAt {start close : ℕ} {when_ : When} (h : Scanned line pieces rest)
    (hcounts : CountsAt line (scanOf line pieces rest).excluded start close when_) :
    ∃ front inner back, Live pieces front inner when_ back ∧ (textOf front).length = start ∧
      close = start + 2 + inner.length := by
  obtain ⟨after, hafter⟩ := hcounts.opens
  obtain ⟨⟨inner, tail⟩, hsplit, hclose⟩ := Option.map_eq_some_iff.mp hcounts.closes
  have hstart : (line.take start).length = start := by
    have := congrArg List.length hafter
    simp [tokenOpen] at this
    rw [List.length_take]
    omega
  have hrest : line.drop (start + tokenOpen.length) = after := by
    rw [← List.drop_drop, ← hafter, List.drop_left]
  rw [hrest] at hsplit
  obtain rfl := splitFirst_eq hsplit
  have hslice : slice line (start + tokenOpen.length) close = inner := by
    rw [slice, ← hclose, List.drop_take, hrest, Nat.add_sub_cancel_left, List.append_assoc, List.take_left]
  have hreads := hcounts.reads
  rw [hslice] at hreads
  have hline : line = line.take start ++ tokenAround inner ++ tail := by
    conv_lhs => rw [← List.take_append_drop start line, ← hafter]
    simp [tokenAround]
  have hlong : close + 1 = start + (tokenAround inner).length := by
    rw [← hclose, tokenAround_length]
    simp [tokenOpen]
    omega
  have hout := hcounts.outside
  rw [List.any_eq_false] at hout
  -- the token does not reach into a comment the line leaves open
  have hwithin : start + (tokenAround inner).length ≤ (textOf pieces).length := by
    have htext := congrArg List.length h.text_eq
    have hlength := congrArg List.length hline
    rw [List.length_append] at htext
    rw [List.length_append, List.length_append, hstart] at hlength
    by_cases hnil : rest = []
    · rw [hnil, List.length_nil] at htext
      omega
    · have hlast := hout ⟨line.length - rest.length, line.length⟩ (by simp [scanOf, hnil])
      have hpos := List.length_pos_iff.mpr hnil
      simp only [Bool.and_eq_true, decide_eq_true_eq, not_and] at hlast
      rw [tokenAround_length] at hlength hlong ⊢
      omega
  obtain ⟨v, hv⟩ : ∃ v, textOf pieces = line.take start ++ tokenAround inner ++ v := by
    have hshown : line.take start ++ tokenAround inner <+: line := by
      conv_rhs => rw [hline]
      exact List.prefix_append _ _
    have hread : textOf pieces <+: line := by
      conv_rhs => rw [h.text_eq]
      exact List.prefix_append _ _
    obtain ⟨v, hv⟩ := List.prefix_of_prefix_length_le hshown hread (by rwa [List.length_append, hstart])
    exact ⟨v, hv.symm⟩
  have hplain := plain_tokenAround hreads
  obtain ⟨front, back, hpieces, hfront⟩ := @exists_letters _ h.reads.sound 0 _ _ _ hv hplain.ticks
    (fun _ => hplain.head?_append v) fun span hspan hmeets => by
      have hspan := hout span (List.mem_append_left _ hspan)
      simp only [Bool.and_eq_true, decide_eq_true_eq, not_and] at hspan
      rw [hstart] at hmeets
      omega
  refine ⟨front, inner, back, ⟨hpieces, ?_, hreads⟩, by rw [hfront, hstart], ?_⟩
  · rw [hfront, Ne, ← isSuffixOf_singleton_iff]
    exact hcounts.free
  · rw [tokenAround_length] at hlong
    omega

theorem lastToken_of_quiet (h : Scanned line pieces rest) (hquiet : Quiet pieces) :
    lastToken line (scanOf line pieces rest).excluded = none :=
  lastTokenFrom_none fun _ _ _ _ hcounts => by
    obtain ⟨front, inner, back, hlive, -⟩ := live_of_countsAt h hcounts
    exact hquiet front inner _ back hlive

/-- A token that counts is found where none behind it counts. -/
theorem lastToken_of_live {front back : List Piece} {inner : Text} {when_ : When} (h : Scanned line pieces rest)
    (hlive : Live pieces front inner when_ back) (hquiet : Quiet back) :
    lastToken line (scanOf line pieces rest).excluded =
      some (tokenAt line (textOf front).length ((textOf front).length + 2 + inner.length + 1) when_) := by
  refine lastTokenFrom_some (countsAt_of_live h hlive) ?_ (Nat.zero_le _) (by omega) none
  intro later close when' hlater hcounts
  obtain ⟨front', inner', back', hlive', rfl, -⟩ := live_of_countsAt h hcounts
  rw [hlive.eq, List.append_assoc] at hlive'
  rcases hlive'.cut with ⟨x, hleft, -⟩ | ⟨t₁, t₂, -, -, -, hfront, -⟩ | ⟨x, rfl, hright⟩
  · have hlength := congrArg (fun pieces => (textOf pieces).length) hleft.eq
    simp only [textOf_append, List.length_append] at hlength
    omega
  · have hlength := congrArg (fun pieces => (textOf pieces).length) hfront
    simp only [textOf_append, List.length_append] at hlength
    omega
  · have hx : textOf x ≠ [] := by
      intro hx
      rw [textOf_append, hx, List.append_nil] at hlater
      omega
    obtain ⟨y, hback⟩ := hright.behind_token hlive.reads hx
    exact hquiet _ _ _ _ hback

/-- What a line that is no calendar line says, by its pieces. -/
theorem parseLine_eq (h : Scanned line pieces rest) (hcalendar : holds calendarMarker line = false) (day : Option Day) :
    parseLine line day =
      if (lastToken line (scanOf line pieces rest).excluded).isSome ∨ (lastId pieces).isSome then
        some { id := lastId pieces
               token := lastToken line (scanOf line pieces rest).excluded
               task := (taskOf line).map Prod.fst
               due := (lastToken line (scanOf line pieces rest).excluded).bind fun token => token.when_.due day }
      else none := by
  unfold parseLine readLine
  rw [h.scanInline, hcalendar]
  rfl

/-- A line whose last token that counts is known reads as a reminder with it. -/
theorem parseLine_of_live {front back : List Piece} {inner : Text} {when_ : When} (h : Scanned line pieces rest)
    (hcalendar : holds calendarMarker line = false) (hlive : Live pieces front inner when_ back) (hquiet : Quiet back)
    (day : Option Day) :
    parseLine line day =
      some { id := lastId pieces
             token := some (tokenAt line (textOf front).length ((textOf front).length + 2 + inner.length + 1) when_)
             task := (taskOf line).map Prod.fst
             due := when_.due day } := by
  rw [parseLine_eq h hcalendar, lastToken_of_live h hlive hquiet, if_pos (Or.inl (by rfl))]
  rfl

/-- A line without a token that counts is a reminder just for its id. -/
theorem parseLine_of_quiet (h : Scanned line pieces rest) (hcalendar : holds calendarMarker line = false)
    (hquiet : Quiet pieces) (day : Option Day) :
    parseLine line day = (lastId pieces).map fun id => ⟨some id, none, (taskOf line).map Prod.fst, none⟩ := by
  rw [parseLine_eq h hcalendar, lastToken_of_quiet h hquiet]
  cases lastId pieces <;> rfl

end Line

end Thock.SyncCore.Reminder
