import Thock.Lib.Occurrence

/-!
# Tokens in a text

A template engine over any pair of delimiters: the text is read from the left, each opening
delimiter takes the closing one next behind it, and what stands between the two is replaced.

Expanding is local: the tokens of a text decide what becomes of it, and a text whose tokens stand
on single lines expands line by line.
-/

namespace TextScan

variable {opening closing : Text}

/-- The text before the first token, the token, and the text behind it. -/
def cutToken (opening closing t : Text) : Option (Text × Text × Text) :=
  (splitFirst opening t).bind fun (before, after) =>
    (splitFirst closing after).map fun (token, rest) => (before, token, rest)

/-- The walk over the tokens of a text, from the last one back. -/
def foldTokens {β : Type*} (opening closing : Text) (stop : Text → β) (step : Text → Text → β → β) : ℕ → Text → β
  | 0, t => stop t
  | fuel + 1, t =>
    match cutToken opening closing t with
    | none => stop t
    | some (before, token, rest) => step before token (foldTokens opening closing stop step fuel rest)

/-- The text with every token replaced. -/
def expandTokens (opening closing : Text) (f : Text → Text) (t : Text) : Text :=
  foldTokens opening closing id (fun before token rest => before ++ f token ++ rest) t.length t

/-- The tokens of a text. -/
def tokensOf (opening closing t : Text) : List Text :=
  foldTokens opening closing (fun _ => []) (fun _ token rest => token :: rest) t.length t

/-! ## One token -/

theorem cutToken_eq {t before token rest : Text} (h : cutToken opening closing t = some (before, token, rest)) :
    t = before ++ opening ++ (token ++ closing ++ rest) := by
  obtain ⟨⟨before', after⟩, hopen, hclose⟩ := Option.bind_eq_some_iff.mp h
  obtain ⟨⟨token', rest'⟩, hsplit, heq⟩ := Option.map_eq_some_iff.mp hclose
  cases heq
  rw [splitFirst_eq hopen, splitFirst_eq hsplit]

theorem cutToken_shorter (hopen : opening ≠ []) {t before token rest : Text}
    (h : cutToken opening closing t = some (before, token, rest)) : rest.length < t.length := by
  have hpos := List.length_pos_iff.mpr hopen
  rw [cutToken_eq h]
  simp only [List.length_append]
  omega

/-- The scan of a text, token after token. -/
theorem token_induction (closing : Text) (hopen : opening ≠ []) {motive : Text → Prop}
    (none : ∀ t, cutToken opening closing t = none → motive t)
    (some : ∀ t before token rest, cutToken opening closing t = some (before, token, rest) → motive rest → motive t)
    (t : Text) : motive t := by
  generalize hlen : t.length = n
  induction n using Nat.strong_induction_on generalizing t with
  | _ n ih =>
    subst hlen
    cases hcut : cutToken opening closing t with
    | none => exact none t hcut
    | some r =>
      obtain ⟨before, token, rest⟩ := r
      exact some t before token rest hcut (ih _ (cutToken_shorter hopen hcut) rest rfl)

section Walk

variable {β : Type*} {stop : Text → β} {step : Text → Text → β → β}

theorem foldTokens_none {t : Text} (h : cutToken opening closing t = none) (fuel : ℕ) :
    foldTokens opening closing stop step fuel t = stop t := by
  cases fuel with
  | zero => rfl
  | succ fuel => rw [foldTokens, h]

/-- Every walk that has the length of a text to go goes through all its tokens. -/
theorem foldTokens_fuel (hopen : opening ≠ []) (t : Text) {fuel : ℕ} (hfuel : t.length ≤ fuel) :
    foldTokens opening closing stop step fuel t = foldTokens opening closing stop step t.length t := by
  induction t using token_induction closing hopen generalizing fuel with
  | none t hcut => rw [foldTokens_none hcut, foldTokens_none hcut]
  | some t before token rest hcut ih =>
    have hshorter := cutToken_shorter hopen hcut
    obtain ⟨n, hn⟩ := Nat.exists_eq_add_of_lt hshorter
    obtain ⟨m, rfl⟩ := Nat.exists_eq_add_of_lt (Nat.lt_of_lt_of_le hshorter hfuel)
    rw [hn, foldTokens, foldTokens, hcut]
    dsimp only
    have hrest : ∀ n, rest.length ≤ n → foldTokens opening closing stop step n rest =
        foldTokens opening closing stop step rest.length rest := fun n hn => ih hn
    rw [hrest (rest.length + m) (by omega), hrest (rest.length + n) (by omega)]

theorem foldTokens_some (hopen : opening ≠ []) {t before token rest : Text}
    (h : cutToken opening closing t = some (before, token, rest)) :
    foldTokens opening closing stop step t.length t =
      step before token (foldTokens opening closing stop step rest.length rest) := by
  obtain ⟨n, hn⟩ := Nat.exists_eq_add_of_lt (cutToken_shorter hopen h)
  rw [hn, foldTokens, h]
  dsimp only
  rw [foldTokens_fuel hopen rest (by omega)]

end Walk

/-! ## Expanding -/

theorem expandTokens_none (f : Text → Text) {t : Text} (h : cutToken opening closing t = none) :
    expandTokens opening closing f t = t := foldTokens_none h _

theorem expandTokens_some (hopen : opening ≠ []) (f : Text → Text) {t before token rest : Text}
    (h : cutToken opening closing t = some (before, token, rest)) :
    expandTokens opening closing f t = before ++ f token ++ expandTokens opening closing f rest :=
  foldTokens_some hopen h

theorem tokensOf_none {t : Text} (h : cutToken opening closing t = none) : tokensOf opening closing t = [] :=
  foldTokens_none h _

theorem tokensOf_some (hopen : opening ≠ []) {t before token rest : Text}
    (h : cutToken opening closing t = some (before, token, rest)) :
    tokensOf opening closing t = token :: tokensOf opening closing rest := foldTokens_some hopen h

/-- A token stands in the text between its delimiters. -/
theorem infix_of_mem_tokensOf (hopen : opening ≠ []) {t token : Text} (h : token ∈ tokensOf opening closing t) :
    opening ++ token ++ closing <:+: t := by
  induction t using token_induction closing hopen with
  | none t hcut =>
    rw [tokensOf_none hcut] at h
    cases h
  | some t before first rest hcut ih =>
    rw [tokensOf_some hopen hcut] at h
    have htext := cutToken_eq hcut
    rcases List.mem_cons.mp h with rfl | h
    · exact ⟨before, rest, by rw [htext]; simp⟩
    · refine (ih h).trans ⟨before ++ opening ++ (first ++ closing), [], ?_⟩
      rw [htext]
      simp

/-- What becomes of a text is decided by what becomes of its tokens. -/
theorem expandTokens_congr (hopen : opening ≠ []) {f g : Text → Text} {t : Text}
    (h : ∀ token ∈ tokensOf opening closing t, f token = g token) :
    expandTokens opening closing f t = expandTokens opening closing g t := by
  induction t using token_induction closing hopen with
  | none t hcut => rw [expandTokens_none f hcut, expandTokens_none g hcut]
  | some t before token rest hcut ih =>
    rw [tokensOf_some hopen hcut] at h
    rw [expandTokens_some hopen f hcut, expandTokens_some hopen g hcut, h token List.mem_cons_self,
      ih fun other hother => h other (List.mem_cons_of_mem token hother)]

theorem mem_expandTokens (hopen : opening ≠ []) {f : Text → Text} {t : Text} {c : Char}
    (h : c ∈ expandTokens opening closing f t) : c ∈ t ∨ ∃ token ∈ tokensOf opening closing t, c ∈ f token := by
  induction t using token_induction closing hopen with
  | none t hcut =>
    rw [expandTokens_none f hcut] at h
    exact Or.inl h
  | some t before token rest hcut ih =>
    rw [expandTokens_some hopen f hcut] at h
    have htext := cutToken_eq hcut
    rw [tokensOf_some hopen hcut]
    rcases List.mem_append.mp h with h | h
    · rcases List.mem_append.mp h with h | h
      · rw [htext]
        exact Or.inl (by simp [h])
      · exact Or.inr ⟨token, List.mem_cons_self, h⟩
    · rcases ih h with h | ⟨other, hother, h⟩
      · rw [htext]
        exact Or.inl (by simp [h])
      · exact Or.inr ⟨other, List.mem_cons_of_mem token hother, h⟩

/-! ## Line by line -/

/-- A character foreign to a pattern stands before its first occurrence. -/
theorem splitFirst_foreign {p : Text} (hp : p ≠ []) {s : Char} (hs : s ∉ p) (b : Text) :
    splitFirst p (s :: b) = (splitFirst p b).map fun r => (s :: r.1, r.2) := by
  obtain ⟨c, p', rfl⟩ := List.exists_cons_of_ne_nil hp
  have hne : c ∉ [s] := by
    rw [List.mem_singleton]
    rintro rfl
    exact hs List.mem_cons_self
  exact splitFirst_apart (a := [s]) (not_infix_of_not_mem List.mem_cons_self hne) (apart_concat hs [] b)

/-- A token is found with the text behind it. -/
theorem cutToken_append {a before token rest : Text} (h : cutToken opening closing a = some (before, token, rest))
    (b : Text) : cutToken opening closing (a ++ b) = some (before, token, rest ++ b) := by
  obtain ⟨⟨before', after⟩, hfirst, hclose⟩ := Option.bind_eq_some_iff.mp h
  obtain ⟨⟨token', rest'⟩, hsplit, heq⟩ := Option.map_eq_some_iff.mp hclose
  cases heq
  have hhead : opening <:+: a := ⟨before, after, (splitFirst_eq hfirst).symm⟩
  have htail : closing <:+: after := ⟨token, rest, (splitFirst_eq hsplit).symm⟩
  rw [cutToken, splitFirst_of_isInfix hhead, hfirst]
  dsimp only [Option.map_some, Option.bind_some]
  rw [splitFirst_of_isInfix htail, hsplit]
  rfl

section Foreign

variable {s : Char} (hopen : opening ≠ []) (hclose : closing ≠ []) (hs : s ∉ opening) (hs' : s ∉ closing)
include hopen hclose hs hs'

/-- Behind a text without tokens and a foreign character, a token either begins there or holds the
character. -/
theorem cutToken_foreign {a b : Text} (h : cutToken opening closing a = none) :
    cutToken opening closing (a ++ s :: b) = (cutToken opening closing b).map (fun r => (a ++ s :: r.1, r.2)) ∨
      ∃ before token rest, cutToken opening closing (a ++ s :: b) = some (before, token, rest) ∧ s ∈ token ∧
        closing <:+: b := by
  by_cases hhead : opening <:+: a
  · obtain ⟨⟨before, after⟩, hfirst⟩ := Option.ne_none_iff_exists'.mp (mt splitFirst_none.mp (not_not.mpr hhead))
    have hafter : ¬closing <:+: after := by
      rw [cutToken, hfirst] at h
      exact splitFirst_none.mp (Option.map_eq_none_iff.mp h)
    have hsplit : splitFirst closing (after ++ s :: b) =
        (splitFirst closing b).map fun r => (after ++ s :: r.1, r.2) := by
      rw [splitFirst_apart hafter (apart_cons hs' after b), splitFirst_foreign hclose hs', Option.map_map]
      rfl
    have hcut : cutToken opening closing (a ++ s :: b) =
        (splitFirst closing b).map fun r => (before, after ++ s :: r.1, r.2) := by
      rw [cutToken, splitFirst_of_isInfix hhead, hfirst]
      dsimp only [Option.map_some, Option.bind_some]
      rw [hsplit, Option.map_map]
      rfl
    cases hb : splitFirst closing b with
    | none =>
      left
      have hnone : cutToken opening closing b = none := by
        cases hcutb : cutToken opening closing b with
        | none => rfl
        | some r =>
          have hinfix : closing <:+: b :=
            ⟨r.1 ++ opening ++ r.2.1, r.2.2, by rw [@cutToken_eq _ _ _ r.1 r.2.1 r.2.2 hcutb]; simp⟩
          exact absurd hinfix (splitFirst_none.mp hb)
      rw [hcut, hb, hnone]
      rfl
    | some r =>
      right
      refine ⟨before, after ++ s :: r.1, r.2, by rw [hcut, hb]; rfl, by simp, ?_⟩
      exact ⟨r.1, r.2, (@splitFirst_eq _ _ r.1 r.2 hb).symm⟩
  · left
    rw [cutToken, splitFirst_apart hhead (apart_cons hs a b), splitFirst_foreign hopen hs, cutToken]
    cases splitFirst opening b with
    | none => rfl
    | some r =>
      dsimp only [Option.map_some, Option.bind_some]
      rw [Option.map_map]
      rfl

/-- A text is expanded on both sides of a foreign character that no token holds. -/
theorem tokens_append {a b : Text} (h : closing <:+: b → ∀ token ∈ tokensOf opening closing (a ++ s :: b), s ∉ token) :
    (∀ f, expandTokens opening closing f (a ++ s :: b) =
        expandTokens opening closing f a ++ s :: expandTokens opening closing f b) ∧
      tokensOf opening closing (a ++ s :: b) = tokensOf opening closing a ++ tokensOf opening closing b := by
  induction a using token_induction closing hopen with
  | none a hcut =>
    rcases cutToken_foreign hopen hclose hs hs' (b := b) hcut with hnext | ⟨before, token, rest, hnext, hmem, hin⟩
    · cases hb : cutToken opening closing b with
      | none =>
        rw [hb] at hnext
        refine ⟨fun f => ?_, ?_⟩
        · rw [expandTokens_none f hnext, expandTokens_none f hcut, expandTokens_none f hb]
        · rw [tokensOf_none hnext, tokensOf_none hcut, tokensOf_none hb]
          rfl
      | some r =>
        rw [hb] at hnext
        refine ⟨fun f => ?_, ?_⟩
        · rw [expandTokens_some hopen f hnext, expandTokens_none f hcut, expandTokens_some hopen f hb]
          simp
        · rw [tokensOf_some hopen hnext, tokensOf_none hcut, tokensOf_some hopen hb]
          rfl
    · exact absurd hmem (h hin token (by rw [tokensOf_some hopen hnext]; exact List.mem_cons_self))
  | some a before token rest hcut ih =>
    have hnext := cutToken_append hcut (s :: b)
    have hrest := ih fun hin other hother =>
      h hin other (by rw [tokensOf_some hopen hnext]; exact List.mem_cons_of_mem token hother)
    refine ⟨fun f => ?_, ?_⟩
    · rw [expandTokens_some hopen f hnext, expandTokens_some hopen f hcut, hrest.1 f]
      simp
    · rw [tokensOf_some hopen hnext, tokensOf_some hopen hcut, hrest.2]
      rfl

/-- A foreign character at the end of a text stays there. -/
theorem expandTokens_concat (f : Text → Text) (a : Text) :
    expandTokens opening closing f (a ++ [s]) = expandTokens opening closing f a ++ [s] := by
  have hnil : expandTokens opening closing f [] = [] := rfl
  have happend := (tokens_append hopen hclose hs hs' (a := a) (b := []) fun hin => absurd (List.infix_nil.mp hin) hclose).1 f
  rwa [hnil] at happend

end Foreign

/-- A text whose tokens stand on single lines expands line by line. -/
theorem expandTokens_pieces (hopen : opening ≠ []) (hclose : closing ≠ []) (hline : '\n' ∉ opening)
    (hline' : '\n' ∉ closing) (f : Text → Text) {t : Text} (h : ∀ token ∈ tokensOf opening closing t, '\n' ∉ token) :
    expandTokens opening closing f t = joinLines ((pieces t).map (expandTokens opening closing f)) := by
  generalize hlen : t.length = n
  induction n using Nat.strong_induction_on generalizing t with
  | _ n ih =>
    subst hlen
    by_cases hmem : '\n' ∈ t
    · obtain ⟨a, b, rfl, ha⟩ := List.eq_append_cons_of_mem hmem
      obtain ⟨hexpand, htokens⟩ := tokens_append hopen hclose hline hline' fun _ => h
      have hshorter : b.length < (a ++ '\n' :: b).length := by
        rw [List.length_append, List.length_cons]
        omega
      have hb := ih b.length hshorter (t := b) (fun token htoken =>
        h token (by rw [htokens]; exact List.mem_append_right _ htoken)) rfl
      have hne : (pieces b).map (expandTokens opening closing f) ≠ [] := by
        rw [ne_eq, List.map_eq_nil_iff, pieces]
        exact List.splitOn_ne_nil '\n' b
      rw [hexpand f, pieces_append_newline, pieces_of_no_newline ha, List.map_append, hb]
      obtain ⟨first, rest, hcons⟩ := List.exists_cons_of_ne_nil hne
      rw [hcons]
      rfl
    · rw [pieces_of_no_newline hmem]
      simp [joinLines, List.intercalate]

end TextScan
