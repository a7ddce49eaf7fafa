import Thock.Desk.BridgeTools
import Thock.Lib.Occurrence
import Thock.Lib.TextBytes
import Thock.SyncCore.NoteScan

/-!
# Secrets among words

The shapes a remembered line is refused for: tokens of known forms, a keyword with its value, runs of
digits as long as an account number, and the topics a profile forbids. All but the digits are found
whatever stands around them. Runs of digits meet across single spaces, so a number beside a card
number makes one run that is too long to be taken for either.
-/

namespace Thock.Desk.Bridge

open TextScan SyncCore

/-! ## Tokens -/

def isTokenBreak (c : Char) : Bool := isWhitespace c || c ∈ "\"'`(),;".toList

def credentialTokens (text : Text) : List Text := text.splitOnP isTokenBreak

def isAsciiHexdigit (c : Char) : Bool := c.isDigit || ('a' ≤ c && c ≤ 'f') || ('A' ≤ c && c ≤ 'F')

def isIban (token : Text) : Bool :=
  let bare := (token.dropWhile fun c => !c.isAlphanum).rdropWhile fun c => !c.isAlphanum
  15 ≤ (asBytes bare).length && (asBytes bare).length ≤ 34 &&
    match bare with
    | country :: code :: check :: digit :: account =>
      country.isUpper && code.isUpper && check.isDigit && digit.isDigit && account.all Char.isAlphanum &&
        account.any Char.isDigit
    | _ => false

/-- What a token looks like; the bare runs count only where the look is strict. -/
def tokenKind (strict : Bool) (token : Text) : Option Text :=
  if (asBytes token).length < 12 then none
  else if ["sk-", "ghp_", "AKIA"].any fun start => start.toList.isPrefixOf token then some "an API token".toList
  else if ["xoxa-", "xoxb-", "xoxp-"].any fun start => start.toList.isPrefixOf token then some "an API token".toList
  else if !strict then none
  else if 32 ≤ (asBytes token).length && token.all isAsciiHexdigit then some "a key".toList
  else if 32 ≤ (asBytes token).length && (token.all fun c => c.isAlphanum || c ∈ "+/=_-".toList) &&
      token.any Char.isDigit && token.any Char.isUpper && token.any Char.isLower then some "a key".toList
  else if isIban token then some "an account number".toList
  else none

/-! ## Keywords -/

def credentialKeywords : List Text :=
  ["password", "passwd", "secret", "token", "api_key", "api-key", "api key", "apikey"].map String.toList

/-- Whether a value follows: a colon or an equals sign comes first, white space aside. -/
def Valued (after : Text) : Prop := (trimStart after).head? = some ':' ∨ (trimStart after).head? = some '='

instance (after : Text) : Decidable (Valued after) := inferInstanceAs (Decidable (_ ∨ _))

/-- The search for a keyword with its value, one occurrence after the other. -/
def keywordValuedFrom (keyword : Text) : ℕ → Text → Bool
  | 0, _ => false
  | fuel + 1, lower =>
    match splitFirst keyword lower with
    | none => false
    | some (_, after) => Valued after || keywordValuedFrom keyword fuel after

def keywordValued (lower : Text) : Bool :=
  credentialKeywords.any fun keyword => keywordValuedFrom keyword lower.length lower

/-! ## Digits -/

/-- The length of an account or card number. -/
def LongRun (digits : ℕ) : Prop := 13 ≤ digits ∧ digits ≤ 19

instance (digits : ℕ) : Decidable (LongRun digits) := inferInstanceAs (Decidable (_ ∧ _))

/-- The scan for a long run: the digits so far, and whether a separator came after them. -/
def hasLongDigitRunFrom : ℕ → Bool → Text → Bool
  | digits, _, [] => LongRun digits
  | digits, separated, c :: rest =>
    if c.isDigit then hasLongDigitRunFrom (digits + 1) false rest
    else if (c = ' ' ∨ c = '-') ∧ 0 < digits ∧ separated = false then hasLongDigitRunFrom digits true rest
    else if LongRun digits then true
    else hasLongDigitRunFrom 0 false rest

def hasLongDigitRun (text : Text) : Bool := hasLongDigitRunFrom 0 false text

/-! ## The shapes -/

def credentialShape (prim : Primitives) (text : Text) (strict : Bool) : Option Text :=
  match (credentialTokens text).findSome? (tokenKind strict) with
  | some kind => some kind
  | none =>
    if keywordValued (prim.lowercase text) then some "a secret".toList
    else if strict && hasLongDigitRun text then some "an account or card number".toList
    else none

def looksLikeCredential (prim : Primitives) (text : Text) : Option Text := credentialShape prim text true

/-- A host that looks for the credential shapes. -/
def Host.careful (host : Host) : Host :=
  { host with looksLikeCredential := Bridge.looksLikeCredential host.prim }

/-- What the string library promises: a space is no letter, and white space parts what is lowercased. -/
structure Spaced (prim : Primitives) : Prop where
  alphanumeric : prim.isAlphanumeric ' ' = false
  lowercase : ∀ a b, prim.lowercase (a ++ ' ' :: b) = prim.lowercase a ++ ' ' :: prim.lowercase b

/-- What a line is refused for beside its digits. -/
def Named (host : Host) (forbidden : List Text) (text : Text) : Prop :=
  (∃ token ∈ credentialTokens text, tokenKind true token ≠ none) ∨ keywordValued (host.prim.lowercase text) = true ∨
    ∃ topic ∈ forbidden, topic ∈ words host text

/-! ## Keywords in context -/

theorem Valued.append {after : Text} (h : Valued after) (rest : Text) : Valued (after ++ rest) := by
  have hblank : ¬Blank after := by
    intro hblank
    rw [Valued, blank_iff_trimStart.mp hblank] at h
    rcases h with h | h <;> cases h
  rw [Valued, trimStart_append hblank]
  cases htrim : trimStart after with
  | nil => exact absurd (blank_iff_trimStart.mpr htrim) hblank
  | cons c more =>
    rw [Valued, htrim] at h
    exact h

/-- The search meets every occurrence of a keyword whose first letter it does not repeat. -/
theorem keywordValuedFrom_iff {c : Char} {p' : Text} (hc : c ∉ p') {fuel : ℕ} {lower : Text} (hfuel : lower.length ≤ fuel) :
    keywordValuedFrom (c :: p') fuel lower = true ↔ ∃ a b, lower = a ++ c :: p' ++ b ∧ Valued b := by
  induction fuel generalizing lower with
  | zero =>
    obtain rfl := List.length_eq_zero_iff.mp (Nat.le_zero.mp hfuel)
    constructor
    · intro h
      cases h
    · rintro ⟨a, b, h, -⟩
      simp at h
  | succ fuel ih =>
    rw [keywordValuedFrom]
    cases hsplit : splitFirst (c :: p') lower with
    | none =>
      constructor
      · intro h
        cases h
      · rintro ⟨a, b, rfl, -⟩
        exact absurd ⟨a, b, rfl⟩ (splitFirst_none.mp hsplit)
    | some r =>
      obtain ⟨before, after⟩ := r
      have htext := splitFirst_eq hsplit
      have hshort : after.length ≤ fuel := by
        rw [htext] at hfuel
        simp only [List.length_append, List.length_cons] at hfuel
        omega
      dsimp only
      rw [Bool.or_eq_true, decide_eq_true_iff, ih hshort]
      constructor
      · rintro (hvalued | ⟨a, b, rfl, hvalued⟩)
        · exact ⟨before, after, htext, hvalued⟩
        · exact ⟨before ++ c :: p' ++ a, b, by rw [htext]; simp, hvalued⟩
      · rintro ⟨a, b, hab, hvalued⟩
        have hle : before.length ≤ a.length := splitFirst_le hsplit hab
        rw [htext, List.append_assoc, List.append_assoc] at hab
        obtain ⟨x, rfl⟩ : ∃ x, a = before ++ x :=
          (List.prefix_of_prefix_length_le (List.prefix_append before _) (hab ▸ List.prefix_append a _) hle).imp
            fun _ => Eq.symm
        rw [List.append_assoc] at hab
        have hbehind := List.append_cancel_left hab
        rw [← List.append_assoc x] at hbehind
        rcases occurrence_after hc hbehind with ⟨-, rfl⟩ | ⟨more, -, hafter⟩
        · exact Or.inl hvalued
        · exact Or.inr ⟨more, b, hafter, hvalued⟩

theorem credentialKeywords_single : ∀ keyword ∈ credentialKeywords, ∃ c p', keyword = c :: p' ∧ c ∉ p' := by
  simp only [credentialKeywords, List.map_cons, List.map_nil, List.forall_mem_cons]
  exact ⟨⟨'p', _, rfl, by decide⟩, ⟨'p', _, rfl, by decide⟩, ⟨'s', _, rfl, by decide⟩, ⟨'t', _, rfl, by decide⟩,
    ⟨'a', _, rfl, by decide⟩, ⟨'a', _, rfl, by decide⟩, ⟨'a', _, rfl, by decide⟩, ⟨'a', _, rfl, by decide⟩,
    fun _ h => absurd h List.not_mem_nil⟩

theorem keywordValued_iff {lower : Text} :
    keywordValued lower = true ↔ ∃ keyword ∈ credentialKeywords, ∃ a b, lower = a ++ keyword ++ b ∧ Valued b := by
  rw [keywordValued, List.any_eq_true]
  refine exists_congr fun keyword => and_congr_right fun hmem => ?_
  obtain ⟨c, p', rfl, hc⟩ := credentialKeywords_single keyword hmem
  exact keywordValuedFrom_iff hc le_rfl

/-- A keyword with its value is found whatever comes before and after. -/
theorem keywordValued_append {lower : Text} (h : keywordValued lower = true) (front back : Text) :
    keywordValued (front ++ lower ++ back) = true := by
  obtain ⟨keyword, hmem, a, b, rfl, hvalued⟩ := keywordValued_iff.mp h
  exact keywordValued_iff.mpr ⟨keyword, hmem, front ++ a, b ++ back, by simp, hvalued.append back⟩

/-! ## Runs of digits -/

/-- The runs of digits of a text: those that ended, the digits of the last one, and whether a
separator stands behind it. -/
structure DigitRuns where
  closed : List ℕ
  digits : ℕ
  separated : Bool
deriving DecidableEq, Repr

def DigitRuns.all (runs : DigitRuns) : List ℕ := runs.closed ++ [runs.digits]

def digitRunsFrom : ℕ → Bool → Text → DigitRuns
  | digits, separated, [] => ⟨[], digits, separated⟩
  | digits, separated, c :: rest =>
    if c.isDigit then digitRunsFrom (digits + 1) false rest
    else if (c = ' ' ∨ c = '-') ∧ 0 < digits ∧ separated = false then digitRunsFrom digits true rest
    else { digitRunsFrom 0 false rest with closed := digits :: (digitRunsFrom 0 false rest).closed }

def digitRuns (text : Text) : DigitRuns := digitRunsFrom 0 false text

/-- The first run has more digits before it. -/
def DigitRuns.grow (more : ℕ) (runs : DigitRuns) : DigitRuns :=
  match runs.closed with
  | [] => { runs with digits := runs.digits + more }
  | first :: rest => { runs with closed := (first + more) :: rest }

/-- Two texts' runs where the texts meet at a space: a run that ends the first and one that begins
the second are one. -/
def DigitRuns.meet (runs later : DigitRuns) : DigitRuns :=
  if 0 < runs.digits ∧ runs.separated = false then
    { later.grow runs.digits with closed := runs.closed ++ (later.grow runs.digits).closed }
  else { later with closed := runs.closed ++ runs.digits :: later.closed }

theorem hasLongDigitRunFrom_iff (digits : ℕ) (separated : Bool) (text : Text) :
    hasLongDigitRunFrom digits separated text = true ↔ ∃ n ∈ (digitRunsFrom digits separated text).all, LongRun n := by
  induction text generalizing digits separated with
  | nil => simp [hasLongDigitRunFrom, digitRunsFrom, DigitRuns.all]
  | cons c rest ih =>
    rw [hasLongDigitRunFrom, digitRunsFrom]
    split
    · exact ih _ _
    · split
      · exact ih _ _
      · rw [DigitRuns.all, List.cons_append, List.exists_mem_cons_iff, ← DigitRuns.all, ← ih]
        split
        · next hlong => exact iff_of_true rfl (Or.inl hlong)
        · next hlong => exact (or_iff_right hlong).symm

theorem hasLongDigitRun_iff (text : Text) : hasLongDigitRun text = true ↔ ∃ n ∈ (digitRuns text).all, LongRun n :=
  hasLongDigitRunFrom_iff 0 false text

theorem digitRunsFrom_append (digits : ℕ) (separated : Bool) (a b : Text) :
    digitRunsFrom digits separated (a ++ b) =
      { digitRunsFrom (digitRunsFrom digits separated a).digits (digitRunsFrom digits separated a).separated b with
        closed := (digitRunsFrom digits separated a).closed ++
          (digitRunsFrom (digitRunsFrom digits separated a).digits
            (digitRunsFrom digits separated a).separated b).closed } := by
  induction a generalizing digits separated with
  | nil => rfl
  | cons c a ih =>
    rw [List.cons_append, digitRunsFrom, digitRunsFrom]
    split
    · exact ih _ _
    · split
      · exact ih _ _
      · rw [ih]
        rfl

/-- More digits before a run that has begun. -/
theorem digitRunsFrom_add (more : ℕ) {digits : ℕ} (hpos : 0 < digits) (separated : Bool) (text : Text) :
    digitRunsFrom (digits + more) separated text = (digitRunsFrom digits separated text).grow more := by
  induction text generalizing digits separated with
  | nil => rfl
  | cons c rest ih =>
    rw [digitRunsFrom, digitRunsFrom]
    split
    · rw [show digits + more + 1 = digits + 1 + more by omega]
      exact ih (Nat.succ_pos digits) false
    · by_cases hsep : (c = ' ' ∨ c = '-') ∧ separated = false
      · rw [if_pos ⟨hsep.1, by omega, hsep.2⟩, if_pos ⟨hsep.1, hpos, hsep.2⟩]
        exact ih hpos true
      · rw [if_neg fun h => hsep ⟨h.1, h.2.2⟩, if_neg fun h => hsep ⟨h.1, h.2.2⟩]
        rfl

/-- Behind a separator a text goes on with the run before it. -/
theorem digitRunsFrom_separated (digits : ℕ) {text : Text} (hne : text ≠ []) :
    digitRunsFrom digits true text = (digitRuns text).grow digits := by
  cases text with
  | nil => exact absurd rfl hne
  | cons c rest =>
    rw [digitRuns, digitRunsFrom, digitRunsFrom]
    split
    · rw [Nat.add_comm]
      exact digitRunsFrom_add digits Nat.one_pos false rest
    · rw [if_neg fun h => Bool.noConfusion h.2.2, if_neg fun h => absurd h.2.1 (Nat.lt_irrefl 0)]
      dsimp only [DigitRuns.grow]
      rw [Nat.zero_add]

theorem digitRuns_meet (a : Text) {b : Text} (hne : b ≠ []) :
    digitRuns (a ++ ' ' :: b) = (digitRuns a).meet (digitRuns b) := by
  rw [digitRuns, digitRunsFrom_append, ← digitRuns, digitRunsFrom, if_neg (by decide), DigitRuns.meet]
  by_cases hopen : 0 < (digitRuns a).digits ∧ (digitRuns a).separated = false
  · rw [if_pos ⟨Or.inl rfl, hopen⟩, if_pos hopen, digitRunsFrom_separated _ hne]
  · rw [if_neg fun h => hopen h.2, if_neg hopen]
    rfl

/-! ## Words around a text -/

/-- Two texts with a single space between them. -/
def spaced (a b : Text) : Text := a ++ ' ' :: b

theorem credentialTokens_spaced (a b : Text) :
    credentialTokens (spaced a b) = credentialTokens a ++ credentialTokens b :=
  List.splitOnP_append_cons a b (by decide)

theorem words_spaced {host : Host} (hspaced : Spaced host.prim) (a b : Text) :
    words host (spaced a b) = words host a ++ words host b := by
  have hbreak : (!host.prim.isAlphanumeric ' ') = true := by rw [hspaced.alphanumeric]; rfl
  rw [words, spaced, List.splitOnP_append_cons a b hbreak, List.filter_append, List.map_append]
  rfl

/-- A text named among words is named still. -/
theorem Named.left {host : Host} {forbidden : List Text} {a : Text} (h : Named host forbidden a)
    (hspaced : Spaced host.prim) (b : Text) : Named host forbidden (spaced a b) := by
  rcases h with ⟨token, htoken, hkind⟩ | hkeyword | ⟨topic, hmem, htopic⟩
  · exact Or.inl ⟨token, by rw [credentialTokens_spaced]; exact List.mem_append_left _ htoken, hkind⟩
  · have happend := keywordValued_append hkeyword [] (' ' :: host.prim.lowercase b)
    rw [List.nil_append, ← hspaced.lowercase] at happend
    exact Or.inr (Or.inl happend)
  · exact Or.inr (Or.inr ⟨topic, hmem, by rw [words_spaced hspaced]; exact List.mem_append_left _ htopic⟩)

theorem Named.right {host : Host} {forbidden : List Text} {b : Text} (h : Named host forbidden b)
    (hspaced : Spaced host.prim) (a : Text) : Named host forbidden (spaced a b) := by
  rcases h with ⟨token, htoken, hkind⟩ | hkeyword | ⟨topic, hmem, htopic⟩
  · exact Or.inl ⟨token, by rw [credentialTokens_spaced]; exact List.mem_append_right _ htoken, hkind⟩
  · have happend := keywordValued_append hkeyword (host.prim.lowercase a ++ [' ']) []
    rw [List.append_nil, List.append_assoc, List.singleton_append, ← hspaced.lowercase] at happend
    exact Or.inr (Or.inl happend)
  · exact Or.inr (Or.inr ⟨topic, hmem, by rw [words_spaced hspaced]; exact List.mem_append_right _ htopic⟩)

/-- What a line of words is named for is in one of its parts, or a keyword and its value meet in it. -/
theorem named_spaced_iff {host : Host} {forbidden : List Text} (hspaced : Spaced host.prim) (a b : Text) :
    Named host forbidden (spaced a b) ↔ (Named host forbidden a ∨ Named host forbidden b) ∨
      keywordValued (host.prim.lowercase (spaced a b)) = true := by
  constructor
  · rintro (⟨token, htoken, hkind⟩ | hkeyword | ⟨topic, hmem, htopic⟩)
    · rw [credentialTokens_spaced] at htoken
      exact Or.inl ((List.mem_append.mp htoken).imp (fun h => Or.inl ⟨token, h, hkind⟩) fun h => Or.inl ⟨token, h, hkind⟩)
    · exact Or.inr hkeyword
    · rw [words_spaced hspaced] at htopic
      exact Or.inl ((List.mem_append.mp htopic).imp (fun h => Or.inr (Or.inr ⟨topic, hmem, h⟩))
        fun h => Or.inr (Or.inr ⟨topic, hmem, h⟩))
  · rintro ((h | h) | h)
    · exact h.left hspaced b
    · exact h.right hspaced a
    · exact Or.inr (Or.inl h)

theorem looksLikeCredential_none {prim : Primitives} {text : Text} :
    looksLikeCredential prim text = none ↔ (∀ token ∈ credentialTokens text, tokenKind true token = none) ∧
      keywordValued (prim.lowercase text) = false ∧ hasLongDigitRun text = false := by
  rw [looksLikeCredential, credentialShape]
  cases hkind : (credentialTokens text).findSome? (tokenKind true) with
  | some kind =>
    obtain ⟨token, hmem, htoken⟩ := List.exists_of_findSome?_eq_some hkind
    constructor
    · intro h
      cases h
    · intro h
      rw [h.1 token hmem] at htoken
      cases htoken
  | none =>
    rw [List.findSome?_eq_none_iff] at hkind
    dsimp only
    rw [and_iff_right hkind]
    cases keywordValued (prim.lowercase text) <;> cases hasLongDigitRun text <;> decide

/-- A line in shape is refused for what it is named for, or for its digits. -/
theorem checkFact_refuses_iff {host : Host} {forbidden : List Text} {line : Text} (htrim : trim line = line) (hne : line ≠ [])
    (hone : '\n' ∉ line ∧ '\r' ∉ line) (hlength : line.length ≤ factMaxChars)
    (hbullet : ¬"- ".toList <+: line ∧ ¬"* ".toList <+: line) :
    (∃ refusal, checkFact host.careful line forbidden = .error refusal) ↔
      Named host forbidden line ∨ hasLongDigitRun line = true := by
  have hlooks : host.careful.looksLikeCredential line = looksLikeCredential host.prim line := rfl
  have hwords : words host.careful line = words host line := rfl
  rw [checkFact, htrim, if_neg (by simpa using hne), if_neg (by simpa using hone), if_neg (Nat.not_lt.mpr hlength),
    if_neg (by simpa [List.isPrefixOf_iff_prefix] using hbullet), hlooks, hwords]
  cases hcredential : looksLikeCredential host.prim line with
  | some kind =>
    refine iff_of_true ⟨_, rfl⟩ ?_
    by_contra hnot
    rw [Named, not_or, not_or, not_or] at hnot
    obtain ⟨⟨htokens, hkeyword, -⟩, hdigits⟩ := hnot
    have hnone := looksLikeCredential_none.mpr ⟨fun token hmem => ?_, Bool.not_eq_true _ ▸ hkeyword, Bool.not_eq_true _ ▸ hdigits⟩
    · rw [hcredential] at hnone
      cases hnone
    · by_contra hkind
      exact htokens ⟨token, hmem, hkind⟩
  | none =>
    obtain ⟨htokens, hkeyword, hdigits⟩ := looksLikeCredential_none.mp hcredential
    have htoken : ¬∃ token ∈ credentialTokens line, tokenKind true token ≠ none := fun ⟨token, hmem, hkind⟩ =>
      hkind (htokens token hmem)
    rw [Named, hkeyword, hdigits, or_iff_right htoken, or_iff_right Bool.false_ne_true, or_iff_left Bool.false_ne_true]
    dsimp only
    cases hfind : forbidden.find? fun topic => topic ∈ words host line with
    | some topic =>
      have htopic := List.find?_some hfind
      exact iff_of_true ⟨_, rfl⟩ ⟨topic, List.mem_of_find?_eq_some hfind, decide_eq_true_iff.mp htopic⟩
    | none =>
      refine iff_of_false (fun ⟨refusal, h⟩ => by cases h) fun ⟨topic, hmem, htopic⟩ => ?_
      exact absurd (decide_eq_true_iff.mpr htopic) (List.find?_eq_none.mp hfind topic hmem)

theorem trim_spaced_words {p q : Text} (t : Text) (hp : p ≠ [] ∧ Unindented p) (hq : q ≠ [] ∧ Untrailed q) :
    trim (spaced p (spaced t q)) = spaced p (spaced t q) := by
  apply trim_of_tight
  · intro c hc
    rw [spaced, List.head?_append_of_ne_nil _ hp.1] at hc
    exact hp.2 c hc
  · intro c hc
    have hlast : (spaced p (spaced t q)).getLast? = q.getLast? := by
      have hassoc : spaced p (spaced t q) = p ++ ' ' :: t ++ [' '] ++ q := by simp [spaced]
      rw [hassoc, List.getLast?_append_of_ne_nil _ hq.1]
    rw [hlast] at hc
    exact hq.2 c hc

/-- A line of words around a text is refused just when one of its parts is named, a keyword and its
value meet in it, or one of its runs of digits, met across the spaces, is as long as an account number. -/
theorem secret_among_words {host : Host} (hspaced : Spaced host.prim) {forbidden : List Text} {p t q : Text}
    (hp : p ≠ [] ∧ Unindented p) (hq : q ≠ [] ∧ Untrailed q)
    (hone : '\n' ∉ spaced p (spaced t q) ∧ '\r' ∉ spaced p (spaced t q))
    (hlength : (spaced p (spaced t q)).length ≤ factMaxChars)
    (hbullet : ¬"- ".toList <+: spaced p (spaced t q) ∧ ¬"* ".toList <+: spaced p (spaced t q)) :
    (∃ refusal, checkFact host.careful (spaced p (spaced t q)) forbidden = .error refusal) ↔
      (Named host forbidden p ∨ Named host forbidden t ∨ Named host forbidden q) ∨
        keywordValued (host.prim.lowercase (spaced p (spaced t q))) = true ∨
        ∃ digits ∈ ((digitRuns p).meet ((digitRuns t).meet (digitRuns q))).all, LongRun digits := by
  have hne : spaced p (spaced t q) ≠ [] := List.append_ne_nil_of_left_ne_nil hp.1 _
  have hruns : digitRuns (spaced p (spaced t q)) = (digitRuns p).meet ((digitRuns t).meet (digitRuns q)) := by
    rw [spaced, digitRuns_meet p (b := spaced t q) (List.append_ne_nil_of_right_ne_nil _ (List.cons_ne_nil _ _)), spaced,
      digitRuns_meet t hq.1]
  rw [checkFact_refuses_iff (trim_spaced_words t hp hq) hne hone hlength hbullet, hasLongDigitRun_iff, hruns,
    named_spaced_iff hspaced]
  constructor
  · rintro (((hnamed | hnamed) | hkeyword) | hdigits)
    · exact Or.inl (Or.inl hnamed)
    · rcases (named_spaced_iff hspaced t q).mp hnamed with (hnamed | hnamed) | hkeyword
      · exact Or.inl (Or.inr (Or.inl hnamed))
      · exact Or.inl (Or.inr (Or.inr hnamed))
      · have happend := keywordValued_append hkeyword (host.prim.lowercase p ++ [' ']) []
        rw [List.append_nil, List.append_assoc, List.singleton_append, ← hspaced.lowercase] at happend
        exact Or.inr (Or.inl happend)
    · exact Or.inr (Or.inl hkeyword)
    · exact Or.inr (Or.inr hdigits)
  · rintro ((hnamed | hnamed | hnamed) | hkeyword | hdigits)
    · exact Or.inl (Or.inl (Or.inl hnamed))
    · exact Or.inl (Or.inl (Or.inr (hnamed.left hspaced q)))
    · exact Or.inl (Or.inl (Or.inr (hnamed.right hspaced t)))
    · exact Or.inl (Or.inr hkeyword)
    · exact Or.inr hdigits

/-! ## A card number and a year -/

/-- A desk with a small alphabet and an empty vault. -/
def plainHost : Host where
  prim := asciiPrimitives
  looksLikeCredential := fun _ => none
  forbiddenTopics := fun _ => []
  dayOf := fun _ => ⟨2026, 7, 19, by decide, by decide, by decide⟩
  dayNumber := fun _ => 0
  writeDay := fun _ => []
  parseDay := fun _ => none
  dailyPath := fun _ => "daily.md".toList
  templatePath := "template.md".toList
  expandTemplate := fun template _ _ => template
  todayHeading := "Agents".toList

theorem plainHost_spaced : Spaced plainHost.prim where
  alphanumeric := by decide
  lowercase := fun a b => by simp [plainHost, asciiPrimitives]

theorem secret_among_words_card :
    (∃ refusal, checkFact plainHost.careful (spaced "card".toList (spaced "4111 1111 1111 1111".toList "expired".toList)) [] =
        .error refusal) ↔
      (Named plainHost [] "card".toList ∨ Named plainHost [] "4111 1111 1111 1111".toList ∨
          Named plainHost [] "expired".toList) ∨
        keywordValued (plainHost.prim.lowercase
          (spaced "card".toList (spaced "4111 1111 1111 1111".toList "expired".toList))) = true ∨
        ∃ digits ∈ ((digitRuns "card".toList).meet
          ((digitRuns "4111 1111 1111 1111".toList).meet (digitRuns "expired".toList))).all, LongRun digits :=
  secret_among_words plainHost_spaced (by decide) (by decide) (by decide) (by decide) (by decide)

/-- A card number is refused, and let through with the year it expires. -/
theorem card_with_year_kept :
    ¬∀ (forbidden : List Text) (p t q : Text), p ≠ [] ∧ Unindented p → q ≠ [] ∧ Untrailed q →
      '\n' ∉ spaced p (spaced t q) ∧ '\r' ∉ spaced p (spaced t q) → (spaced p (spaced t q)).length ≤ factMaxChars →
      ¬"- ".toList <+: spaced p (spaced t q) ∧ ¬"* ".toList <+: spaced p (spaced t q) →
      (∃ kind, checkFact plainHost.careful t forbidden = .error (.credential kind)) ∨
        (∃ topic, checkFact plainHost.careful t forbidden = .error (.forbiddenTopic topic)) →
      ∃ refusal, checkFact plainHost.careful (spaced p (spaced t q)) forbidden = .error refusal := by
  intro h
  have hcard : checkFact plainHost.careful "4111 1111 1111 1111".toList [] =
      .error (.credential "an account or card number".toList) := by
    decide +kernel
  obtain ⟨refusal, hrefusal⟩ := h [] "card".toList "4111 1111 1111 1111".toList "2028".toList (by decide) (by decide)
    (by decide) (by decide) (by decide) (Or.inl ⟨_, hcard⟩)
  have hkept : checkFact plainHost.careful (spaced "card".toList (spaced "4111 1111 1111 1111".toList "2028".toList)) [] =
      .ok "card 4111 1111 1111 1111 2028".toList := by
    decide +kernel
  rw [hkept] at hrefusal
  cases hrefusal

end Thock.Desk.Bridge
