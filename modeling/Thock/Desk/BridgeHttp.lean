import Thock.Lib.LossyText
import Thock.Lib.Occurrence
import Thock.SyncCore.Markdown
import Mathlib.Data.Nat.Digits.Defs

/-!
# The bridge client's answers

Reading what listens on the desk's port: the status line, the headers, and a body that may be chunked.
Every addition and every slice is checked, so a run that goes out of range has no result.

Chunk sizes are read at full width and added to an offset unchecked by the code: the one fault there is.
-/

namespace Thock.Desk.Bridge

open TextScan

/-! ## Machine words -/

/-- One more than the largest word. -/
def wordLimit : ℕ := 2 ^ 64

/-- The longest an array of bytes can be. -/
def longestSlice : ℕ := 2 ^ 63 - 1

/-- A sum, where it fits a word. -/
def checkedAdd (a b : ℕ) : Option ℕ := if a + b < wordLimit then some (a + b) else none

/-- The bytes from one offset to another, where both are in range. -/
def slice (bytes : Bytes) (start stop : ℕ) : Option Bytes :=
  if start ≤ stop ∧ stop ≤ bytes.length then some ((bytes.take stop).drop start) else none

/-- The offset a pattern is first found at. -/
def position (pattern : Bytes) : Bytes → Option ℕ
  | [] => if pattern.isEmpty then some 0 else none
  | b :: rest => if pattern.isPrefixOf (b :: rest) then some 0 else (position pattern rest).map (· + 1)

def lineBreak : Bytes := [13, 10]

def headBreak : Bytes := [13, 10, 13, 10]

/-! ## Numbers -/

def hexValue (c : Char) : Option ℕ :=
  if c.isDigit then some (c.toNat - 48)
  else if 'a' ≤ c ∧ c ≤ 'f' then some (c.toNat - 87)
  else if 'A' ≤ c ∧ c ≤ 'F' then some (c.toNat - 55)
  else none

def decimalValue (c : Char) : Option ℕ := if c.isDigit then some (c.toNat - 48) else none

/-- A number in a radix, a plus sign allowed, where it is below a limit. -/
def fromStrRadix (radix limit : ℕ) (value : Char → Option ℕ) (text : Text) : Option ℕ :=
  let digits := (stripPrefix ['+'] text).getD text
  if digits.isEmpty then none
  else (digits.mapM value).bind fun values =>
    let number := values.foldl (fun number value => number * radix + value) 0
    if number < limit then some number else none

/-- The size a chunk's line gives; a line that gives none ends the body. -/
def chunkSize (line : Bytes) : ℕ :=
  (fromStrRadix 16 wordLimit hexValue (trim (firstPart [';'] (decodeLossy line)))).getD 0

/-! ## The answer -/

structure HttpResponse where
  status : UInt16
  body : Bytes
deriving DecidableEq

def dechunkFrom (body : Bytes) : ℕ → ℕ → Bytes → Option Bytes
  | 0, _, out => some out
  | fuel + 1, index, out =>
    if index < body.length then
      (slice body index body.length).bind fun rest =>
      match position lineBreak rest with
      | none => some out
      | some lineEnd =>
        (checkedAdd index lineEnd).bind fun stop =>
        (slice body index stop).bind fun line =>
        if chunkSize line = 0 then some out
        else
          (checkedAdd stop 2).bind fun start =>
          (checkedAdd start (chunkSize line)).bind fun sum =>
          (slice body start (min sum body.length)).bind fun data =>
          (checkedAdd (min sum body.length) 2).bind fun next => dechunkFrom body fuel next (out ++ data)
    else some out

def dechunk (body : Bytes) : Option Bytes := dechunkFrom body body.length 0 []

def isChunked (head : Text) : Bool :=
  (lines head).any fun line =>
    "transfer-encoding:chunked".toList.isPrefixOf ((line.map Char.toLower).filter fun c => c ≠ ' ')

def readStatus (head : Text) : Option UInt16 :=
  (lines head).head?.bind fun line => (SyncCore.words line)[1]?.bind fun code =>
    (fromStrRadix 10 (2 ^ 16) decimalValue code).map UInt16.ofNat

def parseResponse (raw : Bytes) : Option (Except Text HttpResponse) :=
  match position headBreak raw with
  | none => some (.error "the desk's answer had no headers".toList)
  | some split =>
    (slice raw 0 split).bind fun headBytes =>
    match readStatus (decodeLossy headBytes) with
    | none => some (.error "the desk's answer had no status".toList)
    | some status =>
      (checkedAdd split 4).bind fun start =>
      (slice raw start raw.length).bind fun body =>
      if isChunked (decodeLossy headBytes) then (dechunk body).map fun body => .ok ⟨status, body⟩
      else some (.ok ⟨status, body⟩)

/-! ## Slices and patterns -/

theorem checkedAdd_of_lt {a b : ℕ} (h : a + b < wordLimit) : checkedAdd a b = some (a + b) := if_pos h

theorem slice_mid (a b c : Bytes) : slice (a ++ b ++ c) a.length (a.length + b.length) = some b := by
  rw [slice, if_pos ⟨Nat.le_add_right _ _, by simp only [List.length_append]; omega⟩]
  have htake : (a ++ b ++ c).take (a.length + b.length) = a ++ b := by
    rw [← List.length_append]
    exact List.take_left
  rw [htake, List.drop_left]

theorem slice_rest (a b : Bytes) : slice (a ++ b) a.length (a ++ b).length = some b := by
  rw [slice, if_pos ⟨by simp only [List.length_append]; omega, le_rfl⟩, List.take_length, List.drop_left]

/-- As many bytes as there are, up to a number. -/
theorem slice_some_of (a b : Bytes) (n : ℕ) :
    slice (a ++ b) a.length (min (a.length + n) (a ++ b).length) = some (b.take n) := by
  rw [slice, if_pos ⟨by simp only [List.length_append]; omega, min_le_right _ _⟩]
  have htake : (a ++ b).take (min (a.length + n) (a ++ b).length) = a ++ b.take n := by
    rw [← List.take_eq_take_min, List.take_append, List.take_of_length_le (by omega)]
    congr 2
    omega
  rw [htake, List.drop_left]

/-- A pattern is found where it first is. -/
theorem position_some {pattern bytes : Bytes} (hpattern : pattern ≠ []) {k : ℕ} (h : position pattern bytes = some k) :
    ∃ front rest, bytes = front ++ pattern ++ rest ∧ front.length = k ∧ ¬pattern <:+: front := by
  have hnil : ¬pattern <:+: [] := fun hinfix => hpattern (List.infix_nil.mp hinfix)
  induction bytes generalizing k with
  | nil =>
    rw [position, if_neg (by rwa [List.isEmpty_iff])] at h
    cases h
  | cons b bytes ih =>
    rw [position] at h
    split at h
    · next hprefix =>
      obtain ⟨rest, hrest⟩ := List.isPrefixOf_iff_prefix.mp hprefix
      exact ⟨[], rest, hrest.symm, Option.some.inj h, hnil⟩
    · next hprefix =>
      obtain ⟨k, hk, rfl⟩ := Option.map_eq_some_iff.mp h
      obtain ⟨front, rest, rfl, hlength, hfront⟩ := ih hk
      refine ⟨b :: front, rest, rfl, congrArg (· + 1) hlength, ?_⟩
      rw [List.infix_cons_iff, not_or]
      refine ⟨fun hhere => hprefix (List.isPrefixOf_iff_prefix.mpr (hhere.trans ?_)), hfront⟩
      rw [List.append_assoc]
      exact List.prefix_append (b :: front) (pattern ++ rest)

theorem position_none {pattern bytes : Bytes} (h : position pattern bytes = none) : ¬pattern <:+: bytes := by
  induction bytes with
  | nil =>
    rw [position] at h
    split at h
    · cases h
    · next hempty =>
      intro hinfix
      exact hempty (List.isEmpty_iff.mpr (List.infix_nil.mp hinfix))
  | cons b bytes ih =>
    rw [position] at h
    split at h
    · cases h
    · next hpattern =>
      rw [List.infix_cons_iff, not_or]
      exact ⟨fun hp => hpattern (List.isPrefixOf_iff_prefix.mpr hp), ih (Option.map_eq_none_iff.mp h)⟩

/-- A line without a line break ends at the break behind it. -/
theorem position_lineBreak {line : Bytes} (h : ¬lineBreak <:+: line) (rest : Bytes) :
    position lineBreak (line ++ lineBreak ++ rest) = some line.length := by
  induction line with
  | nil => rfl
  | cons b line ih =>
    rw [List.infix_cons_iff, not_or] at h
    have hhere : ¬lineBreak.isPrefixOf (b :: (line ++ lineBreak ++ rest)) = true := by
      rw [List.isPrefixOf_iff_prefix]
      intro hprefix
      cases line with
      | nil =>
        obtain ⟨tail, htail⟩ := hprefix
        exact absurd (List.cons.inj (List.cons.inj htail).2).1 (by decide)
      | cons c line =>
        have hwhole : b :: c :: line <+: b :: (c :: line ++ lineBreak ++ rest) := by
          rw [List.append_assoc]
          exact List.prefix_append (b :: c :: line) (lineBreak ++ rest)
        exact h.1 (List.prefix_of_prefix_length_le hprefix hwhole (by simp [lineBreak]))
    rw [List.cons_append, List.cons_append, position, if_neg hhere, ih h.2]
    rfl

/-! ## One chunk -/

/-- The chunks a reader goes through: a size line, that many bytes, and the two bytes behind them. -/
inductive FullChunks : Bytes → Prop
  | nil : FullChunks []
  | chunk {line data gap rest : Bytes} (hline : ¬lineBreak <:+: line) (hsize : chunkSize line = data.length)
      (hdata : data ≠ []) (hgap : gap.length = 2) (next : FullChunks rest) :
      FullChunks (line ++ lineBreak ++ (data ++ gap ++ rest))

/-- Whether behind some chunks a size line comes whose size, added to its offset, fits no word. -/
def Overlong (offset : ℕ) (body : Bytes) : Prop :=
  ∃ chunks line rest, body = chunks ++ (line ++ lineBreak ++ rest) ∧ FullChunks chunks ∧ ¬lineBreak <:+: line ∧
    wordLimit ≤ offset + chunks.length + line.length + 2 + chunkSize line

theorem line_unique {line line' rest rest' : Bytes} (hline : ¬lineBreak <:+: line) (hline' : ¬lineBreak <:+: line')
    (h : line ++ lineBreak ++ rest = line' ++ lineBreak ++ rest') : line = line' ∧ rest = rest' := by
  have hlength := position_lineBreak hline rest
  rw [h, position_lineBreak hline' rest'] at hlength
  rw [List.append_assoc, List.append_assoc] at h
  obtain ⟨rfl, htail⟩ := List.append_inj h (Option.some.inj hlength).symm
  exact ⟨rfl, List.append_cancel_left htail⟩

section Step

variable {body front : Bytes}

/-- Behind the last size line the body ends. -/
theorem dechunkFrom_open {tail : Bytes} (hbody : body = front ++ tail) (h : position lineBreak tail = none) (fuel : ℕ)
    (out : Bytes) : dechunkFrom body fuel front.length out = some out := by
  cases fuel with
  | zero => rfl
  | succ fuel =>
    rw [dechunkFrom]
    split
    · rw [hbody, slice_rest, Option.bind_some, h]
    · rfl

/-- Behind its end a body has no more chunks. -/
theorem dechunkFrom_past {index : ℕ} (h : body.length ≤ index) (fuel : ℕ) (out : Bytes) :
    dechunkFrom body fuel index out = some out := by
  cases fuel with
  | zero => rfl
  | succ fuel => rw [dechunkFrom, if_neg (Nat.not_lt.mpr h)]

/-- One size line is read, and the bytes it names, as many as there are. -/
theorem dechunkFrom_line (hfits : body.length ≤ longestSlice) {line rest : Bytes}
    (hbody : body = front ++ (line ++ lineBreak ++ rest)) (hline : ¬lineBreak <:+: line) (fuel : ℕ) (out : Bytes) :
    dechunkFrom body (fuel + 1) front.length out =
      if chunkSize line = 0 then some out
      else if front.length + line.length + 2 + chunkSize line < wordLimit then
        dechunkFrom body fuel (min (front.length + line.length + 2 + chunkSize line) body.length + 2)
          (out ++ rest.take (chunkSize line))
      else none := by
  have hlength : body.length = front.length + line.length + 2 + rest.length := by
    rw [hbody]
    simp only [List.length_append, lineBreak, List.length_cons, List.length_nil]
    omega
  have hbound : longestSlice + 2 < wordLimit := by decide
  have hindex : front.length < body.length := by omega
  have hline' : slice body front.length (front.length + line.length) = some line := by
    have hmid := slice_mid front line (lineBreak ++ rest)
    rwa [show front ++ line ++ (lineBreak ++ rest) = body by rw [hbody]; simp] at hmid
  have hdata : slice body (front.length + line.length + 2)
      (min (front.length + line.length + 2 + chunkSize line) body.length) = some (rest.take (chunkSize line)) := by
    have hsome := slice_some_of (front ++ line ++ lineBreak) rest (chunkSize line)
    rwa [show front ++ line ++ lineBreak ++ rest = body by rw [hbody]; simp, List.length_append, List.length_append,
      show lineBreak.length = 2 from rfl] at hsome
  have hrest := slice_rest front (line ++ lineBreak ++ rest)
  rw [← hbody] at hrest
  rw [dechunkFrom, if_pos hindex, hrest, Option.bind_some, position_lineBreak hline]
  dsimp only
  rw [checkedAdd_of_lt (by omega), Option.bind_some, hline', Option.bind_some]
  split
  · rfl
  · rw [checkedAdd_of_lt (by omega), Option.bind_some]
    split
    · next hsum =>
      rw [checkedAdd_of_lt hsum, Option.bind_some, hdata, Option.bind_some, checkedAdd_of_lt (by omega),
        Option.bind_some]
    · next hsum => rw [checkedAdd, if_neg hsum, Option.bind_none]

end Step

/-! ## Every body -/

theorem FullChunks.cases_line {line rest chunks behind : Bytes} (hchunks : FullChunks chunks) (hline : ¬lineBreak <:+: line)
    (h : line ++ lineBreak ++ rest = chunks ++ behind) :
    chunks = [] ∨ ∃ data gap later, rest = data ++ gap ++ (later ++ behind) ∧ FullChunks later ∧
      chunks = line ++ lineBreak ++ (data ++ gap ++ later) ∧ chunkSize line = data.length ∧ data ≠ [] ∧ gap.length = 2 := by
  cases hchunks with
  | nil => exact Or.inl rfl
  | @chunk line' data gap later hline' hsize hdata hgap next =>
    rw [List.append_assoc (line' ++ lineBreak)] at h
    obtain ⟨rfl, rfl⟩ := line_unique hline hline' h
    exact Or.inr ⟨data, gap, later, by simp, next, rfl, hsize, hdata, hgap⟩

/-- Reading chunks leaves the range of a word just where a size is too large for its offset. -/
theorem dechunkFrom_none_iff {body : Bytes} (hfits : body.length ≤ longestSlice) {fuel : ℕ} {front tail out : Bytes}
    (hbody : body = front ++ tail) (hfuel : tail.length ≤ fuel) :
    dechunkFrom body fuel front.length out = none ↔ Overlong front.length tail := by
  induction fuel generalizing front tail out with
  | zero =>
    obtain rfl := List.length_eq_zero_iff.mp (Nat.le_zero.mp hfuel)
    refine iff_of_false (fun h => by cases h) ?_
    rintro ⟨chunks, line, rest, h, -⟩
    simp [lineBreak] at h
  | succ fuel ih =>
    cases hposition : position lineBreak tail with
    | none =>
      rw [dechunkFrom_open hbody hposition]
      refine iff_of_false (fun h => by cases h) ?_
      rintro ⟨chunks, line, rest, rfl, -⟩
      exact position_none hposition ⟨chunks ++ line, rest, by simp⟩
    | some k =>
      obtain ⟨line, rest, rfl, -, hline⟩ := position_some (by decide) hposition
      have hlength : body.length = front.length + line.length + 2 + rest.length := by
        rw [hbody]
        simp only [List.length_append, lineBreak, List.length_cons, List.length_nil]
        omega
      have hbound : longestSlice < wordLimit := by decide
      rw [dechunkFrom_line hfits hbody hline]
      split
      · next hzero =>
        refine iff_of_false (fun h => by cases h) ?_
        rintro ⟨chunks, line', rest', htail, hchunks, hline', hlimit⟩
        rcases hchunks.cases_line hline htail with rfl | ⟨data, gap, later, -, -, -, hsize, hdata, -⟩
        · obtain ⟨rfl, rfl⟩ := line_unique hline hline' htail
          rw [hzero, List.length_nil] at hlimit
          omega
        · exact hdata (List.length_eq_zero_iff.mp (hsize.symm.trans hzero))
      · next hsome =>
        split
        · next hsum =>
          by_cases hwhole : chunkSize line + 2 ≤ rest.length
          · obtain ⟨data, behind, rfl, hdata⟩ : ∃ data behind, rest = data ++ behind ∧ data.length = chunkSize line :=
              ⟨_, _, (List.take_append_drop (chunkSize line) rest).symm, List.length_take_of_le (by omega)⟩
            obtain ⟨gap, later, rfl, hgap⟩ : ∃ gap later, behind = gap ++ later ∧ gap.length = 2 := by
              rw [List.length_append] at hwhole
              exact ⟨_, _, (List.take_append_drop 2 behind).symm, List.length_take_of_le (by omega)⟩
            have hne : data ≠ [] := by
              rintro rfl
              exact hsome hdata.symm
            have hnext : body = front ++ (line ++ lineBreak ++ (data ++ gap)) ++ later := by
              rw [hbody]
              simp
            have hindex : min (front.length + line.length + 2 + chunkSize line) body.length + 2 =
                (front ++ (line ++ lineBreak ++ (data ++ gap))).length := by
              simp only [List.length_append, lineBreak, List.length_cons, List.length_nil] at hlength ⊢
              omega
            have hlater : later.length ≤ fuel := by
              simp only [List.length_append] at hfuel
              omega
            rw [hindex, ih hnext hlater]
            constructor
            · rintro ⟨chunks, line', rest', rfl, hchunks, hline', hlimit⟩
              refine ⟨line ++ lineBreak ++ (data ++ gap ++ chunks), line', rest', by simp,
                .chunk hline hdata.symm hne hgap hchunks, hline', ?_⟩
              simp only [List.length_append] at hlimit ⊢
              omega
            · rintro ⟨chunks, line', rest', htail, hchunks, hline', hlimit⟩
              rcases hchunks.cases_line hline htail with rfl | ⟨data', gap', later', hrest, hlater', rfl, hsize, -, hgap'⟩
              · obtain ⟨rfl, -⟩ := line_unique hline hline' htail
                rw [List.length_nil] at hlimit
                omega
              · rw [List.append_assoc] at hrest
                obtain ⟨rfl, hbehind⟩ := List.append_inj hrest (hdata.trans hsize)
                obtain ⟨rfl, rfl⟩ := List.append_inj hbehind (hgap.trans hgap'.symm)
                refine ⟨later', line', rest', rfl, hlater', hline', ?_⟩
                simp only [List.length_append] at hlimit ⊢
                omega
          · rw [dechunkFrom_past (by omega)]
            refine iff_of_false (fun h => by cases h) ?_
            rintro ⟨chunks, line', rest', htail, hchunks, hline', hlimit⟩
            rcases hchunks.cases_line hline htail with rfl | ⟨data, gap, later, rfl, -, -, hsize, -, hgap⟩
            · obtain ⟨rfl, -⟩ := line_unique hline hline' htail
              rw [List.length_nil] at hlimit
              omega
            · simp only [List.length_append] at hwhole
              omega
        · next hsum =>
          refine iff_of_true rfl ⟨[], line, rest, rfl, .nil, hline, ?_⟩
          rw [List.length_nil]
          omega

theorem dechunk_none_iff {body : Bytes} (hfits : body.length ≤ longestSlice) : dechunk body = none ↔ Overlong 0 body :=
  @dechunkFrom_none_iff body hfits body.length [] body [] rfl le_rfl

/-! ## Chunked encoding -/

/-- A size in hexadecimal. -/
def hexText (n : ℕ) : Text := if n = 0 then ['0'] else (Nat.digits 16 n).reverse.map Nat.digitChar

def encodeChunk (data : Bytes) : Bytes := asBytes (hexText data.length) ++ lineBreak ++ (data ++ lineBreak)

/-- A body sent in chunks, with the chunk of no bytes that ends it. -/
def encodeChunked (chunks : List Bytes) : Bytes :=
  chunks.flatMap encodeChunk ++ (asBytes (hexText 0) ++ lineBreak ++ lineBreak)

theorem digitChar_hex : ∀ d, d < 16 → hexValue (Nat.digitChar d) = some d ∧ Ascii (Nat.digitChar d) ∧
    isWhitespace (Nat.digitChar d) = false ∧ Nat.digitChar d ≠ ';' ∧ Nat.digitChar d ≠ '+' ∧
    UInt8.ofNat (Nat.digitChar d).toNat ≠ 13 := by
  decide

theorem exists_hexText (n : ℕ) :
    ∃ digits : List ℕ, hexText n = digits.map Nat.digitChar ∧ digits ≠ [] ∧ (∀ d ∈ digits, d < 16) ∧
      digits.foldl (fun number value => number * 16 + value) 0 = n := by
  by_cases hn : n = 0
  · subst hn
    exact ⟨[0], rfl, by decide, by decide, rfl⟩
  · refine ⟨(Nat.digits 16 n).reverse, if_neg hn, by simpa [Nat.digits_eq_nil_iff_eq_zero] using hn, ?_, ?_⟩
    · intro d hd
      exact Nat.digits_lt_base (by decide) (List.mem_reverse.mp hd)
    · rw [List.foldl_reverse]
      conv_rhs => rw [← Nat.ofDigits_digits 16 n, Nat.ofDigits_eq_foldr]
      congr 1
      funext value number
      rw [Nat.cast_id, Nat.mul_comm, Nat.add_comm]

theorem mapM_hexValue {digits : List ℕ} (h : ∀ d ∈ digits, d < 16) :
    (digits.map Nat.digitChar).mapM hexValue = some digits := by
  induction digits with
  | nil => rfl
  | cons d digits ih =>
    rw [List.map_cons, List.mapM_cons, (digitChar_hex d (h d List.mem_cons_self)).1,
      ih fun e he => h e (List.mem_cons_of_mem d he)]
    rfl

/-- A size is read back. -/
theorem chunkSize_hexText {n : ℕ} (h : n < wordLimit) : chunkSize (asBytes (hexText n)) = n := by
  obtain ⟨digits, htext, hne, hdigits, hvalue⟩ := exists_hexText n
  have hall : ∀ c ∈ hexText n, ∃ d, d < 16 ∧ c = Nat.digitChar d := by
    intro c hc
    rw [htext] at hc
    obtain ⟨d, hd, rfl⟩ := List.mem_map.mp hc
    exact ⟨d, hdigits d hd, rfl⟩
  have hascii : ∀ c ∈ hexText n, Ascii c := fun c hc => by
    obtain ⟨d, hd, rfl⟩ := hall c hc
    exact (digitChar_hex d hd).2.1
  have hsemicolon : ';' ∉ hexText n := fun hc => by
    obtain ⟨d, hd, heq⟩ := hall _ hc
    exact (digitChar_hex d hd).2.2.2.1 heq.symm
  have hblack : ∀ c ∈ hexText n, isWhitespace c = false := fun c hc => by
    obtain ⟨d, hd, rfl⟩ := hall c hc
    exact (digitChar_hex d hd).2.2.1
  have htrim : trim (hexText n) = hexText n :=
    trim_of_tight (fun c hc => hblack c (List.mem_of_head? hc)) fun c hc => hblack c (List.mem_of_getLast? hc)
  have hplus : stripPrefix ['+'] (hexText n) = none := by
    cases hstrip : stripPrefix ['+'] (hexText n) with
    | none => rfl
    | some rest =>
      rw [stripPrefix_eq_some] at hstrip
      obtain ⟨d, hd, heq⟩ := hall '+' (by rw [hstrip]; exact List.mem_cons_self)
      exact absurd heq.symm (digitChar_hex d hd).2.2.2.2.1
  have hsome : hexText n ≠ [] := by rwa [htext, ne_eq, List.map_eq_nil_iff]
  rw [chunkSize, decodeLossy_ascii hascii,
    firstPart_of_not_isInfix (not_infix_of_not_mem List.mem_cons_self hsemicolon), htrim, fromStrRadix, hplus]
  dsimp only [Option.getD_none]
  rw [if_neg (by rwa [List.isEmpty_iff]), htext, mapM_hexValue hdigits, Option.bind_some, hvalue, if_pos h]
  rfl

theorem hexText_no_break (n : ℕ) : ¬lineBreak <:+: asBytes (hexText n) := by
  intro hinfix
  have hmem : (13 : UInt8) ∈ asBytes (hexText n) := hinfix.mem (by decide)
  obtain ⟨c, hc, hbyte⟩ := List.mem_flatMap.mp hmem
  obtain ⟨digits, htext, -, hdigits, -⟩ := exists_hexText n
  rw [htext] at hc
  obtain ⟨d, hd, rfl⟩ := List.mem_map.mp hc
  obtain ⟨-, hascii, -, -, -, hne⟩ := digitChar_hex d (hdigits d hd)
  rw [utf8EncodeChar_ascii hascii] at hbyte
  exact hne (List.mem_singleton.mp hbyte).symm

/-- Chunks behind any bytes are read, whatever they hold. -/
theorem dechunkFrom_encode {body : Bytes} (hfits : body.length ≤ longestSlice) {chunks : List Bytes}
    (hchunks : ∀ chunk ∈ chunks, chunk ≠ []) {fuel : ℕ} {front out : Bytes} (hbody : body = front ++ encodeChunked chunks)
    (hfuel : chunks.length < fuel) :
    dechunkFrom body fuel front.length out = some (out ++ chunks.flatten) := by
  induction chunks generalizing fuel front out with
  | nil =>
    obtain ⟨fuel, rfl⟩ := Nat.exists_eq_add_one.mpr hfuel
    rw [dechunkFrom_line hfits hbody (hexText_no_break 0), if_pos (chunkSize_hexText (by decide)), List.flatten_nil,
      List.append_nil]
  | cons chunk chunks ih =>
    obtain ⟨fuel, rfl⟩ := Nat.exists_eq_add_one.mpr (Nat.zero_lt_of_lt hfuel)
    have hsplit : body = front ++ (asBytes (hexText chunk.length) ++ lineBreak ++
        (chunk ++ (lineBreak ++ encodeChunked chunks))) := by
      rw [hbody, encodeChunked, encodeChunked, List.flatMap_cons, encodeChunk]
      simp
    have hlength : body.length = front.length + (asBytes (hexText chunk.length)).length + 2 + chunk.length + 2 +
        (encodeChunked chunks).length := by
      rw [hsplit]
      simp only [List.length_append, lineBreak, List.length_cons, List.length_nil]
      omega
    have hbound : longestSlice < wordLimit := by decide
    have hsize : chunkSize (asBytes (hexText chunk.length)) = chunk.length := chunkSize_hexText (by omega)
    have hne : chunk.length ≠ 0 := mt List.length_eq_zero_iff.mp (hchunks chunk List.mem_cons_self)
    have hnext : body = front ++ encodeChunk chunk ++ encodeChunked chunks := by
      rw [hsplit, encodeChunk]
      simp
    have hindex : min (front.length + (asBytes (hexText chunk.length)).length + 2 + chunk.length) body.length + 2 =
        (front ++ encodeChunk chunk).length := by
      rw [encodeChunk]
      simp only [List.length_append, lineBreak, List.length_cons, List.length_nil]
      omega
    rw [dechunkFrom_line hfits hsplit (hexText_no_break _), hsize, if_neg hne, if_pos (by omega), List.take_left, hindex,
      ih (fun other hother => hchunks other (List.mem_cons_of_mem chunk hother)) hnext (Nat.lt_of_succ_lt_succ hfuel),
      List.flatten_cons, List.append_assoc]

theorem length_lt_encodeChunked (chunks : List Bytes) : chunks.length < (encodeChunked chunks).length := by
  induction chunks with
  | nil => simp [encodeChunked, lineBreak]
  | cons chunk chunks ih =>
    have hcons : encodeChunked (chunk :: chunks) = encodeChunk chunk ++ encodeChunked chunks := by
      rw [encodeChunked, encodeChunked, List.flatMap_cons, List.append_assoc]
    have hpos : 0 < (encodeChunk chunk).length := by simp [encodeChunk, lineBreak]
    rw [hcons, List.length_append, List.length_cons]
    omega

/-! ## Every answer -/

/-- Whether an answer is chunked and one of its chunks is too long for a word. -/
def OverlongAnswer (raw : Bytes) : Prop :=
  ∃ head status body, raw = head ++ headBreak ++ body ∧ position headBreak raw = some head.length ∧
    readStatus (decodeLossy head) = some status ∧ isChunked (decodeLossy head) = true ∧ Overlong 0 body

theorem parseResponse_none_iff {raw : Bytes} (hraw : raw.length ≤ longestSlice) :
    parseResponse raw = none ↔ OverlongAnswer raw := by
  rw [parseResponse]
  cases hposition : position headBreak raw with
  | none =>
    refine iff_of_false (fun h => by cases h) ?_
    rintro ⟨head, status, body, -, hsome, -⟩
    rw [hposition] at hsome
    cases hsome
  | some split =>
    obtain ⟨head, body, hsplit, rfl, -⟩ := position_some (by decide) hposition
    have hlength : raw.length = head.length + 4 + body.length := by
      rw [hsplit]
      simp only [List.length_append, headBreak, List.length_cons, List.length_nil]
    have hbound : longestSlice < wordLimit := by decide
    have hhead : slice raw 0 head.length = some head := by
      have hmid := slice_mid [] head (headBreak ++ body)
      rwa [List.nil_append, List.length_nil, Nat.zero_add, ← List.append_assoc, ← hsplit] at hmid
    have hbody : slice raw (head.length + 4) raw.length = some body := by
      have hrest := slice_rest (head ++ headBreak) body
      rwa [← hsplit, List.length_append] at hrest
    have hunique : OverlongAnswer raw ↔ (∃ status, readStatus (decodeLossy head) = some status) ∧
        isChunked (decodeLossy head) = true ∧ Overlong 0 body := by
      constructor
      · rintro ⟨head', status, body', hsplit', hposition', hstatus, hchunked, hlong⟩
        have hsame := Option.some.inj (hposition.symm.trans hposition')
        rw [hsplit, List.append_assoc, List.append_assoc] at hsplit'
        obtain ⟨rfl, htail⟩ := List.append_inj hsplit' hsame
        obtain rfl := List.append_cancel_left htail
        exact ⟨⟨status, hstatus⟩, hchunked, hlong⟩
      · rintro ⟨⟨status, hstatus⟩, hchunked, hlong⟩
        exact ⟨head, status, body, hsplit, hposition, hstatus, hchunked, hlong⟩
    rw [hunique]
    dsimp only
    rw [hhead, Option.bind_some]
    cases hstatus : readStatus (decodeLossy head) with
    | none =>
      refine iff_of_false (fun h => by cases h) ?_
      rintro ⟨⟨status, hsome⟩, -⟩
      cases hsome
    | some status =>
      dsimp only
      rw [checkedAdd_of_lt (by omega), Option.bind_some, hbody, Option.bind_some, and_iff_right ⟨status, rfl⟩]
      by_cases hchunked : isChunked (decodeLossy head) = true
      · rw [if_pos hchunked, and_iff_right hchunked, Option.map_eq_none_iff, dechunk_none_iff (by omega)]
      · rw [if_neg hchunked]
        exact iff_of_false (fun h => by cases h) fun h => hchunked h.1

/-- Every answer is read in range unless a chunk's size is too large for its offset, and a body sent
in chunks is read back. -/
theorem answers_read {raw : Bytes} (hraw : raw.length ≤ longestSlice) {chunks : List Bytes}
    (hchunks : ∀ chunk ∈ chunks, chunk ≠ []) (hfits : (encodeChunked chunks).length ≤ longestSlice) :
    (parseResponse raw ≠ none ↔ ¬OverlongAnswer raw) ∧ dechunk (encodeChunked chunks) = some chunks.flatten := by
  refine ⟨not_congr (parseResponse_none_iff hraw), ?_⟩
  have hread := @dechunkFrom_encode _ hfits chunks hchunks _ [] [] rfl (length_lt_encodeChunked chunks)
  rwa [List.nil_append] at hread

theorem answers_read_two_chunks :
    (parseResponse (asBytes "HTTP/1.1 204 No Content\r\n\r\n".toList) ≠ none ↔
        ¬OverlongAnswer (asBytes "HTTP/1.1 204 No Content\r\n\r\n".toList)) ∧
      dechunk (encodeChunked [asBytes "2\r\n".toList, asBytes "de".toList]) = some (asBytes "2\r\nde".toList) :=
  answers_read (by decide +kernel) (by decide) (by decide +kernel)

/-- A chunk as long as the largest word. -/
def longestChunk : Bytes := asBytes "HTTP/1.1 200 OK\r\nTransfer-Encoding: chunked\r\n\r\nffffffffffffffff\r\n".toList

/-- The end of the longest chunk does not fit a word. -/
theorem longest_chunk_overflows :
    ¬((∀ raw : Bytes, raw.length ≤ longestSlice → parseResponse raw ≠ none) ∧
      ∀ chunks : List Bytes, (∀ chunk ∈ chunks, chunk ≠ []) → (encodeChunked chunks).length ≤ longestSlice →
        dechunk (encodeChunked chunks) = some chunks.flatten) := by
  rintro ⟨hread, -⟩
  have hnone : (parseResponse longestChunk).isNone = true := by decide +kernel
  exact hread longestChunk (by decide +kernel) (Option.isNone_iff_eq_none.mp hnone)

end Thock.Desk.Bridge
