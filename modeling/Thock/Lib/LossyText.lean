import Thock.Lib.TextBytes

/-!
# Decoding bytes that may not be text

The text of any bytes: valid sequences are decoded, and as many bytes as could begin a character are
replaced as one. What was written in plain ASCII is decoded as it was written.
-/

namespace TextScan

def isContinuation (b : UInt8) : Bool := 0x80 ≤ b && b ≤ 0xBF

/-- The second bytes that may follow the first byte of a sequence of three or four. -/
def isSecondByte (first second : UInt8) : Bool :=
  if first = 0xE0 then 0xA0 ≤ second && second ≤ 0xBF
  else if first = 0xED then 0x80 ≤ second && second ≤ 0x9F
  else if first = 0xF0 then 0x90 ≤ second && second ≤ 0xBF
  else if first = 0xF4 then 0x80 ≤ second && second ≤ 0x8F
  else isContinuation second

/-- The character that stands for bytes that are no text. -/
def replacement : Char := Char.ofNat 0xFFFD

/-- The six bits a continuation byte carries. -/
def lowBits (b : UInt8) : ℕ := b.toNat - 0x80

/-- The character a sequence begins with and its bytes. -/
def decodeFront (first : UInt8) (rest : Bytes) : Char × ℕ :=
  if first < 0x80 then (Char.ofNat first.toNat, 1)
  else if 0xC2 ≤ first ∧ first ≤ 0xDF then
    match rest with
    | second :: _ =>
      if isContinuation second then (Char.ofNat ((first.toNat - 0xC0) * 64 + lowBits second), 2) else (replacement, 1)
    | [] => (replacement, 1)
  else if 0xE0 ≤ first ∧ first ≤ 0xEF then
    match rest with
    | second :: third :: _ =>
      if !isSecondByte first second then (replacement, 1)
      else if !isContinuation third then (replacement, 2)
      else (Char.ofNat ((first.toNat - 0xE0) * 4096 + lowBits second * 64 + lowBits third), 3)
    | [second] => (replacement, if isSecondByte first second then 2 else 1)
    | [] => (replacement, 1)
  else if 0xF0 ≤ first ∧ first ≤ 0xF4 then
    match rest with
    | second :: third :: fourth :: _ =>
      if !isSecondByte first second then (replacement, 1)
      else if !isContinuation third then (replacement, 2)
      else if !isContinuation fourth then (replacement, 3)
      else
        (Char.ofNat ((first.toNat - 0xF0) * 262144 + lowBits second * 4096 + lowBits third * 64 + lowBits fourth), 4)
    | [second, third] => (replacement, if !isSecondByte first second then 1 else if isContinuation third then 3 else 2)
    | [second] => (replacement, if isSecondByte first second then 2 else 1)
    | [] => (replacement, 1)
  else (replacement, 1)

def decodeLossyFrom : ℕ → Bytes → Text
  | 0, _ => []
  | _ + 1, [] => []
  | fuel + 1, first :: rest =>
    (decodeFront first rest).1 :: decodeLossyFrom fuel ((first :: rest).drop (decodeFront first rest).2)

/-- The text of any bytes, with what is no text replaced. -/
def decodeLossy (bytes : Bytes) : Text := decodeLossyFrom bytes.length bytes

theorem toNat_ofNat_of_ascii {c : Char} (h : Ascii c) : (UInt8.ofNat c.toNat).toNat = c.toNat := by
  rw [UInt8.toNat_ofNat']
  exact Nat.mod_eq_of_lt (Nat.lt_trans h (by decide))

theorem asBytes_cons_ascii {c : Char} (h : Ascii c) (t : Text) : asBytes (c :: t) = UInt8.ofNat c.toNat :: asBytes t := by
  rw [asBytes, List.flatMap_cons, utf8EncodeChar_ascii h]
  rfl

theorem decodeFront_ascii {c : Char} (h : Ascii c) (rest : Bytes) : decodeFront (UInt8.ofNat c.toNat) rest = (c, 1) := by
  have hsmall : UInt8.ofNat c.toNat < 0x80 := by
    rw [UInt8.lt_iff_toNat_lt, toNat_ofNat_of_ascii h]
    exact h
  unfold decodeFront
  rw [if_pos hsmall, toNat_ofNat_of_ascii h, Char.ofNat_toNat]

/-- Ascii text is decoded as it was written. -/
theorem decodeLossy_ascii {t : Text} (h : ∀ c ∈ t, Ascii c) : decodeLossy (asBytes t) = t := by
  rw [decodeLossy]
  generalize hfuel : (asBytes t).length = fuel
  replace hfuel := hfuel.le
  induction t generalizing fuel with
  | nil => cases fuel <;> rfl
  | cons c t ih =>
    have hc := h c List.mem_cons_self
    rw [asBytes_cons_ascii hc] at hfuel ⊢
    cases fuel with
    | zero => cases hfuel
    | succ fuel =>
      have hrest := ih (fun d hd => h d (List.mem_cons_of_mem c hd)) fuel (Nat.le_of_succ_le_succ hfuel)
      rw [decodeLossyFrom, decodeFront_ascii hc, List.drop_succ_cons, List.drop_zero, hrest]

example : decodeLossy [0x61, 0xE2, 0x82, 0x0A, 0xC3, 0xA9, 0xFF] = "a\uFFFD\né\uFFFD".toList := by decide +kernel

end TextScan
