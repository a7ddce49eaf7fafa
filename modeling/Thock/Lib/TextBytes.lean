import Mathlib.Data.List.Basic
import Thock.Lib.TextScan

/-!
# Texts as bytes

The bytes a text is stored and sent as. Bytes are the bytes of one text at most, and what ends in
the bytes of plain ASCII ends in that text.
-/

open TextScan

abbrev Bytes := List UInt8

/-- The bytes of a text. -/
def asBytes (text : Text) : Bytes := text.flatMap String.utf8EncodeChar

/-- The text that bytes are of, where there is one. -/
def decodeBytes (bytes : Bytes) : Option Text := bytes.toByteArray.utf8Decode?.map Array.toList

@[simp] theorem asBytes_append (a b : Text) : asBytes (a ++ b) = asBytes a ++ asBytes b := List.flatMap_append

@[simp] theorem decodeBytes_asBytes (t : Text) : decodeBytes (asBytes t) = some t := by
  have hdecode := @List.utf8Decode?_utf8Encode t
  change Option.map Array.toList t.utf8Encode.utf8Decode? = some t
  rw [hdecode]
  rfl

theorem asBytes_injective {a b : Text} (h : asBytes a = asBytes b) : a = b := by
  have hdecode := decodeBytes_asBytes a
  rw [h, decodeBytes_asBytes] at hdecode
  exact (Option.some.inj hdecode).symm

theorem asBytes_of_decodeBytes {bytes : Bytes} {t : Text} (h : decodeBytes bytes = some t) : asBytes t = bytes := by
  obtain ⟨characters, hdecode, rfl⟩ := Option.map_eq_some_iff.mp h
  have hsome : bytes.toByteArray.utf8Decode?.isSome = true := by rw [hdecode]; rfl
  have hencode := @ByteArray.utf8Encode_get_utf8Decode? bytes.toByteArray hsome
  have hget : bytes.toByteArray.utf8Decode?.get hsome = characters := by simp [hdecode]
  rw [hget] at hencode
  change (asBytes characters.toList).toByteArray = bytes.toByteArray at hencode
  simpa using congrArg (fun b => b.data.toList) hencode

theorem length_asBytes (t : Text) : (asBytes t).length = (t.map Char.utf8Size).sum := by
  induction t with
  | nil => rfl
  | cons c t ih =>
    change (String.utf8EncodeChar c ++ asBytes t).length = _
    rw [List.length_append, ih, String.length_utf8EncodeChar, List.map_cons, List.sum_cons]

def Ascii (c : Char) : Prop := c.toNat < 128

instance (c : Char) : Decidable (Ascii c) := inferInstanceAs (Decidable (_ < _))

theorem utf8EncodeChar_ascii {c : Char} (h : Ascii c) : String.utf8EncodeChar c = [UInt8.ofNat c.toNat] := by
  have hle : c.toNat ≤ 127 := Nat.le_of_lt_succ h
  simp [String.utf8EncodeChar]
  omega

theorem firstByte_of_ascii {n : ℕ} (h : n < 128) : (UInt8.ofNat n).IsUTF8FirstByte := by
  have hbit : ∀ n < 128, UInt8.ofNat n &&& 0x80 = 0 := by decide
  exact Or.inl (hbit n h)

/-- A character whose bytes end in the byte of a character of ASCII is that character. -/
theorem eq_of_last_byte {c d : Char} (hd : Ascii d) {a front : Bytes}
    (h : a ++ String.utf8EncodeChar c = front ++ String.utf8EncodeChar d) : c = d ∧ a = front := by
  rw [utf8EncodeChar_ascii hd] at h
  obtain ⟨init, last, hencode⟩ : ∃ init last, String.utf8EncodeChar c = init ++ [last] := by
    rcases List.eq_nil_or_concat (String.utf8EncodeChar c) with hnil | ⟨init, last, hencode⟩
    · exact absurd hnil String.utf8EncodeChar_ne_nil
    · exact ⟨init, last, by rw [hencode, List.concat_eq_append]⟩
  rw [hencode, ← List.append_assoc] at h
  obtain ⟨hfront, hlast⟩ := List.append_inj' h rfl
  obtain rfl := List.head_eq_of_cons_eq hlast
  -- the byte of ASCII begins a character, so it is the only byte of this one
  have hlt : init.length < (String.utf8EncodeChar c).length := by rw [hencode]; simp
  have hbyte : (String.utf8EncodeChar c)[init.length] = UInt8.ofNat d.toNat := by simp [hencode]
  have hfirst := @UInt8.isUTF8FirstByte_getElem_utf8EncodeChar c init.length hlt
  rw [hbyte] at hfirst
  obtain rfl := List.eq_nil_of_length_eq_zero (hfirst.mp (firstByte_of_ascii hd))
  have hsame : asBytes [c] = asBytes [d] := by
    change String.utf8EncodeChar c ++ [] = String.utf8EncodeChar d ++ []
    rw [hencode, utf8EncodeChar_ascii hd]
    rfl
  exact ⟨List.head_eq_of_cons_eq (asBytes_injective hsame), by rw [← hfront, List.append_nil]⟩

/-- A text whose bytes end in those of ASCII ends in it. -/
theorem suffix_of_asBytes {t s : Text} {front : Bytes} (hs : ∀ c ∈ s, Ascii c) (h : asBytes t = front ++ asBytes s) :
    ∃ t', t = t' ++ s := by
  induction s using List.reverseRecOn generalizing t with
  | nil => exact ⟨t, (List.append_nil t).symm⟩
  | append_singleton s d ih =>
    have hd : Ascii d := hs d (by simp)
    rcases List.eq_nil_or_concat t with rfl | ⟨t, c, rfl⟩
    · have hlength := congrArg List.length h
      simp [asBytes, utf8EncodeChar_ascii hd] at hlength
    · rw [List.concat_eq_append, asBytes_append, asBytes_append, ← List.append_assoc] at h
      change asBytes t ++ (String.utf8EncodeChar c ++ []) = front ++ asBytes s ++ (String.utf8EncodeChar d ++ []) at h
      rw [List.append_nil, List.append_nil] at h
      obtain ⟨rfl, hfront⟩ := eq_of_last_byte hd h
      obtain ⟨t', rfl⟩ := ih (fun e he => hs e (List.mem_append_left _ he)) hfront
      exact ⟨t', by rw [List.concat_eq_append, List.append_assoc]⟩

/-! ## Cutting at a byte -/

/-- What follows the first bytes of a text, from the character after the one they end in. -/
def dropBytes : ℕ → Text → Text
  | 0, t => t
  | _ + 1, [] => []
  | n + 1, c :: rest => dropBytes (n + 1 - c.utf8Size) rest

/-- The first bytes of a text, up to the character they end in. -/
def takeBytes : ℕ → Text → Text
  | 0, _ => []
  | _ + 1, [] => []
  | n + 1, c :: rest => c :: takeBytes (n + 1 - c.utf8Size) rest

@[simp] theorem dropBytes_zero (t : Text) : dropBytes 0 t = t := by
  cases t <;> rfl

@[simp] theorem takeBytes_zero (t : Text) : takeBytes 0 t = [] := by
  cases t <;> rfl

theorem dropBytes_cons (c : Char) (n : ℕ) (rest : Text) : dropBytes (c.utf8Size + n) (c :: rest) = dropBytes n rest := by
  have hsize : c.utf8Size + n = (c.utf8Size + n - 1) + 1 := by
    have := c.utf8Size_pos
    omega
  rw [hsize, dropBytes, ← hsize, Nat.add_sub_cancel_left]

theorem takeBytes_cons (c : Char) (n : ℕ) (rest : Text) :
    takeBytes (c.utf8Size + n) (c :: rest) = c :: takeBytes n rest := by
  have hsize : c.utf8Size + n = (c.utf8Size + n - 1) + 1 := by
    have := c.utf8Size_pos
    omega
  rw [hsize, takeBytes, ← hsize, Nat.add_sub_cancel_left]

/-- Dropping the bytes of a front leaves the back. -/
theorem dropBytes_append (front back : Text) : dropBytes ((front.map Char.utf8Size).sum) (front ++ back) = back := by
  induction front with
  | nil => exact dropBytes_zero back
  | cons c rest ih =>
    rw [List.map_cons, List.sum_cons, List.cons_append, dropBytes_cons]
    exact ih

/-- Taking the bytes of a front gives the front. -/
theorem takeBytes_append (front back : Text) : takeBytes ((front.map Char.utf8Size).sum) (front ++ back) = front := by
  induction front with
  | nil => exact takeBytes_zero back
  | cons c rest ih =>
    rw [List.map_cons, List.sum_cons, List.cons_append, takeBytes_cons]
    exact congrArg (List.cons c) ih

/-- What is left after some bytes is the end of the text. -/
theorem dropBytes_suffix (n : ℕ) (t : Text) : dropBytes n t <:+ t := by
  induction t generalizing n with
  | nil => cases n <;> exact List.suffix_rfl
  | cons c rest ih =>
    cases n with
    | zero => exact List.suffix_rfl
    | succ n => exact (ih _).trans (List.suffix_cons c rest)
