import Mathlib.Data.List.Nodup
import Thock.Lib.TextBytes

/-!
# Sealed blobs

The byte format every blob and every write travels in: four bytes of magic, a nonce, then what the
cipher makes of the plaintext, with the place it is sealed for as associated data.

The cipher is a parameter. It fails on a plaintext over its limit alone, and then the envelope is too
short to open.
-/

namespace Thock.SyncCore

open TextScan

/-! ## Contexts -/

/-- What an envelope is bound to. -/
inductive Context
  | file (path : Text) (blobId : Text)
  | write (clientId : Text)
deriving DecidableEq, Repr

def Context.associatedData : Context → Bytes
  | .file path blobId => asBytes "thock-file/1\x00".toList ++ asBytes path ++ [0] ++ asBytes blobId
  | .write clientId => asBytes "thock-write/1\x00".toList ++ asBytes clientId

/-- A context whose parts hold no NUL byte. -/
def Context.NulFree : Context → Prop
  | .file path blobId => 0 ∉ asBytes path ∧ 0 ∉ asBytes blobId
  | .write clientId => 0 ∉ asBytes clientId

instance (context : Context) : Decidable context.NulFree :=
  match context with
  | .file _ _ => inferInstanceAs (Decidable (_ ∧ _))
  | .write _ => inferInstanceAs (Decidable (_ ∉ _))

theorem file_bytes : asBytes "thock-file/1\x00".toList = [116, 104, 111, 99, 107, 45, 102, 105, 108, 101, 47, 49, 0] := by
  decide +kernel

theorem write_bytes :
    asBytes "thock-write/1\x00".toList = [116, 104, 111, 99, 107, 45, 119, 114, 105, 116, 101, 47, 49, 0] := by
  decide +kernel

/-- Contexts of two kinds part at the first letter of the kind. -/
theorem file_ne_write (path blobId clientId : Text) :
    (Context.file path blobId).associatedData ≠ (Context.write clientId).associatedData := by
  rw [Context.associatedData, Context.associatedData, file_bytes, write_bytes]
  intro h
  have hletter := congrArg (fun bytes => bytes[6]?) h
  simp at hletter

theorem associatedData_injective {a b : Context} (ha : a.NulFree) (hb : b.NulFree)
    (h : a.associatedData = b.associatedData) : a = b := by
  cases a with
  | file path blobId =>
    cases b with
    | file path' blobId' =>
      simp only [Context.associatedData, List.append_assoc, List.singleton_append] at h
      obtain ⟨hpath, -, hblob⟩ := (List.append_cons_inj_of_notMem ha.1 ha.2).mp (List.append_cancel_left h)
      rw [asBytes_injective hpath, asBytes_injective hblob]
    | write clientId => exact absurd h (file_ne_write path blobId clientId)
  | write clientId =>
    cases b with
    | file path blobId => exact absurd h.symm (file_ne_write path blobId clientId)
    | write clientId' => rw [asBytes_injective (List.append_cancel_left h)]

/-! ## The cipher -/

def nonceLen : ℕ := 12

def tagLen : ℕ := 16

abbrev Key := {bytes : Bytes // bytes.length = 32}

abbrev Nonce := {bytes : Bytes // bytes.length = nonceLen}

/-- Authenticated encryption with associated data: key, nonce, data, then the plaintext or ciphertext. -/
structure Aead where
  encrypt : Key → Nonce → Bytes → Bytes → Option Bytes
  decrypt : Key → Nonce → Bytes → Bytes → Option Bytes
  limit : ℕ

/-- What the cipher's documentation says of it. -/
structure Aead.Lawful (aead : Aead) : Prop where
  encrypts : ∀ key nonce data plaintext, (aead.encrypt key nonce data plaintext).isSome ↔ plaintext.length ≤ aead.limit
  length : ∀ key nonce data plaintext ciphertext, aead.encrypt key nonce data plaintext = some ciphertext →
    ciphertext.length = plaintext.length + tagLen
  decrypts : ∀ key nonce data plaintext ciphertext, aead.encrypt key nonce data plaintext = some ciphertext →
    aead.decrypt key nonce data ciphertext = some plaintext

/-! ## Envelopes -/

/-- `TVS1`. -/
def magic : Bytes := [84, 86, 83, 49]

/-- Bytes an envelope adds to its plaintext. -/
def overhead : ℕ := magic.length + nonceLen + tagLen

inductive SealError
  | tooShort
  | badMagic
  | authentication
deriving DecidableEq, Repr

def sealWithNonce (aead : Aead) (key : Key) (nonce : Nonce) (context : Context) (plaintext : Bytes) : Bytes :=
  magic ++ nonce.1 ++ (aead.encrypt key nonce context.associatedData plaintext).getD []

/-- Open an envelope sealed for the same context. -/
def openEnvelope (aead : Aead) (key : Key) (context : Context) (envelope : Bytes) : Except SealError Bytes :=
  if h : envelope.length < overhead then .error .tooShort
  else if envelope.take magic.length ≠ magic then .error .badMagic
  else
    have hnonce : ((envelope.drop magic.length).take nonceLen).length = nonceLen := by
      simp only [List.length_take, List.length_drop, overhead, not_lt] at h ⊢
      omega
    match aead.decrypt key ⟨(envelope.drop magic.length).take nonceLen, hnonce⟩ context.associatedData
        ((envelope.drop magic.length).drop nonceLen) with
    | some plaintext => .ok plaintext
    | none => .error .authentication

section

variable {aead : Aead} {key : Key} {nonce : Nonce} {context : Context} {plaintext : Bytes}

/-- An envelope the cipher failed to fill is too short. -/
theorem open_of_failed (h : aead.encrypt key nonce context.associatedData plaintext = none) (key' : Key)
    (context' : Context) :
    openEnvelope aead key' context' (sealWithNonce aead key nonce context plaintext) = .error .tooShort := by
  have hlength : (sealWithNonce aead key nonce context plaintext).length < overhead := by
    rw [sealWithNonce, h]
    simp [nonce.2, overhead, tagLen]
  rw [openEnvelope, dif_pos hlength]

/-- Opening decrypts what the cipher made of the plaintext, under the nonce it was sealed with. -/
theorem open_sealed (hlawful : aead.Lawful) {ciphertext : Bytes}
    (h : aead.encrypt key nonce context.associatedData plaintext = some ciphertext) (key' : Key) (context' : Context) :
    openEnvelope aead key' context' (sealWithNonce aead key nonce context plaintext) =
      match aead.decrypt key' nonce context'.associatedData ciphertext with
      | some plaintext => .ok plaintext
      | none => .error .authentication := by
  have henvelope : sealWithNonce aead key nonce context plaintext = magic ++ (nonce.1 ++ ciphertext) := by
    rw [sealWithNonce, h, List.append_assoc]
    rfl
  have hlong : ¬(magic ++ (nonce.1 ++ ciphertext)).length < overhead := by
    simp [nonce.2, overhead, hlawful.length _ _ _ _ _ h]
    omega
  have hdrop : (magic ++ (nonce.1 ++ ciphertext)).drop magic.length = nonce.1 ++ ciphertext := List.drop_left
  have hnonce : (nonce.1 ++ ciphertext).take nonceLen = nonce.1 := List.take_left' nonce.2
  have hbody : (nonce.1 ++ ciphertext).drop nonceLen = ciphertext := List.drop_left' nonce.2
  rw [henvelope, openEnvelope, dif_neg hlong, if_neg (by simp)]
  simp only [hdrop, hnonce, hbody]

end

/-! ## Seals -/

/-- One call that seals a plaintext. -/
structure SealCall where
  key : Key
  nonce : Nonce
  context : Context
  plaintext : Bytes
deriving DecidableEq

def SealCall.ciphertext (aead : Aead) (call : SealCall) : Option Bytes :=
  aead.encrypt call.key call.nonce call.context.associatedData call.plaintext

def SealCall.envelope (aead : Aead) (call : SealCall) : Bytes :=
  sealWithNonce aead call.key call.nonce call.context call.plaintext

/-- An ideal cipher, over the calls made: what one call sealed decrypts for calls made alone, and no two calls
drew one nonce. -/
structure Aead.Ideal (aead : Aead) (calls : List SealCall) : Prop where
  unforged : ∀ call ∈ calls, ∀ ciphertext ∈ call.ciphertext aead, ∀ key nonce data plaintext,
    aead.decrypt key nonce data ciphertext = some plaintext →
      ∃ other ∈ calls, other.key = key ∧ other.nonce = nonce ∧ other.context.associatedData = data ∧
        other.plaintext = plaintext
  fresh : (calls.map SealCall.nonce).Nodup

/-- An envelope opens where it was sealed, to what was sealed, and nowhere else. -/
theorem sealed_opens_where_sealed (aead : Aead) (hlawful : aead.Lawful) :
    (∀ key nonce context plaintext, plaintext.length ≤ aead.limit →
        openEnvelope aead key context (sealWithNonce aead key nonce context plaintext) = .ok plaintext) ∧
      (∀ a b : Context, a.NulFree → b.NulFree → a.associatedData = b.associatedData → a = b) ∧
      ∀ calls, aead.Ideal calls → (∀ call ∈ calls, call.context.NulFree) → ∀ call ∈ calls, ∀ key context plaintext,
        context.NulFree → openEnvelope aead key context (call.envelope aead) = .ok plaintext →
          key = call.key ∧ context = call.context ∧ plaintext = call.plaintext := by
  refine ⟨fun key nonce context plaintext hlimit => ?_, fun a b => associatedData_injective, ?_⟩
  · obtain ⟨ciphertext, hencrypt⟩ := Option.isSome_iff_exists.mp ((hlawful.encrypts key nonce
      context.associatedData plaintext).mpr hlimit)
    rw [open_sealed hlawful hencrypt, hlawful.decrypts _ _ _ _ _ hencrypt]
  · intro calls hideal hfree call hcall key context plaintext hcontext hopen
    cases hencrypt : call.ciphertext aead with
    | none =>
      rw [SealCall.envelope, open_of_failed hencrypt] at hopen
      cases hopen
    | some ciphertext =>
      rw [SealCall.envelope, open_sealed hlawful hencrypt] at hopen
      cases hdecrypt : aead.decrypt key call.nonce context.associatedData ciphertext with
      | none =>
        rw [hdecrypt] at hopen
        cases hopen
      | some message =>
        rw [hdecrypt] at hopen
        obtain rfl := Except.ok.inj hopen
        obtain ⟨other, hother, rfl, hnonce, hdata, rfl⟩ :=
          hideal.unforged call hcall ciphertext hencrypt key call.nonce _ _ hdecrypt
        obtain rfl := List.inj_on_of_nodup_map hideal.fresh hother hcall hnonce
        exact ⟨rfl, associatedData_injective hcontext (hfree other hother) hdata.symm, rfl⟩

/-! ## A cipher at hand -/

/-- The longest plaintext the cipher takes. -/
def cipherLimit : ℕ := 274877906880

/-- A cipher that leaves the plaintext as it is and puts sixteen bytes of one tag behind it. -/
def tagging (tag : Key → Nonce → Bytes → Bytes → UInt8) : Aead where
  encrypt key nonce data plaintext :=
    if plaintext.length ≤ cipherLimit then
      some (plaintext ++ List.replicate tagLen (tag key nonce data plaintext))
    else none
  decrypt key nonce data ciphertext :=
    let plaintext := ciphertext.take (ciphertext.length - tagLen)
    if plaintext.length ≤ cipherLimit ∧
        ciphertext = plaintext ++ List.replicate tagLen (tag key nonce data plaintext) then some plaintext
    else none
  limit := cipherLimit

theorem tagging_lawful (tag : Key → Nonce → Bytes → Bytes → UInt8) : (tagging tag).Lawful where
  encrypts key nonce data plaintext := by
    simp only [tagging]
    split <;> simp [*]
  length key nonce data plaintext ciphertext h := by
    simp only [tagging] at h
    split at h
    · rw [← Option.some.inj h]
      simp
    · cases h
  decrypts key nonce data plaintext ciphertext h := by
    simp only [tagging] at h ⊢
    split at h
    · rename_i hlimit
      obtain rfl := Option.some.inj h
      have htake : (plaintext ++ List.replicate tagLen (tag key nonce data plaintext)).take
          ((plaintext ++ List.replicate tagLen (tag key nonce data plaintext)).length - tagLen) = plaintext := by
        simp
      rw [htake, if_pos ⟨hlimit, rfl⟩]
    · cases h

/-- A key, a nonce and the note of a day, sealed. -/
def sealedDay : SealCall :=
  ⟨⟨List.replicate 32 0, rfl⟩, ⟨List.replicate 12 0, rfl⟩,
    .file "daily/2026-10-02.md".toList "0123456789abcdef0123456789abcdef".toList, asBytes "# Today\n".toList⟩

/-- The tag of the call is its own. -/
def dayTag (key : Key) (nonce : Nonce) (data : Bytes) (plaintext : Bytes) : UInt8 :=
  if key = sealedDay.key ∧ nonce = sealedDay.nonce ∧ data = sealedDay.context.associatedData ∧
    plaintext = sealedDay.plaintext then 1 else 0

theorem dayTag_ideal : (tagging dayTag).Ideal [sealedDay] where
  unforged call hcall ciphertext hciphertext key nonce data plaintext hdecrypt := by
    obtain rfl := List.mem_singleton.mp hcall
    have htag : dayTag sealedDay.key sealedDay.nonce sealedDay.context.associatedData sealedDay.plaintext = 1 :=
      if_pos ⟨rfl, rfl, rfl, rfl⟩
    simp only [SealCall.ciphertext, tagging, htag] at hciphertext hdecrypt
    rw [if_pos (by decide +kernel)] at hciphertext
    obtain rfl := Option.some.inj hciphertext
    split at hdecrypt
    · rename_i hmade
      rw [Option.some.inj hdecrypt] at hmade
      obtain ⟨hplaintext, htags⟩ := List.append_inj' hmade.2 (by simp)
      have hone : dayTag key nonce data plaintext = 1 := by
        have hheads := congrArg List.head? htags
        simpa [tagLen] using hheads.symm
      unfold dayTag at hone
      split at hone
      · rename_i hsame
        exact ⟨sealedDay, List.mem_singleton_self _, hsame.1.symm, hsame.2.1.symm, hsame.2.2.1.symm, hsame.2.2.2.symm⟩
      · cases hone
    · cases hdecrypt
  fresh := List.nodup_singleton _

theorem sealed_opens_where_sealed_day :
    (tagging dayTag).Lawful ∧ ∀ key context plaintext, context.NulFree →
      openEnvelope (tagging dayTag) key context (sealedDay.envelope (tagging dayTag)) = .ok plaintext →
        key = sealedDay.key ∧ context = sealedDay.context ∧ plaintext = sealedDay.plaintext :=
  ⟨tagging_lawful dayTag,
    (sealed_opens_where_sealed (tagging dayTag) (tagging_lawful dayTag)).2.2 [sealedDay] dayTag_ideal
      (by decide +kernel) sealedDay List.mem_cons_self⟩

/-- A plaintext over the cipher's limit is sealed to nothing. -/
theorem oversized_plaintext_is_lost :
    (tagging fun _ _ _ _ => 0).Lawful ∧
      openEnvelope (tagging fun _ _ _ _ => 0) sealedDay.key sealedDay.context
        (sealWithNonce (tagging fun _ _ _ _ => 0) sealedDay.key sealedDay.nonce sealedDay.context
          (List.replicate (cipherLimit + 1) 0)) = .error .tooShort := by
  refine ⟨tagging_lawful _, open_of_failed ?_ _ _⟩
  simp only [tagging]
  rw [List.length_replicate, if_neg (Nat.not_succ_le_self _)]

end Thock.SyncCore
