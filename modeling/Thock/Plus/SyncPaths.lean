import Thock.Lib.TextBytes
import Thock.SyncCore.Paths

/-!
# Paths the server takes

The server judges every path a client names, and tells a commit from an upload by the end of the
path. It takes every path the desk syncs, and no path it takes ends the way a commit does.

Normal form and letter case are the server's libraries' and stand as parameters.
-/

namespace Thock.Plus

open TextScan

def syncExtensions : List Text :=
  ["md", "txt", "toml", "json", "csv", "png", "jpg", "jpeg", "gif", "webp"].map String.toList

def excludedPrefixes : List Text := [".thock/history/", ".thock/cache/", ".thock/sync/", ".git/"].map String.toList

def maxPathBytes : ℕ := 1024

/-- What the server asks of its text libraries. -/
structure Unicode where
  isNormalString : Text → Bool
  toLower : Text → Text

/-- The offset of the last occurrence of a character, `-1` where there is none. -/
def lastIndex (c : Char) (text : Text) : ℤ :=
  match splitLast [c] text with
  | some (before, _) => before.length
  | none => -1

/-- What follows the last dot, or all of the text. -/
def afterLastDot (text : Text) : Text :=
  match splitLast ['.'] text with
  | some (_, after) => after
  | none => text

/-- The checks on a path, in order. -/
def validateSyncPath (unicode : Unicode) (path : Bytes) : Except Text Unit :=
  if path.isEmpty then .error "the path is empty".toList
  else if path.length > maxPathBytes then .error "the path is longer than 1024 bytes".toList
  else match decodeBytes path with
  | none => .error "the path isn't normalized UTF-8".toList
  | some text =>
    if !unicode.isNormalString text then .error "the path isn't normalized UTF-8".toList
    else if ['/'].isPrefixOf text || ['/'].isSuffixOf text then
      .error "the path can't start or end with a slash".toList
    else if (text.splitOn '/').any fun segment => segment.isEmpty || segment = ['.'] || segment = ['.', '.'] then
      .error "the path has an empty, '.' or '..' segment".toList
    else if lastIndex '.' text ≤ lastIndex '/' text ∨ unicode.toLower (afterLastDot text) ∉ syncExtensions then
      .error "only .md, .txt, .toml, .json, .csv and .png, .jpg, .jpeg, .gif, .webp files sync".toList
    else match excludedPrefixes.find? fun folder => folder.isPrefixOf text with
      | some folder => .error ("files under ".toList ++ folder ++ " never sync".toList)
      | none => .ok ()

def commitSuffix : Text := "/commit".toList

/-- What follows where a text ends in a suffix. -/
def cutSuffix (suffix path : Bytes) : Option Bytes :=
  if suffix.isSuffixOf path then some (path.take (path.length - suffix.length)) else none

/-- What the server does with a POST for a file. -/
inductive FilePost
  | beginUpload (path : Bytes)
  | commit (path : Bytes)
  | notAllowed (message : Text)
deriving DecidableEq

def notAllowed (error : Text) : FilePost := .notAllowed ("That file can't sync: ".toList ++ error ++ ['.'])

def handleFileCommit (unicode : Unicode) (path : Bytes) : FilePost :=
  match validateSyncPath unicode path with
  | .error error => notAllowed error
  | .ok () => .commit path

/-- Begin an upload, or commit one when the path ends in `/commit`. -/
def handleFilePost (unicode : Unicode) (path : Bytes) : FilePost :=
  match cutSuffix (asBytes commitSuffix) path with
  | some trimmed => handleFileCommit unicode trimmed
  | none =>
    match validateSyncPath unicode path with
    | .error error => notAllowed error
    | .ok () => .beginUpload path

/-! ## Texts of ASCII letters -/

theorem toLower_ascii {c : Char} (h : Ascii c.toLower) : Ascii c := by
  unfold Char.toLower at h
  split at h
  · rename_i hupper
    have hle : c.toNat ≤ 90 := hupper.2
    exact Nat.lt_of_le_of_lt hle (by decide)
  · exact h

theorem ascii_of_extension {extension allowed : Text} (hallowed : allowed ∈ syncExtensions)
    (h : SyncCore.eqIgnoreAsciiCase extension allowed = true) :
    (∀ c ∈ extension, Ascii c) ∧ extension.map Char.toLower = allowed ∧ '/' ∉ extension := by
  rw [SyncCore.eqIgnoreAsciiCase, decide_eq_true_eq] at h
  have hletters : ∀ text ∈ syncExtensions, text.map Char.toLower = text ∧ ∀ c ∈ text, c.toNat < 128 ∧ c ≠ '/' := by
    decide
  rw [(hletters allowed hallowed).1] at h
  have hchar : ∀ c ∈ extension, Ascii c.toLower ∧ c.toLower ≠ '/' := fun c hc =>
    (hletters allowed hallowed).2 _ (by rw [← h]; exact List.mem_map_of_mem hc)
  refine ⟨fun c hc => toLower_ascii (hchar c hc).1, h, fun hslash => ?_⟩
  exact (hchar '/' hslash).2 rfl

/-! ## What the desk syncs -/

theorem lastIndex_of_split {c : Char} {text before after : Text} (h : splitLast [c] text = some (before, after)) :
    lastIndex c text = before.length := by
  rw [lastIndex, h]

/-- A slash stands before the last dot where none follows it. -/
theorem lastIndex_slash_lt {stem extension : Text} (hslash : '/' ∉ extension) :
    lastIndex '/' (stem ++ ['.'] ++ extension) < stem.length := by
  rw [lastIndex]
  cases hsplit : splitLast ['/'] (stem ++ ['.'] ++ extension) with
  | none =>
    dsimp only
    omega
  | some parts =>
    obtain ⟨before, after⟩ := parts
    have htext := splitLast_eq hsplit
    dsimp only
    by_contra hnot
    have hle : stem.length ≤ before.length := by omega
    have hat : (stem ++ (['.'] ++ extension))[before.length]? = some '/' := by
      rw [← List.append_assoc, htext, List.append_assoc, List.getElem?_append_right le_rfl, Nat.sub_self]
      rfl
    rw [List.getElem?_append_right hle] at hat
    rcases List.mem_cons.mp (List.mem_of_getElem? hat) with hdot | hmem
    · cases hdot
    · exact hslash hmem

section

variable {isNfc : Text → Bool} {unicode : Unicode} (hnormal : ∀ text, isNfc text = true → unicode.isNormalString text = true)
  (hlower : ∀ text, (∀ c ∈ text, Ascii c) → unicode.toLower text = text.map Char.toLower)

include hnormal hlower in
/-- A path that is well formed for the desk, with an extension the server knows, is one the server takes. -/
theorem validateSyncPath_of_wellFormed {path extension allowed : Text}
    (h : SyncCore.wellFormedExtension isNfc path = some extension) (hallowed : allowed ∈ syncExtensions)
    (hextension : SyncCore.eqIgnoreAsciiCase extension allowed = true) :
    validateSyncPath unicode (asBytes path) = .ok () := by
  obtain ⟨hascii, hsame, hslash⟩ := ascii_of_extension hallowed hextension
  unfold SyncCore.wellFormedExtension at h
  rw [Option.ite_none_left_eq_some, Option.ite_none_left_eq_some, Option.ite_none_left_eq_some,
    Option.ite_none_left_eq_some, Option.ite_none_left_eq_some] at h
  obtain ⟨hfirst, hends, hsegments, -, hexcluded, hlast⟩ := h
  obtain ⟨⟨stem, found⟩, hsplit, hfound⟩ := Option.bind_eq_some_iff.mp hlast
  rw [Option.ite_none_left_eq_some] at hfound
  obtain ⟨-, hfound⟩ := hfound
  obtain rfl := Option.some.inj hfound
  simp only [Bool.or_eq_true, decide_eq_true_eq, Bool.not_eq_true', not_or, Bool.not_eq_false, not_lt] at hfirst
  obtain ⟨⟨hne, hlength⟩, hnfc⟩ := hfirst
  have hpath := splitLast_eq hsplit
  have hbytes : (asBytes path).isEmpty = false := by
    rw [List.isEmpty_eq_false_iff]
    intro hnil
    exact absurd (asBytes_injective (b := []) hnil) (by simpa using hne)
  have hshort : ¬(asBytes path).length > maxPathBytes := by
    rw [length_asBytes, not_lt]
    exact hlength
  have hstart : ['/'].isPrefixOf path = false := by
    cases path with
    | nil => rfl
    | cons c rest =>
      have hc : c ≠ '/' := fun hc => hends (Or.inl (by rw [hc]; rfl))
      rw [← Bool.not_eq_true, List.isPrefixOf_iff_prefix]
      exact fun hprefix => hc (List.cons_prefix_cons.mp hprefix).1.symm
  have hend : ['/'].isSuffixOf path = false := by
    rw [← Bool.not_eq_true, List.isSuffixOf_iff_suffix]
    rintro ⟨front, rfl⟩
    exact hends (Or.inr (Or.inl List.getLast?_concat))
  have hdot : ¬lastIndex '.' path ≤ lastIndex '/' path := by
    have hslashIndex := @lastIndex_slash_lt stem found hslash
    rw [← hpath] at hslashIndex
    rw [lastIndex_of_split hsplit]
    omega
  have hafter : unicode.toLower (afterLastDot path) ∈ syncExtensions := by
    rw [afterLastDot, hsplit]
    dsimp only
    rw [hlower _ hascii, hsame]
    exact hallowed
  have hfolder : (excludedPrefixes.find? fun folder => folder.isPrefixOf path) = none := by
    rw [List.find?_eq_none]
    rw [Bool.not_eq_true, List.any_eq_false] at hexcluded
    exact hexcluded
  rw [validateSyncPath, hbytes, if_neg Bool.false_ne_true, if_neg hshort, decodeBytes_asBytes]
  dsimp only
  rw [hnormal path hnfc, hstart, hend, Bool.not_true, Bool.or_false, if_neg Bool.false_ne_true, if_neg Bool.false_ne_true,
    if_neg hsegments, if_neg (not_or.mpr ⟨hdot, not_not.mpr hafter⟩), hfolder]

include hnormal hlower in
/-- The server takes every path the desk syncs. -/
theorem validateSyncPath_of_syncable {path imagesDir : Text}
    (h : SyncCore.isSyncablePath isNfc path = true ∨ SyncCore.isSyncableImagePath isNfc imagesDir path = true) :
    validateSyncPath unicode (asBytes path) = .ok () := by
  have htext : ∀ text ∈ SyncCore.syncableExtensions, text ∈ syncExtensions := by decide
  have himage : ∀ text ∈ SyncCore.imageExtensions, text ∈ syncExtensions := by decide
  rcases h with h | h
  · obtain ⟨extension, hextension, hany⟩ := Option.any_eq_true _ _ |>.mp h
    obtain ⟨allowed, hallowed, hsame⟩ := List.any_eq_true.mp hany
    exact validateSyncPath_of_wellFormed hnormal hlower hextension (htext allowed hallowed) hsame
  · unfold SyncCore.isSyncableImagePath at h
    dsimp only at h
    split at h
    · cases h
    · obtain ⟨extension, hextension, hboth⟩ := Option.any_eq_true _ _ |>.mp h
      rw [Bool.and_eq_true] at hboth
      obtain ⟨allowed, hallowed, hsame⟩ := List.any_eq_true.mp hboth.2
      exact validateSyncPath_of_wellFormed hnormal hlower hextension (himage allowed hallowed) hsame

end

/-! ## Uploads and commits -/

/-- Every check the server makes holds of a path it takes: its last dot stands behind its last slash. -/
theorem dot_behind_slash {unicode : Unicode} {path : Bytes} (h : validateSyncPath unicode path = .ok ()) :
    ∃ text, decodeBytes path = some text ∧ lastIndex '/' text < lastIndex '.' text := by
  unfold validateSyncPath at h
  split at h
  · cases h
  · split at h
    · cases h
    · split at h
      · cases h
      · rename_i text hdecode
        refine ⟨text, hdecode, ?_⟩
        split at h
        · cases h
        · split at h
          · cases h
          · split at h
            · cases h
            · split at h
              · cases h
              · rename_i hdot
                exact Int.not_le.mp (not_or.mp hdot).1

/-- No path the server takes ends the way a commit does. -/
theorem not_commit_of_valid {unicode : Unicode} {path : Bytes} (h : validateSyncPath unicode path = .ok ()) :
    cutSuffix (asBytes commitSuffix) path = none := by
  obtain ⟨text, hdecode, hdot⟩ := dot_behind_slash h
  rw [cutSuffix, if_neg]
  rw [List.isSuffixOf_iff_suffix]
  rintro ⟨front, hfront⟩
  rw [← asBytes_of_decodeBytes hdecode] at hfront
  obtain ⟨front, rfl⟩ := suffix_of_asBytes (by decide) hfront.symm
  have hslash : lastIndex '/' (front ++ commitSuffix) = front.length := by
    refine @lastIndex_of_split '/' _ front "commit".toList ?_
    have hsplit := @splitLast_of_head [] front "commit".toList '/' (by decide) List.not_mem_nil
    rwa [List.append_assoc] at hsplit
  rw [hslash, lastIndex] at hdot
  cases hsplit : splitLast ['.'] (front ++ commitSuffix) with
  | none =>
    rw [hsplit] at hdot
    dsimp only at hdot
    omega
  | some parts =>
    obtain ⟨before, after⟩ := parts
    rw [hsplit] at hdot
    dsimp only at hdot
    have htext := splitLast_eq hsplit
    have hat : (front ++ commitSuffix)[before.length]? = some '.' := by
      rw [htext, List.append_assoc, List.getElem?_append_right le_rfl, Nat.sub_self]
      rfl
    rw [List.getElem?_append_right (by omega)] at hat
    exact absurd (List.mem_of_getElem? hat) (by decide)

theorem cutSuffix_append (suffix path : Bytes) : cutSuffix suffix (path ++ suffix) = some path := by
  rw [cutSuffix, if_pos (by rw [List.isSuffixOf_iff_suffix]; exact List.suffix_append _ _), List.length_append,
    Nat.add_sub_cancel, List.take_left]

/-- The server takes every path the desk syncs, and a POST for a path it takes is what the desk meant. -/
theorem synced_paths_are_taken (isNfc : Text → Bool) (unicode : Unicode)
    (hnormal : ∀ text, isNfc text = true → unicode.isNormalString text = true)
    (hlower : ∀ text, (∀ c ∈ text, Ascii c) → unicode.toLower text = text.map Char.toLower) :
    (∀ path imagesDir, SyncCore.isSyncablePath isNfc path = true ∨ SyncCore.isSyncableImagePath isNfc imagesDir path = true →
        validateSyncPath unicode (asBytes path) = .ok ()) ∧
      ∀ path, validateSyncPath unicode path = .ok () →
        ¬asBytes commitSuffix <:+ path ∧ handleFilePost unicode path = .beginUpload path ∧
          handleFilePost unicode (path ++ asBytes commitSuffix) = .commit path := by
  refine ⟨fun path imagesDir => validateSyncPath_of_syncable hnormal hlower, fun path hvalid => ?_⟩
  have hcut := not_commit_of_valid hvalid
  refine ⟨fun hsuffix => ?_, ?_, ?_⟩
  · rw [cutSuffix, if_pos (List.isSuffixOf_iff_suffix.mpr hsuffix)] at hcut
    cases hcut
  · rw [handleFilePost, hcut]
    dsimp only
    rw [hvalid]
  · rw [handleFilePost, cutSuffix_append]
    dsimp only
    rw [handleFileCommit, hvalid]

/-- ASCII alone is in normal form here, and lowered letter by letter. -/
def asciiUnicode : Unicode := ⟨fun text => text.all fun c => c.toNat < 128, List.map Char.toLower⟩

theorem synced_paths_are_taken_daily :
    validateSyncPath asciiUnicode (asBytes "daily/2026-10-02.MD".toList) = .ok () :=
  (synced_paths_are_taken asciiUnicode.isNormalString asciiUnicode (fun _ h => h) (fun _ _ => rfl)).1
    "daily/2026-10-02.MD".toList [] (Or.inl (by decide +kernel))

end Thock.Plus
