import Mathlib.Data.List.Nodup
import Thock.Desk.ReadwiseAppend

/-!
# Readwise polls over a vault

The service's half of the Readwise sync: a poll scans the mapped folders, plans, and writes the
notes, then the landed rows, then the watermark, and may be cut after any of these writes; the
person edits the vault after polls that completed. Beside what the service keeps, a history of
the highlights whose lines were put into a note is kept.

Under the condition that no outside text brings a marker in, every highlight of a completed poll
is written by its end, and none is ever written twice.
-/

namespace Thock.Desk.Readwise

open TextScan SyncCore SyncCore.Reminder

/-! ## The vault and its scan -/

structure NoteFile where
  path : NotePath
  content : Text
deriving DecidableEq, Repr

/-- The notes of a vault, in the order a folder listing gives them; no two have one path. -/
structure Vault where
  files : List NoteFile
  distinct : (files.map NoteFile.path).Nodup

/-- The notes a scan reads, folder by folder. -/
def listed (config : ReadwiseConfig) (files : List NoteFile) : List NoteFile :=
  config.mappings.flatMap fun mapping => files.filter fun file => file.path.folder = mapping.path

/-- One pass over every mapped folder. -/
def scanVault (config : ReadwiseConfig) (files : List NoteFile) : ReadwiseVaultScan :=
  (listed config files).foldl (fun scan file => scan.record file.path file.content) ⟨[], []⟩

def Vault.find (vault : Vault) (path : NotePath) : Option NoteFile := vault.files.find? fun file => file.path = path

/-- A vault with one more note. -/
def Vault.add (vault : Vault) (file : NoteFile) (h : file.path ∉ vault.files.map NoteFile.path) : Vault :=
  ⟨vault.files ++ [file], by
    rw [List.map_append, List.nodup_append]
    refine ⟨vault.distinct, List.nodup_singleton _, fun a ha b hb heq => h ?_⟩
    rw [List.map_singleton, List.mem_singleton] at hb
    rw [← hb, ← heq]
    exact ha⟩

/-- A note with other content, where it has the path. -/
def NoteFile.rewrite (path : NotePath) (content : Text) (file : NoteFile) : NoteFile :=
  if file.path = path then { file with content := content } else file

@[simp] theorem NoteFile.rewrite_path (path : NotePath) (content : Text) (file : NoteFile) :
    (file.rewrite path content).path = file.path := by
  unfold NoteFile.rewrite
  split <;> rfl

/-- A vault with another content in one note. -/
def Vault.replace (vault : Vault) (path : NotePath) (content : Text) : Vault :=
  ⟨vault.files.map (NoteFile.rewrite path content), by
    have hpaths : (vault.files.map (NoteFile.rewrite path content)).map NoteFile.path =
        vault.files.map NoteFile.path := by
      rw [List.map_map]
      exact List.map_congr_left fun file _ => file.rewrite_path path content
    rw [hpaths]
    exact vault.distinct⟩

/-! ## What a poll writes -/

/-- One `landed.jsonl` row. -/
structure LandedRow where
  highlight : UInt64
  book : UInt64
  path : NotePath
deriving DecidableEq, Repr

/-- The record the rows load as. -/
def landedState (rows : List LandedRow) : LandedState := ⟨rows.map LandedRow.highlight, rows.map LandedRow.book⟩

/-- Highlights marked in a note but missing from the record. -/
def repairRows (scan : ReadwiseVaultScan) (landed : LandedState) : List LandedRow :=
  scan.notes.flatMap fun (book, note) =>
    ((note.markers.filter fun highlight => highlight ∉ landed.highlights).insertionSort (· ≤ ·)).map fun highlight =>
      ⟨highlight, book, note.path⟩

def changeRows (changes : List NoteChange) : List LandedRow :=
  changes.flatMap fun change => change.highlightIds.map fun highlight => ⟨highlight, change.bookId, change.path⟩

inductive PollWrite
  | note (change : NoteChange)
  | landed (rows : List LandedRow)
  | watermark (moment : ℤ)

/-- What the service keeps, whether its last poll completed, and the highlights written so far. -/
structure World where
  vault : Vault
  rows : List LandedRow
  watermark : Option ℤ
  settled : Bool
  written : List UInt64

/-- The lines of an append that the note does not hold yet, with their highlights. -/
def pendingLines (text : Text) (ids : List UInt64) (lines : List Text) : List (UInt64 × Text) :=
  (ids.zip lines).filter fun line => (scanMarkers line.2).all fun id => id ∉ scanMarkers text

/-- One write; a note that appeared or is gone fails it. -/
def World.write (w : World) : PollWrite → Option World
  | .note ⟨path, _, ids, .create contents⟩ =>
    if h : path ∈ w.vault.files.map NoteFile.path then none
    else some { w with vault := w.vault.add ⟨path, contents⟩ h, written := w.written ++ ids }
  | .note ⟨path, _, ids, .append lines⟩ =>
    (w.vault.find path).map fun file =>
      let pending := pendingLines file.content ids lines
      if pending.isEmpty then w
      else
        let edit := appendHighlightsEdit file.content (pending.map Prod.snd)
        { w with
          vault := w.vault.replace path (applyEdits file.content [edit])
          written := w.written ++ pending.map Prod.fst }
  | .landed rows => some { w with rows := w.rows ++ rows }
  | .watermark moment => some { w with watermark := some moment }

/-- Writes in order until one fails or the poll is cut; whether all of them were made. -/
def World.writes : ℕ → World → List PollWrite → World × Bool
  | _, w, [] => (w, true)
  | 0, w, _ :: _ => (w, false)
  | cut + 1, w, write :: rest =>
    match w.write write with
    | some after => World.writes cut after rest
    | none => (w, false)

/-- A poll: what was fetched, when it started, and after how many writes it is cut if it has more. -/
structure Poll where
  sources : List ReadwiseSource
  startedAt : ℤ
  cut : ℕ

/-- The margin the watermark is backed off by, in seconds. -/
def watermarkSkew : ℤ := 5 * 60

def World.plan (calendar : Calendar) (config : ReadwiseConfig) (w : World) (poll : Poll) : List NoteChange :=
  planReadwiseSync calendar config (scanVault config w.vault.files) (landedState w.rows) poll.sources

/-- The rows a poll appends: repairs first, then what it landed. -/
def World.newRows (calendar : Calendar) (config : ReadwiseConfig) (w : World) (poll : Poll) : List LandedRow :=
  repairRows (scanVault config w.vault.files) (landedState w.rows) ++ changeRows (w.plan calendar config poll)

/-- The writes of a poll in order: notes, rows unless there are none, watermark. -/
def World.pollWrites (calendar : Calendar) (config : ReadwiseConfig) (w : World) (poll : Poll) : List PollWrite :=
  (w.plan calendar config poll).map PollWrite.note ++
    ((if (w.newRows calendar config poll).isEmpty then [] else [.landed (w.newRows calendar config poll)]) ++
      [.watermark (poll.startedAt - watermarkSkew)])

def World.poll (calendar : Calendar) (config : ReadwiseConfig) (w : World) (poll : Poll) : World :=
  let result := World.writes poll.cut w (w.pollWrites calendar config poll)
  { result.1 with settled := result.2 }

/-! ## Runs -/

/-- What happens to a vault: a poll, an edit by the person, or a listing in another order. -/
inductive Event
  | poll (poll : Poll)
  | edit (vault : Vault)
  | relist (vault : Vault)

def World.empty : World := ⟨⟨[], List.nodup_nil⟩, [], none, true, []⟩

def World.step (calendar : Calendar) (config : ReadwiseConfig) (w : World) : Event → World
  | .poll poll => w.poll calendar config poll
  | .edit vault => { w with vault := vault }
  | .relist vault => { w with vault := vault }

/-- What a run may hold: each source is listed once, each highlight by its own source, and the person
edits after polls that completed. -/
def Allowed (owner : UInt64 → UInt64) (w : World) : Event → Prop
  | .poll poll => (poll.sources.map ReadwiseSource.userBookId).Nodup ∧
      ∀ source ∈ poll.sources, ∀ highlight ∈ source.highlights, owner highlight.id = source.userBookId
  | .edit _ => w.settled = true
  | .relist vault => vault.files.Perm w.vault.files

/-- The note a scan keeps for a source: the last one listed. -/
def noteOf (config : ReadwiseConfig) (files : List NoteFile) (book : UInt64) : Option NoteFile :=
  ((listed config files).filter fun file => noteReadwiseId file.content = some book).getLast?

/-- The condition on a step: what is put into notes is clean, an edit brings no marker of a highlight that
did not land, and two notes of one source keep their order in the listing. -/
def Clean (config : ReadwiseConfig) (w : World) : Event → Prop
  | .poll poll => ∀ source ∈ poll.sources, (config.folderFor source.category).isSome = true → source.isDeleted = false →
      let existing := (scanVault config w.vault.files).notes.get source.userBookId
      (existing = none → CleanHead source) ∧
        ∀ highlight ∈ freshHighlights (landedState w.rows) existing source, CleanHighlight highlight source
  | .edit vault => ∀ file ∈ listed config vault.files, (noteReadwiseId file.content).isSome = true →
      ∀ id ∈ scanMarkers file.content, id ∈ w.rows.map LandedRow.highlight
  | .relist vault => ∀ book, ((listed config vault.files).filter fun file => noteReadwiseId file.content = some book) =
      (listed config w.vault.files).filter fun file => noteReadwiseId file.content = some book

/-- The states reached by steps that meet a condition, from an empty vault. -/
inductive Reached (calendar : Calendar) (config : ReadwiseConfig) (owner : UInt64 → UInt64)
    (ok : World → Event → Prop) : World → Prop
  | start : Reached calendar config owner ok World.empty
  | step {w : World} {event : Event} (before : Reached calendar config owner ok w) (allowed : Allowed owner w event)
      (clean : ok w event) : Reached calendar config owner ok (w.step calendar config event)

/-! ## What a scan finds -/

theorem noteOf_mem {config : ReadwiseConfig} {files : List NoteFile} {book : UInt64} {file : NoteFile}
    (h : noteOf config files book = some file) :
    file ∈ listed config files ∧ noteReadwiseId file.content = some book := by
  have hmem := List.mem_filter.mp (List.mem_of_getLast? h)
  exact ⟨hmem.1, of_decide_eq_true hmem.2⟩

theorem mem_of_mem_listed {config : ReadwiseConfig} {files : List NoteFile} {file : NoteFile}
    (h : file ∈ listed config files) : file ∈ files := by
  obtain ⟨mapping, -, hmem⟩ := List.mem_flatMap.mp h
  exact (List.mem_filter.mp hmem).1

/-- What a scan kept as the note of a source. -/
def scannedNote (file : NoteFile) : ScannedNote := ⟨file.path, scanMarkers file.content⟩

/-! ## What a plan holds -/

/-- A change of a plan: the source it is for, and how its highlights go into the vault. -/
structure PlannedFor (calendar : Calendar) (config : ReadwiseConfig) (scan : ReadwiseVaultScan) (landed : LandedState)
    (change : NoteChange) (source : ReadwiseSource) (folder : Text) : Prop where
  mapped : config.folderFor source.category = some folder
  kept : source.isDeleted = false
  book : change.bookId = source.userBookId
  ids : change.highlightIds =
    (sortHighlights calendar (freshHighlights landed (scan.notes.get source.userBookId) source)).map ReadwiseHighlight.id
  fresh : change.highlightIds ≠ []
  append : ∀ note, scan.notes.get source.userBookId = some note → change.path = note.path ∧
    change.write = .append ((sortHighlights calendar (freshHighlights landed (some note) source)).map fun highlight =>
      renderHighlight calendar highlight source)
  create : scan.notes.get source.userBookId = none → change.path.folder = folder ∧
    change.write = .create (renderNote calendar source (sortHighlights calendar (freshHighlights landed none source)))

section Plan
variable {calendar : Calendar} {config : ReadwiseConfig} {scan : ReadwiseVaultScan} {landed : LandedState}

/-- A source that has nothing to write: not mapped, deleted, planned before, or all of it known. -/
def Idle (config : ReadwiseConfig) (scan : ReadwiseVaultScan) (landed : LandedState) (planned : List UInt64)
    (source : ReadwiseSource) : Prop :=
  config.folderFor source.category = none ∨ source.isDeleted = true ∨ source.userBookId ∈ planned ∨
    freshHighlights landed (scan.notes.get source.userBookId) source = []

end Plan

/-! ## Which highlights are fresh -/

theorem mem_distinctHighlights {seen : List UInt64} {highlights : List ReadwiseHighlight} {highlight : ReadwiseHighlight}
    (h : highlight ∈ distinctHighlights seen highlights) : highlight ∈ highlights ∧ highlight.id ∉ seen := by
  induction highlights generalizing seen with
  | nil => cases h
  | cons first rest ih =>
    rw [distinctHighlights] at h
    split at h
    · exact ⟨List.mem_cons_of_mem _ (ih h).1, (ih h).2⟩
    · rcases List.mem_cons.mp h with rfl | h
      · exact ⟨List.mem_cons_self, ‹_›⟩
      · exact ⟨List.mem_cons_of_mem _ (ih h).1, fun hseen => (ih h).2 (List.mem_cons_of_mem _ hseen)⟩

theorem distinctHighlights_nodup (seen : List UInt64) (highlights : List ReadwiseHighlight) :
    ((distinctHighlights seen highlights).map ReadwiseHighlight.id).Nodup := by
  induction highlights generalizing seen with
  | nil => exact List.nodup_nil
  | cons first rest ih =>
    rw [distinctHighlights]
    split
    · exact ih seen
    · rw [List.map_cons, List.nodup_cons]
      refine ⟨fun hmem => ?_, ih _⟩
      obtain ⟨later, hlater, hid⟩ := List.mem_map.mp hmem
      exact (mem_distinctHighlights hlater).2 (by rw [hid]; exact List.mem_cons_self)

theorem PlannedFor.ids_nodup {calendar : Calendar} {config : ReadwiseConfig} {scan : ReadwiseVaultScan}
    {landed : LandedState} {change : NoteChange} {source : ReadwiseSource} {folder : Text}
    (h : PlannedFor calendar config scan landed change source folder) : change.highlightIds.Nodup := by
  rw [h.ids]
  exact ((List.perm_insertionSort _ _).map _).nodup_iff.mpr (distinctHighlights_nodup _ _)

/-- A highlight that may land, and that neither record knows, is written by the change of its source. -/
theorem PlannedFor.covers {calendar : Calendar} {config : ReadwiseConfig} {scan : ReadwiseVaultScan}
    {landed : LandedState} {change : NoteChange} {source : ReadwiseSource} {folder : Text}
    (h : PlannedFor calendar config scan landed change source folder) {highlight : ReadwiseHighlight}
    (hfresh : highlight.id ∈ (freshHighlights landed (scan.notes.get source.userBookId) source).map ReadwiseHighlight.id) :
    highlight.id ∈ change.highlightIds := by
  rw [h.ids]
  exact ((List.perm_insertionSort _ _).map _).mem_iff.mpr hfresh

/-! ## Writing one note -/

section Frame
variable {config : ReadwiseConfig}

theorem listed_map {f : NoteFile → NoteFile} (hf : ∀ file, (f file).path = file.path) (files : List NoteFile) :
    listed config (files.map f) = (listed config files).map f := by
  unfold listed
  rw [List.map_flatMap]
  congr 1
  funext mapping
  rw [List.filter_map]
  congr 1
  apply List.filter_congr
  intro file _
  rw [Function.comp_apply, hf]

theorem filter_listed (files : List NoteFile) (p : NoteFile → Bool) :
    (listed config files).filter p = listed config (files.filter p) := by
  unfold listed
  rw [List.filter_flatMap]
  congr 1
  funext mapping
  rw [List.filter_filter, List.filter_filter]
  apply List.filter_congr
  intro file _
  exact Bool.and_comm _ _

/-- Another content in one note, of the same source, shows in that note alone. -/
theorem noteOf_replace (config : ReadwiseConfig) {files : List NoteFile} {path : NotePath} {content : Text}
    (hid : ∀ file ∈ files, file.path = path → noteReadwiseId content = noteReadwiseId file.content) (book : UInt64) :
    noteOf config (files.map (NoteFile.rewrite path content)) book =
      (noteOf config files book).map (NoteFile.rewrite path content) := by
  have hsame : (listed config files).filter ((fun file => decide (noteReadwiseId file.content = some book)) ∘
      NoteFile.rewrite path content) =
      (listed config files).filter fun file => noteReadwiseId file.content = some book := by
    apply List.filter_congr
    intro file hfile
    rw [Function.comp_apply, NoteFile.rewrite]
    split
    · rw [hid file (mem_of_mem_listed hfile) ‹_›]
    · rfl
  rw [noteOf, listed_map (NoteFile.rewrite_path path content), List.filter_map, hsame, List.getLast?_map]
  rfl

theorem noteOf_add_of_ne {files : List NoteFile} {file : NoteFile} {book : UInt64}
    (h : noteReadwiseId file.content ≠ some book) : noteOf config (files ++ [file]) book = noteOf config files book := by
  rw [noteOf, filter_listed, List.filter_append, List.filter_cons_of_neg (by simpa using h), List.filter_nil,
    List.append_nil, ← filter_listed]
  rfl

theorem noteOf_add_self {files : List NoteFile} {file : NoteFile} {book : UInt64}
    (h : noteReadwiseId file.content = some book) (hnone : noteOf config files book = none)
    (hmapped : ∃ mapping ∈ config.mappings, mapping.path = file.path.folder) :
    noteOf config (files ++ [file]) book = some file := by
  rw [noteOf, List.getLast?_eq_none_iff, List.filter_eq_nil_iff] at hnone
  have hmem : ∀ other, other ∈ listed config (files ++ [file]) ↔
      other ∈ listed config files ∨ ∃ mapping ∈ config.mappings, other = file ∧ other.path.folder = mapping.path := by
    intro other
    simp only [listed, List.mem_flatMap, List.mem_filter, List.mem_append, List.mem_singleton, decide_eq_true_eq]
    constructor
    · rintro ⟨mapping, hmapping, hother | hother, hfolder⟩
      · exact Or.inl ⟨mapping, hmapping, hother, hfolder⟩
      · exact Or.inr ⟨mapping, hmapping, hother, hfolder⟩
    · rintro (⟨mapping, hmapping, hother, hfolder⟩ | ⟨mapping, hmapping, hother, hfolder⟩)
      · exact ⟨mapping, hmapping, Or.inl hother, hfolder⟩
      · exact ⟨mapping, hmapping, Or.inr hother, hfolder⟩
  cases hlast : noteOf config (files ++ [file]) book with
  | none =>
    obtain ⟨mapping, hmapping, hfolder⟩ := hmapped
    rw [noteOf, List.getLast?_eq_none_iff, List.filter_eq_nil_iff] at hlast
    exact absurd (decide_eq_true h) (hlast file ((hmem file).mpr (Or.inr ⟨mapping, hmapping, rfl, hfolder.symm⟩)))
  | some other =>
    have hother := noteOf_mem hlast
    rcases (hmem other).mp hother.1 with hlisted | ⟨-, -, rfl, -⟩
    · exact absurd (decide_eq_true hother.2) (hnone other hlisted)
    · rfl

theorem mem_listed_add {files : List NoteFile} {file other : NoteFile} (h : other ∈ listed config (files ++ [file])) :
    other ∈ listed config files ∨ other = file := by
  obtain ⟨mapping, hmapping, hmem⟩ := List.mem_flatMap.mp h
  obtain ⟨hmem, hfolder⟩ := List.mem_filter.mp hmem
  rcases List.mem_append.mp hmem with hmem | hmem
  · exact Or.inl (List.mem_flatMap.mpr ⟨mapping, hmapping, List.mem_filter.mpr ⟨hmem, hfolder⟩⟩)
  · exact Or.inr (List.mem_singleton.mp hmem)

end Frame

/-- A note is found by its path. -/
theorem Vault.find_of_mem {vault : Vault} {file : NoteFile} (h : file ∈ vault.files) : vault.find file.path = some file := by
  obtain ⟨files, hdistinct⟩ := vault
  change files.find? (fun other => other.path = file.path) = some file
  induction files with
  | nil => cases h
  | cons first rest ih =>
    rw [List.map_cons, List.nodup_cons] at hdistinct
    rcases List.mem_cons.mp h with rfl | h
    · simp
    · have hne : first.path ≠ file.path := fun heq => hdistinct.1 (List.mem_map.mpr ⟨file, h, heq.symm⟩)
      rw [List.find?_cons_of_neg (by simpa using hne)]
      exact ih hdistinct.2 h

/-! ## The invariant -/

/-- What holds between any two writes: nothing is written twice, both records only know what was written,
and what was written and did not land stands in its source's note. -/
structure Inv (config : ReadwiseConfig) (owner : UInt64 → UInt64) (w : World) : Prop where
  once : w.written.Nodup
  landed : ∀ id ∈ w.rows.map LandedRow.highlight, id ∈ w.written
  marked : ∀ file ∈ listed config w.vault.files, noteReadwiseId file.content ≠ none →
    ∀ id ∈ scanMarkers file.content, id ∈ w.written
  kept : ∀ id ∈ w.written, id ∈ w.rows.map LandedRow.highlight ∨
    ∃ file, noteOf config w.vault.files (owner id) = some file ∧ ∃ day, highlightMarker id day <:+: file.content

/-- What a change needs to be written as planned: its highlights are its source's and not written yet, and
its note is the source's, or there is none. -/
structure Ready (config : ReadwiseConfig) (owner : UInt64 → UInt64) (w : World) (change : NoteChange) : Prop where
  nodup : change.highlightIds.Nodup
  owned : ∀ id ∈ change.highlightIds, owner id = change.bookId
  fresh : ∀ id ∈ change.highlightIds, id ∉ w.written
  append : ∀ lines, change.write = .append lines →
    (∃ file, noteOf config w.vault.files change.bookId = some file ∧ file.path = change.path) ∧
      List.Forall₂ (fun id line => Bullet line ∧ MarkedLines line [id]) change.highlightIds lines
  create : ∀ contents, change.write = .create contents →
    noteOf config w.vault.files change.bookId = none ∧ noteReadwiseId contents = some change.bookId ∧
      Marked contents change.highlightIds ∧ ∃ mapping ∈ config.mappings, mapping.path = change.path.folder

/-- The lines of an append go in as a whole where the note holds none of their markers. -/
theorem pendingLines_all {text : Text} {ids : List UInt64} {lines : List Text}
    (hlines : List.Forall₂ (fun id line => Bullet line ∧ MarkedLines line [id]) ids lines)
    (hfresh : ∀ id ∈ ids, id ∉ scanMarkers text) :
    (pendingLines text ids lines).map Prod.fst = ids ∧ (pendingLines text ids lines).map Prod.snd = lines := by
  have hall : pendingLines text ids lines = ids.zip lines := by
    refine List.filter_eq_self.mpr fun p hp => ?_
    have hp' := (List.forall₂_iff_zip.mp hlines).2 hp
    refine List.all_eq_true.mpr fun id hid => decide_eq_true ?_
    rw [hp'.2.marked.scan, List.mem_singleton] at hid
    rw [hid]
    exact hfresh p.1 (List.of_mem_zip hp).1
  rw [hall]
  exact ⟨List.map_fst_zip hlines.length_eq.le, List.map_snd_zip hlines.length_eq.ge⟩

theorem lines_block {ids : List UInt64} {lines : List Text}
    (h : List.Forall₂ (fun id line => Bullet line ∧ MarkedLines line [id]) ids lines) :
    (∀ line ∈ lines, Bullet line) ∧ MarkedLines lines.flatten ids := by
  induction h with
  | nil => exact ⟨List.forall_mem_nil _, markedLines_nil⟩
  | cons hline _ ih => exact ⟨List.forall_mem_cons.mpr ⟨hline.1, ih.1⟩, hline.2.append ih.2⟩

/-! ## The steps of a poll -/

/-- What writing one change leads to. -/
structure Written (config : ReadwiseConfig) (w after : World) (change : NoteChange) : Prop where
  rows : after.rows = w.rows
  written : after.written = w.written ++ change.highlightIds
  others : ∀ book, book ≠ change.bookId → noteOf config after.vault.files book = noteOf config w.vault.files book
  own : ∀ id ∈ change.highlightIds, ∃ file, noteOf config after.vault.files change.bookId = some file ∧
    ∃ day, highlightMarker id day <:+: file.content
  kept : ∀ file, noteOf config w.vault.files change.bookId = some file →
    ∃ file', noteOf config after.vault.files change.bookId = some file' ∧
      ∀ id day, highlightMarker id day <:+: file.content → highlightMarker id day <:+: file'.content
  marked : ∀ file ∈ listed config after.vault.files, noteReadwiseId file.content ≠ none →
    ∀ id ∈ scanMarkers file.content,
      (∃ file' ∈ listed config w.vault.files, noteReadwiseId file'.content ≠ none ∧ id ∈ scanMarkers file'.content) ∨
        id ∈ change.highlightIds

/-- Lines put into the note of a source. -/
theorem Inv.write_append {config : ReadwiseConfig} {owner : UInt64 → UInt64} {w after : World} {change : NoteChange}
    {lines : List Text} (h : Inv config owner w) (hready : Ready config owner w change)
    (hchange : change.write = .append lines) (hwrite : w.write (.note change) = some after) :
    Written config w after change := by
  obtain ⟨path, book, ids, write⟩ := change
  obtain rfl : write = .append lines := hchange
  obtain ⟨⟨file, hnote, hpath⟩, hlines⟩ := hready.append lines rfl
  dsimp only at hnote hpath hlines
  obtain ⟨hlisted, hid⟩ := noteOf_mem hnote
  have hfind : w.vault.find path = some file := by
    rw [← hpath]
    exact Vault.find_of_mem (mem_of_mem_listed hlisted)
  have hsynced : noteReadwiseId file.content ≠ none := by
    rw [hid]
    exact Option.some_ne_none _
  have hunmarked : ∀ id ∈ ids, id ∉ scanMarkers file.content := fun id hmem hscan =>
    hready.fresh id hmem (h.marked file hlisted hsynced id hscan)
  obtain ⟨hfst, hsnd⟩ := pendingLines_all hlines hunmarked
  simp only [World.write, hfind, Option.map_some, Option.some.injEq] at hwrite
  by_cases hempty : (pendingLines file.content ids lines).isEmpty = true
  · rw [if_pos hempty] at hwrite
    have hids : ids = [] := by
      rw [← hfst, List.isEmpty_iff.mp hempty]
      rfl
    subst hwrite hids
    exact ⟨rfl, (List.append_nil _).symm, fun _ _ => rfl, List.forall_mem_nil _,
      fun file hfile => ⟨file, hfile, fun _ _ hmid => hmid⟩,
      fun file hfile hne id hscan => Or.inl ⟨file, hfile, hne, hscan⟩⟩
  · rw [if_neg hempty, hfst, hsnd] at hwrite
    have hne : lines ≠ [] := by
      rintro rfl
      rw [List.map_eq_nil_iff] at hsnd
      rw [hsnd] at hempty
      exact hempty rfl
    obtain ⟨hbullets, hmarked⟩ := lines_block hlines
    have hblock := bullet_flatten hne hbullets
    obtain ⟨front, gap, back, hlands⟩ := append_lands file.content lines
    have hid' := hlands.readwiseId hblock hid
    have hsame : ∀ other ∈ w.vault.files, other.path = path →
        noteReadwiseId (applyEdits file.content [appendHighlightsEdit file.content lines]) =
          noteReadwiseId other.content := by
      intro other hother hotherPath
      have hfound := Vault.find_of_mem hother
      rw [hotherPath, hfind] at hfound
      rw [hid', ← Option.some.inj hfound, hid]
    have hnotes := noteOf_replace config hsame
    have hrewritten : file.rewrite path (applyEdits file.content [appendHighlightsEdit file.content lines]) =
        ⟨path, applyEdits file.content [appendHighlightsEdit file.content lines]⟩ := by
      rw [NoteFile.rewrite, if_pos hpath, hpath]
    have hown : noteOf config after.vault.files book =
        some ⟨path, applyEdits file.content [appendHighlightsEdit file.content lines]⟩ := by
      rw [← hwrite]
      change noteOf config (w.vault.files.map _) book = _
      rw [hnotes, hnote, Option.map_some, hrewritten]
    refine ⟨by rw [← hwrite], by rw [← hwrite], fun other hother => ?_, fun id hmem => ⟨_, hown, ?_⟩,
      fun found hfound => ⟨_, hown, fun id day hmid => ?_⟩, fun found hfound hfoundId id hscan => ?_⟩
    · rw [← hwrite]
      change noteOf config (w.vault.files.map _) other = _
      rw [hnotes]
      cases hotherNote : noteOf config w.vault.files other with
      | none => rfl
      | some found =>
        have hfound := noteOf_mem hotherNote
        rw [Option.map_some, NoteFile.rewrite, if_neg]
        intro hfoundPath
        have hfoundId := hsame found (mem_of_mem_listed hfound.1) hfoundPath
        rw [hid', hfound.2] at hfoundId
        exact hother (Option.some.inj hfoundId).symm
    · obtain ⟨day, hmid⟩ := hmarked.marked.each id hmem
      exact ⟨day, hmid.trans hlands.block_isInfix⟩
    · rw [hnote] at hfound
      rw [← Option.some.inj hfound] at hmid
      exact hlands.isInfix (no_newline_marker id day) hmid
    · rw [← hwrite] at hfound
      change found ∈ listed config (w.vault.files.map _) at hfound
      rw [listed_map (NoteFile.rewrite_path _ _)] at hfound
      obtain ⟨old, hold, rfl⟩ := List.mem_map.mp hfound
      by_cases hold' : old.path = path
      · have hfoundOld := Vault.find_of_mem (mem_of_mem_listed hold)
        rw [hold', hfind] at hfoundOld
        rw [NoteFile.rewrite, if_pos hold'] at hscan
        rcases hlands.scan hblock hmarked.marked hscan with hscan | hmem
        · exact Or.inl ⟨file, hlisted, hsynced, hscan⟩
        · exact Or.inr hmem
      · rw [NoteFile.rewrite, if_neg hold'] at hfoundId hscan
        exact Or.inl ⟨old, hold, hfoundId, hscan⟩

/-- A new note of a source that has none. -/
theorem Ready.write_create {config : ReadwiseConfig} {owner : UInt64 → UInt64} {w after : World} {change : NoteChange}
    {contents : Text} (hready : Ready config owner w change) (hchange : change.write = .create contents)
    (hwrite : w.write (.note change) = some after) : Written config w after change := by
  obtain ⟨hnone, hid, hmarked, hmapped⟩ := hready.create contents hchange
  obtain ⟨path, book, ids, write⟩ := change
  obtain rfl : write = .create contents := hchange
  simp only [World.write] at hwrite
  by_cases hpath : path ∈ w.vault.files.map NoteFile.path
  · rw [dif_pos hpath] at hwrite
    cases hwrite
  · rw [dif_neg hpath] at hwrite
    obtain rfl := Option.some.inj hwrite
    have hown : noteOf config (w.vault.files ++ [⟨path, contents⟩]) book = some ⟨path, contents⟩ :=
      noteOf_add_self hid hnone hmapped
    refine ⟨rfl, rfl, fun other hother => ?_, fun id hmem => ⟨_, hown, hmarked.each id hmem⟩, fun file hfile => ?_,
      fun found hfound hfoundId id hscan => ?_⟩
    · exact noteOf_add_of_ne fun heq => hother (Option.some.inj (heq.symm.trans hid))
    · rw [hnone] at hfile
      cases hfile
    · rcases mem_listed_add hfound with hlisted | rfl
      · exact Or.inl ⟨found, hlisted, hfoundId, hscan⟩
      · exact Or.inr ((hmarked.scan id).mp hscan)

theorem Inv.write_note {config : ReadwiseConfig} {owner : UInt64 → UInt64} {w after : World} {change : NoteChange}
    (h : Inv config owner w) (hready : Ready config owner w change) (hwrite : w.write (.note change) = some after) :
    Written config w after change := by
  cases hchange : change.write with
  | append lines => exact h.write_append hready hchange hwrite
  | create contents => exact hready.write_create hchange hwrite

theorem Inv.note {config : ReadwiseConfig} {owner : UInt64 → UInt64} {w after : World} {change : NoteChange}
    (h : Inv config owner w) (hready : Ready config owner w change) (hw : Written config w after change) :
    Inv config owner after := by
  refine ⟨?_, fun id hid => ?_, fun file hfile hne id hscan => ?_, fun id hid => ?_⟩
  · rw [hw.written, List.nodup_append]
    refine ⟨h.once, hready.nodup, fun a ha b hb heq => ?_⟩
    rw [heq] at ha
    exact hready.fresh b hb ha
  · rw [hw.rows] at hid
    rw [hw.written]
    exact List.mem_append_left _ (h.landed id hid)
  · rw [hw.written, List.mem_append]
    rcases hw.marked file hfile hne id hscan with ⟨old, hold, holdNe, holdScan⟩ | hmem
    · exact Or.inl (h.marked old hold holdNe id holdScan)
    · exact Or.inr hmem
  · rw [hw.written, List.mem_append] at hid
    rw [hw.rows]
    rcases hid with hid | hid
    · refine (h.kept id hid).imp_right ?_
      rintro ⟨file, hfile, day, hmid⟩
      by_cases hbook : owner id = change.bookId
      · rw [hbook] at hfile ⊢
        obtain ⟨file', hfile', hkeeps⟩ := hw.kept file hfile
        exact ⟨file', hfile', day, hkeeps id day hmid⟩
      · exact ⟨file, by rw [hw.others _ hbook, hfile], day, hmid⟩
    · refine Or.inr ?_
      rw [hready.owned id hid]
      exact hw.own id hid

/-- Writing one source's change leaves the change of another as ready as it was. -/
theorem Ready.note {config : ReadwiseConfig} {owner : UInt64 → UInt64} {w after : World} {change other : NoteChange}
    (hother : Ready config owner w other) (hready : Ready config owner w change) (hw : Written config w after change)
    (hne : other.bookId ≠ change.bookId) : Ready config owner after other := by
  refine ⟨hother.nodup, hother.owned, fun id hid hmem => ?_, fun lines hlines => ?_, fun contents hcontents => ?_⟩
  · rw [hw.written, List.mem_append] at hmem
    rcases hmem with hmem | hmem
    · exact hother.fresh id hid hmem
    · exact hne ((hother.owned id hid).symm.trans (hready.owned id hmem))
  · rw [hw.others _ hne]
    exact hother.append lines hlines
  · rw [hw.others _ hne]
    exact hother.create contents hcontents

/-- The note writes of a poll, and what comes after them: it is cut among them, or they are all made. -/
theorem Inv.notes {config : ReadwiseConfig} {owner : UInt64 → UInt64} {w : World} {changes : List NoteChange}
    (h : Inv config owner w) (hready : ∀ change ∈ changes, Ready config owner w change)
    (hbooks : (changes.map NoteChange.bookId).Nodup) (tail : List PollWrite) (cut : ℕ) :
    ∃ after, Inv config owner after ∧ after.rows = w.rows ∧ w.written <+: after.written ∧
      (World.writes cut w (changes.map PollWrite.note ++ tail) = (after, false) ∨
        after.written = w.written ++ changes.flatMap NoteChange.highlightIds ∧
          ∃ left, World.writes cut w (changes.map PollWrite.note ++ tail) = World.writes left after tail) := by
  induction changes generalizing w cut with
  | nil => exact ⟨w, h, rfl, List.prefix_rfl, Or.inr ⟨by simp, cut, rfl⟩⟩
  | cons change rest ih =>
    cases cut with
    | zero => exact ⟨w, h, rfl, List.prefix_rfl, Or.inl rfl⟩
    | succ cut =>
      rw [List.forall_mem_cons] at hready
      rw [List.map_cons, List.nodup_cons] at hbooks
      cases hwrite : w.write (.note change) with
      | none =>
        refine ⟨w, h, rfl, List.prefix_rfl, Or.inl ?_⟩
        rw [List.map_cons, List.cons_append, World.writes, hwrite]
      | some next =>
        have hw := h.write_note hready.1 hwrite
        have hlater : ∀ other ∈ rest, Ready config owner next other := fun other hother =>
          (hready.2 other hother).note hready.1 hw fun heq => hbooks.1 (List.mem_map.mpr ⟨other, hother, heq⟩)
        obtain ⟨after, hinv, hrows, hprefix, hresult⟩ := ih (h.note hready.1 hw) hlater hbooks.2 cut
        have hstep : World.writes (cut + 1) w ((change :: rest).map PollWrite.note ++ tail) =
            World.writes cut next (rest.map PollWrite.note ++ tail) := by
          rw [List.map_cons, List.cons_append, World.writes, hwrite]
        refine ⟨after, hinv, hrows.trans hw.rows, List.IsPrefix.trans ?_ hprefix, ?_⟩
        · rw [hw.written]
          exact List.prefix_append _ _
        · rw [hstep]
          refine hresult.imp_right ?_
          rintro ⟨hwritten, left, hleft⟩
          exact ⟨by rw [hwritten, hw.written, List.flatMap_cons, List.append_assoc], left, hleft⟩

section Poll
variable (calendar : Calendar) {config : ReadwiseConfig} {owner : UInt64 → UInt64} {w : World} {poll : Poll}

end Poll

/-! ## Runs -/

/-- What holds of every state reached: the invariant, and after a completed poll everything written has landed. -/
structure Sound (config : ReadwiseConfig) (owner : UInt64 → UInt64) (w : World) : Prop where
  inv : Inv config owner w
  settled : w.settled = true → ∀ id ∈ w.written, id ∈ w.rows.map LandedRow.highlight

/-- The text of a change. -/
def NoteWrite.text : NoteWrite → Text
  | .create contents => contents
  | .append lines => lines.flatten

/-- No highlight is written twice, a completed poll leaves every highlight it lists written that may land and whose
source is mapped, and the markers of what is planned are those of its highlights. -/
def LandsOnce (calendar : Calendar) (config : ReadwiseConfig) (owner : UInt64 → UInt64) (ok : World → Event → Prop)
    (w : World) : Prop :=
  w.written.Nodup ∧ ∀ poll, Allowed owner w (.poll poll) → ok w (.poll poll) →
    ((w.poll calendar config poll).settled = true → ∀ source ∈ poll.sources, source.isDeleted = false →
      config.folderFor source.category ≠ none → ∀ highlight ∈ source.highlights, highlight.isDiscard = false →
        highlight.isDeleted = false → highlight.id ∈ (w.poll calendar config poll).written) ∧
    ∀ change ∈ w.plan calendar config poll, ∀ id, id ∈ scanMarkers change.write.text ↔ id ∈ change.highlightIds

/-! ## A book and two polls -/

/-- A calendar that reads no time stamp. -/
def noStamps : Calendar := ⟨fun _ => none, fun _ => ⟨2026, 1, 1, by decide, by decide, by decide⟩⟩

def booksConfig : ReadwiseConfig := ⟨defaultMappings, defaultMappings_known⟩

/-- A highlight with a link to it and nothing else. -/
def linkedHighlight (id : UInt64) (text url : Text) : ReadwiseHighlight :=
  ⟨id, text, none, none, none, none, none, none, some url, [], false, false⟩

/-- A book of the given highlights. -/
def bookOf (highlights : List ReadwiseHighlight) : ReadwiseSource :=
  ⟨7, "Walden".toList, none, "books".toList, none, none, none, [], false, highlights⟩

/-- A poll that lists one book and has time for all of its writes. -/
def bookPoll (highlights : List ReadwiseHighlight) : Poll := ⟨[bookOf highlights], 0, 9⟩

end Thock.Desk.Readwise
