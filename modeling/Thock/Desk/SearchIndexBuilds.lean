import Mathlib.Data.List.Perm.Subperm
import Mathlib.Tactic.Common
import Thock.Desk.SearchIndex

/-!
# A build and the notes it still has to come to

A build fits a note when it has still to come to it, reads it and has seen it as it is, or is past it and holds
what a fresh build would. Every step keeps that, and so does a change of the files that leaves the note and the
folders above it alone.

A build goes to each place once: the places it has still to go to are never one above the other.
-/

namespace Thock.Desk.Bridge.Search

open TextScan SyncCore Transition

variable {prim : Primitives}

/-! ## What a fresh build holds -/

/-- The walk from the root comes to a path: every folder above it is listed and lists the next name. -/
def Disk.Reaches (disk : Disk) (path : NotePath) : Prop :=
  ∀ front name back, path = front ++ name :: back → disk.isFolder front = true ∧ front ++ [name] ∈ disk.children front

open Classical in
/-- The entries of the notes a walk comes to, as they are. -/
noncomputable def freshIndex (prim : Primitives) (disk : Disk) : SearchIndex := fun path =>
  if indexes path = true ∧ disk.Reaches path then (readIndexEntry disk path).map (indexEntry prim path) else none

theorem freshIndex_of_reaches {disk : Disk} {path : NotePath} (hindexes : indexes path = true) (h : disk.Reaches path) :
    freshIndex prim disk path = (readIndexEntry disk path).map (indexEntry prim path) := if_pos ⟨hindexes, h⟩

theorem freshIndex_of_not_reaches {disk : Disk} {path : NotePath} (h : ¬disk.Reaches path) :
    freshIndex prim disk path = none := if_neg fun hand => h hand.2

theorem freshIndex_of_not_indexes {disk : Disk} {path : NotePath} (h : indexes path = false) :
    freshIndex prim disk path = none := if_neg fun hand => by simp [h] at hand

theorem freshIndex_of_unread {disk : Disk} {path : NotePath} (h : readIndexEntry disk path = none) :
    freshIndex prim disk path = none := by
  unfold freshIndex
  rw [h]
  exact ite_self none

theorem readIndexEntry_of_missing {disk : Disk} {path : NotePath} (h : disk.metadata path = none) :
    readIndexEntry disk path = none := by
  rw [readIndexEntry, h]
  rfl

theorem readIndexEntry_of_unreadable {disk : Disk} {path : NotePath} {metadata : Metadata}
    (h : disk.metadata path = some metadata) (hreadable : metadata.readable = false) : readIndexEntry disk path = none := by
  simp [readIndexEntry, h, hreadable]

theorem Disk.reaches_root (disk : Disk) : disk.Reaches [] := by
  intro front name back h
  simp at h

/-- The walk comes to what a folder it lists has in it. -/
theorem Disk.Reaches.child {disk : Disk} {folder : NotePath} {name : Text} (h : disk.Reaches folder)
    (hfolder : disk.isFolder folder = true) (hchild : folder ++ [name] ∈ disk.children folder) :
    disk.Reaches (folder ++ [name]) := by
  intro front other back hsplit
  cases List.eq_nil_or_concat back with
  | inl hback =>
    rw [hback] at hsplit
    obtain ⟨rfl, hname⟩ := List.append_inj' hsplit rfl
    obtain rfl : name = other := by simpa using hname
    exact ⟨hfolder, hchild⟩
  | inr hback =>
    obtain ⟨init, last, rfl⟩ := hback
    rw [List.concat_eq_append, ← List.cons_append, ← List.append_assoc] at hsplit
    exact h front other init (List.append_inj' hsplit rfl).1

theorem SameNote.reaches {disk later : Disk} {path front : NotePath} (h : SameNote disk later path)
    (hthere : disk.metadata path ≠ none) (hfront : front <+: path) : later.Reaches front ↔ disk.Reaches front := by
  obtain ⟨rest, rfl⟩ := hfront
  apply forall_congr'
  intro before
  apply forall₃_congr
  intro name back hsplit
  have hway := h.way hthere before name (back ++ rest) (by rw [hsplit, List.append_assoc, List.cons_append])
  rw [hway.1, hway.2]

theorem SameNote.readIndexEntry {disk later : Disk} {path : NotePath} (h : SameNote disk later path) :
    readIndexEntry later path = readIndexEntry disk path := by
  rw [Search.readIndexEntry, Search.readIndexEntry, h.metadata, h.load]

/-- A note that is as before, with the folders above it, has the same fresh entry. -/
theorem SameNote.freshIndex {disk later : Disk} {path : NotePath} (h : SameNote disk later path) :
    freshIndex prim later path = freshIndex prim disk path := by
  by_cases hthere : disk.metadata path = none
  · rw [freshIndex_of_unread (readIndexEntry_of_missing hthere),
      freshIndex_of_unread (readIndexEntry_of_missing (h.metadata.trans hthere))]
  · unfold Search.freshIndex
    rw [h.reaches hthere List.prefix_rfl, h.readIndexEntry]

/-! ## A read that is up to date -/

/-- What a read has seen of its note is still so. -/
def NoteRead.Current (disk : Disk) (read : NoteRead) : Prop :=
  match read.stage with
  | .started => True
  | .measured metadata => disk.metadata read.path = some metadata ∧ metadata.readable = true
  | .finished found => found = readIndexEntry disk read.path

theorem NoteRead.current_of_started {disk : Disk} {read : NoteRead} (h : read.stage = .started) : read.Current disk := by
  rw [NoteRead.Current, h]
  trivial

theorem NoteRead.advance_path {disk : Disk} {read later : NoteRead} (h : read.advance disk = some later) :
    later.path = read.path := by
  unfold NoteRead.advance at h
  split at h
  · split at h
    · exact (congrArg NoteRead.path (Option.some.inj h)).symm
    · exact (congrArg NoteRead.path (Option.some.inj h)).symm
  · exact (congrArg NoteRead.path (Option.some.inj h)).symm
  · cases h

theorem NoteRead.advance_current {disk : Disk} {read later : NoteRead} (hcurrent : read.Current disk)
    (h : read.advance disk = some later) : later.Current disk := by
  unfold NoteRead.advance at h
  unfold NoteRead.Current at hcurrent
  split at h
  · split at h
    · rename_i metadata hmetadata
      obtain rfl := Option.some.inj h
      cases hreadable : metadata.readable with
      | true => exact ⟨hmetadata, hreadable⟩
      | false => exact (readIndexEntry_of_unreadable hmetadata hreadable).symm
    · rename_i hmetadata
      obtain rfl := Option.some.inj h
      exact (readIndexEntry_of_missing hmetadata).symm
  · rename_i metadata hstage
    rw [hstage] at hcurrent
    obtain rfl := Option.some.inj h
    simp [NoteRead.Current, readIndexEntry, hcurrent.1, hcurrent.2]
  · cases h

theorem SameNote.current {disk later : Disk} {read : NoteRead} (h : SameNote disk later read.path)
    (hcurrent : read.Current disk) : read.Current later := by
  unfold NoteRead.Current at hcurrent ⊢
  rw [h.metadata, h.readIndexEntry]
  exact hcurrent

theorem SearchIndex.take_self (index : SearchIndex) (path : NotePath) (found : Option (Day × Text))
    (h : index path = none ∨ found ≠ none) : index.take prim path found path = found.map (indexEntry prim path) := by
  cases found with
  | some read => exact Function.update_self _ _ _
  | none => exact h.resolve_right fun hne => hne rfl

theorem SearchIndex.take_of_ne (index : SearchIndex) {path other : NotePath} (h : other ≠ path)
    (found : Option (Day × Text)) : index.take prim path found other = index other := by
  cases found with
  | some read => exact Function.update_of_ne h _ _
  | none => rfl

/-! ## A build that fits a note -/

/-- The build has still to come to a note, by folders that are in their place. -/
def IndexBuild.Ahead (build : IndexBuild) (disk : Disk) (path : NotePath) : Prop :=
  (∃ folder ∈ build.pending, ∃ name back, path = folder ++ name :: back ∧
    (disk.metadata path = none ∨ disk.Reaches folder ∧ disk.isFolder folder = true)) ∨
  ∃ entry ∈ build.entries, entry <+: path ∧ (disk.metadata path = none ∨ disk.Reaches entry)

/-- The build reads a note, and has seen it as it is. -/
def IndexBuild.Reading (build : IndexBuild) (disk : Disk) (path : NotePath) : Prop :=
  ∃ read, build.reading = some read ∧ read.path = path ∧ read.Current disk ∧
    (disk.metadata path = none ∨ disk.Reaches path)

/-- The build is past a note and holds what a fresh build would. -/
structure IndexBuild.Past (prim : Primitives) (build : IndexBuild) (disk : Disk) (path : NotePath) : Prop where
  pending : ∀ folder ∈ build.pending, ∀ name back, path ≠ folder ++ name :: back
  entries : ∀ entry ∈ build.entries, ¬entry <+: path
  reading : ∀ read, build.reading = some read → read.path ≠ path
  entry : build.index path = freshIndex prim disk path

def IndexBuild.Fits (prim : Primitives) (build : IndexBuild) (disk : Disk) (path : NotePath) : Prop :=
  build.Ahead disk path ∨ build.Reading disk path ∨ build.Past prim disk path

/-- Neither of two paths is above the other. -/
def Beside (a b : NotePath) : Prop := ¬a <+: b ∧ ¬b <+: a

theorem Beside.symm {a b : NotePath} (h : Beside a b) : Beside b a := ⟨h.2, h.1⟩

/-- Two paths above a third are one above the other. -/
theorem Beside.not_both {a b path : NotePath} (h : Beside a b) (ha : a <+: path) : ¬b <+: path := by
  intro hb
  cases List.prefix_or_prefix_of_prefix ha hb with
  | inl hab => exact h.1 hab
  | inr hba => exact h.2 hba

theorem Beside.child {a b : NotePath} (h : Beside a b) (name : Text) : Beside (a ++ [name]) b := by
  constructor
  · exact fun hab => h.1 ((List.prefix_append a [name]).trans hab)
  · intro hba
    cases List.prefix_concat_iff.mp hba with
    | inl heq => exact h.1 (heq ▸ List.prefix_append a [name])
    | inr habove => exact h.2 habove

/-- The paths a build has still to go below. -/
def IndexBuild.frontier (build : IndexBuild) : List NotePath :=
  build.pending ++ (build.entries ++ (build.reading.map NoteRead.path).toList)

/-- A build goes to each place once: the places it has still to go to are beside each other and it has found
nothing below them. -/
structure IndexBuild.Apart (build : IndexBuild) : Prop where
  beside : build.frontier.Pairwise Beside
  unseen : ∀ path ∈ build.frontier, ∀ found, path <+: found → build.index found = none
  inside : ∀ entry ∈ build.entries, entry ≠ []
  indexed : ∀ read, build.reading = some read → indexes read.path = true
  only : ∀ path, build.index path ≠ none → indexes path = true

theorem IndexBuild.apart_start : IndexBuild.start.Apart where
  beside := List.pairwise_singleton Beside []
  unseen := fun _ _ _ _ => rfl
  inside := fun _ h => absurd h List.not_mem_nil
  indexed := fun _ h => by cases h
  only := fun _ h => absurd rfl h

theorem IndexBuild.fits_start {disk : Disk} {path : NotePath} (h : indexes path = true) :
    IndexBuild.start.Fits prim disk path := by
  cases path with
  | nil => exact absurd h (by decide)
  | cons name back =>
    exact Or.inl (Or.inl ⟨[], List.mem_singleton_self _, name, back, rfl, Or.inr ⟨disk.reaches_root, rfl⟩⟩)

/-- A build that is through holds a fresh entry of every note it fits. -/
theorem IndexBuild.Fits.entry {build : IndexBuild} {disk : Disk} {path : NotePath} (h : build.Fits prim disk path)
    (hfinished : build.Finished) : build.index path = freshIndex prim disk path := by
  obtain ⟨hpending, hentries, hreading⟩ := hfinished
  cases h with
  | inl hahead =>
    cases hahead with
    | inl h =>
      obtain ⟨folder, hfolder, -⟩ := h
      simp [hpending] at hfolder
    | inr h =>
      obtain ⟨entry, hentry, -⟩ := h
      simp [hentries] at hentry
  | inr h =>
    cases h with
    | inl h =>
      obtain ⟨read, hread, -⟩ := h
      simp [hreading] at hread
    | inr h => exact h.entry

theorem SameNote.missing_or_reaches {disk later : Disk} {path front : NotePath} (h : SameNote disk later path)
    (hfront : front <+: path) (hway : disk.metadata path = none ∨ disk.Reaches front) :
    later.metadata path = none ∨ later.Reaches front := by
  by_cases hthere : disk.metadata path = none
  · exact Or.inl (h.metadata.trans hthere)
  · exact Or.inr ((h.reaches hthere hfront).mpr (hway.resolve_left hthere))

theorem SameNote.missing_or_folder {disk later : Disk} {path folder back : NotePath} {name : Text}
    (h : SameNote disk later path) (hpath : path = folder ++ name :: back)
    (hway : disk.metadata path = none ∨ disk.Reaches folder ∧ disk.isFolder folder = true) :
    later.metadata path = none ∨ later.Reaches folder ∧ later.isFolder folder = true := by
  by_cases hthere : disk.metadata path = none
  · exact Or.inl (h.metadata.trans hthere)
  · have hplaced := hway.resolve_left hthere
    exact Or.inr ⟨(h.reaches hthere ⟨name :: back, hpath.symm⟩).mpr hplaced.1,
      (h.way hthere folder name back hpath).1.trans hplaced.2⟩

/-- What a build has to do with a note stays as it is while the note does. -/
theorem SameNote.fits {disk later : Disk} {path : NotePath} (h : SameNote disk later path) {build : IndexBuild}
    (hfits : build.Fits prim disk path) : build.Fits prim later path := by
  cases hfits with
  | inl hahead =>
    cases hahead with
    | inl hpending =>
      obtain ⟨folder, hfolder, name, back, hpath, hway⟩ := hpending
      exact Or.inl (Or.inl ⟨folder, hfolder, name, back, hpath, h.missing_or_folder hpath hway⟩)
    | inr hentries =>
      obtain ⟨entry, hentry, habove, hway⟩ := hentries
      exact Or.inl (Or.inr ⟨entry, hentry, habove, h.missing_or_reaches habove hway⟩)
  | inr hfits =>
    cases hfits with
    | inl hreading =>
      obtain ⟨read, hread, hpath, hcurrent, hway⟩ := hreading
      exact Or.inr (Or.inl ⟨read, hread, hpath, SameNote.current (hpath ▸ h) hcurrent,
        h.missing_or_reaches List.prefix_rfl hway⟩)
    | inr hpast => exact Or.inr (Or.inr { hpast with entry := hpast.entry.trans h.freshIndex.symm })

/-! ## The steps of a build -/

/-- What one step of a build does: it takes what it read, reads on, visits an entry, or lists a folder. -/
theorem IndexBuild.advance_cases {disk : Disk} {build later : IndexBuild} (h : build.advance prim disk = some later) :
    (∃ path found, build.reading = some ⟨path, .finished found⟩ ∧
      later = { build with reading := none, index := build.index.take prim path found }) ∨
    (∃ read next, build.reading = some read ∧ read.advance disk = some next ∧
      later = { build with reading := some next }) ∨
    (∃ path rest, build.reading = none ∧ build.entries = path :: rest ∧ later = build.visit disk path rest) ∨
    ∃ folder rest, build.reading = none ∧ build.entries = [] ∧ build.pending = folder :: rest ∧
      later = { build with pending := rest, entries := disk.children folder } := by
  unfold IndexBuild.advance at h
  split at h
  · rename_i path found hreading
    exact Or.inl ⟨path, found, hreading, (Option.some.inj h).symm⟩
  · rename_i read _ hreading
    obtain ⟨next, hnext, rfl⟩ := Option.map_eq_some_iff.mp h
    exact Or.inr (Or.inl ⟨read, next, hreading, hnext, rfl⟩)
  · rename_i hreading
    split at h
    · rename_i path rest hentries
      exact Or.inr (Or.inr (Or.inl ⟨path, rest, hreading, hentries, (Option.some.inj h).symm⟩))
    · rename_i folder rest hentries hpending
      exact Or.inr (Or.inr (Or.inr ⟨folder, rest, hreading, hentries, hpending, (Option.some.inj h).symm⟩))
    · cases h

/-- What a visit makes of an entry: a folder to list, a note to read, or nothing. -/
theorem IndexBuild.visit_cases (disk : Disk) (build : IndexBuild) (path : NotePath) (rest : List NotePath) :
    (build.visit disk path rest = { build with pending := path :: build.pending, entries := rest } ∧
      disk.isFolder path = true ∧ readIndexEntry disk path = none) ∨
    (build.visit disk path rest = { build with entries := rest, reading := some ⟨path, .started⟩ } ∧
      (path ≠ [] → disk.isFolder path = false) ∧ indexes path = true) ∨
    (build.visit disk path rest = { build with entries := rest } ∧
      (path ≠ [] → disk.isFolder path = false) ∧ (indexes path = true → readIndexEntry disk path = none)) := by
  have hfolder : path ≠ [] → disk.isFolder path =
      (disk.metadata path).any fun metadata => metadata.isDir && !metadata.isSymlink := by
    intro hpath
    simp [Disk.isFolder, hpath]
  unfold IndexBuild.visit
  cases hmetadata : disk.metadata path with
  | none => exact Or.inr (Or.inr ⟨rfl, fun hpath => by simp [hfolder hpath, hmetadata],
      fun _ => readIndexEntry_of_missing hmetadata⟩)
  | some metadata =>
    simp only
    split
    · rename_i hlink
      exact Or.inr (Or.inr ⟨rfl, fun hpath => by simp [hfolder hpath, hmetadata, hlink],
        fun _ => readIndexEntry_of_unreadable hmetadata (by simp [Metadata.readable, hlink])⟩)
    · rename_i hlink
      split
      · rename_i hdir
        exact Or.inl ⟨rfl, by simp [Disk.isFolder, hmetadata, hdir, hlink],
          readIndexEntry_of_unreadable hmetadata (by simp [Metadata.readable, hdir])⟩
      · rename_i hdir
        have hfile : path ≠ [] → disk.isFolder path = false := fun hpath => by simp [hfolder hpath, hmetadata, hdir]
        split
        · rename_i hindexes
          exact Or.inr (Or.inr ⟨rfl, hfile, fun h => by simp [h] at hindexes⟩)
        · rename_i hindexes
          exact Or.inr (Or.inl ⟨rfl, hfile, by simpa using hindexes⟩)

/-- A build with fewer places to go to, and nothing more found. -/
theorem IndexBuild.Apart.shrink {build later : IndexBuild} (h : build.Apart) (hfrontier : later.frontier.Subperm build.frontier)
    (hindex : later.index = build.index) (hentries : ∀ entry ∈ later.entries, entry ∈ build.entries)
    (hreading : ∀ read, later.reading = some read → indexes read.path = true) : later.Apart where
  beside := by
    obtain ⟨places, hperm, hsublist⟩ := hfrontier
    exact (hperm.pairwise_iff fun hab => hab.symm).mp (h.beside.sublist hsublist)
  unseen := fun path hpath found hfound => by
    rw [hindex]
    exact h.unseen path (hfrontier.subset hpath) found hfound
  inside := fun entry hentry => h.inside entry (hentries entry hentry)
  indexed := hreading
  only := by
    rw [hindex]
    exact h.only

theorem Disk.children_beside (disk : Disk) (folder : NotePath) : (disk.children folder).Pairwise Beside := by
  have hnodup : ((disk.readDir folder).getD []).Nodup := by
    cases hnames : disk.readDir folder with
    | none => exact List.nodup_nil
    | some names => exact disk.readDir_nodup folder names hnames
  rw [Disk.children, List.pairwise_map]
  apply (hnodup.filter _).imp
  intro a b hne
  have hbeside : ∀ c d : Text, c ≠ d → ¬folder ++ [c] <+: folder ++ [d] := by
    intro c d hne habove
    rw [List.prefix_append_right_inj, List.cons_prefix_cons] at habove
    exact hne habove.1
  exact ⟨hbeside a b hne, hbeside b a hne.symm⟩

/-- A child of a folder is the folder's path and one name. -/
theorem Disk.exists_name_of_mem_children {disk : Disk} {folder path : NotePath} (h : path ∈ disk.children folder) :
    ∃ name, path = folder ++ [name] := by
  obtain ⟨name, -, rfl⟩ := List.mem_map.mp h
  exact ⟨name, rfl⟩

theorem IndexBuild.Apart.took {build : IndexBuild} (h : build.Apart) {path : NotePath} {found : Option (Day × Text)}
    (hreading : build.reading = some ⟨path, .finished found⟩) :
    ({ build with reading := none, index := build.index.take prim path found } : IndexBuild).Apart := by
  have hfrontier : build.frontier = (build.pending ++ build.entries) ++ [path] := by
    simp [IndexBuild.frontier, hreading]
  have hlater : ({ build with reading := none, index := build.index.take prim path found } : IndexBuild).frontier =
      build.pending ++ build.entries := by
    simp [IndexBuild.frontier]
  have hbeside := h.beside
  have hunseen := h.unseen
  rw [hfrontier] at hbeside hunseen
  rw [List.pairwise_append] at hbeside
  exact
    { beside := by
        rw [hlater]
        exact hbeside.1
      unseen := fun place hplace other hother => by
        rw [hlater] at hplace
        have hne : other ≠ path := by
          rintro rfl
          exact (hbeside.2.2 place hplace other (List.mem_singleton_self _)).1 hother
        exact (build.index.take_of_ne hne found).trans
          (hunseen place (List.mem_append_left _ hplace) other hother)
      inside := h.inside
      indexed := fun read hread => by cases hread
      only := fun other hother => by
        by_cases hne : other = path
        · rw [hne]
          exact h.indexed ⟨path, .finished found⟩ hreading
        · exact h.only other ((build.index.take_of_ne hne found) ▸ hother) }

theorem IndexBuild.Apart.readOn {disk : Disk} {build : IndexBuild} (h : build.Apart) {read next : NoteRead}
    (hreading : build.reading = some read) (hnext : read.advance disk = some next) :
    ({ build with reading := some next } : IndexBuild).Apart := by
  have hpath := NoteRead.advance_path hnext
  apply h.shrink
  · have hsame : ({ build with reading := some next } : IndexBuild).frontier = build.frontier := by
      simp [IndexBuild.frontier, hreading, hpath]
    rw [hsame]
  · rfl
  · exact fun entry hentry => hentry
  · intro later hlater
    obtain rfl := Option.some.inj hlater
    rw [hpath]
    exact h.indexed read hreading

theorem IndexBuild.Apart.visited {disk : Disk} {build : IndexBuild} (h : build.Apart) {path : NotePath}
    {rest : List NotePath} (hreading : build.reading = none) (hentries : build.entries = path :: rest) :
    (build.visit disk path rest).Apart := by
  have hfrontier : build.frontier = build.pending ++ path :: rest := by
    simp [IndexBuild.frontier, hreading, hentries]
  have hmem : ∀ entry ∈ rest, entry ∈ build.entries := by
    rw [hentries]
    exact fun entry hentry => List.mem_cons_of_mem path hentry
  obtain ⟨hvisit, -⟩ | ⟨hvisit, -, hindexes⟩ | ⟨hvisit, -⟩ := build.visit_cases disk path rest
  · rw [hvisit]
    apply h.shrink
    · rw [hfrontier]
      simpa [IndexBuild.frontier, hreading] using List.perm_middle.symm.subperm
    · rfl
    · exact hmem
    · simp [hreading]
  · rw [hvisit]
    apply h.shrink
    · rw [hfrontier]
      have hperm : (rest ++ [path]).Perm (path :: rest) := List.perm_append_singleton path rest
      simpa [IndexBuild.frontier] using (hperm.append_left build.pending).subperm
    · rfl
    · exact hmem
    · intro read hread
      obtain rfl := Option.some.inj hread
      exact hindexes
  · rw [hvisit]
    apply h.shrink
    · rw [hfrontier]
      have hsublist : rest.Sublist (path :: rest) := List.sublist_cons_self path rest
      simpa [IndexBuild.frontier, hreading] using (hsublist.append_left build.pending).subperm
    · rfl
    · exact hmem
    · simp [hreading]

theorem IndexBuild.Apart.listed {disk : Disk} {build : IndexBuild} (h : build.Apart) {folder : NotePath}
    {rest : List NotePath} (hreading : build.reading = none) (hentries : build.entries = [])
    (hpending : build.pending = folder :: rest) :
    ({ build with pending := rest, entries := disk.children folder } : IndexBuild).Apart := by
  have hfrontier : build.frontier = folder :: rest := by
    simp [IndexBuild.frontier, hreading, hentries, hpending]
  have hlater : ({ build with pending := rest, entries := disk.children folder } : IndexBuild).frontier =
      rest ++ disk.children folder := by
    simp [IndexBuild.frontier, hreading]
  have hbeside := h.beside
  have hunseen := h.unseen
  rw [hfrontier] at hbeside hunseen
  rw [List.pairwise_cons] at hbeside
  exact
    { beside := by
        rw [hlater, List.pairwise_append]
        refine ⟨hbeside.2, disk.children_beside folder, fun place hplace child hchild => ?_⟩
        obtain ⟨name, rfl⟩ := Disk.exists_name_of_mem_children hchild
        exact ((hbeside.1 place hplace).child name).symm
      unseen := fun place hplace found hfound => by
        rw [hlater] at hplace
        cases List.mem_append.mp hplace with
        | inl hrest => exact hunseen place (List.mem_cons_of_mem folder hrest) found hfound
        | inr hchild =>
          obtain ⟨name, rfl⟩ := Disk.exists_name_of_mem_children hchild
          exact hunseen folder List.mem_cons_self found ((List.prefix_append folder [name]).trans hfound)
      inside := fun entry hentry => by
        obtain ⟨name, rfl⟩ := Disk.exists_name_of_mem_children hentry
        simp
      indexed := fun read hread => by simp [hreading] at hread
      only := h.only }

/-- A build goes to each place once, whatever the disk holds meanwhile. -/
theorem IndexBuild.Apart.advance {disk : Disk} {build later : IndexBuild} (h : build.Apart)
    (hstep : build.advance prim disk = some later) : later.Apart := by
  obtain ⟨path, found, hreading, rfl⟩ | ⟨read, next, hreading, hnext, rfl⟩ | ⟨path, rest, hreading, hentries, rfl⟩ |
    ⟨folder, rest, hreading, hentries, hpending, rfl⟩ := IndexBuild.advance_cases hstep
  · exact h.took hreading
  · exact h.readOn hreading hnext
  · exact h.visited hreading hentries
  · exact h.listed hreading hentries hpending

/-- A note below no place a build has still to go to is past it, if it is held as it is. -/
theorem IndexBuild.Past.of_beside {disk : Disk} {build : IndexBuild} {path : NotePath}
    (hpending : ∀ folder ∈ build.pending, folder <+: path → folder = path) (hentries : ∀ entry ∈ build.entries, ¬entry <+: path)
    (hreading : ∀ read, build.reading = some read → read.path ≠ path)
    (hentry : build.index path = freshIndex prim disk path) : build.Past prim disk path where
  pending := fun folder hfolder name back hpath => by
    have hself := hpending folder hfolder ⟨name :: back, hpath.symm⟩
    rw [hself] at hpath
    simp at hpath
  entries := hentries
  reading := hreading
  entry := hentry

theorem IndexBuild.Fits.took {disk : Disk} {build : IndexBuild} (hapart : build.Apart) {path : NotePath}
    {found : Option (Day × Text)} (hreading : build.reading = some ⟨path, .finished found⟩) {note : NotePath}
    (hindexes : indexes note = true) (h : build.Fits prim disk note) :
    IndexBuild.Fits prim { build with reading := none, index := build.index.take prim path found } disk note := by
  cases h with
  | inl hahead => exact Or.inl hahead
  | inr h =>
    cases h with
    | inl hread =>
      obtain ⟨read, hread, rfl, hcurrent, hway⟩ := hread
      obtain rfl := Option.some.inj (hreading.symm.trans hread)
      have hfrontier : build.frontier = (build.pending ++ build.entries) ++ [path] := by
        simp [IndexBuild.frontier, hreading]
      have hbeside := hapart.beside
      have hunseen := hapart.unseen
      rw [hfrontier] at hbeside hunseen
      rw [List.pairwise_append] at hbeside
      have hclear : ∀ place ∈ build.pending ++ build.entries, ¬place <+: path :=
        fun place hplace => (hbeside.2.2 place hplace path (List.mem_singleton_self _)).1
      have hnone : build.index path = none :=
        hunseen path (List.mem_append_right _ (List.mem_singleton_self _)) path List.prefix_rfl
      have hfresh : found.map (indexEntry prim path) = freshIndex prim disk path := by
        have hfound : found = readIndexEntry disk path := hcurrent
        cases hway with
        | inl hmissing => rw [hfound, readIndexEntry_of_missing hmissing, freshIndex_of_unread (readIndexEntry_of_missing hmissing)]; rfl
        | inr hreaches => rw [freshIndex_of_reaches hindexes hreaches, hfound]
      exact Or.inr (Or.inr (IndexBuild.Past.of_beside
        (fun folder hfolder habove => absurd habove (hclear folder (List.mem_append_left _ hfolder)))
        (fun entry hentry => hclear entry (List.mem_append_right _ hentry))
        (fun read hread => by cases hread)
        ((build.index.take_self path found (Or.inl hnone)).trans hfresh)))
    | inr hpast =>
      have hne : note ≠ path := (hpast.reading _ hreading).symm
      exact Or.inr (Or.inr
        { hpast with
          reading := fun read hread => by cases hread
          entry := (build.index.take_of_ne hne found).trans hpast.entry })

theorem IndexBuild.Fits.readOn {disk : Disk} {build : IndexBuild} {read next : NoteRead}
    (hreading : build.reading = some read) (hnext : read.advance disk = some next) {note : NotePath}
    (h : build.Fits prim disk note) : IndexBuild.Fits prim { build with reading := some next } disk note := by
  have hpath := NoteRead.advance_path hnext
  cases h with
  | inl hahead => exact Or.inl hahead
  | inr h =>
    cases h with
    | inl hread =>
      obtain ⟨read', hread, hnote, hcurrent, hway⟩ := hread
      obtain rfl := Option.some.inj (hreading.symm.trans hread)
      exact Or.inr (Or.inl ⟨next, rfl, hpath.trans hnote, NoteRead.advance_current hcurrent hnext, hway⟩)
    | inr hpast =>
      exact Or.inr (Or.inr
        { hpast with
          reading := fun later hlater => by
            obtain rfl := Option.some.inj hlater
            rw [hpath]
            exact hpast.reading read hreading })

/-- A note below an entry that is no folder is not come to. -/
theorem freshIndex_below {disk : Disk} {entry note : NotePath} (habove : entry <+: note) (hne : entry ≠ note)
    (hfolder : disk.isFolder entry = false) : freshIndex prim disk note = none := by
  obtain ⟨back, rfl⟩ := habove
  cases back with
  | nil => simp at hne
  | cons name back =>
    apply freshIndex_of_not_reaches
    intro hreaches
    have hisFolder := (hreaches entry name back rfl).1
    simp [hfolder] at hisFolder

/-- Coming to an entry, a build fits the notes at it and below it. -/
theorem IndexBuild.fits_visit {disk : Disk} {build : IndexBuild} {path : NotePath} {rest : List NotePath}
    (hpath : path ≠ []) (hreading : build.reading = none) {note : NotePath} (hindexes : indexes note = true)
    (habove : path <+: note) (hway : disk.metadata note = none ∨ disk.Reaches path)
    (hpending : ∀ folder ∈ build.pending, ¬folder <+: note) (hrest : ∀ entry ∈ rest, ¬entry <+: note)
    (hnone : build.index note = none) : (build.visit disk path rest).Fits prim disk note := by
  obtain ⟨hvisit, hfolder, hunread⟩ | ⟨hvisit, hfile, -⟩ | ⟨hvisit, hfile, hunread⟩ := build.visit_cases disk path rest
  · rw [hvisit]
    by_cases hsame : path = note
    · have hempty : build.index note = freshIndex prim disk note := by
        rw [hnone, freshIndex_of_unread (hsame ▸ hunread)]
      refine Or.inr (Or.inr (IndexBuild.Past.of_beside (fun folder hmem hbelow => ?_) hrest ?_ hempty))
      · cases List.mem_cons.mp hmem with
        | inl heq => exact heq.trans hsame
        | inr hmem => exact absurd hbelow (hpending folder hmem)
      · simp [hreading]
    · obtain ⟨back, hnote⟩ := habove
      cases back with
      | nil => exact absurd (by simpa using hnote) hsame
      | cons name back =>
        exact Or.inl (Or.inl ⟨path, List.mem_cons_self, name, back, hnote.symm, hway.imp_right fun h => ⟨h, hfolder⟩⟩)
  · rw [hvisit]
    by_cases hsame : path = note
    · exact Or.inr (Or.inl ⟨⟨path, .started⟩, rfl, hsame, NoteRead.current_of_started rfl, hsame ▸ hway⟩)
    · refine Or.inr (Or.inr (IndexBuild.Past.of_beside (fun folder hmem hbelow => ?_) hrest (fun read hread => ?_) ?_))
      · exact absurd hbelow (hpending folder hmem)
      · obtain rfl := Option.some.inj hread
        exact hsame
      · exact hnone.trans (freshIndex_below habove hsame (hfile hpath)).symm
  · rw [hvisit]
    have hempty : build.index note = freshIndex prim disk note := by
      by_cases hsame : path = note
      · rw [hnone, freshIndex_of_unread (hsame ▸ hunread (hsame ▸ hindexes))]
      · rw [hnone, freshIndex_below habove hsame (hfile hpath)]
    refine Or.inr (Or.inr (IndexBuild.Past.of_beside (fun folder hmem hbelow => ?_) hrest ?_ hempty))
    · exact absurd hbelow (hpending folder hmem)
    · simp [hreading]

theorem IndexBuild.visit_entries (disk : Disk) (build : IndexBuild) (path : NotePath) (rest : List NotePath) :
    (build.visit disk path rest).entries = rest := by
  obtain ⟨hvisit, -⟩ | ⟨hvisit, -⟩ | ⟨hvisit, -⟩ := build.visit_cases disk path rest <;> rw [hvisit]

theorem IndexBuild.visit_index (disk : Disk) (build : IndexBuild) (path : NotePath) (rest : List NotePath) :
    (build.visit disk path rest).index = build.index := by
  obtain ⟨hvisit, -⟩ | ⟨hvisit, -⟩ | ⟨hvisit, -⟩ := build.visit_cases disk path rest <;> rw [hvisit]

/-- A visit adds the entry to the folders to list, or nothing. -/
theorem IndexBuild.mem_visit_pending {disk : Disk} {build : IndexBuild} {path : NotePath} {rest : List NotePath}
    {folder : NotePath} (h : folder ∈ (build.visit disk path rest).pending) : folder = path ∨ folder ∈ build.pending := by
  obtain ⟨hvisit, -⟩ | ⟨hvisit, -⟩ | ⟨hvisit, -⟩ := build.visit_cases disk path rest
  · rw [hvisit] at h
    exact List.mem_cons.mp h
  · rw [hvisit] at h
    exact Or.inr h
  · rw [hvisit] at h
    exact Or.inr h

theorem IndexBuild.pending_subset_visit {disk : Disk} {build : IndexBuild} {path : NotePath} {rest : List NotePath}
    {folder : NotePath} (h : folder ∈ build.pending) : folder ∈ (build.visit disk path rest).pending := by
  obtain ⟨hvisit, -⟩ | ⟨hvisit, -⟩ | ⟨hvisit, -⟩ := build.visit_cases disk path rest
  · rw [hvisit]
    exact List.mem_cons_of_mem path h
  · rwa [hvisit]
  · rwa [hvisit]

/-- A visit starts to read the entry, or nothing. -/
theorem IndexBuild.visit_reading {disk : Disk} {build : IndexBuild} {path : NotePath} {rest : List NotePath}
    (hreading : build.reading = none) {read : NoteRead} (h : (build.visit disk path rest).reading = some read) :
    read.path = path := by
  obtain ⟨hvisit, -⟩ | ⟨hvisit, -⟩ | ⟨hvisit, -⟩ := build.visit_cases disk path rest
  · simp [hvisit, hreading] at h
  · rw [hvisit] at h
    obtain rfl := Option.some.inj h
    rfl
  · simp [hvisit, hreading] at h

theorem IndexBuild.Fits.visited {disk : Disk} {build : IndexBuild} (hapart : build.Apart) {path : NotePath}
    {rest : List NotePath} (hreading : build.reading = none) (hentries : build.entries = path :: rest) {note : NotePath}
    (hindexes : indexes note = true) (h : build.Fits prim disk note) : (build.visit disk path rest).Fits prim disk note := by
  cases h with
  | inl hahead =>
    cases hahead with
    | inl hpending =>
      obtain ⟨folder, hfolder, hway⟩ := hpending
      exact Or.inl (Or.inl ⟨folder, IndexBuild.pending_subset_visit hfolder, hway⟩)
    | inr hentry =>
      obtain ⟨entry, hentry, habove, hway⟩ := hentry
      rw [hentries] at hentry
      cases List.mem_cons.mp hentry with
      | inr hrest => exact Or.inl (Or.inr ⟨entry, (build.visit_entries disk path rest).symm ▸ hrest, habove, hway⟩)
      | inl heq =>
        rw [heq] at habove hway
        have hfrontier : build.frontier = build.pending ++ path :: rest := by
          simp [IndexBuild.frontier, hreading, hentries]
        have hbeside := hapart.beside
        rw [hfrontier, List.pairwise_append, List.pairwise_cons] at hbeside
        apply IndexBuild.fits_visit (hapart.inside path (by simp [hentries])) hreading hindexes habove hway
        · exact fun folder hfolder =>
            (hbeside.2.2 folder hfolder path List.mem_cons_self).symm.not_both habove
        · exact fun entry hentry => (hbeside.2.1.1 entry hentry).not_both habove
        · exact hapart.unseen path (by simp [hfrontier]) note habove
  | inr h =>
    cases h with
    | inl hread =>
      obtain ⟨read, hread, -⟩ := hread
      simp [hreading] at hread
    | inr hpast =>
      have hbelow : ¬path <+: note := hpast.entries path (by simp [hentries])
      refine Or.inr (Or.inr (IndexBuild.Past.mk ?_ ?_ ?_ ?_))
      · intro folder hfolder name back hnote
        cases IndexBuild.mem_visit_pending hfolder with
        | inl heq => exact hbelow ⟨name :: back, by rw [hnote, heq]⟩
        | inr hfolder => exact hpast.pending folder hfolder name back hnote
      · rw [IndexBuild.visit_entries]
        exact fun entry hentry => hpast.entries entry (hentries.symm ▸ List.mem_cons_of_mem path hentry)
      · intro read hread hnote
        rw [IndexBuild.visit_reading hreading hread] at hnote
        exact hbelow (hnote ▸ List.prefix_rfl)
      · rw [IndexBuild.visit_index]
        exact hpast.entry

theorem IndexBuild.Fits.listed {disk : Disk} {build : IndexBuild} (hapart : build.Apart) {folder : NotePath}
    {rest : List NotePath} (hreading : build.reading = none) (hentries : build.entries = [])
    (hpending : build.pending = folder :: rest) {note : NotePath} (h : build.Fits prim disk note) :
    IndexBuild.Fits prim { build with pending := rest, entries := disk.children folder } disk note := by
  cases h with
  | inl hahead =>
    cases hahead with
    | inl hway =>
      obtain ⟨place, hplace, name, back, hnote, hway⟩ := hway
      rw [hpending] at hplace
      cases List.mem_cons.mp hplace with
      | inr hrest => exact Or.inl (Or.inl ⟨place, hrest, name, back, hnote, hway⟩)
      | inl heq =>
        rw [heq] at hnote hway
        have habove : folder <+: note := ⟨name :: back, hnote.symm⟩
        by_cases hchild : folder ++ [name] ∈ disk.children folder
        · refine Or.inl (Or.inr ⟨folder ++ [name], hchild, ⟨back, by simp [hnote]⟩, ?_⟩)
          exact hway.imp_right fun h => h.1.child h.2 hchild
        · have hfrontier : build.frontier = folder :: rest := by
            simp [IndexBuild.frontier, hreading, hentries, hpending]
          have hbeside := hapart.beside
          rw [hfrontier, List.pairwise_cons] at hbeside
          refine Or.inr (Or.inr (IndexBuild.Past.of_beside ?_ ?_ ?_ ?_))
          · exact fun place hplace hbelow => absurd hbelow ((hbeside.1 place hplace).not_both habove)
          · intro entry hentry hbelow
            obtain ⟨other, rfl⟩ := Disk.exists_name_of_mem_children hentry
            rw [hnote, List.prefix_append_right_inj, List.cons_prefix_cons] at hbelow
            exact hchild (hbelow.1 ▸ hentry)
          · simp [hreading]
          · have hnone : build.index note = none := hapart.unseen folder (by simp [hfrontier]) note habove
            rw [hnone, freshIndex_of_not_reaches fun hreaches => hchild (hreaches folder name back hnote).2]
    | inr hway =>
      obtain ⟨entry, hentry, -⟩ := hway
      simp [hentries] at hentry
  | inr h =>
    cases h with
    | inl hread =>
      obtain ⟨read, hread, -⟩ := hread
      simp [hreading] at hread
    | inr hpast =>
      refine Or.inr (Or.inr (IndexBuild.Past.mk ?_ ?_ ?_ hpast.entry))
      · exact fun place hplace => hpast.pending place (hpending.symm ▸ List.mem_cons_of_mem folder hplace)
      · intro entry hentry hbelow
        obtain ⟨name, rfl⟩ := Disk.exists_name_of_mem_children hentry
        obtain ⟨back, hnote⟩ := hbelow
        exact hpast.pending folder (hpending.symm ▸ List.mem_cons_self) name back (by rw [← hnote, List.append_assoc]; rfl)
      · exact hpast.reading

/-- A build that goes on fits the notes it fitted. -/
theorem IndexBuild.Fits.advance {disk : Disk} {build later : IndexBuild} (hapart : build.Apart)
    (hstep : build.advance prim disk = some later) {note : NotePath} (hindexes : indexes note = true)
    (h : build.Fits prim disk note) : later.Fits prim disk note := by
  obtain ⟨path, found, hreading, rfl⟩ | ⟨read, next, hreading, hnext, rfl⟩ | ⟨path, rest, hreading, hentries, rfl⟩ |
    ⟨folder, rest, hreading, hentries, hpending, rfl⟩ := IndexBuild.advance_cases hstep
  · exact h.took hapart hreading hindexes
  · exact h.readOn hreading hnext
  · exact h.visited hapart hreading hentries hindexes
  · exact h.listed hapart hreading hentries hpending

/-- A build that ran over files that do not change holds the fresh entries. -/
theorem FreshBuild.eq_freshIndex {disk : Disk} {index : SearchIndex} (h : FreshBuild prim disk index) :
    index = freshIndex prim disk := by
  obtain ⟨moves, build, run, hfinished, rfl⟩ := h
  have hinv : build.Apart ∧ ∀ note, indexes note = true → build.Fits prim disk note :=
    run.invariant (fun build => build.Apart ∧ ∀ note, indexes note = true → build.Fits prim disk note)
      (fun build _ later hinv hstep =>
        ⟨hinv.1.advance hstep, fun note hindexes => (hinv.2 note hindexes).advance hinv.1 hstep hindexes⟩)
      ⟨IndexBuild.apart_start, fun note hindexes => IndexBuild.fits_start hindexes⟩
  funext note
  by_cases hindexes : indexes note = true
  · exact (hinv.2 note hindexes).entry hfinished
  · rw [freshIndex_of_not_indexes (by simpa using hindexes)]
    by_contra hfound
    exact hindexes (hinv.1.only note hfound)

end Thock.Desk.Bridge.Search
