import Mathlib.Logic.Function.Basic
import Thock.Lib.Transition
import Thock.SyncCore.Dates

/-!
# The agents' search index

The index of the vault's notes, the walk that builds it, and the events that keep it current. A removal is
applied where it arrives; a change starts a read, and what the read found is stored when it finishes.

Files change between any two steps, so a read looks at a note's metadata and at its body at two moments, and a
walk looks at each folder and note at one of its own.
-/

namespace Thock.Desk.Bridge.Search

open TextScan SyncCore Transition

/-! ## Entries and paths -/

structure IndexEntry where
  path : Text
  title : Text
  modified : Day
  body : Text
  titleWords : List Text
  bodyWords : List Text
deriving DecidableEq

/-- The components of a path below the vault's root. -/
abbrev NotePath := List Text

def NotePath.text (path : NotePath) : Text := ['/'].intercalate path

def markdownExtension : Text := ".md".toList

def stem (path : Text) : Text :=
  let name := (path.splitOn '/').getLast?.getD path
  (stripSuffix markdownExtension name).getD name

/-- The first `# ` heading of a note, else its file stem. -/
def noteTitle (path body : Text) : Text :=
  (((lines body).map trim).findSome? fun line =>
    ((stripPrefix "# ".toList line).map trim).filter fun title => !title.isEmpty).getD (stem path)

def wordList (prim : Primitives) (text : Text) : List Text :=
  ((text.splitOnP fun c => !prim.isAlphanumeric c).filter fun word => !word.isEmpty).map prim.lowercase

inductive PathError
  | empty
  | absolute
  | emptyComponent
  | traversal
  | hidden
deriving DecidableEq, Repr

def checkComponent (component : Text) : Except PathError Unit :=
  if component.isEmpty then .error .emptyComponent
  else if component = "..".toList then .error .traversal
  else if component.head? = some '.' then .error .hidden
  else .ok ()

def validateVaultPath (path : Text) : Except PathError Unit :=
  let path := trim path
  if path.isEmpty then .error .empty
  else if path.head? = some '/' ∨ path.head? = some '\\' ∨ path[1]? = some ':' then .error .absolute
  else (path.splitOnP fun c => c = '/' || c = '\\').forM checkComponent

/-- Whether a path is one the index would hold. -/
def indexes (path : NotePath) : Bool :=
  markdownExtension.isSuffixOf path.text && (validateVaultPath path.text).isOk

abbrev SearchIndex := NotePath → Option IndexEntry

def SearchIndex.empty : SearchIndex := fun _ => none

/-- The entry of a note as it was read. -/
def indexEntry (prim : Primitives) (path : NotePath) (read : Day × Text) : IndexEntry :=
  let title := noteTitle path.text read.2
  ⟨path.text, title, read.1, read.2, wordList prim title, wordList prim read.2⟩

def SearchIndex.upsert (prim : Primitives) (index : SearchIndex) (path : NotePath) (read : Day × Text) : SearchIndex :=
  Function.update index path (some (indexEntry prim path read))

def SearchIndex.remove (index : SearchIndex) (path : NotePath) : SearchIndex := Function.update index path none

/-! ## The vault on disk -/

structure Metadata where
  isDir : Bool
  isSymlink : Bool
  len : ℕ
  /-- The local day of the modification time. -/
  modified : Day
deriving DecidableEq

/-- What the file system answers: a failure and a missing file are both nothing. -/
structure Disk where
  metadata : NotePath → Option Metadata
  load : NotePath → Option Text
  /-- The names in a folder, those that are text. -/
  readDir : NotePath → Option (List Text)
  readDir_nodup : ∀ path names, readDir path = some names → names.Nodup

def bodyLimit : ℕ := 2 * 1024 * 1024

/-- Whether a note's body is read. -/
def Metadata.readable (metadata : Metadata) : Bool :=
  !(metadata.isDir || metadata.isSymlink || decide (bodyLimit < metadata.len))

/-- A note's entry, read at one moment. -/
def readIndexEntry (disk : Disk) (path : NotePath) : Option (Day × Text) :=
  (disk.metadata path).bind fun metadata =>
    if metadata.readable then (disk.load path).map fun body => (metadata.modified, body) else none

/-- How far the read of a note's entry has come. -/
inductive Stage
  | started
  | measured (metadata : Metadata)
  | finished (read : Option (Day × Text))
deriving DecidableEq

structure NoteRead where
  path : NotePath
  stage : Stage
deriving DecidableEq

/-- The read looks at the note once more: at its metadata, then at its body. -/
def NoteRead.advance (disk : Disk) (read : NoteRead) : Option NoteRead :=
  match read.stage with
  | .started =>
    match disk.metadata read.path with
    | some metadata => some ⟨read.path, if metadata.readable then .measured metadata else .finished none⟩
    | none => some ⟨read.path, .finished none⟩
  | .measured metadata => some ⟨read.path, .finished ((disk.load read.path).map fun body => (metadata.modified, body))⟩
  | .finished _ => none

/-- What a finished read leaves in an index. -/
def SearchIndex.take (prim : Primitives) (index : SearchIndex) (path : NotePath) : Option (Day × Text) → SearchIndex
  | some read => index.upsert prim path read
  | none => index

/-! ## Walking the vault -/

/-- A walk: the folders to list, the rest of the listing it is in, the note it reads, and what it found. -/
structure IndexBuild where
  pending : List NotePath
  entries : List NotePath
  reading : Option NoteRead
  index : SearchIndex

def IndexBuild.start : IndexBuild := ⟨[[]], [], none, .empty⟩

def IndexBuild.Finished (build : IndexBuild) : Prop :=
  build.pending = [] ∧ build.entries = [] ∧ build.reading = none

instance (build : IndexBuild) : Decidable build.Finished := inferInstanceAs (Decidable (_ ∧ _ ∧ _))

/-- The paths a folder lists, without the hidden ones. -/
def Disk.children (disk : Disk) (folder : NotePath) : List NotePath :=
  (((disk.readDir folder).getD []).filter fun name => name.head? ≠ some '.').map fun name => folder ++ [name]

/-- One entry of a listing: a folder waits to be listed, a link is passed over, a note is read. -/
def IndexBuild.visit (disk : Disk) (build : IndexBuild) (path : NotePath) (rest : List NotePath) : IndexBuild :=
  match disk.metadata path with
  | none => { build with entries := rest }
  | some metadata =>
    if metadata.isSymlink then { build with entries := rest }
    else if metadata.isDir then { build with pending := path :: build.pending, entries := rest }
    else if !indexes path then { build with entries := rest }
    else { build with entries := rest, reading := some ⟨path, .started⟩ }

/-- The walk goes on, with what the disk holds at that moment. -/
def IndexBuild.advance (prim : Primitives) (disk : Disk) (build : IndexBuild) : Option IndexBuild :=
  match build.reading with
  | some ⟨path, .finished read⟩ => some { build with reading := none, index := build.index.take prim path read }
  | some read => (read.advance disk).map fun read => { build with reading := some read }
  | none =>
    match build.entries, build.pending with
    | path :: rest, _ => some (build.visit disk path rest)
    | [], folder :: rest => some { build with pending := rest, entries := disk.children folder }
    | [], [] => none

/-- The walk goes on over files that do not change. -/
def IndexBuild.Next (prim : Primitives) (disk : Disk) (build : IndexBuild) (_ : Unit) (later : IndexBuild) : Prop :=
  build.advance prim disk = some later

/-- What a fresh build of the files as they are holds once it is through. -/
def FreshBuild (prim : Primitives) (disk : Disk) (index : SearchIndex) : Prop :=
  ∃ moves build, Run (IndexBuild.Next prim disk) IndexBuild.start moves build ∧ build.Finished ∧ build.index = index

/-! ## The index beside the files -/

structure FileEvent where
  path : NotePath
  removed : Bool
deriving DecidableEq

/-- The files, the events on their way, the stored index, the reads under way in the order they were started,
and the builds under way. -/
structure Service where
  disk : Disk
  events : List FileEvent
  index : Option SearchIndex
  reads : List NoteRead
  builds : List IndexBuild

inductive Move
  /-- Files change, and the worktree will report it. -/
  | change (disk : Disk) (events : List FileEvent)
  /-- The next event arrives. -/
  | deliver
  /-- A read looks at its note. -/
  | look (n : ℕ)
  /-- A read is through. -/
  | store (n : ℕ)
  /-- A search finds no index and starts a build. -/
  | build
  /-- A build goes on. -/
  | walk (n : ℕ)
  /-- A build is through and becomes the index. -/
  | install (n : ℕ)

def Service.indexChanged (service : Service) (event : FileEvent) : Service :=
  match service.index with
  | none => service
  | some index =>
    if event.removed then { service with index := some (index.remove event.path) }
    else { service with reads := service.reads ++ [⟨event.path, .started⟩] }

def Service.step (prim : Primitives) (service : Service) : Move → Option Service
  | .change disk events => some { service with disk := disk, events := service.events ++ events }
  | .deliver =>
    match service.events with
    | [] => none
    | event :: rest =>
      let service := { service with events := rest }
      some (if indexes event.path then service.indexChanged event else service)
  | .look n =>
    (service.reads[n]?).bind fun read => (read.advance service.disk).map fun read =>
      { service with reads := service.reads.set n read }
  | .store n =>
    match service.reads[n]? with
    | some ⟨path, .finished read⟩ =>
      some { service with
        reads := service.reads.eraseIdx n
        index := service.index.map fun index => index.take prim path read }
    | _ => none
  | .build => if service.index.isNone then some { service with builds := service.builds ++ [.start] } else none
  | .walk n =>
    (service.builds[n]?).bind fun build => (build.advance prim service.disk).map fun build =>
      { service with builds := service.builds.set n build }
  | .install n =>
    (service.builds[n]?).bind fun build =>
      if build.Finished then some { service with builds := service.builds.eraseIdx n, index := some build.index }
      else none

/-! ## What the worktree reports -/

/-- A folder the walk lists: the root, or one that is no link. -/
def Disk.isFolder (disk : Disk) (path : NotePath) : Bool :=
  path.isEmpty || (disk.metadata path).any fun metadata => metadata.isDir && !metadata.isSymlink

/-- A note, or the folders above it, are as before. -/
structure SameNote (disk later : Disk) (path : NotePath) : Prop where
  metadata : later.metadata path = disk.metadata path
  load : later.load path = disk.load path
  /-- Where there is a file, the way to it from the root is the same. -/
  way : disk.metadata path ≠ none → ∀ front name back, path = front ++ name :: back →
    later.isFolder front = disk.isFolder front ∧
      (front ++ [name] ∈ later.children front ↔ front ++ [name] ∈ disk.children front)

/-- The events tell of every note that is not as before, and end with a removal only for what is gone. -/
structure Reports (disk later : Disk) (events : List FileEvent) : Prop where
  told : ∀ path, indexes path = true → (∀ event ∈ events, event.path ≠ path) → SameNote disk later path
  gone : ∀ front event back, events = front ++ event :: back → event.removed = true →
    (∀ other ∈ back, other.path ≠ event.path) → later.metadata event.path = none

def Next (prim : Primitives) (service : Service) (move : Move) (later : Service) : Prop :=
  service.step prim move = some later ∧ ∀ disk events, move = .change disk events → Reports service.disk disk events

/-- The service of a vault that was just opened. -/
def Initial (service : Service) : Prop :=
  service.events = [] ∧ service.index = none ∧ service.reads = [] ∧ service.builds = []

/-- Nothing is on its way and nothing is under way. -/
def Service.Quiescent (service : Service) : Prop :=
  service.events = [] ∧ service.reads = [] ∧ service.builds = []

end Thock.Desk.Bridge.Search
