import Mathlib.Data.Finset.Card
import Thock.SyncCore.LineWords
import Thock.ThockKit.Blocks
import Thock.ThockKit.PhoneView
import Thock.ThockKit.ReminderSchedule

/-!
# Captures on the phone

What the phone writes for a capture, for shared pictures and for a clip: an inbox note under the first of its names
that is free, every picture under a name of its own, and a page's article once under the slug of its title.

Two pages of one title have one slug. A clip of the second finds the name taken, leaves its article out and links to
that of the first.
-/

namespace Thock.ThockKit.Captures

open TextScan Transition
open SyncCore (Day decimal padded)
open Inline (Letters)

/-- What the phone asks of its libraries: the characters of a text, each the scalars it is made of, two encodings of
bytes, and what counts as a letter. -/
structure Platform where
  characters : Text → List Text
  encodeBase64 : Bytes → Text
  sha256Hex : Bytes → Text
  letters : Letters

/-! ## Names -/

namespace Slug

/-- A letter or digit of ASCII that is a character by itself, lowercased. -/
def kept : Text → Option Char
  | [c] => if c.isAlphanum then some c.toLower else none
  | _ => none

def makeFrom (output : Text) (lastDash : Bool) : List Text → Text
  | [] => output
  | character :: rest =>
    let (output, lastDash) :=
      match kept character with
      | some c => (output ++ [c], false)
      | none => if lastDash then (output, lastDash) else (output ++ ['-'], true)
    if 60 ≤ output.length then output else makeFrom output lastDash rest

/-- At most sixty small letters, digits and dashes. -/
def make (platform : Platform) (text fallback : Text) : Text :=
  let trimmed := trimmingCharacters (fun c => c = '-') (makeFrom [] true (platform.characters text))
  if trimmed.isEmpty then fallback else trimmed

/-- Replace a pattern as long as there is one. -/
def replaceWhile (pattern new : Text) : ℕ → Text → Text
  | 0, title => title
  | fuel + 1, title =>
    if (splitFirst pattern title).isSome then replaceWhile pattern new fuel (replaceAll pattern new title) else title

/-- No comment, no wikilink, single spaces. -/
def sanitizedTitle (raw : Text) : Text :=
  let title := replaceAll "<!--".toList [] raw
  let title := replaceWhile "[[".toList "[ [".toList title.length title
  let title := replaceWhile "]]".toList "] ]".toList title.length title
  let title := SyncCore.collapse title
  if title.isEmpty then "(untitled)".toList else title

end Slug

inductive FileExtension
  | jpg
  | png
deriving DecidableEq

def FileExtension.text : FileExtension → Text
  | .jpg => "jpg".toList
  | .png => "png".toList

structure ImageAttachment where
  name : Text
  bytes : Bytes
  fileExtension : FileExtension
deriving DecidableEq

/-- What a write is planned from: the folders, the local time, the digest of the device and the instant, and the ids
drawn for its documents. -/
structure PhoneWrites where
  inboxDir : Text
  imagesDir : Text
  today : Day
  hour : ℕ
  minute : ℕ
  capturedAt : Text
  captureDigest : Text
  clientIds : ℕ → Text

namespace PhoneWrites

variable {Seed : Type}

def clipsDir : Text := "reference/clips".toList

def join (folder name : Text) : Text := if folder.isEmpty then name else folder ++ '/' :: name

def stamp (at_ : PhoneWrites) : Text := VaultDay.iso at_.today ++ '-' :: (padded 2 at_.hour ++ padded 2 at_.minute)

/-! ## Pictures -/

def imageLine (path alt : Text) : Text := "![".toList ++ alt ++ "](/".toList ++ path ++ [')']

def imageBase (platform : Platform) (at_ : PhoneWrites) (attachment : ImageAttachment) : Text :=
  join at_.imagesDir (at_.stamp ++ '-' :: (Slug.make platform attachment.name "photo".toList).take 40)

/-- The name with a number or the digest behind it, where there is one. -/
def imageName (platform : Platform) (at_ : PhoneWrites) (attachment : ImageAttachment) (suffix : Text) : Path :=
  imageBase platform at_ attachment ++ suffix ++ '.' :: attachment.fileExtension.text

def numbered (index : ℕ) : Text := '-' :: decimal index

def digested (at_ : PhoneWrites) : Text := '-' :: at_.captureDigest.take 6

/-- Where a picture is filed. -/
def imagePath (platform : Platform) (at_ : PhoneWrites) (attachment : ImageAttachment) (taken : Path → Bool) : Path :=
  let first := imageName platform at_ attachment []
  if !taken first then first
  else (((List.range' 2 98).map fun index => imageName platform at_ attachment (numbered index)).find? fun candidate =>
    !taken candidate).getD (imageName platform at_ attachment at_.digested)

def putFile (platform : Platform) (at_ : PhoneWrites) (index : ℕ) (path : Path) (bytes : Bytes) : PlannedWrite Seed :=
  ⟨{ clientId := at_.clientIds index, kind := .putFile, path, contentBase64 := some (platform.encodeBase64 bytes),
     contentHash := some (platform.sha256Hex bytes) }, none⟩

/-- The paths of pictures, of which no two are one. -/
def imagePaths (platform : Platform) (at_ : PhoneWrites) (taken : Path → Bool) (chosen : List Path) :
    List ImageAttachment → List Path
  | [] => []
  | image :: rest =>
    let path := imagePath platform at_ image fun path => chosen.contains path || taken path
    path :: imagePaths platform at_ taken (chosen ++ [path]) rest

/-- The pictures' writes and the lines that link them. -/
def placeImages (platform : Platform) (at_ : PhoneWrites) (images : List ImageAttachment) (taken : Path → Bool) :
    List (PlannedWrite Seed) × List Text :=
  let placed := (imagePaths platform at_ taken [] images).zip images
  (placed.zipIdx.map fun entry => putFile platform at_ entry.2 entry.1.1 entry.1.2.bytes,
    placed.map fun entry => imageLine entry.1 (Slug.make platform entry.2.name "photo".toList))

/-! ## Inbox notes -/

structure InboxFields where
  title : Text
  body : Text
  url : Option Text
  kind : Option Text

def field (key value : Text) : Text :=
  let named := key ++ [':']
  named.take 9 ++ List.replicate (9 - named.length) ' ' ++ ' ' :: value ++ ['\n']

/-- The names an inbox note may have, without `.md`. -/
def inboxNames (platform : Platform) (at_ : PhoneWrites) (title : Text) : List Text :=
  let base := join at_.inboxDir (at_.stamp ++ '-' :: Slug.make platform (Slug.sanitizedTitle title) "item".toList)
  [base, base ++ '-' :: at_.captureDigest.take 4, base ++ '-' :: at_.captureDigest]

def markdown (name : Text) : Path := name ++ ".md".toList

/-- One inbox note, under the first of its names that is free. -/
def inboxNote (platform : Platform) (at_ : PhoneWrites) (index : ℕ) (fields : InboxFields) (taken : Path → Bool) :
    PlannedWrite Seed :=
  let title := Slug.sanitizedTitle fields.title
  let names := inboxNames platform at_ fields.title
  let name := (names.find? fun name => !taken (markdown name)).getD (names.getLastD [])
  let body := trimmingCharacters isWhitespacesAndNewlines fields.body
  let note := "---\n".toList ++ field "source".toList "thock-ios".toList ++ field "capture".toList at_.captureDigest ++
    field "captured".toList at_.capturedAt ++ field "title".toList title ++
    (fields.url.elim [] fun url => field "url".toList (SyncCore.collapse url)) ++
    (fields.kind.elim [] fun kind => field "kind".toList kind) ++
    "---\n\n# ".toList ++ title ++ ['\n'] ++ (if body.isEmpty then [] else '\n' :: body ++ ['\n'])
  ⟨{ clientId := at_.clientIds index, kind := .create, path := markdown name, content := some note }, none⟩

/-! ## What is captured -/

/-- The planned writes, with the lines that link the pictures and the bytes they were given with. -/
structure Captured (Seed : Type) where
  writes : List (PlannedWrite Seed)
  pictures : List (Text × Bytes)

def pictures (lines : List Text) (images : List ImageAttachment) : List (Text × Bytes) :=
  lines.zip (images.map ImageAttachment.bytes)

/-- What pictures alone are called. -/
def photoTitle (images : List ImageAttachment) : Text :=
  if images.length = 1 then "Photo".toList else decimal images.length ++ " photos".toList

def isEmptyText (text : Text) : Bool := (trimmingCharacters isWhitespacesAndNewlines text).isEmpty

/-- The blocks of a capture; pictures alone are named as such. -/
def captureContent (blocks : List Block) (images : List ImageAttachment) : Option (List Block) :=
  let content := blocks.filter fun block => block.kind ≠ .blank
  if content.all fun block => isEmptyText block.text && block.kind ≠ .rule then
    if images.isEmpty then none else some [⟨.paragraph, photoTitle images, [], [], 0, true⟩]
  else some content

def captureTitle (platform : Platform) (first : Block) : Text :=
  ReminderSchedule.plainText platform.letters ((first.text.splitOn '\n').headD [])

/-- What follows an inbox note's title. -/
def inboxBody : List Block → List Text
  | [] => []
  | first :: rest =>
    let more := (first.text.splitOn '\n').drop 1
    let rest := if more.isEmpty then rest else { first with text := joinLines more } :: rest
    EditorDocument.lines (rest.map fun block => { block with touched := true })

/-- The append of a capture that does not go to the inbox, the pictures' lines at its end; where it goes and what else
it carries is left open. -/
structure Append (Seed : Type) where
  document : WriteDocument
  indent : Text
  seed : Option Seed

def Append.planned (append : Append Seed) (at_ : PhoneWrites) (index : ℕ) (lines : List Text) : PlannedWrite Seed :=
  ⟨{ append.document with
      clientId := at_.clientIds index
      kind := .append
      lines := append.document.lines ++ lines.map fun line => append.indent ++ line }, append.seed⟩

inductive Destination (Seed : Type)
  | inbox
  | elsewhere (append : Append Seed)

/-- A capture, routed by its destination. -/
def capture (platform : Platform) (at_ : PhoneWrites) (blocks : List Block) (destination : Destination Seed)
    (images : List ImageAttachment) (taken : Path → Bool) : Option (Captured Seed) :=
  (captureContent blocks images).bind fun content =>
    content.head?.map fun first =>
      let placed := placeImages platform at_ images taken
      let note := match destination with
        | .inbox =>
          let body := joinLines (inboxBody content)
          let body := if placed.2.isEmpty then body
            else body ++ (if isEmptyText body then [] else "\n\n".toList) ++ joinLines placed.2
          inboxNote platform at_ images.length ⟨captureTitle platform first, body, none, none⟩ taken
        | .elsewhere append => append.planned at_ images.length placed.2
      ⟨placed.1 ++ [note], pictures placed.2 images⟩

/-- The title of shared pictures, the text's first line, and what is left of the text. -/
def sharedText (platform : Platform) (images : List ImageAttachment) (text : Text) : Text × Text :=
  let trimmed := trimmingCharacters isWhitespacesAndNewlines text
  if trimmed.isEmpty then (photoTitle images, [])
  else
    let textLines := trimmed.splitOn '\n'
    (ReminderSchedule.plainText platform.letters (textLines.headD []),
      trimmingCharacters isWhitespacesAndNewlines (joinLines (textLines.drop 1)))

/-- Pictures shared with no link: one inbox note, the pictures under it. -/
def photoCapture (platform : Platform) (at_ : PhoneWrites) (images : List ImageAttachment) (text : Text)
    (taken : Path → Bool) : Option (Captured Seed) :=
  if images.isEmpty then none
  else
    let placed := placeImages platform at_ images taken
    let (title, body) := sharedText platform images text
    let body := body ++ (if body.isEmpty then [] else "\n\n".toList) ++ joinLines placed.2
    some ⟨placed.1 ++ [inboxNote platform at_ images.length ⟨title, body, none, none⟩ taken], pictures placed.2 images⟩

structure Clip where
  title : Text
  url : Text
  why : Text
  quote : Option Text
  article : Option Text
  makeTask : Bool
deriving DecidableEq

def Clip.shownTitle (clip : Clip) : Text := Slug.sanitizedTitle (if clip.title.isEmpty then clip.url else clip.title)

def Clip.slug (platform : Platform) (clip : Clip) : Text := Slug.make platform clip.shownTitle "clip".toList

def Clip.path (platform : Platform) (clip : Clip) : Path := markdown (clipsDir ++ '/' :: clip.slug platform)

/-- The readable text, where there is some. -/
def Clip.text (clip : Clip) : Option Text :=
  (clip.article.map (trimmingCharacters isWhitespacesAndNewlines)).filter fun article => !article.isEmpty

/-- The note that holds an article. -/
def clipNote (at_ : PhoneWrites) (clip : Clip) (article : Text) : Text :=
  "---\nsource: clip\nurl: ".toList ++ clip.url ++ "\ntitle: ".toList ++ clip.shownTitle ++ "\nclipped: ".toList ++
    at_.capturedAt ++ "\n---\n\n# ".toList ++ clip.shownTitle ++ "\n\n".toList ++ article ++ ['\n']

def clipWrite (platform : Platform) (at_ : PhoneWrites) (clip : Clip) (article : Text) : PlannedWrite Seed :=
  ⟨{ clientId := at_.clientIds 0, kind := .create, path := clip.path platform, content := some (clipNote at_ clip article) },
    none⟩

def clipBody (platform : Platform) (clip : Clip) : Text :=
  let why := trimmingCharacters isWhitespacesAndNewlines clip.why
  let quote := (clip.quote.map (trimmingCharacters isWhitespacesAndNewlines)).filter fun quote => !quote.isEmpty
  "\n\n".toList.intercalate ((if why.isEmpty then [] else [why]) ++ [clip.url] ++
    (clip.text.elim [] fun _ => ["[[clips/".toList ++ clip.slug platform ++ "]]".toList]) ++
    quote.elim [] fun quote =>
      [joinLines ((quote.splitOn '\n').map fun line => if line.isEmpty then ['>'] else "> ".toList ++ line)])

/-- An inbox link note, and the readable text where its name is free. -/
def clip (platform : Platform) (at_ : PhoneWrites) (clip : Clip) (taken : Path → Bool) : List (PlannedWrite Seed) :=
  let kept := match clip.text with
    | some article => if taken (clip.path platform) then [] else [clipWrite platform at_ clip article]
    | none => []
  let fields : InboxFields :=
    ⟨clip.shownTitle, clipBody platform clip, some clip.url, if clip.makeTask then some "read".toList else none⟩
  kept ++ [inboxNote platform at_ 1 fields taken]

end PhoneWrites

/-! ## Captures on one phone -/

/-- Whether a path is in use on this phone. -/
def taken {Seed : Type} (store : VaultStore Seed) (path : Path) : Bool :=
  (store.content path).isSome || (store.blobs.get path).isSome

/-- A planned write, and whether its path was taken when it was planned. -/
structure Plan (Seed : Type) where
  document : WriteDocument
  held : Bool

/-- The phone's store, and the account of what was planned, of the pictures' lines with the bytes given, and of the
clips made. -/
structure World (Seed : Type) where
  store : VaultStore Seed
  planned : List (Plan Seed)
  pictures : List (Text × Bytes)
  clips : List PhoneWrites.Clip

inductive Action (Seed : Type)
  | capture (at_ : PhoneWrites) (blocks : List Block) (destination : PhoneWrites.Destination Seed)
      (images : List ImageAttachment)
  | photoCapture (at_ : PhoneWrites) (images : List ImageAttachment) (text : Text)
  | clip (at_ : PhoneWrites) (clip : PhoneWrites.Clip)

section

variable {Seed : Type} (platform : Platform) (phone : Phone Seed)

/-- What an action captures of a store, and the clip it makes. -/
def captured (store : VaultStore Seed) : Action Seed → Option (PhoneWrites.Captured Seed × List PhoneWrites.Clip)
  | .capture at_ blocks destination images =>
    (PhoneWrites.capture platform at_ blocks destination images (taken store)).map fun captured => (captured, [])
  | .photoCapture at_ images text =>
    (PhoneWrites.photoCapture platform at_ images text (taken store)).map fun captured => (captured, [])
  | .clip at_ clip =>
    some (⟨PhoneWrites.clip platform at_ clip fun path => (store.content path).isSome, []⟩, [clip])

/-- The writes are recorded, all or none. -/
def World.step (w : World Seed) (action : Action Seed) : Option (World Seed) :=
  (captured platform w.store action).bind fun result =>
    (w.store.record phone result.1.writes).map fun recorded =>
      ⟨recorded.1, w.planned ++ result.1.writes.map fun write => ⟨write.document, taken w.store write.document.path⟩,
        w.pictures ++ result.1.pictures, w.clips ++ result.2⟩

def Next (w : World Seed) (action : Action Seed) (t : World Seed) : Prop := w.step platform phone action = some t

/-- A picture's path. -/
def PicturePath (path : Path) : Prop := ".jpg".toList <:+ path ∨ ".png".toList <:+ path

/-- Any store whose blobs are pictures. -/
def Initial (w : World Seed) : Prop :=
  w.planned = [] ∧ w.pictures = [] ∧ w.clips = [] ∧ ∀ path, (w.store.blobs.get path).isSome → PicturePath path

/-- Whether a write makes a file of its own. -/
def Makes (document : WriteDocument) : Prop := document.kind = .create ∨ document.kind = .putFile

instance (document : WriteDocument) : Decidable (Makes document) := inferInstanceAs (Decidable (_ ∨ _))

/-! ## Where every name is found -/

/-- The names a picture may have. -/
def imageNames (at_ : PhoneWrites) (image : ImageAttachment) : List Path :=
  (([] :: (List.range' 2 98).map PhoneWrites.numbered) ++ [at_.digested]).map fun suffix =>
    PhoneWrites.imageName platform at_ image suffix

def free (store : VaultStore Seed) (names : List Path) : Finset Path := (names.filter fun name => !taken store name).toFinset

/-- Whether one picture could be filed under a name of the other. -/
def shares (at_ : PhoneWrites) (image other : ImageAttachment) : Bool :=
  (imageNames platform at_ other).any fun name => (imageNames platform at_ image).contains name

/-- Every picture has more free names than there are pictures before it that could take one. -/
def PicturesFit (store : VaultStore Seed) (at_ : PhoneWrites) (images : List ImageAttachment) : Prop :=
  ∀ i : Fin images.length,
    (images.take i).countP (shares platform at_ images[i]) < (free store (imageNames platform at_ images[i])).card

/-- One of the names of an inbox note is free. -/
def NoteFits (store : VaultStore Seed) (at_ : PhoneWrites) (title : Text) : Prop :=
  ∃ name ∈ PhoneWrites.inboxNames platform at_ title, taken store (PhoneWrites.markdown name) = false

/-- Every name is found, an append goes to no file that a capture made, and the name of a clip with a text is free or
was taken by a clip of the same address. -/
def Roomy (w : World Seed) : Action Seed → Prop
  | .capture at_ blocks destination images =>
    PicturesFit platform w.store at_ images ∧
      match destination with
      | .inbox => ∀ content ∈ PhoneWrites.captureContent blocks images, ∀ first ∈ content.head?,
          NoteFits platform w.store at_ (PhoneWrites.captureTitle platform first)
      | .elsewhere append => (∀ plan ∈ w.planned, Makes plan.document → plan.document.path ≠ append.document.path) ∧
          ∀ image ∈ images, append.document.path ∉ imageNames platform at_ image
  | .photoCapture at_ images text =>
    PicturesFit platform w.store at_ images ∧ NoteFits platform w.store at_ (PhoneWrites.sharedText platform images text).1
  | .clip at_ clip =>
    NoteFits platform w.store at_ clip.shownTitle ∧
      (clip.text.isSome → clip.path platform ∉
          (PhoneWrites.inboxNames platform at_ clip.shownTitle).map PhoneWrites.markdown ∧
        ((w.store.content (clip.path platform)).isSome → ∃ earlier ∈ w.clips, earlier.text.isSome ∧
          earlier.url = clip.url ∧ earlier.path platform = clip.path platform))

/-! ## What is kept -/

/-- Nothing is made at a path that was taken, or that another write goes to. -/
def MadeApart (w : World Seed) : Prop :=
  (∀ plan ∈ w.planned, Makes plan.document → plan.held = false) ∧
    w.planned.Pairwise fun a b => Makes a.document ∨ Makes b.document → a.document.path ≠ b.document.path

/-- Every picture's line leads to the bytes it was given with. -/
def PicturesKept (w : World Seed) : Prop :=
  ∀ picture ∈ w.pictures, ∃ path alt, picture.1 = PhoneWrites.imageLine path alt ∧
    (w.store.blobs.get path).map Prod.fst = some picture.2

/-- The note a clip links to holds the article of a clip of its own address. -/
def ClipsKept (w : World Seed) : Prop :=
  ∀ clip ∈ w.clips, clip.text.isSome → ∃ kept ∈ w.clips, kept.url = clip.url ∧ ∃ at_, ∃ article ∈ kept.text,
    w.store.content (clip.path platform) = some (PhoneWrites.clipNote at_ kept article)

end

/-! ## Free names -/

theorem not_picturePath_markdown (name : Text) : ¬PicturePath (PhoneWrites.markdown name) := by
  intro h
  cases h with
  | inl hjpg =>
    obtain ⟨front, hfront⟩ := hjpg
    have hlast := congrArg List.getLast? hfront
    simp [PhoneWrites.markdown] at hlast
  | inr hpng =>
    obtain ⟨front, hfront⟩ := hpng
    have hlast := congrArg List.getLast? hfront
    simp [PhoneWrites.markdown] at hlast

section

variable {Seed : Type} {platform : Platform} {store : VaultStore Seed} {at_ : PhoneWrites}

theorem picturePath_imageNames {image : ImageAttachment} {path : Path} (h : path ∈ imageNames platform at_ image) :
    PicturePath path := by
  obtain ⟨suffix, -, rfl⟩ := List.mem_map.mp h
  cases hkind : image.fileExtension with
  | jpg => exact Or.inl ⟨PhoneWrites.imageBase platform at_ image ++ suffix, by rw [PhoneWrites.imageName, hkind]; rfl⟩
  | png => exact Or.inr ⟨PhoneWrites.imageBase platform at_ image ++ suffix, by rw [PhoneWrites.imageName, hkind]; rfl⟩

/-- Where more names are free than were chosen, one is left. -/
theorem exists_free {names chosen : List Path} (h : (chosen.filter fun path => names.contains path).length < (free store names).card) :
    ∃ name ∈ names, (chosen.contains name || taken store name) = false := by
  have hcard : (chosen.filter fun path => names.contains path).toFinset.card < (free store names).card :=
    (List.toFinset_card_le _).trans_lt h
  obtain ⟨name, hfree, hother⟩ := Finset.exists_mem_notMem_of_card_lt_card hcard
  obtain ⟨hname, huntaken⟩ := List.mem_filter.mp (List.mem_toFinset.mp hfree)
  refine ⟨name, hname, ?_⟩
  have hchosen : name ∉ chosen := fun hmem =>
    hother (List.mem_toFinset.mpr (List.mem_filter.mpr ⟨hmem, by simpa using hname⟩))
  simpa [hchosen] using huntaken

/-- A picture gets a name of its own where one is free. -/
theorem imagePath_free {image : ImageAttachment} {held : Path → Bool} (h : ∃ name ∈ imageNames platform at_ image, held name = false) :
    PhoneWrites.imagePath platform at_ image held ∈ imageNames platform at_ image ∧
      held (PhoneWrites.imagePath platform at_ image held) = false := by
  have hnames : imageNames platform at_ image = PhoneWrites.imageName platform at_ image [] ::
      ((List.range' 2 98).map fun index => PhoneWrites.imageName platform at_ image (PhoneWrites.numbered index)) ++
        [PhoneWrites.imageName platform at_ image at_.digested] := by
    rw [imageNames, List.map_append, List.map_cons, List.map_map]
    rfl
  rw [hnames] at h ⊢
  generalize hfirst : PhoneWrites.imageName platform at_ image [] = first at h ⊢
  generalize hrest : ((List.range' 2 98).map fun index =>
    PhoneWrites.imageName platform at_ image (PhoneWrites.numbered index)) = rest at h ⊢
  generalize hlast : PhoneWrites.imageName platform at_ image at_.digested = last at h ⊢
  have hpath : PhoneWrites.imagePath platform at_ image held =
      if !held first then first else (rest.find? fun candidate => !held candidate).getD last := by
    rw [PhoneWrites.imagePath, hfirst, hrest, hlast]
  rw [hpath]
  cases hheld : held first with
  | false => exact ⟨by simp, by simpa using hheld⟩
  | true =>
    cases hfind : rest.find? fun candidate => !held candidate with
    | some found =>
      have hfound : held found = false := by simpa using List.find?_some hfind
      exact ⟨by simp [List.mem_of_find?_eq_some hfind], by simpa using hfound⟩
    | none =>
      refine ⟨by simp, ?_⟩
      obtain ⟨name, hname, hfree⟩ := h
      have hall : ∀ other ∈ rest, held other = true := by simpa using hfind
      cases List.mem_append.mp hname with
      | inl hfront =>
        cases List.mem_cons.mp hfront with
        | inl heq => exact absurd (heq ▸ hfree) (by simp [hheld])
        | inr hmem => exact absurd (hall name hmem) (by simp [hfree])
      | inr hmem => exact List.mem_singleton.mp hmem ▸ hfree

/-- Of the paths chosen before a picture, no more are among its names than pictures before it share one. -/
theorem chosen_le {chosen : List Path} {before : List ImageAttachment} (image : ImageAttachment)
    (h : List.Forall₂ (fun path other => path ∈ imageNames platform at_ other) chosen before) :
    (chosen.filter fun path => (imageNames platform at_ image).contains path).length ≤
      before.countP (shares platform at_ image) := by
  induction h with
  | nil => exact le_rfl
  | @cons path other chosen before hpath hrest ih =>
    rw [List.countP_cons]
    cases hmem : (imageNames platform at_ image).contains path with
    | false =>
      rw [List.filter_cons_of_neg (by simpa using hmem)]
      exact ih.trans (Nat.le_add_right _ _)
    | true =>
      have hshares : shares platform at_ image other = true := List.any_eq_true.mpr ⟨path, hpath, hmem⟩
      rw [List.filter_cons_of_pos (by simpa using hmem), if_pos hshares, List.length_cons]
      exact Nat.succ_le_succ ih

/-- Every picture is filed under a name of its own. -/
theorem imagePaths_free {chosen : List Path} {before images : List ImageAttachment}
    (hchosen : List.Forall₂ (fun path other => path ∈ imageNames platform at_ other) chosen before)
    (hfits : ∀ front image back, images = front ++ image :: back →
      (before ++ front).countP (shares platform at_ image) < (free store (imageNames platform at_ image)).card) :
    List.Forall₂ (fun path image => path ∈ imageNames platform at_ image)
        (PhoneWrites.imagePaths platform at_ (taken store) chosen images) images ∧
      (∀ path ∈ PhoneWrites.imagePaths platform at_ (taken store) chosen images, taken store path = false ∧ path ∉ chosen) ∧
      (PhoneWrites.imagePaths platform at_ (taken store) chosen images).Nodup := by
  induction images generalizing chosen before with
  | nil => exact ⟨.nil, fun path hpath => absurd hpath List.not_mem_nil, List.nodup_nil⟩
  | cons image rest ih =>
    have hroom : ∃ name ∈ imageNames platform at_ image, (chosen.contains name || taken store name) = false := by
      refine exists_free ((chosen_le image hchosen).trans_lt ?_)
      simpa using hfits [] image rest rfl
    have hpath := imagePath_free hroom
    generalize hchose : PhoneWrites.imagePath platform at_ image (fun path => chosen.contains path || taken store path) = path at hpath
    have hfree : taken store path = false ∧ path ∉ chosen := by
      have hboth := hpath.2
      rw [Bool.or_eq_false_iff] at hboth
      exact ⟨hboth.2, by simpa using hboth.1⟩
    have hmore : List.Forall₂ (fun path other => path ∈ imageNames platform at_ other) (chosen ++ [path]) (before ++ [image]) :=
      List.rel_append hchosen (.cons hpath.1 .nil)
    have hlater := ih hmore fun front other back hsplit => by
      have hcount := hfits (image :: front) other back (by rw [hsplit, List.cons_append])
      rwa [List.append_assoc, List.singleton_append]
    rw [PhoneWrites.imagePaths, hchose]
    refine ⟨.cons hpath.1 hlater.1, fun other hother => ?_, List.nodup_cons.mpr ⟨fun hmem => ?_, hlater.2.2⟩⟩
    · cases List.mem_cons.mp hother with
      | inl heq => exact heq ▸ hfree
      | inr hmem =>
        obtain ⟨huntaken, hother⟩ := hlater.2.1 other hmem
        exact ⟨huntaken, fun hin => hother (List.mem_append_left _ hin)⟩
    · exact (hlater.2.1 path hmem).2 (List.mem_append_right _ (List.mem_singleton_self _))

theorem PicturesFit.paths {images : List ImageAttachment} (h : PicturesFit platform store at_ images) :
    List.Forall₂ (fun path image => path ∈ imageNames platform at_ image)
        (PhoneWrites.imagePaths platform at_ (taken store) [] images) images ∧
      (∀ path ∈ PhoneWrites.imagePaths platform at_ (taken store) [] images, taken store path = false) ∧
      (PhoneWrites.imagePaths platform at_ (taken store) [] images).Nodup := by
  have hfits : ∀ front image back, images = front ++ image :: back →
      ([] ++ front).countP (shares platform at_ image) < (free store (imageNames platform at_ image)).card := by
    intro front image back hsplit
    subst hsplit
    simpa using h ⟨front.length, by simp⟩
  obtain ⟨hnames, hfree, hapart⟩ := imagePaths_free List.Forall₂.nil hfits
  exact ⟨hnames, fun path hpath => (hfree path hpath).1, hapart⟩

/-- An inbox note gets the first of its names that is free. -/
theorem inboxNote_path (index : ℕ) (fields : PhoneWrites.InboxFields) (held : Path → Bool)
    (h : ∃ name ∈ PhoneWrites.inboxNames platform at_ fields.title, held (PhoneWrites.markdown name) = false) :
    ∃ name ∈ PhoneWrites.inboxNames platform at_ fields.title,
      (PhoneWrites.inboxNote platform at_ index fields held : PlannedWrite Seed).document.path = PhoneWrites.markdown name ∧
        held (PhoneWrites.markdown name) = false := by
  cases hfind : (PhoneWrites.inboxNames platform at_ fields.title).find? fun name => !held (PhoneWrites.markdown name) with
  | none =>
    obtain ⟨name, hname, hfree⟩ := h
    have hall := List.find?_eq_none.mp hfind name hname
    rw [hfree] at hall
    exact absurd rfl hall
  | some name =>
    refine ⟨name, List.mem_of_find?_eq_some hfind, ?_, by simpa using List.find?_some hfind⟩
    simp only [PhoneWrites.inboxNote, hfind, Option.getD_some]

end

/-! ## What the store holds of a write -/

section

variable {Seed : Type} {platform : Platform} {phone : Phone Seed} {store after : VaultStore Seed}

/-- A note that is made, a picture's bytes, or an append. -/
def IsPlanned (platform : Platform) (document : WriteDocument) : Prop :=
  (document.kind = .create ∧ document.content.isSome) ∨
    (document.kind = .putFile ∧ document.contentHash.isSome ∧ PicturePath document.path ∧
      ∃ bytes, document.contentBase64 = some (platform.encodeBase64 bytes)) ∨
    document.kind = .append

/-- The text a note was made with, the bytes of a picture, or whatever is there of the note that was appended to. -/
def Holds (phone : Phone Seed) (store : VaultStore Seed) (document : WriteDocument) : Prop :=
  match document.kind with
  | .create => store.content document.path = document.content
  | .putFile => (store.blobs.get document.path).map Prod.fst = document.contentBase64.bind phone.decodeBase64
  | _ => (store.content document.path).isSome

theorem content_put (store : VaultStore Seed) (path : Path) (row : FileRow) (pendingWrites : List (PendingWrite Seed)) (other : Path) :
    ({ store with files := store.files.put path row, pendingWrites := pendingWrites } : VaultStore Seed).content other =
      if other = path then some row.content else store.content other := by
  simp only [VaultStore.content, Table.get_put]
  split
  · rfl
  · rfl

/-- A write on a text leaves the pictures and the other notes as they are. -/
theorem editFile_cases {planned : PlannedWrite Seed} {outcome : SyncCore.Outcome}
    (hkind : planned.document.kind ≠ .moveFile ∧ planned.document.kind ≠ .putFile)
    (h : store.editFile phone planned = some (after, outcome)) :
    after.blobs = store.blobs ∧ (∀ other, other ≠ planned.document.path → after.content other = store.content other) ∧
      (after.content planned.document.path).isSome ∧
      (planned.document.kind = .create → store.content planned.document.path = none →
        after.content planned.document.path = some (planned.document.content.getD [])) := by
  simp only [VaultStore.editFile] at h
  split at h
  · next hnoop =>
    obtain ⟨rfl, -⟩ := Prod.mk.inj (Option.some.inj h)
    have hthere : store.content planned.document.path ≠ none := by
      intro hnone
      rw [hnone, apply_none_outcome phone.prim planned.document _ hkind] at hnoop
      cases hnoop
    exact ⟨rfl, fun _ _ => rfl, Option.isSome_iff_ne_none.mpr hthere, fun _ hnone => absurd hnone hthere⟩
  · obtain ⟨queued, hqueue, hafter⟩ := Option.map_eq_some_iff.mp h
    obtain ⟨rfl, -⟩ := Prod.mk.inj hafter
    obtain ⟨rfl, -⟩ := VaultStore.queue_some hqueue
    refine ⟨rfl, fun other hother => ?_, ?_, fun hcreate hnone => ?_⟩
    · rw [content_put, if_neg hother]
    · rw [content_put, if_pos rfl]
      rfl
    · rw [content_put, if_pos rfl]
      have happlied : (apply phone.prim none planned.document (store.seedText phone planned.seed)).text =
          planned.document.content.getD [] := by
        rw [apply, if_neg (by simp [hcreate]), if_pos hcreate]
      rw [hnone, happlied]
      split
      · rfl
      · rfl

/-- Bytes that decode are kept where no picture is. -/
theorem storeBlob_cases {document : WriteDocument} {bytes : Bytes} {hash : Text} {outcome : SyncCore.Outcome}
    (hbytes : document.contentBase64.bind phone.decodeBase64 = some bytes) (hhash : document.contentHash = some hash)
    (hfree : store.blobs.get document.path = none) (h : store.storeBlob phone document = some (after, outcome)) :
    after.files = store.files ∧ after.blobs = store.blobs.put document.path (bytes, hash) := by
  rw [VaultStore.storeBlob, hbytes, hhash] at h
  dsimp only at h
  rw [if_neg (by simp [hfree])] at h
  obtain ⟨queued, hqueue, hafter⟩ := Option.map_eq_some_iff.mp h
  obtain ⟨rfl, -⟩ := Prod.mk.inj hafter
  obtain ⟨rfl, -⟩ := VaultStore.queue_some hqueue
  exact ⟨rfl, rfl⟩

theorem taken_eq_false {path : Path} :
    taken store path = false ↔ store.content path = none ∧ store.blobs.get path = none := by
  rw [taken, Bool.or_eq_false_iff, Option.isSome_eq_false_iff, Option.isSome_eq_false_iff, Option.isNone_iff_eq_none,
    Option.isNone_iff_eq_none]

theorem Holds.taken (hdecode : ∀ bytes, phone.decodeBase64 (platform.encodeBase64 bytes) = some bytes) {document : WriteDocument}
    (hplanned : IsPlanned platform document) (h : Holds phone store document) : taken store document.path = true := by
  rw [Captures.taken, Bool.or_eq_true]
  cases hplanned with
  | inl hcreate =>
    simp only [Holds, hcreate.1] at h
    exact Or.inl (h ▸ hcreate.2)
  | inr hrest =>
    cases hrest with
    | inl hput =>
      obtain ⟨hkind, -, -, bytes, hbytes⟩ := hput
      simp only [Holds, hkind, hbytes, Option.bind_some, hdecode] at h
      exact Or.inr (by simpa using congrArg Option.isSome h)
    | inr happend =>
      simp only [Holds, happend] at h
      exact Or.inl h

/-- What is held of a write stays while its path keeps its text and its bytes. -/
theorem Holds.congr {document : WriteDocument} (h : Holds phone store document)
    (hcontent : after.content document.path = store.content document.path)
    (hblob : after.blobs.get document.path = store.blobs.get document.path) : Holds phone after document := by
  unfold Holds at h ⊢
  rw [hcontent, hblob]
  exact h

/-- A planned write is held once it is recorded; so is what was held of the writes it does not meet, and the other
paths are taken as they were. -/
theorem recordOne_holds (hdecode : ∀ bytes, phone.decodeBase64 (platform.encodeBase64 bytes) = some bytes)
    {planned : PlannedWrite Seed} {outcome : SyncCore.Outcome} (hplanned : IsPlanned platform planned.document)
    (hfree : Makes planned.document → taken store planned.document.path = false)
    (h : store.recordOne phone planned = some (after, outcome)) :
    Holds phone after planned.document ∧
      (∀ document, IsPlanned platform document →
        (Makes planned.document ∨ Makes document → planned.document.path ≠ document.path) →
        Holds phone store document → Holds phone after document) ∧
      (∀ path, path ≠ planned.document.path → taken after path = taken store path) ∧
      ∀ path, (after.blobs.get path).isSome → (store.blobs.get path).isSome ∨ PicturePath path := by
  have hedit : planned.document.kind ≠ .moveFile → planned.document.kind ≠ .putFile →
      store.editFile phone planned = some (after, outcome) := by
    intro hmove hput
    rwa [VaultStore.recordOne, if_neg hmove, if_neg hput] at h
  have htext : ∀ (hmove : planned.document.kind ≠ .moveFile) (hput : planned.document.kind ≠ .putFile),
      (∀ path, path ≠ planned.document.path → taken after path = taken store path) ∧
        ∀ path, (after.blobs.get path).isSome → (store.blobs.get path).isSome ∨ PicturePath path := by
    intro hmove hput
    obtain ⟨hblobs, hother, -, -⟩ := editFile_cases ⟨hmove, hput⟩ (hedit hmove hput)
    refine ⟨fun path hpath => ?_, fun path hpath => Or.inl (hblobs ▸ hpath)⟩
    rw [taken, taken, hother path hpath, hblobs]
  cases hplanned with
  | inl hcreate =>
    have hmove : planned.document.kind ≠ .moveFile := by simp [hcreate.1]
    have hput : planned.document.kind ≠ .putFile := by simp [hcreate.1]
    obtain ⟨hblobs, hother, -, hmade⟩ := editFile_cases ⟨hmove, hput⟩ (hedit hmove hput)
    refine ⟨?_, fun document _ hmeet hheld => ?_, htext hmove hput⟩
    · obtain ⟨content, hcontent⟩ := Option.isSome_iff_exists.mp hcreate.2
      simp only [Holds, hcreate.1]
      rw [hmade hcreate.1 (taken_eq_false.mp (hfree (Or.inl hcreate.1))).1, hcontent]
      rfl
    · have hne := hmeet (Or.inl (Or.inl hcreate.1))
      exact hheld.congr (hother _ hne.symm) (congrArg (fun blobs => Table.get blobs document.path) hblobs)
  | inr hrest =>
    cases hrest with
    | inl hblob =>
      obtain ⟨hkind, hhash, hpicture, bytes, hbytes⟩ := hblob
      obtain ⟨hash, hhash⟩ := Option.isSome_iff_exists.mp hhash
      rw [VaultStore.recordOne, if_neg (by simp [hkind]), if_pos hkind] at h
      have hdecoded : planned.document.contentBase64.bind phone.decodeBase64 = some bytes := by
        rw [hbytes, Option.bind_some, hdecode]
      obtain ⟨hfiles, hblobs⟩ := storeBlob_cases hdecoded hhash (taken_eq_false.mp (hfree (Or.inr hkind))).2 h
      have hcontent : ∀ path, after.content path = store.content path := by
        intro path
        rw [VaultStore.content, VaultStore.content, hfiles]
      have hget : ∀ path, path ≠ planned.document.path → after.blobs.get path = store.blobs.get path := by
        intro path hpath
        rw [hblobs, Table.get_put_of_ne _ _ hpath]
      refine ⟨?_, fun document _ hmeet hheld => ?_, fun path hpath => ?_, fun path hpath => ?_⟩
      · simp only [Holds, hkind]
        rw [hblobs, Table.get_put_self, hdecoded]
        rfl
      · exact hheld.congr (hcontent _) (hget _ (hmeet (Or.inl (Or.inr hkind))).symm)
      · rw [taken, taken, hcontent, hget path hpath]
      · by_cases heq : path = planned.document.path
        · exact Or.inr (heq ▸ hpicture)
        · exact Or.inl (hget path heq ▸ hpath)
    | inr happend =>
      have hmove : planned.document.kind ≠ .moveFile := by simp [happend]
      have hput : planned.document.kind ≠ .putFile := by simp [happend]
      obtain ⟨hblobs, hother, hthere, -⟩ := editFile_cases ⟨hmove, hput⟩ (hedit hmove hput)
      refine ⟨?_, fun document hdocument hmeet hheld => ?_, htext hmove hput⟩
      · simp only [Holds, happend]
        exact hthere
      · by_cases heq : planned.document.path = document.path
        · have hnot : ¬Makes document := fun hmakes => hmeet (Or.inr hmakes) heq
          have hkind : document.kind = .append := by
            refine (hdocument.resolve_left fun hcreate => hnot (Or.inl hcreate.1)).resolve_left fun hblob => ?_
            exact hnot (Or.inr hblob.1)
          simp only [Holds, hkind]
          exact heq ▸ hthere
        · exact hheld.congr (hother _ fun hsame => heq hsame.symm) (congrArg (fun blobs => Table.get blobs document.path) hblobs)

/-- Planned writes of which none meets another are held once they are recorded, and so is what was held. -/
theorem record_holds (hdecode : ∀ bytes, phone.decodeBase64 (platform.encodeBase64 bytes) = some bytes)
    {writes : List (PlannedWrite Seed)} {outcomes : List SyncCore.Outcome}
    (hplanned : ∀ write ∈ writes, IsPlanned platform write.document)
    (hfree : ∀ write ∈ writes, Makes write.document → taken store write.document.path = false)
    (hapart : writes.Pairwise fun a b => Makes a.document ∨ Makes b.document → a.document.path ≠ b.document.path)
    (h : store.record phone writes = some (after, outcomes)) :
    (∀ write ∈ writes, Holds phone after write.document) ∧
      (∀ document, IsPlanned platform document →
        (∀ write ∈ writes, Makes write.document ∨ Makes document → write.document.path ≠ document.path) →
        Holds phone store document → Holds phone after document) ∧
      ∀ path, (after.blobs.get path).isSome → (store.blobs.get path).isSome ∨ PicturePath path := by
  induction writes generalizing store outcomes with
  | nil =>
    obtain ⟨rfl, -⟩ := Prod.mk.inj (Option.some.inj h)
    exact ⟨fun write hwrite => absurd hwrite List.not_mem_nil, fun _ _ _ hheld => hheld, fun _ hpath => Or.inl hpath⟩
  | cons write rest ih =>
    obtain ⟨⟨next, outcome⟩, hone, hrest⟩ := Option.bind_eq_some_iff.mp h
    obtain ⟨⟨last, more⟩, hrecord, hlast⟩ := Option.map_eq_some_iff.mp hrest
    obtain ⟨rfl, -⟩ := Prod.mk.inj hlast
    rw [List.pairwise_cons] at hapart
    obtain ⟨hself, hkeeps, hothers, hblobs⟩ :=
      recordOne_holds hdecode (hplanned write List.mem_cons_self) (hfree write List.mem_cons_self) hone
    have hfree' : ∀ other ∈ rest, Makes other.document → taken next other.document.path = false := by
      intro other hother hmakes
      have hne := hapart.1 other hother (Or.inr hmakes)
      rw [hothers _ hne.symm]
      exact hfree other (List.mem_cons_of_mem write hother) hmakes
    obtain ⟨hheld, hkeeps', hblobs'⟩ :=
      ih (fun other hother => hplanned other (List.mem_cons_of_mem write hother)) hfree' hapart.2 hrecord
    refine ⟨fun other hother => ?_, fun document hdocument hmeet hold => ?_, fun path hpath => ?_⟩
    · cases List.mem_cons.mp hother with
      | inl heq =>
        rw [heq]
        refine hkeeps' _ (hplanned write List.mem_cons_self) (fun later hlater hmakes => ?_) hself
        exact (hapart.1 later hlater hmakes.symm).symm
      | inr hmem => exact hheld other hmem
    · refine hkeeps' document hdocument (fun later hlater => hmeet later (List.mem_cons_of_mem write hlater)) ?_
      exact hkeeps document hdocument (hmeet write List.mem_cons_self) hold
    · exact (hblobs' path hpath).elim (hblobs path) Or.inr

end

/-! ## What holds of every run -/

section

variable {Seed : Type} {platform : Platform} {phone : Phone Seed} {w t : World Seed} {at_ : PhoneWrites}

/-- Every planned write is held, those that make a file alone at their path, and the pictures and the articles are
among them. -/
structure Inv (platform : Platform) (phone : Phone Seed) (w : World Seed) : Prop where
  planned : ∀ plan ∈ w.planned, IsPlanned platform plan.document
  holds : ∀ plan ∈ w.planned, Holds phone w.store plan.document
  apart : MadeApart w
  blobs : ∀ path, (w.store.blobs.get path).isSome → PicturePath path
  pictures : ∀ picture ∈ w.pictures, ∃ plan ∈ w.planned, plan.document.kind = .putFile ∧
    plan.document.contentBase64 = some (platform.encodeBase64 picture.2) ∧
      ∃ alt, picture.1 = PhoneWrites.imageLine plan.document.path alt
  clips : ∀ clip ∈ w.clips, clip.text.isSome → ∃ kept ∈ w.clips, kept.url = clip.url ∧ ∃ at_, ∃ article ∈ kept.text,
    ∃ plan ∈ w.planned, plan.document.kind = .create ∧ plan.document.path = clip.path platform ∧
      plan.document.content = some (PhoneWrites.clipNote at_ kept article)

/-- Writes that make their files at free paths, apart from each other and from what was made. -/
structure Fits (platform : Platform) (w : World Seed) (writes : List (PlannedWrite Seed)) : Prop where
  planned : ∀ write ∈ writes, IsPlanned platform write.document
  free : ∀ write ∈ writes, Makes write.document → taken w.store write.document.path = false
  apart : writes.Pairwise fun a b => Makes a.document ∨ Makes b.document → a.document.path ≠ b.document.path
  appends : ∀ write ∈ writes, ¬Makes write.document → ∀ plan ∈ w.planned, Makes plan.document →
    plan.document.path ≠ write.document.path

/-- The plans of a step. -/
def plansOf (store : VaultStore Seed) (writes : List (PlannedWrite Seed)) : List (Plan Seed) :=
  writes.map fun write => ⟨write.document, taken store write.document.path⟩

theorem mem_plansOf {store : VaultStore Seed} {writes : List (PlannedWrite Seed)} {write : PlannedWrite Seed} (h : write ∈ writes) :
    ⟨write.document, taken store write.document.path⟩ ∈ plansOf store writes :=
  List.mem_map.mpr ⟨write, h, rfl⟩

/-- The writes of a step that fits are recorded. -/
theorem Inv.record (hdecode : ∀ bytes, phone.decodeBase64 (platform.encodeBase64 bytes) = some bytes)
    (h : Inv platform phone w) {writes : List (PlannedWrite Seed)} (hfits : Fits platform w writes) {store : VaultStore Seed}
    {outcomes : List SyncCore.Outcome} (hrecord : w.store.record phone writes = some (store, outcomes))
    {pictures : List (Text × Bytes)} {clips : List PhoneWrites.Clip}
    (hpictures : ∀ picture ∈ pictures, ∃ write ∈ writes, write.document.kind = .putFile ∧
      write.document.contentBase64 = some (platform.encodeBase64 picture.2) ∧
        ∃ alt, picture.1 = PhoneWrites.imageLine write.document.path alt)
    (hclips : ∀ clip ∈ clips, clip.text.isSome → ∃ kept ∈ w.clips ++ clips, kept.url = clip.url ∧
      ∃ at_, ∃ article ∈ kept.text, ∃ plan ∈ w.planned ++ plansOf w.store writes, plan.document.kind = .create ∧
        plan.document.path = clip.path platform ∧
          plan.document.content = some (PhoneWrites.clipNote at_ kept article)) :
    Inv platform phone ⟨store, w.planned ++ plansOf w.store writes, w.pictures ++ pictures, w.clips ++ clips⟩ := by
  obtain ⟨hheld, hkeeps, hblobs⟩ := record_holds hdecode hfits.planned hfits.free hfits.apart hrecord
  have hmeet : ∀ plan ∈ w.planned, ∀ write ∈ writes, Makes write.document ∨ Makes plan.document →
      write.document.path ≠ plan.document.path := by
    intro plan hplan write hwrite hmakes heq
    by_cases hmade : Makes write.document
    · have htaken := (h.holds plan hplan).taken hdecode (h.planned plan hplan)
      rw [← heq, hfits.free write hwrite hmade] at htaken
      cases htaken
    · exact hfits.appends write hwrite hmade plan hplan (hmakes.resolve_left hmade) heq.symm
  refine ⟨fun plan hplan => ?_, fun plan hplan => ?_, ⟨fun plan hplan hmakes => ?_, ?_⟩, fun path hpath => ?_,
    fun picture hpicture => ?_, fun clip hclip htext => ?_⟩
  · cases List.mem_append.mp hplan with
    | inl hold => exact h.planned plan hold
    | inr hnew =>
      obtain ⟨write, hwrite, rfl⟩ := List.mem_map.mp hnew
      exact hfits.planned write hwrite
  · cases List.mem_append.mp hplan with
    | inl hold => exact hkeeps _ (h.planned plan hold) (hmeet plan hold) (h.holds plan hold)
    | inr hnew =>
      obtain ⟨write, hwrite, rfl⟩ := List.mem_map.mp hnew
      exact hheld write hwrite
  · cases List.mem_append.mp hplan with
    | inl hold => exact h.apart.1 plan hold hmakes
    | inr hnew =>
      obtain ⟨write, hwrite, rfl⟩ := List.mem_map.mp hnew
      exact hfits.free write hwrite hmakes
  · refine List.pairwise_append.mpr ⟨h.apart.2, List.pairwise_map.mpr hfits.apart, fun plan hplan other hother hmakes => ?_⟩
    obtain ⟨write, hwrite, rfl⟩ := List.mem_map.mp hother
    exact (hmeet plan hplan write hwrite hmakes.symm).symm
  · exact (hblobs path hpath).elim (h.blobs path) id
  · cases List.mem_append.mp hpicture with
    | inl hold =>
      obtain ⟨plan, hplan, hrest⟩ := h.pictures picture hold
      exact ⟨plan, List.mem_append_left _ hplan, hrest⟩
    | inr hnew =>
      obtain ⟨write, hwrite, hrest⟩ := hpictures picture hnew
      exact ⟨_, List.mem_append_right _ (mem_plansOf hwrite), hrest⟩
  · cases List.mem_append.mp hclip with
    | inl hold =>
      obtain ⟨kept, hkept, hurl, made, article, harticle, plan, hplan, hrest⟩ := h.clips clip hold htext
      exact ⟨kept, List.mem_append_left _ hkept, hurl, made, article, harticle, plan, List.mem_append_left _ hplan, hrest⟩
    | inr hnew => exact hclips clip hnew htext

/-- What the pictures of a capture are planned as. -/
theorem placeImages_spec {images : List ImageAttachment} (h : PicturesFit platform w.store at_ images) :
    (∀ write ∈ (PhoneWrites.placeImages platform at_ images (taken w.store) : List (PlannedWrite Seed) × List Text).1,
        write.document.kind = .putFile ∧ IsPlanned platform write.document ∧ taken w.store write.document.path = false ∧
          ∃ image ∈ images, write.document.path ∈ imageNames platform at_ image) ∧
      ((PhoneWrites.placeImages platform at_ images (taken w.store) : List (PlannedWrite Seed) × List Text).1.map
        fun write => write.document.path).Nodup ∧
      ∀ picture ∈ PhoneWrites.pictures
          (PhoneWrites.placeImages platform at_ images (taken w.store) : List (PlannedWrite Seed) × List Text).2 images,
        ∃ write ∈ (PhoneWrites.placeImages platform at_ images (taken w.store) : List (PlannedWrite Seed) × List Text).1,
          write.document.kind = .putFile ∧ write.document.contentBase64 = some (platform.encodeBase64 picture.2) ∧
            ∃ alt, picture.1 = PhoneWrites.imageLine write.document.path alt := by
  obtain ⟨hnames, hfree, hapart⟩ := h.paths
  simp only [PhoneWrites.placeImages, PhoneWrites.pictures]
  generalize PhoneWrites.imagePaths platform at_ (taken w.store) [] images = paths at hnames hfree hapart
  have hlength : paths.length = images.length := hnames.length_eq
  have himages : images.map ImageAttachment.bytes = (paths.zip images).map fun entry => entry.2.bytes :=
    calc images.map ImageAttachment.bytes = ((paths.zip images).map Prod.snd).map ImageAttachment.bytes := by
          rw [List.map_snd_zip hlength.ge]
      _ = (paths.zip images).map fun entry => entry.2.bytes := by rw [List.map_map]; rfl
  have hplaced : ∀ entry ∈ (paths.zip images).zipIdx, entry.1 ∈ paths.zip images := by
    intro entry hentry
    have hfst : entry.1 ∈ (paths.zip images).zipIdx.map Prod.fst := List.mem_map_of_mem hentry
    rwa [List.zipIdx_map_fst] at hfst
  refine ⟨fun write hwrite => ?_, ?_, fun picture hpicture => ?_⟩
  · obtain ⟨entry, hentry, rfl⟩ := List.mem_map.mp hwrite
    have hzip := hplaced entry hentry
    have hname := List.forall₂_zip hnames hzip
    have hpath := (List.of_mem_zip hzip).1
    exact ⟨rfl, Or.inr (Or.inl ⟨rfl, rfl, picturePath_imageNames hname, _, rfl⟩), hfree _ hpath,
      entry.1.2, (List.of_mem_zip hzip).2, hname⟩
  · have hpaths : ((paths.zip images).zipIdx.map fun entry =>
        (PhoneWrites.putFile platform at_ entry.2 entry.1.1 entry.1.2.bytes : PlannedWrite Seed)).map
          (fun write => write.document.path) = paths := by
      rw [List.map_map]
      calc _ = ((paths.zip images).zipIdx.map Prod.fst).map Prod.fst := by rw [List.map_map]; rfl
        _ = paths := by rw [List.zipIdx_map_fst, List.map_fst_zip hlength.le]
    rw [hpaths]
    exact hapart
  · rw [himages, List.zip_map'] at hpicture
    obtain ⟨entry, hentry, rfl⟩ := List.mem_map.mp hpicture
    obtain ⟨index, hindex⟩ : ∃ index, (entry, index) ∈ (paths.zip images).zipIdx := by
      have hfst : entry ∈ (paths.zip images).zipIdx.map Prod.fst := by rwa [List.zipIdx_map_fst]
      obtain ⟨found, hfound, rfl⟩ := List.mem_map.mp hfst
      exact ⟨found.2, hfound⟩
    exact ⟨_, List.mem_map_of_mem hindex, rfl, rfl, _, rfl⟩

/-- Pictures and one more write. -/
theorem Fits.of_pictures {images : List ImageAttachment} (h : PicturesFit platform w.store at_ images) {note : PlannedWrite Seed}
    (hnote : IsPlanned platform note.document) (hfree : Makes note.document → taken w.store note.document.path = false)
    (hnames : ∀ image ∈ images, note.document.path ∉ imageNames platform at_ image)
    (happends : ¬Makes note.document → ∀ plan ∈ w.planned, Makes plan.document → plan.document.path ≠ note.document.path) :
    Fits platform w ((PhoneWrites.placeImages platform at_ images (taken w.store)).1 ++ [note]) := by
  obtain ⟨hplaced, hnodup, -⟩ := placeImages_spec h
  refine ⟨fun write hwrite => ?_, fun write hwrite hmakes => ?_, ?_, fun write hwrite hmakes => ?_⟩
  · cases List.mem_append.mp hwrite with
    | inl hpicture => exact (hplaced write hpicture).2.1
    | inr hlast => exact List.mem_singleton.mp hlast ▸ hnote
  · cases List.mem_append.mp hwrite with
    | inl hpicture => exact (hplaced write hpicture).2.2.1
    | inr hlast =>
      rw [List.mem_singleton.mp hlast] at hmakes ⊢
      exact hfree hmakes
  · refine List.pairwise_append.mpr ⟨?_, List.pairwise_singleton _ _, fun a ha b hb _ heq => ?_⟩
    · refine (List.pairwise_map.mp hnodup).imp ?_
      intro a b hne _
      exact hne
    · obtain ⟨image, himage, hname⟩ := (hplaced a ha).2.2.2
      rw [heq, List.mem_singleton.mp hb] at hname
      exact hnames image himage hname
  · cases List.mem_append.mp hwrite with
    | inl hpicture => exact absurd (Or.inr (hplaced write hpicture).1) hmakes
    | inr hlast =>
      rw [List.mem_singleton.mp hlast] at hmakes ⊢
      exact happends hmakes

theorem makes_inboxNote (index : ℕ) (fields : PhoneWrites.InboxFields) (held : Path → Bool) :
    Makes (PhoneWrites.inboxNote platform at_ index fields held : PlannedWrite Seed).document := Or.inl rfl

/-- Pictures and an inbox note. -/
theorem Fits.of_inboxNote {images : List ImageAttachment} (h : PicturesFit platform w.store at_ images) (index : ℕ)
    {fields : PhoneWrites.InboxFields} (hnote : NoteFits platform w.store at_ fields.title) :
    Fits platform w ((PhoneWrites.placeImages platform at_ images (taken w.store)).1 ++
      [PhoneWrites.inboxNote platform at_ index fields (taken w.store)]) := by
  obtain ⟨name, -, hpath, hfree⟩ := inboxNote_path index fields (taken w.store) hnote
  refine Fits.of_pictures h (Or.inl ⟨rfl, rfl⟩) (fun _ => hpath ▸ hfree) (fun image _ hmem => ?_) fun hmakes =>
    absurd (makes_inboxNote index fields _) hmakes
  rw [hpath] at hmem
  exact not_picturePath_markdown name (picturePath_imageNames hmem)

/-- A path of a note is taken when there is a note. -/
theorem Inv.taken_markdown (h : Inv platform phone w) (name : Text) :
    taken w.store (PhoneWrites.markdown name) = (w.store.content (PhoneWrites.markdown name)).isSome := by
  have hnone : w.store.blobs.get (PhoneWrites.markdown name) = none := by
    cases hget : w.store.blobs.get (PhoneWrites.markdown name) with
    | none => rfl
    | some blob => exact absurd (h.blobs _ (by rw [hget]; rfl)) (not_picturePath_markdown name)
  rw [taken, hnone, Option.isSome_none, Bool.or_false]

/-- The article's write and the inbox note of a clip. -/
theorem Fits.of_clip (h : Inv platform phone w) {clip : PhoneWrites.Clip} (hroomy : Roomy platform w (.clip at_ clip)) :
    Fits platform w (PhoneWrites.clip platform at_ clip fun path => (w.store.content path).isSome) := by
  obtain ⟨⟨first, hfirst, hfree⟩, htext⟩ := hroomy
  rw [h.taken_markdown] at hfree
  simp only [PhoneWrites.clip]
  generalize hfields : (⟨clip.shownTitle, PhoneWrites.clipBody platform clip, some clip.url,
    if clip.makeTask then some "read".toList else none⟩ : PhoneWrites.InboxFields) = fields
  have htitle : fields.title = clip.shownTitle := by rw [← hfields]
  obtain ⟨name, hname, hpath, hunheld⟩ :=
    inboxNote_path 1 fields (fun path => (w.store.content path).isSome) ⟨first, htitle ▸ hfirst, hfree⟩
  generalize hnote : (PhoneWrites.inboxNote platform at_ 1 fields fun path => (w.store.content path).isSome :
    PlannedWrite Seed) = note at hpath
  have hkind : note.document.kind = .create ∧ note.document.content.isSome := by
    rw [← hnote]
    exact ⟨rfl, rfl⟩
  have hnoteFree : taken w.store note.document.path = false := by rw [hpath, h.taken_markdown, hunheld]
  have hmakes : Makes note.document := Or.inl hkind.1
  have halone : Fits platform w [note] :=
    ⟨fun write hwrite => List.mem_singleton.mp hwrite ▸ Or.inl hkind, fun write hwrite _ => List.mem_singleton.mp hwrite ▸ hnoteFree,
      List.pairwise_singleton _ _, fun write hwrite hnot => absurd (List.mem_singleton.mp hwrite ▸ hmakes) hnot⟩
  cases harticle : clip.text with
  | none => exact halone
  | some article =>
    dsimp only
    split
    · exact halone
    · next hclip =>
      have hclipFree : taken w.store (clip.path platform) = false := by
        rw [PhoneWrites.Clip.path, h.taken_markdown]
        simpa [PhoneWrites.Clip.path] using hclip
      have hne : clip.path platform ≠ note.document.path := by
        intro heq
        refine (htext (harticle ▸ rfl)).1 ?_
        rw [heq, hpath]
        exact List.mem_map_of_mem (htitle ▸ hname)
      refine ⟨fun write hwrite => ?_, fun write hwrite hmade => ?_, ?_, fun write hwrite hnot => ?_⟩
      · cases List.mem_cons.mp hwrite with
        | inl heq => exact heq ▸ Or.inl ⟨rfl, rfl⟩
        | inr hlast => exact halone.planned write hlast
      · cases List.mem_cons.mp hwrite with
        | inl heq => exact heq ▸ hclipFree
        | inr hlast => exact halone.free write hlast hmade
      · refine List.pairwise_cons.mpr ⟨fun other hother _ => ?_, List.pairwise_singleton _ _⟩
        exact List.mem_singleton.mp hother ▸ hne
      · cases List.mem_cons.mp hwrite with
        | inl heq => exact absurd (heq ▸ Or.inl rfl) hnot
        | inr hlast => exact halone.appends write hlast hnot

/-- The note a clip links to is among those that are kept. -/
theorem Inv.clipped (h : Inv platform phone w) {clip : PhoneWrites.Clip} (hroomy : Roomy platform w (.clip at_ clip))
    (htext : clip.text.isSome) :
    ∃ kept ∈ w.clips ++ [clip], kept.url = clip.url ∧ ∃ made, ∃ article ∈ kept.text,
      ∃ plan ∈ w.planned ++ plansOf w.store
          (PhoneWrites.clip platform at_ clip fun path => (w.store.content path).isSome),
        plan.document.kind = .create ∧ plan.document.path = clip.path platform ∧
          plan.document.content = some (PhoneWrites.clipNote made kept article) := by
  obtain ⟨article, harticle⟩ := Option.isSome_iff_exists.mp htext
  cases hheld : (w.store.content (clip.path platform)).isSome with
  | true =>
    obtain ⟨earlier, hearlier, htextEarlier, hurl, hpath⟩ := (hroomy.2 htext).2 hheld
    obtain ⟨kept, hkept, hsame, made, keptArticle, hkeptArticle, plan, hplan, hkind, hplanPath, hcontent⟩ :=
      h.clips earlier hearlier htextEarlier
    exact ⟨kept, List.mem_append_left _ hkept, hsame.trans hurl, made, keptArticle, hkeptArticle, plan,
      List.mem_append_left _ hplan, hkind, hplanPath.trans hpath, hcontent⟩
  | false =>
    have hwrite : (PhoneWrites.clipWrite platform at_ clip article : PlannedWrite Seed) ∈
        PhoneWrites.clip platform at_ clip fun path => (w.store.content path).isSome := by
      simp [PhoneWrites.clip, harticle, hheld]
    exact ⟨clip, List.mem_append_right _ (List.mem_singleton_self _), rfl, at_, article, harticle, _,
      List.mem_append_right _ (mem_plansOf hwrite), rfl, rfl, rfl⟩

theorem Inv.next (hdecode : ∀ bytes, phone.decodeBase64 (platform.encodeBase64 bytes) = some bytes) {action : Action Seed}
    (h : Inv platform phone w) (hroomy : Roomy platform w action) (hnext : Next platform phone w action t) :
    Inv platform phone t := by
  obtain ⟨⟨result, clips⟩, hcaptured, hrest⟩ := Option.bind_eq_some_iff.mp hnext
  obtain ⟨⟨store, outcomes⟩, hrecord, rfl⟩ := Option.map_eq_some_iff.mp hrest
  cases action with
  | capture at_ blocks destination images =>
    obtain ⟨made, hmade, hpair⟩ := Option.map_eq_some_iff.mp hcaptured
    obtain ⟨rfl, rfl⟩ := Prod.mk.inj hpair
    obtain ⟨content, hcontent, hfirst⟩ := Option.bind_eq_some_iff.mp hmade
    obtain ⟨first, hhead, rfl⟩ := Option.map_eq_some_iff.mp hfirst
    refine h.record hdecode ?_ hrecord (fun picture hpicture => ?_) fun clip hclip => absurd hclip List.not_mem_nil
    · cases destination with
      | inbox => exact Fits.of_inboxNote hroomy.1 _ (hroomy.2 content hcontent first hhead)
      | elsewhere append =>
        obtain ⟨hpictures, hmadeApart, hnames⟩ := hroomy
        refine Fits.of_pictures hpictures (Or.inr (Or.inr rfl)) (fun hmakes => ?_) hnames fun _ => hmadeApart
        cases hmakes with
        | inl hcreate => cases hcreate
        | inr hput => cases hput
    · obtain ⟨write, hwrite, hpicture⟩ := (placeImages_spec hroomy.1).2.2 picture hpicture
      exact ⟨write, List.mem_append_left _ hwrite, hpicture⟩
  | photoCapture at_ images text =>
    obtain ⟨made, hmade, hpair⟩ := Option.map_eq_some_iff.mp hcaptured
    obtain ⟨rfl, rfl⟩ := Prod.mk.inj hpair
    simp only [PhoneWrites.photoCapture] at hmade
    split at hmade
    · cases hmade
    · cases hmade
      refine h.record hdecode ?_ hrecord (fun picture hpicture => ?_) fun clip hclip => absurd hclip List.not_mem_nil
      · exact Fits.of_inboxNote hroomy.1 _ hroomy.2
      · obtain ⟨write, hwrite, hpicture⟩ := (placeImages_spec hroomy.1).2.2 picture hpicture
        exact ⟨write, List.mem_append_left _ hwrite, hpicture⟩
  | clip at_ clip =>
    obtain ⟨rfl, rfl⟩ := Prod.mk.inj (Option.some.inj hcaptured)
    refine h.record hdecode (Fits.of_clip h hroomy) hrecord (fun picture hpicture => absurd hpicture List.not_mem_nil) ?_
    intro other hother htext
    rw [List.mem_singleton.mp hother] at htext ⊢
    exact h.clipped hroomy htext

theorem Initial.inv (h : Initial w) : Inv platform phone w := by
  obtain ⟨hplanned, hpictures, hclips, hblobs⟩ := h
  refine ⟨?_, ?_, ⟨?_, ?_⟩, hblobs, ?_, ?_⟩
  · simp [hplanned]
  · simp [hplanned]
  · simp [hplanned]
  · simp [hplanned]
  · simp [hpictures]
  · simp [hclips]

end

/-! ## A day of captures -/

/-- Bytes as Base64 writes these three, and others in any way that reads back. -/
def encodeBytes (bytes : Bytes) : Text := if bytes = [1, 2, 3] then "AQID".toList else '!' :: bytes.map fun byte => Char.ofNat byte.toNat

def decodeBytes (text : Text) : Option Bytes :=
  if text = "AQID".toList then some [1, 2, 3] else some ((text.drop 1).map fun c => UInt8.ofNat c.toNat)

/-- Characters of ASCII. -/
def asciiPlatform : Platform where
  characters := List.map fun c => [c]
  encodeBase64 := encodeBytes
  sha256Hex := fun _ => "039058c6f2c0cb492c533b0a4d14ef77cc0f78abccced5287d84a1a2011cfb81".toList
  letters := ⟨Char.isAlpha, Char.isDigit⟩

def asciiPhone : Phone Unit := { plainPhone with decodeBase64 := decodeBytes }

def emptyWorld : World Unit := ⟨.empty, [], [], []⟩

/-- Plans made at nine o'clock, their ids told apart by a letter. -/
def atNine (letter : Char) (digest : Text) : PhoneWrites :=
  ⟨"inbox".toList, "images".toList, (Day.ofYmd 2026 10 23).get (by decide), 9, 0, "2026-10-23 09:00".toList, digest,
    fun index => letter :: decimal index⟩

def walk : Action Unit :=
  .capture (atNine 'a' "0a1b2c3d4e5f".toList) [⟨.paragraph, "Walk".toList, [], [], 0, true⟩] .inbox
    [⟨"Lake".toList, [1, 2, 3], .jpg⟩]

def newsAt (url article : Text) : PhoneWrites.Clip := ⟨"News".toList, url, [], none, some article, false⟩

def firstNews : PhoneWrites.Clip := newsAt "https://a.org".toList "Rain.".toList

def otherNews : PhoneWrites.Clip := newsAt "https://b.org".toList "Sun.".toList

def clipFirst : Action Unit := .clip (atNine 'b' "1a1b2c3d4e5f".toList) firstNews

def clipOther : Action Unit := .clip (atNine 'c' "2a1b2c3d4e5f".toList) otherNews

/-- The state after an action. -/
def afterAction (w : World Unit) (action : Action Unit) : World Unit := (w.step asciiPlatform asciiPhone action).getD w

end Thock.ThockKit.Captures
