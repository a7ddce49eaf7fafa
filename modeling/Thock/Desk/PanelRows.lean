import Mathlib.Data.List.Pairwise
import Mathlib.Data.List.Sort
import Thock.Desk.InlineScan

/-!
# A line as a panel row shows it

The runs a row shows of a line: links as their labels, code as its text, and styled text without its delimiters.

Four scanners find the constructs and one pass puts them together by where they start. The row shows each character of the
line once, but for the syntax of a construct, and in the styles of the constructs it stands in.
-/

namespace Thock.Desk.Inline

open TextScan
open SyncCore (Span)

/-! ## Runs of a row -/

inductive LinkTarget
  | url (url : Text)
  | note (note : Text)
deriving DecidableEq, Repr

/-- How a character of a row looks. -/
structure Look where
  target : Option LinkTarget
  struck : Bool
  bold : Bool
  italic : Bool
  code : Bool
deriving DecidableEq, Repr

structure InlineSpan where
  text : Text
  look : Look
deriving DecidableEq, Repr

/-- A construct that shows as something else, or a delimiter, which shows as nothing. -/
inductive Atom
  | link (label : Span) (target : LinkTarget)
  | code (text : Span)
  | strikeOpen
  | strikeClose
  | emphasisOpen (bold italic : Bool)
  | emphasisClose (bold italic : Bool)
deriving DecidableEq, Repr

def isAbsoluteUrl (url : Text) : Bool :=
  match splitFirst [':'] url with
  | none => false
  | some (scheme, _) =>
    scheme.head?.any Char.isAlpha && scheme.all fun c => c.isAlphanum || c = '+' || c = '-' || c = '.'

/-- Where a link points; a destination is its first word. -/
def linkTarget (line : Text) (link : InlineLink) : Option (Option LinkTarget) :=
  match link.wikilinkTarget, link.destination with
  | some target, _ => (sliceBetween target.start target.stop line).map fun note => some (.note note)
  | none, none => some none
  | none, some destination =>
    (sliceBetween destination.start destination.stop line).map fun text =>
      let word := (trimStart text).takeWhile fun c => !isWhitespace c
      if word.isEmpty then none else some (if isAbsoluteUrl word then .url word else .note word)

/-- The links that point somewhere. -/
def targetedLinks (line : Text) : List InlineLink → Option (List (InlineLink × LinkTarget))
  | [] => some []
  | link :: rest =>
    (linkTarget line link).bind fun target =>
      (targetedLinks line rest).map fun links => (target.map fun target => (link, target)).toList ++ links

/-- The constructs of a line that a row replaces. -/
structure Constructs where
  links : List (InlineLink × LinkTarget)
  codes : List InlineCode
  strikes : List InlineStrikethrough
  emphases : List InlineEmphasis

def constructsOf (line : Text) : Option Constructs :=
  (inlineLinks line).bind fun links =>
    (targetedLinks line links).bind fun links =>
      (inlineStrikethroughs line).bind fun strikes =>
        (inlineEmphases line).map fun emphases => ⟨links, codeSpans line, strikes, emphases⟩

def strikeAtoms (run : InlineStrikethrough) : List (Span × Atom) :=
  [(⟨run.range.start, run.text.start⟩, .strikeOpen), (⟨run.text.stop, run.range.stop⟩, .strikeClose)]

def emphasisAtoms (run : InlineEmphasis) : List (Span × Atom) :=
  [(⟨run.range.start, run.text.start⟩, .emphasisOpen run.isBold run.isItalic),
    (⟨run.text.stop, run.range.stop⟩, .emphasisClose run.isBold run.isItalic)]

def Constructs.atoms (constructs : Constructs) : List (Span × Atom) :=
  constructs.links.map (fun link => (link.1.range, .link link.1.label link.2)) ++
    (constructs.codes.map (fun code => (code.range, .code code.text)) ++
      (constructs.strikes.flatMap strikeAtoms ++ constructs.emphases.flatMap emphasisAtoms))

def sortAtoms (atoms : List (Span × Atom)) : List (Span × Atom) := atoms.mergeSort fun a b => decide (a.1.start ≤ b.1.start)

/-- Whether a run is struck, and how many emphases of either style it is in. -/
structure Styles where
  struck : Bool
  bold : ℕ
  italic : ℕ
deriving DecidableEq, Repr

def Styles.look (styles : Styles) : Look := ⟨none, styles.struck, decide (0 < styles.bold), decide (0 < styles.italic), false⟩

/-- The styles beyond an atom; a depth that would fall below zero stops the program. -/
def Styles.after (styles : Styles) : Atom → Option Styles
  | .link .. => some styles
  | .code .. => some styles
  | .strikeOpen => some { styles with struck := true }
  | .strikeClose => some { styles with struck := false }
  | .emphasisOpen bold italic =>
    some { styles with bold := styles.bold + bold.toNat, italic := styles.italic + italic.toNat }
  | .emphasisClose bold italic =>
    if bold.toNat ≤ styles.bold ∧ italic.toNat ≤ styles.italic then
      some { styles with bold := styles.bold - bold.toNat, italic := styles.italic - italic.toNat }
    else none

/-- What an atom shows. -/
def Atom.shown (line : Text) (styles : Styles) : Atom → Option (List InlineSpan)
  | .link label target =>
    (sliceBetween label.start label.stop line).map fun text => [⟨text, { styles.look with target := some target }⟩]
  | .code text => (sliceBetween text.start text.stop line).map fun text => [⟨text, { styles.look with code := true }⟩]
  | _ => some []

/-- The runs from an offset on, with the atoms that are left. -/
def rowSpans (line : Text) : ℕ → Styles → List (Span × Atom) → Option (List InlineSpan)
  | literalStart, styles, [] =>
    if literalStart < byteSize line then (sliceFrom literalStart line).map fun text => [⟨text, styles.look⟩] else some []
  | literalStart, styles, (range, atom) :: rest =>
    (if literalStart < range.start then (sliceBetween literalStart range.start line).map fun text => [⟨text, styles.look⟩]
      else some []).bind fun literal =>
        (atom.shown line styles).bind fun shown =>
          (styles.after atom).bind fun styles =>
            (rowSpans line range.stop styles rest).map fun spans => literal ++ (shown ++ spans)

def parseInlineSpans (line : Text) : Option (List InlineSpan) :=
  (constructsOf line).bind fun constructs => rowSpans line 0 ⟨false, 0, 0⟩ (sortAtoms constructs.atoms)

/-! ## Characters of a row -/

/-- The characters of a run, each as it looks. -/
def InlineSpan.characters (span : InlineSpan) : List (Char × Look) := span.text.map fun c => (c, span.look)

/-- Whether a place is in the syntax of a construct, which a row leaves out. -/
def Constructs.hidden (constructs : Constructs) (place : ℕ) : Bool :=
  constructs.links.any (fun link => link.1.range.contains place && !link.1.label.contains place) ||
    constructs.codes.any (fun code => code.range.contains place && !code.text.contains place) ||
      constructs.strikes.any (fun run => (delimitersOf run.range run.text).any fun range => range.contains place) ||
        constructs.emphases.any fun run => (delimitersOf run.range run.text).any fun range => range.contains place

/-- How the character at a place looks: in the styles whose delimiters it stands between. -/
def Constructs.lookAt (constructs : Constructs) (place : ℕ) : Look where
  target := (constructs.links.find? fun link => link.1.label.contains place).map Prod.snd
  struck := constructs.strikes.any fun run => run.text.contains place
  bold := constructs.emphases.any fun run => run.isBold && run.text.contains place
  italic := constructs.emphases.any fun run => run.isItalic && run.text.contains place
  code := constructs.codes.any fun code => code.text.contains place

/-! ## The constructs stand apart -/

/-- Constructs as the scanners find them. -/
structure Constructs.Sound (line : Text) (constructs : Constructs) : Prop where
  links : ∀ link ∈ constructs.links, link.1.Sound line
  codes : ∀ code ∈ constructs.codes, code.Sound line
  strikes : ∀ run ∈ constructs.strikes, Delimited line run.range run.text (· = byteOf '~')
  emphases : ∀ run ∈ constructs.emphases, Delimited line run.range run.text IsMark
  strikeOrder : (constructs.strikes.map InlineStrikethrough.range).Pairwise fun a b => a.stop ≤ b.start
  apart : (constructs.atoms.map Prod.fst).Pairwise Apart

theorem linkTarget_spec {line : Text} {link : InlineLink} (h : link.Sound line) :
    ∃ target, linkTarget line link = some target := by
  unfold linkTarget
  cases htarget : link.wikilinkTarget with
  | some target =>
    have hstretch := h.target target htarget
    obtain ⟨-, note, -, -, -, -, hslice⟩ := hstretch.start.sliceBetween hstretch.stop hstretch.lt.le
    dsimp only
    rw [hslice]
    exact ⟨_, rfl⟩
  | none =>
    cases hdestination : link.destination with
    | none => exact ⟨none, rfl⟩
    | some destination =>
      obtain ⟨hstart, hstop, hle⟩ := h.destination destination hdestination
      obtain ⟨-, text, -, -, -, -, hslice⟩ := hstart.sliceBetween hstop hle
      dsimp only
      rw [hslice]
      exact ⟨_, rfl⟩

/-- The links that point somewhere are some of the links, in order. -/
theorem targetedLinks_spec {line : Text} {links : List InlineLink} (h : ∀ link ∈ links, link.Sound line) :
    ∃ targeted, targetedLinks line links = some targeted ∧ (targeted.map Prod.fst).Sublist links := by
  induction links with
  | nil => exact ⟨[], rfl, List.Sublist.refl _⟩
  | cons link rest ih =>
    obtain ⟨target, htarget⟩ := linkTarget_spec (h link List.mem_cons_self)
    obtain ⟨targeted, htargeted, hsub⟩ := ih fun other hother => h other (List.mem_cons_of_mem _ hother)
    rw [targetedLinks, htarget, Option.bind_some, htargeted]
    refine ⟨_, rfl, ?_⟩
    cases target with
    | none => exact hsub.cons link
    | some target => exact hsub.cons_cons link

theorem map_fst_atoms (constructs : Constructs) :
    constructs.atoms.map Prod.fst = constructs.links.map (fun link => link.1.range) ++
      (constructs.codes.map InlineCode.range ++
        (constructs.strikes.flatMap (fun run => delimitersOf run.range run.text) ++ emphasisDelimiters constructs.emphases)) := by
  simp only [Constructs.atoms, List.map_append, List.map_map, List.map_flatMap]
  rfl

theorem constructsOf_spec (line : Text) : ∃ constructs, constructsOf line = some constructs ∧ constructs.Sound line := by
  obtain ⟨found, hfound, hsound⟩ := foundFrom_spec (.zero line)
  obtain ⟨hcodes, hcomments, hlinks, hstrikes, hemphases⟩ := foundFrom_eq_some hfound
  obtain ⟨targeted, htargeted, hsub⟩ := targetedLinks_spec fun link hin => (hsound.links link hin).1
  have hexcluded : inlineExclusions line = some (codeSpanRanges line ++ found.comments) := by
    rw [inlineExclusions, hcomments]
    rfl
  have hall : strikethroughExclusions line = some (codeSpanRanges line ++ found.comments ++ found.links.map InlineLink.range) := by
    rw [strikethroughExclusions, hexcluded, Option.bind_some, hlinks]
    rfl
  refine ⟨⟨targeted, found.codes, found.strikes, found.emphases⟩, ?_,
    fun link hin => (hsound.links _ (hsub.subset (List.mem_map_of_mem hin))).1, hsound.codes,
    fun run hrun => (hsound.strikes run hrun).1, fun run hrun => (hsound.emphases run hrun).1, hsound.strikeOrder.order, ?_⟩
  · rw [constructsOf, inlineLinks, hexcluded, Option.bind_some, hlinks, Option.bind_some, htargeted, Option.bind_some,
      inlineStrikethroughs, hall, Option.bind_some, hstrikes, Option.bind_some, inlineEmphases, hall, Option.bind_some,
      hemphases, hcodes]
    rfl
  · have hranges : targeted.map (fun link => link.1.range) = (targeted.map Prod.fst).map InlineLink.range := by
      rw [List.map_map]
      rfl
    rw [map_fst_atoms, hranges]
    have hapart := (List.pairwise_append.mp hsound.apart).2.1
    exact ((List.perm_append_comm_assoc _ _ _).pairwise hapart Apart.symm).sublist
      ((hsub.map InlineLink.range).append (List.Sublist.refl _))

/-! ## The pass over the atoms -/

section Sorted

variable {line : Text} {constructs : Constructs}

theorem atom_stretch (h : constructs.Sound line) {atom : Span × Atom} (hatom : atom ∈ constructs.atoms) :
    Stretch line atom.1 := by
  rcases List.mem_append.mp hatom with hatom | hatom
  · obtain ⟨link, hlink, rfl⟩ := List.mem_map.mp hatom
    exact (h.links link hlink).range
  · rcases List.mem_append.mp hatom with hatom | hatom
    · obtain ⟨code, hcode, rfl⟩ := List.mem_map.mp hatom
      exact (h.codes code hcode).range
    · rcases List.mem_append.mp hatom with hatom | hatom
      · obtain ⟨run, hrun, hatom⟩ := List.mem_flatMap.mp hatom
        rcases List.mem_pair.mp hatom with rfl | rfl
        · exact (h.strikes run hrun).opens
        · exact (h.strikes run hrun).closes
      · obtain ⟨run, hrun, hatom⟩ := List.mem_flatMap.mp hatom
        rcases List.mem_pair.mp hatom with rfl | rfl
        · exact (h.emphases run hrun).opens
        · exact (h.emphases run hrun).closes

theorem sortAtoms_perm (atoms : List (Span × Atom)) : (sortAtoms atoms).Perm atoms := List.mergeSort_perm _ _

/-- Sorted by where they start, the atoms stand one after another. -/
theorem sortAtoms_ordered (h : constructs.Sound line) : Ordered line 0 ((sortAtoms constructs.atoms).map Prod.fst) := by
  have hperm := sortAtoms_perm constructs.atoms
  have hstretch : ∀ range ∈ (sortAtoms constructs.atoms).map Prod.fst, Stretch line range := by
    intro range hrange
    obtain ⟨atom, hatom, rfl⟩ := List.mem_map.mp hrange
    exact atom_stretch h (hperm.subset hatom)
  have hstarts : ((sortAtoms constructs.atoms).map Prod.fst).Pairwise fun a b => a.start ≤ b.start := by
    rw [List.pairwise_map]
    have hsorted := @List.pairwise_mergeSort (Span × Atom) (fun a b => decide (a.1.start ≤ b.1.start))
      (fun a b c hab hbc => by simpa using (of_decide_eq_true hab).trans (of_decide_eq_true hbc))
      (fun a b => by simpa using Nat.le_total a.1.start b.1.start) constructs.atoms
    exact hsorted.imp fun hle => of_decide_eq_true hle
  have hapart : ((sortAtoms constructs.atoms).map Prod.fst).Pairwise Apart :=
    ((hperm.map Prod.fst).pairwise_iff Apart.symm).mpr h.apart
  refine ⟨fun _ _ => Nat.zero_le _, hstretch, ?_⟩
  refine List.Pairwise.imp_of_mem (fun {a b} ha hb hboth => ?_) (hstarts.and hapart)
  rcases hboth.2 with hle | hle
  · exact hle
  · have := (hstretch b hb).lt
    omega

/-- Two atoms at one place are one. -/
theorem atom_unique (h : constructs.Sound line) {a b : Span × Atom} (ha : a ∈ constructs.atoms) (hb : b ∈ constructs.atoms)
    {place : ℕ} (hina : a.1.contains place = true) (hinb : b.1.contains place = true) : a = b := by
  by_contra hne
  rw [Span.contains, Bool.and_eq_true, decide_eq_true_eq, decide_eq_true_eq] at hina hinb
  have hpairs : constructs.atoms.Pairwise fun a b => Apart a.1 b.1 := List.pairwise_map.mp h.apart
  have : Std.Symm fun a b : Span × Atom => Apart a.1 b.1 := ⟨fun _ _ hab => hab.symm⟩
  rcases hpairs.forall ha hb hne with hle | hle <;> omega

end Sorted

/-! ### Counting delimiters -/

def Atom.opensStrike : Atom → Bool
  | .strikeOpen => true
  | _ => false

def Atom.closesStrike : Atom → Bool
  | .strikeClose => true
  | _ => false

def Atom.opensBold : Atom → Bool
  | .emphasisOpen bold _ => bold
  | _ => false

def Atom.closesBold : Atom → Bool
  | .emphasisClose bold _ => bold
  | _ => false

def Atom.opensItalic : Atom → Bool
  | .emphasisOpen _ italic => italic
  | _ => false

def Atom.closesItalic : Atom → Bool
  | .emphasisClose _ italic => italic
  | _ => false

/-- How many atoms of a kind end by a place. -/
def Constructs.count (constructs : Constructs) (q : Atom → Bool) (place : ℕ) : ℕ :=
  constructs.atoms.countP fun atom => q atom.2 && decide (atom.1.stop ≤ place)

/-- The styles at a place. -/
def Constructs.stylesAt (constructs : Constructs) (place : ℕ) : Styles where
  struck := decide (constructs.count Atom.closesStrike place < constructs.count Atom.opensStrike place)
  bold := constructs.count Atom.opensBold place - constructs.count Atom.closesBold place
  italic := constructs.count Atom.opensItalic place - constructs.count Atom.closesItalic place

theorem countP_flatMap_pair {α β : Type*} (runs : List α) (f g : α → β) (p : β → Bool) :
    (runs.flatMap fun run => [f run, g run]).countP p =
      runs.countP (fun run => p (f run)) + runs.countP fun run => p (g run) := by
  induction runs with
  | nil => rfl
  | cons run rest ih =>
    rw [List.flatMap_cons, List.countP_append, ih, List.countP_cons, List.countP_cons, List.countP_cons, List.countP_cons,
      List.countP_nil]
    omega

/-- Links and code aside, an atom of a kind is a delimiter of a run. -/
theorem count_eq (constructs : Constructs) {q : Atom → Bool} (hlink : ∀ label target, q (.link label target) = false)
    (hcode : ∀ text, q (.code text) = false) (place : ℕ) :
    constructs.count q place =
      constructs.strikes.countP (fun run => q .strikeOpen && decide (run.text.start ≤ place)) +
        constructs.strikes.countP (fun run => q .strikeClose && decide (run.range.stop ≤ place)) +
      (constructs.emphases.countP (fun run => q (.emphasisOpen run.isBold run.isItalic) && decide (run.text.start ≤ place)) +
        constructs.emphases.countP fun run =>
          q (.emphasisClose run.isBold run.isItalic) && decide (run.range.stop ≤ place)) := by
  have hlinks : (constructs.links.map fun link => (link.1.range, Atom.link link.1.label link.2)).countP
      (fun atom => q atom.2 && decide (atom.1.stop ≤ place)) = 0 := by
    rw [List.countP_eq_zero]
    intro atom hatom
    obtain ⟨link, -, rfl⟩ := List.mem_map.mp hatom
    simp [hlink]
  have hcodes : (constructs.codes.map fun code => (code.range, Atom.code code.text)).countP
      (fun atom => q atom.2 && decide (atom.1.stop ≤ place)) = 0 := by
    rw [List.countP_eq_zero]
    intro atom hatom
    obtain ⟨code, -, rfl⟩ := List.mem_map.mp hatom
    simp [hcode]
  rw [Constructs.count, Constructs.atoms, List.countP_append, List.countP_append, List.countP_append, hlinks, hcodes,
    Nat.zero_add, Nat.zero_add]
  exact congrArg₂ (· + ·) (countP_flatMap_pair _ _ _ _) (countP_flatMap_pair _ _ _ _)

section Counts

variable (constructs : Constructs) (place : ℕ)

theorem count_opensStrike : constructs.count Atom.opensStrike place =
    constructs.strikes.countP fun run => decide (run.text.start ≤ place) := by
  rw [count_eq constructs (fun _ _ => rfl) (fun _ => rfl)]
  simp [Atom.opensStrike]

theorem count_closesStrike : constructs.count Atom.closesStrike place =
    constructs.strikes.countP fun run => decide (run.range.stop ≤ place) := by
  rw [count_eq constructs (fun _ _ => rfl) (fun _ => rfl)]
  simp [Atom.closesStrike]

theorem count_opensBold : constructs.count Atom.opensBold place =
    constructs.emphases.countP fun run => run.isBold && decide (run.text.start ≤ place) := by
  rw [count_eq constructs (fun _ _ => rfl) (fun _ => rfl)]
  simp [Atom.opensBold]

theorem count_closesBold : constructs.count Atom.closesBold place =
    constructs.emphases.countP fun run => run.isBold && decide (run.range.stop ≤ place) := by
  rw [count_eq constructs (fun _ _ => rfl) (fun _ => rfl)]
  simp [Atom.closesBold]

theorem count_opensItalic : constructs.count Atom.opensItalic place =
    constructs.emphases.countP fun run => run.isItalic && decide (run.text.start ≤ place) := by
  rw [count_eq constructs (fun _ _ => rfl) (fun _ => rfl)]
  simp [Atom.opensItalic]

theorem count_closesItalic : constructs.count Atom.closesItalic place =
    constructs.emphases.countP fun run => run.isItalic && decide (run.range.stop ≤ place) := by
  rw [count_eq constructs (fun _ _ => rfl) (fun _ => rfl)]
  simp [Atom.closesItalic]

end Counts

/-- More of one kind than of another that implies it, where one is not of the other. -/
theorem countP_lt_iff {α : Type*} {l : List α} {p q : α → Bool} (h : ∀ a ∈ l, p a = true → q a = true) :
    l.countP p < l.countP q ↔ ∃ a ∈ l, q a = true ∧ p a = false := by
  induction l with
  | nil => simp
  | cons a l ih =>
    have hrest := ih fun b hb => h b (List.mem_cons_of_mem _ hb)
    have hle : l.countP p ≤ l.countP q :=
      List.countP_mono_left fun b hb => h b (List.mem_cons_of_mem _ hb)
    have hfirst := h a List.mem_cons_self
    rw [List.countP_cons, List.countP_cons]
    cases hp : p a with
    | true =>
      rw [hfirst hp, if_pos rfl, Nat.add_lt_add_iff_right, hrest]
      simp [hp]
    | false =>
      cases hq : q a with
      | true => simp [hp, hq, Nat.lt_succ_of_le hle]
      | false => simpa [hp, hq] using hrest

/-! ### Styles at a place -/

section Places

variable {line : Text} {constructs : Constructs}

/-- No style closes before it opens. -/
theorem closes_le_opens (h : constructs.Sound line) (place : ℕ) :
    constructs.count Atom.closesStrike place ≤ constructs.count Atom.opensStrike place ∧
      constructs.count Atom.closesBold place ≤ constructs.count Atom.opensBold place ∧
        constructs.count Atom.closesItalic place ≤ constructs.count Atom.opensItalic place := by
  have hrun {range text : Span} {mark : UInt8 → Prop} (hrun : Delimited line range text mark) (hle : range.stop ≤ place) :
      text.start ≤ place := by
    have hinside := hrun.inside
    have hcloses := hrun.closes.lt
    dsimp only at hcloses
    omega
  rw [count_closesStrike, count_opensStrike, count_closesBold, count_opensBold, count_closesItalic, count_opensItalic]
  refine ⟨List.countP_mono_left fun run hin hstop => ?_, List.countP_mono_left fun run hin hstop => ?_,
    List.countP_mono_left fun run hin hstop => ?_⟩
  · exact decide_eq_true (hrun (h.strikes run hin) (of_decide_eq_true hstop))
  · rw [Bool.and_eq_true, decide_eq_true_eq] at hstop ⊢
    exact ⟨hstop.1, hrun (h.emphases run hin) hstop.2⟩
  · rw [Bool.and_eq_true, decide_eq_true_eq] at hstop ⊢
    exact ⟨hstop.1, hrun (h.emphases run hin) hstop.2⟩

/-- A text is struck once at most. -/
theorem opensStrike_le {runs : List InlineStrikethrough} {mark : UInt8 → Prop}
    (hruns : ∀ run ∈ runs, Delimited line run.range run.text mark)
    (horder : (runs.map InlineStrikethrough.range).Pairwise fun a b => a.stop ≤ b.start) (place : ℕ) :
    (runs.countP fun run => decide (run.text.start ≤ place)) ≤
      (runs.countP fun run => decide (run.range.stop ≤ place)) + 1 := by
  induction runs with
  | nil => exact Nat.zero_le _
  | cons run rest ih =>
    obtain ⟨hfirst, hrest⟩ := List.pairwise_cons.mp horder
    have hlater := ih (fun other hother => hruns other (List.mem_cons_of_mem _ hother)) hrest
    have hrun := hruns run List.mem_cons_self
    have hinside := hrun.inside
    have hcloses := hrun.closes.lt
    dsimp only at hcloses
    rw [List.countP_cons, List.countP_cons]
    by_cases hstop : run.range.stop ≤ place
    · rw [if_pos (decide_eq_true (show run.text.start ≤ place by omega)), if_pos (decide_eq_true hstop)]
      omega
    · have hnone : (rest.countP fun run => decide (run.text.start ≤ place)) = 0 := by
        rw [List.countP_eq_zero]
        intro other hother
        have hgap := hfirst other.range (List.mem_map_of_mem hother)
        have hopens := (hruns other (List.mem_cons_of_mem _ hother)).opens.lt
        dsimp only at hopens
        rw [decide_eq_true_eq]
        omega
      rw [hnone]
      split <;> omega

theorem opensStrike_le_closes (h : constructs.Sound line) (place : ℕ) :
    constructs.count Atom.opensStrike place ≤ constructs.count Atom.closesStrike place + 1 := by
  rw [count_closesStrike, count_opensStrike]
  exact opensStrike_le h.strikes h.strikeOrder place

/-- The atoms that end by a place are those up to it. -/
theorem count_split {before after : List (Span × Atom)} (hsplit : sortAtoms constructs.atoms = before ++ after) (q : Atom → Bool)
    {place : ℕ} (hbefore : ∀ atom ∈ before, atom.1.stop ≤ place) (hafter : ∀ atom ∈ after, place < atom.1.stop) :
    constructs.count q place = before.countP fun atom => q atom.2 := by
  have hnone : (after.countP fun atom => q atom.2 && decide (atom.1.stop ≤ place)) = 0 := by
    rw [List.countP_eq_zero]
    intro atom hatom
    have hlt := hafter atom hatom
    simp only [Bool.and_eq_true, decide_eq_true_eq, not_and, not_le]
    exact fun _ => hlt
  rw [Constructs.count, ← (sortAtoms_perm constructs.atoms).countP_eq, hsplit, List.countP_append, hnone, Nat.add_zero]
  refine List.countP_congr fun atom hatom => ?_
  rw [decide_eq_true (hbefore atom hatom), Bool.and_true]

theorem stylesAt_congr {before after : List (Span × Atom)} (hsplit : sortAtoms constructs.atoms = before ++ after)
    {place place' : ℕ} (hbefore : ∀ atom ∈ before, atom.1.stop ≤ place) (hafter : ∀ atom ∈ after, place < atom.1.stop)
    (hbefore' : ∀ atom ∈ before, atom.1.stop ≤ place') (hafter' : ∀ atom ∈ after, place' < atom.1.stop) :
    constructs.stylesAt place = constructs.stylesAt place' := by
  have hsame (q : Atom → Bool) : constructs.count q place = constructs.count q place' := by
    rw [count_split hsplit q hbefore hafter, count_split hsplit q hbefore' hafter']
  simp only [Constructs.stylesAt, hsame]

/-- What an atom does to the styles. -/
theorem stylesAt_after (h : constructs.Sound line) {before after : List (Span × Atom)} {range : Span} {atom : Atom}
    (hsplit : sortAtoms constructs.atoms = before ++ (range, atom) :: after) {place : ℕ}
    (hbefore : ∀ atom ∈ before, atom.1.stop ≤ place) (hplace : place < range.stop)
    (hafter : ∀ atom ∈ after, range.stop < atom.1.stop) :
    (constructs.stylesAt place).after atom = some (constructs.stylesAt range.stop) := by
  have hsteps (q : Atom → Bool) : constructs.count q range.stop = constructs.count q place + (q atom).toNat := by
    have hhere : ∀ other ∈ (range, atom) :: after, place < other.1.stop := by
      intro other hother
      rcases List.mem_cons.mp hother with rfl | hother
      · exact hplace
      · exact hplace.trans (hafter other hother)
    have hthere : ∀ other ∈ before ++ [(range, atom)], other.1.stop ≤ range.stop := by
      intro other hother
      rcases List.mem_append.mp hother with hother | hother
      · exact (hbefore other hother).trans hplace.le
      · rw [List.mem_singleton.mp hother]
    rw [count_split hsplit q hbefore hhere,
      count_split (by rw [hsplit, List.append_assoc]; rfl : sortAtoms constructs.atoms = (before ++ [(range, atom)]) ++ after) q
        hthere hafter, List.countP_append, List.countP_singleton]
    cases q atom <;> rfl
  have hhere := closes_le_opens h place
  have hthere := closes_le_opens h range.stop
  have honce := opensStrike_le_closes h place
  have hopensStrike := hsteps Atom.opensStrike
  have hclosesStrike := hsteps Atom.closesStrike
  have hopensBold := hsteps Atom.opensBold
  have hclosesBold := hsteps Atom.closesBold
  have hopensItalic := hsteps Atom.opensItalic
  have hclosesItalic := hsteps Atom.closesItalic
  cases atom with
  | link label target =>
    simp only [Styles.after, Constructs.stylesAt, hsteps]
    rfl
  | code text =>
    simp only [Styles.after, Constructs.stylesAt, hsteps]
    rfl
  | strikeOpen =>
    simp only [Atom.opensStrike, Atom.closesStrike, Atom.opensBold, Atom.closesBold, Atom.opensItalic, Atom.closesItalic,
      Bool.toNat_true, Bool.toNat_false] at *
    simp only [Styles.after, Constructs.stylesAt, Option.some.injEq, Styles.mk.injEq]
    refine ⟨(decide_eq_true ?_).symm, ?_, ?_⟩ <;> omega
  | strikeClose =>
    simp only [Atom.opensStrike, Atom.closesStrike, Atom.opensBold, Atom.closesBold, Atom.opensItalic, Atom.closesItalic,
      Bool.toNat_true, Bool.toNat_false] at *
    simp only [Styles.after, Constructs.stylesAt, Option.some.injEq, Styles.mk.injEq]
    refine ⟨(decide_eq_false ?_).symm, ?_, ?_⟩ <;> omega
  | emphasisOpen bold italic =>
    simp only [Atom.opensStrike, Atom.closesStrike, Atom.opensBold, Atom.closesBold, Atom.opensItalic, Atom.closesItalic,
      Bool.toNat_false] at *
    simp only [Styles.after, Constructs.stylesAt, Option.some.injEq, Styles.mk.injEq]
    refine ⟨decide_eq_decide.mpr ?_, ?_, ?_⟩ <;> omega
  | emphasisClose bold italic =>
    simp only [Atom.opensStrike, Atom.closesStrike, Atom.opensBold, Atom.closesBold, Atom.opensItalic, Atom.closesItalic,
      Bool.toNat_false] at *
    rw [Styles.after, if_pos ⟨by dsimp only [Constructs.stylesAt]; omega, by dsimp only [Constructs.stylesAt]; omega⟩]
    simp only [Constructs.stylesAt, Option.some.injEq, Styles.mk.injEq]
    refine ⟨decide_eq_decide.mpr ?_, ?_, ?_⟩ <;> omega

/-- Whether an atom shows what stands at a place. -/
def Atom.shows (place : ℕ) : Atom → Bool
  | .link label _ => label.contains place
  | .code text => text.contains place
  | _ => false

/-- What a row leaves out is in an atom that does not show it. -/
theorem hidden_eq (constructs : Constructs) (place : ℕ) :
    constructs.hidden place = constructs.atoms.any fun atom => atom.1.contains place && !atom.2.shows place := by
  simp [Constructs.hidden, Constructs.atoms, strikeAtoms, emphasisAtoms, delimitersOf, Atom.shows, List.any_flatMap,
    Function.comp_def, Bool.or_assoc]

/-- A place that is shown is in no closing delimiter. -/
theorem lt_text_stop {range text : Span} {place : ℕ} (h : ∀ delimiter ∈ delimitersOf range text, delimiter.contains place = false)
    (hlt : place < range.stop) : place < text.stop := by
  have hclose := h ⟨text.stop, range.stop⟩ (by simp [delimitersOf])
  rw [Span.contains, Bool.and_eq_false_iff, decide_eq_false_iff_not, decide_eq_false_iff_not] at hclose
  dsimp only at hclose
  omega

/-- Where a row shows a character, the styles are those of the runs around it. -/
theorem lookAt_styles (h : constructs.Sound line) {place : ℕ} (hshown : constructs.hidden place = false) :
    constructs.lookAt place = { (constructs.stylesAt place).look with
      target := (constructs.lookAt place).target, code := (constructs.lookAt place).code } := by
  rw [Constructs.hidden, Bool.or_eq_false_iff, Bool.or_eq_false_iff, List.any_eq_false, List.any_eq_false] at hshown
  obtain ⟨⟨-, hstrikes⟩, hemphases⟩ := hshown
  have hfree {range text : Span}
      (hnot : ¬((delimitersOf range text).any fun delimiter => delimiter.contains place) = true) :
      ∀ delimiter ∈ delimitersOf range text, delimiter.contains place = false := by
    rw [Bool.not_eq_true, List.any_eq_false] at hnot
    exact fun delimiter hdelimiter => Bool.not_eq_true _ |>.mp (hnot delimiter hdelimiter)
  have hbetween {range text : Span} {mark : UInt8 → Prop} (hrun : Delimited line range text mark)
      (hnot : ¬((delimitersOf range text).any fun delimiter => delimiter.contains place) = true) :
      text.contains place = true ↔ text.start ≤ place ∧ ¬range.stop ≤ place := by
    have hcloses := hrun.closes.lt
    dsimp only at hcloses
    rw [Span.contains, Bool.and_eq_true, decide_eq_true_eq, decide_eq_true_eq, not_le]
    exact ⟨fun hin => ⟨hin.1, hin.2.trans hcloses⟩, fun hin => ⟨hin.1, lt_text_stop (hfree hnot) hin.2⟩⟩
  have hmono {range text : Span} {mark : UInt8 → Prop} (hrun : Delimited line range text mark) (hle : range.stop ≤ place) :
      text.start ≤ place := by
    have hinside := hrun.inside
    have hcloses := hrun.closes.lt
    dsimp only at hcloses
    omega
  have hdepth (style : InlineEmphasis → Bool) :
      (constructs.emphases.any fun run => style run && run.text.contains place) =
        decide (0 < (constructs.emphases.countP fun run => style run && decide (run.text.start ≤ place)) -
          constructs.emphases.countP fun run => style run && decide (run.range.stop ≤ place)) := by
    rw [Bool.eq_iff_iff, decide_eq_true_eq, Nat.sub_pos_iff_lt, List.any_eq_true, countP_lt_iff fun run hrun hstop => by
      rw [Bool.and_eq_true, decide_eq_true_eq] at hstop ⊢
      exact ⟨hstop.1, hmono (h.emphases run hrun) hstop.2⟩]
    refine exists_congr fun run => and_congr_right fun hrun => ?_
    rw [Bool.and_eq_true, hbetween (h.emphases run hrun) (hemphases run hrun), Bool.and_eq_true, decide_eq_true_eq,
      Bool.and_eq_false_iff, decide_eq_false_iff_not]
    constructor
    · rintro ⟨hstyle, hstart, hstop⟩
      exact ⟨⟨hstyle, hstart⟩, Or.inr hstop⟩
    · rintro ⟨⟨hstyle, hstart⟩, hnot⟩
      exact ⟨hstyle, hstart, hnot.resolve_left fun hfalse => by rw [hstyle] at hfalse; cases hfalse⟩
  have hstruck : (constructs.strikes.any fun run => run.text.contains place) =
      decide ((constructs.strikes.countP fun run => decide (run.range.stop ≤ place)) <
        constructs.strikes.countP fun run => decide (run.text.start ≤ place)) := by
    rw [Bool.eq_iff_iff, decide_eq_true_eq, List.any_eq_true, countP_lt_iff fun run hrun hstop =>
      decide_eq_true (hmono (h.strikes run hrun) (of_decide_eq_true hstop))]
    refine exists_congr fun run => and_congr_right fun hrun => ?_
    rw [hbetween (h.strikes run hrun) (hstrikes run hrun), decide_eq_true_eq, decide_eq_false_iff_not]
  rw [Constructs.stylesAt, count_closesStrike, count_opensStrike, count_closesBold, count_opensBold, count_closesItalic,
    count_opensItalic, Styles.look, ← hstruck, ← hdepth InlineEmphasis.isBold, ← hdepth InlineEmphasis.isItalic]
  rfl

/-- Outside every atom a row shows the line as it is. -/
theorem lookAt_free (h : constructs.Sound line) {place : ℕ} (hfree : ∀ atom ∈ constructs.atoms, atom.1.contains place = false) :
    constructs.hidden place = false ∧ constructs.lookAt place = (constructs.stylesAt place).look := by
  have hshown : constructs.hidden place = false := by
    rw [hidden_eq, List.any_eq_false]
    intro atom hatom
    rw [hfree atom hatom]
    exact Bool.false_ne_true
  have hwithin {range inside : Span} (hstart : range.start ≤ inside.start) (hstop : inside.stop ≤ range.stop)
      (hnot : range.contains place = false) : inside.contains place = false := by
    rw [Span.contains, Bool.and_eq_false_iff, decide_eq_false_iff_not, decide_eq_false_iff_not] at hnot ⊢
    omega
  have htarget : (constructs.lookAt place).target = none := by
    have hnone : constructs.links.find? (fun link => link.1.label.contains place) = none := by
      rw [List.find?_eq_none]
      intro link hlink
      have hsound := h.links link hlink
      rw [hwithin hsound.opens.le hsound.closes.le
        (hfree (link.1.range, .link link.1.label link.2) (List.mem_append_left _ (List.mem_map_of_mem hlink)))]
      exact Bool.false_ne_true
    change Option.map Prod.snd (constructs.links.find? fun link => link.1.label.contains place) = none
    rw [hnone]
    rfl
  have hcode : (constructs.lookAt place).code = false := by
    refine List.any_eq_false.mpr fun code hcode => ?_
    have hsound := h.codes code hcode
    rw [hwithin hsound.opens.le hsound.closes.le
      (hfree (code.range, .code code.text) (List.mem_append_right _ (List.mem_append_left _ (List.mem_map_of_mem hcode))))]
    exact Bool.false_ne_true
  rw [lookAt_styles h hshown, htarget, hcode]
  exact ⟨hshown, rfl⟩

/-- The look of what an atom shows. -/
def Atom.look (styles : Styles) : Atom → Look
  | .link _ target => { styles.look with target := some target }
  | .code _ => { styles.look with code := true }
  | _ => styles.look

/-- Inside an atom a row shows what the atom does. -/
theorem lookAt_atom (h : constructs.Sound line) {atom : Span × Atom} (hatom : atom ∈ constructs.atoms) {place : ℕ}
    (hin : atom.1.contains place = true) : constructs.hidden place = !atom.2.shows place ∧
      (atom.2.shows place = true → constructs.lookAt place = atom.2.look (constructs.stylesAt place)) := by
  have hhidden : constructs.hidden place = !atom.2.shows place := by
    rw [hidden_eq, Bool.eq_iff_iff, List.any_eq_true]
    constructor
    · rintro ⟨other, hother, hplace⟩
      rw [Bool.and_eq_true] at hplace
      rw [atom_unique h hatom hother hin hplace.1]
      exact hplace.2
    · intro hnot
      exact ⟨atom, hatom, by rw [hin, hnot]; rfl⟩
  refine ⟨hhidden, fun hshows => ?_⟩
  have hstyles := lookAt_styles h (show constructs.hidden place = false by rw [hhidden, hshows]; rfl)
  -- a label or a code text at the place is that of this atom
  have hlabel {link : InlineLink × LinkTarget} (hlink : link ∈ constructs.links)
      (hplace : link.1.label.contains place = true) : atom = (link.1.range, .link link.1.label link.2) := by
    have hsound := h.links link hlink
    have hopens := hsound.opens
    have hcloses := hsound.closes
    rw [Span.contains, Bool.and_eq_true, decide_eq_true_eq, decide_eq_true_eq] at hplace
    refine atom_unique h hatom (List.mem_append_left _ (List.mem_map_of_mem hlink)) hin ?_
    rw [Span.contains, Bool.and_eq_true, decide_eq_true_eq, decide_eq_true_eq]
    dsimp only
    omega
  have htext {code : InlineCode} (hcode : code ∈ constructs.codes) (hplace : code.text.contains place = true) :
      atom = (code.range, .code code.text) := by
    have hsound := h.codes code hcode
    have hopens := hsound.opens
    have hcloses := hsound.closes
    rw [Span.contains, Bool.and_eq_true, decide_eq_true_eq, decide_eq_true_eq] at hplace
    refine atom_unique h hatom (List.mem_append_right _ (List.mem_append_left _ (List.mem_map_of_mem hcode))) hin ?_
    rw [Span.contains, Bool.and_eq_true, decide_eq_true_eq, decide_eq_true_eq]
    dsimp only
    omega
  rw [hstyles]
  rcases List.mem_append.mp hatom with hkind | hkind
  · obtain ⟨link, hlink, rfl⟩ := List.mem_map.mp hkind
    have htarget : (constructs.lookAt place).target = some link.2 := by
      change Option.map Prod.snd (constructs.links.find? fun link => link.1.label.contains place) = _
      cases hfind : constructs.links.find? fun link => link.1.label.contains place with
      | none =>
        have hnone := List.find?_eq_none.mp hfind link hlink
        exact absurd hshows hnone
      | some other =>
        have hplace := List.find?_some hfind
        have hsame := congrArg Prod.snd (hlabel (List.mem_of_find?_eq_some hfind) hplace)
        injection hsame with _ htarget
        exact congrArg some htarget.symm
    have hcode : (constructs.lookAt place).code = false := by
      refine List.any_eq_false.mpr fun code hcode hplace => ?_
      have hsame := congrArg Prod.snd (htext hcode hplace)
      cases hsame
    rw [htarget, hcode]
    rfl
  · rcases List.mem_append.mp hkind with hkind | hkind
    · obtain ⟨code, hin', rfl⟩ := List.mem_map.mp hkind
      have htarget : (constructs.lookAt place).target = none := by
        change Option.map Prod.snd (constructs.links.find? fun link => link.1.label.contains place) = _
        cases hfind : constructs.links.find? fun link => link.1.label.contains place with
        | none => rfl
        | some other =>
          have hplace := List.find?_some hfind
          have hsame := congrArg Prod.snd (hlabel (List.mem_of_find?_eq_some hfind) hplace)
          cases hsame
      have hcode : (constructs.lookAt place).code = true := List.any_eq_true.mpr ⟨code, hin', hshows⟩
      rw [htarget, hcode]
      rfl
    · rcases List.mem_append.mp hkind with hkind | hkind
      · obtain ⟨run, -, hkind⟩ := List.mem_flatMap.mp hkind
        rcases List.mem_pair.mp hkind with rfl | rfl
        · cases hshows
        · cases hshows
      · obtain ⟨run, -, hkind⟩ := List.mem_flatMap.mp hkind
        rcases List.mem_pair.mp hkind with rfl | rfl
        · cases hshows
        · cases hshows

/-! ## The row -/

/-- The characters a row shows of a stretch, as they look. -/
def Constructs.shows (constructs : Constructs) (places : List (ℕ × Char)) : List (Char × Look) :=
  (places.filter fun place => !constructs.hidden place.1).map fun place => (place.2, constructs.lookAt place.1)

theorem shows_append (constructs : Constructs) (a b : List (ℕ × Char)) :
    constructs.shows (a ++ b) = constructs.shows a ++ constructs.shows b := by
  simp [Constructs.shows]

/-- A stretch that shows whole and in one look. -/
theorem shows_whole {offset : ℕ} {t : Text} {look : Look}
    (h : ∀ place, offset ≤ place → place < offset + byteSize t →
      constructs.hidden place = false ∧ constructs.lookAt place = look) :
    constructs.shows (placed offset t) = t.map fun c => (c, look) := by
  have hall : ∀ place ∈ placed offset t, constructs.hidden place.1 = false ∧ constructs.lookAt place.1 = look := by
    intro place hplace
    have hbounds := mem_placed hplace
    exact h place.1 hbounds.1 hbounds.2
  have hkept : (placed offset t).filter (fun place => !constructs.hidden place.1) = placed offset t :=
    List.filter_eq_self.mpr fun place hplace => by rw [(hall place hplace).1]; rfl
  rw [Constructs.shows, hkept, List.map_congr_left fun place hplace => by rw [(hall place hplace).2]]
  conv_rhs => rw [← map_snd_placed offset t, List.map_map]
  rfl

/-- A stretch that does not show. -/
theorem shows_none {offset : ℕ} {t : Text}
    (h : ∀ place, offset ≤ place → place < offset + byteSize t → constructs.hidden place = true) :
    constructs.shows (placed offset t) = [] := by
  have hnone : (placed offset t).filter (fun place => !constructs.hidden place.1) = [] := by
    rw [List.filter_eq_nil_iff]
    intro place hplace
    have hbounds := mem_placed hplace
    rw [h place.1 hbounds.1 hbounds.2]
    exact Bool.false_ne_true
  rw [Constructs.shows, hnone]
  rfl

/-- A run of text in one look. -/
theorem characters_run (text : Text) (look : Look) :
    [(⟨text, look⟩ : InlineSpan)].flatMap InlineSpan.characters = text.map fun c => (c, look) := by
  rw [List.flatMap_singleton]
  rfl

/-- The part of a construct that shows, of one whose label or text stands inside it. -/
theorem shows_part (h : constructs.Sound line) {range inside : Span} {atom : Atom} (hatom : (range, atom) ∈ constructs.atoms)
    {pre text post : Text} (hinside : range.start + byteSize pre = inside.start)
    (htext : inside.start + byteSize text = inside.stop) (hstop : inside.stop + byteSize post = range.stop)
    (hshows : ∀ place, atom.shows place = inside.contains place)
    {styles : Styles} (hstyles : ∀ place, range.contains place = true → constructs.stylesAt place = styles) :
    constructs.shows (placed range.start (pre ++ (text ++ post))) = text.map fun c => (c, atom.look styles) := by
  have hpart (place : ℕ) (hle : range.start ≤ place) (hlt : place < range.stop) :
      constructs.hidden place = !inside.contains place ∧
        (inside.contains place = true → constructs.lookAt place = atom.look styles) := by
    have hin : range.contains place = true := by
      rw [Span.contains, Bool.and_eq_true, decide_eq_true_eq, decide_eq_true_eq]
      exact ⟨hle, hlt⟩
    have hlook := lookAt_atom h hatom hin
    rw [hshows, hstyles place hin] at hlook
    exact hlook
  have hout {place : ℕ} (hle : range.start ≤ place) (hlt : place < range.stop)
      (hnot : place < inside.start ∨ inside.stop ≤ place) : constructs.hidden place = true := by
    have hcontains : inside.contains place = false := by
      rw [Span.contains, Bool.and_eq_false_iff, decide_eq_false_iff_not, decide_eq_false_iff_not]
      omega
    rw [(hpart place hle hlt).1, hcontains]
    rfl
  have hpre : constructs.shows (placed range.start pre) = [] :=
    shows_none fun place hle hlt => hout hle (by omega) (Or.inl (by omega))
  have hpost : constructs.shows (placed (range.start + byteSize pre + byteSize text) post) = [] :=
    shows_none fun place hle hlt => hout (by omega) (by omega) (Or.inr (by omega))
  rw [placed_append, placed_append, shows_append, shows_append, hpre, hpost, List.nil_append, List.append_nil]
  refine shows_whole fun place hle hlt => ?_
  have hcontains : inside.contains place = true := by
    rw [Span.contains, Bool.and_eq_true, decide_eq_true_eq, decide_eq_true_eq]
    omega
  have hlook := hpart place (by omega) (by omega)
  rw [hcontains] at hlook
  exact ⟨hlook.1, hlook.2 rfl⟩

/-- What an atom puts in the row is what the row shows of its stretch. -/
theorem atom_shown (h : constructs.Sound line) {atom : Span × Atom} (hatom : atom ∈ constructs.atoms) {front part back : Text}
    (hline : line = front ++ (part ++ back)) (hstart : byteSize front = atom.1.start)
    (hstop : atom.1.start + byteSize part = atom.1.stop) {styles : Styles}
    (hstyles : ∀ place, atom.1.contains place = true → constructs.stylesAt place = styles) :
    ∃ shown, atom.2.shown line styles = some shown ∧
      shown.flatMap InlineSpan.characters = constructs.shows (placed atom.1.start part) := by
  have hcontains {place : ℕ} (hle : atom.1.start ≤ place) (hlt : place < atom.1.start + byteSize part) :
      atom.1.contains place = true := by
    rw [Span.contains, Bool.and_eq_true, decide_eq_true_eq, decide_eq_true_eq]
    omega
  -- a label or a code text cuts the stretch into three
  have hcut {inside : Span} (hboundStart : Boundary line inside.start) (hboundStop : Boundary line inside.stop)
      (hopens : atom.1.start ≤ inside.start) (hin : inside.start ≤ inside.stop) (hcloses : inside.stop ≤ atom.1.stop) :
      ∃ pre text post, part = pre ++ (text ++ post) ∧ atom.1.start + byteSize pre = inside.start ∧
        inside.start + byteSize text = inside.stop ∧ inside.stop + byteSize post = atom.1.stop ∧
          sliceBetween inside.start inside.stop line = some text := by
    have hwithin {place : ℕ} (hbound : Boundary line place) (hle : atom.1.start ≤ place) (hlt : place ≤ atom.1.stop) :
        Boundary part (place - atom.1.start) := by
      rw [hline] at hbound
      have hpast := hbound.of_back (by omega)
      rw [hstart] at hpast
      exact hpast.of_front (by omega)
    obtain ⟨pre, text, post, rfl, hpre, htext⟩ := (hwithin hboundStart hopens (by omega)).split
      (hwithin hboundStop (by omega) hcloses) (by omega)
    rw [byteSize_append, byteSize_append] at hstop
    refine ⟨pre, text, post, rfl, by omega, by omega, by omega, ?_⟩
    have hslice := sliceBetween_append (front ++ pre) text (post ++ back)
    rw [byteSize_append, show byteSize front + byteSize pre = inside.start by omega,
      show inside.start + byteSize text = inside.stop by omega] at hslice
    rw [hline]
    simpa using hslice
  rcases List.mem_append.mp hatom with hkind | hkind
  · obtain ⟨link, hlink, rfl⟩ := List.mem_map.mp hkind
    have hsound := h.links link hlink
    obtain ⟨pre, text, post, rfl, hpre, htext, hpost, hslice⟩ := hcut hsound.label.start hsound.label.stop hsound.opens.le
      hsound.label.lt.le hsound.closes.le
    refine ⟨_, by rw [Atom.shown, hslice]; rfl, ?_⟩
    rw [characters_run]
    exact (shows_part h hatom hpre htext hpost (fun _ => rfl) hstyles).symm
  · rcases List.mem_append.mp hkind with hkind | hkind
    · obtain ⟨code, hcode, rfl⟩ := List.mem_map.mp hkind
      have hsound := h.codes code hcode
      obtain ⟨pre, text, post, rfl, hpre, htext, hpost, hslice⟩ := hcut hsound.textStart hsound.textStop hsound.opens.le
        hsound.text hsound.closes.le
      refine ⟨_, by rw [Atom.shown, hslice]; rfl, ?_⟩
      rw [characters_run]
      exact (shows_part h hatom hpre htext hpost (fun _ => rfl) hstyles).symm
    · have hdelimiter (hnone : ∀ place, atom.2.shows place = false) (hempty : atom.2.shown line styles = some []) :
          ∃ shown, atom.2.shown line styles = some shown ∧
            shown.flatMap InlineSpan.characters = constructs.shows (placed atom.1.start part) := by
        refine ⟨[], hempty, (shows_none fun place hle hlt => ?_).symm⟩
        rw [(lookAt_atom h hatom (hcontains hle hlt)).1, hnone]
        rfl
      rcases List.mem_append.mp hkind with hkind | hkind
      · obtain ⟨run, -, hkind⟩ := List.mem_flatMap.mp hkind
        rcases List.mem_pair.mp hkind with rfl | rfl
        · exact hdelimiter (fun _ => rfl) rfl
        · exact hdelimiter (fun _ => rfl) rfl
      · obtain ⟨run, -, hkind⟩ := List.mem_flatMap.mp hkind
        rcases List.mem_pair.mp hkind with rfl | rfl
        · exact hdelimiter (fun _ => rfl) rfl
        · exact hdelimiter (fun _ => rfl) rfl

theorem mem_split {before after : List (Span × Atom)} (hsplit : sortAtoms constructs.atoms = before ++ after)
    {atom : Span × Atom} : atom ∈ before ++ after ↔ atom ∈ constructs.atoms := by
  rw [← hsplit]
  exact (sortAtoms_perm constructs.atoms).mem_iff

/-- Between two atoms a row shows the line as it is, in the styles beyond the first. -/
theorem literal_shown (h : constructs.Sound line) {before after : List (Span × Atom)}
    (hsplit : sortAtoms constructs.atoms = before ++ after) {cursor : ℕ} (hbefore : ∀ atom ∈ before, atom.1.stop ≤ cursor)
    (hafter : ∀ atom ∈ after, cursor ≤ atom.1.start) {place : ℕ} (hle : cursor ≤ place)
    (hlt : ∀ atom ∈ after, place < atom.1.start) :
    constructs.hidden place = false ∧ constructs.lookAt place = (constructs.stylesAt cursor).look := by
  have hpositive {atom : Span × Atom} (hatom : atom ∈ after) : atom.1.start < atom.1.stop :=
    (atom_stretch h ((mem_split hsplit).mp (List.mem_append_right _ hatom))).lt
  have hsame : constructs.stylesAt place = constructs.stylesAt cursor :=
    stylesAt_congr hsplit (fun atom hatom => (hbefore atom hatom).trans hle)
      (fun atom hatom => (hlt atom hatom).trans (hpositive hatom)) hbefore
      fun atom hatom => (hafter atom hatom).trans_lt (hpositive hatom)
  rw [← hsame]
  refine lookAt_free h fun atom hatom => ?_
  rw [Span.contains, Bool.and_eq_false_iff, decide_eq_false_iff_not, decide_eq_false_iff_not]
  rcases List.mem_append.mp ((mem_split hsplit).mpr hatom) with hin | hin
  · have := hbefore atom hin
    omega
  · have := hlt atom hin
    omega

/-- The runs from an offset on are what the row shows from there. -/
theorem rowSpans_spec (h : constructs.Sound line) {before after : List (Span × Atom)}
    (hsplit : sortAtoms constructs.atoms = before ++ after) {front back : Text} (hline : line = front ++ back)
    (hbefore : ∀ atom ∈ before, atom.1.stop ≤ byteSize front) (hafter : ∀ atom ∈ after, byteSize front ≤ atom.1.start) :
    ∃ spans, rowSpans line (byteSize front) (constructs.stylesAt (byteSize front)) after = some spans ∧
      spans.flatMap InlineSpan.characters = constructs.shows (placed (byteSize front) back) := by
  have hordered := sortAtoms_ordered h
  induction after generalizing before front back with
  | nil =>
    rw [rowSpans]
    have hshown : constructs.shows (placed (byteSize front) back) =
        back.map fun c => (c, (constructs.stylesAt (byteSize front)).look) :=
      shows_whole fun place hle _ => literal_shown h hsplit hbefore hafter hle (by simp)
    have hrest := sliceFrom_append front back
    rw [← hline] at hrest
    split
    · rw [hrest]
      exact ⟨_, rfl, by rw [characters_run, hshown]⟩
    · next hend =>
      have hsize : byteSize line = byteSize front + byteSize back := by rw [hline, byteSize_append]
      obtain rfl : back = [] := byteSize_eq_zero.mp (by omega)
      exact ⟨[], rfl, rfl⟩
  | cons atom rest ih =>
    obtain ⟨range, atom⟩ := atom
    have hatom : (range, atom) ∈ constructs.atoms := (mem_split hsplit).mp (List.mem_append_right _ List.mem_cons_self)
    have hstretch := atom_stretch h hatom
    have hrestOrder : ∀ other ∈ rest, range.stop ≤ other.1.start := by
      have horder := List.pairwise_map.mp hordered.order
      rw [hsplit] at horder
      exact (List.pairwise_cons.mp (List.pairwise_append.mp horder).2.1).1
    have hrestStop : ∀ other ∈ rest, range.stop < other.1.stop := by
      intro other hother
      have hin := (mem_split hsplit).mp (List.mem_append_right _ (List.mem_cons_of_mem _ hother))
      exact (hrestOrder other hother).trans_lt (atom_stretch h hin).lt
    have hhere := hafter (range, atom) List.mem_cons_self
    have hlt := hstretch.lt
    dsimp only at hhere hstretch hlt
    -- the line up to the atom, the atom's stretch and what follows it
    obtain ⟨literal, past, rfl, hliteralSize⟩ : ∃ literal past, back = literal ++ past ∧
        byteSize front + byteSize literal = range.start := by
      have hstart := hstretch.start
      rw [hline] at hstart
      obtain ⟨literal, past, hpast, hsize⟩ := hstart.of_back hhere
      exact ⟨literal, past, hpast, by omega⟩
    obtain ⟨part, back, rfl, hpartSize⟩ : ∃ part back, past = part ++ back ∧ range.start + byteSize part = range.stop := by
      have hstop := hstretch.stop
      rw [hline, ← List.append_assoc] at hstop
      obtain ⟨part, back, hback, hsize⟩ := hstop.of_back (by rw [byteSize_append]; omega)
      rw [byteSize_append] at hsize
      exact ⟨part, back, hback, by omega⟩
    have hliteralShown : constructs.shows (placed (byteSize front) literal) =
        literal.map fun c => (c, (constructs.stylesAt (byteSize front)).look) := by
      refine shows_whole fun place hle hupper => literal_shown h hsplit hbefore hafter hle fun other hother => ?_
      rcases List.mem_cons.mp hother with rfl | hother
      · dsimp only
        omega
      · have hlater := hrestOrder other hother
        omega
    have hstyles : ∀ place, range.contains place = true →
        constructs.stylesAt place = constructs.stylesAt (byteSize front) := by
      intro place hin
      rw [Span.contains, Bool.and_eq_true, decide_eq_true_eq, decide_eq_true_eq] at hin
      refine stylesAt_congr hsplit (fun other hother => (hbefore other hother).trans (hhere.trans hin.1))
        (fun other hother => ?_) hbefore fun other hother => ?_
      · rcases List.mem_cons.mp hother with rfl | hother
        · exact hin.2
        · exact hin.2.trans (hrestStop other hother)
      · rcases List.mem_cons.mp hother with rfl | hother
        · exact hhere.trans_lt hlt
        · exact (hhere.trans_lt hlt).trans (hrestStop other hother)
    have hparts : line = (front ++ literal) ++ (part ++ back) := by rw [hline, List.append_assoc]
    have hfrontSize : byteSize (front ++ literal) = range.start := by rw [byteSize_append, hliteralSize]
    obtain ⟨shown, hshown, hcharacters⟩ := atom_shown h hatom hparts hfrontSize hpartSize hstyles
    have hafterAtom := stylesAt_after h hsplit hbefore (hhere.trans_lt hlt) hrestStop
    have hnext : byteSize (front ++ (literal ++ part)) = range.stop := by
      rw [byteSize_append, byteSize_append]
      omega
    have hnextBefore : ∀ other ∈ before ++ [(range, atom)], other.1.stop ≤ byteSize (front ++ (literal ++ part)) := by
      intro other hother
      rw [hnext]
      rcases List.mem_append.mp hother with hother | hother
      · exact (hbefore other hother).trans (hhere.trans hlt.le)
      · rw [List.mem_singleton.mp hother]
    obtain ⟨spans, hspans, hrestShown⟩ := ih (by rw [hsplit, List.append_assoc]; rfl)
      (show line = (front ++ (literal ++ part)) ++ back by rw [hline]; simp) hnextBefore
      (fun other hother => by rw [hnext]; exact hrestOrder other hother)
    rw [hnext] at hspans hrestShown
    have hliteralSpans : ∃ spans, (if byteSize front < range.start then
          (sliceBetween (byteSize front) range.start line).map fun text => [⟨text, (constructs.stylesAt (byteSize front)).look⟩]
        else some []) = some spans ∧
        spans.flatMap InlineSpan.characters = constructs.shows (placed (byteSize front) literal) := by
      rw [hliteralShown]
      split
      · have hslice := sliceBetween_append front literal (part ++ back)
        rw [← hline, hliteralSize] at hslice
        rw [hslice]
        exact ⟨_, rfl, characters_run _ _⟩
      · obtain rfl : literal = [] := byteSize_eq_zero.mp (by omega)
        exact ⟨[], rfl, rfl⟩
    obtain ⟨literalSpans, hliteralSpans, hliteralCharacters⟩ := hliteralSpans
    rw [rowSpans, hliteralSpans, Option.bind_some, hshown, Option.bind_some, hafterAtom, Option.bind_some, hspans]
    refine ⟨_, rfl, ?_⟩
    rw [List.flatMap_append, List.flatMap_append, hliteralCharacters, hcharacters, hrestShown, placed_append, placed_append,
      shows_append, shows_append, hliteralSize, hpartSize]

end Places

/-- A row shows every character of its line once, but for the syntax of the constructs it replaces, in the styles whose
delimiters the character stands between; the constructs stand apart, and nothing stops the program. -/
theorem row_shows_once (line : Text) : ∃ constructs, constructsOf line = some constructs ∧
    (constructs.atoms.map Prod.fst).Pairwise Apart ∧ Ordered line 0 ((sortAtoms constructs.atoms).map Prod.fst) ∧
      ∃ spans, parseInlineSpans line = some spans ∧
        spans.flatMap InlineSpan.characters =
          ((placed 0 line).filter fun place => !constructs.hidden place.1).map fun place =>
            (place.2, constructs.lookAt place.1) := by
  obtain ⟨constructs, hconstructs, hsound⟩ := constructsOf_spec line
  have hordered := sortAtoms_ordered hsound
  have hstart : constructs.stylesAt 0 = ⟨false, 0, 0⟩ := by
    have hnone (q : Atom → Bool) : constructs.count q 0 = 0 := by
      rw [Constructs.count, List.countP_eq_zero]
      intro atom hatom
      have hlt := (atom_stretch hsound hatom).lt
      simp only [Bool.and_eq_true, decide_eq_true_eq, not_and]
      omega
    simp [Constructs.stylesAt, hnone]
  obtain ⟨spans, hspans, hshown⟩ := @rowSpans_spec line constructs hsound [] _ rfl [] line rfl (by simp)
    fun _ _ => Nat.zero_le _
  rw [byteSize_nil, hstart] at hspans
  refine ⟨constructs, hconstructs, hsound.apart, hordered, spans, ?_, hshown⟩
  rw [parseInlineSpans, hconstructs, Option.bind_some]
  exact hspans

end Thock.Desk.Inline
