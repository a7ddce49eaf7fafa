import Thock.SyncCore.LineWords
import Thock.SyncCore.WritesTouch

/-!
# Blocks that move

A block is a line and what is indented below it. A move takes one block out of a note and puts it
in again elsewhere: the lines with words stay the same but for the block's first line, when new
words are given, and the headings the move creates. A removal takes one block out.

A move whose effect is there already does nothing, and drops the new words it was given when they
are not there.
-/

namespace Thock.SyncCore

open TextScan

/-! ## Lines with words -/

/-- The texts that are not blank, without their trailing white space. -/
def nonBlank (texts : List Text) : List Text := (texts.map trimEnd).filter fun text => !text.isEmpty

def wordLines (text : Text) : List Text := nonBlank ((splitLines text).map Line.text)

@[simp] theorem nonBlank_append (a b : List Text) : nonBlank (a ++ b) = nonBlank a ++ nonBlank b := by
  rw [nonBlank, List.map_append, List.filter_append]
  rfl

theorem trimEnd_of_blank {t : Text} (h : Blank t) : trimEnd t = [] := by
  rw [← List.nil_append t, trimEnd_append_of_blank h]
  rfl

theorem isBlank_iff {line : Line} : line.isBlank = true ↔ trimEnd line.text = [] := by
  have htrim : trim line.text = [] ↔ Blank line.text := by
    rw [blank_iff_trimStart]
    constructor
    · intro h
      by_contra hne
      have hkeep : trimEnd (trimStart line.text) ≠ [] := by
        intro hnil
        have hall : Blank (trimStart line.text) := by
          have hsplit := trimEnd_append_rtakeWhile (trimStart line.text)
          rw [hnil, List.nil_append] at hsplit
          rw [← hsplit]
          exact blank_rtakeWhile _
        obtain ⟨c, rest, htext⟩ := List.exists_cons_of_ne_nil hne
        have hblack := unindented_trimStart line.text c (by rw [htext]; rfl)
        have hwhite := hall c (by rw [htext]; exact List.mem_cons_self)
        rw [hblack] at hwhite
        cases hwhite
      exact hkeep h
    · intro h
      rw [trim, h]
      rfl
  rw [Line.isBlank, List.isEmpty_iff, htrim]
  constructor
  · exact trimEnd_of_blank
  · intro h
    have hsplit := trimEnd_append_rtakeWhile line.text
    rw [h, List.nil_append] at hsplit
    rw [← hsplit]
    exact blank_rtakeWhile _

theorem nonBlank_blank {line : Line} (h : line.isBlank = true) : nonBlank [line.text] = [] := by
  rw [nonBlank, List.map_singleton, isBlank_iff.mp h]
  rfl

/-- The lines with words of a document are those of its text. -/
theorem wordLines_textOfLines {lines : List Line} (h : Chained lines) (hbreak : ∀ line ∈ lines, '\n' ∉ line.text) :
    wordLines (textOfLines lines) = nonBlank (lines.map Line.text) := by
  have hterminated (x : Text) : nonBlank [(terminated x).text] = nonBlank [x] := by
    have hchomp : (terminated x).text = chomp x := by
      unfold terminated chomp
      cases stripSuffix ['\r'] x <;> rfl
    rw [nonBlank, nonBlank, List.map_singleton, List.map_singleton, hchomp, trimEnd_chomp]
  induction lines with
  | nil => rfl
  | cons line rest ih =>
    have hrest := ih h.2 fun other hother => hbreak other (List.mem_cons_of_mem _ hother)
    have hline := hbreak line List.mem_cons_self
    have hcons (x : Text) (hx : '\n' ∉ x) (t : Text) : wordLines (x ++ '\n' :: t) = nonBlank [x] ++ wordLines t := by
      rw [wordLines, splitLines_newline hx, List.map_cons, ← List.singleton_append, nonBlank_append, hterminated]
      rfl
    rw [textOfLines_cons, List.map_cons, ← List.singleton_append, nonBlank_append, ← hrest, Line.whole]
    cases hending : line.ending with
    | lf => rw [Ending.text, List.append_assoc, List.singleton_append, hcons _ hline]
    | crLf =>
      have hassoc : line.text ++ Ending.crLf.text ++ textOfLines rest =
          line.text ++ ['\r'] ++ '\n' :: textOfLines rest := by simp [Ending.text]
      have hreturn : nonBlank [line.text ++ ['\r']] = nonBlank [line.text] := by
        rw [nonBlank, nonBlank, List.map_singleton, List.map_singleton, trimEnd_append_of_blank (by decide)]
      rw [hassoc, hcons _ (by simp [hline]), hreturn]
    | none =>
      obtain rfl := h.1.resolve_left fun hne => hne hending
      rw [Ending.text, List.append_nil, textOfLines_nil, List.append_nil]
      by_cases hempty : line.text = []
      · rw [hempty]
        rfl
      · rw [wordLines, splitLines_last hline hempty]
        exact (List.append_nil _).symm

theorem chained_sublist {kept lines : List Line} (h : kept.Sublist lines) (hlines : Chained lines) : Chained kept := by
  induction h with
  | slnil => trivial
  | cons line hsub ih => exact ih hlines.2
  | cons_cons line hsub ih =>
    refine ⟨hlines.1.imp_right ?_, ih hlines.2⟩
    rintro rfl
    exact List.sublist_nil.mp hsub

/-! ## The cut -/

theorem le_blockEndFrom {lines : List Line} {stop lastContent : ℕ} (h : lastContent ≤ stop) :
    lastContent ≤ blockEndFrom lines stop lastContent := by
  induction lines generalizing stop lastContent with
  | nil => exact le_rfl
  | cons line rest ih =>
    unfold blockEndFrom
    split
    · exact ih (by omega)
    · split
      · exact Nat.le_trans (by omega) (ih (le_refl (stop + 1)))
      · exact le_rfl

/-- A block has its first line. -/
theorem lt_blockEnd (document : Document) (section_ : Section) (index : ℕ) : index < blockEnd document section_ index :=
  le_blockEndFrom le_rfl

/-- A cut takes lines out, and one of two blank lines that would then stand side by side. -/
theorem cut_lines {document : Document} {start stop : ℕ} (hlt : start < stop) (hstart : start < document.lines.length) :
    ∃ back, (cut document start stop).lines = document.lines.take start ++ back ∧
      (back = document.lines.drop stop ∨ ∃ blank, blank.isBlank = true ∧ document.lines.drop stop = blank :: back) := by
  have hlength : (document.lines.take start).length = start := List.length_take_of_le hstart.le
  unfold cut
  dsimp only
  rw [if_neg (by omega), ← List.drop_eq_drop_min]
  split
  · rename_i hblank
    rw [Bool.and_eq_true, Option.any_eq_true _ _] at hblank
    obtain ⟨-, blank, hhead, hblank⟩ := hblank
    rw [List.getElem?_append_right (by rw [hlength]), hlength, Nat.sub_self] at hhead
    obtain ⟨back, hback⟩ : ∃ back, document.lines.drop stop = blank :: back := by
      cases hdrop : document.lines.drop stop with
      | nil =>
        rw [hdrop] at hhead
        cases hhead
      | cons other back =>
        rw [hdrop] at hhead
        obtain rfl := Option.some.inj hhead
        exact ⟨back, rfl⟩
    refine ⟨back, ?_, Or.inr ⟨blank, hblank, hback⟩⟩
    rw [hback, List.eraseIdx_append_of_length_le (by rw [hlength]), hlength, Nat.sub_self, List.eraseIdx_zero, List.tail_cons]
  · exact ⟨_, rfl, Or.inl rfl⟩

theorem cut_ending (document : Document) (start stop : ℕ) : (cut document start stop).ending = document.ending := by
  unfold cut
  dsimp only
  split <;> rfl

theorem cut_sublist (document : Document) (start stop : ℕ) : (cut document start stop).lines.Sublist document.lines := by
  unfold cut
  dsimp only
  split
  · exact List.Sublist.refl _
  · rename_i hlt
    have hcut : (document.lines.take start ++ document.lines.drop (min stop document.lines.length)).Sublist
        document.lines := by
      conv_rhs => rw [← List.take_append_drop start document.lines]
      exact (List.Sublist.refl _).append (List.drop_sublist_drop_left _ (by omega))
    split
    · exact (List.eraseIdx_sublist _ _).trans hcut
    · exact hcut

theorem cut_sound {document : Document} (h : document.Sound) (start stop : ℕ) : (cut document start stop).Sound :=
  ⟨chained_sublist (cut_sublist document start stop) h.chained, by rw [cut_ending]; exact h.ending⟩

/-! ## Lines that go in -/

/-- A document whose text falls into its lines. -/
structure Document.Readable (document : Document) : Prop where
  sound : document.Sound
  plain : ∀ line ∈ document.lines, '\n' ∉ line.text

theorem readable_split (text : Text) : (Document.split text).Readable :=
  ⟨sound_split text, (wellFormed_splitLines text).no_newline⟩

theorem cut_readable {document : Document} (h : document.Readable) (start stop : ℕ) : (cut document start stop).Readable :=
  ⟨cut_sound h.sound start stop, fun line hline => h.plain line ((cut_sublist document start stop).subset hline)⟩

/-- A document with some texts among its lines that another has not, and blank ones. -/
structure Document.Adds (document document' : Document) (texts : List Text) : Prop where
  readable : document'.Readable
  words : (nonBlank (document'.lines.map Line.text)).Perm
    (nonBlank (document.lines.map Line.text) ++ nonBlank texts)

theorem Document.Adds.refl {document : Document} (h : document.Readable) : document.Adds document [] :=
  ⟨h, by rw [show nonBlank [] = [] from rfl, List.append_nil]⟩

theorem Document.Adds.trans {a b c : Document} {texts texts' : List Text} (hab : a.Adds b texts) (hbc : b.Adds c texts') :
    a.Adds c (texts ++ texts') := by
  refine ⟨hbc.readable, hbc.words.trans ?_⟩
  rw [nonBlank_append, ← List.append_assoc]
  exact hab.words.append_right _

theorem insert_adds {document : Document} (h : document.Readable) (index : ℕ) {texts : List Text}
    (htexts : ∀ text ∈ texts, '\n' ∉ text) : document.Adds (document.insert index texts) texts := by
  have hlines := insert_texts document index texts
  refine ⟨⟨insert_sound _ _ h.sound, fun line hline => ?_⟩, ?_⟩
  · have hmem : line.text ∈ (document.insert index texts).lines.map Line.text := List.mem_map_of_mem hline
    have hold : ∀ text ∈ document.lines.map Line.text, '\n' ∉ text := by
      intro text htext
      obtain ⟨old, hold, rfl⟩ := List.mem_map.mp htext
      exact h.plain old hold
    rw [hlines] at hmem
    rcases List.mem_append.mp hmem with hmem | hmem
    · rcases List.mem_append.mp hmem with hmem | hmem
      · exact hold _ (List.mem_of_mem_take hmem)
      · exact htexts _ hmem
    · exact hold _ (List.mem_of_mem_drop hmem)
  · conv_rhs => rw [← List.take_append_drop index (document.lines.map Line.text), nonBlank_append, List.append_assoc]
    rw [hlines, List.append_assoc, nonBlank_append, nonBlank_append]
    exact List.perm_append_comm.append_left _

theorem insertLines_adds {document : Document} (h : document.Readable) (section_ : Section) (index : ℕ)
    {lines : List Text} (hlines : ∀ line ∈ lines, '\n' ∉ line) (blankLineBefore : Bool) :
    document.Adds (insertLines document section_ index lines blankLineBefore) lines := by
  unfold insertLines
  split
  · rename_i hempty
    rw [List.isEmpty_iff.mp hempty]
    exact .refl h
  · dsimp only
    split
    · have hadds := @insert_adds document h index ([] :: lines) (by simpa using hlines)
      exact ⟨hadds.readable, hadds.words⟩
    · exact insert_adds h index hlines

theorem nonBlank_of_nil {texts : List Text} (h : texts = [] ∨ texts = [[]]) : nonBlank texts = [] := by
  rcases h with rfl | rfl <;> rfl

theorem created_adds {document : Document} (h : document.Readable) {heading : Heading} (hheading : '\n' ∉ heading.line) :
    document.Adds (created document heading) [heading.line] := by
  have hnone : ∀ {texts : List Text}, texts = [] ∨ texts = [[]] → ∀ text ∈ texts, '\n' ∉ text := by
    rintro texts (rfl | rfl) text htext
    · cases htext
    · rw [List.mem_singleton.mp htext]
      exact List.not_mem_nil
  have hwords : nonBlank (missingHeading document heading).2 = nonBlank [heading.line] ∧
      ∀ text ∈ (missingHeading document heading).2, '\n' ∉ text := by
    rcases missingHeading_cases document heading with ⟨before, candidate, hbefore, -, -, -, hmissing⟩ |
      ⟨before, hbefore, hmissing⟩
    · rw [hmissing]
      refine ⟨?_, fun text htext => ?_⟩
      · rw [nonBlank_append, nonBlank_of_nil hbefore]
        rfl
      · rcases List.mem_append.mp htext with htext | htext
        · exact hnone hbefore text htext
        · rcases List.mem_cons.mp htext with rfl | htext
          · exact hheading
          · exact hnone (Or.inr rfl) text htext
    · rw [hmissing]
      refine ⟨?_, fun text htext => ?_⟩
      · rw [nonBlank_append, nonBlank_of_nil hbefore]
        rfl
      · rcases List.mem_append.mp htext with htext | htext
        · exact hnone hbefore text htext
        · rw [List.mem_singleton.mp htext]
          exact hheading
  have hadds := insert_adds h (missingHeading document heading).1 hwords.2
  rw [created]
  exact ⟨hadds.readable, by rw [← hwords.1]; exact hadds.words⟩

theorem locate_adds (prim : Primitives) {document : Document} (h : document.Readable) (heading : Option Heading)
    (hheading : ∀ wanted ∈ heading, '\n' ∉ wanted.line) :
    ∃ texts, texts.Sublist (heading.toList.map Heading.line) ∧
      document.Adds (locate prim document heading none).1 texts ∧
      (texts = [] ∨ (locate prim document heading none).2.2 = some .sectionAdded) := by
  rcases locate_cases prim document heading none with ⟨section_, -, hlocate⟩ | ⟨wanted, rfl, -, hlocate⟩
  · rw [hlocate]
    exact ⟨[], List.nil_sublist _, .refl h, Or.inl rfl⟩
  · rw [hlocate]
    exact ⟨[wanted.line], List.Sublist.refl _, created_adds h (hheading wanted rfl), Or.inr rfl⟩

/-- A group is found, or created with the heading above it. -/
theorem locateGroup_adds (prim : Primitives) {document : Document} (h : document.Readable) (to_ createUnder : Option Heading)
    (hto : ∀ wanted ∈ to_, '\n' ∉ wanted.line) (hunder : ∀ wanted ∈ createUnder, '\n' ∉ wanted.line) :
    ∃ texts, texts.Sublist ((createUnder.toList ++ to_.toList).map Heading.line) ∧
      document.Adds (locateGroup prim document to_ createUnder none).1 texts ∧
      (texts = [] ∨ (locateGroup prim document to_ createUnder none).2.2 = some .sectionAdded) := by
  cases to_ with
  | none => exact ⟨[], List.nil_sublist _, .refl h, Or.inl rfl⟩
  | some to_ =>
    cases createUnder with
    | none => exact locate_adds prim h (some to_) hto
    | some parent =>
      obtain ⟨texts, hsub, hadds, houtcome⟩ := locate_adds prim h (some parent) hunder
      have hplain := @locate_outcome prim document (some parent) none (Or.inl rfl)
      rw [locateGroup]
      generalize locate prim document (some parent) none = located at hadds houtcome hplain
      obtain ⟨document', section_, outcome⟩ := located
      dsimp only at hadds houtcome hplain ⊢
      rw [List.map_append]
      split
      · exact ⟨texts, hsub.trans (List.sublist_append_left _ _), hadds, houtcome⟩
      · have hgroup := @insertLines_adds _ hadds.readable section_ section_.bodyStop [to_.line]
          (by simpa using hto to_ rfl) true
        refine ⟨texts ++ [to_.line], hsub.append (List.Sublist.refl _), hadds.trans hgroup, Or.inr ?_⟩
        rcases hplain with hplain | hplain
        · rw [hplain]
          rfl
        · rw [hplain]
          rfl

/-! ## The move -/

/-- The lines of the block a write names. -/
def findBlock (prim : Primitives) (document : Document) (heading : Option Heading) (wanted : Text) (ordinal : ℕ) :
    Option (ℕ × ℕ) :=
  ((findSection prim document heading).map Section.own).bind fun section_ =>
    (findLine prim document section_ wanted ordinal).map fun index => (index, blockEnd document section_ index)

/-- The texts of a block as it lands: its first line replaced where new words are given. -/
def landing (newLine : Option Text) : List Text → List Text
  | [] => []
  | first :: rest => newLine.getD first :: rest

/-- A block between two lines of a note, moved: no line with words is lost or doubled, and the block stays whole. -/
structure MovesBlock (text : Text) (start stop : ℕ) (newLine : Option Text) (headings : List Heading) (result : Applied) :
    Prop where
  words : ∃ created, created.Sublist (headings.map Heading.line) ∧ (result.outcome ≠ .sectionAdded → created = []) ∧
    (wordLines result.text).Perm (nonBlank (((splitLines text).take start).map Line.text ++
      landing newLine ((((splitLines text).take stop).drop start).map Line.text) ++
      ((splitLines text).drop stop).map Line.text ++ created))
  adjacent : ∃ before block after, Chained (before ++ (block ++ after)) ∧
    result.text = textOfLines (before ++ (block ++ after)) ∧
    (∀ line ∈ before ++ (block ++ after), '\n' ∉ line.text) ∧
    (block.map fun line => trimEnd line.text) =
      (landing newLine ((((splitLines text).take stop).drop start).map Line.text)).map trimEnd

/-- What a write on blocks keeps of a note. -/
def KeepsBlocks (prim : Primitives) (text : Text) (operation : Operation) (result : Applied) : Prop :=
  match operation with
  | .moveBlock heading wanted ordinal to_ _ newLine createUnder =>
    match findBlock prim (.split text) heading wanted ordinal with
    | none => result.text = text
    | some (start, stop) => MovesBlock text start stop newLine (createUnder.toList ++ to_.toList) result
  | .removeBlock heading wanted ordinal =>
    match findBlock prim (.split text) heading wanted ordinal with
    | none => result.text = text
    | some (start, stop) => ∃ back, result.text = textOfLines ((splitLines text).take start ++ back) ∧
        (back = (splitLines text).drop stop ∨
          ∃ blank, blank.isBlank = true ∧ (splitLines text).drop stop = blank :: back)
  | _ => True

/-- A move that finds its effect there, by the identity of the line, with new words that are not. -/
def LosesWords (prim : Primitives) (text : Text) (write : Write) : Prop :=
  effectPresent prim text write = true ∧
    ∃ heading wanted ordinal to_ place newLine createUnder start stop line,
      write.operation = .moveBlock heading wanted ordinal to_ place (some newLine) createUnder ∧
      findBlock prim (.split text) heading wanted ordinal = some (start, stop) ∧
      (splitLines text)[start]? = some line ∧ trimEnd line.text ≠ trimEnd newLine

/-- A list of lines around a stretch of it. -/
theorem lines_block {lines : List Line} {start stop : ℕ} {line : Line} (hlt : start < stop)
    (hline : lines[start]? = some line) :
    lines = lines.take start ++ ((lines.take stop).drop start ++ lines.drop stop) ∧
      ∃ rest, (lines.take stop).drop start = line :: rest := by
  have hin : (lines.take stop)[start]? = some line := by rw [List.getElem?_take_of_lt hlt, hline]
  obtain ⟨hshort, hget⟩ := List.getElem?_eq_some_iff.mp hin
  constructor
  · conv_lhs => rw [← List.take_append_drop start lines, ← List.take_append_drop stop lines]
    rw [List.drop_append_of_le_length hshort.le, List.take_append_drop]
  · exact ⟨_, by rw [List.drop_eq_getElem_cons hshort, hget]⟩

theorem normalizeLine_of_blank {t : Text} (h : Blank t) : normalizeLine t = [] := by
  have hchopped : Blank (chopped t) := by
    obtain ⟨s, -, hsplit⟩ := exists_chopped t
    intro c hc
    exact h c (by rw [hsplit]; exact List.mem_append_left _ hc)
  rw [normalizeLine_eq, unprefixed, blank_iff_trimStart.mp hchopped]
  rfl

theorem findBlock_some {prim : Primitives} {document : Document} {heading : Option Heading} {wanted : Text}
    {ordinal start stop : ℕ} (h : findBlock prim document heading wanted ordinal = some (start, stop)) :
    ∃ section_ line, (findSection prim document heading).map Section.own = some section_ ∧
      findLine prim document section_ wanted ordinal = some start ∧ stop = blockEnd document section_ start ∧
      document.lines[start]? = some line ∧ line.isBlank = false := by
  obtain ⟨section_, hsection, hfind⟩ := Option.bind_eq_some_iff.mp h
  obtain ⟨index, hindex, heq⟩ := Option.map_eq_some_iff.mp hfind
  obtain ⟨rfl, rfl⟩ := Prod.mk.inj heq
  obtain ⟨line, hline, -, hwords⟩ := findLine_line hindex
  refine ⟨section_, line, hsection, hindex, rfl, hline, ?_⟩
  rw [← Bool.not_eq_true]
  intro hblank
  have hnil := isBlank_iff.mp hblank
  have hsplit := trimEnd_append_rtakeWhile line.text
  rw [hnil, List.nil_append] at hsplit
  exact hwords (normalizeLine_of_blank (by rw [← hsplit]; exact blank_rtakeWhile _))

/-- Texts put into a document stand there together. -/
theorem insert_stands (document : Document) (index : ℕ) {texts : List Text} (hne : texts ≠ []) :
    ∃ before block after, (document.insert index texts).lines = before ++ (block ++ after) ∧
      block.map Line.text = texts := by
  rcases insert_cases document index hne with ⟨front, back, -, -, -, hinsert⟩ |
    ⟨front, last, texts', text, -, -, -, rfl, hinsert⟩
  · exact ⟨front, linesOf document.ending texts, back, hinsert, map_text_linesOf _ _⟩
  · refine ⟨front ++ [{ last with ending := document.ending }], linesOf document.ending texts' ++ [⟨text, .none⟩], [], ?_, ?_⟩
    · rw [hinsert, List.append_nil, List.append_assoc]
      rfl
    · rw [List.map_append, map_text_linesOf]
      rfl

theorem nonBlank_cut {document : Document} {start stop : ℕ} (hlt : start < stop) (hstart : start < document.lines.length) :
    nonBlank ((cut document start stop).lines.map Line.text) =
      nonBlank ((document.lines.take start).map Line.text) ++ nonBlank ((document.lines.drop stop).map Line.text) := by
  obtain ⟨back, hcut, hback⟩ := cut_lines hlt hstart
  rw [hcut, List.map_append, nonBlank_append]
  rcases hback with rfl | ⟨blank, hblank, hdrop⟩
  · rfl
  · rw [hdrop, List.map_cons, ← List.singleton_append, nonBlank_append, nonBlank_blank hblank, List.nil_append]

section

variable {prim : Primitives} {text : Text} {start stop : ℕ} {line : Line}

/-- A move that does nothing keeps what it should only where the new words are there. -/
theorem moves_noop_iff (hlt : start < stop) (hline : (splitLines text)[start]? = some line) (hwords : line.isBlank = false)
    (newLine : Option Text) (headings : List Heading) :
    MovesBlock text start stop newLine headings ⟨text, .noop⟩ ↔ ∀ new ∈ newLine, trimEnd line.text = trimEnd new := by
  obtain ⟨hlines, rest, hblock⟩ := lines_block hlt hline
  have hall : wordLines text = nonBlank (((splitLines text).take start).map Line.text) ++
      (nonBlank ([line.text] ++ rest.map Line.text) ++ nonBlank (((splitLines text).drop stop).map Line.text)) := by
    conv_lhs => rw [wordLines, hlines, hblock]
    rw [List.map_append, List.map_append, nonBlank_append, nonBlank_append]
    rfl
  have hlanding : landing newLine ((((splitLines text).take stop).drop start).map Line.text) =
      [newLine.getD line.text] ++ rest.map Line.text := by rw [hblock]; rfl
  constructor
  · rintro hmoves new rfl
    obtain ⟨created, -, houtcome, hperm⟩ := hmoves.words
    rw [houtcome nofun, List.append_nil, hall, hlanding] at hperm
    simp only [nonBlank_append, List.append_assoc, List.perm_append_left_iff, Option.getD_some] at hperm
    rw [← List.append_assoc, ← List.append_assoc (nonBlank [new]), List.perm_append_right_iff,
      List.perm_append_right_iff] at hperm
    have hmem : trimEnd line.text ∈ nonBlank [line.text] := by
      rw [nonBlank, List.map_singleton, List.mem_filter, Bool.not_eq_true', List.isEmpty_eq_false_iff]
      refine ⟨List.mem_cons_self, fun hnil => ?_⟩
      rw [isBlank_iff.mpr hnil] at hwords
      cases hwords
    have hnew := hperm.mem_iff.mp hmem
    rw [nonBlank, List.mem_filter, List.map_singleton] at hnew
    exact List.mem_singleton.mp hnew.1
  · intro hsame
    have hfirst : trimEnd (newLine.getD line.text) = trimEnd line.text := by
      cases newLine with
      | none => rfl
      | some new => exact (hsame new rfl).symm
    have hnonBlank : nonBlank [newLine.getD line.text] = nonBlank [line.text] := by
      rw [nonBlank, nonBlank, List.map_singleton, List.map_singleton, hfirst]
    refine ⟨⟨[], List.nil_sublist _, fun _ => rfl, ?_⟩, (splitLines text).take start,
      ((splitLines text).take stop).drop start, (splitLines text).drop stop, ?_, ?_, ?_, ?_⟩
    · rw [hall, hlanding]
      simp only [nonBlank_append, hnonBlank, List.append_assoc, List.append_nil]
      exact List.Perm.refl _
    · rw [← hlines]
      exact (wellFormed_splitLines text).chained
    · rw [← hlines, textOfLines_splitLines]
    · rw [← hlines]
      exact (wellFormed_splitLines text).no_newline
    · rw [hlanding, hblock, List.map_append, List.map_singleton, hfirst, List.map_cons, List.map_map]
      rfl

/-- A move that is carried out puts the block, as it lands, into what the cut and the destination leave. -/
theorem applyMoveBlock_eq {heading : Option Heading} {wanted : Text} {ordinal : ℕ} (to_ : Option Heading) (place : Place)
    (newLine : Option Text) (createUnder : Option Heading)
    (hfound : findBlock prim (.split text) heading wanted ordinal = some (start, stop)) :
    ∃ index, applyMoveBlock prim (.split text) none heading wanted ordinal to_ place newLine createUnder =
      finish (insertLines (locateGroup prim (cut (.split text) start stop) to_ createUnder none).1
        (locateGroup prim (cut (.split text) start stop) to_ createUnder none).2.1.own index
        (landing newLine ((((splitLines text).take stop).drop start).map Line.text)) false)
        (locateGroup prim (cut (.split text) start stop) to_ createUnder none).2.2 .applied := by
  obtain ⟨source, line, hsource, hfind, hstop, -, -⟩ := findBlock_some hfound
  rw [applyMoveBlock, hsource]
  dsimp only
  rw [hfind]
  dsimp only
  rw [← hstop]
  refine ⟨_, congrArg (fun texts => finish (insertLines _ _ _ texts false) _ .applied) ?_⟩
  rw [show (Document.split text).lines = splitLines text from rfl]
  cases newLine with
  | none => cases (((splitLines text).take stop).drop start).map Line.text <;> rfl
  | some new => cases (((splitLines text).take stop).drop start).map Line.text <;> rfl

/-- A move that is carried out keeps the block. -/
theorem moves_applied {heading : Option Heading} {wanted : Text} {ordinal : ℕ} (to_ : Option Heading) (place : Place)
    {newLine : Option Text} (createUnder : Option Heading)
    (hfound : findBlock prim (.split text) heading wanted ordinal = some (start, stop))
    (hnew : ∀ new ∈ newLine, '\n' ∉ new) (hto : ∀ wanted ∈ to_, '\n' ∉ wanted.line)
    (hunder : ∀ wanted ∈ createUnder, '\n' ∉ wanted.line) :
    MovesBlock text start stop newLine (createUnder.toList ++ to_.toList)
      (applyMoveBlock prim (.split text) none heading wanted ordinal to_ place newLine createUnder) := by
  obtain ⟨source, line, -, -, hstop, hline, -⟩ := findBlock_some hfound
  replace hline : (splitLines text)[start]? = some line := hline
  have hlt : start < stop := by rw [hstop]; exact lt_blockEnd _ _ _
  obtain ⟨hlines, rest, hblock⟩ := lines_block hlt hline
  obtain ⟨hstart, -⟩ := List.getElem?_eq_some_iff.mp hline
  have hplain : ∀ t ∈ landing newLine ((((splitLines text).take stop).drop start).map Line.text), '\n' ∉ t := by
    have hold := (wellFormed_splitLines text).no_newline
    rw [hlines, hblock] at hold
    rw [hblock]
    intro t ht
    rcases List.mem_cons.mp ht with rfl | ht
    · cases newLine with
      | none => exact hold line (by simp)
      | some new => exact hnew new rfl
    · obtain ⟨other, hother, rfl⟩ := List.mem_map.mp ht
      exact hold other (by simp [hother])
  have hne : landing newLine ((((splitLines text).take stop).drop start).map Line.text) ≠ [] := by
    rw [hblock]
    nofun
  obtain ⟨headings, hsub, hgroup, houtcome⟩ :=
    locateGroup_adds prim (cut_readable (readable_split text) start stop) to_ createUnder hto hunder
  obtain ⟨index, happly⟩ := applyMoveBlock_eq to_ place newLine createUnder hfound
  rw [happly]
  generalize locateGroup prim (cut (.split text) start stop) to_ createUnder none = located at hgroup houtcome
  obtain ⟨document, destination, outcome⟩ := located
  dsimp only at hgroup houtcome ⊢
  generalize hmoved : landing newLine ((((splitLines text).take stop).drop start).map Line.text) = moved at hplain hne
  have hinsert : insertLines document destination.own index moved false = document.insert index moved := by
    rw [insertLines, if_neg (by simpa using hne)]
    rfl
  have hadds := hgroup.trans (insert_adds hgroup.readable index hplain)
  obtain ⟨before, block, after, hdocument, htexts⟩ := insert_stands document index hne
  have hchained := hadds.readable.sound.chained
  have hbreaks := hadds.readable.plain
  have hwords := wordLines_textOfLines hchained hbreaks ▸ hadds.words
  rw [hinsert]
  refine ⟨⟨headings, hsub, fun hout => ?_, ?_⟩, before, block, after, ?_, ?_, ?_, ?_⟩
  · refine houtcome.resolve_right fun hsome => hout ?_
    rw [finish, hsome]
    rfl
  · rw [nonBlank_cut hlt hstart, nonBlank_append] at hwords
    rw [finish_text, hmoved, nonBlank_append, nonBlank_append, nonBlank_append]
    refine hwords.trans ?_
    rw [List.append_assoc, List.append_assoc, List.append_assoc]
    refine List.Perm.append_left _ ?_
    rw [← List.append_assoc, ← List.append_assoc]
    refine List.perm_append_comm.trans ?_
    rw [List.append_assoc]
    exact List.Perm.refl _
  · rw [← hdocument]
    exact hchained
  · rw [finish_text, hdocument]
  · rw [← hdocument]
    exact hbreaks
  · rw [hmoved, ← htexts, List.map_map]
    rfl

/-- A block that is cut out leaves all else, but for one of two blank lines. -/
theorem removes_applied {heading : Option Heading} {wanted : Text} {ordinal : ℕ}
    (hfound : findBlock prim (.split text) heading wanted ordinal = some (start, stop)) :
    ∃ back, (applyOperation prim (.split text) none (.removeBlock heading wanted ordinal)).text =
        textOfLines ((splitLines text).take start ++ back) ∧
      (back = (splitLines text).drop stop ∨ ∃ blank, blank.isBlank = true ∧ (splitLines text).drop stop = blank :: back) := by
  obtain ⟨source, line, hsource, hfind, hstop, hline, -⟩ := findBlock_some hfound
  have hlt : start < stop := by rw [hstop]; exact lt_blockEnd _ _ _
  obtain ⟨hstart, -⟩ := List.getElem?_eq_some_iff.mp hline
  obtain ⟨back, hcut, hback⟩ := cut_lines hlt hstart
  refine ⟨back, ?_, hback⟩
  rw [applyOperation, hsource]
  dsimp only
  rw [hfind]
  dsimp only
  rw [← hstop, finish_text, hcut]
  rfl

/-- A block that is not there is neither moved nor removed. -/
theorem findBlock_none {document : Document} {heading : Option Heading} {wanted : Text} {ordinal : ℕ}
    (h : findBlock prim document heading wanted ordinal = none) :
    (findSection prim document heading).map Section.own = none ∨
      ∃ section_, (findSection prim document heading).map Section.own = some section_ ∧
        findLine prim document section_ wanted ordinal = none := by
  rw [findBlock] at h
  cases hsection : (findSection prim document heading).map Section.own with
  | none => exact Or.inl rfl
  | some section_ =>
    rw [hsection, Option.bind_some, Option.map_eq_none_iff] at h
    exact Or.inr ⟨section_, rfl, h⟩

theorem not_found_of_lineGone {document : Document} {section_ : Section} {wanted : Text}
    (h : lineGone prim document section_ wanted = true) (ordinal : ℕ) :
    findLine prim document section_ wanted ordinal = none := by
  rw [lineGone, Bool.not_eq_true', List.any_eq_false] at h
  refine findLine_none.mpr fun index line hline hnamed => h (index, line) hline ?_
  rw [Bool.and_eq_true, decide_eq_true_eq, Bool.not_eq_true', List.isEmpty_eq_false_iff]
  exact hnamed

end

/-! ## Writes on blocks -/

theorem plain_of_hasBreak {line : Text} (h : hasBreak line = false) : '\n' ∉ line := by
  rw [hasBreak, Bool.or_eq_false_iff, decide_eq_false_iff_not] at h
  exact h.1

theorem heading_line_plain {heading : Heading} (h : hasBreak heading.text = false) : '\n' ∉ heading.line := by
  have htrim : '\n' ∉ trim heading.text := fun hmem => plain_of_hasBreak h ((trim_isInfix _).subset hmem)
  simp [Heading.line, htrim]

/-- A valid move carries no line break. -/
theorem newLine_plain {write : Write} (h : write.validate = .ok ()) {heading : Option Heading} {wanted : Text} {ordinal : ℕ}
    {to_ : Option Heading} {place : Place} {newLine createUnder}
    (hop : write.operation = .moveBlock heading wanted ordinal to_ place newLine createUnder) :
    ∀ new ∈ newLine, '\n' ∉ new := by
  have hbroken : write.operation.broken = false := by
    by_contra hbroken
    rw [Bool.not_eq_false] at hbroken
    unfold Write.validate at h
    rw [if_pos hbroken] at h
    split at h
    · cases h
    · split at h
      · cases h
      · split at h
        · cases h
        · split at h <;> cases h
  rw [hop] at hbroken
  rintro new rfl
  exact plain_of_hasBreak hbroken

theorem apply_noop {prim : Primitives} {text : Text} {write : Write} (h : effectPresent prim text write = true)
    (hfile : write.operation.isFileLevel = false) (seed : Option Text) :
    apply prim (some text) write seed = ⟨text, .noop⟩ := by
  rw [apply, hfile, if_neg Bool.false_ne_true]
  exact if_pos h

theorem apply_fresh {prim : Primitives} {text : Text} {write : Write} (h : effectPresent prim text write = false)
    (hfile : write.operation.isFileLevel = false) (seed : Option Text) :
    apply prim (some text) write seed = applyOperation prim (.split text) none write.operation := by
  rw [apply, hfile, if_neg Bool.false_ne_true]
  exact if_neg (by rw [h]; exact Bool.false_ne_true)

theorem unchanged_split (text : Text) : unchanged (.split text) none = ⟨text, .noop⟩ := by
  rw [unchanged, join_split]
  rfl

section

variable {prim : Primitives} {text : Text} {write : Write} {heading : Option Heading} {wanted : Text} {ordinal : ℕ}

theorem losesWords_iff {to_ : Option Heading} {place : Place} {newLine : Option Text} {createUnder : Option Heading}
    (hop : write.operation = .moveBlock heading wanted ordinal to_ place newLine createUnder) {start stop : ℕ} {line : Line}
    (hfound : findBlock prim (.split text) heading wanted ordinal = some (start, stop))
    (hline : (splitLines text)[start]? = some line) :
    LosesWords prim text write ↔
      effectPresent prim text write = true ∧ ∃ new ∈ newLine, trimEnd line.text ≠ trimEnd new := by
  refine and_congr_right fun _ => ⟨?_, ?_⟩
  · rintro ⟨_, _, _, _, _, new, _, start', stop', line', hop', hfound', hline', hne⟩
    rw [hop] at hop'
    cases hop'
    rw [hfound] at hfound'
    cases hfound'
    rw [hline] at hline'
    cases hline'
    exact ⟨new, rfl, hne⟩
  · rintro ⟨new, rfl, hne⟩
    exact ⟨_, _, _, _, _, new, _, start, stop, line, hop, hfound, hline, hne⟩

/-- A move whose effect is there loses the new words that are not. -/
theorem kept_iff_of_present {to_ : Option Heading} {place : Place} {newLine : Option Text} {createUnder : Option Heading}
    (hop : write.operation = .moveBlock heading wanted ordinal to_ place newLine createUnder)
    (hpresent : effectPresent prim text write = true) :
    KeepsBlocks prim text write.operation ⟨text, .noop⟩ ↔ ¬LosesWords prim text write := by
  rw [hop, KeepsBlocks]
  cases hfound : findBlock prim (.split text) heading wanted ordinal with
  | none =>
    refine iff_of_true rfl ?_
    rintro ⟨-, _, _, _, _, _, _, _, start, stop, line, hop', hfound', -⟩
    rw [hop] at hop'
    cases hop'
    rw [hfound] at hfound'
    cases hfound'
  | some found =>
    obtain ⟨start, stop⟩ := found
    obtain ⟨source, line, -, -, hstop, hline, hwords⟩ := findBlock_some hfound
    rw [losesWords_iff hop hfound hline, and_iff_right hpresent]
    refine (moves_noop_iff (by rw [hstop]; exact lt_blockEnd _ _ _) hline hwords newLine _).trans ?_
    rw [not_exists]
    refine forall_congr' fun new => ?_
    rw [not_and, not_not]

theorem kept_of_move {to_ : Option Heading} {place : Place} {newLine : Option Text} {createUnder : Option Heading}
    (hop : write.operation = .moveBlock heading wanted ordinal to_ place newLine createUnder)
    (hvalid : write.validate = .ok ()) (hheadings : ∀ heading ∈ write.operation.headings, hasBreak heading.text = false) :
    KeepsBlocks prim text write.operation (applyOperation prim (.split text) none write.operation) := by
  have hnew := newLine_plain hvalid hop
  rw [hop] at hheadings ⊢
  rw [KeepsBlocks]
  cases hfound : findBlock prim (.split text) heading wanted ordinal with
  | none =>
    rw [applyOperation, applyMoveBlock]
    dsimp only
    rcases findBlock_none hfound with hsection | ⟨section_, hsection, hline⟩
    · rw [hsection, unchanged_split]
    · rw [hsection]
      dsimp only
      rw [hline, unchanged_split]
  | some found =>
    refine moves_applied to_ place createUnder hfound hnew ?_ ?_
    · rintro wanted rfl
      exact heading_line_plain (hheadings wanted (by simp [Operation.headings]))
    · rintro wanted rfl
      exact heading_line_plain (hheadings wanted (by simp [Operation.headings]))

theorem kept_of_remove (hop : write.operation = .removeBlock heading wanted ordinal) (seed : Option Text) :
    KeepsBlocks prim text write.operation (apply prim (some text) write seed) := by
  have hfile : write.operation.isFileLevel = false := by rw [hop]; rfl
  cases hpresent : effectPresent prim text write with
  | true =>
    rw [apply_noop hpresent hfile, hop, KeepsBlocks]
    rw [effectPresent, hop] at hpresent
    dsimp only at hpresent
    cases hfound : findBlock prim (.split text) heading wanted ordinal with
    | none => rfl
    | some found =>
      obtain ⟨source, line, hsource, hfind, -⟩ := findBlock_some hfound
      rw [hsource] at hpresent
      rw [not_found_of_lineGone hpresent] at hfind
      cases hfind
  | false =>
    rw [apply_fresh hpresent hfile, hop, KeepsBlocks]
    cases hfound : findBlock prim (.split text) heading wanted ordinal with
    | none =>
      rw [applyOperation]
      dsimp only
      rcases findBlock_none hfound with hsection | ⟨section_, hsection, hline⟩
      · rw [hsection, unchanged_split]
      · rw [hsection]
        dsimp only
        rw [hline, unchanged_split]
    | some found => exact removes_applied hfound

end

/-- Moving a block neither loses nor copies it, but for new words where the move finds its effect already there. -/
theorem blocks_kept_iff (prim : Primitives) (text : Text) (write : Write) (seed : Option Text)
    (hvalid : write.validate = .ok ()) (hheadings : ∀ heading ∈ write.operation.headings, hasBreak heading.text = false) :
    KeepsBlocks prim text write.operation (apply prim (some text) write seed) ↔ ¬LosesWords prim text write := by
  have hother (h : ∀ heading wanted ordinal to_ place newLine createUnder,
      write.operation ≠ .moveBlock heading wanted ordinal to_ place newLine createUnder) : ¬LosesWords prim text write := by
    rintro ⟨-, _, _, _, _, _, _, _, _, _, _, hop, -⟩
    exact h _ _ _ _ _ _ _ hop
  cases hop : write.operation with
  | moveBlock heading wanted ordinal to_ place newLine createUnder =>
    have hfile : write.operation.isFileLevel = false := by rw [hop]; rfl
    rw [← hop]
    cases hpresent : effectPresent prim text write with
    | true =>
      rw [apply_noop hpresent hfile]
      exact kept_iff_of_present hop hpresent
    | false =>
      rw [apply_fresh hpresent hfile]
      refine iff_of_true (kept_of_move hop hvalid hheadings) fun hloses => ?_
      rw [hloses.1] at hpresent
      cases hpresent
  | removeBlock heading wanted ordinal =>
    rw [← hop]
    refine iff_of_true (kept_of_remove hop seed) (hother ?_)
    rw [hop]
    nofun
  | _ =>
    refine iff_of_true trivial (hother ?_)
    rw [hop]
    nofun

/-- A task in a section of its own. -/
def oneTask : Text := "## A\n- [ ] a\n".toList

/-- The task is ticked as it moves to the end of the section it is in. -/
def tickInPlace : Write :=
  ⟨1, "phone".toList, "backlog.md".toList,
    .moveBlock (some ⟨"A".toList, 2, 0⟩) "a".toList 0 (some ⟨"A".toList, 2, 0⟩) .end_ (some "- [x] a".toList) none⟩

theorem blocks_kept_iff_ticked :
    tickInPlace.validate = .ok () ∧ (KeepsBlocks asciiPrimitives oneTask tickInPlace.operation
      (apply asciiPrimitives (some oneTask) tickInPlace none) ↔ ¬LosesWords asciiPrimitives oneTask tickInPlace) :=
  ⟨rfl, blocks_kept_iff asciiPrimitives oneTask tickInPlace none rfl (by decide)⟩

/-- The tick of a task that stands where it moves to already is dropped. -/
theorem tick_in_place_lost :
    tickInPlace.validate = .ok () ∧ apply asciiPrimitives (some oneTask) tickInPlace none = ⟨oneTask, .noop⟩ ∧
      ¬KeepsBlocks asciiPrimitives oneTask tickInPlace.operation
        (apply asciiPrimitives (some oneTask) tickInPlace none) := by
  have hresult : apply asciiPrimitives (some oneTask) tickInPlace none = ⟨oneTask, .noop⟩ := by decide +kernel
  have hfound : findBlock asciiPrimitives (.split oneTask) (some ⟨"A".toList, 2, 0⟩) "a".toList 0 = some (1, 2) := by
    decide +kernel
  have hline : (splitLines oneTask)[1]? = some ⟨"- [ ] a".toList, .lf⟩ := by decide +kernel
  refine ⟨rfl, hresult, ?_⟩
  rw [hresult, tickInPlace, KeepsBlocks, hfound]
  intro hkept
  have hsame := (moves_noop_iff (show 1 < 2 by omega) hline (by decide +kernel) _ _).mp hkept "- [x] a".toList rfl
  exact absurd hsame (by decide +kernel)

end Thock.SyncCore
