import Thock.SyncCore.NoteInserts
import Thock.SyncCore.NoteScan

/-!
# Sections of a note as lines go in

Which headings a note has once lines went in, which of them a write names, and where the bodies of
their sections end. Lines that open nothing leave the scan of the lines below them as it was.
-/

namespace Thock.SyncCore

open TextScan

/-! ## Front matter -/

/-- Whether a note begins with front matter. -/
def hasFrontMatter (lines : List Line) : Bool :=
  (lines.head?.any fun line => line.text = ['-', '-', '-']) && frontMatterCloses lines

/-- Whether a later line is scanned does not hang on the front matter. -/
theorem scanFrom_of_pos {index : ℕ} (hindex : 0 < index) (closes closes' : Bool) (state : Scan) (lines : List Line) :
    scanFrom closes index state lines = scanFrom closes' index state lines := by
  induction lines generalizing index state with
  | nil => cases state <;> rfl
  | cons line rest ih =>
    rw [scanFrom_cons, scanFrom_cons, scanStep_of_pos hindex closes closes', ih (Nat.succ_pos index),
      guards_of_pos hindex closes closes', headingAt, headingAt, guards_of_pos hindex closes closes']

theorem scan_eq (document : Document) :
    document.scan = scanFrom (hasFrontMatter document.lines) 0 .body document.lines := by
  unfold Document.scan
  cases hlines : document.lines with
  | nil => rfl
  | cons line rest =>
    have hopens : OpensFrontMatter (frontMatterCloses (line :: rest)) 0 line.text ↔
        OpensFrontMatter (hasFrontMatter (line :: rest)) 0 line.text := by
      simp [OpensFrontMatter, hasFrontMatter]
    have hguards : guards (frontMatterCloses (line :: rest)) 0 .body line.text =
        guards (hasFrontMatter (line :: rest)) 0 .body line.text := by
      rw [guards, guards, decide_eq_decide.mpr hopens]
    have hstep : scanStep (frontMatterCloses (line :: rest)) 0 .body line.text =
        scanStep (hasFrontMatter (line :: rest)) 0 .body line.text := by
      rw [scanStep, scanStep]
      by_cases hfront : OpensFrontMatter (frontMatterCloses (line :: rest)) 0 line.text
      · rw [if_pos hfront, if_pos (hopens.mp hfront)]
      · rw [if_neg hfront, if_neg (fun h => hfront (hopens.mpr h))]
    rw [scanFrom_cons, scanFrom_cons, scanFrom_of_pos (show 0 < 0 + 1 by omega) _ (hasFrontMatter (line :: rest)), headingAt,
      headingAt, hguards, hstep]

/-- Lines without an end of front matter leave a note's front matter as it is. -/
theorem hasFrontMatter_insert {front ins back : List Line} (hins : ∀ line ∈ ins, isFrontMatterEnd line.text = false)
    (hfront : front = [] → hasFrontMatter back = false) :
    hasFrontMatter (front ++ (ins ++ back)) = hasFrontMatter (front ++ back) := by
  cases front with
  | nil =>
    rw [List.nil_append, List.nil_append, hfront rfl]
    cases ins with
    | nil => exact hfront rfl
    | cons line ins =>
      have hline : line.text ≠ ['-', '-', '-'] := by
        intro htext
        have hend := hins line List.mem_cons_self
        rw [htext] at hend
        cases hend
      simp [hasFrontMatter, hline]
  | cons line front =>
    have hany : ins.any (fun line => isFrontMatterEnd line.text) = false := by
      rw [List.any_eq_false]
      exact fun line hline => by simp [hins line hline]
    simp only [hasFrontMatter, frontMatterCloses, List.cons_append, List.head?_cons, List.drop_succ_cons, List.drop_zero,
      List.any_append, hany, Bool.false_or]

/-! ## The scan below lines that went in -/

/-- A heading further down. -/
def HeadingLine.shift (k : ℕ) (heading : HeadingLine) : HeadingLine := { heading with index := heading.index + k }

/-- Lines are scanned alike further down. -/
theorem scanFrom_shift (closes closes' : Bool) (k : ℕ) {index : ℕ} {state : Scan} {lines : List Line}
    (hindex : 0 < index) :
    scanFrom closes (index + k) state lines =
      ((scanFrom closes' index state lines).1.map (HeadingLine.shift k), (scanFrom closes' index state lines).2) := by
  induction lines generalizing index state with
  | nil => cases state <;> rfl
  | cons line rest ih =>
    have hopens (closes : Bool) {index : ℕ} (hindex : 0 < index) : ¬OpensFrontMatter closes index line.text :=
      fun h => absurd h.1 (by omega)
    have hstep : scanStep closes (index + k) state line.text = scanStep closes' index state line.text := by
      cases state <;> simp [scanStep, hopens closes (show 0 < index + k by omega), hopens closes' hindex]
    have hguards : guards closes (index + k) state line.text = guards closes' index state line.text := by
      cases state <;> simp [guards, hopens closes (show 0 < index + k by omega), hopens closes' hindex]
    have hheading : headingAt closes (index + k) state line.text =
        (headingAt closes' index state line.text).map (HeadingLine.shift k) := by
      unfold headingAt
      rw [hguards]
      split
      · rfl
      · cases parseHeading line.text <;> rfl
    have hnext : index + k + 1 = index + 1 + k := by omega
    rw [scanFrom_cons, scanFrom_cons, hstep, hguards, hheading, hnext, ih (Nat.succ_pos index), List.map_append]

/-- The scan of a note with lines put in where they leave it as it stood. -/
theorem scan_insert {front ins back : List Line} {closes : Bool} {state : Scan}
    (hstate : stateAfter closes 0 .body front = state) (hins : stateAfter closes front.length state ins = state)
    (hfront : front = [] → back = []) :
    scanFrom closes 0 .body (front ++ (ins ++ back)) =
      ((scanFrom closes 0 .body front).1 ++ ((scanFrom closes front.length state ins).1 ++
          (scanFrom closes front.length state back).1.map (HeadingLine.shift ins.length)),
        (scanFrom closes 0 .body front).2 ++ ((scanFrom closes front.length state ins).2 ++
          (scanFrom closes front.length state back).2)) := by
  rw [scanFrom_append, scanFrom_append, Nat.zero_add, hstate, hins]
  by_cases hnil : front = []
  · rw [hfront hnil]
    cases state <;> rfl
  · rw [scanFrom_shift closes closes ins.length (List.length_pos_iff.mpr hnil)]

/-- The headings found among lines stand at their indices. -/
theorem scanFrom_bounds {closes : Bool} {index : ℕ} {state : Scan} {lines : List Line} {heading : HeadingLine}
    (h : heading ∈ (scanFrom closes index state lines).1) :
    index ≤ heading.index ∧ heading.index < index + lines.length := by
  induction lines generalizing index state with
  | nil => cases state <;> cases h
  | cons line rest ih =>
    rw [scanFrom_cons] at h
    rw [List.length_cons]
    rcases List.mem_append.mp h with h | h
    · unfold headingAt at h
      split at h
      · cases h
      · obtain ⟨parsed, -, rfl⟩ := List.mem_map.mp h
        dsimp only
        omega
    · have hrest := ih h
      omega

/-- The headings found among lines go down the note. -/
theorem scanFrom_sorted (closes : Bool) (index : ℕ) (state : Scan) (lines : List Line) :
    (scanFrom closes index state lines).1.Pairwise fun a b => a.index < b.index := by
  induction lines generalizing index state with
  | nil => cases state <;> exact List.Pairwise.nil
  | cons line rest ih =>
    rw [scanFrom_cons, List.pairwise_append]
    refine ⟨?_, ih _ _, fun a ha b hb => ?_⟩
    · unfold headingAt
      split
      · exact List.Pairwise.nil
      · cases parseHeading line.text <;> simp
    · have hbelow := scanFrom_bounds hb
      unfold headingAt at ha
      split at ha
      · cases ha
      · obtain ⟨parsed, -, rfl⟩ := List.mem_map.mp ha
        dsimp only
        omega

/-! ## The heading a write names -/

/-- Whether a heading of the note has the name a write gives. -/
def Names (prim : Primitives) (heading : Heading) (candidate : HeadingLine) : Prop :=
  prim.lowercase (trim candidate.text) = prim.lowercase (trim heading.text) ∨
    (headingKey prim heading.text ≠ [] ∧ headingKey prim candidate.text = headingKey prim heading.text)

theorem resolveWithin_some {prim : Primitives} {document : Document} {heading : Heading} {start stop : ℕ}
    {found : HeadingLine} (h : document.resolveWithin prim heading start stop = some found) :
    found ∈ document.headings ∧ start ≤ found.index ∧ found.index < stop ∧ Names prim heading found := by
  unfold Document.resolveWithin at h
  dsimp only at h
  have hmem : ∀ {l : List HeadingLine}, l[heading.ordinal]?.or l.getLast? = some found → found ∈ l := by
    intro l hl
    rcases Option.or_eq_some_iff.mp hl with hl | ⟨-, hl⟩
    · exact List.mem_of_getElem? hl
    · exact List.mem_of_getLast? hl
  replace h := hmem h
  split at h
  · split at h
    · cases h
    · rename_i hkey
      rw [List.mem_filter, List.mem_filter, decide_eq_true_eq, decide_eq_true_eq] at h
      exact ⟨h.1.1, h.1.2.1, h.1.2.2, Or.inr ⟨by simpa using hkey, h.2⟩⟩
  · rw [List.mem_filter, List.mem_filter, decide_eq_true_eq, decide_eq_true_eq] at h
    exact ⟨h.1.1, h.1.2.1, h.1.2.2, Or.inl h.2⟩

theorem resolveWithin_none {prim : Primitives} {document : Document} {heading : Heading} {start stop : ℕ}
    (h : document.resolveWithin prim heading start stop = none) {candidate : HeadingLine}
    (hcandidate : candidate ∈ document.headings) (hstart : start ≤ candidate.index) (hstop : candidate.index < stop) :
    ¬Names prim heading candidate := by
  have hempty : ∀ {l : List HeadingLine}, l[heading.ordinal]?.or l.getLast? = none → l = [] := by
    intro l hl
    exact List.getLast?_eq_none_iff.mp (Option.or_eq_none_iff.mp hl).2
  have hin : candidate ∈ document.headings.filter fun candidate => start ≤ candidate.index ∧ candidate.index < stop := by
    rw [List.mem_filter, decide_eq_true_eq]
    exact ⟨hcandidate, hstart, hstop⟩
  unfold Document.resolveWithin at h
  dsimp only at h
  replace h := hempty h
  split at h
  · rename_i hexact
    rw [List.isEmpty_iff, List.filter_eq_nil_iff] at hexact
    have hnot := hexact candidate hin
    rw [decide_eq_true_eq] at hnot
    rintro (hsame | ⟨hkey, hsame⟩)
    · exact hnot hsame
    · rw [if_neg (by simpa using hkey), List.filter_eq_nil_iff] at h
      have hother := h candidate hin
      rw [decide_eq_true_eq] at hother
      exact hother hsame
  · rename_i hexact
    rw [h] at hexact
    exact absurd rfl hexact

theorem resolve_none {prim : Primitives} {document : Document} {heading : Heading}
    (h : document.resolve prim heading = none) {candidate : HeadingLine} (hcandidate : candidate ∈ document.headings) :
    ¬Names prim heading candidate := by
  refine resolveWithin_none h hcandidate (Nat.zero_le _) ?_
  rw [Document.headings, scan_eq] at hcandidate
  have hbounds := scanFrom_bounds hcandidate
  omega

/-! ## Where a body ends -/

theorem trimBlankLines_le (lines : List Line) (start stop : ℕ) : trimBlankLines lines start stop ≤ stop := by
  induction stop with
  | zero => exact le_rfl
  | succ stop ih =>
    unfold trimBlankLines
    split
    · omega
    · exact le_rfl

theorem le_trimBlankLines (lines : List Line) {start stop : ℕ} (h : start ≤ stop) :
    start ≤ trimBlankLines lines start stop := by
  induction stop with
  | zero => exact h
  | succ stop ih =>
    unfold trimBlankLines
    split
    · rename_i hblank
      exact ih (by omega)
    · exact h

section

variable (document : Document)

theorem trimBlankEnd_le (start stop : ℕ) : document.trimBlankEnd start stop ≤ stop := by
  have hblank := trimBlankLines_le document.lines start stop
  unfold Document.trimBlankEnd
  dsimp only
  split
  · have := trimBlankLines_le document.lines start (trimBlankLines document.lines start stop - 1)
    omega
  · exact hblank

theorem le_trimBlankEnd {start stop : ℕ} (h : start ≤ stop) : start ≤ document.trimBlankEnd start stop := by
  have hblank := le_trimBlankLines document.lines h
  unfold Document.trimBlankEnd
  dsimp only
  split
  · rename_i hrule
    exact le_trimBlankLines document.lines (by omega)
  · exact hblank

/-- A section as a document has it. -/
structure Section.Within (section_ : Section) : Prop where
  start_le : section_.start ≤ section_.bodyStop
  own_ge : section_.start ≤ section_.ownStop
  own_le : section_.ownStop ≤ section_.bodyStop
  body_le : section_.bodyStop ≤ section_.stop
  stop_le : section_.stop ≤ document.lines.length

variable {document}

theorem mem_headings_lt {heading : HeadingLine} (h : heading ∈ document.headings) :
    heading.index < document.lines.length := by
  rw [Document.headings, scan_eq] at h
  have hbounds := scanFrom_bounds h
  omega

theorem whole_within : document.whole.Within document := by
  have hle := trimBlankLines_le document.lines 0 document.lines.length
  exact ⟨Nat.zero_le _, Nat.zero_le _, le_rfl, hle, le_rfl⟩

theorem sectionOf_within {heading : HeadingLine} (h : heading ∈ document.headings) :
    (document.sectionOf heading).Within document := by
  have hindex := mem_headings_lt h
  have hstop : heading.index < (document.sectionOf heading).stop ∧
      (document.sectionOf heading).stop ≤ document.lines.length := by
    unfold Document.sectionOf
    dsimp only
    cases hfind : document.headings.find? fun other => heading.index < other.index ∧ other.level ≤ heading.level with
    | none => exact ⟨hindex, le_rfl⟩
    | some other =>
      have hother := List.find?_some hfind
      rw [decide_eq_true_eq] at hother
      exact ⟨hother.1, (mem_headings_lt (List.mem_of_find?_eq_some hfind)).le⟩
  have hbody : (document.sectionOf heading).start ≤ (document.sectionOf heading).bodyStop :=
    le_trimBlankEnd document (by exact hstop.1)
  have hown : (document.sectionOf heading).start ≤ ((document.headings.find? fun other =>
        heading.index < other.index ∧ other.index < (document.sectionOf heading).bodyStop).map
          HeadingLine.index).getD (document.sectionOf heading).bodyStop ∧
      ((document.headings.find? fun other =>
        heading.index < other.index ∧ other.index < (document.sectionOf heading).bodyStop).map
          HeadingLine.index).getD (document.sectionOf heading).bodyStop ≤ (document.sectionOf heading).bodyStop := by
    cases hfind : document.headings.find? fun other =>
        heading.index < other.index ∧ other.index < (document.sectionOf heading).bodyStop with
    | none => exact ⟨hbody, le_rfl⟩
    | some other =>
      have hother := List.find?_some hfind
      rw [decide_eq_true_eq] at hother
      exact ⟨hother.1, hother.2.le⟩
  exact ⟨hbody, le_trimBlankEnd document hown.1, (trimBlankEnd_le document _ _).trans hown.2,
    trimBlankEnd_le document _ _, hstop.2⟩

/-! ## Lines a rule may match -/

theorem mem_indices {start stop index : ℕ} : index ∈ indices start stop ↔ start ≤ index ∧ index < stop := by
  rw [indices, List.mem_range'_1]
  omega

theorem mem_matchable {section_ : Section} {index : ℕ} {text : Text} :
    (index, text) ∈ document.matchable section_ ↔
      section_.start ≤ index ∧ index < section_.bodyStop ∧ document.protected_[index]?.getD false = false ∧
        ∃ line, document.lines[index]? = some line ∧ line.text = text := by
  simp only [Document.matchable, List.mem_filterMap, List.mem_filter, mem_indices, Bool.not_eq_true',
    Option.map_eq_some_iff, Prod.mk.injEq]
  constructor
  · rintro ⟨i, ⟨⟨hstart, hstop⟩, hfree⟩, line, hline, rfl, htext⟩
    exact ⟨hstart, hstop, hfree, line, hline, htext⟩
  · rintro ⟨hstart, hstop, hfree, line, hline, htext⟩
    exact ⟨index, ⟨⟨hstart, hstop⟩, hfree⟩, line, hline, rfl, htext⟩

/-- Whether a line is one a hash names. -/
def Named (prim : Primitives) (wanted : Text) (text : Text) : Prop :=
  lineHash prim text = wanted ∧ normalizeLine text ≠ []

theorem findLine_some {prim : Primitives} {section_ : Section} {wanted : Text} {ordinal index : ℕ}
    (h : findLine prim document section_ wanted ordinal = some index) :
    ∃ text, (index, text) ∈ document.matchable section_ ∧ Named prim wanted text := by
  unfold findLine at h
  dsimp only at h
  have hmem : index ∈ ((document.matchable section_).filter fun place =>
      lineHash prim place.2 = wanted && !(normalizeLine place.2).isEmpty).map Prod.fst := by
    rcases Option.or_eq_some_iff.mp h with h | ⟨-, h⟩
    · exact List.mem_of_getElem? h
    · exact List.mem_of_head? h
  obtain ⟨⟨found, text⟩, hin, rfl⟩ := List.mem_map.mp hmem
  rw [List.mem_filter, Bool.and_eq_true, decide_eq_true_eq] at hin
  exact ⟨text, hin.1, hin.2.1, by simpa using hin.2.2⟩

theorem findLine_none {prim : Primitives} {section_ : Section} {wanted : Text} {ordinal : ℕ} :
    findLine prim document section_ wanted ordinal = none ↔
      ∀ index text, (index, text) ∈ document.matchable section_ → ¬Named prim wanted text := by
  have hnone : findLine prim document section_ wanted ordinal = none ↔
      (document.matchable section_).filter (fun place =>
        lineHash prim place.2 = wanted && !(normalizeLine place.2).isEmpty) = [] := by
    unfold findLine
    dsimp only
    rw [Option.or_eq_none_iff, List.head?_eq_none_iff, List.map_eq_nil_iff]
    exact ⟨fun h => h.2, fun h => ⟨by rw [h]; rfl, h⟩⟩
  rw [hnone, List.filter_eq_nil_iff]
  simp [Named]

end

/-! ## A heading that is created -/

theorem scanFrom_congr (closes : Bool) (index : ℕ) (state : Scan) {lines lines' : List Line}
    (h : lines.map Line.text = lines'.map Line.text) :
    scanFrom closes index state lines = scanFrom closes index state lines' := by
  induction lines generalizing index state lines' with
  | nil =>
    obtain rfl : lines' = [] := by simpa using h.symm
    rfl
  | cons line rest ih =>
    obtain ⟨line', rest', rfl, htext, hrest⟩ : ∃ line' rest', lines' = line' :: rest' ∧ line'.text = line.text ∧
        rest'.map Line.text = rest.map Line.text := List.map_eq_cons_iff.mp h.symm
    rw [scanFrom_cons, scanFrom_cons, htext, ih _ _ hrest.symm]

theorem hasFrontMatter_congr {lines lines' : List Line} (h : lines.map Line.text = lines'.map Line.text) :
    hasFrontMatter lines = hasFrontMatter lines' := by
  have hhead (lines : List Line) : (lines.head?.any fun line => line.text = ['-', '-', '-']) =
      ((lines.map Line.text).head?.any fun text => text = ['-', '-', '-']) := by
    rw [List.head?_map]
    cases lines.head? <;> rfl
  have hcloses (lines : List Line) : frontMatterCloses lines = ((lines.map Line.text).drop 1).any isFrontMatterEnd := by
    rw [frontMatterCloses, ← List.map_drop, List.any_map]
    rfl
  rw [hasFrontMatter, hasFrontMatter, hhead, hhead, hcloses, hcloses, h]

/-- A document with lines put in is scanned as its lines with the new ones between. -/
theorem insert_scan (document : Document) (index : ℕ) (texts : List Text) :
    (document.insert index texts).scan =
      scanFrom (hasFrontMatter (document.lines.take index ++ (linesOf document.ending texts ++ document.lines.drop index))) 0
        .body (document.lines.take index ++ (linesOf document.ending texts ++ document.lines.drop index)) := by
  have htexts : (document.insert index texts).lines.map Line.text =
      (document.lines.take index ++ (linesOf document.ending texts ++ document.lines.drop index)).map Line.text := by
    rw [insert_texts, List.map_append, List.map_append, map_text_linesOf, List.map_take, List.map_drop, List.append_assoc]
  rw [scan_eq, hasFrontMatter_congr htexts, scanFrom_congr _ _ _ htexts]

/-- A heading of a note is one of its lines, where the scan stands in the body. -/
theorem heading_split {closes : Bool} {index : ℕ} {state : Scan} {lines : List Line} {heading : HeadingLine}
    (h : heading ∈ (scanFrom closes index state lines).1) :
    ∃ front line back, lines = front ++ line :: back ∧ heading.index = index + front.length ∧
      stateAfter closes index state front = .body ∧ guards closes heading.index .body line.text = false ∧
      parseHeading line.text = some (heading.level, heading.text) := by
  induction lines generalizing index state with
  | nil => cases state <;> cases h
  | cons line rest ih =>
    rw [scanFrom_cons] at h
    rcases List.mem_append.mp h with h | h
    · unfold headingAt at h
      split at h
      · cases h
      · rename_i hguards
        obtain ⟨⟨level, text⟩, hparse, rfl⟩ := List.mem_map.mp h
        have hbody : state = .body := by
          cases state with
          | body => rfl
          | frontMatter => exact absurd rfl hguards
          | fence => exact absurd rfl hguards
        subst hbody
        exact ⟨[], line, rest, rfl, rfl, rfl, by simpa using hguards, by simpa using hparse⟩
    · obtain ⟨front, found, back, rfl, hindex, hstate, hguards, hparse⟩ := ih h
      refine ⟨line :: front, found, back, rfl, ?_, hstate, hguards, hparse⟩
      rw [hindex, List.length_cons]
      omega

theorem heading_line_cons (heading : Heading) : ∃ rest, heading.line = '#' :: rest := by
  have hpos : min (max heading.level 1) 6 = (min (max heading.level 1) 6 - 1) + 1 := by omega
  rw [Heading.line, hpos, List.replicate_succ]
  exact ⟨_, rfl⟩

theorem opensFence_hash (rest : Text) : opensFence ('#' :: rest) = none := by
  simp [opensFence]

theorem parseHeading_pos {text words : Text} {level : ℕ} (h : parseHeading text = some (level, words)) : 1 ≤ level := by
  unfold parseHeading at h
  dsimp only at h
  rw [Option.ite_none_left_eq_some, Option.ite_none_left_eq_some, Option.ite_none_left_eq_some] at h
  obtain ⟨hlevel, -, -, hsome⟩ := h
  obtain ⟨rfl, -⟩ := Prod.mk.inj (Option.some.inj hsome)
  omega

/-- The first heading of a kind comes no later than any other of it. -/
theorem find_heading_le {headings : List HeadingLine} (hsorted : headings.Pairwise fun a b => a.index < b.index)
    {p : HeadingLine → Bool} {heading : HeadingLine} (hmem : heading ∈ headings) (hp : p heading = true) :
    ∃ first, headings.find? p = some first ∧ first.index ≤ heading.index := by
  induction headings with
  | nil => cases hmem
  | cons other rest ih =>
    rw [List.pairwise_cons] at hsorted
    by_cases hother : p other = true
    · refine ⟨other, List.find?_cons_of_pos hother, ?_⟩
      rcases List.mem_cons.mp hmem with rfl | hmem
      · exact le_rfl
      · exact (hsorted.1 heading hmem).le
    · rw [List.find?_cons_of_neg hother]
      rcases List.mem_cons.mp hmem with rfl | hmem
      · exact absurd hp hother
      · exact ih hsorted.2 hmem

theorem trimBlankLines_of_blank {lines : List Line} {start stop : ℕ}
    (h : ∀ i, start ≤ i → i < stop → lines[i]?.any Line.isBlank = true) : trimBlankLines lines start stop ≤ start := by
  induction stop with
  | zero => exact Nat.zero_le _
  | succ stop ih =>
    unfold trimBlankLines
    split
    · exact ih fun i hi hstop => h i hi (by omega)
    · rename_i hnot
      by_contra hlt
      exact hnot ⟨by omega, h stop (by omega) (by omega)⟩

theorem trimBlankEnd_of_blank {document : Document} {start stop : ℕ}
    (h : ∀ i, start ≤ i → i < stop → document.lines[i]?.any Line.isBlank = true) :
    document.trimBlankEnd start stop ≤ start := by
  have hle := trimBlankLines_of_blank h
  unfold Document.trimBlankEnd
  dsimp only
  rw [if_neg (by omega)]
  exact hle

/-- The lines a missing heading takes: itself, a blank line above where one is needed, and one below
where more follows. -/
theorem missingHeading_cases (document : Document) (heading : Heading) :
    (∃ before candidate, (before = [] ∨ before = [[]]) ∧ candidate ∈ document.headings ∧ candidate.level = 1 ∧
        0 < candidate.index ∧ missingHeading document heading = (candidate.index, before ++ [heading.line, []])) ∨
      ∃ before, (before = [] ∨ before = [[]]) ∧
        missingHeading document heading = (document.lines.length, before ++ [heading.line]) := by
  unfold missingHeading
  cases hfind : (document.headings.drop 1).find? fun candidate => candidate.level = 1 with
  | none =>
    refine Or.inr ⟨_, ?_, rfl⟩
    split <;> simp
  | some candidate =>
    have hmem := List.mem_of_find?_eq_some hfind
    have hlevel := List.find?_some hfind
    rw [decide_eq_true_eq] at hlevel
    have hpos : 0 < candidate.index := by
      have hsorted := scanFrom_sorted (hasFrontMatter document.lines) 0 .body document.lines
      rw [← scan_eq] at hsorted
      cases hheadings : document.headings with
      | nil =>
        rw [hheadings] at hmem
        cases hmem
      | cons first rest =>
        rw [← Document.headings, hheadings, List.pairwise_cons] at hsorted
        rw [hheadings] at hmem
        exact Nat.lt_of_le_of_lt (Nat.zero_le _) (hsorted.1 candidate hmem)
    refine Or.inl ⟨_, candidate, ?_, List.mem_of_mem_drop hmem, hlevel, hpos, rfl⟩
    split <;> simp

theorem isFrontMatterEnd_hash (rest : Text) : isFrontMatterEnd ('#' :: rest) = false := by
  simp [isFrontMatterEnd]

/-- The heading among texts of which all but one are empty is that one. -/
theorem created_index {closes : Bool} {index : ℕ} {state : Scan} {ending : Ending} {before after : List Text} {text : Text}
    (hbefore : ∀ t ∈ before, t = []) (hafter : ∀ t ∈ after, t = []) {found : HeadingLine}
    (h : found ∈ (scanFrom closes index state (linesOf ending (before ++ text :: after))).1) :
    found.index = index + before.length := by
  obtain ⟨front, line, back, hlines, hindex, -, -, hparse⟩ := heading_split h
  have hne : line.text ≠ [] := by
    intro hempty
    rw [hempty] at hparse
    cases hparse
  have htexts : before ++ text :: after = front.map Line.text ++ line.text :: back.map Line.text := by
    rw [← map_text_linesOf (before ++ text :: after) ending, hlines, List.map_append, List.map_cons]
  rw [hindex]
  rcases List.append_eq_append_iff.mp htexts with ⟨t, hfront, hrest⟩ | ⟨t, hfront, hrest⟩
  · cases t with
    | nil => rw [← List.length_map Line.text, hfront, List.append_nil]
    | cons x t =>
      have hmem : line.text ∈ after := by
        rw [(List.cons.inj hrest).2]
        simp
      exact absurd (hafter _ hmem) hne
  · cases t with
    | nil => rw [← List.length_map Line.text, hfront, List.append_nil]
    | cons x t =>
      obtain ⟨rfl, -⟩ := List.cons.inj hrest
      have hmem : line.text ∈ before := by
        rw [hfront]
        simp
      exact absurd (hbefore _ hmem) hne

/-- Lines that open nothing leave the scan in the body. -/
theorem stateAfter_plain {closes : Bool} {index : ℕ} (hindex : 0 < index) {lines : List Line}
    (h : ∀ line ∈ lines, opensFence line.text = none) : stateAfter closes index .body lines = .body := by
  induction lines generalizing index with
  | nil => rfl
  | cons line rest ih =>
    have hstep : scanStep closes index .body line.text = .body :=
      scanStep_body (h line List.mem_cons_self) fun hopens => absurd hopens.1 (by omega)
    rw [stateAfter, hstep]
    exact ih (Nat.succ_pos index) fun other hother => h other (List.mem_cons_of_mem _ hother)

/-- The headings of a note are those above a line and those from it on. -/
theorem headings_append {document : Document} {front back : List Line} (h : document.lines = front ++ back) :
    document.headings = (scanFrom (hasFrontMatter document.lines) 0 .body front).1 ++
      (scanFrom (hasFrontMatter document.lines) front.length
        (stateAfter (hasFrontMatter document.lines) 0 .body front) back).1 := by
  rw [Document.headings, scan_eq]
  conv_lhs => rw [h]
  rw [scanFrom_append, Nat.zero_add, ← h]

theorem section_stop_le {document : Document} {found other : HeadingLine} (hother : other ∈ document.headings)
    (hbelow : found.index < other.index) (hlevel : other.level ≤ found.level) :
    (document.sectionOf found).stop ≤ other.index := by
  have hsorted := scanFrom_sorted (hasFrontMatter document.lines) 0 .body document.lines
  rw [← scan_eq] at hsorted
  obtain ⟨first, hfirst, hle⟩ := find_heading_le hsorted (p := fun other => decide (found.index < other.index ∧
    other.level ≤ found.level)) hother (decide_eq_true ⟨hbelow, hlevel⟩)
  have hstop : (document.sectionOf found).stop = ((document.headings.find? fun other =>
      decide (found.index < other.index ∧ other.level ≤ found.level)).map HeadingLine.index).getD
        document.lines.length := rfl
  rw [hstop, Document.headings, hfirst]
  exact hle

/-- The lines a missing heading takes open nothing and end no front matter. -/
theorem created_plain (heading : Heading) (ending : Ending) (before after : List Text) (hbefore : ∀ t ∈ before, t = [])
    (hafter : ∀ t ∈ after, t = []) :
    ∀ line ∈ linesOf ending (before ++ heading.line :: after), isFrontMatterEnd line.text = false ∧
      opensFence line.text = none := by
  intro line hin
  obtain ⟨hashes, hline⟩ := heading_line_cons heading
  obtain ⟨text, htext, rfl⟩ := List.mem_map.mp hin
  rcases List.mem_append.mp htext with htext | htext
  · rw [hbefore text htext]
    exact ⟨rfl, rfl⟩
  · rcases List.mem_cons.mp htext with rfl | htext
    · rw [hline]
      exact ⟨isFrontMatterEnd_hash _, opensFence_hash _⟩
    · rw [hafter text htext]
      exact ⟨rfl, rfl⟩

theorem length_linesOf (ending : Ending) (texts : List Text) : (linesOf ending texts).length = texts.length :=
  List.length_map _

section

variable {prim : Primitives} {document created : Document} {heading : Heading} {before : List Text} {found : HeadingLine}

/-- A heading that goes in right above another has no lines of its own. -/
theorem created_above (hnone : document.resolve prim heading = none) (hbefore : ∀ t ∈ before, t = [])
    {candidate : HeadingLine} (hcandidate : candidate ∈ document.headings) (hone : candidate.level = 1)
    (hpos : 0 < candidate.index) (hcreated : created = document.insert candidate.index (before ++ [heading.line, []]))
    (hfound : created.resolve prim heading = some found) :
    (created.sectionOf found).bodyStop = (created.sectionOf found).start := by
  obtain ⟨hmem, -, -, hnames⟩ := resolveWithin_some hfound
  have hwithin := sectionOf_within hmem
  obtain ⟨front, line, back, hlines, hindex, hstate, -, -⟩ := heading_split (by
    rw [Document.headings, scan_eq] at hcandidate
    exact hcandidate)
  rw [Nat.zero_add] at hindex
  have hfront : front ≠ [] := by
    rintro rfl
    rw [hindex] at hpos
    exact absurd hpos (lt_irrefl 0)
  have hplain := created_plain heading document.ending before [[]] hbefore (by simp)
  have hheadings : created.headings = (scanFrom (hasFrontMatter document.lines) 0 .body front).1 ++
      ((scanFrom (hasFrontMatter document.lines) front.length .body
          (linesOf document.ending (before ++ [heading.line, []]))).1 ++
        (scanFrom (hasFrontMatter document.lines) front.length .body (line :: back)).1.map
          (HeadingLine.shift (before.length + 2))) := by
    have hcut : document.lines.take candidate.index = front ∧ document.lines.drop candidate.index = line :: back := by
      rw [hindex, hlines]
      exact ⟨List.take_left, List.drop_left⟩
    rw [hcreated, Document.headings, insert_scan, hcut.1, hcut.2,
      hasFrontMatter_insert (fun line hin => (hplain line hin).1) fun hnil => absurd hnil hfront, ← hlines]
    rw [scan_insert hstate (stateAfter_plain (List.length_pos_iff.mpr hfront) fun line hin => (hplain line hin).2)
      fun hnil => absurd hnil hfront, length_linesOf]
    simp
  have hold := headings_append hlines
  rw [hstate] at hold
  have hin : found ∈ (scanFrom (hasFrontMatter document.lines) front.length .body
      (linesOf document.ending (before ++ [heading.line, []]))).1 := by
    rw [hheadings] at hmem
    rcases List.mem_append.mp hmem with hmem | hmem
    · exact absurd hnames (resolve_none hnone (by rw [hold]; exact List.mem_append_left _ hmem))
    · rcases List.mem_append.mp hmem with hmem | hmem
      · exact hmem
      · obtain ⟨other, hother, rfl⟩ := List.mem_map.mp hmem
        exact absurd (show Names prim heading other from hnames)
          (resolve_none hnone (by rw [hold]; exact List.mem_append_right _ hother))
  have hfoundIndex := created_index hbefore (by simp) hin
  have hnext : candidate.shift (before.length + 2) ∈ created.headings := by
    rw [hheadings]
    refine List.mem_append_right _ (List.mem_append_right _ (List.mem_map_of_mem ?_))
    rw [hold] at hcandidate
    rcases List.mem_append.mp hcandidate with hcandidate | hcandidate
    · have hbounds := scanFrom_bounds hcandidate
      omega
    · exact hcandidate
  have hlevel : (candidate.shift (before.length + 2)).level ≤ found.level := by
    obtain ⟨-, foundLine, -, -, -, -, -, hparse⟩ := heading_split (by
      rw [Document.headings, scan_eq] at hmem
      exact hmem)
    exact hone.le.trans (parseHeading_pos hparse)
  have hstop := @section_stop_le created found _ hnext
    (show found.index < candidate.index + (before.length + 2) by omega) hlevel
  have hstart : (created.sectionOf found).start = found.index + 1 := rfl
  refine le_antisymm ?_ hwithin.start_le
  refine trimBlankEnd_of_blank fun i hi hlt => ?_
  have hlt : i < (created.sectionOf found).stop := hlt
  have hi : i = front.length + (before.length + 1) := by
    have : (candidate.shift (before.length + 2)).index = candidate.index + (before.length + 2) := rfl
    omega
  have htexts := insert_texts document candidate.index (before ++ [heading.line, []])
  rw [← hcreated, hindex, hlines] at htexts
  have hat : (created.lines.map Line.text)[i]? = some [] := by
    rw [htexts, hi]
    simp
  rw [List.getElem?_map, Option.map_eq_some_iff] at hat
  obtain ⟨blank, hblank, htext⟩ := hat
  rw [hblank]
  simp [Line.isBlank, htext, trim, trimStart, trimEnd]

/-- A heading that goes in at the end of a note has no lines of its own. -/
theorem created_below (hnone : document.resolve prim heading = none) (hbefore : ∀ t ∈ before, t = [])
    (hcreated : created = document.insert document.lines.length (before ++ [heading.line]))
    (hfound : created.resolve prim heading = some found) :
    (created.sectionOf found).bodyStop = (created.sectionOf found).start := by
  obtain ⟨hmem, -, -, hnames⟩ := resolveWithin_some hfound
  have hwithin := sectionOf_within hmem
  have hcut : document.lines.take document.lines.length = document.lines ∧
      document.lines.drop document.lines.length = [] := ⟨List.take_length, List.drop_length⟩
  have hplain := created_plain heading document.ending before [] hbefore (by simp)
  have hheadings : created.headings = document.headings ++
      (scanFrom (hasFrontMatter document.lines) document.lines.length
        (stateAfter (hasFrontMatter document.lines) 0 .body document.lines)
          (linesOf document.ending (before ++ [heading.line]))).1 := by
    rw [hcreated, Document.headings, insert_scan, hcut.1, hcut.2,
      hasFrontMatter_insert (fun line hin => (hplain line hin).1) fun _ => rfl, List.append_nil, List.append_nil,
      scanFrom_append, Nat.zero_add, Document.headings, scan_eq]
  have hin : found ∈ (scanFrom (hasFrontMatter document.lines) document.lines.length
      (stateAfter (hasFrontMatter document.lines) 0 .body document.lines)
        (linesOf document.ending (before ++ [heading.line]))).1 := by
    rw [hheadings] at hmem
    rcases List.mem_append.mp hmem with hmem | hmem
    · exact absurd hnames (resolve_none hnone hmem)
    · exact hmem
  have hfoundIndex := created_index hbefore (show ∀ t ∈ [], t = [] by simp) hin
  have hcount : created.lines.length = document.lines.length + (before.length + 1) := by
    have htexts := congrArg List.length (insert_texts document document.lines.length (before ++ [heading.line]))
    rw [← hcreated] at htexts
    simp at htexts
    omega
  have hstart : (created.sectionOf found).start = found.index + 1 := rfl
  have := hwithin.start_le
  have := hwithin.body_le
  have := hwithin.stop_le
  omega

/-- The section of a heading that was just created has no lines yet. -/
theorem created_empty (hnone : document.resolve prim heading = none)
    (hcreated : created = document.insert (missingHeading document heading).1 (missingHeading document heading).2)
    (hfound : created.resolve prim heading = some found) :
    (created.sectionOf found).bodyStop = (created.sectionOf found).start := by
  have hempty : ∀ {texts : List Text}, texts = [] ∨ texts = [[]] → ∀ t ∈ texts, t = [] := by
    rintro texts (rfl | rfl) t ht
    · cases ht
    · exact List.mem_singleton.mp ht
  rcases missingHeading_cases document heading with ⟨before, candidate, hbefore, hcandidate, hone, hpos, hmissing⟩ |
    ⟨before, hbefore, hmissing⟩
  · rw [hmissing] at hcreated
    exact created_above hnone (hempty hbefore) hcandidate hone hpos hcreated hfound
  · rw [hmissing] at hcreated
    exact created_below hnone (hempty hbefore) hcreated hfound

end

end Thock.SyncCore
