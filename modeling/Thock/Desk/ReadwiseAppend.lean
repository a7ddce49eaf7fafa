import Thock.Desk.ReadwiseMarkers

/-!
# Putting lines into a note

A note that lines were put into keeps its source's id and every marker it had, gains the
markers of those lines, and no others: lines go in where one line ends and the next begins, and
no marker the scan reads runs over such a place.
-/

namespace Thock.Desk.Readwise

open TextScan SyncCore SyncCore.Reminder

/-! ## The front matter -/

theorem readwiseIdOfLine_nil : readwiseIdOfLine [] = none := by decide

/-- The carriage return at the end of a line does not matter. -/
theorem readwiseIdOfLine_chomp (line : Text) : readwiseIdOfLine (chomp line) = readwiseIdOfLine line := by
  unfold chomp
  cases hsuffix : stripSuffix ['\r'] line with
  | none => rfl
  | some front =>
    obtain rfl := stripSuffix_eq_some.mp hsuffix
    rw [Option.getD_some]
    unfold readwiseIdOfLine
    cases hfront : stripPrefix "readwise_id:".toList front with
    | some rest =>
      have hwhole : stripPrefix "readwise_id:".toList (front ++ ['\r']) = some (rest ++ ['\r']) := by
        rw [stripPrefix_eq_some] at hfront ⊢
        rw [hfront, List.append_assoc]
      rw [hwhole, Option.bind_some, Option.bind_some, trim_append_of_blank (by decide)]
    | none =>
      have hwhole : stripPrefix "readwise_id:".toList (front ++ ['\r']) = none := by
        cases h : stripPrefix "readwise_id:".toList (front ++ ['\r']) with
        | none => rfl
        | some rest =>
          have hrest := stripPrefix_eq_some.mp h
          rcases List.eq_nil_or_concat rest with rfl | ⟨rest, c, rfl⟩
          · have hlast := congrArg List.getLast? hrest
            rw [List.append_nil, List.getLast?_concat] at hlast
            exact absurd hlast (by decide)
          · rw [List.concat_eq_append, ← List.append_assoc] at hrest
            rw [stripPrefix_eq_some.mpr (List.append_inj_left' hrest rfl)] at hfront
            cases hfront
      rw [hwhole]

/-- The id may as well be read from the pieces between line feeds. -/
theorem findSome?_lines (t : Text) : (lines t).findSome? readwiseIdOfLine = (pieces t).findSome? readwiseIdOfLine := by
  have hmap : ∀ ls : List Text, (ls.map chomp).findSome? readwiseIdOfLine = ls.findSome? readwiseIdOfLine := by
    intro ls
    rw [List.findSome?_map]
    congr 1
    funext line
    exact readwiseIdOfLine_chomp line
  unfold lines
  rcases List.eq_nil_or_concat (pieces t) with hnil | ⟨front, last, hpieces⟩
  · rw [hnil]
    rfl
  · rw [hpieces, List.concat_eq_append, List.dropLast_concat, List.getLast?_concat, List.findSome?_append,
      List.findSome?_append, hmap]
    cases last with
    | nil => rw [List.findSome?_singleton, readwiseIdOfLine_nil, List.findSome?_nil]
    | cons c rest => rfl

/-- The id a front matter names. -/
def readwiseIdIn (frontmatter : Text) : Option UInt64 := (pieces frontmatter).findSome? readwiseIdOfLine

theorem noteReadwiseId_eq (rest : Text) :
    noteReadwiseId ("---\n".toList ++ rest) = (splitFirst "\n---".toList rest).bind fun r => readwiseIdIn r.1 := by
  unfold noteReadwiseId
  rw [stripPrefix_eq_some.mpr rfl, Option.bind_some]
  congr 1
  funext r
  exact findSome?_lines r.1

/-- A text that no line of a front matter is read from, put in between lines. -/
def NoFrontMatter (block : Text) : Prop := ∀ start ∈ frontMatterStarts, ¬('\n' :: start) <:+: '\n' :: block

/-- A line follows a line feed in the joined text, or begins it. -/
theorem line_isInfix {ls : List Text} {line : Text} (h : line ∈ ls) : '\n' :: line <:+: '\n' :: joinLines ls := by
  induction ls with
  | nil => cases h
  | cons first rest ih =>
    cases rest with
    | nil =>
      rw [List.mem_singleton.mp h, joinLines, List.intercalate_singleton]
    | cons next rest =>
      have hjoin : '\n' :: joinLines (first :: next :: rest) = ('\n' :: first) ++ '\n' :: joinLines (next :: rest) := by
        simp [joinLines, List.intercalate, List.intersperse]
      rw [hjoin]
      rcases List.mem_cons.mp h with rfl | h
      · exact (List.prefix_append _ _).isInfix
      · exact (ih h).trans (List.suffix_append _ _).isInfix

theorem readwiseIdIn_of_noFrontMatter {block : Text} (h : NoFrontMatter block) : readwiseIdIn block = none := by
  refine List.findSome?_eq_none_iff.mpr fun piece hpiece => ?_
  have hmid := line_isInfix hpiece
  rw [show joinLines (pieces block) = block from List.intercalate_splitOn '\n'] at hmid
  unfold readwiseIdOfLine
  cases hstart : stripPrefix "readwise_id:".toList piece with
  | none => rfl
  | some rest =>
    refine absurd (List.IsInfix.trans ?_ hmid) (h "readwise_id:".toList (by decide))
    rw [stripPrefix_eq_some.mp hstart, ← List.cons_append]
    exact (List.prefix_append _ _).isInfix

theorem readwiseIdIn_append (a b : Text) : readwiseIdIn (a ++ '\n' :: b) = (readwiseIdIn a).or (readwiseIdIn b) := by
  rw [readwiseIdIn, pieces_append_newline, List.findSome?_append]
  rfl

theorem newline_pattern : "\n---".toList = '\n' :: "---".toList := by decide

/-- Lines put in after a line of a note leave it the note of the same source. -/
theorem noteReadwiseId_insert (front back : Text) {block : Text} (hblock : NoFrontMatter block) :
    noteReadwiseId ("---\n".toList ++ (front ++ '\n' :: (block ++ '\n' :: back))) =
      noteReadwiseId ("---\n".toList ++ (front ++ '\n' :: back)) := by
  rw [noteReadwiseId_eq, noteReadwiseId_eq, newline_pattern]
  by_cases hfront : ('\n' :: "---".toList) <:+: front
  · rw [splitFirst_of_isInfix hfront, splitFirst_of_isInfix hfront]
    cases splitFirst ('\n' :: "---".toList) front <;> rfl
  · have hlines : ¬('\n' :: "---".toList) <:+: front ++ '\n' :: block := by
      rw [infix_apart (apart_head (by decide) front block)]
      exact not_or.mpr ⟨hfront, hblock "---".toList (by decide)⟩
    have hwhole : front ++ '\n' :: (block ++ '\n' :: back) = (front ++ '\n' :: block) ++ '\n' :: back := by simp
    rw [hwhole, splitFirst_apart hlines (apart_head (by decide) _ back),
      splitFirst_apart hfront (apart_head (by decide) front back)]
    cases hsplit : splitFirst ('\n' :: "---".toList) ('\n' :: back) with
    | none => rfl
    | some r =>
      rw [Option.map_some, Option.map_some, Option.bind_some, Option.bind_some]
      have hr := @splitFirst_eq _ _ r.1 r.2 hsplit
      cases hfirst : r.1 with
      | nil =>
        rw [List.append_nil, List.append_nil, readwiseIdIn_append, readwiseIdIn_of_noFrontMatter hblock, Option.or_none]
      | cons c rest =>
        rw [hfirst] at hr
        obtain rfl := (List.cons.inj hr).1
        have hinner : front ++ '\n' :: block ++ '\n' :: rest = front ++ '\n' :: (block ++ '\n' :: rest) := by simp
        rw [hinner, readwiseIdIn_append, readwiseIdIn_append, readwiseIdIn_append, readwiseIdIn_of_noFrontMatter hblock,
          Option.none_or]

/-- What is put at the end of a synced note leaves it the note of the same source. -/
theorem noteReadwiseId_append {content : Text} {id : UInt64} (h : noteReadwiseId content = some id) (more : Text) :
    noteReadwiseId (content ++ more) = some id := by
  have hstart : ∃ rest, content = "---\n".toList ++ rest := by
    unfold noteReadwiseId at h
    cases hstrip : stripPrefix "---\n".toList content with
    | none =>
      rw [hstrip] at h
      cases h
    | some rest => exact ⟨rest, stripPrefix_eq_some.mp hstrip⟩
  obtain ⟨rest, rfl⟩ := hstart
  rw [List.append_assoc, noteReadwiseId_eq]
  rw [noteReadwiseId_eq] at h
  cases hsplit : splitFirst "\n---".toList rest with
  | none =>
    rw [hsplit] at h
    cases h
  | some r =>
    have hmid : "\n---".toList <:+: rest := ⟨r.1, r.2, (@splitFirst_eq _ _ r.1 r.2 hsplit).symm⟩
    rw [hsplit] at h
    rw [splitFirst_of_isInfix hmid, hsplit]
    exact h

theorem no_newline_cleanText (text : Text) : '\n' ∉ cleanText text := by
  intro h
  rcases mem_intercalate h with h | ⟨word, hword, h⟩
  · exact absurd h (by decide)
  · exact absurd (not_of_mem_splitOnP (List.mem_filter.mp hword).1 '\n' h) (by decide)

/-! ## The lines of a highlight -/

/-- Lines as they are put into a note: a bullet, whole lines, none of them taken for a line of the front matter. -/
structure Bullet (text : Text) : Prop where
  dash : ∃ rest, text = "- ".toList ++ rest
  ended : ∃ front, text = front ++ ['\n']
  plain : NoFrontMatter text

theorem noFrontMatter_nil : NoFrontMatter [] := by
  unfold NoFrontMatter
  decide

/-- Whole lines, or none. -/
def Ended (text : Text) : Prop := text = [] ∨ ∃ front, text = front ++ ['\n']

theorem Ended.append {a b : Text} (ha : Ended a) (hb : Ended b) : Ended (a ++ b) := by
  rcases hb with rfl | ⟨front, rfl⟩
  · rwa [List.append_nil]
  · exact Or.inr ⟨a ++ front, by rw [List.append_assoc]⟩

theorem NoFrontMatter.append {a b : Text} (ha : NoFrontMatter a) (hended : Ended a) (hb : NoFrontMatter b) :
    NoFrontMatter (a ++ b) := by
  rcases hended with rfl | ⟨front, rfl⟩
  · exact hb
  · intro start hstart
    have hnewline : '\n' ∉ start := by
      revert start
      decide
    have hwhole : '\n' :: (front ++ ['\n'] ++ b) = ('\n' :: front) ++ '\n' :: b := by simp
    rw [hwhole, infix_apart (apart_head hnewline _ _)]
    refine not_or.mpr ⟨fun hmid => ha start hstart (hmid.trans ?_), hb start hstart⟩
    rw [← List.cons_append]
    exact (List.prefix_append _ _).isInfix

/-- A line with its line feed, whose own text holds none, is taken for a front matter line by its start alone. -/
theorem noFrontMatter_line {line : Text} (hline : '\n' ∉ line) (hstart : ∀ start ∈ frontMatterStarts, ¬start <+: line) :
    NoFrontMatter (line ++ ['\n']) := by
  intro start hmem
  have hnewline : '\n' ∉ start ∧ start ≠ [] := by
    revert start
    decide
  rw [← List.cons_append, infix_apart (apart_head hnewline.1 _ _), infix_cons_of_not_mem hline,
    infix_cons_of_not_mem List.not_mem_nil, List.prefix_nil]
  exact not_or.mpr ⟨hstart start hmem, hnewline.2⟩

theorem no_newline_tagList {tags : List Text} {text : Text} (h : tagList tags = some text) : '\n' ∉ text := by
  unfold tagList at h
  simp only at h
  split at h
  · cases h
  · obtain rfl := Option.some.inj h
    intro hmem
    rcases mem_intercalate hmem with hmem | ⟨tag, htag, hmem⟩
    · exact absurd hmem (by decide)
    · obtain ⟨tag, hkept, rfl⟩ := List.mem_map.mp htag
      obtain ⟨raw, -, rfl⟩ := List.mem_map.mp (List.mem_filter.mp hkept).1
      rcases List.mem_cons.mp hmem with hmem | hmem
      · exact absurd hmem (by decide)
      · obtain ⟨c, hc, hnewline⟩ := List.mem_map.mp hmem
        split at hnewline
        · exact absurd hnewline (by decide)
        · rw [hnewline] at hc
          exact no_newline_cleanText raw hc

/-- A labelled line of a highlight is whole and is not a line of the front matter. -/
theorem noFrontMatter_lineOf (label : Text) (text : Option Text) (hlabel : ∃ rest, label = "    ".toList ++ rest)
    (hplain : '\n' ∉ label) (htext : ∀ t ∈ text, '\n' ∉ t) :
    NoFrontMatter (lineOf label text ['\n']) ∧ Ended (lineOf label text ['\n']) := by
  unfold lineOf
  cases hkept : text.filter fun t => !t.isEmpty with
  | none => exact ⟨noFrontMatter_nil, Or.inl rfl⟩
  | some t =>
    rw [Option.elim_some, ← List.append_assoc]
    refine ⟨noFrontMatter_line ?_ ?_, Or.inr ⟨_, rfl⟩⟩
    · rw [List.mem_append]
      exact not_or.mpr ⟨hplain, htext t (Option.eq_some_of_filter_eq_some hkept)⟩
    · obtain ⟨rest, rfl⟩ := hlabel
      have hstarts : ∀ start ∈ frontMatterStarts, start.head? ≠ some ' ' ∧ start ≠ [] := by decide
      intro start hstart ⟨more, hmore⟩
      have hfirst := hstarts start hstart
      obtain ⟨c, start, rfl⟩ := List.exists_cons_of_ne_nil hfirst.2
      rw [List.append_assoc] at hmore
      exact hfirst.1 (congrArg some (List.cons.inj hmore).1)

theorem no_newline_marker (id : UInt64) (day : Option Day) : '\n' ∉ highlightMarker id day := by
  rw [highlightMarker, List.mem_append, List.mem_append]
  exact not_or.mpr ⟨by decide, not_or.mpr ⟨not_mem_markerInner (by decide) (by decide) id day, by decide⟩⟩

theorem CleanHighlight.bullet {highlight : ReadwiseHighlight} {source : ReadwiseSource}
    (h : CleanHighlight highlight source) (calendar : Calendar) : Bullet (renderHighlight calendar highlight source) := by
  have hnote := noFrontMatter_lineOf "    - Note: ".toList (highlight.note.map cleanText)
    ⟨"- Note: ".toList, by decide⟩ (by decide) fun t ht => by
      obtain ⟨note, -, rfl⟩ := Option.map_eq_some_iff.mp ht
      exact no_newline_cleanText note
  have htags := noFrontMatter_lineOf "    - Tags: ".toList (tagList highlight.tags)
    ⟨"- Tags: ".toList, by decide⟩ (by decide) fun t ht => no_newline_tagList ht
  -- The place of the highlight is the only outside text of its line that may hold line feeds.
  have hplace : ∀ start ∈ frontMatterStarts, ¬('\n' :: start) <:+: cleanText highlight.text ++
      (locationLabel highlight source).elim [] fun location => " (".toList ++ (location ++ [')']) := by
    intro start hstart
    have hsep : ' ' ∉ '\n' :: start ∧ '(' ∉ '\n' :: start ∧ ')' ∉ '\n' :: start := by
      revert start
      decide
    have hclean : ¬('\n' :: start) <:+: cleanText highlight.text :=
      not_infix_of_not_mem List.mem_cons_self (no_newline_cleanText _)
    have hnil : ¬('\n' :: start) <:+: [] := by simp
    cases hlabel : locationLabel highlight source with
    | none =>
      rw [Option.elim_none, List.append_nil]
      exact hclean
    | some location =>
      have hlocation := (h.location location hlabel).2 start hstart
      have hparen : " (".toList ++ (location ++ [')']) = ' ' :: ([] ++ '(' :: (location ++ [')'])) := by
        simp
      rw [Option.elim_some, hparen, infix_sep hsep.1, infix_sep hsep.2.1, infix_sep hsep.2.2]
      exact not_or.mpr ⟨hclean, not_or.mpr ⟨hnil, not_or.mpr ⟨hlocation, hnil⟩⟩⟩
  have hfirst : NoFrontMatter ("- ".toList ++ (cleanText highlight.text ++ (locationLabel highlight source).elim []
      fun location => " (".toList ++ (location ++ [')'])) ++
        ' ' :: (highlightMarker highlight.id (highlight.day calendar) ++ ['\n'])) := by
    intro start hstart
    have hsep : ' ' ∉ '\n' :: start ∧ start ≠ [] ∧ '\n' ∉ start ∧ ¬('\n' :: start) <:+: ['\n', '-'] := by
      revert start
      decide
    rw [← List.cons_append, infix_sep hsep.1]
    refine not_or.mpr ⟨?_, ?_⟩
    · have hdash : '\n' :: ("- ".toList ++ (cleanText highlight.text ++ (locationLabel highlight source).elim []
          fun location => " (".toList ++ (location ++ [')']))) = ['\n', '-'] ++ ' ' :: (cleanText highlight.text ++
            (locationLabel highlight source).elim [] fun location => " (".toList ++ (location ++ [')'])) := by
        simp
      rw [hdash, infix_sep hsep.1]
      exact not_or.mpr ⟨hsep.2.2.2, hplace start hstart⟩
    · rw [infix_apart (apart_head hsep.2.2.1 _ _), infix_cons_of_not_mem List.not_mem_nil, List.prefix_nil]
      exact not_or.mpr ⟨not_infix_of_not_mem List.mem_cons_self (no_newline_marker _ _), hsep.2.1⟩
  have hend : ∃ front, renderHighlight calendar highlight source = front ++ ['\n'] := by
    have hended : Ended (renderHighlight calendar highlight source) := by
      unfold renderHighlight
      exact Ended.append (Or.inr ⟨_, by rw [← List.cons_append, ← List.append_assoc]⟩)
        (hnote.2.append (htags.2.append (Or.inl rfl)))
    exact hended.resolve_left fun hnil => (nomatch hnil)
  have hfirstEnded : Ended ("- ".toList ++ (cleanText highlight.text ++ (locationLabel highlight source).elim []
      fun location => " (".toList ++ (location ++ [')'])) ++
        ' ' :: (highlightMarker highlight.id (highlight.day calendar) ++ ['\n'])) :=
    Or.inr ⟨_, by rw [← List.cons_append, ← List.append_assoc]⟩
  exact ⟨⟨_, rfl⟩, hend, hfirst.append hfirstEnded (hnote.1.append hnote.2 (htags.1.append htags.2 noFrontMatter_nil))⟩

theorem bullet_flatten {lines : List Text} (hne : lines ≠ []) (h : ∀ line ∈ lines, Bullet line) : Bullet lines.flatten := by
  induction lines with
  | nil => exact absurd rfl hne
  | cons line rest ih =>
    rw [List.forall_mem_cons] at h
    obtain ⟨text, rfl⟩ := h.1.dash
    cases rest with
    | nil => simpa using h.1
    | cons next rest =>
      have hrest := ih (List.cons_ne_nil _ _) h.2
      obtain ⟨front, hfront⟩ := hrest.ended
      refine ⟨⟨text ++ (next :: rest).flatten, by simp⟩, ⟨"- ".toList ++ text ++ front, ?_⟩, ?_⟩
      · rw [List.flatten_cons, hfront, List.append_assoc]
        simp
      · rw [List.flatten_cons]
        exact h.1.plain.append (Or.inr h.1.ended) hrest.plain

/-! ## Where lines go in -/

theorem flatten_inclusiveLines (text : Text) : (inclusiveLines text).flatten = text := by
  induction text with
  | nil => rfl
  | cons c rest ih =>
    rw [inclusiveLines]
    split
    · rw [List.flatten_cons, ih, ‹c = '\n'›]
      rfl
    · split
      · rw [‹inclusiveLines rest = []›] at ih
        rw [← ih]
        rfl
      · rw [‹inclusiveLines rest = _›] at ih
        rw [← ih]
        simp

theorem ne_nil_of_mem_inclusiveLines {text segment : Text} (h : segment ∈ inclusiveLines text) : segment ≠ [] := by
  induction text generalizing segment with
  | nil => cases h
  | cons c rest ih =>
    rw [inclusiveLines] at h
    split at h
    · rcases List.mem_cons.mp h with rfl | h
      · exact List.cons_ne_nil _ _
      · exact ih h
    · split at h
      · rw [List.mem_singleton.mp h]
        exact List.cons_ne_nil _ _
      · rename_i line more hlines
        rcases List.mem_cons.mp h with rfl | h
        · exact List.cons_ne_nil _ _
        · exact ih (by rw [hlines]; exact List.mem_cons_of_mem _ h)

/-- The first lines of a text end in a line feed where more follows. -/
theorem take_inclusiveLines (text : Text) (k : ℕ) :
    ((inclusiveLines text).drop k).flatten = [] ∨ Ended ((inclusiveLines text).take k).flatten := by
  induction text generalizing k with
  | nil => exact Or.inl (by simp [inclusiveLines])
  | cons c rest ih =>
    cases k with
    | zero => exact Or.inr (Or.inl rfl)
    | succ k =>
      rw [inclusiveLines]
      split
      · rename_i hc
        rcases ih k with hback | hfront
        · exact Or.inl hback
        · exact Or.inr (Ended.append (Or.inr ⟨[], by rw [hc]; rfl⟩) hfront)
      · split
        · exact Or.inl (by simp)
        · rename_i line more hlines
          rcases ih (k + 1) with hback | hfront | ⟨front, hfront⟩
          · rw [hlines] at hback
            exact Or.inl hback
          · rw [hlines, List.take_succ_cons, List.flatten_cons, List.append_eq_nil_iff] at hfront
            exact absurd hfront.1 (ne_nil_of_mem_inclusiveLines (by rw [hlines]; exact List.mem_cons_self))
          · rw [hlines, List.take_succ_cons, List.flatten_cons] at hfront
            exact Or.inr (Or.inr ⟨c :: front, by simp [hfront]⟩)

/-- Below the heading, the last line that is not blank ends after so many lines more. -/
theorem sectionEnds_below (segments : List Text) (offset headingEnd : ℕ) (last : Option ℕ) :
    ∃ last', sectionEnds segments offset (some headingEnd) last = (some headingEnd, last') ∧
      (last' = last ∨ ∃ k ≤ segments.length, last' = some (offset + (segments.take k).flatten.length)) := by
  induction segments generalizing offset last with
  | nil => exact ⟨last, rfl, Or.inl rfl⟩
  | cons segment rest ih =>
    have hcons : sectionEnds (segment :: rest) offset (some headingEnd) last =
        if (headingLevel (lineContent segment)).any (· ≤ 2) then (some headingEnd, last)
        else sectionEnds rest (offset + segment.length) (some headingEnd)
          (if (trim (lineContent segment)).isEmpty then last else some (offset + segment.length)) := rfl
    rw [hcons]
    by_cases hlevel : ((headingLevel (lineContent segment)).any (· ≤ 2)) = true
    · rw [if_pos hlevel]
      exact ⟨last, rfl, Or.inl rfl⟩
    · rw [if_neg hlevel]
      by_cases hblank : (trim (lineContent segment)).isEmpty = true
      · rw [if_pos hblank]
        obtain ⟨last', heq, hlast⟩ := ih (offset + segment.length) last
        refine ⟨last', heq, hlast.imp_right ?_⟩
        rintro ⟨k, hk, rfl⟩
        exact ⟨k + 1, Nat.succ_le_succ hk, by simp [Nat.add_assoc]⟩
      · rw [if_neg hblank]
        obtain ⟨last', heq, hlast⟩ := ih (offset + segment.length) (some (offset + segment.length))
        refine ⟨last', heq, Or.inr ?_⟩
        rcases hlast with rfl | ⟨k, hk, rfl⟩
        · exact ⟨1, Nat.succ_le_succ (Nat.zero_le _), by simp⟩
        · exact ⟨k + 1, Nat.succ_le_succ hk, by simp [Nat.add_assoc]⟩

/-- Lines go in after so many lines, the section's heading among them. -/
theorem sectionEnds_anchor {segments : List Text} {offset headingEnd : ℕ} {last : Option ℕ}
    (h : sectionEnds segments offset none none = (some headingEnd, last)) :
    ∃ i segment k, segments[i]? = some segment ∧ isHighlightsHeading (lineContent segment) = true ∧ i < k ∧
      last.getD headingEnd = offset + (segments.take k).flatten.length := by
  induction segments generalizing offset with
  | nil => cases h
  | cons segment rest ih =>
    rw [sectionEnds] at h
    by_cases hheading : isHighlightsHeading (lineContent segment) = true
    · rw [if_pos hheading] at h
      obtain ⟨last', heq, hlast⟩ := sectionEnds_below rest (offset + segment.length) (offset + segment.length) none
      rw [heq] at h
      cases h
      rcases hlast with rfl | ⟨k, hk, rfl⟩
      · exact ⟨0, segment, 1, rfl, hheading, Nat.zero_lt_one, by simp⟩
      · exact ⟨0, segment, k + 1, rfl, hheading, Nat.succ_pos k, by simp [Nat.add_assoc]⟩
    · rw [if_neg hheading] at h
      obtain ⟨i, found, k, hfound, hline, hik, hanchor⟩ := ih h
      exact ⟨i + 1, found, k + 1, hfound, hline, Nat.succ_lt_succ hik, by
        rw [hanchor]
        simp [Nat.add_assoc]⟩

theorem applyEdits_insert {text : Text} {anchor : ℕ} (h : anchor ≤ text.length) (newText : Text) :
    applyEdits text [⟨⟨anchor, anchor⟩, newText⟩] = text.take anchor ++ (newText ++ text.drop anchor) := by
  have hrange : anchor ≤ anchor ∧ anchor ≤ text.length := ⟨le_rfl, h⟩
  rw [applyEdits, List.insertionSort_cons, List.insertionSort_nil, List.orderedInsert_nil, List.foldl_cons,
    List.foldl_nil, if_pos hrange, List.append_assoc]

/-- What may stand between a note's text and the lines put in. -/
def landingGaps : List Text :=
  ["", "\n", "## Highlights\n", "\n## Highlights\n", "\n\n## Highlights\n"].map String.toList

/-- A block put into a text where one of its lines ends, after a gap where need be. -/
structure Lands (text block new front gap back : Text) : Prop where
  split : text = front ++ back
  result : new = front ++ (gap ++ (block ++ back))
  gaps : gap ∈ landingGaps
  ended : gap = [] → Ended front
  inner : back ≠ [] → gap = [] ∧ ∀ rest, text = "---\n".toList ++ rest → ∃ x, front = "---\n".toList ++ (x ++ ['\n'])

/-- The first line of a note with front matter. -/
theorem inclusiveLines_frontMatter (rest : Text) :
    inclusiveLines ("---\n".toList ++ rest) = "---\n".toList :: inclusiveLines rest := by
  have hopening : "---\n".toList = ['-', '-', '-', '\n'] := by decide
  rw [hopening]
  rfl

/-- Lines are put in below the section's heading, or at the end of the text below a heading of their own. -/
theorem append_lands (text : Text) (lines : List Text) :
    ∃ front gap back, Lands text lines.flatten (applyEdits text [appendHighlightsEdit text lines]) front gap back := by
  cases hends : sectionEnds (inclusiveLines text) 0 none none with
  | mk headingEnd last =>
    cases headingEnd with
    | none =>
      have hedit : appendHighlightsEdit text lines = ⟨⟨text.length, text.length⟩,
          (headingGap text ++ "## ".toList ++ highlightsHeading ++ ['\n']) ++ lines.flatten⟩ := by
        unfold appendHighlightsEdit
        rw [hends]
      have hgap : headingGap text ++ "## ".toList ++ highlightsHeading ++ ['\n'] ∈
          landingGaps.filter fun gap => !gap.isEmpty := by
        unfold headingGap
        split
        · decide
        · split
          · decide
          · split <;> decide
      have hmem := List.mem_filter.mp hgap
      refine ⟨text, _, [], by simp, ?_, hmem.1, fun hnil => ?_, fun hback => absurd rfl hback⟩
      · rw [hedit, applyEdits_insert le_rfl, List.take_length, List.drop_length, List.append_assoc]
      · rw [hnil] at hmem
        exact absurd hmem.2 (by decide)
    | some headingEnd =>
      obtain ⟨i, segment, k, hsegment, hheading, hik, hanchor⟩ := sectionEnds_anchor hends
      obtain ⟨front, hfront⟩ : ∃ front, front = ((inclusiveLines text).take k).flatten := ⟨_, rfl⟩
      obtain ⟨back, hback⟩ : ∃ back, back = ((inclusiveLines text).drop k).flatten := ⟨_, rfl⟩
      have htext : text = front ++ back := by
        rw [hfront, hback, ← List.flatten_append, List.take_append_drop, flatten_inclusiveLines]
      rw [Nat.zero_add, ← hfront] at hanchor
      have hle : last.getD headingEnd ≤ text.length := by
        rw [hanchor, htext, List.length_append]
        exact Nat.le_add_right _ _
      have htake : text.take (last.getD headingEnd) = front := by
        rw [hanchor, htext, List.take_left]
      have hdrop : text.drop (last.getD headingEnd) = back := by
        rw [hanchor, htext, List.drop_left]
      have hedit : appendHighlightsEdit text lines = ⟨⟨last.getD headingEnd, last.getD headingEnd⟩,
          (if ['\n'].isSuffixOf front then [] else ['\n']) ++ lines.flatten⟩ := by
        unfold appendHighlightsEdit
        rw [hends]
        simp only [htake]
      refine ⟨front, if ['\n'].isSuffixOf front then [] else ['\n'], back, htext, ?_, ?_, fun hgap => ?_, fun hmore => ?_⟩
      · rw [hedit, applyEdits_insert hle, htake, hdrop, List.append_assoc]
      · split <;> decide
      · by_cases hsuffix : ['\n'].isSuffixOf front = true
        · obtain ⟨x, hx⟩ := List.isSuffixOf_iff_suffix.mp hsuffix
          exact Or.inr ⟨x, hx.symm⟩
        · rw [if_neg hsuffix] at hgap
          cases hgap
      · obtain ⟨first, others, hsegments⟩ : ∃ first others, inclusiveLines text = first :: others := by
          cases hlines : inclusiveLines text with
          | nil =>
            rw [hlines] at hsegment
            cases hsegment
          | cons first others => exact ⟨first, others, rfl⟩
        obtain ⟨k, rfl⟩ : ∃ k', k = k' + 1 := ⟨k - 1, by omega⟩
        have hended : ∃ x, front = x ++ ['\n'] := by
          have h := (take_inclusiveLines text (k + 1)).resolve_left (by rwa [← hback])
          rw [← hfront] at h
          refine h.resolve_left fun hnil => ?_
          rw [hfront, hsegments, List.take_succ_cons, List.flatten_cons, List.append_eq_nil_iff] at hnil
          exact ne_nil_of_mem_inclusiveLines (by rw [hsegments]; exact List.mem_cons_self) hnil.1
        obtain ⟨x, hx⟩ := hended
        have hsuffix : ['\n'].isSuffixOf front = true := List.isSuffixOf_iff_suffix.mpr ⟨x, hx.symm⟩
        refine ⟨if_pos hsuffix, fun rest hrest => ?_⟩
        have hlines := inclusiveLines_frontMatter rest
        rw [← hrest] at hlines
        -- The opening of the front matter is not the section's heading, so a line below it stands before the place.
        rw [hlines] at hsegment hfront
        cases i with
        | zero =>
          obtain rfl := Option.some.inj hsegment
          exact absurd hheading (by decide)
        | succ i =>
          obtain ⟨k, rfl⟩ : ∃ k', k = k' + 1 := ⟨k - 1, by omega⟩
          rw [List.take_succ_cons, List.flatten_cons] at hfront
          have hbelow : ((inclusiveLines rest).take (k + 1)).flatten ≠ [] := by
            cases hothers : inclusiveLines rest with
            | nil =>
              rw [hothers] at hsegment
              cases hsegment
            | cons second more =>
              rw [List.take_succ_cons, List.flatten_cons]
              exact fun hnil => ne_nil_of_mem_inclusiveLines (by rw [hothers]; exact List.mem_cons_self)
                (List.append_eq_nil_iff.mp hnil).1
          rcases List.eq_nil_or_concat ((inclusiveLines rest).take (k + 1)).flatten with hnil | ⟨y, c, hy⟩
          · exact absurd hnil hbelow
          · rw [List.concat_eq_append] at hy
            have hlast := congrArg List.getLast? (hx.symm.trans hfront)
            rw [hy, ← List.append_assoc, List.getLast?_concat, List.getLast?_concat] at hlast
            exact ⟨y, by rw [hfront, hy, Option.some.inj hlast]⟩

/-! ## What a note keeps and gains -/

theorem Lands.isInfix {text block new front gap back p : Text} (h : Lands text block new front gap back)
    (hp : '\n' ∉ p) (hmid : p <:+: text) : p <:+: new := by
  have hfront : front <:+: new := by
    rw [h.result]
    exact (List.prefix_append _ _).isInfix
  have hback : back <:+: new := by
    rw [h.result, ← List.append_assoc, ← List.append_assoc]
    exact (List.suffix_append _ _).isInfix
  rw [h.split] at hmid
  by_cases hnil : back = []
  · rw [hnil, List.append_nil] at hmid
    exact hmid.trans hfront
  · have hapart : Apart p front back := by
      rcases h.ended (h.inner hnil).1 with rfl | ⟨x, rfl⟩
      · exact apart_nil _ _
      · exact apart_concat hp x back
    rcases (infix_apart hapart).mp hmid with hmid | hmid
    · exact hmid.trans hfront
    · exact hmid.trans hback

theorem Lands.block_isInfix {text block new front gap back : Text} (h : Lands text block new front gap back) :
    block <:+: new := by
  rw [h.result]
  exact ⟨front ++ gap, back, by simp⟩

/-- A synced note stays the note of its source. -/
theorem Lands.readwiseId {text block new front gap back : Text} {id : UInt64} (h : Lands text block new front gap back)
    (hblock : Bullet block) (hid : noteReadwiseId text = some id) : noteReadwiseId new = some id := by
  by_cases hnil : back = []
  · have htext : text = front := by rw [h.split, hnil, List.append_nil]
    rw [h.result, ← htext]
    exact noteReadwiseId_append hid _
  · obtain ⟨rest, hrest⟩ : ∃ rest, text = "---\n".toList ++ rest := by
      unfold noteReadwiseId at hid
      cases hstrip : stripPrefix "---\n".toList text with
      | none =>
        rw [hstrip] at hid
        cases hid
      | some rest => exact ⟨rest, stripPrefix_eq_some.mp hstrip⟩
    obtain ⟨x, hx⟩ := (h.inner hnil).2 rest hrest
    obtain ⟨lines, rfl⟩ := hblock.ended
    have hplain : NoFrontMatter lines := fun start hstart hmid =>
      hblock.plain start hstart (hmid.trans (by rw [← List.cons_append]; exact (List.prefix_append _ _).isInfix))
    have hnew : new = "---\n".toList ++ (x ++ '\n' :: (lines ++ '\n' :: back)) := by
      rw [h.result, hx, (h.inner hnil).1]
      simp
    have htext : text = "---\n".toList ++ (x ++ '\n' :: back) := by
      rw [h.split, hx]
      simp
    rw [hnew, noteReadwiseId_insert x back hplain, ← htext, hid]

theorem mem_trim {c : Char} {t : Text} (hc : isWhitespace c = false) (h : c ∈ t) : c ∈ trim t := by
  rw [← takeWhile_append_trimStart t, List.mem_append] at h
  rcases h with h | h
  · rw [blank_takeWhile t c h] at hc
    cases hc
  · rw [← trimEnd_append_rtakeWhile (trimStart t), List.mem_append] at h
    rcases h with h | h
    · exact h
    · rw [blank_rtakeWhile _ c h] at hc
      cases hc

/-- A text with a dash is no id. -/
theorem parseU64_dash {t : Text} (h : '-' ∈ t) : parseU64 t = none := by
  have hdigits : '-' ∈ (stripPrefix ['+'] t).getD t := by
    cases hplus : stripPrefix ['+'] t with
    | none => exact h
    | some rest =>
      rw [stripPrefix_eq_some.mp hplus, List.mem_append, List.mem_singleton] at h
      exact h.resolve_left (by decide)
  have hall : ((stripPrefix ['+'] t).getD t).all Char.isDigit = false :=
    List.all_eq_false.mpr ⟨'-', hdigits, by decide⟩
  simp only [parseU64, hall, Bool.not_false, Bool.or_true, if_true]

/-- The patterns that end what a marker's id is read from. -/
def idStops : List Text := [markerPrefix, markerSuffix, ['@']]

theorem apart_nil_right (p a : Text) : Apart p a [] := fun before after h =>
  Or.inl ⟨after, by simpa using h, by simp⟩

theorem firstPart_split {p rest more : Text} (hapart : Apart p rest more) :
    firstPart p (rest ++ more) = if p <:+: rest then firstPart p rest else rest ++ firstPart p more := by
  split
  · exact firstPart_of_isInfix ‹_› more
  · exact firstPart_apart ‹_› hapart

/-- An id read from before the lines put in was read without them as well: were it read on into
them, it would hold the dash they begin with. -/
theorem chunkId_landed {rest gap back : Text} (more : Text) {id : UInt64} (hgap : gap ∈ landingGaps)
    (hopen : gap = [] → ∃ r, rest = r ++ ['\n']) (hback : back = [] ∨ ∃ r, rest = r ++ ['\n'])
    (h : chunkId (firstPart markerPrefix (rest ++ (gap ++ "- ".toList ++ more))) = some id) :
    chunkId (firstPart markerPrefix (rest ++ back)) = some id := by
  have hchars : ∀ p ∈ idStops, '\n' ∉ p ∧ '#' ∉ p ∧ ' ' ∉ p := by decide
  have hgaps : ∀ p ∈ idStops, ∀ gap ∈ landingGaps, ¬p <:+: gap ++ "- ".toList := by decide
  have hheads : ∀ gap ∈ landingGaps, gap.head? = none ∨ gap.head? = some '\n' ∨ gap.head? = some '#' := by decide
  have hnew : ∀ p ∈ idStops, ∀ more, firstPart p (rest ++ (gap ++ "- ".toList ++ more)) =
      if p <:+: rest then firstPart p rest else rest ++ (gap ++ "- ".toList ++ firstPart p more) := by
    intro p hp more
    have hapart : Apart p rest (gap ++ "- ".toList ++ more) := by
      cases hgapNil : gap with
      | nil =>
        obtain ⟨r, rfl⟩ := hopen hgapNil
        exact apart_concat (hchars p hp).1 r _
      | cons c g =>
        have hc : c ∉ p := by
          rcases hheads gap hgap with hhead | hhead | hhead
          · rw [hgapNil] at hhead
            cases hhead
          · rw [hgapNil] at hhead
            exact Option.some.inj hhead ▸ (hchars p hp).1
          · rw [hgapNil] at hhead
            exact Option.some.inj hhead ▸ (hchars p hp).2.1
        exact apart_cons hc rest _
    have hdash : Apart p (gap ++ "- ".toList) more := by
      have hspace : gap ++ "- ".toList = (gap ++ ['-']) ++ [' '] := by simp
      rw [hspace]
      exact apart_concat (hchars p hp).2.2 _ more
    rw [firstPart_split hapart, firstPart_apart (hgaps p hp gap hgap) hdash]
  have hold : ∀ p ∈ idStops, ∀ more, (back = [] → more = []) → firstPart p (rest ++ more) =
      if p <:+: rest then firstPart p rest else rest ++ firstPart p more := by
    intro p hp more hmore
    apply firstPart_split
    rcases hback with hnil | ⟨r, rfl⟩
    · rw [hmore hnil]
      exact apart_nil_right p rest
    · exact apart_concat (hchars p hp).1 r more
  have hnil : ∀ p t, t = [] → firstPart p t = [] := by
    rintro p t rfl
    cases p <;> rfl
  have hprefix : markerPrefix ∈ idStops := by decide
  have hsuffix : markerSuffix ∈ idStops := by decide
  have hat : ['@'] ∈ idStops := by decide
  rw [hnew _ hprefix] at h
  rw [hold _ hprefix back fun hback => hback]
  split
  · rwa [if_pos ‹_›] at h
  · rw [if_neg ‹_›, chunkId, hnew _ hsuffix] at h
    rw [chunkId, hold _ hsuffix _ fun hback => hnil _ _ hback]
    split
    · rwa [if_pos ‹_›] at h
    · rw [if_neg ‹_›, hnew _ hat] at h
      rw [hold _ hat _ fun hback => hnil _ _ (hnil _ _ hback)]
      split
      · rwa [if_pos ‹_›] at h
      · rw [if_neg ‹_›, parseU64_dash (mem_trim (by decide) (by simp))] at h
        cases h

/-- A note that lines were put into has its own markers and those of the lines. -/
theorem Lands.scan {text block new front gap back : Text} {ids : List UInt64} {id : UInt64}
    (h : Lands text block new front gap back) (hblock : Bullet block) (hmarked : Marked block ids)
    (hid : id ∈ scanMarkers new) : id ∈ scanMarkers text ∨ id ∈ ids := by
  obtain ⟨before, after, hnew, hchunk⟩ := mem_scanMarkers.mp hid
  have hgaps : ∀ gap ∈ landingGaps, Unmarked gap ∧ Closed gap ∧ (gap = [] ∨ Opening gap ∧ gap ≠ []) := by decide
  have hgap := hgaps gap h.gaps
  obtain ⟨lines, hlines⟩ := hblock.ended
  obtain ⟨bullet, hbullet⟩ := hblock.dash
  have hfront : Apart markerPrefix front (gap ++ block ++ back) := by
    rcases hgap.2.2 with hnil | ⟨hopening, hne⟩
    · rcases h.ended hnil with rfl | ⟨x, rfl⟩
      · exact apart_nil _ _
      · exact apart_concat (by decide) x _
    · obtain ⟨c, g, rfl⟩ := List.exists_cons_of_ne_nil hne
      exact apart_cons (hopening c rfl) front _
  have hinserted : Apart markerPrefix (gap ++ block) back := by
    rw [hlines, ← List.append_assoc]
    exact apart_concat (by decide) _ back
  rw [h.result, ← List.append_assoc gap] at hnew
  rcases hfront before after hnew with ⟨rest, hrest, rfl⟩ | ⟨more, -, hmore⟩
  · refine Or.inl (mem_scanMarkers.mpr ⟨before, rest ++ back, by rw [h.split, hrest]; simp, ?_⟩)
    have hends : (∃ x, front = x ++ ['\n']) → ∃ r, rest = r ++ ['\n'] := by
      rintro ⟨x, hx⟩
      rcases List.eq_nil_or_concat rest with rfl | ⟨r, c, rfl⟩
      · have hlast := congrArg List.getLast? (hx.symm.trans hrest)
        have hprefix : markerPrefix = "<!--rw".toList ++ [':'] := by decide
        rw [List.append_nil, hprefix, ← List.append_assoc, List.getLast?_concat, List.getLast?_concat] at hlast
        exact absurd (Option.some.inj hlast) (by decide)
      · rw [List.concat_eq_append, hx] at hrest
        have hlast := congrArg List.getLast? hrest
        rw [← List.append_assoc, List.getLast?_concat, List.getLast?_concat] at hlast
        exact ⟨r, by rw [List.concat_eq_append, Option.some.inj hlast]⟩
    have hne : front ≠ [] := by
      rw [hrest]
      intro hnil
      exact absurd (List.append_eq_nil_iff.mp (List.append_eq_nil_iff.mp hnil).1).2 (by decide)
    refine chunkId_landed (bullet ++ back) h.gaps (fun hnil => hends ((h.ended hnil).resolve_left hne)) ?_ ?_
    · by_cases hback : back = []
      · exact Or.inl hback
      · exact Or.inr (hends ((h.ended (h.inner hback).1).resolve_left hne))
    · rw [hbullet] at hchunk
      simpa only [List.append_assoc] using hchunk
  · rcases hinserted more after hmore with ⟨rest, hrest, rfl⟩ | ⟨later, -, hlater⟩
    · have hins : Marked (gap ++ block) ids := hgap.1.marked.append hmarked (hgap.2.1.apart block)
      obtain ⟨id', hid', day, tail, rfl⟩ := hins.only more rest hrest
      rw [List.append_assoc, chunkId_marker] at hchunk
      exact Or.inr (Option.some.inj hchunk ▸ hid')
    · exact Or.inl (mem_scanMarkers.mpr ⟨front ++ later, after, by rw [h.split, hlater]; simp, hchunk⟩)

end Thock.Desk.Readwise
