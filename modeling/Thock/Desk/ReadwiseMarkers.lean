import Thock.Desk.Readwise
import Thock.SyncCore.DueText

/-!
# Markers in a note

What the marker scan finds in a text the planner put together, and what it still finds after
lines were put into a note. A rendered text holds the marker prefix only where its own markers
stand, as long as no outside text brings one in.
-/

namespace Thock.Desk.Readwise

open TextScan SyncCore SyncCore.Reminder

/-! ## Ids and dates in digits -/

/-- An id is read back from its digits. -/
theorem parseU64_decimal (id : UInt64) : parseU64 (decimal id.toNat) = some id := by
  have hplus : stripPrefix ['+'] (decimal id.toNat) = none := by
    cases h : stripPrefix ['+'] (decimal id.toNat) with
    | none => rfl
    | some rest =>
      have hmem : '+' ∈ decimal id.toNat := by
        rw [stripPrefix_eq_some.mp h]
        exact List.mem_cons_self
      exact absurd hmem (not_mem_decimal (by decide) _)
  have hdigits : (decimal id.toNat).all Char.isDigit = true :=
    List.all_eq_true.mpr fun c hc => isDigit_of_mem_decimal hc
  have hempty : (decimal id.toNat).isEmpty = false := by simpa using decimal_ne_nil id.toNat
  simp only [parseU64, hplus, Option.getD_none, hdigits, hempty, numberOf_decimal, UInt64.ofNat_toNat]
  rw [if_neg (by decide), if_pos id.toNat_lt]

theorem not_mem_markerInner {c : Char} (hc : c.isDigit = false) (hsign : c ≠ '-' ∧ c ≠ '+' ∧ c ≠ '@') (id : UInt64)
    (day : Option Day) : c ∉ markerInner id day := by
  intro h
  rcases List.mem_append.mp h with h | h
  · exact not_mem_decimal hc _ h
  · cases day with
    | none => cases h
    | some day =>
      rcases List.mem_cons.mp h with h | h
      · exact hsign.2.2 h
      · exact not_mem_dateText hc ⟨hsign.1, hsign.2.1⟩ day h

/-! ## Reading markers -/

theorem trim_decimal (n : ℕ) : trim (decimal n) = decimal n := by
  have hblack : ∀ c ∈ decimal n, isWhitespace c = false := fun c hc => by
    have hdigit := isDigit_of_mem_decimal hc
    rw [Char.isDigit, Bool.and_eq_true, decide_eq_true_eq, decide_eq_true_eq] at hdigit
    have hlow : 48 ≤ c.toNat := hdigit.1
    have hhigh : c.toNat ≤ 57 := hdigit.2
    simp only [isWhitespace, Bool.or_eq_false_iff, Bool.and_eq_false_iff, decide_eq_false_iff_not]
    omega
  exact trim_of_tight (fun c hc => hblack c (List.mem_of_mem_head? hc)) fun c hc => hblack c (List.mem_of_getLast? hc)

/-- What follows a marker's prefix names its id, whatever comes after the marker. -/
theorem chunkId_marker (id : UInt64) (day : Option Day) (rest : Text) :
    chunkId (firstPart markerPrefix (markerInner id day ++ markerSuffix ++ rest)) = some id := by
  have hopen : '<' ∉ markerInner id day ++ markerSuffix := by
    rw [List.mem_append]
    exact not_or.mpr ⟨not_mem_markerInner (by decide) (by decide) id day, by decide⟩
  have hclose : '>' ∉ markerInner id day := not_mem_markerInner (by decide) (by decide) id day
  have hprefix : markerPrefix = '<' :: "!--rw:".toList := by decide
  have hsuffix : markerSuffix = "--".toList ++ ['>'] := by decide
  have hinner : ∀ more, firstPart markerSuffix (markerInner id day ++ markerSuffix ++ more) = markerInner id day := by
    intro more
    rw [firstPart, hsuffix, splitFirst_of_last _ more hclose (by decide)]
    rfl
  have hid : firstPart ['@'] (markerInner id day) = decimal id.toNat := by
    rw [markerInner, firstPart_append _ (not_mem_decimal (by decide) _)]
    cases day with
    | none => simp [firstPart, splitFirst]
    | some day => simp [firstPart, splitFirst, List.isPrefixOf]
  rw [chunkId, hprefix, firstPart_append _ hopen, hinner, hid, trim_decimal, parseU64_decimal]

/-- An id is scanned from a text exactly when an occurrence of the prefix is followed by it. -/
theorem mem_scanMarkers {text : Text} {id : UInt64} :
    id ∈ scanMarkers text ↔
      ∃ before after, text = before ++ markerPrefix ++ after ∧ chunkId (firstPart markerPrefix after) = some id := by
  have hprefix : markerPrefix = '<' :: "!--rw:".toList := by decide
  rw [scanMarkers, List.mem_dedup, List.mem_filterMap, hprefix]
  constructor
  · rintro ⟨part, hpart, hid⟩
    obtain ⟨before, after, htext, rfl⟩ := (mem_tail_splitText (by decide)).mp hpart
    exact ⟨before, after, htext, hid⟩
  · rintro ⟨before, after, htext, hid⟩
    exact ⟨_, (mem_tail_splitText (by decide)).mpr ⟨before, after, htext, rfl⟩, hid⟩

/-- A marker that stands in a text is scanned from it. -/
theorem mem_scanMarkers_of_isInfix {text : Text} {id : UInt64} {day : Option Day} (h : highlightMarker id day <:+: text) :
    id ∈ scanMarkers text := by
  obtain ⟨before, after, htext⟩ := h
  refine mem_scanMarkers.mpr ⟨before, markerInner id day ++ markerSuffix ++ after, ?_, chunkId_marker id day after⟩
  rw [← htext, highlightMarker]
  simp

/-! ## Texts whose markers are known -/

/-- A text that holds the marker prefix only in markers of the given ids, and a marker of each of them. -/
structure Marked (text : Text) (ids : List UInt64) : Prop where
  only : ∀ before after, text = before ++ markerPrefix ++ after →
    ∃ id ∈ ids, ∃ day, markerInner id day ++ markerSuffix <+: after
  each : ∀ id ∈ ids, ∃ day, highlightMarker id day <:+: text

/-- A text without the marker prefix. -/
def Unmarked (text : Text) : Prop := ¬markerPrefix <:+: text

theorem Marked.scan {text : Text} {ids : List UInt64} (h : Marked text ids) (id : UInt64) :
    id ∈ scanMarkers text ↔ id ∈ ids := by
  constructor
  · intro hid
    obtain ⟨before, after, htext, hchunk⟩ := mem_scanMarkers.mp hid
    obtain ⟨id', hid', day, rest, rfl⟩ := h.only before after htext
    rw [chunkId_marker] at hchunk
    exact Option.some.inj hchunk ▸ hid'
  · intro hid
    obtain ⟨day, hmid⟩ := h.each id hid
    exact mem_scanMarkers_of_isInfix hmid

theorem Unmarked.marked {text : Text} (h : Unmarked text) : Marked text [] :=
  ⟨fun before after htext => absurd ⟨before, after, htext.symm⟩ h, fun _ hid => (nomatch hid)⟩

theorem marked_marker (id : UInt64) (day : Option Day) : Marked (highlightMarker id day) [id] := by
  refine ⟨fun before after htext => ?_, fun other hother => ?_⟩
  · have hopen : '<' ∉ markerInner id day ++ markerSuffix := by
      rw [List.mem_append]
      exact not_or.mpr ⟨not_mem_markerInner (by decide) (by decide) id day, by decide⟩
    have hprefix : markerPrefix = '<' :: "!--rw:".toList := by decide
    rw [highlightMarker, hprefix] at htext
    rcases occurrence_after (by decide) htext with ⟨-, rfl⟩ | ⟨more, -, hmore⟩
    · exact ⟨id, List.mem_singleton_self id, day, List.prefix_rfl⟩
    · exact absurd (by rw [hmore]; simp) hopen
  · exact ⟨day, by rw [List.mem_singleton.mp hother]⟩

/-- Texts that no occurrence of the prefix lies across have the markers of both. -/
theorem Marked.append {a b : Text} {is js : List UInt64} (ha : Marked a is) (hb : Marked b js)
    (hapart : Apart markerPrefix a b) : Marked (a ++ b) (is ++ js) := by
  refine ⟨fun before after htext => ?_, fun id hid => ?_⟩
  · rcases hapart before after htext with ⟨rest, hfront, rfl⟩ | ⟨more, -, hback⟩
    · obtain ⟨id, hid, day, hafter⟩ := ha.only before rest hfront
      exact ⟨id, List.mem_append_left _ hid, day, hafter.trans (List.prefix_append _ _)⟩
    · obtain ⟨id, hid, day, hafter⟩ := hb.only more after hback
      exact ⟨id, List.mem_append_right _ hid, day, hafter⟩
  · rcases List.mem_append.mp hid with hid | hid
    · obtain ⟨day, hmid⟩ := ha.each id hid
      exact ⟨day, hmid.trans (List.prefix_append _ _).isInfix⟩
    · obtain ⟨day, hmid⟩ := hb.each id hid
      exact ⟨day, hmid.trans (List.suffix_append _ _).isInfix⟩

instance (text : Text) : Decidable (Unmarked text) := inferInstanceAs (Decidable ¬_)

theorem unmarked_of_not_mem {text : Text} (h : '<' ∉ text) : Unmarked text := not_infix_of_not_mem (by decide) h

/-- The text ends with a character that the marker prefix does not hold, or is empty. -/
def Closed (text : Text) : Prop := ∀ c ∈ text.getLast?, c ∉ markerPrefix

/-- The text begins with a character that the marker prefix does not hold, or is empty. -/
def Opening (text : Text) : Prop := ∀ c ∈ text.head?, c ∉ markerPrefix

instance (text : Text) : Decidable (Closed text) :=
  Option.decidableForallMem (p := fun c => c ∉ markerPrefix) (o := text.getLast?)

instance (text : Text) : Decidable (Opening text) :=
  Option.decidableForallMem (p := fun c => c ∉ markerPrefix) (o := text.head?)

theorem Closed.apart {a : Text} (h : Closed a) (b : Text) : Apart markerPrefix a b := by
  rcases List.eq_nil_or_concat a with rfl | ⟨front, c, rfl⟩
  · exact apart_nil _ _
  · rw [List.concat_eq_append] at h ⊢
    exact apart_concat (h c (by simp)) front b

theorem Opening.apart {b : Text} (h : Opening b) (a : Text) : Apart markerPrefix a b := by
  cases b with
  | nil =>
    intro before after htext
    exact Or.inl ⟨after, by simpa using htext, by simp⟩
  | cons c b => exact apart_cons (h c rfl) a b

theorem Closed.append {a b : Text} (ha : Closed a) (hb : Closed b) : Closed (a ++ b) := by
  intro c hc
  rw [List.getLast?_append, Option.mem_def] at hc
  cases hlast : b.getLast? with
  | none =>
    rw [hlast, Option.none_or] at hc
    exact ha c hc
  | some d =>
    rw [hlast, Option.some_or] at hc
    exact hb c (hlast.trans hc)

/-- Lines of a note that hold markers of the given ids and no others. -/
structure MarkedLines (text : Text) (ids : List UInt64) : Prop where
  marked : Marked text ids
  closed : Closed text

theorem MarkedLines.append {a b : Text} {is js : List UInt64} (ha : MarkedLines a is) (hb : MarkedLines b js) :
    MarkedLines (a ++ b) (is ++ js) :=
  ⟨ha.marked.append hb.marked (ha.closed.apart b), ha.closed.append hb.closed⟩

theorem markedLines_nil : MarkedLines [] [] := ⟨(unmarked_of_not_mem (by simp)).marked, fun _ h => (nomatch h)⟩

/-- Lines without markers, one after the other. -/
theorem markedLines_flatten {parts : List Text} (h : ∀ part ∈ parts, MarkedLines part []) :
    MarkedLines parts.flatten [] := by
  induction parts with
  | nil => exact markedLines_nil
  | cons part parts ih =>
    rw [List.forall_mem_cons] at h
    exact h.1.append (ih h.2)

/-- Outside text between a label and the end of its line. -/
theorem markedLines_around {label text tail : Text} (hlabel : '<' ∉ label ∧ Closed label) (htext : Unmarked text)
    (htail : '<' ∉ tail ∧ Opening tail ∧ Closed tail) (hne : tail ≠ []) : MarkedLines (label ++ (text ++ tail)) [] := by
  have hlast : Closed (text ++ tail) := by
    intro c hc
    rw [List.getLast?_append_of_ne_nil _ hne] at hc
    exact htail.2.2 c hc
  have hback := htext.marked.append (unmarked_of_not_mem htail.1).marked (htail.2.1.apart text)
  exact ⟨(unmarked_of_not_mem hlabel.1).marked.append hback (hlabel.2.apart _), hlabel.2.append hlast⟩

theorem markedLines_lineOf {label tail : Text} {text : Option Text} (hlabel : '<' ∉ label ∧ Closed label)
    (htext : ∀ t ∈ text, Unmarked t) (htail : '<' ∉ tail ∧ Opening tail ∧ Closed tail) (hne : tail ≠ []) :
    MarkedLines (lineOf label text tail) [] := by
  unfold lineOf
  cases hkept : text.filter fun t => !t.isEmpty with
  | none => exact markedLines_nil
  | some t => exact markedLines_around hlabel (htext t (Option.eq_some_of_filter_eq_some hkept)) htail hne

/-! ## What outside text may hold -/

/-- The front matter lines that another line must not be taken for. -/
def frontMatterStarts : List Text := ["---".toList, "readwise_id:".toList]

/-- No outside text brings the marker prefix into a highlight's lines, and no address a line that the
front matter is read by. -/
structure CleanHighlight (highlight : ReadwiseHighlight) (source : ReadwiseSource) : Prop where
  text : Unmarked (cleanText highlight.text)
  location : ∀ location ∈ locationLabel highlight source,
    Unmarked location ∧ ∀ start ∈ frontMatterStarts, ¬('\n' :: start) <:+: location
  note : ∀ note ∈ highlight.note, Unmarked (cleanText note)
  tags : ∀ tags ∈ tagList highlight.tags, Unmarked tags

/-- No outside text brings the marker prefix into the lines above the highlights. -/
structure CleanHead (source : ReadwiseSource) : Prop where
  title : Unmarked (sanitizeTitle source.title)
  cover : ∀ cover ∈ source.coverImageUrl, Unmarked (collapseWhitespace cover)
  author : ∀ author ∈ source.author, Unmarked (cleanText author)
  tags : ∀ tags ∈ tagList source.bookTags, Unmarked tags
  url : ∀ url ∈ source.sourceUrl, Unmarked (collapseWhitespace url)

/-- A highlight's lines hold its own marker and no other. -/
theorem CleanHighlight.marked {highlight : ReadwiseHighlight} {source : ReadwiseSource}
    (h : CleanHighlight highlight source) (calendar : Calendar) :
    MarkedLines (renderHighlight calendar highlight source) [highlight.id] := by
  have hlocation : Marked ((locationLabel highlight source).elim [] fun location =>
      " (".toList ++ (location ++ [')'])) [] ∧ Opening ((locationLabel highlight source).elim [] fun location =>
      " (".toList ++ (location ++ [')'])) := by
    cases hlabel : locationLabel highlight source with
    | none => exact ⟨markedLines_nil.marked, fun _ hc => (nomatch hc)⟩
    | some location =>
      refine ⟨(markedLines_around (by decide) (h.location location hlabel).1 (by decide) (by decide)).marked, ?_⟩
      intro c hc
      obtain rfl : ' ' = c := by simpa using hc
      decide
  have hwords := h.text.marked.append hlocation.1 (hlocation.2.apart _)
  have hhead : Marked ("- ".toList ++ (cleanText highlight.text ++ _)) [] :=
    (unmarked_of_not_mem (by decide)).marked.append hwords (Closed.apart (by decide) _)
  have hmarker : Marked (highlightMarker highlight.id (highlight.day calendar) ++ ['\n']) [highlight.id] :=
    (marked_marker _ _).append (unmarked_of_not_mem (by decide)).marked (Opening.apart (by decide) _)
  have hspace : Marked (' ' :: (highlightMarker highlight.id (highlight.day calendar) ++ ['\n'])) [highlight.id] :=
    (unmarked_of_not_mem (by decide : '<' ∉ [' '])).marked.append hmarker (Closed.apart (by decide) _)
  have hfirst := hhead.append hspace (Opening.apart (fun c hc => by
    obtain rfl : ' ' = c := by simpa using hc
    decide) _)
  have hclosed : Closed ("- ".toList ++ (cleanText highlight.text ++ (locationLabel highlight source).elim []
      fun location => " (".toList ++ (location ++ [')'])) ++
        ' ' :: (highlightMarker highlight.id (highlight.day calendar) ++ ['\n'])) := by
    intro c hc
    obtain rfl : '\n' = c := by
      simpa [List.getLast?_append, List.getLast?_cons] using hc
    decide
  have hnote : MarkedLines (lineOf "    - Note: ".toList (highlight.note.map cleanText) ['\n']) [] :=
    markedLines_lineOf (by decide) (fun t ht => by
      obtain ⟨note, hnote, rfl⟩ := Option.map_eq_some_iff.mp ht
      exact h.note note hnote) (by decide) (by decide)
  have htags : MarkedLines (lineOf "    - Tags: ".toList (tagList highlight.tags) ['\n']) [] :=
    markedLines_lineOf (by decide) h.tags (by decide) (by decide)
  have hall := MarkedLines.append ⟨hfirst, hclosed⟩ (hnote.append (htags.append markedLines_nil))
  exact hall

theorem unmarked_category {category : Text} (h : category ∈ knownCategories) : Unmarked (cleanText category) := by
  have hall : ∀ category ∈ knownCategories, Unmarked (cleanText category) := by decide +kernel
  exact hall category h

theorem unmarked_decimal (n : ℕ) : Unmarked (decimal n) := unmarked_of_not_mem (not_mem_decimal (by decide) n)

/-- The lines above the highlights hold no marker. -/
theorem CleanHead.marked {source : ReadwiseSource} (h : CleanHead source) (hcategory : source.category ∈ knownCategories) :
    MarkedLines (headLines source).flatten [] := by
  have hclean {label tail : Text} {text : Option Text} {f : Text → Text} (hlabel : '<' ∉ label ∧ Closed label)
      (htext : ∀ t ∈ text, Unmarked (f t)) (htail : '<' ∉ tail ∧ Opening tail ∧ Closed tail) (hne : tail ≠ []) :
      MarkedLines (lineOf label (text.map f) tail) [] :=
    markedLines_lineOf hlabel (fun t ht => by
      obtain ⟨t, hmem, rfl⟩ := Option.map_eq_some_iff.mp ht
      exact htext t hmem) htail hne
  have hplain {line : Text} (hline : '<' ∉ line ∧ Closed line) : MarkedLines line [] :=
    ⟨(unmarked_of_not_mem hline.1).marked, hline.2⟩
  have htitle : Unmarked (sanitizeTitle source.title) := h.title
  have hcategory := unmarked_category hcategory
  apply markedLines_flatten
  unfold headLines
  simp only [List.forall_mem_cons]
  refine ⟨hplain (by decide), markedLines_around (by decide) (unmarked_decimal _) (by decide) (by decide),
    markedLines_around (by decide) hcategory (by decide) (by decide),
    markedLines_around (by decide) htitle (by decide) (by decide),
    hclean (by decide) h.cover (by decide) (by decide), hplain (by decide),
    hclean (by decide) h.author (by decide) (by decide), markedLines_around (by decide) htitle (by decide) (by decide),
    markedLines_around (by decide) hcategory (by decide) (by decide),
    markedLines_lineOf (by decide) h.tags (by decide) (by decide), hclean (by decide) h.url (by decide) (by decide),
    hplain (by decide), List.forall_mem_nil _⟩

end Thock.Desk.Readwise
