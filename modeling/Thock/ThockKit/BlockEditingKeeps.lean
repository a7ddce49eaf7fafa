import Thock.ThockKit.BlockEditing

/-!
# What the phone editor keeps

Blocks written over a note's blocks: those that the editor does not show and those whose paragraphs were not changed
stay as they were read, in order, with touched ones between them and of neighbouring blank lines only one.

The exception is a shown block whose paragraph has no Markdown to write, an empty task or a code span of spaces:
it is left out although nothing was changed.
-/

namespace Thock.ThockKit

open TextScan
open Inline (Letters)

namespace BlockEditing

/-! ## What is kept -/

/-- The paragraph of an index: it carries it, and every index carried before it is earlier. -/
def Takes (editing : BlockEditing) (paragraphs : List EditorParagraph) (index : ℕ) (paragraph : EditorParagraph) : Prop :=
  ∃ before after, paragraphs = before ++ paragraph :: after ∧ paragraph.origin = some index ∧
    (editing.shownAt index).isSome ∧ ∀ q ∈ before, ∀ i, q.origin = some i → (editing.shownAt i).isSome → i < index

/-- A paragraph reads as the one its block was opened with. -/
def Same (letters : Letters) (editing : BlockEditing) (index : ℕ) (paragraph : EditorParagraph) : Prop :=
  ∃ block kind, editing.shownAt index = some (block, kind) ∧ paragraph.kind = kind ∧
    Inline.merged paragraph.shownRuns = Inline.merged (opened letters index block kind).shownRuns

/-- The block of an index is not shown, or its paragraph was not changed. -/
def Untouched (letters : Letters) (editing : BlockEditing) (paragraphs : List EditorParagraph) (index : ℕ) : Prop :=
  editing.shownAt index = none ∨ ∃ paragraph, editing.Takes paragraphs index paragraph ∧ Same letters editing index paragraph

/-- What blocks become: those that must stay do so in order, but for a blank line behind another; touched ones come
in between. -/
inductive Kept (must : ℕ → Prop) : List Block → List Block → Prop
  | nil : Kept must [] []
  | keep {original output : List Block} (block : Block) (h : Kept must original output) :
      Kept must (original ++ [block]) (output ++ [block])
  | doubled {original output : List Block} (block last : Block) (h : Kept must original output)
      (blank : block.kind = .blank) (hlast : output.getLast? = some last) (lastBlank : last.kind = .blank) :
      Kept must (original ++ [block]) output
  | removed {original output : List Block} (block : Block) (h : Kept must original output)
      (changed : ¬must original.length) : Kept must (original ++ [block]) output
  | added {original output : List Block} (block : Block) (h : Kept must original output)
      (touched : block.touched = true) : Kept must original (output ++ [block])

section Kept

variable {editing : BlockEditing} {must : ℕ → Prop}

/-- What must stay is there, unless it is blank. -/
theorem Kept.mem {original output : List Block} (h : Kept must original output) {index : ℕ} {block : Block}
    (hblock : original[index]? = some block) (hmust : must index) (hblank : block.kind ≠ .blank) : block ∈ output := by
  have hsplit : ∀ {l : List Block} {b : Block}, (l ++ [b])[index]? = some block →
      l[index]? = some block ∨ index = l.length ∧ b = block := by
    intro l b hget
    cases Nat.lt_or_ge index l.length with
    | inl hlt =>
      rw [List.getElem?_append_left hlt] at hget
      exact Or.inl hget
    | inr hge =>
      rw [List.getElem?_append_right hge] at hget
      cases hsub : index - l.length with
      | zero =>
        rw [hsub] at hget
        exact Or.inr ⟨by omega, Option.some.inj hget⟩
      | succ n =>
        rw [hsub] at hget
        cases hget
  induction h with
  | nil => cases hblock
  | keep b _ ih =>
    cases hsplit hblock with
    | inl h => exact List.mem_append_left _ (ih h)
    | inr h => exact List.mem_append_right _ (h.2 ▸ List.mem_cons_self)
  | doubled b last _ hb _ _ ih =>
    cases hsplit hblock with
    | inl h => exact ih h
    | inr h => exact absurd (h.2 ▸ hb) hblank
  | removed b _ hchanged ih =>
    cases hsplit hblock with
    | inl h => exact ih h
    | inr h => exact absurd (h.1 ▸ hmust) hchanged
  | added b _ _ ih => exact List.mem_append_left _ (ih hblock)

/-! ## The carried blocks -/

/-- The blocks that are not shown, from an index on. -/
def carriedFrom (editing : BlockEditing) (index : ℕ) : List (Block × ℕ) :=
  (editing.original.zipIdx.drop index).filter fun (block, _) => (EditorKind.displaying block.kind).isNone

theorem drop_zipIdx {index : ℕ} {block : Block} (h : editing.original[index]? = some block) :
    editing.original.zipIdx.drop index = (block, index) :: editing.original.zipIdx.drop (index + 1) := by
  obtain ⟨hlt, hget⟩ := List.getElem?_eq_some_iff.mp h
  rw [List.drop_eq_getElem_cons (by simpa using hlt)]
  simp [hget]

theorem carriedFrom_of_some {index : ℕ} {block : Block} (h : editing.original[index]? = some block) :
    editing.carriedFrom index =
      if (EditorKind.displaying block.kind).isNone then (block, index) :: editing.carriedFrom (index + 1)
      else editing.carriedFrom (index + 1) := by
  rw [carriedFrom, drop_zipIdx h, List.filter_cons]
  rfl

theorem le_of_mem_carriedFrom {index : ℕ} {e : Block × ℕ} (h : e ∈ editing.carriedFrom index) : index ≤ e.2 := by
  obtain ⟨i, hi, hget⟩ := List.getElem_of_mem (List.mem_of_mem_filter h)
  rw [List.getElem_drop, List.getElem_zipIdx] at hget
  rw [← hget]
  simp

theorem emitCarried_stop {limit : ℕ} (output : List (Block × Option ℕ)) :
    emitCarried limit output (editing.carriedFrom limit) = (output, editing.carriedFrom limit) := by
  cases hcarried : editing.carriedFrom limit with
  | nil => rfl
  | cons e rest =>
    have hle := le_of_mem_carriedFrom (hcarried ▸ List.mem_cons_self : e ∈ editing.carriedFrom limit)
    rw [emitCarried, if_neg (by omega)]

theorem shownAt_eq {index : ℕ} {block : Block} (h : editing.original[index]? = some block) :
    editing.shownAt index = (EditorKind.displaying block.kind).map (block, ·) := by
  rw [shownAt, h, Option.bind_some]

theorem doubled_eq_true {output : List (Block × Option ℕ)} {block : Block} {index : ℕ}
    (h : doubled output block index = true) :
    block.kind = .blank ∧ ∃ last, (output.map Prod.fst).getLast? = some last ∧ last.kind = .blank := by
  unfold doubled at h
  split at h
  · next last previous hlast =>
    simp only [Bool.and_eq_true, decide_eq_true_eq] at h
    exact ⟨h.1.1, last, by rw [List.getLast?_map, hlast]; rfl, h.1.2⟩
  · cases h

/-- A block that was carried with its index: it is the one of that index, and not shown. -/
def IsCarried (editing : BlockEditing) (e : Block × Option ℕ) : Prop :=
  ∃ index, e.2 = some index ∧ editing.original[index]? = some e.1 ∧ editing.shownAt index = none

theorem take_succ_of_some {index : ℕ} {block : Block} (h : editing.original[index]? = some block) :
    editing.original.take (index + 1) = editing.original.take index ++ [block] := by
  rw [List.take_add_one, h]
  rfl

/-- Up to an index the blocks that are not shown are written, and those shown that nothing claimed are not. -/
theorem emitCarried_to {index limit : ℕ} (hle : index ≤ limit) (hlimit : limit ≤ editing.original.length)
    (output : List (Block × Option ℕ)) :
    ∃ more, emitCarried limit output (editing.carriedFrom index) = (output ++ more, editing.carriedFrom limit) ∧
      (∀ e ∈ more, IsCarried editing e) ∧
        ∀ must : ℕ → Prop, Kept must (editing.original.take index) (output.map Prod.fst) →
          (∀ j, index ≤ j → j < limit → editing.shownAt j ≠ none → ¬must j) →
            Kept must (editing.original.take limit) ((output ++ more).map Prod.fst) := by
  obtain ⟨n, rfl⟩ := Nat.exists_eq_add_of_le hle
  induction n generalizing index output with
  | zero =>
    refine ⟨[], ?_, fun e he => absurd he List.not_mem_nil, fun must h _ => by rwa [List.append_nil]⟩
    rw [Nat.add_zero, emitCarried_stop, List.append_nil]
  | succ n ih =>
    have hlt : index < editing.original.length := by omega
    have hblock : editing.original[index]? = some editing.original[index] := List.getElem?_eq_getElem hlt
    generalize editing.original[index] = block at hblock
    have hnext : index + (n + 1) = index + 1 + n := by omega
    rw [hnext] at hlimit ⊢
    have htake := take_succ_of_some hblock
    have hlength : (editing.original.take index).length = index := by
      rw [List.length_take]
      omega
    cases hkind : EditorKind.displaying block.kind with
    | none =>
      have hhidden : editing.shownAt index = none := by rw [shownAt_eq hblock, hkind, Option.map_none]
      rw [carriedFrom_of_some hblock, hkind, Option.isNone_none, if_pos rfl, emitCarried, if_pos (by omega)]
      split
      · next hdoubled =>
        obtain ⟨hblank, last, hlast, hlastBlank⟩ := doubled_eq_true hdoubled
        obtain ⟨more, hemit, hcarried, hkept⟩ := ih output (by omega) hlimit
        refine ⟨more, hemit, hcarried, fun must h hmust => hkept must ?_ fun j hj => hmust j (by omega)⟩
        exact htake ▸ h.doubled block last hblank hlast hlastBlank
      · obtain ⟨more, hemit, hcarried, hkept⟩ := ih (output ++ [(block, some index)]) (by omega) hlimit
        refine ⟨(block, some index) :: more, by rw [hemit, List.append_assoc]; rfl, ?_, fun must h hmust => ?_⟩
        · intro e he
          cases List.mem_cons.mp he with
          | inl heq => exact ⟨index, by rw [heq], by rw [heq]; exact hblock, hhidden⟩
          | inr he => exact hcarried e he
        · have hkeep : Kept must (editing.original.take (index + 1)) ((output ++ [(block, some index)]).map Prod.fst) := by
            rw [htake, List.map_append]
            exact h.keep block
          simpa using hkept must hkeep fun j hj => hmust j (by omega)
    | some kind =>
      have hshown : editing.shownAt index ≠ none := by
        rw [shownAt_eq hblock, hkind]
        exact Option.some_ne_none _
      rw [carriedFrom_of_some hblock, hkind, if_neg (by simp)]
      obtain ⟨more, hemit, hcarried, hkept⟩ := ih output (by omega) hlimit
      refine ⟨more, hemit, hcarried, fun must h hmust => hkept must ?_ fun j hj => hmust j (by omega)⟩
      refine htake ▸ h.removed block ?_
      rw [hlength]
      exact hmust index (Nat.le_refl _) (by omega) hshown

end Kept

/-! ## The paragraphs of the blocks -/

section Takes

variable {letters : Letters} {editing : BlockEditing} {paragraphs : List EditorParagraph}

/-- A block has one paragraph at most. -/
theorem Takes.unique {index : ℕ} {p q : EditorParagraph} (hp : editing.Takes paragraphs index p)
    (hq : editing.Takes paragraphs index q) : p = q := by
  obtain ⟨before, after, heq, horigin, hshown, hbefore⟩ := hp
  obtain ⟨before', after', heq', horigin', -, hbefore'⟩ := hq
  rw [heq] at heq'
  cases List.append_eq_append_iff.mp heq' with
  | inl h =>
    obtain ⟨mid, hmid, hrest⟩ := h
    cases mid with
    | nil => exact (List.cons.inj hrest).1
    | cons r mid =>
      obtain ⟨rfl, -⟩ := List.cons.inj hrest
      have hmem : p ∈ before' := hmid ▸ List.mem_append_right _ List.mem_cons_self
      exact absurd (hbefore' p hmem index horigin hshown) (Nat.lt_irrefl _)
  | inr h =>
    obtain ⟨mid, hmid, hrest⟩ := h
    cases mid with
    | nil => exact (List.cons.inj hrest).1.symm
    | cons r mid =>
      obtain ⟨rfl, -⟩ := List.cons.inj hrest
      have hmem : q ∈ before := hmid ▸ List.mem_append_right _ List.mem_cons_self
      exact absurd (hbefore q hmem index horigin' hshown) (Nat.lt_irrefl _)

/-- The Markdown of a paragraph is settled by what it reads as. -/
theorem Same.markdown {index : ℕ} {paragraph : EditorParagraph} {block : Block} {kind : EditorKind}
    (h : Same letters editing index paragraph) (hshown : editing.shownAt index = some (block, kind)) :
    paragraph.kind = kind ∧ paragraph.markdown letters = (opened letters index block kind).markdown letters := by
  obtain ⟨block', kind', hshown', hkind, hruns⟩ := h
  obtain ⟨rfl, rfl⟩ := Prod.mk.inj (Option.some.inj (hshown'.symm.trans hshown))
  refine ⟨hkind, ?_⟩
  simp only [EditorParagraph.markdown, Inline.serialize, hruns]

/-- Every paragraph that has Markdown to write where its block's is unchanged. -/
def Written (letters : Letters) (editing : BlockEditing) (paragraphs : List EditorParagraph) : Prop :=
  ∀ index paragraph, editing.Takes paragraphs index paragraph → Same letters editing index paragraph →
    paragraph.markdown letters ≠ []

/-- How far the blocks are written, behind some of the paragraphs. -/
structure Progress (letters : Letters) (editing : BlockEditing) (paragraphs before : List EditorParagraph) (w : Writing) :
    Prop where
  inside : w.claimed ≤ editing.original.length
  carried : w.carried = editing.carriedFrom w.claimed
  below : ∀ q ∈ before, ∀ i, q.origin = some i → (editing.shownAt i).isSome → i < w.claimed
  read : ∀ e ∈ w.output, e.1.touched = false → IsCarried editing e ∨
    ∃ index paragraph, editing.original[index]? = some e.1 ∧ editing.Takes paragraphs index paragraph ∧
      paragraph.markdown letters ≠ []
  kept : Written letters editing paragraphs →
    Kept (editing.Untouched letters paragraphs) (editing.original.take w.claimed) (w.output.map Prod.fst)

theorem start_progress : Progress letters editing paragraphs [] editing.start where
  inside := Nat.zero_le _
  carried := rfl
  below := fun _ hq => absurd hq List.not_mem_nil
  read := fun _ he => absurd he List.not_mem_nil
  kept := fun _ => .nil

/-- The blocks between what was claimed and the index of the next paragraph are of no paragraph. -/
theorem not_untouched {before after : List EditorParagraph} {w : Writing} {limit j : ℕ}
    (h : Progress letters editing paragraphs before w) (hparagraphs : paragraphs = before ++ after)
    (hafter : ∀ q rest, after = q :: rest → q.origin = some limit ∧ (editing.shownAt limit).isSome)
    (hclaimed : w.claimed ≤ j) (hj : j < limit) (hshown : editing.shownAt j ≠ none) :
    ¬editing.Untouched letters paragraphs j := by
  intro huntouched
  obtain ⟨p, ⟨before', after', heq, horigin, hsome, hbefore'⟩, -⟩ := huntouched.resolve_left hshown
  have hnot : p ∉ before := fun hmem => by
    have hlt := h.below p hmem j horigin hsome
    omega
  have hne : ∀ rest, after ≠ p :: rest := fun rest hrest => by
    have hlimit : limit = j := Option.some.inj ((hafter p rest hrest).1.symm.trans horigin)
    omega
  rw [hparagraphs] at heq
  cases List.append_eq_append_iff.mp heq with
  | inl hsplit =>
    obtain ⟨mid, rfl, hrest⟩ := hsplit
    cases mid with
    | nil => exact hne after' hrest
    | cons q mid =>
      have hq := hafter q _ hrest
      have hlt := hbefore' q (List.mem_append_right _ List.mem_cons_self) limit hq.1 hq.2
      omega
  | inr hsplit =>
    obtain ⟨mid, rfl, hrest⟩ := hsplit
    cases mid with
    | nil => exact hne after' hrest.symm
    | cons q mid =>
      obtain ⟨rfl, -⟩ := List.cons.inj hrest
      exact hnot (List.mem_append_right _ List.mem_cons_self)

/-- What a changed block is, and an unchanged one. -/
theorem written_cases (letters : Letters) (paragraph : EditorParagraph) (markdown : Text) (block : Block)
    (kind : EditorKind) (origin : ℕ) :
    written letters paragraph markdown block kind origin = block ∨
      (written letters paragraph markdown block kind origin).touched = true := by
  unfold written
  split
  · exact Or.inl rfl
  · split
    · exact Or.inr rfl
    · exact Or.inr rfl

theorem added_touched (paragraph : EditorParagraph) (markdown : Text) (previous : Option Block) :
    (added paragraph markdown previous).touched = true := by
  unfold added
  split
  · rfl
  · split
    · rfl
    · split
      · rfl
      · rfl
      · rfl
      · rfl

theorem claims_eq_some {claimed origin : ℕ} {paragraph : EditorParagraph} {block : Block} {kind : EditorKind} :
    editing.claims claimed paragraph = some (origin, block, kind) ↔
      paragraph.origin = some origin ∧ claimed ≤ origin ∧ editing.shownAt origin = some (block, kind) := by
  unfold claims
  cases paragraph.origin with
  | none => simp
  | some i =>
    rw [Option.bind_some]
    split
    · next hle =>
      rw [Option.map_eq_some_iff]
      constructor
      · rintro ⟨found, hfound, heq⟩
        obtain ⟨rfl, rfl⟩ := Prod.mk.inj heq
        exact ⟨rfl, hle, hfound⟩
      · rintro ⟨hi, -, hfound⟩
        obtain rfl := Option.some.inj hi
        exact ⟨_, hfound, rfl⟩
    · next hle =>
      constructor
      · intro h
        cases h
      · rintro ⟨hi, hle', -⟩
        exact absurd (Option.some.inj hi ▸ hle') hle

theorem original_of_shownAt {index : ℕ} {block : Block} {kind : EditorKind}
    (h : editing.shownAt index = some (block, kind)) :
    editing.original[index]? = some block ∧ EditorKind.displaying block.kind = some kind := by
  obtain ⟨found, hfound, hkind⟩ := Option.bind_eq_some_iff.mp h
  obtain ⟨kind', hkind', heq⟩ := Option.map_eq_some_iff.mp hkind
  obtain ⟨rfl, rfl⟩ := Prod.mk.inj heq
  exact ⟨hfound, hkind'⟩

/-- A paragraph that is the paragraph of no block is new. -/
theorem progress_added {before : List EditorParagraph} {w : Writing} {paragraph : EditorParagraph}
    (h : Progress letters editing paragraphs before w) (hclaims : editing.claims w.claimed paragraph = none) :
    Progress letters editing paragraphs (before ++ [paragraph]) (editing.step letters w paragraph) := by
  have hbelow : ∀ q ∈ before ++ [paragraph], ∀ i, q.origin = some i → (editing.shownAt i).isSome → i < w.claimed := by
    intro q hq i horigin hsome
    cases List.mem_append.mp hq with
    | inl hq => exact h.below q hq i horigin hsome
    | inr hq =>
      rw [List.mem_singleton.mp hq] at horigin
      by_contra hle
      obtain ⟨⟨block, kind⟩, hshown⟩ := Option.isSome_iff_exists.mp hsome
      rw [claims_eq_some.mpr ⟨horigin, by omega, hshown⟩] at hclaims
      cases hclaims
  simp only [step, hclaims]
  split
  · exact ⟨h.inside, h.carried, hbelow, h.read, h.kept⟩
  · refine ⟨h.inside, h.carried, hbelow, ?_, ?_⟩
    · intro e he htouched
      cases List.mem_append.mp he with
      | inl he => exact h.read e he htouched
      | inr he =>
        rw [List.mem_singleton.mp he, added_touched] at htouched
        cases htouched
    · intro hwritten
      rw [List.map_append]
      exact (h.kept hwritten).added _ (added_touched _ _ _)

/-- The paragraph of a block is written over it, behind the blocks that are not shown before it. -/
theorem progress_claimed {before after : List EditorParagraph} {w : Writing} {paragraph : EditorParagraph} {origin : ℕ}
    {block : Block} {kind : EditorKind} (h : Progress letters editing paragraphs before w)
    (hparagraphs : paragraphs = before ++ paragraph :: after)
    (hclaims : editing.claims w.claimed paragraph = some (origin, block, kind)) :
    Progress letters editing paragraphs (before ++ [paragraph]) (editing.step letters w paragraph) := by
  obtain ⟨horigin, hle, hshown⟩ := claims_eq_some.mp hclaims
  obtain ⟨hblock, hkind⟩ := original_of_shownAt hshown
  have hlt : origin < editing.original.length := (List.getElem?_eq_some_iff.mp hblock).1
  have hsome : (editing.shownAt origin).isSome := by rw [hshown]; rfl
  have htakes : editing.Takes paragraphs origin paragraph :=
    ⟨before, after, hparagraphs, horigin, hsome, fun q hq i hi hi' => lt_of_lt_of_le (h.below q hq i hi hi') hle⟩
  obtain ⟨more, hemit, hcarried, hkept⟩ := @emitCarried_to editing w.claimed origin hle (by omega) w.output
  have hbelow : ∀ q ∈ before ++ [paragraph], ∀ i, q.origin = some i → (editing.shownAt i).isSome → i < origin + 1 := by
    intro q hq i hi hi'
    cases List.mem_append.mp hq with
    | inl hq =>
      have hlt := h.below q hq i hi hi'
      omega
    | inr hq =>
      rw [List.mem_singleton.mp hq, horigin] at hi
      have hi := Option.some.inj hi
      omega
  have hnext : editing.carriedFrom origin = editing.carriedFrom (origin + 1) := by
    rw [carriedFrom_of_some hblock, hkind, if_neg (by simp)]
  have hstep : editing.step letters w paragraph =
      ⟨if (paragraph.markdown letters).isEmpty then w.output ++ more
        else w.output ++ more ++ [(written letters paragraph (paragraph.markdown letters) block kind origin, some origin)],
        editing.carriedFrom (origin + 1), origin + 1⟩ := by
    simp only [step, hclaims, h.carried, hemit, hnext]
  have hread : ∀ e ∈ w.output ++ more, e.1.touched = false → IsCarried editing e ∨
      ∃ index paragraph, editing.original[index]? = some e.1 ∧ editing.Takes paragraphs index paragraph ∧
        paragraph.markdown letters ≠ [] := by
    intro e he htouched
    cases List.mem_append.mp he with
    | inl he => exact h.read e he htouched
    | inr he => exact Or.inl (hcarried e he)
  have hkept' : Written letters editing paragraphs →
      Kept (editing.Untouched letters paragraphs) (editing.original.take origin) ((w.output ++ more).map Prod.fst) := by
    intro hwritten
    refine hkept _ (h.kept hwritten) fun j hj hj' hshown' => ?_
    refine not_untouched h hparagraphs ?_ hj hj' hshown'
    intro q rest hrest
    obtain ⟨rfl, -⟩ := List.cons.inj hrest
    exact ⟨horigin, hsome⟩
  have hlength : (editing.original.take origin).length = origin := by
    rw [List.length_take]
    omega
  rw [hstep]
  refine ⟨hlt, rfl, hbelow, ?_, ?_⟩
  · split
    · exact hread
    · next hmarkdown =>
      intro e he htouched
      cases List.mem_append.mp he with
      | inl he => exact hread e he htouched
      | inr he =>
        rw [List.mem_singleton.mp he] at htouched ⊢
        have hsame := (written_cases letters paragraph (paragraph.markdown letters) block kind origin).resolve_right
          (by simp only at htouched; simp [htouched])
        refine Or.inr ⟨origin, paragraph, ?_, htakes, by simpa using hmarkdown⟩
        rw [hsame]
        exact hblock
  · intro hwritten
    rw [take_succ_of_some hblock]
    split
    · next hmarkdown =>
      refine (hkept' hwritten).removed block ?_
      rw [hlength]
      intro huntouched
      obtain ⟨p, hp, hsame⟩ := huntouched.resolve_left (by rw [hshown]; exact Option.some_ne_none _)
      rw [hp.unique htakes] at hsame
      exact hwritten origin paragraph htakes hsame (by simpa using hmarkdown)
    · rw [List.map_append]
      by_cases huntouched : editing.Untouched letters paragraphs origin
      · obtain ⟨p, hp, hsame⟩ := huntouched.resolve_left (by rw [hshown]; exact Option.some_ne_none _)
        rw [hp.unique htakes] at hsame
        have hblock' : written letters paragraph (paragraph.markdown letters) block kind origin = block :=
          if_pos (hsame.markdown hshown)
        rw [List.map_cons, List.map_nil, hblock']
        exact (hkept' hwritten).keep block
      · cases written_cases letters paragraph (paragraph.markdown letters) block kind origin with
        | inl hsame =>
          rw [List.map_cons, List.map_nil, hsame]
          exact (hkept' hwritten).keep block
        | inr htouched => exact .added _ ((hkept' hwritten).removed block (by rwa [hlength])) htouched

/-- What all the paragraphs come to. -/
theorem progress (letters : Letters) (editing : BlockEditing) (paragraphs : List EditorParagraph) :
    Progress letters editing paragraphs paragraphs (paragraphs.foldl (editing.step letters) editing.start) := by
  have hall : ∀ after before w, paragraphs = before ++ after → Progress letters editing paragraphs before w →
      Progress letters editing paragraphs paragraphs (after.foldl (editing.step letters) w) := by
    intro after
    induction after with
    | nil =>
      intro before w heq h
      rw [List.append_nil] at heq
      exact heq ▸ h
    | cons paragraph rest ih =>
      intro before w heq h
      rw [List.foldl_cons]
      refine ih (before ++ [paragraph]) _ (by rw [heq, List.append_assoc]; rfl) ?_
      cases hclaims : editing.claims w.claimed paragraph with
      | none => exact progress_added h hclaims
      | some claim => exact progress_claimed h heq hclaims
  exact hall paragraphs [] editing.start rfl start_progress

/-- Everything untouched is kept where it has Markdown to write. -/
theorem kept_blocks (h : Written letters editing paragraphs) :
    Kept (editing.Untouched letters paragraphs) editing.original (editing.blocks letters paragraphs) := by
  have hprogress := progress letters editing paragraphs
  obtain ⟨more, hemit, -, hkept⟩ := @emitCarried_to editing _ editing.original.length hprogress.inside (Nat.le_refl _)
    (paragraphs.foldl (editing.step letters) editing.start).output
  simp only [blocks, hprogress.carried, hemit]
  have hall := hkept _ (hprogress.kept h) fun j hj hj' hshown =>
    not_untouched hprogress (List.append_nil paragraphs).symm (fun q rest hrest => by cases hrest) hj hj' hshown
  rwa [List.take_length] at hall

/-- A block that is as it was read was carried, or its paragraph has Markdown to write. -/
theorem read_blocks {block : Block} (h : block ∈ editing.blocks letters paragraphs) (htouched : block.touched = false) :
    (∃ index, editing.original[index]? = some block ∧ editing.shownAt index = none) ∨
      ∃ index paragraph, editing.original[index]? = some block ∧ editing.Takes paragraphs index paragraph ∧
        paragraph.markdown letters ≠ [] := by
  have hprogress := progress letters editing paragraphs
  obtain ⟨more, hemit, hcarried, -⟩ := @emitCarried_to editing _ editing.original.length hprogress.inside (Nat.le_refl _)
    (paragraphs.foldl (editing.step letters) editing.start).output
  simp only [blocks, hprogress.carried, hemit] at h
  obtain ⟨e, he, rfl⟩ := List.mem_map.mp h
  have hread : IsCarried editing e ∨ ∃ index paragraph, editing.original[index]? = some e.1 ∧
      editing.Takes paragraphs index paragraph ∧ paragraph.markdown letters ≠ [] := by
    cases List.mem_append.mp he with
    | inl he => exact hprogress.read e he htouched
    | inr he => exact Or.inl (hcarried e he)
  cases hread with
  | inl h =>
    obtain ⟨index, -, hblock, hhidden⟩ := h
    exact Or.inl ⟨index, hblock, hhidden⟩
  | inr h => exact Or.inr h

end Takes

/-! ## The paragraphs as they were opened -/

section Opened

variable {letters : Letters} {editing : BlockEditing}

/-- The blocks before an index as they are written when none is left out. -/
def stamped (editing : BlockEditing) (index : ℕ) : List (Block × Option ℕ) :=
  (editing.original.zipIdx.take index).map fun (block, i) => (block, some i)

theorem stamped_succ {index : ℕ} {block : Block} (h : editing.original[index]? = some block) :
    editing.stamped (index + 1) = editing.stamped index ++ [(block, some index)] := by
  have hget : editing.original.zipIdx[index]? = some (block, index) := by simp [h]
  rw [stamped, List.take_add_one, hget, List.map_append]
  rfl

theorem doubled_stamped (editing : BlockEditing) (block : Block) {index : ℕ} (hindex : index ≤ editing.original.length) :
    doubled (editing.stamped index) block index = false := by
  cases index with
  | zero => rfl
  | succ n =>
    have hblock : editing.original[n]? = some editing.original[n] := List.getElem?_eq_getElem (by omega)
    simp [doubled, stamped_succ hblock]

/-- Blocks that are not shown are all written where nothing before them was left out. -/
theorem emitCarried_stamped {index limit : ℕ} (hle : index ≤ limit) (hlimit : limit ≤ editing.original.length)
    (hhidden : ∀ j, index ≤ j → j < limit → editing.shownAt j = none) :
    emitCarried limit (editing.stamped index) (editing.carriedFrom index) =
      (editing.stamped limit, editing.carriedFrom limit) := by
  obtain ⟨n, rfl⟩ := Nat.exists_eq_add_of_le hle
  induction n generalizing index with
  | zero => exact emitCarried_stop _
  | succ n ih =>
    have hblock : editing.original[index]? = some editing.original[index] := List.getElem?_eq_getElem (by omega)
    generalize editing.original[index] = block at hblock
    have hkind : (EditorKind.displaying block.kind).isNone = true := by
      have hnone := hhidden index (Nat.le_refl _) (by omega)
      rw [shownAt_eq hblock, Option.map_eq_none_iff] at hnone
      rw [hnone]
      rfl
    have hnext : index + (n + 1) = index + 1 + n := by omega
    rw [hnext] at hlimit ⊢
    rw [carriedFrom_of_some hblock, if_pos hkind, emitCarried, if_pos (by omega), doubled_stamped editing block (by omega),
      if_neg Bool.false_ne_true, ← stamped_succ hblock]
    exact ih (by omega) hlimit fun j hj hj' => hhidden j (by omega) (by omega)

/-- The paragraphs of the blocks from an index on, where all those shown have Markdown to write. -/
theorem blocks_opened_from (hmarkdown : ∀ index block kind, editing.shownAt index = some (block, kind) →
      (opened letters index block kind).markdown letters ≠ [])
    {claimed index : ℕ} (hle : claimed ≤ index) (hindex : index ≤ editing.original.length)
    (hhidden : ∀ j, claimed ≤ j → j < index → editing.shownAt j = none) :
    let w := ((editing.original.zipIdx.drop index).filterMap (openedAt letters)).foldl (editing.step letters)
      ⟨editing.stamped claimed, editing.carriedFrom claimed, claimed⟩
    (emitCarried editing.original.length w.output w.carried).1 = editing.stamped editing.original.length := by
  obtain ⟨n, hn⟩ := Nat.exists_eq_add_of_le hindex
  induction n generalizing claimed index with
  | zero =>
    have hdrop : editing.original.zipIdx.drop index = [] := List.drop_eq_nil_of_le (by rw [List.length_zipIdx]; omega)
    simp only [hdrop, List.filterMap_nil, List.foldl_nil]
    rw [emitCarried_stamped (by omega) (Nat.le_refl _) fun j hj hj' => hhidden j hj (by omega)]
  | succ n ih =>
    have hlt : index < editing.original.length := by omega
    have hblock : editing.original[index]? = some editing.original[index] := List.getElem?_eq_getElem hlt
    rw [drop_zipIdx hblock]
    generalize editing.original[index] = block at hblock
    cases hkind : EditorKind.displaying block.kind with
    | none =>
      have hnone : editing.shownAt index = none := by rw [shownAt_eq hblock, hkind, Option.map_none]
      rw [List.filterMap_cons_none (by simp [openedAt, hkind])]
      refine ih (by omega) (by omega) (fun j hj hj' => ?_) (by omega)
      cases Nat.lt_or_ge j index with
      | inl h => exact hhidden j hj h
      | inr h => exact (show j = index by omega) ▸ hnone
    | some kind =>
      have hshown : editing.shownAt index = some (block, kind) := by rw [shownAt_eq hblock, hkind, Option.map_some]
      have hclaims : editing.claims claimed (opened letters index block kind) = some (index, block, kind) :=
        claims_eq_some.mpr ⟨rfl, hle, hshown⟩
      have hstep : editing.step letters ⟨editing.stamped claimed, editing.carriedFrom claimed, claimed⟩
          (opened letters index block kind) =
            ⟨editing.stamped (index + 1), editing.carriedFrom (index + 1), index + 1⟩ := by
        have hsome : ((opened letters index block kind).markdown letters).isEmpty = false := by
          simpa using hmarkdown index block kind hshown
        have hsame : written letters (opened letters index block kind) ((opened letters index block kind).markdown letters)
            block kind index = block := if_pos ⟨rfl, rfl⟩
        have hcarried : editing.carriedFrom index = editing.carriedFrom (index + 1) := by
          rw [carriedFrom_of_some hblock, hkind, if_neg (by simp)]
        simp only [step, hclaims, emitCarried_stamped hle (by omega) hhidden, hsome, hsame, hcarried, stamped_succ hblock]
        rfl
      rw [List.filterMap_cons_some (show openedAt letters (block, index) = _ by rw [openedAt, hkind]; rfl), List.foldl_cons, hstep]
      exact ih (Nat.le_refl _) (by omega) (fun j hj hj' => by omega) (by omega)

/-- A note whose shown blocks all have Markdown to write is written as it was opened. -/
theorem blocks_opened (hmarkdown : ∀ index block kind, editing.shownAt index = some (block, kind) →
      (opened letters index block kind).markdown letters ≠ []) :
    editing.blocks letters (editing.paragraphs letters) = editing.original := by
  have hfrom := @blocks_opened_from letters editing hmarkdown 0 0 (Nat.le_refl _) (Nat.zero_le _) fun j _ hj => by omega
  rw [blocks, paragraphs]
  simp only [List.drop_zero] at hfrom
  change ((emitCarried editing.original.length _ _).1).map Prod.fst = _
  rw [show editing.start = ⟨editing.stamped 0, editing.carriedFrom 0, 0⟩ from rfl, hfrom, stamped,
    List.take_of_length_le (by simp), List.map_map]
  exact List.zipIdx_map_fst 0 editing.original

/-- Each block that is shown has the paragraph it was opened with. -/
theorem takes_opened {index : ℕ} {block : Block} {kind : EditorKind} (h : editing.shownAt index = some (block, kind)) :
    editing.Takes (editing.paragraphs letters) index (opened letters index block kind) := by
  obtain ⟨hblock, hkind⟩ := original_of_shownAt h
  refine ⟨(editing.original.zipIdx.take index).filterMap (openedAt letters),
    (editing.original.zipIdx.drop (index + 1)).filterMap (openedAt letters), ?_, rfl, by rw [h]; rfl, ?_⟩
  · have hopened : openedAt letters (block, index) = some (opened letters index block kind) := by
      rw [openedAt, hkind]
      rfl
    rw [paragraphs, ← List.filterMap_cons_some hopened, ← drop_zipIdx hblock, ← List.filterMap_append,
      List.take_append_drop]
  · intro q hq i horigin _
    obtain ⟨e, he, hopened⟩ := List.mem_filterMap.mp hq
    obtain ⟨kind', -, rfl⟩ := Option.map_eq_some_iff.mp hopened
    obtain ⟨j, hj, hget⟩ := List.getElem_of_mem he
    rw [List.getElem_take, List.getElem_zipIdx] at hget
    have hi : e.2 = i := Option.some.inj horigin
    rw [← hget] at hi
    rw [List.length_take] at hj
    simp only at hi
    omega

theorem same_opened {index : ℕ} {block : Block} {kind : EditorKind} (h : editing.shownAt index = some (block, kind)) :
    Same letters editing index (opened letters index block kind) := ⟨block, kind, h, rfl, rfl⟩

end Opened

end BlockEditing

/-! ## A note -/

/-- What the editor keeps of a note when some paragraphs are written back over it. -/
structure KeepsUntouched (letters : Letters) (note : Text) (paragraphs : List EditorParagraph) : Prop where
  /-- Untouched blocks stay as they were read and in order, but for a blank line behind another. -/
  kept : BlockEditing.Kept (BlockEditing.Untouched letters ⟨Blocks.parse letters note⟩ paragraphs)
    (Blocks.parse letters note) (BlockEditing.blocks letters ⟨Blocks.parse letters note⟩ paragraphs)
  /-- The lines are the blocks' own, with only blank lines added. -/
  spaced : Spaced (BlockEditing.blocks letters ⟨Blocks.parse letters note⟩ paragraphs)
    (EditorDocument.lines (BlockEditing.blocks letters ⟨Blocks.parse letters note⟩ paragraphs))
  /-- With no paragraph changed they are the note's. -/
  unchanged : paragraphs = BlockEditing.paragraphs letters ⟨Blocks.parse letters note⟩ →
    EditorDocument.lines (BlockEditing.blocks letters ⟨Blocks.parse letters note⟩ paragraphs) =
      (TextFile.read note).lines.map (·.text)

/-- The editor keeps what was not touched exactly where every unchanged paragraph has Markdown to write. -/
theorem keeps_untouched_iff (letters : Letters) (note : Text) (paragraphs : List EditorParagraph) :
    KeepsUntouched letters note paragraphs ↔
      ∀ index paragraph, BlockEditing.Takes ⟨Blocks.parse letters note⟩ paragraphs index paragraph →
        BlockEditing.Same letters ⟨Blocks.parse letters note⟩ index paragraph → paragraph.markdown letters ≠ [] := by
  obtain ⟨hread, hsorted⟩ := sorted_parseLines letters ((TextFile.read note).lines.map (·.text)) 0 false
  constructor
  · intro h index paragraph htakes hsame hempty
    obtain ⟨block, kind, hshown, -, -⟩ := id hsame
    obtain ⟨hblock, hkind⟩ := BlockEditing.original_of_shownAt hshown
    have hmem : block ∈ BlockEditing.blocks letters ⟨Blocks.parse letters note⟩ paragraphs := by
      refine h.kept.mem hblock (Or.inr ⟨paragraph, htakes, hsame⟩) ?_
      intro hblank
      rw [hblank] at hkind
      cases hkind
    -- No two blocks begin at one line, so it is the block of this index that was left out.
    have hindex : ∀ i, (Blocks.parse letters note)[i]? = some block → i = index := by
      intro i hi
      have hnodup : (Blocks.parse letters note).Nodup := by
        apply hsorted.imp
        intro a b hlt heq
        exact absurd hlt (heq ▸ Nat.lt_irrefl _)
      exact (List.getElem?_inj (List.getElem?_eq_some_iff.mp hi).1 hnodup).mp (hi.trans hblock.symm)
    cases BlockEditing.read_blocks hmem (hread block (List.mem_of_getElem? hblock)).1 with
    | inl hcarried =>
      obtain ⟨i, hi, hhidden⟩ := hcarried
      rw [hindex i hi, hshown] at hhidden
      cases hhidden
    | inr hwritten =>
      obtain ⟨i, other, hi, hother, hmarkdown⟩ := hwritten
      rw [hindex i hi] at hother
      exact hmarkdown (hother.unique htakes ▸ hempty)
  · intro h
    refine ⟨BlockEditing.kept_blocks h, spaced_lines _, ?_⟩
    rintro rfl
    rw [BlockEditing.blocks_opened]
    · exact (lines_of_read hread).trans (source_parseLines letters _ 0 false)
    · exact fun index block kind hshown => h index _ (BlockEditing.takes_opened hshown) (BlockEditing.same_opened hshown)

/-- A note of one task without text, which is left out when nothing was changed. -/
theorem not_keeps_untouched : ¬∀ letters note paragraphs, KeepsUntouched letters note paragraphs := by
  intro h
  have hlines := (h ⟨Char.isAlpha, Char.isDigit⟩ "- [ ] \n".toList _).unchanged rfl
  revert hlines
  decide

end Thock.ThockKit
