import Thock.SyncCore.NoteSections

/-!
# What a write leaves alone

The lines a write changes are those it names. An append, a created file's text, a kept-both line
and an added section only put lines in; a replaced line changes in its text alone, a removed line
goes alone, and a fresh section is rewritten between its bounds. What finds nothing to do leaves
the note as it was.
-/

namespace Thock.SyncCore

open TextScan

/-! ## Documents after an operation -/

@[simp] theorem join_split (text : Text) : (Document.split text).join = text := by
  rw [join_eq]
  exact textOfLines_splitLines text

theorem finish_text (document : Document) (outcome : Option Outcome) (otherwise : Outcome) :
    (finish document outcome otherwise).text = textOfLines document.lines := rfl

theorem insertLines_keeps {document : Document} (h : document.Sound) (section_ : Section) (index : ℕ) (lines : List Text)
    (blankLineBefore : Bool) :
    Keeps document.lines (insertLines document section_ index lines blankLineBefore).lines ∧
      (insertLines document section_ index lines blankLineBefore).Sound := by
  unfold insertLines
  split
  · exact ⟨.refl _, h⟩
  · exact ⟨insert_keeps h _ _, insert_sound _ _ h⟩

/-- The note with a missing heading created. -/
def created (document : Document) (heading : Heading) : Document :=
  document.insert (missingHeading document heading).1 (missingHeading document heading).2

/-- A write's section is there, or its heading is created and then found or not. -/
theorem locate_cases (prim : Primitives) (document : Document) (heading : Option Heading) (outcome : Option Outcome) :
    (∃ section_, findSection prim document heading = some section_ ∧
        locate prim document heading outcome = (document, section_, outcome)) ∨
      ∃ wanted, heading = some wanted ∧ document.resolve prim wanted = none ∧
        locate prim document heading outcome =
          (created document wanted,
            (((created document wanted).resolve prim wanted).map (created document wanted).sectionOf).getD
              (created document wanted).whole, outcome.or (some .sectionAdded)) := by
  cases heading with
  | none => exact Or.inl ⟨document.whole, rfl, rfl⟩
  | some wanted =>
    cases hresolve : document.resolve prim wanted with
    | none => exact Or.inr ⟨wanted, rfl, hresolve, by rw [locate, hresolve]; rfl⟩
    | some found => exact Or.inl ⟨document.sectionOf found, by rw [findSection, hresolve]; rfl, by rw [locate, hresolve]⟩

/-- Where a write works on a document that keeps the lines of the note. -/
theorem locate_keeps (prim : Primitives) {document : Document} (h : document.Sound) (heading : Option Heading)
    (outcome : Option Outcome) :
    Keeps document.lines (locate prim document heading outcome).1.lines ∧
      (locate prim document heading outcome).1.Sound := by
  rcases locate_cases prim document heading outcome with ⟨section_, -, hlocate⟩ | ⟨wanted, -, -, hlocate⟩
  · rw [hlocate]
    exact ⟨.refl _, h⟩
  · rw [hlocate]
    exact ⟨insert_keeps h _ _, insert_sound _ _ h⟩

/-- A section is found within its document. -/
theorem findSection_within {prim : Primitives} {document : Document} {heading : Option Heading} {section_ : Section}
    (h : findSection prim document heading = some section_) : section_.Within document := by
  cases heading with
  | none =>
    obtain rfl := Option.some.inj h
    exact whole_within
  | some heading =>
    obtain ⟨found, hfound, rfl⟩ := Option.map_eq_some_iff.mp h
    exact sectionOf_within (resolveWithin_some hfound).1

/-- Texts go in between two parts of a document; only a last line above them may change, by the
terminator it gets. -/
theorem insert_between {document : Document} (hending : document.ending ≠ .none) {front back : List Line}
    (hlines : document.lines = front ++ back) (texts : List Text) :
    ∃ kept new, Completes front kept ∧ (back ≠ [] → kept = front) ∧ new.map Line.text = texts ∧
      (document.insert front.length texts).lines = kept ++ (new ++ back) := by
  by_cases hne : texts = []
  · exact ⟨front, [], .same front, fun _ => rfl, by rw [hne]; rfl, by rw [hne, insert_nil, hlines]; rfl⟩
  · rcases insert_cases document front.length hne with ⟨front', back', hlines', hlength, -, hinsert⟩ |
      ⟨front', last, texts', text, hlines', hnone, hindex, rfl, hinsert⟩
    · rw [hlines, List.length_append, min_eq_left (by omega)] at hlength
      obtain ⟨rfl, rfl⟩ := List.append_inj (hlines.symm.trans hlines') hlength.symm
      exact ⟨front, _, .same front, fun _ => rfl, map_text_linesOf _ _, hinsert⟩
    · have hback : back = [] := by
        rw [hlines, List.length_append] at hindex
        exact List.length_eq_zero_iff.mp (by omega)
      subst hback
      rw [List.append_nil] at hlines
      obtain ⟨text', ending⟩ := last
      dsimp only at hnone
      subst hnone
      refine ⟨front' ++ [⟨text', document.ending⟩], linesOf document.ending texts' ++ [⟨text, .none⟩], ?_,
        fun hnot => absurd rfl hnot, by simp, ?_⟩
      · rw [← hlines, hlines']
        exact .ended front' text' hending
      · rw [hinsert]
        simp

/-! ## What each operation touches -/

/-- Whether an operation only adds lines. -/
def Operation.adds : Operation → Bool
  | .create _ => true
  | .append .. => true
  | _ => false

def Operation.movesBlock : Operation → Bool
  | .moveBlock .. => true
  | _ => false

/-- Whether the heading a write misses is found once it is created. -/
def Operation.CreatesFound (prim : Primitives) (text : Text) (operation : Operation) : Prop :=
  operation.movesBlock = false ∧ ∀ heading ∈ operation.heading, (created (.split text) heading).resolve prim heading ≠ none

/-- What the result of an operation on a note has of the note. -/
structure TouchesOnly (prim : Primitives) (text : Text) (operation : Operation) (result : Applied) : Prop where
  noop : result.outcome = .noop → result.text = text
  adds : operation.adds = true ∨ result.outcome = .keptBoth ∨
    (result.outcome = .sectionAdded ∧ operation.CreatesFound prim text) → KeepsLines text result.text
  /-- A found line takes the new text and keeps its terminator. -/
  replaced : ∀ heading wanted ordinal newLine section_ index, operation = .replaceLine heading wanted ordinal newLine →
    findSection prim (.split text) heading = some section_ →
    findLine prim (.split text) section_ wanted ordinal = some index → result.outcome ≠ .noop →
    ∃ front line back, splitLines text = front ++ line :: back ∧ front.length = index ∧
      result.text = textOfLines front ++ (newLine ++ line.ending.text ++ textOfLines back)
  /-- One line of the identity goes. -/
  removed : ∀ heading wanted ordinal, operation = .removeLine heading wanted ordinal → result.outcome = .applied →
    ∃ front line back, splitLines text = front ++ line :: back ∧ Named prim wanted line.text ∧
      result.text = textOfLines front ++ textOfLines back
  /-- A fresh section changes between its bounds; a heading that ended the note may gain a terminator. -/
  rewritten : ∀ heading baseHash lines section_, operation = .replaceSection heading baseHash lines →
    findSection prim (.split text) (some heading) = some section_ → result.outcome = .applied →
    ∃ front body back kept new, splitLines text = front ++ (body ++ back) ∧ front.length = section_.start ∧
      front.length + body.length = section_.bodyStop ∧ Completes front kept ∧ (body ++ back ≠ [] → kept = front) ∧
      result.text = textOfLines kept ++ (new ++ textOfLines back)

section

variable {prim : Primitives} {text : Text}

theorem TouchesOnly.of_noop (operation : Operation) : TouchesOnly prim text operation ⟨text, .noop⟩ where
  noop _ := rfl
  adds _ := ⟨rawLines text, Or.inl rfl, List.Sublist.refl _⟩
  replaced := fun _ _ _ _ _ _ _ _ _ h => absurd rfl h
  removed := fun _ _ _ _ h => by cases h
  rewritten := fun _ _ _ _ _ _ h => by cases h

/-- An operation that only adds lines. -/
theorem TouchesOnly.of_keeps {operation : Operation} {document : Document} {outcome : Outcome}
    (h : Keeps (splitLines text) document.lines ∧ document.Sound) (hnoop : outcome ≠ .noop) (happlied : outcome ≠ .applied ∨
      operation.adds = true)
    (hfound : ∀ heading wanted ordinal newLine section_ index, operation = .replaceLine heading wanted ordinal newLine →
      findSection prim (.split text) heading = some section_ →
      findLine prim (.split text) section_ wanted ordinal = some index → False) :
    TouchesOnly prim text operation ⟨document.join, outcome⟩ where
  noop hout := absurd hout hnoop
  adds _ := by
    rw [join_eq]
    exact keepsLines_of_keeps h.1 h.2.chained
  replaced := fun heading wanted ordinal newLine section_ index hop hsection hline _ =>
    (hfound heading wanted ordinal newLine section_ index hop hsection hline).elim
  removed := fun _ _ _ hop hout => by
    rcases happlied with h | h
    · exact absurd hout h
    · rw [hop] at h
      cases h
  rewritten := fun _ _ _ _ hop _ hout => by
    rcases happlied with h | h
    · exact absurd hout h
    · rw [hop] at h
      cases h

theorem touches_create (content : Text) :
    TouchesOnly prim text (.create content) (applyOperation prim (.split text) none (.create content)) :=
  .of_keeps (insertLines_keeps (sound_split text) _ _ _ _) nofun (Or.inr rfl) nofun

theorem touches_append (heading : Option Heading) (lines : List Text) (placement : Placement) (blankLineBefore : Bool)
    (createFromTemplate : Bool) (after : Option Anchor) :
    TouchesOnly prim text (.append heading lines placement blankLineBefore createFromTemplate after)
      (applyOperation prim (.split text) none
        (.append heading lines placement blankLineBefore createFromTemplate after)) := by
  obtain ⟨hkeeps, hsound⟩ := locate_keeps prim (sound_split text) heading none
  have houtcome : ((locate prim (.split text) heading none).2.2).getD .applied ≠ .noop := by
    rcases locate_cases prim (.split text) heading none with ⟨section_, -, hlocate⟩ | ⟨wanted, -, -, hlocate⟩ <;>
      (rw [hlocate]; exact fun heq => by cases heq)
  rw [applyOperation]
  generalize locate prim (.split text) heading none = located at hkeeps hsound houtcome
  obtain ⟨document, section_, outcome⟩ := located
  refine .of_keeps ⟨?_, ?_⟩ houtcome (Or.inr rfl) fun _ _ _ _ _ _ heq => by cases heq
  · exact hkeeps.trans (insertLines_keeps hsound section_ _ lines blankLineBefore).1
  · exact (insertLines_keeps hsound section_ _ lines blankLineBefore).2

/-- The section of a created heading that is found has no lines. -/
theorem findLine_created {heading : Heading} (hnone : (Document.split text).resolve prim heading = none)
    (hfound : (created (.split text) heading).resolve prim heading ≠ none) :
    ∃ found, (created (.split text) heading).resolve prim heading = some found ∧
      ((created (.split text) heading).sectionOf found).bodyStop =
        ((created (.split text) heading).sectionOf found).start ∧
      ∀ wanted ordinal, findLine prim (created (.split text) heading)
        ((created (.split text) heading).sectionOf found) wanted ordinal = none := by
  obtain ⟨found, hsome⟩ := Option.ne_none_iff_exists'.mp hfound
  have hempty : ((created (.split text) heading).sectionOf found).bodyStop =
      ((created (.split text) heading).sectionOf found).start := created_empty hnone rfl hsome
  refine ⟨found, hsome, hempty, fun wanted ordinal => findLine_none.mpr fun index line hin => ?_⟩
  have hbounds := mem_matchable.mp hin
  have := hbounds.1
  have := hbounds.2.1
  omega

/-- A document cut at an index. -/
theorem split_at {lines : List Line} {index : ℕ} {line : Line} (h : lines[index]? = some line) :
    lines = lines.take index ++ line :: lines.drop (index + 1) ∧ (lines.take index).length = index := by
  obtain ⟨hlt, rfl⟩ := List.getElem?_eq_some_iff.mp h
  exact ⟨by rw [List.cons_getElem_drop_succ, List.take_append_drop], List.length_take_of_le hlt.le⟩

theorem findLine_line {document : Document} {section_ : Section} {wanted : Text} {ordinal index : ℕ}
    (h : findLine prim document section_ wanted ordinal = some index) :
    ∃ line, document.lines[index]? = some line ∧ Named prim wanted line.text := by
  obtain ⟨text, hmem, hnamed⟩ := findLine_some h
  obtain ⟨-, -, -, line, hline, rfl⟩ := mem_matchable.mp hmem
  exact ⟨line, hline, hnamed⟩

/-- An operation that created its heading. -/
theorem TouchesOnly.of_added {operation : Operation} {result : Applied} {missing : Heading}
    (hheading : operation.heading = some missing) (hnone : (Document.split text).resolve prim missing = none)
    (houtcome : result.outcome = .sectionAdded) (hadds : operation.adds = false)
    (hkeeps : (created (.split text) missing).resolve prim missing ≠ none →
      ∃ document : Document, Keeps (splitLines text) document.lines ∧ document.Sound ∧ result.text = document.join) :
    TouchesOnly prim text operation result where
  noop hout := by
    rw [houtcome] at hout
    cases hout
  adds h := by
    rcases h with h | h | ⟨-, h⟩
    · rw [hadds] at h
      cases h
    · rw [houtcome] at h
      cases h
    · obtain ⟨document, hkept, hsound, htext⟩ := hkeeps (h.2 missing hheading)
      rw [htext, join_eq]
      exact keepsLines_of_keeps hkept hsound.chained
  replaced := fun heading wanted ordinal newLine section_ index hop hsection _ _ => by
    subst hop
    obtain rfl : heading = some missing := hheading
    rw [findSection, hnone] at hsection
    cases hsection
  removed := fun _ _ _ _ hout => by
    rw [houtcome] at hout
    cases hout
  rewritten := fun _ _ _ _ _ _ hout => by
    rw [houtcome] at hout
    cases hout

theorem created_keeps (text : Text) (heading : Heading) :
    Keeps (splitLines text) (created (.split text) heading).lines ∧ (created (.split text) heading).Sound :=
  ⟨insert_keeps (sound_split text) _ _, insert_sound _ _ (sound_split text)⟩

theorem touches_replaceLine (heading : Option Heading) (wanted : Text) (ordinal : ℕ) (newLine : Text) :
    TouchesOnly prim text (.replaceLine heading wanted ordinal newLine)
      (applyOperation prim (.split text) none (.replaceLine heading wanted ordinal newLine)) := by
  rw [applyOperation]
  rcases locate_cases prim (.split text) heading none with ⟨section_, hsection, hlocate⟩ |
    ⟨missing, rfl, hnone, hlocate⟩
  · rw [hlocate]
    dsimp only
    cases hfind : findLine prim (.split text) section_ wanted ordinal with
    | some index =>
      obtain ⟨line, hline, -⟩ := findLine_line hfind
      obtain ⟨hsplit, hlength⟩ := split_at hline
      obtain ⟨hlt, hget⟩ := List.getElem?_eq_some_iff.mp hline
      refine ⟨?_, ?_, ?_, ?_, ?_⟩
      · rintro ⟨⟩
      · rintro (h | h | ⟨h, -⟩) <;> cases h
      · rintro heading' wanted' ordinal' newLine' section' index' hop hsection' hfind' -
        cases hop
        rw [hsection] at hsection'
        obtain rfl := Option.some.inj hsection'
        rw [hfind] at hfind'
        obtain rfl := Option.some.inj hfind'
        refine ⟨_, line, _, hsplit, hlength, ?_⟩
        rw [finish_text, List.modify_eq_take_cons_drop hlt, textOfLines_append, textOfLines_cons, Line.whole, hget]
      all_goals
        intros
        contradiction
    | none =>
      refine .of_keeps (insertLines_keeps (sound_split text) _ _ _ _) (fun h => by cases h) (Or.inl fun h => by cases h) ?_
      rintro heading' wanted' ordinal' newLine' section' index' hop hsection' hfind'
      cases hop
      rw [hsection] at hsection'
      obtain rfl := Option.some.inj hsection'
      rw [hfind] at hfind'
      cases hfind'
  · refine .of_added rfl hnone ?_ rfl fun hfound => ?_
    · rw [hlocate]
      dsimp only
      split <;> rfl
    · obtain ⟨found, hsome, -, hfind⟩ := findLine_created hnone hfound
      rw [hlocate, hsome]
      dsimp only [Option.map_some, Option.getD_some]
      rw [hfind]
      dsimp only
      obtain ⟨hkept, hsound⟩ := created_keeps text missing
      have hinsert := insertLines_keeps hsound ((created (.split text) missing).sectionOf found)
        ((created (.split text) missing).sectionOf found).bodyStop [mark newLine] false
      exact ⟨_, hkept.trans hinsert.1, hinsert.2, by rw [finish_text, join_eq]⟩

theorem touches_removeLine (heading : Option Heading) (wanted : Text) (ordinal : ℕ) :
    TouchesOnly prim text (.removeLine heading wanted ordinal)
      (applyOperation prim (.split text) none (.removeLine heading wanted ordinal)) := by
  rw [applyOperation]
  rcases locate_cases prim (.split text) heading none with ⟨section_, hsection, hlocate⟩ |
    ⟨missing, rfl, hnone, hlocate⟩
  · rw [hlocate]
    dsimp only
    cases hfind : findLine prim (.split text) section_ wanted ordinal with
    | some index =>
      obtain ⟨line, hline, hnamed⟩ := findLine_line hfind
      obtain ⟨hsplit, hlength⟩ := split_at hline
      refine ⟨nofun, fun h => ?_, nofun, ?_, nofun⟩
      · rcases h with h | h | ⟨h, -⟩ <;> cases h
      · rintro heading' wanted' ordinal' hop -
        cases hop
        refine ⟨_, line, _, hsplit, hnamed, ?_⟩
        rw [finish_text, List.eraseIdx_eq_take_drop_succ, textOfLines_append]
    | none =>
      rw [finish, join_split]
      exact .of_noop _
  · refine .of_added rfl hnone ?_ rfl fun hfound => ?_
    · rw [hlocate]
      dsimp only
      split <;> rfl
    · obtain ⟨found, hsome, -, hfind⟩ := findLine_created hnone hfound
      rw [hlocate, hsome]
      dsimp only [Option.map_some, Option.getD_some]
      rw [hfind]
      dsimp only
      obtain ⟨hkept, hsound⟩ := created_keeps text missing
      exact ⟨_, hkept, hsound, by rw [finish_text, join_eq]⟩

/-- Lines that all have a terminator are complete. -/
theorem Completes.eq_of_terminated {lines kept : List Line} (h : Completes lines kept)
    (hlines : ∀ line ∈ lines, line.ending ≠ .none) : kept = lines := by
  cases h with
  | same => rfl
  | ended front text hne => exact absurd rfl (hlines ⟨text, .none⟩ (by simp))

/-- A section rewritten between its bounds. -/
theorem rewritten_between {document : Document} (h : document.Sound) {section_ : Section}
    (hwithin : section_.Within document) (lines : List Text) :
    ∃ front body back kept new, document.lines = front ++ (body ++ back) ∧ front.length = section_.start ∧
      front.length + body.length = section_.bodyStop ∧ Completes front kept ∧ (body ++ back ≠ [] → kept = front) ∧
      (Document.insert { document with
        lines := document.lines.take section_.start ++ document.lines.drop section_.bodyStop } section_.start lines).lines =
          kept ++ (new ++ back) := by
  have hstart : (document.lines.take section_.start).length = section_.start :=
    List.length_take_of_le (hwithin.start_le.trans (hwithin.body_le.trans hwithin.stop_le))
  have hlines : document.lines = document.lines.take section_.start ++
      ((document.lines.take section_.bodyStop).drop section_.start ++ document.lines.drop section_.bodyStop) := by
    conv_lhs => rw [← List.take_append_drop section_.bodyStop document.lines,
      ← List.take_append_drop section_.start (document.lines.take section_.bodyStop)]
    rw [List.take_take, min_eq_left hwithin.start_le, List.append_assoc]
  obtain ⟨kept, new, hkept, -, -, hinsert⟩ := @insert_between { document with
      lines := document.lines.take section_.start ++ document.lines.drop section_.bodyStop } h.ending _ _ rfl lines
  rw [hstart] at hinsert
  refine ⟨_, _, _, kept, new, hlines, hstart, ?_, hkept, fun hne => ?_, hinsert⟩
  · rw [hstart, List.length_drop, List.length_take_of_le (hwithin.body_le.trans hwithin.stop_le)]
    have := hwithin.start_le
    omega
  · have hchained := h.chained
    rw [hlines] at hchained
    exact hkept.eq_of_terminated (hchained.front hne)

theorem touches_replaceSection (heading : Heading) (baseHash : Text) (lines : List Text) :
    TouchesOnly prim text (.replaceSection heading baseHash lines)
      (applyOperation prim (.split text) none (.replaceSection heading baseHash lines)) := by
  rw [applyOperation]
  rcases locate_cases prim (.split text) (some heading) none with ⟨section_, hsection, hlocate⟩ |
    ⟨missing, hmissing, hnone, hlocate⟩
  · rw [hlocate]
    dsimp only
    by_cases hfresh : hashLines prim ((Document.split text).bodyTexts section_) = baseHash
    · rw [if_pos hfresh]
      refine ⟨nofun, fun h => ?_, nofun, nofun, ?_⟩
      · rcases h with h | h | ⟨h, -⟩ <;> cases h
      · rintro heading' baseHash' lines' section' hop hsection' -
        cases hop
        rw [hsection] at hsection'
        obtain rfl := Option.some.inj hsection'
        obtain ⟨front, body, back, kept, new, hlines, hstart, hstop, hkept, hsame, hinsert⟩ :=
          rewritten_between (sound_split text) (findSection_within hsection) lines
        refine ⟨front, body, back, kept, new.flatMap Line.whole, hlines, hstart, hstop, hkept, hsame, ?_⟩
        rw [finish_text, hinsert, textOfLines_append, textOfLines_append]
        rfl
    · rw [if_neg hfresh]
      split
      · rw [finish, join_split]
        exact .of_noop _
      · exact .of_keeps (insertLines_keeps (sound_split text) _ _ _ _) nofun (Or.inl nofun) nofun
  · obtain rfl := Option.some.inj hmissing
    refine .of_added rfl hnone ?_ rfl fun hfound => ?_
    · rw [hlocate]
      dsimp only
      split
      · rfl
      · split <;> rfl
    · obtain ⟨found, hsome, hempty, -⟩ := findLine_created hnone hfound
      rw [hlocate, hsome]
      dsimp only [Option.map_some, Option.getD_some]
      obtain ⟨hkept, hsound⟩ := created_keeps text heading
      split
      · rw [hempty, List.take_append_drop]
        exact ⟨_, hkept.trans (insert_keeps hsound _ _), insert_sound _ _ hsound, by rw [finish_text, join_eq]⟩
      · split
        · exact ⟨_, hkept, hsound, by rw [finish_text, join_eq]⟩
        · have hinsert := insertLines_keeps hsound ((created (.split text) heading).sectionOf found)
            ((created (.split text) heading).sectionOf found).bodyStop (markFirst lines) true
          exact ⟨_, hkept.trans hinsert.1, hinsert.2, by rw [finish_text, join_eq]⟩

theorem touches_removeBlock (heading : Option Heading) (wanted : Text) (ordinal : ℕ) :
    TouchesOnly prim text (.removeBlock heading wanted ordinal)
      (applyOperation prim (.split text) none (.removeBlock heading wanted ordinal)) := by
  have hunchanged : unchanged (.split text) none = ⟨text, .noop⟩ := by rw [unchanged, join_split]; rfl
  rw [applyOperation]
  split
  · rw [hunchanged]
    exact .of_noop _
  · split
    · refine ⟨nofun, fun h => ?_, nofun, nofun, nofun⟩
      rcases h with h | h | ⟨h, -⟩ <;> cases h
    · rw [hunchanged]
      exact .of_noop _

theorem locate_outcome (document : Document) (heading : Option Heading) {outcome : Option Outcome}
    (h : outcome = none ∨ outcome = some .sectionAdded) :
    (locate prim document heading outcome).2.2 = none ∨ (locate prim document heading outcome).2.2 = some .sectionAdded := by
  rcases locate_cases prim document heading outcome with ⟨section_, -, hlocate⟩ | ⟨wanted, -, -, hlocate⟩
  · rw [hlocate]
    exact h
  · rw [hlocate]
    rcases h with rfl | rfl <;> exact Or.inr rfl

/-- A move creates a section or none. -/
theorem locateGroup_outcome (document : Document) (to_ createUnder : Option Heading) :
    (locateGroup prim document to_ createUnder none).2.2 = none ∨
      (locateGroup prim document to_ createUnder none).2.2 = some .sectionAdded := by
  cases to_ with
  | none => exact Or.inl rfl
  | some to_ =>
    cases createUnder with
    | none => exact locate_outcome document (some to_) (Or.inl rfl)
    | some parent =>
      have hparent := @locate_outcome prim document (some parent) none (Or.inl rfl)
      rw [locateGroup]
      generalize locate prim document (some parent) none = located at hparent
      obtain ⟨document, section_, outcome⟩ := located
      dsimp only at hparent ⊢
      split
      · exact hparent
      · rcases hparent with hparent | hparent
        · rw [hparent]
          exact Or.inr rfl
        · rw [hparent]
          exact Or.inr rfl

theorem touches_moveBlock (heading : Option Heading) (wanted : Text) (ordinal : ℕ) (to_ : Option Heading) (place : Place)
    (newLine : Option Text) (createUnder : Option Heading) :
    TouchesOnly prim text (.moveBlock heading wanted ordinal to_ place newLine createUnder)
      (applyMoveBlock prim (.split text) none heading wanted ordinal to_ place newLine createUnder) := by
  have hunchanged : unchanged (.split text) none = ⟨text, .noop⟩ := by rw [unchanged, join_split]; rfl
  rw [applyMoveBlock]
  split
  · rw [hunchanged]
    exact .of_noop _
  · split
    · rw [hunchanged]
      exact .of_noop _
    · rename_i source _ _ index _
      have houtcome := @locateGroup_outcome prim
        (cut (.split text) index (blockEnd (.split text) source index)) to_ createUnder
      dsimp only
      refine ⟨fun hnoop => ?_, fun h => ?_, nofun, nofun, nofun⟩
      · rw [finish] at hnoop
        dsimp only at hnoop
        rcases houtcome with hout | hout <;> rw [hout] at hnoop <;> cases hnoop
      · rw [finish] at h
        dsimp only at h
        rcases h with h | h | ⟨-, h, -⟩
        · cases h
        · rcases houtcome with hout | hout <;> rw [hout] at h <;> cases h
        · cases h

/-- A write touches only what it names. -/
theorem apply_touches_only (prim : Primitives) (text : Text) (write : Write) (seed : Option Text) :
    TouchesOnly prim text write.operation (apply prim (some text) write seed) := by
  unfold apply
  split
  · exact .of_noop _
  · dsimp only
    split
    · exact .of_noop _
    · cases write.operation with
      | create content => exact touches_create content
      | append heading lines placement blankLineBefore createFromTemplate after =>
        exact touches_append heading lines placement blankLineBefore createFromTemplate after
      | replaceLine heading wanted ordinal newLine => exact touches_replaceLine heading wanted ordinal newLine
      | removeLine heading wanted ordinal => exact touches_removeLine heading wanted ordinal
      | replaceSection heading baseHash lines => exact touches_replaceSection heading baseHash lines
      | moveBlock heading wanted ordinal to_ place newLine createUnder =>
        exact touches_moveBlock heading wanted ordinal to_ place newLine createUnder
      | removeBlock heading wanted ordinal => exact touches_removeBlock heading wanted ordinal
      | putFile contentBase64 contentHash =>
        rw [applyOperation, unchanged, join_split]
        exact .of_noop _
      | moveFile to_ =>
        rw [applyOperation, unchanged, join_split]
        exact .of_noop _

end

/-- A note with a task in one of its two sections. -/
def twoSections : Text := "## A\n- x\n## B\n".toList

/-- The task is moved into a section the note lacks. -/
def moveToNewSection : Write :=
  ⟨1, "phone".toList, "day.md".toList,
    .moveBlock (some ⟨"A".toList, 2, 0⟩) "x".toList 0 (some ⟨"C".toList, 2, 0⟩) .end_ none none⟩

/-- A block that moves into a created section leaves its place among the other lines. -/
theorem move_to_new_section_reorders :
    moveToNewSection.validate.isOk = true ∧
      (apply asciiPrimitives (some twoSections) moveToNewSection none).outcome = .sectionAdded ∧
      ¬KeepsLines twoSections (apply asciiPrimitives (some twoSections) moveToNewSection none).text := by
  refine ⟨by decide +kernel, by decide +kernel, ?_⟩
  have hresult : rawLines (apply asciiPrimitives (some twoSections) moveToNewSection none).text =
      ["## A\n".toList, "## B\n".toList, "\n".toList, "## C\n".toList, "- x\n".toList] := by decide +kernel
  have hlines : rawLines twoSections = ["## A\n".toList, "- x\n".toList, "## B\n".toList] := by decide +kernel
  rintro ⟨kept, hkept, hsub⟩
  rw [hresult] at hsub
  rcases hkept with rfl | ⟨front, last, ending, hraw, hlast, -, -⟩
  · rw [hlines] at hsub
    exact absurd hsub (by decide +kernel)
  · rw [hlines] at hraw
    have hends := congrArg List.getLast? hraw
    rw [List.getLast?_concat] at hends
    obtain rfl := Option.some.inj hends.symm
    exact absurd hlast (by decide +kernel)

end Thock.SyncCore
