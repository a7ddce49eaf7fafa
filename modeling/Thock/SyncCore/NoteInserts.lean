import Thock.SyncCore.Apply
import Thock.SyncCore.NoteLines

/-!
# Lines put into a note

An insertion keeps every line of the note, in order and byte for byte. Only a last line without a
terminator changes: it gets one when lines go in below it. What is kept in the lines of a document
is kept in the lines of its text.
-/

namespace Thock.SyncCore

open TextScan

/-! ## Terminators inside a document -/

/-- Every line but the last has a terminator. -/
def Chained : List Line → Prop
  | [] => True
  | line :: rest => (line.ending ≠ .none ∨ rest = []) ∧ Chained rest

theorem WellFormed.chained {lines : List Line} (h : WellFormed lines) : Chained lines := by
  induction lines with
  | nil => trivial
  | cons line rest ih =>
    rcases h with ⟨hline, hrest⟩ | ⟨-, rfl⟩
    · exact ⟨Or.inl hline.2.1, ih hrest⟩
    · exact ⟨Or.inr rfl, trivial⟩

theorem Chained.append {front back : List Line} (hfront : ∀ line ∈ front, line.ending ≠ .none) (hback : Chained back) :
    Chained (front ++ back) := by
  induction front with
  | nil => exact hback
  | cons line front ih =>
    exact ⟨Or.inl (hfront line List.mem_cons_self), ih fun other hother => hfront other (List.mem_cons_of_mem _ hother)⟩

theorem Chained.back {front back : List Line} (h : Chained (front ++ back)) : Chained back := by
  induction front with
  | nil => exact h
  | cons line front ih => exact ih h.2

theorem Chained.front {front back : List Line} (h : Chained (front ++ back)) (hback : back ≠ []) :
    ∀ line ∈ front, line.ending ≠ .none := by
  induction front with
  | nil => simp
  | cons line front ih =>
    intro other hother
    rcases List.mem_cons.mp hother with rfl | hother
    · exact h.1.resolve_right fun hnil => hback (List.append_eq_nil_iff.mp hnil).2
    · exact ih h.2 other hother

theorem dominantEnding_ne (lines : List Line) : dominantEnding lines ≠ .none := by
  unfold dominantEnding
  split <;> nofun

/-- A document as a note is split into and as the rules leave it. -/
structure Document.Sound (document : Document) : Prop where
  chained : Chained document.lines
  ending : document.ending ≠ .none

theorem sound_split (text : Text) : (Document.split text).Sound :=
  ⟨(wellFormed_splitLines text).chained, dominantEnding_ne _⟩

theorem sound_empty : Document.empty.Sound := ⟨trivial, nofun⟩

/-! ## What an insertion does -/

theorem setLastEnding_concat (ending : Ending) (front : List Line) (last : Line) :
    setLastEnding ending (front ++ [last]) = front ++ [{ last with ending }] := by
  induction front with
  | nil => rfl
  | cons line front ih =>
    cases front with
    | nil => rfl
    | cons next front => exact congrArg (line :: ·) ih

/-- Texts as lines with a terminator. -/
def linesOf (ending : Ending) (texts : List Text) : List Line := texts.map fun text => ⟨text, ending⟩

theorem linesOf_zipIdx (ending : Ending) (texts : List Text) (tail : Bool) (n k : ℕ) (hn : k + texts.length < n + 1) :
    (texts.zipIdx k).map (fun (text, i) => (⟨text, if tail && i + 1 == n + 1 then .none else ending⟩ : Line)) =
      linesOf ending texts := by
  induction texts generalizing k with
  | nil => rfl
  | cons text texts ih =>
    rw [List.length_cons] at hn
    have hk : (k + 1 == n + 1) = false := by
      rw [beq_eq_false_iff_ne]
      omega
    rw [List.zipIdx_cons, List.map_cons, ih (k + 1) (by omega)]
    simp only [hk, Bool.and_false]
    rfl

/-- An insertion puts its texts between two parts of a document, or below a last line that then gets
the terminator it lacked. -/
theorem insert_cases (document : Document) (index : ℕ) {texts : List Text} (hne : texts ≠ []) :
    (∃ front back, document.lines = front ++ back ∧ front.length = min index document.lines.length ∧
        (back = [] → ∀ last ∈ front.getLast?, last.ending ≠ .none) ∧
        (document.insert index texts).lines = front ++ (linesOf document.ending texts ++ back)) ∨
      ∃ front last texts' text, document.lines = front ++ [last] ∧ last.ending = .none ∧
        document.lines.length ≤ index ∧ texts = texts' ++ [text] ∧
        (document.insert index texts).lines =
          front ++ ({ last with ending := document.ending } :: (linesOf document.ending texts' ++ [⟨text, .none⟩])) := by
  obtain ⟨texts', text, rfl⟩ := List.eq_nil_or_concat texts |>.resolve_left hne
  rw [List.concat_eq_append] at *
  by_cases htail : document.lines.length ≤ index ∧ ∃ last ∈ document.lines.getLast?, last.ending = .none
  · obtain ⟨hindex, last, hlast, hending⟩ := htail
    obtain ⟨front, hfront⟩ := List.getLast?_eq_some_iff.mp hlast
    refine Or.inr ⟨front, last, texts', text, hfront, hending, hindex, rfl, ?_⟩
    have hflag : ((min index document.lines.length == document.lines.length) &&
        document.lines.getLast?.any fun line => line.ending = .none) = true := by
      rw [hlast, min_eq_right hindex]
      simp [hending]
    unfold Document.insert
    rw [if_neg (by simp)]
    dsimp only
    rw [hflag, if_pos rfl, hfront, setLastEnding_concat, min_eq_right (by rw [← hfront]; exact hindex)]
    rw [List.take_of_length_le (by simp), List.drop_of_length_le (by simp), List.append_nil, List.zipIdx_append,
      List.map_append, List.length_append, List.length_singleton, linesOf_zipIdx _ _ _ _ _ (by omega)]
    simp
  · refine Or.inl ⟨document.lines.take index, document.lines.drop index, (List.take_append_drop _ _).symm,
      List.length_take, fun hback last hlast hending => htail ?_, ?_⟩
    · rw [List.drop_eq_nil_iff] at hback
      rw [List.take_of_length_le hback] at hlast
      exact ⟨hback, last, hlast, hending⟩
    · have hflag : ((min index document.lines.length == document.lines.length) &&
          document.lines.getLast?.any fun line => line.ending = .none) = false := by
        by_contra hnot
        rw [Bool.not_eq_false, Bool.and_eq_true, beq_iff_eq, Option.any_eq_true] at hnot
        obtain ⟨hindex, last, hlast, hending⟩ := hnot
        exact htail ⟨by omega, last, hlast, by simpa using hending⟩
      unfold Document.insert
      rw [if_neg (by simp)]
      dsimp only
      have hplain (texts : List Text) : (texts.zipIdx.map fun (text, i) =>
          (⟨text, if false && i + 1 == (texts' ++ [text]).length then .none else document.ending⟩ : Line)) =
            linesOf document.ending texts := by
        conv_rhs => rw [linesOf, ← List.zipIdx_map_fst 0 texts, List.map_map]
        rfl
      rw [hflag, if_neg Bool.false_ne_true, ← List.take_eq_take_min, ← List.drop_eq_drop_min, List.append_assoc]
      exact congrArg (fun inserted => document.lines.take index ++ (inserted ++ document.lines.drop index))
        (hplain (texts' ++ [text]))

section

variable (document : Document) (index : ℕ) (texts : List Text)

@[simp] theorem insert_nil : document.insert index [] = document := rfl

@[simp] theorem insert_ending : (document.insert index texts).ending = document.ending := by
  unfold Document.insert
  split <;> rfl

@[simp] theorem map_text_linesOf (ending : Ending) : (linesOf ending texts).map Line.text = texts := by
  rw [linesOf, List.map_map]
  exact List.map_id texts

/-- The texts of the lines, with the new ones between. -/
theorem insert_texts :
    (document.insert index texts).lines.map Line.text =
      (document.lines.map Line.text).take index ++ texts ++ (document.lines.map Line.text).drop index := by
  by_cases hne : texts = []
  · rw [hne, insert_nil, List.append_nil, List.take_append_drop]
  · rcases insert_cases document index hne with ⟨front, back, hlines, hlength, -, hinsert⟩ |
      ⟨front, last, texts', text, hlines, -, hindex, rfl, hinsert⟩
    · have hcut : min index document.lines.length = (front.map Line.text).length := by rw [List.length_map, hlength]
      have htake : (document.lines.map Line.text).take index = front.map Line.text := by
        rw [List.take_eq_take_min, List.length_map, hcut, hlines, List.map_append, List.take_left]
      have hdrop : (document.lines.map Line.text).drop index = back.map Line.text := by
        rw [List.drop_eq_drop_min, List.length_map, hcut, hlines, List.map_append, List.drop_left]
      rw [hinsert, htake, hdrop]
      simp
    · rw [List.take_of_length_le (by simpa using hindex), List.drop_of_length_le (by simpa using hindex), hinsert, hlines]
      simp

theorem insert_sound {document : Document} (h : document.Sound) : (document.insert index texts).Sound := by
  refine ⟨?_, by rw [insert_ending]; exact h.ending⟩
  by_cases hne : texts = []
  · rw [hne, insert_nil]
    exact h.chained
  · have hterminated (texts : List Text) : ∀ line ∈ linesOf document.ending texts, line.ending ≠ .none := by
      intro line hline
      obtain ⟨text, -, rfl⟩ := List.mem_map.mp hline
      exact h.ending
    have hchained := h.chained
    rcases insert_cases document index hne with ⟨front, back, hlines, -, hlast, hinsert⟩ |
      ⟨front, last, texts', text, hlines, hending, -, -, hinsert⟩
    · rw [hlines] at hchained
      have hfront : ∀ line ∈ front, line.ending ≠ .none := by
        by_cases hback : back = []
        · rcases List.eq_nil_or_concat front with rfl | ⟨front', last, rfl⟩
          · simp
          · rw [List.concat_eq_append] at *
            intro line hline
            rcases List.mem_append.mp hline with hline | hline
            · rw [hback, List.append_nil] at hchained
              exact hchained.front (List.cons_ne_nil _ _) line hline
            · rw [List.mem_singleton.mp hline]
              exact hlast hback last List.getLast?_concat
        · exact hchained.front hback
      rw [hinsert]
      exact .append hfront (.append (hterminated texts) hchained.back)
    · rw [hlines] at hchained
      rw [hinsert]
      exact .append (hchained.front (List.cons_ne_nil _ _))
        ⟨Or.inl h.ending, .append (hterminated texts') ⟨Or.inr rfl, trivial⟩⟩

end

/-! ## Lines that are kept -/

/-- A list of lines, its last with a terminator where it had none or not. -/
inductive Completes : List Line → List Line → Prop
  | same (lines : List Line) : Completes lines lines
  | ended (front : List Line) (text : Text) {ending : Ending} (h : ending ≠ .none) :
    Completes (front ++ [⟨text, .none⟩]) (front ++ [⟨text, ending⟩])

/-- Lines that stand in order among others. -/
def Keeps (lines lines' : List Line) : Prop := ∃ kept, Completes lines kept ∧ kept.Sublist lines'

theorem Keeps.refl (lines : List Line) : Keeps lines lines := ⟨lines, .same lines, List.Sublist.refl _⟩

theorem Keeps.trans {a b c : List Line} (hab : Keeps a b) (hbc : Keeps b c) : Keeps a c := by
  obtain ⟨kept, hkept, hsub⟩ := hab
  obtain ⟨kept', hkept', hsub'⟩ := hbc
  cases hkept' with
  | same => exact ⟨kept, hkept, hsub.trans hsub'⟩
  | ended front text hne =>
    obtain ⟨early, late, rfl, hearly, hlate⟩ := List.sublist_append_iff.mp hsub
    rcases List.sublist_singleton.mp hlate with rfl | rfl
    · rw [List.append_nil] at hkept
      exact ⟨early, hkept, (hearly.trans (List.sublist_append_left _ _)).trans hsub'⟩
    · refine ⟨early ++ [⟨text, _⟩], ?_, (hearly.append_right _).trans hsub'⟩
      generalize hall : early ++ [(⟨text, .none⟩ : Line)] = all at hkept
      cases hkept with
      | same =>
        rw [← hall]
        exact .ended early text hne
      | ended front' text' hne' =>
        obtain ⟨-, hlast⟩ := List.append_inj' hall rfl
        cases hlast
        exact absurd rfl hne'

/-- An insertion keeps every line. -/
theorem insert_keeps {document : Document} (h : document.Sound) (index : ℕ) (texts : List Text) :
    Keeps document.lines (document.insert index texts).lines := by
  by_cases hne : texts = []
  · rw [hne, insert_nil]
    exact .refl _
  · rcases insert_cases document index hne with ⟨front, back, hlines, -, -, hinsert⟩ |
      ⟨front, last, texts', text, hlines, hending, -, -, hinsert⟩
    · refine ⟨front ++ back, by rw [hlines]; exact .same _, ?_⟩
      rw [hinsert]
      exact (List.Sublist.refl front).append (List.sublist_append_right _ _)
    · obtain ⟨lastText, lastEnding⟩ := last
      dsimp only at hending
      subst hending
      refine ⟨front ++ [⟨lastText, document.ending⟩], by rw [hlines]; exact .ended front lastText h.ending, ?_⟩
      rw [hinsert]
      exact (List.Sublist.refl front).append ((List.nil_sublist _).cons_cons _)

/-! ## Lines of a text -/

/-- The lines of a text with their terminators. -/
def rawLines (text : Text) : List Text := (splitLines text).map Line.whole

/-- A text whose lines stand in order among those of another, byte for byte; the last may gain the
terminator it lacked. -/
def KeepsLines (text result : Text) : Prop :=
  ∃ kept, (kept = rawLines text ∨ ∃ front last ending, rawLines text = front ++ [last] ∧ '\n' ∉ last ∧
    ending ≠ Ending.none ∧ kept = front ++ [last ++ ending.text]) ∧ kept.Sublist (rawLines result)

theorem rawLines_newline {x : Text} (hx : '\n' ∉ x) (t : Text) :
    rawLines (x ++ '\n' :: t) = (x ++ ['\n']) :: rawLines t := by
  rw [rawLines, splitLines_newline hx, List.map_cons, terminated_whole]
  rfl

theorem rawLines_last {x : Text} (hx : '\n' ∉ x) (hne : x ≠ []) : rawLines x = [x] := by
  rw [rawLines, splitLines_last hx hne, List.map_singleton, Line.whole, Ending.text, List.append_nil]

theorem rawLines_append {a : Text} (h : a ≠ [] → a.getLast? = some '\n') (b : Text) :
    rawLines (a ++ b) = rawLines a ++ rawLines b := by
  generalize hlength : a.length = n
  induction n using Nat.strong_induction_on generalizing a with
  | _ n ih =>
    rcases text_cases a with rfl | ⟨hx, hne⟩ | ⟨x, rest, hx, rfl⟩
    · rfl
    · exact absurd (List.mem_of_getLast? (h hne)) hx
    · have hrest : rest ≠ [] → rest.getLast? = some '\n' := by
        intro hne
        have hlast := h (by simp)
        rwa [← List.singleton_append, ← List.append_assoc, List.getLast?_append_of_ne_nil _ hne] at hlast
      rw [List.append_assoc, List.cons_append, rawLines_newline hx, rawLines_newline hx,
        ih rest.length (by simp at hlength; omega) hrest rfl, List.cons_append]

/-- A line that stands as one in the text of a document. -/
def Line.Single (line : Line) : Prop := '\n' ∉ line.text ∧ (line.ending = .none → line.text ≠ [])

theorem whole_last {line : Line} (h : line.ending ≠ .none) : line.whole ≠ [] ∧ line.whole.getLast? = some '\n' := by
  have hends : ∃ c, line.whole = c ++ ['\n'] := by
    rw [Line.whole]
    cases hending : line.ending with
    | lf => exact ⟨line.text, rfl⟩
    | crLf => exact ⟨line.text ++ ['\r'], by simp [Ending.text]⟩
    | none => exact absurd hending h
  obtain ⟨c, hc⟩ := hends
  rw [hc]
  exact ⟨by simp, List.getLast?_concat⟩

theorem rawLines_whole {line : Line} (h : line.Single) : rawLines line.whole = [line.whole] := by
  rw [Line.whole]
  cases hending : line.ending with
  | lf =>
    exact rawLines_newline h.1 []
  | crLf =>
    have hassoc : line.text ++ Ending.crLf.text = line.text ++ ['\r'] ++ '\n' :: [] := by simp [Ending.text]
    rw [hassoc, rawLines_newline (by simp [h.1])]
    rfl
  | none =>
    rw [Ending.text, List.append_nil]
    exact rawLines_last h.1 (h.2 hending)

/-- Whole lines among those of a document are among the lines of its text. -/
theorem rawLines_sublist {kept lines : List Line} (h : kept.Sublist lines) (hkept : ∀ line ∈ kept, line.Single)
    (hlines : Chained lines) : (kept.map Line.whole).Sublist (rawLines (textOfLines lines)) := by
  induction h with
  | slnil => exact List.Sublist.refl _
  | @cons kept rest line hsub ih =>
    rw [textOfLines_cons]
    rcases hlines with ⟨hending | rfl, hrest⟩
    · rw [rawLines_append fun _ => (whole_last hending).2]
      exact (ih hkept hrest).trans (List.sublist_append_right _ _)
    · rw [List.sublist_nil.mp hsub]
      exact List.nil_sublist _
  | @cons_cons kept rest line hsub ih =>
    have hline := rawLines_whole (hkept line List.mem_cons_self)
    have hothers : ∀ other ∈ kept, other.Single := fun other hother => hkept other (List.mem_cons_of_mem _ hother)
    rw [textOfLines_cons, List.map_cons]
    rcases hlines with ⟨hending | rfl, hrest⟩
    · rw [rawLines_append fun _ => (whole_last hending).2, hline, List.singleton_append]
      exact (ih hothers hrest).cons_cons _
    · rw [List.sublist_nil.mp hsub, textOfLines_nil, List.append_nil, hline]
      exact List.Sublist.refl _

theorem WellFormed.single {lines : List Line} (h : WellFormed lines) : ∀ line ∈ lines, line.Single := by
  induction lines with
  | nil => simp
  | cons line rest ih =>
    intro other hother
    rcases List.mem_cons.mp hother with rfl | hother
    · rcases h with ⟨hline, -⟩ | ⟨hline, -⟩
      · exact ⟨hline.1, fun hnone => absurd hnone hline.2.1⟩
      · exact ⟨hline.1, fun _ => hline.2.2⟩
    · exact ih h.tail other hother

/-- What a document keeps of a note, its text keeps. -/
theorem keepsLines_of_keeps {text : Text} {lines : List Line} (h : Keeps (splitLines text) lines) (hlines : Chained lines) :
    KeepsLines text (textOfLines lines) := by
  obtain ⟨kept, hkept, hsub⟩ := h
  have hwhole := (wellFormed_splitLines text).single
  generalize hsplit : splitLines text = all at hkept
  rw [hsplit] at hwhole
  cases hkept with
  | same => exact ⟨rawLines text, Or.inl rfl, by rw [rawLines, hsplit]; exact rawLines_sublist hsub hwhole hlines⟩
  | @ended front last ending hne =>
    have hfront : ∀ line ∈ front, line.Single := fun line hline => hwhole line (List.mem_append_left _ hline)
    have hlast : (⟨last, .none⟩ : Line).Single := hwhole _ (by simp)
    refine ⟨front.map Line.whole ++ [last ++ ending.text], Or.inr ⟨front.map Line.whole, last, ending, ?_, hlast.1, hne, rfl⟩,
      ?_⟩
    · rw [rawLines, hsplit, List.map_append, List.map_singleton, Line.whole, Ending.text, List.append_nil]
    · have hraw := rawLines_sublist hsub (fun line hline => ?_) hlines
      · simpa [Line.whole] using hraw
      · rcases List.mem_append.mp hline with hline | hline
        · exact hfront line hline
        · rw [List.mem_singleton.mp hline]
          exact ⟨hlast.1, fun hnone => absurd hnone hne⟩

end Thock.SyncCore
