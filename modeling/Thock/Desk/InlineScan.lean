import Thock.Desk.LineBlocks
import Thock.Lib.TextSlices

/-!
# Inline constructs of a line

The scanners for code spans, comments, links, strikes and emphases on one line, with offsets in bytes. Each answers
nothing where the source stops the program: at a sliceBetween off a character boundary, or a byte out of range.

No scanner stops, and what two of them find does not overlap, but for a style around another construct.
-/

namespace Thock.Desk.Inline

open TextScan
open SyncCore (Span)

/-! ## Bytes of a line -/

def byteOf (c : Char) : UInt8 := UInt8.ofNat c.toNat

/-- The delimiter of inline code. -/
def tick : UInt8 := 0x60

/-- A byte that has to be there. -/
def byteChecked (line : Text) (index : ℕ) : Option UInt8 := (asBytes line)[index]?

/-- The byte before an offset, which has to be there. -/
def byteBefore (line : Text) (index : ℕ) : Option UInt8 := if index = 0 then none else byteChecked line (index - 1)

/-- Whether an offset is not the first and the byte before it is of a kind. -/
def precededBy (line : Text) (index : ℕ) (p : UInt8 → Bool) : Option Bool :=
  if index = 0 then some false else (byteChecked line (index - 1)).map p

/-- Whether there is a byte at an offset and it is of a kind. -/
def followedBy (line : Text) (index : ℕ) (p : UInt8 → Bool) : Bool := (asBytes line)[index]?.any p

def isAsciiWhitespaceByte (byte : UInt8) : Bool :=
  byte = byteOf ' ' || byte = byteOf '\t' || byte = byteOf '\n' || byte = 0x0C || byte = byteOf '\r'

/-- Whether a byte reads as part of a word. -/
def isWordByte (byte : UInt8) : Bool :=
  (byteOf '0' ≤ byte && byte ≤ byteOf '9') || (byteOf 'A' ≤ byte && byte ≤ byteOf 'Z') ||
    (byteOf 'a' ≤ byte && byte ≤ byteOf 'z') || 0x80 ≤ byte

def overlapsExcluded (excluded : List Span) (range : Span) : Bool := excluded.any fun other => other.overlaps range

/-! ## Inline code -/

structure InlineCode where
  range : Span
  text : Span
deriving DecidableEq, Repr

/-- The runs of ticks, each with its start and its length. -/
def tickRuns : ℕ → Bytes → List (ℕ × ℕ)
  | _, [] => []
  | cursor, byte :: rest =>
    if byte = tick then
      match tickRuns (cursor + 1) rest with
      | (start, length) :: runs =>
        if start = cursor + 1 then (cursor, length + 1) :: runs else (cursor, 1) :: (start, length) :: runs
      | [] => [(cursor, 1)]
    else tickRuns (cursor + 1) rest

/-- Runs paired with the next of the same length, some of the first skipped. -/
def pairRuns : ℕ → List (ℕ × ℕ) → List InlineCode
  | _, [] => []
  | skip + 1, _ :: rest => pairRuns skip rest
  | 0, (openStart, openLength) :: rest =>
    match rest.dropWhile fun run => run.2 ≠ openLength with
    | (closeStart, closeLength) :: _ =>
      { range := ⟨openStart, closeStart + closeLength⟩, text := ⟨openStart + openLength, closeStart⟩ } ::
        pairRuns ((rest.takeWhile fun run => run.2 ≠ openLength).length + 1) rest
    | [] => pairRuns 0 rest

def codeSpans (line : Text) : List InlineCode := pairRuns 0 (tickRuns 0 (asBytes line))

def codeSpanRanges (line : Text) : List Span := (codeSpans line).map InlineCode.range

/-! ## Comments -/

/-- The comments from an offset, those on inline code left out. -/
def htmlCommentsFrom (line : Text) (code : List Span) : ℕ → ℕ → Option (List Span)
  | 0, _ => none
  | fuel + 1, cursor =>
    (sliceFrom cursor line).bind fun rest =>
      match findText "<!--".toList rest with
      | none => some []
      | some index =>
        let open_ := index + cursor
        let body := open_ + 4
        (sliceFrom body line).bind fun after =>
          match findText "-->".toList after with
          | none => some []
          | some index =>
            let close := index + body + 3
            let range : Span := ⟨open_, close⟩
            (htmlCommentsFrom line code fuel close).map fun ranges =>
              if overlapsExcluded code range then ranges else range :: ranges

def htmlCommentRanges (line : Text) (code : List Span) : Option (List Span) :=
  htmlCommentsFrom line code (byteSize line + 1) 0

/-- What no inline construct may overlap. -/
def inlineExclusions (line : Text) : Option (List Span) :=
  (htmlCommentRanges line (codeSpanRanges line)).map fun comments => codeSpanRanges line ++ comments

/-! ## Links -/

structure InlineLink where
  range : Span
  label : Span
  wikilinkTarget : Option Span
  destination : Option Span
deriving DecidableEq, Repr

def parseWikilink (line : Text) (open_ : ℕ) : Option (Option InlineLink) :=
  let innerStart := open_ + 2
  (sliceFrom innerStart line).bind fun rest =>
    match findText "]]".toList rest with
    | none => some none
    | some index =>
      let close := index + innerStart
      (sliceBetween innerStart close line).map fun inner =>
        if inner.isEmpty || inner.contains '[' || inner.contains ']' then none
        else
          let range : Span := ⟨open_, close + 2⟩
          match splitFirst ['|'] inner with
          | some (target, shown) =>
            if target.isEmpty || shown.isEmpty then none
            else
              let targetStop := innerStart + byteSize target
              some ⟨range, ⟨targetStop + 1, close⟩, some ⟨innerStart, targetStop⟩, none⟩
          | none => some ⟨range, ⟨innerStart, close⟩, some ⟨innerStart, close⟩, none⟩

/-- Where the parenthesis closes, with so many open inside it. -/
def closingParen : ℕ → ℕ → Text → Option ℕ
  | _, _, [] => none
  | inside, offset, c :: rest =>
    if c = '(' then closingParen (inside + 1) (offset + 1) rest
    else if c = ')' then
      match inside with
      | 0 => some offset
      | inside + 1 => closingParen inside (offset + 1) rest
    else closingParen inside (offset + c.utf8Size) rest

/-- The destination that has to follow the bracket at an offset. -/
def balancedDestination (line : Text) (textEnd : ℕ) : Option (Option Span) :=
  (sliceFrom (textEnd + 1) line).bind fun rest =>
    if rest.head? = some '(' then
      let destStart := textEnd + 2
      (sliceFrom destStart line).map fun rest =>
        (closingParen 0 0 rest).map fun offset => ⟨destStart, destStart + offset⟩
    else some none

def parseInlineLink (line : Text) (open_ : ℕ) : Option (Option InlineLink) :=
  let textStart := open_ + 1
  (sliceFrom textStart line).bind fun rest =>
    match findWhere (· = ']') rest with
    | none => some none
    | some index =>
      let textEnd := index + textStart
      (sliceBetween textStart textEnd line).bind fun text =>
        if text.isEmpty || text.contains '[' then some none
        else (balancedDestination line textEnd).map fun found =>
          found.map fun destination => ⟨⟨open_, destination.stop + 1⟩, ⟨textStart, textEnd⟩, none, some destination⟩

/-- A wikilink where there are two brackets, else a link. -/
def parseLink (line : Text) (open_ : ℕ) : Option (Option InlineLink) :=
  (sliceFrom open_ line).bind fun rest =>
    if "[[".toList.isPrefixOf rest then parseWikilink line open_ else parseInlineLink line open_

def eachInlineLinkFrom (line : Text) (excluded : List Span) : ℕ → ℕ → Option (List InlineLink)
  | 0, _ => none
  | fuel + 1, cursor =>
    (sliceFrom cursor line).bind fun rest =>
      match findWhere (· = '[') rest with
      | none => some []
      | some relative =>
        let open_ := cursor + relative
        (precededBy line open_ fun byte => byte = byteOf '!' || byte = byteOf '\\').bind fun disqualified =>
          if disqualified then eachInlineLinkFrom line excluded fuel (open_ + 1)
          else match excluded.find? fun range => range.contains open_ with
            | some range => eachInlineLinkFrom line excluded fuel range.stop
            | none =>
              (parseLink line open_).bind fun parsed =>
                match parsed with
                | some link =>
                  if overlapsExcluded excluded link.range then eachInlineLinkFrom line excluded fuel (open_ + 1)
                  else (eachInlineLinkFrom line excluded fuel link.range.stop).map (List.cons link)
                | none => eachInlineLinkFrom line excluded fuel (open_ + 1)

/-- The links of a line from an offset, in order. -/
def eachInlineLink (line : Text) (from_ : ℕ) (excluded : List Span) : Option (List InlineLink) :=
  eachInlineLinkFrom line excluded (byteSize line + 1) from_

def inlineLinks (line : Text) : Option (List InlineLink) :=
  (inlineExclusions line).bind fun excluded => eachInlineLink line 0 excluded

/-! ## Strikes -/

structure InlineStrikethrough where
  range : Span
  text : Span
deriving DecidableEq, Repr

def strikethroughExclusions (line : Text) : Option (List Span) :=
  (inlineExclusions line).bind fun inline_ =>
    (eachInlineLink line 0 inline_).map fun links => inline_ ++ links.map InlineLink.range

def parseStrikethrough (line : Text) (open_ : ℕ) : Option (Option InlineStrikethrough) :=
  let textStart := open_ + 2
  (sliceFrom textStart line).map fun rest =>
    (findText "~~".toList rest).bind fun index =>
      let close := index + textStart
      (sliceBetween textStart close line).bind fun text =>
        if text.isEmpty || text.head?.any isWhitespace || text.getLast?.any isWhitespace ||
            followedBy line (close + 2) (· = byteOf '~') then none
        else some ⟨⟨open_, close + 2⟩, ⟨textStart, close⟩⟩

/-- The delimiters around a styled text. -/
def delimitersOf (range text : Span) : List Span := [⟨range.start, text.start⟩, ⟨text.stop, range.stop⟩]

def eachStrikethroughFrom (line : Text) (excluded : List Span) : ℕ → ℕ → Option (List InlineStrikethrough)
  | 0, _ => none
  | fuel + 1, cursor =>
    (sliceFrom cursor line).bind fun rest =>
      match findText "~~".toList rest with
      | none => some []
      | some relative =>
        let open_ := cursor + relative
        (precededBy line open_ fun byte => byte = byteOf '~' || byte = byteOf '\\').bind fun escaped =>
          if followedBy line (open_ + 2) (· = byteOf '~') || escaped then
            eachStrikethroughFrom line excluded fuel (open_ + 2)
          else (parseStrikethrough line open_).bind fun parsed =>
            match parsed with
            | none => eachStrikethroughFrom line excluded fuel (open_ + 2)
            | some run =>
              if (delimitersOf run.range run.text).any (overlapsExcluded excluded) then
                eachStrikethroughFrom line excluded fuel (open_ + 2)
              else (eachStrikethroughFrom line excluded fuel run.range.stop).map (List.cons run)

def eachStrikethrough (line : Text) (from_ : ℕ) (excluded : List Span) : Option (List InlineStrikethrough) :=
  eachStrikethroughFrom line excluded (byteSize line + 1) from_

def inlineStrikethroughs (line : Text) : Option (List InlineStrikethrough) :=
  (strikethroughExclusions line).bind (eachStrikethrough line 0)

/-! ## Emphases -/

structure InlineEmphasis where
  range : Span
  text : Span
  length : ℕ
deriving DecidableEq, Repr

def InlineEmphasis.isBold (run : InlineEmphasis) : Bool := 2 ≤ run.length

def InlineEmphasis.isItalic (run : InlineEmphasis) : Bool := run.length ≠ 2

/-- How deep emphasis is read inside emphasis. -/
def maxEmphasisDepth : ℕ := 3

def markerRunLength (line : Text) (start : ℕ) (marker : UInt8) : Option ℕ :=
  if start ≤ byteSize line then some (((asBytes line).drop start).takeWhile (· = marker)).length else none

/-- Where the closing delimiter stands, from an offset on. -/
def emphasisClose (line : Text) (marker : UInt8) (length : ℕ) : ℕ → ℕ → Option (Option ℕ)
  | 0, _ => none
  | fuel + 1, cursor =>
    (sliceFrom cursor line).bind fun rest =>
      match findWhere (· = Char.ofNat marker.toNat) rest with
      | none => some none
      | some relative =>
        let candidate := cursor + relative
        (markerRunLength line candidate marker).bind fun run =>
          (byteBefore line candidate).bind fun before =>
            if run = length ∧ isAsciiWhitespaceByte before = false ∧ followedBy line (candidate + run) isWordByte = false then
              some (some candidate)
            else emphasisClose line marker length fuel (candidate + run)

def parseEmphasis (line : Text) (open_ : ℕ) (marker : UInt8) (excluded : List Span) : Option (Option InlineEmphasis) :=
  (markerRunLength line open_ marker).bind fun length =>
    if 3 < length then some none
    else
      let textStart := open_ + length
      match (asBytes line)[textStart]? with
      | none => some none
      | some byte =>
        if isAsciiWhitespaceByte byte then some none
        else (precededBy line open_ fun byte => byte = byteOf '\\' || isWordByte byte).bind fun touched =>
          if touched then some none
          else (emphasisClose line marker length (byteSize line + 1) textStart).map fun close =>
            close.bind fun close =>
              let range : Span := ⟨open_, close + length⟩
              let text : Span := ⟨textStart, close⟩
              if (delimitersOf range text).any (overlapsExcluded excluded) then none else some ⟨range, text, length⟩

/-- The emphases from an offset, each followed by what is found inside it. -/
def eachEmphasisFrom (nested : Text → Span → Option (List InlineEmphasis)) (line : Text) (excluded : List Span) :
    ℕ → ℕ → Option (List InlineEmphasis)
  | 0, _ => none
  | fuel + 1, cursor =>
    (sliceFrom cursor line).bind fun rest =>
      match findWhere (fun c => c = '*' || c = '_') rest with
      | none => some []
      | some relative =>
        let open_ := cursor + relative
        (byteChecked line open_).bind fun marker =>
          (markerRunLength line open_ marker).bind fun length =>
            (parseEmphasis line open_ marker excluded).bind fun parsed =>
              match parsed with
              | none => eachEmphasisFrom nested line excluded fuel (open_ + length)
              | some run =>
                (nested line run.text).bind fun inside =>
                  (eachEmphasisFrom nested line excluded fuel run.range.stop).map fun rest => run :: (inside ++ rest)

/-- The emphases inside an emphasised text, so many levels deep, on the line up to its end. -/
def nestedEmphases (excluded : List Span) : ℕ → Text → Span → Option (List InlineEmphasis)
  | 0, _, _ => some []
  | levels + 1, line, text =>
    (sliceTo text.stop line).bind fun inner =>
      eachEmphasisFrom (nestedEmphases excluded levels) inner excluded (byteSize inner + 1) text.start

def eachEmphasis (line : Text) (from_ : ℕ) (excluded : List Span) : Option (List InlineEmphasis) :=
  eachEmphasisFrom (nestedEmphases excluded maxEmphasisDepth) line excluded (byteSize line + 1) from_

def inlineEmphases (line : Text) : Option (List InlineEmphasis) :=
  (strikethroughExclusions line).bind (eachEmphasis line 0)

/-! ## Stretches of a line -/

/-- A stretch between two boundaries of a line, with something in it. -/
structure Stretch (line : Text) (range : Span) : Prop where
  start : Boundary line range.start
  stop : Boundary line range.stop
  lt : range.start < range.stop

/-- Two stretches of which one ends before the other starts. -/
def Apart (a b : Span) : Prop := a.stop ≤ b.start ∨ b.stop ≤ a.start

theorem Apart.symm {a b : Span} (h : Apart a b) : Apart b a := Or.symm h

theorem not_overlaps_iff {a b : Span} : a.overlaps b = false ↔ Apart a b := by
  rw [Span.overlaps, Apart, Bool.and_eq_false_iff, decide_eq_false_iff_not, decide_eq_false_iff_not]
  omega

theorem overlapsExcluded_eq_false {excluded : List Span} {range : Span} :
    overlapsExcluded excluded range = false ↔ ∀ other ∈ excluded, Apart other range := by
  rw [overlapsExcluded, List.any_eq_false]
  simp only [Bool.not_eq_true, not_overlaps_iff]

/-- Stretches one after another, from an offset on. -/
structure Ordered (line : Text) (cursor : ℕ) (ranges : List Span) : Prop where
  from_ : ∀ range ∈ ranges, cursor ≤ range.start
  stretch : ∀ range ∈ ranges, Stretch line range
  order : ranges.Pairwise fun a b => a.stop ≤ b.start

namespace Ordered

variable {line : Text} {cursor : ℕ} {range : Span} {ranges : List Span}

theorem nil (line : Text) (cursor : ℕ) : Ordered line cursor [] := ⟨by simp, by simp, List.Pairwise.nil⟩

theorem cons (hcursor : cursor ≤ range.start) (hrange : Stretch line range) (h : Ordered line range.stop ranges) :
    Ordered line cursor (range :: ranges) := by
  refine ⟨fun other hother => ?_, fun other hother => ?_, List.pairwise_cons.mpr ⟨h.from_, h.order⟩⟩
  · rcases List.mem_cons.mp hother with rfl | hother
    · exact hcursor
    · exact hcursor.trans (hrange.lt.le.trans (h.from_ other hother))
  · rcases List.mem_cons.mp hother with rfl | hother
    · exact hrange
    · exact h.stretch other hother

theorem mono {cursor' : ℕ} (h : Ordered line cursor' ranges) (hle : cursor ≤ cursor') : Ordered line cursor ranges :=
  ⟨fun range hrange => hle.trans (h.from_ range hrange), h.stretch, h.order⟩

end Ordered

/-! ## Code spans -/

/-- Runs of ticks one after another, from an offset on. -/
structure Ticks (bytes : Bytes) (cursor : ℕ) (runs : List (ℕ × ℕ)) : Prop where
  from_ : ∀ run ∈ runs, cursor ≤ run.1
  pos : ∀ run ∈ runs, 1 ≤ run.2
  ticks : ∀ run ∈ runs, ∀ k < run.2, bytes[run.1 + k]? = some tick
  order : runs.Pairwise fun a b => a.1 + a.2 ≤ b.1

theorem tickRuns_spec {all front bytes : Bytes} (h : all = front ++ bytes) :
    Ticks all front.length (tickRuns front.length bytes) := by
  induction bytes generalizing front with
  | nil => exact ⟨by simp [tickRuns], by simp [tickRuns], by simp [tickRuns], List.Pairwise.nil⟩
  | cons byte rest ih =>
    have hrest := @ih (front ++ [byte]) (by rw [h]; simp)
    rw [List.length_append, List.length_singleton] at hrest
    have hfirst : all[front.length]? = some byte := by
      rw [h, List.getElem?_append_right le_rfl, Nat.sub_self]
      rfl
    rw [tickRuns]
    split
    · next hbyte =>
      rw [hbyte] at hfirst
      have hcons (run : ℕ × ℕ) (runs : List (ℕ × ℕ)) (hrun : run.1 = front.length) (hpos : 1 ≤ run.2)
          (hticks : ∀ k < run.2, all[run.1 + k]? = some tick) (hruns : Ticks all (run.1 + run.2) runs) :
          Ticks all front.length (run :: runs) := by
        refine ⟨fun other hother => ?_, fun other hother => ?_, fun other hother => ?_,
          List.pairwise_cons.mpr ⟨hruns.from_, hruns.order⟩⟩
        · rcases List.mem_cons.mp hother with rfl | hother
          · exact hrun.ge
          · have := hruns.from_ other hother
            omega
        · rcases List.mem_cons.mp hother with rfl | hother
          · exact hpos
          · exact hruns.pos other hother
        · rcases List.mem_cons.mp hother with rfl | hother
          · exact hticks
          · exact hruns.ticks other hother
      have hone : ∀ k < 1, all[front.length + k]? = some tick := by
        intro k hk
        obtain rfl : k = 0 := by omega
        exact hfirst
      split
      · next start length runs hruns =>
        rw [hruns] at hrest
        have hhead : (start, length) ∈ (start, length) :: runs := List.mem_cons_self
        obtain ⟨hafter, horder⟩ := List.pairwise_cons.mp hrest.order
        split
        · next hstart =>
          refine hcons (front.length, length + 1) runs rfl (Nat.le_add_left _ _) (fun k hk => ?_) ⟨fun run hrun => ?_,
            fun run hrun => hrest.pos run (List.mem_cons_of_mem _ hrun),
            fun run hrun => hrest.ticks run (List.mem_cons_of_mem _ hrun), horder⟩
          · cases k with
            | zero => exact hfirst
            | succ k =>
              have htick := hrest.ticks _ hhead k (Nat.lt_of_succ_lt_succ hk)
              rw [show front.length + (k + 1) = start + k by omega]
              exact htick
          · have hle := hafter run hrun
            dsimp only at hle ⊢
            omega
        · exact hcons (front.length, 1) _ rfl le_rfl hone hrest
      · next hruns =>
        exact hcons (front.length, 1) [] rfl le_rfl hone ⟨by simp, by simp, by simp, List.Pairwise.nil⟩
    · exact ⟨fun run hrun => (Nat.le_succ _).trans (hrest.from_ run hrun), hrest.pos, hrest.ticks, hrest.order⟩

/-- A code span whose delimiters are ticks on both sides of its text. -/
structure InlineCode.Sound (line : Text) (code : InlineCode) : Prop where
  range : Stretch line code.range
  textStart : Boundary line code.text.start
  textStop : Boundary line code.text.stop
  opens : code.range.start < code.text.start
  text : code.text.start ≤ code.text.stop
  closes : code.text.stop < code.range.stop
  tick : (asBytes line)[code.range.start]? = some tick

theorem Ticks.boundaries {line : Text} {cursor : ℕ} {runs : List (ℕ × ℕ)} (h : Ticks (asBytes line) cursor runs)
    {run : ℕ × ℕ} (hrun : run ∈ runs) : Boundary line run.1 ∧ Boundary line (run.1 + run.2) := by
  have hpos := h.pos run hrun
  have hfirst := h.ticks run hrun 0 hpos
  have hlast := h.ticks run hrun (run.2 - 1) (by omega)
  refine ⟨(boundary_of_byte hfirst (by decide)).1, ?_⟩
  have hafter := (boundary_of_byte hlast (by decide)).2
  rw [show run.1 + (run.2 - 1) + 1 = run.1 + run.2 by omega] at hafter
  exact hafter

theorem pairRuns_spec {line : Text} {cursor : ℕ} {runs : List (ℕ × ℕ)} (skip : ℕ) (h : Ticks (asBytes line) cursor runs)
    {start : ℕ} (hstart : ∀ run ∈ runs.drop skip, start ≤ run.1) :
    Ordered line start ((pairRuns skip runs).map InlineCode.range) ∧ ∀ code ∈ pairRuns skip runs, code.Sound line := by
  induction runs generalizing skip cursor start with
  | nil => cases skip <;> exact ⟨.nil line start, by simp [pairRuns]⟩
  | cons run rest ih =>
    obtain ⟨hafter, horder⟩ := List.pairwise_cons.mp h.order
    have hrest : Ticks (asBytes line) cursor rest := ⟨fun other hother => h.from_ other (List.mem_cons_of_mem _ hother),
      fun other hother => h.pos other (List.mem_cons_of_mem _ hother),
      fun other hother => h.ticks other (List.mem_cons_of_mem _ hother), horder⟩
    cases skip with
    | succ skip => exact ih skip hrest hstart
    | zero =>
      obtain ⟨openStart, openLength⟩ := run
      have hopen := h.boundaries List.mem_cons_self
      have hlength := h.pos _ List.mem_cons_self
      have htick := h.ticks _ List.mem_cons_self 0 hlength
      have hcursor := hstart _ List.mem_cons_self
      rw [pairRuns]
      have hsplit := (List.takeWhile_append_dropWhile (p := fun run : ℕ × ℕ => decide (run.2 ≠ openLength)) (l := rest)).symm
      split
      · next closeStart closeLength others hdrop =>
        rw [hdrop] at hsplit
        have hin : (closeStart, closeLength) ∈ rest := by
          rw [hsplit]
          exact List.mem_append_right _ List.mem_cons_self
        have hclose := hrest.boundaries hin
        have hclosePos := hrest.pos _ hin
        have hgap := hafter _ hin
        dsimp only at hopen hclose hclosePos hgap hlength hcursor
        have hothers : ∀ other ∈ rest.drop ((rest.takeWhile fun run => decide (run.2 ≠ openLength)).length + 1),
            closeStart + closeLength ≤ other.1 := by
          have hdropped (gap : List (ℕ × ℕ)) (hgap : rest = gap ++ (closeStart, closeLength) :: others) :
              rest.drop (gap.length + 1) = others := by
            rw [hgap, ← List.drop_drop, List.drop_left]
            rfl
          rw [hdropped _ hsplit]
          rw [hsplit] at horder
          exact (List.pairwise_cons.mp (List.pairwise_append.mp horder).2.1).1
        obtain ⟨hordered, hsound⟩ := ih _ hrest hothers
        have hrange : Stretch line ⟨openStart, closeStart + closeLength⟩ := ⟨hopen.1, hclose.2, by dsimp only; omega⟩
        refine ⟨Ordered.cons hcursor hrange hordered, fun code hcode => ?_⟩
        rcases List.mem_cons.mp hcode with rfl | hcode
        · exact ⟨hrange, hopen.2, hclose.1, by dsimp only; omega, hgap, by dsimp only; omega, htick⟩
        · exact hsound code hcode
      · exact ih 0 hrest fun other hother => hcursor.trans (by
          have := hafter other hother
          dsimp only at this
          omega)

theorem codeSpans_spec (line : Text) :
    Ordered line 0 (codeSpanRanges line) ∧ ∀ code ∈ codeSpans line, code.Sound line :=
  pairRuns_spec 0 (@tickRuns_spec (asBytes line) [] (asBytes line) rfl) fun _ _ => Nat.zero_le _

/-! ## Comments -/

theorem htmlCommentsFrom_spec {line : Text} (code : List Span) {fuel cursor : ℕ} (hcursor : Boundary line cursor)
    (hfuel : byteSize line < fuel + cursor) :
    ∃ comments, htmlCommentsFrom line code fuel cursor = some comments ∧ Ordered line cursor comments ∧
      ∀ comment ∈ comments, (asBytes line)[comment.start]? = some (byteOf '<') ∧ ∀ other ∈ code, Apart other comment := by
  induction fuel generalizing cursor with
  | zero =>
    have := hcursor.le_size
    omega
  | succ fuel ih =>
    obtain ⟨rest, hrest⟩ := hcursor.sliceFrom
    rw [htmlCommentsFrom, hrest, Option.bind_some]
    cases hopen : findText "<!--".toList rest with
    | none => exact ⟨[], rfl, .nil line cursor, by simp⟩
    | some index =>
      obtain ⟨front, back, hline, hfront⟩ := text_of_found hrest hopen
      have hbounds := Boundary.around front "<!--".toList back
      rw [← hline, hfront, show byteSize "<!--".toList = 4 from rfl, Nat.add_comm cursor index] at hbounds
      have hbyte := byte_of_char front (c := '<') (by decide) ("!--".toList ++ back)
      rw [show front ++ '<' :: ("!--".toList ++ back) = line from hline.symm, hfront, Nat.add_comm cursor index] at hbyte
      obtain ⟨after, hafter⟩ := hbounds.2.sliceFrom
      dsimp only
      rw [hafter, Option.bind_some]
      cases hclose : findText "-->".toList after with
      | none => exact ⟨[], rfl, .nil line cursor, by simp⟩
      | some body =>
        obtain ⟨front', back', hline', hfront'⟩ := text_of_found hafter hclose
        have hstop := (Boundary.around front' "-->".toList back').2
        rw [← hline', hfront', show byteSize "-->".toList = 3 from rfl, Nat.add_comm _ body] at hstop
        obtain ⟨comments, hcomments, hordered, hapart⟩ := ih hstop (by omega)
        dsimp only
        rw [hcomments, Option.map_some]
        cases hover : overlapsExcluded code ⟨index + cursor, body + (index + cursor + 4) + 3⟩ with
        | true => exact ⟨comments, rfl, hordered.mono (by omega), hapart⟩
        | false =>
          refine ⟨_, rfl, .cons (Nat.le_add_left _ _) ⟨hbounds.1, hstop, by dsimp only; omega⟩ hordered, fun comment hin => ?_⟩
          rcases List.mem_cons.mp hin with rfl | hin
          · exact ⟨hbyte, overlapsExcluded_eq_false.mp hover⟩
          · exact hapart comment hin

/-! ## Links -/

/-- A link whose label stands inside it, with what it points at. -/
structure InlineLink.Sound (line : Text) (link : InlineLink) : Prop where
  range : Stretch line link.range
  label : Stretch line link.label
  opens : link.range.start < link.label.start
  closes : link.label.stop < link.range.stop
  bracket : (asBytes line)[link.range.start]? = some (byteOf '[')
  target : ∀ target ∈ link.wikilinkTarget, Stretch line target
  destination : ∀ destination ∈ link.destination,
    Boundary line destination.start ∧ Boundary line destination.stop ∧ destination.start ≤ destination.stop
  pointed : link.wikilinkTarget = none → link.destination.isSome = true

theorem parseWikilink_spec {line front back : Text} {open_ : ℕ} (hline : line = front ++ ("[[".toList ++ back))
    (hopen : byteSize front = open_) :
    ∃ parsed, parseWikilink line open_ = some parsed ∧ ∀ link ∈ parsed, link.Sound line ∧ link.range.start = open_ := by
  have hbounds := Boundary.around front "[[".toList back
  rw [← hline, hopen, show byteSize "[[".toList = 2 from rfl] at hbounds
  have hbyte := byte_of_char front (c := '[') (by decide) ('[' :: back)
  rw [show front ++ '[' :: '[' :: back = line from hline.symm, hopen] at hbyte
  obtain ⟨rest, hrest⟩ := hbounds.2.sliceFrom
  rw [parseWikilink, hrest, Option.bind_some]
  cases hclose : findText "]]".toList rest with
  | none => exact ⟨none, rfl, by simp⟩
  | some index =>
    obtain ⟨front', back', hline', hfront'⟩ := text_of_found hrest hclose
    have hstop := Boundary.around front' "]]".toList back'
    rw [← hline', hfront', show byteSize "]]".toList = 2 from rfl, Nat.add_comm _ index] at hstop
    obtain ⟨a, inner, c, hparts, ha, hinner, hslice⟩ := hbounds.2.sliceBetween hstop.1 (by omega)
    dsimp only
    rw [hslice, Option.map_some]
    refine ⟨_, rfl, fun link hlink => ?_⟩
    split at hlink
    · cases hlink
    · next hwords =>
      have hne : inner ≠ [] := by
        rintro rfl
        exact hwords rfl
      have hsize : 0 < byteSize inner := Nat.pos_of_ne_zero fun hzero => hne (byteSize_eq_zero.mp hzero)
      have hrange : Stretch line ⟨open_, index + (open_ + 2) + 2⟩ := ⟨hbounds.1, hstop.2, by dsimp only; omega⟩
      cases hsplit : splitFirst ['|'] inner with
      | none =>
        rw [hsplit] at hlink
        obtain rfl := Option.some.inj hlink
        have hlabel : Stretch line ⟨open_ + 2, index + (open_ + 2)⟩ := ⟨hbounds.2, hstop.1, by dsimp only; omega⟩
        exact ⟨⟨hrange, hlabel, by dsimp only; omega, by dsimp only; omega, hbyte, fun target htarget => by
          obtain rfl := Option.some.inj htarget
          exact hlabel, by simp, by simp⟩, rfl⟩
      | some parts =>
        obtain ⟨target, shown⟩ := parts
        rw [hsplit] at hlink
        dsimp only at hlink
        split at hlink
        · cases hlink
        · next hempty =>
          rw [Bool.or_eq_true, not_or, List.isEmpty_iff, List.isEmpty_iff] at hempty
          have htarget : 0 < byteSize target := Nat.pos_of_ne_zero fun hzero => hempty.1 (byteSize_eq_zero.mp hzero)
          have hshown : 0 < byteSize shown := Nat.pos_of_ne_zero fun hzero => hempty.2 (byteSize_eq_zero.mp hzero)
          obtain rfl := Option.some.inj hlink
          have hjoined : inner = target ++ (['|'] ++ shown) := by rw [splitFirst_eq hsplit, List.append_assoc]
          have hpipe : Boundary line (open_ + 2 + byteSize target) ∧ Boundary line (open_ + 2 + byteSize target + 1) := by
            have haround := Boundary.around (a ++ target) ['|'] (shown ++ c)
            rw [byteSize_append, ha, show byteSize ['|'] = 1 from rfl, List.append_assoc] at haround
            have hwhole : a ++ (target ++ (['|'] ++ (shown ++ c))) = line := by rw [hparts, hjoined]; simp
            rw [hwhole] at haround
            exact haround
          have hsizes : byteSize inner = byteSize target + (1 + byteSize shown) := by
            rw [hjoined, byteSize_append, byteSize_append]
            rfl
          exact ⟨⟨hrange, ⟨hpipe.2, hstop.1, by dsimp only; omega⟩, by dsimp only; omega, by dsimp only; omega, hbyte,
            fun found hfound => by
              obtain rfl := Option.some.inj hfound
              exact ⟨hbounds.2, hpipe.1, by dsimp only; omega⟩, by simp, by simp⟩, rfl⟩

theorem closingParen_eq_some {inside offset r : ℕ} {t : Text} (h : closingParen inside offset t = some r) :
    ∃ before after, t = before ++ ')' :: after ∧ offset + byteSize before = r := by
  induction t generalizing inside offset with
  | nil => cases h
  | cons c rest ih =>
    have hstep {inside size : ℕ} (hsize : c.utf8Size = size) (h : closingParen inside (offset + size) rest = some r) :
        ∃ before after, c :: rest = before ++ ')' :: after ∧ offset + byteSize before = r := by
      obtain ⟨before, after, rfl, hr⟩ := ih h
      exact ⟨c :: before, after, rfl, by rw [byteSize_cons, hsize]; omega⟩
    unfold closingParen at h
    split at h
    · next hc => exact hstep (by rw [hc]; rfl) h
    · split at h
      · next hc =>
        cases inside with
        | zero =>
          obtain rfl := Option.some.inj h
          exact ⟨[], rest, by rw [hc]; rfl, rfl⟩
        | succ inside => exact hstep (by rw [hc]; rfl) h
      · exact hstep rfl h

theorem balancedDestination_spec {line front back : Text} {textEnd : ℕ} (hline : line = front ++ ']' :: back)
    (hend : byteSize front = textEnd) :
    ∃ found, balancedDestination line textEnd = some found ∧ ∀ destination ∈ found, Boundary line destination.start ∧
      Boundary line destination.stop ∧ Boundary line (destination.stop + 1) ∧ textEnd < destination.start ∧
        destination.start ≤ destination.stop := by
  have hafter : sliceFrom (textEnd + 1) line = some back := by
    have hslice := sliceFrom_append (front ++ [']']) back
    rw [byteSize_append, hend, show byteSize [']'] = 1 from rfl, List.append_assoc] at hslice
    rw [hline]
    exact hslice
  rw [balancedDestination, hafter, Option.bind_some]
  split
  · next hhead =>
    cases back with
    | nil => cases hhead
    | cons paren rest =>
      obtain rfl : paren = '(' := Option.some.inj hhead
      have hinside : line = (front ++ "](".toList) ++ rest := by rw [hline]; simp
      have hsize : byteSize (front ++ "](".toList) = textEnd + 2 := by rw [byteSize_append, hend]; rfl
      have hrest := sliceFrom_append (front ++ "](".toList) rest
      rw [← hinside, hsize] at hrest
      dsimp only
      rw [hrest, Option.map_some]
      refine ⟨_, rfl, fun destination hdestination => ?_⟩
      obtain ⟨offset, hoffset, rfl⟩ := Option.map_eq_some_iff.mp hdestination
      obtain ⟨before, after, rfl, hbefore⟩ := closingParen_eq_some hoffset
      have haround := Boundary.around (front ++ "](".toList ++ before) [')'] after
      rw [byteSize_append, hsize, show byteSize [')'] = 1 from rfl, List.append_assoc,
        show before ++ ([')'] ++ after) = before ++ ')' :: after from rfl, ← hinside] at haround
      have hstart : Boundary line (textEnd + 2) := ⟨_, _, hinside, hsize⟩
      rw [Nat.zero_add] at hbefore
      rw [hbefore] at haround
      exact ⟨hstart, haround.1, haround.2, by dsimp only; omega, Nat.le_add_right _ _⟩
  · exact ⟨none, rfl, by simp⟩

theorem parseInlineLink_spec {line front back : Text} {open_ : ℕ} (hline : line = front ++ '[' :: back)
    (hopen : byteSize front = open_) :
    ∃ parsed, parseInlineLink line open_ = some parsed ∧ ∀ link ∈ parsed, link.Sound line ∧ link.range.start = open_ := by
  have hbounds := Boundary.around front ['['] back
  rw [show front ++ (['['] ++ back) = line from hline.symm, hopen, show byteSize ['['] = 1 from rfl] at hbounds
  have hbyte := byte_of_char front (c := '[') (by decide) back
  rw [← hline, hopen] at hbyte
  obtain ⟨rest, hrest⟩ := hbounds.2.sliceFrom
  rw [parseInlineLink, hrest, Option.bind_some]
  cases hclose : findWhere (· = ']') rest with
  | none => exact ⟨none, rfl, by simp⟩
  | some index =>
    obtain ⟨front', c, back', hline', hfront', hc⟩ := char_of_found hrest hclose
    obtain rfl : c = ']' := of_decide_eq_true hc
    rw [Nat.add_comm _ index] at hfront'
    have hend : Boundary line (index + (open_ + 1)) := ⟨front', ']' :: back', hline', hfront'⟩
    obtain ⟨a, text, b, hparts, ha, htext, hslice⟩ := hbounds.2.sliceBetween hend (by omega)
    dsimp only
    rw [hslice, Option.bind_some]
    split
    · exact ⟨none, rfl, by simp⟩
    · next hwords =>
      obtain ⟨found, hfound, hdestination⟩ := balancedDestination_spec hline' hfront'
      rw [hfound, Option.map_some]
      refine ⟨_, rfl, fun link hlink => ?_⟩
      obtain ⟨destination, hin, rfl⟩ := Option.map_eq_some_iff.mp hlink
      obtain ⟨hstart, hstop, hafter, hlt, hle⟩ := hdestination destination hin
      have hne : text ≠ [] := by
        rintro rfl
        exact hwords rfl
      have hsize : 0 < byteSize text := Nat.pos_of_ne_zero fun hzero => hne (byteSize_eq_zero.mp hzero)
      exact ⟨⟨⟨hbounds.1, hafter, by dsimp only; omega⟩, ⟨hbounds.2, hend, by dsimp only; omega⟩, by dsimp only; omega,
        by dsimp only; omega, hbyte, by simp, fun other hother => by
          obtain rfl := Option.some.inj hother
          exact ⟨hstart, hstop, hle⟩, fun _ => rfl⟩, rfl⟩

theorem parseLink_spec {line front back : Text} {open_ : ℕ} (hline : line = front ++ '[' :: back)
    (hopen : byteSize front = open_) :
    ∃ parsed, parseLink line open_ = some parsed ∧ ∀ link ∈ parsed, link.Sound line ∧ link.range.start = open_ := by
  have hrest := sliceFrom_append front ('[' :: back)
  rw [← hline, hopen] at hrest
  rw [parseLink, hrest, Option.bind_some]
  split
  · next hprefix =>
    obtain ⟨rest, hback⟩ := List.isPrefixOf_iff_prefix.mp hprefix
    exact parseWikilink_spec (by rw [hback]; exact hline) hopen
  · exact parseInlineLink_spec hline hopen

theorem precededBy_spec {line : Text} {index : ℕ} (p : UInt8 → Bool) (h : index ≤ byteSize line) :
    ∃ preceded, precededBy line index p = some preceded := by
  rw [precededBy]
  split
  · exact ⟨false, rfl⟩
  · have hlt : index - 1 < (asBytes line).length := by
      change _ ≤ (asBytes line).length at h
      omega
    rw [byteChecked, List.getElem?_eq_getElem hlt]
    exact ⟨_, rfl⟩

theorem eachInlineLinkFrom_spec {line : Text} {excluded : List Span} (hexcluded : ∀ range ∈ excluded, Stretch line range)
    {fuel cursor : ℕ} (hcursor : Boundary line cursor) (hfuel : byteSize line < fuel + cursor) :
    ∃ links, eachInlineLinkFrom line excluded fuel cursor = some links ∧ Ordered line cursor (links.map InlineLink.range) ∧
      ∀ link ∈ links, link.Sound line ∧ ∀ other ∈ excluded, Apart other link.range := by
  induction fuel generalizing cursor with
  | zero =>
    have := hcursor.le_size
    omega
  | succ fuel ih =>
    obtain ⟨rest, hrest⟩ := hcursor.sliceFrom
    rw [eachInlineLinkFrom, hrest, Option.bind_some]
    cases hopen : findWhere (· = '[') rest with
    | none => exact ⟨[], rfl, .nil line cursor, by simp⟩
    | some relative =>
      obtain ⟨front, c, back, hline, hfront, hc⟩ := char_of_found hrest hopen
      obtain rfl : c = '[' := of_decide_eq_true hc
      have hbounds := Boundary.around front ['['] back
      rw [show front ++ (['['] ++ back) = line from hline.symm, hfront, show byteSize ['['] = 1 from rfl] at hbounds
      -- what is found further on is found from here
      have hfurther {cursor' : ℕ} (hbound : Boundary line cursor') (hlt : cursor < cursor') :
          ∃ links, eachInlineLinkFrom line excluded fuel cursor' = some links ∧
            Ordered line cursor (links.map InlineLink.range) ∧
              ∀ link ∈ links, link.Sound line ∧ ∀ other ∈ excluded, Apart other link.range := by
        obtain ⟨links, hlinks, hordered, hsound⟩ := ih hbound (by omega)
        exact ⟨links, hlinks, hordered.mono hlt.le, hsound⟩
      obtain ⟨disqualified, hbefore⟩ := precededBy_spec (fun byte => byte = byteOf '!' || byte = byteOf '\\') hbounds.1.le_size
      dsimp only
      rw [hbefore, Option.bind_some]
      split
      · exact hfurther hbounds.2 (by omega)
      · split
        · next range hfind =>
          have hin := List.find?_some hfind
          rw [Span.contains, Bool.and_eq_true, decide_eq_true_eq, decide_eq_true_eq] at hin
          exact hfurther (hexcluded range (List.mem_of_find?_eq_some hfind)).stop (by omega)
        · obtain ⟨parsed, hparsed, hsound⟩ := parseLink_spec hline hfront
          rw [hparsed, Option.bind_some]
          cases parsed with
          | none => exact hfurther hbounds.2 (by omega)
          | some link =>
            obtain ⟨hlink, hstart⟩ := hsound link rfl
            dsimp only
            cases hover : overlapsExcluded excluded link.range with
            | true => exact hfurther hbounds.2 (by omega)
            | false =>
              have hlt := hlink.range.lt
              obtain ⟨links, hlinks, hordered, hsound⟩ := ih hlink.range.stop (by omega)
              rw [if_neg Bool.false_ne_true, hlinks]
              refine ⟨link :: links, rfl, .cons (by omega) hlink.range hordered, fun other hother => ?_⟩
              rcases List.mem_cons.mp hother with rfl | hother
              · exact ⟨hlink, overlapsExcluded_eq_false.mp hover⟩
              · exact hsound other hother

/-! ## Strikes -/

/-- A text between two delimiters, of bytes of a kind. -/
structure Delimited (line : Text) (range text : Span) (mark : UInt8 → Prop) : Prop where
  opens : Stretch line ⟨range.start, text.start⟩
  closes : Stretch line ⟨text.stop, range.stop⟩
  inside : text.start ≤ text.stop
  marks : ∀ delimiter ∈ delimitersOf range text, ∀ i, delimiter.start ≤ i → i < delimiter.stop →
    ∃ byte ∈ (asBytes line)[i]?, mark byte

theorem Delimited.range {line : Text} {range text : Span} {mark : UInt8 → Prop} (h : Delimited line range text mark) :
    Stretch line range := ⟨h.opens.start, h.closes.stop, h.opens.lt.trans_le (h.inside.trans h.closes.lt.le)⟩

theorem excluded_eq_false {excluded delimiters : List Span} (h : delimiters.any (overlapsExcluded excluded) = false) :
    ∀ delimiter ∈ delimiters, ∀ other ∈ excluded, Apart other delimiter := by
  intro delimiter hdelimiter
  refine overlapsExcluded_eq_false.mp ?_
  rw [List.any_eq_false] at h
  exact Bool.not_eq_true _ |>.mp (h delimiter hdelimiter)

/-- Two tildes in a line. -/
theorem tildes {line front back : Text} {start : ℕ} (hline : line = front ++ ("~~".toList ++ back))
    (hstart : byteSize front = start) :
    Stretch line ⟨start, start + 2⟩ ∧ ∀ i, start ≤ i → i < start + 2 → (asBytes line)[i]? = some (byteOf '~') := by
  have haround := Boundary.around front "~~".toList back
  rw [← hline, hstart, show byteSize "~~".toList = 2 from rfl] at haround
  have hfirst := byte_of_char front (c := '~') (by decide) ('~' :: back)
  rw [show front ++ '~' :: '~' :: back = line from hline.symm, hstart] at hfirst
  have hsecond := byte_of_char (front ++ ['~']) (c := '~') (by decide) back
  rw [List.append_assoc, show front ++ (['~'] ++ '~' :: back) = line from hline.symm, byteSize_append, hstart,
    show byteSize ['~'] = 1 from rfl] at hsecond
  refine ⟨⟨haround.1, haround.2, by dsimp only; omega⟩, fun i hle hlt => ?_⟩
  by_cases hi : i = start
  · rw [hi]
    exact hfirst
  · obtain rfl : i = start + 1 := by omega
    exact hsecond

theorem parseStrikethrough_spec {line front back : Text} {open_ : ℕ} (hline : line = front ++ ("~~".toList ++ back))
    (hopen : byteSize front = open_) :
    ∃ parsed, parseStrikethrough line open_ = some parsed ∧
      ∀ run ∈ parsed, Delimited line run.range run.text (· = byteOf '~') ∧ run.range.start = open_ := by
  have htildes := tildes hline hopen
  obtain ⟨rest, hrest⟩ := htildes.1.stop.sliceFrom
  dsimp only at hrest
  rw [parseStrikethrough, hrest, Option.map_some]
  refine ⟨_, rfl, fun run hrun => ?_⟩
  obtain ⟨index, hclose, hrun⟩ := Option.bind_eq_some_iff.mp hrun
  obtain ⟨front', back', hline', hfront'⟩ := text_of_found hrest hclose
  rw [Nat.add_comm _ index] at hfront'
  have htildes' := tildes hline' hfront'
  obtain ⟨text, -, hrun⟩ := Option.bind_eq_some_iff.mp hrun
  split at hrun
  · cases hrun
  · obtain rfl := Option.some.inj hrun
    refine ⟨⟨htildes.1, htildes'.1, Nat.le_add_left _ _, fun delimiter hdelimiter i hle hlt => ?_⟩, rfl⟩
    rcases List.mem_pair.mp hdelimiter with rfl | rfl
    · exact ⟨_, htildes.2 i hle hlt, rfl⟩
    · exact ⟨_, htildes'.2 i hle hlt, rfl⟩

theorem eachStrikethroughFrom_spec {line : Text} (excluded : List Span) {fuel cursor : ℕ} (hcursor : Boundary line cursor)
    (hfuel : byteSize line < fuel + cursor) :
    ∃ runs, eachStrikethroughFrom line excluded fuel cursor = some runs ∧
      Ordered line cursor (runs.map InlineStrikethrough.range) ∧ ∀ run ∈ runs,
        Delimited line run.range run.text (· = byteOf '~') ∧
          ∀ delimiter ∈ delimitersOf run.range run.text, ∀ other ∈ excluded, Apart other delimiter := by
  induction fuel generalizing cursor with
  | zero =>
    have := hcursor.le_size
    omega
  | succ fuel ih =>
    obtain ⟨rest, hrest⟩ := hcursor.sliceFrom
    rw [eachStrikethroughFrom, hrest, Option.bind_some]
    cases hopen : findText "~~".toList rest with
    | none => exact ⟨[], rfl, .nil line cursor, by simp⟩
    | some relative =>
      obtain ⟨front, back, hline, hfront⟩ := text_of_found hrest hopen
      have htildes := tildes hline hfront
      obtain ⟨escaped, hbefore⟩ := precededBy_spec (fun byte => byte = byteOf '~' || byte = byteOf '\\')
        htildes.1.start.le_size
      obtain ⟨parsed, hparsed, hsound⟩ := parseStrikethrough_spec hline hfront
      obtain ⟨runs, hruns, hordered, hdelimited⟩ := ih htildes.1.stop (by dsimp only; omega)
      have hskipped := hordered.mono (show cursor ≤ cursor + relative + 2 by omega)
      dsimp only at hbefore hruns ⊢
      rw [hbefore, Option.bind_some, hparsed, Option.bind_some]
      split
      · exact ⟨runs, hruns, hskipped, hdelimited⟩
      · cases parsed with
        | none => exact ⟨runs, hruns, hskipped, hdelimited⟩
        | some run =>
          obtain ⟨hrun, hstart⟩ := hsound run rfl
          have hrange := hrun.range
          dsimp only
          cases hover : (delimitersOf run.range run.text).any (overlapsExcluded excluded) with
          | true => exact ⟨runs, hruns, hskipped, hdelimited⟩
          | false =>
            have hlt := hrange.lt
            obtain ⟨others, hothers, hordered', hdelimited'⟩ := ih hrange.stop (by omega)
            rw [if_neg Bool.false_ne_true, hothers]
            refine ⟨run :: others, rfl, .cons (by omega) hrange hordered', fun other hother => ?_⟩
            rcases List.mem_cons.mp hother with rfl | hother
            · exact ⟨hrun, excluded_eq_false hover⟩
            · exact hdelimited' other hother

/-! ## Emphases -/

/-- The characters an emphasis is delimited by. -/
def IsMarker (c : Char) : Prop := c = '*' ∨ c = '_'

theorem IsMarker.ascii {c : Char} (h : IsMarker c) : Ascii c := by
  rcases h with rfl | rfl <;> decide

theorem IsMarker.ofNat {c : Char} (h : IsMarker c) : Char.ofNat (byteOf c).toNat = c := by
  rcases h with rfl | rfl <;> rfl

theorem IsMarker.lt {c : Char} (h : IsMarker c) : (byteOf c).toNat < 128 := by
  rcases h with rfl | rfl <;> decide

/-- A run of a marker from a place on. -/
theorem markerRunLength_spec {line : Text} {start : ℕ} (marker : UInt8) (h : start ≤ byteSize line) :
    ∃ length, markerRunLength line start marker = some length ∧
      (∀ i, start ≤ i → i < start + length → (asBytes line)[i]? = some marker) ∧
        ((asBytes line)[start]? = some marker → 1 ≤ length) := by
  rw [markerRunLength, if_pos h]
  have hsplit := (List.takeWhile_append_dropWhile (p := fun byte => decide (byte = marker)) (l := (asBytes line).drop start))
  refine ⟨_, rfl, fun i hle hlt => ?_, fun hfirst => ?_⟩
  · have hplace : ((asBytes line).drop start)[i - start]? = (asBytes line)[i]? := by
      rw [List.getElem?_drop]
      congr 1
      omega
    have hin : i - start < (((asBytes line).drop start).takeWhile fun byte => decide (byte = marker)).length := by omega
    rw [← hplace, ← hsplit, List.getElem?_append_left hin, List.getElem?_eq_getElem hin]
    have hmarker := List.mem_takeWhile_imp (List.getElem_mem hin)
    rw [of_decide_eq_true hmarker]
  · have hhead : ((asBytes line).drop start).head? = some marker := by
      rw [List.head?_drop]
      exact hfirst
    cases hdrop : (asBytes line).drop start with
    | nil =>
      rw [hdrop] at hhead
      cases hhead
    | cons byte rest =>
      rw [hdrop] at hhead
      obtain rfl : byte = marker := Option.some.inj hhead
      rw [List.takeWhile_cons, if_pos (decide_eq_true rfl)]
      exact Nat.le_add_left _ _

/-- A run of a marker with something in it is a stretch. -/
theorem stretch_of_run {line : Text} {start length : ℕ} {marker : UInt8} (hmarker : marker.toNat < 128) (hlength : 1 ≤ length)
    (hrun : ∀ i, start ≤ i → i < start + length → (asBytes line)[i]? = some marker) :
    Stretch line ⟨start, start + length⟩ := by
  have hfirst := boundary_of_byte (hrun start le_rfl (by omega)) hmarker
  have hlast := boundary_of_byte (hrun (start + length - 1) (by omega) (by omega)) hmarker
  rw [show start + length - 1 + 1 = start + length by omega] at hlast
  exact ⟨hfirst.1, hlast.2, by dsimp only; omega⟩

theorem emphasisClose_spec {line : Text} {marker : Char} (hmarker : IsMarker marker) (length : ℕ)
    {fuel cursor : ℕ} (hcursor : Boundary line cursor) (hpos : 1 ≤ cursor) (hfuel : byteSize line < fuel + cursor) :
    ∃ close, emphasisClose line (byteOf marker) length fuel cursor = some close ∧ ∀ candidate ∈ close, cursor ≤ candidate ∧
      ∀ i, candidate ≤ i → i < candidate + length → (asBytes line)[i]? = some (byteOf marker) := by
  induction fuel generalizing cursor with
  | zero =>
    have := hcursor.le_size
    omega
  | succ fuel ih =>
    obtain ⟨rest, hrest⟩ := hcursor.sliceFrom
    rw [emphasisClose, hrest, Option.bind_some, hmarker.ofNat]
    cases hfind : findWhere (· = marker) rest with
    | none => exact ⟨none, rfl, by simp⟩
    | some relative =>
      obtain ⟨front, c, back, hline, hfront, hc⟩ := char_of_found hrest hfind
      obtain rfl : c = marker := of_decide_eq_true hc
      have hbyte := byte_of_char front hmarker.ascii back
      rw [← hline, hfront] at hbyte
      have hcandidate : Boundary line (cursor + relative) := ⟨front, c :: back, hline, hfront⟩
      obtain ⟨run, hrun, hbytes, hrunPos⟩ := markerRunLength_spec (byteOf c) hcandidate.le_size
      have hrunLength := hrunPos hbyte
      have hbefore : ∃ before, byteBefore line (cursor + relative) = some before := by
        have hlt : cursor + relative - 1 < (asBytes line).length := by
          have hle : cursor + relative ≤ (asBytes line).length := hcandidate.le_size
          omega
        rw [byteBefore, if_neg (by omega), byteChecked, List.getElem?_eq_getElem hlt]
        exact ⟨_, rfl⟩
      obtain ⟨before, hbefore⟩ := hbefore
      dsimp only
      rw [hrun, Option.bind_some, hbefore, Option.bind_some]
      split
      · next hcloses =>
        refine ⟨_, rfl, fun candidate hin => ?_⟩
        obtain rfl := Option.some.inj hin
        rw [← hcloses.1]
        exact ⟨Nat.le_add_right _ _, hbytes⟩
      · have hstretch := stretch_of_run hmarker.lt hrunLength hbytes
        obtain ⟨close, hclose, hall⟩ := ih hstretch.stop (by dsimp only; omega) (by dsimp only; omega)
        refine ⟨close, hclose, fun candidate hin => ?_⟩
        obtain ⟨hle, hmarks⟩ := hall candidate hin
        dsimp only at hle
        exact ⟨by omega, hmarks⟩

/-- A byte of an emphasis delimiter. -/
def IsMark (byte : UInt8) : Prop := byte = byteOf '*' ∨ byte = byteOf '_'

theorem IsMarker.mark {c : Char} (h : IsMarker c) : IsMark (byteOf c) := h.imp (congrArg byteOf) (congrArg byteOf)

theorem parseEmphasis_spec {line front back : Text} {marker : Char} (hmarker : IsMarker marker) {open_ : ℕ}
    (hline : line = front ++ marker :: back) (hopen : byteSize front = open_) (excluded : List Span) :
    ∃ parsed, parseEmphasis line open_ (byteOf marker) excluded = some parsed ∧ ∀ run ∈ parsed,
      Delimited line run.range run.text IsMark ∧ run.range.start = open_ ∧
        ∀ delimiter ∈ delimitersOf run.range run.text, ∀ other ∈ excluded, Apart other delimiter := by
  have hbyte := byte_of_char front hmarker.ascii back
  rw [← hline, hopen] at hbyte
  have hstart : Boundary line open_ := ⟨front, marker :: back, hline, hopen⟩
  obtain ⟨length, hlength, hbytes, hpos⟩ := markerRunLength_spec (byteOf marker) hstart.le_size
  have hopens := stretch_of_run hmarker.lt (hpos hbyte) hbytes
  obtain ⟨touched, htouched⟩ := precededBy_spec (fun byte => byte = byteOf '\\' || isWordByte byte) hstart.le_size
  have hrun := hpos hbyte
  obtain ⟨close, hclose, hall⟩ := emphasisClose_spec hmarker length hopens.stop
    (show 1 ≤ open_ + length by omega) (show byteSize line < byteSize line + 1 + (open_ + length) by omega)
  rw [parseEmphasis, hlength, Option.bind_some]
  split
  · exact ⟨none, rfl, by simp⟩
  · dsimp only at hclose ⊢
    split
    · exact ⟨none, rfl, by simp⟩
    · split
      · exact ⟨none, rfl, by simp⟩
      · rw [htouched, Option.bind_some]
        split
        · exact ⟨none, rfl, by simp⟩
        · rw [hclose, Option.map_some]
          refine ⟨_, rfl, fun run hrun => ?_⟩
          obtain ⟨candidate, hcandidate, hrun⟩ := Option.bind_eq_some_iff.mp hrun
          obtain ⟨hle, hmarks⟩ := hall candidate hcandidate
          cases hover : (delimitersOf ⟨open_, candidate + length⟩ ⟨open_ + length, candidate⟩).any
              (overlapsExcluded excluded) with
          | true =>
            rw [hover] at hrun
            cases hrun
          | false =>
            rw [hover] at hrun
            obtain rfl := Option.some.inj hrun
            have hcloses := stretch_of_run hmarker.lt (hpos hbyte) hmarks
            refine ⟨⟨hopens, hcloses, hle, fun delimiter hdelimiter i hlower hupper => ?_⟩, rfl, excluded_eq_false hover⟩
            rcases List.mem_pair.mp hdelimiter with rfl | rfl
            · exact ⟨_, hbytes i hlower hupper, hmarker.mark⟩
            · exact ⟨_, hmarks i hlower hupper, hmarker.mark⟩

/-- The delimiters of some emphases. -/
def emphasisDelimiters (runs : List InlineEmphasis) : List Span := runs.flatMap fun run => delimitersOf run.range run.text

/-- Emphases between two offsets whose delimiters stand apart. -/
structure Emphasised (line : Text) (excluded : List Span) (start stop : ℕ) (runs : List InlineEmphasis) : Prop where
  within : ∀ run ∈ runs, start ≤ run.range.start ∧ run.range.stop ≤ stop
  delimited : ∀ run ∈ runs, Delimited line run.range run.text IsMark
  free : ∀ run ∈ runs, ∀ delimiter ∈ delimitersOf run.range run.text, ∀ other ∈ excluded, Apart other delimiter
  apart : (emphasisDelimiters runs).Pairwise Apart

namespace Emphasised

variable {line : Text} {excluded : List Span} {start stop : ℕ} {runs : List InlineEmphasis}

theorem nil (line : Text) (excluded : List Span) (start stop : ℕ) : Emphasised line excluded start stop [] :=
  ⟨by simp, by simp, by simp, List.Pairwise.nil⟩

theorem delimiter (h : Emphasised line excluded start stop runs) {delimiter : Span}
    (hdelimiter : delimiter ∈ emphasisDelimiters runs) : start ≤ delimiter.start ∧ delimiter.stop ≤ stop := by
  obtain ⟨run, hrun, hin⟩ := List.mem_flatMap.mp hdelimiter
  have hwithin := h.within run hrun
  have hrun := h.delimited run hrun
  have hopens := hrun.opens.lt
  have hinside := hrun.inside
  have hcloses := hrun.closes.lt
  dsimp only at hopens hcloses
  rcases List.mem_pair.mp hin with rfl | rfl
  · exact ⟨hwithin.1, by dsimp only; omega⟩
  · exact ⟨by dsimp only; omega, hwithin.2⟩

theorem mono {start' : ℕ} (h : Emphasised line excluded start' stop runs) (hle : start ≤ start') :
    Emphasised line excluded start stop runs :=
  ⟨fun run hrun => ⟨hle.trans (h.within run hrun).1, (h.within run hrun).2⟩, h.delimited, h.free, h.apart⟩

/-- A run, what is found inside it and what is found after it. -/
theorem cons {run : InlineEmphasis} {inside rest : List InlineEmphasis} (hstart : start ≤ run.range.start)
    (hrun : Delimited line run.range run.text IsMark)
    (hfree : ∀ delimiter ∈ delimitersOf run.range run.text, ∀ other ∈ excluded, Apart other delimiter)
    (hinside : Emphasised line excluded run.text.start run.text.stop inside)
    (hrest : Emphasised line excluded run.range.stop stop rest) (hstop : run.range.stop ≤ stop) :
    Emphasised line excluded start stop (run :: (inside ++ rest)) := by
  have hopens := hrun.opens.lt
  have htext := hrun.inside
  have hcloses := hrun.closes.lt
  dsimp only at hopens hcloses
  have hmem {other : InlineEmphasis} (hother : other ∈ run :: (inside ++ rest)) :
      other = run ∨ other ∈ inside ∨ other ∈ rest := by
    rcases List.mem_cons.mp hother with hother | hother
    · exact Or.inl hother
    · exact Or.inr (List.mem_append.mp hother)
  refine ⟨fun other hother => ?_, fun other hother => ?_, fun other hother => ?_, ?_⟩
  · rcases hmem hother with rfl | hother | hother
    · exact ⟨hstart, hstop⟩
    · have hwithin := hinside.within other hother
      omega
    · have hwithin := hrest.within other hother
      omega
  · rcases hmem hother with rfl | hother | hother
    · exact hrun
    · exact hinside.delimited other hother
    · exact hrest.delimited other hother
  · rcases hmem hother with rfl | hother | hother
    · exact hfree
    · exact hinside.free other hother
    · exact hrest.free other hother
  · have hall : emphasisDelimiters (run :: (inside ++ rest)) =
        delimitersOf run.range run.text ++ (emphasisDelimiters inside ++ emphasisDelimiters rest) := by
      rw [emphasisDelimiters, List.flatMap_cons, List.flatMap_append]
      rfl
    rw [hall, List.pairwise_append, List.pairwise_append]
    refine ⟨?_, ⟨hinside.apart, hrest.apart, fun a ha b hb => ?_⟩, fun a ha b hb => ?_⟩
    · exact List.pairwise_pair.mpr (Or.inl htext)
    · have hina := hinside.delimiter ha
      have hinb := hrest.delimiter hb
      exact Or.inl (by omega)
    · rcases List.mem_append.mp hb with hb | hb
      · have hin := hinside.delimiter hb
        rcases List.mem_pair.mp ha with rfl | rfl
        · exact Or.inl hin.1
        · exact Or.inr hin.2
      · have hin := hrest.delimiter hb
        rcases List.mem_pair.mp ha with rfl | rfl
        · exact Or.inl (by dsimp only; omega)
        · exact Or.inl hin.1

/-- What is emphasised in a front is in the line. -/
theorem front {front back : Text} (h : Emphasised front excluded start stop runs) :
    Emphasised (front ++ back) excluded start stop runs := by
  have hstretch {range : Span} (h : Stretch front range) : Stretch (front ++ back) range :=
    ⟨h.start.front, h.stop.front, h.lt⟩
  refine ⟨h.within, fun run hrun => ?_, h.free, h.apart⟩
  have hdelimited := h.delimited run hrun
  refine ⟨hstretch hdelimited.opens, hstretch hdelimited.closes, hdelimited.inside, fun delimiter hdelimiter i hle hlt => ?_⟩
  obtain ⟨byte, hbyte, hmark⟩ := hdelimited.marks delimiter hdelimiter i hle hlt
  refine ⟨byte, ?_, hmark⟩
  rw [asBytes_append, List.getElem?_append_left (List.getElem?_eq_some_iff.mp hbyte).1]
  exact hbyte

end Emphasised

theorem eachEmphasisFrom_spec {nested : Text → Span → Option (List InlineEmphasis)} {line : Text} {excluded : List Span}
    (hnested : ∀ text, Boundary line text.start → Boundary line text.stop → text.start ≤ text.stop →
      ∃ inside, nested line text = some inside ∧ Emphasised line excluded text.start text.stop inside)
    {fuel cursor : ℕ} (hcursor : Boundary line cursor) (hfuel : byteSize line < fuel + cursor) :
    ∃ runs, eachEmphasisFrom nested line excluded fuel cursor = some runs ∧
      Emphasised line excluded cursor (byteSize line) runs := by
  induction fuel generalizing cursor with
  | zero =>
    have := hcursor.le_size
    omega
  | succ fuel ih =>
    obtain ⟨rest, hrest⟩ := hcursor.sliceFrom
    rw [eachEmphasisFrom, hrest, Option.bind_some]
    cases hopen : findWhere (fun c => c = '*' || c = '_') rest with
    | none => exact ⟨[], rfl, .nil _ _ _ _⟩
    | some relative =>
      obtain ⟨front, marker, back, hline, hfront, hc⟩ := char_of_found hrest hopen
      have hmarker : IsMarker marker := by simpa [IsMarker] using hc
      have hbyte := byte_of_char front hmarker.ascii back
      rw [← hline, hfront] at hbyte
      have hbound : Boundary line (cursor + relative) := ⟨front, marker :: back, hline, hfront⟩
      obtain ⟨length, hlength, hbytes, hpos⟩ := markerRunLength_spec (byteOf marker) hbound.le_size
      have hstretch := stretch_of_run hmarker.lt (hpos hbyte) hbytes
      have hlengthPos := hpos hbyte
      obtain ⟨parsed, hparsed, hsound⟩ := parseEmphasis_spec hmarker hline hfront excluded
      dsimp only
      rw [byteChecked, hbyte, Option.bind_some]
      change ∃ runs, ((markerRunLength line (cursor + relative) (byteOf marker)).bind _) = some runs ∧ _
      rw [hlength, Option.bind_some]
      change ∃ runs, ((parseEmphasis line (cursor + relative) (byteOf marker) excluded).bind _) = some runs ∧ _
      rw [hparsed, Option.bind_some]
      cases parsed with
      | none =>
        obtain ⟨runs, hruns, hemphasised⟩ := ih hstretch.stop (by dsimp only; omega)
        exact ⟨runs, hruns, hemphasised.mono (by dsimp only; omega)⟩
      | some run =>
        obtain ⟨hrun, hstart, hfree⟩ := hsound run rfl
        have hrange := hrun.range
        have hlt := hrange.lt
        obtain ⟨inside, hinside, hin⟩ := hnested run.text hrun.opens.stop hrun.closes.start hrun.inside
        obtain ⟨others, hothers, hafter⟩ := ih hrange.stop (by omega)
        dsimp only
        rw [hinside, Option.bind_some, hothers]
        exact ⟨_, rfl, .cons (by omega) hrun hfree hin hafter hrange.stop.le_size⟩

theorem nestedEmphases_spec (excluded : List Span) (levels : ℕ) {line : Text} (text : Span) (hstart : Boundary line text.start)
    (hstop : Boundary line text.stop) (hle : text.start ≤ text.stop) :
    ∃ inside, nestedEmphases excluded levels line text = some inside ∧
      Emphasised line excluded text.start text.stop inside := by
  induction levels generalizing line text with
  | zero => exact ⟨[], rfl, .nil _ _ _ _⟩
  | succ levels ih =>
    obtain ⟨a, part, c, rfl, hfront, hsize⟩ := hstart.split hstop hle
    have hinner := sliceTo_append (a ++ part) c
    rw [byteSize_append, hsize, List.append_assoc] at hinner
    have hfrom : Boundary (a ++ part) text.start := ⟨a, part, rfl, hfront⟩
    obtain ⟨inside, hinside, hemphasised⟩ := @eachEmphasisFrom_spec (nestedEmphases excluded levels) (a ++ part) excluded
      (fun text hstart hstop hle => ih text hstart hstop hle) (byteSize (a ++ part) + 1) text.start hfrom (by omega)
    rw [nestedEmphases, hinner, Option.bind_some]
    rw [byteSize_append, hsize] at hemphasised
    refine ⟨inside, hinside, ?_⟩
    rw [← List.append_assoc]
    exact hemphasised.front

/-! ## What the scanners find together -/

/-- Delimiters of different bytes stand apart. -/
theorem apart_of_marks {line : Text} {a b : Span} {mark mark' : UInt8 → Prop}
    (ha : ∀ i, a.start ≤ i → i < a.stop → ∃ byte ∈ (asBytes line)[i]?, mark byte)
    (hb : ∀ i, b.start ≤ i → i < b.stop → ∃ byte ∈ (asBytes line)[i]?, mark' byte)
    (hmark : ∀ byte, mark byte → ¬mark' byte) (hlta : a.start < a.stop) (hltb : b.start < b.stop) : Apart a b := by
  by_contra hover
  rw [Apart, not_or, not_le, not_le] at hover
  obtain ⟨byte, hbyte, hin⟩ := ha (max a.start b.start) (le_max_left _ _) (max_lt hlta hover.1)
  obtain ⟨other, hother, hin'⟩ := hb (max a.start b.start) (le_max_right _ _) (max_lt hover.2 hltb)
  rw [hbyte] at hother
  obtain rfl := Option.some.inj hother
  exact hmark byte hin hin'

/-- Parts of stretches that stand apart do. -/
theorem apart_flatMap {α : Type*} {range : α → Span} {parts : α → List Span} {pieces : List α}
    (hin : ∀ piece ∈ pieces, ∀ part ∈ parts piece, (range piece).start ≤ part.start ∧ part.stop ≤ (range piece).stop)
    (hparts : ∀ piece ∈ pieces, (parts piece).Pairwise Apart) (h : (pieces.map range).Pairwise Apart) :
    (pieces.flatMap parts).Pairwise Apart := by
  induction pieces with
  | nil => exact List.Pairwise.nil
  | cons piece rest ih =>
    obtain ⟨hfirst, hrest⟩ := List.pairwise_cons.mp h
    rw [List.flatMap_cons, List.pairwise_append]
    refine ⟨hparts piece List.mem_cons_self, ih (fun other hother => hin other (List.mem_cons_of_mem _ hother))
      (fun other hother => hparts other (List.mem_cons_of_mem _ hother)) hrest, fun a ha b hb => ?_⟩
    obtain ⟨other, hother, hb⟩ := List.mem_flatMap.mp hb
    have hina := hin piece List.mem_cons_self a ha
    have hinb := hin other (List.mem_cons_of_mem _ hother) b hb
    exact (hfirst _ (List.mem_map_of_mem hother)).imp (fun hle => by omega) fun hle => by omega

theorem Ordered.apart {line : Text} {cursor : ℕ} {ranges : List Span} (h : Ordered line cursor ranges) : ranges.Pairwise Apart :=
  List.Pairwise.imp (S := Apart) (fun hle => Or.inl hle) h.order

/-- The delimiters of a text stand at the ends of its range, apart. -/
theorem delimiters_of {range text : Span} (hopens : range.start ≤ text.start) (htext : text.start ≤ text.stop)
    (hcloses : text.stop ≤ range.stop) : (delimitersOf range text).Pairwise Apart ∧
      ∀ delimiter ∈ delimitersOf range text, range.start ≤ delimiter.start ∧ delimiter.stop ≤ range.stop := by
  refine ⟨List.pairwise_pair.mpr (Or.inl htext), fun delimiter hdelimiter => ?_⟩
  rcases List.mem_pair.mp hdelimiter with rfl | rfl
  · exact ⟨le_rfl, by dsimp only; omega⟩
  · exact ⟨by dsimp only; omega, le_rfl⟩

theorem Delimited.delimiter {line : Text} {range text : Span} {mark : UInt8 → Prop} (h : Delimited line range text mark)
    {delimiter : Span} (hdelimiter : delimiter ∈ delimitersOf range text) : Stretch line delimiter := by
  rcases List.mem_pair.mp hdelimiter with rfl | rfl
  · exact h.opens
  · exact h.closes

theorem Delimited.delimiters {line : Text} {range text : Span} {mark : UInt8 → Prop} (h : Delimited line range text mark) :
    (delimitersOf range text).Pairwise Apart ∧
      ∀ delimiter ∈ delimitersOf range text, range.start ≤ delimiter.start ∧ delimiter.stop ≤ range.stop :=
  delimiters_of h.opens.lt.le h.inside h.closes.lt.le

/-- The comments, the code and what is looked for from an offset on. -/
structure Found where
  comments : List Span
  codes : List InlineCode
  links : List InlineLink
  strikes : List InlineStrikethrough
  emphases : List InlineEmphasis

def foundFrom (line : Text) (from_ : ℕ) : Option Found :=
  let code := codeSpanRanges line
  (htmlCommentRanges line code).bind fun comments =>
    (eachInlineLink line from_ (code ++ comments)).bind fun links =>
      let excluded := code ++ comments ++ links.map InlineLink.range
      (eachStrikethrough line from_ excluded).bind fun strikes =>
        (eachEmphasis line from_ excluded).map fun emphases => ⟨comments, codeSpans line, links, strikes, emphases⟩

theorem foundFrom_eq_some {line : Text} {from_ : ℕ} {found : Found} (h : foundFrom line from_ = some found) :
    found.codes = codeSpans line ∧ htmlCommentRanges line (codeSpanRanges line) = some found.comments ∧
      eachInlineLink line from_ (codeSpanRanges line ++ found.comments) = some found.links ∧
        eachStrikethrough line from_ (codeSpanRanges line ++ found.comments ++ found.links.map InlineLink.range) =
          some found.strikes ∧
          eachEmphasis line from_ (codeSpanRanges line ++ found.comments ++ found.links.map InlineLink.range) =
            some found.emphases := by
  simp only [foundFrom, Option.bind_eq_some_iff, Option.map_eq_some_iff] at h
  obtain ⟨comments, hcomments, links, hlinks, strikes, hstrikes, emphases, hemphases, rfl⟩ := h
  exact ⟨rfl, hcomments, hlinks, hstrikes, hemphases⟩

def strikeDelimiters (runs : List InlineStrikethrough) : List Span := runs.flatMap fun run => delimitersOf run.range run.text

/-- The stretches that are taken: comments, code and links, and the delimiters of styles. -/
def Found.taken (found : Found) : List Span :=
  found.comments ++ (found.codes.map InlineCode.range ++
    (found.links.map InlineLink.range ++ (strikeDelimiters found.strikes ++ emphasisDelimiters found.emphases)))

/-- What the scanners find from an offset on, no two of a kind or of different kinds in one place. -/
structure Found.Sound (line : Text) (from_ : ℕ) (found : Found) : Prop where
  comments : ∀ comment ∈ found.comments, Stretch line comment ∧ (asBytes line)[comment.start]? = some (byteOf '<')
  codes : ∀ code ∈ found.codes, code.Sound line
  links : ∀ link ∈ found.links, link.Sound line ∧ from_ ≤ link.range.start
  linkOrder : Ordered line from_ (found.links.map InlineLink.range)
  strikes : ∀ run ∈ found.strikes, Delimited line run.range run.text (· = byteOf '~') ∧ from_ ≤ run.range.start
  strikeOrder : Ordered line from_ (found.strikes.map InlineStrikethrough.range)
  emphases : ∀ run ∈ found.emphases, Delimited line run.range run.text IsMark ∧ from_ ≤ run.range.start
  apart : found.taken.Pairwise Apart

theorem foundFrom_spec {line : Text} {from_ : ℕ} (h : Boundary line from_) :
    ∃ found, foundFrom line from_ = some found ∧ found.Sound line from_ := by
  have hsize : byteSize line < byteSize line + 1 + from_ := by omega
  have hcode := codeSpans_spec line
  obtain ⟨comments, hcomments, hcommentOrder, hcomment⟩ := htmlCommentsFrom_spec (codeSpanRanges line) (.zero line)
    (Nat.lt_succ_of_le (Nat.le_add_right (byteSize line) 0))
  have hstretch : ∀ range ∈ codeSpanRanges line ++ comments, Stretch line range := by
    intro range hrange
    exact (List.mem_append.mp hrange).elim (hcode.1.stretch range) (hcommentOrder.stretch range)
  obtain ⟨links, hlinks, hlinkOrder, hlink⟩ := eachInlineLinkFrom_spec hstretch h hsize
  obtain ⟨strikes, hstrikes, hstrikeOrder, hstrike⟩ :=
    eachStrikethroughFrom_spec (codeSpanRanges line ++ comments ++ links.map InlineLink.range) h hsize
  obtain ⟨emphases, hemphases, hemphasised⟩ := @eachEmphasisFrom_spec
    (nestedEmphases (codeSpanRanges line ++ comments ++ links.map InlineLink.range) maxEmphasisDepth) line
    (codeSpanRanges line ++ comments ++ links.map InlineLink.range)
    (fun text hstart hstop hle => nestedEmphases_spec _ _ text hstart hstop hle) _ from_ h hsize
  refine ⟨⟨comments, codeSpans line, links, strikes, emphases⟩, ?_,
    fun comment hin => ⟨hcommentOrder.stretch comment hin, (hcomment comment hin).1⟩, hcode.2,
    fun link hin => ⟨(hlink link hin).1, hlinkOrder.from_ _ (List.mem_map_of_mem hin)⟩, hlinkOrder,
    fun run hrun => ⟨(hstrike run hrun).1, hstrikeOrder.from_ _ (List.mem_map_of_mem hrun)⟩, hstrikeOrder,
    fun run hrun => ⟨hemphasised.delimited run hrun, (hemphasised.within run hrun).1⟩, ?_⟩
  · have hstrikes : eachStrikethrough line from_ (codeSpanRanges line ++ comments ++ links.map InlineLink.range) = some strikes :=
      hstrikes
    have hemphases : eachEmphasis line from_ (codeSpanRanges line ++ comments ++ links.map InlineLink.range) = some emphases :=
      hemphases
    rw [foundFrom, htmlCommentRanges, hcomments, Option.bind_some, eachInlineLink, hlinks, Option.bind_some]
    simp only [hstrikes, hemphases, Option.bind_some, Option.map_some]
  -- every delimiter of a style keeps off what was taken before it
  have hfree {taken delimiter : Span} (htaken : taken ∈ codeSpanRanges line ++ comments ++ links.map InlineLink.range)
      (hin : delimiter ∈ strikeDelimiters strikes ++ emphasisDelimiters emphases) : Apart taken delimiter := by
    rcases List.mem_append.mp hin with hin | hin
    · obtain ⟨run, hrun, hin⟩ := List.mem_flatMap.mp hin
      exact (hstrike run hrun).2 delimiter hin taken htaken
    · obtain ⟨run, hrun, hin⟩ := List.mem_flatMap.mp hin
      exact hemphasised.free run hrun delimiter hin taken htaken
  have hlinkFree {taken range : Span} (htaken : taken ∈ codeSpanRanges line ++ comments)
      (hin : range ∈ links.map InlineLink.range) : Apart taken range := by
    obtain ⟨link, hlinkIn, rfl⟩ := List.mem_map.mp hin
    exact (hlink link hlinkIn).2 taken htaken
  have hstyles : (strikeDelimiters strikes ++ emphasisDelimiters emphases).Pairwise Apart := by
    refine List.pairwise_append.mpr ⟨apart_flatMap (fun run hrun => (hstrike run hrun).1.delimiters.2)
      (fun run hrun => (hstrike run hrun).1.delimiters.1) hstrikeOrder.apart, hemphasised.apart, fun a ha b hb => ?_⟩
    obtain ⟨run, hrun, ha⟩ := List.mem_flatMap.mp ha
    obtain ⟨other, hother, hb⟩ := List.mem_flatMap.mp hb
    have hdelimited := (hstrike run hrun).1
    have hemphasis := hemphasised.delimited other hother
    refine apart_of_marks (hdelimited.marks a ha) (hemphasis.marks b hb) (fun byte hbyte hmark => ?_)
      (hdelimited.delimiter ha).lt (hemphasis.delimiter hb).lt
    rw [hbyte] at hmark
    exact hmark.elim (by decide) (by decide)
  have htail : (links.map InlineLink.range ++ (strikeDelimiters strikes ++ emphasisDelimiters emphases)).Pairwise Apart :=
    List.pairwise_append.mpr ⟨hlinkOrder.apart, hstyles, fun a ha b hb => hfree (List.mem_append_right _ ha) hb⟩
  have hrest {taken other : Span} (htaken : taken ∈ codeSpanRanges line ++ comments)
      (hother : other ∈ links.map InlineLink.range ++ (strikeDelimiters strikes ++ emphasisDelimiters emphases)) :
      Apart taken other :=
    (List.mem_append.mp hother).elim (hlinkFree htaken) (hfree (List.mem_append_left _ htaken))
  refine List.pairwise_append.mpr ⟨hcommentOrder.apart, List.pairwise_append.mpr ⟨hcode.1.apart, htail,
    fun a ha b hb => hrest (List.mem_append_left _ ha) hb⟩, fun a ha b hb => ?_⟩
  rcases List.mem_append.mp hb with hb | hb
  · exact ((hcomment a ha).2 b hb).symm
  · exact hrest (List.mem_append_right _ ha) hb

end Thock.Desk.Inline
