import Thock.SyncCore.BlockMoves

/-!
# Application rules and their list operations

The application rules once more, with every operation of the standard library that stops the program out of bounds made
to say so, and with the document they end in.

The geometry of a section keeps each of them in bounds, and the lines they put in or take out leave no line without a
terminator above another.
-/

namespace Thock.SyncCore

open TextScan

/-! ## List operations that stop the program -/

section Checked

variable {α : Type*}

/-- Indexed assignment. -/
def setChecked (list : List α) (index : ℕ) (a : α) : Option (List α) :=
  if index < list.length then some (list.set index a) else none

def spliceChecked (list : List α) (index : ℕ) (new : List α) : Option (List α) :=
  if index ≤ list.length then some (list.take index ++ new ++ list.drop index) else none

def drainChecked (list : List α) (start stop : ℕ) : Option (List α) :=
  if start ≤ stop ∧ stop ≤ list.length then some (list.take start ++ list.drop stop) else none

def removeChecked (list : List α) (index : ℕ) : Option (List α) :=
  if index < list.length then some (list.eraseIdx index) else none

/-- Subtraction of one from an unsigned number. -/
def predChecked (n : ℕ) : Option ℕ := if n = 0 then none else some (n - 1)

def windowsChecked {α : Type} (n : ℕ) (list : List α) : Option (List (List α)) := if n = 0 then none else some (windows n list)

end Checked

/-! ## The note model -/

/-- The scan of a note over a table of flags, one for each line. -/
def scanCheckedFrom (closes : Bool) : ℕ → Scan → List Line → List HeadingLine → List Bool →
    Option (List HeadingLine × List Bool)
  | _, _, [], found, flags => some (found, flags)
  | index, .frontMatter, line :: rest, found, flags =>
    (setChecked flags index true).bind fun flags =>
      scanCheckedFrom closes (index + 1) (if isFrontMatterEnd line.text then .body else .frontMatter) rest found flags
  | index, .fence character length, line :: rest, found, flags =>
    (setChecked flags index true).bind fun flags =>
      scanCheckedFrom closes (index + 1) (if closesFence line.text character length then .body else .fence character length)
        rest found flags
  | index, .body, line :: rest, found, flags =>
    if index = 0 ∧ line.text = ['-', '-', '-'] ∧ closes then
      (setChecked flags index true).bind fun flags => scanCheckedFrom closes (index + 1) .frontMatter rest found flags
    else match opensFence line.text with
      | some (character, length) =>
        (setChecked flags index true).bind fun flags =>
          scanCheckedFrom closes (index + 1) (.fence character length) rest found flags
      | none =>
        match parseHeading line.text with
        | some (level, text) => scanCheckedFrom closes (index + 1) .body rest (found ++ [⟨index, level, text⟩]) flags
        | none => scanCheckedFrom closes (index + 1) .body rest found flags

def Document.scanChecked (document : Document) : Option (List HeadingLine × List Bool) :=
  scanCheckedFrom (frontMatterCloses document.lines) 0 .body document.lines [] (List.replicate document.lines.length false)

/-- The loop back over blank lines. -/
def trimCheckedFrom (lines : List Line) (start : ℕ) : ℕ → ℕ → Option ℕ
  | 0, stop => some stop
  | fuel + 1, stop =>
    if start < stop then (predChecked stop).bind fun last =>
      if lines[last]?.any Line.isBlank then trimCheckedFrom lines start fuel last else some stop
    else some stop

def Document.trimBlankEndChecked (document : Document) (start stop : ℕ) : Option ℕ :=
  (trimCheckedFrom document.lines start stop stop).bind fun stop =>
    if start < stop then (predChecked stop).bind fun last =>
      if document.lines[last]?.any fun line => isThematicBreak line.text then trimCheckedFrom document.lines start last last
      else some stop
    else some stop

def Document.wholeChecked (document : Document) : Option Section :=
  let stop := document.lines.length
  (trimCheckedFrom document.lines 0 stop stop).map fun bodyStop =>
    { heading := none, start := 0, bodyStop, ownStop := bodyStop, stop }

def Document.insertChecked (document : Document) (index : ℕ) (texts : List Text) : Option Document :=
  if texts.isEmpty then some document
  else
    let index := min index document.lines.length
    let atEnd := index == document.lines.length
    let unterminatedTail := atEnd && document.lines.getLast?.any fun line => line.ending = .none
    let lines := if unterminatedTail then setLastEnding document.ending document.lines else document.lines
    let inserted := texts.zipIdx.map fun (text, i) =>
      ⟨text, if unterminatedTail && i + 1 == texts.length then .none else document.ending⟩
    (spliceChecked lines index inserted).map fun lines => { document with lines }

/-! ## The rules -/

def cutChecked (document : Document) (start stop : ℕ) : Option Document :=
  let stop := min stop document.lines.length
  if stop ≤ start then some document
  else (drainChecked document.lines start stop).bind fun lines =>
    let beforeBlank := decide (0 < start) && lines[start - 1]?.any Line.isBlank
    let afterBlank := lines[start]?.any Line.isBlank
    (if beforeBlank && afterBlank then removeChecked lines start else some lines).map fun lines => { document with lines }

def insertLinesChecked (document : Document) (section_ : Section) (index : ℕ) (lines : List Text)
    (blankLineBefore : Bool) : Option Document :=
  if lines.isEmpty then some document
  else
    let needsBlank := blankLineBefore && decide (0 < index) && section_.heading != some (index - 1) &&
      document.lines[index - 1]?.any fun line => !line.isBlank
    document.insertChecked index (if needsBlank then [] :: lines else lines)

def locateChecked (prim : Primitives) (document : Document) (heading : Option Heading) (outcome : Option Outcome) :
    Option (Document × Section × Option Outcome) :=
  match heading with
  | none => some (document, document.whole, outcome)
  | some heading =>
    match document.resolve prim heading with
    | some found => some (document, document.sectionOf found, outcome)
    | none =>
      let (index, texts) := missingHeading document heading
      (document.insertChecked index texts).map fun document =>
        (document, ((document.resolve prim heading).map document.sectionOf).getD document.whole,
          outcome.or (some .sectionAdded))

def locateGroupChecked (prim : Primitives) (document : Document) (to_ : Option Heading) (createUnder : Option Heading)
    (outcome : Option Outcome) : Option (Document × Section × Option Outcome) :=
  match to_ with
  | none => some (document, document.whole, outcome)
  | some to_ =>
    match createUnder with
    | none => locateChecked prim document (some to_) outcome
    | some parent =>
      (locateChecked prim document (some parent) outcome).bind fun (document, parent, outcome) =>
        match document.resolveWithin prim to_ parent.start parent.stop with
        | some found => some (document, document.sectionOf found, outcome)
        | none =>
          (insertLinesChecked document parent parent.bodyStop [to_.line] true).map fun document =>
            (document, ((document.resolveWithin prim to_ parent.start document.lines.length).map
              document.sectionOf).getD document.whole, outcome.or (some .sectionAdded))

def containsRunChecked (body : List (ℕ × Text)) (lines : List Text) : Option Bool :=
  if lines.isEmpty then some true
  else if body.length < lines.length then some false
  else (windowsChecked lines.length body).map fun windows_ => windows_.any fun window =>
    ((windows 2 window).all fun pair => (pair[1]?.map Prod.fst) = pair[0]?.map fun first => first.1 + 1) &&
      (window.zip lines).all fun (have_, want) => trimEnd have_.2 = trimEnd want

/-- Whether a note already shows the effect of a write; the operations beside these look lines up and cut none. -/
def effectPresentChecked (prim : Primitives) (content : Text) (write : Write) : Option Bool :=
  let document := Document.split content
  match write.operation with
  | .create wanted =>
    if normalizeEndings content = normalizeEndings wanted then some true
    else containsRunChecked (document.matchable document.whole) (contentLines wanted)
  | .append heading lines .. =>
    match findSection prim document heading with
    | none => some false
    | some section_ => containsRunChecked (document.matchable section_) lines
  | _ => some (effectPresent prim content write)

/-- The document a moved block ends in. -/
def moveBlockChecked (prim : Primitives) (document : Document) (outcome : Option Outcome) (heading : Option Heading)
    (wanted : Text) (ordinal : ℕ) (to_ : Option Heading) (place : Place) (newLine : Option Text)
    (createUnder : Option Heading) : Option (Document × Outcome) :=
  match (findSection prim document heading).map Section.own with
  | none => some (document, outcome.getD .noop)
  | some source =>
    match findLine prim document source wanted ordinal with
    | none => some (document, outcome.getD .noop)
    | some index =>
      let stop := blockEnd document source index
      let texts := ((document.lines.take stop).drop index).map Line.text
      let texts := match newLine, texts with
        | some newLine, _ :: rest => newLine :: rest
        | _, _ => texts
      (cutChecked document index stop).bind fun document =>
        (locateGroupChecked prim document to_ createUnder outcome).bind fun (document, destination, outcome) =>
          let destination := destination.own
          let at_ := match place with
            | .top => firstBodyLine document destination
            | .end_ => destination.bodyStop
            | .after anchor anchorOrdinal =>
              match findLine prim document destination anchor anchorOrdinal with
              | some anchor => blockEnd document destination anchor
              | none => destination.bodyStop
          (insertLinesChecked document destination at_ texts false).map fun document => (document, outcome.getD .applied)

/-- The document an operation ends in, with what it did. -/
def operationChecked (prim : Primitives) (document : Document) (outcome : Option Outcome) (operation : Operation) :
    Option (Document × Outcome) :=
  match operation with
  | .putFile .. => some (document, outcome.getD .noop)
  | .moveFile .. => some (document, outcome.getD .noop)
  | .create content =>
    let section_ := document.whole
    (insertLinesChecked document section_ section_.bodyStop (contentLines content) true).map fun document =>
      (document, outcome.getD .applied)
  | .append heading lines placement blankLineBefore _ after =>
    (locateChecked prim document heading outcome).bind fun (document, section_, outcome) =>
      let anchored := after.bind fun anchor =>
        (findLine prim document section_ anchor.lineHash anchor.ordinal).map (blockEnd document section_)
      let at_ := anchored.getD (match placement with
        | .end_ => section_.bodyStop
        | .beforeChildren => section_.ownStop)
      (insertLinesChecked document section_ at_ lines blankLineBefore).map fun document => (document, outcome.getD .applied)
  | .replaceLine heading wanted ordinal newLine =>
    (locateChecked prim document heading outcome).bind fun (document, section_, outcome) =>
      match findLine prim document section_ wanted ordinal with
      | some index =>
        some ({ document with lines := document.lines.modify index fun line => { line with text := newLine } },
          outcome.getD .applied)
      | none =>
        (insertLinesChecked document section_ section_.bodyStop [mark newLine] false).map fun document =>
          (document, outcome.getD .keptBoth)
  | .removeLine heading wanted ordinal =>
    (locateChecked prim document heading outcome).bind fun (document, section_, outcome) =>
      match findLine prim document section_ wanted ordinal with
      | some index =>
        (if index < document.lines.length then removeChecked document.lines index else some document.lines).map fun lines =>
          ({ document with lines }, outcome.getD .applied)
      | none => some (document, outcome.getD .noop)
  | .replaceSection heading baseHash lines =>
    (locateChecked prim document (some heading) outcome).bind fun (document, section_, outcome) =>
      if hashLines prim (document.bodyTexts section_) = baseHash then
        (drainChecked document.lines section_.start section_.bodyStop).bind fun drained =>
          (Document.insertChecked { document with lines := drained } section_.start lines).map fun document =>
            (document, outcome.getD .applied)
      else if lines.all fun line => (trim line).isEmpty then some (document, outcome.getD .noop)
      else (insertLinesChecked document section_ section_.bodyStop (markFirst lines) true).map fun document =>
        (document, outcome.getD .keptBoth)
  | .moveBlock heading wanted ordinal to_ place newLine createUnder =>
    moveBlockChecked prim document outcome heading wanted ordinal to_ place newLine createUnder
  | .removeBlock heading wanted ordinal =>
    match (findSection prim document heading).map Section.own with
    | none => some (document, outcome.getD .noop)
    | some section_ =>
      match findLine prim document section_ wanted ordinal with
      | some index =>
        (cutChecked document index (blockEnd document section_ index)).map fun document => (document, outcome.getD .applied)
      | none => some (document, outcome.getD .noop)

/-- What applying a write ends in: a text as it was or as given, or a document. -/
inductive Produced
  | kept (text : Text) (outcome : Outcome)
  | made (document : Document) (outcome : Outcome)
deriving DecidableEq

def Produced.applied : Produced → Applied
  | .kept text outcome => ⟨text, outcome⟩
  | .made document outcome => ⟨document.join, outcome⟩

def applyChecked (prim : Primitives) (existing : Option Text) (write : Write) (seed : Option Text) : Option Produced :=
  let operated (document : Document) (outcome : Option Outcome) : Option Produced :=
    (operationChecked prim document outcome write.operation).map fun (document, outcome) => .made document outcome
  if write.operation.isFileLevel then some (.kept (existing.getD []) .noop)
  else match existing with
    | some text => (effectPresentChecked prim text write).bind fun present =>
        if present then some (.kept text .noop) else operated (.split text) none
    | none =>
      match write.operation with
      | .create content => some (.kept content .created)
      | _ => operated (startingDocument write seed) (some .created)

/-! ## In bounds -/

theorem setChecked_append {α : Type*} {front : List α} {a b : α} {back : List α} {index : ℕ} (h : front.length = index) :
    setChecked (front ++ a :: back) index b = some (front ++ [b] ++ back) := by
  rw [setChecked, if_pos (by simp [h]), ← h, List.set_append_right _ _ le_rfl, Nat.sub_self]
  simp

theorem scanCheckedFrom_eq (closes : Bool) {index : ℕ} {state : Scan} {lines : List Line} (found : List HeadingLine)
    {front : List Bool} (h : front.length = index) :
    scanCheckedFrom closes index state lines found (front ++ List.replicate lines.length false) =
      some (found ++ (scanFrom closes index state lines).1, front ++ (scanFrom closes index state lines).2) := by
  induction lines generalizing index state found front with
  | nil => cases state <;> simp [scanCheckedFrom, scanFrom]
  | cons line rest ih =>
    have hset (state : Scan) : ((setChecked (front ++ List.replicate (line :: rest).length false) index true).bind fun flags =>
          scanCheckedFrom closes (index + 1) state rest found flags) =
        some (found ++ (scanFrom closes (index + 1) state rest).1, front ++ true :: (scanFrom closes (index + 1) state rest).2) := by
      rw [List.length_cons, List.replicate_succ, setChecked_append h, Option.bind_some, ih found (by simp [h])]
      simp
    have hfree (found : List HeadingLine) :
        scanCheckedFrom closes (index + 1) .body rest found (front ++ List.replicate (line :: rest).length false) =
          some (found ++ (scanFrom closes (index + 1) .body rest).1,
            front ++ false :: (scanFrom closes (index + 1) .body rest).2) := by
      have hrest := @ih (index + 1) .body found (front ++ [false]) (by simp [h])
      rw [List.length_cons, List.replicate_succ]
      simpa using hrest
    cases state with
    | frontMatter => exact hset _
    | fence character length => exact hset _
    | body =>
      rw [scanCheckedFrom, scanFrom]
      split
      · exact hset _
      · cases opensFence line.text with
        | some fence => exact hset _
        | none =>
          cases parseHeading line.text with
          | none => exact hfree found
          | some heading =>
            have hrest := hfree (found ++ [⟨index, heading.1, heading.2⟩])
            simpa using hrest

theorem scanChecked_eq (document : Document) : document.scanChecked = some document.scan := by
  have hscan := @scanCheckedFrom_eq (frontMatterCloses document.lines) 0 .body document.lines [] [] rfl
  rw [List.nil_append, List.nil_append, List.nil_append] at hscan
  exact hscan

theorem predChecked_of_pos {n : ℕ} (h : 0 < n) : predChecked n = some (n - 1) := if_neg (by omega)

theorem trimCheckedFrom_eq (lines : List Line) (start : ℕ) {fuel stop : ℕ} (h : stop ≤ fuel) :
    trimCheckedFrom lines start fuel stop = some (trimBlankLines lines start stop) := by
  induction fuel generalizing stop with
  | zero =>
    rw [Nat.le_zero.mp h]
    rfl
  | succ fuel ih =>
    cases stop with
    | zero => rfl
    | succ stop =>
      have hrest := ih (Nat.le_of_succ_le_succ h)
      rw [trimCheckedFrom, trimBlankLines]
      by_cases hstart : start < stop + 1
      · rw [if_pos hstart, predChecked_of_pos (Nat.succ_pos _), Option.bind_some, Nat.succ_sub_one, hrest]
        by_cases hblank : lines[stop]?.any Line.isBlank = true
        · rw [if_pos hblank, if_pos ⟨hstart, hblank⟩]
        · rw [if_neg hblank, if_neg (fun hboth => hblank hboth.2)]
      · rw [if_neg hstart, if_neg (fun hboth => hstart hboth.1)]

theorem trimBlankEndChecked_eq (document : Document) (start stop : ℕ) :
    document.trimBlankEndChecked start stop = some (document.trimBlankEnd start stop) := by
  rw [Document.trimBlankEndChecked, trimCheckedFrom_eq _ _ le_rfl, Option.bind_some, Document.trimBlankEnd]
  generalize trimBlankLines document.lines start stop = stop
  by_cases hstart : start < stop
  · rw [if_pos hstart, predChecked_of_pos (by omega), Option.bind_some, trimCheckedFrom_eq _ _ le_rfl]
    by_cases hrule : (document.lines[stop - 1]?.any fun line => isThematicBreak line.text) = true
    · rw [if_pos hrule, if_pos ⟨hstart, hrule⟩]
    · rw [if_neg hrule, if_neg (fun hboth => hrule hboth.2)]
  · rw [if_neg hstart, if_neg (fun hboth => hstart hboth.1)]

theorem wholeChecked_eq (document : Document) : document.wholeChecked = some document.whole := by
  rw [Document.wholeChecked, trimCheckedFrom_eq _ _ le_rfl]
  rfl

theorem length_setLastEnding (ending : Ending) (lines : List Line) : (setLastEnding ending lines).length = lines.length := by
  rcases List.eq_nil_or_concat' lines with rfl | ⟨front, last, rfl⟩
  · rfl
  · rw [setLastEnding_concat]
    simp

theorem insertChecked_eq (document : Document) (index : ℕ) (texts : List Text) :
    document.insertChecked index texts = some (document.insert index texts) := by
  rw [Document.insertChecked, Document.insert]
  split
  · rfl
  · have hle (lines : List Line) (hlength : lines.length = document.lines.length) :
        min index document.lines.length ≤ lines.length := by omega
    dsimp only
    rw [spliceChecked, if_pos, Option.map_some]
    split
    · exact hle _ (length_setLastEnding _ _)
    · exact hle _ rfl

theorem cutChecked_eq (document : Document) (start stop : ℕ) : cutChecked document start stop = some (cut document start stop) := by
  rw [cutChecked, cut]
  dsimp only
  split
  · rfl
  · next hlt =>
    rw [drainChecked, if_pos ⟨by omega, by omega⟩, Option.bind_some]
    split
    · next hblank =>
      rw [Bool.and_eq_true] at hblank
      obtain ⟨line, hline, -⟩ := (Option.any_eq_true _ _).mp hblank.2
      rw [removeChecked, if_pos (List.getElem?_eq_some_iff.mp hline).1]
      rfl
    · rfl

theorem insertLinesChecked_eq (document : Document) (section_ : Section) (index : ℕ) (lines : List Text)
    (blankLineBefore : Bool) : insertLinesChecked document section_ index lines blankLineBefore =
      some (insertLines document section_ index lines blankLineBefore) := by
  rw [insertLinesChecked, insertLines]
  split
  · rfl
  · exact insertChecked_eq _ _ _

theorem locateChecked_eq (prim : Primitives) (document : Document) (heading : Option Heading) (outcome : Option Outcome) :
    locateChecked prim document heading outcome = some (locate prim document heading outcome) := by
  cases heading with
  | none => rfl
  | some heading =>
    rw [locateChecked, locate]
    cases document.resolve prim heading with
    | some found => rfl
    | none =>
      dsimp only
      rw [insertChecked_eq]
      rfl

theorem locateGroupChecked_eq (prim : Primitives) (document : Document) (to_ createUnder : Option Heading)
    (outcome : Option Outcome) : locateGroupChecked prim document to_ createUnder outcome =
      some (locateGroup prim document to_ createUnder outcome) := by
  cases to_ with
  | none => rfl
  | some to_ =>
    cases createUnder with
    | none => exact locateChecked_eq prim document (some to_) outcome
    | some parent =>
      rw [locateGroupChecked, locateGroup, locateChecked_eq, Option.bind_some]
      generalize locate prim document (some parent) outcome = located
      obtain ⟨document, section_, outcome⟩ := located
      dsimp only
      cases document.resolveWithin prim to_ section_.start section_.stop with
      | some found => rfl
      | none =>
        dsimp only
        rw [insertLinesChecked_eq]
        rfl

theorem containsRunChecked_eq (body : List (ℕ × Text)) (lines : List Text) :
    containsRunChecked body lines = some (containsRun body lines) := by
  rw [containsRunChecked, containsRun]
  split
  · rfl
  · next hne =>
    split
    · rfl
    · rw [windowsChecked, if_neg (fun hzero => hne (List.isEmpty_iff.mpr (List.length_eq_zero_iff.mp hzero)))]
      rfl

theorem effectPresentChecked_eq (prim : Primitives) (content : Text) (write : Write) :
    effectPresentChecked prim content write = some (effectPresent prim content write) := by
  rw [effectPresentChecked]
  split
  · next wanted hoperation =>
    rw [effectPresent, hoperation, containsRunChecked_eq]
    dsimp only
    split
    · rfl
    · rfl
  · next heading lines _ _ _ _ hoperation =>
    rw [effectPresent, hoperation]
    dsimp only
    cases findSection prim (Document.split content) heading with
    | none => rfl
    | some section_ => exact containsRunChecked_eq ((Document.split content).matchable section_) lines
  · rfl

/-! ## Every operation -/

/-- A document and what was done, as the text of an application. -/
def appliedOf (made : Document × Outcome) : Applied := ⟨made.1.join, made.2⟩

theorem locate_section_within (prim : Primitives) (document : Document) (heading : Option Heading) (outcome : Option Outcome) :
    (locate prim document heading outcome).2.1.Within (locate prim document heading outcome).1 := by
  have hfound (document : Document) (heading : Heading) : (((document.resolve prim heading).map document.sectionOf).getD
      document.whole).Within document := by
    cases hresolve : document.resolve prim heading with
    | none => exact whole_within
    | some found => exact sectionOf_within (resolveWithin_some hresolve).1
  cases heading with
  | none => exact whole_within
  | some heading =>
    rw [locate]
    split
    · next found hresolve => exact sectionOf_within (resolveWithin_some hresolve).1
    · exact hfound _ _

theorem moveBlockChecked_eq (prim : Primitives) (document : Document) (outcome : Option Outcome) (heading : Option Heading)
    (wanted : Text) (ordinal : ℕ) (to_ : Option Heading) (place : Place) (newLine : Option Text) (createUnder : Option Heading) :
    (moveBlockChecked prim document outcome heading wanted ordinal to_ place newLine createUnder).map appliedOf =
      some (applyMoveBlock prim document outcome heading wanted ordinal to_ place newLine createUnder) := by
  rw [moveBlockChecked, applyMoveBlock]
  cases (findSection prim document heading).map Section.own with
  | none => rfl
  | some source =>
    dsimp only
    cases findLine prim document source wanted ordinal with
    | none => rfl
    | some index =>
      dsimp only
      rw [cutChecked_eq, Option.bind_some, locateGroupChecked_eq, Option.bind_some, insertLinesChecked_eq]
      rfl

theorem operationChecked_eq (prim : Primitives) (document : Document) (outcome : Option Outcome) (operation : Operation) :
    (operationChecked prim document outcome operation).map appliedOf =
      some (applyOperation prim document outcome operation) := by
  cases operation with
  | putFile => rfl
  | moveFile => rfl
  | create content =>
    rw [operationChecked, insertLinesChecked_eq]
    rfl
  | append heading lines placement blankLineBefore createFromTemplate after =>
    rw [operationChecked, locateChecked_eq, Option.bind_some]
    dsimp only
    rw [insertLinesChecked_eq]
    rfl
  | replaceLine heading wanted ordinal newLine =>
    rw [operationChecked, applyOperation, locateChecked_eq, Option.bind_some]
    generalize locate prim document heading outcome = located
    obtain ⟨document, section_, outcome⟩ := located
    dsimp only
    cases findLine prim document section_ wanted ordinal with
    | some index => rfl
    | none =>
      dsimp only
      rw [insertLinesChecked_eq]
      rfl
  | removeLine heading wanted ordinal =>
    rw [operationChecked, applyOperation, locateChecked_eq, Option.bind_some]
    generalize locate prim document heading outcome = located
    obtain ⟨document, section_, outcome⟩ := located
    dsimp only
    cases hfind : findLine prim document section_ wanted ordinal with
    | none => rfl
    | some index =>
      obtain ⟨text, hmatch, -⟩ := findLine_some hfind
      obtain ⟨-, -, -, line, hline, -⟩ := mem_matchable.mp hmatch
      have hlt := (List.getElem?_eq_some_iff.mp hline).1
      dsimp only
      rw [if_pos hlt, removeChecked, if_pos hlt]
      rfl
  | replaceSection heading baseHash lines =>
    have hwithin := locate_section_within prim document (some heading) outcome
    rw [operationChecked, applyOperation, locateChecked_eq, Option.bind_some]
    generalize locate prim document (some heading) outcome = located at hwithin
    obtain ⟨document, section_, outcome⟩ := located
    dsimp only at hwithin ⊢
    split
    · rw [drainChecked, if_pos ⟨hwithin.start_le, hwithin.body_le.trans hwithin.stop_le⟩, Option.bind_some, insertChecked_eq]
      rfl
    · split
      · rfl
      · rw [insertLinesChecked_eq]
        rfl
  | moveBlock heading wanted ordinal to_ place newLine createUnder => exact moveBlockChecked_eq ..
  | removeBlock heading wanted ordinal =>
    rw [operationChecked, applyOperation]
    cases (findSection prim document heading).map Section.own with
    | none => rfl
    | some section_ =>
      dsimp only
      cases findLine prim document section_ wanted ordinal with
      | none => rfl
      | some index =>
        dsimp only
        rw [cutChecked_eq]
        rfl

theorem applyChecked_eq (prim : Primitives) (existing : Option Text) (write : Write) (seed : Option Text) :
    (applyChecked prim existing write seed).map Produced.applied = some (apply prim existing write seed) := by
  have hoperated (document : Document) (outcome : Option Outcome) :
      ((operationChecked prim document outcome write.operation).map fun made => Produced.made made.1 made.2).map Produced.applied =
        some (applyOperation prim document outcome write.operation) := by
    rw [Option.map_map]
    exact operationChecked_eq prim document outcome write.operation
  unfold applyChecked apply
  dsimp only
  split
  · rfl
  · cases existing with
    | some text =>
      dsimp only
      rw [effectPresentChecked_eq, Option.bind_some]
      split
      · rfl
      · exact hoperated _ _
    | none =>
      dsimp only
      cases hoperation : write.operation with
      | create content => rfl
      | _ =>
        have hdone := hoperated (startingDocument write seed) (some .created)
        rw [hoperation] at hdone
        exact hdone

/-! ## The geometry of a section -/

/-- A section whose bounds are in order and inside the note, with its own lines free of headings and deeper headings alone
in the rest. -/
structure SectionSound (document : Document) (heading : HeadingLine) (section_ : Section) : Prop where
  start_le : section_.start ≤ section_.ownStop
  own_le : section_.ownStop ≤ section_.bodyStop
  body_le : section_.bodyStop ≤ section_.stop
  stop_le : section_.stop ≤ document.lines.length
  own : ∀ other ∈ document.headings, ¬(section_.start ≤ other.index ∧ other.index < section_.ownStop)
  deeper : ∀ other ∈ document.headings, section_.start ≤ other.index → other.index < section_.stop → heading.level < other.level

/-- No heading stands between a section's heading and the end of its own lines. -/
theorem own_stop_le {document : Document} {found other : HeadingLine} (hother : other ∈ document.headings)
    (hbelow : found.index < other.index) : (document.sectionOf found).ownStop ≤ other.index := by
  have hsorted := scanFrom_sorted (hasFrontMatter document.lines) 0 .body document.lines
  rw [← scan_eq] at hsorted
  have hwithin := trimBlankEnd_le document (found.index + 1) (((document.headings.find? fun other =>
    decide (found.index < other.index ∧ other.index < (document.sectionOf found).bodyStop)).map
      HeadingLine.index).getD (document.sectionOf found).bodyStop)
  refine le_trans hwithin ?_
  by_cases hbody : other.index < (document.sectionOf found).bodyStop
  · obtain ⟨first, hfirst, hle⟩ := find_heading_le hsorted (p := fun other => decide (found.index < other.index ∧
      other.index < (document.sectionOf found).bodyStop)) hother (decide_eq_true ⟨hbelow, hbody⟩)
    rw [Document.headings, hfirst]
    exact hle
  · cases hfind : document.headings.find? fun other =>
        decide (found.index < other.index ∧ other.index < (document.sectionOf found).bodyStop) with
    | none => exact not_lt.mp hbody
    | some first =>
      have hfirst := List.find?_some hfind
      rw [decide_eq_true_eq] at hfirst
      exact hfirst.2.le.trans (not_lt.mp hbody)

theorem sectionOf_sound {document : Document} {heading : HeadingLine} (h : heading ∈ document.headings) :
    SectionSound document heading (document.sectionOf heading) := by
  have hwithin := sectionOf_within h
  refine ⟨hwithin.own_ge, hwithin.own_le, hwithin.body_le, hwithin.stop_le, fun other hother hin => ?_,
    fun other hother hstart hstop => ?_⟩
  · have hown := own_stop_le hother (show heading.index < other.index from hin.1)
    omega
  · by_contra hlevel
    have hend := section_stop_le hother (show heading.index < other.index from hstart) (not_lt.mp hlevel)
    omega

/-- Every section a note's heading names is sound, and no operation of the rules leaves the bounds of its list, whatever
the note, the write and the seed. -/
theorem apply_in_bounds (prim : Primitives) :
    (∀ (document : Document) (heading : Heading), ∀ found ∈ document.resolve prim heading,
      SectionSound document found (document.sectionOf found)) ∧
    (∀ document : Document, document.scanChecked = some document.scan ∧ document.wholeChecked = some document.whole) ∧
    (∀ (document : Document) (start stop : ℕ),
      document.trimBlankEndChecked start stop = some (document.trimBlankEnd start stop)) ∧
    (∀ (content : Text) (write : Write), effectPresentChecked prim content write = some (effectPresent prim content write)) ∧
    ∀ (existing : Option Text) (write : Write) (seed : Option Text),
      (applyChecked prim existing write seed).map Produced.applied = some (apply prim existing write seed) := by
  refine ⟨fun document heading found hfound => ?_, fun document => ⟨scanChecked_eq document, wholeChecked_eq document⟩,
    trimBlankEndChecked_eq, effectPresentChecked_eq prim, applyChecked_eq prim⟩
  exact sectionOf_sound (resolveWithin_some hfound).1

theorem apply_in_bounds_oneTask :
    (Document.split oneTask).resolve asciiPrimitives ⟨"A".toList, 2, 0⟩ = some ⟨0, 2, "A".toList⟩ ∧
      SectionSound (.split oneTask) ⟨0, 2, "A".toList⟩ ((Document.split oneTask).sectionOf ⟨0, 2, "A".toList⟩) := by
  have hfound : (Document.split oneTask).resolve asciiPrimitives ⟨"A".toList, 2, 0⟩ = some ⟨0, 2, "A".toList⟩ := by
    decide +kernel
  exact ⟨hfound, (apply_in_bounds asciiPrimitives).1 _ _ _ hfound⟩

/-! ## Terminators -/

/-- Lines of which only the last may stand without a line break behind it. -/
def OnlyLastOpen (lines : List Line) : Prop :=
  ∀ front line back, lines = front ++ line :: back → back ≠ [] → line.ending.text.getLast? = some '\n'

theorem onlyLastOpen_of_chained {lines : List Line} (h : Chained lines) : OnlyLastOpen lines := by
  intro front line back hlines hback
  rw [hlines] at h
  have hending := h.back.1.resolve_right hback
  cases hline : line.ending with
  | none => exact absurd hline hending
  | lf => rfl
  | crLf => rfl

theorem chained_modify {lines : List Line} (h : Chained lines) (index : ℕ) (text : Text) :
    Chained (lines.modify index fun line => { line with text }) := by
  induction lines generalizing index with
  | nil =>
    rw [List.modify_nil]
    exact h
  | cons line rest ih =>
    cases index with
    | zero => exact h
    | succ index =>
      refine ⟨h.1.imp_right fun hrest => ?_, ih h.2 index⟩
      rw [hrest]
      exact List.modify_nil _ _

theorem insertLines_sound {document : Document} (h : document.Sound) (section_ : Section) (index : ℕ) (lines : List Text)
    (blankLineBefore : Bool) : (insertLines document section_ index lines blankLineBefore).Sound := by
  rw [insertLines]
  split
  · exact h
  · exact insert_sound _ _ h

theorem locate_sound (prim : Primitives) {document : Document} (h : document.Sound) (heading : Option Heading)
    (outcome : Option Outcome) : (locate prim document heading outcome).1.Sound := by
  cases heading with
  | none => exact h
  | some heading =>
    rw [locate]
    cases document.resolve prim heading with
    | some found => exact h
    | none => exact insert_sound _ _ h

theorem locateGroup_sound (prim : Primitives) {document : Document} (h : document.Sound) (to_ createUnder : Option Heading)
    (outcome : Option Outcome) : (locateGroup prim document to_ createUnder outcome).1.Sound := by
  cases to_ with
  | none => exact h
  | some to_ =>
    cases createUnder with
    | none => exact locate_sound prim h (some to_) outcome
    | some parent =>
      have hparent := locate_sound prim h (some parent) outcome
      rw [locateGroup]
      generalize locate prim document (some parent) outcome = located at hparent
      obtain ⟨document, section_, outcome⟩ := located
      dsimp only at hparent ⊢
      cases document.resolveWithin prim to_ section_.start section_.stop with
      | some found => exact hparent
      | none => exact insertLines_sound hparent section_ section_.bodyStop [to_.line] true

theorem moveBlockChecked_sound (prim : Primitives) {document : Document} (h : document.Sound) (outcome : Option Outcome)
    (heading : Option Heading) (wanted : Text) (ordinal : ℕ) (to_ : Option Heading) (place : Place) (newLine : Option Text)
    (createUnder : Option Heading) :
    ∀ made ∈ moveBlockChecked prim document outcome heading wanted ordinal to_ place newLine createUnder, made.1.Sound := by
  intro made hmade
  rw [moveBlockChecked] at hmade
  cases hfind : (findSection prim document heading).map Section.own with
  | none =>
    rw [hfind] at hmade
    cases hmade
    exact h
  | some source =>
    rw [hfind] at hmade
    dsimp only at hmade
    cases hline : findLine prim document source wanted ordinal with
    | none =>
      rw [hline] at hmade
      cases hmade
      exact h
    | some index =>
      rw [hline] at hmade
      dsimp only at hmade
      have hgroup := locateGroup_sound prim (cut_sound h index (blockEnd document source index)) to_ createUnder outcome
      rw [cutChecked_eq, Option.bind_some, locateGroupChecked_eq, Option.bind_some, insertLinesChecked_eq] at hmade
      cases hmade
      exact insertLines_sound hgroup _ _ _ _

theorem operationChecked_sound (prim : Primitives) {document : Document} (h : document.Sound) (outcome : Option Outcome)
    (operation : Operation) : ∀ made ∈ operationChecked prim document outcome operation, made.1.Sound := by
  intro made hmade
  cases operation with
  | putFile =>
    cases hmade
    exact h
  | moveFile =>
    cases hmade
    exact h
  | create content =>
    rw [operationChecked, insertLinesChecked_eq] at hmade
    cases hmade
    exact insertLines_sound h _ _ _ _
  | append heading lines placement blankLineBefore createFromTemplate after =>
    have hlocated := locate_sound prim h heading outcome
    rw [operationChecked, locateChecked_eq, Option.bind_some] at hmade
    dsimp only at hmade
    rw [insertLinesChecked_eq] at hmade
    cases hmade
    exact insertLines_sound hlocated _ _ _ _
  | replaceLine heading wanted ordinal newLine =>
    have hlocated := locate_sound prim h heading outcome
    rw [operationChecked, locateChecked_eq, Option.bind_some] at hmade
    generalize locate prim document heading outcome = located at hlocated hmade
    obtain ⟨document, section_, outcome⟩ := located
    dsimp only at hlocated hmade
    cases hfind : findLine prim document section_ wanted ordinal with
    | some index =>
      rw [hfind] at hmade
      cases hmade
      exact ⟨chained_modify hlocated.chained index newLine, hlocated.ending⟩
    | none =>
      rw [hfind] at hmade
      dsimp only at hmade
      rw [insertLinesChecked_eq] at hmade
      cases hmade
      exact insertLines_sound hlocated section_ section_.bodyStop [mark newLine] false
  | removeLine heading wanted ordinal =>
    have hlocated := locate_sound prim h heading outcome
    rw [operationChecked, locateChecked_eq, Option.bind_some] at hmade
    generalize locate prim document heading outcome = located at hlocated hmade
    obtain ⟨document, section_, outcome⟩ := located
    dsimp only at hlocated hmade
    cases hfind : findLine prim document section_ wanted ordinal with
    | none =>
      rw [hfind] at hmade
      cases hmade
      exact hlocated
    | some index =>
      rw [hfind] at hmade
      dsimp only at hmade
      obtain ⟨lines, hlines, rfl⟩ := Option.map_eq_some_iff.mp hmade
      have hsub : lines.Sublist document.lines := by
        split at hlines
        · next hlt =>
          rw [removeChecked, if_pos hlt] at hlines
          cases hlines
          exact List.eraseIdx_sublist _ _
        · cases hlines
          exact List.Sublist.refl _
      exact ⟨chained_sublist hsub hlocated.chained, hlocated.ending⟩
  | replaceSection heading baseHash lines =>
    have hlocated := locate_sound prim h (some heading) outcome
    have hwithin := locate_section_within prim document (some heading) outcome
    rw [operationChecked, locateChecked_eq, Option.bind_some] at hmade
    generalize locate prim document (some heading) outcome = located at hlocated hwithin hmade
    obtain ⟨document, section_, outcome⟩ := located
    dsimp only at hlocated hwithin hmade
    split at hmade
    · rw [drainChecked, if_pos ⟨hwithin.start_le, hwithin.body_le.trans hwithin.stop_le⟩, Option.bind_some,
        insertChecked_eq] at hmade
      cases hmade
      refine insert_sound _ _ ⟨chained_sublist ?_ hlocated.chained, hlocated.ending⟩
      conv_rhs => rw [← List.take_append_drop section_.start document.lines]
      exact (List.Sublist.refl _).append (List.drop_sublist_drop_left _ hwithin.start_le)
    · split at hmade
      · cases hmade
        exact hlocated
      · rw [insertLinesChecked_eq] at hmade
        cases hmade
        exact insertLines_sound hlocated _ _ _ _
  | moveBlock heading wanted ordinal to_ place newLine createUnder =>
    exact moveBlockChecked_sound prim h outcome heading wanted ordinal to_ place newLine createUnder made hmade
  | removeBlock heading wanted ordinal =>
    rw [operationChecked] at hmade
    cases hfind : (findSection prim document heading).map Section.own with
    | none =>
      rw [hfind] at hmade
      cases hmade
      exact h
    | some section_ =>
      rw [hfind] at hmade
      dsimp only at hmade
      cases hline : findLine prim document section_ wanted ordinal with
      | none =>
        rw [hline] at hmade
        cases hmade
        exact h
      | some index =>
        rw [hline] at hmade
        dsimp only at hmade
        rw [cutChecked_eq] at hmade
        cases hmade
        exact cut_sound h _ _

theorem startingDocument_sound (write : Write) (seed : Option Text) : (startingDocument write seed).Sound := by
  unfold startingDocument
  split
  · exact sound_split _
  · split
    · exact sound_split _
    · exact sound_empty

/-- A document that applying a write ends in came from an operation on a note or on a starting text. -/
theorem applyChecked_made {prim : Primitives} {existing : Option Text} {write : Write} {seed : Option Text}
    {document : Document} {outcome : Outcome} (h : applyChecked prim existing write seed = some (.made document outcome)) :
    document.Sound := by
  have hoperated (start : Document) (begun : Option Outcome) (hstart : start.Sound)
      (hmade : ((operationChecked prim start begun write.operation).map fun made => Produced.made made.1 made.2) =
        some (.made document outcome)) : document.Sound := by
    obtain ⟨made, hin, heq⟩ := Option.map_eq_some_iff.mp hmade
    cases heq
    exact operationChecked_sound prim hstart begun write.operation made hin
  unfold applyChecked at h
  dsimp only at h
  split at h
  · cases h
  · cases existing with
    | some text =>
      dsimp only at h
      rw [effectPresentChecked_eq, Option.bind_some] at h
      split at h
      · cases h
      · exact hoperated _ _ (sound_split text) h
    | none =>
      dsimp only at h
      split at h
      · cases h
      · exact hoperated _ _ (startingDocument_sound write seed) h

/-- The lines of a document's text are the lines of each of its lines in turn. -/
theorem rawLines_textOfLines {lines : List Line} (h : Chained lines) :
    rawLines (textOfLines lines) = lines.flatMap fun line => rawLines line.whole := by
  induction lines with
  | nil => rfl
  | cons line rest ih =>
    rw [textOfLines_cons, List.flatMap_cons]
    rcases h with ⟨hending | rfl, hrest⟩
    · rw [rawLines_append fun _ => (whole_last hending).2, ih hrest]
    · simp

/-- A text is the lines it is split into, and a document that a write ends in has a line break behind every line but its
last, so that the text made of it has the lines of each of its lines and none made of two. -/
theorem lines_never_glued (prim : Primitives) :
    (∀ text, (Document.split text).join = text) ∧
    ∀ (existing : Option Text) (write : Write) (seed : Option Text), ∃ produced,
      applyChecked prim existing write seed = some produced ∧ produced.applied = apply prim existing write seed ∧
        ∀ document outcome, produced = .made document outcome →
          OnlyLastOpen document.lines ∧ rawLines document.join = document.lines.flatMap fun line => rawLines line.whole := by
  refine ⟨join_split, fun existing write seed => ?_⟩
  obtain ⟨produced, hproduced, happlied⟩ := Option.map_eq_some_iff.mp (applyChecked_eq prim existing write seed)
  refine ⟨produced, hproduced, happlied, fun document outcome hmade => ?_⟩
  rw [hmade] at hproduced
  have hsound := applyChecked_made hproduced
  exact ⟨onlyLastOpen_of_chained hsound.chained, rawLines_textOfLines hsound.chained⟩

/-- A line goes in below a line without a line break. -/
def appendBelow : Write :=
  ⟨1, "phone".toList, "day.md".toList, .append none ["b".toList] .end_ false false none⟩

theorem lines_never_glued_appendBelow :
    applyChecked asciiPrimitives (some "a".toList) appendBelow none =
        some (.made ⟨[⟨"a".toList, .lf⟩, ⟨"b".toList, .none⟩], .lf⟩ .applied) ∧
      OnlyLastOpen [⟨"a".toList, .lf⟩, ⟨"b".toList, .none⟩] := by
  have hmade : applyChecked asciiPrimitives (some "a".toList) appendBelow none =
      some (.made ⟨[⟨"a".toList, .lf⟩, ⟨"b".toList, .none⟩], .lf⟩ .applied) := by decide +kernel
  obtain ⟨produced, hproduced, -, hlines⟩ := (lines_never_glued asciiPrimitives).2 (some "a".toList) appendBelow none
  rw [hmade] at hproduced
  exact ⟨hmade, (hlines _ _ (Option.some.inj hproduced).symm).1⟩

end Thock.SyncCore
