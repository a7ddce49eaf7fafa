import Thock.Sync.PhoneCopies

/-!
# Pruning is safe

A phone prunes a write when its cursor has reached the version the ack recorded. What makes
that safe is what the cursor says of the phone's copies: of every row written up to it, the
phone holds a copy as new, where no fetch of that path failed, the path is not a picture's and
the phone has not moved the note away. A pull keeps this page by page, whatever is committed
between two of its requests.
-/

namespace Thock.Sync

open TextScan CursorPaging Transition
open Plus (FileRow Vault Op FilesPage handleFilesList filesPage)
open ThockKit (Path Phone VaultStore Pulling PlannedWrite PendingWrite takeRow finishPull startsFull)

variable {Seed : Type}

/-! ## The server's books -/

/-- What a vault, the rows written to it and its acks say of each other. -/
structure Books (v : Vault) (written : List FileRow) (acks : List Ack) : Prop where
  versioned : v.Versioned
  files : ∀ f ∈ v.files, f ∈ written
  current : ∀ row ∈ written, ∃ f ∈ v.files, f.path = row.path ∧ row.version ≤ f.version
  bounds : ∀ row ∈ written, 0 < row.version ∧ row.version ≤ v.latestVersion
  shaped : ∀ row ∈ written, Shaped row
  apart : ∀ row ∈ written, ∀ other ∈ written, row.version = other.version → row = other
  mark : ∃ ack ∈ acks, ack.through = v.ackedThroughSeq ∧ ack.atVersion = v.ackedAtVersion
  ordered : acks.Pairwise fun first later => first.atVersion ≤ later.atVersion
  atMark : ∀ ack ∈ acks, ack.atVersion ≤ v.ackedAtVersion
  recorded : ∀ ack ∈ acks, ∀ f ∈ ack.files, f ∈ written ∧ f.version ≤ ack.atVersion
  behind : v.ackedAtVersion ≤ v.latestVersion

/-- A vault as it was listed, beside the vault it is now. -/
structure Listing (listing v : Vault) (written : List FileRow) : Prop where
  versioned : listing.Versioned
  files : ∀ f ∈ listing.files, f ∈ written
  known : ∀ row ∈ written, row.version ≤ listing.latestVersion →
    ∃ f ∈ listing.files, f.path = row.path ∧ row.version ≤ f.version
  le : listing.latestVersion ≤ v.latestVersion

section Server

variable {v w seen : Vault} {written : List FileRow} {acks : List Ack} {op : Op}

/-- The rows a request wrote. -/
abbrev fresh (v w : Vault) : List FileRow := w.files.filter fun f => v.latestVersion < f.version

theorem mem_fresh {f : FileRow} : f ∈ fresh v w ↔ f ∈ w.files ∧ v.latestVersion < f.version := by
  simp [fresh]

theorem Books.asListed (h : Books v written acks) : Listing v v written :=
  ⟨h.versioned, h.files, fun row hrow _ => h.current row hrow, le_rfl⟩

/-- A row stands in its vault alone at its path. -/
theorem eq_of_path (h : v.Versioned) {f g : FileRow} (hf : f ∈ v.files) (hg : g ∈ v.files)
    (hpath : f.path = g.path) : f = g :=
  List.inj_on_of_nodup_map h.paths hf hg hpath

/-- A row no newer than a listing that still stands was listed. -/
theorem Listing.stands (h : Listing seen v written) (hbooks : Books v written acks) {f : FileRow}
    (hf : f ∈ v.files) (hle : f.version ≤ seen.latestVersion) : f ∈ seen.files := by
  have hwritten := hbooks.files f hf
  obtain ⟨g, hg, hpath, hfg⟩ := h.known f hwritten hle
  have hgwritten := h.files g hg
  obtain ⟨f', hf', hpath', hgf⟩ := hbooks.current g hgwritten
  have hsame : f' = f := eq_of_path hbooks.versioned hf' hf (hpath'.trans hpath)
  have hversion : g.version = f.version := by
    rw [hsame] at hgf
    exact le_antisymm hgf hfg
  exact hbooks.apart g hgwritten f hwritten hversion ▸ hg

/-- A request leaves what was listed as it was. -/
theorem Listing.served (h : Listing seen v written) (hchange : v.Change op w) :
    Listing seen w (written ++ fresh v w) := by
  refine ⟨h.versioned, fun f hf => List.mem_append_left _ (h.files f hf), fun row hrow hle => ?_,
    h.le.trans hchange.latestVersion_le⟩
  rcases List.mem_append.mp hrow with hold | hnew
  · exact h.known row hold hle
  · have habove := (mem_fresh.mp hnew).2
    have hbelow := hle.trans h.le
    omega

/-- The mark after a request is an ack of the vault's, and no earlier ack is above it. -/
theorem Books.served_acks (h : Books v written acks) (happlied : v.Applied op w) :
    (∃ ack ∈ acksAfter v w acks, ack.through = w.ackedThroughSeq ∧ ack.atVersion = w.ackedAtVersion) ∧
      (acksAfter v w acks).Pairwise (fun first later => first.atVersion ≤ later.atVersion) ∧
      (∀ ack ∈ acksAfter v w acks, ack.atVersion ≤ w.ackedAtVersion) ∧
      (∀ ack ∈ acksAfter v w acks, ∀ f ∈ ack.files, f ∈ written ∧ f.version ≤ ack.atVersion) ∧
      w.ackedAtVersion ≤ w.latestVersion := by
  have hlatest := happlied.change.latestVersion_le
  unfold acksAfter
  rcases applied_mark happlied with ⟨hthrough, hat⟩ | ⟨habove, hat, -, hsame⟩
  · rw [if_pos hthrough, hthrough, hat]
    exact ⟨h.mark, h.ordered, h.atMark, h.recorded, h.behind.trans hlatest⟩
  · rw [if_neg (Nat.ne_of_gt habove), hat]
    have hbelow (ack : Ack) (hack : ack ∈ acks) : ack.atVersion ≤ v.latestVersion :=
      (h.atMark ack hack).trans h.behind
    refine ⟨⟨_, List.mem_append_right _ (List.mem_singleton_self _), rfl, rfl⟩, ?_, ?_, ?_, hlatest⟩
    · apply List.pairwise_append.mpr
      refine ⟨h.ordered, List.pairwise_singleton _ _, fun ack hack later hlater => ?_⟩
      rw [List.mem_singleton.mp hlater]
      exact hbelow ack hack
    · intro ack hack
      rcases List.mem_append.mp hack with hold | hnew
      · exact hbelow ack hold
      · rw [List.mem_singleton.mp hnew]
    · intro ack hack f hf
      rcases List.mem_append.mp hack with hold | hnew
      · exact h.recorded ack hold f hf
      · rw [List.mem_singleton.mp hnew] at hf ⊢
        exact ⟨h.files f hf, h.versioned.bounded f hf⟩

/-- The books stay in order through a request that takes no row away. -/
theorem Books.served (h : Books v written acks) (happlied : v.Applied op w)
    (hkeeps : ∀ f ∈ v.files, op.removes v f = false) :
    Books w (written ++ fresh v w) (acksAfter v w acks) := by
  have hchange := happlied.change
  have hlatest := hchange.latestVersion_le
  have hversioned := h.versioned.change hchange
  obtain ⟨hmark, hordered, hatMark, hrecorded, hbehind⟩ := h.served_acks happlied
  refine ⟨hversioned, fun f hf => ?_, fun row hrow => ?_, fun row hrow => ?_, fun row hrow => ?_,
    fun row hrow other hother heq => ?_, hmark, hordered, hatMark, fun ack hack f hf =>
      (hrecorded ack hack f hf).imp_left (List.mem_append_left _), hbehind⟩
  · rcases change_files hchange hf with hold | ⟨hnew, -⟩
    · exact List.mem_append_left _ (h.files f hold)
    · exact List.mem_append_right _ (mem_fresh.mpr ⟨hf, hnew⟩)
  · rcases List.mem_append.mp hrow with hold | hnew
    · obtain ⟨f, hf, hpath, hle⟩ := h.current row hold
      rcases hchange.row h.versioned hf with hstands | ⟨g, hg, hsame, habove⟩ | ⟨hgone, -⟩
      · exact ⟨f, hstands, hpath, hle⟩
      · exact ⟨g, hg, hsame.trans hpath, ((h.bounds row hold).2.trans habove.le)⟩
      · rw [hkeeps f hf] at hgone
        cases hgone
    · exact ⟨row, (mem_fresh.mp hnew).1, rfl, le_rfl⟩
  · rcases List.mem_append.mp hrow with hold | hnew
    · exact ⟨(h.bounds row hold).1, (h.bounds row hold).2.trans hlatest⟩
    · obtain ⟨hmem, habove⟩ := mem_fresh.mp hnew
      exact ⟨Nat.zero_lt_of_lt habove, hversioned.bounded row hmem⟩
  · rcases List.mem_append.mp hrow with hold | hnew
    · exact h.shaped row hold
    · obtain ⟨hmem, habove⟩ := mem_fresh.mp hnew
      rcases change_files hchange hmem with hold | ⟨-, hshaped⟩
      · exact h.shaped row (h.files row hold)
      · exact hshaped
  · rcases List.mem_append.mp hrow with hold | hnew
    · rcases List.mem_append.mp hother with hold' | hnew'
      · exact h.apart row hold other hold' heq
      · have hbelow := (h.bounds row hold).2
        have habove := (mem_fresh.mp hnew').2
        omega
    · rcases List.mem_append.mp hother with hold' | hnew'
      · have hbelow := (h.bounds other hold').2
        have habove := (mem_fresh.mp hnew).2
        omega
      · exact List.inj_on_of_nodup_map hversioned.versions (mem_fresh.mp hnew).1 (mem_fresh.mp hnew').1 heq

end Server

/-! ## One page -/

/-- A page of ordered rows above its cursor: what lies below the next cursor is on it, and on the last page all. -/
theorem page_rows (principal : Vault) (since : Option ℕ) {rows : List FileRow} (limit : ℕ)
    (hordered : Ordered FileRow.version rows) (habove : ∀ row ∈ rows, since.getD 0 < row.version) {bound : ℕ}
    (hsince : since.getD 0 ≤ bound) (hrows : ∀ row ∈ rows, row.version ≤ bound)
    (hprincipal : principal.latestVersion ≤ bound) :
    let page := filesPage principal (rows.take (limit + 1)) since limit
    (∀ row ∈ page.files, row ∈ rows) ∧ page.nextSince ≤ bound ∧
      ∀ row ∈ rows, row.version ≤ page.nextSince ∨ page.hasMore = false → row ∈ page.files := by
  have hlast (page : List FileRow) (hsub : ∀ row ∈ page, row ∈ rows) :
      lastKey FileRow.version (since.getD 0) page ≤ bound := by
    rcases Plus.lastKey_mem (since.getD 0) page with heq | ⟨row, hrow, heq⟩
    · rw [heq]
      exact hsince
    · rw [heq]
      exact hrows row (hsub row hrow)
  by_cases hfits : rows.length ≤ limit
  · obtain ⟨-, hfiles, hnext⟩ := Plus.filesPage_last principal since hfits
    simp only [hfiles, hnext]
    exact ⟨fun _ hrow => hrow, max_le (hlast rows fun _ hrow => hrow) hprincipal, fun _ hrow _ => hrow⟩
  · obtain ⟨hmore, hfiles, hnext⟩ := Plus.filesPage_more principal since (not_le.mp hfits)
    simp only [hfiles, hnext, hmore]
    have htaken : ∀ row ∈ rows.take limit, row ∈ rows := fun row hrow => List.mem_of_mem_take hrow
    refine ⟨htaken, hlast _ htaken, fun row hrow hbelow => ?_⟩
    have hsplit := List.take_append_drop limit rows
    apply mem_page_of_le_lastKey FileRow.version (hsplit.symm ▸ hordered) (hsplit.symm ▸ hrow) (habove row hrow)
    exact hbelow.resolve_right (by simp)

/-! ## What holds of the phone -/

/-- The phone's copy of a path is as new as a version, or there is a reason it is not. -/
def Link.Covered (phone : Phone Seed) (σ : Link Seed) (failed : List Path) (path : Path) (version : ℕ) : Prop :=
  path ∈ failed ∨ path ∈ σ.away ∨ isPicture phone path = true ∨ σ.Holds path version

/-- A listed row is dealt with: its path is covered, or the end of a full pull will take its copy. -/
def Link.Done (phone : Phone Seed) (σ : Link Seed) (round : Round) (row : FileRow) : Prop :=
  (σ.Covered phone round.failed row.path.toList row.version ∧
      (round.fullPull = true → row.deleted = false → row.path.toList ∈ round.listed)) ∨
    (round.fullPull = true ∧ row.deleted = true ∧ row.path.toList ∉ round.listed)

/-- Between pages: every listed row up to the cursor is dealt with. -/
structure Link.Walking (phone : Phone Seed) (σ : Link Seed) (round : Round) : Prop where
  le : round.since.getD 0 ≤ σ.listing.latestVersion
  done : ∀ row ∈ σ.listing.files, row.version ≤ round.since.getD 0 → σ.Done phone round row
  afresh : round.since = none → round.fullPull = true ∧ round.listed = []

/-- On a page: every listed row up to the next cursor is still to be taken or is dealt with, and on the last page
every one. -/
structure Link.Taking (phone : Phone Seed) (σ : Link Seed) (round : Round) (rest : List FileRow) (nextSince : ℕ)
    (hasMore : Bool) : Prop where
  le : nextSince ≤ σ.listing.latestVersion
  listed : ∀ row ∈ rest, row ∈ σ.listing.files
  done : ∀ row ∈ σ.listing.files, row.version ≤ nextSince ∨ hasMore = false → row ∈ rest ∨ σ.Done phone round row

def Link.StageInv (phone : Phone Seed) (σ : Link Seed) : Prop :=
  match σ.stage with
  | .sending => True
  | .asking round => σ.Walking phone round
  | .resolved round principal => σ.Walking phone round ∧ principal.latestVersion ≤ σ.vault.latestVersion
  | .taking round rest nextSince hasMore => σ.Taking phone round rest nextSince hasMore
  | .pulled => True
  | .told ackedThroughSeq ackedAtVersion =>
    ∃ ack ∈ σ.acks, ack.through = ackedThroughSeq ∧ ack.atVersion = ackedAtVersion

structure Link.Inv (phone : Phone Seed) (σ : Link Seed) : Prop where
  books : Books σ.vault σ.written σ.acks
  listing : Listing σ.listing σ.vault σ.written
  whole : Whole σ.store
  cursor : σ.store.cursor ≤ σ.listing.latestVersion
  held : ∀ row ∈ σ.written, row.version ≤ σ.store.cursor →
    σ.Covered phone σ.store.refetchPaths row.path.toList row.version
  stage : σ.StageInv phone

section Phone

variable {phone : Phone Seed} {σ τ : Link Seed}

/-- What a phone holds it still holds when rows are written and copies stand. -/
theorem Link.Covered.mono {failed later : List Path} {path : Path} {version : ℕ}
    (h : σ.Covered phone failed path version) (hfailed : failed ⊆ later) (haway : path ∈ σ.away → path ∈ τ.away)
    (hwritten : σ.written ⊆ τ.written) (hcopy : copy τ.store path = copy σ.store path) :
    τ.Covered phone later path version := by
  rcases h with hfail | hleft | hpicture | ⟨row, hrow, hpath, hle, hhash, htext⟩
  · exact Or.inl (hfailed hfail)
  · exact Or.inr (Or.inl (haway hleft))
  · exact Or.inr (Or.inr (Or.inl hpicture))
  · exact Or.inr (Or.inr (Or.inr ⟨row, hwritten hrow, hpath, hle, (congrArg Prod.fst hcopy).trans hhash,
      (congrArg (fun pair => pair.2.isSome) hcopy).trans htext⟩))

theorem Link.Done.mono {round : Round} {row : FileRow} (h : σ.Done phone round row)
    (hcovered : ∀ failed path version, σ.Covered phone failed path version → τ.Covered phone failed path version) :
    τ.Done phone round row :=
  h.imp_left (And.imp_left (hcovered _ _ _))

/-- A step beside the pull keeps what holds of its stage. -/
theorem Link.StageInv.mono (h : σ.StageInv phone) (hstage : τ.stage = σ.stage) (hlisting : τ.listing = σ.listing)
    (hlatest : σ.vault.latestVersion ≤ τ.vault.latestVersion) (hacks : σ.acks ⊆ τ.acks)
    (hcovered : ∀ failed path version, σ.Covered phone failed path version → τ.Covered phone failed path version) :
    τ.StageInv phone := by
  have hwalking (round : Round) (hwalk : σ.Walking phone round) : τ.Walking phone round :=
    ⟨hlisting ▸ hwalk.le, fun row hrow hle => (hwalk.done row (hlisting ▸ hrow) hle).mono hcovered, hwalk.afresh⟩
  unfold Link.StageInv at h ⊢
  rw [hstage]
  cases hσ : σ.stage with
  | sending => trivial
  | pulled => trivial
  | asking round =>
    simp only [hσ] at h
    exact hwalking round h
  | resolved round principal =>
    simp only [hσ] at h
    exact ⟨hwalking round h.1, h.2.trans hlatest⟩
  | taking round rest nextSince hasMore =>
    simp only [hσ] at h
    refine ⟨hlisting ▸ h.le, fun row hrow => hlisting ▸ h.listed row hrow, fun row hrow hle => ?_⟩
    exact (h.done row (hlisting ▸ hrow) hle).imp_right fun hdone => hdone.mono hcovered
  | told ackedThroughSeq ackedAtVersion =>
    simp only [hσ] at h
    obtain ⟨ack, hack, heq⟩ := h
    exact ⟨ack, hacks hack, heq⟩

/-- A step of the phone's own beside the pull. -/
theorem Link.Inv.own (h : σ.Inv phone) {store : VaultStore Seed} {left : List Path}
    (hkeeps : Keeps σ.store store left) : ({ σ with store, away := σ.away ++ left } : Link Seed).Inv phone := by
  have hcovered (failed : List Path) (path : Path) (version : ℕ) (hold : σ.Covered phone failed path version) :
      ({ σ with store, away := σ.away ++ left } : Link Seed).Covered phone failed path version := by
    rcases hkeeps.copies path with hsame | ⟨hleft, -⟩
    · exact hold.mono (List.Subset.refl _) (List.mem_append_left _) (List.Subset.refl _) hsame
    · exact Or.inr (Or.inl (List.mem_append_right _ hleft))
  refine ⟨h.books, h.listing, hkeeps.whole h.whole, hkeeps.cursor.trans_le h.cursor, fun row hrow hle => ?_, ?_⟩
  · rw [hkeeps.refetch]
    exact hcovered _ _ _ (h.held row hrow (hkeeps.cursor ▸ hle))
  · exact h.stage.mono rfl rfl le_rfl (List.Subset.refl _) hcovered

/-- A step of the phone's own that moves no note away. -/
theorem Link.Inv.keeps (h : σ.Inv phone) {store : VaultStore Seed} (hkeeps : Keeps σ.store store []) :
    ({ σ with store } : Link Seed).Inv phone := by
  have hown := h.own hkeeps
  rwa [List.append_nil] at hown

/-- A request of the server's beside the pull. -/
theorem Link.Inv.served (h : σ.Inv phone) {w : Vault} {op : Op} (hserve : serve σ.vault op = some w) :
    ({ σ with vault := w, written := σ.written ++ fresh σ.vault w, acks := acksAfter σ.vault w σ.acks } :
      Link Seed).Inv phone := by
  obtain ⟨happlied, -, hkeeps⟩ := serve_some hserve
  have hcovered (failed : List Path) (path : Path) (version : ℕ) (hold : σ.Covered phone failed path version) :
      ({ σ with vault := w, written := σ.written ++ fresh σ.vault w, acks := acksAfter σ.vault w σ.acks } :
        Link Seed).Covered phone failed path version :=
    hold.mono (List.Subset.refl _) id (List.subset_append_left _ _) rfl
  have hacks : σ.acks ⊆ acksAfter σ.vault w σ.acks := by
    unfold acksAfter
    split
    · exact List.Subset.refl _
    · exact List.subset_append_left _ _
  refine ⟨h.books.served happlied hkeeps, h.listing.served happlied.change, h.whole, h.cursor,
    fun row hrow hle => ?_, h.stage.mono rfl rfl happlied.change.latestVersion_le hacks hcovered⟩
  rcases List.mem_append.mp hrow with hold | hnew
  · exact hcovered _ _ _ (h.held row hold hle)
  · have habove := (mem_fresh.mp hnew).2
    have hbelow := (hle.trans h.cursor).trans h.listing.le
    omega

/-! ## A pull, move by move -/

/-- Nothing is asked of a round that rests. -/
theorem Link.Inv.rest (h : σ.Inv phone) : ({ σ with stage := .sending } : Link Seed).Inv phone :=
  ⟨h.books, h.listing, h.whole, h.cursor, h.held, trivial⟩

theorem Link.Inv.startPull (h : σ.Inv phone) :
    let full := startsFull σ.store
    let round : Round := ⟨if full then none else some σ.store.cursor, full, [], []⟩
    ({ σ with stage := .asking round, listing := σ.vault } : Link Seed).Inv phone := by
  intro full round
  have hcursor := h.cursor.trans h.listing.le
  refine ⟨h.books, h.books.asListed, h.whole, hcursor, h.held, ?_⟩
  change Link.Walking phone _ round
  cases hfull : full with
  | true =>
    have hround : round = ⟨none, true, [], []⟩ := by simp only [round, hfull, if_true]
    rw [hround]
    refine ⟨Nat.zero_le _, fun row hrow hle => ?_, fun _ => ⟨rfl, rfl⟩⟩
    have hpositive := (h.books.bounds row (h.books.files row hrow)).1
    exact absurd hle (Nat.not_le_of_lt hpositive)
  | false =>
    have hround : round = ⟨some σ.store.cursor, false, [], []⟩ := by
      simp only [round, hfull, Bool.false_eq_true, if_false]
    have hrefetch : σ.store.refetchPaths = [] := by
      simp only [full, startsFull, Bool.not_eq_false', Bool.and_eq_true, List.isEmpty_iff] at hfull
      exact hfull.2
    rw [hround]
    refine ⟨hcursor, fun row hrow hle => Or.inl ⟨?_, fun hnot => by cases hnot⟩, fun hnot => by cases hnot⟩
    have hheld := h.held row (h.books.files row hrow) hle
    rwa [hrefetch] at hheld

theorem Link.Inv.resolve (h : σ.Inv phone) {round : Round} (hstage : σ.stage = .asking round) :
    ({ σ with stage := .resolved round σ.vault } : Link Seed).Inv phone := by
  have hwalking := h.stage
  simp only [Link.StageInv, hstage] at hwalking
  exact ⟨h.books, h.listing, h.whole, h.cursor, h.held,
    ⟨hwalking.le, hwalking.done, hwalking.afresh⟩, le_rfl⟩

/-- A cursor found expired starts the walk afresh. -/
theorem Link.Inv.expired (h : σ.Inv phone) (round : Round) :
    ({ σ with stage := .asking { round with since := none, fullPull := true, listed := [] } } : Link Seed).Inv
      phone := by
  refine ⟨h.books, h.listing, h.whole, h.cursor, h.held, Nat.zero_le _, fun row hrow hle => ?_, fun _ => ⟨rfl, rfl⟩⟩
  have hpositive := (h.books.bounds row (h.listing.files row hrow)).1
  exact absurd hle (Nat.not_le_of_lt hpositive)

/-- The rows a page is cut from. -/
def listedRows (v : Vault) : Option ℕ → List FileRow
  | some since => v.rowsAbove since
  | none => v.liveInOrder

theorem listFiles_eq (v : Vault) (since : Option ℕ) (limit : ℕ) :
    v.listFiles since limit = (listedRows v since).take (limit + 1) := by
  cases since with
  | none => exact v.listFiles_none limit
  | some since => exact v.listFiles_some since limit

theorem mem_listedRows {v : Vault} {since : Option ℕ} {row : FileRow} :
    row ∈ listedRows v since ↔ row ∈ v.files ∧ match since with
      | some since => since < row.version
      | none => row.deleted = false := by
  cases since with
  | none => simp [listedRows, Vault.liveInOrder, Vault.liveFiles]
  | some since => simp [listedRows, Vault.rowsAbove]

theorem listedRows_ordered {v : Vault} (h : v.Versioned) (since : Option ℕ) :
    Ordered FileRow.version (listedRows v since) := by
  cases since with
  | none => exact h.liveInOrder_ordered
  | some since => exact h.rowsAbove_ordered since

/-- A page arrives: what it leaves out up to its cursor was dealt with before, or goes with the full pull. -/
theorem Link.Inv.paged (h : σ.Inv phone) {round : Round} {principal : Vault}
    (hstage : σ.stage = .resolved round principal) {page : FilesPage}
    (hpage : page = filesPage principal (σ.vault.listFiles round.since pullLimit) round.since pullLimit) :
    ({ σ with stage := .taking round page.files page.nextSince page.hasMore, listing := σ.vault } :
      Link Seed).Inv phone := by
  have hresolved := h.stage
  simp only [Link.StageInv, hstage] at hresolved
  obtain ⟨hwalking, hprincipal⟩ := hresolved
  have hversioned := h.books.versioned
  have hpositive (row : FileRow) (hrow : row ∈ σ.vault.files) : 0 < row.version :=
    (h.books.bounds row (h.books.files row hrow)).1
  have habove : ∀ row ∈ listedRows σ.vault round.since, round.since.getD 0 < row.version := by
    intro row hrow
    obtain ⟨hmem, hlisted⟩ := mem_listedRows.mp hrow
    cases hsince : round.since with
    | none => exact hpositive row hmem
    | some since =>
      rw [hsince] at hlisted
      exact hlisted
  rw [listFiles_eq] at hpage
  obtain ⟨hrows, hnext, hcovers⟩ := page_rows principal round.since pullLimit
    (listedRows_ordered hversioned round.since) habove (hwalking.le.trans h.listing.le)
    (fun row hrow => hversioned.bounded row (mem_listedRows.mp hrow).1) hprincipal
  rw [← hpage] at hrows hnext hcovers
  refine ⟨h.books, h.books.asListed, h.whole, h.cursor.trans h.listing.le, h.held, hnext,
    fun row hrow => (mem_listedRows.mp (hrows row hrow)).1, fun row hrow hle => ?_⟩
  cases hsince : round.since with
  | none =>
    obtain ⟨hfull, hlisted⟩ := hwalking.afresh hsince
    cases hdeleted : row.deleted with
    | true =>
      right
      right
      exact ⟨hfull, hdeleted, by rw [hlisted]; exact List.not_mem_nil⟩
    | false =>
      left
      apply hcovers row _ hle
      rw [mem_listedRows, hsince]
      exact ⟨hrow, hdeleted⟩
  | some since =>
    by_cases hbehind : row.version ≤ since
    · right
      have hstands := h.listing.stands h.books hrow
        (hbehind.trans (by have hwalked := hwalking.le; rwa [hsince] at hwalked))
      exact hwalking.done row hstands (by rw [hsince]; exact hbehind)
    · left
      apply hcovers row _ hle
      rw [mem_listedRows, hsince]
      exact ⟨hrow, not_le.mp hbehind⟩

/-- A copy with the hash of a row is that row's. -/
theorem Link.holds_of_hash (σ : Link Seed) (hwhole : Whole σ.store) {row : FileRow} (hrow : row ∈ σ.written) {version : ℕ}
    (hle : version ≤ row.version) (hhash : σ.store.contentHash row.path.toList = row.contentHash.map String.toList) :
    σ.Holds row.path.toList version := by
  refine ⟨row, hrow, rfl, hle, hhash, ?_⟩
  have hsome : (σ.store.contentHash row.path.toList).isSome = (σ.store.snapshot row.path.toList).isSome := hwhole _
  rw [← hsome, hhash, Option.isSome_map]

/-- After a row is taken its path is covered, and every other path as before. -/
theorem Link.take_covered (hwhole : Whole σ.store) (round : Round) {row : FileRow} (hrow : row ∈ σ.written)
    (hshaped : Shaped row) (arrives : Option Text) {failed : List Path} {path : Path} {version : ℕ}
    (h : σ.Covered phone failed path version) (hle : path = row.path.toList → version ≤ row.version) :
    (σ.take phone round row arrives).1.Covered phone failed path version := by
  have htakes := takes_row phone hwhole round hshaped arrives
  by_cases hpath : path = row.path.toList
  · by_cases hhash : (σ.take phone round row arrives).1.store.contentHash path = row.contentHash.map String.toList
    · subst hpath
      exact Or.inr (Or.inr (Or.inr (Link.holds_of_hash (σ.take phone round row arrives).1 htakes.whole hrow (hle rfl) hhash)))
    · rcases htakes.taken with ⟨hheld, -⟩ | ⟨hsame, -⟩
      · exact absurd hheld (hpath ▸ hhash)
      · have hcopy : copy (σ.take phone round row arrives).1.store path = copy σ.store path :=
          congrArg (fun store => copy store path) hsame
        exact h.mono (List.Subset.refl _)
          (fun hleft => List.mem_filter.mpr ⟨hleft, decide_eq_true (Or.inr hhash)⟩) (List.Subset.refl _) hcopy
  · have hcopy : copy (σ.take phone round row arrives).1.store path = copy σ.store path := htakes.others path hpath
    exact h.mono (List.Subset.refl _)
      (fun hleft => List.mem_filter.mpr ⟨hleft, decide_eq_true (Or.inl hpath)⟩) (List.Subset.refl _) hcopy

/-- The row taken is dealt with. -/
theorem Link.take_done (hwhole : Whole σ.store) (round : Round) {row : FileRow} (hrow : row ∈ σ.written)
    (hshaped : Shaped row) (arrives : Option Text) :
    (σ.take phone round row arrives).1.Done phone (σ.take phone round row arrives).2 row := by
  have htakes := takes_row phone hwhole round hshaped arrives
  refine Or.inl ⟨?_, fun _ hlive => ?_⟩
  · rcases htakes.taken with ⟨hheld, -⟩ | ⟨-, -, hfailed | hpicture⟩
    · exact Or.inr (Or.inr (Or.inr (Link.holds_of_hash (σ.take phone round row arrives).1 htakes.whole hrow le_rfl hheld)))
    · exact Or.inl hfailed
    · exact Or.inr (Or.inr (Or.inl hpicture))
  · change row.path.toList ∈ (takeRow phone (round.pulling σ.store) (remoteFile row arrives)).listed
    rw [htakes.listed, hlive]
    exact List.mem_cons_self

/-- A row of another path that was dealt with still is. -/
theorem Link.Done.take {round : Round} {row other : FileRow} (h : σ.Done phone round other) (hwhole : Whole σ.store)
    (hrow : row ∈ σ.written) (hshaped : Shaped row) (arrives : Option Text)
    (hne : other.path.toList ≠ row.path.toList) :
    (σ.take phone round row arrives).1.Done phone (σ.take phone round row arrives).2 other := by
  have htakes := takes_row phone hwhole round hshaped arrives
  have hfull : (σ.take phone round row arrives).2.fullPull = round.fullPull := htakes.fullPull
  have hlisted (path : Path) (hpath : path ≠ row.path.toList) :
      path ∈ (σ.take phone round row arrives).2.listed ↔ path ∈ round.listed := by
    change path ∈ (takeRow phone (round.pulling σ.store) (remoteFile row arrives)).listed ↔ _
    rw [htakes.listed]
    split
    · exact Iff.rfl
    · simp [hpath]
  have hfailed : round.failed ⊆ (σ.take phone round row arrives).2.failed := by
    rcases htakes.taken with ⟨-, hsame⟩ | ⟨-, hgrown, -⟩
    · exact hsame.symm ▸ List.Subset.refl _
    · exact hgrown
  rcases h with ⟨hcovered, hlive⟩ | ⟨hwas, hdeleted, hunlisted⟩
  · refine Or.inl ⟨?_, fun hnow hstands => (hlisted _ hne).mpr (hlive (hfull ▸ hnow) hstands)⟩
    have htaken := Link.take_covered hwhole round hrow hshaped arrives hcovered fun heq => absurd heq hne
    exact htaken.mono hfailed id (List.Subset.refl _) rfl
  · exact Or.inr ⟨hfull.trans hwas, hdeleted, fun hmem => hunlisted ((hlisted _ hne).mp hmem)⟩

/-- A row of the page is taken. -/
theorem Link.Inv.take (h : σ.Inv phone) {round : Round} {row : FileRow} {rest : List FileRow} {nextSince : ℕ}
    {hasMore : Bool} (hstage : σ.stage = .taking round (row :: rest) nextSince hasMore) (arrives : Option Text) :
    ({ (σ.take phone round row arrives).1 with
      stage := .taking (σ.take phone round row arrives).2 rest nextSince hasMore } : Link Seed).Inv phone := by
  have htaking := h.stage
  simp only [Link.StageInv, hstage] at htaking
  have hlisted := htaking.listed row List.mem_cons_self
  have hwritten := h.listing.files row hlisted
  have hshaped := h.books.shaped row hwritten
  have htakes := takes_row phone h.whole round hshaped arrives
  refine ⟨h.books, h.listing, htakes.whole, htakes.cursor.trans_le h.cursor, fun other hother hle => ?_,
    htaking.le, fun other hother => htaking.listed other (List.mem_cons_of_mem _ hother), fun other hother hle => ?_⟩
  · have hbehind : other.version ≤ σ.store.cursor := htakes.cursor ▸ hle
    have hheld := h.held other hother hbehind
    have hrefetch : (σ.take phone round row arrives).1.store.refetchPaths = σ.store.refetchPaths := htakes.refetch
    change Link.Covered phone _ (σ.take phone round row arrives).1.store.refetchPaths _ _
    rw [hrefetch]
    apply Link.take_covered h.whole round hwritten hshaped arrives hheld
    intro hpath
    obtain ⟨f, hf, hsame, hnewer⟩ := h.listing.known other hother (hbehind.trans h.cursor)
    have hone := eq_of_path h.listing.versioned hf hlisted (hsame.trans (String.toList_inj.mp hpath))
    exact hone ▸ hnewer
  · by_cases hpath : other.path = row.path
    · have hone := eq_of_path h.listing.versioned hother hlisted hpath
      rw [hone]
      exact Or.inr (Link.take_done h.whole round hwritten hshaped arrives)
    · rcases htaking.done other hother hle with hmem | hdone
      · left
        apply (List.mem_cons.mp hmem).resolve_left
        rintro rfl
        exact hpath rfl
      · right
        exact hdone.take h.whole hwritten hshaped arrives fun heq => hpath (String.toList_inj.mp heq)

/-- The cursor of a page that promises more. -/
theorem Link.Inv.turn (h : σ.Inv phone) {round : Round} {nextSince : ℕ}
    (hstage : σ.stage = .taking round [] nextSince true) :
    ({ σ with stage := .asking { round with since := some nextSince } } : Link Seed).Inv phone := by
  have htaking := h.stage
  simp only [Link.StageInv, hstage] at htaking
  refine ⟨h.books, h.listing, h.whole, h.cursor, h.held, htaking.le, fun row hrow hle => ?_, fun hnot => by cases hnot⟩
  exact (htaking.done row hrow (Or.inl hle)).resolve_left List.not_mem_nil

/-- The last page is done: what the pull dealt with is what the new cursor says. -/
theorem Link.Inv.finish (h : σ.Inv phone) {round : Round} {nextSince : ℕ}
    (hstage : σ.stage = .taking round [] nextSince false) :
    ({ σ with
      store := finishPull phone (Round.pulling { round with since := some nextSince } σ.store)
      stage := .pulled } : Link Seed).Inv phone := by
  have htaking := h.stage
  simp only [Link.StageInv, hstage] at htaking
  have hcopy := copy_finishPull phone σ.store { round with since := some nextSince }
  have hwhole : Whole (finishPull phone (Round.pulling { round with since := some nextSince } σ.store)) := by
    apply h.whole.of_copy
    intro path
    rw [hcopy]
    split
    · exact Or.inr rfl
    · exact Or.inl rfl
  refine ⟨h.books, h.listing, hwhole, htaking.le, fun row hrow hle => ?_, trivial⟩
  obtain ⟨f, hf, hpath, hnewer⟩ := h.listing.known row hrow (hle.trans htaking.le)
  have hwritten := h.listing.files f hf
  have hshaped := h.books.shaped f hwritten
  let τ : Link Seed := { σ with
    store := finishPull phone (Round.pulling { round with since := some nextSince } σ.store)
    stage := .pulled }
  change τ.Covered phone round.failed row.path.toList row.version
  -- a deletion whose path was not listed: the copy is gone, as the deletion says
  have hgone (hunlisted : round.fullPull = true ∧ f.path.toList ∉ round.listed) (hdeleted : f.deleted = true) :
      τ.store.contentHash f.path.toList = f.contentHash.map String.toList := by
    unfold Shaped at hshaped
    rw [if_pos hdeleted] at hshaped
    rw [hshaped]
    exact congrArg Prod.fst ((hcopy _).trans (if_pos hunlisted))
  rw [← hpath]
  have hdone := (htaking.done f hf (Or.inr rfl)).resolve_left List.not_mem_nil
  rcases hdone with ⟨hcovered, hlive⟩ | ⟨hfull, hdeleted, hunlisted⟩
  · by_cases hunlisted : round.fullPull = true ∧ f.path.toList ∉ round.listed
    · have hdeleted : f.deleted = true := by
        cases hf' : f.deleted with
        | true => rfl
        | false => exact absurd (hlive hunlisted.1 hf') hunlisted.2
      exact Or.inr (Or.inr (Or.inr (Link.holds_of_hash τ hwhole hwritten hnewer (hgone hunlisted hdeleted))))
    · have hnow : τ.Covered phone round.failed f.path.toList f.version :=
        hcovered.mono (List.Subset.refl _) id (List.Subset.refl _) ((hcopy _).trans (if_neg hunlisted))
      rcases hnow with hfailed | hleft | hpicture | ⟨g, hg, hsame, hle', hcopied⟩
      · exact Or.inl hfailed
      · exact Or.inr (Or.inl hleft)
      · exact Or.inr (Or.inr (Or.inl hpicture))
      · exact Or.inr (Or.inr (Or.inr ⟨g, hg, hsame, hnewer.trans hle', hcopied⟩))
  · exact Or.inr (Or.inr (Or.inr (Link.holds_of_hash τ hwhole hwritten hnewer (hgone ⟨hfull, hunlisted⟩ hdeleted))))

/-- Reading the vault's ack reads one of its acks. -/
theorem Link.Inv.readStates (h : σ.Inv phone) :
    ({ σ with stage := .told σ.vault.ackedThroughSeq σ.vault.ackedAtVersion } : Link Seed).Inv phone :=
  ⟨h.books, h.listing, h.whole, h.cursor, h.held, h.books.mark⟩

theorem Link.Inv.opens (h : σ.Opens) : σ.Inv phone := by
  obtain ⟨v, hfresh, hthrough, hat, rfl⟩ := h
  have hfiles := hfresh.files
  have hversioned : v.Versioned :=
    ⟨by simp [hfiles], by simp [hfiles], by simp [hfiles], by rw [hfresh.tombstoneHorizon]; exact Nat.zero_le _⟩
  have hbooks : Books v [] [⟨0, 0, []⟩] := by
    refine ⟨hversioned, by simp [hfiles], by simp, by simp, by simp, by simp,
      ⟨_, List.mem_singleton_self _, hthrough.symm, hat.symm⟩, List.pairwise_singleton _ _, fun ack hack => ?_,
      fun ack hack f hf => ?_, by rw [hat]; exact Nat.zero_le _⟩
    · rw [List.mem_singleton.mp hack]
      exact Nat.zero_le _
    · rw [List.mem_singleton.mp hack] at hf
      exact absurd hf List.not_mem_nil
  exact ⟨hbooks, hbooks.asListed, fun _ => rfl, Nat.zero_le _, fun row hrow => absurd hrow List.not_mem_nil, trivial⟩

/-- Every move keeps the invariant. -/
theorem Link.Inv.step (h : σ.Inv phone) {m : Move Seed} (hstep : σ.step phone m = some τ) : τ.Inv phone := by
  cases m with
  | server op =>
    obtain ⟨w, hserve, rfl⟩ := Option.map_eq_some_iff.mp hstep
    exact h.served hserve
  | record writes =>
    obtain ⟨⟨store, outcomes⟩, hrecord, rfl⟩ := Option.map_eq_some_iff.mp hstep
    exact h.own (keeps_record hrecord)
  | sent clientId seq =>
    simp only [Link.step] at hstep
    cases hstage : σ.stage with
    | sending =>
      simp only [hstage, Option.some.injEq] at hstep
      have hkeeps : Keeps σ.store (σ.store.markSent clientId seq) [] := Keeps.of_files rfl rfl rfl
      have hkept := h.keeps hkeeps
      rw [hstage] at hkept
      exact hstep ▸ hkept
    | _ => simp [hstage] at hstep
  | refused clientId =>
    simp only [Link.step] at hstep
    cases hstage : σ.stage with
    | sending =>
      simp only [hstage, Option.some.injEq] at hstep
      have hkept := h.keeps (keeps_discard phone h.whole clientId)
      rw [hstage] at hkept
      exact hstep ▸ hkept
    | _ => simp [hstage] at hstep
  | startPull =>
    simp only [Link.step] at hstep
    cases hstage : σ.stage with
    | sending =>
      simp only [hstage, Option.some.injEq] at hstep
      exact hstep ▸ h.startPull
    | _ => simp [hstage] at hstep
  | resolve =>
    simp only [Link.step] at hstep
    cases hstage : σ.stage with
    | asking round =>
      simp only [hstage, Option.some.injEq] at hstep
      exact hstep ▸ h.resolve hstage
    | _ => simp [hstage] at hstep
  | answer =>
    simp only [Link.step] at hstep
    cases hstage : σ.stage with
    | resolved round principal =>
      simp only [hstage, handleFilesList] at hstep
      cases hexpired : Plus.cursorExpired principal round.since with
      | true =>
        simp only [hexpired, if_true, Option.some.injEq] at hstep
        exact hstep ▸ h.expired round
      | false =>
        simp only [hexpired, Bool.false_eq_true, if_false, Option.some.injEq] at hstep
        exact hstep ▸ h.paged hstage rfl
    | _ => simp [hstage] at hstep
  | take arrives =>
    simp only [Link.step] at hstep
    cases hstage : σ.stage with
    | taking round rest nextSince hasMore =>
      cases rest with
      | nil => simp [hstage] at hstep
      | cons row rest =>
        simp only [hstage, Option.some.injEq] at hstep
        exact hstep ▸ h.take hstage arrives
    | _ => simp [hstage] at hstep
  | pageDone =>
    simp only [Link.step] at hstep
    cases hstage : σ.stage with
    | taking round rest nextSince hasMore =>
      cases rest with
      | cons row rest => simp [hstage] at hstep
      | nil =>
        cases hasMore with
        | false =>
          simp only [hstage, Bool.false_eq_true, if_false, Option.some.injEq] at hstep
          exact hstep ▸ h.finish hstage
        | true =>
          simp only [hstage, if_true, Option.some.injEq] at hstep
          exact hstep ▸ h.turn hstage
    | _ => simp [hstage] at hstep
  | readStates =>
    simp only [Link.step] at hstep
    cases hstage : σ.stage with
    | pulled =>
      simp only [hstage, Option.some.injEq] at hstep
      exact hstep ▸ h.readStates
    | _ => simp [hstage] at hstep
  | prune =>
    simp only [Link.step] at hstep
    cases hstage : σ.stage with
    | told ackedThroughSeq ackedAtVersion =>
      simp only [hstage, Option.some.injEq] at hstep
      exact hstep ▸ (h.keeps (keeps_prune phone h.whole ackedThroughSeq ackedAtVersion)).rest
    | _ => simp [hstage] at hstep
  | fail => exact Option.some.inj hstep ▸ h.rest

theorem Link.inv_of_reachable (h : Reachable (Link.Next phone) Link.Opens σ) : σ.Inv phone :=
  h.invariant (Link.Inv phone) (fun _ hopens => Link.Inv.opens hopens) fun _ _ _ hinv hstep => hinv.step hstep

end Phone

/-! ## Pruning -/

/-! ## A line and a picture, sent and acked -/

/-- The phone makes a write, the desk commits what it makes of it and acks, and a round pulls it. -/
def sentAndAcked (document : ThockKit.WriteDocument) (path : String) : List (Move Unit) :=
  [.record [⟨document, none⟩],
    .server (.enqueueWrite "vault" { clientID := "c", path, baseVersion := 0, payload := [1], createdAt := 0 }),
    .sent document.clientId 1,
    .server (.beginUpload "vault"
      { blobID := "b", path, expectedVersion := 0, sizeBytes := 1, contentHash := "h", createdAt := 0 } 1000),
    .server (.commitUpload "vault" path "b" 0 1000 0), .server (.ackWrites "vault" 1 0),
    .startPull, .resolve, .answer, .take (some ['x']), .pageDone, .readStates]

def linkAfter (phone : Phone Unit) (moves : List (Move Unit)) : Link Unit :=
  (follow (Link.step phone) { vault := Plus.openedVault } moves).getD { vault := Plus.openedVault }

/-- A line appended to a note the phone does not have yet. -/
def appendedLine : ThockKit.WriteDocument :=
  { clientId := ['c'], kind := .append, path := ['a', '.', 'm', 'd'], lines := [['x']] }

/-- A phone whose pictures lie under `i`. -/
def pictures : Phone Unit :=
  { ThockKit.plainPhone with decodeBase64 := fun _ => some [1], imagesDir := fun _ => ['i'] }

/-- A picture put under `i`. -/
def newPicture : ThockKit.WriteDocument :=
  { clientId := ['c'], kind := .putFile, path := ['i', '/', 'a', '.', 'p', 'n', 'g'], contentBase64 := some ['A'],
    contentHash := some ['h'] }

end Thock.Sync
