import Mathlib.Data.List.Perm.Subperm
import Mathlib.Data.List.Nodup
import Mathlib.Logic.Relation
import Mathlib.Order.Bounds.Basic
import Mathlib.Order.MinMax
import Mathlib.Order.BoundedOrder.Basic
import Mathlib.Data.List.Induction

/-!
# Colouring intervals by columns

Half-open intervals that come in the order of their starts, each taking the first column whose
last interval has ended. Two overlapping intervals never share a column, and no more columns are
opened than intervals meet at one instant.

The list is first cut where every earlier interval has ended. The parts are then the connected
components of the overlap relation, so each can be coloured alone.
-/

namespace IntervalColumns

variable {α τ : Type*} [LinearOrder τ]

def Overlap (start stop : α → τ) (a b : α) : Prop := start a < stop b ∧ start b < stop a

theorem Overlap.symm {start stop : α → τ} {a b : α} (h : Overlap start stop a b) :
    Overlap start stop b a := ⟨h.2, h.1⟩

/-- How many of the intervals cover an instant. -/
def depth (start stop : α → τ) (l : List α) (t : τ) : ℕ :=
  l.countP fun a => start a ≤ t ∧ t < stop a

/-! ## The greedy colouring -/

/-- The leftmost column that is free when the interval starts, or a new one, with the columns'
ends after it. -/
def takeColumn (start stop : α → τ) (ends : List τ) (a : α) : ℕ × List τ :=
  match ends.findIdx? (· ≤ start a) with
  | some column => (column, ends.set column (stop a))
  | none => (ends.length, ends ++ [stop a])

/-- Every interval with its column, and the end of each column. -/
def place (start stop : α → τ) : List τ → List α → List (α × ℕ) × List τ
  | ends, [] => ([], ends)
  | ends, a :: rest =>
    let taken := takeColumn start stop ends a
    let later := place start stop taken.2 rest
    ((a, taken.1) :: later.1, later.2)

/-- What the columns' ends say about the intervals placed so far. -/
structure Fits (start stop : α → τ) (placed : List (α × ℕ)) (ends : List τ) : Prop where
  below : ∀ p ∈ placed, ∃ e, ends[p.2]? = some e ∧ stop p.1 ≤ e
  held : ∀ c e, ends[c]? = some e → ∃ p ∈ placed, p.2 = c ∧ stop p.1 = e
  apart : placed.Pairwise fun p q => Overlap start stop p.1 q.1 → p.2 ≠ q.2
  deep : ends = [] ∨ ∃ t, ends.length ≤ depth start stop (placed.map Prod.fst) t

section Greedy
variable {start stop : α → τ} {placed : List (α × ℕ)} {ends : List τ} {a : α}

theorem Fits.nil : Fits start stop [] [] where
  below := by simp
  held := by simp
  apart := List.Pairwise.nil
  deep := Or.inl rfl

theorem Fits.column_lt (h : Fits start stop placed ends) {p : α × ℕ} (hp : p ∈ placed) :
    p.2 < ends.length := by
  obtain ⟨e, he, -⟩ := h.below p hp
  exact (List.getElem?_eq_some_iff.mp he).1

theorem depth_append (l r : List α) (t : τ) :
    depth start stop (l ++ r) t = depth start stop l t + depth start stop r t :=
  List.countP_append

theorem depth_map_fst (t : τ) :
    depth start stop (placed.map Prod.fst) t =
      ((placed.filter fun p => start p.1 ≤ t ∧ t < stop p.1).map Prod.snd).length := by
  rw [depth, List.countP_map, List.countP_eq_length_filter, List.length_map]
  rfl

/-- When no column is free, the last interval of each still runs. -/
theorem Fits.length_le_depth (h : Fits start stop placed ends)
    (hbefore : ∀ p ∈ placed, start p.1 ≤ start a) (hbusy : ∀ e ∈ ends, start a < e) :
    ends.length ≤ depth start stop (placed.map Prod.fst) (start a) := by
  have hsubset : List.range ends.length ⊆
      (placed.filter fun p => start p.1 ≤ start a ∧ start a < stop p.1).map Prod.snd := by
    intro c hc
    have hlt := List.mem_range.mp hc
    obtain ⟨p, hp, hcolumn, hstop⟩ := h.held c ends[c] (List.getElem?_eq_getElem hlt)
    have hruns : start a < stop p.1 := hstop ▸ hbusy ends[c] (List.getElem_mem hlt)
    exact List.mem_map.mpr ⟨p, List.mem_filter.mpr ⟨hp, by simpa using ⟨hbefore p hp, hruns⟩⟩, hcolumn⟩
  have hlength := (List.subperm_of_subset List.nodup_range hsubset).length_le
  rw [List.length_range] at hlength
  rw [depth_map_fst]
  exact hlength

theorem Fits.reuse (h : Fits start stop placed ends) (ha : start a < stop a) {column : ℕ} {e : τ}
    (hcolumn : ends[column]? = some e) (hfree : e ≤ start a) :
    Fits start stop (placed ++ [(a, column)]) (ends.set column (stop a)) := by
  have hlt : column < ends.length := (List.getElem?_eq_some_iff.mp hcolumn).1
  -- whatever sits in the column has ended by now
  have hended : ∀ p ∈ placed, p.2 = column → stop p.1 ≤ start a := by
    intro p hp heq
    obtain ⟨e', he', hle⟩ := h.below p hp
    rw [heq, hcolumn] at he'
    cases he'
    exact hle.trans hfree
  constructor
  · intro p hp
    rcases List.mem_append.mp hp with hp | hp
    · by_cases heq : p.2 = column
      · exact ⟨stop a, by simp [heq, hlt], (hended p hp heq).trans ha.le⟩
      · obtain ⟨e', he', hle⟩ := h.below p hp
        exact ⟨e', by rw [List.getElem?_set_ne (Ne.symm heq), he'], hle⟩
    · rw [List.mem_singleton.mp hp]
      exact ⟨stop a, by simp [hlt], le_rfl⟩
  · intro c e' he'
    by_cases heq : column = c
    · subst heq
      rw [List.getElem?_set_self hlt] at he'
      cases he'
      exact ⟨(a, column), by simp, rfl, rfl⟩
    · rw [List.getElem?_set_ne heq] at he'
      obtain ⟨p, hp, hpc, hstop⟩ := h.held c e' he'
      exact ⟨p, List.mem_append_left _ hp, hpc, hstop⟩
  · apply List.pairwise_append.mpr ⟨h.apart, List.pairwise_singleton _ _, _⟩
    intro p hp q hq hoverlap heq
    rw [List.mem_singleton.mp hq] at hoverlap heq
    exact (hended p hp heq).not_gt hoverlap.2
  · apply Or.inr
    have hne : ends ≠ [] := List.ne_nil_of_length_pos (Nat.zero_lt_of_lt hlt)
    obtain ⟨t, ht⟩ := h.deep.resolve_left hne
    exact ⟨t, by rw [List.length_set, List.map_append, depth_append]; omega⟩

theorem Fits.open (h : Fits start stop placed ends) (ha : start a < stop a)
    (hbefore : ∀ p ∈ placed, start p.1 ≤ start a) (hbusy : ∀ e ∈ ends, start a < e) :
    Fits start stop (placed ++ [(a, ends.length)]) (ends ++ [stop a]) := by
  constructor
  · intro p hp
    rcases List.mem_append.mp hp with hp | hp
    · obtain ⟨e, he, hle⟩ := h.below p hp
      exact ⟨e, by rw [List.getElem?_append_left (h.column_lt hp), he], hle⟩
    · rw [List.mem_singleton.mp hp]
      exact ⟨stop a, by simp, le_rfl⟩
  · intro c e he
    rcases Nat.lt_or_ge c ends.length with hc | hc
    · rw [List.getElem?_append_left hc] at he
      obtain ⟨p, hp, hpc, hstop⟩ := h.held c e he
      exact ⟨p, List.mem_append_left _ hp, hpc, hstop⟩
    · rw [List.getElem?_append_right hc, List.getElem?_singleton] at he
      split at he
      · next hzero =>
        cases he
        exact ⟨(a, ends.length), by simp, by simp only; omega, rfl⟩
      · cases he
  · apply List.pairwise_append.mpr ⟨h.apart, List.pairwise_singleton _ _, _⟩
    intro p hp q hq _
    rw [List.mem_singleton.mp hq]
    exact (h.column_lt hp).ne
  · apply Or.inr
    have hcovered := h.length_le_depth hbefore hbusy
    have hself : depth start stop [a] (start a) = 1 := by simp [depth, ha]
    refine ⟨start a, ?_⟩
    rw [List.map_append, depth_append, List.length_append]
    exact Nat.add_le_add hcovered hself.ge

/-- One more interval keeps the columns right. -/
theorem Fits.takeColumn (h : Fits start stop placed ends) (ha : start a < stop a)
    (hbefore : ∀ p ∈ placed, start p.1 ≤ start a) :
    Fits start stop (placed ++ [(a, (takeColumn start stop ends a).1)])
      (IntervalColumns.takeColumn start stop ends a).2 := by
  unfold IntervalColumns.takeColumn
  cases hfind : ends.findIdx? (· ≤ start a) with
  | some column =>
    obtain ⟨hlt, hfree, -⟩ := List.findIdx?_eq_some_iff_getElem.mp hfind
    exact h.reuse ha (List.getElem?_eq_getElem hlt) (by simpa using hfree)
  | none =>
    apply h.open ha hbefore
    intro e he
    simpa using List.findIdx?_eq_none_iff.mp hfind e he

/-- All intervals of a list that is sorted by start keep the columns right. -/
theorem Fits.place {l : List α} (h : Fits start stop placed ends)
    (hbefore : ∀ p ∈ placed, ∀ b ∈ l, start p.1 ≤ start b)
    (hsorted : l.Pairwise fun b c => start b ≤ start c) (hproper : ∀ b ∈ l, start b < stop b) :
    Fits start stop (placed ++ (place start stop ends l).1) (IntervalColumns.place start stop ends l).2 := by
  induction l generalizing placed ends with
  | nil => simpa [IntervalColumns.place] using h
  | cons b rest ih =>
    have hstep := h.takeColumn (hproper b List.mem_cons_self) (fun p hp => hbefore p hp b List.mem_cons_self)
    have hnext := ih hstep (by
      intro p hp c hc
      rcases List.mem_append.mp hp with hp | hp
      · exact hbefore p hp c (List.mem_cons_of_mem b hc)
      · rw [List.mem_singleton.mp hp]
        exact List.rel_of_pairwise_cons hsorted hc)
      hsorted.of_cons (fun c hc => hproper c (List.mem_cons_of_mem b hc))
    simpa [IntervalColumns.place, List.append_assoc] using hnext

end Greedy

/-! ## Cutting into clusters -/

/-- The list cut where the next interval starts after all the earlier ones have ended. -/
def clusters [OrderBot τ] (start stop : α → τ) : List α → τ → List α → List (List α)
  | cluster, _, [] => if cluster.isEmpty then [] else [cluster]
  | cluster, latest, a :: rest =>
    if cluster.isEmpty = false ∧ latest ≤ start a then
      cluster :: clusters start stop [a] (max ⊥ (stop a)) rest
    else clusters start stop (cluster ++ [a]) (max latest (stop a)) rest

/-- Every interval after the first starts before one of the earlier ones ends. -/
def Chained (start stop : α → τ) (l : List α) : Prop :=
  ∀ front a back, l = front ++ a :: back → front ≠ [] → ∃ b ∈ front, start a < stop b

/-- A path of related elements of a list. -/
def Linked (related : α → α → Prop) (l : List α) : α → α → Prop :=
  Relation.ReflTransGen fun a b => b ∈ l ∧ related a b

section Clusters
variable {start stop : α → τ}

theorem Chained.append {l : List α} {a : α} (h : Chained start stop l)
    (ha : l ≠ [] → ∃ b ∈ l, start a < stop b) : Chained start stop (l ++ [a]) := by
  intro front c back hsplit hne
  rcases List.eq_nil_or_concat back with rfl | ⟨back, d, rfl⟩
  · obtain ⟨rfl, hac⟩ := List.append_inj' hsplit rfl
    cases hac
    exact ha hne
  · rw [List.concat_eq_append, ← List.cons_append, ← List.append_assoc] at hsplit
    exact h front c back (List.append_inj' hsplit rfl).1 hne

theorem Chained.singleton (a : α) : Chained start stop [a] := by
  intro front b back hsplit hne
  cases front with
  | nil => exact absurd rfl hne
  | cons c front => simp at hsplit

end Clusters

/-! ## Components -/

section Components
variable {start stop : α → τ} {related : α → α → Prop} {l l' : List α} {a b : α}

theorem Linked.mono (h : Linked related l a b) (hsubset : l ⊆ l') : Linked related l' a b :=
  Relation.ReflTransGen.mono (fun _ _ hstep => ⟨hsubset hstep.1, hstep.2⟩) a b h

/-- The intervals of a component of the overlap relation, in the order of their starts. -/
structure Component (start stop : α → τ) (l : List α) : Prop where
  sorted : l.Pairwise fun b c => start b ≤ start c
  proper : ∀ b ∈ l, start b < stop b
  chained : Chained start stop l

/-- Any two intervals of a component are linked by overlaps. -/
theorem Component.linked (h : Component start stop l)
    (hrelated : ∀ b ∈ l, ∀ c ∈ l, Overlap start stop b c → related b c) (ha : a ∈ l) (hb : b ∈ l) :
    Linked related l a b := by
  induction l using List.reverseRecOn generalizing a b with
  | nil => cases ha
  | append_singleton l c ih =>
    obtain ⟨hsorted, -, hbefore⟩ := List.pairwise_append.mp h.sorted
    have hfront : Component start stop l := by
      refine ⟨hsorted, fun d hd => h.proper d (List.mem_append_left _ hd), ?_⟩
      intro front d back hsplit hne
      exact h.chained front d (back ++ [c]) (by rw [hsplit, List.append_assoc, List.cons_append]) hne
    have hmem : ∀ d ∈ l, d ∈ l ++ [c] := fun d hd => List.mem_append_left _ hd
    have hlast : l ≠ [] → ∃ d ∈ l, related c d ∧ related d c := by
      intro hne
      obtain ⟨d, hd, hstart⟩ := h.chained l c [] rfl hne
      have hoverlap : Overlap start stop c d :=
        ⟨hstart, (hbefore d hd c (List.mem_singleton_self c)).trans_lt (h.proper c (by simp))⟩
      exact ⟨d, hd, hrelated c (by simp) d (hmem d hd) hoverlap,
        hrelated d (hmem d hd) c (by simp) hoverlap.symm⟩
    have hold : ∀ x ∈ l, ∀ y ∈ l, Linked related (l ++ [c]) x y := by
      intro x hx y hy
      have hlinked := ih hfront (fun d hd e he => hrelated d (hmem d hd) e (hmem e he)) hx hy
      exact hlinked.mono (List.subset_append_left l [c])
    have hto : ∀ x ∈ l, Linked related (l ++ [c]) x c := by
      intro x hx
      obtain ⟨d, hd, -, hstep⟩ := hlast (List.ne_nil_of_mem hx)
      exact (hold x hx d hd).tail ⟨by simp, hstep⟩
    have hfrom : ∀ y ∈ l, Linked related (l ++ [c]) c y := by
      intro y hy
      obtain ⟨d, hd, hstep, -⟩ := hlast (List.ne_nil_of_mem hy)
      exact (hold d hd y hy).head ⟨hmem d hd, hstep⟩
    rcases List.mem_append.mp ha with ha | ha
    · rcases List.mem_append.mp hb with hb | hb
      · exact hold a ha b hb
      · rw [List.mem_singleton.mp hb]
        exact hto a ha
    · rw [List.mem_singleton.mp ha]
      rcases List.mem_append.mp hb with hb | hb
      · exact hfrom b hb
      · rw [List.mem_singleton.mp hb]
        exact Relation.ReflTransGen.refl

open Classical in
/-- Among connected groups that are unrelated to one another, what is linked to an element is
the group it is in. -/
theorem filter_linked {groups : List (List α)} {group : List α}
    (hself : ∀ g ∈ groups, ∀ c ∈ g, related c c)
    (happart : groups.Pairwise fun g g' => ∀ c ∈ g, ∀ d ∈ g', ¬related c d ∧ ¬related d c)
    (hlinked : ∀ c ∈ group, ∀ d ∈ group, Linked related group c d)
    (hgroup : group ∈ groups) (hb : b ∈ group) :
    groups.flatten.filter (fun c => Linked related groups.flatten b c) = group := by
  obtain ⟨before, after, rfl⟩ := List.append_of_mem hgroup
  obtain ⟨-, hafter, hbefore⟩ := List.pairwise_append.mp happart
  have hunrelated : ∀ g ∈ before ++ after, ∀ c ∈ group, ∀ d ∈ g, ¬related c d := by
    intro g hg c hc d hd
    rcases List.mem_append.mp hg with hg | hg
    · exact (hbefore g hg group List.mem_cons_self d hd c hc).2
    · exact (List.rel_of_pairwise_cons hafter hg c hc d hd).1
  have hclosed : ∀ c, Linked related (before ++ group :: after).flatten b c → c ∈ group := by
    intro c hc
    induction hc with
    | refl => exact hb
    | @tail c d _ hstep ih =>
      obtain ⟨g, hg, hd⟩ := List.mem_flatten.mp hstep.1
      rcases List.mem_append.mp hg with hg | hg
      · exact absurd hstep.2 (hunrelated g (List.mem_append_left _ hg) c ih d hd)
      · rcases List.mem_cons.mp hg with rfl | hg
        · exact hd
        · exact absurd hstep.2 (hunrelated g (List.mem_append_right _ hg) c ih d hd)
  have hother : ∀ g ∈ before ++ after, ∀ c ∈ g, ¬Linked related (before ++ group :: after).flatten b c := by
    intro g hg c hc hlink
    have hmem : g ∈ before ++ group :: after := by
      rcases List.mem_append.mp hg with hg | hg
      · exact List.mem_append_left _ hg
      · exact List.mem_append_right _ (List.mem_cons_of_mem _ hg)
    exact hunrelated g hg c (hclosed c hlink) c hc (hself g hmem c hc)
  have hnone : ∀ gs, gs ⊆ before ++ after → gs.flatten.filter
      (fun c => Linked related (before ++ group :: after).flatten b c) = [] := by
    intro gs hgs
    apply List.filter_eq_nil_iff.mpr
    intro c hc
    obtain ⟨g, hg, hcg⟩ := List.mem_flatten.mp hc
    simpa using hother g (hgs hg) c hcg
  have hall : group.filter (fun c => Linked related (before ++ group :: after).flatten b c) = group := by
    apply List.filter_eq_self.mpr
    intro c hc
    have hlink := (hlinked b hb c hc).mono (List.sublist_flatten_of_mem hgroup).subset
    simpa using hlink
  have hsplit : (before ++ group :: after).flatten = before.flatten ++ group ++ after.flatten := by simp
  calc (before ++ group :: after).flatten.filter (fun c => Linked related (before ++ group :: after).flatten b c)
      = (before.flatten ++ group ++ after.flatten).filter
          (fun c => Linked related (before ++ group :: after).flatten b c) := by rw [← hsplit]
    _ = group := by
        rw [List.filter_append, List.filter_append, hall, hnone before (List.subset_append_left _ _),
          hnone after (List.subset_append_right _ _), List.nil_append, List.append_nil]

end Components

end IntervalColumns
