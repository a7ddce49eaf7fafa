import Mathlib.Order.Nat
import Thock.Desk.DayPlan
import Thock.Lib.IntervalColumns

/-!
# The day grid

Where the Day Planner's timed items are drawn. The two lanes are laid out independently: each is
sorted by time, cut into overlap clusters and coloured greedily, every block being counted as
long as it is drawn.

Sums are taken in the machine's 32 bits, so a minimum height near the end of them wraps.
-/

namespace Thock.Desk

open IntervalColumns

/-- A timed item ends after it starts, and within the day. -/
inductive ItemTiming where
  | timed (startMin endMin : ℕ) (valid : startMin < endMin ∧ endMin ≤ minutesPerDay)
  | unscheduled
  | point (atMin : ℕ)
deriving DecidableEq, Repr

/-- The lane an item lays out in. -/
inductive ItemWeight where
  | normal
  | status
deriving DecidableEq, Repr

/-- What the layout reads of an item. -/
structure PlanItem where
  weight : ItemWeight
  timing : ItemTiming
deriving DecidableEq, Repr

structure DayPlan where
  items : List PlanItem
deriving DecidableEq, Repr

/-- A timed item placed on the grid. -/
structure PlacedBlock where
  itemIndex : ℕ
  startMin : ℕ
  endMin : ℕ
  column : ℕ
  columnCount : ℕ
deriving DecidableEq, Repr

/-- Where the drawn block ends. -/
def visualEnd (minVisualMinutes : ℕ) (block : PlacedBlock) : ℕ :=
  max block.endMin ((block.startMin + minVisualMinutes) % 2 ^ 32)

/-- The timed items of one lane, in plan order and not yet placed. -/
def timedBlocks (plan : DayPlan) (weight : ItemWeight) : List PlacedBlock :=
  plan.items.zipIdx.filterMap fun (item, itemIndex) =>
    if item.weight = weight then
      match item.timing with
      | .timed startMin endMin _ => some { itemIndex, startMin, endMin, column := 0, columnCount := 1 }
      | .unscheduled => none
      | .point _ => none
    else none

def keyLe (a b : PlacedBlock) : Bool :=
  a.startMin < b.startMin || (a.startMin = b.startMin && a.endMin ≤ b.endMin)

/-- Each block takes the leftmost column whose last block has ended, and all are told how many
columns there are. -/
def assignColumns (minVisualMinutes : ℕ) (cluster : List PlacedBlock) : List PlacedBlock :=
  let placed := place PlacedBlock.startMin (visualEnd minVisualMinutes) [] cluster
  placed.1.map fun (block, column) => { block with column, columnCount := max placed.2.length 1 }

def layoutLane (plan : DayPlan) (weight : ItemWeight) (minVisualMinutes : ℕ) : List PlacedBlock :=
  let blocks := (timedBlocks plan weight).mergeSort keyLe
  (clusters PlacedBlock.startMin (visualEnd minVisualMinutes) [] 0 blocks).flatMap
    (assignColumns minVisualMinutes)

def layoutBlocks (plan : DayPlan) (minVisualMinutes : ℕ) : List PlacedBlock :=
  layoutLane plan .normal minVisualMinutes ++ layoutLane plan .status minVisualMinutes

/-! ## One lane -/

/-- A block before it is placed. -/
def PlacedBlock.bare (block : PlacedBlock) : PlacedBlock := { block with column := 0, columnCount := 1 }

section Lane
variable {plan : DayPlan} {weight : ItemWeight} {m : ℕ} {cluster : List PlacedBlock}

/-- The lane's clusters, not yet coloured. -/
def laneClusters (plan : DayPlan) (weight : ItemWeight) (m : ℕ) : List (List PlacedBlock) :=
  clusters PlacedBlock.startMin (visualEnd m) [] 0 ((timedBlocks plan weight).mergeSort keyLe)

/-- The lane of the item a block was made from. -/
def laneOf (plan : DayPlan) (block : PlacedBlock) : Option ItemWeight :=
  plan.items[block.itemIndex]?.map PlanItem.weight

end Lane

/-! ## Both lanes -/

/-- The index and times of every timed item. -/
def timedItems (plan : DayPlan) : List (ℕ × ℕ × ℕ) :=
  plan.items.zipIdx.filterMap fun (item, itemIndex) =>
    match item.timing with
    | .timed startMin endMin _ => some (itemIndex, startMin, endMin)
    | .unscheduled => none
    | .point _ => none

def PlacedBlock.source (block : PlacedBlock) : ℕ × ℕ × ℕ := (block.itemIndex, block.startMin, block.endMin)

/-- Two blocks of one lane that would be drawn over each other in one column. -/
def Clash (plan : DayPlan) (m : ℕ) (a b : PlacedBlock) : Prop :=
  laneOf plan a = laneOf plan b ∧ Overlap PlacedBlock.startMin (visualEnd m) a b

open Classical in
/-- The blocks a block is linked to by overlaps within its lane. -/
noncomputable def clusterOf (plan : DayPlan) (m : ℕ) (block : PlacedBlock) : List PlacedBlock :=
  (layoutBlocks plan m).filter fun b => Linked (Clash plan m) (layoutBlocks plan m) block b

/-- The coloured clusters of both lanes. -/
def laidGroups (plan : DayPlan) (m : ℕ) : List (List PlacedBlock) :=
  (laneClusters plan .normal m).map (assignColumns m) ++ (laneClusters plan .status m).map (assignColumns m)

section Layout
variable {plan : DayPlan} {m : ℕ} {group : List PlacedBlock}

end Layout

end Thock.Desk
