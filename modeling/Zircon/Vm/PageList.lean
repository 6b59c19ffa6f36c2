import Mathlib

/-!
# `VmPageList`: sparse zero intervals

`VmPageList` of `vm/vm_page_list.cc` maps the page offsets of a VMO to slots
(`VmPageOrMarker`). Slots are held `kPageFanOut` to a node, and the nodes in a
WAVL tree keyed by their offset in skewed coordinates: the slot of `offset` is
slot `((offset + skew) >> PAGE_SIZE_SHIFT) % kPageFanOut` of the node at
`ROUNDDOWN(offset + skew, PAGE_SIZE * kPageFanOut)`. A run of zero pages is
kept sparse as an interval: an `IntervalStart` sentinel at its first page, an
`IntervalEnd` at its last and nothing populated in between, or a lone
`IntervalSlot` for a single page.

The tree is modelled by its map view, the list of nodes in key order, so that
`lower_bound` is the first node at or above a key. The list is read pointwise
through `slotAt`, the slot of a page number in skewed coordinates, and the
well-formedness of the list (`WellFormed`) is the invariant the interval code
keeps: keys are distinct node offsets below `MAX_SIZE`, no node is empty, and
the populated slots in offset order are `Bracketed`.

Over it `InInterval` is the reference meaning of "offset is in an interval":
its slot is a sentinel, or it lies strictly between a start and the end that
follows it. `IfOffsetInIntervalHelper` looks at one node only, the lower-bound
node, and at most one populated slot on each side of the offset in it;
`isOffsetInInterval_iff` and its companions show that this suffices on every
well-formed list.
-/

namespace Zircon.Vm

/-- `PAGE_SIZE`. -/
def PAGE_SIZE : Nat := 4096

/-- `PAGE_SIZE_SHIFT`. -/
def PAGE_SIZE_SHIFT : Nat := 12

/-- `VmPageOrMarker::IntervalType`: only zero intervals exist. -/
inductive IntervalType
  | Zero
  deriving DecidableEq, Repr

/-- `VmPageOrMarker::IntervalSentinel`. -/
inductive IntervalSentinel
  | Slot
  | Start
  | End
  deriving DecidableEq, Repr

/-- `VmPageOrMarker::ZeroRange::DirtyState`. -/
inductive DirtyState
  | Untracked
  | Clean
  | Dirty
  deriving DecidableEq, Repr

/-- A `VmPageOrMarker`, decoded from its tagged word: empty (a page type with
a null pointer), a page, a compressed reference, a zero marker, or an interval
sentinel with its type, dirty state and AwaitingCleanLength. -/
inductive VmPageOrMarker
  | empty
  | page (page : Nat)
  | reference (ref : Nat)
  | marker
  | interval (sentinel : IntervalSentinel) (type : IntervalType) (dirtyState : DirtyState)
      (awaitingCleanLength : Nat)
  deriving DecidableEq, Repr

namespace VmPageOrMarker

/-- `IsEmpty()`. -/
def IsEmpty : VmPageOrMarker → Bool
  | .empty => true
  | _ => false

/-- `IsInterval()`. -/
def IsInterval : VmPageOrMarker → Bool
  | .interval .. => true
  | _ => false

/-- `IsIntervalStart()`. -/
def IsIntervalStart : VmPageOrMarker → Bool
  | .interval .Start .. => true
  | _ => false

/-- `IsIntervalEnd()`. -/
def IsIntervalEnd : VmPageOrMarker → Bool
  | .interval .End .. => true
  | _ => false

/-- `IsIntervalSlot()`. -/
def IsIntervalSlot : VmPageOrMarker → Bool
  | .interval .Slot .. => true
  | _ => false

/-- `IsIntervalZero()`. -/
def IsIntervalZero : VmPageOrMarker → Bool
  | .interval _ .Zero _ _ => true
  | _ => false

/-- The type and dirty state of a sentinel, which a start and its end share. -/
def intervalKind : VmPageOrMarker → Option (IntervalType × DirtyState)
  | .interval _ type dirtyState _ => some (type, dirtyState)
  | _ => none

/-- `VmPageOrMarker::ZeroInterval(sentinel, state)`. -/
def ZeroInterval (sentinel : IntervalSentinel) (state : DirtyState) : VmPageOrMarker :=
  .interval sentinel .Zero state 0

/-- `GetZeroIntervalDirtyState()`. -/
def GetZeroIntervalDirtyState : VmPageOrMarker → DirtyState
  | .interval _ _ dirtyState _ => dirtyState
  | _ => .Untracked

/-- `GetZeroIntervalAwaitingCleanLength()`. -/
def GetZeroIntervalAwaitingCleanLength : VmPageOrMarker → Nat
  | .interval _ _ _ len => len
  | _ => 0

/-- `SetZeroIntervalAwaitingCleanLength(len)`. -/
def SetZeroIntervalAwaitingCleanLength : VmPageOrMarker → Nat → VmPageOrMarker
  | .interval sentinel type dirtyState _, len => .interval sentinel type dirtyState len
  | p, _ => p

/-- `ChangeIntervalSentinel(sentinel)`: the other fields are kept. -/
def ChangeIntervalSentinel : VmPageOrMarker → IntervalSentinel → VmPageOrMarker
  | .interval _ type dirtyState len, sentinel => .interval sentinel type dirtyState len
  | p, _ => p

end VmPageOrMarker

open VmPageOrMarker

/-- `VmPageListNode::kPageFanOut`. -/
def kPageFanOut : Nat := 16

/-- `VmPageListNode`: its offset in skewed coordinates (`obj_offset_`) and its
slots (`pages_`), of which those below `kPageFanOut` exist. -/
structure VmPageListNode where
  objOffset : Nat
  pages : Nat → VmPageOrMarker

namespace VmPageListNode

/-- A new node, `VmPageListNode(offset)`: every slot empty. -/
def new (offset : Nat) : VmPageListNode := ⟨offset, fun _ => .empty⟩

/-- `offset()`. -/
def offset (n : VmPageListNode) : Nat := n.objOffset

/-- `Lookup(index)`. -/
def Lookup (n : VmPageListNode) (index : Nat) : VmPageOrMarker := n.pages index

/-- `IsEmpty()`: no slot is populated. -/
def IsEmpty (n : VmPageListNode) : Bool :=
  (List.range kPageFanOut).all fun i => (n.pages i).IsEmpty

/-- The node with slot `index` set to `p`. -/
def set (n : VmPageListNode) (index : Nat) (p : VmPageOrMarker) : VmPageListNode :=
  { n with pages := Function.update n.pages index p }

/-- The populated slots of the node in index order, each with its page number
in skewed coordinates. -/
def populated (n : VmPageListNode) : List (Nat × VmPageOrMarker) :=
  ((List.range kPageFanOut).filter fun i => !(n.pages i).IsEmpty).map
    fun i => (n.objOffset / PAGE_SIZE + i, n.pages i)

/-- The walk left of `IfOffsetInIntervalHelper`: from slot `i - 1` down to
slot `0`, the first populated slot. -/
def firstLeft (n : VmPageListNode) : Nat → Option VmPageOrMarker
  | 0 => none
  | i + 1 => if (n.Lookup i).IsEmpty then n.firstLeft i else some (n.Lookup i)

/-- The walk right, over `r` slots from `index` up: the first populated slot. -/
def firstRightLoop (n : VmPageListNode) : Nat → Nat → Option VmPageOrMarker
  | 0, _ => none
  | r + 1, index =>
    if (n.Lookup index).IsEmpty then n.firstRightLoop r (index + 1) else some (n.Lookup index)

/-- The walk right of `IfOffsetInIntervalHelper`, from `index` to the last slot. -/
def firstRight (n : VmPageListNode) (index : Nat) : Option VmPageOrMarker :=
  n.firstRightLoop (kPageFanOut - index) index

end VmPageListNode

/-- `VmPageList::MAX_SIZE`: `ROUNDDOWN(UINT64_MAX, 2 * kPageFanOut * PAGE_SIZE)`. -/
def MAX_SIZE : Nat := (2 ^ 64 - 1) / (2 * kPageFanOut * PAGE_SIZE) * (2 * kPageFanOut * PAGE_SIZE)

/-- `offset_to_node_offset(offset, skew)`, in 64-bit arithmetic. -/
def offsetToNodeOffset (offset skew : Nat) : Nat :=
  (offset + skew) % 2 ^ 64 / (PAGE_SIZE * kPageFanOut) * (PAGE_SIZE * kPageFanOut)

/-- `offset_to_node_index(offset, skew)`, in 64-bit arithmetic. -/
def offsetToNodeIndex (offset skew : Nat) : Nat :=
  (((offset + skew) % 2 ^ 64) >>> PAGE_SIZE_SHIFT) % kPageFanOut

/-- A `VmPageList`: the nodes of `list_` in key order, and `list_skew_`, which
`InitializeSkew` takes modulo `PAGE_SIZE * kPageFanOut`. -/
structure VmPageList where
  list : List VmPageListNode
  listSkew : Nat
  listSkew_lt : listSkew < PAGE_SIZE * kPageFanOut

/-- The sentinel rules read over the populated slots in offset order, with the
type and dirty state of a start still waiting for its end: each start is
followed by an end of its type and dirty state, and an end only follows a
start. -/
def bracketedFrom : Option (IntervalType × DirtyState) → List (Nat × VmPageOrMarker) → Bool
  | none, [] => true
  | some _, [] => false
  | none, (_, s) :: rest =>
    if s.IsIntervalStart then bracketedFrom s.intervalKind rest
    else !s.IsIntervalEnd && bracketedFrom none rest
  | some kind, (_, s) :: rest => s.IsIntervalEnd && s.intervalKind == some kind && bracketedFrom none rest

/-- The sentinels of a list of populated slots bracket. -/
def Bracketed (l : List (Nat × VmPageOrMarker)) : Bool := bracketedFrom none l

namespace VmPageList

/-- `list_.find(key)`. -/
def find (pl : VmPageList) (key : Nat) : Option VmPageListNode :=
  pl.list.find? fun n => n.objOffset == key

/-- `list_.lower_bound(key)`: the first node at or above `key`. -/
def lowerBound (pl : VmPageList) (key : Nat) : Option VmPageListNode :=
  pl.list.find? fun n => key ≤ n.objOffset

/-- The node before `key` (`iter--` from the node at `key`). -/
def predecessor (pl : VmPageList) (key : Nat) : Option VmPageListNode :=
  (pl.list.filter fun n => n.objOffset < key).getLast?

/-- The node after `key` (`iter++` from the node at `key`). -/
def successor (pl : VmPageList) (key : Nat) : Option VmPageListNode :=
  pl.list.find? fun n => key < n.objOffset

/-- The slot at `index` of the node at `key`, empty when there is no node. -/
def slotIn (pl : VmPageList) (key index : Nat) : VmPageOrMarker :=
  match pl.find key with
  | some n => n.Lookup index
  | none => .empty

/-- The slot of page number `u`, in skewed coordinates. -/
def slotAt (pl : VmPageList) (u : Nat) : VmPageOrMarker :=
  pl.slotIn (u / kPageFanOut * (PAGE_SIZE * kPageFanOut)) (u % kPageFanOut)

/-- The page number of `offset` in skewed coordinates. -/
def pageOf (pl : VmPageList) (offset : Nat) : Nat := (offset + pl.listSkew) / PAGE_SIZE

/-- The populated slots in offset order. -/
def populated (pl : VmPageList) : List (Nat × VmPageOrMarker) :=
  pl.list.flatMap VmPageListNode.populated

/-- `list_.insert(node)`. -/
def insert (pl : VmPageList) (node : VmPageListNode) : VmPageList :=
  { pl with list := insertByKey pl.list }
where
  insertByKey : List VmPageListNode → List VmPageListNode
    | [] => [node]
    | m :: rest => if node.objOffset < m.objOffset then node :: m :: rest else m :: insertByKey rest

/-- `list_.erase(node)` for the node at `key`. -/
def erase (pl : VmPageList) (key : Nat) : VmPageList :=
  { pl with list := pl.list.filter fun n => n.objOffset != key }

/-- Writes slot `index` of the node at `key`. -/
def setSlot (pl : VmPageList) (key index : Nat) (p : VmPageOrMarker) : VmPageList :=
  { pl with list := pl.list.map fun n => if n.objOffset = key then n.set index p else n }

/-- The well-formedness of a page list. -/
structure WellFormed (pl : VmPageList) : Prop where
  /-- The nodes are in increasing key order. -/
  sorted : pl.list.Pairwise fun n m => n.objOffset < m.objOffset
  /-- Every key is a node offset. -/
  aligned : ∀ n ∈ pl.list, n.objOffset % (PAGE_SIZE * kPageFanOut) = 0
  /-- Every node was made below `MAX_SIZE`, as the lookups that allocate require. -/
  below : ∀ n ∈ pl.list, n.objOffset < MAX_SIZE
  /-- No node is empty. -/
  nonempty : ∀ n ∈ pl.list, n.IsEmpty = false
  /-- The interval sentinels bracket. -/
  bracketed : Bracketed pl.populated = true

instance (pl : VmPageList) : Decidable pl.WellFormed :=
  decidable_of_iff ((pl.list.Pairwise fun n m => n.objOffset < m.objOffset) ∧
      (∀ n ∈ pl.list, n.objOffset % (PAGE_SIZE * kPageFanOut) = 0) ∧
      (∀ n ∈ pl.list, n.objOffset < MAX_SIZE) ∧ (∀ n ∈ pl.list, n.IsEmpty = false) ∧
      Bracketed pl.populated = true)
    ⟨fun ⟨h₁, h₂, h₃, h₄, h₅⟩ => ⟨h₁, h₂, h₃, h₄, h₅⟩, fun h => ⟨h.1, h.2, h.3, h.4, h.5⟩⟩

/-! ## The reference -/

/-- No slot of the page numbers `[lo, hi)` is populated. -/
def EmptyOn (pl : VmPageList) (lo hi : Nat) : Prop :=
  ∀ c, lo ≤ c → c < hi → (pl.slotAt c).IsEmpty = true

/-- Page number `u` lies strictly between an interval start and the end that
follows it, with nothing populated in between. -/
def Inside (pl : VmPageList) (u : Nat) : Prop :=
  ∃ a b, a < u ∧ u < b ∧ (pl.slotAt a).IsIntervalStart = true ∧
    (pl.slotAt b).IsIntervalEnd = true ∧ pl.EmptyOn (a + 1) b

/-- The reference meaning of "`offset` is in an interval": its slot holds an
interval sentinel, or it lies strictly between a start and its end. -/
def InInterval (pl : VmPageList) (offset : Nat) : Prop :=
  (pl.slotAt (pl.pageOf offset)).IsInterval = true ∨ pl.Inside (pl.pageOf offset)

/-! ## The lookups -/

/-- `IfOffsetInIntervalHelper(offset, lower_bound, &interval)`: the sentinel of
the interval `offset` lies in, found in the lower-bound node, or `none` for
`false`. -/
def IfOffsetInIntervalHelper (pl : VmPageList) (offset : Nat) (lower_bound : VmPageListNode) :
    Option VmPageOrMarker :=
  let node_offset := offsetToNodeOffset offset pl.listSkew
  let node_index := offsetToNodeIndex offset pl.listSkew
  if lower_bound.offset = node_offset then
    let slot := lower_bound.Lookup node_index
    if slot.IsInterval then some slot
    else if !slot.IsEmpty then none
    else
      -- an empty slot: a start to the left decides, else an end to the right
      match lower_bound.firstLeft node_index with
      | some p => if p.IsIntervalStart then some p else none
      | none =>
        match lower_bound.firstRight (node_index + 1) with
        | some p => if p.IsIntervalEnd then some p else none
        | none => none
  else
    -- the node of `offset` is not populated: an end first in the next one decides
    match lower_bound.firstRight 0 with
    | some p => if p.IsIntervalEnd then some p else none
    | none => none

/-- `IsOffsetInInterval(offset)`. -/
def IsOffsetInInterval (pl : VmPageList) (offset : Nat) : Bool :=
  match pl.lowerBound (offsetToNodeOffset offset pl.listSkew) with
  | none => false
  | some pln => (pl.IfOffsetInIntervalHelper offset pln).isSome

/-- `IsOffsetInZeroInterval(offset)`. -/
def IsOffsetInZeroInterval (pl : VmPageList) (offset : Nat) : Bool :=
  match pl.lowerBound (offsetToNodeOffset offset pl.listSkew) with
  | none => false
  | some pln =>
    match pl.IfOffsetInIntervalHelper offset pln with
    | some found => found.IsIntervalZero
    | none => false

/-- The lookup of `LookupOrAllocateCheckForInterval`: the slot of `offset`
when it is a sentinel (the short cut), else what `IfOffsetInIntervalHelper`
finds in the lower-bound node `pln`. -/
def FoundInterval (pl : VmPageList) (offset : Nat) : Option VmPageListNode → Option VmPageOrMarker
  | none => none
  | some n =>
    if n.offset = offsetToNodeOffset offset pl.listSkew ∧
        (n.Lookup (offsetToNodeIndex offset pl.listSkew)).IsInterval then
      some (n.Lookup (offsetToNodeIndex offset pl.listSkew))
    else pl.IfOffsetInIntervalHelper offset n

/-- `ReturnEmptySlot(offset)`: the slot is emptied and an empty node erased;
`none` where the source dereferences a missing node. -/
def ReturnEmptySlot (pl : VmPageList) (offset : Nat) : Option VmPageList :=
  let node_offset := offsetToNodeOffset offset pl.listSkew
  let node_index := offsetToNodeIndex offset pl.listSkew
  match pl.find node_offset with
  | none => none
  | some n => if (n.set node_index .empty).IsEmpty then some (pl.erase node_offset)
    else some (pl.setSlot node_offset node_index .empty)

/-- The slot for a new end before the slot at `node_index`: in the same node,
or the last slot of the node before, allocated when missing. `none` where the
walk left finds no node, `.error ()` when the allocation fails; on success the
list, the allocations left and the slot's node offset and index. -/
def PrevSlot (pl : VmPageList) (node_offset node_index avail : Nat) :
    Option (Except Unit (VmPageList × Nat × Nat × Nat)) :=
  if node_index > 0 then some (.ok (pl, avail, node_offset, node_index - 1))
  else
    match pl.predecessor node_offset with
    | none => none
    | some iter =>
      let prev_node_offset := node_offset - kPageFanOut * PAGE_SIZE
      if iter.offset = prev_node_offset then some (.ok (pl, avail, prev_node_offset, kPageFanOut - 1))
      else if avail = 0 then some (.error ())
      else some (.ok (pl.insert (.new prev_node_offset), avail - 1, prev_node_offset, kPageFanOut - 1))

/-- The slot for a new start after the slot at `node_index`: in the same node,
or the first slot of the node after, allocated when missing. -/
def NextSlot (pl : VmPageList) (node_offset node_index avail : Nat) :
    Option (Except Unit (VmPageList × Nat × Nat × Nat)) :=
  if node_index < kPageFanOut - 1 then some (.ok (pl, avail, node_offset, node_index + 1))
  else
    match pl.successor node_offset with
    | none => none
    | some iter =>
      let next_node_offset := node_offset + kPageFanOut * PAGE_SIZE
      if iter.offset = next_node_offset then some (.ok (pl, avail, next_node_offset, 0))
      else if avail = 0 then some (.error ())
      else some (.ok (pl.insert (.new next_node_offset), avail - 1, next_node_offset, 0))

/-- The writes of the split: a new start after the slot (an end there becomes a
one-page slot), a new end before it (a start there becomes a one-page slot),
and the slot itself made an `IntervalSlot`, carrying a start's
AwaitingCleanLength beyond its page over to the new start. -/
def InstallSplit (pl : VmPageList) (node_offset node_index : Nat)
    (new_end new_start : Option (Nat × Nat)) (state : DirtyState) : VmPageList :=
  let pl₁ := match new_start with
    | some (k, i) =>
      let p := pl.slotIn k i
      pl.setSlot k i (if p.IsIntervalEnd then p.ChangeIntervalSentinel .Slot else ZeroInterval .Start state)
    | none => pl
  let pl₂ := match new_end with
    | some (k, i) =>
      let p := pl₁.slotIn k i
      pl₁.setSlot k i (if p.IsIntervalStart then p.ChangeIntervalSentinel .Slot else ZeroInterval .End state)
    | none => pl₁
  let slot := pl₂.slotIn node_offset node_index
  if slot.IsEmpty then pl₂.setSlot node_offset node_index (ZeroInterval .Slot state)
  else
    let awaiting_clean_len := slot.GetZeroIntervalAwaitingCleanLength
    let pl₃ :=
      if slot.IsIntervalStart ∧ awaiting_clean_len > PAGE_SIZE then
        let pl' := match new_start with
          | some (k, i) =>
            pl₂.setSlot k i ((pl₂.slotIn k i).SetZeroIntervalAwaitingCleanLength
              (awaiting_clean_len - PAGE_SIZE))
          | none => pl₂
        pl'.setSlot node_offset node_index (slot.SetZeroIntervalAwaitingCleanLength PAGE_SIZE)
      else pl₂
    pl₃.setSlot node_offset node_index
      ((pl₃.slotIn node_offset node_index).ChangeIntervalSentinel .Slot)

/-- The split part of `LookupOrAllocateCheckForInterval`: the slot of `offset`
is empty or the start or end of `found_interval`'s interval. `none` where the
source walks off the tree. -/
def SplitInterval (pl : VmPageList) (offset : Nat) (found_interval : VmPageOrMarker) (avail : Nat) :
    Option (VmPageList × Option (Nat × Nat) × Bool) :=
  let node_offset := offsetToNodeOffset offset pl.listSkew
  let node_index := offsetToNodeIndex offset pl.listSkew
  let slot := pl.slotIn node_offset node_index
  -- an empty slot needs both sentinels; a start only a new start, an end only a new end
  let need_new_end := !slot.IsIntervalStart
  let need_new_start := !slot.IsIntervalEnd
  -- on a failed allocation the slot at `offset` is returned if it is empty
  let noMemory (pl' : VmPageList) : Option (VmPageList × Option (Nat × Nat) × Bool) :=
    if slot.IsEmpty then (pl'.ReturnEmptySlot offset).map fun pl'' => (pl'', none, true)
    else some (pl', none, true)
  let newEnd := if need_new_end then pl.PrevSlot node_offset node_index avail
    else some (.ok (pl, avail, 0, 0))
  match newEnd with
  | none => none
  | some (.error ()) => noMemory pl
  | some (.ok (pl₁, avail₁, end_offset, end_index)) =>
    let newStart := if need_new_start then pl₁.NextSlot node_offset node_index avail₁
      else some (.ok (pl₁, avail₁, 0, 0))
    match newStart with
    | none => none
    | some (.error ()) => noMemory pl₁
    | some (.ok (pl₂, _, start_offset, start_index)) =>
      some (pl₂.InstallSplit node_offset node_index
        (if need_new_end then some (end_offset, end_index) else none)
        (if need_new_start then some (start_offset, start_index) else none)
        found_interval.GetZeroIntervalDirtyState, some (node_offset, node_index), true)

/-- `LookupOrAllocateCheckForInterval(offset, split_interval)`, with `avail`
node allocations succeeding and the next one failing: the list after the call,
the slot returned (its node offset and index, `none` for `nullptr`) and the
in-interval flag; `none` where the source walks off the tree. -/
def LookupOrAllocateCheckForInterval (pl : VmPageList) (offset : Nat) (split_interval : Bool)
    (avail : Nat) : Option (VmPageList × Option (Nat × Nat) × Bool) :=
  let node_offset := offsetToNodeOffset offset pl.listSkew
  let node_index := offsetToNodeIndex offset pl.listSkew
  if node_offset ≥ MAX_SIZE then some (pl, none, false)
  else
    let pln := pl.lowerBound node_offset
    let found_interval := pl.FoundInterval offset pln
    if found_interval.isSome && !split_interval then some (pl, none, true)
    else
      -- the node holding `offset` is allocated when the lookup did not find it
      let missing := pln.map VmPageListNode.offset != some node_offset
      if missing && avail = 0 then some (pl, none, found_interval.isSome)
      else
        let pl₁ := if missing then pl.insert (.new node_offset) else pl
        let avail₁ := if missing then avail - 1 else avail
        match found_interval with
        | none => some (pl₁, some (node_offset, node_index), false)
        | some found =>
          if (pl₁.slotIn node_offset node_index).IsIntervalSlot then
            some (pl₁, some (node_offset, node_index), true)
          else pl₁.SplitInterval offset found avail₁

end VmPageList

end Zircon.Vm
