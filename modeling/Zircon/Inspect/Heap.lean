import Mathlib
import Zircon.Loop

/-!
# `inspect::internal::Heap`

The Inspect VMO is cut into blocks by a buddy allocator. A block of order `k`
is `16 << k` bytes, so `2 ^ k` units of `kMinOrderSize` bytes, and starts at
a unit index that is a multiple of `2 ^ k`; orders go from `0` to
`kNumOrders - 1 = 7`. Every block begins with a 64-bit header holding its
order, its type and, on a free block, the index of the next free block of the
same order.

`free_blocks_[k]` heads the list of free blocks of order `k`, threaded through
those headers and ended by index `0`, which is itself a block and may be on the
list. `Allocate` takes the first list from the wanted order up whose head is
free, or extends the VMO by a page, splits the block down to the wanted order
and reserves it. `Free` merges the block with its buddy while the buddy is
free of the same order, keeping the lower index, and pushes the result on its
list. `RemoveFree` finds a block on its list by walking it.

The header fields are kept decoded: every order the heap writes is below 16,
and every index below `kMaxVmoSize / kMinOrderSize = 2 ^ 24`, so each fits its
field. The VMO's bytes are `mem`, arbitrary outside what the heap writes. A
loop that the code does not bound is run with fuel, and `none` means that it
would not exit or that a `ZX_ASSERT` failed.
-/

namespace Zircon.Inspect

open Function

/-! ## Limits -/

/-- `kMinOrderShift`. -/
def kMinOrderShift : Nat := 4
/-- `kMinOrderSize`: the bytes of a block of order `0`, `sizeof(Block)`. -/
def kMinOrderSize : Nat := 1 <<< kMinOrderShift
/-- `kNumOrders`. -/
def kNumOrders : Nat := 8
/-- `kMaxOrderShift`. -/
def kMaxOrderShift : Nat := kMinOrderShift + kNumOrders - 1
/-- `kMaxOrderSize`. -/
def kMaxOrderSize : Nat := 1 <<< kMaxOrderShift
/-- `kMinVmoSize`. -/
def kMinVmoSize : Nat := 4096
/-- `kMaxVmoSize`. -/
def kMaxVmoSize : Nat := 256 * 1024 * 1024
/-- `kPageSize`. -/
def kPageSize : Nat := 4096

/-- `OrderToSize(order)`: the bytes of a block of that order. -/
def OrderToSize (order : Nat) : Nat := kMinOrderSize <<< order

/-- `IndexForOffset(offset)`: the unit holding that byte. -/
def IndexForOffset (offset : Nat) : Nat := offset / kMinOrderSize

/-- `__builtin_clzl(x)` for a nonzero `x` below `2 ^ 64`. -/
def clzl (x : Nat) : Nat := 63 - x.log2

/-- `FitOrder(size)`: the least order whose blocks hold `size` bytes. The
source subtracts in `size_t`, which wraps only below `size = 9`, short of
`sizeof(Block)`, which `Allocate` asks for. -/
def FitOrder (size : Nat) : Nat := 64 - clzl (size - 1) - kMinOrderShift

/-- `Buddy(block, block_order)`: the other half of the block of order
`block_order + 1` that holds `block`. -/
def Buddy (block blockOrder : Nat) : Nat := block ^^^ IndexForOffset (OrderToSize blockOrder)

/-! ## Blocks and the heap -/

/-- `BlockType`. -/
inductive BlockType where
  | kFree
  | kReserved
  | kHeader
  | kNodeValue
  | kIntValue
  | kUintValue
  | kDoubleValue
  | kBufferValue
  | kExtent
  | kName
  | kTombstone
  | kArrayValue
  | kLinkValue
  | kBoolValue
  | kStringReference
deriving DecidableEq, Repr

/-- A block header by its fields: `Order`, `Type` and `NextFreeBlock`. -/
@[ext]
structure Header where
  order : Nat
  type : BlockType
  next : Nat
deriving DecidableEq, Repr

/-- The state of a `Heap`: the sizes, the list heads `free_blocks_`, the bytes
of the VMO as headers by unit index, and the counters. -/
structure Heap where
  curSize : Nat
  maxSize : Nat
  freeBlocks : Nat → Nat
  mem : Nat → Header
  totalAllocatedBlocks : Nat
  totalDeallocatedBlocks : Nat
  totalFailedAllocations : Nat

/-- The statuses the heap returns. -/
inductive Status where
  | ok
  | errNoMemory
  | errInvalidArgs
  | errInternal
deriving DecidableEq, Repr

namespace Heap

variable (h : Heap)

/-- `IsFreeBlock(block, expected_order)`. -/
def IsFreeBlock (block expectedOrder : Nat) : Bool :=
  if block ≥ h.curSize / kMinOrderSize then false
  else (h.mem block).type == .kFree && (h.mem block).order == expectedOrder

/-- `NextFreeBlock` of a unit's header. -/
def nextFree (i : Nat) : Nat := (h.mem i).next

/-- The test of the walk in `RemoveFree` at `next`: it is free of `order` and
its successor is not `block`. -/
def walkGuard (block order next : Nat) : Bool :=
  h.IsFreeBlock next order && h.nextFree next != block

/-- `RemoveFree(block)`: the heap and whether `block` was found on its list.
A walk that passes more than `cur_size_ / kMinOrderSize` blocks, all below
that index, has met one twice and goes round forever. -/
def RemoveFree (block : Nat) : Option (Heap × Bool) :=
  let order := (h.mem block).order
  if order ≥ kNumOrders then some (h, false)
  else if h.freeBlocks order = block then
    some ({ h with freeBlocks := update h.freeBlocks order (h.nextFree block) }, true)
  else
    match Loop.run (h.walkGuard block order) h.nextFree (h.curSize / kMinOrderSize + 1) (h.freeBlocks order) with
    | none => none
    | some cur =>
      -- the walk stopped at a free block, so at the predecessor of `block`
      if h.IsFreeBlock cur order then
        some ({ h with mem := update h.mem cur { h.mem cur with next := h.nextFree block } }, true)
      else some (h, false)

/-- `SplitBlock(block)`. -/
def SplitBlock (block : Nat) : Option (Heap × Bool) :=
  match h.RemoveFree block with
  | none => none
  | some (h, _) =>
    let order := (h.mem block).order
    if order ≥ kNumOrders then some (h, false)
    else
      let buddyIndex := Buddy block (order - 1)
      let mem := update h.mem block ⟨order - 1, .kFree, buddyIndex⟩
      let mem := update mem buddyIndex ⟨order - 1, .kFree, h.freeBlocks (order - 1)⟩
      some ({ h with mem := mem, freeBlocks := update h.freeBlocks (order - 1) block }, true)

end Heap

/-! ## `Extend` -/

/-- The variables of the loop of `Extend`. -/
structure ExtendState where
  curIndex : Nat
  lastIndex : Nat
  mem : Nat → Header

/-- One pass: step down by a block of the largest order, in `size_t`, and
push a free block there. -/
def extendBody (s : ExtendState) : ExtendState :=
  let curIndex := (s.curIndex + 2 ^ 64 - IndexForOffset kMaxOrderSize) % 2 ^ 64
  ⟨curIndex, curIndex, update s.mem curIndex ⟨kNumOrders - 1, .kFree, s.lastIndex⟩⟩

/-- `while (cur_index > min_index)`. -/
def extendGuard (minIndex : Nat) (s : ExtendState) : Bool := decide (minIndex < s.curIndex)

/-- `Extend(new_size)`. The loop is a `do`-`while`; from a page-aligned
`cur_size_` it passes at most `new_size / kMaxOrderSize` times, and otherwise
the index wraps below `0`. -/
def Heap.Extend (h : Heap) (newSize : Nat) : Option (Heap × Status) :=
  if (h.curSize = h.maxSize ∧ newSize > h.maxSize) ∨ newSize > kMaxVmoSize then
    some ({ h with totalFailedAllocations := h.totalFailedAllocations + 1 }, .errNoMemory)
  else
    let newSize := min h.maxSize newSize
    if h.curSize ≥ newSize then some (h, .ok)
    else
      let minIndex := IndexForOffset h.curSize
      let s₀ : ExtendState :=
        ⟨IndexForOffset (newSize - newSize % kMinVmoSize), h.freeBlocks (kNumOrders - 1), h.mem⟩
      match Loop.run (extendGuard minIndex) extendBody (newSize / kMaxOrderSize + 1) (extendBody s₀) with
      | none => none
      | some s =>
        some ({ h with
          mem := s.mem
          freeBlocks := update h.freeBlocks (kNumOrders - 1) s.lastIndex
          curSize := newSize }, .ok)

/-! ## `Allocate` -/

namespace Heap

variable (h : Heap)

/-- The loop of `Allocate` that splits `block` down to `min_fit_order`;
`false` when a split fails. Each split lowers the order of `block`, so
`kNumOrders + 1` tests of the guard are enough. -/
def splitLoop (block minFitOrder : Nat) : Nat → Heap → Option (Heap × Bool)
  | 0, _ => none
  | fuel + 1, h =>
    if (h.mem block).order > minFitOrder then
      match h.SplitBlock block with
      | none => none
      | some (h, false) => some (h, false)
      | some (h, true) => splitLoop block minFitOrder fuel h
    else some (h, true)

/-- The search of `Allocate`: the first order from `min_fit_order` whose list
starts with a free block of that order. -/
def findOrder (minFitOrder : Nat) : Option Nat :=
  (List.range' minFitOrder (kNumOrders - minFitOrder)).find? fun i => h.IsFreeBlock (h.freeBlocks i) i

/-- The end of `Allocate`: split the head of list `next_order`, take it off
its list and reserve it. -/
def takeBlock (nextOrder minFitOrder : Nat) : Option (Heap × Except Status Nat) :=
  let nextBlockIndex := h.freeBlocks nextOrder
  match splitLoop nextBlockIndex minFitOrder (kNumOrders + 1) h with
  | none => none
  | some (h, false) => some (h, .error .errInternal)
  | some (h, true) =>
    match h.RemoveFree nextBlockIndex with
    | none => none
    | some (h, _) =>
      some ({ h with
        mem := update h.mem nextBlockIndex ⟨(h.mem nextBlockIndex).order, .kReserved, 0⟩
        totalAllocatedBlocks := h.totalAllocatedBlocks + 1 }, .ok nextBlockIndex)

/-- `Allocate(min_size, &out_block)`: `.ok b` is `ZX_OK` with `b` written to
`out_block`. -/
def Allocate (minSize : Nat) : Option (Heap × Except Status Nat) :=
  let minFitOrder := FitOrder minSize
  if minFitOrder ≥ kNumOrders then some (h, .error .errInvalidArgs)
  else
    match h.findOrder minFitOrder with
    | some nextOrder => h.takeBlock nextOrder minFitOrder
    | none =>
      match h.Extend (h.curSize + kPageSize) with
      | none => none
      | some (h, .ok) =>
        -- `ZX_ASSERT`: the new page put a free block at the head of the last list
        if h.IsFreeBlock (h.freeBlocks (kNumOrders - 1)) (kNumOrders - 1) then
          h.takeBlock (kNumOrders - 1) minFitOrder
        else none
      | some (h, status) => some (h, .error status)

end Heap

/-! ## `Free` -/

/-- The variables of the merge loop of `Free`. -/
structure FreeState where
  heap : Heap
  blockIndex : Nat
  buddyIndex : Nat

/-- The guard of the merge loop: the buddy is free, of the block's order,
and that order is below the largest. -/
def freeGuard (s : FreeState) : Bool :=
  (s.heap.mem s.buddyIndex).type == .kFree && decide ((s.heap.mem s.blockIndex).order < kNumOrders - 1) &&
    (s.heap.mem s.blockIndex).order == (s.heap.mem s.buddyIndex).order

/-- One merge: take the buddy off its list, keep the lower index of the two
and raise its order. -/
def freeBody (s : FreeState) : Option FreeState :=
  match s.heap.RemoveFree s.buddyIndex with
  | none => none
  | some (h, _) =>
    -- `buddy < block` compares addresses, which follow the indices
    let blockIndex := if s.buddyIndex < s.blockIndex then s.buddyIndex else s.blockIndex
    let order := (h.mem blockIndex).order + 1
    some ⟨{ h with mem := update h.mem blockIndex { h.mem blockIndex with order := order } }, blockIndex,
      Buddy blockIndex order⟩

/-- The merge loop of `Free`. Each merge raises the block's order, which the
guard keeps below `kNumOrders - 1`, so `kNumOrders` tests are enough. -/
def mergeLoop : Nat → FreeState → Option FreeState
  | 0, _ => none
  | fuel + 1, s =>
    if freeGuard s then
      match freeBody s with
      | none => none
      | some s => mergeLoop fuel s
    else some s

/-- `Free(block_index)`. -/
def Heap.Free (h : Heap) (blockIndex : Nat) : Option Heap :=
  match mergeLoop kNumOrders ⟨h, blockIndex, Buddy blockIndex (h.mem blockIndex).order⟩ with
  | none => none
  | some s =>
    let h := s.heap
    let order := (h.mem s.blockIndex).order
    some { h with
      mem := update h.mem s.blockIndex ⟨order, .kFree, h.freeBlocks order⟩
      freeBlocks := update h.freeBlocks order s.blockIndex
      totalDeallocatedBlocks := h.totalDeallocatedBlocks + 1 }

/-- `Heap(vmo)` on a VMO of `max_size` bytes holding `mem`; `none` when
`ZX_ASSERT(max_size_ > 0)` fails. -/
def Heap.new (maxSize : Nat) (mem : Nat → Header) : Option Heap :=
  if maxSize = 0 then none
  else (Heap.Extend ⟨0, maxSize, fun _ => 0, mem, 0, 0, 0⟩ kMinVmoSize).map Prod.fst

end Zircon.Inspect
