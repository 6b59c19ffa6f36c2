import Zircon.Memalloc.PoolNodes

/-!
# `Pool`: the public methods

`Init`, `Allocate`, `Free`, `Resize`, `UpdateFreeRamSubranges`,
`MarkAsPeripheral` and `CoalescePeripherals` of `pool.cc`, with the private
methods they call, over the state of `PoolNodes`.

Each method runs in `PoolM`: `fit::failed()` is `Fault.failed`, and a
`ZX_ASSERT` (or a `ZX_DEBUG_ASSERT` that guards a dereference of `end()`) that
does not hold is `Fault.abort`. Loops over iterators whose length the loop
body changes take fuel; each says why its fuel is enough.
-/

namespace Zircon.Memalloc

namespace Pool

/-- `fit::result::value()`: an error stops the kernel. -/
def orAbort {α : Type} (x : PoolM α) : PoolM α := fun p =>
  match x p with
  | .ok a p => .ok a p
  | .error _ p => .error .abort p

/-- The first-fit loop of `FindAllocatable` over the tracked ranges. -/
def findAllocatableLoop (size alignment minAddr maxAddr : Nat) : List Range → Option Nat
  | [] => none
  | range :: rest =>
    if range.type ≠ .kFreeRam ∨ range.end ≤ minAddr then
      findAllocatableLoop size alignment minAddr maxAddr rest
    else if range.addr > maxAddr then none
    else
      match Align (max range.addr minAddr) alignment with
      | none => none
      | some aligned =>
        -- `max_addr - size + 1`: the guard of `FindAllocatable` keeps
        -- `size ≤ max_addr + 1`, where the 64-bit value is exact.
        if aligned > maxAddr + 1 - size then none
        else if aligned ≥ range.end ∨ range.end - aligned < size then
          findAllocatableLoop size alignment minAddr maxAddr rest
        else some aligned

/-- `FindAllocatable(type, size, alignment, min_addr, max_addr)`: `none` is
`fit::failed()`. The type only feeds a debug assertion. -/
def FindAllocatable (p : Pool) (size alignment minAddr maxAddr : Nat) : Option Nat :=
  if size - 1 > maxAddr - minAddr then none
  else findAllocatableLoop size alignment minAddr maxAddr p.tracked

/-- `TryToEnsureTwoBookkeepingNodes()`: with fewer than two unused nodes,
allocate a chunk of bookkeeping and carve it into nodes. -/
def TryToEnsureTwoBookkeepingNodes : PoolM Unit := do
  let p ← get
  if p.unused.length ≥ 2 then return
  match p.FindAllocatable kBookkeepingChunkSize kBookkeepingChunkSize p.defaultMinAddr
      p.defaultMaxAddr with
  | none => return
  | some addr =>
    -- `ZX_ASSERT(ptr)`, the pointer being `addr` itself
    if addr = 0 then throw .abort
    set (p.PopulateAsBookkeeping addr kBookkeepingChunkSize).1
    let it ← orAbort (InsertSubrange ⟨addr, kBookkeepingChunkSize, kPoolBookkeeping⟩ none)
    modify (·.Coalesce it)

/-- `Allocate(type, size, alignment, min_addr, max_addr)`. -/
def Allocate (type : RangeType) (size alignment : Nat) (minAddr maxAddr : Option Nat) :
    PoolM Nat := do
  if size = 0 then throw .abort
  let p ← get
  let upperBound := maxAddr.getD p.defaultMaxAddr
  let lowerBound := minAddr.getD p.defaultMinAddr
  if lowerBound > upperBound then throw .abort
  TryToEnsureTwoBookkeepingNodes
  let some addr := (← get).FindAllocatable size alignment lowerBound upperBound | throw .failed
  let it ← InsertSubrange ⟨addr, size, type⟩ none
  modify (·.Coalesce it)
  return addr

/-- `Free(addr, size)`. -/
def Free (addr size : Nat) : PoolM Unit := do
  if kMax - addr < size then throw .abort
  if size = 0 then return
  let p ← get
  -- "provided address range is untracked"
  let some it := p.FindContainingRange addr size | throw .abort
  -- Double-freeing is a no-op.
  if (p.rangeAt it).type = .kFreeRam then return
  TryToEnsureTwoBookkeepingNodes
  let type := ((← get).rangeAt it).type
  if type = kPoolBookkeeping ∨ IsExtendedType type = false then throw .abort
  let it ← InsertSubrange ⟨addr, size, .kFreeRam⟩ (some it)
  modify (·.Coalesce it)

/-- The `find_bookkeeping` callback of `Init`: the first RAM range with an
aligned chunk of `bookkeepingSize` bytes between `minAddr` and `maxAddr`. -/
def findBookkeeping (minAddr maxAddr bookkeepingSize : Nat) (found : Option Nat)
    (range : Range) : Option Nat × Bool :=
  let start := max range.addr minAddr
  let stop := min range.end maxAddr
  match Align start kBookkeepingChunkSize with
  | some alignedStart =>
    if alignedStart ≥ stop ∨ stop - alignedStart < bookkeepingSize then (found, true)
    else (some alignedStart, false)
  | none => (found, true)

/-- The `process_range` callback of `Init`: track each normalized range but
the reserved ones, recording in `alloc_failure` a want of nodes. -/
def processRange (s : Pool × Bool) (range : Range) : (Pool × Bool) × Bool :=
  if range.type = .kReserved then (s, true)
  else
    match (NewNode range).run s.1 with
    | .ok node p => ((p.AppendNode node, s.2), true)
    | .error _ p => ((p, true), false)

/-- `Init(ranges, min_addr, max_addr)` over the spans `spans`. -/
def Init (spans : List (List Range)) (minAddr maxAddr : Nat) : PoolM Unit := do
  let ranges : RangeStream := ⟨spans.map RangeIterationContext.ofSpan⟩
  let scratchSize := FindNormalizedRangesScratchSize ranges.size * sizeofPtr
  -- `*Align(...)`: the size of `n` nodes and the scratch is far from overflow.
  let bookkeepingSize :=
    (Align (ranges.size * sizeofNode + scratchSize) kBookkeepingChunkSize).getD 0
  let some bookkeepingAddr :=
      FindNormalizedRamRanges ranges (findBookkeeping minAddr maxAddr bookkeepingSize) none
    | throw .failed
  let bookkeepingEnd := bookkeepingAddr + bookkeepingSize
  -- The tail of the chunk is the sweep's scratch until the sweep is done.
  let ptr ← modifyGet fun p =>
    (p.PopulateAsBookkeeping bookkeepingAddr (bookkeepingSize - scratchSize)).swap
  if ptr = 0 then throw .abort
  let ((p, allocFailure), status) := FindNormalizedRanges ranges.reset processRange ((← get), false)
  set p
  -- "bad input: the provided ranges feature overlap among different extended types, ..."
  if status matches .error _ then throw .abort
  if allocFailure then throw .failed
  modify fun p => (p.PopulateAsBookkeeping ptr (bookkeepingEnd - ptr)).1
  let _ ← InsertSubrange ⟨bookkeepingAddr, bookkeepingSize, kPoolBookkeeping⟩ none
  modify fun p => { p with defaultMinAddr := minAddr, defaultMaxAddr := maxAddr }

/-- The in-place growth of `Resize` into the free range `next` after `*it`:
its first `spill` bytes move to `*it`, and `next` is unlinked when that is all
of it. `RemoveNodeAt(next)` does not return the slot to `unused_`. -/
def spillNext (p : Pool) (it next spill : Nat) : Pool :=
  let p :=
    if (p.rangeAt next).size = spill then p.RemoveNodeAt next
    else p.modifyRange next fun r => { r with addr := r.addr + spill, size := r.size - spill }
  p.modifyRange it fun r => { r with size := r.size + spill }

/-- The growth of `Resize` into the free range `prev` before `*it`: its last
`spill` bytes move to `*it`, and `prev` is unlinked when that is all of it,
again without its slot going back to `unused_`. -/
def spillPrev (p : Pool) (it prev spill : Nat) : Pool :=
  let p :=
    if (p.rangeAt prev).size = spill then p.RemoveNodeAt prev
    else p.modifyRange prev fun r => { r with size := r.size - spill }
  p.modifyRange it fun r => { r with addr := r.addr - spill, size := r.size + spill }

/-- `Resize(original, new_size, min_alignment)`. -/
def Resize (original : Range) (newSize minAlignment : Nat) : PoolM Nat := do
  if newSize = 0 ∨ IsExtendedType original.type = false ∨ hasSingleBit minAlignment = false ∨
      original.addr % minAlignment ≠ 0 then throw .abort
  let p ← get
  -- "`original` is not a subset of a tracked range"
  let some it := p.FindContainingRange original.addr original.size | throw .abort
  if newSize = original.size then return original.addr
  -- Smaller: free the tail.
  if newSize < original.size then
    Free (original.addr + newSize) (original.size - newSize)
    return original.addr
  let next := p.nextOf it
  -- Room after `original`, when a free range follows it directly.
  let room : Option Nat := next.filter fun nx =>
    original.end = (p.rangeAt nx).addr ∧ (p.rangeAt nx).type = .kFreeRam
  let wiggleRoomEnd := match room with
    | some nx => (p.rangeAt nx).end
    | none => original.end
  -- Can extend in place.
  if let some nx := room then
    if wiggleRoomEnd - original.addr ≥ newSize then
      set (p.spillNext it nx (newSize - original.size))
      return original.addr
  let need := newSize - (wiggleRoomEnd - original.addr)
  let cur := p.rangeAt it
  if let some pv := p.prevOf it then
    let pr := p.rangeAt pv
    if pr.end = cur.addr ∧ pr.type = .kFreeRam ∧ pr.size ≥ need ∧ cur.addr = original.addr then
      -- `& -(min_alignment - 1)`, in 64 bits
      let newAddr := (pr.end - need) &&& ((2 ^ 64 - (minAlignment - 1)) % 2 ^ 64)
      if newAddr ≥ pr.addr ∧ original.addr - newAddr < newSize then
        set (p.spillPrev it pv (original.addr - newAddr))
        let newEnd := newAddr + newSize
        if newEnd > original.end then
          -- `ZX_DEBUG_ASSERT(next != ranges_.end())`
          let some nx := next | throw .abort
          modify (·.spillNext it nx (newEnd - original.end))
        else if newEnd < original.end then
          Free newEnd (original.end - newEnd)
        return newAddr
  -- No option left but to allocate a replacement.
  let newAddr ← Allocate original.type newSize minAlignment none none
  Free original.addr original.size
  return newAddr

/-- Two payload ranges with a page of free RAM between them, all below the
default minimum address, and free RAM above it for the bookkeeping. -/
def payloadsAroundFreeRam : List Range :=
  [⟨0x1000, 0x1000, kPoolTestPayload⟩, ⟨0x2000, 0x1000, .kFreeRam⟩,
    ⟨0x3000, 0x1000, kPoolTestPayload⟩, ⟨0x10000, 0x10000, .kFreeRam⟩]

/-- Growing the first payload range in place over all of the free range after
it leaves it touching the second payload range, of the same type: `Resize`
unlinks the used-up free node and does not coalesce. -/
theorem resize_in_place_leaves_touching_ranges :
    ∃ p₀ p₁, (Init [payloadsAroundFreeRam] kDefaultMinAddr kDefaultMaxAddr).run empty = .ok () p₀ ∧
      p₀.Normalized ∧
      (Resize ⟨0x1000, 0x1000, kPoolTestPayload⟩ 0x2000 1).run p₀ = .ok 0x1000 p₁ ∧
      ¬ p₁.Normalized :=
  let p₀ := stateOf ((Init [payloadsAroundFreeRam] kDefaultMinAddr kDefaultMaxAddr).run empty)
  ⟨p₀, stateOf ((Resize ⟨0x1000, 0x1000, kPoolTestPayload⟩ 0x2000 1).run p₀),
    by decide, by decide, by decide, by decide⟩

/-- In the same run, the unlinked free node's slot is in neither list. -/
theorem resize_in_place_loses_node :
    ∃ p₀ p₁, (Init [payloadsAroundFreeRam] kDefaultMinAddr kDefaultMaxAddr).run empty = .ok () p₀ ∧
      (Resize ⟨0x1000, 0x1000, kPoolTestPayload⟩ 0x2000 1).run p₀ = .ok 0x1000 p₁ ∧
      (∃ slot ∈ p₀.slots, slot ∉ p₁.slots ∧ slot ∉ p₁.unused) ∧
      p₁.slots.length + p₁.unused.length + 1 = p₀.slots.length + p₀.unused.length :=
  let p₀ := stateOf ((Init [payloadsAroundFreeRam] kDefaultMinAddr kDefaultMaxAddr).run empty)
  ⟨p₀, stateOf ((Resize ⟨0x1000, 0x1000, kPoolTestPayload⟩ 0x2000 1).run p₀),
    by decide, by decide, by decide, by decide⟩

/-- A payload page with a page of free RAM before it, both below the default
minimum address, and free RAM above it for the bookkeeping. -/
def payloadAfterFreeRam : List Range :=
  [⟨0x1000, 0x1000, .kFreeRam⟩, ⟨0x2000, 0x1000, kPoolTestPayload⟩, ⟨0x10000, 0x10000, .kFreeRam⟩]

/-- Growing the payload page by one byte with page alignment takes the
backwards path, whose mask `-(min_alignment - 1)` keeps bit 0: the start
`0x2000 - 1` is rounded to `0x1001`, not to a multiple of `0x1000`. -/
theorem resize_backwards_misaligns :
    ∃ p₀ p₁, (Init [payloadAfterFreeRam] kDefaultMinAddr kDefaultMaxAddr).run empty = .ok () p₀ ∧
      p₀.Normalized ∧
      (Resize ⟨0x2000, 0x1000, kPoolTestPayload⟩ 0x1001 0x1000).run p₀ = .ok 0x1001 p₁ ∧
      0x1001 % 0x1000 ≠ 0 :=
  let p₀ := stateOf ((Init [payloadAfterFreeRam] kDefaultMinAddr kDefaultMaxAddr).run empty)
  ⟨p₀, stateOf ((Resize ⟨0x2000, 0x1000, kPoolTestPayload⟩ 0x1001 0x1000).run p₀),
    by decide, by decide, by decide, by decide⟩

/-- The loop of `UpdateFreeRamSubranges` from the node `it` on. A turn passes
one node tracked when the loop began, or stops at the node `InsertSubrange`
made for what follows `[addr, addr + size)`; so one more turn than there are
nodes is enough. -/
def updateFreeRamLoop (type : RangeType) (addr size : Nat) : Nat → Option Nat → PoolM Unit
  | 0, _ => pure ()
  | _, none => pure ()
  | fuel + 1, some it => do
    let r := (← get).rangeAt it
    if addr + size ≤ r.addr then return
    let mut it := it
    if addr < r.end ∧ r.type = .kFreeRam then
      let first := max r.addr addr
      let last := min r.end (addr + size)
      it ← InsertSubrange ⟨first, last - first, type⟩ (some it)
      modify (·.Coalesce it)
    updateFreeRamLoop type addr size fuel ((← get).nextOf it)

/-- `UpdateFreeRamSubranges(type, addr, size)`. -/
def UpdateFreeRamSubranges (type : RangeType) (addr size : Nat) : PoolM Unit := do
  if IsExtendedType type = false ∨ kMax - addr < size then throw .abort
  if size = 0 then return
  TryToEnsureTwoBookkeepingNodes
  let p ← get
  updateFreeRamLoop type addr size (p.ranges.length + 1) p.first

/-- The first loop of `MarkAsPeripheral`: the first node whose range
intersects `range` (an error unless it is peripheral), or else the last node
whose range is less than `range`, starting from `lowerBound`. -/
def lowerBoundLoop (range : Range) : List Node → Option Nat → Except Unit (Option Nat)
  | [], lowerBound => .ok lowerBound
  | n :: rest, lowerBound =>
    if n.range.IntersectsWith range then
      if n.range.type ≠ .kPeripheral then .error () else .ok (some n.slot)
    else if !n.range.lt range then .ok lowerBound
    else lowerBoundLoop range rest (some n.slot)

/-- The second loop of `MarkAsPeripheral`, over the nodes from the lower
bound on: every range that intersects `range` must be peripheral, and the
first one past it is the upper bound. -/
def upperBoundLoop (range : Range) : List Node → Except Unit (Option Nat)
  | [] => .ok none
  | n :: rest =>
    if n.range.IntersectsWith range then
      if n.range.type ≠ .kPeripheral then .error () else upperBoundLoop range rest
    else if range.lt n.range then .ok (some n.slot)
    else upperBoundLoop range rest

/-- The nodes from `it` up to `stop` (excluded), `stop = none` being `end()`. -/
def nodesFrom (p : Pool) (it : Nat) (stop : Option Nat) : List Node :=
  (p.ranges.drop (p.indexOf it)).takeWhile fun n => some n.slot != stop

/-- The `insert_range_at` lambda of `MarkAsPeripheral`. -/
def insertRangeAt (range : Range) (it : Option Nat) : PoolM Unit := do
  let node ← NewNode range
  TryToEnsureTwoBookkeepingNodes
  modify fun p => (p.InsertNodeAt node it).Coalesce node.slot

/-- The `merge_ranges` lambda of `MarkAsPeripheral`: stretch `acc` over `range`. -/
def mergeRanges (acc range : Range) : Range :=
  let accEnd := acc.end
  let addr := min acc.addr range.addr
  { acc with addr := addr, size := max accEnd range.end - addr }

/-- `MarkAsPeripheral(range)`. The nodes folded into the first intersecting
one are unlinked and their slots dropped, not returned to `unused_`. -/
def MarkAsPeripheral (range : Range) : PoolM Unit := do
  if range.type ≠ .kPeripheral then throw .abort
  if range.size = 0 then return
  let p ← get
  let .ok lowerBound := lowerBoundLoop range p.ranges none | throw .failed
  let upper := match lowerBound with
    | some lb => upperBoundLoop range (p.ranges.drop (p.indexOf lb))
    | none => .ok none
  let .ok upperBound := upper | throw .failed
  let some lb := lowerBound | insertRangeAt range p.first
  -- `std::find_if(lower_bound, upper_bound, ...)`
  let some first := (p.nodesFrom lb upperBound).find? (range.IntersectsWith ·.range)
    | insertRangeAt range (p.nextOf lb)
  modify (·.modifyRange first.slot (mergeRanges · range))
  for n in ((← get).nodesFrom first.slot upperBound).drop 1 do
    modify fun p => (p.modifyRange first.slot (mergeRanges · n.range)).RemoveNodeAt n.slot
  modify (·.Coalesce first.slot)

/-- A pool whose bookkeeping chunk at `0x10000` heads the list, followed by
free RAM up to `0x20000`, with two unused nodes left in the chunk. -/
def twoNodesLeft : Pool :=
  ⟨[0x10050, 0x10078], [⟨0x10000, ⟨0x10000, 0x1000, kPoolBookkeeping⟩⟩,
    ⟨0x10028, ⟨0x11000, 0xF000, .kFreeRam⟩⟩], kDefaultMinAddr, kDefaultMaxAddr, 2⟩

/-- A range below every tracked one goes before `begin()`, the bookkeeping
node. `insert_range_at` takes a node first, which leaves one, so
`TryToEnsureTwoBookkeepingNodes` carves a chunk from the head of the free RAM,
and `Coalesce` folds the bookkeeping node into it and puts that node on
`unused_`. The iterator `InsertNodeAt` is then given is a node of `unused_`, so
the peripheral node is linked into `unused_`: the call succeeds, and no tracked
range reaches below `0x10000`, where the peripheral range lies. -/
theorem markAsPeripheral_inserts_before_unlinked_node :
    twoNodesLeft.Normalized ∧ twoNodesLeft.first = some 0x10000 ∧
      (∃ node p₁ p₂, (NewNode ⟨0x1000, 0x1000, .kPeripheral⟩).run twoNodesLeft = .ok node p₁ ∧
        TryToEnsureTwoBookkeepingNodes.run p₁ = .ok () p₂ ∧ 0x10000 ∉ p₂.slots ∧ 0x10000 ∈ p₂.unused) ∧
      ∃ p₃, (MarkAsPeripheral ⟨0x1000, 0x1000, .kPeripheral⟩).run twoNodesLeft = .ok () p₃ ∧
        0x10078 ∈ p₃.unused ∧ ∀ r ∈ p₃.tracked, 0x10000 ≤ r.addr :=
  let p₁ := stateOf ((NewNode ⟨0x1000, 0x1000, .kPeripheral⟩).run twoNodesLeft)
  ⟨by decide, rfl,
    ⟨⟨0x10078, ⟨0x1000, 0x1000, .kPeripheral⟩⟩, p₁, stateOf (TryToEnsureTwoBookkeepingNodes.run p₁),
      by decide, by decide +kernel, by decide +kernel, by decide +kernel⟩,
    stateOf ((MarkAsPeripheral ⟨0x1000, 0x1000, .kPeripheral⟩).run twoNodesLeft), by decide +kernel,
    by decide +kernel, by decide +kernel⟩

/-- `fbl::round_down(val, multiple)` for a power of two `multiple`. -/
def roundDown (val multiple : Nat) : Nat :=
  if val = 0 then 0 else val &&& (kMax - (multiple - 1))

/-- `fbl::round_up(val, multiple)` for a power of two `multiple`, in 64 bits. -/
def roundUp (val multiple : Nat) : Nat :=
  if val = 0 then 0 else ((val + (multiple - 1)) % 2 ^ 64) &&& (kMax - (multiple - 1))

/-- The alignment search of `CoalescePeripherals`: the first alignment whose
rounding of a run stays between its neighbours, else the run's own bounds.
`1ull << align` is `2 ^ align` for the `align < 64` the source can shift by. -/
def alignRun (minBaseAddr maxBaseAddr minEndAddress maxEndAddress : Nat) :
    List Nat → Nat × Nat
  | [] => (minBaseAddr, minEndAddress)
  | align :: rest =>
    let alignment := 2 ^ align
    let tmpBaseAddress := roundDown maxBaseAddr alignment
    let tmpEndAddress := roundUp minEndAddress alignment
    if tmpBaseAddress < minBaseAddr ∨ tmpEndAddress > maxEndAddress then
      alignRun minBaseAddr maxBaseAddr minEndAddress maxEndAddress rest
    else (tmpBaseAddress, tmpEndAddress)

/-- The last peripheral node of the run that `nodes` (those after its first)
continue, starting from `last`. -/
def runEnd : List Node → Nat → Nat
  | [], last => last
  | n :: rest, last => if n.range.type ≠ .kPeripheral then last else runEnd rest n.slot

/-- The loop of `CoalescePeripherals`, with `curr` and `prev`. A turn moves
`curr` past at least one node, and `MarkAsPeripheral` only merges the run it
is given; so one more turn than there are nodes is enough. -/
def coalescePeripheralsLoop (alignments : List Nat) :
    Nat → Option Nat → Option Nat → PoolM Unit
  | 0, _, _ => pure ()
  | _, none, _ => pure ()
  | fuel + 1, some curr, prev => do
    let p ← get
    if (p.rangeAt curr).type ≠ .kPeripheral then
      coalescePeripheralsLoop alignments fuel (p.nextOf curr) (some curr)
    else
      let last := runEnd (p.ranges.drop (p.indexOf curr + 1)) curr
      let minBaseAddr := match prev with
        | none => 0
        | some pv => (p.rangeAt pv).end
      let maxEndAddress := match p.nextOf last with
        | none => kMax
        | some nx => (p.rangeAt nx).addr
      let (baseAddress, endAddress) :=
        alignRun minBaseAddr (p.rangeAt curr).addr (p.rangeAt last).end maxEndAddress alignments
      MarkAsPeripheral ⟨baseAddress, endAddress - baseAddress, .kPeripheral⟩
      coalescePeripheralsLoop alignments fuel (p.nextOf last) prev

/-- `CoalescePeripherals(alignments)`. -/
def CoalescePeripherals (alignments : List Nat) : PoolM Unit := do
  let p ← get
  coalescePeripheralsLoop alignments (p.ranges.length + 1) p.first none

/-- The loop of `NormalizeRanges`: the ranges passed to the callback, with the
pending range `prev`. -/
def normalizeLoop (normalizeType : RangeType → Option RangeType) :
    List Range → Option Range → List Range
  | [], prev => prev.toList
  | range :: rest, prev =>
    match normalizeType range.type with
    | none => normalizeLoop normalizeType rest prev
    | some type =>
      let normalized := { range with type := type }
      match prev with
      | none => normalizeLoop normalizeType rest (some normalized)
      | some pr =>
        if pr.end = normalized.addr ∧ pr.type = normalized.type then
          normalizeLoop normalizeType rest (some { pr with size := pr.size + normalized.size })
        else pr :: normalizeLoop normalizeType rest (some normalized)

/-- `NormalizeRanges(cb, normalize_type)`: the ranges `cb` is called with. -/
def NormalizeRanges (p : Pool) (normalizeType : RangeType → Option RangeType) : List Range :=
  normalizeLoop normalizeType p.tracked none

/-- `NormalizeRam(cb)`: RAM, with every extended type read as free RAM. -/
def NormalizeRam (p : Pool) : List Range :=
  p.NormalizeRanges fun type =>
    if IsExtendedType type ∨ type = .kFreeRam then some .kFreeRam else none

end Pool

end Zircon.Memalloc
