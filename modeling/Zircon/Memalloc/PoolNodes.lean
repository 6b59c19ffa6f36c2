import Zircon.Memalloc.Algorithm

/-!
# `Pool`: the state and its node lists

The state of `memalloc::Pool` (`pool.h`) and the private list operations of
`pool.cc` that every public method is built from.

Bookkeeping lives in free RAM. `PopulateAsBookkeeping` carves a chunk into
`Node`-sized slots and pushes them onto `unused_`; `NewNode` pops one to hold
a range, and `AppendNode` or `InsertNodeAt` links it into `ranges_`. A slot is
named by its address, and the model takes that address as the node's
identity: an `fbl` list iterator is a pointer to a node, so a mutable iterator
is the slot it points to here, and `end()` is `none`. Iterators then stay
valid across insertions and removals of other nodes, as in the source.

The pool is the one the default constructor builds, whose
`bookkeeping_pointer_` is the identity: bookkeeping at address `a` is stored
at `a`.
-/

namespace Zircon.Memalloc

/-- `Pool::kBookkeepingChunkSize`. -/
def kBookkeepingChunkSize : Nat := 0x1000

/-- `Pool::kDefaultMinAddr`: the first 64KiB are kept clear. -/
def kDefaultMinAddr : Nat := 0x10000

/-- `Pool::kDefaultMaxAddr`, the greatest `uintptr_t` in 64-bit mode. -/
def kDefaultMaxAddr : Nat := kMax

/-- `sizeof(Node)`: a `Range` of three 64-bit words and the two links of its
`fbl::DoublyLinkedList` node state. -/
def sizeofNode : Nat := 40

/-- `sizeof(void*)`. -/
def sizeofPtr : Nat := 8

/-- `cpp20::has_single_bit`. -/
def hasSingleBit (n : Nat) : Bool := n != 0 && n &&& (n - 1) == 0

/-- `Align(addr, alignment)` of `pool.cc`, for a power of two `alignment`:
round up, or `std::nullopt` when `addr + alignment - 1` overflows. -/
def Align (addr alignment : Nat) : Option Nat :=
  if addr > kMax - (alignment - 1) then none
  else some ((addr + alignment - 1) &&& (kMax - (alignment - 1)))

/-- A node of `ranges_`: the address of its slot and the range it holds. -/
structure Node where
  slot : Nat
  range : Range
deriving DecidableEq, Repr

/-- `memalloc::Pool`. `unused` lists the slots of `unused_` from front to back,
`ranges` the nodes of `ranges_`. -/
structure Pool where
  unused : List Nat
  ranges : List Node
  defaultMinAddr : Nat
  defaultMaxAddr : Nat
  numRanges : Nat
deriving DecidableEq, Repr

/-- How a call ends when it does not return: `fit::failed()`, or a
`ZX_ASSERT` that does not hold. -/
inductive Fault where
  | failed
  | abort
deriving DecidableEq, Repr

/-- A method of `Pool`. The state it reached is kept whether it returns or
fails, as the source's `fit::result` methods keep theirs. -/
abbrev PoolM := EStateM Fault Pool

/-- Outcomes are compared constructor by constructor, value and state alike, so
that what a call returns can be decided. -/
instance decEqResult {ε σ α : Type} [DecidableEq ε] [DecidableEq σ] [DecidableEq α] :
    DecidableEq (EStateM.Result ε σ α)
  | .ok a s, .ok b t =>
    if h : a = b ∧ s = t then isTrue (by obtain ⟨rfl, rfl⟩ := h; rfl)
    else isFalse fun e => h (by cases e; exact ⟨rfl, rfl⟩)
  | .error a s, .error b t =>
    if h : a = b ∧ s = t then isTrue (by obtain ⟨rfl, rfl⟩ := h; rfl)
    else isFalse fun e => h (by cases e; exact ⟨rfl, rfl⟩)
  | .ok .., .error .. => isFalse nofun
  | .error .., .ok .. => isFalse nofun

/-- The state a call ends in, whether it returned or failed. -/
def stateOf {α : Type} : EStateM.Result Fault Pool α → Pool
  | .ok _ p => p
  | .error _ p => p

namespace Pool

/-- `Pool() = default`. -/
def empty : Pool := ⟨[], [], 0, 0, 0⟩

/-- The tracked ranges, in the order iteration yields them. -/
def tracked (p : Pool) : List Range := p.ranges.map (·.range)

/-- The slots linked into `ranges_`. -/
def slots (p : Pool) : List Nat := p.ranges.map (·.slot)

/-- The position of the node `it` in `ranges_`. -/
def indexOf (p : Pool) (it : Nat) : Nat := p.ranges.findIdx (·.slot == it)

/-- `*it`. The model keeps no range for the nodes of `unused_`; a slot that is
not linked into `ranges_` reads as an empty range. -/
def rangeAt (p : Pool) (it : Nat) : Range :=
  ((p.ranges.find? (·.slot == it)).map (·.range)).getD ⟨0, 0, .kFreeRam⟩

/-- `begin()`. -/
def first (p : Pool) : Option Nat := p.ranges.head?.map (·.slot)

/-- `std::next(it)`. -/
def nextOf (p : Pool) (it : Nat) : Option Nat := p.ranges[p.indexOf it + 1]?.map (·.slot)

/-- `std::prev(it)`, or `none` when `it == begin()`. -/
def prevOf (p : Pool) (it : Nat) : Option Nat :=
  if p.indexOf it = 0 then none else p.ranges[p.indexOf it - 1]?.map (·.slot)

/-- Writing through a mutable iterator: `it->addr = ...` and the like. -/
def modifyRange (p : Pool) (it : Nat) (f : Range → Range) : Pool :=
  { p with ranges := p.ranges.map fun n => if n.slot = it then { n with range := f n.range } else n }

/-- `NewNode(range)`: pop the back of `unused_` and fill it with `range`. -/
def NewNode (range : Range) : PoolM Node := do
  let p ← get
  match p.unused.getLast? with
  | none => throw .failed
  | some slot =>
    set { p with unused := p.unused.dropLast }
    return ⟨slot, range⟩

/-- `AppendNode(node)`. -/
def AppendNode (p : Pool) (node : Node) : Pool :=
  { p with numRanges := p.numRanges + 1, ranges := p.ranges ++ [node] }

/-- `list.insert(it, node)` with `it` a node of another list `l`: fbl's
`internal_insert` links `node` through `it`'s own links, so it lands in `l`,
right before `it`, or after the tail of `l` when `it` is its head, whose
`prev_` is the tail. -/
def linkBefore (l : List Nat) (slot it : Nat) : List Nat :=
  if l.idxOf it = 0 then l ++ [slot] else l.insertIdx (l.idxOf it) slot

/-- `InsertNodeAt(node, it)`: `ranges_.insert(it, node)`, which links `node`
before `it`, or last for `end()`. An `it` that is no node of `ranges_` is one
of `unused_` (`MarkAsPeripheral` can pass one), and `node` is linked into
`unused_` there; only an empty `ranges_` takes `node` whatever `it` is. The
iterator the source returns is `node.slot`. -/
def InsertNodeAt (p : Pool) (node : Node) (it : Option Nat) : Pool :=
  match it with
  | some s =>
    if s ∈ p.slots ∨ p.ranges = [] then
      { p with numRanges := p.numRanges + 1, ranges := p.ranges.insertIdx (p.indexOf s) node }
    else { p with numRanges := p.numRanges + 1, unused := linkBefore p.unused node.slot s }
  | none => { p with numRanges := p.numRanges + 1, ranges := p.ranges.insertIdx p.ranges.length node }

/-- `RemoveNodeAt(it)`: unlink the node. The source returns it to the caller,
which decides whether its slot goes back to `unused_`. -/
def RemoveNodeAt (p : Pool) (it : Nat) : Pool :=
  { p with numRanges := p.numRanges - 1, ranges := p.ranges.eraseIdx (p.indexOf it) }

/-- The loop of `PopulateAsBookkeeping`: while a whole node fits below `stop`,
push the slot at `addr` and step past it. A turn consumes `sizeof(Node)`
bytes, so fuel equal to the byte count is never the bound that stops it. -/
def populateLoop (stop : Nat) : Nat → Nat → List Nat → List Nat × Nat
  | 0, addr, unused => (unused, addr)
  | fuel + 1, addr, unused =>
    if addr < stop ∧ stop - addr ≥ sizeofNode then
      populateLoop stop fuel (addr + sizeofNode) (unused ++ [addr])
    else (unused, addr)

/-- `PopulateAsBookkeeping(addr, size)`: the new state, and the address just
past the last slot made. -/
def PopulateAsBookkeeping (p : Pool) (addr size : Nat) : Pool × Nat :=
  let (unused, next) := populateLoop (addr + size) size addr p.unused
  ({ p with unused := unused }, next)

/-- `FindContainingRangeAmong(ranges, addr, size)`: the position of the range
that holds `[addr, addr + size)`. Its `std::lower_bound` is the first position
whose range is not less than `{addr, size}`; `ranges_` is sorted, so that is
the position the binary search finds. -/
def FindContainingRangeAmong (ranges : List Range) (addr size : Nat) : Option Nat :=
  let next := ranges.findIdx fun r => !r.lt ⟨addr, size, .kFreeRam⟩
  let rangeEnd := addr + size
  -- The range before `next`, unless `next` is `begin()`.
  let atPrev : Option Nat :=
    if next = 0 then none
    else match ranges[next - 1]? with
      | some prev => if prev.addr ≤ addr ∧ rangeEnd ≤ prev.end then some (next - 1) else none
      | none => none
  match ranges[next]? with
  | some r => if addr ≥ r.addr then (if rangeEnd ≤ r.end then some next else none) else atPrev
  | none => atPrev

/-- `FindContainingRange(addr, size)`. -/
def FindContainingRange (p : Pool) (addr size : Nat) : Option Nat :=
  (FindContainingRangeAmong p.tracked addr size).bind fun i => p.ranges[i]?.map (·.slot)

/-- `InsertSubrange(range, parent_it)`: give `range`, a subrange of the node
`parent_it` (found when not given), a node of its own. The new node is the
iterator returned. When `range` lies strictly inside its parent, the part
after it needs a second node; a failure to get that one leaves the first node
popped from `unused_` and linked nowhere. -/
def InsertSubrange (range : Range) (parentIt : Option Nat) : PoolM Nat := do
  let p ← get
  -- `ZX_DEBUG_ASSERT(it != ranges_.end())`
  let some it := parentIt.or (p.FindContainingRange range.addr range.size) | throw .abort
  let cur := p.rangeAt it
  -- All of `*it`: retype it in place.
  if cur.addr = range.addr ∧ cur.size = range.size then
    set (p.modifyRange it fun r => { r with type := range.type })
    return it
  let node ← NewNode range
  -- A head of `*it`.
  if cur.addr = range.addr then
    modify fun p => (p.modifyRange it fun r =>
      { r with addr := r.addr + range.size, size := r.size - range.size }).InsertNodeAt node (some it)
    return node.slot
  let next := p.nextOf it
  -- A tail of `*it`.
  if range.end = cur.end then
    modify fun p => (p.modifyRange it fun r => { r with size := r.size - range.size }).InsertNodeAt node next
    return node.slot
  -- Strictly inside `*it`.
  let after ← NewNode ⟨range.end, cur.end - range.end, cur.type⟩
  modify fun p => ((p.modifyRange it fun r => { r with size := range.addr - r.addr }).InsertNodeAt
    node next).InsertNodeAt after next
  return node.slot

/-- The first half of `Coalesce(it)`: merge into `*it` the range before it when
it has the same type and ends where `*it` starts; its slot goes back to
`unused_`. -/
def coalescePrev (p : Pool) (it : Nat) : Pool :=
  match p.prevOf it with
  | some prev =>
    let pr := p.rangeAt prev
    if pr.type = (p.rangeAt it).type ∧ pr.end = (p.rangeAt it).addr then
      let p := (p.modifyRange it fun r => { r with addr := pr.addr, size := r.size + pr.size }).RemoveNodeAt prev
      { p with unused := p.unused ++ [prev] }
    else p
  | none => p

/-- The second half of `Coalesce(it)`: the same with the range after `*it`. -/
def coalesceNext (p : Pool) (it : Nat) : Pool :=
  match p.nextOf it with
  | some next =>
    let nx := p.rangeAt next
    if nx.type = (p.rangeAt it).type ∧ (p.rangeAt it).end = nx.addr then
      let p := (p.modifyRange it fun r => { r with size := r.size + nx.size }).RemoveNodeAt next
      { p with unused := p.unused ++ [next] }
    else p
  | none => p

/-- `Coalesce(it)`. The iterator it returns is `it` itself. -/
def Coalesce (p : Pool) (it : Nat) : Pool := (p.coalescePrev it).coalesceNext it

/-- The invariant `pool.h` states of `ranges_`, with that of `num_ranges_`:
the ranges are non-empty, in increasing order and disjoint, `addr + size`
does not overflow, and two that touch have different types ("maximally
contiguous"). -/
structure Normalized (p : Pool) : Prop where
  increasing : p.tracked.Pairwise fun r s => r.end ≤ s.addr
  nonempty : ∀ r ∈ p.tracked, 0 < r.size
  noOverflow : ∀ r ∈ p.tracked, r.end ≤ kMax
  maximal : p.tracked.IsChain fun r s => r.end = s.addr → r.type ≠ s.type
  count : p.numRanges = p.ranges.length

instance (p : Pool) : Decidable p.Normalized :=
  decidable_of_iff (p.tracked.Pairwise (fun r s => r.end ≤ s.addr) ∧ (∀ r ∈ p.tracked, 0 < r.size) ∧
      (∀ r ∈ p.tracked, r.end ≤ kMax) ∧
      p.tracked.IsChain (fun r s => r.end = s.addr → r.type ≠ s.type) ∧ p.numRanges = p.ranges.length)
    ⟨fun ⟨h₁, h₂, h₃, h₄, h₅⟩ => ⟨h₁, h₂, h₃, h₄, h₅⟩, fun ⟨h₁, h₂, h₃, h₄, h₅⟩ => ⟨h₁, h₂, h₃, h₄, h₅⟩⟩

/-! ## `FindContainingRangeAmong` finds the range that holds the query -/

section Containing

variable {ranges : List Range} {addr size : Nat}

theorem findIdx_le_of_getElem {α : Type} {p : α → Bool} {xs : List α} {i : Nat} (hi : i < xs.length)
    (hp : p xs[i] = true) : xs.findIdx p ≤ i := by
  by_contra hlt
  have := List.not_of_lt_findIdx (Nat.lt_of_not_le hlt)
  rw [hp] at this
  cases this

theorem le_findIdx_of_forall {α : Type} {p : α → Bool} {xs : List α} {i : Nat} (hi : i ≤ xs.length)
    (h : ∀ j (hj : j < i), p xs[j] = false) : i ≤ xs.findIdx p := by
  by_contra hlt
  have hlen : xs.findIdx p < xs.length := by omega
  have htrue := List.findIdx_getElem (w := hlen)
  rw [h _ (by omega)] at htrue
  cases htrue

/-- `Range::operator<` against the query `{addr, size}` of
`FindContainingRangeAmong`. -/
theorem lt_query (s : Range) : s.lt ⟨addr, size, .kFreeRam⟩ = decide (s.addr < addr ∨ s.addr = addr ∧ s.size < size) :=
  rfl

/-- In increasing, disjoint ranges an earlier range ends by the start of a later one. -/
theorem addr_add_size_le (hinc : ranges.Pairwise fun r s => r.end ≤ s.addr) {i j : Nat}
    (hi : i < ranges.length) (hj : j < ranges.length) (hij : i < j) :
    ranges[i].addr + ranges[i].size ≤ ranges[j].addr :=
  List.pairwise_iff_getElem.mp hinc i j hi hj hij

/-- What `FindContainingRangeAmong` returns holds the query: each branch checks
it before returning a position. -/
theorem findContainingRangeAmong_sound {i : Nat} (h : FindContainingRangeAmong ranges addr size = some i) :
    ∃ r, ranges[i]? = some r ∧ r.addr ≤ addr ∧ addr + size ≤ r.end := by
  unfold FindContainingRangeAmong at h
  extract_lets next rangeEnd atPrev at h
  -- the range before `next`, the fallback of both branches
  have hprev : atPrev = some i → ∃ r, ranges[i]? = some r ∧ r.addr ≤ addr ∧ addr + size ≤ r.end := by
    intro hp
    simp only [atPrev] at hp
    split_ifs at hp
    split at hp
    · rename_i prev hprev
      split_ifs at hp with hin
      cases hp
      exact ⟨prev, hprev, hin⟩
    · cases hp
  split at h
  · rename_i r hr
    split_ifs at h with hge hle
    · obtain rfl := Option.some.inj h
      exact ⟨r, hr, hge, hle⟩
    · exact hprev h
  · exact hprev h

/-- Where `std::lower_bound` lands when the tracked range at `k` holds the
query: on it when it starts at `addr`, otherwise just past it. -/
theorem lowerBound_of_holds (hinc : ranges.Pairwise fun r s => r.end ≤ s.addr)
    (hpos : ∀ r ∈ ranges, 0 < r.size) {k : Nat} (hk : k < ranges.length)
    (hin : ranges[k].addr ≤ addr ∧ addr + size ≤ ranges[k].end) :
    (ranges[k].addr = addr ∧ ranges.findIdx (fun r => !r.lt ⟨addr, size, .kFreeRam⟩) = k) ∨
      (ranges[k].addr < addr ∧ ranges.findIdx (fun r => !r.lt ⟨addr, size, .kFreeRam⟩) = k + 1) := by
  -- every range before `k` ends by the time `ranges[k]` starts, so starts below it
  have hbefore : ∀ j (hj : j < k), ranges[j].addr < ranges[k].addr := by
    intro j hj
    have hle := addr_add_size_le hinc (by omega) hk hj
    have hsize : 0 < ranges[j].size := hpos _ (List.getElem_mem _)
    omega
  rcases Nat.lt_or_eq_of_le hin.1 with hlt | heq
  · -- `ranges[k]` and all before it sort below the query
    have hlow : ∀ j (hj : j < k + 1), (!ranges[j].lt ⟨addr, size, .kFreeRam⟩) = false := by
      intro j hj
      have hj' : ranges[j].addr < addr := by
        rcases Nat.lt_or_eq_of_le (Nat.le_of_lt_succ hj) with hjk | rfl
        · exact Nat.lt_trans (hbefore j hjk) hlt
        · exact hlt
      simp [lt_query, hj']
    refine .inr ⟨hlt, Nat.le_antisymm ?_ (le_findIdx_of_forall (by omega) hlow)⟩
    by_cases hnext : k + 1 < ranges.length
    · -- the range after `ranges[k]` starts past the query's end
      have hle := addr_add_size_le hinc hk hnext (by omega)
      apply findIdx_le_of_getElem hnext
      unfold Range.end at hin
      simp only [lt_query, Bool.not_eq_eq_eq_not, Bool.not_true, decide_eq_false_iff_not]
      omega
    · exact Nat.le_trans List.findIdx_le_length (by omega)
  · -- a range that starts at `addr` and holds the query does not sort below it
    refine .inl ⟨heq, Nat.le_antisymm ?_ (le_findIdx_of_forall (by omega) fun j hj => ?_)⟩
    · apply findIdx_le_of_getElem hk
      unfold Range.end at hin
      simp only [lt_query, Bool.not_eq_eq_eq_not, Bool.not_true, decide_eq_false_iff_not]
      omega
    · simp [lt_query, heq ▸ hbefore j hj]

/-- A tracked range that holds the query is found: the search returns a
position, at the range or (for an empty query at its end) at the next one. -/
theorem findContainingRangeAmong_isSome (hinc : ranges.Pairwise fun r s => r.end ≤ s.addr)
    (hpos : ∀ r ∈ ranges, 0 < r.size) {k : Nat} (hk : k < ranges.length)
    (hin : ranges[k].addr ≤ addr ∧ addr + size ≤ ranges[k].end) :
    ∃ i, FindContainingRangeAmong ranges addr size = some i := by
  unfold FindContainingRangeAmong
  dsimp only
  rcases lowerBound_of_holds hinc hpos hk hin with ⟨heq, hnext⟩ | ⟨hlt, hnext⟩
  · -- `lower_bound` lands on the range, which starts at `addr`
    rw [hnext, List.getElem?_eq_getElem hk]
    refine ⟨k, ?_⟩
    dsimp only
    rw [if_pos hin.1, if_pos hin.2]
  · -- `lower_bound` lands just past it, so the range before is checked
    rw [hnext]
    simp only [Nat.add_sub_cancel, Nat.add_one_ne_zero, ↓reduceIte, List.getElem?_eq_getElem hk, hin, and_self]
    split
    · rename_i s hs
      split_ifs with hge hle
      · exact ⟨_, rfl⟩
      · -- the next range starts past the query's end, so it would hold it
        obtain ⟨hk1, rfl⟩ := List.getElem?_eq_some_iff.mp hs
        have hle' := addr_add_size_le hinc hk hk1 (by omega)
        unfold Range.end at hin hle
        omega
      · exact ⟨_, rfl⟩
    · exact ⟨_, rfl⟩

/-- A non-empty query lies in at most one tracked range: two that held it
would overlap. -/
theorem holds_unique (hinc : ranges.Pairwise fun r s => r.end ≤ s.addr) (hsize : 0 < size)
    {r s : Range} (hr : r ∈ ranges) (hs : s ∈ ranges)
    (hrin : r.addr ≤ addr ∧ addr + size ≤ r.end) (hsin : s.addr ≤ addr ∧ addr + size ≤ s.end) :
    r = s := by
  obtain ⟨i, hi, rfl⟩ := List.mem_iff_getElem.mp hr
  obtain ⟨j, hj, rfl⟩ := List.mem_iff_getElem.mp hs
  unfold Range.end at hrin hsin
  rcases Nat.lt_trichotomy i j with hij | rfl | hji
  · have hle := addr_add_size_le hinc hi hj hij
    omega
  · rfl
  · have hle := addr_add_size_le hinc hj hi hji
    omega

end Containing

/-- `FindContainingRangeAmong` over ranges that are increasing, disjoint and
non-empty (as `Normalized` keeps `ranges_`): a position it returns holds a
range containing `[addr, addr + size)`, the only one when `size > 0`, and it
returns `end()` exactly when no tracked range contains it. -/
theorem findContainingRangeAmong_correct (ranges : List Range)
    (hinc : ranges.Pairwise fun r s => r.end ≤ s.addr) (hpos : ∀ r ∈ ranges, 0 < r.size) (addr size : Nat) :
    (∀ i, FindContainingRangeAmong ranges addr size = some i →
      ∃ r, ranges[i]? = some r ∧ r.addr ≤ addr ∧ addr + size ≤ r.end ∧
        (0 < size → ∀ s ∈ ranges, s.addr ≤ addr → addr + size ≤ s.end → s = r)) ∧
    (FindContainingRangeAmong ranges addr size = none ↔
      ∀ r ∈ ranges, ¬(r.addr ≤ addr ∧ addr + size ≤ r.end)) := by
  refine ⟨fun i hi => ?_, ⟨fun hnone r hr hin => ?_, fun hnot => ?_⟩⟩
  · obtain ⟨r, hri, hrin⟩ := findContainingRangeAmong_sound hi
    have hmem : r ∈ ranges := List.mem_of_getElem? hri
    exact ⟨r, hri, hrin.1, hrin.2, fun hsize s hs hs₁ hs₂ => holds_unique hinc hsize hs hmem ⟨hs₁, hs₂⟩ hrin⟩
  · -- a containing range is found, so the search does not return `end()`
    obtain ⟨k, hk, rfl⟩ := List.mem_iff_getElem.mp hr
    obtain ⟨i, hi⟩ := findContainingRangeAmong_isSome hinc hpos hk hin
    rw [hnone] at hi
    cases hi
  · cases h : FindContainingRangeAmong ranges addr size with
    | none => rfl
    | some i =>
      obtain ⟨r, hri, hrin⟩ := findContainingRangeAmong_sound h
      exact absurd hrin (hnot r (List.mem_of_getElem? hri))

/-- Two adjacent tracked ranges of different types. -/
def adjacentRanges : List Range := [⟨0x1000, 0x1000, .kFreeRam⟩, ⟨0x2000, 0x1000, kPoolTestPayload⟩]

/-- An empty query at the boundary of two adjacent ranges, which both contain
it. -/
theorem findContainingRangeAmong_correct_boundary :
    adjacentRanges.Pairwise (fun r s => r.end ≤ s.addr) ∧ (∀ r ∈ adjacentRanges, 0 < r.size) ∧
      ((∀ i, FindContainingRangeAmong adjacentRanges 0x2000 0 = some i →
        ∃ r, adjacentRanges[i]? = some r ∧ r.addr ≤ 0x2000 ∧ 0x2000 + 0 ≤ r.end ∧
          (0 < 0 → ∀ s ∈ adjacentRanges, s.addr ≤ 0x2000 → 0x2000 + 0 ≤ s.end → s = r)) ∧
        (FindContainingRangeAmong adjacentRanges 0x2000 0 = none ↔
          ∀ r ∈ adjacentRanges, ¬(r.addr ≤ 0x2000 ∧ 0x2000 + 0 ≤ r.end))) :=
  ⟨by decide, by decide, findContainingRangeAmong_correct _ (by decide) (by decide) 0x2000 0⟩

end Pool

end Zircon.Memalloc
