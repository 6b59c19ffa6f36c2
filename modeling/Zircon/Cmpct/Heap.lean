import Mathlib

/-!
# cmpctmalloc: the heap and its memory areas

The kernel heap takes runs of pages from the OS (`heap_page_alloc`) and cuts
each into memory areas: a left sentinel, the areas themselves and a right
sentinel. Every area begins with a `header_t` holding a pointer to the area on
its left, with `FREE_BIT` in its low bit on a free area, and the area's size,
header included. A free area is on one of `NUMBER_OF_BUCKETS` doubly linked
lists, through the `next` and `prev` pointers of `free_t` that follow its
header, chosen by its size; bit `i` of `free_list_bits` says whether list `i`
is non-empty.

Memory is `mem`, the header at each address; the `next` and `prev` fields of
a record are the two words after the header. Pointers are addresses and `0`
is `NULL`. `heap_page_alloc` is `pageAlloc`, any function from a number of
pages to an address, `0` when it fails. A `ZX_ASSERT` or `ZX_DEBUG_ASSERT` that
fails, and an index out of `free_lists`, make a function return `none`.
Arithmetic that can wrap is written with `sub64`, `u32` and `u64`; sizes the
code has already bounded (below `2 ^ 21`) are plain.
-/

namespace Zircon.Cmpct

open Function

/-! ## Constants -/

/-- `sizeof(header_t)`: the `left` pointer and the 32-bit `size` and `cookie`. -/
def HEADER_SIZE : Nat := 16
/-- `sizeof(free_t)`: a header and the `next` and `prev` pointers. -/
def FREE_SIZE : Nat := 32
/-- `ZX_PAGE_SHIFT`. -/
def ZX_PAGE_SHIFT : Nat := 12
/-- `ZX_PAGE_SIZE`. -/
def ZX_PAGE_SIZE : Nat := 4096
/-- `HEAP_GROW_SIZE`. -/
def HEAP_GROW_SIZE : Nat := 256 * 1024
/-- `HEAP_ALLOC_VIRTUAL_BITS`. -/
def HEAP_ALLOC_VIRTUAL_BITS : Nat := 21
/-- `kHeapGrowOverhead`: the two sentinels of an OS allocation. -/
def kHeapGrowOverhead : Nat := HEADER_SIZE * 2
/-- `kHeapUsableGrowSize`. -/
def kHeapUsableGrowSize : Nat := HEAP_GROW_SIZE - kHeapGrowOverhead
/-- `HEAP_LARGE_ALLOC_BYTES`. -/
def HEAP_LARGE_ALLOC_BYTES : Nat := (1 <<< HEAP_ALLOC_VIRTUAL_BITS) - kHeapGrowOverhead
/-- `NUMBER_OF_BUCKETS`. -/
def NUMBER_OF_BUCKETS : Nat := 1 + 15 + (HEAP_ALLOC_VIRTUAL_BITS - 7) * 8
/-- `BUCKET_WORDS`: the 32-bit words of `free_list_bits`. -/
def BUCKET_WORDS : Nat := (NUMBER_OF_BUCKETS + 31) >>> 5
/-- `FREE_BIT`. -/
def FREE_BIT : Nat := 1
/-- `kHeapMaxAllocSize`. -/
def kHeapMaxAllocSize : Nat := (1 <<< 20) - HEADER_SIZE

/-! ## Machine arithmetic -/

/-- A value stored in a `uint32_t`. -/
def u32 (x : Nat) : Nat := x % 2 ^ 32

/-- `size_t` and `uintptr_t` arithmetic. -/
def u64 (x : Nat) : Nat := x % 2 ^ 64

/-- `a - b` in `size_t`. -/
def sub64 (a b : Nat) : Nat := u64 (a + 2 ^ 64 - u64 b)


/-- `__builtin_clz` (`width` 32) and `__builtin_clzl` (`width` 64) of a
nonzero value below `2 ^ width`. -/
def clz (width x : Nat) : Nat := width - 1 - x.log2

/-- `ZX_ROUNDUP(a, b)`. -/
def ZX_ROUNDUP (a b : Nat) : Nat := (a + b - 1) / b * b

/-- `ZX_IS_PAGE_ALIGNED(x)`. -/
def ZX_IS_PAGE_ALIGNED (x : Nat) : Bool := x % ZX_PAGE_SIZE == 0

/-! ## Buckets -/

/-- `SizeToIndexHelper(size, adjust, increment)`: the bucket of a usable size
and the size that bucket holds. Up to 128 bytes the buckets are 8 bytes
apart; above, eight buckets to each power of two. `none` for a bucket out of
`free_lists`: the `ZX_DEBUG_ASSERT` of the second branch, and `-1` for a
usable size below 8. -/
def SizeToIndexHelper (size : Nat) (adjust : Int) (increment : Nat) : Option (Nat × Nat) :=
  if size ≤ 128 then
    let rounded_up := if size ≤ FREE_SIZE - HEADER_SIZE then FREE_SIZE - HEADER_SIZE else size
    if size >>> 3 = 0 then none else some ((size >>> 3) - 1, rounded_up)
  else
    let size := (size + adjust).toNat
    let row := 64 - 4 - clz 64 size
    let column := (size >>> row) &&& 7
    let row_column := ((row <<< 3) ||| column) + increment
    let rounded_up := (8 + (row_column &&& 7)) <<< (row_column >>> 3)
    let answer := row_column + 15 - 32
    if answer < NUMBER_OF_BUCKETS then some (answer, rounded_up) else none

/-- `SizeToIndexAllocating(size)`: round up to the next bucket. -/
def SizeToIndexAllocating (size : Nat) : Option (Nat × Nat) :=
  SizeToIndexHelper (ZX_ROUNDUP size 8) (-8) 1

/-- `size_to_index_freeing(size)`: round down to the bucket below. -/
def size_to_index_freeing (size : Nat) : Option Nat :=
  (SizeToIndexHelper size 0 0).map Prod.fst

/-! ## The heap -/

/-- A memory area's `header_t`, with the `next` and `prev` pointers of
`free_t` that a free area keeps after it. `left` carries `FREE_BIT`. -/
structure Header where
  left : Nat
  size : Nat
  cookie : Nat
  next : Nat
  prev : Nat
deriving DecidableEq, Repr

/-- `struct heap` and the memory: `mem x` is the header at the address `x`. -/
structure Heap where
  size : Nat
  remaining : Nat
  cachedOsAlloc : Nat
  freeLists : Nat → Nat
  freeListBits : Nat → Nat
  mem : Nat → Header

/-- `tag_as_free(left)`. -/
def tag_as_free (left : Nat) : Nat := left ||| FREE_BIT

/-- `untag(left)`: `left` without `FREE_BIT`. -/
def untag (left : Nat) : Nat := left - left % 2

/-- `is_tagged_as_free(header)`. -/
def Heap.is_tagged_as_free (h : Heap) (header : Nat) : Bool := (h.mem header).left &&& FREE_BIT != 0

/-- `right_header(header)`: the area after it. -/
def Heap.right_header (h : Heap) (header : Nat) : Nat := header + (h.mem header).size

/-- `is_start_of_os_allocation(header)`: a left sentinel. -/
def Heap.is_start_of_os_allocation (h : Heap) (header : Nat) : Bool := untag (h.mem header).left == untag 0

/-- `is_end_of_os_allocation(address)`: a right sentinel. -/
def Heap.is_end_of_os_allocation (h : Heap) (address : Nat) : Bool := (h.mem address).size == 0

/-- The heap with the header at `x` replaced. -/
def Heap.setMem (h : Heap) (x : Nat) (hd : Header) : Heap := { h with mem := update h.mem x hd }

/-- `set_free_list_bit(index)`. -/
def Heap.set_free_list_bit (h : Heap) (index : Nat) : Heap :=
  let word := h.freeListBits (index >>> 5) ||| (1 <<< (31 - (index &&& 0x1f)))
  { h with freeListBits := update h.freeListBits (index >>> 5) word }

/-- `clear_free_list_bit(index)`. -/
def Heap.clear_free_list_bit (h : Heap) (index : Nat) : Heap :=
  let word := h.freeListBits (index >>> 5) &&& (2 ^ 32 - 1 - (1 <<< (31 - (index &&& 0x1f))))
  { h with freeListBits := update h.freeListBits (index >>> 5) word }

/-- `find_nonempty_bucket(index)`: the first non-empty bucket from `index`
on, by the bits of its own word and then of each later word; `none` for `-1`. -/
def Heap.find_nonempty_bucket (h : Heap) (index : Nat) : Option Nat :=
  let mask := (1 <<< (31 - (index &&& 0x1f))) - 1
  let mask := mask * 2 + 1
  let mask := mask &&& h.freeListBits (index >>> 5)
  if mask ≠ 0 then some (index - index % 32 + clz 32 mask)
  else
    -- the words from `ZX_ROUNDUP(index + 1, 32)` on
    (List.range' (ZX_ROUNDUP (index + 1) 32 / 32) (BUCKET_WORDS - ZX_ROUNDUP (index + 1) 32 / 32)).findSome?
      fun w => if h.freeListBits w ≠ 0 then some (w * 32 + clz 32 (h.freeListBits w)) else none

/-! ## Memory areas -/

/-- `create_free_area(address, left, size)`: a free area, pushed on the list
of its bucket. -/
def Heap.create_free_area (h : Heap) (address left size : Nat) : Option Heap := do
  let index ← size_to_index_freeing (sub64 size HEADER_SIZE)
  let h := h.setMem address { h.mem address with size := u32 size, cookie := 0, left := tag_as_free left }
  let h := h.set_free_list_bit index
  let old_head := h.freeLists index
  let h := if old_head ≠ 0 then h.setMem old_head { h.mem old_head with prev := address } else h
  let h := h.setMem address { h.mem address with next := old_head, prev := 0 }
  pure { h with freeLists := update h.freeLists index address, remaining := h.remaining + size }

/-- `unlink_free(free_area, bucket)`. -/
def Heap.unlink_free (h : Heap) (free_area bucket : Nat) : Option Heap := do
  guard (h.remaining ≥ (h.mem free_area).size)
  let h := { h with remaining := h.remaining - (h.mem free_area).size }
  let next := (h.mem free_area).next
  let prev := (h.mem free_area).prev
  let h :=
    if h.freeLists bucket = free_area then
      let h := { h with freeLists := update h.freeLists bucket next }
      if next = 0 then h.clear_free_list_bit bucket else h
    else h
  let h := if prev ≠ 0 then h.setMem prev { h.mem prev with next := next } else h
  pure (if next ≠ 0 then h.setMem next { h.mem next with prev := prev } else h)

/-- `unlink_free_unknown_bucket(free_area)`. -/
def Heap.unlink_free_unknown_bucket (h : Heap) (free_area : Nat) : Option Heap := do
  let bucket ← size_to_index_freeing (sub64 (h.mem free_area).size HEADER_SIZE)
  h.unlink_free free_area bucket

/-- `create_allocation_header(address, offset, size, left)`, with the payload
address it returns. -/
def Heap.create_allocation_header (h : Heap) (address offset size left : Nat) : Heap × Nat :=
  let standalone := address + offset
  (h.setMem standalone { h.mem standalone with left := untag left, size := u32 size, cookie := 0 },
    standalone + HEADER_SIZE)

/-- `FixLeftPointer(right, new_left)`: keeps the tag. -/
def Heap.FixLeftPointer (h : Heap) (right new_left : Nat) : Heap :=
  let tag := (h.mem right).left &&& 1
  h.setMem right { h.mem right with left := untag new_left ||| tag }

/-- `free_to_os(ptr, size)`. -/
def Heap.free_to_os (h : Heap) (ptr size : Nat) : Option Heap := do
  guard (ZX_IS_PAGE_ALIGNED ptr)
  guard (ZX_IS_PAGE_ALIGNED size)
  pure { h with size := h.size - size }

/-- `possibly_free_to_os(left_sentinel, total_size)`: keeps one whole OS
allocation as `cached_os_alloc`. -/
def Heap.possibly_free_to_os (h : Heap) (left_sentinel total_size : Nat) : Option Heap :=
  if h.cachedOsAlloc = 0 then
    some { h.setMem left_sentinel { h.mem left_sentinel with left := 0, size := u32 total_size, cookie := 0 } with
      cachedOsAlloc := left_sentinel }
  else h.free_to_os left_sentinel total_size

/-- `free_memory(address, left, size)`: a free area, or the whole OS
allocation back when the area is all of it. -/
def Heap.free_memory (h : Heap) (address left size : Nat) : Option Heap :=
  let left := untag left
  if ZX_IS_PAGE_ALIGNED left && h.is_start_of_os_allocation left && h.is_end_of_os_allocation (address + size) then do
    guard ((h.mem left).size = HEADER_SIZE)
    h.possibly_free_to_os left (size + 2 * HEADER_SIZE)
  else h.create_free_area address left size

/-- `add_to_heap(new_area, size)`: the sentinels and one free area between
them. -/
def Heap.add_to_heap (h : Heap) (new_area size : Nat) : Option Heap := do
  let top := new_area + size
  let h := (h.create_allocation_header new_area 0 HEADER_SIZE 0).1
  let new_header := new_area + HEADER_SIZE
  let free_size := size - 2 * HEADER_SIZE
  let h ← h.create_free_area new_header new_area free_size
  pure (h.create_allocation_header (top - HEADER_SIZE) 0 0 new_header).1

/-- `heap_grow(size)`: from the cached OS allocation if it is large enough,
else from `heap_page_alloc` (returning the cached one to the OS first). -/
def Heap.heap_grow (pageAlloc : Nat → Nat) (h : Heap) (size : Nat) : Option (Heap × Bool) := do
  guard (size ≤ HEAP_LARGE_ALLOC_BYTES)
  let size := ZX_ROUNDUP (size + kHeapGrowOverhead) ZX_PAGE_SIZE
  let os_alloc := h.cachedOsAlloc
  let (h, ptr, size) ←
    if os_alloc ≠ 0 then
      if (h.mem os_alloc).size ≥ size then do
        guard (ZX_IS_PAGE_ALIGNED os_alloc)
        guard (ZX_IS_PAGE_ALIGNED (h.mem os_alloc).size)
        pure ({ h with cachedOsAlloc := 0 }, os_alloc, (h.mem os_alloc).size)
      else do
        let h ← h.free_to_os os_alloc (h.mem os_alloc).size
        pure ({ h with cachedOsAlloc := 0 }, 0, size)
    else pure (h, 0, size)
  if ptr = 0 then
    let ptr := pageAlloc (size >>> ZX_PAGE_SHIFT)
    if ptr = 0 then pure (h, false)
    else do
      let h ← { h with size := h.size + size }.add_to_heap ptr size
      pure (h, true)
  else do
    let h ← h.add_to_heap ptr size
    pure (h, true)

end Zircon.Cmpct
