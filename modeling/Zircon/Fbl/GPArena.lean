import Mathlib

/-!
# `fbl::GPArena`: a growable arena of fixed-size objects

`GPArena<PersistSize, ObjectSize>` (`gparena.h`) reserves `max_count`
objects of address space at `Init`, and commits it four pages at a time as
`Alloc` bumps `top_` past `committed_`. A freed object goes on a free list,
whose link is stored past its first `PersistSize` bytes, and `Alloc` takes
from that list first.

Every call here runs alone, as on one CPU: the compare-and-swap loops of
`Alloc` and of the free list then succeed at their first try. The VM calls
that `Init` and `Grow` make are parameters, each of which may fail.
-/

namespace Zircon.Fbl

/-- `PAGE_SIZE`. -/
def PAGE_SIZE : Nat := 4096

/-- `ROUNDUP(a, b)` of `align.h` in `size_t`, for a power of two `b`. -/
def ROUNDUP (a b : Nat) : Nat := (a + (b - 1)) % 2 ^ 64 &&& (2 ^ 64 - 1 - (b - 1))

/-- `sizeof(FreeNode)`: `PersistSize` bytes, padded to the alignment of the
`next` pointer after them. -/
def sizeofFreeNode (PersistSize : Nat) : Nat := (PersistSize + 7) / 8 * 8 + 8

/-- An instantiation `GPArena<PersistSize, ObjectSize>` that its
`static_assert`s accept. -/
structure Shape where
  PersistSize : Nat
  ObjectSize : Nat
  /-- "Not enough free space in object" -/
  fits : sizeofFreeNode PersistSize ≤ ObjectSize
  /-- "ObjectSize must be common alignment multiple" -/
  aligned : ObjectSize % 8 = 0

/-- The statuses `Init` returns. -/
inductive Status where
  | ok
  | errInvalidArgs
  | errBadState
  | errNoMemory
deriving DecidableEq, Repr

/-- The VM calls of `Init` and `Grow`. -/
structure Vm where
  /-- `VmObjectPaged::Create`, `CreateSubVmar` and `CreateVmMapping` for
  `mem_sz` bytes: the base of the mapping, or the status `Init` returns. -/
  createMapping : Nat → Except Status Nat
  /-- `vmo_->CommitRangePinned(offset, len, true)` returns `ZX_OK`. -/
  commitRangePinned : Nat → Nat → Bool
  /-- `mapping_->MapRange(offset, len, true)` returns `ZX_OK`. -/
  mapRange : Nat → Nat → Bool

/-- The fields of a `GPArena`. `initialized` is `vmar_ != nullptr`, and
`freeList` lists the free list from its head. -/
structure GPArena where
  initialized : Bool
  start : Nat
  top : Nat
  committed : Nat
  «end» : Nat
  freeList : List Nat
  count : Nat
deriving DecidableEq, Repr

namespace GPArena

variable (vm : Vm) (shape : Shape)

/-- `GPArena() = default`. -/
def empty : GPArena := ⟨false, 0, 0, 0, 0, [], 0⟩

/-- `Init(name, max_count)`. -/
def Init (a : GPArena) (max_count : Nat) : GPArena × Status :=
  if max_count = 0 then (a, .errInvalidArgs)
  else if a.initialized then (a, .errBadState)
  else
    let mem_sz := ROUNDUP ((max_count * shape.ObjectSize) % 2 ^ 64) PAGE_SIZE
    match vm.createMapping mem_sz with
    | .error status => (a, status)
    | .ok base =>
      let a := { a with initialized := true, start := base, top := base, committed := base }
      ({ a with «end» := base + mem_sz }, .ok)

/-- `Grow(next_top)`: commit and map up to four more pages, clipped to
`end_`; `false` when nothing is left to commit or a VM call fails. -/
def Grow (a : GPArena) (next_top : Nat) : GPArena × Bool :=
  let committed := a.committed
  if next_top > committed then
    let nc := min (committed + 4 * PAGE_SIZE) a.end
    if nc = committed then (a, false)
    else
      let offset := committed - a.start
      let len := nc - committed
      if !vm.commitRangePinned offset len then (a, false)
      else if !vm.mapRange offset len then (a, false)
      else ({ a with committed := nc }, true)
  else (a, true)

/-- `Alloc()`: the head of the free list, else the object at `top_`, growing
the committed range when the object ends past it; `0` is `nullptr`. -/
def Alloc (a : GPArena) : GPArena × Nat :=
  match a.freeList with
  | node :: rest => ({ a with freeList := rest, count := a.count + 1 }, node)
  | [] =>
    let top := a.top
    let next_top := top + shape.ObjectSize
    let (a, grown) := if next_top > a.committed then a.Grow vm next_top else (a, true)
    if !grown then (a, 0)
    else ({ a with top := next_top, count := a.count + 1 }, top)

/-- `Free(node)`. -/
def Free (a : GPArena) (node : Nat) : GPArena :=
  { a with freeList := node :: a.freeList, count := a.count - 1 }

/-- `Committed(node)`. -/
def Committed (a : GPArena) (node : Nat) : Bool := a.start ≤ node && node < a.top

end GPArena

/-- A VM that maps the arena at `0x100000` and commits every range. -/
def mapsAt1M : Vm := ⟨fun _ => .ok 0x100000, fun _ _ => true, fun _ _ => true⟩

/-- `GPArena<8, 0x5000>`: five pages an object, which the `static_assert`s
allow. -/
def fivePageObjects : Shape := ⟨8, 0x5000, by decide, by decide⟩

/-- `Grow` commits four pages and reports success without checking that they
reach `next_top`: the first object of a five-page arena is handed out with
its last page not committed. -/
theorem alloc_past_committed :
    ∃ a₁ a₂ p, (GPArena.empty.Init mapsAt1M fivePageObjects 1) = (a₁, .ok) ∧
      a₁.Alloc mapsAt1M fivePageObjects = (a₂, p) ∧ p ≠ 0 ∧ a₂.Committed p = true ∧
      a₂.committed < p + fivePageObjects.ObjectSize :=
  ⟨⟨true, 0x100000, 0x100000, 0x100000, 0x105000, [], 0⟩,
    ⟨true, 0x100000, 0x105000, 0x104000, 0x105000, [], 1⟩, 0x100000,
    by decide, by decide, by decide, by decide, by decide⟩

end Zircon.Fbl
