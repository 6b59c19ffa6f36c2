import Mathlib
import Zircon.Bitmap.Raw

/-!
# `VirtualAlloc`

`VirtualAlloc` (`virtual_alloc.cc`) hands out runs of pages of a virtual range
`[base, base + size)`, one bit per page in a `RawBitmap` whose words sit in the
first pages of the range itself. No record of an allocation is kept: a run of
`n` pages is found as a run of `n + 2 * alloc_guard` clear bits, and only the
`n` inner bits are set, so that every two allocations stay `alloc_guard`
unused pages apart.

`Init` checks its arguments in `size_t`, and `alloc_guard * 2` wraps there: a
guard of `2 ^ 63` passes as no guard at all. `BitmapAllocRange` then searches
for runs of `num_pages` bits, adds the guard to the start it found and sets
bits past the end of the bitmap, which `Set` refuses. Nothing is recorded, and
the next `AllocPages` hands the same page out again.

Page mapping is an argument: `AllocMapPages` returns the status given. A
failed `ZX_ASSERT` and undefined behaviour (a shift by 64 or more) are `none`;
the `ZX_DEBUG_ASSERT`s are compiled out, as in release builds.
-/

namespace Zircon

open Zircon.Bitmap

/-- The fields of a `VirtualAlloc`. `storageSize` is `BitmapStorage::size_`,
the bytes of the pages that hold the bitmap. -/
structure VirtualAlloc where
  allocGuard : Nat
  allocBase : Nat
  nextSearchStart : Nat
  alignLog2 : Nat
  storageSize : Nat
  bitmap : RawBitmap

namespace VirtualAlloc

/-- `PAGE_SIZE_SHIFT`. -/
def PAGE_SIZE_SHIFT : Nat := 12

/-- `PAGE_SIZE`. -/
def PAGE_SIZE : Nat := 2 ^ PAGE_SIZE_SHIFT

/-- `kBitsPerPage`: the bits of one page of the bitmap. -/
def kBitsPerPage : Nat := PAGE_SIZE * 8

/-- `ZX_ROUNDUP(a, b)` in `size_t`. -/
def roundUp (a b : Nat) : Nat := (a + (b - 1)) % 2 ^ 64 / b * b

/-- The statuses `VirtualAlloc` returns. -/
inductive Status where
  | ok
  | badState
  | invalidArgs
  | noMemory
  | noResources
deriving DecidableEq, Repr

/-- A status of `RawBitmap`, as a `zx_status_t`. -/
def Status.ofBitmap : Bitmap.Status → Status
  | .ok => .ok
  | .invalidArgs => .invalidArgs
  | .noMemory => .noMemory
  | .noResources => .noResources

/-- A newly constructed `VirtualAlloc`. -/
def init : VirtualAlloc := ⟨0, 0, 0, 0, 0, RawBitmap.empty⟩

/-- `BitmapPages()`: the pages of the storage. Its `ZX_ASSERT(alloc_base_ != 0)`
holds at both calls, each made after `alloc_base_` has been checked. -/
def BitmapPages (va : VirtualAlloc) : Nat := va.storageSize / PAGE_SIZE

/-- `Init(base, size, alloc_guard, align_log2)`, with `mapped` the status of
`AllocMapPages` for the bitmap's pages. -/
def Init (va : VirtualAlloc) (base size alloc_guard align_log2 : Nat) (mapped : Status) :
    Option (VirtualAlloc × Status) :=
  if va.allocBase ≠ 0 then some (va, .badState)
  else if align_log2 < PAGE_SIZE_SHIFT then some (va, .invalidArgs)
  -- `1ul << align_log2_`
  else if 64 ≤ align_log2 then none
  else
    let va := { va with alignLog2 := align_log2 }
    let vaddr_align := 2 ^ align_log2
    if size = 0 ∨ size % vaddr_align ≠ 0 ∨ base % vaddr_align ≠ 0 ∨ 2 ^ 64 ≤ base + size then
      some (va, .invalidArgs)
    else
      let total_pages := size / PAGE_SIZE
      let bitmap_pages := roundUp total_pages kBitsPerPage / kBitsPerPage
      -- `bitmap_pages + alloc_guard * 2 >= total_pages`, in `size_t`
      if total_pages ≤ (bitmap_pages + alloc_guard * 2 % 2 ^ 64) % 2 ^ 64 then some (va, .invalidArgs)
      else if mapped ≠ .ok then some (va, mapped)
      else
        let storageSize := bitmap_pages * PAGE_SIZE
        -- `BitmapStorage::Allocate` succeeds when the words fit in the storage
        let fits := decide (8 * (LastIdx total_pages + 1) % 2 ^ 64 ≤ storageSize)
        let bitmap := (va.bitmap.Reset total_pages fits).1
        some ({ va with
          storageSize := storageSize
          allocBase := base
          bitmap := (bitmap.Set 0 bitmap_pages).1
          nextSearchStart := bitmap_pages
          allocGuard := alloc_guard }, .ok)

/-- `complete_alloc(start_index)` of `BitmapAllocRange`: past the guard, the
`num_pages` inner bits are set and the next search starts after them. -/
def completeAlloc (va : VirtualAlloc) (num_pages start_index : Nat) : VirtualAlloc × Except Status Nat :=
  let start_index := (start_index + va.allocGuard) % 2 ^ 64
  let va := { va with nextSearchStart := (start_index + num_pages) % 2 ^ 64 }
  ({ va with bitmap := (va.bitmap.Set start_index ((start_index + num_pages) % 2 ^ 64)).1 }, .ok start_index)

/-- The aligned candidate of one round of `BitmapAllocRange`'s loop: rounded
up from `current_start` to the alignment, less the guard. -/
def alignedCandidate (alloc_guard align_pages current_start : Nat) : Nat :=
  let candidate := roundUp current_start align_pages
  let candidate :=
    if (candidate + 2 ^ 64 - current_start) % 2 ^ 64 < alloc_guard then
      (candidate + roundUp alloc_guard align_pages) % 2 ^ 64
    else candidate
  (candidate + 2 ^ 64 - alloc_guard) % 2 ^ 64

/-- The aligned loop of `BitmapAllocRange` from `current_start`: `some (some
candidate)` where it finds a clear run at `candidate`, `some none` where it
breaks. The bitmap does not change in the loop, so each round is a function
of `current_start`, which after the first round lies below `end`: `end + 1`
rounds without an exit repeat a start, and the loop never exits (`none`). -/
def alignedLoop (b : RawBitmap) (alloc_guard align_pages find_pages end_ : Nat) :
    Nat → Nat → Option (Option Nat)
  | 0, _ => none
  | fuel + 1, current_start =>
    let candidate := alignedCandidate alloc_guard align_pages current_start
    if end_ < (candidate + find_pages) % 2 ^ 64 then some none
    else
      match b.Scan candidate ((candidate + find_pages) % 2 ^ 64) false with
      | none => some (some candidate)
      | some set_bit =>
        match b.Scan set_bit end_ true with
        | none => some none
        | some next_start => alignedLoop b alloc_guard align_pages find_pages end_ fuel next_start

/-- `BitmapAllocRange(num_pages, start, end)`. -/
def BitmapAllocRange (va : VirtualAlloc) (num_pages start end_ : Nat) :
    Option (VirtualAlloc × Except Status Nat) := do
  let align_pages := 2 ^ (va.alignLog2 - PAGE_SIZE_SHIFT) % 2 ^ 64
  let find_pages := (num_pages + va.allocGuard * 2 % 2 ^ 64) % 2 ^ 64
  let aligned ←
    if num_pages ≥ align_pages ∧ align_pages > 1 then
      alignedLoop va.bitmap va.allocGuard align_pages find_pages end_ (end_ + 1) start
    else pure none
  match aligned with
  | some candidate => pure (va.completeAlloc num_pages candidate)
  | none =>
    match ← va.bitmap.Find false start end_ find_pages with
    | (.ok, some alloc_start) => pure (va.completeAlloc num_pages alloc_start)
    | (status, _) => pure (va, .error (Status.ofBitmap status))

/-- `BitmapAlloc(num_pages)`: from the search hint, then again from the first
page past the bitmap. -/
def BitmapAlloc (va : VirtualAlloc) (num_pages : Nat) : Option (VirtualAlloc × Except Status Nat) := do
  let (va, result) ← va.BitmapAllocRange num_pages va.nextSearchStart va.bitmap.size
  match result with
  | .error _ => va.BitmapAllocRange num_pages va.BitmapPages va.bitmap.size
  | .ok start => pure (va, .ok start)

/-- `BitmapFree(start, num_pages)`: the bits are cleared, and a hint past
`start` moves back to it, and further back over up to `alloc_guard` clear
bits. -/
def BitmapFree (va : VirtualAlloc) (start num_pages : Nat) : Option VirtualAlloc :=
  if start < va.BitmapPages then none
  else
    let va := { va with bitmap := (va.bitmap.Clear start ((start + num_pages) % 2 ^ 64)).1 }
    if start < va.nextSearchStart then
      let va := { va with nextSearchStart := start }
      if va.allocGuard ≤ start then
        match va.bitmap.ReverseScan (start - va.allocGuard) start false with
        | none => some { va with nextSearchStart := start - va.allocGuard }
        | some candidate => some { va with nextSearchStart := (candidate + 1) % 2 ^ 64 }
      else some va
    else some va

/-- `AllocPages(pages)`, with `mapped` the status of `AllocMapPages` for the
pages found. -/
def AllocPages (va : VirtualAlloc) (pages : Nat) (mapped : Status) :
    Option (VirtualAlloc × Except Status Nat) :=
  if va.allocBase = 0 then some (va, .error .badState)
  else if pages = 0 then some (va, .error .invalidArgs)
  else do
    let (va, result) ← va.BitmapAlloc pages
    match result with
    | .error e => pure (va, .error e)
    | .ok start =>
      let vstart := (va.allocBase + start * PAGE_SIZE) % 2 ^ 64
      if mapped = .ok then pure (va, .ok vstart)
      else
        -- the range goes back to the bitmap
        let va ← va.BitmapFree start pages
        pure (va, .error mapped)

/-- `FreePages(vaddr, pages)`. -/
def FreePages (va : VirtualAlloc) (vaddr pages : Nat) : Option VirtualAlloc :=
  if va.allocBase = 0 ∨ pages = 0 then none
  else va.BitmapFree ((vaddr + 2 ^ 64 - va.allocBase) % 2 ^ 64 / PAGE_SIZE) pages

/-! ## A guard that wraps -/

/-- `Init` over two pages with a guard of `2 ^ 63`: `alloc_guard * 2` wraps to
`0`, so the check passes with one page for the bitmap and one to hand out.
`AllocPages(1)` finds page `1` clear, reports it as page `1 + 2 ^ 63`, which
`Set` refuses, and returns `base + PAGE_SIZE`: inside the guard of the bitmap.
The bit stays clear, and a second `AllocPages(1)` returns the same page while
the first allocation is live. -/
theorem allocPages_wrapped_guard_reuses_page :
    (init.Init 0x100000 0x2000 (2 ^ 63) 12 .ok).map (fun r => (r.1.BitmapPages, r.2)) = some (1, .ok) ∧
      ((init.Init 0x100000 0x2000 (2 ^ 63) 12 .ok).bind fun r => r.1.AllocPages 1 .ok).map Prod.snd =
        some (.ok 0x101000) ∧
      (((init.Init 0x100000 0x2000 (2 ^ 63) 12 .ok).bind fun r => r.1.AllocPages 1 .ok).bind
        fun r => r.1.AllocPages 1 .ok).map Prod.snd = some (.ok 0x101000) := by
  refine ⟨by decide +kernel, by decide +kernel, by decide +kernel⟩

end VirtualAlloc

end Zircon
