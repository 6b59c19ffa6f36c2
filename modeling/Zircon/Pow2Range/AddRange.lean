import Zircon.Loop

/-!
# `Pow2RangeAllocator::AddRange`

`Pow2RangeAllocator` hands out power-of-two aligned blocks of `uint32_t` ids
from the ranges added to it. `Init(max_alloc_size)` fixes the number of
buckets, one per block size up to `max_alloc_size`. `AddRange` checks the new
range and then carves it into power-of-two aligned chunks, left to right: a
chunk starts at the largest size, `csize`, is halved until it is aligned with
the range's start and fits in what is left (`shrunk`), and otherwise is
doubled while the double is within `max_alloc_size`, fits and is aligned.

All of it is `uint32_t` arithmetic. With `max_alloc_size = 2 ^ 31`, which
`Init` accepts, doubling a chunk of `2 ^ 31` gives `0`; `0` is at most
everything and `start & (0 - 1)` is `start`, so at a start of `0` the
doubling loop never exits.

The model covers `Init` and `AddRange` up to the hand-off of the carved
blocks to `ReturnFreeBlock`, in a release build (`DEBUG_ASSERT`s compiled
out), with every bookkeeping allocation succeeding. A loop that may not exit
is run with fuel, and a result of `none` means that the fuel ran out.
-/

namespace Zircon.Pow2Range

/-- `Pow2RangeAllocator::Block`: a free block of `1 << bucket` ids. -/
structure Block where
  bucket : UInt32
  start : UInt32
deriving DecidableEq, Repr

/-- `Pow2RangeAllocator::Range`: a range added to the allocator. -/
structure Range where
  start : UInt32
  len : UInt32
deriving DecidableEq, Repr

/-- The statuses of `Init` and `AddRange`. -/
inductive Status where
  | ok
  | invalidArgs
  | alreadyExists
deriving DecidableEq, Repr

/-- The part of a `Pow2RangeAllocator` that `AddRange` reads and writes: the
ranges added so far and the number of buckets. -/
structure Pow2RangeAllocator where
  ranges : List Range
  bucketCount : UInt32
deriving DecidableEq, Repr

/-- `ispow2(val)`: zero, or a single bit set. -/
def ispow2 (val : UInt32) : Bool := val == 0 || val.toNat == 2 ^ val.toNat.log2

/-- `log2_uint_floor(val)`. -/
def log2_uint_floor (val : UInt32) : UInt32 := val.toNat.log2.toUInt32

/-- `Init(max_alloc_size)` on a fresh allocator. -/
def Init (maxAllocSize : UInt32) : Pow2RangeAllocator × Status :=
  if maxAllocSize == 0 || !ispow2 maxAllocSize then (⟨[], 0⟩, .invalidArgs)
  else (⟨[], log2_uint_floor maxAllocSize + 1⟩, .ok)

/-- The overlap test of `AddRange` between the new range and `range`. -/
def overlaps (rangeStart rangeLen : UInt32) (range : Range) : Bool :=
  (range.start ≥ rangeStart && range.start < rangeStart + rangeLen) ||
    (rangeStart ≥ range.start && rangeStart < range.start + range.len)

/-! ## The carving loop -/

/-- The variables of the carving loop of `AddRange`. -/
structure Carve where
  rangeStart : UInt32
  rangeLen : UInt32
  bucket : UInt32
  csize : UInt32
  newBlocks : List Block
deriving DecidableEq, Repr

/-- The guard of the shrinking loop: the chunk is not aligned with the start
or does not fit. -/
def shrinkGuard (c : Carve) : Bool := (c.rangeStart &&& (c.csize - 1)) != 0 || c.rangeLen < c.csize

/-- `csize >>= 1; bucket--;` -/
def shrinkBody (c : Carve) : Carve := { c with csize := c.csize >>> 1, bucket := c.bucket - 1 }

/-- The variables of the growing loop: `bucket`, `csize` and `tmp`. -/
structure Grow where
  bucket : UInt32
  csize : UInt32
  tmp : UInt32
deriving DecidableEq, Repr

/-- The guard of the growing loop: the doubled chunk is within
`max_alloc_size`, fits and is aligned with the start. -/
def growGuard (maxCsize rangeLen rangeStart : UInt32) (g : Grow) : Bool :=
  g.tmp ≤ maxCsize && g.tmp ≤ rangeLen && (rangeStart &&& (g.tmp - 1)) == 0

/-- `bucket++; csize = tmp; tmp <<= 1;` -/
def growBody (g : Grow) : Grow := ⟨g.bucket + 1, g.tmp, g.tmp <<< 1⟩

/-- One pass of `while (range_len)`: size a chunk, then break it off. -/
def carvePass (fuel : Nat) (maxCsize : UInt32) (c : Carve) : Option Carve :=
  match Loop.run shrinkGuard shrinkBody fuel c with
  | none => none
  | some c' =>
    -- a chunk that did not need shrinking (`!shrunk`) may grow instead
    let sized : Option Carve :=
      if shrinkGuard c then some c'
      else
        (Loop.run (growGuard maxCsize c'.rangeLen c'.rangeStart) growBody fuel
          ⟨c'.bucket, c'.csize, c'.csize <<< 1⟩).map fun g => { c' with bucket := g.bucket, csize := g.csize }
    sized.map fun c => { c with
      newBlocks := c.newBlocks ++ [⟨c.bucket, c.rangeStart⟩]
      rangeStart := c.rangeStart + c.csize
      rangeLen := c.rangeLen - c.csize }

/-- `while (range_len) { ... }`, with the same fuel for the loops inside. -/
def carveLoop (maxCsize : UInt32) : Nat → Carve → Option Carve
  | 0, _ => none
  | fuel + 1, c =>
    if c.rangeLen = 0 then some c
    else
      match carvePass fuel maxCsize c with
      | none => none
      | some c => carveLoop maxCsize fuel c

/-- `AddRange(range_start, range_len)`: the allocator and status, with the
blocks carved for `ReturnFreeBlock`. -/
def AddRange (a : Pow2RangeAllocator) (fuel : Nat) (rangeStart rangeLen : UInt32) :
    Option (Pow2RangeAllocator × Status × List Block) :=
  if rangeLen == 0 || rangeStart + rangeLen < rangeStart then some (a, .invalidArgs, [])
  else if a.ranges.any (overlaps rangeStart rangeLen) then some (a, .alreadyExists, [])
  else
    let bucket := a.bucketCount - 1
    let csize : UInt32 := 1 <<< bucket
    match carveLoop csize fuel ⟨rangeStart, rangeLen, bucket, csize, []⟩ with
    | none => none
    | some c => some ({ a with ranges := a.ranges ++ [⟨rangeStart, rangeLen⟩] }, .ok, c.newBlocks)

/-! ## A chunk of `2 ^ 31` at `0` -/

/-- Once `tmp` has wrapped to `0`, at a start of `0` the growing loop never
exits: `0` passes every test and doubles to `0`. -/
theorem growLoop_eq_none {maxCsize rangeLen : UInt32} (fuel : Nat) (g : Grow) (htmp : g.tmp = 0) :
    Loop.run (growGuard maxCsize rangeLen 0) growBody fuel g = none :=
  Loop.run_eq_none_of_invariant (fun g => g.tmp = 0)
    (fun g h => by simp [growGuard, h]) (fun g h => by simp [growBody, h]) fuel g htmp

/-- With `max_alloc_size = 2 ^ 31`, a range at `0` of at least `2 ^ 31` ids
starts with a chunk of `2 ^ 31` that needs no shrinking, so it tries to grow
it, and the carving loop never exits. -/
theorem carveLoop_eq_none {rangeLen : UInt32} (hlen : 2 ^ 31 ≤ rangeLen) (fuel : Nat) :
    carveLoop (2 ^ 31) fuel ⟨0, rangeLen, 31, 2 ^ 31, []⟩ = none := by
  cases fuel with
  | zero => rfl
  | succ fuel =>
    have hne : rangeLen ≠ 0 := by
      intro h
      rw [h] at hlen
      exact absurd hlen (by decide)
    have hshrink : shrinkGuard ⟨0, rangeLen, 31, 2 ^ 31, []⟩ = false := by
      simp only [shrinkGuard, UInt32.zero_and, bne_self_eq_false, Bool.false_or, decide_eq_false_iff_not,
        UInt32.not_lt]
      exact hlen
    -- the shrinking loop exits at once; the growing loop starts from `tmp = 2 ^ 31 << 1 = 0`
    have hpass : carvePass fuel (2 ^ 31) ⟨0, rangeLen, 31, 2 ^ 31, []⟩ = none := by
      cases fuel with
      | zero => rfl
      | succ fuel =>
        rw [carvePass, Loop.run_succ_of_not_guard hshrink]
        dsimp only
        rw [if_neg (by rw [hshrink]; decide), growLoop_eq_none _ _ (by decide), Option.map_none,
          Option.map_none]
    rw [carveLoop, if_neg hne, hpass]

/-- `Init(2 ^ 31)` succeeds with 32 buckets, and `AddRange(0, 2 ^ 31)` then
passes its checks and never returns. -/
theorem addRange_loops_at_2_pow_31 :
    Init (2 ^ 31) = (⟨[], 32⟩, .ok) ∧ ∀ fuel, AddRange ⟨[], 32⟩ fuel 0 (2 ^ 31) = none := by
  refine ⟨by decide, fun fuel => ?_⟩
  have h : carveLoop (2 ^ 31) fuel ⟨0, 2 ^ 31, 31, 2 ^ 31, []⟩ = none := carveLoop_eq_none (UInt32.le_refl _) fuel
  rw [AddRange, if_neg (by decide), if_neg (by decide)]
  dsimp only
  rw [show (32 : UInt32) - 1 = 31 from rfl, show (1 : UInt32) <<< 31 = 2 ^ 31 from rfl, h]

end Zircon.Pow2Range
