import Zircon.SortedIndex

/-!
# `RegionAllocator`

The region allocator of `system/ulib/region-alloc`: a set of available
regions of a 64-bit space, from which regions are handed out and to which they
are returned.

Each region is a `Region` object, allocated from the allocator's
`RegionPool`. The available regions sit in two WAVL trees at once, one keyed
by base and one by `(size, base)`; handed-out regions sit in a third, keyed by
base. The model names each object by its address and keeps the trees as the
in-order lists of those names (`SortedIndex`), with the objects' fields in
`obj`. A field written through a pointer is an update of `obj`, and every tree
holding that object then reads the new key, as the code relies on when it
moves a region's base inside the by-base tree.

The pool hands out at most `spare` more objects: `CreateRegion` returns
`nullptr` once it is spent, and `DestroyRegion` returns an object to it.
-/

namespace Zircon.RegionAlloc

open SortedIndex

/-- `ralloc_region_t`: `[base, base + size)`. -/
structure Region where
  base : Nat
  size : Nat
deriving DecidableEq, Repr

/-- The exclusive end of a region. -/
def Region.end (r : Region) : Nat := r.base + r.size

/-- `KeyTraitsSortBySize::LessThan`: by size, then by base. -/
def sizeLt (k₁ k₂ : Region) : Bool := k₁.size < k₂.size || (k₁.size == k₂.size && k₁.base < k₂.base)

/-- `RegionAllocator::AllowOverlap`. -/
inductive AllowOverlap where
  | no
  | yes
deriving DecidableEq, Repr

/-- `RegionAllocator::AllowIncomplete`. -/
inductive AllowIncomplete where
  | no
  | yes
deriving DecidableEq, Repr

/-- The errors the allocator returns; `ZX_OK` is a normal return. -/
inductive Error where
  | invalidArgs
  | notFound
  | noMemory
deriving DecidableEq, Repr

/-- `RegionAllocator` with its pool. -/
structure RegionAllocator where
  /-- The fields of the `Region` object at each address. -/
  obj : Nat → Region
  /-- `allocated_regions_by_base_`, in order. -/
  allocatedByBase : List Nat
  /-- `avail_regions_by_base_`, in order. -/
  availByBase : List Nat
  /-- `avail_regions_by_size_`, in order. -/
  availBySize : List Nat
  /-- The address the pool gives its next object. -/
  nextRegion : Nat
  /-- How many more objects the pool can hand out. -/
  spare : Nat

namespace RegionAllocator

/-- An allocator with no regions and a pool of `capacity` objects. -/
def create (capacity : Nat) : RegionAllocator := ⟨fun _ => ⟨0, 0⟩, [], [], [], 0, capacity⟩

/-- `CreateRegion()`, `none` being `nullptr`. -/
def CreateRegion (s : RegionAllocator) : Option (Nat × RegionAllocator) :=
  if s.spare = 0 then none
  else some (s.nextRegion, { s with nextRegion := s.nextRegion + 1, spare := s.spare - 1 })

/-- `DestroyRegion(region)`. -/
def DestroyRegion (s : RegionAllocator) (_region : Nat) : RegionAllocator :=
  { s with spare := s.spare + 1 }

/-- Write the fields of the object `r`. -/
def setObj (s : RegionAllocator) (r : Nat) (v : Region) : RegionAllocator :=
  { s with obj := fun i => if i = r then v else s.obj i }

/-- `avail_regions_by_base_.erase(r)`. -/
def eraseAvailBase (s : RegionAllocator) (r : Nat) : RegionAllocator :=
  { s with availByBase := s.availByBase.erase r }

/-- `avail_regions_by_size_.erase(r)`. -/
def eraseAvailSize (s : RegionAllocator) (r : Nat) : RegionAllocator :=
  { s with availBySize := s.availBySize.erase r }

/-- `avail_regions_by_base_.insert(r)`. -/
def insertAvailBase (s : RegionAllocator) (r : Nat) : RegionAllocator :=
  { s with availByBase := insertSorted (fun a b => decide (a < b)) (fun i => (s.obj i).base) r s.availByBase }

/-- `avail_regions_by_size_.insert(r)`. -/
def insertAvailSize (s : RegionAllocator) (r : Nat) : RegionAllocator :=
  { s with availBySize := insertSorted sizeLt s.obj r s.availBySize }

/-- `allocated_regions_by_base_.insert(r)`. -/
def insertAllocated (s : RegionAllocator) (r : Nat) : RegionAllocator :=
  { s with allocatedByBase := insertSorted (fun a b => decide (a < b)) (fun i => (s.obj i).base) r s.allocatedByBase }

/-- `upper_bound(k)` in a by-base tree, with the node before it: the regions
whose base is at most `k`, and the rest. -/
def splitAtBase (s : RegionAllocator) (tree : List Nat) (k : Nat) : List Nat × List Nat :=
  tree.span fun r => decide ((s.obj r).base ≤ k)

/-- `IntersectsLocked(tree, region)`: the first region whose base is not below
`region.base` starts before its end, or the one before that ends after its
base. -/
def IntersectsLocked (s : RegionAllocator) (tree : List Nat) (region : Region) : Bool :=
  let (below, rest) := tree.span fun r => decide ((s.obj r).base < region.base)
  (match rest.head? with
    | some r => decide ((s.obj r).base < region.base + region.size)
    | none => false) ||
  (match below.getLast? with
    | some r => decide (region.base < (s.obj r).end)
    | none => false)

/-- `ContainedByLocked(tree, region)`: the last region whose base is at most
`region.base` reaches its end. -/
def ContainedByLocked (s : RegionAllocator) (tree : List Nat) (region : Region) : Bool :=
  match (s.splitAtBase tree region.base).1.getLast? with
  | some r => decide ((s.obj r).end ≥ region.end)
  | none => false

/-- `AddSubtractSanityCheckLocked(region)`: no empty or wrapping region, and
none that meets an allocated one. -/
def AddSubtractSanityCheckLocked (s : RegionAllocator) (region : Region) : Except Error Unit :=
  if (region.base + region.size) % 2 ^ 64 ≤ region.base then .error .invalidArgs
  else if s.IntersectsLocked s.allocatedByBase region then .error .invalidArgs
  else .ok ()

/-- Whether `AddRegionToAvailLocked` merges a neighbour ending at `e` with a
region starting at `b`, or a region ending at `e` with a neighbour starting at
`b`: on contact, or also on overlap with `AllowOverlap::Yes`. -/
def merges (allowOverlap : AllowOverlap) (e b : Nat) : Bool :=
  match allowOverlap with
  | .yes => decide (e ≥ b)
  | .no => decide (e = b)

/-- The first step of `AddRegionToAvailLocked`: fold into `r` the region
`before` it when they `merge`. Returns the new `region_end`. -/
def mergeBefore (s : RegionAllocator) (r : Nat) (allowOverlap : AllowOverlap) :
    Option Nat → Nat × RegionAllocator
  | some b =>
    if merges allowOverlap (s.obj b).end (s.obj r).base then
      let regionEnd := max (s.obj r).end (s.obj b).end
      let s := s.setObj r { s.obj r with base := (s.obj b).base }
      (regionEnd, ((s.eraseAvailBase b).eraseAvailSize b).DestroyRegion b)
    else ((s.obj r).end, s)
  | none => ((s.obj r).end, s)

/-- The loop of `AddRegionToAvailLocked` over the regions after the new one:
fold each that `merges` into it, one at most without `AllowOverlap::Yes`.
Returns the new `region_end`. -/
def mergeAfter (allowOverlap : AllowOverlap) :
    List Nat → Nat → RegionAllocator → Nat × RegionAllocator
  | [], regionEnd, s => (regionEnd, s)
  | a :: rest, regionEnd, s =>
    if !merges allowOverlap regionEnd (s.obj a).base then (regionEnd, s)
    else
      let regionEnd := max regionEnd (s.obj a).end
      let s := ((s.eraseAvailBase a).eraseAvailSize a).DestroyRegion a
      match allowOverlap with
      | .yes => mergeAfter allowOverlap rest regionEnd s
      | .no => (regionEnd, s)

/-- The last step of `AddRegionToAvailLocked`: give `r` its merged size and
put it in both trees. -/
def insertAvail (s : RegionAllocator) (r regionEnd : Nat) : RegionAllocator :=
  let s := s.setObj r { s.obj r with size := regionEnd - (s.obj r).base }
  (s.insertAvailBase r).insertAvailSize r

/-- `AddRegionToAvailLocked(region, allow_overlap)`: the object `r`, in no tree,
joins the available regions, merged with the neighbours it meets. -/
def AddRegionToAvailLocked (s : RegionAllocator) (r : Nat) (allowOverlap : AllowOverlap) :
    RegionAllocator :=
  let (below, after) := s.splitAtBase s.availByBase (s.obj r).base
  let (regionEnd, s) := s.mergeBefore r allowOverlap below.getLast?
  let (regionEnd, s) := mergeAfter allowOverlap after regionEnd s
  s.insertAvail r regionEnd

/-- `AddRegion(region, allow_overlap)`. -/
def AddRegion (s : RegionAllocator) (region : Region) (allowOverlap : AllowOverlap) :
    RegionAllocator × Except Error Unit :=
  match s.AddSubtractSanityCheckLocked region with
  | .error e => (s, .error e)
  | .ok () =>
    if allowOverlap ≠ .yes ∧ s.IntersectsLocked s.availByBase region then (s, .error .invalidArgs)
    else
      match s.CreateRegion with
      | none => (s, .error .noMemory)
      | some (r, s) => ((s.setObj r region).AddRegionToAvailLocked r allowOverlap, .ok ())

/-- The four cases of `SubtractRegion` where the available region `b` holds
all of `region`. -/
def subtractContained (s : RegionAllocator) (b : Nat) (region : Region) :
    RegionAllocator × Except Error Unit :=
  let before := s.obj b
  -- Case 1: the regions are the same.
  if region.base = before.base ∧ region.end = before.end then
    (((s.eraseAvailBase b).eraseAvailSize b).DestroyRegion b, .ok ())
  -- Case 2: `before` is split in two.
  else if region.base ≠ before.base ∧ region.end ≠ before.end then
    match s.CreateRegion with
    | none => (s, .error .noMemory)
    | some (second, s) =>
      let s := s.eraseAvailSize b
      let s := s.setObj b { before with size := region.base - before.base }
      let s := s.setObj second ⟨region.end, before.end - region.end⟩
      (((s.insertAvailSize b).insertAvailBase second).insertAvailSize second, .ok ())
  -- Case 3: `region` trims the front of `before`.
  else if region.base = before.base then
    let s := (s.eraseAvailSize b).setObj b ⟨before.base + region.size, before.size - region.size⟩
    (s.insertAvailSize b, .ok ())
  -- Case 4: `region` trims the end of `before`.
  else
    let s := (s.eraseAvailSize b).setObj b { before with size := before.size - region.size }
    (s.insertAvailSize b, .ok ())

/-- The loop of `SubtractRegion` over the regions after `region.base`: consume
those inside `[region.base, regionEnd)` and trim the front of the one it ends
in. Where the source moves `region.base` on, only its debug assertions read
it. -/
def trimAfter (regionEnd : Nat) : List Nat → RegionAllocator → RegionAllocator
  | [], s => s
  | t :: rest, s =>
    -- Case 3: every remaining region starts after `regionEnd`.
    if (s.obj t).base ≥ regionEnd then s
    else
      let s := s.eraseAvailSize t
      let trimEnd := (s.obj t).end
      -- Case 2: trim the front of `t`, and stop.
      if trimEnd > regionEnd then (s.setObj t ⟨regionEnd, trimEnd - regionEnd⟩).insertAvailSize t
      -- Case 1: consume all of `t`, and stop when that reaches `regionEnd`.
      else
        let s := (s.eraseAvailBase t).DestroyRegion t
        if regionEnd - trimEnd = 0 then s else trimAfter regionEnd rest s

/-- The incomplete subtraction of `SubtractRegion`: trim the end of the region
before `region.base` when it reaches past it, then sweep the regions after. -/
def subtractIncomplete (s : RegionAllocator) (before : Option Nat) (after : List Nat)
    (region : Region) : RegionAllocator :=
  let s := match before with
    | some b =>
      if (s.obj b).end > region.base then
        let s := s.eraseAvailSize b
        if (s.obj b).base = region.base then (s.eraseAvailBase b).DestroyRegion b
        else (s.setObj b { s.obj b with size := region.base - (s.obj b).base }).insertAvailSize b
      else s
    | none => s
  trimAfter region.end after s

/-- `SubtractRegion(to_subtract, allow_incomplete)`. -/
def SubtractRegion (s : RegionAllocator) (region : Region) (allowIncomplete : AllowIncomplete) :
    RegionAllocator × Except Error Unit :=
  match s.AddSubtractSanityCheckLocked region with
  | .error e => (s, .error e)
  | .ok () =>
    let (below, after) := s.splitAtBase s.availByBase region.base
    let before := below.getLast?
    let contained := match before with
      | some b => decide (region.base ≥ (s.obj b).base ∧ region.end ≤ (s.obj b).end)
      | none => false
    match before, contained with
    | some b, true => s.subtractContained b region
    | _, _ =>
      match allowIncomplete with
      | .no => (s, .error .invalidArgs)
      | .yes => (s.subtractIncomplete before after region, .ok ())

/-- `AllocFromAvailLocked(source, out_region, base, size)`: hand out
`[base, base + size)` of the available region `source`, splitting off what is
left before and after it. Returns the handed-out object. -/
def AllocFromAvailLocked (s : RegionAllocator) (source base size : Nat) :
    RegionAllocator × Except Error Nat :=
  let src := s.obj source
  let overhead := base - src.base
  let leftover := src.size - size
  let splitBefore := base ≠ src.base
  let splitAfter := overhead < leftover
  if ¬ splitBefore ∧ ¬ splitAfter then
    (((s.eraseAvailSize source).eraseAvailBase source).insertAllocated source, .ok source)
  else if ¬ splitBefore then
    match s.CreateRegion with
    | none => (s, .error .noMemory)
    | some (beforeRegion, s) =>
      let s := (s.eraseAvailSize source).setObj beforeRegion ⟨src.base, size⟩
      let s := s.setObj source ⟨src.base + size, src.size - size⟩
      ((s.insertAvailSize source).insertAllocated beforeRegion, .ok beforeRegion)
  else if ¬ splitAfter then
    match s.CreateRegion with
    | none => (s, .error .noMemory)
    | some (afterRegion, s) =>
      let s := (s.eraseAvailSize source).setObj afterRegion ⟨base, size⟩
      let s := s.setObj source { src with size := src.size - size }
      ((s.insertAvailSize source).insertAllocated afterRegion, .ok afterRegion)
  else
    match s.CreateRegion with
    | none => (s, .error .noMemory)
    | some (region, s) =>
      match s.CreateRegion with
      | none => (s.DestroyRegion region, .error .noMemory)
      | some (afterRegion, s) =>
        let s := (s.eraseAvailSize source).setObj region ⟨src.base + overhead, size⟩
        let s := s.setObj afterRegion ⟨src.base + overhead + size, src.size - size - overhead⟩
        let s := s.setObj source { src with size := overhead }
        let s := ((s.insertAvailSize source).insertAvailSize afterRegion).insertAvailBase afterRegion
        (s.insertAllocated region, .ok region)

/-- The search of `GetRegion(size, alignment)` along the by-size index: the
first region whose aligned base neither wraps nor needs more than it has
left. -/
def findFit (s : RegionAllocator) (size mask : Nat) : List Nat → Option (Nat × Nat)
  | [] => none
  | r :: rest =>
    -- `(iter->base + mask) & inv_mask`, in 64 bits
    let alignedBase := ((s.obj r).base + mask) % 2 ^ 64 &&& (2 ^ 64 - 1 - mask)
    let overhead := alignedBase - (s.obj r).base
    let leftover := (s.obj r).size - size
    if alignedBase ≥ (s.obj r).base ∧ overhead ≤ leftover then some (r, alignedBase)
    else findFit s size mask rest

/-- `GetRegion(size, alignment, out_region)`. -/
def GetRegion (s : RegionAllocator) (size alignment : Nat) : RegionAllocator × Except Error Nat :=
  -- `!cpp20::has_single_bit(alignment)`
  if size = 0 ∨ alignment = 0 ∨ alignment &&& (alignment - 1) ≠ 0 then (s, .error .invalidArgs)
  else
    -- `lower_bound({.base = 0, .size = size})`
    let candidates := s.availBySize.dropWhile fun r => sizeLt (s.obj r) ⟨0, size⟩
    match s.findFit size (alignment - 1) candidates with
    | none => (s, .error .notFound)
    | some (r, alignedBase) => s.AllocFromAvailLocked r alignedBase size

/-- `GetRegion(requested_region, out_region)`. -/
def GetRegionAt (s : RegionAllocator) (requested : Region) : RegionAllocator × Except Error Nat :=
  let base := requested.base
  let size := requested.size
  if size = 0 ∨ (base + size) % 2 ^ 64 < base then (s, .error .invalidArgs)
  else
    match (s.splitAtBase s.availByBase base).1.getLast? with
    | none => (s, .error .notFound)
    | some r =>
      let reqEnd := base + size - 1
      let iterEnd := (s.obj r).base + (s.obj r).size - 1
      if reqEnd > iterEnd then (s, .error .notFound)
      else s.AllocFromAvailLocked r base size

/-- `ReleaseRegion(region)`, called when the last reference to a handed-out
region goes. -/
def ReleaseRegion (s : RegionAllocator) (r : Nat) : RegionAllocator :=
  ({ s with allocatedByBase := s.allocatedByBase.erase r }).AddRegionToAvailLocked r .no

/-- The loop of `Reset`: pop each available region and return it to the pool. -/
def resetLoop : List Nat → RegionAllocator → RegionAllocator
  | [], s => s
  | r :: rest, s => resetLoop rest (((s.eraseAvailBase r).eraseAvailSize r).DestroyRegion r)

/-- `Reset()`. -/
def Reset (s : RegionAllocator) : RegionAllocator := resetLoop s.availByBase s

end RegionAllocator

end Zircon.RegionAlloc
