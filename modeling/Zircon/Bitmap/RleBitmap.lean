import Mathlib

/-!
# `RleBitmap`

The run-length encoded bitmap of `system/ulib/bitmap`: a doubly linked list of
runs of 1-bits, each an `Element` with a start `bitoff` and a length `bitlen`,
in ascending order of `bitoff`, with the number of runs and the number of set
bits kept beside it. The model keeps the list as a `List Element`; `T` is
`size_t`, so the counters are `size_t`s and `num_bits_` is updated in
wrapping arithmetic, modulo `2 ^ 64`.

An element comes from a caller's free list when there is one, and from `new`
otherwise. A free list is `Option (List Element)`, `none` being `nullptr`;
whether `new` succeeds is an argument `newOk` of the calls that may use it.
-/

namespace Zircon.Bitmap

/-- `RleBitmapBase<T>::Element`: a run of 1-bits. -/
structure Element where
  bitoff : Nat
  bitlen : Nat
deriving DecidableEq, Repr

/-- `Element::end()`: the exclusive end of the run. -/
def Element.end (e : Element) : Nat := e.bitoff + e.bitlen

/-- The statuses the bitmap returns. -/
inductive Status where
  | ok
  | invalidArgs
  | noMemory
  | noResources
deriving DecidableEq, Repr

/-- A `size_t` result of integer arithmetic: its value modulo `2 ^ 64`. -/
def wrap (x : Int) : Nat := (x % 2 ^ 64).toNat

/-- `RleBitmapBase<size_t>`. -/
structure RleBitmap where
  /-- `elems_`, in list order. -/
  elems : List Element
  /-- `num_elems_`. -/
  numElems : Nat
  /-- `num_bits_`. -/
  numBits : Nat
deriving DecidableEq, Repr

/-- A caller's free list, or `nullptr`. -/
abbrev FreeList := Option (List Element)

namespace RleBitmap

/-- `constexpr RleBitmapBase()`. -/
def empty : RleBitmap := ⟨[], 0, 0⟩

/-- `AllocateElement(free_list)`: the front of the free list, or a new element
when there is no free list. `none` is a null pointer; otherwise the free list
that is left. -/
def AllocateElement (freeList : FreeList) (newOk : Bool) : Option FreeList :=
  match freeList with
  | some (_ :: rest) => some (some rest)
  | some [] => none
  | none => if newOk then some none else none

/-- `ReleaseElement(free_list, elem)`: append the element to the free list, or
delete it when there is none. -/
def ReleaseElement (freeList : FreeList) (elem : Element) : FreeList :=
  freeList.map (· ++ [elem])

/-- The loop of `SetInternal` that walks forwards from the new element `elem`,
which ends at `max`, and folds into it every element starting at or before
`max`. Returns the merged element, the elements after it, `num_bits_`,
`num_elems_` and the free list. -/
def mergeLoop (freeList : FreeList) (elem : Element) (max numBits numElems : Nat) :
    List Element → Element × List Element × Nat × Nat × FreeList
  | [] => (elem, [], numBits, numElems, freeList)
  | itr :: rest =>
    if itr.bitoff > max then (elem, itr :: rest, numBits, numElems, freeList)
    else
      let max := Max.max max itr.end
      let numBits := wrap (numBits + ((max : Int) - elem.bitoff - itr.bitlen - elem.bitlen))
      let elem := { elem with bitlen := max - elem.bitoff }
      mergeLoop (ReleaseElement freeList itr) elem max numBits (numElems - 1) rest

/-- `SetInternal(bitoff, bitmax, free_list)`. -/
def SetInternal (b : RleBitmap) (bitoff bitmax : Nat) (freeList : FreeList) (newOk : Bool) :
    RleBitmap × FreeList × Status :=
  if bitmax < bitoff then (b, freeList, .invalidArgs)
  else
    let bitlen := bitmax - bitoff
    if bitlen = 0 then (b, freeList, .ok)
    else
      match AllocateElement freeList newOk with
      | none => (b, freeList, .noMemory)
      | some freeList =>
        let numElems := b.numElems + 1
        let newElem : Element := ⟨bitoff, bitlen⟩
        -- `find_if`: the first element that ends at or after `bitoff`
        let (before, endsAfter) := b.elems.span fun e => !decide (e.bitoff + e.bitlen ≥ bitoff)
        let numBits := wrap (b.numBits + bitlen)
        match endsAfter with
        | [] => (⟨before ++ [newElem], numElems, numBits⟩, freeList, .ok)
        | itr :: rest =>
          -- a range starting in or after `*itr` is moved back to its start
          let (elem, numBits) :=
            if newElem.bitoff ≥ itr.bitoff then
              (({ bitoff := itr.bitoff, bitlen := newElem.bitlen + (newElem.bitoff - itr.bitoff) } :
                Element), wrap (numBits + (newElem.bitoff - itr.bitoff)))
            else (newElem, numBits)
          let (elem, rest, numBits, numElems, freeList) :=
            mergeLoop freeList elem (elem.bitoff + elem.bitlen) numBits numElems (itr :: rest)
          (⟨before ++ elem :: rest, numElems, numBits⟩, freeList, .ok)

/-- The loop of `ClearInternal` from `itr` to the end of the list. Returns the
list from `itr` on, `num_bits_`, `num_elems_`, the free list and the status. -/
def clearLoop (bitoff bitmax : Nat) (newOk : Bool) :
    List Element → Nat → Nat → FreeList → List Element × Nat × Nat × FreeList × Status
  | [], numBits, numElems, freeList => ([], numBits, numElems, freeList, .ok)
  | itr :: rest, numBits, numElems, freeList =>
    if itr.bitoff + itr.bitlen < bitoff then
      let r := clearLoop bitoff bitmax newOk rest numBits numElems freeList
      (itr :: r.1, r.2)
    else if bitmax < itr.bitoff then (itr :: rest, numBits, numElems, freeList, .ok)
    else if itr.bitoff < bitoff then
      if itr.bitoff + itr.bitlen ≤ bitmax then
        -- `*itr` contains `bitoff`
        let numBits := wrap (numBits - ((itr.bitlen - (bitoff - itr.bitoff) : Nat) : Int))
        let r := clearLoop bitoff bitmax newOk rest numBits numElems freeList
        (⟨itr.bitoff, bitoff - itr.bitoff⟩ :: r.1, r.2)
      else
        -- `*itr` contains `[bitoff, bitmax)`, and is split
        match AllocateElement freeList newOk with
        | none => (itr :: rest, numBits, numElems, freeList, .noMemory)
        | some freeList =>
          (⟨itr.bitoff, bitoff - itr.bitoff⟩ :: ⟨bitmax, itr.bitoff + itr.bitlen - bitmax⟩ :: rest,
            wrap (numBits - ((bitmax - bitoff : Nat) : Int)), numElems + 1, freeList, .ok)
    else if bitmax < itr.bitoff + itr.bitlen then
      -- `*itr` contains `bitmax`
      (⟨bitmax, itr.bitoff + itr.bitlen - bitmax⟩ :: rest,
        wrap (numBits - ((bitmax - itr.bitoff : Nat) : Int)), numElems, freeList, .ok)
    else
      -- `[bitoff, bitmax)` contains `*itr`
      clearLoop bitoff bitmax newOk rest (wrap (numBits - (itr.bitlen : Int))) (numElems - 1)
        (ReleaseElement freeList itr)

/-- `ClearInternal(bitoff, bitmax, free_list)`. -/
def ClearInternal (b : RleBitmap) (bitoff bitmax : Nat) (freeList : FreeList) (newOk : Bool) :
    RleBitmap × FreeList × Status :=
  if bitmax < bitoff then (b, freeList, .invalidArgs)
  else if bitmax - bitoff = 0 then (b, freeList, .ok)
  else
    let (elems, numBits, numElems, freeList, status) :=
      clearLoop bitoff bitmax newOk b.elems b.numBits b.numElems freeList
    (⟨elems, numElems, numBits⟩, freeList, status)

/-- `Set(bitoff, bitmax)`. -/
def Set (b : RleBitmap) (bitoff bitmax : Nat) (newOk : Bool) : RleBitmap × Status :=
  let r := b.SetInternal bitoff bitmax none newOk
  (r.1, r.2.2)

/-- `SetNoAlloc(bitoff, bitmax, free_list)`. -/
def SetNoAlloc (b : RleBitmap) (bitoff bitmax : Nat) (freeList : FreeList) :
    RleBitmap × FreeList × Status :=
  match freeList with
  | none => (b, none, .invalidArgs)
  | some l => b.SetInternal bitoff bitmax (some l) false

/-- `Clear(bitoff, bitmax)`. -/
def Clear (b : RleBitmap) (bitoff bitmax : Nat) (newOk : Bool) : RleBitmap × Status :=
  let r := b.ClearInternal bitoff bitmax none newOk
  (r.1, r.2.2)

/-- `ClearNoAlloc(bitoff, bitmax, free_list)`. -/
def ClearNoAlloc (b : RleBitmap) (bitoff bitmax : Nat) (freeList : FreeList) :
    RleBitmap × FreeList × Status :=
  match freeList with
  | none => (b, none, .invalidArgs)
  | some l => b.ClearInternal bitoff bitmax (some l) false

/-- `ClearAll()`. -/
def ClearAll (_b : RleBitmap) : RleBitmap := ⟨[], 0, 0⟩

/-- The loop of `Find` over the elements, with `bitoff` the next bit to look
at. Returns the status and `*out`. -/
def findLoop (isSet : Bool) (bitmax runLen : Nat) : List Element → Nat → Status × Nat
  | [], bitoff =>
    -- past the last element every bit is clear
    if isSet = false ∧ wrap ((bitmax : Int) - bitoff) ≥ runLen then (.ok, bitoff)
    else (.noResources, bitmax)
  | elem :: rest, bitoff =>
    if bitoff ≥ elem.end then findLoop isSet bitmax runLen rest bitoff
    else if wrap ((bitmax : Int) - bitoff) < runLen then (.noResources, bitmax)
    else
      let elemMin := Max.max bitoff elem.bitoff
      let elemMax := Min.min bitmax elem.end
      if isSet = true ∧ elemMax > elemMin ∧ elemMax - elemMin ≥ runLen then (.ok, elemMin)
      else if isSet = false ∧ bitoff < elem.bitoff ∧ elem.bitoff - bitoff ≥ runLen then (.ok, bitoff)
      else if bitmax < elem.end then (.noResources, bitmax)
      else findLoop isSet bitmax runLen rest elem.end

/-- `Find(is_set, bitoff, bitmax, run_len, out)`: the status and `*out`. -/
def Find (b : RleBitmap) (isSet : Bool) (bitoff bitmax runLen : Nat) : Status × Nat :=
  findLoop isSet bitmax runLen b.elems bitoff

/-- The loop of `Get`: the first bit at or after `bitoff` that no element
before the break holds. -/
def getLoop : List Element → Nat → Nat
  | [], bitoff => bitoff
  | elem :: rest, bitoff =>
    if bitoff < elem.bitoff then bitoff
    else if bitoff < elem.bitoff + elem.bitlen then elem.bitoff + elem.bitlen
    else getLoop rest bitoff

/-- `Get(bitoff, bitmax, first_unset)`: the result and `*first_unset`. -/
def Get (b : RleBitmap) (bitoff bitmax : Nat) : Bool × Nat :=
  let bitoff := getLoop b.elems bitoff
  let bitoff := if bitoff > bitmax then bitmax else bitoff
  (bitoff == bitmax, bitoff)

end RleBitmap

end Zircon.Bitmap
