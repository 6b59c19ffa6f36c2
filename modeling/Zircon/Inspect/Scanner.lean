import Zircon.Buddy
import Zircon.Inspect.Heap

/-!
# `ScanBlocks`

`ScanBlocks(buffer, size, callback)` of `vmo/scanner.cc` walks a buffer from
offset `0`: it reads the block header at the offset, hands the block to the
callback and steps on by the block's size, until the end of the buffer. A
header that does not fit, an order above `kMaxOrderShift` or a block that runs
past the end stops the walk with `ZX_ERR_OUT_OF_RANGE`. The model takes the
callback that always goes on, and returns the blocks it was handed, or `none`
for `ZX_ERR_OUT_OF_RANGE`. It is generic in how a block is read at an offset,
so that it serves the heap's headers and a reader's bytes alike.

Over a heap tiled by blocks whose headers give their orders, the scan visits
exactly the starts of the blocks, and reads nothing else: two sets of headers
that agree in type and order at those starts scan alike (`scanLoop_congr`).
-/

namespace Zircon.Inspect

open Buddy

theorem kMinOrderSize_eq : kMinOrderSize = 16 := rfl

theorem orderToSize_eq (k : Nat) : OrderToSize k = kMinOrderSize * 2 ^ k := by
  rw [OrderToSize, Nat.shiftLeft_eq, Nat.mul_comm]

theorem indexForOffset_mul (x : Nat) : IndexForOffset (kMinOrderSize * x) = x := by
  rw [IndexForOffset]
  exact Nat.mul_div_cancel_left x (by decide)

section Scan

variable {α : Type}

/-- The loop of `ScanBlocks` from `offset`. Each pass steps on by a whole
block, at least a byte, so `size + 1` passes are enough; `none` past them. -/
def scanLoop (blockAt : Nat → α) (orderOf : α → Nat) (size : Nat) : Nat → Nat → Option (List (Nat × α))
  | 0, _ => none
  | fuel + 1, offset =>
    if offset < size then
      -- the block header does not fit in the remaining space
      if size - offset < kMinOrderSize then none
      else if orderOf (blockAt offset) > kMaxOrderShift then none
      -- the header's order is too large to fit in the remainder of the buffer
      else if size - offset < OrderToSize (orderOf (blockAt offset)) then none
      else
        ((IndexForOffset offset, blockAt offset) :: ·) <$>
          scanLoop blockAt orderOf size fuel (offset + OrderToSize (orderOf (blockAt offset)))
    else some []

/-- `ScanBlocks(buffer, size, callback)` with a callback that always returns
`true`: the blocks handed to it, by index, or `none` for
`ZX_ERR_OUT_OF_RANGE`. -/
def ScanBlocks (blockAt : Nat → α) (orderOf : α → Nat) (size : Nat) : Option (List (Nat × α)) :=
  scanLoop blockAt orderOf size (size + 1) 0

end Scan

/-- The index, type and order of each block of a scan of headers. -/
def layoutOf (l : List (Nat × Header)) : List (Nat × BlockType × Nat) :=
  l.map fun p => (p.1, p.2.type, p.2.order)

/-- The blocks of the heap over `[0, size())`, by index, type and order, as
`ScanBlocks` reads them from the VMO. -/
def Heap.layout (h : Heap) : Option (List (Nat × BlockType × Nat)) :=
  (ScanBlocks (fun offset => h.mem (IndexForOffset offset)) Header.order h.curSize).map layoutOf

/-- A block put in front of a scan puts its index, type and order in front
of the scan's layout. -/
theorem map_layoutOf_cons {o : Option (List (Nat × Header))} {l : List (Nat × BlockType × Nat)}
    (p : Nat × Header) (ho : o.map layoutOf = some l) :
    ((p :: ·) <$> o).map layoutOf = some ((p.1, p.2.type, p.2.order) :: l) := by
  cases o with
  | none => cases ho
  | some l' =>
    rw [Option.map_some, Option.some.injEq] at ho
    rw [← ho]
    rfl

section Tiled

variable {β : Type} {blk : Nat → Option (Nat × β)} {U : Nat} {mem mem' : Nat → Header}

/-- One block of the scan: at the start `x` of a block of order `k` that ends
within the buffer, the scan hands over the block and goes on from its end. -/
theorem scanLoop_block (fuel : Nat) {x k : Nat} (hk : k < kNumOrders) (hend : x + 2 ^ k ≤ U)
    (hord : (mem x).order = k) :
    scanLoop (fun o => mem (IndexForOffset o)) Header.order (kMinOrderSize * U) (fuel + 1) (kMinOrderSize * x) =
      ((x, mem x) :: ·) <$>
        scanLoop (fun o => mem (IndexForOffset o)) Header.order (kMinOrderSize * U) fuel
          (kMinOrderSize * (x + 2 ^ k)) := by
  have hpos := Nat.two_pow_pos k
  rw [scanLoop, indexForOffset_mul, hord, orderToSize_eq, Nat.mul_add]
  have hroom : kMinOrderSize * 2 ^ k ≤ kMinOrderSize * U - kMinOrderSize * x := by
    rw [← Nat.mul_sub]
    exact Nat.mul_le_mul_left _ (by omega)
  rw [if_pos (by rw [kMinOrderSize_eq] at hroom ⊢; omega), if_neg (by rw [kMinOrderSize_eq] at hroom ⊢; omega),
    if_neg (by simp only [kMaxOrderShift, kMinOrderShift, kNumOrders] at hk ⊢; omega), if_neg (by omega)]

/-- Over a tiling whose headers give the blocks' orders, a scan from a
block's start, or from the end, visits the blocks from there on and reads
only their types and orders: headers that agree with them there scan alike. -/
theorem scanLoop_congr (ht : Tiles blk kNumOrders U) (horder : ∀ x k b, blk x = some (k, b) → (mem x).order = k)
    (hsame : ∀ x k b, blk x = some (k, b) → (mem' x).type = (mem x).type ∧ (mem' x).order = (mem x).order) :
    ∀ fuel x, (x = U ∨ ∃ k b, blk x = some (k, b)) → U - x < fuel →
      ∃ l, (scanLoop (fun o => mem (IndexForOffset o)) Header.order (kMinOrderSize * U) fuel
          (kMinOrderSize * x)).map layoutOf = some l ∧
        (scanLoop (fun o => mem' (IndexForOffset o)) Header.order (kMinOrderSize * U) fuel
          (kMinOrderSize * x)).map layoutOf = some l
  | 0, _, _, hfuel => absurd hfuel (Nat.not_lt_zero _)
  | fuel + 1, x, hx, hfuel => by
    rcases hx with rfl | ⟨k, b, hx⟩
    · -- at the end both scans stop
      refine ⟨[], ?_, ?_⟩ <;> rw [scanLoop, if_neg (Nat.lt_irrefl _)] <;> rfl
    · obtain ⟨-, hk, hend⟩ := ht.aligned x k b hx
      have hord := horder x k b hx
      obtain ⟨htype', hord'⟩ := hsame x k b hx
      -- the next block starts where this one ends, unless the heap ends there
      have hnext : x + 2 ^ k = U ∨ ∃ k' b', blk (x + 2 ^ k) = some (k', b') := by
        rcases Nat.lt_or_ge (x + 2 ^ k) U with hlt | hge
        · exact .inr (ht.next hx hlt)
        · exact .inl (by omega)
      obtain ⟨l, hl, hl'⟩ :=
        scanLoop_congr ht horder hsame fuel (x + 2 ^ k) hnext (by have := Nat.two_pow_pos k; omega)
      refine ⟨(x, (mem x).type, (mem x).order) :: l, ?_, ?_⟩
      · rw [scanLoop_block fuel hk hend hord]
        exact map_layoutOf_cons (x, mem x) hl
      · rw [scanLoop_block fuel hk hend (hord'.trans hord), ← htype', ← hord']
        exact map_layoutOf_cons (x, mem' x) hl'

/-- A heap tiled by blocks whose headers give their orders has a layout, and
a heap of the same size whose headers agree with it in type and order at the
blocks' starts has the same one. -/
theorem Heap.layout_congr {h h' : Heap} (ht : Tiles blk kNumOrders (h.curSize / kMinOrderSize))
    (hdvd : kMinOrderSize ∣ h.curSize) (horder : ∀ x k b, blk x = some (k, b) → (h.mem x).order = k)
    (hsize : h'.curSize = h.curSize)
    (hsame : ∀ x k b, blk x = some (k, b) → (h'.mem x).type = (h.mem x).type ∧ (h'.mem x).order = (h.mem x).order) :
    ∃ l, h.layout = some l ∧ h'.layout = some l := by
  obtain ⟨U, hU⟩ := hdvd
  have hunits : h.curSize / kMinOrderSize = U := by
    rw [hU]
    exact Nat.mul_div_cancel_left U (by decide)
  rw [hunits] at ht
  -- the scan starts at the first block, or at the end of an empty heap
  have hstart : 0 = U ∨ ∃ k b, blk 0 = some (k, b) := by
    rcases Nat.eq_zero_or_pos U with h0 | hpos
    · exact .inl h0.symm
    · exact .inr (ht.zero hpos)
  obtain ⟨l, hl, hl'⟩ :=
    scanLoop_congr ht horder hsame (kMinOrderSize * U + 1) 0 hstart (by rw [kMinOrderSize_eq]; omega)
  rw [Nat.mul_zero] at hl hl'
  unfold Heap.layout ScanBlocks
  rw [hsize, hU]
  exact ⟨l, hl, hl'⟩

end Tiled

end Zircon.Inspect
