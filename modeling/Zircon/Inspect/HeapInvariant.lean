import Zircon.Buddy
import Zircon.Inspect.FreeList

/-!
# The invariant of the Inspect heap

The heap is read against an abstract tiling `blk`: at the first unit of each
block, its order and whether it is free. `Invariant h blk L` says that the
blocks tile the units below `cur_size_ / kMinOrderSize` buddy-aligned, that
each block's header gives its order, and that for each order `k` the free list
`L k` holds exactly the free blocks of order `k`.

Two more facts hold between the operations of the heap, but not inside them:
the headers of allocated blocks do not say free (`Reserved`), which the merge
loop of `Free` breaks for the block it merges, and no free block has a free
buddy of its order (`NoFreeBuddies`), which the split loop of `Allocate`
breaks for the block it splits.

The lemmas are the steps the operations are made of: taking a free block off
its list, writing headers off the lists, pushing a block on its list,
splitting a block, merging two and adding blocks at the end.
-/

namespace Zircon.Inspect

open Function Intrusive Buddy

/-- `Buddy(block, k)` is `block ^ 2 ^ k`. -/
theorem buddy_eq (block k : Nat) : Buddy block k = block ^^^ 2 ^ k := by
  simp [Buddy, IndexForOffset, OrderToSize, kMinOrderSize, kMinOrderShift, Nat.shiftLeft_eq]

theorem buddy_buddy (block k : Nat) : Buddy (Buddy block k) k = block := by
  rw [buddy_eq, buddy_eq, Nat.xor_xor_cancel_right]

/-- The abstract heap: at the first unit of a block, its order and whether it
is free. -/
abbrev Blocks := Nat → Option (Nat × Bool)

/-- What the state of the heap says, read against the tiling `blk` and the
free lists `L`. -/
structure Invariant (h : Heap) (blk : Blocks) (L : Nat → List Nat) : Prop where
  size : kMinVmoSize ∣ h.curSize
  maxSize : kMinVmoSize ∣ h.maxSize
  size_le : h.curSize ≤ h.maxSize
  size_le_max : h.curSize ≤ kMaxVmoSize
  tiles : Tiles blk kNumOrders (h.curSize / kMinOrderSize)
  order : ∀ x k b, blk x = some (k, b) → (h.mem x).order = k
  lists : ∀ k, k < kNumOrders → FreeList h k (L k)
  mem_lists : ∀ k, k < kNumOrders → ∀ x, x ∈ L k ↔ blk x = some (k, true)

/-- The headers of allocated blocks do not say free. -/
def Reserved (h : Heap) (blk : Blocks) : Prop :=
  ∀ x k, blk x = some (k, false) → (h.mem x).type ≠ .kFree

/-- The block at `x` is allocated. -/
def Allocated (blk : Blocks) (x : Nat) : Prop := ∃ k, blk x = some (k, false)

/-- The headers of allocated blocks still do not say free when the allocated
blocks were allocated before and their types stayed. -/
theorem Reserved.frame {h h' : Heap} {blk blk' : Blocks} (hres : Reserved h blk)
    (hsub : ∀ x k, blk' x = some (k, false) → blk x = some (k, false) ∧ (h'.mem x).type = (h.mem x).type) :
    Reserved h' blk' := by
  intro x k hx
  obtain ⟨hx', htype⟩ := hsub x k hx
  rw [htype]
  exact hres x k hx'

/-- No free block below the largest order has a free buddy of its order. -/
def NoFreeBuddies (blk : Blocks) : Prop :=
  ∀ x k, blk x = some (k, true) → k + 1 < kNumOrders → blk (Buddy x k) ≠ some (k, true)

/-- No free buddies, except a pair that holds `b`. -/
def NoFreeBuddiesBut (blk : Blocks) (b : Nat) : Prop :=
  ∀ x k, blk x = some (k, true) → k + 1 < kNumOrders → blk (Buddy x k) = some (k, true) → x = b ∨ Buddy x k = b

/-- The heap between two of its operations. -/
structure WellFormed (h : Heap) (blk : Blocks) (L : Nat → List Nat) : Prop extends Invariant h blk L where
  reserved : Reserved h blk
  noFreeBuddies : NoFreeBuddies blk

namespace Invariant

variable {h : Heap} {blk : Blocks} {L : Nat → List Nat}

theorem lt (hinv : Invariant h blk L) {x k : Nat} {b : Bool} (hx : blk x = some (k, b)) :
    x < h.curSize / kMinOrderSize :=
  hinv.tiles.lt hx

theorem order_lt (hinv : Invariant h blk L) {x k : Nat} {b : Bool} (hx : blk x = some (k, b)) : k < kNumOrders :=
  (hinv.tiles.aligned x k b hx).2.1

theorem mem_of_free (hinv : Invariant h blk L) {x k : Nat} (hx : blk x = some (k, true)) : x ∈ L k :=
  (hinv.mem_lists k (hinv.order_lt hx) x).mpr hx

theorem isFreeBlock (hinv : Invariant h blk L) {x k : Nat} (hx : blk x = some (k, true)) : h.IsFreeBlock x k = true :=
  (hinv.lists k (hinv.order_lt hx)).free x (hinv.mem_of_free hx)

/-- The heap is a whole number of blocks of the largest order. -/
theorem units_dvd (hinv : Invariant h blk L) : 2 ^ (kNumOrders - 1) ∣ h.curSize / kMinOrderSize := by
  obtain ⟨c, hc⟩ := hinv.size
  rw [hc]
  show 2 ^ 7 ∣ 4096 * c / 16
  exact ⟨2 * c, by omega⟩

/-- A block whose header says free of order `k` is a free block of order
`k`, when it is not an allocated block whose header says free. -/
theorem free_of_isFreeBlock (hinv : Invariant h blk L) {x k' k : Nat} {b : Bool} (hx : blk x = some (k', b))
    (hres : b = false → (h.mem x).type ≠ .kFree) (hfree : h.IsFreeBlock x k = true) : blk x = some (k, true) := by
  obtain ⟨-, htype, horder⟩ := Heap.isFreeBlock_iff.mp hfree
  rw [hinv.order x k' b hx] at horder
  subst horder
  cases b with
  | true => exact hx
  | false => exact absurd htype (hres rfl)

/-! ## Steps -/

/-- `RemoveFree` takes a free block off its list; the tiling then counts it
as not free. -/
theorem removeFree (hinv : Invariant h blk L) {b k : Nat} (hb : blk b = some (k, true)) :
    ∃ h', h.RemoveFree b = some (h', true) ∧
      Invariant h' (update blk b (some (k, false))) (update L k ((L k).erase b)) ∧ Relinks h h' k (L k) := by
  have hk := hinv.order_lt hb
  obtain ⟨h', hrf, hl', hr⟩ := (hinv.lists k hk).removeFree hk (hinv.mem_of_free hb)
  refine ⟨h', hrf, ⟨?_, ?_, ?_, ?_, ?_, ?_, ?_, ?_⟩, hr⟩
  · exact hr.curSize ▸ hinv.size
  · exact hr.maxSize ▸ hinv.maxSize
  · rw [hr.curSize, hr.maxSize]; exact hinv.size_le
  · rw [hr.curSize]; exact hinv.size_le_max
  · rw [hr.curSize]; exact hinv.tiles.relabel hb false
  · intro x k' b' hx
    rw [hr.order]
    by_cases hxb : x = b
    · subst hxb
      rw [update_self, Option.some.injEq, Prod.mk.injEq] at hx
      rw [hinv.order x k true hb, hx.1]
    · rw [update_of_ne hxb] at hx
      exact hinv.order x k' b' hx
  · intro k' hk'
    by_cases hkk : k' = k
    · subst hkk
      rw [update_self]
      exact hl'
    · rw [update_of_ne hkk]
      refine (hinv.lists k' hk').frame (by rw [hr.curSize]) (hr.freeBlocks k' hkk) fun x hx => ?_
      -- the blocks of another list are not on the list `RemoveFree` edits
      have hxk : x ∉ L k := fun hxk => by
        have h₁ := (hinv.mem_lists k' hk' x).mp hx
        rw [(hinv.mem_lists k hk x).mp hxk, Option.some.injEq, Prod.mk.injEq] at h₁
        exact hkk h₁.1.symm
      exact Header.ext (hr.order x) (hr.type x) (hr.next x hxk)
  · intro k' hk' x
    by_cases hkk : k' = k
    · subst hkk
      rw [update_self, (hinv.lists k' hk').nodup.mem_erase_iff]
      by_cases hxb : x = b
      · subst hxb
        simp
      · rw [update_of_ne hxb, hinv.mem_lists k' hk' x]
        exact ⟨fun h => h.2, fun h => ⟨hxb, h⟩⟩
    · rw [update_of_ne hkk, hinv.mem_lists k' hk' x]
      by_cases hxb : x = b
      · subst hxb
        rw [update_self, hb]
        simp [Ne.symm hkk]
      · rw [update_of_ne hxb]

/-- Writing headers off the free lists, with a tiling that has the same free
blocks and orders the new headers give. -/
theorem frame (hinv : Invariant h blk L) {h' : Heap} {blk' : Blocks} (hsize : h'.curSize = h.curSize)
    (hmax : h'.maxSize = h.maxSize) (hfb : h'.freeBlocks = h.freeBlocks)
    (htiles : Tiles blk' kNumOrders (h.curSize / kMinOrderSize))
    (horder : ∀ x k b, blk' x = some (k, b) → (h'.mem x).order = k)
    (hfree : ∀ x k, blk' x = some (k, true) ↔ blk x = some (k, true))
    (hmem : ∀ x k, blk x = some (k, true) → h'.mem x = h.mem x) : Invariant h' blk' L := by
  refine ⟨hsize ▸ hinv.size, hmax ▸ hinv.maxSize, by rw [hsize, hmax]; exact hinv.size_le,
    by rw [hsize]; exact hinv.size_le_max, hsize ▸ htiles, horder, fun k hk => ?_, fun k hk x => ?_⟩
  · refine (hinv.lists k hk).frame (by rw [hsize]) (by rw [hfb]) fun x hx => ?_
    exact hmem x k ((hinv.mem_lists k hk x).mp hx)
  · rw [hinv.mem_lists k hk x, hfree]

/-- The end of `Free`: a block that is not free pushed on its list. -/
theorem push (hinv : Invariant h blk L) {s k : Nat} (hs : blk s = some (k, false)) {h' : Heap}
    (hsize : h'.curSize = h.curSize) (hmax : h'.maxSize = h.maxSize)
    (hfb : h'.freeBlocks = update h.freeBlocks k s) (hmem : h'.mem = update h.mem s ⟨k, .kFree, h.freeBlocks k⟩) :
    Invariant h' (update blk s (some (k, true))) (update L k (s :: L k)) := by
  have hk := hinv.order_lt hs
  -- `s` is on no list, so the lists keep their blocks
  have hsL : ∀ k', k' < kNumOrders → s ∉ L k' := fun k' hk' hsL => by
    rw [hinv.mem_lists k' hk' s, hs] at hsL
    simp at hsL
  have hmem' : ∀ k', k' < kNumOrders → ∀ y ∈ L k', h'.mem y = h.mem y := by
    intro k' hk' y hy
    rw [hmem, update_of_ne (fun (hys : y = s) => hsL k' hk' (hys ▸ hy))]
  refine ⟨hsize ▸ hinv.size, hmax ▸ hinv.maxSize, by rw [hsize, hmax]; exact hinv.size_le,
    by rw [hsize]; exact hinv.size_le_max, hsize ▸ hinv.tiles.relabel hs true, fun x k' b hx => ?_,
    fun k' hk' => ?_, fun k' hk' x => ?_⟩
  · by_cases hxs : x = s
    · subst hxs
      rw [update_self, Option.some.injEq, Prod.mk.injEq] at hx
      rw [hmem, update_self, ← hx.1]
    · rw [update_of_ne hxs] at hx
      rw [hmem, update_of_ne hxs]
      exact hinv.order x k' b hx
  · by_cases hkk : k' = k
    · subst hkk
      rw [update_self]
      refine (hinv.lists k' hk').push (hsL k' hk') (by rw [hsize]) (by rw [hfb, update_self]) (hmem' k' hk') ?_ ?_
      · simp [Heap.nextFree, hmem]
      · rw [Heap.isFreeBlock_iff, hmem, update_self, hsize]
        exact ⟨hinv.lt hs, rfl, rfl⟩
    · rw [update_of_ne hkk]
      exact (hinv.lists k' hk').frame (by rw [hsize]) (by rw [hfb, update_of_ne hkk]) (hmem' k' hk')
  · by_cases hkk : k' = k
    · subst hkk
      rw [update_self, List.mem_cons]
      by_cases hxs : x = s
      · subst hxs
        simp
      · rw [update_of_ne hxs, hinv.mem_lists k' hk' x]
        simp [hxs]
    · rw [update_of_ne hkk, hinv.mem_lists k' hk' x]
      by_cases hxs : x = s
      · subst hxs
        rw [update_self, hs]
        simp [Ne.symm hkk]
      · rw [update_of_ne hxs]

/-- `SplitBlock` after `RemoveFree`: a block of order `j + 1` that is not
free becomes two free halves of order `j`, pushed on their list. -/
theorem split (hinv : Invariant h blk L) {b j : Nat} (hb : blk b = some (j + 1, false)) {h' : Heap}
    (hsize : h'.curSize = h.curSize) (hmax : h'.maxSize = h.maxSize) (hfb : h'.freeBlocks = update h.freeBlocks j b)
    (hmem : h'.mem = update (update h.mem b ⟨j, .kFree, b + 2 ^ j⟩) (b + 2 ^ j) ⟨j, .kFree, h.freeBlocks j⟩) :
    Invariant h' (update (update blk b (some (j, true))) (b + 2 ^ j) (some (j, true)))
      (update L j (b :: (b + 2 ^ j) :: L j)) := by
  have hj : j + 1 < kNumOrders := hinv.order_lt hb
  have hpos := Nat.one_le_two_pow (n := j)
  have hne : b + 2 ^ j ≠ b := by omega
  have hpow : 2 ^ (j + 1) = 2 ^ j + 2 ^ j := by rw [Nat.pow_succ]; omega
  have hend := (hinv.tiles.aligned b (j + 1) false hb).2.2
  -- the upper half is inside `b`, so it starts no block yet
  have hup : blk (b + 2 ^ j) = none := hinv.tiles.eq_none_of_inside hb (by omega) (by omega)
  have hbL : ∀ k, k < kNumOrders → b ∉ L k ∧ b + 2 ^ j ∉ L k := fun k hk => by
    rw [hinv.mem_lists k hk, hinv.mem_lists k hk, hb, hup]
    simp
  have hmem' : ∀ k, k < kNumOrders → ∀ y ∈ L k, h'.mem y = h.mem y := by
    intro k hk y hy
    rw [hmem, update_of_ne (fun (e : y = b + 2 ^ j) => (hbL k hk).2 (e ▸ hy)),
      update_of_ne (fun (e : y = b) => (hbL k hk).1 (e ▸ hy))]
  refine ⟨hsize ▸ hinv.size, hmax ▸ hinv.maxSize, by rw [hsize, hmax]; exact hinv.size_le,
    by rw [hsize]; exact hinv.size_le_max, hsize ▸ hinv.tiles.split hb true true, fun x k b' hx => ?_,
    fun k hk => ?_, fun k hk x => ?_⟩
  · rw [hmem]
    by_cases hx₂ : x = b + 2 ^ j
    · subst hx₂
      rw [update_self, Option.some.injEq, Prod.mk.injEq] at hx
      rw [update_self, ← hx.1]
    · rw [update_of_ne hx₂] at hx ⊢
      by_cases hx₁ : x = b
      · subst hx₁
        rw [update_self, Option.some.injEq, Prod.mk.injEq] at hx
        rw [update_self, ← hx.1]
      · rw [update_of_ne hx₁] at hx ⊢
        exact hinv.order x k b' hx
  · by_cases hkj : k = j
    · subst hkj
      rw [update_self]
      have hl := hinv.lists k hk
      -- the upper half goes on first, then `b` on top of it
      refine ⟨?_, by rw [hfb, update_self]; rfl, ?_, ?_⟩
      · exact List.nodup_cons.mpr ⟨by simp [(hbL k hk).1], List.nodup_cons.mpr ⟨(hbL k hk).2, hl.nodup⟩⟩
      · have hup' : Linked h'.nextFree 0 ((b + 2 ^ k) :: L k) :=
          hl.linked.push (fun y hy => by simp [Heap.nextFree, hmem' k hk y hy]) (by simp [Heap.nextFree, hmem, hl.head])
        exact hup'.push (fun y _ => rfl) (by simp [Heap.nextFree, hmem])
      · intro y hy
        rw [Heap.isFreeBlock_iff, hsize]
        rcases List.mem_cons.mp hy with rfl | hy
        · exact ⟨by have := hinv.lt hb; omega, by simp [hmem], by simp [hmem]⟩
        · rcases List.mem_cons.mp hy with rfl | hy
          · exact ⟨by omega, by simp [hmem], by simp [hmem]⟩
          · rw [hmem' k hk y hy]
            exact Heap.isFreeBlock_iff.mp (hl.free y hy)
    · rw [update_of_ne hkj]
      exact (hinv.lists k hk).frame (by rw [hsize]) (by rw [hfb, update_of_ne hkj]) (hmem' k hk)
  · by_cases hkj : k = j
    · subst hkj
      rw [update_self, List.mem_cons, List.mem_cons, hinv.mem_lists k hk x]
      by_cases hx₂ : x = b + 2 ^ k
      · subst hx₂
        simp
      · by_cases hx₁ : x = b
        · subst hx₁
          simp
        · rw [update_of_ne hx₂, update_of_ne hx₁]
          simp [hx₁, hx₂]
    · rw [update_of_ne hkj, hinv.mem_lists k hk x]
      by_cases hx₂ : x = b + 2 ^ j
      · subst hx₂
        rw [update_self, hup]
        simp [Ne.symm hkj]
      · rw [update_of_ne hx₂]
        by_cases hx₁ : x = b
        · subst hx₁
          rw [update_self, hb]
          simp [Ne.symm hkj]
        · rw [update_of_ne hx₁]

/-- The end of `Allocate`: a header written on a block that is not free. -/
theorem reserve (hinv : Invariant h blk L) {b k : Nat} (hb : blk b = some (k, false)) {h' : Heap} {hdr : Header}
    (hsize : h'.curSize = h.curSize) (hmax : h'.maxSize = h.maxSize) (hfb : h'.freeBlocks = h.freeBlocks)
    (hmem : h'.mem = update h.mem b hdr) (hord : hdr.order = k) : Invariant h' blk L := by
  refine hinv.frame hsize hmax hfb hinv.tiles (fun x k' b' hx => ?_) (fun _ _ => Iff.rfl) (fun x k' hx => ?_)
  · rw [hmem]
    by_cases hxb : x = b
    · subst hxb
      rw [hb, Option.some.injEq, Prod.mk.injEq] at hx
      rw [update_self, hord, hx.1]
    · rw [update_of_ne hxb]
      exact hinv.order x k' b' hx
  · have hxb : x ≠ b := fun hxb => by rw [hxb, hb] at hx; simp at hx
    rw [hmem, update_of_ne hxb]

/-- A merge of the loop of `Free`: the two halves of an aligned block of
order `k + 1`, neither free, become that block, whose order the lower half's
header then gives. -/
theorem merge (hinv : Invariant h blk L) {s k : Nat} (hs : blk s = some (k, false))
    (hs' : blk (s + 2 ^ k) = some (k, false)) (hdvd : 2 ^ (k + 1) ∣ s) (hk : k + 1 < kNumOrders) {h' : Heap}
    (hsize : h'.curSize = h.curSize) (hmax : h'.maxSize = h.maxSize) (hfb : h'.freeBlocks = h.freeBlocks)
    (hmem : h'.mem = update h.mem s { h.mem s with order := k + 1 }) :
    Invariant h' (update (update blk (s + 2 ^ k) none) s (some (k + 1, false))) L := by
  have hne : s ≠ s + 2 ^ k := by have := Nat.one_le_two_pow (n := k); omega
  refine hinv.frame hsize hmax hfb (hinv.tiles.merge hs hs' hdvd hk false) (fun x k' b' hx => ?_) (fun x k' => ?_)
    (fun x k' hx => ?_)
  · rw [hmem]
    by_cases hxs : x = s
    · subst hxs
      rw [update_self, Option.some.injEq, Prod.mk.injEq] at hx
      rw [update_self, ← hx.1]
    · rw [update_of_ne hxs] at hx
      rw [update_of_ne hxs]
      by_cases hxs' : x = s + 2 ^ k
      · subst hxs'
        rw [update_self] at hx
        cases hx
      · rw [update_of_ne hxs'] at hx
        exact hinv.order x k' b' hx
  · by_cases hxs : x = s
    · subst hxs
      rw [update_self, hs]
      simp
    · rw [update_of_ne hxs]
      by_cases hxs' : x = s + 2 ^ k
      · subst hxs'
        rw [update_self, hs']
        simp
      · rw [update_of_ne hxs']
  · have hxs : x ≠ s := fun hxs => by rw [hxs, hs] at hx; simp at hx
    rw [hmem, update_of_ne hxs]

end Invariant

/-- The headers `Extend` leaves between units `m` and `m'`: a free block of
the largest order every `2 ^ (kNumOrders - 1)` units, each pointing to the
next and the last to `last`. -/
def extendedMem (mem : Nat → Header) (m m' last x : Nat) : Header :=
  if m ≤ x ∧ x < m' ∧ 2 ^ (kNumOrders - 1) ∣ x then
    ⟨kNumOrders - 1, .kFree, if x + 2 ^ (kNumOrders - 1) = m' then last else x + 2 ^ (kNumOrders - 1)⟩
  else mem x

/-- The tiling with those blocks added. -/
def extendedBlocks (blk : Blocks) (m m' x : Nat) : Option (Nat × Bool) :=
  if m ≤ x ∧ x < m' ∧ 2 ^ (kNumOrders - 1) ∣ x then some (kNumOrders - 1, true) else blk x

namespace Invariant

variable {h : Heap} {blk : Blocks} {L : Nat → List Nat}

/-- `Extend` by `j` blocks of the largest order. -/
theorem extend (hinv : Invariant h blk L) {h' : Heap} {m j : Nat} (hj : 0 < j) (hm : h.curSize / kMinOrderSize = m)
    (hm' : h'.curSize / kMinOrderSize = m + j * 2 ^ (kNumOrders - 1)) (hgrow : h.curSize ≤ h'.curSize)
    (hsize : kMinVmoSize ∣ h'.curSize) (hmax : h'.maxSize = h.maxSize) (hle : h'.curSize ≤ h'.maxSize)
    (hlemax : h'.curSize ≤ kMaxVmoSize) (hfb : h'.freeBlocks = update h.freeBlocks (kNumOrders - 1) m)
    (hmem : h'.mem = extendedMem h.mem m (m + j * 2 ^ (kNumOrders - 1)) (h.freeBlocks (kNumOrders - 1))) :
    Invariant h' (extendedBlocks blk m (m + j * 2 ^ (kNumOrders - 1)))
      (update L (kNumOrders - 1) (List.range' m j (2 ^ (kNumOrders - 1)) ++ L (kNumOrders - 1))) := by
  have hd : 0 < 2 ^ (kNumOrders - 1) := Nat.two_pow_pos _
  have hmd : 2 ^ (kNumOrders - 1) ∣ m := hm ▸ hinv.units_dvd
  -- the old blocks lie below `m`, where the headers stay
  have hold : ∀ x, x < m → h'.mem x = h.mem x := fun x hx => by
    rw [hmem, extendedMem, if_neg (by omega)]
  have hnew : ∀ x, x ∈ List.range' m j (2 ^ (kNumOrders - 1)) ↔
      m ≤ x ∧ x < m + j * 2 ^ (kNumOrders - 1) ∧ 2 ^ (kNumOrders - 1) ∣ x := fun x => mem_range'_iff hd hmd
  have hlistlt : ∀ k, k < kNumOrders → ∀ x ∈ L k, x < m := fun k hk x hx => hm ▸ (hinv.lists k hk).lt hx
  refine ⟨hsize, hmax ▸ hinv.maxSize, hle, hlemax, ?_, fun x k b hx => ?_, fun k hk => ?_, fun k hk x => ?_⟩
  · rw [hm', ← hm]
    exact hinv.tiles.append (by decide) (hm ▸ hinv.units_dvd) j true
  · unfold extendedBlocks at hx
    split_ifs at hx with hx'
    · rw [Option.some.injEq, Prod.mk.injEq] at hx
      rw [hmem, extendedMem, if_pos hx', ← hx.1]
    · rw [hold x (hm ▸ hinv.lt hx)]
      exact hinv.order x k b hx
  · by_cases hk7 : k = kNumOrders - 1
    · subst hk7
      rw [update_self]
      have hl := hinv.lists _ hk
      refine ⟨?_, ?_, ?_, fun x hx => ?_⟩
      · refine List.nodup_append.mpr ⟨List.nodup_range' _ hd, hl.nodup, fun x hx y hy hxy => ?_⟩
        have := (hnew x).mp hx
        have := hlistlt _ hk y hy
        omega
      · rw [hfb, update_self]
        cases j with
        | zero => omega
        | succ j => rfl
      · refine linked_range'_append (hl.linked.congr fun y hy => by simp [Heap.nextFree, hold y (hlistlt _ hk y hy)])
          (fun i hi => ?_) (fun _ => ?_)
        · have hx : m + 2 ^ (kNumOrders - 1) * i ∈ List.range' m j (2 ^ (kNumOrders - 1)) :=
            List.mem_range'.mpr ⟨i, by omega, rfl⟩
          rw [Heap.nextFree, hmem, extendedMem, if_pos ((hnew _).mp hx), if_neg]
          · rw [Nat.mul_succ, Nat.add_assoc]
          · rw [Nat.mul_comm j]
            have := Nat.mul_lt_mul_of_pos_left hi hd
            rw [Nat.mul_succ] at this
            omega
        · have hx : m + 2 ^ (kNumOrders - 1) * (j - 1) ∈ List.range' m j (2 ^ (kNumOrders - 1)) :=
            List.mem_range'.mpr ⟨j - 1, by omega, rfl⟩
          rw [Heap.nextFree, hmem, extendedMem, if_pos ((hnew _).mp hx), if_pos, hl.head]
          obtain ⟨j, rfl⟩ : ∃ j', j = j' + 1 := ⟨j - 1, by omega⟩
          rw [Nat.add_sub_cancel, Nat.add_assoc, ← Nat.mul_succ, Nat.mul_comm]
      · rcases List.mem_append.mp hx with hx | hx
        · obtain ⟨hle', hlt', hdvd'⟩ := (hnew x).mp hx
          rw [Heap.isFreeBlock_iff, hm', hmem, extendedMem, if_pos ⟨hle', hlt', hdvd'⟩]
          exact ⟨hlt', rfl, rfl⟩
        · exact hl.free_frame hgrow (fun y hy => hold y (hlistlt _ hk y hy)) x hx
    · rw [update_of_ne hk7]
      exact (hinv.lists k hk).frame hgrow (by rw [hfb, update_of_ne hk7]) fun y hy => hold y (hlistlt k hk y hy)
  · unfold extendedBlocks
    by_cases hk7 : k = kNumOrders - 1
    · subst hk7
      rw [update_self, List.mem_append, hnew, hinv.mem_lists _ hk x]
      split_ifs with hx'
      · simp [hx']
      · simp [hx']
    · rw [update_of_ne hk7, hinv.mem_lists k hk x]
      split_ifs with hx'
      · -- a new block is of the largest order and was no block before
        have hnone : blk x = none := by
          cases hb : blk x with
          | none => rfl
          | some p =>
            have := hinv.lt (x := x) (k := p.1) (b := p.2) (by rw [hb])
            omega
        simp [hnone, Ne.symm hk7]
      · exact Iff.rfl

end Invariant

/-! ## Free buddies -/

section Buddies

variable {blk blk' : Blocks} {b s k : Nat}

theorem buddy_ne (s k : Nat) : Buddy s k ≠ s := by
  rw [buddy_eq]
  intro h
  have := congrArg (· ^^^ s) h
  simp only [Nat.xor_comm s, Nat.xor_assoc, Nat.xor_self, Nat.xor_zero] at this
  exact absurd this (Nat.two_pow_pos k).ne'

/-- A tiling whose free blocks below the largest order were free before has
no free buddies either. -/
theorem NoFreeBuddies.mono (h : NoFreeBuddies blk)
    (hsub : ∀ x k, k + 1 < kNumOrders → blk' x = some (k, true) → blk x = some (k, true)) : NoFreeBuddies blk' :=
  fun x k hx hk hb => h x k (hsub x k hk hx) hk (hsub _ k hk hb)

theorem NoFreeBuddies.but (h : NoFreeBuddies blk) (b : Nat) : NoFreeBuddiesBut blk b :=
  fun x k hx hk hb => absurd hb (h x k hx hk)

/-- Allocating the block that the exception is about. -/
theorem NoFreeBuddiesBut.reserve (h : NoFreeBuddiesBut blk b) (k : Nat) :
    NoFreeBuddies (update blk b (some (k, false))) := by
  intro x k' hx hk hbud
  have hxb : x ≠ b := ne_of_update_apply hx (by simp)
  have hbb : Buddy x k' ≠ b := ne_of_update_apply hbud (by simp)
  rw [update_of_ne hxb] at hx
  rw [update_of_ne hbb] at hbud
  rcases h x k' hx hk hbud with h₁ | h₁
  · exact hxb h₁
  · exact hbb h₁

/-- Splitting the block the exception is about keeps the exception to it. -/
theorem NoFreeBuddiesBut.split (h : NoFreeBuddiesBut blk b) {j : Nat} (hdvd : 2 ^ (j + 1) ∣ b) :
    NoFreeBuddiesBut (update (update blk b (some (j, true))) (b + 2 ^ j) (some (j, true))) b := by
  have hbud : Buddy b j = b + 2 ^ j := by rw [buddy_eq, xor_two_pow_of_dvd hdvd]
  have hbud' : Buddy (b + 2 ^ j) j = b := by rw [← hbud, buddy_buddy]
  intro x k hx hk hb
  by_cases hxu : x = b + 2 ^ j
  · subst hxu
    rw [update_self, Option.some.injEq, Prod.mk.injEq] at hx
    rw [← hx.1, hbud']
    exact .inr rfl
  by_cases hxb : x = b
  · exact .inl hxb
  rw [update_of_ne hxu, update_of_ne hxb] at hx
  by_cases hbu : Buddy x k = b + 2 ^ j
  · -- then `x` is the buddy of the upper half, that is `b`
    rw [hbu, update_self, Option.some.injEq, Prod.mk.injEq] at hb
    have hxb' := buddy_buddy x k
    rw [hbu, ← hb.1, hbud'] at hxb'
    exact .inl hxb'.symm
  by_cases hbb : Buddy x k = b
  · exact .inr hbb
  rw [update_of_ne hbu, update_of_ne hbb] at hb
  exact h x k hx hk hb

/-- The end of `Free`: the block pushed is free, and has no free buddy. -/
theorem NoFreeBuddies.push (h : NoFreeBuddies blk) (hs : blk s = some (k, false))
    (hbud : k + 1 < kNumOrders → blk (Buddy s k) ≠ some (k, true)) : NoFreeBuddies (update blk s (some (k, true))) := by
  intro x k' hx hk hb
  by_cases hxs : x = s
  · subst hxs
    rw [update_self, Option.some.injEq, Prod.mk.injEq] at hx
    rw [← hx.1, update_of_ne (buddy_ne x k)] at hb
    exact hbud (by rw [hx.1]; exact hk) hb
  · rw [update_of_ne hxs] at hx
    by_cases hbs : Buddy x k' = s
    · rw [hbs, update_self, Option.some.injEq, Prod.mk.injEq] at hb
      rw [hb.1, ← hbs, buddy_buddy] at hbud
      exact hbud hk hx
    · rw [update_of_ne hbs] at hb
      exact h x k' hx hk hb

end Buddies

/-! ## Between operations -/

namespace WellFormed

variable {h : Heap} {blk : Blocks} {L : Nat → List Nat}

/-- A free block `0` of order `k`, which ends every list, is on list `k`. -/
theorem zero_mem (hwf : WellFormed h blk L) {k : Nat} (h0 : h.IsFreeBlock 0 k = true) : 0 ∈ L k := by
  obtain ⟨k', b, hb⟩ := hwf.tiles.zero (Heap.isFreeBlock_iff.mp h0).1
  have := hwf.free_of_isFreeBlock hb (fun hb' => hwf.reserved 0 k' (hb' ▸ hb)) h0
  exact hwf.mem_of_free this

/-- A list whose head is a free block of its order starts with that block. -/
theorem head_mem (hwf : WellFormed h blk L) {k : Nat} (hk : k < kNumOrders)
    (hfree : h.IsFreeBlock (h.freeBlocks k) k = true) : h.freeBlocks k ∈ L k := by
  have hhead := (hwf.lists k hk).head
  cases hl : L k with
  | nil =>
    have h0 : h.freeBlocks k = 0 := by rw [hhead, hl]; rfl
    rw [h0] at hfree ⊢
    have h0L := hwf.zero_mem hfree
    rwa [hl] at h0L
  | cons a l =>
    rw [hhead, hl]
    exact List.mem_cons_self

/-- Only the sizes, the list heads and the headers count: a well-formed heap
stays one when its counters move. -/
theorem counters (hwf : WellFormed h blk L) {h' : Heap} (hsize : h'.curSize = h.curSize)
    (hmax : h'.maxSize = h.maxSize) (hfb : h'.freeBlocks = h.freeBlocks) (hmem : h'.mem = h.mem) :
    WellFormed h' blk L := by
  refine ⟨hwf.frame hsize hmax hfb hwf.tiles (fun x k b hx => ?_) (fun _ _ => Iff.rfl) (fun _ _ _ => by rw [hmem]),
    fun x k hx => ?_, hwf.noFreeBuddies⟩
  · rw [hmem]
    exact hwf.order x k b hx
  · rw [hmem]
    exact hwf.reserved x k hx

/-- The walk from `free_blocks_[k]` meets exactly the free blocks of order `k`. -/
theorem freeReach_iff (hwf : WellFormed h blk L) {k : Nat} (hk : k < kNumOrders) (x : Nat) :
    h.FreeReach k x ↔ blk x = some (k, true) := by
  rw [(hwf.lists k hk).freeReach_iff hwf.zero_mem, hwf.mem_lists k hk x]

end WellFormed

end Zircon.Inspect
