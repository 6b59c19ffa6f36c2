import Zircon.Inspect.Allocate

/-!
# `Free` keeps the heap well formed

From a well-formed heap, `Free(block_index)` of an allocated block returns,
and leaves a well-formed heap in which that block, and only it, is no longer
allocated.

The merge loop is specified by `Merging`, what holds between its passes: the
current block is a block of the tiling, not yet free, and the heap is well
formed but for its header. The guard of the loop holds exactly when the buddy
is free of the same order (`Merging.guard_iff`); a pass takes the buddy off
its list and merges the two halves at the lower index (`Merging.step`), and
the loop ends within `kNumOrders` tests because each pass raises the order
(`mergeLoop_spec`). When it ends the block has no free buddy, so pushing it on
its list keeps the free buddies apart.
-/

namespace Zircon.Inspect

open Function Buddy

/-- The merge loop of `Free(a)` between passes, from a heap whose tiling was
`blk₀`: the current block is a block of the tiling `blk`, labelled not free,
of the order its header gives, and the buddy index is its buddy. The heap is
well formed but for the header of the current block, which may be a free
buddy's. The other blocks keep their hands, and the current block was not
allocated unless it is `a`. -/
structure Merging (blk₀ : Blocks) (a : Nat) (s : FreeState) (blk : Blocks) (L : Nat → List Nat) : Prop where
  inv : Invariant s.heap blk L
  block : blk s.blockIndex = some ((s.heap.mem s.blockIndex).order, false)
  buddy : s.buddyIndex = Buddy s.blockIndex (s.heap.mem s.blockIndex).order
  reserved : ∀ x k, x ≠ s.blockIndex → blk x = some (k, false) → (s.heap.mem x).type ≠ .kFree
  noFreeBuddies : NoFreeBuddies blk
  allocated : ∀ x, x ≠ s.blockIndex → (Allocated blk x ↔ x ≠ a ∧ Allocated blk₀ x)
  fresh : s.blockIndex ≠ a → ¬Allocated blk₀ s.blockIndex

namespace Merging

variable {blk₀ blk : Blocks} {a : Nat} {s : FreeState} {L : Nat → List Nat}

/-- The loop starts from the allocated block being freed. -/
theorem start {h : Heap} (hwf : WellFormed h blk₀ L) {k : Nat} (ha : blk₀ a = some (k, false)) :
    Merging blk₀ a ⟨h, a, Buddy a (h.mem a).order⟩ blk₀ L := by
  refine ⟨hwf.toInvariant, ?_, rfl, fun x k _ hx => hwf.reserved x k hx, hwf.noFreeBuddies,
    fun x hx => (and_iff_right hx).symm, fun ha' => absurd rfl ha'⟩
  show blk₀ a = some ((h.mem a).order, false)
  rw [hwf.order a k false ha, ha]

/-- The guard of the merge loop holds exactly when the buddy is a free block
of the current order, below the largest. -/
theorem guard_iff (hm : Merging blk₀ a s blk L) :
    freeGuard s = true ↔
      blk s.buddyIndex = some ((s.heap.mem s.blockIndex).order, true) ∧
        (s.heap.mem s.blockIndex).order + 1 < kNumOrders := by
  simp only [freeGuard, Bool.and_eq_true, beq_iff_eq, decide_eq_true_eq]
  constructor
  · rintro ⟨⟨htype, hlt⟩, hord⟩
    refine ⟨?_, by simp only [kNumOrders] at hlt ⊢; omega⟩
    -- the buddy starts a block, which its free header of the same order makes free
    obtain ⟨k', b', hb, -⟩ := hm.inv.tiles.buddy hm.inv.units_dvd hm.block (by simp only [kNumOrders] at hlt ⊢; omega)
    rw [← buddy_eq, ← hm.buddy] at hb
    have hne : s.buddyIndex ≠ s.blockIndex := by
      rw [hm.buddy]
      exact buddy_ne _ _
    refine hm.inv.free_of_isFreeBlock hb (fun hb' => hm.reserved _ _ hne (hb' ▸ hb)) ?_
    exact Heap.isFreeBlock_iff.mpr ⟨hm.inv.lt hb, htype, hord.symm⟩
  · rintro ⟨hbud, hlt⟩
    have hfree := Heap.isFreeBlock_iff.mp (hm.inv.isFreeBlock hbud)
    exact ⟨⟨hfree.2.1, by simp only [kNumOrders] at hlt ⊢; omega⟩, hfree.2.2.symm⟩

/-- One pass: the buddy is taken off its list and the lower of the two halves
becomes the block of the next order. -/
theorem step (hm : Merging blk₀ a s blk L) (hg : freeGuard s = true) :
    ∃ s' blk' L', freeBody s = some s' ∧ Merging blk₀ a s' blk' L' ∧
      (s'.heap.mem s'.blockIndex).order = (s.heap.mem s.blockIndex).order + 1 := by
  obtain ⟨hbud, hk⟩ := hm.guard_iff.mp hg
  obtain ⟨h, b, t⟩ := s
  have hb : blk b = some ((h.mem b).order, false) := hm.block
  have ht : t = Buddy b (h.mem b).order := hm.buddy
  dsimp only at hbud hk ⊢
  generalize hkdef : (h.mem b).order = k at hb ht hbud hk ⊢
  subst ht
  obtain ⟨h₁, hrf, hinv₁, hr⟩ := hm.inv.removeFree hbud
  obtain ⟨hlo, hpair⟩ := xor_two_pow_halves (hm.inv.tiles.aligned b k false hb).1
  rw [← buddy_eq] at hlo hpair
  set lo := if Buddy b k < b then Buddy b k else b with hlodef
  have hne : Buddy b k ≠ b := buddy_ne b k
  -- both halves are now blocks of order `k` that are not free
  have hhalf : ∀ x, x = b ∨ x = Buddy b k → update blk (Buddy b k) (some (k, false)) x = some (k, false) := by
    rintro x (rfl | rfl)
    · rw [update_of_ne (Ne.symm hne), hb]
    · exact update_self _ _ _
  have hlo₁ := hhalf lo (by omega)
  have hhi₁ := hhalf (lo + 2 ^ k) (by omega)
  have hord₁ : (h₁.mem lo).order = k := hinv₁.order lo k false hlo₁
  let h₂ : Heap := { h₁ with mem := update h₁.mem lo { h₁.mem lo with order := (h₁.mem lo).order + 1 } }
  have hinv₂ : Invariant h₂ (update (update (update blk (Buddy b k) (some (k, false))) (lo + 2 ^ k) none) lo
      (some (k + 1, false))) _ :=
    hinv₁.merge hlo₁ hhi₁ hlo hk rfl rfl rfl (by show update h₁.mem lo _ = _; rw [hord₁])
  have hord₂ : (h₂.mem lo).order = k + 1 := by
    show (update h₁.mem lo _ lo).order = k + 1
    rw [update_self, hord₁]
  -- the two halves were not allocated, except the block being freed
  have hboth : ∀ x, x = b ∨ x = Buddy b k → x ≠ a → ¬Allocated blk₀ x := by
    rintro x (rfl | rfl) hxa
    · exact hm.fresh hxa
    · have hfree : ¬Allocated blk (Buddy b k) := fun ⟨k', hk'⟩ => by rw [hbud] at hk'; simp at hk'
      exact fun hx => hfree ((hm.allocated _ hne).mpr ⟨hxa, hx⟩)
  refine ⟨⟨h₂, lo, Buddy lo ((h₁.mem lo).order + 1)⟩, _, _, by rw [freeBody, hrf], ⟨hinv₂, ?_, ?_, ?_, ?_, ?_, ?_⟩,
    hord₂⟩
  · dsimp only
    rw [hord₂, update_self]
  · dsimp only
    rw [hord₂, hord₁]
  · -- an allocated block other than the two halves kept its header
    intro x k' hxlo hx
    dsimp only at hxlo hx ⊢
    rw [update_of_ne hxlo] at hx
    have hxhi : x ≠ lo + 2 ^ k := ne_of_update_apply hx (by simp)
    have hxt : x ≠ Buddy b k := by omega
    rw [update_of_ne hxhi, update_of_ne hxt] at hx
    show (update h₁.mem lo _ x).type ≠ _
    rw [update_of_ne hxlo, hr.type]
    exact hm.reserved x k' (show x ≠ b by omega) hx
  · refine hm.noFreeBuddies.mono fun x k' _ hx => ?_
    have hxlo : x ≠ lo := ne_of_update_apply hx (by simp)
    rw [update_of_ne hxlo] at hx
    have hxhi : x ≠ lo + 2 ^ k := ne_of_update_apply hx (by simp)
    rw [update_of_ne hxhi, update_of_ne (by omega)] at hx
    exact hx
  · intro x hxlo
    dsimp only at hxlo
    unfold Allocated
    by_cases hxhi : x = lo + 2 ^ k
    · -- the upper half is inside the merged block
      rw [update_of_ne hxlo, hxhi, update_self]
      simp only [reduceCtorEq, exists_false, false_iff, not_and]
      exact hboth _ (by omega)
    · rw [update_of_ne hxlo, update_of_ne hxhi, update_of_ne (show x ≠ Buddy b k by omega)]
      exact hm.allocated x (show x ≠ b by omega)
  · exact hboth lo (by omega)

end Merging

/-- The merge loop of `Free` ends, within one test more than the orders left
above the current one, at a block whose buddy is not free. -/
theorem mergeLoop_spec {blk₀ : Blocks} {a : Nat} :
    ∀ (fuel : Nat) (s : FreeState) (blk : Blocks) (L : Nat → List Nat), Merging blk₀ a s blk L →
      kNumOrders - 1 - (s.heap.mem s.blockIndex).order < fuel →
      ∃ s' blk' L', mergeLoop fuel s = some s' ∧ Merging blk₀ a s' blk' L' ∧ freeGuard s' = false := by
  intro fuel
  induction fuel with
  | zero => intro s blk L _ hfuel; omega
  | succ fuel ih =>
    intro s blk L hm hfuel
    rw [mergeLoop]
    by_cases hg : freeGuard s = true
    · -- merge once; the order rises towards the largest
      obtain ⟨s', blk', L', hbody, hm', hord⟩ := hm.step hg
      have hk := (hm.guard_iff.mp hg).2
      rw [if_pos hg, hbody]
      exact ih s' blk' L' hm' (by omega)
    · rw [if_neg hg]
      exact ⟨s, blk, L, rfl, hm, Bool.eq_false_iff.mpr hg⟩

namespace WellFormed

variable {h : Heap} {blk : Blocks} {L : Nat → List Nat}

/-- `Free(a)` of an allocated block returns and leaves a well-formed heap, in
which `a`, and no other block, is no longer allocated. -/
theorem free (hwf : WellFormed h blk L) {a : Nat} (ha : Allocated blk a) :
    ∃ h' blk' L', h.Free a = some h' ∧ WellFormed h' blk' L' ∧ ∀ x, Allocated blk' x ↔ x ≠ a ∧ Allocated blk x := by
  obtain ⟨k, hk⟩ := ha
  obtain ⟨s, blk₁, L₁, hloop, hm, hg⟩ :=
    mergeLoop_spec kNumOrders _ blk L (Merging.start hwf hk) (by simp only [kNumOrders]; omega)
  have hb := hm.block
  -- the merged block goes on the list of its order
  let h' : Heap := { s.heap with
    mem := update s.heap.mem s.blockIndex
      ⟨(s.heap.mem s.blockIndex).order, .kFree, s.heap.freeBlocks (s.heap.mem s.blockIndex).order⟩
    freeBlocks := update s.heap.freeBlocks (s.heap.mem s.blockIndex).order s.blockIndex
    totalDeallocatedBlocks := s.heap.totalDeallocatedBlocks + 1 }
  have hinv' : Invariant h' (update blk₁ s.blockIndex (some ((s.heap.mem s.blockIndex).order, true)))
      (update L₁ (s.heap.mem s.blockIndex).order (s.blockIndex :: L₁ (s.heap.mem s.blockIndex).order)) :=
    hm.inv.push hb rfl rfl rfl rfl
  refine ⟨h', _, _, by rw [Heap.Free, hloop], ⟨hinv', ?_, ?_⟩, fun x => ?_⟩
  · -- the other allocated blocks kept their headers
    intro x k' hx
    have hxs : x ≠ s.blockIndex := ne_of_update_apply hx (by simp)
    rw [update_of_ne hxs] at hx
    show (update s.heap.mem s.blockIndex _ x).type ≠ _
    rw [update_of_ne hxs]
    exact hm.reserved x k' hxs hx
  · -- the loop stopped, so the buddy is not free of the same order
    refine hm.noFreeBuddies.push hb fun hlt hbud => ?_
    rw [← hm.buddy] at hbud
    have := hm.guard_iff.mpr ⟨hbud, hlt⟩
    rw [hg] at this
    exact Bool.false_ne_true this
  · unfold Allocated
    by_cases hxs : x = s.blockIndex
    · rw [hxs, update_self]
      simp only [Option.some.injEq, Prod.mk.injEq, Bool.true_eq_false, and_false, exists_false, false_iff, not_and]
      exact hm.fresh
    · rw [update_of_ne hxs]
      exact hm.allocated x hxs

end WellFormed

end Zircon.Inspect
