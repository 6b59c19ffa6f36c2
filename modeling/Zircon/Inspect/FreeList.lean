import Mathlib
import Zircon.Intrusive
import Zircon.Inspect.Heap

/-!
# The free lists of the Inspect heap

`FreeList h k l` says that `free_blocks_[k]` heads the list `l`, threaded
through the `NextFreeBlock` fields and ended by `0`, and that every block on
it is free of order `k`. Index `0` may be on the list and end it at once.

On such a list `RemoveFree` finds every element: it unlinks it by pointing
the head, or the predecessor that its walk stops at, past it, and changes
nothing else (`Relinks`). And the blocks a walk from the head reaches while
the blocks are free of order `k` are the elements of the list.
-/

namespace Zircon.Inspect

open Function Intrusive

namespace Heap

variable {h h' : Heap} {k x : Nat}

theorem isFreeBlock_iff :
    h.IsFreeBlock x k = true ↔ x < h.curSize / kMinOrderSize ∧ (h.mem x).type = .kFree ∧ (h.mem x).order = k := by
  unfold IsFreeBlock
  by_cases hx : h.curSize / kMinOrderSize ≤ x
  · simp [hx, Nat.not_lt.mpr hx]
  · simp [hx, Nat.lt_of_not_le hx]

/-- `IsFreeBlock` reads the size and the block's order and type. -/
theorem isFreeBlock_congr (hsize : h'.curSize = h.curSize) (horder : (h'.mem x).order = (h.mem x).order)
    (htype : (h'.mem x).type = (h.mem x).type) : h'.IsFreeBlock x k = h.IsFreeBlock x k := by
  simp only [IsFreeBlock, hsize, horder, htype]

/-- A block reached from `free_blocks_[k]` by following `NextFreeBlock`
through free blocks of order `k`. -/
def FreeReach (h : Heap) (k x : Nat) : Prop :=
  ∃ j, (∀ i ≤ j, h.IsFreeBlock (h.nextFree^[i] (h.freeBlocks k)) k = true) ∧ h.nextFree^[j] (h.freeBlocks k) = x

end Heap

/-- `free_blocks_[k]` heads `l`, linked through `NextFreeBlock` and ended by
`0`, and every block of `l` is free of order `k`. -/
structure FreeList (h : Heap) (k : Nat) (l : List Nat) : Prop where
  nodup : l.Nodup
  head : h.freeBlocks k = l.head?.getD 0
  linked : Linked h.nextFree 0 l
  free : ∀ x ∈ l, h.IsFreeBlock x k = true

/-- `h'` is `h` with at most `free_blocks_[k]` and the successors of the
blocks of `l` changed. -/
structure Relinks (h h' : Heap) (k : Nat) (l : List Nat) : Prop where
  curSize : h'.curSize = h.curSize
  maxSize : h'.maxSize = h.maxSize
  freeBlocks : ∀ k', k' ≠ k → h'.freeBlocks k' = h.freeBlocks k'
  order : ∀ x, (h'.mem x).order = (h.mem x).order
  type : ∀ x, (h'.mem x).type = (h.mem x).type
  next : ∀ x, x ∉ l → (h'.mem x).next = (h.mem x).next

theorem Relinks.isFreeBlock {h h' : Heap} {k : Nat} {l : List Nat} (hr : Relinks h h' k l) (x k' : Nat) :
    h'.IsFreeBlock x k' = h.IsFreeBlock x k' :=
  Heap.isFreeBlock_congr hr.curSize (hr.order x) (hr.type x)

namespace FreeList

variable {h : Heap} {k : Nat} {l : List Nat}

theorem lt (hl : FreeList h k l) {x : Nat} (hx : x ∈ l) : x < h.curSize / kMinOrderSize :=
  (Heap.isFreeBlock_iff.mp (hl.free x hx)).1

theorem order (hl : FreeList h k l) {x : Nat} (hx : x ∈ l) : (h.mem x).order = k :=
  (Heap.isFreeBlock_iff.mp (hl.free x hx)).2.2

/-- The list has no more blocks than the heap has units. -/
theorem length_le (hl : FreeList h k l) : l.length ≤ h.curSize / kMinOrderSize := by
  have hsub : l ⊆ List.range (h.curSize / kMinOrderSize) := fun x hx => List.mem_range.mpr (hl.lt hx)
  simpa using (hl.nodup.subperm hsub).length_le

/-- The walk from `free_blocks_[k]` meets exactly the list, given that a free
block `0` of order `k` is on it. -/
theorem freeReach_iff (hl : FreeList h k l) (h0 : h.IsFreeBlock 0 k = true → 0 ∈ l) {x : Nat} :
    h.FreeReach k x ↔ x ∈ l := by
  unfold Heap.FreeReach
  rw [hl.head]
  exact hl.linked.reach_iff hl.free h0

/-- The blocks of the list stay free when the heap grows and they stay. -/
theorem free_frame {h' : Heap} (hl : FreeList h k l) (hsize : h.curSize ≤ h'.curSize)
    (hmem : ∀ x ∈ l, h'.mem x = h.mem x) : ∀ x ∈ l, h'.IsFreeBlock x k = true := by
  intro x hx
  have hfree := Heap.isFreeBlock_iff.mp (hl.free x hx)
  rw [Heap.isFreeBlock_iff, hmem x hx]
  exact ⟨Nat.lt_of_lt_of_le hfree.1 (Nat.div_le_div_right hsize), hfree.2⟩

/-- A list stays one when the heap grows and its head and blocks stay. -/
theorem frame {h' : Heap} (hl : FreeList h k l) (hsize : h.curSize ≤ h'.curSize)
    (hhead : h'.freeBlocks k = h.freeBlocks k) (hmem : ∀ x ∈ l, h'.mem x = h.mem x) : FreeList h' k l :=
  ⟨hl.nodup, hhead.trans hl.head, hl.linked.congr fun x hx => by simp [Heap.nextFree, hmem x hx],
    hl.free_frame hsize hmem⟩

/-- Pushing a free block `x` of order `k` on the list. -/
theorem push {h' : Heap} (hl : FreeList h k l) {x : Nat} (hx : x ∉ l) (hsize : h.curSize ≤ h'.curSize)
    (hhead : h'.freeBlocks k = x) (hmem : ∀ y ∈ l, h'.mem y = h.mem y) (hnext : h'.nextFree x = h.freeBlocks k)
    (hfree : h'.IsFreeBlock x k = true) : FreeList h' k (x :: l) := by
  refine ⟨List.nodup_cons.mpr ⟨hx, hl.nodup⟩, hhead, ?_, ?_⟩
  · exact hl.linked.push (fun y hy => by simp [Heap.nextFree, hmem y hy]) (hnext.trans hl.head)
  · intro y hy
    rcases List.mem_cons.mp hy with rfl | hy
    · exact hfree
    · exact hl.free_frame hsize hmem y hy

/-- `RemoveFree` unlinks a block of the list, and changes nothing else. -/
theorem removeFree (hl : FreeList h k l) (hk : k < kNumOrders) {b : Nat} (hb : b ∈ l) :
    ∃ h', h.RemoveFree b = some (h', true) ∧ FreeList h' k (l.erase b) ∧ Relinks h h' k l := by
  obtain ⟨l₁, l₂, rfl⟩ := List.append_of_mem hb
  have hord : (h.mem b).order = k := hl.order hb
  rcases List.eq_nil_or_concat l₁ with rfl | ⟨l₁, p, rfl⟩
  · -- `b` heads the list: `free_blocks_[k]` takes its successor
    have hhead : h.freeBlocks k = b := by rw [hl.head]; rfl
    let h' : Heap := { h with freeBlocks := update h.freeBlocks k (h.nextFree b) }
    have hr : Relinks h h' k ([] ++ b :: l₂) :=
      ⟨rfl, rfl, fun k' hk' => update_of_ne hk' _ _, fun _ => rfl, fun _ => rfl, fun _ _ => rfl⟩
    refine ⟨h', by rw [Heap.RemoveFree, hord, if_neg (by omega), if_pos hhead], ?_, hr⟩
    rw [List.nil_append, List.erase_cons_head]
    exact ⟨(List.nodup_cons.mp hl.nodup).2, by dsimp only [h']; rw [update_self]; exact hl.linked.next_head,
      hl.linked.tail, fun x hx => (hr.isFreeBlock x k).trans (hl.free x (List.mem_cons_of_mem b hx))⟩
  · -- the walk stops at the predecessor `p`, which is then pointed past `b`
    rw [List.concat_eq_append, List.append_assoc, List.singleton_append] at hl ⊢
    have hpb : p ≠ b := by
      intro hpb
      have hnd := (List.nodup_append.mp hl.nodup).2.1
      rw [hpb] at hnd
      exact (List.nodup_cons.mp hnd).1 List.mem_cons_self
    have hhead : h.freeBlocks k ≠ b := by
      rw [hl.head]
      cases l₁ with
      | nil => exact hpb
      | cons a l₁ => exact (List.nodup_append.mp hl.nodup).2.2 a List.mem_cons_self b (by simp)
    have hwalk : Loop.run (h.walkGuard b k) h.nextFree (h.curSize / kMinOrderSize + 1) (h.freeBlocks k) = some p := by
      rw [hl.head]
      refine hl.linked.run_stop_pred hl.nodup (fun x hx => hl.free x ?_) ?_
      · simp only [List.mem_append, List.mem_singleton] at hx
        simp only [List.mem_append, List.mem_cons]
        tauto
      · have := hl.length_le
        simp only [List.length_append, List.length_cons] at this
        omega
    have hp : h.IsFreeBlock p k = true := hl.free p (by simp)
    let h' : Heap := { h with mem := update h.mem p { h.mem p with next := h.nextFree b } }
    have hr : Relinks h h' k (l₁ ++ p :: b :: l₂) := by
      refine ⟨rfl, rfl, fun _ _ => rfl, fun x => ?_, fun x => ?_, fun x hx => ?_⟩
      · by_cases hxp : x = p <;> simp [h', hxp]
      · by_cases hxp : x = p <;> simp [h', hxp]
      · have hxp : x ≠ p := fun hxp => hx (by simp [hxp])
        simp [h', hxp]
    refine ⟨h', by rw [Heap.RemoveFree, hord, if_neg (by omega), if_neg hhead, hwalk]; dsimp only; rw [if_pos hp], ?_, hr⟩
    have hnext : h'.nextFree = update h.nextFree p (h.nextFree b) := by
      funext i
      by_cases hi : i = p
      · subst hi; simp [h', Heap.nextFree]
      · simp [h', hi, Heap.nextFree]
    have hb₁ : b ∉ l₁ := fun hb₁ => (List.nodup_append.mp hl.nodup).2.2 b hb₁ b (by simp) rfl
    rw [List.erase_append_right _ hb₁, List.erase_cons_tail (by simpa using hpb), List.erase_cons_head]
    refine ⟨?_, ?_, ?_, fun x hx => (hr.isFreeBlock x k).trans (hl.free x ?_)⟩
    · exact hl.nodup.sublist (List.Sublist.append_left (List.Sublist.cons_cons p (List.sublist_cons_self b l₂)) l₁)
    · show h.freeBlocks k = _
      rw [hl.head]
      cases l₁ <;> rfl
    · rw [hnext]
      exact hl.linked.unlink hl.nodup
    · simp only [List.mem_append, List.mem_cons] at hx ⊢
      tauto

end FreeList

end Zircon.Inspect
