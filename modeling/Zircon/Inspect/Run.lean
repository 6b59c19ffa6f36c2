import Zircon.Inspect.Free

/-!
# The Inspect heap over whole runs

A program holding an Inspect VMO makes the `Heap` with `Heap(vmo)` and then
calls `Allocate(min_size)` with `min_size` from `sizeof(Block)` to
`kMaxOrderSize`, keeping the blocks it gets, and `Free` on a block it holds,
once. `Run h A` says that such a program can reach the heap `h` holding the
blocks `A`.

Every reachable heap is well formed with `A` as its allocated blocks
(`Run.wellFormed`), by the specifications of `Heap(vmo)`, `Allocate` and
`Free`; `heap_run_invariant` spells out what that means for the VMO.
-/

namespace Zircon.Inspect

open Function Buddy

/-! ## `Heap(vmo)` -/

/-- The heap before `Heap(vmo)` extends it: nothing in use, every list head
`0`. -/
theorem wellFormed_empty {maxSize : Nat} {mem : Nat → Header} (hdvd : kMinVmoSize ∣ maxSize) :
    WellFormed ⟨0, maxSize, fun _ => 0, mem, 0, 0, 0⟩ (fun _ => none) (fun _ => []) := by
  refine ⟨⟨Nat.dvd_zero _, hdvd, Nat.zero_le _, Nat.zero_le _, ?_, fun _ _ _ hx => (nomatch hx),
    fun k _ => ⟨List.nodup_nil, rfl, Intrusive.linked_nil, fun _ hx => (nomatch hx)⟩, fun _ _ x => ?_⟩,
    fun _ _ hx => (nomatch hx), fun _ _ hx => (nomatch hx)⟩
  · exact ⟨fun _ _ _ hx => (nomatch hx), fun _ hx => absurd hx (by simp),
      fun _ _ _ _ _ _ hx => (nomatch hx)⟩
  · simp

/-- `Heap(vmo)` on a VMO whose size is a whole number of pages, as every
VMO's is, makes a well-formed heap of one page with nothing allocated. -/
theorem Heap.new_wellFormed {maxSize : Nat} {mem : Nat → Header} (hdvd : kMinVmoSize ∣ maxSize)
    (hpos : 0 < maxSize) : ∃ h blk L, Heap.new maxSize mem = some h ∧ WellFormed h blk L ∧ ∀ x, ¬Allocated blk x := by
  have hwf : WellFormed ⟨0, maxSize, fun _ => 0, mem, 0, 0, 0⟩ (fun _ => none) (fun _ => []) :=
    wellFormed_empty hdvd
  obtain ⟨h, L, hext, hwf', -⟩ :=
    hwf.extend (Nat.dvd_refl _) (show 0 < kMinVmoSize by decide) (Nat.le_of_dvd hpos hdvd) (by decide)
  refine ⟨h, _, L, ?_, hwf', fun x hx => ?_⟩
  · rw [Heap.new, if_neg (by omega), hext]
    rfl
  · obtain ⟨k, hk⟩ := (hwf.allocated_extendedBlocks _ x).mp hx
    exact nomatch hk

/-! ## Runs -/

/-- The heaps a program reaches, with the blocks it holds: from `Heap(vmo)`
on a VMO whose size is a whole number of pages, by `Allocate(n)` for `n` from
`sizeof(Block)` to `kMaxOrderSize`, keeping the block it returns, and by `Free`
of a block it holds. -/
inductive Run : Heap → List Nat → Prop
  | new {maxSize : Nat} {mem : Nat → Header} {h : Heap} :
      kMinVmoSize ∣ maxSize → Heap.new maxSize mem = some h → Run h []
  | allocate {h h' : Heap} {A : List Nat} {n b : Nat} :
      Run h A → kMinOrderSize ≤ n → n ≤ kMaxOrderSize → h.Allocate n = some (h', .ok b) → Run h' (b :: A)
  | allocateFails {h h' : Heap} {A : List Nat} {n : Nat} {e : Status} :
      Run h A → kMinOrderSize ≤ n → n ≤ kMaxOrderSize → h.Allocate n = some (h', .error e) → Run h' A
  | free {h h' : Heap} {A : List Nat} {a : Nat} : Run h A → a ∈ A → h.Free a = some h' → Run h' (A.erase a)

/-- A reachable heap is well formed, and the blocks the program holds are
the allocated blocks of its tiling, each once. -/
theorem Run.wellFormed {h : Heap} {A : List Nat} (hrun : Run h A) :
    A.Nodup ∧ ∃ blk L, WellFormed h blk L ∧ ∀ x, x ∈ A ↔ Allocated blk x := by
  induction hrun with
  | new hdvd hnew =>
    rename_i maxSize mem h
    have hpos : 0 < maxSize := Nat.pos_of_ne_zero fun h0 => by simp [Heap.new, h0] at hnew
    obtain ⟨h', blk, L, hnew', hwf, hnone⟩ := @Heap.new_wellFormed maxSize mem hdvd hpos
    rw [hnew, Option.some.injEq] at hnew'
    subst hnew'
    exact ⟨List.nodup_nil, blk, L, hwf, fun x => iff_of_false List.not_mem_nil (hnone x)⟩
  | allocate _ hn hn' hall ih =>
    obtain ⟨hnd, blk, L, hwf, hA⟩ := ih
    obtain ⟨h₁, r, hall', blk', L', hwf', hafter, -⟩ := hwf.allocate hn hn'
    rw [hall, Option.some.injEq, Prod.mk.injEq] at hall'
    obtain ⟨rfl, rfl⟩ := hall'
    obtain ⟨hnew, hchange⟩ := hafter
    refine ⟨List.nodup_cons.mpr ⟨fun hb => hnew ((hA _).mp hb), hnd⟩, blk', L', hwf', fun x => ?_⟩
    rw [List.mem_cons, hchange x, hA x]
  | allocateFails _ hn hn' hall ih =>
    obtain ⟨hnd, blk, L, hwf, hA⟩ := ih
    obtain ⟨h₁, r, hall', blk', L', hwf', hafter, -⟩ := hwf.allocate hn hn'
    rw [hall, Option.some.injEq, Prod.mk.injEq] at hall'
    obtain ⟨rfl, rfl⟩ := hall'
    exact ⟨hnd, blk', L', hwf', fun x => by rw [hafter x, hA x]⟩
  | free _ ha hfree ih =>
    obtain ⟨hnd, blk, L, hwf, hA⟩ := ih
    obtain ⟨h₁, blk', L', hfree', hwf', hchange⟩ := hwf.free ((hA _).mp ha)
    rw [hfree, Option.some.injEq] at hfree'
    subst hfree'
    refine ⟨hnd.erase _, blk', L', hwf', fun x => ?_⟩
    rw [hnd.mem_erase_iff, hchange x, hA x]

/-- The heap's invariant over whole runs. The blocks it holds are distinct,
and there is a tiling of `[0, size())`, in units of `kMinOrderSize` bytes,
into blocks aligned to their size, whose headers give their orders and say
free on the free blocks only; its allocated blocks are those held. From every
list head, the walk through the free blocks of its order meets exactly the
free blocks of that order, and no free block below the largest order has a
free buddy of its order; so `RemoveFree` finds every free block. The blocks
held do not overlap. `Allocate` returns, and a block it returns is new and
reserved with order `FitOrder(min_size)`; `Free` of a held block returns. -/
theorem heap_run_invariant {h : Heap} {A : List Nat} (hrun : Run h A) :
    A.Nodup ∧
      (∃ blk : Blocks, Tiles blk kNumOrders (h.curSize / kMinOrderSize) ∧
        (∀ x k b, blk x = some (k, b) → (h.mem x).order = k ∧ ((h.mem x).type = .kFree ↔ b = true)) ∧
        (∀ x, x ∈ A ↔ Allocated blk x) ∧
        (∀ k, k < kNumOrders → ∀ x, h.FreeReach k x ↔ blk x = some (k, true)) ∧
        NoFreeBuddies blk ∧
        ∀ x k, blk x = some (k, true) → ∃ h', h.RemoveFree x = some (h', true)) ∧
      (∀ a ∈ A, ∀ a' ∈ A, a < a' → a + 2 ^ (h.mem a).order ≤ a') ∧
      (∀ n, kMinOrderSize ≤ n → n ≤ kMaxOrderSize → ∃ h' r, h.Allocate n = some (h', r) ∧
        ∀ b, r = .ok b → h'.mem b = ⟨FitOrder n, .kReserved, 0⟩ ∧ b ∉ A) ∧
      ∀ a ∈ A, ∃ h', h.Free a = some h' := by
  obtain ⟨hnd, blk, L, hwf, hA⟩ := hrun.wellFormed
  refine ⟨hnd, ⟨blk, hwf.tiles, fun x k b hx => ⟨hwf.order x k b hx, ?_⟩, hA, fun k hk => hwf.freeReach_iff hk,
    hwf.noFreeBuddies, fun x k hx => ?_⟩, fun a ha a' ha' hlt => ?_, fun n hn hn' => ?_, fun a ha => ?_⟩
  · -- free headers are on the lists, allocated ones reserved
    cases b with
    | true => exact iff_of_true (Heap.isFreeBlock_iff.mp (hwf.isFreeBlock hx)).2.1 rfl
    | false => exact iff_of_false (hwf.reserved x k hx) Bool.false_ne_true
  · obtain ⟨h', hrf, -⟩ := hwf.removeFree hx
    exact ⟨h', hrf⟩
  · obtain ⟨k, hk⟩ := (hA a).mp ha
    obtain ⟨k', hk'⟩ := (hA a').mp ha'
    rw [hwf.order a k false hk]
    exact hwf.tiles.disjoint a k false a' k' false hk hk' hlt
  · obtain ⟨h', r, hall, blk', L', -, hafter, hhdr⟩ := hwf.allocate hn hn'
    refine ⟨h', r, hall, fun b hok => ⟨hhdr b hok, fun hb => ?_⟩⟩
    subst hok
    exact hafter.1 ((hA b).mp hb)
  · obtain ⟨h', blk', L', hfree, -⟩ := hwf.free ((hA a).mp ha)
    exact ⟨h', hfree⟩

/-- A zero-filled VMO of one page, with a block of the smallest size
allocated from it. -/
theorem heap_run_invariant_allocate :
    match (Heap.new kMinVmoSize fun _ => ⟨0, .kFree, 0⟩).bind (·.Allocate kMinOrderSize) with
    | some (h, .ok b) => Run h [b] ∧ ∀ a ∈ [b], ∃ h', h.Free a = some h'
    | _ => False := by
  have hval : ((Heap.new kMinVmoSize fun _ => ⟨0, .kFree, 0⟩).bind (·.Allocate kMinOrderSize)).map Prod.snd =
      some (.ok 0) := rfl
  split
  · rename_i h b heq
    obtain ⟨h₀, hnew, hall⟩ := Option.bind_eq_some_iff.mp heq
    have hrun : Run h [b] := .allocate (.new (Nat.dvd_refl _) hnew) (Nat.le_refl _) (by decide) hall
    exact ⟨hrun, (heap_run_invariant hrun).2.2.2.2⟩
  · rename_i hne
    rcases hres : (Heap.new kMinVmoSize fun _ => ⟨0, .kFree, 0⟩).bind (·.Allocate kMinOrderSize) with _ | ⟨h, r⟩
    · rw [hres] at hval
      cases hval
    · rw [hres] at hval
      cases hval
      exact hne h 0 hres

end Zircon.Inspect
