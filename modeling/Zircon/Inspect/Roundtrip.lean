import Zircon.Inspect.Run
import Zircon.Inspect.Scanner

/-!
# `Allocate` then `Free` leaves the layout as it was

When `Allocate(min_size)` takes a free block `b` of order `i` without
extending the VMO, it splits `b` down to `FitOrder(min_size)`, leaving the
buddies `b + 2 ^ j` free of each order `j` in between. `Free(b)` right after
finds each of those buddies free and merges them back, up to order `i`. It
stops there, because the heap it started from had no free buddies. The
blocks the VMO holds, by index, type and order, are then those it held before.
Only the free lists may be linked in another order.

`Split h₀ h b m i` says what the two loops keep between their passes: `h` is
`h₀` with `b` split down to order `m`. Outside `b`'s block the headers'
types and orders are those of `h₀`. The buddies from order `m` up are free
of their orders, and `b` is of order `m`. `RemoveFree` only relinks, so each
operation's effect on it is a header write. The split loop lowers `m` and the
merge loop raises it again, all without the free lists. That the loops get
through, `RemoveFree` finding each block on its list, is the work of the
invariant of `Run`.
-/

namespace Zircon.Inspect

open Function Buddy

/-! ## What the operations write -/

namespace Heap

variable {h h' : Heap}

/-- `RemoveFree` rewrites a successor link at most: the size and every
header's type and order stay. -/
theorem removeFree_headers {x : Nat} {r : Bool} (hrf : h.RemoveFree x = some (h', r)) :
    h'.curSize = h.curSize ∧ ∀ y, (h'.mem y).type = (h.mem y).type ∧ (h'.mem y).order = (h.mem y).order := by
  unfold RemoveFree at hrf
  dsimp only at hrf
  split_ifs at hrf
  · cases hrf
    exact ⟨rfl, fun _ => ⟨rfl, rfl⟩⟩
  · cases hrf
    exact ⟨rfl, fun _ => ⟨rfl, rfl⟩⟩
  · split at hrf
    · cases hrf
    · rename_i cur _
      split_ifs at hrf
      · cases hrf
        refine ⟨rfl, fun y => ?_⟩
        by_cases hy : y = cur
        · subst hy
          simp
        · simp [hy]
      · cases hrf
        exact ⟨rfl, fun _ => ⟨rfl, rfl⟩⟩

theorem splitBlock_curSize {x : Nat} {r : Bool} (hsb : h.SplitBlock x = some (h', r)) : h'.curSize = h.curSize := by
  unfold SplitBlock at hsb
  split at hsb
  · cases hsb
  · rename_i h₁ _ hrf
    have hsize := (removeFree_headers hrf).1
    dsimp only at hsb
    split_ifs at hsb <;> cases hsb <;> exact hsize

theorem splitLoop_curSize {x m : Nat} {r : Bool} :
    ∀ fuel (h h' : Heap), splitLoop x m fuel h = some (h', r) → h'.curSize = h.curSize
  | 0, _, _, hsl => by cases hsl
  | fuel + 1, h, h', hsl => by
    unfold splitLoop at hsl
    split_ifs at hsl
    · split at hsl
      · cases hsl
      · rename_i h₁ hsb
        cases hsl
        exact splitBlock_curSize hsb
      · rename_i h₁ hsb
        exact (splitLoop_curSize fuel h₁ h' hsl).trans (splitBlock_curSize hsb)
    · cases hsl
      rfl

theorem takeBlock_curSize {i m : Nat} {r : Except Status Nat} (htake : h.takeBlock i m = some (h', r)) :
    h'.curSize = h.curSize := by
  unfold takeBlock at htake
  dsimp only at htake
  split at htake
  · cases htake
  · rename_i hsl
    cases htake
    exact splitLoop_curSize _ h _ hsl
  · rename_i h₁ hsl
    split at htake
    · cases htake
    · rename_i h₂ _ hrf
      cases htake
      exact (removeFree_headers hrf).1.trans (splitLoop_curSize _ h _ hsl)

/-- `Extend` that reports `ZX_OK` has grown the heap, when it asked for more
than it has. -/
theorem extend_grows {n : Nat} (hle : h.curSize ≤ h.maxSize) (hn : h.curSize < n)
    (hext : h.Extend n = some (h', .ok)) : h.curSize < h'.curSize := by
  unfold Extend at hext
  dsimp only at hext
  split_ifs at hext with hfail hsame
  · cases hext
  · -- `cur_size_ >= new_size` would need a full VMO, which the first test caught
    exfalso
    rw [not_or, not_and_or] at hfail
    rcases Nat.le_total n h.maxSize with hnm | hnm
    · rw [Nat.min_eq_right hnm] at hsame
      omega
    · rw [Nat.min_eq_left hnm] at hsame
      omega
  · split at hext
    · cases hext
    · cases hext
      show h.curSize < min h.maxSize n
      omega

end Heap

/-! ## Splitting and merging back -/

/-- `h` is `h₀` with the block `b` of order `i` split down to order `m`. -/
structure Split (h₀ h : Heap) (b m i : Nat) : Prop where
  curSize : h.curSize = h₀.curSize
  frame : ∀ x, (x < b ∨ b + 2 ^ i ≤ x) → (h.mem x).type = (h₀.mem x).type ∧ (h.mem x).order = (h₀.mem x).order
  buddies : ∀ j, m ≤ j → j < i → (h.mem (b + 2 ^ j)).type = .kFree ∧ (h.mem (b + 2 ^ j)).order = j
  order : (h.mem b).order = m

namespace Split

variable {h₀ h h' : Heap} {b m i : Nat}

theorem refl (hb : (h₀.mem b).order = i) : Split h₀ h₀ b i i :=
  ⟨rfl, fun _ _ => ⟨rfl, rfl⟩, fun _ hj hj' => absurd hj' (by omega), hb⟩

theorem removeFree (hs : Split h₀ h b m i) {x : Nat} {r : Bool} (hrf : h.RemoveFree x = some (h', r)) :
    Split h₀ h' b m i := by
  obtain ⟨hsize, hhdr⟩ := Heap.removeFree_headers hrf
  refine ⟨hsize.trans hs.curSize, fun x hx => ?_, fun j hj hj' => ?_, (hhdr b).2.trans hs.order⟩
  · rw [(hhdr x).1, (hhdr x).2]
    exact hs.frame x hx
  · rw [(hhdr _).1, (hhdr _).2]
    exact hs.buddies j hj hj'

/-- A header of order `m' ≥ m` written at `b`: the buddies below `m'` are no
longer counted. -/
theorem set (hs : Split h₀ h b m i) (hm : m ≤ m') {hd : Header} (hord : hd.order = m')
    (hsize : h'.curSize = h.curSize) (hmem : h'.mem = update h.mem b hd) : Split h₀ h' b m' i := by
  have hne : ∀ j, b + 2 ^ j ≠ b := fun j => by have := Nat.two_pow_pos j; omega
  have hpos := Nat.two_pow_pos i
  refine ⟨hsize.trans hs.curSize, fun x hx => ?_, fun j hj hj' => ?_, by rw [hmem, update_self, hord]⟩
  · rw [hmem, update_of_ne (by omega)]
    exact hs.frame x hx
  · rw [hmem, update_of_ne (hne j)]
    exact hs.buddies j (by omega) hj'

/-- A split of `b` from order `j + 1`: `b` and its new buddy `b + 2 ^ j`
become free of order `j`. -/
theorem lower (hs : Split h₀ h b (j + 1) i) (hj : j < i) {hd hd' : Header} (hord : hd.order = j)
    (htype' : hd'.type = .kFree) (hord' : hd'.order = j) (hsize : h'.curSize = h.curSize)
    (hmem : h'.mem = update (update h.mem b hd) (b + 2 ^ j) hd') : Split h₀ h' b j i := by
  have hne : ∀ j, b + 2 ^ j ≠ b := fun j => by have := Nat.two_pow_pos j; omega
  have hlt : 2 ^ j < 2 ^ i := Nat.pow_lt_pow_right (by decide) hj
  have hpos := Nat.two_pow_pos j
  refine ⟨hsize.trans hs.curSize, fun x hx => ?_, fun j' hj' hj'' => ?_, ?_⟩
  · rw [hmem, update_of_ne (by omega), update_of_ne (by omega)]
    exact hs.frame x hx
  · rw [hmem]
    by_cases hjj : j' = j
    · subst hjj
      rw [update_self]
      exact ⟨htype', hord'⟩
    · -- a higher buddy is neither of the two written
      have hpow : 2 ^ j' ≠ 2 ^ j := fun heq => hjj (Nat.pow_right_injective (le_refl 2) heq)
      rw [update_of_ne (by omega), update_of_ne (hne j')]
      exact hs.buddies j' (by omega) hj''
  · rw [hmem, update_of_ne (hne j).symm, update_self, hord]

end Split

/-- `SplitBlock` on `b` of order `j + 1 ≤ i`, aligned to `2 ^ i`. -/
theorem Split.splitBlock {h₀ h h' : Heap} {b j i : Nat} (hs : Split h₀ h b (j + 1) i) (hb : 2 ^ i ∣ b)
    (hj : j < i) (hsb : h.SplitBlock b = some (h', true)) : Split h₀ h' b j i := by
  unfold Heap.SplitBlock at hsb
  split at hsb
  · cases hsb
  · rename_i h₁ _ hrf
    have hs₁ := hs.removeFree hrf
    dsimp only at hsb
    rw [hs₁.order, Nat.add_sub_cancel] at hsb
    -- `b` is the lower half of its block of order `j + 1`
    have hbud : Buddy b j = b + 2 ^ j := by
      rw [buddy_eq, xor_two_pow_of_dvd (Nat.dvd_trans (Nat.pow_dvd_pow 2 hj) hb)]
    split_ifs at hsb
    · cases hsb
    · cases hsb
      rw [hbud]
      exact hs₁.lower hj rfl rfl rfl rfl rfl

/-- The split loop of `Allocate` from `b` of order `j ≥ m` ends with `b` split
down to `m`. -/
theorem splitLoop_split {h₀ : Heap} {b m i : Nat} (hb : 2 ^ i ∣ b) :
    ∀ fuel (h h' : Heap) j, Split h₀ h b j i → m ≤ j → j ≤ i →
      Heap.splitLoop b m fuel h = some (h', true) → Split h₀ h' b m i
  | 0, _, _, _, _, _, _, hsl => by cases hsl
  | fuel + 1, h, h', j, hs, hmj, hji, hsl => by
    unfold Heap.splitLoop at hsl
    rw [hs.order] at hsl
    split_ifs at hsl with hgt
    · -- split once, one order down
      obtain ⟨j, rfl⟩ : ∃ j', j = j' + 1 := ⟨j - 1, by omega⟩
      split at hsl
      · cases hsl
      · cases hsl
      · rename_i h₁ hsb
        exact splitLoop_split hb fuel h₁ h' j (hs.splitBlock hb (by omega) hsb) (by omega) (by omega) hsl
    · cases hsl
      obtain rfl : j = m := by omega
      exact hs

/-- `takeBlock` on list `i`, whose head `b` is of order `i` and aligned to
`2 ^ i`: it returns `b` split down to order `m` and reserved. -/
theorem takeBlock_split {h h' : Heap} {i m b : Nat} (hb : 2 ^ i ∣ h.freeBlocks i)
    (hord : (h.mem (h.freeBlocks i)).order = i) (hmi : m ≤ i) (htake : h.takeBlock i m = some (h', .ok b)) :
    b = h.freeBlocks i ∧ Split h h' b m i := by
  unfold Heap.takeBlock at htake
  dsimp only at htake
  split at htake
  · cases htake
  · cases htake
  · rename_i h₁ hsl
    have hs₁ := splitLoop_split hb _ h h₁ i (Split.refl hord) hmi le_rfl hsl
    split at htake
    · cases htake
    · rename_i h₂ _ hrf
      have hs₂ := hs₁.removeFree hrf
      cases htake
      refine ⟨rfl, hs₂.set le_rfl ?_ rfl rfl⟩
      exact hs₂.order

/-! ## The merge loop of `Free` -/

/-- The buddy of an aligned block lies outside it. -/
theorem buddy_outside {b i : Nat} (hb : 2 ^ i ∣ b) : Buddy b i < b ∨ b + 2 ^ i ≤ Buddy b i := by
  rw [buddy_eq, xor_two_pow hb]
  split_ifs with h
  · exact .inr le_rfl
  · obtain ⟨-, hle, -⟩ := xor_two_pow_of_not_dvd hb h
    have := Nat.two_pow_pos i
    exact .inl (by omega)

/-- A merge at `b`, of order `j < i`: the buddy `b + 2 ^ j` comes off its
list and `b` goes up an order. -/
theorem Split.freeBody {h₀ : Heap} {s s' : FreeState} {b j i : Nat} (hs : Split h₀ s.heap b j i)
    (hb : 2 ^ i ∣ b) (hj : j < i) (hblock : s.blockIndex = b) (hbuddy : s.buddyIndex = Buddy b j)
    (hbody : freeBody s = some s') :
    s'.blockIndex = b ∧ s'.buddyIndex = Buddy b (j + 1) ∧ Split h₀ s'.heap b (j + 1) i := by
  obtain ⟨h, blockIndex, buddyIndex⟩ := s
  dsimp only at hblock hbuddy hs
  subst hblock hbuddy
  have hbud : Buddy blockIndex j = blockIndex + 2 ^ j := by
    rw [buddy_eq, xor_two_pow_of_dvd (Nat.dvd_trans (Nat.pow_dvd_pow 2 hj) hb)]
  unfold Zircon.Inspect.freeBody at hbody
  split at hbody
  · cases hbody
  · rename_i h₁ _ hrf
    have hs₁ := hs.removeFree hrf
    dsimp only at hbody
    -- the buddy is the upper half, so the merged block stays at `b`
    have hpos := Nat.two_pow_pos j
    rw [if_neg (by rw [hbud]; omega)] at hbody
    cases hbody
    refine ⟨rfl, by dsimp only; rw [hs₁.order], hs₁.set (Nat.le_succ j) ?_ rfl rfl⟩
    show (h₁.mem blockIndex).order + 1 = j + 1
    rw [hs₁.order]

/-- The merge loop of `Free(b)`, from `b` of order `j ≤ i` with the buddies
above it free, merges up to order `i` and stops there, where the buddy's
header in `h₀` does not say free of order `i`. -/
theorem mergeLoop_split {h₀ : Heap} {b i : Nat} (hb : 2 ^ i ∣ b) (hi : i < kNumOrders)
    (hstop : ¬((h₀.mem (Buddy b i)).type = .kFree ∧ i < kNumOrders - 1 ∧ (h₀.mem (Buddy b i)).order = i)) :
    ∀ fuel (s s' : FreeState) j, Split h₀ s.heap b j i → s.blockIndex = b → s.buddyIndex = Buddy b j →
      j ≤ i → mergeLoop fuel s = some s' → s'.blockIndex = b ∧ Split h₀ s'.heap b i i
  | 0, _, _, _, _, _, _, _, hml => by cases hml
  | fuel + 1, s, s', j, hs, hblock, hbuddy, hji, hml => by
    unfold mergeLoop at hml
    rcases Nat.lt_or_ge j i with hj | hj
    · -- the buddy `b + 2 ^ j` is free of order `j`: merge
      have hbud : Buddy b j = b + 2 ^ j := by
        rw [buddy_eq, xor_two_pow_of_dvd (Nat.dvd_trans (Nat.pow_dvd_pow 2 hj) hb)]
      obtain ⟨htype, hord⟩ := hs.buddies j le_rfl hj
      have hg : freeGuard s = true := by
        simp only [freeGuard, hblock, hbuddy, hbud, htype, hord, hs.order, Bool.and_eq_true, beq_self_eq_true,
          decide_eq_true_eq, and_true, true_and]
        omega
      rw [if_pos hg] at hml
      split at hml
      · cases hml
      · rename_i s₁ hbody
        obtain ⟨hblock₁, hbuddy₁, hs₁⟩ := hs.freeBody hb hj hblock hbuddy hbody
        exact mergeLoop_split hb hi hstop fuel s₁ s' (j + 1) hs₁ hblock₁ hbuddy₁ hj hml
    · -- at order `i` the buddy lies outside the block, as it was in `h₀`
      obtain rfl : j = i := by omega
      obtain ⟨htype, hord⟩ := hs.frame _ (buddy_outside hb)
      have hg : freeGuard s = false := by
        rw [Bool.eq_false_iff]
        intro hg
        simp only [freeGuard, hblock, hbuddy, htype, hord, hs.order, Bool.and_eq_true, beq_iff_eq,
          decide_eq_true_eq] at hg
        exact hstop ⟨hg.1.1, hg.1.2, hg.2.symm⟩
      rw [if_neg (by rw [hg]; decide)] at hml
      cases hml
      exact ⟨hblock, hs⟩

/-- `Free(b)` of `b` split down to order `m` merges it back to order `i` and
writes it free. -/
theorem Split.free {h₀ h h' : Heap} {b m i : Nat} (hs : Split h₀ h b m i) (hb : 2 ^ i ∣ b) (hi : i < kNumOrders)
    (hmi : m ≤ i)
    (hstop : ¬((h₀.mem (Buddy b i)).type = .kFree ∧ i < kNumOrders - 1 ∧ (h₀.mem (Buddy b i)).order = i))
    (hfree : h.Free b = some h') : Split h₀ h' b i i ∧ (h'.mem b).type = .kFree := by
  unfold Heap.Free at hfree
  split at hfree
  · cases hfree
  · rename_i s hml
    rw [hs.order] at hml
    obtain ⟨hblock, hs'⟩ := mergeLoop_split hb hi hstop _ _ s m hs rfl rfl hmi hml
    dsimp only at hfree
    cases hfree
    rw [hblock]
    refine ⟨hs'.set le_rfl ?_ rfl rfl, ?_⟩
    · exact hs'.order
    show (update s.heap.mem b _ b).type = _
    rw [update_self]

/-! ## `Allocate` then `Free` -/

namespace WellFormed

variable {h : Heap} {blk : Blocks} {L : Nat → List Nat}

/-- A free block of order `i` below the largest has no buddy whose header
says free of order `i`: there the merge loop of `Free` stops. -/
theorem not_free_buddy (hwf : WellFormed h blk L) {b i : Nat} (hb : blk b = some (i, true)) :
    ¬((h.mem (Buddy b i)).type = .kFree ∧ i < kNumOrders - 1 ∧ (h.mem (Buddy b i)).order = i) := by
  rintro ⟨htype, hi, hord⟩
  -- the buddy starts a block, which such a header makes a free block of order `i`
  obtain ⟨k', c, hbud, -⟩ := hwf.tiles.buddy hwf.units_dvd hb (by omega)
  rw [← buddy_eq] at hbud
  have hfree : blk (Buddy b i) = some (i, true) :=
    hwf.free_of_isFreeBlock hbud (fun hc => hwf.reserved _ _ (hc ▸ hbud))
      (Heap.isFreeBlock_iff.mpr ⟨hwf.lt hbud, htype, hord⟩)
  exact hwf.noFreeBuddies b i hb (by omega) hfree

/-- `Allocate(min_size)` that returns `b` and leaves the size as it was took
`b` free of some order `i` from its list and split it down to
`FitOrder(min_size)`. -/
theorem allocate_split (hwf : WellFormed h blk L) {h₁ : Heap} {n b : Nat}
    (hall : h.Allocate n = some (h₁, .ok b)) (hsize : h₁.curSize = h.curSize) :
    ∃ i, blk b = some (i, true) ∧ FitOrder n ≤ i ∧ Split h h₁ b (FitOrder n) i := by
  unfold Heap.Allocate at hall
  dsimp only at hall
  split_ifs at hall with hfit
  · cases hall
  · split at hall
    · rename_i i hfo
      obtain ⟨hmi, hi, hfree⟩ := Heap.findOrder_eq_some hfo
      have hb := (hwf.mem_lists i hi _).mp (hwf.head_mem hi hfree)
      obtain ⟨rfl, hs⟩ := takeBlock_split (hwf.tiles.aligned _ i true hb).1 (hwf.order _ i true hb) hmi hall
      exact ⟨i, hb, hmi, hs⟩
    · -- no list had a block: the heap grew by a page, and the result keeps it
      exfalso
      split at hall
      · cases hall
      · rename_i h₂ hext
        split at hall
        · have hgrow := Heap.extend_grows hwf.size_le (by simp [kPageSize]) hext
          have := Heap.takeBlock_curSize hall
          omega
        · cases hall
      · cases hall

end WellFormed

theorem allocate_free_layout {h h₁ : Heap} {A : List Nat} {n b : Nat} (hrun : Run h A)
    (hn : kMinOrderSize ≤ n) (hn' : n ≤ kMaxOrderSize) (hall : h.Allocate n = some (h₁, .ok b))
    (hsize : h₁.curSize = h.curSize) :
    ∃ h₂, h₁.Free b = some h₂ ∧ h₂.layout = h.layout ∧ h.layout.isSome := by
  obtain ⟨-, blk, L, hwf, -⟩ := hrun.wellFormed
  obtain ⟨i, hb, hmi, hs⟩ := hwf.allocate_split hall hsize
  obtain ⟨hdvd, hi, -⟩ := hwf.tiles.aligned b i true hb
  -- `Free` of a block the program holds returns
  obtain ⟨h₂, hfree⟩ := (heap_run_invariant (Run.allocate hrun hn hn' hall)).2.2.2.2 b List.mem_cons_self
  obtain ⟨hs₂, htype₂⟩ := hs.free hdvd hi hmi (hwf.not_free_buddy hb) hfree
  -- a block of the old tiling is `b`, free again, or lies outside `b`'s block
  have hsame : ∀ x k c, blk x = some (k, c) →
      (h₂.mem x).type = (h.mem x).type ∧ (h₂.mem x).order = (h.mem x).order := by
    intro x k c hx
    by_cases hxb : x = b
    · subst hxb
      rw [htype₂, hs₂.order, hwf.order x i true hb]
      exact ⟨(Heap.isFreeBlock_iff.mp (hwf.isFreeBlock hb)).2.1.symm, rfl⟩
    · refine hs₂.frame x ?_
      rcases Nat.lt_or_gt_of_ne hxb with hlt | hgt
      · exact .inl hlt
      · exact .inr (hwf.tiles.disjoint b i true x k c hb hx hgt)
  have hdvd16 : kMinOrderSize ∣ h.curSize := Nat.dvd_trans (by decide) hwf.size
  obtain ⟨l, hl, hl₂⟩ := Heap.layout_congr hwf.tiles hdvd16 hwf.order hs₂.curSize hsame
  exact ⟨h₂, hfree, hl₂.trans hl.symm, by rw [hl]; rfl⟩

theorem allocate_free_layout_new_page :
    ∃ h h₁ b, Heap.new kMinVmoSize (fun _ => ⟨0, .kFree, 0⟩) = some h ∧
      h.Allocate kMinOrderSize = some (h₁, .ok b) ∧ h₁.curSize = h.curSize ∧
      ∃ h₂, h₁.Free b = some h₂ ∧ h₂.layout = h.layout ∧ h.layout.isSome := by
  -- a fresh page hands out block `0`, and stays one page
  have hval : (Heap.new kMinVmoSize fun _ => ⟨0, .kFree, 0⟩).bind
      (fun h => (h.Allocate kMinOrderSize).map fun r => (r.2, r.1.curSize, h.curSize)) =
      some (.ok 0, kMinVmoSize, kMinVmoSize) := rfl
  obtain ⟨h, hnew, hall⟩ := Option.bind_eq_some_iff.mp hval
  obtain ⟨⟨h₁, r⟩, hall', hres⟩ := Option.map_eq_some_iff.mp hall
  simp only [Prod.mk.injEq] at hres
  obtain ⟨rfl, hsize₁, hsize⟩ := hres
  have hsame : h₁.curSize = h.curSize := by rw [hsize₁, hsize]
  exact ⟨h, h₁, 0, hnew, hall', hsame,
    allocate_free_layout (.new (Nat.dvd_refl _) hnew) (Nat.le_refl _) (by decide) hall' hsame⟩

end Zircon.Inspect
