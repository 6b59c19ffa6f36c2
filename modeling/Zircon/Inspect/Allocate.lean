import Zircon.Inspect.HeapInvariant

/-!
# `Allocate` keeps the heap well formed

From a well-formed heap, `Allocate(min_size)` with `min_size` from
`sizeof(Block)` to `kMaxOrderSize` returns, and leaves a well-formed heap.
When it succeeds, the block it returns was free and is now allocated, of
order `FitOrder(min_size)`, with a reserved header; no other block changes
hands.

The proof follows the code: `SplitBlock` and the loop that splits down to the
wanted order (`splitLoop_spec`, by induction over the fuel, each split
lowering the order), the loop of `Extend` (`extendLoop`, by an invariant and
a measure), and the end of `Allocate` that takes the block off its list and
reserves it.
-/

namespace Zircon.Inspect

open Function Buddy

/-! ## `SplitBlock` and the split loop -/

namespace Invariant

variable {h : Heap} {blk : Blocks} {L : Nat → List Nat}

/-- `SplitBlock` on a free block of order `j + 1`: its two halves become free
blocks of order `j`. -/
theorem splitBlock (hinv : Invariant h blk L) (hres : Reserved h blk) {b j : Nat} (hb : blk b = some (j + 1, true)) :
    ∃ h' L', h.SplitBlock b = some (h', true) ∧
      Invariant h' (update (update blk b (some (j, true))) (b + 2 ^ j) (some (j, true))) L' ∧
      Reserved h' (update (update blk b (some (j, true))) (b + 2 ^ j) (some (j, true))) := by
  have hj := hinv.order_lt hb
  have hdvd := (hinv.tiles.aligned b (j + 1) true hb).1
  obtain ⟨h₁, hrf, hinv₁, hr⟩ := hinv.removeFree hb
  have hord : (h₁.mem b).order = j + 1 := by rw [hr.order, hinv.order b (j + 1) true hb]
  have hbud : Buddy b j = b + 2 ^ j := by rw [buddy_eq, xor_two_pow_of_dvd hdvd]
  let h₂ : Heap := { h₁ with
    mem := update (update h₁.mem b ⟨j, .kFree, b + 2 ^ j⟩) (b + 2 ^ j) ⟨j, .kFree, h₁.freeBlocks j⟩
    freeBlocks := update h₁.freeBlocks j b }
  have hsplit : Invariant h₂ (update (update (update blk b (some (j + 1, false))) b (some (j, true))) (b + 2 ^ j)
      (some (j, true))) _ := hinv₁.split (update_self ..) rfl rfl rfl rfl
  rw [update_idem] at hsplit
  refine ⟨h₂, _, ?_, hsplit, hres.frame fun x k hx => ?_⟩
  · rw [Heap.SplitBlock, hrf]
    dsimp only
    rw [hord, if_neg (by omega), Nat.add_sub_cancel, hbud]
  · -- an allocated block is neither half, so its header stayed
    have hxu : x ≠ b + 2 ^ j := ne_of_update_apply hx (by simp)
    rw [update_of_ne hxu] at hx
    have hxb : x ≠ b := ne_of_update_apply hx (by simp)
    rw [update_of_ne hxb] at hx
    refine ⟨hx, ?_⟩
    show (update (update h₁.mem b _) (b + 2 ^ j) _ x).type = _
    rw [update_of_ne hxu, update_of_ne hxb, hr.type]

end Invariant

/-- The split loop of `Allocate` on a free block `b` of order `i`: it splits
`b` down to `min_fit_order` and changes no allocated block. -/
theorem splitLoop_spec {b m : Nat} :
    ∀ (fuel : Nat) (h : Heap) (blk : Blocks) (L : Nat → List Nat) (i : Nat), Invariant h blk L → Reserved h blk →
      NoFreeBuddiesBut blk b → blk b = some (i, true) → m ≤ i → i - m < fuel →
      ∃ h' blk' L', Heap.splitLoop b m fuel h = some (h', true) ∧ Invariant h' blk' L' ∧ Reserved h' blk' ∧
        NoFreeBuddiesBut blk' b ∧ blk' b = some (m, true) ∧ ∀ x, Allocated blk' x ↔ Allocated blk x := by
  intro fuel
  induction fuel with
  | zero => intro h blk L i _ _ _ _ _ hfuel; omega
  | succ fuel ih =>
    intro h blk L i hinv hres hnfb hb hmi hfuel
    rw [Heap.splitLoop]
    have hord := hinv.order b i true hb
    by_cases hmi' : m < i
    · -- split once, then go on from order `i - 1`
      obtain ⟨j, rfl⟩ : ∃ j, i = j + 1 := ⟨i - 1, by omega⟩
      obtain ⟨h₁, L₁, hsb, hinv₁, hres₁⟩ := hinv.splitBlock hres hb
      have hne : b ≠ b + 2 ^ j := by have := Nat.one_le_two_pow (n := j); omega
      have hdvd := (hinv.tiles.aligned b (j + 1) true hb).1
      rw [if_pos (by rw [hord]; exact hmi'), hsb]
      obtain ⟨h', blk', L', hrun, hinv', hres', hnfb', hb', halloc⟩ :=
        ih h₁ _ L₁ j hinv₁ hres₁ (hnfb.split hdvd) (by rw [update_of_ne hne, update_self]) (by omega) (by omega)
      refine ⟨h', blk', L', hrun, hinv', hres', hnfb', hb', fun x => (halloc x).trans ?_⟩
      -- the split made two free blocks out of a free one
      unfold Allocated
      by_cases hxu : x = b + 2 ^ j
      · subst hxu
        rw [update_self, hinv.tiles.eq_none_of_inside hb (by omega) (by rw [Nat.pow_succ]; omega)]
        simp
      · rw [update_of_ne hxu]
        by_cases hxb : x = b
        · subst hxb
          simp [hb]
        · rw [update_of_ne hxb]
    · obtain rfl : i = m := by omega
      rw [if_neg (by rw [hord]; exact Nat.lt_irrefl i)]
      exact ⟨h, blk, L, rfl, hinv, hres, hnfb, hb, fun _ => Iff.rfl⟩

/-! ## `Extend` -/

/-- One pass of the loop of `Extend`, from the state that has pushed the
blocks from `c` to `m'`: it pushes the block below `c`. The index steps down
in `size_t` without wrapping. -/
theorem extendBody_spec {mem : Nat → Header} {m' last c : Nat} {s : ExtendState} (hcur : s.curIndex = c)
    (hlast : s.lastIndex = if c = m' then last else c) (hmem : s.mem = extendedMem mem c m' last)
    (hc : 2 ^ (kNumOrders - 1) ∣ c) (hc0 : 0 < c) (hcm : c ≤ m') (hm' : m' < 2 ^ 64) :
    extendBody s = ⟨c - 2 ^ (kNumOrders - 1), c - 2 ^ (kNumOrders - 1),
      extendedMem mem (c - 2 ^ (kNumOrders - 1)) m' last⟩ := by
  have hd : 2 ^ (kNumOrders - 1) ≤ c := Nat.le_of_dvd hc0 hc
  have hwrap : (c + 2 ^ 64 - 2 ^ (kNumOrders - 1)) % 2 ^ 64 = c - 2 ^ (kNumOrders - 1) := by
    rw [show c + 2 ^ 64 - 2 ^ (kNumOrders - 1) = c - 2 ^ (kNumOrders - 1) + 2 ^ 64 by omega, Nat.add_mod_right,
      Nat.mod_eq_of_lt (by omega)]
  have hunfold : extendBody s = ⟨(s.curIndex + 2 ^ 64 - 2 ^ (kNumOrders - 1)) % 2 ^ 64,
      (s.curIndex + 2 ^ 64 - 2 ^ (kNumOrders - 1)) % 2 ^ 64,
      update s.mem ((s.curIndex + 2 ^ 64 - 2 ^ (kNumOrders - 1)) % 2 ^ 64) ⟨kNumOrders - 1, .kFree, s.lastIndex⟩⟩ :=
    rfl
  simp only [hunfold, hcur, hwrap, hlast, hmem, ExtendState.mk.injEq, true_and]
  -- the new block points to `c`, or to `last` when it is the first
  funext x
  by_cases hx : x = c - 2 ^ (kNumOrders - 1)
  · have hin : c - 2 ^ (kNumOrders - 1) ≤ x ∧ x < m' ∧ 2 ^ (kNumOrders - 1) ∣ x :=
      ⟨by omega, by omega, by rw [hx]; exact Nat.dvd_sub hc (Nat.dvd_refl _)⟩
    have hnew : extendedMem mem (c - 2 ^ (kNumOrders - 1)) m' last x = ⟨kNumOrders - 1, .kFree,
        if x + 2 ^ (kNumOrders - 1) = m' then last else x + 2 ^ (kNumOrders - 1)⟩ := by
      unfold extendedMem
      exact if_pos hin
    have hpush : update (extendedMem mem c m' last) (c - 2 ^ (kNumOrders - 1))
        ⟨kNumOrders - 1, .kFree, if c = m' then last else c⟩ x = ⟨kNumOrders - 1, .kFree, if c = m' then last else c⟩ := by
      rw [hx]
      exact update_self _ _ _
    rw [hnew, hpush, hx, Nat.sub_add_cancel hd]
  · refine (update_of_ne hx _ _).trans ?_
    unfold extendedMem
    by_cases hin : c ≤ x ∧ x < m' ∧ 2 ^ (kNumOrders - 1) ∣ x
    · rw [if_pos hin, if_pos (show c - 2 ^ (kNumOrders - 1) ≤ x ∧ x < m' ∧ 2 ^ (kNumOrders - 1) ∣ x from
        ⟨by omega, hin.2⟩)]
    · rw [if_neg hin, if_neg]
      rintro ⟨h₁, h₂, h₃⟩
      -- a multiple below `c` and above `c - 2 ^ 7` is `c - 2 ^ 7`
      have := add_le_of_dvd_of_lt (Nat.dvd_sub hc (Nat.dvd_refl _)) h₃ (by omega)
      have := add_le_of_dvd_of_lt h₃ hc (by omega)
      omega

/-- The loop of `Extend` from `new_size` down to `cur_size_`: it pushes a
free block of the largest order every `2 ^ (kNumOrders - 1)` units. -/
theorem extendLoop {mem : Nat → Header} {m m' last : Nat} (hm : 2 ^ (kNumOrders - 1) ∣ m)
    (hm' : 2 ^ (kNumOrders - 1) ∣ m') (hlt : m < m') (hbound : m' < 2 ^ 64) {fuel : Nat}
    (hfuel : m' / 2 ^ (kNumOrders - 1) < fuel) :
    Loop.run (extendGuard m) extendBody fuel (extendBody ⟨m', last, mem⟩) = some ⟨m, m, extendedMem mem m m' last⟩ := by
  have hd : 0 < 2 ^ (kNumOrders - 1) := Nat.two_pow_pos _
  have hdm' : 2 ^ (kNumOrders - 1) ≤ m' := Nat.le_of_dvd (by omega) hm'
  have hnone : mem = extendedMem mem m' m' last := by
    funext x
    rw [extendedMem, if_neg fun hx => Nat.lt_irrefl m' (Nat.lt_of_le_of_lt hx.1 hx.2.1)]
  have hfirst : extendBody ⟨m', last, mem⟩ = ⟨m' - 2 ^ (kNumOrders - 1), m' - 2 ^ (kNumOrders - 1),
      extendedMem mem (m' - 2 ^ (kNumOrders - 1)) m' last⟩ :=
    extendBody_spec rfl (by rw [if_pos rfl]) hnone hm' (by omega) (Nat.le_refl m') hbound
  -- the states of the loop: the blocks from `c` up are pushed
  let I : ExtendState → Prop := fun s => ∃ c, s = ⟨c, c, extendedMem mem c m' last⟩ ∧ m ≤ c ∧ c < m' ∧
    2 ^ (kNumOrders - 1) ∣ c
  have hbody : ∀ s, I s → extendGuard m s = true →
      I (extendBody s) ∧ (extendBody s).curIndex / 2 ^ (kNumOrders - 1) < s.curIndex / 2 ^ (kNumOrders - 1) := by
    rintro s ⟨c, rfl, hmc, hcm, hc⟩ hg
    have hmc' : m < c := by simpa [extendGuard] using hg
    have hstep : extendBody ⟨c, c, extendedMem mem c m' last⟩ = ⟨c - 2 ^ (kNumOrders - 1),
        c - 2 ^ (kNumOrders - 1), extendedMem mem (c - 2 ^ (kNumOrders - 1)) m' last⟩ :=
      extendBody_spec rfl (by rw [if_neg (by omega)]) rfl hc (by omega) (by omega) hbound
    have hdc : 2 ^ (kNumOrders - 1) ≤ c := Nat.le_of_dvd (by omega) hc
    refine ⟨⟨c - 2 ^ (kNumOrders - 1), hstep, ?_, by omega, Nat.dvd_sub hc (Nat.dvd_refl _)⟩, ?_⟩
    · have := add_le_of_dvd_of_lt hm hc hmc'
      omega
    · rw [hstep]
      show (c - 2 ^ (kNumOrders - 1)) / 2 ^ (kNumOrders - 1) < c / 2 ^ (kNumOrders - 1)
      exact Nat.div_lt_div_of_lt_of_dvd hc (by omega)
  have hI : I (extendBody ⟨m', last, mem⟩) := by
    refine ⟨m' - 2 ^ (kNumOrders - 1), hfirst, ?_, by omega, Nat.dvd_sub hm' (Nat.dvd_refl _)⟩
    have := add_le_of_dvd_of_lt hm hm' hlt
    omega
  have hμ : (extendBody ⟨m', last, mem⟩).curIndex / 2 ^ (kNumOrders - 1) < fuel := by
    rw [hfirst]
    exact Nat.lt_of_le_of_lt (Nat.div_le_div_right (Nat.sub_le _ _)) hfuel
  obtain ⟨t, hrun, ⟨c, rfl, hmc, -, -⟩, hg⟩ :=
    Loop.run_of_invariant I (fun s => s.curIndex / 2 ^ (kNumOrders - 1)) hbody fuel _ hI hμ
  -- the loop stops at `cur_index = min_index`
  have hcm : c = m := by
    have : ¬m < c := by simpa [extendGuard] using hg
    omega
  rw [hrun, hcm]

/-! ## The search and the result of `Allocate` -/

/-- The sizes `Allocate` is asked for, from `sizeof(Block)` to
`kMaxOrderSize`, fit an order below `kNumOrders`. -/
theorem fitOrder_lt {n : Nat} (hn : kMinOrderSize ≤ n) (hn' : n ≤ kMaxOrderSize) : FitOrder n < kNumOrders := by
  have hmin : kMinOrderSize = 16 := rfl
  have hmax : kMaxOrderSize = 2048 := rfl
  have hlog : (n - 1).log2 < 11 := (Nat.log2_lt (by omega)).mpr (by omega)
  simp only [FitOrder, clzl, kMinOrderShift, kNumOrders]
  omega

/-- The order `findOrder` picks is in range, and its list starts with a free
block of that order. -/
theorem Heap.findOrder_eq_some {h : Heap} {m i : Nat} (hfo : h.findOrder m = some i) :
    m ≤ i ∧ i < kNumOrders ∧ h.IsFreeBlock (h.freeBlocks i) i = true := by
  unfold Heap.findOrder at hfo
  have hmem := List.mem_range'_1.mp (List.mem_of_find?_eq_some hfo)
  have hfree := List.find?_some hfo
  exact ⟨hmem.1, by omega, hfree⟩

/-- How a result of `Allocate` changes hands: a block returned was not
allocated and now is, and no other block changes. -/
def AllocatedAfter (blk blk' : Blocks) : Except Status Nat → Prop
  | .ok b => ¬Allocated blk b ∧ ∀ x, Allocated blk' x ↔ x = b ∨ Allocated blk x
  | .error _ => ∀ x, Allocated blk' x ↔ Allocated blk x

/-- The blocks `Extend` adds are free. -/
theorem Invariant.allocated_extendedBlocks {h : Heap} {blk : Blocks} {L : Nat → List Nat} (hinv : Invariant h blk L)
    (m' x : Nat) : Allocated (extendedBlocks blk (h.curSize / kMinOrderSize) m') x ↔ Allocated blk x := by
  unfold Allocated extendedBlocks
  by_cases hx : h.curSize / kMinOrderSize ≤ x ∧ x < m' ∧ 2 ^ (kNumOrders - 1) ∣ x
  · rw [if_pos hx]
    simp only [Option.some.injEq, Prod.mk.injEq, Bool.true_eq_false, and_false, exists_false, false_iff,
      not_exists]
    intro k hk
    have := hinv.lt hk
    omega
  · rw [if_neg hx]

namespace WellFormed

variable {h : Heap} {blk : Blocks} {L : Nat → List Nat}

/-- `Extend(new_size)` to a page-aligned size within the VMO and the limit
adds free blocks of the largest order from the old end, the first at the head
of the last list. -/
theorem extend (hwf : WellFormed h blk L) {newSize : Nat} (hdvd : kMinVmoSize ∣ newSize) (hlt : h.curSize < newSize)
    (hle : newSize ≤ h.maxSize) (hmax : newSize ≤ kMaxVmoSize) :
    ∃ h' L', h.Extend newSize = some (h', .ok) ∧
      WellFormed h' (extendedBlocks blk (h.curSize / kMinOrderSize) (newSize / kMinOrderSize)) L' ∧
      h'.freeBlocks (kNumOrders - 1) = h.curSize / kMinOrderSize := by
  have hm := hwf.units_dvd
  have hm' : 2 ^ (kNumOrders - 1) ∣ newSize / kMinOrderSize := by
    obtain ⟨c, rfl⟩ := hdvd
    exact ⟨2 * c, by show 4096 * c / 16 = 2 ^ 7 * (2 * c); omega⟩
  have hmm' : h.curSize / kMinOrderSize < newSize / kMinOrderSize :=
    Nat.div_lt_div_of_lt_of_dvd (Nat.dvd_trans (by decide) hdvd) hlt
  obtain ⟨j, hj⟩ := Nat.dvd_sub hm' hm
  have hjm : newSize / kMinOrderSize = h.curSize / kMinOrderSize + j * 2 ^ (kNumOrders - 1) := by
    rw [Nat.mul_comm, ← hj]
    omega
  have hbound : newSize / kMinOrderSize < 2 ^ 64 := by
    have : newSize / kMinOrderSize ≤ newSize := Nat.div_le_self _ _
    simp only [kMaxVmoSize] at hmax
    omega
  have hstart : IndexForOffset (newSize - newSize % kMinVmoSize) = newSize / kMinOrderSize := by
    rw [Nat.mod_eq_zero_of_dvd hdvd, Nat.sub_zero, IndexForOffset]
  have hfuel : newSize / kMinOrderSize / 2 ^ (kNumOrders - 1) < newSize / kMaxOrderSize + 1 := by
    rw [Nat.div_div_eq_div_mul]
    exact Nat.lt_succ_of_le (le_refl _)
  have hloop : Loop.run (extendGuard (IndexForOffset h.curSize)) extendBody (newSize / kMaxOrderSize + 1)
      (extendBody ⟨newSize / kMinOrderSize, h.freeBlocks (kNumOrders - 1), h.mem⟩) =
      some ⟨_, _, extendedMem h.mem (h.curSize / kMinOrderSize) (newSize / kMinOrderSize)
        (h.freeBlocks (kNumOrders - 1))⟩ :=
    extendLoop hm hm' hmm' hbound hfuel
  let h' : Heap := { h with
    mem := extendedMem h.mem (h.curSize / kMinOrderSize) (newSize / kMinOrderSize) (h.freeBlocks (kNumOrders - 1))
    freeBlocks := update h.freeBlocks (kNumOrders - 1) (h.curSize / kMinOrderSize)
    curSize := newSize }
  have hinv' : Invariant h'
      (extendedBlocks blk (h.curSize / kMinOrderSize) (h.curSize / kMinOrderSize + j * 2 ^ (kNumOrders - 1)))
      (update L (kNumOrders - 1)
        (List.range' (h.curSize / kMinOrderSize) j (2 ^ (kNumOrders - 1)) ++ L (kNumOrders - 1))) :=
    hwf.toInvariant.extend (Nat.pos_of_ne_zero fun hj0 => by rw [hj0] at hjm; omega) rfl hjm (Nat.le_of_lt hlt)
      hdvd rfl hle hmax rfl (by rw [← hjm])
  rw [← hjm] at hinv'
  refine ⟨h', _, ?_, ⟨hinv', ?_, ?_⟩, update_self (kNumOrders - 1) (h.curSize / kMinOrderSize) h.freeBlocks⟩
  · rw [Heap.Extend, if_neg (by omega), Nat.min_eq_right hle, if_neg (by omega)]
    dsimp only
    rw [hstart, hloop]
  · -- the allocated blocks are old, below the old end, where the headers stayed
    refine hwf.reserved.frame fun x k hx => ?_
    unfold extendedBlocks at hx
    split_ifs at hx with hnew
    · simp at hx
    · refine ⟨hx, ?_⟩
      show (extendedMem h.mem _ _ _ x).type = _
      rw [extendedMem, if_neg (by have := hwf.lt hx; omega)]
  · refine hwf.noFreeBuddies.mono fun x k hk hx => ?_
    unfold extendedBlocks at hx
    split_ifs at hx with hnew
    · simp only [Option.some.injEq, Prod.mk.injEq] at hx
      omega
    · exact hx

/-- The end of `Allocate` on list `i`, whose head is a free block of order
`i`: the head is split down to order `m`, taken off its list and reserved. -/
theorem takeBlock (hwf : WellFormed h blk L) {i m : Nat} (hmi : m ≤ i) (hb : blk (h.freeBlocks i) = some (i, true)) :
    ∃ h' blk' L', h.takeBlock i m = some (h', .ok (h.freeBlocks i)) ∧ WellFormed h' blk' L' ∧
      h'.mem (h.freeBlocks i) = ⟨m, .kReserved, 0⟩ ∧
      ∀ x, Allocated blk' x ↔ x = h.freeBlocks i ∨ Allocated blk x := by
  have hi := hwf.order_lt hb
  obtain ⟨h₁, blk₁, L₁, hsplit, hinv₁, hres₁, hnfb₁, hb₁, halloc₁⟩ :=
    splitLoop_spec (kNumOrders + 1) h blk L i hwf.toInvariant hwf.reserved (hwf.noFreeBuddies.but _) hb hmi
      (by omega)
  obtain ⟨h₂, hrf, hinv₂, hr⟩ := hinv₁.removeFree hb₁
  have hord : (h₂.mem (h.freeBlocks i)).order = m := by rw [hr.order, hinv₁.order _ m true hb₁]
  let h' : Heap := { h₂ with
    mem := update h₂.mem (h.freeBlocks i) ⟨m, .kReserved, 0⟩
    totalAllocatedBlocks := h₂.totalAllocatedBlocks + 1 }
  refine ⟨h', update blk₁ (h.freeBlocks i) (some (m, false)), _, ?_,
    ⟨hinv₂.reserve (update_self ..) rfl rfl rfl rfl rfl, ?_, hnfb₁.reserve m⟩, update_self .., fun x => ?_⟩
  · rw [Heap.takeBlock, hsplit]
    dsimp only
    rw [hrf]
    dsimp only
    rw [hord]
  · -- the taken block's header is reserved, and the other headers kept their types
    intro x k hx
    show (update h₂.mem (h.freeBlocks i) _ x).type ≠ _
    by_cases hxb : x = h.freeBlocks i
    · rw [hxb, update_self]
      simp
    · rw [update_of_ne hxb] at hx ⊢
      rw [hr.type]
      exact hres₁ x k hx
  · unfold Allocated at halloc₁ ⊢
    by_cases hxb : x = h.freeBlocks i
    · rw [hxb, update_self]
      simp
    · rw [update_of_ne hxb, halloc₁ x]
      simp [hxb]

/-- `Allocate(min_size)` for `min_size` from `sizeof(Block)` to
`kMaxOrderSize` returns and leaves a well-formed heap. On success the block
is new to the allocated ones and reserved with order `FitOrder(min_size)`; on
failure no block changes hands. -/
theorem allocate (hwf : WellFormed h blk L) {n : Nat} (hn : kMinOrderSize ≤ n) (hn' : n ≤ kMaxOrderSize) :
    ∃ h' r, h.Allocate n = some (h', r) ∧ ∃ blk' L', WellFormed h' blk' L' ∧ AllocatedAfter blk blk' r ∧
      ∀ b, r = .ok b → h'.mem b = ⟨FitOrder n, .kReserved, 0⟩ := by
  have hfit := fitOrder_lt hn hn'
  rw [Heap.Allocate, if_neg (by omega)]
  cases hfo : h.findOrder (FitOrder n) with
  | some i =>
    -- a list from the wanted order up starts with a free block
    obtain ⟨hmi, hi, hfree⟩ := Heap.findOrder_eq_some hfo
    have hb := (hwf.mem_lists i hi _).mp (hwf.head_mem hi hfree)
    obtain ⟨h', blk', L', htake, hwf', hhdr, halloc⟩ := hwf.takeBlock hmi hb
    have hnew : ¬Allocated blk (h.freeBlocks i) := fun ⟨k, hk⟩ => by rw [hb] at hk; simp at hk
    exact ⟨h', _, htake, blk', L', hwf', ⟨hnew, halloc⟩, fun b hok => by cases hok; exact hhdr⟩
  | none =>
    dsimp only
    by_cases hfail : (h.curSize = h.maxSize ∧ h.curSize + kPageSize > h.maxSize) ∨
        h.curSize + kPageSize > kMaxVmoSize
    · -- the VMO cannot grow: `ZX_ERR_NO_MEMORY`, and only the counter moves
      rw [Heap.Extend, if_pos hfail]
      exact ⟨_, _, rfl, blk, L, hwf.counters rfl rfl rfl rfl, fun _ => Iff.rfl, fun b hok => by cases hok⟩
    · -- a page more, whose first block of the largest order heads the last list
      have hle : h.curSize + kPageSize ≤ h.maxSize := by
        have hne : h.curSize ≠ h.maxSize := fun heq => hfail (.inl ⟨heq, by simp [kPageSize]; omega⟩)
        exact add_le_of_dvd_of_lt hwf.size hwf.maxSize (Nat.lt_of_le_of_ne hwf.size_le hne)
      have hdvd : kMinVmoSize ∣ h.curSize + kPageSize := Nat.dvd_add hwf.size (Nat.dvd_refl _)
      obtain ⟨h₁, L₁, hext, hwf₁, hfb₁⟩ :=
        hwf.extend hdvd (by simp [kPageSize]) hle (Nat.le_of_not_lt fun hgt => hfail (.inr hgt))
      have hm : extendedBlocks blk (h.curSize / kMinOrderSize) ((h.curSize + kPageSize) / kMinOrderSize)
          (h.curSize / kMinOrderSize) = some (kNumOrders - 1, true) := by
        refine if_pos ⟨Nat.le_refl _, ?_, hwf.units_dvd⟩
        exact Nat.div_lt_div_of_lt_of_dvd (Nat.dvd_trans (by decide) hdvd) (by simp [kPageSize])
      have hfree₁ : h₁.IsFreeBlock (h₁.freeBlocks (kNumOrders - 1)) (kNumOrders - 1) = true := by
        rw [hfb₁]
        exact hwf₁.isFreeBlock hm
      rw [hext]
      dsimp only
      rw [if_pos hfree₁]
      obtain ⟨h', blk', L', htake, hwf', hhdr, halloc⟩ :=
        hwf₁.takeBlock (show FitOrder n ≤ kNumOrders - 1 by omega) (by rw [hfb₁]; exact hm)
      have hnew : ¬Allocated blk (h.curSize / kMinOrderSize) := fun ⟨k, hk⟩ => by
        have := hwf.lt hk
        omega
      refine ⟨h', _, htake, blk', L', hwf', ⟨by rw [hfb₁]; exact hnew, fun x => ?_⟩,
        fun b hok => by cases hok; exact hhdr⟩
      rw [halloc x, hwf.allocated_extendedBlocks]

end WellFormed

end Zircon.Inspect
