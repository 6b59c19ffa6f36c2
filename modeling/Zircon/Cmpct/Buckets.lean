import Mathlib
import Zircon.Cmpct.Heap
import Zircon.Word

/-!
# cmpctmalloc: buckets

A free area sits on the list of the bucket `size_to_index_freeing` gives its
usable size, and `cmpct_alloc` takes an area from the first non-empty bucket
at or after the one `SizeToIndexAllocating` gives the request, cutting
`rounded_up` bytes from it. That is only sound if every area on such a list
holds `rounded_up` bytes.

Both maps are one map read two ways. Up to 128 bytes bucket `i` holds the
sizes from `8 * (i + 1)`; above, a size `x` has a row (its top bit, less 3)
and a column (the three bits below the top one), and bucket `i` is
row-column `i + 17`, of least size `bucketSize (i + 17)`. Freeing rounds the
size down to its row-column (`bucketSize_rowColumn_le`); allocating takes the
row-column of `size - 8` and adds one (`lt_bucketSize_rowColumn_succ`), which
rounds up and maps a size that is a bucket's least size to that bucket. Both
read the bucket's least size as `bucketFloor`, which grows with the bucket, so
a later bucket holds areas at least as large as the request rounded up.
-/

namespace Zircon.Cmpct

/-! ## Rows and columns -/

/-- The row-column of a size of 8 bytes or more: eight columns to each power
of two, `row` being the top bit less 3 and `column` the three bits below it. -/
def rowColumn (x : Nat) : Nat := 8 * (x.log2 - 3) + (x / 2 ^ (x.log2 - 3) - 8)

/-- The size a row-column stands for: `(8 + column) << row`. -/
def bucketSize (rc : Nat) : Nat := (8 + rc % 8) * 2 ^ (rc / 8)

section Row

variable {x : Nat}

theorem three_le_log2 (hx : 8 ≤ x) : 3 ≤ x.log2 :=
  (Nat.le_log2 (by omega)).mpr hx

/-- The size shifted down by its row keeps its top four bits: `8 ≤ q < 16`. -/
theorem div_row_bounds (hx : 8 ≤ x) : 8 ≤ x / 2 ^ (x.log2 - 3) ∧ x / 2 ^ (x.log2 - 3) < 16 := by
  have hL := three_le_log2 hx
  have hpow : 2 ^ x.log2 = 8 * 2 ^ (x.log2 - 3) := by
    rw [show x.log2 = 3 + (x.log2 - 3) by omega, Nat.pow_add]
    simp
  have hlo := Nat.log2_self_le (n := x) (by omega)
  have hhi := Nat.lt_log2_self (n := x)
  rw [Nat.pow_succ, hpow] at hhi
  rw [hpow] at hlo
  constructor
  · exact (Nat.le_div_iff_mul_le (Nat.two_pow_pos _)).mpr (by linarith)
  · exact (Nat.div_lt_iff_lt_mul (Nat.two_pow_pos _)).mpr (by linarith)

theorem rowColumn_div (hx : 8 ≤ x) : rowColumn x / 8 = x.log2 - 3 := by
  have := div_row_bounds hx
  unfold rowColumn
  omega

theorem rowColumn_mod (hx : 8 ≤ x) : rowColumn x % 8 = x / 2 ^ (x.log2 - 3) - 8 := by
  have := div_row_bounds hx
  unfold rowColumn
  omega

/-- A size is at least the size of its row-column: the row-column rounds down. -/
theorem bucketSize_rowColumn_le (hx : 8 ≤ x) : bucketSize (rowColumn x) ≤ x := by
  have hq := div_row_bounds hx
  unfold bucketSize
  rw [rowColumn_mod hx, rowColumn_div hx, show 8 + (x / 2 ^ (x.log2 - 3) - 8) = x / 2 ^ (x.log2 - 3) by omega]
  exact Nat.div_mul_le_self x _

/-- A size is below the size of the next row-column. -/
theorem lt_bucketSize_rowColumn_succ (hx : 8 ≤ x) : x < bucketSize (rowColumn x + 1) := by
  have hq := div_row_bounds hx
  have hrc := rowColumn_div hx
  have hrm := rowColumn_mod hx
  unfold bucketSize
  by_cases hcol : x / 2 ^ (x.log2 - 3) < 15
  · -- the next column of the same row
    rw [show (rowColumn x + 1) % 8 = rowColumn x % 8 + 1 by omega,
      show (rowColumn x + 1) / 8 = rowColumn x / 8 by omega, hrm, hrc,
      show 8 + (x / 2 ^ (x.log2 - 3) - 8 + 1) = x / 2 ^ (x.log2 - 3) + 1 by omega]
    rw [Nat.add_mul, Nat.one_mul]
    exact Nat.lt_div_mul_add (Nat.two_pow_pos _)
  · -- the first column of the next row: the next power of two
    rw [show (rowColumn x + 1) % 8 = 0 by omega, show (rowColumn x + 1) / 8 = x.log2 - 3 + 1 by omega]
    have hhi := Nat.lt_log2_self (n := x)
    have hL := three_le_log2 hx
    calc x < 2 ^ (x.log2 + 1) := hhi
      _ = (8 + 0) * 2 ^ (x.log2 - 3 + 1) := by
        rw [show x.log2 + 1 = 3 + (x.log2 - 3 + 1) by omega, Nat.pow_add]

end Row

/-! ## The arithmetic of `SizeToIndexHelper` -/

section Code

variable {x : Nat}

/-- `row = sizeof(size_t) * 8 - 4 - __builtin_clzl(size)`. -/
theorem row_eq (hx : 8 ≤ x) (hx64 : x < 2 ^ 64) : 64 - 4 - clz 64 x = x.log2 - 3 := by
  have hL := three_le_log2 hx
  have hlt : x.log2 < 64 := (Nat.log2_lt (by omega)).mpr hx64
  unfold clz
  omega

/-- `column = (size >> row) & 7`. -/
theorem column_eq (hx : 8 ≤ x) : (x >>> (x.log2 - 3)) &&& 7 = x / 2 ^ (x.log2 - 3) - 8 := by
  have hq := div_row_bounds hx
  rw [Nat.shiftRight_eq_div_pow, show (7 : Nat) = 2 ^ 3 - 1 from rfl, Nat.and_two_pow_sub_one_eq_mod]
  omega

/-- `(row << 3) | column`. -/
theorem rowColumn_eq (hx : 8 ≤ x) : ((x.log2 - 3) <<< 3 ||| (x / 2 ^ (x.log2 - 3) - 8)) = rowColumn x := by
  have hq := div_row_bounds hx
  rw [Nat.shiftLeft_eq, Word.mul_two_pow_or_of_lt (by norm_num; omega)]
  unfold rowColumn
  ring

/-- `(8 + (row_column & 7)) << (row_column >> 3)`. -/
theorem rounded_eq (rc : Nat) : (8 + (rc &&& 7)) <<< (rc >>> 3) = bucketSize rc := by
  rw [show (7 : Nat) = 2 ^ 3 - 1 from rfl, Nat.and_two_pow_sub_one_eq_mod, Nat.shiftRight_eq_div_pow,
    Nat.shiftLeft_eq]
  rfl

end Code

/-- Above 128 bytes the bucket is the row-column of the adjusted size, less 17,
and the size handed back is that of the row-column. -/
theorem sizeToIndexHelper_of_lt {size : Nat} {adjust : Int} {increment : Nat} (hsize : 128 < size)
    (hx : 8 ≤ (size + adjust).toNat) (hx64 : (size + adjust).toNat < 2 ^ 64) :
    SizeToIndexHelper size adjust increment =
      if rowColumn (size + adjust).toNat + increment + 15 - 32 < NUMBER_OF_BUCKETS then
        some (rowColumn (size + adjust).toNat + increment + 15 - 32,
          bucketSize (rowColumn (size + adjust).toNat + increment))
      else none := by
  unfold SizeToIndexHelper
  rw [if_neg (by omega)]
  dsimp only
  rw [row_eq hx hx64, column_eq hx, rowColumn_eq hx, rounded_eq]

/-- Up to 128 bytes the buckets are 8 bytes apart, and no size handed back is
below what a `free_t` needs. -/
theorem sizeToIndexHelper_of_le {size : Nat} {adjust : Int} {increment : Nat} (h8 : 8 ≤ size)
    (hsize : size ≤ 128) : SizeToIndexHelper size adjust increment = some (size / 8 - 1, max 16 size) := by
  unfold SizeToIndexHelper
  rw [if_pos hsize]
  dsimp only
  rw [if_neg (by rw [Nat.shiftRight_eq_div_pow]; omega), Nat.shiftRight_eq_div_pow]
  congr 2
  unfold FREE_SIZE HEADER_SIZE
  split_ifs <;> omega

/-! ## The least size of a bucket -/

/-- The least usable size of the areas bucket `i` holds: 8-byte steps up to
bucket 15 (128 bytes), then the sizes of row-columns, bucket `i` being
row-column `i + 17`. -/
def bucketFloor (i : Nat) : Nat := if i < 15 then 8 * (i + 1) else bucketSize (i + 17)

theorem bucketSize_le_succ (rc : Nat) : bucketSize rc ≤ bucketSize (rc + 1) := by
  unfold bucketSize
  by_cases h : rc % 8 < 7
  · rw [show (rc + 1) % 8 = rc % 8 + 1 by omega, show (rc + 1) / 8 = rc / 8 by omega]
    exact Nat.mul_le_mul_right _ (by omega)
  · -- from the last column of a row to the first of the next
    rw [show (rc + 1) % 8 = 0 by omega, show (rc + 1) / 8 = rc / 8 + 1 by omega, Nat.pow_succ]
    have : rc % 8 = 7 := by omega
    rw [this]
    nlinarith [Nat.two_pow_pos (rc / 8)]


theorem bucketFloor_mono : Monotone bucketFloor := by
  refine monotone_nat_of_le_succ fun i => ?_
  unfold bucketFloor
  by_cases h : i + 1 < 15
  · rw [if_pos (by omega), if_pos h]
    omega
  · rw [if_neg h]
    by_cases h' : i < 15
    · -- bucket 14 (120 bytes) and bucket 15 (128 bytes)
      rw [if_pos h', show i = 14 by omega]
      decide
    · rw [if_neg h']
      exact bucketSize_le_succ _

/-- Row-columns are bounded by the bits of the size. -/
theorem rowColumn_lt {x k : Nat} (hx : 8 ≤ x) (hk : x < 2 ^ k) : rowColumn x < 8 * (k - 3) := by
  have hlog : x.log2 < k := (Nat.log2_lt (by omega)).mpr hk
  have := div_row_bounds hx
  have hL := three_le_log2 hx
  unfold rowColumn
  omega

theorem le_rowColumn {x k : Nat} (hk : 3 ≤ k) (hx : 2 ^ k ≤ x) : 8 * (k - 3) ≤ rowColumn x := by
  have h8 : 2 ^ 3 ≤ 2 ^ k := Nat.pow_le_pow_right (by norm_num) hk
  have hx8 : 8 ≤ x := le_trans h8 hx
  have hlog : k ≤ x.log2 := (Nat.le_log2 (by omega)).mpr hx
  have := div_row_bounds hx8
  unfold rowColumn
  omega

/-- Sizes of the fourth row on are multiples of 8. -/
theorem bucketSize_mod_eight {rc : Nat} (h : 24 ≤ rc) : bucketSize rc % 8 = 0 := by
  unfold bucketSize
  rw [show rc / 8 = 3 + (rc / 8 - 3) by omega, Nat.pow_add]
  simp [Nat.mul_mod]

/-! ## Allocating rounds up, freeing rounds down -/

/-- `SizeToIndexAllocating(n)` for a request up to the largest area,
`HEAP_LARGE_ALLOC_BYTES - sizeof(header_t)`: a bucket of `free_lists`, whose
least size is handed back as `rounded_up` (at least the 16 bytes a `free_t`
needs) and covers the request. -/
theorem sizeToIndexAllocating_spec {n : Nat} (hn : 0 < n) (hmax : n ≤ HEAP_LARGE_ALLOC_BYTES - HEADER_SIZE) :
    ∃ b, SizeToIndexAllocating n = some (b, max 16 (bucketFloor b)) ∧ b < NUMBER_OF_BUCKETS ∧
      n ≤ max 16 (bucketFloor b) := by
  unfold SizeToIndexAllocating
  -- the request rounded up to 8 bytes
  have hs : n ≤ ZX_ROUNDUP n 8 ∧ ZX_ROUNDUP n 8 % 8 = 0 ∧ ZX_ROUNDUP n 8 ≤ 2 ^ 21 - 48 := by
    unfold ZX_ROUNDUP
    unfold HEAP_LARGE_ALLOC_BYTES HEAP_ALLOC_VIRTUAL_BITS kHeapGrowOverhead HEADER_SIZE at hmax
    norm_num at hmax
    omega
  obtain ⟨hns, hs8, hsmax⟩ := hs
  by_cases hsmall : ZX_ROUNDUP n 8 ≤ 128
  · rw [sizeToIndexHelper_of_le (by omega) hsmall]
    -- bucket `s / 8 - 1` starts at `s` itself
    have hfloor : bucketFloor (ZX_ROUNDUP n 8 / 8 - 1) = ZX_ROUNDUP n 8 := by
      unfold bucketFloor
      split_ifs with h
      · omega
      · rw [show ZX_ROUNDUP n 8 = 128 by omega]
        decide
    refine ⟨ZX_ROUNDUP n 8 / 8 - 1, by rw [hfloor], ?_, by rw [hfloor]; omega⟩
    unfold NUMBER_OF_BUCKETS HEAP_ALLOC_VIRTUAL_BITS
    omega
  · -- the size less 8 lies in `[128, 2 ^ 21)`
    have hx : ((ZX_ROUNDUP n 8 : Int) + -8).toNat = ZX_ROUNDUP n 8 - 8 := by omega
    have hlo := le_rowColumn (x := ZX_ROUNDUP n 8 - 8) (k := 7) (by norm_num) (by norm_num; omega)
    have hhi := rowColumn_lt (x := ZX_ROUNDUP n 8 - 8) (k := 21) (by omega) (by norm_num; omega)
    rw [sizeToIndexHelper_of_lt (by omega) (by omega) (by omega), hx,
      if_pos (by unfold NUMBER_OF_BUCKETS HEAP_ALLOC_VIRTUAL_BITS; omega)]
    have hfloor : bucketFloor (rowColumn (ZX_ROUNDUP n 8 - 8) + 1 + 15 - 32) =
        bucketSize (rowColumn (ZX_ROUNDUP n 8 - 8) + 1) := by
      unfold bucketFloor
      rw [if_neg (by omega), show rowColumn (ZX_ROUNDUP n 8 - 8) + 1 + 15 - 32 + 17 =
        rowColumn (ZX_ROUNDUP n 8 - 8) + 1 by omega]
    -- the next row-column is past `s - 8`, and both are multiples of 8
    have hup := lt_bucketSize_rowColumn_succ (x := ZX_ROUNDUP n 8 - 8) (by omega)
    have hmod := @bucketSize_mod_eight (rowColumn (ZX_ROUNDUP n 8 - 8) + 1) (by omega)
    rw [← hfloor] at hup hmod
    refine ⟨rowColumn (ZX_ROUNDUP n 8 - 8) + 1 + 15 - 32, ?_, ?_, by omega⟩
    · rw [hfloor, max_eq_right (by rw [← hfloor]; omega)]
    · unfold NUMBER_OF_BUCKETS HEAP_ALLOC_VIRTUAL_BITS
      omega

/-- `size_to_index_freeing(u)` for the usable size of a free area: a bucket of
`free_lists` whose least size is at most `u`. -/
theorem size_to_index_freeing_spec {u : Nat} (hlo : FREE_SIZE - HEADER_SIZE ≤ u)
    (hhi : u ≤ HEAP_LARGE_ALLOC_BYTES - HEADER_SIZE) :
    ∃ f, size_to_index_freeing u = some f ∧ f < NUMBER_OF_BUCKETS ∧ bucketFloor f ≤ u := by
  unfold FREE_SIZE HEADER_SIZE at hlo
  unfold HEAP_LARGE_ALLOC_BYTES HEAP_ALLOC_VIRTUAL_BITS kHeapGrowOverhead HEADER_SIZE at hhi
  norm_num at hhi
  unfold size_to_index_freeing
  by_cases hsmall : u ≤ 128
  · rw [sizeToIndexHelper_of_le (by omega) hsmall]
    refine ⟨_, rfl, by unfold NUMBER_OF_BUCKETS HEAP_ALLOC_VIRTUAL_BITS; omega, ?_⟩
    unfold bucketFloor
    split_ifs with h
    · omega
    · rw [show u / 8 - 1 + 17 = 32 by omega]
      calc bucketSize 32 = 128 := by decide
        _ ≤ u := by omega
  · have hx : ((u : Int) + 0).toNat = u := by omega
    have hrlo := le_rowColumn (x := u) (k := 7) (by norm_num) (by norm_num; omega)
    have hrhi := rowColumn_lt (x := u) (k := 21) (by omega) (by norm_num; omega)
    rw [sizeToIndexHelper_of_lt (by omega) (by omega) (by omega), hx,
      if_pos (by unfold NUMBER_OF_BUCKETS HEAP_ALLOC_VIRTUAL_BITS; omega)]
    refine ⟨_, rfl, by unfold NUMBER_OF_BUCKETS HEAP_ALLOC_VIRTUAL_BITS; omega, ?_⟩
    unfold bucketFloor
    rw [if_neg (by omega), show rowColumn u + 0 + 15 - 32 + 17 = rowColumn u by omega]
    exact bucketSize_rowColumn_le (by omega)

/-! ## `find_nonempty_bucket` -/

/-- The first element of `range' s n` that `g` maps to a value. -/
theorem findSome?_range'_some {α : Type} {g : Nat → Option α} {s n : Nat} {y : α}
    (h : (List.range' s n).findSome? g = some y) :
    ∃ w, s ≤ w ∧ w < s + n ∧ g w = some y ∧ ∀ v, s ≤ v → v < w → g v = none := by
  induction n generalizing s with
  | zero => cases h
  | succ n ih =>
    rw [List.range'_succ, List.findSome?_cons] at h
    cases hs : g s with
    | some z =>
      rw [hs] at h
      cases h
      exact ⟨s, le_refl s, by omega, hs, fun v hv hvs => absurd hvs (by omega)⟩
    | none =>
      rw [hs] at h
      obtain ⟨w, hw₁, hw₂, hw, hbefore⟩ := ih h
      refine ⟨w, by omega, by omega, hw, fun v hv hvw => ?_⟩
      rcases Nat.lt_or_eq_of_le hv with hlt | rfl
      · exact hbefore v hlt hvw
      · exact hs

theorem findSome?_range'_none {α : Type} {g : Nat → Option α} {s n : Nat}
    (h : (List.range' s n).findSome? g = none) : ∀ v, s ≤ v → v < s + n → g v = none := by
  rw [List.findSome?_eq_none_iff] at h
  intro v hv hvn
  exact h v (List.mem_range'_1.mpr ⟨hv, hvn⟩)

/-- Bit `i` of `free_list_bits`, where `set_free_list_bit(i)` puts it: bit
`31 - i % 32` of word `i / 32`, the first bucket of a word in its top bit. -/
def Heap.bucketBit (h : Heap) (i : Nat) : Bool := (h.freeListBits (i / 32)).testBit (31 - i % 32)

/-- No bit of a word lies above its top bit. -/
theorem testBit_of_log2_lt {x k : Nat} (hk : x.log2 < k) : x.testBit k = false :=
  Nat.testBit_eq_false_of_lt (lt_of_lt_of_le Nat.lt_log2_self (Nat.pow_le_pow_right (by norm_num) hk))

/-- `(1u << (31 - a)) - 1`, doubled and one added: the low `32 - a` bits. -/
theorem firstWordMask_eq {a : Nat} (ha : a < 32) : ((1 <<< (31 - a)) - 1) * 2 + 1 = 2 ^ (32 - a) - 1 := by
  have hpos := Nat.two_pow_pos (31 - a)
  rw [Nat.one_shiftLeft, show 32 - a = 31 - a + 1 by omega, Nat.pow_succ]
  omega

/-- The top set bit of a non-zero word `x` of word `w` is the first bucket of
the word that is set. -/
theorem bucketBit_top {h : Heap} {w : Nat} (hx : h.freeListBits w ≠ 0) (hlt : h.freeListBits w < 2 ^ 32) :
    h.bucketBit (w * 32 + clz 32 (h.freeListBits w)) = true ∧
      ∀ c, c < clz 32 (h.freeListBits w) → h.bucketBit (w * 32 + c) = false := by
  have hlog : (h.freeListBits w).log2 < 32 := (Nat.log2_lt hx).mpr hlt
  unfold clz
  constructor
  · unfold Heap.bucketBit
    rw [show (w * 32 + (32 - 1 - (h.freeListBits w).log2)) / 32 = w by omega,
      show 31 - (w * 32 + (32 - 1 - (h.freeListBits w).log2)) % 32 = (h.freeListBits w).log2 by omega]
    exact Nat.testBit_log2 hx
  · intro c hc
    unfold Heap.bucketBit
    rw [show (w * 32 + c) / 32 = w by omega]
    exact testBit_of_log2_lt (by omega)

/-- `find_nonempty_bucket(b)` over 32-bit words: the least bucket from `b` on
whose bit is set, first in `b`'s own word (masked to the buckets from `b` on)
and then word by word; `none` (the `-1` of the source) when there is none. -/
theorem find_nonempty_bucket_spec (h : Heap) (hw : ∀ w, w < BUCKET_WORDS → h.freeListBits w < 2 ^ 32)
    {b : Nat} (hb : b < NUMBER_OF_BUCKETS) :
    (∀ i, h.find_nonempty_bucket b = some i →
      b ≤ i ∧ i < NUMBER_OF_BUCKETS ∧ h.bucketBit i = true ∧ ∀ j, b ≤ j → j < i → h.bucketBit j = false) ∧
    (h.find_nonempty_bucket b = none → ∀ j, b ≤ j → j < NUMBER_OF_BUCKETS → h.bucketBit j = false) := by
  have hN : NUMBER_OF_BUCKETS = 128 := rfl
  have hW : BUCKET_WORDS = 4 := rfl
  rw [hN] at hb ⊢
  -- the buckets of `b`'s word from `b` on are the bits the first mask keeps
  have hmaskBit : ∀ j, j / 32 = b / 32 → b ≤ j →
      h.bucketBit j = ((2 ^ (32 - b % 32) - 1) &&& h.freeListBits (b / 32)).testBit (31 - j % 32) := by
    intro j hj hbj
    rw [Nat.testBit_and, Nat.testBit_two_pow_sub_one, decide_eq_true (by omega), Bool.true_and]
    unfold Heap.bucketBit
    rw [hj]
  unfold Heap.find_nonempty_bucket
  dsimp only
  rw [show b &&& 0x1f = b % 32 from Nat.and_two_pow_sub_one_eq_mod b 5, firstWordMask_eq (by omega),
    show b >>> 5 = b / 32 from Nat.shiftRight_eq_div_pow b 5,
    show ZX_ROUNDUP (b + 1) 32 / 32 = b / 32 + 1 by unfold ZX_ROUNDUP; omega, hW]
  split_ifs with hm
  · -- the top bit of the masked word is the first bucket set from `b` on
    have htop := Nat.testBit_log2 hm
    rw [Nat.testBit_and, Nat.testBit_two_pow_sub_one, Bool.and_eq_true, decide_eq_true_iff] at htop
    refine ⟨fun i hi => ?_, fun hnone => by cases hnone⟩
    obtain rfl := Option.some.inj hi
    unfold clz
    refine ⟨by omega, by omega, ?_, fun j hbj hj => ?_⟩
    · rw [hmaskBit _ (by omega) (by omega)]
      rw [show 31 - (b - b % 32 + (32 - 1 - ((2 ^ (32 - b % 32) - 1) &&& h.freeListBits (b / 32)).log2)) % 32 =
        ((2 ^ (32 - b % 32) - 1) &&& h.freeListBits (b / 32)).log2 by omega]
      exact Nat.testBit_log2 hm
    · rw [hmaskBit j (by omega) hbj]
      exact testBit_of_log2_lt (by omega)
  · -- nothing set in `b`'s word from `b` on
    have hown : ∀ j, b ≤ j → j < b / 32 * 32 + 32 → h.bucketBit j = false := by
      intro j hbj hj
      rw [hmaskBit j (by omega) hbj, not_not.mp hm, Nat.zero_testBit]
    -- a zero word has no bucket set
    have hzero : ∀ j, h.freeListBits (j / 32) = 0 → h.bucketBit j = false := by
      intro j hj
      unfold Heap.bucketBit
      rw [hj, Nat.zero_testBit]
    constructor
    · intro i hi
      obtain ⟨w, hw₁, hw₂, hgw, hbefore⟩ := findSome?_range'_some hi
      split_ifs at hgw with hne
      obtain rfl := Option.some.inj hgw
      obtain ⟨hset, hclear⟩ := bucketBit_top hne (hw w (by omega))
      have hclz : clz 32 (h.freeListBits w) < 32 := by unfold clz; omega
      refine ⟨by omega, by omega, hset, fun j hbj hj => ?_⟩
      by_cases hjown : j < b / 32 * 32 + 32
      · exact hown j hbj hjown
      by_cases hjw : j / 32 < w
      · -- a word between: zero
        apply hzero
        have := hbefore (j / 32) (by omega) hjw
        simpa using this
      · -- `w`'s own word, below its top bit
        have := hclear (j - w * 32) (by omega)
        rwa [show w * 32 + (j - w * 32) = j by omega] at this
    · intro hnone j hbj hj
      by_cases hjown : j < b / 32 * 32 + 32
      · exact hown j hbj hjown
      · apply hzero
        have := findSome?_range'_none hnone (j / 32) (by omega) (by omega)
        simpa using this

/-- The bucket maps of cmpctmalloc agree: a request of `n` bytes, up to
`HEAP_LARGE_ALLOC_BYTES - sizeof(header_t)` (which holds `kHeapMaxAllocSize`
and, under `KERNEL_ASAN`, the redzone that `cmpct_alloc`'s `ZX_ASSERT` bounds),
maps to a bucket of `free_lists` and a `rounded_up` of at least `n`; a free area's usable
size `u` maps to a bucket of `free_lists`; any area in a bucket at or after the
request's holds `rounded_up` bytes; and `find_nonempty_bucket(b)` returns the
least bucket from `b` on whose bit is set, or none when there is none. -/
theorem sizeToIndex_buckets_agree :
    (∀ n u, 0 < n → n ≤ HEAP_LARGE_ALLOC_BYTES - HEADER_SIZE → FREE_SIZE - HEADER_SIZE ≤ u →
      u ≤ HEAP_LARGE_ALLOC_BYTES - HEADER_SIZE →
      ∃ b rounded_up f, SizeToIndexAllocating n = some (b, rounded_up) ∧ b < NUMBER_OF_BUCKETS ∧
        n ≤ rounded_up ∧ size_to_index_freeing u = some f ∧ f < NUMBER_OF_BUCKETS ∧
        (b ≤ f → rounded_up ≤ u)) ∧
    (∀ (h : Heap) b, (∀ w, w < BUCKET_WORDS → h.freeListBits w < 2 ^ 32) → b < NUMBER_OF_BUCKETS →
      (∀ i, h.find_nonempty_bucket b = some i →
        b ≤ i ∧ i < NUMBER_OF_BUCKETS ∧ h.bucketBit i = true ∧ ∀ j, b ≤ j → j < i → h.bucketBit j = false) ∧
      (h.find_nonempty_bucket b = none → ∀ j, b ≤ j → j < NUMBER_OF_BUCKETS → h.bucketBit j = false)) := by
  refine ⟨fun n u hn hmax hlo hhi => ?_, fun h b hw hb => find_nonempty_bucket_spec h hw hb⟩
  obtain ⟨b, hb, hbN, hnb⟩ := sizeToIndexAllocating_spec hn hmax
  obtain ⟨f, hf, hfN, hfu⟩ := size_to_index_freeing_spec hlo hhi
  refine ⟨b, _, f, hb, hbN, hnb, hf, hfN, fun hbf => ?_⟩
  -- the later bucket's least size is at least the request's, and `u` is at least that
  have hmono := bucketFloor_mono hbf
  unfold FREE_SIZE HEADER_SIZE at hlo
  exact max_le (by omega) (le_trans hmono hfu)

end Zircon.Cmpct
