import Mathlib

/-!
# Ring buffers

A ring of `size` slots kept in a buffer `buf : ℕ → α`: the element at
absolute position `p` lives in slot `p % size`. Writers and readers keep
absolute positions and move runs of elements with `memcpy`, in one piece or,
where a run crosses the end of the buffer, in two.

`readAt` is the run of a ring from an absolute position, and `wrapWrite` the
two-piece copy of a run into it. A run written at `p` reads back from `p`
(`readAt_wrapWrite_self`), and a run that ends by `p` and starts no more than
one lap before the written run ends reads as before
(`readAt_wrapWrite_of_disjoint`). A reader's two-piece copy is `readAt`
(`read_split_eq_readAt`).
-/

namespace Zircon.Ring

variable {α : Type*}

/-- `memcpy(buf + dst, src, src.size())`. -/
def memcpy (buf : ℕ → α) (dst : ℕ) (src : List α) : ℕ → α :=
  fun j => if h : dst ≤ j ∧ j - dst < src.length then src[j - dst] else buf j

/-- The `len` elements from `buf + start`. -/
def read (buf : ℕ → α) (start len : ℕ) : List α := (List.range len).map fun i => buf (start + i)

/-- The `len` elements from absolute position `p` of a ring of `size` slots. -/
def readAt (size : ℕ) (buf : ℕ → α) (p len : ℕ) : List α :=
  (List.range len).map fun i => buf ((p + i) % size)

/-- Copy `xs` into the ring from slot `off`: in one piece where it fits before
the end of the buffer, and otherwise split there, the rest going to slot `0`. -/
def wrapWrite (size : ℕ) (buf : ℕ → α) (off : ℕ) (xs : List α) : ℕ → α :=
  if xs.length ≤ size - off then memcpy buf off xs
  else memcpy (memcpy buf off (xs.take (size - off))) 0 (xs.drop (size - off))

/-! ## `memcpy` -/

section Memcpy

variable {buf : ℕ → α} {dst : ℕ} {src : List α}

theorem memcpy_add {i : ℕ} (hi : i < src.length) : memcpy buf dst src (dst + i) = src[i] := by
  unfold memcpy
  rw [dif_pos ⟨by omega, by omega⟩]
  simp

theorem memcpy_of_lt {j : ℕ} (hj : j < dst) : memcpy buf dst src j = buf j := by
  unfold memcpy
  rw [dif_neg (by omega)]

theorem memcpy_of_le {j : ℕ} (hj : dst + src.length ≤ j) : memcpy buf dst src j = buf j := by
  unfold memcpy
  rw [dif_neg (by omega)]

/-- Two copies back to back are one copy of both runs. -/
theorem memcpy_memcpy (xs ys : List α) :
    memcpy (memcpy buf dst xs) (dst + xs.length) ys = memcpy buf dst (xs ++ ys) := by
  funext j
  by_cases hlo : j < dst
  · rw [memcpy_of_lt (by omega), memcpy_of_lt hlo, memcpy_of_lt hlo]
  by_cases hxs : j < dst + xs.length
  · -- in the first run
    obtain ⟨i, rfl⟩ : ∃ i, j = dst + i := ⟨j - dst, by omega⟩
    rw [memcpy_of_lt hxs, memcpy_add (by omega), memcpy_add (by simp; omega),
      List.getElem_append_left]
  by_cases hys : j < dst + xs.length + ys.length
  · -- in the second run
    obtain ⟨i, rfl⟩ : ∃ i, j = dst + xs.length + i := ⟨j - (dst + xs.length), by omega⟩
    rw [memcpy_add (by omega), Nat.add_assoc, memcpy_add (by simp; omega),
      List.getElem_append_right (by omega)]
    simp
  · rw [memcpy_of_le (by omega), memcpy_of_le (by omega), memcpy_of_le (by simp; omega)]

end Memcpy

/-! ## Positions in the ring -/

section Mod

variable {size p i : ℕ}

theorem add_mod_of_lt (h : p % size + i < size) : (p + i) % size = p % size + i := by
  rw [Nat.add_mod, Nat.mod_eq_of_lt (show i < size by omega), Nat.mod_eq_of_lt h]

theorem add_mod_of_le (hi : i < size) (h : size ≤ p % size + i) :
    (p + i) % size = p % size + i - size := by
  have hp : p % size < size := Nat.mod_lt p (by omega)
  rw [Nat.add_mod, Nat.mod_eq_of_lt hi, Nat.mod_eq_sub_mod h, Nat.mod_eq_of_lt (by omega)]

/-- Two positions less than a lap apart are in different slots. -/
theorem mod_ne_of_lt {a b : ℕ} (hab : a < b) (hba : b < a + size) : a % size ≠ b % size := by
  intro h
  have hdvd := Nat.dvd_of_mod_eq_zero (Nat.sub_mod_eq_zero_of_mod_eq h.symm)
  have := Nat.eq_zero_of_dvd_of_lt hdvd (by omega)
  omega

end Mod

/-! ## Reading and writing runs -/

section Runs

variable {size : ℕ} {buf : ℕ → α}

@[simp] theorem length_read (start len : ℕ) : (read buf start len).length = len := by
  simp [read]

@[simp] theorem length_readAt (p len : ℕ) : (readAt size buf p len).length = len := by
  simp [readAt]

theorem readAt_add (p m n : ℕ) : readAt size buf p (m + n) = readAt size buf p m ++ readAt size buf (p + m) n := by
  unfold readAt
  rw [List.range_add, List.map_append, List.map_map]
  congr 2
  funext i
  simp [Nat.add_assoc]

/-- Runs equal slot by slot read the same. -/
theorem readAt_congr {buf' : ℕ → α} {p len : ℕ} (h : ∀ i < len, buf' ((p + i) % size) = buf ((p + i) % size)) :
    readAt size buf' p len = readAt size buf p len := by
  unfold readAt
  refine List.map_congr_left fun i hi => h i (List.mem_range.mp hi)

/-- A run that does not cross the end of the buffer is read in one piece. -/
theorem readAt_eq_read {p len : ℕ} (h : p % size + len ≤ size) : readAt size buf p len = read buf (p % size) len := by
  unfold readAt read
  refine List.map_congr_left fun i hi => ?_
  rw [add_mod_of_lt (by have := List.mem_range.mp hi; omega)]

/-- A reader's copy of a run, in two pieces where it crosses the end of the
buffer, is the run of the ring. -/
theorem read_split_eq_readAt (hsize : 0 < size) {p len : ℕ} (hlen : len ≤ size) :
    (if len ≤ size - p % size then read buf (p % size) len
      else read buf (p % size) (size - p % size) ++ read buf 0 (len - (size - p % size))) =
      readAt size buf p len := by
  have hp : p % size < size := Nat.mod_lt p hsize
  split_ifs with hfit
  · exact (readAt_eq_read (by omega)).symm
  · -- the first piece runs to the end of the buffer, the second from its start
    rw [show len = (size - p % size) + (len - (size - p % size)) by omega, readAt_add,
      readAt_eq_read (by omega), Nat.add_sub_cancel_left]
    congr 1
    unfold readAt read
    refine List.map_congr_left fun i hi => ?_
    have hi' := List.mem_range.mp hi
    rw [Nat.zero_add, show p + (size - p % size) + i = p + (size - p % size + i) by omega,
      add_mod_of_le (by omega) (by omega)]
    congr 1
    omega

variable {off : ℕ} {xs : List α}

/-- `wrapWrite` puts each element of the run in the slot of its position. -/
theorem wrapWrite_apply (hsize : 0 < size) (hxs : xs.length ≤ size) {p i : ℕ} (hi : i < xs.length) :
    wrapWrite size buf (p % size) xs ((p + i) % size) = xs[i] := by
  have hp : p % size < size := Nat.mod_lt p hsize
  unfold wrapWrite
  split_ifs with hfit
  · rw [add_mod_of_lt (by omega), memcpy_add hi]
  · by_cases hbefore : p % size + i < size
    · -- before the end of the buffer: the first piece
      rw [add_mod_of_lt hbefore, memcpy_of_le (by simp; omega), memcpy_add (by simp; omega),
        List.getElem_take]
    · -- past it: the second piece, from slot `0`
      rw [add_mod_of_le (by omega) (by omega),
        show p % size + i - size = 0 + (i - (size - p % size)) by omega, memcpy_add (by simp; omega),
        List.getElem_drop]
      congr 1
      omega

/-- `wrapWrite` leaves every slot that no position of the run maps to. -/
theorem wrapWrite_of_ne (hsize : 0 < size) (hxs : xs.length ≤ size) {p j : ℕ} (hj : j < size)
    (hne : ∀ i < xs.length, (p + i) % size ≠ j) : wrapWrite size buf (p % size) xs j = buf j := by
  have hp : p % size < size := Nat.mod_lt p hsize
  unfold wrapWrite
  split_ifs with hfit
  · -- in one piece over `[p % size, p % size + length)`
    by_cases hin : p % size ≤ j ∧ j < p % size + xs.length
    · refine absurd ?_ (hne (j - p % size) (by omega))
      rw [add_mod_of_lt (by omega)]
      omega
    · rcases not_and_or.mp hin with hlt | hge
      · exact memcpy_of_lt (by omega)
      · exact memcpy_of_le (by omega)
  · by_cases hsecond : j < xs.length - (size - p % size)
    · -- slot `j` holds the position `p + (size - p % size) + j`
      refine absurd ?_ (hne (size - p % size + j) (by omega))
      rw [add_mod_of_le (by omega) (by omega)]
      omega
    · rw [memcpy_of_le (by simp; omega)]
      by_cases hfirst : p % size ≤ j
      · refine absurd ?_ (hne (j - p % size) (by omega))
        rw [add_mod_of_lt (by omega)]
        omega
      · exact memcpy_of_lt (by omega)

/-- A run written at `p` reads back from `p`. -/
theorem readAt_wrapWrite_self (hsize : 0 < size) (hxs : xs.length ≤ size) (p : ℕ) :
    readAt size (wrapWrite size buf (p % size) xs) p xs.length = xs := by
  apply List.ext_getElem (by simp)
  intro i hi _
  simp only [readAt, List.getElem_map, List.getElem_range]
  exact wrapWrite_apply hsize hxs (by simpa using hi)

/-- A run that ends by `p`, and starts no more than a lap before the written
run ends, reads as before. -/
theorem readAt_wrapWrite_of_disjoint (hsize : 0 < size) (hxs : xs.length ≤ size) {p q n : ℕ}
    (hq : q + n ≤ p) (hp : p + xs.length ≤ q + size) :
    readAt size (wrapWrite size buf (p % size) xs) q n = readAt size buf q n := by
  refine readAt_congr fun k hk => wrapWrite_of_ne hsize hxs (Nat.mod_lt _ hsize) fun i hi => ?_
  exact (mod_ne_of_lt (by omega) (by omega)).symm

end Runs

end Zircon.Ring
