import Zircon.Runs
import Zircon.SortedIndex
import Zircon.Bitmap.RleBitmap

/-!
# The invariant of `RleBitmap`

Between calls the runs are non-empty and in order of `bitoff`, with at least
one clear bit between any two (`Gapped`); every run ends within `size_t`; and
the two counters are the number of runs and the number of their bits. The
bits the bitmap holds are the points its runs cover.

`num_bits_` is updated in wrapping arithmetic. The loops carry it as the
total of the runs modulo `2 ^ 64`, with an arbitrary offset `T` for the runs
outside the part being walked; since the runs are disjoint and end within
`size_t`, the total is below `2 ^ 64` and the counter is exact between calls.
-/

namespace Zircon.Bitmap

open Runs SortedIndex

/-! ## Wrapping arithmetic -/

theorem wrap_natCast (n : Nat) : wrap n = n % 2 ^ 64 := by
  unfold wrap
  omega

theorem wrap_of_lt {n : Nat} (h : n < 2 ^ 64) : wrap n = n := by
  rw [wrap_natCast, Nat.mod_eq_of_lt h]

/-- A wrapped value in further wrapping arithmetic is as good as the value. -/
theorem wrap_add_wrap (x d : Int) : wrap ((wrap x : Int) + d) = wrap (x + d) := by
  unfold wrap
  omega

theorem wrap_sub_wrap (x d : Int) : wrap ((wrap x : Int) - d) = wrap (x - d) := by
  unfold wrap
  omega

/-- A difference that stays within `size_t` does not wrap. -/
theorem wrap_sub_of_le {m c : Nat} (h : c ≤ m) (hm : m < 2 ^ 64) : wrap ((m : Int) - c) = m - c := by
  unfold wrap
  omega

/-! ## Runs as segments -/

/-- Run `e` holds bit `x`. -/
abbrev Element.Holds (e : Element) (x : Nat) : Prop := Runs.Holds Element.bitoff Element.end e x

theorem Element.holds_iff {e : Element} {x : Nat} : e.Holds x ↔ e.bitoff ≤ x ∧ x < e.bitoff + e.bitlen :=
  Iff.rfl

/-- The total length of a list of runs. -/
def bitsOf (l : List Element) : Nat := (l.map Element.bitlen).sum

@[simp] theorem bitsOf_nil : bitsOf [] = 0 := rfl

@[simp] theorem bitsOf_cons (e : Element) (l : List Element) : bitsOf (e :: l) = e.bitlen + bitsOf l := by
  simp [bitsOf]

@[simp] theorem bitsOf_append (l₁ l₂ : List Element) : bitsOf (l₁ ++ l₂) = bitsOf l₁ + bitsOf l₂ := by
  simp [bitsOf]

/-- Disjoint runs within `size_t` hold fewer than `2 ^ 64` bits. -/
theorem bitsOf_lt {l : List Element} (h : Gapped Element.bitoff Element.end l)
    (hb : ∀ e ∈ l, e.end < 2 ^ 64) : bitsOf l < 2 ^ 64 := by
  have hle := h.increasing.sum_le (M := 0) (N := 2 ^ 64 - 1) (fun _ _ => Nat.zero_le _)
    fun e he => by have := hb e he; omega
  have hmap : (l.map fun e => e.end - e.bitoff) = l.map Element.bitlen :=
    List.map_congr_left fun e _ => by simp only [Element.end]; omega
  rw [hmap] at hle
  unfold bitsOf
  omega

/-- A gapped list of runs is made of the runs that end before `k` and those
that end at or after it. -/
theorem span_end_spec {l : List Element} (h : Gapped Element.bitoff Element.end l) (k : Nat) :
    l = (l.span fun e => !decide (e.bitoff + e.bitlen ≥ k)).1 ++
        (l.span fun e => !decide (e.bitoff + e.bitlen ≥ k)).2 ∧
      (∀ e ∈ (l.span fun e => !decide (e.bitoff + e.bitlen ≥ k)).1, e.end < k) ∧
      ∀ e ∈ (l.span fun e => !decide (e.bitoff + e.bitlen ≥ k)).2, k ≤ e.end := by
  obtain ⟨hl, h₁, h₂⟩ := span_spec (p := fun e => !decide (e.bitoff + e.bitlen ≥ k)) (l := l)
    (h.sorted.imp_of_mem fun hi hj hij hpj => by
      have := h.nonempty _ hj
      simp only [Element.end, Bool.not_eq_true', decide_eq_false_iff_not, not_le] at hij hpj this ⊢
      omega)
  refine ⟨hl, fun e he => ?_, fun e he => ?_⟩
  · have := h₁ e he
    simp only [Bool.not_eq_true', decide_eq_false_iff_not, not_le] at this
    exact this
  · have := h₂ e he
    simp only [Bool.not_eq_false', decide_eq_true_eq] at this
    exact this

/-- Every run of a gapped list starts after the first one ends. -/
theorem end_lt_bitoff_of_cons {q : Element} {S : List Element}
    (h : Gapped Element.bitoff Element.end (q :: S)) {e : Element} (he : e ∈ S) : q.end < e.bitoff :=
  (List.pairwise_cons.mp h.sorted).1 e he

namespace RleBitmap

/-- The bits the bitmap holds. -/
def Bits (b : RleBitmap) (x : Nat) : Prop := Covered Element.bitoff Element.end b.elems x

/-- The representation invariant of `RleBitmap` between calls. -/
structure WellFormed (b : RleBitmap) : Prop where
  /-- The runs are non-empty and in order, with a clear bit between any two. -/
  gapped : Gapped Element.bitoff Element.end b.elems
  /-- Every run ends within `size_t`. -/
  bounded : ∀ e ∈ b.elems, e.end < 2 ^ 64
  /-- `num_elems_` is the number of runs. -/
  numElems : b.numElems = b.elems.length
  /-- `num_bits_` is the number of their bits. -/
  numBits : b.numBits = bitsOf b.elems

theorem wellFormed_empty : empty.WellFormed :=
  ⟨gapped_nil, by simp [empty], rfl, rfl⟩

/-- The counters of a list of runs that keeps the invariant, computed as the
code computes them. -/
theorem wellFormed_of {l : List Element} {ne nb : Nat} (hg : Gapped Element.bitoff Element.end l)
    (hb : ∀ e ∈ l, e.end < 2 ^ 64) (hne : ne = l.length) {T : Int} (hT : T = bitsOf l)
    (hnb : nb = wrap T) : (⟨l, ne, nb⟩ : RleBitmap).WellFormed :=
  ⟨hg, hb, hne, by rw [hnb, hT, wrap_of_lt (bitsOf_lt hg hb)]⟩

end RleBitmap

end Zircon.Bitmap
