import Mathlib

/-!
# Power-of-two alignment in fixed-width words

Code that aligns to `2 ^ k` in a `w`-bit word masks with `~(2 ^ k - 1)`:
`x & ~(2 ^ k - 1)` rounds `x` down to a multiple of `2 ^ k`, and
`(x + 2 ^ k - 1) & ~(2 ^ k - 1)` rounds it up, unless the sum wraps past
`2 ^ w`, in which case the result falls below `x`.
-/

namespace Zircon.Align

/-- `~(2 ^ k - 1)` in a `w`-bit word. -/
def notMask (w k : Nat) : Nat := 2 ^ w - 1 - (2 ^ k - 1)

/-- `(x + 2 ^ k - 1) & ~(2 ^ k - 1)` in a `w`-bit word: `x` rounded up to a
multiple of `2 ^ k`, unless the sum wraps. -/
def alignUp (w k x : Nat) : Nat := (x + (2 ^ k - 1)) % 2 ^ w &&& notMask w k

theorem two_pow_split {w k : Nat} (hk : k ≤ w) : 2 ^ w = 2 ^ k * 2 ^ (w - k) := by
  rw [← Nat.pow_add]
  congr 1
  omega

theorem notMask_eq {w k : Nat} (hk : k ≤ w) : notMask w k = 2 ^ k * (2 ^ (w - k) - 1) := by
  have hpos : 0 < 2 ^ k := Nat.two_pow_pos k
  have hle : 2 ^ k ≤ 2 ^ w := Nat.pow_le_pow_right (by decide) hk
  rw [notMask, Nat.mul_sub_one, ← two_pow_split hk]
  omega

/-- A multiple of `2 ^ k` below `2 ^ w` leaves room for `2 ^ k` more. -/
theorem add_two_pow_le_of_dvd {w k b : Nat} (hk : k ≤ w) (hb : 2 ^ k ∣ b) (hlt : b < 2 ^ w) :
    b + 2 ^ k ≤ 2 ^ w := by
  obtain ⟨q, rfl⟩ := hb
  rw [two_pow_split hk] at hlt ⊢
  have hq : q < 2 ^ (w - k) := Nat.lt_of_mul_lt_mul_left hlt
  calc 2 ^ k * q + 2 ^ k = 2 ^ k * (q + 1) := (Nat.mul_succ _ _).symm
    _ ≤ 2 ^ k * 2 ^ (w - k) := Nat.mul_le_mul_left _ hq

/-- Below a multiple of `2 ^ k` that fits in `w` bits, rounding up does not
wrap. -/
theorem add_lt_of_le_dvd {w k x b : Nat} (hk : k ≤ w) (hb : 2 ^ k ∣ b) (hxb : x ≤ b) (hlt : b < 2 ^ w) :
    x + (2 ^ k - 1) < 2 ^ w := by
  have := add_two_pow_le_of_dvd hk hb hlt
  have hpos : 0 < 2 ^ k := Nat.two_pow_pos k
  omega

/-- The mask has no bit below `k`. -/
theorem notMask_mod {w k : Nat} (hk : k ≤ w) : notMask w k % 2 ^ k = 0 := by
  rw [notMask_eq hk]
  exact Nat.mul_mod_right _ _

/-- Masking leaves a multiple of `2 ^ k`, whatever the word. -/
theorem land_notMask_mod {w k : Nat} (x : Nat) (hk : k ≤ w) : (x &&& notMask w k) % 2 ^ k = 0 := by
  rw [Nat.and_mod_two_pow, notMask_mod hk, Nat.and_zero]

/-- Masking a `w`-bit word rounds it down to a multiple of `2 ^ k`. -/
theorem land_notMask {w k x : Nat} (hk : k ≤ w) (hx : x < 2 ^ w) : x &&& notMask w k = x - x % 2 ^ k := by
  have hpos : 0 < 2 ^ k := Nat.two_pow_pos k
  -- the bits at and above `k` are those of `x / 2 ^ k`, which fits in `w - k` bits
  have hdiv : (x &&& notMask w k) / 2 ^ k = x / 2 ^ k := by
    rw [Nat.and_div_two_pow, notMask_eq hk, Nat.mul_div_cancel_left _ hpos,
      Nat.and_two_pow_sub_one_eq_mod]
    apply Nat.mod_eq_of_lt
    rw [Nat.div_lt_iff_lt_mul hpos, ← Nat.pow_add, Nat.sub_add_cancel hk]
    exact hx
  calc x &&& notMask w k
      = 2 ^ k * ((x &&& notMask w k) / 2 ^ k) + (x &&& notMask w k) % 2 ^ k :=
        (Nat.div_add_mod _ _).symm
    _ = 2 ^ k * (x / 2 ^ k) := by rw [hdiv, land_notMask_mod x hk, Nat.add_zero]
    _ = x - x % 2 ^ k := by
        have := Nat.div_add_mod x (2 ^ k)
        omega

/-- A multiple of `2 ^ k` at or above `x` is at or above `x` rounded up. -/
theorem le_of_dvd_of_le {k x b : Nat} (hb : 2 ^ k ∣ b) (hxb : x ≤ b) :
    x + (2 ^ k - 1) - (x + (2 ^ k - 1)) % 2 ^ k ≤ b := by
  obtain ⟨q, rfl⟩ := hb
  have hpos : 0 < 2 ^ k := Nat.two_pow_pos k
  have hmod := Nat.div_add_mod (x + (2 ^ k - 1)) (2 ^ k)
  -- `x + 2 ^ k - 1` lies below the next multiple, `2 ^ k * (q + 1)`
  have hq : (x + (2 ^ k - 1)) / 2 ^ k ≤ q := by
    apply Nat.lt_succ_iff.mp
    rw [Nat.div_lt_iff_lt_mul hpos, Nat.succ_mul, Nat.mul_comm]
    omega
  have := Nat.mul_le_mul_left (2 ^ k) hq
  omega

/-- Rounding up in a `w`-bit word when the sum does not wrap: the least
multiple of `2 ^ k` at or above `x`. -/
theorem alignUp_spec {w k x : Nat} (hk : k ≤ w) (hx : x + (2 ^ k - 1) < 2 ^ w) :
    2 ^ k ∣ alignUp w k x ∧ x ≤ alignUp w k x ∧ ∀ b, 2 ^ k ∣ b → x ≤ b → alignUp w k x ≤ b := by
  have hpos : 0 < 2 ^ k := Nat.two_pow_pos k
  have hmod : (x + (2 ^ k - 1)) % 2 ^ k < 2 ^ k := Nat.mod_lt _ hpos
  rw [alignUp, Nat.mod_eq_of_lt hx, land_notMask hk hx]
  refine ⟨Nat.dvd_of_mod_eq_zero ?_, ?_, fun b hb hxb => le_of_dvd_of_le hb hxb⟩
  · rw [← land_notMask hk hx]
    exact land_notMask_mod _ hk
  · -- the remainder of `x + 2 ^ k - 1` is at most `2 ^ k - 1`
    omega

/-- Rounding up in a `w`-bit word when the sum wraps: the result is below
`x`. -/
theorem alignUp_of_wrap {w k x : Nat} (hk : k ≤ w) (hx : x < 2 ^ w) (hwrap : 2 ^ w ≤ x + (2 ^ k - 1)) :
    alignUp w k x < x := by
  have hle : 2 ^ k ≤ 2 ^ w := Nat.pow_le_pow_right (by decide) hk
  have hsum : (x + (2 ^ k - 1)) % 2 ^ w = x + (2 ^ k - 1) - 2 ^ w := by
    rw [Nat.mod_eq_sub_mod hwrap, Nat.mod_eq_of_lt (by omega)]
  have hlt : (x + (2 ^ k - 1)) % 2 ^ w < 2 ^ w := Nat.mod_lt _ (Nat.two_pow_pos w)
  rw [alignUp, land_notMask hk hlt]
  omega

end Zircon.Align
