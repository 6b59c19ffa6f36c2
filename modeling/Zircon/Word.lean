import Mathlib

/-!
# Unsigned words in `ℕ`

Code on `w`-bit unsigned words computes exactly in `ℕ` until an operation
leaves `[0, 2 ^ w)`. `mul`, `add` and `shiftLeft` are the operations that can
leave it, made partial: they answer `none` where the word would wrap. A
function written with them returns `some` exactly when none of its operations
overflows, and then it returns the exact value.

The rest is the arithmetic of two-digit numbers in base `2 ^ k`: a word is its
high half times `2 ^ k` plus its low half, a digit or'ed below a shifted digit
adds to it, and a two-digit number is divided by a one-digit divisor digit by
digit.
-/

namespace Zircon.Word

variable {w a b k x : Nat}

/-- `a * b` in a `w`-bit word, or `none` where it wraps. -/
def mul (w a b : Nat) : Option Nat := if a * b < 2 ^ w then some (a * b) else none

/-- `a + b` in a `w`-bit word, or `none` where it wraps. -/
def add (w a b : Nat) : Option Nat := if a + b < 2 ^ w then some (a + b) else none

/-- `a << k` in a `w`-bit word, or `none` where bits are shifted out. -/
def shiftLeft (w a k : Nat) : Option Nat := if a <<< k < 2 ^ w then some (a <<< k) else none

theorem mul_of_lt (h : a * b < 2 ^ w) : mul w a b = some (a * b) := if_pos h

theorem add_of_lt (h : a + b < 2 ^ w) : add w a b = some (a + b) := if_pos h

theorem shiftLeft_of_lt (h : a * 2 ^ k < 2 ^ w) : shiftLeft w a k = some (a * 2 ^ k) := by
  unfold shiftLeft
  rw [Nat.shiftLeft_eq]
  exact if_pos h

/-! ## Halves -/

theorem high_eq (x k : Nat) : x >>> k = x / 2 ^ k := Nat.shiftRight_eq_div_pow x k

theorem low_eq (x k : Nat) : x &&& (2 ^ k - 1) = x % 2 ^ k := Nat.and_two_pow_sub_one_eq_mod x k

/-- A number is its high half times `2 ^ k` plus its low half. -/
theorem high_mul_add_low (x k : Nat) : x >>> k * 2 ^ k + (x &&& (2 ^ k - 1)) = x := by
  rw [high_eq, low_eq, Nat.mul_comm]
  exact Nat.div_add_mod x _

/-- The high half of a `2k`-bit number is a `k`-bit digit. -/
theorem high_lt (hx : x < 2 ^ (k + k)) : x >>> k < 2 ^ k := by
  rw [high_eq]
  exact Nat.div_lt_of_lt_mul (by rw [← Nat.pow_add]; exact hx)

theorem low_lt (x k : Nat) : x &&& (2 ^ k - 1) < 2 ^ k := by
  rw [low_eq]
  exact Nat.mod_lt _ (Nat.two_pow_pos k)

/-- A `k`-bit digit or'ed below a digit shifted by `k` adds to it. -/
theorem mul_two_pow_or_of_lt (hb : b < 2 ^ k) : a * 2 ^ k ||| b = a * 2 ^ k + b := by
  rw [← Nat.shiftLeft_eq, Nat.shiftLeft_add_eq_or_of_lt hb]

theorem or_mul_two_pow_of_lt (hb : b < 2 ^ k) : b ||| a * 2 ^ k = a * 2 ^ k + b := by
  rw [Nat.lor_comm]
  exact mul_two_pow_or_of_lt hb

/-! ## Division digit by digit -/

section Digits

variable {h l B D : Nat}

/-- The high digit split at `D`: its remainder carried into the low digit, and
a multiple of `D`. -/
theorem digits_eq_carry_add (h l B D : Nat) :
    h * B + l = (h % D * B + l) + D * (h / D * B) := by
  have := Nat.div_add_mod h D
  calc h * B + l = (D * (h / D) + h % D) * B + l := by rw [this]
    _ = (h % D * B + l) + D * (h / D * B) := by ring

/-- The quotient of `h * B + l` by `D`: the quotient of the high digit, and the
quotient of its remainder carried into the low digit. -/
theorem div_digits (hD : 0 < D) (l B : Nat) :
    (h * B + l) / D = h / D * B + (h % D * B + l) / D := by
  rw [digits_eq_carry_add h l B D, Nat.add_mul_div_left _ _ hD, Nat.add_comm]

/-- The remainder of `h * B + l` by `D` is that of the carried low digit. -/
theorem mod_digits (D l B : Nat) : (h * B + l) % D = (h % D * B + l) % D := by
  rw [digits_eq_carry_add h l B D, Nat.add_mul_mod_self_left]

/-- The carried low digit's quotient is again a digit. -/
theorem carry_div_lt {r : Nat} (hr : r < D) (hl : l < B) : (r * B + l) / D < B := by
  apply Nat.div_lt_of_lt_mul
  have : (r + 1) * B ≤ D * B := Nat.mul_le_mul_right B hr
  rw [Nat.add_mul, Nat.one_mul] at this
  omega

end Digits

/-! ## Little-endian bytes

A `k`-byte unsigned word sits in memory as its bytes from the least
significant up. -/

section Bytes

/-- The `k` bytes of `n` in little-endian order. -/
def leBytes (n : Nat) : Nat → List UInt8
  | 0 => []
  | k + 1 => n.toUInt8 :: leBytes (n / 256) k

/-- The little-endian number of a run of bytes. -/
def ofLE : List UInt8 → Nat
  | [] => 0
  | b :: bs => b.toNat + 256 * ofLE bs

@[simp] theorem length_leBytes (n k : Nat) : (leBytes n k).length = k := by
  induction k generalizing n with
  | zero => rfl
  | succ k ih => simp [leBytes, ih]

/-- Reading a word back gives it modulo its width. -/
theorem ofLE_leBytes (n k : Nat) : ofLE (leBytes n k) = n % 2 ^ (8 * k) := by
  induction k generalizing n with
  | zero => simp [leBytes, ofLE, Nat.mod_one]
  | succ k ih =>
    rw [leBytes, ofLE, ih, show 8 * (k + 1) = 8 + 8 * k by ring, Nat.pow_add, Nat.mod_mul]
    simp

end Bytes

end Zircon.Word
