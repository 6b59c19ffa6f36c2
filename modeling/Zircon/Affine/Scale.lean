import Zircon.Word

/-!
# `affine::Ratio::Scale`

`Ratio::Scale<R>(value, numerator, denominator)` of `lib/affine/ratio.cc`
multiplies a 64-bit signed value by a ratio of 32-bit unsigned values, rounds
as `R` says and saturates at the ends of `int64_t`. `ScaleUInt64` does the work
on the distance from zero in 64-bit words: it multiplies the two 32-bit halves
of the value separately, which gives a three-digit product in base `2 ^ 32`,
and divides that by the denominator digit by digit.

The `uint64_t` operations that can wrap are written with `Word.mul`,
`Word.add` and `Word.shiftLeft`, so the model is `none` if any of them
overflows. The conversions between `int64_t` and `uint64_t` are modular by
design and are written out.
-/

namespace Zircon.Affine

open Word

/-- `Ratio::Round`. -/
inductive Round where
  | down
  | up
  | towardsZero
  | awayFromZero
deriving DecidableEq, Repr

/-- `kLow32Bits`. -/
def kLow32Bits : Nat := 0xffffffff

/-- `ScaleUInt64<ROUND_DIR, OVERFLOW_LIMIT_64>(value, numerator, denominator)`,
with `roundUp` for `ROUND_DIR == Ratio::Round::Up`. -/
def ScaleUInt64 (roundUp : Bool) (overflowLimit64 value numerator denominator : Nat) :
    Option Nat := do
  let high ← mul 64 numerator (value >>> 32)
  let low ← mul 64 numerator (value &&& kLow32Bits)
  -- move the high end of `low` into the low end of `high`
  let high ← add 64 high (low >>> 32)
  let low := low &&& kLow32Bits
  let highQ := high / denominator
  let highR := high % denominator
  if highQ > overflowLimit64 >>> 32 then return overflowLimit64
  -- the remainder of `high / D` is the high half of what is left to divide
  let low := low ||| (← shiftLeft 64 highR 32)
  let lowQ := low / denominator
  let lowR := low % denominator
  let result := (← shiftLeft 64 highQ 32) ||| lowQ
  if result ≥ overflowLimit64 then return overflowLimit64
  if roundUp ∧ lowR ≠ 0 then add 64 result 1 else return result

/-- `static_cast<uint64_t>` of an `int64_t`. -/
def toUInt64 (v : Int) : Nat := (v % 2 ^ 64).toNat

/-- `static_cast<int64_t>` of a `uint64_t`. -/
def toInt64 (x : Nat) : Int := if x < 2 ^ 63 then x else x - 2 ^ 64

/-- Unary minus on a `uint64_t`. -/
def negUInt64 (x : Nat) : Nat := (2 ^ 64 - x) % 2 ^ 64

/-- `Ratio::Scale<kRoundBehavior>(value, numerator, denominator)`; `none` when
`Assert(denominator != 0u)` fails or a `uint64_t` operation overflows. A
negative value is scaled by its distance from zero, rounded the other way,
and negated back; the limit `0x8000000000000000` negates to `INT64_MIN`. -/
def Scale (r : Round) (value : Int) (numerator denominator : Nat) : Option Int :=
  if denominator = 0 then none
  else if value ≥ 0 then
    (ScaleUInt64 (r ≠ .down ∧ r ≠ .towardsZero) (2 ^ 63 - 1) (toUInt64 value) numerator
      denominator).map toInt64
  else
    (ScaleUInt64 (r = .down ∨ r = .awayFromZero) (2 ^ 63) (negUInt64 (toUInt64 value)) numerator
      denominator).map fun x => toInt64 (negUInt64 x)

/-! ## The specification -/

/-- The rounding modes of the table in `ratio.h`, on an exact rational. -/
def Round.apply : Round → ℚ → Int
  | .down, q => ⌊q⌋
  | .up, q => ⌈q⌉
  | .towardsZero, q => if q < 0 then ⌈q⌉ else ⌊q⌋
  | .awayFromZero, q => if q < 0 then ⌊q⌋ else ⌈q⌉

/-- `std::numeric_limits<int64_t>::max()`, `Ratio::kOverflow`. -/
def kInt64Max : Int := 2 ^ 63 - 1

/-- `std::numeric_limits<int64_t>::min()`, `Ratio::kUnderflow`. -/
def kInt64Min : Int := -2 ^ 63

/-- Saturation to `[INT64_MIN, INT64_MAX]`. -/
def clampInt64 (x : Int) : Int := max kInt64Min (min kInt64Max x)

/-- `m / D` rounded down, or up when `up` holds. -/
def roundDiv (up : Bool) (m D : Nat) : Nat := m / D + if up ∧ m % D ≠ 0 then 1 else 0

/-! ## `ScaleUInt64` -/

section ScaleUInt64

variable {v N D : Nat}

/-- The product of the two halves, with the carry moved up: `v * N` as a high
word and a low 32-bit digit. -/
theorem mul_eq_high_low (v N : Nat) :
    v * N = (N * (v >>> 32) + (N * (v &&& kLow32Bits)) >>> 32) * 2 ^ 32 +
      (N * (v &&& kLow32Bits) &&& kLow32Bits) := by
  have hv := high_mul_add_low v 32
  have hlow := high_mul_add_low (N * (v &&& kLow32Bits)) 32
  have hk : kLow32Bits = 2 ^ 32 - 1 := rfl
  rw [hk] at hlow ⊢
  calc v * N = N * (v >>> 32) * 2 ^ 32 + N * (v &&& (2 ^ 32 - 1)) := by
        conv_lhs => rw [← hv]
        ring
    _ = _ := by
        conv_lhs => rw [← hlow]
        ring

/-- Neither half product nor the carried sum overflows. -/
theorem halves_lt (hv : v < 2 ^ 64) (hN : N < 2 ^ 32) :
    N * (v >>> 32) < 2 ^ 64 ∧ N * (v &&& kLow32Bits) < 2 ^ 64 ∧
      N * (v >>> 32) + (N * (v &&& kLow32Bits)) >>> 32 < 2 ^ 64 := by
  have hk : kLow32Bits = 2 ^ 32 - 1 := rfl
  have hh : v >>> 32 < 2 ^ 32 := high_lt hv
  have hl : v &&& kLow32Bits < 2 ^ 32 := low_lt v 32
  have hmh : N * (v >>> 32) ≤ (2 ^ 32 - 1) * (2 ^ 32 - 1) := Nat.mul_le_mul (by omega) (by omega)
  have hml : N * (v &&& kLow32Bits) ≤ (2 ^ 32 - 1) * (2 ^ 32 - 1) :=
    Nat.mul_le_mul (by omega) (by omega)
  have hcarry : (N * (v &&& kLow32Bits)) >>> 32 < 2 ^ 32 := by
    rw [high_eq]
    exact Nat.div_lt_of_lt_mul (by omega)
  refine ⟨by omega, by omega, by omega⟩

/-- `ScaleUInt64` is the quotient, plus one when rounding up a remainder,
saturated at the limit; none of its operations overflows. -/
theorem scaleUInt64_eq (roundUp : Bool) {limit : Nat} (hlimit : limit < 2 ^ 64)
    (hv : v < 2 ^ 64) (hN : N < 2 ^ 32) (hD : 0 < D) (hD' : D < 2 ^ 32) :
    ScaleUInt64 roundUp limit v N D = some (min (roundDiv roundUp (v * N) D) limit) := by
  unfold roundDiv
  obtain ⟨h1, h2, h3⟩ := halves_lt hv hN
  simp only [ScaleUInt64, mul_of_lt h1, mul_of_lt h2, add_of_lt h3, Option.bind_eq_bind,
    Option.bind_some, Option.pure_def]
  -- the high word, and the low digit left after the carry
  have hprod := mul_eq_high_low v N
  have hlow_lt : N * (v &&& kLow32Bits) &&& kLow32Bits < 2 ^ 32 := low_lt _ 32
  generalize N * (v >>> 32) + (N * (v &&& kLow32Bits)) >>> 32 = high at hprod ⊢
  generalize N * (v &&& kLow32Bits) &&& kLow32Bits = low at hprod hlow_lt ⊢
  have hquot : v * N / D = high / D * 2 ^ 32 + (high % D * 2 ^ 32 + low) / D := by
    rw [hprod]
    exact div_digits hD low _
  have hrem : v * N % D = (high % D * 2 ^ 32 + low) % D := by
    rw [hprod]
    exact mod_digits D low _
  have hlowQ : (high % D * 2 ^ 32 + low) / D < 2 ^ 32 := carry_div_lt (Nat.mod_lt _ hD) hlow_lt
  rw [high_eq]
  by_cases hover : high / D > limit / 2 ^ 32
  · -- the quotient of the high word alone is past the limit
    rw [if_pos hover]
    have hge : limit < v * N / D :=
      calc limit < (limit / 2 ^ 32 + 1) * 2 ^ 32 := by
            rw [Nat.add_mul, Nat.one_mul]
            exact Nat.lt_div_mul_add (Nat.two_pow_pos 32)
        _ ≤ high / D * 2 ^ 32 := Nat.mul_le_mul_right _ hover
        _ ≤ v * N / D := by
            rw [hquot]
            exact Nat.le_add_right _ _
    congr 1
    omega
  · rw [if_neg hover]
    have hhighQ : high / D * 2 ^ 32 ≤ limit :=
      calc high / D * 2 ^ 32 ≤ limit / 2 ^ 32 * 2 ^ 32 := Nat.mul_le_mul_right _ (by omega)
        _ ≤ limit := Nat.div_mul_le_self limit _
    have hR : high % D * 2 ^ 32 < 2 ^ 64 :=
      calc high % D * 2 ^ 32 < 2 ^ 32 * 2 ^ 32 :=
            Nat.mul_lt_mul_of_pos_right (by have := Nat.mod_lt high hD; omega) (Nat.two_pow_pos 32)
        _ = 2 ^ 64 := by norm_num
    have hQ : high / D * 2 ^ 32 < 2 ^ 64 := Nat.lt_of_le_of_lt hhighQ hlimit
    simp only [shiftLeft_of_lt hR, shiftLeft_of_lt hQ, Option.bind_some, or_mul_two_pow_of_lt hlow_lt, mul_two_pow_or_of_lt hlowQ, ← hquot, ← hrem]
    by_cases hsat : v * N / D ≥ limit
    · rw [if_pos hsat]
      congr 1
      split_ifs <;> omega
    · rw [if_neg hsat]
      by_cases hup : roundUp = true ∧ v * N % D ≠ 0
      · rw [if_pos hup, if_pos hup, add_of_lt (by omega)]
        congr 1
        omega
      · rw [if_neg hup, if_neg hup]
        congr 1
        omega

end ScaleUInt64

/-! ## Rounding an exact quotient -/

section Rounding

variable {m D : Nat}

/-- Rounding up a quotient of naturals adds one exactly when it has a remainder. -/
theorem ceil_natCast_div (hD : 0 < D) :
    ⌈(m : ℚ) / D⌉ = ((m / D + if m % D = 0 then 0 else 1 : ℕ) : ℤ) := by
  have hDq : (0 : ℚ) < D := by exact_mod_cast hD
  have hm := Nat.div_add_mod m D
  have hr := Nat.mod_lt m hD
  generalize m / D = q at hm ⊢
  generalize m % D = r at hm hr ⊢
  subst hm
  rw [Int.ceil_eq_iff, lt_div_iff₀ hDq, div_le_iff₀ hDq]
  -- both bounds are statements about naturals, by cases on the remainder
  split_ifs with h
  · subst h
    push_cast
    constructor <;> nlinarith
  · have h0 : (0 : ℚ) < r := by exact_mod_cast Nat.pos_of_ne_zero h
    have hrD : (r : ℚ) < D := by exact_mod_cast hr
    push_cast
    constructor <;> nlinarith

/-- Rounding a quotient of naturals down: `roundDiv false`. -/
theorem floor_natCast_div : ⌊(m : ℚ) / D⌋ = (roundDiv false m D : ℤ) := by
  rw [Rat.floor_natCast_div_natCast]
  simp [roundDiv]

/-- Rounding a quotient of naturals up: `roundDiv true`. -/
theorem ceil_natCast_div_eq_roundDiv (hD : 0 < D) : ⌈(m : ℚ) / D⌉ = (roundDiv true m D : ℤ) := by
  rw [ceil_natCast_div hD]
  by_cases h : m % D = 0 <;> simp [roundDiv, h]

/-- A non-negative quotient, rounded as `r` says: down for `down` and
`towardsZero`, up for `up` and `awayFromZero`. -/
theorem apply_natCast_div (r : Round) (hD : 0 < D) :
    r.apply ((m : ℚ) / D) = (roundDiv (r ≠ .down ∧ r ≠ .towardsZero) m D : ℤ) := by
  have hnonneg : ¬ (m : ℚ) / D < 0 := not_lt.mpr (by positivity)
  have hfloor := floor_natCast_div (m := m) (D := D)
  have hceil := ceil_natCast_div_eq_roundDiv (m := m) hD
  cases r with
  | down => rw [Round.apply, hfloor]; rfl
  | up => rw [Round.apply, hceil]; rfl
  | towardsZero => rw [Round.apply, if_neg hnonneg, hfloor]; rfl
  | awayFromZero => rw [Round.apply, if_neg hnonneg, hceil]; rfl

/-- A non-positive quotient, rounded as `r` says: its distance from zero is
rounded up for `down` and `awayFromZero`, down for `up` and `towardsZero`. -/
theorem apply_neg_natCast_div (r : Round) (hD : 0 < D) :
    r.apply (-(m : ℚ) / D) = -(roundDiv (r = .down ∨ r = .awayFromZero) m D : ℤ) := by
  have hneg : -(m : ℚ) / D = -((m : ℚ) / D) := neg_div _ _
  -- the floor of the negation is the negated ceiling, and the other way round
  have hfloor : ⌊-((m : ℚ) / D)⌋ = -(roundDiv true m D : ℤ) := by
    rw [Int.floor_neg, ceil_natCast_div_eq_roundDiv hD]
  have hceil : ⌈-((m : ℚ) / D)⌉ = -(roundDiv false m D : ℤ) := by
    rw [Int.ceil_neg, floor_natCast_div]
  -- a quotient of zero is rounded the same way in every mode
  have hzero : ¬ -((m : ℚ) / D) < 0 → roundDiv true m D = roundDiv false m D := by
    intro h
    have hq : (m : ℚ) / D = 0 := le_antisymm (by linarith) (by positivity)
    have hm : m = 0 := by
      rcases div_eq_zero_iff.mp hq with h | h
      · exact_mod_cast h
      · exact absurd h (by exact_mod_cast hD.ne')
    simp [roundDiv, hm]
  rw [hneg]
  cases r with
  | down => rw [Round.apply, hfloor]; rfl
  | up => rw [Round.apply, hceil]; rfl
  | towardsZero =>
    rw [Round.apply]
    split_ifs with h
    · rw [hceil]; rfl
    · rw [hfloor, hzero h]; rfl
  | awayFromZero =>
    rw [Round.apply]
    split_ifs with h
    · rw [hfloor]; rfl
    · rw [hceil, ← hzero h]; rfl

end Rounding

/-! ## `Scale` -/

section Conversions

variable {v : Int} {x : Nat}

theorem toUInt64_of_nonneg (h0 : 0 ≤ v) (h : v < 2 ^ 64) : toUInt64 v = v.toNat := by
  unfold toUInt64
  omega

/-- The distance of a negative `int64_t` from zero, as `-static_cast<uint64_t>(value)`. -/
theorem negUInt64_toUInt64_of_neg (h : v < 0) (h' : -2 ^ 64 < v) :
    negUInt64 (toUInt64 v) = (-v).toNat := by
  unfold negUInt64 toUInt64
  omega

theorem toInt64_of_lt (h : x < 2 ^ 63) : toInt64 x = x := by
  unfold toInt64
  rw [if_pos h]

/-- Negating a distance of at most `2 ^ 63` and casting back gives its negation;
`0x8000000000000000` becomes `INT64_MIN`. -/
theorem toInt64_negUInt64 (h : x ≤ 2 ^ 63) : toInt64 (negUInt64 x) = -(x : Int) := by
  unfold toInt64 negUInt64
  split_ifs <;> omega

end Conversions

/-- `Ratio::Scale` is the exact product, rounded as `R` says and saturated to
`int64_t`, and none of its `uint64_t` operations overflows. -/
theorem scale_eq_clamp_round (r : Round) {value : Int} {numerator denominator : Nat}
    (hv : kInt64Min ≤ value ∧ value ≤ kInt64Max) (hn : numerator < 2 ^ 32)
    (hd : 0 < denominator ∧ denominator < 2 ^ 32) :
    Scale r value numerator denominator =
      some (clampInt64 (r.apply ((value : ℚ) * numerator / denominator))) := by
  unfold kInt64Min kInt64Max at hv
  unfold Scale clampInt64 kInt64Min kInt64Max
  rw [if_neg hd.1.ne']
  by_cases h0 : 0 ≤ value
  · -- scaled as a `uint64_t` below `2 ^ 63`, saturated at `INT64_MAX`
    rw [if_pos h0]
    obtain ⟨v, rfl⟩ := Int.eq_ofNat_of_zero_le h0
    have hv' : v < 2 ^ 63 := by omega
    rw [toUInt64_of_nonneg h0 (by omega), Int.toNat_natCast,
      scaleUInt64_eq _ (by norm_num) (by omega) hn hd.1 hd.2, Option.map_some,
      toInt64_of_lt (by omega)]
    have hq : ((v : ℤ) : ℚ) * numerator / denominator = ((v * numerator : ℕ) : ℚ) / denominator := by
      push_cast
      ring
    rw [hq, apply_natCast_div r hd.1]
    congr 1
    omega
  · -- scaled by its distance from zero, saturated at `INT64_MIN`
    rw [if_neg h0]
    obtain ⟨m, rfl⟩ : ∃ m : ℕ, value = -(m : ℤ) := ⟨(-value).toNat, by omega⟩
    have hq : ((-(m : ℤ) : ℤ) : ℚ) * numerator / denominator =
        -((m * numerator : ℕ) : ℚ) / denominator := by
      push_cast
      ring
    rw [negUInt64_toUInt64_of_neg (by omega) (by omega), neg_neg, Int.toNat_natCast,
      scaleUInt64_eq _ (by norm_num) (by omega) hn hd.1 hd.2, Option.map_some,
      toInt64_negUInt64 (min_le_right _ _), hq, apply_neg_natCast_div r hd.1]
    congr 1
    omega

/-- `Scale<Round::Down>(-7, 1, 2)` is `-4`, the first row of the table in `ratio.h`. -/
theorem scale_eq_clamp_round_down_neg_seven :
    (kInt64Min ≤ -7 ∧ -7 ≤ kInt64Max) ∧ 1 < 2 ^ 32 ∧ (0 < 2 ∧ 2 < 2 ^ 32) ∧
      Scale .down (-7) 1 2 = some (clampInt64 (Round.down.apply ((-7 : Int) * (1 : Nat) / (2 : Nat)))) :=
  have hv : kInt64Min ≤ -7 ∧ -7 ≤ kInt64Max := by decide
  ⟨hv, by decide, by decide, scale_eq_clamp_round .down hv (by decide) (by decide)⟩

example : Scale .down (-7) 1 2 = some (-4) := by decide

end Zircon.Affine
