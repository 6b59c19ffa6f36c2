import Zircon.Word

/-!
# `affine::Ratio::Reduce` and `Ratio::Product`

`BinaryGcd` of `lib/affine/ratio.cc` is Stein's algorithm: strip the common
factors of two, make `a` odd, then repeatedly make `b` odd, order the pair and
replace the larger by the difference, until the difference is zero. `Reduce`
divides a fraction by that gcd. `Product` multiplies two 32-bit fractions in
64 bits and reduces; when the result does not fit back in 32 bits and the
caller allowed an inexact result, it shifts both terms right by `i = 1, 2, …`,
rounding, until the reduced result fits.

The loops halve or subtract, so each is given as fuel a value it cannot
exceed: the number it halves, or the sum of the two it subtracts from.
`Reduce` has no operation whose result depends on the width of `T`, so one
model serves `uint32_t` and `uint64_t`.
-/

namespace Zircon.Affine

open Word

/-- `Ratio::Exact`. -/
inductive Exact where
  | no
  | yes
deriving DecidableEq, Repr

/-- `for (twos = 0; ((a | b) & 1) == 0; ++twos) { a >>= 1; b >>= 1; }`, as
`(a, b, twos)`. -/
def commonTwosLoop : Nat → Nat → Nat → Nat → Nat × Nat × Nat
  | 0, a, b, twos => (a, b, twos)
  | fuel + 1, a, b, twos =>
    if (a ||| b) &&& 1 = 0 then commonTwosLoop fuel (a >>> 1) (b >>> 1) (twos + 1)
    else (a, b, twos)

/-- `while ((x & 1) == 0) { x >>= 1; }`. -/
def stripTwosLoop : Nat → Nat → Nat
  | 0, x => x
  | fuel + 1, x => if x &&& 1 = 0 then stripTwosLoop fuel (x >>> 1) else x

/-- The `do { ... } while (b != 0)` loop of `BinaryGcd`. -/
def subtractLoop : Nat → Nat → Nat → Nat
  | 0, a, _ => a
  | fuel + 1, a, b =>
    let b := stripTwosLoop b b
    -- `if (a > b) std::swap(a, b)`
    let a' := if a > b then b else a
    let b' := if a > b then a else b
    if b' - a' ≠ 0 then subtractLoop fuel a' (b' - a') else a'

/-- `BinaryGcd(a, b)`; `none` when `DebugAssert(a && b)` fails. -/
def BinaryGcd (a b : Nat) : Option Nat :=
  if a = 0 ∨ b = 0 then none
  else
    let r := commonTwosLoop a a b 0
    let a := stripTwosLoop r.1 r.1
    some (subtractLoop (a + r.2.1) a r.2.1 <<< r.2.2)

/-- `Ratio::Reduce(&numerator, &denominator)`, as the new pair; `none` when
`Assert(*denominator != 0)` or a debug assertion fails. -/
def Reduce (numerator denominator : Nat) : Option (Nat × Nat) :=
  if denominator = 0 then none
  else if numerator = 0 then some (0, 1)
  else
    match BinaryGcd numerator denominator with
    | none => none
    | some gcd =>
      -- `DebugAssert(gcd != 0)`
      if gcd = 0 then none
      else if gcd = 1 then some (numerator, denominator)
      else some (numerator / gcd, denominator / gcd)

/-- `FitsIn32Bits(numerator, denominator)`. -/
def FitsIn32Bits (numerator denominator : Nat) : Bool :=
  numerator ≤ 2 ^ 32 - 1 ∧ denominator ≤ 2 ^ 32 - 1

/-- The approximation loop of `Product` over `i`; past its last `i` the code
falls through to the final `static_cast<uint32_t>` of the reduced product. -/
def approxLoop (numerator denominator : Nat) : List Nat → Option (Nat × Nat)
  | [] => some (numerator % 2 ^ 32, denominator % 2 ^ 32)
  | i :: rest => do
    let roundedNumerator := (← add 64 numerator (1 <<< (i - 1))) >>> i
    let roundedDenominator := (← add 64 denominator (1 <<< (i - 1))) >>> i
    -- larger than we can represent
    if roundedDenominator = 0 then return (2 ^ 32 - 1, 1)
    -- smaller than we can represent
    if roundedNumerator = 0 then return (0, 1)
    let (n, d) ← Reduce roundedNumerator roundedDenominator
    if FitsIn32Bits n d then return (n, d)
    approxLoop numerator denominator rest

/-- `Ratio::Product(a_numerator, a_denominator, b_numerator, b_denominator,
&product_numerator, &product_denominator, exact)`, as the product pair; `none`
when an assertion fails or a `uint64_t` operation overflows. -/
def Product (aNumerator aDenominator bNumerator bDenominator : Nat) (exact : Exact) :
    Option (Nat × Nat) := do
  let (numerator, denominator) ←
    Reduce (← mul 64 aNumerator bNumerator) (← mul 64 aDenominator bDenominator)
  if !FitsIn32Bits numerator denominator then
    -- `Assert(exact == Exact::No)`
    if exact = .yes then none
    else approxLoop numerator denominator (List.range' 1 32)
  else return (numerator % 2 ^ 32, denominator % 2 ^ 32)

/-! ## `BinaryGcd` computes the gcd -/

section BinaryGcd

theorem and_one_eq_zero_iff (x : Nat) : x &&& 1 = 0 ↔ 2 ∣ x := by
  rw [Nat.and_one_is_mod, Nat.dvd_iff_mod_eq_zero]

theorem or_and_one_eq_zero_iff (a b : Nat) : (a ||| b) &&& 1 = 0 ↔ 2 ∣ a ∧ 2 ∣ b := by
  have hor : (a ||| b) % 2 ^ 1 = a % 2 ^ 1 ||| b % 2 ^ 1 := Nat.or_mod_two_pow
  rw [Nat.and_one_is_mod, Nat.dvd_iff_mod_eq_zero, Nat.dvd_iff_mod_eq_zero]
  simp only [pow_one] at hor
  rw [hor]
  rcases Nat.mod_two_eq_zero_or_one a with ha | ha <;>
    rcases Nat.mod_two_eq_zero_or_one b with hb | hb <;> simp [ha, hb]

/-- Halving an even number keeps its gcd with an odd one. -/
theorem gcd_half_of_odd {x a : Nat} (ha : Odd a) (hx : 2 ∣ x) : Nat.gcd (x / 2) a = Nat.gcd x a := by
  obtain ⟨y, rfl⟩ := hx
  rw [Nat.mul_div_cancel_left y (by decide), Nat.Coprime.gcd_mul_left_cancel y
    (Nat.coprime_two_left.mpr ha)]

theorem stripTwosLoop_gcd {a : Nat} (ha : Odd a) :
    ∀ fuel x, Nat.gcd (stripTwosLoop fuel x) a = Nat.gcd x a
  | 0, x => rfl
  | fuel + 1, x => by
    unfold stripTwosLoop
    split_ifs with h
    · rw [stripTwosLoop_gcd ha fuel, high_eq, pow_one]
      exact gcd_half_of_odd ha ((and_one_eq_zero_iff x).mp h)
    · rfl

/-- With fuel at least the number, the loop reaches an odd number. -/
theorem stripTwosLoop_odd : ∀ fuel x, 0 < x → x ≤ fuel → Odd (stripTwosLoop fuel x)
  | 0, x, hx, hf => absurd hf (by omega)
  | fuel + 1, x, hx, hf => by
    unfold stripTwosLoop
    split_ifs with h
    · have h2 := (and_one_eq_zero_iff x).mp h
      rw [high_eq, pow_one]
      exact stripTwosLoop_odd fuel (x / 2) (by omega) (by omega)
    · rw [and_one_eq_zero_iff] at h
      exact Nat.odd_iff.mpr (by omega)

theorem stripTwosLoop_le : ∀ fuel x, stripTwosLoop fuel x ≤ x
  | 0, x => le_rfl
  | fuel + 1, x => by
    unfold stripTwosLoop
    split_ifs
    · rw [high_eq, pow_one]
      exact (stripTwosLoop_le fuel (x / 2)).trans (Nat.div_le_self x 2)
    · exact le_rfl

theorem stripTwosLoop_of_odd {x : Nat} (hx : Odd x) : ∀ fuel, stripTwosLoop fuel x = x
  | 0 => rfl
  | fuel + 1 => by
    unfold stripTwosLoop
    have h1 := Nat.odd_iff.mp hx
    rw [if_neg (by rw [and_one_eq_zero_iff]; omega)]

/-- The common factors of two come out into `twos`, and at least one of the two
numbers left is odd. -/
theorem commonTwosLoop_spec : ∀ fuel a b twos, 0 < a → 0 < b → a ≤ fuel →
    0 < (commonTwosLoop fuel a b twos).1 ∧ 0 < (commonTwosLoop fuel a b twos).2.1 ∧
      (Odd (commonTwosLoop fuel a b twos).1 ∨ Odd (commonTwosLoop fuel a b twos).2.1) ∧
      2 ^ (commonTwosLoop fuel a b twos).2.2 *
          Nat.gcd (commonTwosLoop fuel a b twos).1 (commonTwosLoop fuel a b twos).2.1 =
        2 ^ twos * Nat.gcd a b
  | 0, a, b, twos, ha, hb, hf => absurd hf (by omega)
  | fuel + 1, a, b, twos, ha, hb, hf => by
    unfold commonTwosLoop
    split_ifs with h
    · -- both even: halve both, and the gcd loses one factor of two
      obtain ⟨⟨a', rfl⟩, ⟨b', rfl⟩⟩ := (or_and_one_eq_zero_iff _ _).mp h
      simp only [high_eq, pow_one, Nat.mul_div_cancel_left _ (show 0 < 2 by decide)]
      obtain ⟨h1, h2, h3, h4⟩ := commonTwosLoop_spec fuel a' b' (twos + 1) (by omega) (by omega)
        (by omega)
      refine ⟨h1, h2, h3, ?_⟩
      rw [h4, Nat.gcd_mul_left, pow_succ]
      ring
    · rw [or_and_one_eq_zero_iff, not_and_or] at h
      dsimp only
      refine ⟨ha, hb, ?_, rfl⟩
      rcases h with h | h
      · exact .inl (Nat.odd_iff.mpr (by omega))
      · exact .inr (Nat.odd_iff.mpr (by omega))

/-- `if (a > b) std::swap(a, b)` keeps the gcd of the pair. -/
theorem gcd_ordered (a b : Nat) :
    Nat.gcd (if a > b then b else a) (if a > b then a else b) = Nat.gcd a b := by
  split_ifs
  · exact Nat.gcd_comm b a
  · rfl

/-- The subtraction loop, from an odd `a` and a positive `b`, ends with their
gcd; the sum of the pair drops every round, so fuel `a + b` is enough. -/
theorem subtractLoop_eq_gcd : ∀ fuel a b, Odd a → 0 < b → a + b ≤ fuel + 1 →
    subtractLoop fuel a b = Nat.gcd a b
  | 0, a, b, ha, hb, hf => absurd hf (by have := ha.pos; omega)
  | fuel + 1, a, b, ha, hb, hf => by
    unfold subtractLoop
    dsimp only
    -- `b` made odd keeps the gcd, since `a` is odd
    have hodd := stripTwosLoop_odd b b hb le_rfl
    have hle := stripTwosLoop_le b b
    have hgcd : Nat.gcd a (stripTwosLoop b b) = Nat.gcd a b := by
      rw [Nat.gcd_comm, stripTwosLoop_gcd ha, Nat.gcd_comm]
    generalize stripTwosLoop b b = b₁ at hodd hle hgcd ⊢
    have hpos := ha.pos
    -- the ordered pair: the smaller one odd, the larger below the old sum
    have hg := gcd_ordered a b₁
    have hlo : Odd (if a > b₁ then b₁ else a) := by split_ifs <;> assumption
    have hlohi : (if a > b₁ then b₁ else a) ≤ (if a > b₁ then a else b₁) := by split_ifs <;> omega
    have hsum : (if a > b₁ then a else b₁) ≤ a + b₁ - 1 := by
      have := hodd.pos
      split_ifs <;> omega
    generalize (if a > b₁ then b₁ else a) = lo at hg hlo hlohi ⊢
    generalize (if a > b₁ then a else b₁) = hi at hg hlohi hsum ⊢
    split_ifs with hne
    · rw [subtractLoop_eq_gcd fuel lo (hi - lo) hlo (by omega) (by omega),
        Nat.gcd_sub_self_right hlohi, hg, hgcd]
    · have heq : lo = hi := by omega
      rw [← hgcd, ← hg, heq, Nat.gcd_self]

/-- `BinaryGcd` of two positive numbers is their gcd. -/
theorem binaryGcd_eq {a b : Nat} (ha : 0 < a) (hb : 0 < b) : BinaryGcd a b = some (Nat.gcd a b) := by
  unfold BinaryGcd
  rw [if_neg (by omega)]
  obtain ⟨h1, h2, h3, h4⟩ := commonTwosLoop_spec a a b 0 ha hb le_rfl
  generalize commonTwosLoop a a b 0 = r at h1 h2 h3 h4
  obtain ⟨a₁, b₁, twos⟩ := r
  simp only [pow_zero, Nat.one_mul] at h1 h2 h3 h4 ⊢
  -- making `a₁` odd keeps the gcd: either `b₁` is odd, or `a₁` already is
  have hodd := stripTwosLoop_odd a₁ a₁ h1 le_rfl
  have hgcd : Nat.gcd (stripTwosLoop a₁ a₁) b₁ = Nat.gcd a₁ b₁ := by
    rcases h3 with h | h
    · rw [stripTwosLoop_of_odd h]
    · exact stripTwosLoop_gcd h a₁ a₁
  rw [subtractLoop_eq_gcd _ _ _ hodd h2 (Nat.le_succ _), hgcd, Nat.shiftLeft_eq,
    Nat.mul_comm _ (2 ^ twos), h4]

end BinaryGcd

/-! ## `Reduce` and `Product` -/

section Reduce

@[simp] theorem fitsIn32Bits_iff {n d : Nat} :
    FitsIn32Bits n d = true ↔ n ≤ 2 ^ 32 - 1 ∧ d ≤ 2 ^ 32 - 1 := by
  simp [FitsIn32Bits]

/-- `Reduce` divides both terms by their gcd; for a zero numerator that gcd is
the denominator, so the result is `0 / 1`. -/
theorem reduce_eq {n d : Nat} (hd : 0 < d) :
    Reduce n d = some (n / Nat.gcd n d, d / Nat.gcd n d) := by
  unfold Reduce
  rw [if_neg (by omega)]
  by_cases hn : n = 0
  · subst hn
    rw [if_pos rfl, Nat.gcd_zero_left, Nat.zero_div, Nat.div_self hd]
  · rw [if_neg hn, binaryGcd_eq (Nat.pos_of_ne_zero hn) hd]
    dsimp only
    rw [if_neg (Nat.gcd_ne_zero_right (by omega))]
    split_ifs with h1
    · rw [h1, Nat.div_one, Nat.div_one]
    · rfl

/-- The terms divided by their gcd are `Rat`'s normal form of the fraction. -/
theorem num_den_natCast_div {n d : Nat} (hd : 0 < d) :
    ((n : ℚ) / d).num = (n / Nat.gcd n d : ℕ) ∧ ((n : ℚ) / d).den = d / Nat.gcd n d := by
  have hval : ((n / Nat.gcd n d : ℕ) : ℚ) / ((d / Nat.gcd n d : ℕ) : ℚ) = n / d :=
    Nat.cast_div_div_div_cancel_right (Nat.gcd_dvd_right n d) (Nat.gcd_dvd_left n d)
  have hcop := Nat.coprime_div_gcd_div_gcd (Nat.gcd_pos_of_pos_right n hd)
  have hpos : (0 : ℤ) < ((d / Nat.gcd n d : ℕ) : ℤ) := by
    exact_mod_cast Nat.div_gcd_pos_of_pos_right n hd
  have hcop' : Nat.Coprime ((n / Nat.gcd n d : ℕ) : ℤ).natAbs ((d / Nat.gcd n d : ℕ) : ℤ).natAbs := by
    simpa only [Int.natAbs_natCast] using hcop
  rw [← hval]
  have h1 := Rat.num_div_eq_of_coprime hpos hcop'
  have h2 := Rat.den_div_eq_of_coprime hpos hcop'
  simp only [Int.cast_natCast] at h1 h2
  exact ⟨h1, by exact_mod_cast h2⟩

/-- What `Product` promises of a pair it returns: a nonzero denominator, lowest
terms, and both terms in 32 bits. -/
def Reduced32 (p : Nat × Nat) : Prop :=
  0 < p.2 ∧ Nat.Coprime p.1 p.2 ∧ FitsIn32Bits p.1 p.2 = true

/-- A fraction divided by its gcd is reduced, and fits if it fitted before. -/
theorem reduced32_div_gcd {n d : Nat} (hd : 0 < d) (hfit : FitsIn32Bits (n / Nat.gcd n d) (d / Nat.gcd n d)) :
    Reduced32 (n / Nat.gcd n d, d / Nat.gcd n d) :=
  ⟨Nat.div_gcd_pos_of_pos_right n hd, Nat.coprime_div_gcd_div_gcd (Nat.gcd_pos_of_pos_right n hd), hfit⟩

/-- The largest 32-bit product, to which every multiplied pair is bounded. -/
theorem mul_le_max32 {a b : Nat} (ha : a < 2 ^ 32) (hb : b < 2 ^ 32) : a * b ≤ (2 ^ 32 - 1) ^ 2 := by
  rw [sq]
  exact Nat.mul_le_mul (by omega) (by omega)

/-- In the last round, `i = 32`, a rounded term of at most `(2 ^ 32 - 1) ^ 2`
fits in 32 bits. -/
theorem round_last_le {x : Nat} (hx : x ≤ (2 ^ 32 - 1) ^ 2) : (x + 2 ^ 31) / 2 ^ 32 ≤ 2 ^ 32 - 1 := by
  apply Nat.div_le_of_le_mul
  norm_num at hx ⊢
  omega

/-- The approximation loop, over shifts in `[1, 32]` that include `32`, returns
a reduced 32-bit pair: the early exits are `(2 ^ 32 - 1) / 1` and `0 / 1`, and
the round `i = 32` always fits, so the loop never falls through. -/
theorem approxLoop_reduced {n d : Nat} (hn : n ≤ (2 ^ 32 - 1) ^ 2) (hd : d ≤ (2 ^ 32 - 1) ^ 2) :
    ∀ l : List Nat, (∀ i ∈ l, 0 < i ∧ i ≤ 32) → 32 ∈ l →
      ∃ p, approxLoop n d l = some p ∧ Reduced32 p
  | [], _, h32 => absurd h32 List.not_mem_nil
  | i :: rest, hl, h32 => by
    obtain ⟨hi0, hi32⟩ := hl i List.mem_cons_self
    -- adding the rounding bit `2 ^ (i - 1) ≤ 2 ^ 31` stays in 64 bits
    have hbit : 2 ^ (i - 1) ≤ 2 ^ 31 := Nat.pow_le_pow_right (by decide) (by omega)
    have hlim : (2 ^ 32 - 1) ^ 2 + 2 ^ 31 < 2 ^ 64 := by norm_num
    unfold approxLoop
    rw [Nat.one_shiftLeft, add_of_lt (by omega), add_of_lt (by omega)]
    simp only [Option.bind_eq_bind, Option.bind_some, high_eq]
    split_ifs with hrd hrn
    · exact ⟨_, rfl, by decide, by decide, by decide⟩
    · exact ⟨_, rfl, by decide, by decide, by decide⟩
    · rw [reduce_eq (Nat.pos_of_ne_zero hrd)]
      simp only [Option.bind_some]
      split_ifs with hfit
      · exact ⟨_, rfl, reduced32_div_gcd (Nat.pos_of_ne_zero hrd) hfit⟩
      · -- a round that does not fit is not the last one
        have hrest : 32 ∈ rest := by
          rcases List.mem_cons.mp h32 with rfl | h
          · refine absurd ?_ hfit
            rw [fitsIn32Bits_iff]
            exact ⟨(Nat.div_le_self _ _).trans (round_last_le hn),
              (Nat.div_le_self _ _).trans (round_last_le hd)⟩
          · exact h
        exact approxLoop_reduced hn hd rest (fun j hj => hl j (List.mem_cons_of_mem i hj)) hrest

/-- `Product` of 32-bit terms: the exact product reduced, if it fits; otherwise
an assertion failure when the caller asked for an exact result, and the
approximation loop when not. -/
theorem product_eq {aN aD bN bD : Nat} (exact : Exact) (haN : aN < 2 ^ 32) (hbN : bN < 2 ^ 32)
    (haD : aD < 2 ^ 32) (hbD : bD < 2 ^ 32) (hD : 0 < aD * bD) :
    Product aN aD bN bD exact =
      if FitsIn32Bits (aN * bN / Nat.gcd (aN * bN) (aD * bD)) (aD * bD / Nat.gcd (aN * bN) (aD * bD))
      then some (aN * bN / Nat.gcd (aN * bN) (aD * bD), aD * bD / Nat.gcd (aN * bN) (aD * bD))
      else if exact = .yes then none
      else approxLoop (aN * bN / Nat.gcd (aN * bN) (aD * bD))
        (aD * bD / Nat.gcd (aN * bN) (aD * bD)) (List.range' 1 32) := by
  have hlim : (2 ^ 32 - 1) ^ 2 < 2 ^ 64 := by norm_num
  unfold Product
  rw [mul_of_lt ((mul_le_max32 haN hbN).trans_lt hlim), mul_of_lt ((mul_le_max32 haD hbD).trans_lt hlim)]
  simp only [Option.bind_eq_bind, Option.bind_some]
  rw [reduce_eq hD]
  simp only [Option.bind_some]
  by_cases hfit : FitsIn32Bits (aN * bN / Nat.gcd (aN * bN) (aD * bD))
    (aD * bD / Nat.gcd (aN * bN) (aD * bD)) = true
  · -- the final `static_cast<uint32_t>` keeps terms that fit
    rw [if_pos hfit, if_neg (by simp only [hfit, Bool.not_true]; decide)]
    rw [fitsIn32Bits_iff] at hfit
    rw [Nat.mod_eq_of_lt (by omega), Nat.mod_eq_of_lt (by omega)]
    rfl
  · rw [if_neg hfit, if_pos (by rw [Bool.eq_false_iff.mpr hfit]; rfl)]

-- a product too large for 32 bits saturates to `(2 ^ 32 - 1) / 1`
example : Product 0xFFFFFFFF 1 0xFFFFFFFF 1 .no = some (0xFFFFFFFF, 1) := by decide

/-- The loop as `Product` runs it, over `i = 1, …, 32`. -/
theorem approxLoop_range_reduced {n d : Nat} (hn : n ≤ (2 ^ 32 - 1) ^ 2) (hd : d ≤ (2 ^ 32 - 1) ^ 2) :
    ∃ p, approxLoop n d (List.range' 1 32) = some p ∧ Reduced32 p :=
  approxLoop_reduced hn hd _ (fun i hi => by rw [List.mem_range'_1] at hi; omega)
    (List.mem_range'_1.mpr (by omega))

/-- Every pair `Product` of 32-bit terms returns is reduced and fits. -/
theorem product_reduced {aN aD bN bD : Nat} {exact : Exact} {p : Nat × Nat} (haN : aN < 2 ^ 32)
    (hbN : bN < 2 ^ 32) (haD : aD < 2 ^ 32) (hbD : bD < 2 ^ 32) (hD : 0 < aD * bD)
    (h : Product aN aD bN bD exact = some p) : Reduced32 p := by
  rw [product_eq exact haN hbN haD hbD hD] at h
  -- the branch of an exact caller's failed assertion returns nothing
  split_ifs at h with hfit
  · cases h
    exact reduced32_div_gcd hD hfit
  · -- the reduced terms are at most the product, so the loop's bound holds
    obtain ⟨p', hp', hred⟩ := approxLoop_range_reduced
      ((Nat.div_le_self _ _).trans (mul_le_max32 haN hbN))
      ((Nat.div_le_self _ _).trans (mul_le_max32 haD hbD))
    rw [hp'] at h
    cases h
    exact hred

theorem product_reduce_lowest_terms :
    (∀ aN aD bN bD : Nat, aN < 2 ^ 32 → bN < 2 ^ 32 → 0 < aD → aD < 2 ^ 32 → 0 < bD → bD < 2 ^ 32 →
      let q : ℚ := ((aN * bN : ℕ) : ℚ) / ((aD * bD : ℕ) : ℚ)
      (∀ exact p, Product aN aD bN bD exact = some p → 0 < p.2 ∧ Nat.Coprime p.1 p.2) ∧
      (FitsIn32Bits q.num.natAbs q.den = true →
        ∀ exact, Product aN aD bN bD exact = some (q.num.natAbs, q.den)) ∧
      (FitsIn32Bits q.num.natAbs q.den = false →
        Product aN aD bN bD .yes = none ∧ ∃ p, Product aN aD bN bD .no = some p)) ∧
    ∀ n d : Nat, 0 < d → ∃ n' d', Reduce n d = some (n', d') ∧
      (n' : ℚ) / d' = n / d ∧ 0 < d' ∧ Nat.Coprime n' d' ∧ (n = 0 → d' = 1) := by
  constructor
  · intro aN aD bN bD haN hbN haD0 haD hbD0 hbD
    have hD : 0 < aD * bD := Nat.mul_pos haD0 hbD0
    -- `Rat`'s normal form of the exact product is the pair `Reduce` computes
    obtain ⟨hnum, hden⟩ := num_den_natCast_div (n := aN * bN) hD
    dsimp only
    rw [hnum, hden, Int.natAbs_natCast]
    refine ⟨fun exact p h => ?_, fun hfit exact => ?_, fun hfit => ⟨?_, ?_⟩⟩
    · have hred := product_reduced haN hbN haD hbD hD h
      exact ⟨hred.1, hred.2.1⟩
    · rw [product_eq exact haN hbN haD hbD hD, if_pos hfit]
    · rw [product_eq .yes haN hbN haD hbD hD, if_neg (by rw [hfit]; decide), if_pos rfl]
    · rw [product_eq .no haN hbN haD hbD hD, if_neg (by rw [hfit]; decide), if_neg (by decide)]
      obtain ⟨p, hp, -⟩ := approxLoop_range_reduced
        ((Nat.div_le_self _ _).trans (mul_le_max32 haN hbN))
        ((Nat.div_le_self _ _).trans (mul_le_max32 haD hbD))
      exact ⟨p, hp⟩
  · intro n d hd
    refine ⟨_, _, reduce_eq hd,
      Nat.cast_div_div_div_cancel_right (Nat.gcd_dvd_right n d) (Nat.gcd_dvd_left n d),
      Nat.div_gcd_pos_of_pos_right n hd, Nat.coprime_div_gcd_div_gcd (Nat.gcd_pos_of_pos_right n hd), ?_⟩
    -- a zero numerator has the denominator as its gcd
    rintro rfl
    rw [Nat.gcd_zero_left, Nat.div_self hd]

theorem product_reduce_lowest_terms_max :
    (∀ exact p, Product 0xFFFFFFFF 1 0xFFFFFFFF 1 exact = some p → 0 < p.2 ∧ Nat.Coprime p.1 p.2) ∧
      ∃ n' d', Reduce 12 18 = some (n', d') ∧ (n' : ℚ) / d' = (12 : ℕ) / (18 : ℕ) ∧ 0 < d' ∧
        Nat.Coprime n' d' ∧ (12 = 0 → d' = 1) :=
  ⟨(product_reduce_lowest_terms.1 _ _ _ _ (by decide) (by decide) (by decide) (by decide) (by decide)
      (by decide)).1,
    product_reduce_lowest_terms.2 12 18 (by decide)⟩

end Reduce

end Zircon.Affine
