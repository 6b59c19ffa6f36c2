import Mathlib
import Zircon.Loop

/-!
# The number of levels of an `IdAllocator`

`IdAllocator` keeps a 64-ary tree of bits, one level per power of 64.
`GetLevels(id_count)` is `log64_int8_ceil(id_count)`: starting from
`max = 64` and `i = 1`, it multiplies `max` by 64 with a `size_t` shift until
`max` reaches `id_count`, counting the passes in `i`.

Up to `64 ^ 10 = 2 ^ 60` ids this gives the least `i ≥ 1` with
`id_count ≤ 64 ^ i`. Past that, the shift after `max = 2 ^ 60` wraps to `0`,
`max` stays `0` and the loop never exits, although every `id_count` below
`SIZE_MAX` passes the range checks of `Create` and `Grow`, and `kMaxLevels`
is 11, room for `64 ^ 11` ids.

`i` is an `int8_t` in the source. It stays below 11 on every run that exits,
and on the runs that do not, `max` alone decides the guard, so it is a `Nat`
here.
-/

namespace Zircon.IdAllocator

/-- `kLevelBits`. -/
def kLevelBits : Nat := 6

/-- The variables of the loop of `log64_int8_ceil`. -/
structure Log64State where
  max : Nat
  i : Nat
deriving DecidableEq, Repr

/-- The guard of the loop: `max < id_count`. -/
def log64Guard (idCount : Nat) (s : Log64State) : Bool := decide (s.max < idCount)

/-- One pass: `max = max << kLevelBits` in `size_t`, then `i++`. -/
def log64Body (s : Log64State) : Log64State := ⟨(s.max <<< kLevelBits) % 2 ^ 64, s.i + 1⟩

/-- `log64_int8_ceil(id_count)`, with at most `fuel` tests of the loop guard. -/
def log64_int8_ceil (fuel idCount : Nat) : Option Nat :=
  (Loop.run (log64Guard idCount) log64Body fuel ⟨1 <<< kLevelBits, 1⟩).map Log64State.i

/-- `GetLevels(id_count)`. -/
def GetLevels (fuel idCount : Nat) : Option Nat := log64_int8_ceil fuel idCount

/-! ## The passes of the loop -/

/-- After `j` passes, `max` is `64 ^ (j + 1)` in `size_t`. -/
theorem log64Body_iterate (j : Nat) : log64Body^[j] ⟨1 <<< kLevelBits, 1⟩ = ⟨64 ^ (j + 1) % 2 ^ 64, j + 1⟩ := by
  induction j with
  | zero => rfl
  | succ j ih =>
    rw [Function.iterate_succ_apply', ih]
    simp only [log64Body, kLevelBits, Nat.shiftLeft_eq, Log64State.mk.injEq, and_true]
    rw [Nat.mod_mul_mod, ← Nat.pow_succ]

theorem pow64_eq (k : Nat) : 64 ^ k = 2 ^ (6 * k) := by
  rw [Nat.pow_mul]

/-- Up to `64 ^ 10 = 2 ^ 60`, a power of 64 fits in `size_t`. -/
theorem pow64_mod_of_le {k : Nat} (hk : k ≤ 10) : 64 ^ k % 2 ^ 64 = 64 ^ k := by
  apply Nat.mod_eq_of_lt
  rw [pow64_eq]
  exact Nat.pow_lt_pow_right (by norm_num) (by omega)

/-- From `64 ^ 11` on, a power of 64 is `0` in `size_t`. -/
theorem pow64_mod_of_ge {k : Nat} (hk : 11 ≤ k) : 64 ^ k % 2 ^ 64 = 0 := by
  apply Nat.mod_eq_zero_of_dvd
  rw [pow64_eq]
  exact Nat.pow_dvd_pow 2 (by omega)

/-! ## When the loop exits -/

/-- Past `2 ^ 60` ids the guard holds after every pass: `log64_int8_ceil`
never returns. -/
theorem log64_int8_ceil_eq_none {idCount : Nat} (h : 2 ^ 60 < idCount) (fuel : Nat) :
    log64_int8_ceil fuel idCount = none := by
  -- the states the loop reaches are the iterates of its body
  have hguard : ∀ s, (∃ j, s = log64Body^[j] ⟨1 <<< kLevelBits, 1⟩) → log64Guard idCount s = true := by
    rintro s ⟨j, rfl⟩
    rw [log64Body_iterate, log64Guard, decide_eq_true_eq]
    rcases Nat.lt_or_ge (j + 1) 11 with hj | hj
    · rw [pow64_mod_of_le (by omega)]
      calc 64 ^ (j + 1) ≤ 64 ^ 10 := Nat.pow_le_pow_right (by norm_num) (by omega)
        _ < idCount := by norm_num at h ⊢; omega
    · rw [pow64_mod_of_ge hj]
      dsimp only
      omega
  have hbody : ∀ s, (∃ j, s = log64Body^[j] ⟨1 <<< kLevelBits, 1⟩) →
      ∃ j, log64Body s = log64Body^[j] ⟨1 <<< kLevelBits, 1⟩ := by
    rintro s ⟨j, rfl⟩
    exact ⟨j + 1, (Function.iterate_succ_apply' _ _ _).symm⟩
  have hrun := Loop.run_eq_none_of_invariant _ hguard hbody fuel ⟨1 <<< kLevelBits, 1⟩ ⟨0, rfl⟩
  rw [log64_int8_ceil, hrun, Option.map_none]

/-- Up to `2 ^ 60` ids, `log64_int8_ceil` returns the least `i ≥ 1` with
`id_count ≤ 64 ^ i`, after at most ten passes. -/
theorem log64_int8_ceil_spec {idCount : Nat} (h : idCount ≤ 2 ^ 60) (fuel : Nat) (hfuel : 10 < fuel) :
    ∃ i, log64_int8_ceil fuel idCount = some i ∧ 1 ≤ i ∧ idCount ≤ 64 ^ i ∧
      ∀ i', 1 ≤ i' → idCount ≤ 64 ^ i' → i ≤ i' := by
  have hex : ∃ j, idCount ≤ 64 ^ (j + 1) := ⟨9, by norm_num at h ⊢; omega⟩
  -- the loop stops after the least number of passes `j` with `id_count ≤ 64 ^ (j + 1)`
  have hj : Nat.find hex ≤ 9 := Nat.find_min' hex (by norm_num at h ⊢; omega)
  have hpass : ∀ j < Nat.find hex, log64Guard idCount (log64Body^[j] ⟨1 <<< kLevelBits, 1⟩) = true := by
    intro j hlt
    rw [log64Body_iterate, log64Guard, pow64_mod_of_le (by omega), decide_eq_true_eq]
    exact Nat.lt_of_not_le (Nat.find_min hex hlt)
  have hstop : log64Guard idCount (log64Body^[Nat.find hex] ⟨1 <<< kLevelBits, 1⟩) = false := by
    rw [log64Body_iterate, log64Guard, pow64_mod_of_le (by omega), decide_eq_false_iff_not, not_lt]
    exact Nat.find_spec hex
  refine ⟨Nat.find hex + 1, ?_, by omega, Nat.find_spec hex, fun i' hi' hle => ?_⟩
  · rw [log64_int8_ceil, Loop.run_of_iterate hpass hstop (by omega), log64Body_iterate]
    rfl
  · obtain ⟨k, rfl⟩ : ∃ k, i' = k + 1 := ⟨i' - 1, by omega⟩
    have := Nat.find_min' hex hle
    omega

/-- `GetLevels` returns on exactly the counts up to `2 ^ 60`. -/
theorem getLevels_returns_iff (idCount : Nat) :
    (∃ fuel i, GetLevels fuel idCount = some i) ↔ idCount ≤ 2 ^ 60 := by
  constructor
  · rintro ⟨fuel, i, hi⟩
    by_contra hgt
    rw [GetLevels, log64_int8_ceil_eq_none (by omega)] at hi
    cases hi
  · intro h
    obtain ⟨i, hi, -⟩ := log64_int8_ceil_spec h 11 (by norm_num)
    exact ⟨11, i, hi⟩

/-- `Create(2 ^ 60 + 1)` passes the check `id_count < kMaxId` and never gets
past `GetLevels`. -/
theorem getLevels_loops_past_2_pow_60 : 2 ^ 60 + 1 < 2 ^ 64 - 1 ∧ ∀ fuel, GetLevels fuel (2 ^ 60 + 1) = none :=
  ⟨by norm_num, fun fuel => log64_int8_ceil_eq_none (by norm_num) fuel⟩

end Zircon.IdAllocator
