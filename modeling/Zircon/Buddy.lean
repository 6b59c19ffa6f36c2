import Mathlib

/-!
# Buddy tilings

A buddy allocator cuts `[0, n)` into blocks of `2 ^ k` units, each starting at
a multiple of its own size, with `k` below a number of orders `m`. Such a
tiling is described at the first unit of each block, by its order and a
label; every other unit maps to `none`.

A block of order `k + 1` splits into two halves of order `k`, and two
neighbouring halves of an aligned block of order `k + 1` merge back. The
buddy of a block of order `k` at `s` is `s ^^^ 2 ^ k`: the other half of the
block of order `k + 1` that contains it.
-/

namespace Zircon.Buddy

open Function

variable {β : Type*}

/-- A point where an updated map reads other than the value written is not
the updated point. -/
theorem ne_of_update_apply {α γ : Type*} [DecidableEq α] {f : α → γ} {a x : α} {v w : γ}
    (hx : update f a v x = w) (hne : v ≠ w) : x ≠ a := by
  rintro rfl
  rw [update_self] at hx
  exact hne hx

/-- The blocks `blk` cover `[0, n)`, are aligned to their size, are of order
below `m` and do not overlap. -/
structure Tiles (blk : Nat → Option (Nat × β)) (m n : Nat) : Prop where
  aligned : ∀ s k b, blk s = some (k, b) → 2 ^ k ∣ s ∧ k < m ∧ s + 2 ^ k ≤ n
  cover : ∀ x, x < n → ∃ s k b, blk s = some (k, b) ∧ s ≤ x ∧ x < s + 2 ^ k
  disjoint : ∀ s k b s' k' b', blk s = some (k, b) → blk s' = some (k', b') → s < s' → s + 2 ^ k ≤ s'

variable {blk : Nat → Option (Nat × β)} {m n : Nat}

theorem Tiles.lt (h : Tiles blk m n) {s k : Nat} {b : β} (hs : blk s = some (k, b)) : s < n := by
  have := (h.aligned s k b hs).2.2
  have := Nat.one_le_two_pow (n := k)
  omega

/-- No block starts strictly inside another. -/
theorem Tiles.eq_none_of_inside (h : Tiles blk m n) {s k x : Nat} {b : β} (hs : blk s = some (k, b))
    (hlo : s < x) (hhi : x < s + 2 ^ k) : blk x = none := by
  cases hx : blk x with
  | none => rfl
  | some p =>
    have := h.disjoint s k b x p.1 p.2 hs hx hlo
    omega

/-- A block keeps the tiling under a new label. -/
theorem Tiles.relabel (h : Tiles blk m n) {s k : Nat} {b : β} (hs : blk s = some (k, b)) (b' : β) :
    Tiles (update blk s (some (k, b'))) m n := by
  -- the new map has the same blocks with the same orders
  have horder : ∀ x k' c, update blk s (some (k, b')) x = some (k', c) → ∃ c', blk x = some (k', c') := by
    intro x k' c hx
    by_cases hxs : x = s
    · subst hxs
      rw [update_self, Option.some.injEq, Prod.mk.injEq] at hx
      exact ⟨b, by rw [hs, ← hx.1]⟩
    · rw [update_of_ne hxs] at hx
      exact ⟨c, hx⟩
  refine ⟨fun x k' c hx => ?_, fun x hx => ?_, fun x k₁ c₁ y k₂ c₂ hx hy hxy => ?_⟩
  · obtain ⟨c', hc'⟩ := horder x k' c hx
    exact h.aligned x k' c' hc'
  · obtain ⟨x₀, k₀, c₀, h₀, hle, hlt⟩ := h.cover x hx
    by_cases hxs : x₀ = s
    · subst hxs
      rw [hs, Option.some.injEq, Prod.mk.injEq] at h₀
      exact ⟨x₀, k, b', update_self .., hle, h₀.1 ▸ hlt⟩
    · exact ⟨x₀, k₀, c₀, by rw [update_of_ne hxs, h₀], hle, hlt⟩
  · obtain ⟨_, hx'⟩ := horder x k₁ c₁ hx
    obtain ⟨_, hy'⟩ := horder y k₂ c₂ hy
    exact h.disjoint x k₁ _ y k₂ _ hx' hy' hxy

/-- A block of order `k + 1` splits into its two halves of order `k`. -/
theorem Tiles.split (h : Tiles blk m n) {s k : Nat} {b : β} (hs : blk s = some (k + 1, b)) (b₁ b₂ : β) :
    Tiles (update (update blk s (some (k, b₁))) (s + 2 ^ k) (some (k, b₂))) m n := by
  obtain ⟨hdvd, hkm, hend⟩ := h.aligned s (k + 1) b hs
  have hpow : 2 ^ (k + 1) = 2 ^ k + 2 ^ k := by rw [Nat.pow_succ]; omega
  have hpos := Nat.one_le_two_pow (n := k)
  have hne : s + 2 ^ k ≠ s := by omega
  -- every other block lies before `s` or from `s + 2 ^ (k + 1)` on
  have hout : ∀ x k' c, blk x = some (k', c) → x ≠ s →
      (x < s ∧ x + 2 ^ k' ≤ s) ∨ (s < x ∧ s + 2 ^ (k + 1) ≤ x) := by
    intro x k' c hx hxs
    rcases Nat.lt_or_gt_of_ne hxs with hlt | hgt
    · exact .inl ⟨hlt, h.disjoint x k' c s (k + 1) b hx hs hlt⟩
    · exact .inr ⟨hgt, h.disjoint s (k + 1) b x k' c hs hx hgt⟩
  -- the blocks of the new map: the two halves, and the old blocks other than `s`
  have hnew : ∀ x k' c, update (update blk s (some (k, b₁))) (s + 2 ^ k) (some (k, b₂)) x = some (k', c) →
      (x = s ∧ k' = k) ∨ (x = s + 2 ^ k ∧ k' = k) ∨ (x ≠ s ∧ x ≠ s + 2 ^ k ∧ blk x = some (k', c)) := by
    intro x k' c hx
    by_cases h₂ : x = s + 2 ^ k
    · subst h₂
      rw [update_self, Option.some.injEq, Prod.mk.injEq] at hx
      exact .inr (.inl ⟨rfl, hx.1.symm⟩)
    · rw [update_of_ne h₂] at hx
      by_cases h₁ : x = s
      · subst h₁
        rw [update_self, Option.some.injEq, Prod.mk.injEq] at hx
        exact .inl ⟨rfl, hx.1.symm⟩
      · rw [update_of_ne h₁] at hx
        exact .inr (.inr ⟨h₁, h₂, hx⟩)
  refine ⟨fun x k' c hx => ?_, fun x hx => ?_, fun x k₁ c₁ y k₂ c₂ hx hy hxy => ?_⟩
  · rcases hnew x k' c hx with ⟨hx₁, hk₁⟩ | ⟨hx₁, hk₁⟩ | ⟨-, -, hx⟩
    · subst x k'
      exact ⟨Nat.dvd_trans (Nat.pow_dvd_pow 2 (Nat.le_succ k)) hdvd, by omega, by omega⟩
    · subst x k'
      exact ⟨Nat.dvd_add (Nat.dvd_trans (Nat.pow_dvd_pow 2 (Nat.le_succ k)) hdvd) (Nat.dvd_refl _),
        by omega, by omega⟩
    · exact h.aligned x k' c hx
  · obtain ⟨x₀, k₀, c₀, h₀, hle, hlt⟩ := h.cover x hx
    by_cases hxs : x₀ = s
    · subst hxs
      rw [hs, Option.some.injEq, Prod.mk.injEq] at h₀
      obtain ⟨rfl, -⟩ := h₀
      by_cases hhalf : x < x₀ + 2 ^ k
      · exact ⟨x₀, k, b₁, by rw [update_of_ne (Ne.symm hne), update_self], hle, hhalf⟩
      · exact ⟨x₀ + 2 ^ k, k, b₂, update_self .., by omega, by omega⟩
    · have hx₀ : x₀ ≠ s + 2 ^ k := by
        rintro rfl
        rw [h.eq_none_of_inside hs (by omega) (by omega)] at h₀
        cases h₀
      exact ⟨x₀, k₀, c₀, by rw [update_of_ne hx₀, update_of_ne hxs, h₀], hle, hlt⟩
  · -- a pair of halves is disjoint by arithmetic, a half and an old block by `hout`
    rcases hnew x k₁ c₁ hx with ⟨hx₁, hk₁⟩ | ⟨hx₁, hk₁⟩ | ⟨hxs, -, hx'⟩ <;>
      rcases hnew y k₂ c₂ hy with ⟨hy₁, hk₂⟩ | ⟨hy₁, hk₂⟩ | ⟨hys, -, hy'⟩ <;>
      subst_vars
    all_goals first
      | omega
      | (rcases hout _ _ _ hy' hys with h' | h' <;> omega)
      | (rcases hout _ _ _ hx' hxs with h' | h' <;> omega)
      | exact h.disjoint _ _ _ _ _ _ hx' hy' hxy

/-- The two halves of an aligned block of order `k + 1` merge. -/
theorem Tiles.merge (h : Tiles blk m n) {s k : Nat} {b₁ b₂ : β} (hs : blk s = some (k, b₁))
    (hs' : blk (s + 2 ^ k) = some (k, b₂)) (hdvd : 2 ^ (k + 1) ∣ s) (hk : k + 1 < m) (b : β) :
    Tiles (update (update blk (s + 2 ^ k) none) s (some (k + 1, b))) m n := by
  have hpow : 2 ^ (k + 1) = 2 ^ k + 2 ^ k := by rw [Nat.pow_succ]; omega
  have hpos := Nat.one_le_two_pow (n := k)
  have hne : s ≠ s + 2 ^ k := by omega
  have hend := (h.aligned _ k b₂ hs').2.2
  have hout : ∀ x k' c, blk x = some (k', c) → x ≠ s → x ≠ s + 2 ^ k →
      (x < s ∧ x + 2 ^ k' ≤ s) ∨ (s < x ∧ s + 2 ^ (k + 1) ≤ x) := by
    intro x k' c hx hxs hxs'
    rcases Nat.lt_or_gt_of_ne hxs with hlt | hgt
    · exact .inl ⟨hlt, h.disjoint x k' c s k b₁ hx hs hlt⟩
    · rcases Nat.lt_or_gt_of_ne hxs' with hlt' | hgt'
      · have := h.disjoint s k b₁ x k' c hs hx hgt
        omega
      · have := h.disjoint _ k b₂ x k' c hs' hx hgt'
        exact .inr ⟨hgt, by omega⟩
  have hnew : ∀ x k' c, update (update blk (s + 2 ^ k) none) s (some (k + 1, b)) x = some (k', c) →
      (x = s ∧ k' = k + 1) ∨ (x ≠ s ∧ x ≠ s + 2 ^ k ∧ blk x = some (k', c)) := by
    intro x k' c hx
    by_cases h₁ : x = s
    · subst h₁
      rw [update_self, Option.some.injEq, Prod.mk.injEq] at hx
      exact .inl ⟨rfl, hx.1.symm⟩
    · rw [update_of_ne h₁] at hx
      by_cases h₂ : x = s + 2 ^ k
      · subst h₂
        rw [update_self] at hx
        cases hx
      · rw [update_of_ne h₂] at hx
        exact .inr ⟨h₁, h₂, hx⟩
  refine ⟨fun x k' c hx => ?_, fun x hx => ?_, fun x k₁ c₁ y k₂ c₂ hx hy hxy => ?_⟩
  · rcases hnew x k' c hx with ⟨hx₁, hk₁⟩ | ⟨-, -, hx⟩
    · subst x k'
      exact ⟨hdvd, hk, by omega⟩
    · exact h.aligned x k' c hx
  · obtain ⟨x₀, k₀, c₀, h₀, hle, hlt⟩ := h.cover x hx
    by_cases hxs : x₀ = s
    · subst hxs
      rw [hs, Option.some.injEq, Prod.mk.injEq] at h₀
      obtain ⟨rfl, -⟩ := h₀
      exact ⟨x₀, k + 1, b, update_self .., hle, by omega⟩
    · by_cases hxs' : x₀ = s + 2 ^ k
      · subst hxs'
        rw [hs', Option.some.injEq, Prod.mk.injEq] at h₀
        obtain ⟨rfl, -⟩ := h₀
        exact ⟨s, k + 1, b, update_self .., by omega, by omega⟩
      · exact ⟨x₀, k₀, c₀, by rw [update_of_ne hxs, update_of_ne hxs', h₀], hle, hlt⟩
  · rcases hnew x k₁ c₁ hx with ⟨hx₁, hk₁⟩ | ⟨hxs, hxs', hx'⟩ <;>
      rcases hnew y k₂ c₂ hy with ⟨hy₁, hk₂⟩ | ⟨hys, hys', hy'⟩ <;>
      subst_vars
    all_goals first
      | omega
      | (rcases hout _ _ _ hy' hys hys' with h' | h' <;> omega)
      | (rcases hout _ _ _ hx' hxs hxs' with h' | h' <;> omega)
      | exact h.disjoint _ _ _ _ _ _ hx' hy' hxy

/-- The first unit is the start of a block. -/
theorem Tiles.zero (h : Tiles blk m n) (hn : 0 < n) : ∃ k b, blk 0 = some (k, b) := by
  obtain ⟨s, k, b, hs, hle, -⟩ := h.cover 0 hn
  obtain rfl : s = 0 := Nat.le_zero.mp hle
  exact ⟨k, b, hs⟩

/-- The next block starts where a block ends, unless that is the end. -/
theorem Tiles.next (h : Tiles blk m n) {s k : Nat} {b : β} (hs : blk s = some (k, b)) (hlt : s + 2 ^ k < n) :
    ∃ k' b', blk (s + 2 ^ k) = some (k', b') := by
  obtain ⟨t, k', b', ht, hle, hlt'⟩ := h.cover (s + 2 ^ k) hlt
  rcases Nat.lt_or_ge t (s + 2 ^ k) with hts | hts
  · -- a block that starts before the end and reaches past it would overlap `s`'s
    exfalso
    rcases Nat.lt_trichotomy t s with hts' | rfl | hst
    · have := h.disjoint t k' b' s k b ht hs hts'
      have := Nat.two_pow_pos k
      omega
    · rw [hs, Option.some.injEq, Prod.mk.injEq] at ht
      rw [ht.1] at hlt'
      omega
    · rw [h.eq_none_of_inside hs hst hts] at ht
      cases ht
  · obtain rfl : t = s + 2 ^ k := by omega
    exact ⟨k', b', ht⟩

/-- Two multiples of `d` less than `d` apart are equal. -/
theorem eq_of_dvd_of_lt_add {d a c : Nat} (ha : d ∣ a) (hc : d ∣ c) (hle : a ≤ c) (hlt : c < a + d) : a = c := by
  obtain ⟨p, rfl⟩ := ha
  obtain ⟨q, rfl⟩ := hc
  have hq : q < p + 1 := Nat.lt_of_mul_lt_mul_left (by rw [Nat.mul_succ]; exact hlt)
  have hp : p ≤ q := by
    rcases Nat.eq_zero_or_pos d with rfl | hd
    · omega
    · exact Nat.le_of_mul_le_mul_left hle hd
  rw [show p = q by omega]

/-- A multiple of `d` below another is at least `d` below it. -/
theorem add_le_of_dvd_of_lt {d a c : Nat} (ha : d ∣ a) (hc : d ∣ c) (hlt : a < c) : a + d ≤ c := by
  obtain ⟨p, rfl⟩ := ha
  obtain ⟨q, rfl⟩ := hc
  have hpq : p < q := Nat.lt_of_mul_lt_mul_left hlt
  calc d * p + d = d * (p + 1) := (Nat.mul_succ d p).symm
    _ ≤ d * q := Nat.mul_le_mul_left d hpq

/-- `j` blocks of order `k` appended at `n`. -/
theorem Tiles.append (h : Tiles blk m n) {k : Nat} (hk : k < m) (hdvd : 2 ^ k ∣ n) (j : Nat) (b : β) :
    Tiles (fun x => if n ≤ x ∧ x < n + j * 2 ^ k ∧ 2 ^ k ∣ x then some (k, b) else blk x) m (n + j * 2 ^ k) := by
  have hend : 2 ^ k ∣ n + j * 2 ^ k := Nat.dvd_add hdvd (Nat.dvd_mul_left _ j)
  -- the new blocks start from `n` on, the old ones below it
  have hnew : ∀ x k' c, (if n ≤ x ∧ x < n + j * 2 ^ k ∧ 2 ^ k ∣ x then some (k, b) else blk x) = some (k', c) →
      (n ≤ x ∧ x < n + j * 2 ^ k ∧ 2 ^ k ∣ x ∧ k' = k) ∨ (x < n ∧ blk x = some (k', c)) := by
    intro x k' c hx
    split_ifs at hx with hcond
    · rw [Option.some.injEq, Prod.mk.injEq] at hx
      exact .inl ⟨hcond.1, hcond.2.1, hcond.2.2, hx.1.symm⟩
    · exact .inr ⟨h.lt hx, hx⟩
  refine ⟨fun x k' c hx => ?_, fun x hx => ?_, fun x k₁ c₁ y k₂ c₂ hx hy hxy => ?_⟩
  · rcases hnew x k' c hx with ⟨-, hlt, hx, rfl⟩ | ⟨-, hx⟩
    · exact ⟨hx, hk, add_le_of_dvd_of_lt hx hend hlt⟩
    · obtain ⟨h₁, h₂, h₃⟩ := h.aligned x k' c hx
      exact ⟨h₁, h₂, by omega⟩
  · by_cases hxn : x < n
    · obtain ⟨s, k', c, hs, hle, hlt⟩ := h.cover x hxn
      exact ⟨s, k', c, by rw [if_neg (by omega), hs], hle, hlt⟩
    · -- the new block holding `x` starts at `n` plus a multiple of `2 ^ k`
      have hpos := Nat.one_le_two_pow (n := k)
      have hdiv := Nat.div_add_mod (x - n) (2 ^ k)
      have hmod := Nat.mod_lt (x - n) (Nat.two_pow_pos k)
      refine ⟨n + 2 ^ k * ((x - n) / 2 ^ k), k, b, ?_, by omega, by omega⟩
      rw [if_pos ⟨by omega, by omega, Nat.dvd_add hdvd (Nat.dvd_mul_right _ _)⟩]
  · rcases hnew x k₁ c₁ hx with ⟨hxn, -, hxd, rfl⟩ | ⟨hxn, hbx⟩ <;>
      rcases hnew y k₂ c₂ hy with ⟨hyn, -, hyd, rfl⟩ | ⟨hyn, hby⟩
    · exact add_le_of_dvd_of_lt hxd hyd hxy
    · omega
    · have := (h.aligned x k₁ c₁ hbx).2.2
      omega
    · exact h.disjoint x k₁ c₁ y k₂ c₂ hbx hby hxy

/-- The starts of `j` blocks of size `d` from an aligned `n`. -/
theorem mem_range'_iff {n j d x : Nat} (hd : 0 < d) (hn : d ∣ n) :
    x ∈ List.range' n j d ↔ n ≤ x ∧ x < n + j * d ∧ d ∣ x := by
  rw [List.mem_range']
  constructor
  · rintro ⟨i, hi, rfl⟩
    refine ⟨Nat.le_add_right n _, ?_, Nat.dvd_add hn (Nat.dvd_mul_right d i)⟩
    have := Nat.mul_lt_mul_of_pos_left hi hd
    rw [Nat.mul_comm j d]
    omega
  · rintro ⟨hle, hlt, hx⟩
    obtain ⟨i, hi⟩ := Nat.dvd_sub hx hn
    refine ⟨i, ?_, by omega⟩
    have : d * i < d * j := by rw [← hi, Nat.mul_comm d j]; omega
    exact Nat.lt_of_mul_lt_mul_left this

/-! ## Buddies -/

/-- The buddy of an aligned block is the next block of its size when it is
the lower half of the block of twice its size, and the previous one
otherwise. -/
theorem xor_two_pow {s k : Nat} (hs : 2 ^ k ∣ s) :
    s ^^^ 2 ^ k = if 2 ^ (k + 1) ∣ s then s + 2 ^ k else s - 2 ^ k := by
  obtain ⟨a, rfl⟩ := hs
  have hshift : 2 ^ k * a ^^^ 2 ^ k = (a ^^^ 1) * 2 ^ k := by
    rw [← Nat.shiftLeft_eq, Nat.shiftLeft_xor_distrib, Nat.shiftLeft_eq, Nat.shiftLeft_eq, Nat.one_mul,
      Nat.mul_comm]
  have hdvd : 2 ^ (k + 1) ∣ 2 ^ k * a ↔ Even a := by
    rw [Nat.pow_succ, Nat.mul_dvd_mul_iff_left (Nat.two_pow_pos k), even_iff_two_dvd]
  rw [hshift]
  split_ifs with h
  · rw [Nat.xor_one_of_even (hdvd.mp h), Nat.add_mul, Nat.one_mul, Nat.mul_comm]
  · rw [Nat.xor_one_of_odd (Nat.not_even_iff_odd.mp (mt hdvd.mpr h)), Nat.sub_mul, Nat.one_mul, Nat.mul_comm]

/-- The buddy is the other half of the aligned block of twice the size. -/
theorem xor_two_pow_of_dvd {s k : Nat} (hs : 2 ^ (k + 1) ∣ s) : s ^^^ 2 ^ k = s + 2 ^ k := by
  rw [xor_two_pow (Nat.dvd_trans (Nat.pow_dvd_pow 2 (Nat.le_succ k)) hs), if_pos hs]

theorem xor_two_pow_of_not_dvd {s k : Nat} (hs : 2 ^ k ∣ s) (hs' : ¬2 ^ (k + 1) ∣ s) :
    s ^^^ 2 ^ k = s - 2 ^ k ∧ 2 ^ k ≤ s ∧ 2 ^ (k + 1) ∣ s - 2 ^ k := by
  obtain ⟨a, rfl⟩ := hs
  have hpow : 2 ^ (k + 1) = 2 ^ k * 2 := Nat.pow_succ 2 k
  have hodd : ¬2 ∣ a := fun ha => hs' (by rw [hpow]; exact Nat.mul_dvd_mul_left _ ha)
  have ha : 1 ≤ a := by
    rcases Nat.eq_zero_or_pos a with rfl | ha
    · exact absurd (Nat.dvd_zero 2) hodd
    · exact ha
  refine ⟨by rw [xor_two_pow (Dvd.intro a rfl), if_neg hs'], Nat.le_mul_of_pos_right _ ha, ?_⟩
  have heven : 2 ∣ a - 1 := by omega
  rw [show 2 ^ k * a - 2 ^ k = 2 ^ k * (a - 1) by rw [Nat.mul_sub_one], hpow]
  exact Nat.mul_dvd_mul_left _ heven

/-- Of a block and its buddy, the lower starts the aligned block of twice
their size and the higher is `2 ^ k` above it. -/
theorem xor_two_pow_halves {s k : Nat} (hs : 2 ^ k ∣ s) :
    2 ^ (k + 1) ∣ (if s ^^^ 2 ^ k < s then s ^^^ 2 ^ k else s) ∧
      ((s = (if s ^^^ 2 ^ k < s then s ^^^ 2 ^ k else s) ∧
          s ^^^ 2 ^ k = (if s ^^^ 2 ^ k < s then s ^^^ 2 ^ k else s) + 2 ^ k) ∨
        (s ^^^ 2 ^ k = (if s ^^^ 2 ^ k < s then s ^^^ 2 ^ k else s) ∧
          s = (if s ^^^ 2 ^ k < s then s ^^^ 2 ^ k else s) + 2 ^ k)) := by
  by_cases hdvd : 2 ^ (k + 1) ∣ s
  · -- `s` is the lower half
    rw [xor_two_pow_of_dvd hdvd, if_neg (by omega)]
    exact ⟨hdvd, .inl ⟨rfl, rfl⟩⟩
  · obtain ⟨hxor, hle, hdvd'⟩ := xor_two_pow_of_not_dvd hs hdvd
    have hpos := Nat.two_pow_pos k
    rw [hxor, if_pos (by omega)]
    exact ⟨hdvd', .inr ⟨rfl, by omega⟩⟩

/-- The buddy of a block of order `k < m - 1` starts a block of at most its
order, when `n` is a multiple of the largest blocks. -/
theorem Tiles.buddy (h : Tiles blk m n) (hn : 2 ^ (m - 1) ∣ n) {s k : Nat} {b : β} (hs : blk s = some (k, b))
    (hk : k + 1 < m) : ∃ k' b', blk (s ^^^ 2 ^ k) = some (k', b') ∧ k' ≤ k := by
  obtain ⟨hdvd, -, hend⟩ := h.aligned s k b hs
  have hpair : 2 ^ (k + 1) ∣ n := Nat.dvd_trans (Nat.pow_dvd_pow 2 (by omega)) hn
  have hpow : 2 ^ (k + 1) = 2 ^ k + 2 ^ k := by rw [Nat.pow_succ]; omega
  -- `p` is the start of the aligned pair that holds `s` and its buddy `t`
  obtain ⟨p, hp, hsp, htp, ht⟩ : ∃ p, 2 ^ (k + 1) ∣ p ∧ p ≤ s ∧ s < p + 2 ^ (k + 1) ∧
      p ≤ s ^^^ 2 ^ k ∧ s ^^^ 2 ^ k < p + 2 ^ (k + 1) ∧ 2 ^ k ∣ s ^^^ 2 ^ k := by
    by_cases heven : 2 ^ (k + 1) ∣ s
    · rw [xor_two_pow_of_dvd heven]
      exact ⟨s, heven, le_refl s, by omega, by omega, by omega, Nat.dvd_add hdvd (Nat.dvd_refl _)⟩
    · obtain ⟨hxor, hle, hdvd'⟩ := xor_two_pow_of_not_dvd hdvd heven
      rw [hxor]
      exact ⟨s - 2 ^ k, hdvd', by omega, by omega, by omega, by omega, Nat.dvd_sub hdvd (Nat.dvd_refl _)⟩
  obtain ⟨htp, htp', htdvd⟩ := ht
  have hpn : p + 2 ^ (k + 1) ≤ n := add_le_of_dvd_of_lt hp hpair (by omega)
  obtain ⟨x, k', b', hx, hxle, hxlt⟩ := h.cover (s ^^^ 2 ^ k) (by omega)
  obtain ⟨hxdvd, -, -⟩ := h.aligned x k' b' hx
  rcases Nat.lt_or_ge k k' with hk' | hk'
  swap
  · -- a block of at most the buddy's order that holds it starts at it
    have hxt := eq_of_dvd_of_lt_add hxdvd (Nat.dvd_trans (Nat.pow_dvd_pow 2 hk') htdvd) hxle hxlt
    exact ⟨k', b', hxt ▸ hx, hk'⟩
  · -- a larger block that holds the buddy holds the whole pair, and `s` too
    have hxpair : 2 ^ (k + 1) ∣ x := Nat.dvd_trans (Nat.pow_dvd_pow 2 hk') hxdvd
    have hxend : 2 ^ (k + 1) ∣ x + 2 ^ k' := Nat.dvd_add hxpair (Nat.pow_dvd_pow 2 hk')
    have hxp : x ≤ p := by
      by_contra hlt
      have := add_le_of_dvd_of_lt hp hxpair (by omega)
      omega
    have hpx : p + 2 ^ (k + 1) ≤ x + 2 ^ k' := add_le_of_dvd_of_lt hp hxend (by omega)
    rcases Nat.lt_or_ge x s with hxs | hxs
    · rw [h.eq_none_of_inside hx hxs (by omega)] at hs
      cases hs
    · obtain rfl : x = s := by omega
      rw [hs, Option.some.injEq, Prod.mk.injEq] at hx
      omega

end Zircon.Buddy
