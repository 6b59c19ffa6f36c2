import Zircon.Memalloc.Algorithm

/-!
# Which type dominates an address

The contract of `FindNormalizedRanges` (algorithm.h) in terms of the input
ranges alone. At an address `x`, look at the ranges that cover it:

* they **clash** when two carry different extended types, or one carries an
  extended type and another `kReserved` (which unknown types count as) or
  `kPeripheral`;
* otherwise the **dominant** type is the one of highest precedence: an
  extended type over everything, then `kReserved`, then `kPeripheral`, then
  `kFreeRam`.

`ActiveRanges::DominantType` computes exactly this from the per-type counts of
the ranges covering `x` (`dominantType_countAt_error_iff`,
`labelAt_eq_some_iff`). Nothing here depends on the sweep; the sweep's part is
to present those counts at every endpoint.
-/

namespace Zircon.Memalloc

/-- The type a range counts as in `ActiveRanges`: unknown values as `kReserved`. -/
def normalize : RangeType → RangeType
  | .unknown _ => .kReserved
  | t => t

/-- Precedence among types, highest wins; unknown types rank as `kReserved`. -/
def precedence : RangeType → Nat
  | .kFreeRam => 0
  | .kPeripheral => 1
  | .kReserved => 2
  | .unknown _ => 2
  | .extended _ => 3

/-- Two types the contract forbids to overlap. -/
def Clash : RangeType → RangeType → Prop
  | .extended i, .extended j => i ≠ j
  | .extended _, t => normalize t = .kReserved ∨ t = .kPeripheral
  | t, .extended _ => normalize t = .kReserved ∨ t = .kPeripheral
  | _, _ => False

/-- Some address `x` is covered by two ranges whose types clash. -/
def Conflict (ranges : List Range) (x : Nat) : Prop :=
  ∃ r ∈ ranges, ∃ r' ∈ ranges, Covers r x ∧ Covers r' x ∧ Clash r.type r'.type

/-- `T` is the dominant type at `x`: the normalized type of a covering range,
of precedence at least that of every covering range. -/
def IsDominant (ranges : List Range) (x : Nat) (T : RangeType) : Prop :=
  (∃ r ∈ ranges, Covers r x ∧ normalize r.type = T) ∧
    ∀ r ∈ ranges, Covers r x → precedence r.type ≤ precedence T

/-- The counters `FindNormalizedRanges` should hold at `x`: per slot, the ranges covering `x`. -/
def countAt (ranges : List Range) (x : Nat) : ActiveRanges :=
  ⟨fun k => ranges.countP fun r => decide (ActiveRanges.index r.type = k ∧ Covers r x)⟩

/-- The dominant type at `x` as `DominantType` reports it, `none` on failure. -/
def labelAt (ranges : List Range) (x : Nat) : Option RangeType :=
  match (countAt ranges x).DominantType with
  | .ok t => t
  | .error _ => none

namespace ActiveRanges

/-- The counter of type `t` is positive. -/
abbrev Active (c : ActiveRanges) (t : RangeType) : Prop := 0 < c.get t

/-! ## The extended-type loop -/

section ExtendedLoop

variable (c : ActiveRanges) (activeBase : Option RangeType)

theorem extendedLoop_of_inactive :
    ∀ (is : List (Fin kNumExtendedTypes)) (acc : Option RangeType),
      (∀ i ∈ is, ¬ c.Active (.extended i)) → c.extendedLoop activeBase is acc = .ok acc
  | [], _, _ => rfl
  | i :: is, acc, h => by
    rw [extendedLoop, if_neg (h i List.mem_cons_self)]
    exact extendedLoop_of_inactive is acc fun j hj => h j (List.mem_cons_of_mem i hj)

/-- Once an extended type was found, any further active one is a failure. -/
theorem extendedLoop_some :
    ∀ (is : List (Fin kNumExtendedTypes)) (t : RangeType),
      c.extendedLoop activeBase is (some t) =
        if ∃ i ∈ is, c.Active (.extended i) then .error () else .ok (some t)
  | [], _ => by simp [extendedLoop]
  | i :: is, t => by
    rw [extendedLoop]
    by_cases hi : c.Active (.extended i)
    · have : ∃ j ∈ i :: is, c.Active (.extended j) := ⟨i, List.mem_cons_self, hi⟩
      rw [if_pos hi, if_pos (by simp), if_pos this]
    · rw [if_neg hi, extendedLoop_some is t]
      simp [hi]

/-- A base type that forbids any active extended type. -/
def BadBase (b : Option RangeType) : Prop := b.isSome = true ∧ b ≠ some .kFreeRam

theorem badBase_iff (b : Option RangeType) :
    (b.isSome && b != some RangeType.kFreeRam) = true ↔ BadBase b := by
  simp [BadBase]

/-- Starting with nothing found, the loop fails exactly on a forbidden base or
on two different active extended types. -/
theorem extendedLoop_none_eq_error_iff :
    ∀ (is : List (Fin kNumExtendedTypes)), is.Nodup →
      (c.extendedLoop activeBase is none = .error () ↔
        ((∃ i ∈ is, c.Active (.extended i)) ∧ BadBase activeBase) ∨
          ∃ i ∈ is, ∃ j ∈ is, i ≠ j ∧ c.Active (.extended i) ∧ c.Active (.extended j))
  | [], _ => by simp [extendedLoop]
  | i :: is, hnd => by
    have hi_notin : i ∉ is := (List.nodup_cons.mp hnd).1
    rw [extendedLoop]
    by_cases hi : c.Active (.extended i)
    · rw [if_pos hi]
      by_cases hb : BadBase activeBase
      · rw [if_pos (by simpa using (badBase_iff activeBase).mpr hb)]
        simp only [true_iff]
        exact Or.inl ⟨⟨i, List.mem_cons_self, hi⟩, hb⟩
      · rw [if_neg (by simpa using mt (badBase_iff activeBase).mp hb), extendedLoop_some]
        constructor
        · intro h
          have hj : ∃ j ∈ is, c.Active (.extended j) := by
            by_contra hn; rw [if_neg hn] at h; cases h
          obtain ⟨j, hj, hact⟩ := hj
          exact Or.inr ⟨i, List.mem_cons_self, j, List.mem_cons_of_mem i hj,
            fun he => hi_notin (he ▸ hj), hi, hact⟩
        · rintro (⟨-, hb'⟩ | ⟨a, ha, b, hb', hab, hacta, hactb⟩)
          · exact absurd hb' hb
          · -- two distinct active types: one of them lies in the tail
            have : ∃ j ∈ is, c.Active (.extended j) := by
              rcases List.mem_cons.mp ha with rfl | ha
              · rcases List.mem_cons.mp hb' with rfl | hb'
                · exact absurd rfl hab
                · exact ⟨b, hb', hactb⟩
              · exact ⟨a, ha, hacta⟩
            rw [if_pos this]
    · rw [if_neg hi, extendedLoop_none_eq_error_iff is (List.nodup_cons.mp hnd).2]
      constructor
      · rintro (⟨⟨j, hj, hact⟩, hb⟩ | ⟨a, ha, b, hb', hab, hacta, hactb⟩)
        · exact Or.inl ⟨⟨j, List.mem_cons_of_mem i hj, hact⟩, hb⟩
        · exact Or.inr ⟨a, List.mem_cons_of_mem i ha, b, List.mem_cons_of_mem i hb', hab,
            hacta, hactb⟩
      · have drop : ∀ k ∈ i :: is, c.Active (.extended k) → k ∈ is := by
          intro k hk hact
          rcases List.mem_cons.mp hk with rfl | hk
          · exact absurd hact hi
          · exact hk
        rintro (⟨⟨j, hj, hact⟩, hb⟩ | ⟨a, ha, b, hb', hab, hacta, hactb⟩)
        · exact Or.inl ⟨⟨j, drop j hj hact, hact⟩, hb⟩
        · exact Or.inr ⟨a, drop a ha hacta, b, drop b hb' hactb, hab, hacta, hactb⟩

/-- With nothing active the loop reports nothing, and conversely. -/
theorem extendedLoop_none_eq_ok_none_iff :
    ∀ (is : List (Fin kNumExtendedTypes)),
      c.extendedLoop activeBase is none = .ok none ↔ ∀ i ∈ is, ¬ c.Active (.extended i)
  | [] => by simp [extendedLoop]
  | i :: is => by
    rw [extendedLoop]
    by_cases hi : c.Active (.extended i)
    · rw [if_pos hi]
      simp only [List.mem_cons, forall_eq_or_imp, hi, not_true_eq_false, false_and, iff_false]
      split
      · exact fun h => by cases h
      · rw [extendedLoop_some]
        split <;> exact fun h => by cases h
    · rw [if_neg hi, extendedLoop_none_eq_ok_none_iff is]
      simp only [List.mem_cons, forall_eq_or_imp]
      exact ⟨fun h => ⟨hi, h⟩, fun h => h.2⟩

/-- What the loop reports is an active extended type. -/
theorem extendedLoop_none_eq_ok_some :
    ∀ (is : List (Fin kNumExtendedTypes)) (t : RangeType),
      c.extendedLoop activeBase is none = .ok (some t) →
        ∃ i ∈ is, t = .extended i ∧ c.Active (.extended i)
  | [], _, h => by simp [extendedLoop] at h
  | i :: is, t, h => by
    rw [extendedLoop] at h
    by_cases hi : c.Active (.extended i)
    · rw [if_pos hi] at h
      split at h
      · cases h
      · rw [extendedLoop_some] at h
        split at h
        · cases h
        · cases h
          exact ⟨i, List.mem_cons_self, rfl, hi⟩
    · rw [if_neg hi] at h
      obtain ⟨j, hj, rfl, hact⟩ := extendedLoop_none_eq_ok_some is t h
      exact ⟨j, List.mem_cons_of_mem i hj, rfl, hact⟩

end ExtendedLoop

/-! ## `DominantType` on arbitrary counters -/

theorem activeBase_eq (c : ActiveRanges) :
    c.activeBase =
      if c.Active .kReserved then some .kReserved
      else if c.Active .kPeripheral then some .kPeripheral
      else if c.Active .kFreeRam then some .kFreeRam else none := rfl

theorem badBase_activeBase (c : ActiveRanges) :
    BadBase c.activeBase ↔ c.Active .kReserved ∨ c.Active .kPeripheral := by
  rw [activeBase_eq]
  split_ifs <;> simp_all [BadBase]

theorem dominantType_eq_error_iff (c : ActiveRanges) :
    c.DominantType = .error () ↔
      ((∃ i, c.Active (.extended i)) ∧ (c.Active .kReserved ∨ c.Active .kPeripheral)) ∨
        ∃ i j, i ≠ j ∧ c.Active (.extended i) ∧ c.Active (.extended j) := by
  have key := c.extendedLoop_none_eq_error_iff c.activeBase _
    (List.nodup_finRange kNumExtendedTypes)
  simp only [List.mem_finRange, true_and, badBase_activeBase] at key
  rw [← key, DominantType]
  cases c.extendedLoop c.activeBase (List.finRange kNumExtendedTypes) none with
  | error e => simp
  | ok t => cases t <;> simp

/-- Without any active extended type, the dominant type is the base one. -/
theorem dominantType_of_no_extended (c : ActiveRanges)
    (h : ∀ i, ¬ c.Active (.extended i)) : c.DominantType = .ok c.activeBase := by
  rw [DominantType, c.extendedLoop_of_inactive c.activeBase _ none (fun i _ => h i)]

/-- An active extended type is the dominant one, unless `DominantType` fails. -/
theorem dominantType_of_extended (c : ActiveRanges) {i : Fin kNumExtendedTypes}
    (hi : c.Active (.extended i)) (hok : c.DominantType ≠ .error ()) :
    c.DominantType = .ok (some (.extended i)) := by
  have hloop : ∀ j, c.extendedLoop c.activeBase (List.finRange kNumExtendedTypes) none =
      .ok (some (.extended j)) → j = i := by
    intro j hj
    by_contra hne
    obtain ⟨k, -, hk, hact⟩ := c.extendedLoop_none_eq_ok_some c.activeBase _ _ hj
    rw [RangeType.extended.inj hk] at hne
    exact hok ((dominantType_eq_error_iff c).mpr (Or.inr ⟨k, i, hne, hact, hi⟩))
  revert hok
  rw [DominantType]
  cases hres : c.extendedLoop c.activeBase (List.finRange kNumExtendedTypes) none with
  | error e => intro hok; exact absurd rfl hok
  | ok t =>
    intro _
    cases t with
    | none =>
      have := (c.extendedLoop_none_eq_ok_none_iff c.activeBase _).mp hres i
        (List.mem_finRange i)
      exact absurd hi this
    | some t =>
      obtain ⟨k, -, rfl, -⟩ := c.extendedLoop_none_eq_ok_some c.activeBase _ _ hres
      rw [hloop k hres]

end ActiveRanges

/-! ## Counters of the ranges covering an address -/

open ActiveRanges

theorem index_eq_extended_iff (t : RangeType) (i : Fin kNumExtendedTypes) :
    index t = index (.extended i) ↔ t = .extended i := by
  rw [Fin.ext_iff]
  cases t <;> simp [index, kNumBaseTypes, Fin.ext_iff] <;> omega

theorem index_eq_reserved_iff (t : RangeType) :
    index t = index .kReserved ↔ normalize t = .kReserved := by
  rw [Fin.ext_iff]
  cases t with
  | extended j => simp [index, normalize, kNumBaseTypes]; omega
  | _ => simp [index, normalize, kNumBaseTypes]

theorem index_eq_peripheral_iff (t : RangeType) :
    index t = index .kPeripheral ↔ t = .kPeripheral := by
  rw [Fin.ext_iff]
  cases t with
  | extended j => simp [index, kNumBaseTypes]; omega
  | _ => simp [index, kNumBaseTypes]

theorem index_eq_freeRam_iff (t : RangeType) :
    index t = index .kFreeRam ↔ t = .kFreeRam := by
  rw [Fin.ext_iff]
  cases t <;> simp [index, kNumBaseTypes]

variable {ranges : List Range} {x : Nat}

theorem active_countAt_iff (t : RangeType) :
    (countAt ranges x).Active t ↔ ∃ r ∈ ranges, index r.type = index t ∧ Covers r x := by
  show 0 < ranges.countP _ ↔ _
  rw [List.countP_pos_iff]
  simp

theorem active_countAt_of_covers {r : Range} (hr : r ∈ ranges) (hx : Covers r x) :
    (countAt ranges x).Active r.type :=
  (active_countAt_iff r.type).mpr ⟨r, hr, rfl, hx⟩

theorem clash_iff (t t' : RangeType) :
    Clash t t' ↔ (∃ i j, t = .extended i ∧ t' = .extended j ∧ i ≠ j) ∨
      (∃ i, t = .extended i ∧ (normalize t' = .kReserved ∨ t' = .kPeripheral)) ∨
      (∃ i, t' = .extended i ∧ (normalize t = .kReserved ∨ t = .kPeripheral)) := by
  cases t <;> cases t' <;> simp [Clash, normalize]

/-- **`DominantType` fails exactly on a conflict.** -/
theorem dominantType_countAt_error_iff :
    (countAt ranges x).DominantType = .error () ↔ Conflict ranges x := by
  rw [dominantType_eq_error_iff]
  simp only [active_countAt_iff, index_eq_extended_iff, index_eq_reserved_iff,
    index_eq_peripheral_iff]
  constructor
  · rintro (⟨⟨i, r, hr, hrt, hrx⟩, ⟨r', hr', hrt', hrx'⟩ | ⟨r', hr', hrt', hrx'⟩⟩ |
        ⟨i, j, hij, ⟨r, hr, hrt, hrx⟩, ⟨r', hr', hrt', hrx'⟩⟩)
    · exact ⟨r, hr, r', hr', hrx, hrx', (clash_iff _ _).mpr (Or.inr (Or.inl ⟨i, hrt, .inl hrt'⟩))⟩
    · exact ⟨r, hr, r', hr', hrx, hrx', (clash_iff _ _).mpr (Or.inr (Or.inl ⟨i, hrt, .inr hrt'⟩))⟩
    · exact ⟨r, hr, r', hr', hrx, hrx', (clash_iff _ _).mpr (Or.inl ⟨i, j, hrt, hrt', hij⟩)⟩
  · rintro ⟨r, hr, r', hr', hrx, hrx', hc⟩
    rcases (clash_iff _ _).mp hc with ⟨i, j, hi, hj, hij⟩ | ⟨i, hi, hb⟩ | ⟨i, hi, hb⟩
    · exact Or.inr ⟨i, j, hij, ⟨r, hr, hi, hrx⟩, ⟨r', hr', hj, hrx'⟩⟩
    · refine Or.inl ⟨⟨i, r, hr, hi, hrx⟩, ?_⟩
      rcases hb with hb | hb
      · exact .inl ⟨r', hr', hb, hrx'⟩
      · exact .inr ⟨r', hr', hb, hrx'⟩
    · refine Or.inl ⟨⟨i, r', hr', hi, hrx'⟩, ?_⟩
      rcases hb with hb | hb
      · exact .inl ⟨r, hr, hb, hrx⟩
      · exact .inr ⟨r, hr, hb, hrx⟩


theorem precedence_normalize (t : RangeType) : precedence (normalize t) = precedence t := by
  cases t <;> rfl

theorem precedence_le_three (t : RangeType) : precedence t ≤ 3 := by
  cases t <;> simp [precedence]

/-- `T` is dominant exactly when it is `B`, once `B` is the normalized type of a
covering range, no covering range outranks it, and the ranges that tie with it
are of its type. -/
theorem isDominant_iff_of_top (B : RangeType)
    (hB : ∃ r ∈ ranges, Covers r x ∧ normalize r.type = B)
    (hmax : ∀ r ∈ ranges, Covers r x → precedence r.type ≤ precedence B)
    (htie : ∀ r ∈ ranges, Covers r x → precedence r.type = precedence B → normalize r.type = B)
    (T : RangeType) : IsDominant ranges x T ↔ T = B := by
  constructor
  · rintro ⟨⟨r, hr, hrx, rfl⟩, hmaxT⟩
    obtain ⟨rB, hrB, hrBx, hrBt⟩ := hB
    have h1 := hmaxT rB hrB hrBx
    rw [← precedence_normalize rB.type, hrBt, precedence_normalize] at h1
    exact htie r hr hrx (Nat.le_antisymm (hmax r hr hrx) h1)
  · rintro rfl
    exact ⟨hB, hmax⟩

/-- The ranges covering `x` carry no extended type when none is counted. -/
theorem not_extended_of_inactive (h : ∀ i, ¬ (countAt ranges x).Active (.extended i)) :
    ∀ r ∈ ranges, Covers r x → ∀ i, r.type ≠ .extended i := by
  intro r hr hx i ht
  exact h i (ht ▸ active_countAt_of_covers hr hx)

/-- A type that is not extended is one of the three base types once
normalized, each with its precedence. -/
theorem precedence_cases_of_not_extended {t : RangeType} (ht : ∀ i, t ≠ .extended i) :
    (normalize t = .kReserved ∧ precedence t = 2) ∨ (t = .kPeripheral ∧ precedence t = 1) ∨
      (t = .kFreeRam ∧ precedence t = 0) := by
  cases t with
  | kFreeRam => simp [precedence]
  | kPeripheral => simp [precedence]
  | kReserved => simp [precedence, normalize]
  | extended i => exact absurd rfl (ht i)
  | unknown v => simp [precedence, normalize]

/-- **Without a conflict, `DominantType` reports the dominant type.** -/
theorem labelAt_eq_some_iff (h : ¬ Conflict ranges x) (T : RangeType) :
    labelAt ranges x = some T ↔ IsDominant ranges x T := by
  have hok : (countAt ranges x).DominantType ≠ .error () :=
    fun he => h (dominantType_countAt_error_iff.mp he)
  by_cases hext : ∃ i, (countAt ranges x).Active (.extended i)
  · -- an extended type is counted: it is the only one, and it wins
    obtain ⟨i, hi⟩ := hext
    have hl : labelAt ranges x = some (.extended i) := by
      rw [labelAt, dominantType_of_extended _ hi hok]
    obtain ⟨r₀, hr₀, hr₀t, hr₀x⟩ := (active_countAt_iff _).mp hi
    rw [index_eq_extended_iff] at hr₀t
    rw [hl, isDominant_iff_of_top (.extended i) ⟨r₀, hr₀, hr₀x, by rw [hr₀t]; rfl⟩
      (fun r _ _ => precedence_le_three r.type) _ T, eq_comm, Option.some_inj]
    intro r hr hrx hp
    cases hrt : r.type with
    | extended j =>
      have hj : (countAt ranges x).Active (.extended j) := hrt ▸ active_countAt_of_covers hr hrx
      have hji : j = i := by
        by_contra hne
        exact hok ((dominantType_eq_error_iff _).mpr (Or.inr ⟨j, i, hne, hj, hi⟩))
      rw [hji]; rfl
    | _ => simp [hrt, precedence] at hp
  · -- no extended type: the base types decide, highest precedence first
    simp only [not_exists] at hext
    have hl : labelAt ranges x = (countAt ranges x).activeBase := by
      rw [labelAt, dominantType_of_no_extended _ hext]
    have hne := not_extended_of_inactive hext
    rw [hl, activeBase_eq]
    by_cases hres : (countAt ranges x).Active .kReserved
    · obtain ⟨r₀, hr₀, hr₀t, hr₀x⟩ := (active_countAt_iff _).mp hres
      rw [index_eq_reserved_iff] at hr₀t
      rw [if_pos hres, isDominant_iff_of_top _ ⟨r₀, hr₀, hr₀x, hr₀t⟩ _ _ T, eq_comm, Option.some_inj]
      · intro r hr hrx
        rcases precedence_cases_of_not_extended (hne r hr hrx) with ⟨-, hp⟩ | ⟨-, hp⟩ | ⟨-, hp⟩ <;> rw [hp] <;> decide
      · intro r hr hrx hp
        rcases precedence_cases_of_not_extended (hne r hr hrx) with ⟨hn, -⟩ | ⟨-, hp'⟩ | ⟨-, hp'⟩
        · exact hn
        all_goals rw [hp'] at hp; exact absurd hp (by decide)
    · rw [if_neg hres]
      have hnres : ∀ r ∈ ranges, Covers r x → normalize r.type ≠ .kReserved := by
        intro r hr hrx ht
        exact hres ((active_countAt_iff _).mpr ⟨r, hr, (index_eq_reserved_iff _).mpr ht, hrx⟩)
      by_cases hper : (countAt ranges x).Active .kPeripheral
      · obtain ⟨r₀, hr₀, hr₀t, hr₀x⟩ := (active_countAt_iff _).mp hper
        rw [index_eq_peripheral_iff] at hr₀t
        rw [if_pos hper, isDominant_iff_of_top .kPeripheral ⟨r₀, hr₀, hr₀x, by rw [hr₀t]; rfl⟩
          _ _ T,
          eq_comm, Option.some_inj]
        · intro r hr hrx
          rcases precedence_cases_of_not_extended (hne r hr hrx) with ⟨hn, -⟩ | ⟨-, hp⟩ | ⟨-, hp⟩
          · exact absurd hn (hnres r hr hrx)
          all_goals rw [hp]; decide
        · intro r hr hrx hp
          rcases precedence_cases_of_not_extended (hne r hr hrx) with ⟨-, hp'⟩ | ⟨ht, -⟩ | ⟨-, hp'⟩
          · rw [hp'] at hp; exact absurd hp (by decide)
          · rw [ht]; rfl
          · rw [hp'] at hp; exact absurd hp (by decide)
      · rw [if_neg hper]
        have hnper : ∀ r ∈ ranges, Covers r x → r.type ≠ .kPeripheral := by
          intro r hr hrx ht
          exact hper ((active_countAt_iff _).mpr ⟨r, hr, (index_eq_peripheral_iff _).mpr ht, hrx⟩)
        by_cases hfree : (countAt ranges x).Active .kFreeRam
        · obtain ⟨r₀, hr₀, hr₀t, hr₀x⟩ := (active_countAt_iff _).mp hfree
          rw [index_eq_freeRam_iff] at hr₀t
          rw [if_pos hfree, isDominant_iff_of_top .kFreeRam ⟨r₀, hr₀, hr₀x, by rw [hr₀t]; rfl⟩
            _ _ T,
            eq_comm, Option.some_inj]
          · intro r hr hrx
            rcases precedence_cases_of_not_extended (hne r hr hrx) with ⟨hn, -⟩ | ⟨ht, -⟩ | ⟨-, hp⟩
            · exact absurd hn (hnres r hr hrx)
            · exact absurd ht (hnper r hr hrx)
            · rw [hp]; decide
          · intro r hr hrx _
            rcases precedence_cases_of_not_extended (hne r hr hrx) with ⟨hn, -⟩ | ⟨ht, -⟩ | ⟨ht, -⟩
            · exact absurd hn (hnres r hr hrx)
            · exact absurd ht (hnper r hr hrx)
            · rw [ht]; rfl
        · -- nothing is counted, so nothing covers `x`
          rw [if_neg hfree]
          simp only [reduceCtorEq, false_iff]
          rintro ⟨⟨r, hr, hrx, -⟩, -⟩
          have hact := active_countAt_of_covers hr hrx
          rcases precedence_cases_of_not_extended (hne r hr hrx) with ⟨hn, -⟩ | ⟨ht, -⟩ | ⟨ht, -⟩
          · exact hnres r hr hrx hn
          · exact hnper r hr hrx ht
          · rw [ht] at hact
            exact hfree hact

/-- Without a conflict, the label is absent exactly where nothing covers `x`. -/
theorem labelAt_eq_none_iff (h : ¬ Conflict ranges x) :
    labelAt ranges x = none ↔ ∀ r ∈ ranges, ¬ Covers r x := by
  constructor
  · intro hl r hr hrx
    have hact := active_countAt_of_covers hr hrx
    by_cases hext : ∃ i, (countAt ranges x).Active (.extended i)
    · obtain ⟨i, hi⟩ := hext
      have hok : (countAt ranges x).DominantType ≠ .error () :=
        fun he => h (dominantType_countAt_error_iff.mp he)
      rw [labelAt, dominantType_of_extended _ hi hok] at hl
      cases hl
    · -- the slot of `r` is counted, so some base type is active
      simp only [not_exists] at hext
      rw [labelAt, dominantType_of_no_extended _ hext, activeBase_eq] at hl
      split_ifs at hl with h1 h2 h3
      cases hrt : r.type <;> rw [hrt] at hact
      · exact h3 hact
      · exact h2 hact
      · exact h1 hact
      · exact hext _ hact
      · exact h1 hact
  · intro hno
    have hina : ∀ t, ¬ (countAt ranges x).Active t := by
      intro t ht
      obtain ⟨r, hr, -, hrx⟩ := (active_countAt_iff _).mp ht
      exact hno r hr hrx
    rw [labelAt, dominantType_of_no_extended _ (fun i => hina _), activeBase_eq,
      if_neg (hina _), if_neg (hina _), if_neg (hina _)]

end Zircon.Memalloc
