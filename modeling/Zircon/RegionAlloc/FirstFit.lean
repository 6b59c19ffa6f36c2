import Zircon.RegionAlloc.Contract
import Zircon.Align

/-!
# `GetRegion` by size and alignment

`GetRegion(size, alignment)` walks the available regions in `(size, base)`
order, from the first of at least `size` units, and stops at the first whose
base, rounded up to `alignment` in 64 bits, leaves room for `size` units. A
base whose rounding wraps is skipped, and rightly: no multiple of `alignment`
below `2 ^ 64` lies above it. So the walk stops at exactly the first region
that holds an aligned interval of `size` units, at its lowest aligned base.
-/

namespace Zircon.RegionAlloc

open SortedIndex Runs Align

namespace RegionAllocator

variable {s : RegionAllocator}

/-- The region `R` holds `[b, b + size)` for some multiple `b` of `2 ^ k`. -/
def Fits (s : RegionAllocator) (size k R : Nat) : Prop :=
  ∃ b, 2 ^ k ∣ b ∧ s.lo R ≤ b ∧ b + size ≤ s.hi R

/-- A region shorter than `size` holds no interval of `size` units. -/
theorem not_fits_of_lt {size k R : Nat} (hlt : (s.obj R).size < size) : ¬ s.Fits size k R := by
  rintro ⟨b, -, hlo, hhi⟩
  simp only [lo, hi, Region.end] at hlo hhi
  omega

section Check

variable {size k R : Nat} (hk : k ≤ 64) (hhi : s.hi R < 2 ^ 64) (hsize : size ≤ (s.obj R).size)
include hk hhi hsize

/-- The test `GetRegion` makes of one region: the base rounded up in 64 bits
has not wrapped and leaves room for `size` units exactly when the region
holds an aligned interval of `size` units. -/
theorem fitCheck_iff :
    alignUp 64 k (s.obj R).base ≥ (s.obj R).base ∧
      alignUp 64 k (s.obj R).base - (s.obj R).base ≤
        (s.obj R).size - size ↔ s.Fits size k R := by
  have hbase : (s.obj R).base < 2 ^ 64 := by
    simp only [hi, Region.end] at hhi
    omega
  by_cases hwrap : 2 ^ 64 ≤ (s.obj R).base + (2 ^ k - 1)
  · -- the rounding wraps, and no aligned interval fits below `2 ^ 64`
    have hlt := alignUp_of_wrap hk hbase hwrap
    refine ⟨fun hc => absurd hc.1 (Nat.not_le_of_lt hlt), ?_⟩
    rintro ⟨b, hb, hlo, hend⟩
    have := add_lt_of_le_dvd hk hb hlo (by simp only [hi, Region.end] at hend hhi; omega)
    simp only [lo] at this
    omega
  · obtain ⟨hdvd, hle, hleast⟩ := alignUp_spec (x := (s.obj R).base) hk (by omega)
    generalize alignUp 64 k (s.obj R).base = ab at hdvd hle hleast ⊢
    simp only [Fits, lo, hi, Region.end]
    constructor
    · rintro ⟨-, hover⟩
      exact ⟨ab, hdvd, hle, by omega⟩
    · rintro ⟨b, hb, hlo, hend⟩
      have := hleast b hb hlo
      omega

/-- When the test passes, the rounded base is the lowest aligned base of the
region, and the interval from it fits. -/
theorem fitCheck_base
    (hc : alignUp 64 k (s.obj R).base ≥ (s.obj R).base ∧
      alignUp 64 k (s.obj R).base - (s.obj R).base ≤
        (s.obj R).size - size) :
    2 ^ k ∣ alignUp 64 k (s.obj R).base ∧
      ∀ b, 2 ^ k ∣ b → s.lo R ≤ b →
        alignUp 64 k (s.obj R).base ≤ b := by
  obtain ⟨b, hb, hlo, hend⟩ := (fitCheck_iff hk hhi hsize).mp hc
  obtain ⟨hdvd, -, hleast⟩ :=
    alignUp_spec hk (add_lt_of_le_dvd hk hb hlo (by simp only [hi, Region.end] at hend hhi; omega))
  exact ⟨hdvd, hleast⟩

end Check

/-! ## The walk -/

/-- One step of the walk, with the rounded base named. -/
theorem findFit_cons (size k j : Nat) (rest : List Nat) :
    s.findFit size (2 ^ k - 1) (j :: rest) =
      if alignUp 64 k (s.obj j).base ≥ (s.obj j).base ∧
          alignUp 64 k (s.obj j).base - (s.obj j).base ≤ (s.obj j).size - size
        then some (j, alignUp 64 k (s.obj j).base) else s.findFit size (2 ^ k - 1) rest := rfl

section Walk

variable {size k : Nat} (hk : k ≤ 64)
include hk

/-- Over regions that do not wrap and are at least `size` units long, the walk
finds nothing exactly when none of them holds an aligned interval. -/
theorem findFit_eq_none_iff {l : List Nat} (hl : ∀ R ∈ l, s.hi R < 2 ^ 64 ∧ size ≤ (s.obj R).size) :
    s.findFit size (2 ^ k - 1) l = none ↔ ∀ R ∈ l, ¬ s.Fits size k R := by
  induction l with
  | nil => simp [findFit]
  | cons j rest ih =>
    have hj := hl j List.mem_cons_self
    rw [findFit_cons, List.forall_mem_cons, ← ih fun R hR => hl R (List.mem_cons_of_mem j hR),
      ← fitCheck_iff hk hj.1 hj.2]
    split_ifs with hc
    · exact ⟨False.elim, fun h => absurd hc h.1⟩
    · exact ⟨fun h => ⟨hc, h⟩, And.right⟩

/-- Over the same regions, the walk stops at the first that holds an aligned
interval of `size` units, at its lowest aligned base. -/
theorem findFit_eq_some {l : List Nat} (hl : ∀ R ∈ l, s.hi R < 2 ^ 64 ∧ size ≤ (s.obj R).size)
    {R b : Nat} (h : s.findFit size (2 ^ k - 1) l = some (R, b)) :
    ∃ pre post, l = pre ++ R :: post ∧ (∀ R' ∈ pre, ¬ s.Fits size k R') ∧
      2 ^ k ∣ b ∧ s.lo R ≤ b ∧ b + size ≤ s.hi R ∧ ∀ b', 2 ^ k ∣ b' → s.lo R ≤ b' → b ≤ b' := by
  induction l with
  | nil => simp [findFit] at h
  | cons j rest ih =>
    have hj := hl j List.mem_cons_self
    rw [findFit_cons] at h
    split_ifs at h with hc
    · -- `j` is the region found
      obtain ⟨rfl, rfl⟩ := Prod.mk.inj (Option.some.inj h)
      obtain ⟨hdvd, hleast⟩ := fitCheck_base hk hj.1 hj.2 hc
      refine ⟨[], rest, rfl, by simp, hdvd, hc.1, ?_, hleast⟩
      simp only [hi, Region.end]
      omega
    · obtain ⟨pre, post, rfl, hpre, hR⟩ := ih (fun R hR => hl R (List.mem_cons_of_mem j hR)) h
      exact ⟨j :: pre, post, rfl,
        List.forall_mem_cons.mpr ⟨fun hf => hc ((fitCheck_iff hk hj.1 hj.2).mpr hf), hpre⟩, hR⟩

end Walk

/-! ## `GetRegion` -/

/-- The regions `lower_bound({0, size})` passes over are shorter than `size`;
those from it on do not wrap and are at least `size` long. -/
theorem lowerBound_split (hw : s.WellFormed) (size : Nat) :
    (∀ R ∈ s.availBySize.takeWhile fun r => sizeLt (s.obj r) ⟨0, size⟩, (s.obj R).size < size) ∧
      ∀ R ∈ s.availBySize.dropWhile (fun r => sizeLt (s.obj r) ⟨0, size⟩),
        s.hi R < 2 ^ 64 ∧ size ≤ (s.obj R).size := by
  constructor
  · intro R hR
    have := List.mem_takeWhile_imp hR
    rw [sizeLt_iff] at this
    dsimp only at this
    omega
  · intro R hR
    refine ⟨hw.availNoWrap R (hw.trees.perm.subset ((List.dropWhile_suffix _).subset hR)), ?_⟩
    have := hw.trees.sorted.not_lt_of_mem_dropWhile sizeLt_trans hR
    rw [← Bool.not_eq_true, sizeLt_iff] at this
    dsimp only at this
    omega

/-- For a size and a power-of-two alignment, `GetRegion` passes its argument
checks and walks the regions from `lower_bound({0, size})`. -/
theorem getRegion_eq {size k : Nat} (hsize : 0 < size) :
    s.GetRegion size (2 ^ k) =
      match s.findFit size (2 ^ k - 1) (s.availBySize.dropWhile fun r => sizeLt (s.obj r) ⟨0, size⟩) with
      | none => (s, .error .notFound)
      | some (r, alignedBase) => s.AllocFromAvailLocked r alignedBase size := by
  have hguard : ¬ (size = 0 ∨ 2 ^ k = 0 ∨ 2 ^ k &&& (2 ^ k - 1) ≠ 0) := by
    rw [Nat.and_two_pow_sub_one_eq_mod, Nat.mod_self]
    have := Nat.two_pow_pos k
    omega
  rw [GetRegion]
  exact if_neg hguard

/-- Where the walk stops: an available region that comes, in `(size, base)`
order, after every region that holds no aligned interval of `size` units, and
its lowest aligned base, from which `AllocFromAvailLocked` runs out of objects
or hands out `size` units. -/
theorem found_spec (hw : s.WellFormed) {size k R b : Nat} (hsize : 0 < size) (hk : k ≤ 64)
    (hfit : s.findFit size (2 ^ k - 1)
      (s.availBySize.dropWhile fun r => sizeLt (s.obj r) ⟨0, size⟩) = some (R, b)) :
    R ∈ s.availByBase ∧ (∃ pre post, s.availBySize = pre ++ R :: post ∧ ∀ R' ∈ pre, ¬ s.Fits size k R') ∧
      2 ^ k ∣ b ∧ s.lo R ≤ b ∧ b + size ≤ s.hi R ∧ (∀ b', 2 ^ k ∣ b' → s.lo R ≤ b' → b ≤ b') ∧
      ((s.AllocFromAvailLocked R b size).2 = .error .noMemory ∨
        ∃ r t, s.AllocFromAvailLocked R b size = (t.insertAllocated r, .ok r) ∧ Handed s t r ⟨b, size⟩) := by
  obtain ⟨hshort, hlong⟩ := lowerBound_split hw size
  obtain ⟨pre, post, hc, hpre, hdvd, hlo, hhi, hleast⟩ := findFit_eq_some hk hlong hfit
  have hrA : R ∈ s.availByBase := hw.trees.perm.subset ((List.dropWhile_suffix _).subset
    (hc ▸ List.mem_append_right pre List.mem_cons_self))
  -- the regions before `lower_bound` are too short, the others the walk rejected
  have hbefore : ∃ pre post, s.availBySize = pre ++ R :: post ∧ ∀ R' ∈ pre, ¬ s.Fits size k R' := by
    refine ⟨(s.availBySize.takeWhile fun r => sizeLt (s.obj r) ⟨0, size⟩) ++ pre, post, ?_, ?_⟩
    · rw [List.append_assoc, ← hc, List.takeWhile_append_dropWhile]
    · intro R' hR'
      rcases List.mem_append.mp hR' with hR' | hR'
      · exact not_fits_of_lt (hshort R' hR')
      · exact hpre R' hR'
  refine ⟨hrA, hbefore, hdvd, hlo, hhi, hleast, ?_⟩
  rcases allocFromAvail_spec hw.trees (fun i hi => hw.fresh i (.inl hi)) hrA hlo hhi hsize
    with ⟨hm, -⟩ | hok
  · exact .inl hm
  · exact .inr hok

/-- `GetRegion(size, alignment)` for a power-of-two `alignment` in a reachable
state. It reports `ZX_ERR_NOT_FOUND` exactly when no available region holds
an aligned interval of `size` units. When it hands out a region, that region
is such an interval of the first available region in `(size, base)` order
that holds one, at its lowest aligned base, and only the interval leaves the
available points. It never rejects its arguments. When it runs out of pool
objects, no point moves. -/
theorem getRegion_first_fit (h : Reachable s) (size k : Nat) (hsize : 0 < size) (hk : k < 64) :
    ((s.GetRegion size (2 ^ k)).2 = .error .notFound ↔ ∀ R ∈ s.availByBase, ¬ s.Fits size k R) ∧
    (∀ r, (s.GetRegion size (2 ^ k)).2 = .ok r →
      ∃ pre R post b, s.availBySize = pre ++ R :: post ∧ (∀ R' ∈ pre, ¬ s.Fits size k R') ∧
        2 ^ k ∣ b ∧ s.lo R ≤ b ∧ b + size ≤ s.hi R ∧ (∀ b', 2 ^ k ∣ b' → s.lo R ≤ b' → b ≤ b') ∧
        (s.GetRegion size (2 ^ k)).1.obj r = ⟨b, size⟩ ∧
        (∀ x, (s.GetRegion size (2 ^ k)).1.AvailAt x ↔ s.AvailAt x ∧ ¬ (⟨b, size⟩ : Region).Covers x) ∧
        ∀ x, (s.GetRegion size (2 ^ k)).1.AllocatedAt x ↔
          s.AllocatedAt x ∨ (⟨b, size⟩ : Region).Covers x) ∧
    (s.GetRegion size (2 ^ k)).2 ≠ .error .invalidArgs ∧
    ((s.GetRegion size (2 ^ k)).2 = .error .noMemory → SamePoints s (s.GetRegion size (2 ^ k)).1) := by
  have hw := h.wellFormed
  have hk64 : k ≤ 64 := by omega
  -- what `AllocFromAvailLocked` returns is never `ZX_ERR_NOT_FOUND` or `ZX_ERR_INVALID_ARGS`
  have hfound : ∀ {R b}, s.findFit size (2 ^ k - 1)
      (s.availBySize.dropWhile fun r => sizeLt (s.obj r) ⟨0, size⟩) = some (R, b) →
      ∀ e, (s.AllocFromAvailLocked R b size).2 = .error e → e = .noMemory := by
    intro R b hfit e he
    rcases (found_spec hw hsize hk64 hfit).2.2.2.2.2.2 with hm | ⟨r, t, hres, -⟩
    · rw [hm] at he
      cases he
      rfl
    · rw [hres] at he
      cases he
  refine ⟨?_, ?_, ?_, fun hm => getRegion_error hw hm⟩
  · rw [getRegion_eq hsize]
    split
    · rename_i hnone
      simp only [true_iff]
      intro R hR hfit
      -- a region that holds `size` units is one the walk visits
      have hmem := hw.trees.perm.symm.subset hR
      rw [← List.takeWhile_append_dropWhile (p := fun r => sizeLt (s.obj r) ⟨0, size⟩)
        (l := s.availBySize)] at hmem
      rcases List.mem_append.mp hmem with hmem | hmem
      · exact not_fits_of_lt ((lowerBound_split hw size).1 R hmem) hfit
      · exact (findFit_eq_none_iff hk64 (lowerBound_split hw size).2).mp hnone R hmem hfit
    · rename_i R b hfit
      obtain ⟨hrA, -, hdvd, hlo, hhi, -⟩ := found_spec hw hsize hk64 hfit
      refine ⟨fun he => absurd (hfound hfit _ he) (by decide), fun hnone => ?_⟩
      exact absurd ⟨b, hdvd, hlo, hhi⟩ (hnone R hrA)
  · intro r hok
    rw [getRegion_eq hsize] at hok ⊢
    split at hok
    · simp at hok
    rename_i R b hfit
    obtain ⟨-, ⟨pre, post, hc, hpre⟩, hdvd, hlo, hhi, hleast, hres⟩ := found_spec hw hsize hk64 hfit
    rcases hres with hm | ⟨r', t, hres, hd⟩
    · rw [hm] at hok
      simp at hok
    rw [hres] at hok
    cases hok
    refine ⟨pre, R, post, b, hc, hpre, hdvd, hlo, hhi, hleast, ?_, ?_, ?_⟩
    · simp only [hres]
      exact hd.obj
    · simp only [hres]
      exact hd.availAt
    · simp only [hres]
      exact hd.allocatedAt hw
  · rw [getRegion_eq hsize]
    split
    · simp
    · rename_i R b hfit
      exact fun he => absurd (hfound hfit _ he) (by decide)

/-- On the allocator holding `[0, 0x100)` over a pool of one object,
`GetRegion(0x10, 16)` does not reject its arguments. -/
theorem getRegion_first_fit_addRegion :
    Reachable ((create 1).AddRegion ⟨0, 0x100⟩ .no).1 ∧
      (((create 1).AddRegion ⟨0, 0x100⟩ .no).1.GetRegion 0x10 (2 ^ 4)).2 ≠ .error .invalidArgs :=
  have hr : Reachable ((create 1).AddRegion ⟨0, 0x100⟩ .no).1 := .step (.create 1) (.addRegion _ _ _ (by decide))
  ⟨hr, (getRegion_first_fit hr 0x10 4 (by decide) (by decide)).2.2.1⟩

/-- After `AddRegion([0, 0x100))` on a pool of one object, the available
region holds `[0, 0x10)`, yet `GetRegion(0x10, 1)` fails: handing out the
front of the region needs one more object for the rest. -/
theorem getRegion_fits_noMemory :
    Reachable ((create 1).AddRegion ⟨0, 0x100⟩ .no).1 ∧ 0 ∈ ((create 1).AddRegion ⟨0, 0x100⟩ .no).1.availByBase ∧
      ((create 1).AddRegion ⟨0, 0x100⟩ .no).1.Fits 0x10 0 0 ∧
      (((create 1).AddRegion ⟨0, 0x100⟩ .no).1.GetRegion 0x10 (2 ^ 0)).2 = .error .noMemory :=
  ⟨.step (.create 1) (.addRegion _ _ _ (by decide)), by decide, ⟨0, Nat.dvd_zero _, by decide, by decide⟩,
    rfl⟩

end RegionAllocator

end Zircon.RegionAlloc
