import Zircon.RegionAlloc.Merge
import Zircon.RegionAlloc.Alloc

/-!
# Returning points to the available regions

Both ways points come back go through `AddRegionToAvailLocked`: `AddRegion`
puts a fresh object holding the new region into the available trees, and
`ReleaseRegion` moves a handed-out object there, with `AllowOverlap::No` since
nothing handed out meets an available point.
-/

namespace Zircon.RegionAlloc

open SortedIndex Runs

namespace RegionAllocator

variable {s : RegionAllocator}

/-- What adding the points `R` to the available regions leaves. -/
structure Added (s s' : RegionAllocator) (R : Nat → Prop) : Prop where
  edit : AvailEdit s s'
  trees : s'.AvailTrees
  avail : ∀ x, s'.AvailAt x ↔ s.AvailAt x ∨ R x

/-- Joining an object just taken from the pool stays within the frame of an
edit of the available trees. -/
theorem AvailEdit.joined {s₀ s' : RegionAllocator} {r : Nat} (he : AvailEdit s₀ s) (hj : Joined s s' r)
    (hr : s₀.nextRegion ≤ r ∧ r < s.nextRegion) : AvailEdit s₀ s' where
  mem i hi := by
    rw [hj.nextRegion]
    rcases hj.mem i hi with rfl | hi
    · exact .inr hr
    · exact he.mem i hi
  obj i hi hn := (hj.obj i (by omega)).trans (he.obj i hi hn)
  allocated := hj.allocated.trans he.allocated
  nextRegion := hj.nextRegion ▸ he.nextRegion

/-- Added points that no handed-out region reaches and that do not wrap keep
the invariant. -/
theorem WellFormed.added (hw : s.WellFormed) {s' : RegionAllocator} {R : Nat → Prop} (ha : Added s s' R)
    (hR : ∀ x, R x → ¬ s.AllocatedAt x ∧ x + 1 < 2 ^ 64) : s'.WellFormed :=
  hw.availEdit ha.edit ha.trees (fun x hx => (ha.avail x).mp hx) hR

/-- A subtraction keeps the invariant. -/
theorem WellFormed.subtracted (hw : s.WellFormed) {s' : RegionAllocator} {R : Nat → Prop}
    (hs : Subtracted s s' R) : s'.WellFormed :=
  hw.availEdit hs.edit hs.trees (R := fun _ => False) (fun x hx => .inl ((hs.avail x).mp hx).1)
    fun _ hx => hx.elim

/-- An available region `i` and a region `r` that meets no available point
lie one after the other. -/
theorem separated_of_not_availAt {t : RegionAllocator} (ht : t.AvailTrees) {r i : Nat}
    (hne : t.lo r < t.hi r) (hi : i ∈ t.availByBase)
    (hr : ∀ x, Holds t.lo t.hi r x → ¬ t.AvailAt x) : t.hi i ≤ t.lo r ∨ t.hi r ≤ t.lo i :=
  separated_of_not_holds (ht.gapped.nonempty i hi) hne fun x hxi hxr => hr x hxr ⟨i, hi, hxi⟩

/-! ## `AddRegion` -/

/-- The sanity check rejects an empty region, one that wraps and one that
meets a handed-out region with `ZX_ERR_INVALID_ARGS`. -/
theorem addSubtractSanityCheckLocked_eq_error (hinc : Increasing s.lo s.hi s.allocatedByBase)
    {region : Region} (hs : region.size < 2 ^ 64)
    (hbad : ¬ (0 < region.size ∧ region.end < 2 ^ 64 ∧ ∀ x, region.Covers x → ¬ s.AllocatedAt x)) :
    s.AddSubtractSanityCheckLocked region = .error .invalidArgs := by
  have hne := mt (addSubtractSanityCheckLocked_eq_ok hinc hs).mp hbad
  unfold AddSubtractSanityCheckLocked at hne ⊢
  split_ifs at hne ⊢
  · rfl
  · rfl
  · exact absurd rfl hne

/-- `AddRegion` either fails and leaves the allocator as it was, or adds the
points of `region` to the available regions; without `AllowOverlap::Yes` it
succeeds only when none of them was available. -/
theorem addRegion_spec (hw : s.WellFormed) {region : Region} (hs : region.size < 2 ^ 64)
    (mode : AllowOverlap) :
    (∃ e, s.AddRegion region mode = (s, .error e)) ∨
      ((s.AddRegion region mode).2 = .ok () ∧ s.AddSubtractSanityCheckLocked region = .ok () ∧
        Added s (s.AddRegion region mode).1 region.Covers ∧
        (mode = .no → ∀ x, region.Covers x → ¬ s.AvailAt x)) := by
  generalize hres : s.AddRegion region mode = res
  simp only [AddRegion] at hres
  split at hres
  · exact .inl ⟨_, hres.symm⟩
  rename_i hsan
  obtain ⟨hne, -, -⟩ := (addSubtractSanityCheckLocked_eq_ok hw.allocatedIncreasing hs).mp hsan
  split_ifs at hres with hov
  · exact .inl ⟨_, hres.symm⟩
  -- without `AllowOverlap::Yes`, `IntersectsLocked` has found no available point
  have hsepA : mode = .no → ∀ x, region.Covers x → ¬ s.AvailAt x := fun hm x hx hax =>
    hov ⟨by rw [hm]; decide,
      (intersectsLocked_iff_exists hw.trees.gapped.increasing hne).mpr ⟨x, hx, hax⟩⟩
  split at hres
  · exact .inl ⟨_, hres.symm⟩
  rename_i r s₁ hcr
  subst hres
  have hfr : s.nextRegion ∉ s.availByBase := fun hm => (hw.fresh _ (.inl hm)).false
  obtain ⟨he₁, rfl, hnext₁, ho₁, hb₁, -⟩ := availEdit_create hcr
  -- the fresh object holds `region` before it joins the trees
  have hY : Subtracted s (s₁.setObj s.nextRegion region) fun _ => False :=
    (subtracted_create hw.trees hcr).setObj le_rfl (hb₁ ▸ hfr) region
  have hr₂ : s.nextRegion ∉ (s₁.setObj s.nextRegion region).availByBase := hb₁ ▸ hfr
  have hlo₂ : (s₁.setObj s.nextRegion region).lo s.nextRegion = region.base := by simp
  have hhi₂ : (s₁.setObj s.nextRegion region).hi s.nextRegion = region.end := by simp
  have hj := addRegionToAvail_joined mode hY.trees hr₂ (by rw [hlo₂, hhi₂]; simp [Region.end, hne])
    fun hm i hi => separated_of_not_availAt hY.trees (by rw [hlo₂, hhi₂]; simp [Region.end, hne]) hi
      fun x hx hax => hsepA hm x (by simp only [Holds, hlo₂, hhi₂] at hx; exact hx)
        ((hY.avail x).mp hax).1
  refine .inr ⟨rfl, hsan, ⟨(he₁.setObj le_rfl region).joined hj ⟨le_rfl, ?_⟩, hj.trees,
    fun x => ?_⟩, hsepA⟩
  · show s.nextRegion < s₁.nextRegion
    omega
  · rw [hj.avail x, hY.avail x, hlo₂, hhi₂, not_false_eq_true, and_true]
    rfl

/-! ## `ReleaseRegion` -/

section Release

variable {r : Nat} (hw : s.WellFormed) (hr : r ∈ s.allocatedByBase)

include hw hr in
/-- Releasing a handed-out region joins it to the available regions. -/
theorem releaseRegion_joined :
    Joined { s with allocatedByBase := s.allocatedByBase.erase r } (s.ReleaseRegion r) r := by
  have ht : ({ s with allocatedByBase := s.allocatedByBase.erase r } : RegionAllocator).AvailTrees :=
    hw.trees.congr rfl rfl rfl
  have hne := hw.allocatedIncreasing.nonempty r hr
  -- nothing handed out meets an available point
  exact addRegionToAvail_joined .no ht (fun h => hw.distinct r h hr) hne fun _ i hi =>
    separated_of_not_availAt ht hne hi fun x hx hax => hw.apart x ⟨r, hr, hx⟩ hax

include hw hr in
/-- The objects still handed out keep their fields. -/
theorem releaseRegion_obj {i : Nat} (hi : i ∈ s.allocatedByBase.erase r) :
    (s.ReleaseRegion r).obj i = s.obj i :=
  (releaseRegion_joined hw hr).obj i fun h =>
    (hw.allocatedIncreasing.nodup.mem_erase_iff.mp (h ▸ hi)).1 rfl

include hw hr in
theorem releaseRegion_availAt (x : Nat) :
    (s.ReleaseRegion r).AvailAt x ↔ s.AvailAt x ∨ Holds s.lo s.hi r x :=
  (releaseRegion_joined hw hr).avail x

include hw hr in
theorem releaseRegion_allocatedAt (x : Nat) :
    (s.ReleaseRegion r).AllocatedAt x ↔ s.AllocatedAt x ∧ ¬ Holds s.lo s.hi r x := by
  rw [AllocatedAt, (releaseRegion_joined hw hr).allocated]
  rw [covered_of_obj_eq fun i hi => releaseRegion_obj hw hr hi]
  exact hw.allocatedIncreasing.covered_erase hr

include hw hr in
/-- Releasing a handed-out region keeps the invariant. -/
theorem WellFormed.releaseRegion : (s.ReleaseRegion r).WellFormed := by
  have hj := releaseRegion_joined hw hr
  have hobj := fun i (hi : i ∈ s.allocatedByBase.erase r) => releaseRegion_obj hw hr hi
  have halloc : (s.ReleaseRegion r).allocatedByBase = s.allocatedByBase.erase r := hj.allocated
  have hrwrap := hw.allocatedNoWrap r hr
  refine ⟨hj.trees, hj.trees.noWrap fun x hx => ?_, ?_, fun i hi => ?_, fun x hx hax => ?_,
    fun i hi hia => ?_, fun i hi => ?_⟩
  · rcases (releaseRegion_availAt hw hr x).mp hx with hx | hx
    · exact hw.availAt_lt hx
    · have := hx.2
      omega
  · rw [halloc]
    exact increasing_of_obj_eq (hw.allocatedIncreasing.sublist (List.erase_sublist)) hobj
  · rw [halloc] at hi
    rw [show (s.ReleaseRegion r).hi i = s.hi i from congrArg Region.end (hobj i hi)]
    exact hw.allocatedNoWrap i (List.mem_of_mem_erase hi)
  · obtain ⟨hl, hnr⟩ := (releaseRegion_allocatedAt hw hr x).mp hx
    rcases (releaseRegion_availAt hw hr x).mp hax with ha | ha
    · exact hw.apart x hl ha
    · exact hnr ha
  · rw [halloc] at hia
    obtain ⟨hir, hia⟩ := hw.allocatedIncreasing.nodup.mem_erase_iff.mp hia
    rcases hj.mem i hi with rfl | hi
    · exact hir rfl
    · exact hw.distinct i hi hia
  · rw [hj.nextRegion]
    rcases hi with hi | hi
    · rcases hj.mem i hi with rfl | hi
      · exact hw.fresh i (.inr hr)
      · exact hw.fresh i (.inl hi)
    · rw [halloc] at hi
      exact hw.fresh i (.inr (List.mem_of_mem_erase hi))

end Release

end RegionAllocator

end Zircon.RegionAlloc
