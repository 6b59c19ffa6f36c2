import Zircon.RegionAlloc.Subtract

/-!
# Handing out regions

`AllocFromAvailLocked` hands out `[base, base + size)` of an available region
`source`: whole, or split off its front or back with one new object, or cut
out of its middle with two. Only the objects can run out, and then nothing
has moved. Both `GetRegion`s end in it: by size and alignment after a search
of the by-size tree, or at a requested place after a lookup in the by-base
tree.
-/

namespace Zircon.RegionAlloc

open SortedIndex Runs

namespace RegionAllocator

variable {s : RegionAllocator}

/-- What `AllocFromAvailLocked` leaves before its last step, which puts `r`
into the handed-out tree: the points of the non-empty `region` were available
and have left the available regions, and `r`, in neither available tree,
stands for them. -/
structure Handed (s t : RegionAllocator) (r : Nat) (region : Region) : Prop where
  nonempty : 0 < region.size
  within : ∀ x, region.Covers x → s.AvailAt x
  sub : Subtracted s t region.Covers
  obj : t.obj r = region
  notAvail : r ∉ t.availByBase
  origin : r ∈ s.availByBase ∨ s.nextRegion ≤ r ∧ r < t.nextRegion

/-- Cutting the available region `source` down to `v`, where an object just
taken from the pool stands for the part `w` that is cut off. -/
theorem handed_cut (h : s.AvailTrees) (hfresh : ∀ i ∈ s.availByBase, i < s.nextRegion)
    {source n : Nat} {s₁ : RegionAllocator} (hsrc : source ∈ s.availByBase)
    (hcr : s.CreateRegion = some (n, s₁)) {v w : Region} (hlo : s.lo source ≤ v.base)
    (hhi : v.end ≤ s.hi source) (hne : v.base < v.end) (hwne : 0 < w.size)
    (hw : ∀ x, Holds s.lo s.hi source x ∧ ¬ (v.base ≤ x ∧ x < v.end) ↔ w.Covers x) :
    Handed s ((((s₁.eraseAvailSize source).setObj n w).setObj source v).insertAvailSize source) n w := by
  have hfr : s.nextRegion ∉ s.availByBase := fun hm => (hfresh _ hm).false
  have hsn : source ≠ s.nextRegion := ne_of_mem_of_not_mem hsrc hfr
  have h₀ := subtracted_create h hcr
  obtain ⟨-, rfl, hnext₁, ho₁, hb₁, -⟩ := availEdit_create hcr
  have hY := h₀.setObj le_rfl (hb₁ ▸ hfr) w
  -- the new object leaves the bounds of `source` as they were
  have hlo' : (s₁.setObj s.nextRegion w).lo source = s.lo source := by
    rw [lo_setObj, if_neg hsn]
    exact congrArg (fun f => (f source).base) ho₁
  have hhi' : (s₁.setObj s.nextRegion w).hi source = s.hi source := by
    rw [hi_setObj, if_neg hsn]
    exact congrArg (fun f => (f source).end) ho₁
  refine ⟨hwne, fun x hx => ⟨source, hsrc, ((hw x).mpr hx).1⟩,
    (hY.trans (subtracted_shrink hY.trees (hb₁ ▸ hsrc) (hlo' ▸ hlo) (hhi' ▸ hhi) hne)).congr
    fun x _ => ?_, ?_, ?_, .inr ⟨le_rfl, ?_⟩⟩
  · simp only [Holds, false_or]
    rw [hlo', hhi']
    exact hw x
  · rw [obj_insertAvailSize, setObj_obj_of_ne hsn.symm, setObj_obj_self]
  · show s.nextRegion ∉ s₁.availByBase
    rw [hb₁]
    exact hfr
  · show s.nextRegion < s₁.nextRegion
    omega

/-- The three-way split: `source` keeps its front `v`, an object just taken
from the pool stands for the middle `w`, and a second one takes the back `u`
into the available trees. -/
theorem handed_split (h : s.AvailTrees) (hfresh : ∀ i ∈ s.availByBase, i < s.nextRegion)
    {source n m : Nat} {s₁ s₂ : RegionAllocator} (hsrc : source ∈ s.availByBase)
    (hcr : s.CreateRegion = some (n, s₁)) (hcr₂ : s₁.CreateRegion = some (m, s₂)) {v w u : Region}
    (hv : v.base = s.lo source) (hu : u.end = s.hi source) (hlt₁ : v.base < v.end)
    (hvw : v.end = w.base) (hwu : w.end = u.base) (hne : w.base < w.end) (hlt₂ : u.base < u.end) :
    Handed s (((((((s₂.eraseAvailSize source).setObj n w).setObj m u).setObj source v).insertAvailSize
      source).insertAvailSize m).insertAvailBase m) n w := by
  have hfr : s.nextRegion ∉ s.availByBase := fun hm => (hfresh _ hm).false
  have hsn : source ≠ s.nextRegion := ne_of_mem_of_not_mem hsrc hfr
  have h₀ := subtracted_create h hcr
  obtain ⟨-, rfl, hnext₁, ho₁, hb₁, -⟩ := availEdit_create hcr
  have h₀₂ := subtracted_create h₀.trees hcr₂
  obtain ⟨-, rfl, hnext₂, ho₂, hb₂, hz₂⟩ := availEdit_create hcr₂
  -- both new objects lie past every available region
  have hfr₂ : s₁.nextRegion ∉ s.availByBase := fun hm => by
    have := hfresh _ hm
    omega
  have hms : s₁.nextRegion ≠ source := ne_of_mem_of_not_mem hsrc hfr₂ |>.symm
  have hb₂' : s₂.availByBase = s.availByBase := hb₂.trans hb₁
  have hY : Subtracted s (s₂.setObj s.nextRegion w) fun _ => False :=
    ((h₀.trans h₀₂).congr fun _ _ => or_self_iff).setObj le_rfl (by rw [hb₂']; exact hfr) w
  have hlo' : (s₂.setObj s.nextRegion w).lo source = s.lo source := by
    rw [lo_setObj, if_neg hsn]
    exact congrArg (fun f => (f source).base) (ho₂.trans ho₁)
  have hhi' : (s₂.setObj s.nextRegion w).hi source = s.hi source := by
    rw [hi_setObj, if_neg hsn]
    exact congrArg (fun f => (f source).end) (ho₂.trans ho₁)
  -- the back object goes into the trees after `source` is written, as in `subtracted_split`
  have hmZ : s₁.nextRegion ∉ ((((s₂.eraseAvailSize source).setObj s.nextRegion w).setObj source
      v)).availBySize := fun hm =>
    hfr₂ (hb₂' ▸ hY.trees.perm.subset (List.mem_of_mem_erase hm))
  have hmA : s₁.nextRegion ∉ (s₂.setObj s.nextRegion w).availByBase := by
    show s₁.nextRegion ∉ s₂.availByBase
    rw [hb₂']
    exact hfr₂
  rw [setObj_comm hms, insertAvailSize_setObj hms hmZ, insertAvailSize_insertAvailBase]
  refine ⟨by simp only [Region.end] at hne; omega, fun x hx => ⟨source, hsrc, ?_⟩,
    (subtracted_split hY (hb₂' ▸ hsrc) ⟨?_, ?_⟩ hmA (hv.trans hlo'.symm)
    (hu.trans hhi'.symm) hlt₁ (by omega) hlt₂).congr fun x _ => ?_, ?_, ?_, .inr ⟨le_rfl, ?_⟩⟩
  · simp only [Region.Covers, Holds] at hx ⊢
    omega
  · show s.nextRegion ≤ s₁.nextRegion
    omega
  · show s₁.nextRegion < s₂.nextRegion
    omega
  · simp only [Region.Covers]
    omega
  · have hnm : s.nextRegion ≠ s₁.nextRegion := by omega
    rw [obj_insertAvailSize, obj_insertAvailBase, setObj_obj_of_ne hnm, obj_insertAvailSize,
      setObj_obj_of_ne hsn.symm, setObj_obj_self]
  · show s.nextRegion ∉ insertSorted _ _ s₁.nextRegion s₂.availByBase
    rw [mem_insertSorted, hb₂', not_or]
    exact ⟨by omega, hfr⟩
  · show s.nextRegion < s₂.nextRegion
    omega

/-- `AllocFromAvailLocked` on a part `[base, base + size)` of the available
region `source`: it runs out of objects and moves nothing, or hands the part
out as a region `r` of its own. -/
theorem allocFromAvail_spec (h : s.AvailTrees) (hfresh : ∀ i ∈ s.availByBase, i < s.nextRegion)
    {source base size : Nat} (hsrc : source ∈ s.availByBase) (hlo : s.lo source ≤ base)
    (hhi : base + size ≤ s.hi source) (hne : 0 < size) :
    ((s.AllocFromAvailLocked source base size).2 = .error .noMemory ∧
        Subtracted s (s.AllocFromAvailLocked source base size).1 fun _ => False) ∨
      ∃ r t, s.AllocFromAvailLocked source base size = (t.insertAllocated r, .ok r) ∧
        Handed s t r ⟨base, size⟩ := by
  have hnomem : Subtracted s s fun _ => False := subtracted_refl h fun _ _ => id
  simp only [lo, hi, Region.end] at hlo hhi
  generalize hres : s.AllocFromAvailLocked source base size = res
  simp only [AllocFromAvailLocked] at hres
  split_ifs at hres with h₁ h₂ h₃
  · -- no split: `source` itself is handed out
    subst hres
    right
    refine ⟨source, (s.eraseAvailSize source).eraseAvailBase source, rfl,
      ⟨hne, fun x hx => ⟨source, hsrc, ?_⟩, (subtracted_take h hsrc).congr fun x _ => ?_, ?_, ?_,
        .inl hsrc⟩⟩
    · simp only [Holds, Region.Covers, Region.end, lo, hi] at *
      omega
    · simp only [Holds, Region.Covers, Region.end, lo, hi] at *
      omega
    · show s.obj source = ⟨base, size⟩
      rw [show base = (s.obj source).base by omega, show size = (s.obj source).size by omega]
    · exact fun hm => (h.gapped.nodup.mem_erase_iff.mp hm).1 rfl
  · -- a three-way split: one new object takes the middle, another the back
    split at hres
    · subst hres
      exact .inl ⟨rfl, hnomem⟩
    · next s₁ hcr =>
      have h₀ := subtracted_create h hcr
      obtain ⟨-, rfl, hnext₁, ho₁, hb₁, -⟩ := availEdit_create hcr
      split at hres
      · subst hres
        exact .inl ⟨rfl, h₀.destroy s.nextRegion⟩
      · next s₂ hcr₂ =>
        subst hres
        have e : (⟨(s.obj source).base + (base - (s.obj source).base), size⟩ : Region) = ⟨base, size⟩ := by
          congr 1
          omega
        refine .inr ⟨_, _, rfl, e ▸ handed_split h hfresh hsrc hcr hcr₂ rfl ?_ ?_ rfl rfl ?_ ?_⟩
        all_goals
          simp only [Region.end, hi] at *
          omega
  · -- split before: a new object takes the back of `source`
    split at hres
    · subst hres
      exact .inl ⟨rfl, hnomem⟩
    · next s₁ hcr =>
      subst hres
      refine .inr ⟨_, _, rfl, handed_cut h hfresh hsrc hcr ?_ ?_ ?_ hne fun x => ?_⟩
      all_goals
        simp only [Holds, Region.Covers, Region.end, lo, hi] at *
        omega
  · -- split after: a new object takes the front of `source`
    obtain rfl : base = (s.obj source).base := not_not.mp h₂
    split at hres
    · subst hres
      exact .inl ⟨rfl, hnomem⟩
    · next s₁ hcr =>
      subst hres
      refine .inr ⟨_, _, rfl, handed_cut h hfresh hsrc hcr ?_ ?_ ?_ hne fun x => ?_⟩
      all_goals
        simp only [Holds, Region.Covers, Region.end, lo, hi] at *
        omega

/-! ## The invariant -/

/-- Putting into the handed-out tree an object in no tree, whose non-empty
region does not wrap and meets no handed-out or available point, keeps the
invariant. -/
theorem WellFormed.insertAllocated {t : RegionAllocator} (hw : t.WellFormed) {r : Nat}
    (hr : r ∉ t.availByBase) (hra : r ∉ t.allocatedByBase) (hn : r < t.nextRegion)
    (hne : t.lo r < t.hi r) (hwrap : t.hi r < 2 ^ 64)
    (hfree : ∀ x, Holds t.lo t.hi r x → ¬ t.AllocatedAt x ∧ ¬ t.AvailAt x) :
    (t.insertAllocated r).WellFormed where
  trees := hw.trees.congr rfl rfl rfl
  availNoWrap := hw.availNoWrap
  allocatedIncreasing := increasing_insertSorted hw.allocatedIncreasing hne fun i hi =>
    separated_of_not_holds (hw.allocatedIncreasing.nonempty i hi) hne fun x hx hrx =>
      (hfree x hrx).1 ⟨i, hi, hx⟩
  allocatedNoWrap i hi := by
    rcases mem_insertSorted.mp hi with rfl | hi
    · exact hwrap
    · exact hw.allocatedNoWrap i hi
  apart x hx hav := by
    obtain ⟨i, hi, hxi⟩ := hx
    rcases mem_insertSorted.mp hi with rfl | hi
    · exact (hfree x hxi).2 hav
    · exact hw.apart x ⟨i, hi, hxi⟩ hav
  distinct i hi hia := by
    rcases mem_insertSorted.mp hia with rfl | hia
    · exact hr hi
    · exact hw.distinct i hi hia
  fresh i hi := by
    rcases hi with hi | hi
    · exact hw.fresh i (.inl hi)
    · rcases mem_insertSorted.mp hi with rfl | hi
      · exact hn
      · exact hw.fresh i (.inr hi)

section Handed

variable {t : RegionAllocator} {r : Nat} {region : Region}

theorem Handed.holds (hd : Handed s t r region) (x : Nat) : Holds t.lo t.hi r x ↔ region.Covers x := by
  simp only [Holds, lo, hi, hd.obj]
  rfl

/-- Handing a region out takes its points out of the available ones. -/
theorem Handed.availAt (hd : Handed s t r region) (x : Nat) :
    (t.insertAllocated r).AvailAt x ↔ s.AvailAt x ∧ ¬ region.Covers x :=
  hd.sub.avail x

/-- Handing a region out adds its points to the handed-out ones. -/
theorem Handed.allocatedAt (hw : s.WellFormed) (hd : Handed s t r region) (x : Nat) :
    (t.insertAllocated r).AllocatedAt x ↔ s.AllocatedAt x ∨ region.Covers x := by
  show Covered t.lo t.hi (insertSorted _ _ r t.allocatedByBase) x ↔ _
  rw [covered_perm (insertSorted_perm r _), covered_cons, hd.holds x, or_comm]
  exact or_congr_left (hw.allocatedAt_of_availEdit hd.sub.edit x)

/-- Handing a region out keeps the invariant. -/
theorem WellFormed.handed (hw : s.WellFormed) (hd : Handed s t r region) :
    (t.insertAllocated r).WellFormed := by
  have ht : t.WellFormed := hw.availEdit hd.sub.edit hd.sub.trees (R := fun _ => False)
    (fun x hx => .inl ((hd.sub.avail x).mp hx).1) fun _ hx => hx.elim
  -- the last point of `region` is available, so it lies below `2 ^ 64 - 1`
  have hlast := hw.availAt_lt (hd.within (region.end - 1) (by
    have := hd.nonempty
    simp only [Region.Covers, Region.end]
    omega))
  refine ht.insertAllocated hd.notAvail ?_ ?_ ?_ ?_ fun x hx => ?_
  · rw [hd.sub.edit.allocated]
    rcases hd.origin with ho | ho
    · exact hw.distinct r ho
    · exact fun hra => absurd (hw.fresh r (.inr hra)) (Nat.not_lt_of_le ho.1)
  · rcases hd.origin with ho | ho
    · exact (hw.fresh r (.inl ho)).trans_le hd.sub.edit.nextRegion
    · exact ho.2
  · have := hd.nonempty
    simp only [lo, hi, hd.obj, Region.end]
    omega
  · simp only [hi, hd.obj, Region.end] at hlast ⊢
    omega
  · rw [hd.holds] at hx
    have ha := hd.within x hx
    exact ⟨fun hl => hw.apart x ((hw.allocatedAt_of_availEdit hd.sub.edit x).mp hl) ha,
      fun hat => ((hd.sub.avail x).mp hat).2 hx⟩

end Handed

/-! ## `GetRegion` -/

/-- The search along the by-size tree returns a region of the list and an
aligned base past its start that leaves room for `size`. -/
theorem findFit_spec {size mask : Nat} {l : List Nat} {r alignedBase : Nat}
    (h : s.findFit size mask l = some (r, alignedBase)) :
    r ∈ l ∧ s.lo r ≤ alignedBase ∧ alignedBase - s.lo r ≤ (s.obj r).size - size := by
  induction l with
  | nil => simp [findFit] at h
  | cons j rest ih =>
    simp only [findFit] at h
    split_ifs at h with hfit
    · simp only [Option.some.injEq, Prod.mk.injEq] at h
      obtain ⟨rfl, rfl⟩ := h
      exact ⟨List.mem_cons_self, hfit⟩
    · obtain ⟨hr, hrest⟩ := ih h
      exact ⟨List.mem_cons_of_mem j hr, hrest⟩

/-- `GetRegion(size, alignment)` fails and changes nothing, runs out of
objects, or hands out `size` units of an available region. -/
theorem getRegion_spec (h : s.AvailTrees) (hfresh : ∀ i ∈ s.availByBase, i < s.nextRegion)
    (size alignment : Nat) :
    (∃ e, s.GetRegion size alignment = (s, .error e)) ∨
      ((s.GetRegion size alignment).2 = .error .noMemory ∧
        Subtracted s (s.GetRegion size alignment).1 fun _ => False) ∨
      ∃ r t base, s.GetRegion size alignment = (t.insertAllocated r, .ok r) ∧
        Handed s t r ⟨base, size⟩ := by
  generalize hres : s.GetRegion size alignment = res
  simp only [GetRegion] at hres
  split_ifs at hres with hbad
  · exact .inl ⟨_, hres.symm⟩
  split at hres
  · exact .inl ⟨_, hres.symm⟩
  next r alignedBase hfit =>
    obtain ⟨hrc, hlo, hover⟩ := findFit_spec hfit
    have hrA : r ∈ s.availByBase := h.perm.subset ((List.dropWhile_suffix _).subset hrc)
    -- past `lower_bound` every region is at least `size` long
    have hsize : size ≤ (s.obj r).size := by
      have := h.sorted.not_lt_of_mem_dropWhile sizeLt_trans hrc
      rw [← Bool.not_eq_true, sizeLt_iff] at this
      dsimp only at this
      omega
    rcases allocFromAvail_spec h hfresh hrA hlo (by simp only [lo, hi, Region.end] at *; omega)
      (show 0 < size by omega) with hm | ⟨r', t, hres', hd⟩
    · subst hres
      exact .inr (.inl hm)
    · exact .inr (.inr ⟨r', t, alignedBase, hres ▸ hres', hd⟩)

/-- `GetRegion(requested)` fails and changes nothing, runs out of objects,
or hands out exactly `requested`. -/
theorem getRegionAt_spec (h : s.AvailTrees) (hfresh : ∀ i ∈ s.availByBase, i < s.nextRegion)
    (requested : Region) :
    (∃ e, s.GetRegionAt requested = (s, .error e)) ∨
      ((s.GetRegionAt requested).2 = .error .noMemory ∧
        Subtracted s (s.GetRegionAt requested).1 fun _ => False) ∨
      ∃ r t, s.GetRegionAt requested = (t.insertAllocated r, .ok r) ∧ Handed s t r requested := by
  generalize hres : s.GetRegionAt requested = res
  simp only [GetRegionAt] at hres
  split_ifs at hres with hbad
  · exact .inl ⟨_, hres.symm⟩
  split at hres
  · exact .inl ⟨_, hres.symm⟩
  next r hlast =>
    split_ifs at hres with hend
    · exact .inl ⟨_, hres.symm⟩
    have hrA : r ∈ s.availByBase := by
      rw [(splitAtBase_spec h.gapped requested.base).1]
      exact List.mem_append_left _ (List.mem_of_getLast? hlast)
    have hlo := (splitAtBase_spec h.gapped requested.base).2.1 r (List.mem_of_getLast? hlast)
    have hr := h.gapped.nonempty r hrA
    rcases allocFromAvail_spec h hfresh hrA hlo (by simp only [lo, hi, Region.end] at *; omega)
      (show 0 < requested.size by omega) with hm | hok
    · subst hres
      exact .inr (.inl hm)
    · subst hres
      exact .inr (.inr hok)

/-- `GetRegion(requested)` on a non-empty range of available points finds it:
it can fail only for want of an object. -/
theorem getRegionAt_of_covered (hw : s.WellFormed) {requested : Region} (hne : 0 < requested.size)
    (hcov : ∀ x, requested.Covers x → s.AvailAt x) :
    (∃ r, (s.GetRegionAt requested).2 = .ok r) ∨ (s.GetRegionAt requested).2 = .error .noMemory := by
  have h := hw.trees
  have hfresh : ∀ i ∈ s.availByBase, i < s.nextRegion := fun i hi => hw.fresh i (.inl hi)
  -- the last point is available, so the range does not wrap
  have hend := hw.availAt_lt (hcov (requested.end - 1) (by
    simp only [Region.Covers, Region.end]
    omega))
  obtain ⟨r, hlast, hxr⟩ := splitAtBase_getLast_holds h.gapped
    (hcov requested.base (by simp only [Region.Covers, Region.end]; omega))
  have hrA : r ∈ s.availByBase := by
    rw [(splitAtBase_spec h.gapped requested.base).1]
    exact List.mem_append_left _ (List.mem_of_getLast? hlast)
  -- the range cannot run past `r`: the point just after `r` is not available
  have hrend : requested.end ≤ s.hi r := by
    refine Nat.le_of_not_lt fun hlt => h.gapped.not_covered_hi hrA (hcov _ ?_)
    simp only [Holds, Region.Covers] at hxr ⊢
    omega
  have hunfold : s.GetRegionAt requested = s.AllocFromAvailLocked r requested.base requested.size := by
    simp only [Holds, Region.end, lo, hi] at hxr hrend hend
    simp only [GetRegionAt, hlast]
    rw [if_neg (by omega), if_neg (by omega)]
  rw [hunfold]
  rcases allocFromAvail_spec h hfresh hrA hxr.1 hrend hne with ⟨hm, -⟩ | ⟨r', t, hres, -⟩
  · exact .inr hm
  · exact .inl ⟨r', by rw [hres]⟩

end RegionAllocator

end Zircon.RegionAlloc
