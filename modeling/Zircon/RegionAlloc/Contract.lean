import Zircon.RegionAlloc.Add

/-!
# The allocator over whole runs

A run of a `RegionAllocator` starts from an empty allocator over a pool and
makes any sequence of calls: `AddRegion` and `SubtractRegion` in either mode,
both `GetRegion`s, and `ReleaseRegion` of a region handed out and not yet
released. Each call keeps `WellFormed`, so every reachable state has it.

Read as two sets of points, the available `AvailAt` and the handed-out
`AllocatedAt`, each call does what its contract says to them; and a call that
fails changes neither.
-/

namespace Zircon.RegionAlloc

open SortedIndex Runs

namespace RegionAllocator

variable {s : RegionAllocator}

/-- One call on the allocator. The sizes of `AddRegion` and `SubtractRegion`
are `uint64_t`s; `ReleaseRegion` is called on a region handed out and not yet
released. -/
inductive Step : RegionAllocator → RegionAllocator → Prop
  | addRegion (s : RegionAllocator) (region : Region) (mode : AllowOverlap) :
      region.size < 2 ^ 64 → Step s (s.AddRegion region mode).1
  | subtractRegion (s : RegionAllocator) (region : Region) (mode : AllowIncomplete) :
      region.size < 2 ^ 64 → Step s (s.SubtractRegion region mode).1
  | getRegion (s : RegionAllocator) (size alignment : Nat) : Step s (s.GetRegion size alignment).1
  | getRegionAt (s : RegionAllocator) (requested : Region) : Step s (s.GetRegionAt requested).1
  | releaseRegion (s : RegionAllocator) (r : Nat) : r ∈ s.allocatedByBase → Step s (s.ReleaseRegion r)

/-- The states a run reaches from an empty allocator over a pool. -/
inductive Reachable : RegionAllocator → Prop
  | create (capacity : Nat) : Reachable (create capacity)
  | step {s s' : RegionAllocator} : Reachable s → Step s s' → Reachable s'

/-- Two states with the same available and the same handed-out points. -/
def SamePoints (s s' : RegionAllocator) : Prop :=
  (∀ x, s'.AvailAt x ↔ s.AvailAt x) ∧ ∀ x, s'.AllocatedAt x ↔ s.AllocatedAt x

/-! ## One call -/

section Calls

variable (hw : s.WellFormed)
include hw

/-- A change of the available trees that takes nothing out moves no point. -/
theorem samePoints_of_subtracted {s' : RegionAllocator} (h : Subtracted s s' fun _ => False) :
    SamePoints s s' :=
  ⟨fun x => by rw [h.avail x, not_false_eq_true, and_true], hw.allocatedAt_of_availEdit h.edit⟩

theorem addRegion_ok {region : Region} (hs : region.size < 2 ^ 64) {mode : AllowOverlap}
    (hok : (s.AddRegion region mode).2 = .ok ()) :
    (∀ x, (s.AddRegion region mode).1.AvailAt x ↔ s.AvailAt x ∨ region.Covers x) ∧
      ∀ x, (s.AddRegion region mode).1.AllocatedAt x ↔ s.AllocatedAt x := by
  rcases addRegion_spec hw hs mode with ⟨e, he⟩ | ⟨-, -, ha, -⟩
  · rw [he] at hok
    cases hok
  · exact ⟨ha.avail, hw.allocatedAt_of_availEdit ha.edit⟩

theorem addRegion_error {region : Region} (hs : region.size < 2 ^ 64) {mode : AllowOverlap} {e : Error}
    (herr : (s.AddRegion region mode).2 = .error e) : (s.AddRegion region mode).1 = s := by
  rcases addRegion_spec hw hs mode with ⟨e', he⟩ | ⟨hok, -⟩
  · rw [he]
  · rw [hok] at herr
    cases herr

theorem subtractRegion_ok {region : Region} (hs : region.size < 2 ^ 64) {mode : AllowIncomplete}
    (hok : (s.SubtractRegion region mode).2 = .ok ()) :
    (∀ x, (s.SubtractRegion region mode).1.AvailAt x ↔ s.AvailAt x ∧ ¬ region.Covers x) ∧
      (∀ x, (s.SubtractRegion region mode).1.AllocatedAt x ↔ s.AllocatedAt x) ∧
      (mode = .no → ∀ x, region.Covers x → s.AvailAt x) := by
  rcases subtractRegion_spec hw.trees (fun i hi => hw.fresh i (.inl hi)) hw.allocatedIncreasing hs mode
    with ⟨e, he⟩ | ⟨-, -, hsub, hno⟩
  · rw [he] at hok
    cases hok
  · exact ⟨hsub.avail, hw.allocatedAt_of_availEdit hsub.edit, hno⟩

theorem subtractRegion_error {region : Region} (hs : region.size < 2 ^ 64) {mode : AllowIncomplete}
    {e : Error} (herr : (s.SubtractRegion region mode).2 = .error e) :
    (s.SubtractRegion region mode).1 = s := by
  rcases subtractRegion_spec hw.trees (fun i hi => hw.fresh i (.inl hi)) hw.allocatedIncreasing hs mode
    with ⟨e', he⟩ | ⟨hok, -⟩
  · rw [he]
  · rw [hok] at herr
    cases herr

/-- `AddRegion` and `SubtractRegion` reject an empty region, one that wraps
and one that meets a handed-out region, and change nothing. -/
theorem addSubtract_rejects {region : Region} (hs : region.size < 2 ^ 64)
    (hbad : region.size = 0 ∨ 2 ^ 64 ≤ region.end ∨ ∃ x, region.Covers x ∧ s.AllocatedAt x) :
    (∀ mode, s.AddRegion region mode = (s, .error .invalidArgs)) ∧
      ∀ mode, s.SubtractRegion region mode = (s, .error .invalidArgs) := by
  have hsan := addSubtractSanityCheckLocked_eq_error hw.allocatedIncreasing hs fun ⟨hne, hend, hL⟩ => by
    rcases hbad with h0 | hwrap | ⟨x, hx, hl⟩
    · omega
    · omega
    · exact hL x hx hl
  exact ⟨fun _ => by simp only [AddRegion, hsan], fun _ => by simp only [SubtractRegion, hsan]⟩

theorem getRegion_error {size alignment : Nat} {e : Error}
    (herr : (s.GetRegion size alignment).2 = .error e) : SamePoints s (s.GetRegion size alignment).1 := by
  rcases getRegion_spec hw.trees (fun i hi => hw.fresh i (.inl hi)) size alignment
    with ⟨e', he⟩ | ⟨-, hsub⟩ | ⟨r, t, base, he, -⟩
  · rw [he]
    exact ⟨fun _ => Iff.rfl, fun _ => Iff.rfl⟩
  · exact samePoints_of_subtracted hw hsub
  · rw [he] at herr
    cases herr

theorem getRegionAt_error {requested : Region} {e : Error}
    (herr : (s.GetRegionAt requested).2 = .error e) : SamePoints s (s.GetRegionAt requested).1 := by
  rcases getRegionAt_spec hw.trees (fun i hi => hw.fresh i (.inl hi)) requested
    with ⟨e', he⟩ | ⟨-, hsub⟩ | ⟨r, t, he, -⟩
  · rw [he]
    exact ⟨fun _ => Iff.rfl, fun _ => Iff.rfl⟩
  · exact samePoints_of_subtracted hw hsub
  · rw [he] at herr
    cases herr

/-- A `GetRegion(requested)` that succeeds moves `requested`, all of it
available before, to the handed-out points. -/
theorem getRegionAt_ok {requested : Region} {r : Nat} (hok : (s.GetRegionAt requested).2 = .ok r) :
    (∀ x, requested.Covers x → s.AvailAt x) ∧
      (∀ x, (s.GetRegionAt requested).1.AvailAt x ↔ s.AvailAt x ∧ ¬ requested.Covers x) ∧
      ∀ x, (s.GetRegionAt requested).1.AllocatedAt x ↔ s.AllocatedAt x ∨ requested.Covers x := by
  rcases getRegionAt_spec hw.trees (fun i hi => hw.fresh i (.inl hi)) requested
    with ⟨e, he⟩ | ⟨herr, -⟩ | ⟨r', t, he, hd⟩
  · rw [he] at hok
    cases hok
  · rw [herr] at hok
    cases hok
  · rw [he]
    exact ⟨hd.within, hd.availAt, hd.allocatedAt hw⟩

end Calls

/-! ## Whole runs -/

/-- Every call keeps the invariant. -/
theorem wellFormed_step {s' : RegionAllocator} (hw : s.WellFormed) (hs : Step s s') : s'.WellFormed := by
  have hfresh : ∀ i ∈ s.availByBase, i < s.nextRegion := fun i hi => hw.fresh i (.inl hi)
  cases hs with
  | addRegion region mode hsz =>
    rcases addRegion_spec hw hsz mode with ⟨e, he⟩ | ⟨-, hsan, ha, -⟩
    · rw [he]
      exact hw
    · -- the sanity check has passed: `region` meets no handed-out point and does not wrap
      obtain ⟨-, hend, hL⟩ := (addSubtractSanityCheckLocked_eq_ok hw.allocatedIncreasing hsz).mp hsan
      refine hw.added ha fun x hx => ⟨hL x hx, ?_⟩
      simp only [Region.Covers, Region.end] at hx hend
      omega
  | subtractRegion region mode hsz =>
    rcases subtractRegion_spec hw.trees hfresh hw.allocatedIncreasing hsz mode with ⟨e, he⟩ | ⟨-, -, hsub, -⟩
    · rw [he]
      exact hw
    · exact hw.subtracted hsub
  | getRegion size alignment =>
    rcases getRegion_spec hw.trees hfresh size alignment with ⟨e, he⟩ | ⟨-, hsub⟩ | ⟨r, t, base, he, hd⟩
    · rw [he]
      exact hw
    · exact hw.subtracted hsub
    · rw [he]
      exact hw.handed hd
  | getRegionAt requested =>
    rcases getRegionAt_spec hw.trees hfresh requested with ⟨e, he⟩ | ⟨-, hsub⟩ | ⟨r, t, he, hd⟩
    · rw [he]
      exact hw
    · exact hw.subtracted hsub
    · rw [he]
      exact hw.handed hd
  | releaseRegion r hr => exact hw.releaseRegion hr

/-- Every reachable state is well formed. -/
theorem Reachable.wellFormed (h : Reachable s) : s.WellFormed := by
  induction h with
  | create capacity => exact wellFormed_create capacity
  | step _ hs ih => exact wellFormed_step ih hs

/-- The representation invariant over whole runs: the available regions are
non-empty, in order of base with a gap between any two, and do not wrap; the
by-size tree holds the regions of the by-base tree; the handed-out regions
are non-empty and disjoint; and none of them meets an available point. -/
theorem reachable_invariant (h : Reachable s) :
    Gapped s.lo s.hi s.availByBase ∧ (∀ r ∈ s.availByBase, s.hi r < 2 ^ 64) ∧
      s.availBySize.Perm s.availByBase ∧ Increasing s.lo s.hi s.allocatedByBase ∧
      ∀ x, s.AllocatedAt x → ¬ s.AvailAt x := by
  have hw := h.wellFormed
  exact ⟨hw.trees.gapped, hw.availNoWrap, hw.trees.perm, hw.allocatedIncreasing, hw.apart⟩

/-- A run adding `[0, 0x100)` to an allocator over a pool of one object. -/
theorem reachable_invariant_addRegion :
    Reachable ((create 1).AddRegion ⟨0, 0x100⟩ .no).1 ∧
      Gapped ((create 1).AddRegion ⟨0, 0x100⟩ .no).1.lo ((create 1).AddRegion ⟨0, 0x100⟩ .no).1.hi
        ((create 1).AddRegion ⟨0, 0x100⟩ .no).1.availByBase := by
  have h : Reachable ((create 1).AddRegion ⟨0, 0x100⟩ .no).1 :=
    .step (.create 1) (.addRegion _ _ _ (by decide))
  exact ⟨h, (reachable_invariant h).1⟩

/-- The contract of each call over the available points `A` and the
handed-out points `L` of a reachable state. A successful `AddRegion` adds
`region` to `A`; a successful `SubtractRegion` takes it out, and without
`AllowIncomplete::Yes` succeeds only when it lay in `A`; a successful
`GetRegion(requested)` moves `requested`, which lay in `A`, to `L`, and a
non-empty `requested` in `A` makes it succeed unless the pool has no object
left; releasing a handed-out region moves it back; a call that fails leaves
`A` and `L` as they were; and `AddRegion` and `SubtractRegion` reject an empty
region, one that wraps and one that meets `L`. -/
theorem reachable_avail_allocated (h : Reachable s) :
    (∀ (region : Region) mode, region.size < 2 ^ 64 → (s.AddRegion region mode).2 = .ok () →
      (∀ x, (s.AddRegion region mode).1.AvailAt x ↔ s.AvailAt x ∨ region.Covers x) ∧
      ∀ x, (s.AddRegion region mode).1.AllocatedAt x ↔ s.AllocatedAt x) ∧
    (∀ (region : Region) mode, region.size < 2 ^ 64 → (s.SubtractRegion region mode).2 = .ok () →
      (∀ x, (s.SubtractRegion region mode).1.AvailAt x ↔ s.AvailAt x ∧ ¬ region.Covers x) ∧
      (∀ x, (s.SubtractRegion region mode).1.AllocatedAt x ↔ s.AllocatedAt x) ∧
      (mode = .no → ∀ x, region.Covers x → s.AvailAt x)) ∧
    (∀ (requested : Region) r, (s.GetRegionAt requested).2 = .ok r →
      (∀ x, requested.Covers x → s.AvailAt x) ∧
      (∀ x, (s.GetRegionAt requested).1.AvailAt x ↔ s.AvailAt x ∧ ¬ requested.Covers x) ∧
      ∀ x, (s.GetRegionAt requested).1.AllocatedAt x ↔ s.AllocatedAt x ∨ requested.Covers x) ∧
    (∀ requested : Region, 0 < requested.size → (∀ x, requested.Covers x → s.AvailAt x) →
      (∃ r, (s.GetRegionAt requested).2 = .ok r) ∨ (s.GetRegionAt requested).2 = .error .noMemory) ∧
    (∀ r ∈ s.allocatedByBase,
      (∀ x, (s.ReleaseRegion r).AvailAt x ↔ s.AvailAt x ∨ Holds s.lo s.hi r x) ∧
      ∀ x, (s.ReleaseRegion r).AllocatedAt x ↔ s.AllocatedAt x ∧ ¬ Holds s.lo s.hi r x) ∧
    (∀ (region : Region) mode e, region.size < 2 ^ 64 → (s.AddRegion region mode).2 = .error e →
      (s.AddRegion region mode).1 = s) ∧
    (∀ (region : Region) mode e, region.size < 2 ^ 64 → (s.SubtractRegion region mode).2 = .error e →
      (s.SubtractRegion region mode).1 = s) ∧
    (∀ size alignment e, (s.GetRegion size alignment).2 = .error e →
      SamePoints s (s.GetRegion size alignment).1) ∧
    (∀ requested e, (s.GetRegionAt requested).2 = .error e → SamePoints s (s.GetRegionAt requested).1) ∧
    (∀ region : Region, region.size < 2 ^ 64 →
      (region.size = 0 ∨ 2 ^ 64 ≤ region.end ∨ ∃ x, region.Covers x ∧ s.AllocatedAt x) →
      (∀ mode, s.AddRegion region mode = (s, .error .invalidArgs)) ∧
      ∀ mode, s.SubtractRegion region mode = (s, .error .invalidArgs)) := by
  have hw := h.wellFormed
  refine ⟨fun _ _ hs hok => addRegion_ok hw hs hok, fun _ _ hs hok => subtractRegion_ok hw hs hok,
    fun _ _ hok => getRegionAt_ok hw hok, fun _ hne hcov => getRegionAt_of_covered hw hne hcov,
    fun r hr => ⟨releaseRegion_availAt hw hr, releaseRegion_allocatedAt hw hr⟩,
    fun _ _ _ hs herr => addRegion_error hw hs herr, fun _ _ _ hs herr => subtractRegion_error hw hs herr,
    fun _ _ _ herr => getRegion_error hw herr, fun _ _ herr => getRegionAt_error hw herr,
    fun _ hs hbad => addSubtract_rejects hw hs hbad⟩

/-- On a pool of three objects, `AddRegion([0, 0x100))` makes `[0, 0x100)`
available, and `GetRegion([0, 0x10))` on the result then moves `[0, 0x10)` from
the available points to the handed-out ones. -/
theorem reachable_avail_allocated_getRegionAt :
    Reachable ((create 3).AddRegion ⟨0, 0x100⟩ .no).1 ∧
      (∀ x, ((create 3).AddRegion ⟨0, 0x100⟩ .no).1.AvailAt x ↔ (create 3).AvailAt x ∨ (⟨0, 0x100⟩ : Region).Covers x) ∧
      (∀ x, (((create 3).AddRegion ⟨0, 0x100⟩ .no).1.GetRegionAt ⟨0, 0x10⟩).1.AvailAt x ↔
        ((create 3).AddRegion ⟨0, 0x100⟩ .no).1.AvailAt x ∧ ¬ (⟨0, 0x10⟩ : Region).Covers x) ∧
      ∀ x, (((create 3).AddRegion ⟨0, 0x100⟩ .no).1.GetRegionAt ⟨0, 0x10⟩).1.AllocatedAt x ↔
        ((create 3).AddRegion ⟨0, 0x100⟩ .no).1.AllocatedAt x ∨ (⟨0, 0x10⟩ : Region).Covers x := by
  have hadd : ((create 3).AddRegion ⟨0, 0x100⟩ .no).2 = .ok () := by decide
  have hr : Reachable ((create 3).AddRegion ⟨0, 0x100⟩ .no).1 := .step (.create 3) (.addRegion _ _ _ (by decide))
  obtain ⟨r, hget⟩ : ∃ r, (((create 3).AddRegion ⟨0, 0x100⟩ .no).1.GetRegionAt ⟨0, 0x10⟩).2 = .ok r := ⟨_, rfl⟩
  obtain ⟨hadded, -⟩ := (reachable_avail_allocated (.create 3)).1 ⟨0, 0x100⟩ .no (by decide) hadd
  obtain ⟨-, havail, halloc⟩ := (reachable_avail_allocated hr).2.2.1 ⟨0, 0x10⟩ r hget
  exact ⟨hr, hadded, havail, halloc⟩

/-- After `AddRegion([0, 0x100))` on a pool of one object, `[0x10, 0x20)` is
available, yet `GetRegion` of it fails: cutting it out of the middle of
`[0, 0x100)` needs two more objects. -/
theorem getRegionAt_covered_noMemory :
    Reachable ((create 1).AddRegion ⟨0, 0x100⟩ .no).1 ∧
      (∀ x, (⟨0x10, 0x10⟩ : Region).Covers x → ((create 1).AddRegion ⟨0, 0x100⟩ .no).1.AvailAt x) ∧
      (((create 1).AddRegion ⟨0, 0x100⟩ .no).1.GetRegionAt ⟨0x10, 0x10⟩).2 = .error .noMemory := by
  refine ⟨.step (.create 1) (.addRegion _ _ _ (by decide)), fun x hx => ⟨0, by decide, ?_⟩, rfl⟩
  have hobj : ((create 1).AddRegion ⟨0, 0x100⟩ .no).1.obj 0 = ⟨0, 0x100⟩ := rfl
  simp only [Holds, lo, hi, hobj, Region.Covers, Region.end] at hx ⊢
  omega

end RegionAllocator

end Zircon.RegionAlloc
