import Zircon.RegionAlloc.Invariant

/-!
# The three edits of the available trees

Every operation of the allocator edits its available regions in three ways
only: it takes a region out of both trees, shrinks one in place (out of the
by-size tree, new fields, back in at its new key, while the by-base tree keeps
it where it is), or puts a new object into a gap. Each is stated here once,
with what it does to the covered points, and the operations' proofs cite them.
-/

namespace Zircon.RegionAlloc

open SortedIndex Runs

namespace RegionAllocator

variable {s : RegionAllocator}

theorem AvailTrees.nodup_size (h : s.AvailTrees) : s.availBySize.Nodup :=
  h.perm.nodup_iff.mpr h.gapped.nodup

/-- Taking an available region out of both trees uncovers its points. -/
theorem AvailTrees.remove (h : s.AvailTrees) {j : Nat} (hj : j ∈ s.availByBase) :
    ((s.eraseAvailBase j).eraseAvailSize j).AvailTrees ∧
      ∀ x, ((s.eraseAvailBase j).eraseAvailSize j).AvailAt x ↔
        s.AvailAt x ∧ ¬ Holds s.lo s.hi j x :=
  ⟨⟨h.gapped.sublist List.erase_sublist, h.perm.erase j, h.sorted.sublist List.erase_sublist⟩,
    fun _ => h.gapped.increasing.covered_erase hj⟩

/-- Shrinking an available region within itself: the by-base tree keeps it
where it is, the by-size tree takes it back at its new key, and the points it
gave up are uncovered. -/
theorem AvailTrees.shrink (h : s.AvailTrees) {j : Nat} (hj : j ∈ s.availByBase) {v : Region}
    (hlo : s.lo j ≤ v.base) (hhi : v.end ≤ s.hi j) (hne : v.base < v.end) :
    (((s.eraseAvailSize j).setObj j v).insertAvailSize j).AvailTrees ∧
      ∀ x, (((s.eraseAvailSize j).setObj j v).insertAvailSize j).AvailAt x ↔
        s.AvailAt x ∧ ¬ (Holds s.lo s.hi j x ∧ ¬ (v.base ≤ x ∧ x < v.end)) := by
  -- only `j`'s fields change, and within its old extent
  have hother : ∀ i ∈ s.availByBase, i ≠ j →
      ((s.eraseAvailSize j).setObj j v).lo i = s.lo i ∧
        ((s.eraseAvailSize j).setObj j v).hi i = s.hi i := fun i _ hij => by
    simp [hij]
  have hgap : Gapped ((s.eraseAvailSize j).setObj j v).lo ((s.eraseAvailSize j).setObj j v).hi
      s.availByBase := by
    refine h.gapped.shrink (fun i hi => ?_) (fun i hi => ?_) (fun i hi => ?_)
    · by_cases hij : i = j
      · simp [hij, hlo]
      · exact ((hother i hi hij).1).ge
    · by_cases hij : i = j
      · simp [hij, hhi]
      · exact ((hother i hi hij).2).le
    · by_cases hij : i = j
      · simp [hij, hne]
      · rw [(hother i hi hij).1, (hother i hi hij).2]
        exact h.gapped.nonempty i hi
  have hmem : ∀ y ∈ s.availBySize.erase j, y ∈ s.availByBase ∧ y ≠ j := fun y hy =>
    ⟨h.perm.subset (List.erase_sublist.subset hy), (h.nodup_size.mem_erase_iff.mp hy).1⟩
  have hsorted : Sorted sizeLt ((s.eraseAvailSize j).setObj j v).obj
      (insertSorted sizeLt ((s.eraseAvailSize j).setObj j v).obj j (s.availBySize.erase j)) := by
    apply sorted_insertSorted sizeLt_trans
      ((h.sorted.sublist List.erase_sublist).congr fun y hy => setObj_obj_of_ne (hmem y hy).2)
    intro y hy hyj
    exact sizeLt_of_not_sizeLt (hgap.lo_ne (hmem y hy).1 hj (hmem y hy).2).symm hyj
  refine ⟨⟨hgap, ?_, hsorted⟩, fun x => ?_⟩
  · exact (insertSorted_perm j _).trans
      ((List.perm_cons_erase (h.perm.symm.subset hj)).symm.trans h.perm)
  · have hv : ∀ x, Holds ((s.eraseAvailSize j).setObj j v).lo ((s.eraseAvailSize j).setObj j v).hi j x ↔
        v.base ≤ x ∧ x < v.end := fun x => by simp [Holds]
    refine (h.gapped.increasing.covered_update hj hother fun x hx => ?_).trans ?_
    · have := (hv x).mp hx
      exact ⟨by omega, by omega⟩
    · rw [hv]
      rfl

/-- Putting a new object into a gap between the available regions: it goes
between those before it and those after it in the by-base tree. -/
theorem insertNew_spec (h : s.AvailTrees) {r : Nat} (hr : r ∉ s.availByBase) {v : Region}
    (hne : v.base < v.end) {P S : List Nat} (hB : s.availByBase = P ++ S)
    (hP : ∀ p ∈ P, s.hi p < v.base) (hS : ∀ q ∈ S, v.end < s.lo q) :
    (((s.setObj r v).insertAvailBase r).insertAvailSize r).availByBase = P ++ r :: S ∧
      (((s.setObj r v).insertAvailBase r).insertAvailSize r).AvailTrees := by
  have hrP : ∀ y ∈ P ++ S, y ≠ r := fun y hy => ne_of_mem_of_not_mem (hB ▸ hy) hr
  have hbase : ((s.setObj r v).insertAvailBase r).availByBase = P ++ r :: S := by
    simp only [insertAvailBase, setObj, hB]
    apply insertSorted_append
    · intro y hy
      have := hP y hy
      have := h.gapped.nonempty y (hB ▸ List.mem_append_left S hy)
      simp only [hrP y (List.mem_append_left S hy), ↓reduceIte, decide_eq_false_iff_not]
      simp only [obj_base, Region.end] at *
      omega
    · intro y hy
      have hyS : y ∈ S := List.mem_of_mem_head? hy
      have := hS y hyS
      simp only [hrP y (List.mem_append_right P hyS), ↓reduceIte, decide_eq_true_eq]
      simp only [obj_base, Region.end] at *
      omega
  -- the objects of `P ++ S` are untouched, so they stay gapped, now with `r` between
  have hgap : Gapped (s.setObj r v).lo (s.setObj r v).hi (P ++ r :: S) := by
    apply (gapped_setObj (hB ▸ h.gapped) (hB ▸ hr)).insert
    · simpa using hne
    · intro p hp
      simpa [hrP p (List.mem_append_left S hp)] using hP p hp
    · intro q hq
      simpa [hrP q (List.mem_append_right P hq)] using hS q hq
  have hsorted : Sorted sizeLt (s.setObj r v).obj
      (insertSorted sizeLt (s.setObj r v).obj r s.availBySize) := by
    have hne' : ∀ y ∈ s.availBySize, y ≠ r := fun y hy => ne_of_mem_of_not_mem (h.perm.subset hy) hr
    apply sorted_insertSorted sizeLt_trans (h.sorted.congr fun y hy => setObj_obj_of_ne (hne' y hy))
    intro y hy hyr
    have hyPS : y ∈ P ++ r :: S := by
      rcases List.mem_append.mp (hB ▸ h.perm.subset hy) with hyP | hyS
      · exact List.mem_append_left _ hyP
      · exact List.mem_append_right _ (List.mem_cons_of_mem r hyS)
    exact sizeLt_of_not_sizeLt
      (hgap.lo_ne (List.mem_append_right P List.mem_cons_self) hyPS (hne' y hy).symm) hyr
  have hbase' : (((s.setObj r v).insertAvailBase r).insertAvailSize r).availByBase = P ++ r :: S :=
    hbase
  refine ⟨hbase, ⟨?_, ?_, hsorted⟩⟩
  · rw [hbase']
    exact hgap
  · rw [hbase']
    exact (insertSorted_perm r _).trans (((hB ▸ h.perm).cons r).trans List.perm_middle.symm)

/-- The points of a region put in by `insertNew_spec` join the covered ones. -/
theorem availAt_insertNew {r : Nat} {v : Region} {P S : List Nat} (hB : s.availByBase = P ++ S)
    (hr : r ∉ s.availByBase)
    (hB' : (((s.setObj r v).insertAvailBase r).insertAvailSize r).availByBase = P ++ r :: S) (x : Nat) :
    (((s.setObj r v).insertAvailBase r).insertAvailSize r).AvailAt x ↔
      s.AvailAt x ∨ (v.base ≤ x ∧ x < v.end) := by
  have hobj : ∀ i ∈ P ++ S, (s.setObj r v).obj i = s.obj i := fun i hi =>
    setObj_obj_of_ne (ne_of_mem_of_not_mem (hB ▸ hi) hr)
  unfold AvailAt
  rw [hB', covered_insert, hB]
  simp only [lo_insertAvailSize, hi_insertAvailSize, lo_insertAvailBase, hi_insertAvailBase]
  rw [covered_of_obj_eq hobj]
  simp only [Holds, lo_setObj, hi_setObj, ↓reduceIte]
  exact or_comm

/-! ## The frame of an edit -/

/-- What an edit of the available trees leaves alone: the handed-out tree and
every object outside the available trees. An object it puts into the trees
that was in none before is one it took from the pool. -/
structure AvailEdit (s s' : RegionAllocator) : Prop where
  mem : ∀ i ∈ s'.availByBase, i ∈ s.availByBase ∨ s.nextRegion ≤ i ∧ i < s'.nextRegion
  obj : ∀ i, i ∉ s.availByBase → i < s.nextRegion → s'.obj i = s.obj i
  allocated : s'.allocatedByBase = s.allocatedByBase
  nextRegion : s.nextRegion ≤ s'.nextRegion

theorem AvailEdit.refl (s : RegionAllocator) : AvailEdit s s :=
  ⟨fun _ hi => .inl hi, fun _ _ _ => rfl, rfl, le_rfl⟩

theorem AvailEdit.trans {s₁ s₂ s₃ : RegionAllocator} (h₁ : AvailEdit s₁ s₂) (h₂ : AvailEdit s₂ s₃) :
    AvailEdit s₁ s₃ where
  mem i hi := by
    rcases h₂.mem i hi with hi | hi
    · rcases h₁.mem i hi with hi | hi
      · exact .inl hi
      · exact .inr ⟨hi.1, hi.2.trans_le h₂.nextRegion⟩
    · exact .inr ⟨h₁.nextRegion.trans hi.1, hi.2⟩
  obj i hi hn := by
    -- an object outside the trees of `s₁` stays outside those of `s₂`
    have hi₂ : i ∉ s₂.availByBase := fun h => by
      rcases h₁.mem i h with h | h
      · exact hi h
      · omega
    rw [h₂.obj i hi₂ (hn.trans_le h₁.nextRegion), h₁.obj i hi hn]
  allocated := h₂.allocated.trans h₁.allocated
  nextRegion := h₁.nextRegion.trans h₂.nextRegion

theorem availEdit_remove (s : RegionAllocator) (j : Nat) :
    AvailEdit s ((s.eraseAvailBase j).eraseAvailSize j) :=
  ⟨fun _ hi => .inl (List.erase_sublist.subset hi), fun _ _ _ => rfl, rfl, le_rfl⟩

theorem AvailTrees.destroy (h : s.AvailTrees) (j : Nat) : (s.DestroyRegion j).AvailTrees :=
  ⟨h.1, h.2, h.3⟩

theorem availEdit_destroy (s : RegionAllocator) (j : Nat) : AvailEdit s (s.DestroyRegion j) :=
  ⟨fun _ hi => .inl hi, fun _ _ _ => rfl, rfl, le_rfl⟩

theorem availEdit_shrink (s : RegionAllocator) {j : Nat} (hj : j ∈ s.availByBase) (v : Region) :
    AvailEdit s (((s.eraseAvailSize j).setObj j v).insertAvailSize j) :=
  ⟨fun _ hi => .inl hi, fun _ hi _ => setObj_obj_of_ne fun h => hi (h ▸ hj), rfl, le_rfl⟩

/-- Writing an object the pool has just handed out. -/
theorem AvailEdit.setObj {s t : RegionAllocator} (he : AvailEdit s t) {r : Nat}
    (hr : s.nextRegion ≤ r) (v : Region) : AvailEdit s (t.setObj r v) :=
  ⟨he.mem, fun i hi hn => (setObj_obj_of_ne (by omega)).trans (he.obj i hi hn), he.allocated,
    he.nextRegion⟩

/-- Putting into the trees an object the pool has just handed out. -/
theorem AvailEdit.insert {s t : RegionAllocator} (he : AvailEdit s t) {r : Nat}
    (hr : s.nextRegion ≤ r ∧ r < t.nextRegion) (v : Region) :
    AvailEdit s (((t.setObj r v).insertAvailBase r).insertAvailSize r) where
  mem i hi := by
    rcases mem_insertSorted.mp hi with rfl | hi
    · exact .inr hr
    · exact he.mem i hi
  obj i hi hn := (setObj_obj_of_ne (by omega)).trans (he.obj i hi hn)
  allocated := he.allocated
  nextRegion := he.nextRegion

/-- `CreateRegion` hands out the next address of the pool. -/
theorem createRegion_eq_some {s s₁ : RegionAllocator} {r : Nat} (h : s.CreateRegion = some (r, s₁)) :
    r = s.nextRegion ∧ s₁ = { s with nextRegion := s.nextRegion + 1, spare := s.spare - 1 } := by
  unfold CreateRegion at h
  split at h
  · cases h
  · cases h
    exact ⟨rfl, rfl⟩

theorem availEdit_create {s s₁ : RegionAllocator} {r : Nat} (h : s.CreateRegion = some (r, s₁)) :
    AvailEdit s s₁ ∧ r = s.nextRegion ∧ s₁.nextRegion = s.nextRegion + 1 ∧ s₁.obj = s.obj ∧
      s₁.availByBase = s.availByBase ∧ s₁.availBySize = s.availBySize := by
  obtain ⟨rfl, rfl⟩ := createRegion_eq_some h
  exact ⟨⟨fun _ hi => .inl hi, fun _ _ _ => rfl, rfl, Nat.le_succ _⟩, rfl, rfl, rfl, rfl, rfl⟩

/-- The available trees read only the objects and the two lists. -/
theorem AvailTrees.congr {s' : RegionAllocator} (h : s.AvailTrees) (ho : s'.obj = s.obj)
    (hb : s'.availByBase = s.availByBase) (hz : s'.availBySize = s.availBySize) : s'.AvailTrees := by
  have hlo : s'.lo = s.lo := funext fun i => congrArg (fun f => (f i).base) ho
  have hhi : s'.hi = s.hi := funext fun i => congrArg (fun f => (f i).end) ho
  exact ⟨by rw [hlo, hhi, hb]; exact h.gapped, by rw [hb, hz]; exact h.perm,
    by rw [ho, hz]; exact h.sorted⟩

theorem availAt_congr {s' : RegionAllocator} (ho : s'.obj = s.obj) (hb : s'.availByBase = s.availByBase)
    (x : Nat) : s'.AvailAt x ↔ s.AvailAt x := by
  have hlo : s'.lo = s.lo := funext fun i => congrArg (fun f => (f i).base) ho
  have hhi : s'.hi = s.hi := funext fun i => congrArg (fun f => (f i).end) ho
  rw [AvailAt, hlo, hhi, hb]
  rfl

/-- Writing an object outside the by-size tree commutes with an insertion
into it, which reads no other keys. -/
theorem insertAvailSize_setObj {a j : Nat} {v : Region} (haj : a ≠ j) (ha : a ∉ s.availBySize) :
    (s.setObj a v).insertAvailSize j = (s.insertAvailSize j).setObj a v := by
  simp only [insertAvailSize, setObj]
  congr 1
  exact insertSorted_congr (by simp [Ne.symm haj]) fun y hy => by
    simp [ne_of_mem_of_not_mem hy ha]

theorem setObj_comm {a b : Nat} {v w : Region} (h : a ≠ b) :
    (s.setObj a v).setObj b w = (s.setObj b w).setObj a v := by
  simp only [setObj, RegionAllocator.mk.injEq, and_true]
  funext i
  by_cases hb : i = b
  · simp [hb, Ne.symm h]
  · simp [hb]

/-- The two trees are inserted into independently. -/
theorem insertAvailSize_insertAvailBase {a b : Nat} :
    (s.insertAvailSize a).insertAvailBase b = (s.insertAvailBase b).insertAvailSize a := rfl

/-- An edit of the available trees leaves the handed-out points alone. -/
theorem WellFormed.allocatedAt_of_availEdit {s s' : RegionAllocator} (hw : s.WellFormed)
    (he : AvailEdit s s') (x : Nat) : s'.AllocatedAt x ↔ s.AllocatedAt x := by
  have hobj : ∀ i ∈ s.allocatedByBase, s'.obj i = s.obj i := fun i hi =>
    he.obj i (fun h => hw.distinct i h hi) (hw.fresh i (.inr hi))
  rw [AllocatedAt, he.allocated, covered_of_obj_eq hobj]
  rfl

/-- Available regions whose points all lie below `2 ^ 64 - 1` do not wrap. -/
theorem AvailTrees.noWrap (h : s.AvailTrees) (hx : ∀ x, s.AvailAt x → x + 1 < 2 ^ 64) :
    ∀ r ∈ s.availByBase, s.hi r < 2 ^ 64 := fun r hr =>
  Nat.lt_of_le_of_lt (hi_le_of_covered h.gapped.nonempty (N := 2 ^ 64 - 1)
    (fun x hax => by have := hx x hax; omega) r hr) (by omega)

/-- Under a well-formed state the available points lie below `2 ^ 64 - 1`. -/
theorem WellFormed.availAt_lt (hw : s.WellFormed) {x : Nat} (hx : s.AvailAt x) : x + 1 < 2 ^ 64 := by
  obtain ⟨i, hi, hxi⟩ := hx
  have := hw.availNoWrap i hi
  have := hxi.2
  omega

/-- An edit of the available trees that covers only points that were
available or that `R` holds, where no handed-out region reaches and nothing
wraps, keeps the invariant. -/
theorem WellFormed.availEdit {s s' : RegionAllocator} (hw : s.WellFormed) (he : AvailEdit s s')
    (ht : s'.AvailTrees) {R : Nat → Prop} (hA : ∀ x, s'.AvailAt x → s.AvailAt x ∨ R x)
    (hR : ∀ x, R x → ¬ s.AllocatedAt x ∧ x + 1 < 2 ^ 64) : s'.WellFormed := by
  have hobj' : ∀ i ∈ s'.allocatedByBase, s'.obj i = s.obj i := fun i hi =>
    he.obj i (fun h => hw.distinct i h (he.allocated ▸ hi)) (hw.fresh i (.inr (he.allocated ▸ hi)))
  refine ⟨ht, ht.noWrap fun x hx => ?_, ?_, ?_, ?_, ?_, ?_⟩
  · rcases hA x hx with hx | hx
    · exact hw.availAt_lt hx
    · exact (hR x hx).2
  · rw [he.allocated]
    exact increasing_of_obj_eq hw.allocatedIncreasing (he.allocated ▸ hobj')
  · intro r hr
    rw [show s'.hi r = s.hi r from congrArg Region.end (hobj' r hr)]
    exact hw.allocatedNoWrap r (he.allocated ▸ hr)
  · intro x hx hav
    rw [hw.allocatedAt_of_availEdit he] at hx
    rcases hA x hav with hav | hR'
    · exact hw.apart x hx hav
    · exact (hR x hR').1 hx
  · intro r hr hra
    rw [he.allocated] at hra
    rcases he.mem r hr with hr | hr
    · exact hw.distinct r hr hra
    · have := hw.fresh r (.inr hra)
      omega
  · intro r hr
    rcases hr with hr | hr
    · rcases he.mem r hr with hr | hr
      · exact (hw.fresh r (.inl hr)).trans_le he.nextRegion
      · exact hr.2
    · exact (hw.fresh r (.inr (he.allocated ▸ hr))).trans_le he.nextRegion

end RegionAllocator

end Zircon.RegionAlloc
