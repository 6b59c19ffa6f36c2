import Mathlib
import Zircon.RegionAlloc.Model
import Zircon.Runs

/-!
# The representation invariant of `RegionAllocator`

What every reachable allocator satisfies, and the address sets it stands
for. The available regions, read along the by-base tree, form a gapped list
(`Runs.Gapped`): non-empty, in increasing order, with a gap between any two,
for the allocator merges regions that touch. The by-size tree holds the same
objects. The handed-out regions are disjoint, in order, and none meets an
available one. No region wraps the 64-bit space.

Two facts about objects keep the pointer reading honest: no object is in both
the available and the handed-out trees, and every object in a tree came from
the pool before `nextRegion`, so a new object is in none.

The lemmas here describe the tree lookups on such lists and what the
primitive edits do to them.
-/

namespace Zircon.RegionAlloc

open SortedIndex Runs

/-- Inserting by start a segment that meets none of an increasing list keeps
it increasing. -/
theorem increasing_insertSorted {ι : Type*} {lo hi : ι → Nat} {l : List ι} (h : Increasing lo hi l)
    {j : ι} (hj : lo j < hi j) (hdisj : ∀ i ∈ l, hi i ≤ lo j ∨ hi j ≤ lo i) :
    Increasing lo hi (insertSorted (fun a b => decide (a < b)) lo j l) := by
  induction l with
  | nil => exact ⟨fun i hi => by simp_all [insertSorted], List.pairwise_singleton _ j⟩
  | cons y ys ih =>
    have hy := h.nonempty y List.mem_cons_self
    have hlt := List.pairwise_cons.mp h.lo_lt
    have hle := List.pairwise_cons.mp h.sorted
    unfold insertSorted
    split
    · next hjy =>
      -- `j` goes first: it ends before `y`, and so before all after `y`
      have hjy : lo j < lo y := by simpa using hjy
      have hend : hi j ≤ lo y := by
        rcases hdisj y List.mem_cons_self with h' | h'
        · omega
        · exact h'
      refine ⟨fun i hi => ?_, List.Pairwise.cons (fun z hz => ?_) h.sorted⟩
      · rcases List.mem_cons.mp hi with rfl | hi
        · exact hj
        · exact h.nonempty i hi
      · rcases List.mem_cons.mp hz with rfl | hz
        · exact hend
        · exact hend.trans (Nat.le_of_lt (hlt.1 z hz))
    · next hjy =>
      -- `y` stays first: it ends before `j` starts
      have hjy : lo y ≤ lo j := by simpa using hjy
      have hyj : hi y ≤ lo j := by
        rcases hdisj y List.mem_cons_self with h' | h'
        · exact h'
        · omega
      have ih := ih (h.sublist (List.sublist_cons_self y ys))
        fun i hi => hdisj i (List.mem_cons_of_mem y hi)
      refine ⟨fun i hi => ?_, List.Pairwise.cons (fun z hz => ?_) ih.sorted⟩
      · rcases List.mem_cons.mp hi with rfl | hi
        · exact hy
        · exact ih.nonempty i hi
      · rcases mem_insertSorted.mp hz with rfl | hz
        · exact hyj
        · exact hle.1 z hz

/-- The points of a region. -/
def Region.Covers (region : Region) (x : Nat) : Prop := region.base ≤ x ∧ x < region.end

namespace RegionAllocator

/-- The base of the object `r`. -/
def lo (s : RegionAllocator) (r : Nat) : Nat := (s.obj r).base

/-- The exclusive end of the object `r`. -/
def hi (s : RegionAllocator) (r : Nat) : Nat := (s.obj r).end

/-- `x` lies in an available region. -/
def AvailAt (s : RegionAllocator) (x : Nat) : Prop := Covered s.lo s.hi s.availByBase x

/-- `x` lies in a handed-out region. -/
def AllocatedAt (s : RegionAllocator) (x : Nat) : Prop := Covered s.lo s.hi s.allocatedByBase x

/-- The two trees of available regions, consistent: what every edit of them
restores before the lock is dropped. -/
structure AvailTrees (s : RegionAllocator) : Prop where
  /-- The available regions are non-empty, in increasing order of base, with a
  gap between any two. -/
  gapped : Gapped s.lo s.hi s.availByBase
  /-- The by-size tree holds the regions of the by-base tree. -/
  perm : s.availBySize.Perm s.availByBase
  /-- The by-size tree is in order of size, then base. -/
  sorted : Sorted sizeLt s.obj s.availBySize

/-- The representation invariant of `RegionAllocator`. -/
structure WellFormed (s : RegionAllocator) : Prop where
  /-- The available trees are consistent. -/
  trees : s.AvailTrees
  /-- No available region wraps the 64-bit space. -/
  availNoWrap : ∀ r ∈ s.availByBase, s.hi r < 2 ^ 64
  /-- The handed-out regions are non-empty, in increasing order of base, and
  disjoint. -/
  allocatedIncreasing : Increasing s.lo s.hi s.allocatedByBase
  /-- No handed-out region wraps. -/
  allocatedNoWrap : ∀ r ∈ s.allocatedByBase, s.hi r < 2 ^ 64
  /-- No handed-out region meets an available one. -/
  apart : ∀ x, s.AllocatedAt x → ¬ s.AvailAt x
  /-- No object is both available and handed out. -/
  distinct : ∀ r ∈ s.availByBase, r ∉ s.allocatedByBase
  /-- Every object in a tree came from the pool before `nextRegion`. -/
  fresh : ∀ r, r ∈ s.availByBase ∨ r ∈ s.allocatedByBase → r < s.nextRegion

theorem wellFormed_create (capacity : Nat) : (create capacity).WellFormed where
  trees := ⟨gapped_nil, List.Perm.refl _, sorted_nil⟩
  availNoWrap := by simp [create]
  allocatedIncreasing := increasing_nil
  allocatedNoWrap := by simp [create]
  apart x := by simp [AllocatedAt, Covered, create]
  distinct := by simp [create]
  fresh := by simp [create]

/-! ## The by-size key -/

theorem sizeLt_iff {a b : Region} : sizeLt a b = true ↔ a.size < b.size ∨ a.size = b.size ∧ a.base < b.base := by
  simp [sizeLt]

theorem sizeLt_trans (a b c : Region) (hab : sizeLt a b = true) (hbc : sizeLt b c = true) :
    sizeLt a c = true := by
  rw [sizeLt_iff] at *
  omega

/-- Regions of different bases compare one way or the other by size. -/
theorem sizeLt_of_not_sizeLt {a b : Region} (hne : a.base ≠ b.base) (h : sizeLt a b = false) :
    sizeLt b a = true := by
  rw [← Bool.not_eq_true, sizeLt_iff] at h
  rw [sizeLt_iff]
  omega

/-! ## The primitive edits -/

section Edits

variable (s : RegionAllocator) (a : Nat)

@[simp] theorem lo_setObj (v : Region) (i : Nat) :
    (s.setObj a v).lo i = if i = a then v.base else s.lo i := by
  unfold lo setObj
  dsimp only
  split <;> rfl

@[simp] theorem hi_setObj (v : Region) (i : Nat) :
    (s.setObj a v).hi i = if i = a then v.end else s.hi i := by
  unfold hi setObj
  dsimp only
  split <;> rfl

@[simp] theorem obj_eraseAvailBase : (s.eraseAvailBase a).obj = s.obj := rfl
@[simp] theorem obj_eraseAvailSize : (s.eraseAvailSize a).obj = s.obj := rfl
@[simp] theorem obj_insertAvailBase : (s.insertAvailBase a).obj = s.obj := rfl
@[simp] theorem obj_insertAvailSize : (s.insertAvailSize a).obj = s.obj := rfl
@[simp] theorem obj_insertAllocated : (s.insertAllocated a).obj = s.obj := rfl
@[simp] theorem obj_destroyRegion : (s.DestroyRegion a).obj = s.obj := rfl
@[simp] theorem lo_eraseAvailBase : (s.eraseAvailBase a).lo = s.lo := rfl
@[simp] theorem hi_eraseAvailBase : (s.eraseAvailBase a).hi = s.hi := rfl
@[simp] theorem lo_eraseAvailSize : (s.eraseAvailSize a).lo = s.lo := rfl
@[simp] theorem hi_eraseAvailSize : (s.eraseAvailSize a).hi = s.hi := rfl
@[simp] theorem lo_insertAvailBase : (s.insertAvailBase a).lo = s.lo := rfl
@[simp] theorem hi_insertAvailBase : (s.insertAvailBase a).hi = s.hi := rfl
@[simp] theorem lo_insertAvailSize : (s.insertAvailSize a).lo = s.lo := rfl
@[simp] theorem hi_insertAvailSize : (s.insertAvailSize a).hi = s.hi := rfl
@[simp] theorem lo_insertAllocated : (s.insertAllocated a).lo = s.lo := rfl
@[simp] theorem hi_insertAllocated : (s.insertAllocated a).hi = s.hi := rfl
@[simp] theorem lo_destroyRegion : (s.DestroyRegion a).lo = s.lo := rfl
@[simp] theorem hi_destroyRegion : (s.DestroyRegion a).hi = s.hi := rfl

end Edits

@[simp] theorem obj_base (s : RegionAllocator) (r : Nat) : (s.obj r).base = s.lo r := rfl

@[simp] theorem obj_end (s : RegionAllocator) (r : Nat) : (s.obj r).end = s.hi r := rfl

theorem setObj_obj_of_ne {s : RegionAllocator} {a i : Nat} {v : Region} (h : i ≠ a) :
    (s.setObj a v).obj i = s.obj i := by
  simp [setObj, h]

theorem setObj_obj_self {s : RegionAllocator} {a : Nat} {v : Region} : (s.setObj a v).obj a = v := by
  simp [setObj]

/-- Two states that agree on the objects of a list cover the same points
with it. -/
theorem covered_of_obj_eq {s s' : RegionAllocator} {l : List Nat}
    (h : ∀ i ∈ l, s'.obj i = s.obj i) {x : Nat} :
    Covered s'.lo s'.hi l x ↔ Covered s.lo s.hi l x :=
  covered_congr fun i hi => ⟨congrArg Region.base (h i hi), congrArg Region.end (h i hi)⟩

/-- Two states that agree on the objects of a list see it gapped alike. -/
theorem gapped_of_obj_eq {s s' : RegionAllocator} {l : List Nat} (hg : Gapped s.lo s.hi l)
    (h : ∀ i ∈ l, s'.obj i = s.obj i) : Gapped s'.lo s'.hi l :=
  have hlo : ∀ i ∈ l, s'.lo i = s.lo i := fun i hi => congrArg Region.base (h i hi)
  have hhi : ∀ i ∈ l, s'.hi i = s.hi i := fun i hi => congrArg Region.end (h i hi)
  hg.shrink (fun i hi => (hlo i hi).ge) (fun i hi => (hhi i hi).le)
    (fun i hi => by simpa only [hlo i hi, hhi i hi] using hg.nonempty i hi)

/-- Two states that agree on the objects of a list see it increasing alike. -/
theorem increasing_of_obj_eq {s s' : RegionAllocator} {l : List Nat} (hg : Increasing s.lo s.hi l)
    (h : ∀ i ∈ l, s'.obj i = s.obj i) : Increasing s'.lo s'.hi l := by
  have hlo : ∀ i ∈ l, s'.lo i = s.lo i := fun i hi => congrArg Region.base (h i hi)
  have hhi : ∀ i ∈ l, s'.hi i = s.hi i := fun i hi => congrArg Region.end (h i hi)
  exact ⟨fun i hi => by simpa only [hlo i hi, hhi i hi] using hg.nonempty i hi,
    hg.sorted.imp_of_mem fun hmi hmj hij => by rw [hhi _ hmi, hlo _ hmj]; exact hij⟩

/-- Writing an object that a list does not hold keeps it gapped. -/
theorem gapped_setObj {s : RegionAllocator} {a : Nat} {v : Region} {l : List Nat}
    (h : Gapped s.lo s.hi l) (ha : a ∉ l) : Gapped (s.setObj a v).lo (s.setObj a v).hi l :=
  gapped_of_obj_eq h fun _ hi => setObj_obj_of_ne (ne_of_mem_of_not_mem hi ha)

/-! ## Lookups on a gapped tree -/

/-- A lookup by base on disjoint regions in order: the bases climb, so the
regions passing a bound on the base come first. -/
theorem span_base_spec {s : RegionAllocator} {l : List Nat} (h : Increasing s.lo s.hi l)
    {q : Nat → Nat → Prop} [DecidableRel q] (hq : ∀ a b k, a < b → q b k → q a k) (k : Nat) :
    l = (l.span fun r => decide (q (s.obj r).base k)).1 ++ (l.span fun r => decide (q (s.obj r).base k)).2 ∧
      (∀ i ∈ (l.span fun r => decide (q (s.obj r).base k)).1, q (s.lo i) k) ∧
      ∀ i ∈ (l.span fun r => decide (q (s.obj r).base k)).2, ¬ q (s.lo i) k := by
  obtain ⟨hl, h₁, h₂⟩ := span_spec (p := fun r => decide (q (s.obj r).base k)) (l := l)
    (h.lo_lt.imp fun hij hj => decide_eq_true (hq _ _ k hij (of_decide_eq_true hj)))
  exact ⟨hl, fun i hi => of_decide_eq_true (h₁ i hi), fun i hi => of_decide_eq_false (h₂ i hi)⟩

/-- `upper_bound` on a gapped tree splits it into the regions whose base is at
most `k` and those above it. -/
theorem splitAtBase_spec {s : RegionAllocator} {l : List Nat} (h : Gapped s.lo s.hi l) (k : Nat) :
    l = (s.splitAtBase l k).1 ++ (s.splitAtBase l k).2 ∧
      (∀ i ∈ (s.splitAtBase l k).1, s.lo i ≤ k) ∧ ∀ i ∈ (s.splitAtBase l k).2, k < s.lo i := by
  obtain ⟨hl, h₁, h₂⟩ := span_base_spec h.increasing (q := (· ≤ ·)) (fun _ _ _ => by omega) k
  exact ⟨hl, h₁, fun i hi => Nat.lt_of_not_le (h₂ i hi)⟩

/-- On a gapped tree, the point `x` of an available region lies in the last
region whose base is at most `x`. -/
theorem splitAtBase_getLast_holds {s : RegionAllocator} {l : List Nat} (h : Gapped s.lo s.hi l)
    {x : Nat} (hx : Covered s.lo s.hi l x) :
    ∃ r, (s.splitAtBase l x).1.getLast? = some r ∧ Holds s.lo s.hi r x := by
  obtain ⟨hl, hP, hS⟩ := splitAtBase_spec h x
  obtain ⟨i, hi, hxi⟩ := hx
  -- the region holding `x` starts at or below it, so it is in the first part
  have hiP : i ∈ (s.splitAtBase l x).1 := by
    rw [hl] at hi
    rcases List.mem_append.mp hi with hi | hi
    · exact hi
    · exact absurd hxi.1 (Nat.not_le_of_lt (hS i hi))
  cases hlast : (s.splitAtBase l x).1.getLast? with
  | none =>
    rw [List.getLast?_eq_none_iff.mp hlast] at hiP
    cases hiP
  | some r =>
    refine ⟨r, rfl, ?_⟩
    obtain ⟨B, hB⟩ := List.getLast?_eq_some_iff.mp hlast
    rcases List.mem_append.mp (hB ▸ hiP) with hiB | hir
    · -- a region before the last one ends before the last one starts, below `x`
      have hg : Gapped s.lo s.hi (B ++ ([r] ++ (s.splitAtBase l x).2)) := by
        rw [← List.append_assoc, ← hB, ← hl]
        exact h
      have := hg.lt_of_append hiB List.mem_cons_self
      have := hP r (List.mem_of_getLast? hlast)
      have := hxi.2
      omega
    · rw [List.mem_singleton.mp hir] at hxi
      exact hxi

/-- `IntersectsLocked` on disjoint regions in order finds whether any of them
meets a non-empty `region`. -/
theorem intersectsLocked_iff {s : RegionAllocator} {l : List Nat} (h : Increasing s.lo s.hi l)
    {region : Region} (hne : 0 < region.size) :
    s.IntersectsLocked l region = true ↔ ∃ i ∈ l, s.lo i < region.end ∧ region.base < s.hi i := by
  obtain ⟨hl, hbelow, hrest⟩ := span_base_spec h (q := (· < ·)) (fun _ _ _ => by omega) region.base
  generalize hsp : l.span (fun r => decide ((s.obj r).base < region.base)) = sp at hl hbelow hrest
  obtain ⟨below, rest⟩ := sp
  dsimp only at hl hbelow hrest
  have hinc := hl ▸ h
  simp only [IntersectsLocked, hsp, Bool.or_eq_true]
  constructor
  · -- each of the two probes names a region that meets `region`
    rintro (hhead | hlast)
    · cases hj : rest.head? with
      | none => simp [hj] at hhead
      | some j =>
        simp only [hj, decide_eq_true_eq] at hhead
        have hjr := List.mem_of_mem_head? hj
        have := hrest j hjr
        have := hinc.nonempty j (List.mem_append_right below hjr)
        exact ⟨j, hl ▸ List.mem_append_right below hjr, hhead, by omega⟩
    · cases hj : below.getLast? with
      | none => simp [hj] at hlast
      | some j =>
        simp only [hj, decide_eq_true_eq] at hlast
        have hjb := List.mem_of_getLast? hj
        have := hbelow j hjb
        exact ⟨j, hl ▸ List.mem_append_left rest hjb, by simp only [Region.end]; omega, hlast⟩
  · -- a region meeting `region` is the last one before it or the first one after
    rintro ⟨i, hi, hlo, hhi⟩
    rw [hl] at hi
    rcases List.mem_append.mp hi with hib | hir
    · right
      obtain ⟨B, j, hBj⟩ := (List.eq_nil_or_concat below).resolve_left (List.ne_nil_of_mem hib)
      rw [List.concat_eq_append] at hBj
      subst hBj
      -- a region before the last one ends before `region.base`
      have hij : i = j := by
        rcases List.mem_append.mp hib with hiB | hij
        · have := (hinc.sublist (List.sublist_append_left _ rest)).le_of_append hiB
            (List.mem_singleton_self j)
          have := hbelow j (List.mem_append_right B (List.mem_singleton_self j))
          omega
        · exact List.mem_singleton.mp hij
      subst hij
      rw [show (B ++ [i]).getLast? = some i by simp]
      exact decide_eq_true hhi
    · left
      cases hr : rest with
      | nil => simp [hr] at hir
      | cons j R =>
        -- the first region after `region.base` starts no later than `i`
        have hji : s.lo j ≤ s.lo i := by
          rw [hr] at hir hinc
          rcases List.mem_cons.mp hir with rfl | hiR
          · exact le_rfl
          · exact Nat.le_of_lt ((List.pairwise_cons.mp
              (hinc.sublist (List.sublist_append_right below _)).lo_lt).1 i hiR)
        have hlo' : s.lo i < region.base + region.size := hlo
        exact decide_eq_true (show s.lo j < region.base + region.size by omega)

/-- On disjoint regions in order, `IntersectsLocked` finds whether a non-empty
`region` shares a point with them. -/
theorem intersectsLocked_iff_exists {s : RegionAllocator} {l : List Nat} (h : Increasing s.lo s.hi l)
    {region : Region} (hne : 0 < region.size) :
    s.IntersectsLocked l region = true ↔ ∃ x, region.Covers x ∧ Covered s.lo s.hi l x := by
  rw [intersectsLocked_iff h hne]
  constructor
  · rintro ⟨i, hi, hlo, hhi⟩
    have := h.nonempty i hi
    simp only [Region.end] at hlo
    refine ⟨max (s.lo i) region.base, ⟨by omega, by simp only [Region.end]; omega⟩, i, hi, by omega,
      by omega⟩
  · rintro ⟨x, ⟨h₁, h₂⟩, i, hi, h₃, h₄⟩
    exact ⟨i, hi, by omega, by omega⟩

/-- `AddSubtractSanityCheckLocked` on a 64-bit region passes exactly the
non-empty regions that do not wrap and meet no handed-out region. -/
theorem addSubtractSanityCheckLocked_eq_ok {s : RegionAllocator}
    (hinc : Increasing s.lo s.hi s.allocatedByBase) {region : Region} (hs : region.size < 2 ^ 64) :
    s.AddSubtractSanityCheckLocked region = .ok () ↔
      0 < region.size ∧ region.end < 2 ^ 64 ∧ ∀ x, region.Covers x → ¬ s.AllocatedAt x := by
  have hwrap : (region.base + region.size) % 2 ^ 64 ≤ region.base ↔
      ¬ (0 < region.size ∧ region.end < 2 ^ 64) := by
    simp only [Region.end]
    omega
  unfold AddSubtractSanityCheckLocked
  split_ifs with h₁ h₂
  · simp only [false_iff]
    exact fun h => hwrap.mp h₁ ⟨h.1, h.2.1⟩
  · have hne : 0 < region.size := (not_not.mp (hwrap.not.mp h₁)).1
    simp only [false_iff]
    rintro ⟨-, -, hx⟩
    obtain ⟨x, hr, ha⟩ := (intersectsLocked_iff_exists hinc hne).mp h₂
    exact hx x hr ha
  · have hok := not_not.mp (hwrap.not.mp h₁)
    simp only [true_iff]
    refine ⟨hok.1, hok.2, fun x hr ha => h₂ ?_⟩
    exact (intersectsLocked_iff_exists hinc hok.1).mpr ⟨x, hr, ha⟩

end RegionAllocator

end Zircon.RegionAlloc
