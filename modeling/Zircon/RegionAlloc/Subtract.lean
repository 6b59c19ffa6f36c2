import Zircon.RegionAlloc.Trees

/-!
# `SubtractRegion`

Taking a region out of the available set. When one available region holds all
of it, that region is removed, trimmed at one end, or split in two, and only
the split needs a new object from the pool. Otherwise, with
`AllowIncomplete::Yes`, the region before it is trimmed and those after it are
swallowed, the last one trimmed at the front.

Every branch is a composition of the three edits of `Trees`. The result of
each is a `Subtracted` state: an edit of the available trees only, which
uncovers exactly the points of the region.
-/

namespace Zircon.RegionAlloc

open SortedIndex Runs

namespace RegionAllocator

variable {s : RegionAllocator}

/-- What taking the points `R` out of the available regions leaves. -/
structure Subtracted (s s' : RegionAllocator) (R : Nat → Prop) : Prop where
  edit : AvailEdit s s'
  trees : s'.AvailTrees
  avail : ∀ x, s'.AvailAt x ↔ s.AvailAt x ∧ ¬ R x

/-- Only the available points of `R` matter. -/
theorem Subtracted.congr {s' : RegionAllocator} {R R' : Nat → Prop} (h : Subtracted s s' R)
    (hR : ∀ x, s.AvailAt x → (R x ↔ R' x)) : Subtracted s s' R' where
  edit := h.edit
  trees := h.trees
  avail x := by
    rw [h.avail x]
    exact ⟨fun ⟨a, n⟩ => ⟨a, fun r => n ((hR x a).mpr r)⟩, fun ⟨a, n⟩ => ⟨a, fun r => n ((hR x a).mp r)⟩⟩

theorem Subtracted.trans {s₁ s₂ s₃ : RegionAllocator} {R₁ R₂ : Nat → Prop} (h₁ : Subtracted s₁ s₂ R₁)
    (h₂ : Subtracted s₂ s₃ R₂) : Subtracted s₁ s₃ fun x => R₁ x ∨ R₂ x where
  edit := h₁.edit.trans h₂.edit
  trees := h₂.trees
  avail x := by
    rw [h₂.avail x, h₁.avail x, not_or, and_assoc]

theorem subtracted_refl (h : s.AvailTrees) {R : Nat → Prop} (hR : ∀ x, s.AvailAt x → ¬ R x) :
    Subtracted s s R :=
  ⟨AvailEdit.refl s, h, fun x => ⟨fun a => ⟨a, hR x a⟩, And.left⟩⟩

/-- Taking an available region out of both trees. -/
theorem subtracted_take (h : s.AvailTrees) {j : Nat} (hj : j ∈ s.availByBase) :
    Subtracted s ((s.eraseAvailBase j).eraseAvailSize j) (Holds s.lo s.hi j) :=
  ⟨availEdit_remove s j, (h.remove hj).1, (h.remove hj).2⟩

/-- Returning an object to the pool. -/
theorem Subtracted.destroy {s₀ : RegionAllocator} {R : Nat → Prop} (h : Subtracted s₀ s R) (j : Nat) :
    Subtracted s₀ (s.DestroyRegion j) R :=
  ⟨h.edit.trans (availEdit_destroy s j), h.trees.destroy j, h.avail⟩

/-- Taking an available region out of both trees and back to the pool. -/
theorem subtracted_remove (h : s.AvailTrees) {j : Nat} (hj : j ∈ s.availByBase) :
    Subtracted s (((s.eraseAvailBase j).eraseAvailSize j).DestroyRegion j) (Holds s.lo s.hi j) :=
  (subtracted_take h hj).destroy j

/-- Shrinking an available region within itself. -/
theorem subtracted_shrink (h : s.AvailTrees) {b : Nat} (hb : b ∈ s.availByBase) {v : Region}
    (hlo : s.lo b ≤ v.base) (hhi : v.end ≤ s.hi b) (hne : v.base < v.end) :
    Subtracted s (((s.eraseAvailSize b).setObj b v).insertAvailSize b)
      fun x => Holds s.lo s.hi b x ∧ ¬ (v.base ≤ x ∧ x < v.end) :=
  ⟨availEdit_shrink s hb v, (h.shrink hb hlo hhi hne).1, (h.shrink hb hlo hhi hne).2⟩

/-- The points left when the part `H` of a set `A` is cut down to `V ∨ W`,
where `H` holds the points `R` of `A` that go. -/
theorem and_not_cut {A H V W R : Prop} (hA : H → A) (hW : W → H) (hR : A → R → H)
    (hcut : H → (V ∨ W ↔ ¬ R)) : (A ∧ ¬ (H ∧ ¬ V)) ∨ W ↔ A ∧ ¬ R := by
  by_cases hH : H
  · have hcut := hcut hH
    constructor
    · rintro (⟨a, hn⟩ | w)
      · exact ⟨a, hcut.mp (.inl (by_contra fun hv => hn ⟨hH, hv⟩))⟩
      · exact ⟨hA hH, hcut.mp (.inr w)⟩
    · rintro ⟨a, hr⟩
      rcases hcut.mpr hr with v | w
      · exact .inl ⟨a, fun hn => hn.2 v⟩
      · exact .inr w
  · constructor
    · rintro (⟨a, -⟩ | w)
      · exact ⟨a, fun r => hH (hR a r)⟩
      · exact absurd (hW w) hH
    · rintro ⟨a, -⟩
      exact .inl ⟨a, fun hn => hH hn.1⟩

/-- An object just taken from the pool changes nothing yet. -/
theorem subtracted_create (h : s.AvailTrees) {n : Nat} {s₁ : RegionAllocator}
    (hc : s.CreateRegion = some (n, s₁)) : Subtracted s s₁ fun _ => False := by
  obtain ⟨he, -, -, ho, hb, hz⟩ := availEdit_create hc
  exact ⟨he, h.congr ho hb hz, fun x => by rw [availAt_congr ho hb x]; simp⟩

/-- Writing an object just taken from the pool, which is in neither tree. -/
theorem Subtracted.setObj {s₀ : RegionAllocator} {R : Nat → Prop} (h : Subtracted s₀ s R) {n : Nat}
    (hn : s₀.nextRegion ≤ n) (hnA : n ∉ s.availByBase) (v : Region) : Subtracted s₀ (s.setObj n v) R := by
  have hnZ : ∀ y ∈ s.availBySize, y ≠ n := fun y hy =>
    ne_of_mem_of_not_mem (h.trees.perm.subset hy) hnA
  refine ⟨h.edit.setObj hn v, ⟨gapped_setObj h.trees.gapped hnA, h.trees.perm,
    h.trees.sorted.congr fun y hy => setObj_obj_of_ne (hnZ y hy)⟩, fun x => ?_⟩
  rw [← h.avail x]
  exact covered_of_obj_eq fun i hi => setObj_obj_of_ne (ne_of_mem_of_not_mem hi hnA)

/-- Splitting the available region `b` around `[v₁.end, v₂.base)`: `b`
keeps its front `v₁`, and an object `n` just taken from the pool takes its
back `v₂`. -/
theorem subtracted_split {s₀ : RegionAllocator} (h₀ : Subtracted s₀ s fun _ => False) {b n : Nat}
    (hb : b ∈ s.availByBase) (hn : s₀.nextRegion ≤ n ∧ n < s.nextRegion) (hnA : n ∉ s.availByBase)
    {v₁ v₂ : Region} (hv₁ : v₁.base = s.lo b) (hv₂ : v₂.end = s.hi b) (hlt₁ : v₁.base < v₁.end)
    (hlt : v₁.end < v₂.base) (hlt₂ : v₂.base < v₂.end) :
    Subtracted s₀ (((((s.eraseAvailSize b).setObj b v₁).insertAvailSize b).setObj n v₂).insertAvailBase n
      |>.insertAvailSize n) fun x => v₁.end ≤ x ∧ x < v₂.base := by
  have h := h₀.trees
  obtain ⟨htt, htp⟩ := h.shrink hb (v := v₁) hv₁.ge (by omega) hlt₁
  -- the new object goes between `b` and the regions after it
  obtain ⟨P, S, hPS⟩ := List.mem_iff_append.mp hb
  have hgapB : Gapped s.lo s.hi (P ++ b :: S) := hPS ▸ h.gapped
  have htB : (((s.eraseAvailSize b).setObj b v₁).insertAvailSize b).availByBase = P ++ [b] ++ S := by
    show s.availByBase = _
    rw [hPS]
    simp
  have hnt : n ∉ (((s.eraseAvailSize b).setObj b v₁).insertAvailSize b).availByBase := hnA
  -- what lies before the new object ends before it, what lies after starts past `b`
  have hP : ∀ p ∈ P ++ [b], (((s.eraseAvailSize b).setObj b v₁).insertAvailSize b).hi p < v₂.base := by
    intro p hp
    show (s.setObj b v₁).hi p < v₂.base
    rcases List.mem_append.mp hp with hp | hp
    · have hpb : p ≠ b := ne_of_mem_of_not_mem hp fun hbP =>
        (List.nodup_append.mp hgapB.nodup).2.2 b hbP b List.mem_cons_self rfl
      have := hgapB.lt_of_append hp List.mem_cons_self
      simp only [hi_setObj, hpb, ↓reduceIte]
      omega
    · rw [List.mem_singleton.mp hp]
      simp only [hi_setObj, ↓reduceIte]
      exact hlt
  have hS : ∀ q ∈ S, v₂.end < (((s.eraseAvailSize b).setObj b v₁).insertAvailSize b).lo q := by
    intro q hq
    show v₂.end < (s.setObj b v₁).lo q
    have hqb : q ≠ b := ne_of_mem_of_not_mem hq
      (List.nodup_cons.mp (List.nodup_append.mp hgapB.nodup).2.1).1
    have := (List.pairwise_cons.mp (hgapB.sublist (List.sublist_append_right P _)).sorted).1 q hq
    simp only [lo_setObj, hqb, ↓reduceIte]
    omega
  obtain ⟨hB', htrees'⟩ := insertNew_spec htt hnt hlt₂ htB hP hS
  refine ⟨(h₀.edit.trans (availEdit_shrink s hb v₁)).insert hn v₂, htrees', fun x => ?_⟩
  rw [availAt_insertNew htB hnt hB' x, htp x, h₀.avail x, not_false_eq_true, and_true]
  refine and_not_cut (fun hx => ((h₀.avail x).mp ⟨b, hb, hx⟩).1) (fun hx => ?_) (fun _ hr => ?_)
    (fun hx => ?_)
  all_goals
    simp only [Holds, Region.end] at *
    omega

/-- The four cases of `SubtractRegion` where the available region `b` holds
all of `region`: only the split can fail, for want of an object. -/
theorem subtractContained_spec (h : s.AvailTrees) (hfresh : ∀ i ∈ s.availByBase, i < s.nextRegion)
    {b : Nat} (hb : b ∈ s.availByBase) {region : Region} (hlo : s.lo b ≤ region.base) (hhi : region.end ≤ s.hi b) (hne : 0 < region.size) :
    s.subtractContained b region = (s, .error .noMemory) ∨
      ((s.subtractContained b region).2 = .ok () ∧
        Subtracted s (s.subtractContained b region).1 region.Covers) := by
  have hreg : ∀ x, region.Covers x → Holds s.lo s.hi b x := fun x hx => by
    simp only [Region.Covers, Holds] at *
    omega
  generalize hres : s.subtractContained b region = res
  simp only [subtractContained] at hres
  split_ifs at hres with h₁ h₂ h₃
  · -- Case 1: `b` is `region`, and goes
    subst hres
    right
    refine ⟨rfl, (subtracted_remove h hb).congr fun x _ => ?_⟩
    simp only [Holds, Region.Covers]
    simp only [obj_base, obj_end] at h₁
    omega
  · -- Case 2: `b` is split around `region`, which takes a second object
    split at hres
    · subst hres
      exact .inl rfl
    · next second s₁ hcr =>
      subst hres
      right
      refine ⟨rfl, ?_⟩
      have h₀ := subtracted_create h hcr
      obtain ⟨rfl, rfl⟩ := createRegion_eq_some hcr
      have hfr : s.nextRegion ∉ s.availByBase := fun hm => (hfresh _ hm).false
      -- the new object is in neither tree, so its fields can be written after `b` is put back
      rw [insertAvailSize_setObj (ne_of_mem_of_not_mem hb hfr).symm fun hm =>
        hfr (h.perm.subset (List.erase_sublist.subset hm))]
      simp only [Region.end, lo, hi] at hlo hhi h₂
      refine (subtracted_split h₀ hb ⟨le_rfl, Nat.lt_succ_self _⟩ hfr ?_ ?_ ?_ ?_ ?_).congr
        fun x _ => ?_
      · rfl
      all_goals
        simp only [Region.Covers, Region.end, hi] at *
        omega
  · -- Case 3: `region` trims the front of `b`
    subst hres
    right
    refine ⟨rfl, (subtracted_shrink h hb ?_ ?_ ?_).congr fun x _ => ?_⟩
    all_goals
      simp only [Region.Covers, Holds, Region.end, lo, hi] at *
      omega
  · -- Case 4: `region` trims the back of `b`
    subst hres
    right
    refine ⟨rfl, (subtracted_shrink h hb ?_ ?_ ?_).congr fun x _ => ?_⟩
    all_goals
      simp only [Region.Covers, Holds, Region.end, lo, hi] at *
      omega

/-- The loop of `SubtractRegion` over the regions after `region.base`: it
takes out every point of `region` that only they hold. -/
theorem trimAfter_spec (region : Region) (S : List Nat) :
    ∀ s : RegionAllocator, s.AvailTrees → (∃ P, s.availByBase = P ++ S) →
      (∀ q ∈ S, region.base < s.lo q) →
      (∀ x, s.AvailAt x → region.Covers x → Covered s.lo s.hi S x) →
      Subtracted s (trimAfter region.end S s) region.Covers := by
  induction S with
  | nil =>
    intro s h _ _ hreg
    exact subtracted_refl h fun x a r => by simpa [Covered] using hreg x a r
  | cons t rest ih =>
    rintro s h ⟨P, hPS⟩ hbase hreg
    have hgap : Gapped s.lo s.hi (t :: rest) := h.gapped.sublist (hPS ▸ List.sublist_append_right P _)
    have htB : t ∈ s.availByBase := hPS ▸ List.mem_append_right P List.mem_cons_self
    have hrest : ∀ q ∈ rest, s.hi t < s.lo q := fun q hq => (List.pairwise_cons.mp hgap.sorted).1 q hq
    have ht := hgap.nonempty t List.mem_cons_self
    have hbt := hbase t List.mem_cons_self
    -- a point of `region` in the regions after `t` lies past `t`'s end
    have hcov : ∀ x, s.AvailAt x → region.Covers x → Holds s.lo s.hi t x ∨ s.hi t < x := by
      intro x a r
      obtain ⟨q, hq, hx⟩ := hreg x a r
      rcases List.mem_cons.mp hq with rfl | hq
      · exact .inl hx
      · have := hrest q hq
        simp only [Holds] at hx
        exact .inr (by omega)
    simp only [trimAfter]
    split_ifs with h₁ h₂ h₃
    · -- Case 3: `t`, and every region after it, starts past `region`
      refine subtracted_refl h fun x a r => ?_
      rcases hcov x a r with hx | hx
      all_goals
        simp only [Holds, Region.Covers, Region.end, lo, hi] at *
        omega
    · -- Case 2: `region` ends inside `t`, whose front goes
      refine (subtracted_shrink h htB ?_ ?_ ?_).congr fun x a => ⟨fun hx => ?_, fun r => ?_⟩
      any_goals
        simp only [Holds, Region.Covers, Region.end, lo, hi, obj_eraseAvailSize] at *
        omega
      rcases hcov x a r with hx | hx
      all_goals
        simp only [Holds, Region.Covers, Region.end, lo, hi, obj_eraseAvailSize] at *
        omega
    · -- Case 1, last: `t` ends where `region` does
      refine (subtracted_remove h htB).congr fun x a => ⟨fun hx => ?_, fun r => ?_⟩
      · simp only [Holds, Region.Covers, Region.end, lo, hi, obj_eraseAvailSize] at *
        omega
      · rcases hcov x a r with hx | hx
        all_goals
          simp only [Holds, Region.Covers, Region.end, lo, hi, obj_eraseAvailSize] at *
          omega
    · -- Case 1: `t` goes, and the loop goes on over the rest
      have hr := subtracted_remove h htB
      have htP : t ∉ P := fun htP =>
        (List.nodup_append.mp (hPS ▸ h.gapped.nodup)).2.2 t htP t List.mem_cons_self rfl
      have hP' : (((s.eraseAvailBase t).eraseAvailSize t).DestroyRegion t).availByBase = P ++ rest := by
        show s.availByBase.erase t = _
        rw [hPS, List.erase_append_right _ htP, List.erase_cons_head]
      have hnext := ih _ hr.trees ⟨P, hP'⟩ (fun q hq => hbase q (List.mem_cons_of_mem t hq))
        fun x a r => by
          obtain ⟨a, hnt⟩ := (hr.avail x).mp a
          obtain ⟨q, hq, hx⟩ := hreg x a r
          rcases List.mem_cons.mp hq with rfl | hq
          · exact absurd hx hnt
          · exact ⟨q, hq, hx⟩
      refine (hr.trans hnext).congr fun x _ => ⟨fun hx => hx.elim (fun hx => ?_) id, .inr⟩
      simp only [Holds, Region.Covers, Region.end, lo, hi, obj_eraseAvailSize] at *
      omega

/-- Once the region before `region.base` has given up its points of
`region`, the loop takes out the rest. -/
theorem subtracted_trimAfter {region : Region} {after : List Nat} {s₁ : RegionAllocator}
    {R₁ : Nat → Prop} (h₁ : Subtracted s s₁ R₁) (hR₁ : ∀ x, R₁ x → region.Covers x)
    (hP₁ : ∃ P, s₁.availByBase = P ++ after) (hobj₁ : ∀ i ∈ after, s₁.obj i = s.obj i)
    (hafter : ∀ i ∈ after, region.base < s.lo i)
    (hrem : ∀ x, s.AvailAt x → region.Covers x → ¬ R₁ x → Covered s.lo s.hi after x) :
    Subtracted s (trimAfter region.end after s₁) region.Covers := by
  have hnext := trimAfter_spec region after s₁ h₁.trees hP₁
    (fun q hq => (congrArg Region.base (hobj₁ q hq)).trans_gt (hafter q hq))
    fun x a r => by
      obtain ⟨a, n⟩ := (h₁.avail x).mp a
      exact (covered_of_obj_eq hobj₁).mpr (hrem x a r n)
  exact (h₁.trans hnext).congr fun x _ => ⟨fun hx => hx.elim (hR₁ x) id, .inr⟩

/-- The incomplete subtraction of `SubtractRegion`, where no available region
holds all of `region`: every available point of it goes. -/
theorem subtractIncomplete_spec (h : s.AvailTrees) {region : Region} {below after : List Nat}
    (hB : s.availByBase = below ++ after) (hbelow : ∀ i ∈ below, s.lo i ≤ region.base)
    (hafter : ∀ i ∈ after, region.base < s.lo i)
    (hnc : ∀ b, below.getLast? = some b → s.hi b < region.end) :
    Subtracted s (s.subtractIncomplete below.getLast? after region) region.Covers := by
  -- an available point from `region.base` on is in the last region below it or in one after it
  have hsplit : ∀ x, s.AvailAt x → region.base ≤ x →
      (∃ b, below.getLast? = some b ∧ Holds s.lo s.hi b x) ∨ Covered s.lo s.hi after x := by
    intro x ⟨i, hi, hx⟩ hbx
    rw [hB] at hi
    rcases List.mem_append.mp hi with hi | hi
    · obtain ⟨B, b, hBb⟩ := (List.eq_nil_or_concat below).resolve_left (List.ne_nil_of_mem hi)
      rw [List.concat_eq_append] at hBb
      subst hBb
      rcases List.mem_append.mp hi with hiB | hib
      · have hgapB := hB ▸ h.gapped
        have := (hgapB.sublist (List.sublist_append_left _ after)).lt_of_append hiB
          (List.mem_singleton_self b)
        have := hbelow b (List.mem_append_right B (List.mem_singleton_self b))
        simp only [Holds] at hx
        omega
      · exact .inl ⟨b, by simp, List.mem_singleton.mp hib ▸ hx⟩
    · exact .inr ⟨i, hi, hx⟩
  simp only [subtractIncomplete]
  cases hbl : below.getLast? with
  | none =>
    -- no region before `region.base`: only the loop runs
    refine (subtracted_trimAfter (subtracted_refl h (R := fun _ => False) fun _ _ => id)
      (fun _ => False.elim) ⟨_, hB⟩ (fun _ _ => rfl) hafter fun x a r _ => ?_)
    rcases hsplit x a r.1 with ⟨b, hb, -⟩ | hx
    · simp [hbl] at hb
    · exact hx
  | some b =>
    have hbB : b ∈ below := List.mem_of_getLast? hbl
    have hbA : b ∈ s.availByBase := hB ▸ List.mem_append_left after hbB
    have hbe := hnc b hbl
    have hbr := hbelow b hbB
    have hbn := h.gapped.nonempty b hbA
    have hba : ∀ i ∈ after, i ≠ b := fun i hi hib => by
      have := hafter i hi
      rw [hib] at this
      omega
    -- a point of `region` in `b` but not in what is left of it is in no other region
    have hrem : ∀ {R₁ : Nat → Prop}, (∀ x, Holds s.lo s.hi b x → region.Covers x → R₁ x) →
        ∀ x, s.AvailAt x → region.Covers x → ¬ R₁ x → Covered s.lo s.hi after x := by
      intro R₁ hb x a r n
      rcases hsplit x a r.1 with ⟨b', hb', hx⟩ | hx
      · rw [hbl] at hb'
        cases hb'
        exact absurd (hb x hx r) n
      · exact hx
    dsimp only
    split_ifs with h₁ h₂
    · -- `b` starts where `region` does: all of it goes
      refine subtracted_trimAfter (subtracted_remove h hbA) (fun x hx => ?_)
        ⟨below.erase b, by show (s.availByBase.erase b) = _; rw [hB, List.erase_append_left _ hbB]⟩
        (fun _ _ => rfl) hafter (hrem fun _ hx _ => hx)
      simp only [Holds, Region.Covers, Region.end, lo, hi, obj_eraseAvailSize] at *
      omega
    · -- `b` reaches into `region`: its back goes
      refine subtracted_trimAfter (subtracted_shrink h hbA ?_ ?_ ?_) (fun x hx => ?_) ⟨below, hB⟩
        (fun i hi => setObj_obj_of_ne (hba i hi)) hafter (hrem fun x hx r => ⟨hx, ?_⟩)
      all_goals
        simp only [Holds, Region.Covers, Region.end, lo, hi, obj_eraseAvailSize] at *
        omega
    · -- `b` ends before `region`
      refine subtracted_trimAfter (subtracted_refl h (R := fun _ => False) fun _ _ => id)
        (fun _ => False.elim) ⟨below, hB⟩ (fun _ _ => rfl) hafter (hrem fun x hx r => ?_)
      simp only [Holds, Region.Covers, Region.end, lo, hi] at *
      omega

/-- `SubtractRegion` either fails and leaves the allocator as it was, or
takes the points of `region` out of the available regions; without
`AllowIncomplete::Yes` it succeeds only when they were all available. -/
theorem subtractRegion_spec (h : s.AvailTrees) (hfresh : ∀ i ∈ s.availByBase, i < s.nextRegion)
    (hinc : Increasing s.lo s.hi s.allocatedByBase) {region : Region} (hs : region.size < 2 ^ 64)
    (mode : AllowIncomplete) :
    (∃ e, s.SubtractRegion region mode = (s, .error e)) ∨
      ((s.SubtractRegion region mode).2 = .ok () ∧ s.AddSubtractSanityCheckLocked region = .ok () ∧
        Subtracted s (s.SubtractRegion region mode).1 region.Covers ∧
        (mode = .no → ∀ x, region.Covers x → s.AvailAt x)) := by
  unfold SubtractRegion
  cases hsan : s.AddSubtractSanityCheckLocked region with
  | error e => exact .inl ⟨e, rfl⟩
  | ok u =>
    cases u
    obtain ⟨hne, -, -⟩ := (addSubtractSanityCheckLocked_eq_ok hinc hs).mp hsan
    obtain ⟨hl, hbelow, hafter⟩ := splitAtBase_spec h.gapped region.base
    generalize hsp : s.splitAtBase s.availByBase region.base = sp at hl hbelow hafter
    obtain ⟨below, after⟩ := sp
    dsimp only at hl hbelow hafter ⊢
    have hinc' : (∀ b, below.getLast? = some b → s.hi b < region.end) →
        Subtracted s (s.subtractIncomplete below.getLast? after region) region.Covers :=
      subtractIncomplete_spec h hl hbelow hafter
    cases hbl : below.getLast? with
    | none =>
      -- nothing lies below `region.base`, so nothing holds all of `region`
      rw [hbl] at hinc'
      cases mode with
      | no => exact .inl ⟨_, rfl⟩
      | yes => exact .inr ⟨rfl, rfl, hinc' (by simp), nofun⟩
    | some b =>
      rw [hbl] at hinc'
      have hbB : b ∈ below := List.mem_of_getLast? hbl
      have hbA : b ∈ s.availByBase := hl ▸ List.mem_append_left after hbB
      have hbr := hbelow b hbB
      by_cases hc : region.base ≥ (s.obj b).base ∧ region.end ≤ (s.obj b).end
      · -- `b` holds all of `region`
        simp only [hc, and_self, decide_true]
        rcases subtractContained_spec h hfresh hbA hbr hc.2 hne with heq | ⟨hok, hsub⟩
        · exact .inl ⟨_, heq⟩
        · exact .inr ⟨hok, trivial, hsub, fun _ x hx => ⟨b, hbA, by
            simp only [Holds, Region.Covers, Region.end, lo, hi] at hx hc ⊢
            omega⟩⟩
      · -- nothing holds all of `region`, and `b` ends before it does
        have hbe : s.hi b < region.end := by
          simp only [obj_base, obj_end, not_and, not_le] at hc
          exact hc hbr
        simp only [hc, decide_false]
        cases mode with
        | no => exact .inl ⟨_, rfl⟩
        | yes => exact .inr ⟨rfl, trivial, hinc' fun b' hb' => Option.some_inj.mp hb' ▸ hbe, nofun⟩

end RegionAllocator

end Zircon.RegionAlloc
