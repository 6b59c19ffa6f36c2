import Zircon.Vm.PageList

/-!
# The interval lookups of `VmPageList`

Three queries ask whether an offset lies in a sparse interval:
`IsOffsetInInterval`, `IsOffsetInZeroInterval`, and the lookup that opens
`LookupOrAllocateCheckForInterval`. None of them walks the intervals: each
takes the lower-bound node of the offset's node offset and looks at most at the
nearest populated slot on each side of the offset in that node.

That this is enough rests on three facts about a well-formed list:

* a start is followed, and an end preceded, by its partner with nothing
  populated in between (`WellFormed.start_end`, `WellFormed.end_start`, read
  off `Bracketed` over the populated slots in offset order);
* no node is empty, so the walks cannot pass over the whole lower-bound node;
* nodes are keyed by node offsets below `MAX_SIZE`, so nothing is populated
  between the offset and the lower-bound node.

`interval_lookups_agree` is the result: on every well-formed list, whatever
its skew, the three queries agree with `InInterval` for every offset below
`MAX_SIZE`.
-/

namespace Zircon.Vm

open VmPageOrMarker

namespace VmPageOrMarker

theorem isEmpty_eq_false_of_isInterval {s : VmPageOrMarker} (h : s.IsInterval = true) :
    s.IsEmpty = false := by
  cases s <;> simp_all [IsInterval, IsEmpty]

theorem isInterval_of_isIntervalStart {s : VmPageOrMarker} (h : s.IsIntervalStart = true) :
    s.IsInterval = true := by
  rcases s with _ | _ | _ | _ | ⟨_ | _ | _, _, _, _⟩ <;> simp_all [IsIntervalStart, IsInterval]

theorem isInterval_of_isIntervalEnd {s : VmPageOrMarker} (h : s.IsIntervalEnd = true) :
    s.IsInterval = true := by
  rcases s with _ | _ | _ | _ | ⟨_ | _ | _, _, _, _⟩ <;> simp_all [IsIntervalEnd, IsInterval]

theorem isIntervalEnd_eq_false_of_isIntervalStart {s : VmPageOrMarker} (h : s.IsIntervalStart = true) :
    s.IsIntervalEnd = false := by
  rcases s with _ | _ | _ | _ | ⟨_ | _ | _, _, _, _⟩ <;> simp_all [IsIntervalStart, IsIntervalEnd]

/-- An interval sentinel has a type and a dirty state. -/
theorem exists_intervalKind {s : VmPageOrMarker} (h : s.IsInterval = true) :
    ∃ kind, s.intervalKind = some kind := by
  cases s <;> simp_all [IsInterval, intervalKind]

/-- Every interval is a zero interval. -/
theorem isIntervalZero_eq_isInterval (s : VmPageOrMarker) : s.IsIntervalZero = s.IsInterval := by
  rcases s with _ | _ | _ | _ | ⟨_, ⟨⟩, _, _⟩ <;> rfl

end VmPageOrMarker

namespace VmPageListNode

variable {n : VmPageListNode}

/-- The walk left stops at the populated slot nearest below `i`. -/
theorem firstLeft_some : ∀ {i : Nat} {p : VmPageOrMarker}, n.firstLeft i = some p →
    ∃ j < i, n.pages j = p ∧ p.IsEmpty = false ∧ ∀ c, j < c → c < i → (n.pages c).IsEmpty = true
  | 0, _, h => by simp [firstLeft] at h
  | i + 1, p, h => by
    rw [firstLeft] at h
    by_cases he : (n.Lookup i).IsEmpty = true
    · rw [if_pos he] at h
      obtain ⟨j, hj, hjp, hp, hbetween⟩ := firstLeft_some h
      refine ⟨j, by omega, hjp, hp, fun c hjc hci => ?_⟩
      rcases Nat.lt_succ_iff_lt_or_eq.mp hci with hci | rfl
      · exact hbetween c hjc hci
      · exact he
    · rw [if_neg he, Option.some.injEq] at h
      exact ⟨i, by omega, h, by simpa [← h] using he, fun c hic hci => absurd hci (by omega)⟩

/-- The walk left finds nothing when every slot below `i` is empty. -/
theorem firstLeft_none : ∀ {i : Nat}, n.firstLeft i = none → ∀ j < i, (n.pages j).IsEmpty = true
  | 0, _ => fun j hj => absurd hj (Nat.not_lt_zero j)
  | i + 1, h => by
    rw [firstLeft] at h
    by_cases he : (n.Lookup i).IsEmpty = true
    · rw [if_pos he] at h
      intro j hj
      rcases Nat.lt_succ_iff_lt_or_eq.mp hj with hj | rfl
      · exact firstLeft_none h j hj
      · exact he
    · rw [if_neg he] at h
      cases h

/-- The walk right stops at the populated slot nearest at or above `index`. -/
theorem firstRightLoop_some : ∀ {r index : Nat} {p : VmPageOrMarker}, n.firstRightLoop r index = some p →
    ∃ j, index ≤ j ∧ j < index + r ∧ n.pages j = p ∧ p.IsEmpty = false ∧
      ∀ c, index ≤ c → c < j → (n.pages c).IsEmpty = true
  | 0, _, _, h => by simp [firstRightLoop] at h
  | r + 1, index, p, h => by
    rw [firstRightLoop] at h
    by_cases he : (n.Lookup index).IsEmpty = true
    · rw [if_pos he] at h
      obtain ⟨j, hij, hjr, hjp, hp, hbetween⟩ := firstRightLoop_some h
      refine ⟨j, by omega, by omega, hjp, hp, fun c hic hcj => ?_⟩
      rcases Nat.lt_or_eq_of_le hic with hic | rfl
      · exact hbetween c hic hcj
      · exact he
    · rw [if_neg he, Option.some.injEq] at h
      exact ⟨index, le_rfl, by omega, h, by simpa [← h] using he,
        fun c hic hcj => absurd hcj (by omega)⟩

/-- The walk right finds nothing when the slots it passes are all empty. -/
theorem firstRightLoop_none : ∀ {r index : Nat}, n.firstRightLoop r index = none →
    ∀ j, index ≤ j → j < index + r → (n.pages j).IsEmpty = true
  | 0, _, _ => fun j hij hjr => absurd hjr (by omega)
  | r + 1, index, h => by
    rw [firstRightLoop] at h
    by_cases he : (n.Lookup index).IsEmpty = true
    · rw [if_pos he] at h
      intro j hij hjr
      rcases Nat.lt_or_eq_of_le hij with hij | rfl
      · exact firstRightLoop_none h j hij (by omega)
      · exact he
    · rw [if_neg he] at h
      cases h

/-- A node that is not empty has a populated slot. -/
theorem exists_populated (h : n.IsEmpty = false) : ∃ j < kPageFanOut, (n.pages j).IsEmpty = false := by
  rw [IsEmpty, List.all_eq_false] at h
  obtain ⟨j, hj, hje⟩ := h
  exact ⟨j, List.mem_range.mp hj, by simpa using hje⟩

end VmPageListNode

/-- The page numbers of the node at `K`, a node offset, are `K / PAGE_SIZE + j`
for `j < kPageFanOut`. -/
theorem page_of_node {K j : Nat} (hK : K % (PAGE_SIZE * kPageFanOut) = 0) (hj : j < kPageFanOut) :
    (K / PAGE_SIZE + j) / kPageFanOut * (PAGE_SIZE * kPageFanOut) = K ∧
      (K / PAGE_SIZE + j) % kPageFanOut = j := by
  unfold PAGE_SIZE kPageFanOut at *
  omega

namespace VmPageList

variable {pl : VmPageList}

/-- On keys in increasing order, `find` returns the node with its key. -/
theorem find_of_mem (hs : pl.list.Pairwise fun n m => n.objOffset < m.objOffset) {n : VmPageListNode}
    (hn : n ∈ pl.list) : pl.find n.objOffset = some n := by
  unfold find
  generalize pl.list = l at hs hn
  induction l with
  | nil => cases hn
  | cons m rest ih =>
    rw [List.pairwise_cons] at hs
    rcases List.mem_cons.mp hn with rfl | hrest
    · simp
    · have hne : m.objOffset ≠ n.objOffset := Nat.ne_of_lt (hs.1 n hrest)
      rw [List.find?_cons_of_neg (by simpa using hne)]
      exact ih hs.2 hrest

theorem find_eq_none {key : Nat} (h : ∀ n ∈ pl.list, n.objOffset ≠ key) : pl.find key = none := by
  unfold find
  rw [List.find?_eq_none]
  intro n hn
  simpa using h n hn

/-- `lower_bound` returns the node with the least key at or above `key`. -/
theorem lowerBound_some (hs : pl.list.Pairwise fun n m => n.objOffset < m.objOffset) {key : Nat}
    {n : VmPageListNode} (h : pl.lowerBound key = some n) :
    n ∈ pl.list ∧ key ≤ n.objOffset ∧ ∀ m ∈ pl.list, key ≤ m.objOffset → n.objOffset ≤ m.objOffset := by
  unfold lowerBound at h
  obtain ⟨hkey, as, bs, hl, has⟩ := List.find?_eq_some_iff_append.mp h
  refine ⟨List.mem_of_find?_eq_some h, by simpa using hkey, fun m hm hkm => ?_⟩
  rw [hl] at hm hs
  rw [List.pairwise_append, List.pairwise_cons] at hs
  rcases List.mem_append.mp hm with hm | hm
  · exact absurd hkm (by simpa using has m hm)
  · rcases List.mem_cons.mp hm with rfl | hm
    · exact le_rfl
    · exact Nat.le_of_lt (hs.2.1.1 m hm)

theorem lowerBound_none {key : Nat} (h : pl.lowerBound key = none) : ∀ m ∈ pl.list, m.objOffset < key := by
  unfold lowerBound at h
  rw [List.find?_eq_none] at h
  intro m hm
  simpa using h m hm

/-! ## Slots by page number -/

section Slots

variable (hwf : pl.WellFormed)
include hwf

/-- The slots of a node of the list are the slots of its page numbers. -/
theorem slotAt_of_mem {n : VmPageListNode} (hn : n ∈ pl.list) {j : Nat} (hj : j < kPageFanOut) :
    pl.slotAt (n.objOffset / PAGE_SIZE + j) = n.pages j := by
  obtain ⟨hkey, hidx⟩ := page_of_node (hwf.aligned n hn) hj
  rw [slotAt, hkey, hidx, slotIn, find_of_mem hwf.sorted hn]
  rfl

/-- The slot of `u` in the node at `u`'s node offset. -/
theorem lookup_eq_slotAt {n : VmPageListNode} (hn : n ∈ pl.list) {u : Nat}
    (hat : n.objOffset = u / kPageFanOut * (PAGE_SIZE * kPageFanOut)) :
    n.objOffset / PAGE_SIZE + u % kPageFanOut = u ∧ n.Lookup (u % kPageFanOut) = pl.slotAt u := by
  have hu : n.objOffset / PAGE_SIZE + u % kPageFanOut = u := by
    rw [hat]
    unfold PAGE_SIZE kPageFanOut
    omega
  refine ⟨hu, ?_⟩
  rw [VmPageListNode.Lookup, ← slotAt_of_mem hwf hn (Nat.mod_lt _ (by decide)), hu]

end Slots

/-- A populated page number lies in a node of the list. -/
theorem exists_mem_of_slotAt {u : Nat} (h : (pl.slotAt u).IsEmpty = false) :
    ∃ n ∈ pl.list, n.objOffset / PAGE_SIZE + u % kPageFanOut = u ∧ n.objOffset =
      u / kPageFanOut * (PAGE_SIZE * kPageFanOut) := by
  unfold slotAt slotIn at h
  split at h
  · rename_i n hfind
    have hkey : n.objOffset = u / kPageFanOut * (PAGE_SIZE * kPageFanOut) := by
      simpa using List.find?_some hfind
    refine ⟨n, List.mem_of_find?_eq_some hfind, ?_, hkey⟩
    rw [hkey]
    unfold PAGE_SIZE kPageFanOut
    omega
  · cases h


theorem slotAt_eq_empty {u : Nat}
    (h : ∀ n ∈ pl.list, n.objOffset ≠ u / kPageFanOut * (PAGE_SIZE * kPageFanOut)) :
    pl.slotAt u = .empty := by
  rw [slotAt, slotIn, find_eq_none h]

end VmPageList

/-! ## Bracketing in offset order -/

/-- A start still waiting is closed by the next entry, an end of its kind. -/
theorem bracketedFrom_some {kind : IntervalType × DirtyState} :
    ∀ {L : List (Nat × VmPageOrMarker)}, bracketedFrom (some kind) L = true →
      ∃ b t rest, L = (b, t) :: rest ∧ t.IsIntervalEnd = true ∧ t.intervalKind = some kind ∧
        bracketedFrom none rest = true
  | [], h => by simp [bracketedFrom] at h
  | (b, t) :: rest, h => by
    simp only [bracketedFrom, Bool.and_eq_true, beq_iff_eq] at h
    exact ⟨b, t, rest, rfl, h.1.1, h.1.2, h.2⟩

/-- In a bracketed list sorted by page number, every start is followed by an
end of its kind with no entry in between. -/
theorem bracketedFrom_start : ∀ {L : List (Nat × VmPageOrMarker)} {pending : Option (IntervalType × DirtyState)},
    L.Pairwise (fun x y => x.1 < y.1) → bracketedFrom pending L = true →
    ∀ {a : Nat} {s : VmPageOrMarker}, (a, s) ∈ L → s.IsIntervalStart = true →
      ∃ b t, (b, t) ∈ L ∧ a < b ∧ t.IsIntervalEnd = true ∧ t.intervalKind = s.intervalKind ∧
        ∀ x ∈ L, ¬ (a < x.1 ∧ x.1 < b)
  | [], _, _, _, _, _, ha, _ => absurd ha List.not_mem_nil
  | (p, s') :: rest, pending, hs, hb, a, s, ha, hst => by
    rw [List.pairwise_cons] at hs
    -- a start further on keeps its end, and the head lies before it
    have lift : (a, s) ∈ rest → (∃ b t, (b, t) ∈ rest ∧ a < b ∧ t.IsIntervalEnd = true ∧
        t.intervalKind = s.intervalKind ∧ ∀ x ∈ rest, ¬ (a < x.1 ∧ x.1 < b)) →
        ∃ b t, (b, t) ∈ (p, s') :: rest ∧ a < b ∧ t.IsIntervalEnd = true ∧
          t.intervalKind = s.intervalKind ∧ ∀ x ∈ (p, s') :: rest, ¬ (a < x.1 ∧ x.1 < b) := by
      rintro hrest ⟨b, t, hbt, hab, hend, hkind, hnot⟩
      refine ⟨b, t, List.mem_cons_of_mem _ hbt, hab, hend, hkind, fun x hx => ?_⟩
      rcases List.mem_cons.mp hx with rfl | hx
      · have := hs.1 (a, s) hrest
        dsimp only at this ⊢
        omega
      · exact hnot x hx
    cases pending with
    | none =>
      by_cases hst' : s'.IsIntervalStart = true
      · rw [bracketedFrom, if_pos hst'] at hb
        rcases List.mem_cons.mp ha with heq | hrest
        · -- the head is the start: its end is the next entry
          obtain ⟨rfl, rfl⟩ := Prod.mk.injEq _ _ _ _ ▸ heq
          obtain ⟨kind, hk⟩ := exists_intervalKind (isInterval_of_isIntervalStart hst)
          rw [hk] at hb
          obtain ⟨b, t, rest', rfl, hend, hkind', -⟩ := bracketedFrom_some hb
          rw [List.pairwise_cons] at hs
          refine ⟨b, t, by simp, hs.1 (b, t) (by simp), hend, hkind'.trans hk.symm, fun x hx => ?_⟩
          rcases List.mem_cons.mp hx with rfl | hx
          · simp
          rcases List.mem_cons.mp hx with rfl | hx
          · simp
          · have := hs.2.1 x hx
            omega
        · exact lift hrest (bracketedFrom_start hs.2 hb hrest hst)
      · rw [bracketedFrom, if_neg hst', Bool.and_eq_true] at hb
        rcases List.mem_cons.mp ha with heq | hrest
        · obtain ⟨rfl, rfl⟩ := Prod.mk.injEq _ _ _ _ ▸ heq
          exact absurd hst hst'
        · exact lift hrest (bracketedFrom_start hs.2 hb.2 hrest hst)
    | some kind =>
      simp only [bracketedFrom, Bool.and_eq_true] at hb
      rcases List.mem_cons.mp ha with heq | hrest
      · obtain ⟨rfl, rfl⟩ := Prod.mk.injEq _ _ _ _ ▸ heq
        exact absurd hb.1.1 (by simp [isIntervalEnd_eq_false_of_isIntervalStart hst])
      · exact lift hrest (bracketedFrom_start hs.2 hb.2 hrest hst)

/-- In a bracketed list sorted by page number, every end follows a start with
no entry in between, unless it closes the start still waiting before the list. -/
theorem bracketedFrom_end : ∀ {L : List (Nat × VmPageOrMarker)} {pending : Option (IntervalType × DirtyState)},
    L.Pairwise (fun x y => x.1 < y.1) → bracketedFrom pending L = true →
    ∀ {b : Nat} {t : VmPageOrMarker}, (b, t) ∈ L → t.IsIntervalEnd = true →
      (∃ a s, (a, s) ∈ L ∧ a < b ∧ s.IsIntervalStart = true ∧ ∀ x ∈ L, ¬ (a < x.1 ∧ x.1 < b)) ∨
        (pending.isSome = true ∧ L.head? = some (b, t))
  | [], _, _, _, _, _, hbt, _ => absurd hbt List.not_mem_nil
  | (p, s') :: rest, pending, hs, hb, b, t, hbt, hend => by
    rw [List.pairwise_cons] at hs
    -- a start found further on is still the one before `b`, the head lying before it
    have lift : (∃ a s, (a, s) ∈ rest ∧ a < b ∧ s.IsIntervalStart = true ∧
        ∀ x ∈ rest, ¬ (a < x.1 ∧ x.1 < b)) →
        ∃ a s, (a, s) ∈ (p, s') :: rest ∧ a < b ∧ s.IsIntervalStart = true ∧
          ∀ x ∈ (p, s') :: rest, ¬ (a < x.1 ∧ x.1 < b) := by
      rintro ⟨a, s, has, hab, hst, hnot⟩
      refine ⟨a, s, List.mem_cons_of_mem _ has, hab, hst, fun x hx => ?_⟩
      rcases List.mem_cons.mp hx with rfl | hx
      · have := hs.1 (a, s) has
        dsimp only at this ⊢
        omega
      · exact hnot x hx
    cases pending with
    | none =>
      by_cases hst' : s'.IsIntervalStart = true
      · rw [bracketedFrom, if_pos hst'] at hb
        rcases List.mem_cons.mp hbt with heq | hrest
        · obtain ⟨rfl, rfl⟩ := Prod.mk.injEq _ _ _ _ ▸ heq
          exact absurd hend (by simp [isIntervalEnd_eq_false_of_isIntervalStart hst'])
        · rcases bracketedFrom_end hs.2 hb hrest hend with hbefore | ⟨-, hhead⟩
          · exact .inl (lift hbefore)
          · -- `b` closes the head's start
            obtain ⟨rest', rfl⟩ := List.head?_eq_some_iff.mp hhead
            rw [List.pairwise_cons] at hs
            refine .inl ⟨p, s', by simp, hs.1 (b, t) (by simp), hst', fun x hx => ?_⟩
            rcases List.mem_cons.mp hx with rfl | hx
            · simp
            rcases List.mem_cons.mp hx with rfl | hx
            · simp
            · have := hs.2.1 x hx
              omega
      · rw [bracketedFrom, if_neg hst', Bool.and_eq_true] at hb
        rcases List.mem_cons.mp hbt with heq | hrest
        · obtain ⟨rfl, rfl⟩ := Prod.mk.injEq _ _ _ _ ▸ heq
          exact absurd hend (by simpa using hb.1)
        · rcases bracketedFrom_end hs.2 hb.2 hrest hend with hbefore | ⟨hnone, -⟩
          · exact .inl (lift hbefore)
          · cases hnone
    | some kind =>
      simp only [bracketedFrom, Bool.and_eq_true] at hb
      rcases List.mem_cons.mp hbt with heq | hrest
      · exact .inr ⟨rfl, by rw [heq]; rfl⟩
      · rcases bracketedFrom_end hs.2 hb.2 hrest hend with hbefore | ⟨hnone, -⟩
        · exact .inl (lift hbefore)
        · cases hnone

namespace VmPageList

variable {pl : VmPageList}

section Bracketing

variable (hwf : pl.WellFormed)
include hwf

/-- The populated slots are the nonempty slots of their page numbers. -/
theorem mem_populated {u : Nat} {s : VmPageOrMarker} :
    (u, s) ∈ pl.populated ↔ pl.slotAt u = s ∧ s.IsEmpty = false := by
  constructor
  · intro h
    obtain ⟨n, hn, hu⟩ := List.mem_flatMap.mp h
    obtain ⟨j, hj, hju⟩ := List.mem_map.mp hu
    obtain ⟨hjr, hje⟩ := List.mem_filter.mp hj
    obtain ⟨rfl, rfl⟩ := Prod.mk.injEq _ _ _ _ ▸ hju
    exact ⟨slotAt_of_mem hwf hn (List.mem_range.mp hjr), by simpa using hje⟩
  · rintro ⟨rfl, hne⟩
    obtain ⟨n, hn, hu, -⟩ := exists_mem_of_slotAt hne
    have hidx : u % kPageFanOut < kPageFanOut := Nat.mod_lt _ (by decide)
    have hslot := slotAt_of_mem hwf hn hidx
    rw [hu] at hslot
    refine List.mem_flatMap.mpr ⟨n, hn, List.mem_map.mpr ⟨u % kPageFanOut, ?_, ?_⟩⟩
    · exact List.mem_filter.mpr ⟨List.mem_range.mpr hidx, by simp [← hslot, hne]⟩
    · rw [hu, hslot]

/-- The populated slots are in increasing page order. -/
theorem populated_sorted : pl.populated.Pairwise fun x y => x.1 < y.1 := by
  rw [populated, List.pairwise_flatMap]
  constructor
  · -- within a node, in index order
    intro n _
    rw [VmPageListNode.populated, List.pairwise_map]
    exact (List.pairwise_lt_range.filter _).imp fun h => by omega
  · -- across nodes, in key order: a node's pages end where the next node's begin
    refine hwf.sorted.imp_of_mem fun {n m} hn hm hnm x hx y hy => ?_
    obtain ⟨i, hi, rfl⟩ := List.mem_map.mp hx
    obtain ⟨j, hj, rfl⟩ := List.mem_map.mp hy
    have hi' := List.mem_range.mp (List.mem_filter.mp hi).1
    have hn' := hwf.aligned n hn
    have hm' := hwf.aligned m hm
    unfold PAGE_SIZE kPageFanOut at *
    dsimp only
    omega

/-- Every start is followed by an end of its kind, with nothing populated in between. -/
theorem WellFormed.start_end {a : Nat} (h : (pl.slotAt a).IsIntervalStart = true) :
    ∃ b, a < b ∧ (pl.slotAt b).IsIntervalEnd = true ∧
      (pl.slotAt b).intervalKind = (pl.slotAt a).intervalKind ∧ pl.EmptyOn (a + 1) b := by
  have hmem : (a, pl.slotAt a) ∈ pl.populated :=
    (mem_populated hwf).mpr ⟨rfl, isEmpty_eq_false_of_isInterval (isInterval_of_isIntervalStart h)⟩
  obtain ⟨b, t, hbt, hab, hend, hkind, hnot⟩ :=
    bracketedFrom_start (populated_sorted hwf) hwf.bracketed hmem h
  obtain ⟨rfl, -⟩ := (mem_populated hwf).mp hbt
  refine ⟨b, hab, hend, hkind, fun c hac hcb => ?_⟩
  by_contra hne
  exact hnot _ ((mem_populated hwf).mpr ⟨rfl, by simpa using hne⟩) ⟨hac, hcb⟩

/-- Every end follows a start, with nothing populated in between. -/
theorem WellFormed.end_start {b : Nat} (h : (pl.slotAt b).IsIntervalEnd = true) :
    ∃ a, a < b ∧ (pl.slotAt a).IsIntervalStart = true ∧ pl.EmptyOn (a + 1) b := by
  have hmem : (b, pl.slotAt b) ∈ pl.populated :=
    (mem_populated hwf).mpr ⟨rfl, isEmpty_eq_false_of_isInterval (isInterval_of_isIntervalEnd h)⟩
  rcases bracketedFrom_end (populated_sorted hwf) hwf.bracketed hmem h with
    ⟨a, s, has, hab, hst, hnot⟩ | ⟨hnone, -⟩
  · obtain ⟨rfl, -⟩ := (mem_populated hwf).mp has
    refine ⟨a, hab, hst, fun c hac hcb => ?_⟩
    by_contra hne
    exact hnot _ ((mem_populated hwf).mpr ⟨rfl, by simpa using hne⟩) ⟨hac, hcb⟩
  · cases hnone

end Bracketing

theorem EmptyOn.trans {lo mid hi : Nat} (h₁ : pl.EmptyOn lo mid) (h₂ : pl.EmptyOn mid hi) :
    pl.EmptyOn lo hi := by
  intro c hlo hhi
  rcases Nat.lt_or_ge c mid with hc | hc
  · exact h₁ c hlo hc
  · exact h₂ c hc hhi

theorem EmptyOn.mono {lo hi lo' hi' : Nat} (h : pl.EmptyOn lo hi) (hlo : lo ≤ lo') (hhi : hi' ≤ hi) :
    pl.EmptyOn lo' hi' :=
  fun c hc hc' => h c (by omega) (by omega)

theorem emptyOn_single {u : Nat} (h : (pl.slotAt u).IsEmpty = true) : pl.EmptyOn u (u + 1) :=
  fun c hc hc' => by rwa [show c = u by omega]

/-- Empty slots of a node are empty page numbers. -/
theorem emptyOn_of_node (hwf : pl.WellFormed) {n : VmPageListNode} (hn : n ∈ pl.list) {lo hi : Nat}
    (hhi : hi ≤ kPageFanOut) (h : ∀ c, lo ≤ c → c < hi → (n.pages c).IsEmpty = true) :
    pl.EmptyOn (n.objOffset / PAGE_SIZE + lo) (n.objOffset / PAGE_SIZE + hi) := by
  intro c hlo hhi'
  have hslot := slotAt_of_mem hwf hn (j := c - n.objOffset / PAGE_SIZE) (by omega)
  rw [show n.objOffset / PAGE_SIZE + (c - n.objOffset / PAGE_SIZE) = c by omega] at hslot
  rw [hslot]
  exact h _ (by omega) (by omega)

/-! ## Inside an interval -/

/-- A start with nothing populated from it up to `u` puts `u` inside its interval. -/
theorem inside_of_start (hwf : pl.WellFormed) {a u : Nat} (hst : (pl.slotAt a).IsIntervalStart = true)
    (hau : a < u) (he : pl.EmptyOn (a + 1) (u + 1)) : pl.Inside u := by
  obtain ⟨b, hab, hend, -, hempty⟩ := hwf.start_end hst
  -- the start's end is populated, so it lies past `u`
  have hub : u < b := by
    by_contra hbu
    have := he b (by omega) (by omega)
    simp [isEmpty_eq_false_of_isInterval (isInterval_of_isIntervalEnd hend)] at this
  exact ⟨a, b, hau, hub, hst, hend, hempty⟩

/-- An end with nothing populated from `u` up to it puts `u` inside its interval. -/
theorem inside_of_end (hwf : pl.WellFormed) {b u : Nat} (hend : (pl.slotAt b).IsIntervalEnd = true)
    (hub : u < b) (he : pl.EmptyOn u b) : pl.Inside u := by
  obtain ⟨a, hab, hst, hempty⟩ := hwf.end_start hend
  have hau : a < u := by
    by_contra hua
    have := he a (by omega) hab
    simp [isEmpty_eq_false_of_isInterval (isInterval_of_isIntervalStart hst)] at this
  exact ⟨a, b, hau, hub, hst, hend, hempty⟩

/-- Inside an interval, the populated slot nearest below is its start. -/
theorem isIntervalStart_of_inside {a u : Nat} (hin : pl.Inside u) (ha : (pl.slotAt a).IsEmpty = false)
    (hau : a < u) (he : pl.EmptyOn (a + 1) u) : (pl.slotAt a).IsIntervalStart = true := by
  obtain ⟨a', b', ha'u, hub', hst', -, hempty'⟩ := hin
  rcases lt_trichotomy a a' with h | rfl | h
  · -- the start would be populated in the empty stretch below `u`
    have := he a' (by omega) ha'u
    simp [isEmpty_eq_false_of_isInterval (isInterval_of_isIntervalStart hst')] at this
  · exact hst'
  · -- `a` would be populated inside the interval
    have := hempty' a (by omega) (by omega)
    simp [ha] at this

/-- Inside an interval, the populated slot nearest above is its end. -/
theorem isIntervalEnd_of_inside {b u : Nat} (hin : pl.Inside u) (hb : (pl.slotAt b).IsEmpty = false)
    (hub : u < b) (he : pl.EmptyOn (u + 1) b) : (pl.slotAt b).IsIntervalEnd = true := by
  obtain ⟨a', b', ha'u, hub', -, hend', hempty'⟩ := hin
  rcases lt_trichotomy b b' with h | rfl | h
  · have := hempty' b (by omega) h
    simp [hb] at this
  · exact hend'
  · have := he b' (by omega) h
    simp [isEmpty_eq_false_of_isInterval (isInterval_of_isIntervalEnd hend')] at this

/-- A populated page is not strictly inside an interval. -/
theorem not_inside_of_populated {u : Nat} (h : (pl.slotAt u).IsEmpty = false) : ¬ pl.Inside u := by
  rintro ⟨a, b, hau, hub, -, -, hempty⟩
  have := hempty u (by omega) hub
  simp [h] at this

/-- With nothing populated above `u`, no interval ends there. -/
theorem not_inside_of_empty_above {u : Nat} (h : ∀ c, u < c → (pl.slotAt c).IsEmpty = true) :
    ¬ pl.Inside u := by
  rintro ⟨a, b, -, hub, -, hend, -⟩
  have := h b hub
  simp [isEmpty_eq_false_of_isInterval (isInterval_of_isIntervalEnd hend)] at this

/-! ## The lookups against the reference -/

theorem MAX_SIZE_eq : MAX_SIZE = 2 ^ 64 - 2 ^ 17 := by
  unfold MAX_SIZE kPageFanOut PAGE_SIZE
  norm_num

/-- Below `MAX_SIZE` the skewed offset does not wrap: the node of `offset` is
the node of its page number. -/
theorem offsetToNodeOffset_eq {offset : Nat} (hoff : offset < MAX_SIZE) :
    offsetToNodeOffset offset pl.listSkew = pl.pageOf offset / kPageFanOut * (PAGE_SIZE * kPageFanOut) := by
  have hskew := pl.listSkew_lt
  rw [MAX_SIZE_eq] at hoff
  have hlt : offset + pl.listSkew < 2 ^ 64 := by unfold PAGE_SIZE kPageFanOut at hskew; omega
  unfold offsetToNodeOffset pageOf
  rw [Nat.mod_eq_of_lt hlt]
  unfold PAGE_SIZE kPageFanOut
  omega

/-- Below `MAX_SIZE` the index of `offset` in its node is that of its page number. -/
theorem offsetToNodeIndex_eq {offset : Nat} (hoff : offset < MAX_SIZE) :
    offsetToNodeIndex offset pl.listSkew = pl.pageOf offset % kPageFanOut := by
  have hskew := pl.listSkew_lt
  rw [MAX_SIZE_eq] at hoff
  have hlt : offset + pl.listSkew < 2 ^ 64 := by unfold PAGE_SIZE kPageFanOut at hskew; omega
  unfold offsetToNodeIndex pageOf
  rw [Nat.mod_eq_of_lt hlt, Nat.shiftRight_eq_div_pow]
  rfl

/-- What `IfOffsetInIntervalHelper` returns is an interval sentinel. -/
theorem ifOffsetInIntervalHelper_isInterval {offset : Nat} {n : VmPageListNode} {s : VmPageOrMarker}
    (h : pl.IfOffsetInIntervalHelper offset n = some s) : s.IsInterval = true := by
  unfold IfOffsetInIntervalHelper at h
  dsimp only at h
  repeat' split at h
  all_goals cases h <;>
    first | assumption | exact isInterval_of_isIntervalStart ‹_› | exact isInterval_of_isIntervalEnd ‹_›

/-- With no node at or above `offset`'s node, `offset` is in no interval. -/
theorem not_inInterval_of_below {offset : Nat} (hoff : offset < MAX_SIZE)
    (h : ∀ m ∈ pl.list, m.objOffset < offsetToNodeOffset offset pl.listSkew) : ¬ pl.InInterval offset := by
  rw [offsetToNodeOffset_eq hoff] at h
  have hempty : ∀ c, pl.pageOf offset ≤ c → (pl.slotAt c).IsEmpty = true := by
    intro c hc
    rw [slotAt_eq_empty fun m hm hkey => ?_]
    · rfl
    have := h m hm
    rw [hkey] at this
    unfold PAGE_SIZE kPageFanOut at this
    omega
  rintro (hint | hin)
  · have := hempty _ le_rfl
    simp [isEmpty_eq_false_of_isInterval hint] at this
  · exact not_inside_of_empty_above (fun c hc => hempty c hc.le) hin

section Lookups

variable (hwf : pl.WellFormed)
include hwf

/-- The walk right from `index` in a node whose slots below `index` are empty,
with nothing populated from the page `u` up to the walk, finds an interval end
exactly when `u` is inside an interval. -/
theorem rightWalk_iff {n : VmPageListNode} (hn : n ∈ pl.list) {u index : Nat}
    (hu : u < n.objOffset / PAGE_SIZE + index) (he : pl.EmptyOn u (n.objOffset / PAGE_SIZE + index))
    (hbelow : ∀ j < index, (n.pages j).IsEmpty = true) :
    (match n.firstRight index with
      | some p => if p.IsIntervalEnd then some p else none
      | none => none).isSome = true ↔ pl.Inside u := by
  cases hwalk : n.firstRight index with
  | some p =>
    obtain ⟨j, hij, hj, rfl, hne, hbetween⟩ := VmPageListNode.firstRightLoop_some hwalk
    have hslot := slotAt_of_mem hwf hn (j := j) (by unfold kPageFanOut at hj ⊢; omega)
    -- nothing is populated from `u` up to the slot the walk stops at
    have hempty : pl.EmptyOn u (n.objOffset / PAGE_SIZE + j) :=
      he.trans (emptyOn_of_node hwf hn (by unfold kPageFanOut at hj ⊢; omega) hbetween)
    by_cases hend : (n.pages j).IsIntervalEnd = true
    · simp only [if_pos hend, Option.isSome_some, true_iff]
      exact inside_of_end hwf (hslot ▸ hend) (by omega) hempty
    · simp only [if_neg hend, Option.isSome_none, Bool.false_eq_true, false_iff]
      intro hin
      exact hend (hslot ▸ isIntervalEnd_of_inside hin (hslot ▸ hne) (by omega) (hempty.mono (by omega) le_rfl))
  | none =>
    -- the node would be empty
    have hnone := VmPageListNode.firstRightLoop_none hwalk
    obtain ⟨j, hj, hne⟩ := VmPageListNode.exists_populated (hwf.nonempty n hn)
    rcases Nat.lt_or_ge j index with hji | hji
    · simp [hbelow j hji] at hne
    · simp [hnone j hji (by unfold kPageFanOut at hj ⊢; omega)] at hne

/-- In the node holding the empty page `u`, the walk left finds a start, or
the walk right an end, exactly when `u` is inside an interval. -/
theorem walks_iff {n : VmPageListNode} (hn : n ∈ pl.list) {u : Nat}
    (hu : n.objOffset / PAGE_SIZE + u % kPageFanOut = u) (hem : (pl.slotAt u).IsEmpty = true) :
    (match n.firstLeft (u % kPageFanOut) with
      | some p => if p.IsIntervalStart then some p else none
      | none =>
        match n.firstRight (u % kPageFanOut + 1) with
        | some p => if p.IsIntervalEnd then some p else none
        | none => none).isSome = true ↔ pl.Inside u := by
  have hidx : u % kPageFanOut < kPageFanOut := Nat.mod_lt _ (by decide)
  cases hleft : n.firstLeft (u % kPageFanOut) with
  | some p =>
    obtain ⟨j, hj, rfl, hne, hbetween⟩ := VmPageListNode.firstLeft_some hleft
    have hslot := slotAt_of_mem hwf hn (j := j) (by omega)
    -- nothing is populated above the slot the walk stops at, up to `u` itself
    have hnode : pl.EmptyOn (n.objOffset / PAGE_SIZE + (j + 1)) (n.objOffset / PAGE_SIZE + u % kPageFanOut) :=
      emptyOn_of_node hwf hn hidx.le fun c hjc hcu => hbetween c (by omega) hcu
    have hempty : pl.EmptyOn (n.objOffset / PAGE_SIZE + j + 1) (u + 1) := by
      rw [hu] at hnode
      exact (hnode.mono (by omega) le_rfl).trans (emptyOn_single hem)
    by_cases hst : (n.pages j).IsIntervalStart = true
    · simp only [if_pos hst, Option.isSome_some, true_iff]
      exact inside_of_start hwf (hslot ▸ hst) (by omega) hempty
    · simp only [if_neg hst, Option.isSome_none, Bool.false_eq_true, false_iff]
      intro hin
      exact hst (hslot ▸ isIntervalStart_of_inside hin (hslot ▸ hne) (by omega)
        (hempty.mono le_rfl (by omega)))
  | none =>
    have hbelow := VmPageListNode.firstLeft_none hleft
    refine rightWalk_iff hwf hn (by omega) (by rw [← Nat.add_assoc, hu]; exact emptyOn_single hem)
      fun j hj => ?_
    rcases Nat.lt_succ_iff_lt_or_eq.mp hj with hj | rfl
    · exact hbelow j hj
    · rwa [← slotAt_of_mem hwf hn hidx, hu]

/-- `IfOffsetInIntervalHelper` on the lower-bound node finds a sentinel exactly
when `offset` is in an interval. -/
theorem ifOffsetInIntervalHelper_isSome_iff {offset : Nat} (hoff : offset < MAX_SIZE)
    {n : VmPageListNode} (hlb : pl.lowerBound (offsetToNodeOffset offset pl.listSkew) = some n) :
    (pl.IfOffsetInIntervalHelper offset n).isSome = true ↔ pl.InInterval offset := by
  obtain ⟨hn, hle, hleast⟩ := lowerBound_some hwf.sorted hlb
  have hK := hwf.aligned n hn
  rw [offsetToNodeOffset_eq hoff] at hle hleast
  unfold IfOffsetInIntervalHelper InInterval
  dsimp only
  rw [offsetToNodeOffset_eq hoff, offsetToNodeIndex_eq hoff]
  generalize pl.pageOf offset = u at hle hleast ⊢
  unfold VmPageListNode.offset
  by_cases hat : n.objOffset = u / kPageFanOut * (PAGE_SIZE * kPageFanOut)
  · -- the lower-bound node holds `u`
    rw [if_pos hat]
    obtain ⟨hu, hslot⟩ := lookup_eq_slotAt hwf hn hat
    rw [hslot]
    by_cases hint : (pl.slotAt u).IsInterval = true
    · simp [hint]
    by_cases hem : (pl.slotAt u).IsEmpty = true
    · rw [if_neg hint, if_neg (by simp [hem])]
      refine (walks_iff hwf hn hu hem).trans ?_
      simp [hint]
    · rw [if_neg hint, if_pos (by simpa using hem)]
      simpa [hint] using not_inside_of_populated (by simpa using hem)
  · -- `u`'s node is missing, and so is every node up to the lower-bound one
    rw [if_neg hat]
    have hlt : u / kPageFanOut * (PAGE_SIZE * kPageFanOut) < n.objOffset := lt_of_le_of_ne hle (Ne.symm hat)
    have hu : u < n.objOffset / PAGE_SIZE := by
      unfold PAGE_SIZE kPageFanOut at *
      omega
    have hempty : pl.EmptyOn u (n.objOffset / PAGE_SIZE) := by
      intro c huc hc
      rw [slotAt_eq_empty fun m hm hkey => ?_]
      · rfl
      have := hleast m hm (by rw [hkey]; unfold PAGE_SIZE kPageFanOut at *; omega)
      unfold PAGE_SIZE kPageFanOut at *
      omega
    have hnot : (pl.slotAt u).IsInterval = false := by
      simpa using fun h => (isEmpty_eq_false_of_isInterval h ▸ hempty u le_rfl hu : false = true)
    refine (rightWalk_iff hwf hn (by simpa using hu) (by simpa using hempty)
      fun j hj => absurd hj (Nat.not_lt_zero j)).trans ?_
    simp [hnot]

/-- **`IsOffsetInInterval` agrees with the reference.** -/
theorem isOffsetInInterval_iff {offset : Nat} (hoff : offset < MAX_SIZE) :
    pl.IsOffsetInInterval offset = true ↔ pl.InInterval offset := by
  unfold IsOffsetInInterval
  cases hlb : pl.lowerBound (offsetToNodeOffset offset pl.listSkew) with
  | none => simpa using not_inInterval_of_below hoff (lowerBound_none hlb)
  | some n => exact ifOffsetInIntervalHelper_isSome_iff hwf hoff hlb

/-- **`IsOffsetInZeroInterval` agrees with the reference**: every interval is a
zero interval. -/
theorem isOffsetInZeroInterval_iff {offset : Nat} (hoff : offset < MAX_SIZE) :
    pl.IsOffsetInZeroInterval offset = true ↔ pl.InInterval offset := by
  unfold IsOffsetInZeroInterval
  cases hlb : pl.lowerBound (offsetToNodeOffset offset pl.listSkew) with
  | none => simpa using not_inInterval_of_below hoff (lowerBound_none hlb)
  | some n =>
    refine Iff.trans ?_ (ifOffsetInIntervalHelper_isSome_iff hwf hoff hlb)
    cases hfound : pl.IfOffsetInIntervalHelper offset n with
    | none => simp [hfound]
    | some s => simp [hfound, isIntervalZero_eq_isInterval, ifOffsetInIntervalHelper_isInterval hfound]

/-- The lookup of `LookupOrAllocateCheckForInterval` finds a sentinel exactly
when `offset` is in an interval. -/
theorem foundInterval_isSome_iff {offset : Nat} (hoff : offset < MAX_SIZE) :
    (pl.FoundInterval offset (pl.lowerBound (offsetToNodeOffset offset pl.listSkew))).isSome = true ↔
      pl.InInterval offset := by
  cases hlb : pl.lowerBound (offsetToNodeOffset offset pl.listSkew) with
  | none => simpa [FoundInterval] using not_inInterval_of_below hoff (lowerBound_none hlb)
  | some n =>
    simp only [FoundInterval]
    split_ifs with hshort
    · -- the short cut: the slot of `offset` is itself a sentinel
      obtain ⟨hat, hint⟩ := hshort
      have hn := (lowerBound_some hwf.sorted hlb).1
      unfold VmPageListNode.offset at hat
      rw [offsetToNodeOffset_eq hoff] at hat
      rw [offsetToNodeIndex_eq hoff, (lookup_eq_slotAt hwf hn hat).2] at hint
      simpa [InInterval] using Or.inl hint
    · exact ifOffsetInIntervalHelper_isSome_iff hwf hoff hlb

/-- **The flag of `LookupOrAllocateCheckForInterval(offset, false)` agrees with
the reference**, whether or not the node allocation it may make succeeds. -/
theorem lookupOrAllocateCheckForInterval_flag {offset : Nat} (hoff : offset < MAX_SIZE) (avail : Nat) :
    ∃ r, pl.LookupOrAllocateCheckForInterval offset false avail = some r ∧
      (r.2.2 = true ↔ pl.InInterval offset) := by
  unfold LookupOrAllocateCheckForInterval
  dsimp only
  by_cases hmax : offsetToNodeOffset offset pl.listSkew ≥ MAX_SIZE
  · -- no node lies that high
    rw [if_pos hmax]
    refine ⟨_, rfl, ?_⟩
    simpa using not_inInterval_of_below hoff fun m hm => lt_of_lt_of_le (hwf.below m hm) hmax
  · rw [if_neg hmax]
    have hfound := foundInterval_isSome_iff hwf hoff
    cases hf : pl.FoundInterval offset (pl.lowerBound (offsetToNodeOffset offset pl.listSkew)) with
    | some found =>
      rw [hf] at hfound
      exact ⟨(pl, none, true), by simp, by simpa using hfound⟩
    | none =>
      rw [hf] at hfound
      simp only [Option.isSome_none, Bool.false_and, Bool.false_eq_true, if_false]
      split
      · exact ⟨_, rfl, by simpa using hfound⟩
      · exact ⟨_, rfl, by simpa using hfound⟩

end Lookups

/-- **The interval queries agree.** On every well-formed page list, whatever
its skew, `IsOffsetInInterval`, `IsOffsetInZeroInterval` and the flag of
`LookupOrAllocateCheckForInterval(offset, false)` all say that an offset below
`MAX_SIZE` is in an interval exactly when it is by the reference. -/
theorem interval_lookups_agree (hwf : pl.WellFormed) {offset : Nat} (hoff : offset < MAX_SIZE) (avail : Nat) :
    (pl.IsOffsetInInterval offset = true ↔ pl.InInterval offset) ∧
      (pl.IsOffsetInZeroInterval offset = true ↔ pl.InInterval offset) ∧
      ∃ r, pl.LookupOrAllocateCheckForInterval offset false avail = some r ∧
        (r.2.2 = true ↔ pl.InInterval offset) :=
  ⟨isOffsetInInterval_iff hwf hoff, isOffsetInZeroInterval_iff hwf hoff,
    lookupOrAllocateCheckForInterval_flag hwf hoff avail⟩

/-- A list skewed by three pages holding one interval, over the VMO's pages
`0x12` to `0x19`: its start and end sit in slots 5 and 12 of the node at
`0x10000`. -/
def oneIntervalList : VmPageList :=
  ⟨[⟨0x10000, fun i => if i = 5 then ZeroInterval .Start .Dirty
      else if i = 12 then ZeroInterval .End .Dirty else .empty⟩], 0x3000, by decide⟩

example : oneIntervalList.IsOffsetInInterval 0x15000 = true := by decide

example : oneIntervalList.IsOffsetInInterval 0x1A000 = false := by decide

theorem interval_lookups_agree_one_interval :
    (oneIntervalList.IsOffsetInInterval 0x15000 = true ↔ oneIntervalList.InInterval 0x15000) ∧
      (oneIntervalList.IsOffsetInZeroInterval 0x15000 = true ↔ oneIntervalList.InInterval 0x15000) ∧
      ∃ r, oneIntervalList.LookupOrAllocateCheckForInterval 0x15000 false 0 = some r ∧
        (r.2.2 = true ↔ oneIntervalList.InInterval 0x15000) :=
  interval_lookups_agree (by decide +kernel) (by decide) 0

end VmPageList

end Zircon.Vm
