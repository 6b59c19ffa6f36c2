import Zircon.Memalloc.PoolView
import Zircon.Memalloc.TypeMap
import Zircon.StateTriple
import Zircon.Align

/-!
# `Pool` over whole runs

`Allocate`, `Free` and `UpdateFreeRamSubranges` each retype a run of
addresses the same way: `InsertSubrange` gives the run a node cut out of the
range holding it, and `Coalesce` merges that node with touching neighbours of
its type (`Retyped`). Each first calls `TryToEnsureTwoBookkeepingNodes`, which
may carve a chunk of free RAM into nodes and retype it as bookkeeping.

The state all of them keep is `Valid`: `ranges_` normalized, as `pool.h`
requires, and every node, linked or unused, inside tracked bookkeeping memory,
no two overlapping. The second half is what makes the first survive: a node is
named by its address, so a retyping that reached into a node would corrupt the
list. The methods never retype bookkeeping memory but through the refill, whose
chunk holds exactly the nodes it makes.

Each method's specification is a `Triple`: from a valid pool it returns in a
valid pool, or fails with `fit::failed` in a valid pool, or aborts. So every
run of these methods, whatever they return, stays valid (`Reachable.valid`).
-/

namespace Zircon.Memalloc

namespace Pool

open Runs (Holds Increasing)
open StateTriple

/-- What the public methods keep: `ranges_` normalized, and every node in
tracked bookkeeping memory with no two overlapping. -/
structure Valid (p : Pool) : Prop where
  normalized : p.Normalized
  slots : p.SlotsValid

/-! ## Retyping a run of addresses -/

/-- What `InsertSubrange(r, it)` followed by `Coalesce` leaves: the pool is
normalized, exactly `r`'s addresses are retyped, the nodes are those there
were, and every node but `it` is still linked, save those merged into `r`'s
node, which have `r`'s type and are back in `unused_`. -/
structure Retyped (p p' : Pool) (r : Range) (it : Nat) : Prop where
  normalized : p'.Normalized
  typeAt : ∀ x, p'.typeAt x = if Holds Range.addr Range.end r x then some r.type else p.typeAt x
  perm : (p'.slots ++ p'.unused).Perm (p.slots ++ p.unused)
  keeps : ∀ m ∈ p.ranges, m.slot ≠ it → m ∈ p'.ranges ∨ (m.range.type = r.type ∧ m.slot ∈ p'.unused)

theorem Inserted.coalesce {p p' : Pool} {r : Range} {it s : Nat} (h : Inserted p p' r it s)
    (hnd : (p.slots ++ p.unused).Nodup) : Retyped p (p'.Coalesce s) r it := by
  obtain ⟨hn, htype, hperm⟩ := coalesce_spec h.around
  refine ⟨hn, fun x => (htype x).trans (h.typeAt x), hperm.trans h.perm, fun m hm hms => ?_⟩
  -- `s` is `it` or was unused, so it is not the slot of a linked node
  have hms' : m.slot ≠ s := by
    rcases h.fresh with rfl | hs
    · exact hms
    · intro he
      exact List.disjoint_of_nodup_append hnd (List.mem_map_of_mem hm) (he ▸ hs)
  rw [← h.rangeAt]
  exact coalesce_keeps h.around (h.keeps m hm hms) hms'

/-- A retyping keeps the nodes in bookkeeping memory when every byte of a node
is bookkeeping already or is retyped to it. -/
theorem Retyped.slotsValid {p p' : Pool} {r : Range} {it : Nat} (h : Retyped p p' r it)
    (hnodes : ∀ s ∈ p.slots ++ p.unused, ∀ y, s ≤ y → y < s + sizeofNode →
      if Holds Range.addr Range.end r y then r.type = kPoolBookkeeping else p.typeAt y = some kPoolBookkeeping)
    (hdisj : (p.slots ++ p.unused).Pairwise fun s t => s + sizeofNode ≤ t ∨ t + sizeofNode ≤ s) :
    p'.SlotsValid := by
  refine ⟨fun s hs y hy₁ hy₂ => ?_, h.perm.symm.pairwise hdisj Or.symm⟩
  have hy := hnodes s (h.perm.subset hs) y hy₁ hy₂
  rw [h.typeAt]
  split_ifs at hy ⊢
  · rw [hy]
  · exact hy

/-- Retyping addresses none of which is bookkeeping keeps a valid pool valid. -/
theorem Retyped.valid {p p' : Pool} {r : Range} {it : Nat} (h : Retyped p p' r it) (hv : p.Valid)
    (hfree : ∀ x, Holds Range.addr Range.end r x → p.typeAt x ≠ some kPoolBookkeeping) : p'.Valid := by
  refine ⟨h.normalized, h.slotsValid (fun s hs y hy₁ hy₂ => ?_) hv.slots.disjoint⟩
  have hbk := hv.slots.bookkeeping s hs y hy₁ hy₂
  rw [if_neg fun hr => hfree y hr hbk]
  exact hbk

/-- Inside the range of a node, every address has that range's type. -/
theorem typeAt_of_mem {p : Pool} {n : Node} (hn : p.Normalized) (hm : n ∈ p.ranges) {x : Nat}
    (hx : Holds Range.addr Range.end n.range x) : p.typeAt x = some n.range.type :=
  hn.toIncreasing.labelAt_eq (List.mem_map_of_mem hm) hx

/-- A pool with one page of bookkeeping at `0x1000`, whose first four slots
are its two linked nodes and two unused ones, and free RAM after it. -/
def onePage : Pool where
  unused := [0x1050, 0x1078]
  ranges := [⟨0x1000, ⟨0x1000, 0x1000, kPoolBookkeeping⟩⟩, ⟨0x1028, ⟨0x2000, 0xE000, .kFreeRam⟩⟩]
  defaultMinAddr := 0
  defaultMaxAddr := kMax
  numRanges := 2

theorem onePage_valid : onePage.Valid := by
  refine ⟨by decide, fun s hs y hy₁ hy₂ => ?_, by decide⟩
  -- every slot lies in the bookkeeping page
  have hy : 0x1000 ≤ y ∧ y < 0x2000 := by
    simp only [onePage, slots, List.map_cons, List.map_nil, List.cons_append, List.nil_append, List.mem_cons,
      List.mem_nil_iff, or_false] at hs
    unfold sizeofNode at hy₂
    rcases hs with rfl | rfl | rfl | rfl <;> omega
  exact typeAt_of_mem (n := ⟨0x1000, ⟨0x1000, 0x1000, kPoolBookkeeping⟩⟩) (by decide) (by simp [onePage]) hy

/-- `InsertSubrange(r, it)` as a `Triple`, for `r` a non-empty part of the
range `cur` of the node `it`. -/
theorem insertSubrange_triple {p₀ : Pool} {A B : List Node} {it : Nat} {cur r : Range}
    (hn : p₀.Normalized) (hnd : (p₀.slots ++ p₀.unused).Nodup) (hp : p₀.ranges = A ++ ⟨it, cur⟩ :: B)
    (hr : cur.addr ≤ r.addr ∧ r.end ≤ cur.end) (hpos : 0 < r.size) :
    Triple (· = p₀) (InsertSubrange r (some it)) (fun s p => Inserted p₀ p r it s)
      (fun e p => e = .failed ∧ p.ranges = p₀.ranges ∧ p.numRanges = p₀.numRanges ∧
        (p.slots ++ p.unused).Sublist (p₀.slots ++ p₀.unused)) := by
  intro p hp₀
  subst hp₀
  have h := insertSubrange_spec hn hnd hp hr hpos
  revert h
  cases (InsertSubrange r (some it)).run p <;> exact id

theorem typeAt_of_ranges {p p' : Pool} (hr : p'.ranges = p.ranges) (x : Nat) : p'.typeAt x = p.typeAt x := by
  rw [typeAt, typeAt, tracked, tracked, hr]

/-- Normalization reads the ranges and their count alone. -/
theorem Normalized.of_ranges {p p' : Pool} (hn : p.Normalized) (hr : p'.ranges = p.ranges)
    (hc : p'.numRanges = p.numRanges) : p'.Normalized := by
  have ht : p'.tracked = p.tracked := by rw [tracked, tracked, hr]
  refine ⟨?_, ?_, ?_, ?_, ?_⟩
  · rw [ht]; exact hn.increasing
  · rw [ht]; exact hn.nonempty
  · rw [ht]; exact hn.noOverflow
  · rw [ht]; exact hn.maximal
  · rw [hc, hr]; exact hn.count

/-- A pool with the ranges of a valid one and some of its unused nodes is
valid. -/
theorem Valid.of_sublist {p p' : Pool} (hv : p.Valid) (hr : p'.ranges = p.ranges)
    (hc : p'.numRanges = p.numRanges) (hs : (p'.slots ++ p'.unused).Sublist (p.slots ++ p.unused)) :
    p'.Valid := by
  refine ⟨hv.normalized.of_ranges hr hc, ⟨fun s hm y hy₁ hy₂ => ?_, hv.slots.disjoint.sublist hs⟩⟩
  rw [typeAt_of_ranges hr]
  exact hv.slots.bookkeeping s (hs.subset hm) y hy₁ hy₂

/-- `InsertSubrange(r, it)` and then `Coalesce` on a valid pool, with `r` a
part of the range `cur` of the node `it` that is not bookkeeping, leave a
valid pool with exactly `r` retyped. -/
theorem Inserted.retype {p p' : Pool} {r cur : Range} {it s : Nat} (h : Inserted p p' r it s) (hv : p.Valid)
    (hn : ⟨it, cur⟩ ∈ p.ranges) (hr : cur.addr ≤ r.addr ∧ r.end ≤ cur.end) (hbk : cur.type ≠ kPoolBookkeeping) :
    (p'.Coalesce s).Valid ∧ Retyped p (p'.Coalesce s) r it := by
  have hret := h.coalesce hv.slots.nodup
  refine ⟨hret.valid hv fun x hx => ?_, hret⟩
  -- the addresses of `r` have `cur`'s type, which is not bookkeeping
  have hx' : Holds Range.addr Range.end cur x := by
    unfold Holds Range.end at hx ⊢
    unfold Range.end at hr
    omega
  rw [typeAt_of_mem hv.normalized (n := ⟨it, cur⟩) hn hx']
  exact fun h => hbk (Option.some.inj h)

/-- A failed `InsertSubrange` leaves a valid pool valid, with every address as
it was. -/
theorem valid_of_failed {p p' : Pool} {e : Fault} (hv : p.Valid)
    (h : e = .failed ∧ p'.ranges = p.ranges ∧ p'.numRanges = p.numRanges ∧
      (p'.slots ++ p'.unused).Sublist (p.slots ++ p.unused)) :
    e = .failed ∧ p'.Valid ∧ ∀ x, p'.typeAt x = p.typeAt x :=
  ⟨h.1, hv.of_sublist h.2.1 h.2.2.1 h.2.2.2, typeAt_of_ranges h.2.1⟩

/-- `InsertSubrange(r, it)` and then `Coalesce` as a `Triple`. -/
theorem retype_valid {p₀ : Pool} {A B : List Node} {it : Nat} {cur r : Range}
    (hv : p₀.Valid) (hp : p₀.ranges = A ++ ⟨it, cur⟩ :: B) (hr : cur.addr ≤ r.addr ∧ r.end ≤ cur.end)
    (hpos : 0 < r.size) (hbk : cur.type ≠ kPoolBookkeeping) :
    Triple (· = p₀) (InsertSubrange r (some it) >>= fun s => modify (·.Coalesce s))
      (fun _ p => p.Valid ∧ Retyped p₀ p r it)
      (fun e p => e = .failed ∧ p.Valid ∧ ∀ x, p.typeAt x = p₀.typeAt x) := by
  refine Triple.bind ((insertSubrange_triple hv.normalized hv.slots.nodup hp hr hpos).mono (fun _ h => h)
    (fun _ _ h => h) fun _ _ h => valid_of_failed hv h) fun s => ?_
  exact Triple.modify fun p hp' => hp'.retype hv (by rw [hp]; simp) hr hbk

/-! ## Finding the range that holds an address run -/

/-- In increasing ranges, two positions whose ranges hold one non-empty query
are one. -/
theorem index_holds_unique {ranges : List Range} {addr size : Nat}
    (hinc : ranges.Pairwise fun r s => r.end ≤ s.addr) (hsize : 0 < size) {i k : Nat}
    (hi : i < ranges.length) (hk : k < ranges.length)
    (hini : ranges[i].addr ≤ addr ∧ addr + size ≤ ranges[i].end)
    (hink : ranges[k].addr ≤ addr ∧ addr + size ≤ ranges[k].end) : i = k := by
  rcases Nat.lt_trichotomy i k with hik | rfl | hki
  · have := addr_add_size_le hinc hi hk hik
    unfold Range.end at hini hink
    omega
  · rfl
  · have := addr_add_size_le hinc hk hi hki
    unfold Range.end at hini hink
    omega

/-- In a normalized pool, `FindContainingRange` finds the node whose range
holds a non-empty `[addr, addr + size)`. -/
theorem findContainingRange_eq {p : Pool} {A B : List Node} {it addr size : Nat} {cur : Range}
    (hn : p.Normalized) (hp : p.ranges = A ++ ⟨it, cur⟩ :: B)
    (hin : cur.addr ≤ addr ∧ addr + size ≤ cur.end) (hsize : 0 < size) :
    p.FindContainingRange addr size = some it := by
  have hk : A.length < p.tracked.length := by simp [tracked, hp]
  have hcur : p.tracked[A.length] = cur := by simp [tracked, hp]
  obtain ⟨i, hi⟩ := findContainingRangeAmong_isSome hn.increasing hn.nonempty hk (hcur ▸ hin)
  obtain ⟨r, hri, hrin⟩ := findContainingRangeAmong_sound hi
  obtain ⟨hi', rfl⟩ := List.getElem?_eq_some_iff.mp hri
  have hik : i = A.length := index_holds_unique hn.increasing hsize hi' hk hrin (hcur ▸ hin)
  rw [FindContainingRange, hi, Option.bind_some, hik, hp]
  simp

/-- `InsertSubrange(r)` without a parent finds it first. -/
theorem insertSubrange_none {p : Pool} {r : Range} {it : Nat} (h : p.FindContainingRange r.addr r.size = some it) :
    (InsertSubrange r none).run p = (InsertSubrange r (some it)).run p := by
  simp only [InsertSubrange, EStateM.run, bind, EStateM.bind, get, getThe, MonadStateOf.get, EStateM.get,
    Option.or, h]

/-! ## `FindAllocatable` -/

/-- `Align(x, 2^k)` rounds up to a multiple of `2^k`. -/
theorem align_pow {x a k : Nat} (hk : k < 64) (h : Align x (2 ^ k) = some a) : 2 ^ k ∣ a ∧ x ≤ a := by
  unfold Align at h
  split_ifs at h with hover
  obtain rfl := Option.some.inj h
  have hpos : 0 < 2 ^ k := Nat.two_pow_pos k
  have hlt : 2 ^ k < 2 ^ 64 := Nat.pow_lt_pow_right (by norm_num) hk
  have hx : x + (2 ^ k - 1) < 2 ^ 64 := by unfold kMax at hover; omega
  obtain ⟨hdvd, hle, -⟩ := Align.alignUp_spec (w := 64) hk.le hx
  -- the mask of `Align` is the one of `alignUp` in 64 bits
  have heq : (x + 2 ^ k - 1) &&& (kMax - (2 ^ k - 1)) = Align.alignUp 64 k x := by
    rw [Align.alignUp, Nat.mod_eq_of_lt hx, Align.notMask, kMax, Nat.add_sub_assoc (by omega)]
  rw [heq]
  exact ⟨hdvd, hle⟩

/-- What the first-fit loop returns lies in a free range it scanned, at or
above `minAddr`, aligned, and leaves `size` bytes below `maxAddr + 1`. -/
theorem findAllocatableLoop_sound {size k minAddr maxAddr : Nat} (hk : k < 64) (l : List Range) {a : Nat}
    (h : findAllocatableLoop size (2 ^ k) minAddr maxAddr l = some a) :
    ∃ r ∈ l, r.type = .kFreeRam ∧ r.addr ≤ a ∧ a + size ≤ r.end ∧ minAddr ≤ a ∧
      a ≤ maxAddr + 1 - size ∧ 2 ^ k ∣ a := by
  induction l with
  | nil => cases h
  | cons r l ih =>
    rw [findAllocatableLoop] at h
    split_ifs at h with hskip hmax
    · obtain ⟨q, hq, hrest⟩ := ih h
      exact ⟨q, List.mem_cons_of_mem _ hq, hrest⟩
    · split at h
      · cases h
      · rename_i aligned halign
        split_ifs at h with hbig hfit
        · obtain ⟨q, hq, hrest⟩ := ih h
          exact ⟨q, List.mem_cons_of_mem _ hq, hrest⟩
        · -- the range itself has room at the aligned address
          obtain rfl := Option.some.inj h
          obtain ⟨hdvd, hge⟩ := align_pow hk halign
          have htype : r.type = .kFreeRam := by
            by_contra hne
            exact hskip (.inl hne)
          refine ⟨r, List.mem_cons_self, htype, ?_, ?_, ?_, ?_, hdvd⟩ <;> omega

/-- `FindAllocatable(size, 2^k, minAddr, maxAddr)` returns an address of a
tracked free range with `size` bytes of it from there, aligned, between
`minAddr` and `maxAddr`. -/
theorem findAllocatable_sound {p : Pool} {size k minAddr maxAddr a : Nat} (hk : k < 64)
    (h : p.FindAllocatable size (2 ^ k) minAddr maxAddr = some a) :
    ∃ n ∈ p.ranges, n.range.type = .kFreeRam ∧ n.range.addr ≤ a ∧ a + size ≤ n.range.end ∧
      minAddr ≤ a ∧ a + size ≤ maxAddr + 1 ∧ 2 ^ k ∣ a := by
  unfold FindAllocatable at h
  split_ifs at h with hsize
  obtain ⟨r, hr, htype, hlo, hhi, hmin, hmax, hdvd⟩ := findAllocatableLoop_sound hk _ h
  obtain ⟨n, hn, rfl⟩ := List.mem_map.mp hr
  exact ⟨n, hn, htype, hlo, hhi, hmin, by omega, hdvd⟩

/-! ## `TryToEnsureTwoBookkeepingNodes` -/

/-- The slots `PopulateAsBookkeeping(addr, size)` carves: one every
`sizeof(Node)` bytes from `addr`, as long as a whole node fits. -/
def carved (addr size : Nat) : List Nat := (List.range (size / sizeofNode)).map (addr + sizeofNode * ·)

theorem mem_carved {addr size t : Nat} (ht : t ∈ carved addr size) : addr ≤ t ∧ t + sizeofNode ≤ addr + size := by
  obtain ⟨i, hi, rfl⟩ := List.mem_map.mp ht
  rw [List.mem_range] at hi
  unfold sizeofNode at *
  omega

theorem carved_disjoint (addr size : Nat) :
    (carved addr size).Pairwise fun s t => s + sizeofNode ≤ t ∨ t + sizeofNode ≤ s := by
  unfold carved
  rw [List.pairwise_map]
  exact List.pairwise_lt_range.imp fun h => .inl (by unfold sizeofNode; omega)

/-- The loop of `PopulateAsBookkeeping` pushes the carved slots, given a turn
for each. -/
theorem populateLoop_fst (stop fuel : Nat) : ∀ (addr : Nat) (unused : List Nat),
    (stop - addr) / sizeofNode ≤ fuel → (populateLoop stop fuel addr unused).1 = unused ++ carved addr (stop - addr) := by
  induction fuel with
  | zero =>
    intro addr unused h
    rw [carved, Nat.le_zero.mp h]
    simp [populateLoop]
  | succ fuel ih =>
    intro addr unused h
    by_cases hfit : addr < stop ∧ stop - addr ≥ sizeofNode
    · -- a slot at `addr`, then those from the next node on
      have hK : (stop - addr) / sizeofNode = (stop - (addr + sizeofNode)) / sizeofNode + 1 := by
        unfold sizeofNode at *
        omega
      rw [populateLoop, if_pos hfit, ih (addr + sizeofNode) _ (by unfold sizeofNode at *; omega), carved, carved,
        hK, List.range_succ_eq_map, List.map_cons, List.map_map, Nat.mul_zero, Nat.add_zero, List.append_assoc,
        List.singleton_append]
      congr 2
      exact List.map_congr_left fun i _ => by simp only [Function.comp_apply, Nat.succ_eq_add_one]; ring
    · rw [populateLoop, if_neg hfit, carved]
      have hK : (stop - addr) / sizeofNode = 0 := by
        unfold sizeofNode at *
        omega
      simp [hK]

/-- `PopulateAsBookkeeping(addr, size)` pushes the carved slots onto `unused_`. -/
theorem populateAsBookkeeping_eq (p : Pool) (addr size : Nat) :
    (p.PopulateAsBookkeeping addr size).1 = { p with unused := p.unused ++ carved addr size } := by
  have h := populateLoop_fst (addr + size) size addr p.unused (by unfold sizeofNode; omega)
  rw [Nat.add_sub_cancel_left] at h
  unfold PopulateAsBookkeeping
  rcases hq : populateLoop (addr + size) size addr p.unused with ⟨u, n⟩
  rw [hq] at h
  simp only at h ⊢
  rw [h]

/-- Two nodes of a pool with distinct slots are one. -/
theorem node_eq_of_slot {p : Pool} (hnd : p.slots.Nodup) {m n : Node} (hm : m ∈ p.ranges) (hn : n ∈ p.ranges)
    (h : m.slot = n.slot) : m = n :=
  List.inj_on_of_nodup_map hnd hm hn h

/-- A linked node is read through its slot. -/
theorem rangeAt_of_mem {p : Pool} (hnd : p.slots.Nodup) {it : Nat} {cur : Range} (hm : ⟨it, cur⟩ ∈ p.ranges) :
    p.rangeAt it = cur := by
  obtain ⟨A, B, hp⟩ := List.append_of_mem hm
  exact (at_of_nodup hnd hp).rangeAt

/-- A slot that is not linked reads as the empty free range. -/
theorem rangeAt_of_not_mem {p : Pool} {it : Nat} (h : it ∉ p.slots) : p.rangeAt it = ⟨0, 0, .kFreeRam⟩ := by
  rw [rangeAt, List.find?_eq_none.mpr fun n hn he => h (List.mem_map.mpr ⟨n, hn, beq_iff_eq.mp he⟩)]
  rfl

/-- A slot reads as the range of its node, or as the empty free range when it
is not linked. -/
theorem rangeAt_cases {p : Pool} (hnd : p.slots.Nodup) (it : Nat) :
    ⟨it, p.rangeAt it⟩ ∈ p.ranges ∨ p.rangeAt it = ⟨0, 0, .kFreeRam⟩ := by
  by_cases hs : it ∈ p.slots
  · obtain ⟨⟨j, cur⟩, hn, rfl⟩ := List.mem_map.mp hs
    rw [rangeAt_of_mem hnd hn]
    exact .inl hn
  · exact .inr (rangeAt_of_not_mem hs)

/-- What `FindContainingRange` returns is a linked node whose range holds the
query. -/
theorem findContainingRange_sound {p : Pool} {addr size it : Nat} (h : p.FindContainingRange addr size = some it) :
    ∃ cur, ⟨it, cur⟩ ∈ p.ranges ∧ cur.addr ≤ addr ∧ addr + size ≤ cur.end := by
  obtain ⟨i, hi, hs⟩ := Option.bind_eq_some_iff.mp h
  obtain ⟨n, hn, rfl⟩ := Option.map_eq_some_iff.mp hs
  obtain ⟨r, hri, hrin⟩ := findContainingRangeAmong_sound hi
  rw [tracked, List.getElem?_map, hn, Option.map_some, Option.some.injEq] at hri
  subst hri
  exact ⟨n.range, List.mem_of_getElem? hn, hrin⟩

/-- What `TryToEnsureTwoBookkeepingNodes` does to the type of each address:
nothing, or a chunk of `kBookkeepingChunkSize` bytes of free RAM becomes
bookkeeping. -/
def Refilled (p p' : Pool) : Prop :=
  (∀ x, p'.typeAt x = p.typeAt x) ∨
    ∃ a, (∀ x, Holds Range.addr Range.end ⟨a, kBookkeepingChunkSize, kPoolBookkeeping⟩ x →
        p.typeAt x = some .kFreeRam) ∧
      ∀ x, p'.typeAt x = if Holds Range.addr Range.end ⟨a, kBookkeepingChunkSize, kPoolBookkeeping⟩ x
        then some kPoolBookkeeping else p.typeAt x

/-- `orAbort`: a failure of the call stops the kernel. -/
theorem Triple.orAbort {α : Type} {P : Pool → Prop} {x : PoolM α} {Q : α → Pool → Prop} {E : Fault → Pool → Prop}
    (h : Triple P x Q E) : Triple P (Pool.orAbort x) Q fun e _ => e = .abort := by
  intro s hs
  have h' := h s hs
  simp only [EStateM.run] at h' ⊢
  unfold Pool.orAbort
  revert h'
  cases x s with
  | ok a s' => exact id
  | error e s' => exact fun _ => rfl

/-- `InsertSubrange(r)` without a parent, on a pool whose node `it` holds `r`. -/
theorem insertSubrange_none_triple {p₀ : Pool} {A B : List Node} {it : Nat} {cur r : Range}
    (hn : p₀.Normalized) (hnd : (p₀.slots ++ p₀.unused).Nodup) (hp : p₀.ranges = A ++ ⟨it, cur⟩ :: B)
    (hr : cur.addr ≤ r.addr ∧ r.end ≤ cur.end) (hpos : 0 < r.size) :
    Triple (· = p₀) (InsertSubrange r none) (fun s p => Inserted p₀ p r it s)
      (fun e p => e = .failed ∧ p.ranges = p₀.ranges ∧ p.numRanges = p₀.numRanges ∧
        (p.slots ++ p.unused).Sublist (p₀.slots ++ p₀.unused)) := by
  intro p hp₀
  subst hp₀
  rw [insertSubrange_none (findContainingRange_eq hn hp ⟨hr.1, by unfold Range.end at hr ⊢; omega⟩ hpos)]
  exact insertSubrange_triple hn hnd hp hr hpos p rfl

/-- `TryToEnsureTwoBookkeepingNodes()` on a valid pool returns a valid pool,
having at most retyped a chunk of free RAM as bookkeeping, and with every node
of another type than free RAM still linked, save bookkeeping ones merged into
the chunk's node; or it aborts. -/
theorem tryToEnsure_spec {p₀ : Pool} (hv : p₀.Valid) :
    Triple (· = p₀) TryToEnsureTwoBookkeepingNodes
      (fun _ p => p.Valid ∧ Refilled p₀ p ∧ ∀ m ∈ p₀.ranges, m.range.type ≠ .kFreeRam →
        m ∈ p.ranges ∨ (m.range.type = kPoolBookkeeping ∧ m.slot ∈ p.unused))
      (fun e _ => e = .abort) := by
  have hsame : ∀ p, p = p₀ → p.Valid ∧ Refilled p₀ p ∧ ∀ m ∈ p₀.ranges, m.range.type ≠ .kFreeRam →
      m ∈ p.ranges ∨ (m.range.type = kPoolBookkeeping ∧ m.slot ∈ p.unused) := by
    rintro p rfl
    exact ⟨hv, .inl fun _ => rfl, fun m hm _ => .inl hm⟩
  unfold TryToEnsureTwoBookkeepingNodes
  refine Triple.get_bind fun p hp => ?_
  subst p
  refine Triple.ite (fun _ => Triple.pure hsame) fun _ => ?_
  split
  · exact Triple.pure hsame
  rename_i addr hfa
  dsimp only
  refine Triple.ite (fun _ => Triple.bind (Triple.throw fun _ _ => rfl) fun _ => Triple.false) fun _ => ?_
  -- the chunk lies in a free range `cur` of the node `it`
  obtain ⟨⟨it, cur⟩, hn, hfree, hlo, hhi, -, -, -⟩ := findAllocatable_sound (k := 12) (by norm_num) hfa
  obtain ⟨A, B, hp⟩ := List.append_of_mem hn
  have hchunk : ∀ x, addr ≤ x → x < addr + kBookkeepingChunkSize → p₀.typeAt x = some .kFreeRam := by
    intro x hx₁ hx₂
    rw [typeAt_of_mem hv.normalized hn (by unfold Holds Range.end at *; omega), hfree]
  -- the carved nodes lie in the chunk, so they overlap no node of the pool
  have hcross : ∀ s ∈ p₀.slots ++ p₀.unused, ∀ t ∈ carved addr kBookkeepingChunkSize,
      s + sizeofNode ≤ t ∨ t + sizeofNode ≤ s := by
    intro s hs t ht
    by_contra hov
    have hin := mem_carved ht
    have hy := hv.slots.bookkeeping s hs (max s t) (le_max_left _ _) (by omega)
    rw [hchunk (max s t) (by omega) (by omega)] at hy
    exact absurd hy (by decide)
  have hdisj : (p₀.slots ++ p₀.unused ++ carved addr kBookkeepingChunkSize).Pairwise
      fun s t => s + sizeofNode ≤ t ∨ t + sizeofNode ≤ s :=
    List.pairwise_append.mpr ⟨hv.slots.disjoint, carved_disjoint _ _, hcross⟩
  have hnd₁ : (p₀.slots ++ p₀.unused ++ carved addr kBookkeepingChunkSize).Nodup :=
    hdisj.imp fun h => by unfold sizeofNode at h; omega
  refine Triple.bind (R := fun _ p => p = { p₀ with unused := p₀.unused ++ carved addr kBookkeepingChunkSize })
    (Triple.set fun _ _ => populateAsBookkeeping_eq _ _ _) fun _ => ?_
  refine Triple.intro fun p₁ hp₁ => ?_
  subst hp₁
  rw [List.append_assoc] at hnd₁ hdisj
  refine Triple.bind (Triple.orAbort (insertSubrange_none_triple (hv.normalized.of_ranges rfl rfl)
    hnd₁ hp ⟨hlo, hhi⟩ (show 0 < kBookkeepingChunkSize by decide))) fun s => ?_
  refine Triple.modify fun p hins => ?_
  have hret := hins.coalesce hnd₁
  refine ⟨⟨hret.normalized, hret.slotsValid (fun s hs y hy₁ hy₂ => ?_) hdisj⟩,
    .inr ⟨addr, fun x hx => hchunk x hx.1 hx.2, hret.typeAt⟩, fun m hm hty => ?_⟩
  · -- a byte of a node is in the chunk, or of a node that was there before
    split_ifs with hy
    · rfl
    · change s ∈ p₀.slots ++ (p₀.unused ++ carved addr kBookkeepingChunkSize) at hs
      rw [← List.append_assoc] at hs
      rcases List.mem_append.mp hs with hs | hs
      · exact hv.slots.bookkeeping s hs y hy₁ hy₂
      · have := mem_carved hs
        exact (hy ⟨show addr ≤ y by omega, show y < addr + kBookkeepingChunkSize by omega⟩).elim
  · -- `m` is not the free node the chunk was cut from
    have hms : m.slot ≠ it := fun he =>
      hty (by rw [node_eq_of_slot (List.nodup_append.mp hv.slots.nodup).1 hm hn he]; exact hfree)
    exact hret.keeps m hm hms

theorem Refilled.congr {p₀ p₁ p : Pool} (h : Refilled p₀ p₁) (ht : ∀ x, p.typeAt x = p₁.typeAt x) :
    Refilled p₀ p := by
  rcases h with h | ⟨a, hfree, h⟩
  · exact .inl fun x => (ht x).trans (h x)
  · exact .inr ⟨a, hfree, fun x => (ht x).trans (h x)⟩

/-! ## `Allocate` -/

/-- `Allocate(type, size, 2^k, min_addr, max_addr)` on a valid pool: it returns
an aligned address `a` within the bounds, in a valid pool where, after the
refill of bookkeeping, exactly the addresses of `[a, a + size)`, all free RAM,
have taken the type `type`; or it fails with every address as the refill left
it; or it aborts. -/
theorem allocate_spec {p₀ : Pool} (hv : p₀.Valid) (type : RangeType) (size : Nat) {k : Nat} (hk : k < 64)
    (minAddr maxAddr : Option Nat) :
    Triple (· = p₀) (Allocate type size (2 ^ k) minAddr maxAddr)
      (fun a p => p.Valid ∧ minAddr.getD p₀.defaultMinAddr ≤ a ∧
        a + size ≤ maxAddr.getD p₀.defaultMaxAddr + 1 ∧ 2 ^ k ∣ a ∧
        ∃ p₁, Refilled p₀ p₁ ∧ (∀ x, Holds Range.addr Range.end ⟨a, size, type⟩ x → p₁.typeAt x = some .kFreeRam) ∧
          ∀ x, p.typeAt x = if Holds Range.addr Range.end ⟨a, size, type⟩ x then some type else p₁.typeAt x)
      (fun e p => e = .abort ∨ (e = .failed ∧ p.Valid ∧ Refilled p₀ p)) := by
  unfold Allocate
  dsimp only
  refine Triple.ite (fun _ => Triple.bind (Triple.throw fun _ _ => .inl rfl) fun _ => Triple.false) fun hsize => ?_
  refine Triple.get_bind fun p hp => ?_
  subst p
  refine Triple.ite (fun _ => Triple.bind (Triple.throw fun _ _ => .inl rfl) fun _ => Triple.false) fun _ => ?_
  refine Triple.bind ((tryToEnsure_spec hv).mono (fun _ h => h) (fun _ _ h => h) fun _ _ h => .inl h) fun _ => ?_
  refine Triple.intro fun p₁ h₁ => ?_
  obtain ⟨hv₁, href, -⟩ := h₁
  refine Triple.get_bind fun p hp => ?_
  subst p
  split
  · -- `FindAllocatable` found `a` in the free range of the node `it`
    rename_i a hfa
    obtain ⟨⟨it, cur⟩, hn, hfree, hlo, hhi, hmin, hmax, hdvd⟩ := findAllocatable_sound hk hfa
    obtain ⟨A, B, hp⟩ := List.append_of_mem hn
    have hbk : cur.type ≠ kPoolBookkeeping := fun h => by rw [h] at hfree; exact absurd hfree (by decide)
    refine Triple.bind ((insertSubrange_none_triple (r := ⟨a, size, type⟩) hv₁.normalized hv₁.slots.nodup hp
      ⟨hlo, hhi⟩ (show 0 < size by omega)).mono (fun _ h => h) (fun _ _ h => h) fun _ p h => ?_) fun s => ?_
    · obtain ⟨he, hv', ht⟩ := valid_of_failed hv₁ h
      exact .inr ⟨he, hv', href.congr ht⟩
    refine Triple.bind (R := fun _ p => p.Valid ∧ Retyped p₁ p ⟨a, size, type⟩ it)
      (Triple.modify fun p hins => hins.retype hv₁ hn ⟨hlo, hhi⟩ hbk) fun _ => ?_
    refine Triple.pure fun p ⟨hv', hret⟩ => ⟨hv', hmin, hmax, hdvd, p₁, href, fun x hx => ?_, hret.typeAt⟩
    -- the allocated addresses lie in the free range `cur`
    rw [typeAt_of_mem hv₁.normalized hn (by simp only [Holds, Range.end] at hx hlo hhi ⊢; omega), hfree]
  · exact Triple.throw fun p hp => .inr ⟨rfl, hp ▸ hv₁, hp ▸ href⟩

/-! ## `Free` -/

/-- `Free(addr, size)` on a valid pool: it returns in a valid pool where,
after the refill of bookkeeping, `[addr, addr + size)` lay in memory of one
type `Free` may release, and exactly its addresses have become free RAM; or it
fails with every address as the refill left it; or it aborts. -/
theorem free_spec {p₀ : Pool} (hv : p₀.Valid) (addr size : Nat) :
    Triple (· = p₀) (Free addr size)
      (fun _ p => p.Valid ∧ ∃ p₁, Refilled p₀ p₁ ∧
        (∃ t, TypeMap.Releasable t ∧ ∀ x, Holds Range.addr Range.end ⟨addr, size, .kFreeRam⟩ x →
          p₁.typeAt x = some t) ∧
        ∀ x, p.typeAt x = if Holds Range.addr Range.end ⟨addr, size, .kFreeRam⟩ x then some .kFreeRam
          else p₁.typeAt x)
      (fun e p => e = .abort ∨ (e = .failed ∧ p.Valid ∧ Refilled p₀ p)) := by
  -- returning at once leaves the pool as it was, right when the run was free already
  have hsame : ∀ p, p = p₀ → (∀ x, Holds Range.addr Range.end ⟨addr, size, .kFreeRam⟩ x →
      p₀.typeAt x = some .kFreeRam) → p.Valid ∧ ∃ p₁, Refilled p₀ p₁ ∧
        (∃ t, TypeMap.Releasable t ∧ ∀ x, Holds Range.addr Range.end ⟨addr, size, .kFreeRam⟩ x →
          p₁.typeAt x = some t) ∧ ∀ x, p.typeAt x =
        if Holds Range.addr Range.end ⟨addr, size, .kFreeRam⟩ x then some .kFreeRam else p₁.typeAt x := by
    rintro p rfl hfree
    refine ⟨hv, p, .inl fun _ => rfl, ⟨.kFreeRam, .inl rfl, hfree⟩, fun x => ?_⟩
    split_ifs with hx
    · exact hfree x hx
    · rfl
  unfold Free
  dsimp only
  refine Triple.ite (fun _ => Triple.bind (Triple.throw fun _ _ => .inl rfl) fun _ => Triple.false) fun _ => ?_
  refine Triple.ite (fun h0 => Triple.pure fun p hp => hsame p hp fun x hx => ?_) fun h0 => ?_
  · simp only [Holds, Range.end] at hx
    omega
  refine Triple.get_bind fun p hp => ?_
  subst p
  split
  · rename_i it hfind
    obtain ⟨cur, hn, hin⟩ := findContainingRange_sound hfind
    rw [rangeAt_of_mem (List.nodup_append.mp hv.slots.nodup).1 hn]
    have hrun : ∀ x, Holds Range.addr Range.end ⟨addr, size, .kFreeRam⟩ x → Holds Range.addr Range.end cur x :=
      fun x hx => by simp only [Holds, Range.end] at hx hin ⊢; omega
    refine Triple.ite (fun hfree => Triple.pure fun p hp => hsame p hp fun x hx => ?_) fun hfree => ?_
    · -- a double free: the run lies in free RAM already
      rw [typeAt_of_mem hv.normalized hn (hrun x hx), hfree]
    refine Triple.bind ((tryToEnsure_spec hv).mono (fun _ h => h) (fun _ _ h => h) fun _ _ h => .inl h) fun _ => ?_
    refine Triple.intro fun p₁ h₁ => ?_
    obtain ⟨hv₁, href, hkeep⟩ := h₁
    refine Triple.get_bind fun p hp => ?_
    subst p
    rcases hkeep _ hn hfree with hn₁ | ⟨-, hu⟩
    · -- the node `it` is still linked, with its range
      rw [rangeAt_of_mem (List.nodup_append.mp hv₁.slots.nodup).1 hn₁]
      refine Triple.ite (fun _ => Triple.bind (Triple.throw fun _ _ => .inl rfl) fun _ => Triple.false)
        fun hext => ?_
      have hrel : TypeMap.Releasable cur.type := .inr ⟨by simpa using fun h => hext (.inr h), fun h => hext (.inl h)⟩
      obtain ⟨A, B, hp⟩ := List.append_of_mem hn₁
      exact (retype_valid hv₁ hp hin (show 0 < size by omega) fun h => hext (.inl h)).mono (fun _ h => h)
        (fun _ p h => ⟨h.1, p₁, href, ⟨cur.type, hrel, fun x hx => typeAt_of_mem hv₁.normalized hn₁ (hrun x hx)⟩,
          h.2.typeAt⟩) fun _ p h => .inr ⟨h.1, h.2.1, href.congr h.2.2⟩
    · -- its slot went back to `unused_`, so it reads as free RAM and the assertion fails
      rw [rangeAt_of_not_mem fun hs => List.disjoint_of_nodup_append hv₁.slots.nodup hs hu]
      exact Triple.ite (fun _ => Triple.bind (Triple.throw fun _ _ => .inl rfl) fun _ => Triple.false)
        fun hext => absurd (.inr rfl) hext
  · exact Triple.throw fun _ _ => .inl rfl

end Pool

end Zircon.Memalloc
