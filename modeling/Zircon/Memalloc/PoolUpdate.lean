import Zircon.Memalloc.PoolRun

/-!
# `UpdateFreeRamSubranges`

`UpdateFreeRamSubranges(type, addr, size)` gives the free RAM of
`[addr, addr + size)` the type `type`. It first calls
`TryToEnsureTwoBookkeepingNodes`, which may retype a chunk of free RAM as
bookkeeping; on return every address has the type `updatedType` gives it,
read off the pool the refill left.

The loop walks `ranges_` with an iterator that each turn moves on by one
node, while `InsertSubrange` and `Coalesce` relink the nodes around it. What
holds before a turn (`LoopAt`) is a boundary `b`: the nodes before the cursor
end by `b` and those from it on start at `b` or after; below `b` the addresses
have their final types, from `b` on those the loop started from. A turn moves
`b` to the end of the cursor's node, once that node has been retyped and
merged with its neighbours.

The model's loop takes fuel, one turn for each node linked when it starts and
one more. The turns that still have work are counted by the nodes from the
cursor on that start below `addr + size` (`pending`): a turn passes one of
them, and what follows a retyped part is what followed the free range it was
cut from, save the rest of that range, which starts at `addr + size`
(`LoopAt.retype`). So the fuel lasts until the loop ends
(`updateFreeRamLoop_spec`).
-/

namespace Zircon.Memalloc

namespace Pool

open Runs (Holds)
open StateTriple

/-- The type `UpdateFreeRamSubranges(type, addr, size)` owes the address `x`
of the pool `p` its loop starts from: `type` for free RAM of
`[addr, addr + size)`, its type in `p` for every other. -/
def updatedType (p : Pool) (type : RangeType) (addr size x : Nat) : Option RangeType :=
  if Holds Range.addr Range.end ⟨addr, size, type⟩ x ∧ p.typeAt x = some .kFreeRam then some type
  else p.typeAt x

/-- The nodes from the cursor on that start below `addr + size`: the turns
of the loop that may still retype something. -/
def pending (addr size : Nat) (B : List Node) : Nat := B.countP fun m => m.range.addr < addr + size

/-- Nothing is tracked at `x` when every node before some point of the list
ends by `x` and every node after it starts past `x`. -/
theorem typeAt_eq_none_of_split {p : Pool} {A B : List Node} (hp : p.ranges = A ++ B) {x : Nat}
    (hA : ∀ m ∈ A, m.range.end ≤ x) (hB : ∀ m ∈ B, x < m.range.addr) : p.typeAt x = none := by
  rw [typeAt, Runs.labelAt_eq_none_iff]
  rintro ⟨q, hq, hx⟩
  rw [tracked, hp, List.map_append] at hq
  rcases List.mem_append.mp hq with hq | hq
  · obtain ⟨m, hm, rfl⟩ := List.mem_map.mp hq
    exact absurd hx.2 (Nat.not_lt.mpr (hA m hm))
  · obtain ⟨m, hm, rfl⟩ := List.mem_map.mp hq
    exact absurd hx.1 (Nat.not_le.mpr (hB m hm))

/-! ## The state before each turn -/

/-- Before a turn of the loop that started from `p₁`, in the pool `p` with
the cursor at the first of the nodes `B`: the nodes before the cursor end by
`b`, those from it on start at `b` or after, and below `b` the addresses
already have the types they are owed. -/
structure LoopAt (p₁ : Pool) (type : RangeType) (addr size : Nat) (p : Pool) (b : Nat) (B : List Node) :
    Prop where
  valid : p.Valid
  typeAt : ∀ x, p.typeAt x = if x < b then updatedType p₁ type addr size x else p₁.typeAt x
  split : ∃ A, p.ranges = A ++ B ∧ ∀ m ∈ A, m.range.end ≤ b
  beyond : ∀ m ∈ B, b ≤ m.range.addr

section Loop

variable {p₁ p : Pool} {type : RangeType} {addr size b : Nat} {n : Node} {B : List Node}

/-- The loop starts at the first node, with nothing below the boundary. -/
theorem LoopAt.start (hv : p₁.Valid) : LoopAt p₁ type addr size p₁ 0 p₁.ranges :=
  ⟨hv, fun x => by rw [if_neg (Nat.not_lt_zero x)], ⟨[], rfl, by simp⟩, fun _ _ => Nat.zero_le _⟩

theorem LoopAt.base (h : LoopAt p₁ type addr size p b B) {x : Nat} (hx : b ≤ x) : p.typeAt x = p₁.typeAt x := by
  rw [h.typeAt, if_neg (Nat.not_lt.mpr hx)]

/-- From `b` up to the first node left, nothing was tracked. -/
theorem LoopAt.none_below (h : LoopAt p₁ type addr size p b B) {x : Nat} (hx : b ≤ x)
    (hB : ∀ m ∈ B, x < m.range.addr) : p₁.typeAt x = none := by
  obtain ⟨A, hp, hA⟩ := h.split
  rw [← h.base hx]
  exact typeAt_eq_none_of_split hp (fun m hm => (hA m hm).trans hx) hB

/-- The cursor's node, with the nodes after it. -/
theorem LoopAt.at (h : LoopAt p₁ type addr size p b (n :: B)) : ∃ A, p.At A n B ∧ ∀ m ∈ A, m.range.end ≤ b := by
  obtain ⟨A, hp, hA⟩ := h.split
  exact ⟨A, at_of_nodup (List.nodup_append.mp h.valid.slots.nodup).1 hp, hA⟩

/-- The addresses of the cursor's node have its type where the loop started. -/
theorem LoopAt.typeAt_cursor (h : LoopAt p₁ type addr size p b (n :: B)) {x : Nat}
    (hx : Holds Range.addr Range.end n.range x) : p₁.typeAt x = some n.range.type := by
  obtain ⟨A, hat, -⟩ := h.at
  rw [← h.base ((h.beyond n List.mem_cons_self).trans hx.1)]
  exact typeAt_of_mem h.valid.normalized (by rw [hat.ranges]; simp) hx

/-- When no node left starts below `addr + size`, every address has its type. -/
theorem LoopAt.finish (h : LoopAt p₁ type addr size p b B) (hB : ∀ m ∈ B, addr + size ≤ m.range.addr) (x : Nat) :
    p.typeAt x = updatedType p₁ type addr size x := by
  rw [h.typeAt]
  split_ifs with hx
  · rfl
  rw [updatedType, if_neg]
  rintro ⟨hhold, hfree⟩
  -- from `b` on, no node of `p₁` holds an address of `[addr, addr + size)`
  have hlt : x < addr + size := hhold.2
  rw [h.none_below (Nat.not_lt.mp hx) fun m hm => Nat.lt_of_lt_of_le hlt (hB m hm)] at hfree
  cases hfree

/-- A turn that passes the cursor's node without retyping it: it holds no
free RAM of `[addr, addr + size)`. -/
theorem LoopAt.skip (h : LoopAt p₁ type addr size p b (n :: B))
    (hskip : ¬(addr < n.range.end ∧ n.range.type = .kFreeRam)) : LoopAt p₁ type addr size p n.range.end B := by
  obtain ⟨A, hat, hA⟩ := h.at
  have hbn := h.beyond n List.mem_cons_self
  have hafter := (h.valid.normalized.around hat.ranges).2
  have hne : n.range.addr ≤ n.range.end := Nat.le_add_right _ _
  refine ⟨h.valid, fun x => ?_, ⟨A ++ [n], by rw [hat.ranges]; simp, fun m hm => ?_⟩, hafter⟩
  · rw [h.typeAt]
    by_cases hxb : x < b
    · rw [if_pos hxb, if_pos (by omega)]
    rw [if_neg hxb]
    by_cases hxe : x < n.range.end
    swap
    · rw [if_neg hxe]
    rw [if_pos hxe, updatedType, if_neg]
    rintro ⟨hhold, hfree⟩
    by_cases hxa : n.range.addr ≤ x
    · -- in the cursor's node, which is not free RAM reaching past `addr`
      rw [h.typeAt_cursor ⟨hxa, hxe⟩] at hfree
      exact hskip ⟨Nat.lt_of_le_of_lt hhold.1 hxe, Option.some.inj hfree⟩
    · -- between `b` and the cursor's node, where nothing is tracked
      have hnone := h.none_below (Nat.not_lt.mp hxb) fun m hm => by
        rcases List.mem_cons.mp hm with rfl | hm
        · omega
        · have := hafter m hm
          omega
      rw [hnone] at hfree
      cases hfree
  · rcases List.mem_append.mp hm with hm | hm
    · have := hA m hm
      omega
    · rw [List.mem_singleton.mp hm]

/-- A piece of free RAM cut off after `[addr, addr + size)` starts at
`addr + size`, so it is never pending. -/
theorem countP_after {cur r : Range} (hr : r.end = min cur.end (addr + size)) :
    (after cur r).countP (fun q => q.addr < addr + size) = 0 := by
  unfold after
  split_ifs with hlt
  · rw [List.countP_singleton, decide_eq_false (by dsimp only; omega)]
    rfl
  · rfl

theorem pending_eq (addr size : Nat) (B : List Node) :
    pending addr size B = (B.map (·.range)).countP (fun q => q.addr < addr + size) := by
  rw [List.countP_map]
  rfl

/-- A turn that retypes the free RAM of `[addr, addr + size)` in the cursor's
node: once `InsertSubrange` and `Coalesce` are done, the boundary moves to the
end of the node `s` that holds the retyped part, and the nodes after it are
those that were after the cursor's node, after the rest of that node,
which starts at `addr + size`. -/
theorem LoopAt.retype {p₂ : Pool} {s : Nat} (h : LoopAt p₁ type addr size p b (n :: B))
    (htype : type ≠ .kFreeRam) (hlt : n.range.addr < addr + size)
    (hfree : addr < n.range.end ∧ n.range.type = .kFreeRam)
    (hins : Inserted p p₂ ⟨max n.range.addr addr, min n.range.end (addr + size) - max n.range.addr addr, type⟩
      n.slot s) :
    ∃ b' B', LoopAt p₁ type addr size (p₂.Coalesce s) b' B' ∧
      (p₂.Coalesce s).nextOf s = B'.head?.map (·.slot) ∧ pending addr size B' ≤ pending addr size B := by
  set r : Range := ⟨max n.range.addr addr, min n.range.end (addr + size) - max n.range.addr addr, type⟩ with hr
  obtain ⟨A, hat, -⟩ := h.at
  have hn : n ∈ p.ranges := by rw [hat.ranges]; simp
  have hbn := h.beyond n List.mem_cons_self
  have hne : n.range.addr ≤ n.range.end := Nat.le_add_right _ _
  have hra : r.addr = max n.range.addr addr := rfl
  have hre : r.end = min n.range.end (addr + size) := by
    show max n.range.addr addr + (min n.range.end (addr + size) - max n.range.addr addr) = _
    have := hfree.1
    omega
  have hcut : n.range.addr ≤ r.addr ∧ r.end ≤ n.range.end := by
    rw [hra, hre]
    omega
  have hbk : n.range.type ≠ kPoolBookkeeping := by
    rw [hfree.2]
    decide
  obtain ⟨hv₃, hret⟩ := hins.retype h.valid hn hcut hbk
  -- the nodes after `s`: the rest of the cursor's node, then `B`
  obtain ⟨L, R, hp₂, hR⟩ := hins.tail
  have hcur : p.rangeAt n.slot = n.range := hat.rangeAt
  have hidx : p.indexOf n.slot = A.length := hat.indexOf
  have hdrop : (A ++ n :: B).drop (A.length + 1) = B := by simp
  rw [hcur, hidx, hat.ranges, hdrop] at hR
  obtain ⟨L', m, R', hp₃, hma, hme, hmt, hR'⟩ := coalesce_at hins.around hp₂
  obtain ⟨hbefore, hafter⟩ := hv₃.normalized.around hp₃
  have hm₃ : (⟨s, m⟩ : Node) ∈ (p₂.Coalesce s).ranges := by rw [hp₃]; simp
  have hrm : r.end ≤ m.end := hme
  refine ⟨m.end, R', ⟨hv₃, fun x => ?_, ⟨L' ++ [⟨s, m⟩], by rw [hp₃]; simp, fun q hq => ?_⟩, hafter⟩,
    (at_of_nodup (List.nodup_append.mp hv₃.slots.nodup).1 hp₃).nextOf, ?_⟩
  · rw [hret.typeAt, h.typeAt]
    have hbr : b ≤ r.addr := hbn.trans hcut.1
    by_cases hx : Holds Range.addr Range.end r x
    · -- `r` is the free RAM of `[addr, addr + size)` in the cursor's node
      have hxn : Holds Range.addr Range.end n.range x := ⟨hcut.1.trans hx.1, Nat.lt_of_lt_of_le hx.2 hcut.2⟩
      have hxa : Holds Range.addr Range.end ⟨addr, size, type⟩ x := by
        have h₁ : r.addr ≤ x := hx.1
        have h₂ : x < r.end := hx.2
        rw [hra] at h₁
        rw [hre] at h₂
        exact ⟨show addr ≤ x by omega, show x < addr + size by omega⟩
      rw [if_pos hx, if_pos (Nat.lt_of_lt_of_le hx.2 hrm), updatedType,
        if_pos ⟨hxa, by rw [h.typeAt_cursor hxn, hfree.2]⟩]
    rw [if_neg hx]
    by_cases hxb : x < b
    · have : r.addr ≤ r.end := Nat.le_add_right _ _
      rw [if_pos hxb, if_pos (by omega)]
    rw [if_neg hxb]
    by_cases hxm : x < m.end
    swap
    · rw [if_neg hxm]
    rw [if_pos hxm, updatedType, if_neg]
    rintro ⟨hhold, hfree₁⟩
    by_cases hxe : n.range.end ≤ x
    · -- past the cursor's node, `x` is in the merged node, of type `type`
      have hrr : r.addr ≤ r.end := Nat.le_add_right _ _
      have hxm' : Holds Range.addr Range.end m x := ⟨by omega, hxm⟩
      have ht := typeAt_of_mem hv₃.normalized hm₃ hxm'
      rw [hret.typeAt, if_neg hx, h.base (Nat.not_lt.mp hxb), hfree₁, hmt] at ht
      exact htype (Option.some.inj ht).symm
    by_cases hxa : n.range.addr ≤ x
    · -- in the cursor's node and in `[addr, addr + size)`, so in `r`
      have h₁ : addr ≤ x := hhold.1
      have h₂ : x < addr + size := hhold.2
      exact hx ⟨by rw [hra]; omega, by rw [hre]; omega⟩
    · -- between `b` and the cursor's node nothing is tracked
      have hnone := h.none_below (Nat.not_lt.mp hxb) fun q hq => by
        rcases List.mem_cons.mp hq with rfl | hq
        · omega
        · have := (h.valid.normalized.around hat.ranges).2 q hq
          omega
      rw [hnone] at hfree₁
      cases hfree₁
  · rcases List.mem_append.mp hq with hq | hq
    · have h₁ : q.range.end ≤ m.addr := hbefore q hq
      have h₂ : m.addr ≤ m.end := Nat.le_add_right _ _
      omega
    · rw [List.mem_singleton.mp hq]
  · -- what is pending after `s` was pending after the cursor's node
    have hsub : pending addr size R' ≤ pending addr size R := hR'.sublist.countP_le
    have hR₁ : pending addr size R = pending addr size B := by
      rw [pending_eq, pending_eq, hR, List.countP_append, countP_after hre, Nat.zero_add]
    omega

/-- The part of the range `cur` a turn retypes lies within it, and is not
empty when `cur` meets `[addr, addr + size)`. -/
theorem cut_within {cur : Range} (hne : 0 < cur.size) (hsize : 0 < size) (hlt : cur.addr < addr + size)
    (haddr : addr < cur.end) :
    (cur.addr ≤ max cur.addr addr ∧
      max cur.addr addr + (min cur.end (addr + size) - max cur.addr addr) ≤ cur.end) ∧
      0 < min cur.end (addr + size) - max cur.addr addr := by
  unfold Range.end at *
  omega

/-- **The loop of `UpdateFreeRamSubranges`.** From a state `LoopAt`
describes, with more fuel than nodes pending, the loop returns with every
address of the type it is owed, or fails for want of a node with the
addresses below some boundary retyped and the others as they were; the pool
stays valid either way. -/
theorem updateFreeRamLoop_spec (htype : type ≠ .kFreeRam) (hsize : 0 < size) (fuel : Nat) :
    ∀ {p b B}, LoopAt p₁ type addr size p b B → pending addr size B < fuel →
      Triple (· = p) (updateFreeRamLoop type addr size fuel (B.head?.map (·.slot)))
        (fun _ p' => p'.Valid ∧ ∀ x, p'.typeAt x = updatedType p₁ type addr size x)
        (fun e p' => e = .failed ∧ p'.Valid ∧
          ∃ b', ∀ x, p'.typeAt x = if x < b' then updatedType p₁ type addr size x else p₁.typeAt x) := by
  induction fuel with
  | zero =>
    intro p b B _ hf
    exact absurd hf (Nat.not_lt_zero _)
  | succ fuel ih =>
    intro p b B h hf
    cases B with
    | nil => exact Triple.pure fun p' hp' => hp' ▸ ⟨h.valid, h.finish nofun⟩
    | cons n B =>
      obtain ⟨A, hat, -⟩ := h.at
      have hafter := (h.valid.normalized.around hat.ranges).2
      have hne : 0 < n.range.size := h.valid.normalized.nonempty _ (by rw [tracked, hat.ranges]; simp)
      rw [List.head?_cons, Option.map_some, updateFreeRamLoop]
      dsimp only
      refine Triple.get_bind fun p' hp' => ?_
      subst p'
      rw [hat.rangeAt]
      refine Triple.ite (fun hend => Triple.pure fun p' hp' => hp' ▸ ⟨h.valid, h.finish fun m hm => ?_⟩)
        fun hlt => ?_
      · -- the cursor's node starts at `addr + size` or after, and so do those after it
        rcases List.mem_cons.mp hm with rfl | hm
        · exact hend
        · exact hend.trans ((Nat.le_add_right _ _).trans (hafter m hm))
      -- the cursor's node is pending
      have hcount : pending addr size (n :: B) = pending addr size B + 1 := by
        rw [pending, List.countP_cons, if_pos (decide_eq_true (Nat.not_le.mp hlt))]
        rfl
      refine Triple.ite (fun hfree => ?_) fun hskip => Triple.get_bind fun p' hp' => ?_
      · obtain ⟨hcut, hpos⟩ := cut_within hne hsize (Nat.not_le.mp hlt) hfree.1
        have hp : p.ranges = A ++ ⟨n.slot, n.range⟩ :: B := hat.ranges
        refine Triple.bind ((insertSubrange_triple h.valid.normalized h.valid.slots.nodup hp hcut hpos).mono
          (fun _ h => h) (fun _ _ h => h) fun _ _ hf => ?_) fun s => ?_
        · -- a failed `InsertSubrange` changes no type
          obtain ⟨he, hv', ht⟩ := valid_of_failed h.valid hf
          exact ⟨he, hv', b, fun x => (ht x).trans (h.typeAt x)⟩
        refine Triple.bind (R := fun _ p' => ∃ b' B', LoopAt p₁ type addr size p' b' B' ∧
            p'.nextOf s = B'.head?.map (·.slot) ∧ pending addr size B' ≤ pending addr size B)
          (Triple.modify fun p' hins => h.retype htype (Nat.not_le.mp hlt) hfree hins) fun _ => ?_
        refine Triple.get_bind fun p' hp' => ?_
        obtain ⟨b', B', h', hnext, hle⟩ := hp'
        rw [hnext]
        exact ih h' (by omega)
      · subst p'
        rw [hat.nextOf]
        exact ih (h.skip hskip) (by omega)

end Loop

/-- **`UpdateFreeRamSubranges(type, addr, size)`** on a valid pool: after the
refill of bookkeeping, it returns with exactly the free RAM of
`[addr, addr + size)` retyped as `type`; or it fails for want of a node with
that done below some address and nothing done above it; or it aborts. The
pool it leaves is valid. -/
theorem updateFreeRamSubranges_spec {p₀ : Pool} (hv : p₀.Valid) (type : RangeType) (addr size : Nat) :
    Triple (· = p₀) (UpdateFreeRamSubranges type addr size)
      (fun _ p => p.Valid ∧ ∃ p₁, Refilled p₀ p₁ ∧ ∀ x, p.typeAt x = updatedType p₁ type addr size x)
      (fun e p => e = .abort ∨ (e = .failed ∧ p.Valid ∧ ∃ p₁ b, Refilled p₀ p₁ ∧
        ∀ x, p.typeAt x = if x < b then updatedType p₁ type addr size x else p₁.typeAt x)) := by
  unfold UpdateFreeRamSubranges
  dsimp only
  refine Triple.ite (fun _ => Triple.bind (Triple.throw fun _ _ => .inl rfl) fun _ => Triple.false) fun hok => ?_
  refine Triple.ite (fun h0 => Triple.pure fun p hp => ⟨hp ▸ hv, p₀, .inl fun _ => rfl, fun x => ?_⟩)
    fun hsize => ?_
  · -- an empty run retypes nothing
    rw [hp, updatedType, if_neg fun hx => ?_]
    have h₁ : addr ≤ x := hx.1.1
    have h₂ : x < addr + size := hx.1.2
    omega
  have htype : type ≠ .kFreeRam := fun h => hok (.inl (by rw [h]; rfl))
  refine Triple.bind ((tryToEnsure_spec hv).mono (fun _ h => h) (fun _ _ h => h) fun _ _ h => .inl h) fun _ => ?_
  refine Triple.intro fun p₁ h₁ => ?_
  obtain ⟨hv₁, href, -⟩ := h₁
  refine Triple.get_bind fun p hp => ?_
  subst p
  exact (updateFreeRamLoop_spec htype (Nat.pos_of_ne_zero hsize) _ (LoopAt.start hv₁)
    (Nat.lt_succ_of_le List.countP_le_length)).mono (fun _ h => h) (fun _ _ h => ⟨h.1, p₁, href, h.2⟩)
    fun _ _ ⟨he, hv', b, hb⟩ => .inr ⟨he, hv', p₁, b, href, hb⟩

/-- On `onePage`, the update of `[0x3000, 0x5000)` to test payload returns. -/
theorem updateFreeRamSubranges_spec_onePage :
    onePage.Valid ∧ (stateOf ((UpdateFreeRamSubranges kPoolTestPayload 0x3000 0x2000).run onePage)).Valid ∧
      ∃ p₁, Refilled onePage p₁ ∧ ∀ x,
        (stateOf ((UpdateFreeRamSubranges kPoolTestPayload 0x3000 0x2000).run onePage)).typeAt x =
          updatedType p₁ kPoolTestPayload 0x3000 0x2000 x :=
  ⟨onePage_valid, (updateFreeRamSubranges_spec onePage_valid kPoolTestPayload 0x3000 0x2000).run_ok rfl rfl⟩

end Pool

end Zircon.Memalloc
