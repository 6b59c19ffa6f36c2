import Mathlib
import Zircon.IdAllocator.Grow

/-!
# The other operations of `IdAllocator`, and the allocators they reach

`Allocate` finds a free id by walking down the tree from the root level
(`Find`), `MarkAllocated` and `Free` set and clear one id, `Shrink` cuts
every level down to the new count and drops the levels no longer needed, and
`Reset` shrinks or grows and then clears every level.

None of them touches level 0's size except to bring it to the rounded count,
so every allocator that calls reach without a panic keeps level 0 fitting its
count (`Reachable.level0Fits`), and the rollback panic of `Grow` is there from
every one of them (`reachable_grow_error_only_from_level_zero`).
-/

namespace Zircon

namespace IdAllocator

open Bitmap (RawBitmap)

/-- `IsBusy(id)`: ids from `id_count_` on are free. -/
def IsBusy (a : IdAllocator) (id : Nat) : Bool :=
  if id ≥ a.id_count_ then false else ((a.levels_ 0).Get id (id + 1)).1

/-- `MarkBusy(id)`. -/
def MarkBusy (a : IdAllocator) (id : Nat) : Option IdAllocator := a.MarkBusyInternal id 0

/-- `MarkFree(id)`. -/
def MarkFree (a : IdAllocator) (id : Nat) : Option IdAllocator := a.MarkFreeInternal id 0

/-- `FindFirstUnset(level, base_index)`, after its
`ZX_ASSERT((base_index & kLevelMask) == 0)`: the first clear bit among the 64
from `base_index`, or `kMaxId`. `Get` writes `first_zero` whenever it returns
`false`. -/
def FindFirstUnset (a : IdAllocator) (level base_index : Nat) : Option Nat :=
  if base_index &&& kLevelMask = 0 then
    let (all_set, first_zero) := (a.levels_ level).Get base_index (base_index + kMaxChildren)
    if !all_set then some (first_zero.getD 0) else some kMaxId
  else none

/-- The loop of `Find` over the levels from the top down, with the id built
so far. -/
def findLoop (a : IdAllocator) : List Nat → Nat → Option Nat
  | [], id => some id
  | level :: rest, id =>
    let id := (id <<< kLevelBits) % 2 ^ 64
    match a.FindFirstUnset level id with
    | none => none
    | some index =>
      if index = kMaxId then
        -- `ZX_ASSERT(level == level_count_ - 1)`: only the root can be full
        if level = a.level_count_ - 1 then some kMaxId else none
      else findLoop a rest (id ||| index)

/-- `Find()`. -/
def Find (a : IdAllocator) : Option Nat := a.findLoop (List.range a.level_count_).reverse 0

/-- `Allocate(out)`: the status and `*out`. -/
def Allocate (a : IdAllocator) : Option (IdAllocator × Status × Option Nat) :=
  match a.Find with
  | none => none
  | some id =>
    if id ≥ a.id_count_ then some (a, .noResources, none)
    -- `ZX_ASSERT(!IsBusy(id))`
    else if a.IsBusy id then none
    else (a.MarkBusy id).map fun a => (a, .ok, some id)

/-- `MarkAllocated(id)`. -/
def MarkAllocated (a : IdAllocator) (id : Nat) : Option (IdAllocator × Status) :=
  if id ≥ a.id_count_ then some (a, .outOfRange)
  else if a.IsBusy id then some (a, .badState)
  else (a.MarkBusy id).map fun a => (a, .ok)

/-- `Free(id)`. -/
def Free (a : IdAllocator) (id : Nat) : Option (IdAllocator × Status) :=
  if id ≥ a.id_count_ then some (a, .outOfRange)
  else if !a.IsBusy id then some (a, .badState)
  else (a.MarkFree id).map fun a => (a, .ok)

/-- A pass of `Shrink`'s loop: a level no longer needed is `Reset(0)`, which
allocates nothing, and any other is shrunk to its new size under `ZX_ASSERT`
and has its padding set. -/
def shrinkLevel (a : IdAllocator) (level : Nat) : Option IdAllocator :=
  if level ≥ a.level_count_ then some (a.setLevel level ((a.levels_ level).Reset 0 true).1)
  else
    let (b, status) := (a.levels_ level).Shrink (a.LevelBitCountRounded level)
    if status ≠ .ok then none else (a.setLevel level b).MarkUnallocatable level

/-- `Shrink(id_count)`: the passes run over the levels of the old count. -/
def Shrink (a : IdAllocator) (id_count : Nat) : Option (IdAllocator × Status) :=
  if id_count = a.id_count_ then some (a, .ok)
  else if id_count > a.id_count_ then some (a, .outOfRange)
  else
    match GetLevels kMaxLevels a.id_count_, GetLevels kMaxLevels id_count with
    | some old_level_count, some level_count =>
      ((List.range old_level_count).foldlM shrinkLevel
        { a with id_count_ := id_count, level_count_ := level_count }).map fun a => (a, .ok)
    | _, _ => none

/-- A pass of `Reset`'s loop: the level is `Reset` to its own size, which
clears it, under `ZX_ASSERT`, and has its padding set. -/
def resetLevel (vmoOk : Nat → Bool) (a : IdAllocator) (level : Nat) : Option IdAllocator :=
  let (b, status) := (a.levels_ level).Reset (a.levels_ level).size (vmoOk level)
  if status ≠ .ok then none else (a.setLevel level b).MarkUnallocatable level

/-- `Reset(id_count)`: `vmoOk` and `vmoOk'` for a `Grow`, `vmoOk''` for the
resets of the levels. -/
def Reset (a : IdAllocator) (id_count : Nat) (vmoOk vmoOk' vmoOk'' : Nat → Bool) :
    Option (IdAllocator × Status) :=
  if id_count ≥ kMaxId then some (a, .outOfRange)
  else
    let r := if id_count < a.id_count_ then a.Shrink id_count else a.Grow id_count vmoOk vmoOk'
    match r with
    | none => none
    | some (a, status) =>
      if status ≠ .ok then some (a, status)
      else ((List.range a.level_count_).foldlM (resetLevel vmoOk'') a).map fun a => (a, .ok)

/-! ## Level 0 keeps fitting its count -/

theorem markAllocated_level0Fits {a a' : IdAllocator} {id : Nat} {status : Status} (hfit : a.Level0Fits)
    (h : a.MarkAllocated id = some (a', status)) : a'.Level0Fits := by
  unfold MarkAllocated at h
  split_ifs at h
  · cases h
    exact hfit
  · cases h
    exact hfit
  · obtain ⟨a₁, hmark, h⟩ := Option.map_eq_some_iff.mp h
    cases h
    exact (markBusyInternal_bitsOnly hmark).level0Fits hfit

theorem free_level0Fits {a a' : IdAllocator} {id : Nat} {status : Status} (hfit : a.Level0Fits)
    (h : a.Free id = some (a', status)) : a'.Level0Fits := by
  unfold Free at h
  split_ifs at h
  · cases h
    exact hfit
  · cases h
    exact hfit
  · obtain ⟨a₁, hmark, h⟩ := Option.map_eq_some_iff.mp h
    cases h
    exact (markFreeInternal_bitsOnly hmark).level0Fits hfit

theorem allocate_level0Fits {a a' : IdAllocator} {status : Status} {out : Option Nat} (hfit : a.Level0Fits)
    (h : a.Allocate = some (a', status, out)) : a'.Level0Fits := by
  unfold Allocate at h
  split at h
  · cases h
  · split_ifs at h
    · cases h
      exact hfit
    · obtain ⟨a₁, hmark, h⟩ := Option.map_eq_some_iff.mp h
      cases h
      exact (markBusyInternal_bitsOnly hmark).level0Fits hfit

/-- `a'` has `a`'s count and a level 0 of the same size. -/
def SameLevel0 (a a' : IdAllocator) : Prop :=
  a'.id_count_ = a.id_count_ ∧ (a'.levels_ 0).size = (a.levels_ 0).size

theorem SameLevel0.refl (a : IdAllocator) : SameLevel0 a a := ⟨rfl, rfl⟩

theorem SameLevel0.trans {a b c : IdAllocator} (h₁ : SameLevel0 a b) (h₂ : SameLevel0 b c) : SameLevel0 a c :=
  ⟨h₂.1.trans h₁.1, h₂.2.trans h₁.2⟩

theorem SameLevel0.level0Fits {a a' : IdAllocator} (h : SameLevel0 a a') (hfit : a.Level0Fits) : a'.Level0Fits := by
  unfold Level0Fits at *
  rw [h.2, levelBitCountRounded_congr h.1, hfit]

theorem BitsOnly.sameLevel0 {a a' : IdAllocator} (h : BitsOnly a a') : SameLevel0 a a' := ⟨h.id_count, h.size 0⟩

/-- The passes of `Shrink` above level 0 leave level 0 alone. -/
theorem shrinkLevel_sameLevel0 {a a' : IdAllocator} {level : Nat} (hlevel : level ≠ 0)
    (h : a.shrinkLevel level = some a') : SameLevel0 a a' := by
  have hkeep : ∀ b, SameLevel0 a (a.setLevel level b) := fun b => ⟨rfl, by rw [setLevel_levels_of_ne a (Ne.symm hlevel)]⟩
  unfold shrinkLevel at h
  split_ifs at h
  · cases h
    exact hkeep _
  · rcases hs : (a.levels_ level).Shrink (a.LevelBitCountRounded level) with ⟨b, st⟩
    simp only [hs] at h
    split_ifs at h
    exact (hkeep b).trans (markUnallocatable_bitsOnly h).sameLevel0

/-- The pass of `Shrink` at level 0, when level 0 is still needed, brings it to
the new count. -/
theorem shrinkLevel_zero {a a' : IdAllocator} (hcount : 0 < a.level_count_) (h : a.shrinkLevel 0 = some a') :
    a'.Level0Fits := by
  unfold shrinkLevel at h
  rw [if_neg (by omega)] at h
  have hsize := @RawBitmap.shrink_size_of_ok (a.levels_ 0) (a.LevelBitCountRounded 0)
  rcases hs : (a.levels_ 0).Shrink (a.LevelBitCountRounded 0) with ⟨b, st⟩
  rw [hs] at hsize
  simp only [hs] at h
  split_ifs at h with hst
  rw [not_not] at hst
  have hbits := markUnallocatable_bitsOnly h
  unfold Level0Fits
  rw [hbits.size 0, levelBitCountRounded_congr hbits.id_count, setLevel_levels_self, hsize hst,
    levelBitCountRounded_congr (setLevel_id_count a 0 b)]

/-- A level count `GetLevels` returns is at least one. -/
theorem getLevels_pos {n L : Nat} (h : GetLevels kMaxLevels n = some L) : 0 < L := by
  by_cases hn : n ≤ 2 ^ 60
  · obtain ⟨L', hL'⟩ := getLevels_of_le hn
    rw [hL'] at h
    cases h
    omega
  · rw [GetLevels, log64_int8_ceil_eq_none (by omega)] at h
    cases h

theorem shrink_level0Fits {a a' : IdAllocator} {n : Nat} {status : Status} (hfit : a.Level0Fits)
    (h : a.Shrink n = some (a', status)) : a'.Level0Fits := by
  unfold Shrink at h
  split_ifs at h
  · cases h
    exact hfit
  · cases h
    exact hfit
  · split at h
    · rename_i old L hold hL
      obtain ⟨a₁, hloop, h⟩ := Option.map_eq_some_iff.mp h
      cases h
      -- the first pass is at level 0, the others above it
      obtain ⟨k, rfl⟩ : ∃ k, old = k + 1 := ⟨old - 1, by have := getLevels_pos hold; omega⟩
      rw [List.range_succ_eq_map, List.foldlM_cons] at hloop
      obtain ⟨a₂, hzero, hrest⟩ := Option.bind_eq_some_iff.mp hloop
      have hfit₂ := shrinkLevel_zero (getLevels_pos hL) hzero
      refine (Loop.foldlM_rel SameLevel0.refl SameLevel0.trans (fun b x b' hx hb => ?_) a₂ a' hrest).level0Fits hfit₂
      obtain ⟨y, -, rfl⟩ := List.mem_map.mp hx
      exact shrinkLevel_sameLevel0 (Nat.succ_ne_zero y) hb
    · cases h

theorem resetLevel_sameLevel0 {vmoOk : Nat → Bool} {a a' : IdAllocator} {level : Nat}
    (h : resetLevel vmoOk a level = some a') : SameLevel0 a a' := by
  unfold resetLevel at h
  -- a level reset to its own size keeps it (`reset_size`)
  have hsize := (a.levels_ level).reset_size (a.levels_ level).size (vmoOk level)
  rcases hr : (a.levels_ level).Reset (a.levels_ level).size (vmoOk level) with ⟨b, st⟩
  rw [hr] at hsize
  simp only [hr] at h
  split_ifs at h
  have hset : SameLevel0 a (a.setLevel level b) := by
    refine ⟨rfl, ?_⟩
    by_cases hlevel : level = 0
    · subst hlevel
      simpa using hsize
    · rw [setLevel_levels_of_ne a (Ne.symm hlevel)]
  exact hset.trans (markUnallocatable_bitsOnly h).sameLevel0

theorem reset_level0Fits {a a' : IdAllocator} {n : Nat} {vmoOk vmoOk' vmoOk'' : Nat → Bool} {status : Status}
    (hfit : a.Level0Fits) (h : a.Reset n vmoOk vmoOk' vmoOk'' = some (a', status)) : a'.Level0Fits := by
  unfold Reset at h
  by_cases hmax : n ≥ kMaxId
  · rw [if_pos hmax] at h
    cases h
    exact hfit
  rw [if_neg hmax] at h
  dsimp only at h
  -- the shrink or the grow keeps level 0 fitting
  have hfit₁ : ∀ a₁ st, (if n < a.id_count_ then a.Shrink n else a.Grow n vmoOk vmoOk') = some (a₁, st) →
      a₁.Level0Fits := by
    intro a₁ st hres
    split_ifs at hres
    · exact shrink_level0Fits hfit hres
    · exact grow_level0Fits hfit hres
  generalize (if n < a.id_count_ then a.Shrink n else a.Grow n vmoOk vmoOk') = r at h hfit₁
  rcases r with _ | ⟨a₁, st⟩
  · cases h
  · dsimp only at h
    split_ifs at h
    · cases h
      exact hfit₁ a' status rfl
    · obtain ⟨a₂, hloop, h⟩ := Option.map_eq_some_iff.mp h
      cases h
      exact (Loop.foldlM_rel SameLevel0.refl SameLevel0.trans (fun _ _ _ _ hb => resetLevel_sameLevel0 hb) a₁ a'
        hloop).level0Fits (hfit₁ a₁ st rfl)

/-! ## The allocators calls reach -/

/-- The allocators that calls returning without a panic lead to, from one that
`Create` handed out. -/
inductive Reachable : IdAllocator → Prop
  | create {n : Nat} {vmoOk : Nat → Bool} {a : IdAllocator} :
      Create n vmoOk = some (a, .ok) → Reachable a
  | grow {a a' : IdAllocator} {m : Nat} {vmoOk vmoOk' : Nat → Bool} {status : Status} :
      Reachable a → a.Grow m vmoOk vmoOk' = some (a', status) → Reachable a'
  | shrink {a a' : IdAllocator} {n : Nat} {status : Status} :
      Reachable a → a.Shrink n = some (a', status) → Reachable a'
  | reset {a a' : IdAllocator} {n : Nat} {vmoOk vmoOk' vmoOk'' : Nat → Bool} {status : Status} :
      Reachable a → a.Reset n vmoOk vmoOk' vmoOk'' = some (a', status) → Reachable a'
  | allocate {a a' : IdAllocator} {status : Status} {out : Option Nat} :
      Reachable a → a.Allocate = some (a', status, out) → Reachable a'
  | markAllocated {a a' : IdAllocator} {id : Nat} {status : Status} :
      Reachable a → a.MarkAllocated id = some (a', status) → Reachable a'
  | free {a a' : IdAllocator} {id : Nat} {status : Status} :
      Reachable a → a.Free id = some (a', status) → Reachable a'

/-- Every allocator calls reach has level 0 fitting its count. -/
theorem Reachable.level0Fits {a : IdAllocator} (h : Reachable a) : a.Level0Fits := by
  induction h with
  | create hc => exact create_level0Fits hc
  | grow _ hg ih => exact grow_level0Fits ih hg
  | shrink _ hs ih => exact shrink_level0Fits ih hs
  | reset _ hr ih => exact reset_level0Fits ih hr
  | allocate _ ha ih => exact allocate_level0Fits ih ha
  | markAllocated _ hm ih => exact markAllocated_level0Fits ih hm
  | free _ hf ih => exact free_level0Fits ih hf

/-- From every allocator calls reach with level 0 mapped, `Grow(m)` past the
bits of level 0, with level 0's VMO to be had, returns `ZX_OK` or panics: no
allocation failure above level 0 comes back as an error. -/
theorem reachable_grow_error_only_from_level_zero {a a' : IdAllocator} {m : Nat} {vmoOk vmoOk' : Nat → Bool}
    {status : Status} (hreach : Reachable a) (hmapped : a.Level0Mapped) (hlt : a.id_count_ < m)
    (hgrow : a.LevelBitCountRounded 0 < m) (hm : m < kMaxId) (hok : vmoOk 0 = true)
    (h : a.Grow m vmoOk vmoOk' = some (a', status)) : status = .ok :=
  grow_error_only_from_level_zero hreach.level0Fits hmapped hlt hgrow hm hok h

end IdAllocator

end Zircon
