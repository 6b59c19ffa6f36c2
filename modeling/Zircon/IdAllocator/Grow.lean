import Mathlib
import Zircon.Bitmap.Raw
import Zircon.IdAllocator.Levels
import Zircon.Loop

/-!
# `IdAllocator::Grow` and its rollback

`IdAllocator` (`id_allocator.cc`) keeps its ids in a 64-ary tree of bits, one
`RawBitmap` per level: bit `i` of level 0 says whether id `i` is busy, and a
bit of a level above is set when its 64 children are. The bits from
`LevelBitCount(level)` to the end of the last word of a level are kept set
(`MarkUnallocatable`), so that no search hands them out.

`Grow(id_count)` clears those padding bits (`MarkAllAllocatable`) and calls
`GrowInternal(id_count)`, which sets `id_count_` and `level_count_` and takes
the levels in turn from the bottom: a level of no bits is `Reset` to its new
size (an allocation), any other is grown with `RawBitmap::Grow`, and its
padding is set again. When a level fails, `GrowInternal` returns at once and
leaves the levels below it grown; `Grow` then calls
`GrowInternal(old_id_count)` under a `ZX_ASSERT`, on the comment that this
"should never fail".

It does fail once level 0 has grown: `RawBitmap::Grow(size)` refuses a size
below the bitmap's own with `ZX_ERR_INVALID_ARGS`, and level 0 now holds more
bits than the old count rounds to. So with level 0's storage to be had, a
failure at any level above it is never returned as an error: `Grow` succeeds
or panics (`grow_error_only_from_level_zero`).

A failed `ZX_ASSERT`, and a `GetLevels` that never exits, are `none`. Whether
the VMO of a level can be created or resized is an argument, one for `Grow`'s
own `GrowInternal` and one for the rollback's.
-/

namespace Zircon

open Bitmap (RawBitmap)

/-- An `IdAllocator`: `id_count_`, `level_count_`, and the bitmaps `levels_`
of its `kMaxLevels` levels, level 0 holding the ids. -/
structure IdAllocator where
  id_count_ : Nat
  level_count_ : Nat
  levels_ : Nat → RawBitmap

namespace IdAllocator

/-- `kMaxLevels`. -/
def kMaxLevels : Nat := 11

/-- `kMaxId`: `SIZE_MAX`. -/
def kMaxId : Nat := 2 ^ 64 - 1

/-- `kLevelMask`: the bits of an index within its 64 sisters. -/
def kLevelMask : Nat := (1 <<< kLevelBits) - 1

/-- `kMaxChildren`. -/
def kMaxChildren : Nat := 1 <<< kLevelBits

/-- The statuses `IdAllocator` returns: its own and its bitmaps'. -/
inductive Status where
  | ok
  | invalidArgs
  | noMemory
  | noResources
  | outOfRange
  | badState
deriving DecidableEq, Repr

/-- A bitmap's status, returned as the allocator's. -/
def Status.ofBitmap : Bitmap.Status → Status
  | .ok => .ok
  | .invalidArgs => .invalidArgs
  | .noMemory => .noMemory
  | .noResources => .noResources

@[simp] theorem Status.ofBitmap_eq_ok {st : Bitmap.Status} : Status.ofBitmap st = .ok ↔ st = .ok := by
  cases st <;> simp [Status.ofBitmap]

/-- `LevelBitCount(level)`: the bits level `level` needs for `id_count_` ids,
`(id_count_ + pad) >> (kLevelBits * level)` in `size_t` with
`pad = (1 << (kLevelBits * level)) - 1`. -/
def LevelBitCount (a : IdAllocator) (level : Nat) : Nat :=
  if level ≠ 0 then
    let pad := ((1 <<< (kLevelBits * level)) % 2 ^ 64 + (2 ^ 64 - 1)) % 2 ^ 64
    (a.id_count_ + pad) % 2 ^ 64 >>> (kLevelBits * level)
  else a.id_count_

/-- `LevelBitCountRounded(level)`: `fbl::round_up(LevelBitCount(level),
kMaxChildren)`, that is `(val + 63) & ~63` in `size_t`. -/
def LevelBitCountRounded (a : IdAllocator) (level : Nat) : Nat :=
  (a.LevelBitCount level + (kMaxChildren - 1)) % 2 ^ 64 / kMaxChildren * kMaxChildren

/-- The allocator with `levels_[level]` replaced. -/
def setLevel (a : IdAllocator) (level : Nat) (b : RawBitmap) : IdAllocator :=
  { a with levels_ := Function.update a.levels_ level b }

/-- `SetBitAt(level, bit)`: `ZX_ASSERT(bit < levels_[level].size())`, set the
bit, and say whether its 64 sisters are now all set. -/
def SetBitAt (a : IdAllocator) (level bit : Nat) : Option (IdAllocator × Bool) :=
  if bit < (a.levels_ level).size then
    let a := a.setLevel level ((a.levels_ level).Set bit (bit + 1)).1
    let bit := bit &&& (Bitmap.ones ^^^ kLevelMask)
    some (a, ((a.levels_ level).Get bit (bit + kMaxChildren)).1)
  else none

/-- `ClearBitAt(level, bit)`: `ZX_ASSERT(bit < levels_[level].size())`, and
clear the bit. -/
def ClearBitAt (a : IdAllocator) (level bit : Nat) : Option IdAllocator :=
  if bit < (a.levels_ level).size then
    some (a.setLevel level ((a.levels_ level).Clear bit (bit + 1)).1)
  else none

/-- The loop of `MarkBusyInternal` at `level`, with `remaining` passes before
`level` reaches `level_count_`: set the bit and go up while its sisters are all
set. -/
def markBusyLoop : Nat → IdAllocator → Nat → Nat → Option IdAllocator
  | 0, a, _, _ => some a
  | remaining + 1, a, level, index =>
    match a.SetBitAt level index with
    | none => none
    | some (a, all_children_busy) =>
      if all_children_busy then markBusyLoop remaining a (level + 1) (index >>> kLevelBits)
      else some a

/-- `MarkBusyInternal(id, level)`, after its `ZX_ASSERT(level < level_count_)`. -/
def MarkBusyInternal (a : IdAllocator) (id level : Nat) : Option IdAllocator :=
  if level < a.level_count_ then markBusyLoop (a.level_count_ - level) a level id else none

/-- The loop of `MarkFreeInternal` at `level`: clear the bit and go up, stopping
at a parent bit that is already clear. -/
def markFreeLoop : Nat → IdAllocator → Nat → Nat → Option IdAllocator
  | 0, a, _, _ => some a
  | remaining + 1, a, level, index =>
    if level ≠ 0 ∧ ((a.levels_ level).Get index (index + 1)).1 = false then some a
    else
      match a.ClearBitAt level index with
      | none => none
      | some a => markFreeLoop remaining a (level + 1) (index >>> kLevelBits)

/-- `MarkFreeInternal(id, level)`. -/
def MarkFreeInternal (a : IdAllocator) (id level : Nat) : Option IdAllocator :=
  markFreeLoop (a.level_count_ - level) a level id

/-- `MarkUnallocatable(level)`: `MarkBusyInternal(i, level)` for each bit `i`
from `LevelBitCount(level)` to `LevelBitCountRounded(level)`. -/
def MarkUnallocatable (a : IdAllocator) (level : Nat) : Option IdAllocator :=
  (List.range' (a.LevelBitCount level) (a.LevelBitCountRounded level - a.LevelBitCount level)).foldlM
    (fun a i => a.MarkBusyInternal i level) a

/-- `MarkAllAllocatable(level)`: `MarkFreeInternal(i, level)` over the same
bits. -/
def MarkAllAllocatable (a : IdAllocator) (level : Nat) : Option IdAllocator :=
  (List.range' (a.LevelBitCount level) (a.LevelBitCountRounded level - a.LevelBitCount level)).foldlM
    (fun a i => a.MarkFreeInternal i level) a

/-- The body of `GrowInternal`'s loop at `level`, up to its status test: a
level of no bits is `Reset` to its new size, any other is grown. -/
def growLevel (a : IdAllocator) (level : Nat) (vmoOk : Bool) : Option (IdAllocator × Bitmap.Status) :=
  let lsize := a.LevelBitCountRounded level
  if (a.levels_ level).size = 0 then
    let (b, status) := (a.levels_ level).Reset lsize vmoOk
    let a := a.setLevel level b
    -- a new parent level inherits the children at index 0, whatever `Reset` returned
    if level > 0 ∧ ((a.levels_ (level - 1)).Get 0 kMaxChildren).1 = true then
      some (a.setLevel level ((a.levels_ level).Set 0 1).1, status)
    else some (a, status)
  else
    ((a.levels_ level).Grow lsize vmoOk).map fun (b, status) => (a.setLevel level b, status)

/-- The loop of `GrowInternal` from `level`, with `remaining` levels left:
stop at the first status that is not `ZX_OK`. -/
def growLoop (vmoOk : Nat → Bool) : Nat → IdAllocator → Nat → Option (IdAllocator × Status)
  | 0, a, _ => some (a, .ok)
  | remaining + 1, a, level =>
    match a.growLevel level (vmoOk level) with
    | none => none
    | some (a, status) =>
      if status ≠ .ok then some (a, .ofBitmap status)
      else
        match a.MarkUnallocatable level with
        | none => none
        | some a => growLoop vmoOk remaining a (level + 1)

/-- `GrowInternal(id_count)`: set `id_count_` and `level_count_`, then the
levels from 0 up. -/
def GrowInternal (a : IdAllocator) (id_count : Nat) (vmoOk : Nat → Bool) : Option (IdAllocator × Status) :=
  let a := { a with id_count_ := id_count }
  match GetLevels kMaxLevels a.id_count_ with
  | none => none
  | some level_count => growLoop vmoOk level_count { a with level_count_ := level_count } 0

/-- `Grow(id_count)`: `vmoOk` for its own `GrowInternal`, `vmoOk'` for the
rollback's. -/
def Grow (a : IdAllocator) (id_count : Nat) (vmoOk vmoOk' : Nat → Bool) : Option (IdAllocator × Status) :=
  let old_id_count := a.id_count_
  if id_count = a.id_count_ then some (a, .ok)
  else if id_count < a.id_count_ then some (a, .invalidArgs)
  else if id_count ≥ kMaxId then some (a, .outOfRange)
  else do
    let a ← (List.range a.level_count_).foldlM (fun a level => a.MarkAllAllocatable level) a
    let (a, status) ← a.GrowInternal id_count vmoOk
    if status ≠ .ok then
      -- `ZX_ASSERT(GrowInternal(old_id_count) == ZX_OK)`
      let (a, status') ← a.GrowInternal old_id_count vmoOk'
      if status' ≠ .ok then none else some (a, status)
    else some (a, status)

/-- `Create(id_count)`: the levels of a new allocator are `Reset(0)`, which
returns `ZX_OK`, and then grown to `id_count`; the allocator is handed out when
the status is `ZX_OK`. -/
def Create (id_count : Nat) (vmoOk : Nat → Bool) : Option (IdAllocator × Status) :=
  if id_count ≥ kMaxId then some (⟨0, 0, fun _ => RawBitmap.empty⟩, .outOfRange)
  else
    let a : IdAllocator := ⟨0, 0, fun _ => (RawBitmap.empty.Reset 0 true).1⟩
    a.GrowInternal id_count vmoOk

/-! ## What each pass keeps -/

@[simp] theorem setLevel_levels_self (a : IdAllocator) (level : Nat) (b : RawBitmap) :
    (a.setLevel level b).levels_ level = b := by
  simp [setLevel]

@[simp] theorem setLevel_levels_of_ne (a : IdAllocator) {level i : Nat} (h : i ≠ level) (b : RawBitmap) :
    (a.setLevel level b).levels_ i = a.levels_ i := by
  simp [setLevel, h]

@[simp] theorem setLevel_id_count (a : IdAllocator) (level : Nat) (b : RawBitmap) :
    (a.setLevel level b).id_count_ = a.id_count_ := rfl

@[simp] theorem setLevel_level_count (a : IdAllocator) (level : Nat) (b : RawBitmap) :
    (a.setLevel level b).level_count_ = a.level_count_ := rfl

/-- `a'` differs from `a` in its bits only. -/
structure BitsOnly (a a' : IdAllocator) : Prop where
  /-- `id_count_` is kept. -/
  id_count : a'.id_count_ = a.id_count_
  /-- `level_count_` is kept. -/
  level_count : a'.level_count_ = a.level_count_
  /-- Every level keeps its size. -/
  size : ∀ level, (a'.levels_ level).size = (a.levels_ level).size
  /-- Every level keeps its storage. -/
  storage : ∀ level, (a'.levels_ level).cap = (a.levels_ level).cap ∧
    (a'.levels_ level).mapped = (a.levels_ level).mapped

theorem BitsOnly.refl (a : IdAllocator) : BitsOnly a a := ⟨rfl, rfl, fun _ => rfl, fun _ => ⟨rfl, rfl⟩⟩

theorem BitsOnly.trans {a b c : IdAllocator} (h₁ : BitsOnly a b) (h₂ : BitsOnly b c) : BitsOnly a c :=
  ⟨h₂.id_count.trans h₁.id_count, h₂.level_count.trans h₁.level_count,
    fun level => (h₂.size level).trans (h₁.size level),
    fun level => ⟨(h₂.storage level).1.trans (h₁.storage level).1, (h₂.storage level).2.trans (h₁.storage level).2⟩⟩

/-- Replacing a level by a bitmap of the same size on the same storage changes
bits only. -/
theorem bitsOnly_setLevel (a : IdAllocator) (level : Nat) {b : RawBitmap}
    (h : b.size = (a.levels_ level).size) (hcap : b.cap = (a.levels_ level).cap)
    (hmapped : b.mapped = (a.levels_ level).mapped) : BitsOnly a (a.setLevel level b) := by
  refine ⟨rfl, rfl, fun i => ?_, fun i => ?_⟩
  all_goals
    by_cases hi : i = level
    · subst hi
      simp [h, hcap, hmapped]
    · simp [hi]

/-- `Set` or `Clear` of bits of one level changes bits only. -/
theorem bitsOnly_applyMask (a : IdAllocator) (level bitoff bitmax : Nat) (combine : Nat → Nat → Nat) :
    BitsOnly a (a.setLevel level ((a.levels_ level).applyMask bitoff bitmax combine).1) :=
  bitsOnly_setLevel a level (RawBitmap.applyMask_size _ _ _ _) (RawBitmap.applyMask_cap _ _ _ _)
    (RawBitmap.applyMask_mapped _ _ _ _)

theorem setBitAt_bitsOnly {a a' : IdAllocator} {level bit : Nat} {all : Bool}
    (h : a.SetBitAt level bit = some (a', all)) : BitsOnly a a' := by
  unfold SetBitAt at h
  split_ifs at h
  cases h
  exact bitsOnly_applyMask a level _ _ _

theorem clearBitAt_bitsOnly {a a' : IdAllocator} {level bit : Nat} (h : a.ClearBitAt level bit = some a') :
    BitsOnly a a' := by
  unfold ClearBitAt at h
  split_ifs at h
  cases h
  exact bitsOnly_applyMask a level _ _ _

theorem markBusyLoop_bitsOnly :
    ∀ remaining (a : IdAllocator) level index a', markBusyLoop remaining a level index = some a' → BitsOnly a a'
  | 0, a, _, _, a', h => by
    cases h
    exact BitsOnly.refl a
  | remaining + 1, a, level, index, a', h => by
    unfold markBusyLoop at h
    split at h
    · cases h
    · rename_i a₁ all hset
      split_ifs at h
      · exact (setBitAt_bitsOnly hset).trans (markBusyLoop_bitsOnly remaining a₁ _ _ a' h)
      · cases h
        exact setBitAt_bitsOnly hset

theorem markFreeLoop_bitsOnly :
    ∀ remaining (a : IdAllocator) level index a', markFreeLoop remaining a level index = some a' → BitsOnly a a'
  | 0, a, _, _, a', h => by
    cases h
    exact BitsOnly.refl a
  | remaining + 1, a, level, index, a', h => by
    unfold markFreeLoop at h
    split_ifs at h
    · cases h
      exact BitsOnly.refl a
    · split at h
      · cases h
      · rename_i a₁ hclear
        exact (clearBitAt_bitsOnly hclear).trans (markFreeLoop_bitsOnly remaining a₁ _ _ a' h)

theorem markBusyInternal_bitsOnly {a a' : IdAllocator} {id level : Nat} (h : a.MarkBusyInternal id level = some a') :
    BitsOnly a a' := by
  unfold MarkBusyInternal at h
  split_ifs at h
  exact markBusyLoop_bitsOnly _ a level id a' h

theorem markFreeInternal_bitsOnly {a a' : IdAllocator} {id level : Nat} (h : a.MarkFreeInternal id level = some a') :
    BitsOnly a a' :=
  markFreeLoop_bitsOnly _ a level id a' h

theorem markUnallocatable_bitsOnly {a a' : IdAllocator} {level : Nat} (h : a.MarkUnallocatable level = some a') :
    BitsOnly a a' :=
  Loop.foldlM_rel BitsOnly.refl BitsOnly.trans (fun _ _ _ _ hb => markBusyInternal_bitsOnly hb) a a' h

theorem markAllAllocatable_bitsOnly {a a' : IdAllocator} {level : Nat} (h : a.MarkAllAllocatable level = some a') :
    BitsOnly a a' :=
  Loop.foldlM_rel BitsOnly.refl BitsOnly.trans (fun _ _ _ _ hb => markFreeInternal_bitsOnly hb) a a' h

/-! ## One pass of `GrowInternal` -/

theorem levelBitCountRounded_zero (a : IdAllocator) (h : a.id_count_ + 63 < 2 ^ 64) :
    a.LevelBitCountRounded 0 = (a.id_count_ + 63) / 64 * 64 := by
  simp only [LevelBitCountRounded, LevelBitCount, ne_eq, not_true_eq_false, if_false]
  rw [show kMaxChildren = 64 from rfl, Nat.mod_eq_of_lt h]

theorem levelBitCountRounded_congr {a a' : IdAllocator} (h : a'.id_count_ = a.id_count_) (level : Nat) :
    a'.LevelBitCountRounded level = a.LevelBitCountRounded level := by
  simp only [LevelBitCountRounded, LevelBitCount, h]

/-- A pass of `GrowInternal` changes its own level only. -/
theorem growLevel_frame {a a' : IdAllocator} {level : Nat} {vmoOk : Bool} {status : Bitmap.Status}
    (h : a.growLevel level vmoOk = some (a', status)) :
    a'.id_count_ = a.id_count_ ∧ a'.level_count_ = a.level_count_ ∧ ∀ i ≠ level, a'.levels_ i = a.levels_ i := by
  unfold growLevel at h
  dsimp only at h
  split_ifs at h
  · cases h
    exact ⟨rfl, rfl, fun i hi => by simp [hi]⟩
  · cases h
    exact ⟨rfl, rfl, fun i hi => by simp [hi]⟩
  · obtain ⟨⟨b, st⟩, -, h⟩ := Option.map_eq_some_iff.mp h
    cases h
    exact ⟨rfl, rfl, fun i hi => by simp [hi]⟩

/-- A level that has bits is grown. -/
theorem growLevel_of_size_ne_zero {a : IdAllocator} {level : Nat} (h : (a.levels_ level).size ≠ 0) (vmoOk : Bool) :
    a.growLevel level vmoOk =
      ((a.levels_ level).Grow (a.LevelBitCountRounded level) vmoOk).map fun r => (a.setLevel level r.1, r.2) := by
  unfold growLevel
  exact if_neg h

/-- A pass that reports `ZX_OK` leaves its level at the new size. -/
theorem growLevel_size_of_ok {a a' : IdAllocator} {level : Nat} {vmoOk : Bool}
    (h : a.growLevel level vmoOk = some (a', .ok)) : (a'.levels_ level).size = a.LevelBitCountRounded level := by
  by_cases hzero : (a.levels_ level).size = 0
  · -- `Reset` sets the size whatever it returns (`reset_size`)
    unfold growLevel at h
    dsimp only at h
    rw [if_pos hzero] at h
    split_ifs at h
    · obtain ⟨rfl, -⟩ := Prod.mk.inj (Option.some.inj h)
      simp
    · obtain ⟨rfl, -⟩ := Prod.mk.inj (Option.some.inj h)
      simp
  · rw [growLevel_of_size_ne_zero hzero] at h
    obtain ⟨⟨b, st⟩, hgrow, h⟩ := Option.map_eq_some_iff.mp h
    cases h
    simp [RawBitmap.grow_size_of_ok hgrow]

/-- With its VMO to be had, a level smaller than its new size is brought to it,
and the pass reports `ZX_OK`. -/
theorem growLevel_of_ok {a : IdAllocator} {level : Nat} (hlt : (a.levels_ level).size < a.LevelBitCountRounded level)
    (hle : a.LevelBitCountRounded level ≤ 2 ^ 60) (hm : (a.levels_ level).size ≠ 0 → (a.levels_ level).Mapped) :
    ∃ a', a.growLevel level true = some (a', .ok) ∧ (a'.levels_ level).size = a.LevelBitCountRounded level := by
  by_cases hzero : (a.levels_ level).size = 0
  · -- a new level: `Reset` allocates, and a bit the level inherits keeps its size
    have hst := (a.levels_ level).reset_of_ok (a.LevelBitCountRounded level)
    have hsize := (a.levels_ level).reset_size (a.LevelBitCountRounded level) true
    rcases hr : (a.levels_ level).Reset (a.LevelBitCountRounded level) true with ⟨b, st⟩
    rw [hr] at hst hsize
    dsimp only at hst hsize
    subst hst
    unfold growLevel
    dsimp only
    rw [if_pos hzero, hr]
    dsimp only
    split_ifs
    · exact ⟨_, rfl, by simp [hsize]⟩
    · exact ⟨_, rfl, by simp [hsize]⟩
  · obtain ⟨b', hgrow, hsize⟩ := (a.levels_ level).grow_of_ok (Nat.pos_of_ne_zero hzero) (hm hzero) hlt hle
    rw [growLevel_of_size_ne_zero hzero, hgrow]
    exact ⟨_, rfl, by simp [hsize]⟩

/-- `GrowInternal`'s loop keeps `id_count_`, and the sizes of the levels below
the one it starts from. -/
theorem growLoop_frame (vmoOk : Nat → Bool) :
    ∀ remaining (a : IdAllocator) level a' status, growLoop vmoOk remaining a level = some (a', status) →
      a'.id_count_ = a.id_count_ ∧ ∀ i < level, (a'.levels_ i).size = (a.levels_ i).size
  | 0, a, level, a', status, h => by
    cases h
    exact ⟨rfl, fun _ _ => rfl⟩
  | remaining + 1, a, level, a', status, h => by
    unfold growLoop at h
    split at h
    · cases h
    · rename_i a₁ st hlevel
      obtain ⟨hid₁, -, hkeep₁⟩ := growLevel_frame hlevel
      split_ifs at h
      · cases h
        exact ⟨hid₁, fun i hi => by rw [hkeep₁ i (by omega)]⟩
      · split at h
        · cases h
        · rename_i a₂ hmark
          have hbits := markUnallocatable_bitsOnly hmark
          obtain ⟨hid, hkeep⟩ := growLoop_frame vmoOk remaining a₂ (level + 1) a' status h
          refine ⟨by rw [hid, hbits.id_count, hid₁], fun i hi => ?_⟩
          rw [hkeep i (by omega), hbits.size i, hkeep₁ i (by omega)]

/-! ## `GrowInternal` and the rollback -/

/-- Up to `2 ^ 60` ids `GetLevels` returns some level count of at least one. -/
theorem getLevels_of_le {n : Nat} (hn : n ≤ 2 ^ 60) : ∃ L, GetLevels kMaxLevels n = some (L + 1) := by
  obtain ⟨L, hL, hL1, -⟩ := log64_int8_ceil_spec hn kMaxLevels (by decide)
  exact ⟨L - 1, by rw [GetLevels, hL, Nat.sub_add_cancel hL1]⟩

/-- `GrowInternal(id_count)` runs its loop over the levels from 0, on the
allocator with its new counts. -/
theorem growInternal_eq {a : IdAllocator} {n L : Nat} (hL : GetLevels kMaxLevels n = some L) (vmoOk : Nat → Bool) :
    a.GrowInternal n vmoOk = growLoop vmoOk L { a with id_count_ := n, level_count_ := L } 0 := by
  unfold GrowInternal
  dsimp only
  rw [hL]

/-- `GrowInternal` to a count that needs fewer bits at level 0 than level 0
has stops there, with `ZX_ERR_INVALID_ARGS`. -/
theorem growInternal_of_level_zero_larger {a : IdAllocator} {n : Nat} (hn : n ≤ 2 ^ 60)
    (hlarger : (n + 63) / 64 * 64 < (a.levels_ 0).size) (vmoOk : Nat → Bool) :
    ∃ a', a.GrowInternal n vmoOk = some (a', .invalidArgs) := by
  obtain ⟨L, hL⟩ := getLevels_of_le hn
  rw [growInternal_eq hL]
  set a₀ : IdAllocator := { a with id_count_ := n, level_count_ := L + 1 }
  have hlsize : a₀.LevelBitCountRounded 0 = (n + 63) / 64 * 64 := levelBitCountRounded_zero a₀ (by dsimp [a₀]; omega)
  -- `RawBitmap::Grow` refuses to shrink level 0
  have hgrow := @RawBitmap.grow_of_lt_size (a₀.levels_ 0) (a₀.LevelBitCountRounded 0)
    (by rw [hlsize]; exact hlarger) (vmoOk 0)
  unfold growLoop
  rw [growLevel_of_size_ne_zero (by dsimp [a₀]; omega), hgrow]
  exact ⟨_, rfl⟩

/-- Level 0, if it has bits, has its storage mapped. -/
def Level0Mapped (a : IdAllocator) : Prop := (a.levels_ 0).size ≠ 0 → (a.levels_ 0).Mapped

theorem BitsOnly.level0Mapped {a a' : IdAllocator} (h : BitsOnly a a') (hmapped : a.Level0Mapped) :
    a'.Level0Mapped := by
  intro hsize
  have hm := hmapped (by rwa [← h.size 0])
  unfold RawBitmap.Mapped at *
  rw [(h.storage 0).1, (h.storage 0).2]
  exact hm

/-- With level 0's VMO to be had, whatever `GrowInternal(id_count)` returns has
level 0 grown to the new count, whether a level above it failed or not. -/
theorem growInternal_level_zero {a a' : IdAllocator} {m : Nat} {vmoOk : Nat → Bool} {status : Status}
    (hm : m ≤ 2 ^ 60) (hlt : (a.levels_ 0).size < (m + 63) / 64 * 64) (hmapped : a.Level0Mapped) (hok : vmoOk 0 = true)
    (h : a.GrowInternal m vmoOk = some (a', status)) : (a'.levels_ 0).size = (m + 63) / 64 * 64 := by
  obtain ⟨L, hL⟩ := getLevels_of_le hm
  rw [growInternal_eq hL] at h
  set a₀ : IdAllocator := { a with id_count_ := m, level_count_ := L + 1 }
  have hlsize : a₀.LevelBitCountRounded 0 = (m + 63) / 64 * 64 := levelBitCountRounded_zero a₀ (by dsimp [a₀]; omega)
  obtain ⟨a₁, hlevel, hsize⟩ := @growLevel_of_ok a₀ 0 (by rw [hlsize]; exact hlt)
    (by rw [hlsize]; omega) hmapped
  unfold growLoop at h
  rw [hok, hlevel] at h
  dsimp only at h
  -- level 0 reports `ZX_OK`: its padding is set again and the loop goes on from level 1
  rw [if_neg (by decide)] at h
  split at h
  · cases h
  · rename_i a₂ hmark
    rw [(growLoop_frame vmoOk L a₂ 1 a' status h).2 0 (by omega), (markUnallocatable_bitsOnly hmark).size 0,
      hsize, hlsize]

/-- Level 0 holds exactly the bits its count rounds to. -/
def Level0Fits (a : IdAllocator) : Prop := (a.levels_ 0).size = a.LevelBitCountRounded 0

theorem BitsOnly.level0Fits {a a' : IdAllocator} (h : BitsOnly a a') (hfit : a.Level0Fits) : a'.Level0Fits := by
  unfold Level0Fits at *
  rw [h.size 0, levelBitCountRounded_congr h.id_count, hfit]

/-- A `GrowInternal(id_count)` that reports `ZX_OK` has set the count, and level
0 fits it. -/
theorem growInternal_of_ok {a a' : IdAllocator} {n : Nat} {vmoOk : Nat → Bool}
    (h : a.GrowInternal n vmoOk = some (a', .ok)) : a'.id_count_ = n ∧ a'.Level0Fits := by
  have hn : n ≤ 2 ^ 60 := by
    by_contra hbig
    unfold GrowInternal at h
    dsimp only at h
    rw [GetLevels, log64_int8_ceil_eq_none (by omega)] at h
    cases h
  obtain ⟨L, hL⟩ := getLevels_of_le hn
  rw [growInternal_eq hL] at h
  set a₀ : IdAllocator := { a with id_count_ := n, level_count_ := L + 1 }
  unfold growLoop at h
  split at h
  · cases h
  · rename_i a₁ st hlevel
    -- a level that did not report `ZX_OK` would be the loop's status
    have hst : st = .ok := by
      by_contra hst
      rw [if_pos hst] at h
      exact hst (Status.ofBitmap_eq_ok.mp (Prod.mk.inj (Option.some.inj h)).2)
    subst hst
    have hsize := growLevel_size_of_ok hlevel
    have hid₁ := (growLevel_frame hlevel).1
    rw [if_neg (by decide)] at h
    split at h
    · cases h
    · rename_i a₂ hmark
      have hbits := markUnallocatable_bitsOnly hmark
      obtain ⟨hid, hkeep⟩ := growLoop_frame vmoOk L a₂ 1 a' .ok h
      have hid' : a'.id_count_ = a₀.id_count_ := by rw [hid, hbits.id_count, hid₁]
      refine ⟨hid', ?_⟩
      unfold Level0Fits
      rw [hkeep 0 (by omega), hbits.size 0, hsize, levelBitCountRounded_congr hid']

/-- What `Create` hands out has level 0 fitting its count. -/
theorem create_level0Fits {n : Nat} {vmoOk : Nat → Bool} {a : IdAllocator}
    (h : Create n vmoOk = some (a, .ok)) : a.Level0Fits := by
  unfold Create at h
  split_ifs at h
  · cases h
  · exact (growInternal_of_ok h).2

/-! ## `Grow` -/

/-- Whatever `Grow` returns without panicking has level 0 fitting its count:
after a success the new one, after an error the old one, which the rollback
restored. -/
theorem grow_level0Fits {a a' : IdAllocator} {m : Nat} {vmoOk vmoOk' : Nat → Bool} {status : Status}
    (hfit : a.Level0Fits) (h : a.Grow m vmoOk vmoOk' = some (a', status)) : a'.Level0Fits := by
  unfold Grow at h
  split_ifs at h
  · cases h
    exact hfit
  · cases h
    exact hfit
  · cases h
    exact hfit
  · obtain ⟨a₀, -, h⟩ := Option.bind_eq_some_iff.mp h
    obtain ⟨⟨a₁, st⟩, hforward, h⟩ := Option.bind_eq_some_iff.mp h
    dsimp only at h
    split_ifs at h with hst
    · -- the rollback reported `ZX_OK`
      obtain ⟨⟨a₂, st'⟩, hback, h⟩ := Option.bind_eq_some_iff.mp h
      dsimp only at h
      split_ifs at h with hst'
      cases h
      rw [not_not] at hst'
      subst hst'
      exact (growInternal_of_ok hback).2
    · cases h
      rw [not_not] at hst
      subst hst
      exact (growInternal_of_ok hforward).2

/-- With level 0's VMO to be had, `Grow` past the bits level 0 has never
returns an error: a failure at any level above level 0 leaves level 0 larger
than the old count rounds to, the rollback's `RawBitmap::Grow` refuses to
shrink it, and the `ZX_ASSERT` on the rollback fails. -/
theorem grow_error_only_from_level_zero {a : IdAllocator} {m : Nat} {vmoOk vmoOk' : Nat → Bool}
    (hfit : a.Level0Fits) (hmapped : a.Level0Mapped) (hlt : a.id_count_ < m)
    (hgrow : a.LevelBitCountRounded 0 < m) (hm : m < kMaxId) (hok : vmoOk 0 = true)
    {a' : IdAllocator} {status : Status} (h : a.Grow m vmoOk vmoOk' = some (a', status)) : status = .ok := by
  unfold Grow at h
  rw [if_neg (by omega), if_neg (by omega), if_neg (by omega)] at h
  -- clearing the padding keeps every size
  obtain ⟨a₀, hclear, h⟩ := Option.bind_eq_some_iff.mp h
  have hkeep : BitsOnly a a₀ :=
    Loop.foldlM_rel BitsOnly.refl BitsOnly.trans (fun b _ b' _ hb => markAllAllocatable_bitsOnly hb) a a₀ hclear
  obtain ⟨⟨a₁, st⟩, hforward, h⟩ := Option.bind_eq_some_iff.mp h
  dsimp only at h
  by_cases hst : st = .ok
  · rw [if_neg (not_not.mpr hst)] at h
    cases h
    exact hst
  rw [if_pos hst] at h
  -- past `2 ^ 60` ids `GetLevels` never returns
  have hbig : m ≤ 2 ^ 60 := by
    by_contra hbig
    unfold GrowInternal at hforward
    dsimp only at hforward
    rw [GetLevels, log64_int8_ceil_eq_none (by omega)] at hforward
    cases hforward
  unfold Level0Fits at hfit
  rw [levelBitCountRounded_zero a (by omega)] at hfit hgrow
  have h0 := growInternal_level_zero hbig (by rw [hkeep.size 0, hfit]; omega) (hkeep.level0Mapped hmapped) hok hforward
  obtain ⟨a₂, hback⟩ := growInternal_of_level_zero_larger (a := a₁) (n := a.id_count_) (by omega)
    (by rw [h0]; omega) vmoOk'
  rw [hback] at h
  cases h

/-- `Create(64)`, then `Grow(65)` with the VMO of level 1 failing: level 0 grows
to 128 bits inside its page, level 1's `Reset` fails with `ZX_ERR_NO_MEMORY`,
the rollback `GrowInternal(64)` finds level 0 too large and returns
`ZX_ERR_INVALID_ARGS`, and `Grow` panics. With every VMO to be had, the same
`Grow(65)` succeeds. -/
theorem grow_rollback_panics_after_level_one_fails :
    (Create 64 (fun _ => true)).map (fun r => (r.1.id_count_, r.2)) = some (64, .ok) ∧
      ((Create 64 (fun _ => true)).bind fun r => r.1.GrowInternal 65 (fun level => level == 0)).map
        (fun r => ((r.1.levels_ 0).size, r.2)) = some (128, .noMemory) ∧
      (((Create 64 (fun _ => true)).bind fun r => r.1.GrowInternal 65 (fun level => level == 0)).bind
        fun r => r.1.GrowInternal 64 (fun _ => true)).map Prod.snd = some .invalidArgs ∧
      ((Create 64 (fun _ => true)).bind fun r => r.1.Grow 65 (fun level => level == 0) (fun _ => true)).isNone ∧
      ((Create 64 (fun _ => true)).bind fun r => r.1.Grow 65 (fun _ => true) (fun _ => true)).map Prod.snd =
        some .ok := by
  refine ⟨by decide +kernel, by decide +kernel, by decide +kernel, by decide +kernel, by decide +kernel⟩

end IdAllocator

end Zircon
