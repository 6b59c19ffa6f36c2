import Mathlib
import Zircon.Bitmap.RleBitmap

/-!
# `RawBitmap`

`RawBitmapGeneric<Storage>` (`raw-bitmap.h`, `raw-bitmap.cc`) keeps `size_`
bits in an array `data_` of `size_t` words, bit `b` being bit `b % 64` of word
`b / 64`. Its routines work a word at a time: `GetMask` masks the first and
the last word of a range, `MaskBits` keeps the bits of a word inside the mask
that differ from the value looked for, and `CTZ` or `CLZ` turns such a word
back into a bit index.

The storage modelled is `VmoStorage`, the one that can `Grow`: its `size_`
(`cap`), and the bytes mapped at `mapped_addr_` (`mapped`, `0` where nothing is
mapped), which hold the words `data_` points to. The two part ways: a failed
`Allocate` has set `size_` and mapped nothing, and `Grow` maps more without
updating `size_`. A `memset` that reaches past the mapping is undefined
behaviour, and the model returns `none` there. Whether the VMO can be created
or resized is an argument; a storage failure is reported as
`ZX_ERR_NO_MEMORY`.
-/

namespace Zircon.Bitmap

/-- `kBits`: the bits of a `size_t`. -/
def kBits : Nat := 64

/-- `~size_t(0)`. -/
def ones : Nat := 2 ^ 64 - 1

/-- `FirstIdx(bitoff)`: the word of bit `bitoff`. -/
def FirstIdx (bitoff : Nat) : Nat := bitoff / kBits

/-- `LastIdx(bitmax)`: `(bitmax - 1) / kBits` in `size_t`, which wraps at
`0`. -/
def LastIdx (bitmax : Nat) : Nat := (bitmax + (2 ^ 64 - 1)) % 2 ^ 64 / kBits

/-- `GetMask(first, last, off, max)`: all ones, less the bits below `off` in
the first word and those from `max` on in the last. -/
def GetMask (first last : Bool) (off max : Nat) : Nat :=
  let mask := ones
  let mask := if first then mask &&& (ones <<< (off % kBits)) % 2 ^ 64 else mask
  if last then mask &&& ones >>> ((kBits - max % kBits) % kBits) else mask

/-- `MaskBits(data, idx, bitoff, bitmax, is_set)`: the bits of word `idx`
inside the mask that differ from `is_set`. -/
def MaskBits (data idx bitoff bitmax : Nat) (isSet : Bool) : Nat :=
  let mask := GetMask (idx == FirstIdx bitoff) (idx == LastIdx bitmax) bitoff bitmax
  -- `~(~mask | data)` for `is_set`, `mask & data` otherwise
  if isSet then ones ^^^ ((ones ^^^ mask) ||| data) else mask &&& data

/-- `CTZ(x)`: the number of trailing zeros of a word, `kBits` for `0`. -/
def CTZ (x : Nat) : Nat :=
  if x = 0 then kBits else ((List.range kBits).find? x.testBit).getD kBits

/-- `CLZ(x)`: the number of leading zeros of a word, `kBits` for `0`. -/
def CLZ (x : Nat) : Nat := if x = 0 then kBits else kBits - 1 - Nat.log2 x

/-- `zx_system_get_page_size()`. -/
def pageSize : Nat := 4096

/-- `fbl::round_up(size, zx_system_get_page_size())` in `size_t`. -/
def roundUpPage (size : Nat) : Nat := (size + (pageSize - 1)) % 2 ^ 64 / pageSize * pageSize

/-- A `RawBitmapGeneric<VmoStorage>`: `size_`, the storage, and the words in
it. -/
structure RawBitmap where
  /-- `size_`, in bits. -/
  size : Nat
  /-- `VmoStorage::size_`: the bytes its last `Allocate` asked for. -/
  cap : Nat
  /-- The bytes mapped at `VmoStorage::mapped_addr_`, `0` when it is `0`. -/
  mapped : Nat
  /-- `data_[i]`. -/
  words : Nat → Nat

namespace RawBitmap

/-- `RawBitmapGeneric() = default`: no bits and no mapping. -/
def empty : RawBitmap := ⟨0, 0, 0, fun _ => 0⟩

/-- `VmoStorage::Allocate(size)`: the old mapping is released and `size_` set
to the whole pages asked for; a new zero-filled mapping of them follows, unless
the VMO cannot be created or mapped, which leaves none. The flag is whether it
returned `ZX_OK`. -/
def allocate (b : RawBitmap) (size : Nat) (vmoOk : Bool) : RawBitmap × Bool :=
  let b := { b with cap := roundUpPage size, mapped := 0 }
  if vmoOk then ({ b with mapped := b.cap, words := fun _ => 0 }, true) else (b, false)

/-- `VmoStorage::Grow(size)`: nothing to do if `size_` covers `size`; otherwise
the VMO, which exists only while something is mapped, is resized to whole pages
and mapped again, keeping its contents. `size_` is left as it was. -/
def growStorage (b : RawBitmap) (size : Nat) (vmoOk : Bool) : Option RawBitmap :=
  if size ≤ b.cap then some b
  else if vmoOk ∧ b.mapped ≠ 0 then some { b with mapped := roundUpPage size } else none

/-- `Scan`'s loop over the words from `i` on: the first bit that differs from
`is_set`, if any. -/
def scanLoop (b : RawBitmap) (bitoff bitmax : Nat) (isSet : Bool) : List Nat → Option Nat
  | [] => none
  | i :: rest =>
    let masked := MaskBits (b.words i) i bitoff bitmax isSet
    if masked ≠ 0 then some (i * kBits + CTZ masked) else b.scanLoop bitoff bitmax isSet rest

/-- `Scan(bitoff, bitmax, is_set, out)`: `none` where it returns `true`, and
`some out` where it returns `false` and writes `*out`. -/
def Scan (b : RawBitmap) (bitoff bitmax : Nat) (isSet : Bool) : Option Nat :=
  let bitmax := min bitmax b.size
  if bitoff ≥ bitmax then none
  else b.scanLoop bitoff bitmax isSet (List.range' (FirstIdx bitoff) (LastIdx bitmax + 1 - FirstIdx bitoff))

/-- `ReverseScan`'s loop over the words from `i` down: the last bit that
differs from `is_set`, if any. -/
def reverseScanLoop (b : RawBitmap) (bitoff bitmax : Nat) (isSet : Bool) : List Nat → Option Nat
  | [] => none
  | i :: rest =>
    let masked := MaskBits (b.words i) i bitoff bitmax isSet
    if masked ≠ 0 then some ((i + 1) * kBits - (CLZ masked + 1))
    else b.reverseScanLoop bitoff bitmax isSet rest

/-- `ReverseScan(bitoff, bitmax, is_set, out)`, as `Scan`. -/
def ReverseScan (b : RawBitmap) (bitoff bitmax : Nat) (isSet : Bool) : Option Nat :=
  let bitmax := min bitmax b.size
  if bitoff ≥ bitmax then none
  else b.reverseScanLoop bitoff bitmax isSet
    (List.range' (FirstIdx bitoff) (LastIdx bitmax + 1 - FirstIdx bitoff)).reverse

/-- The loop of `Find`, with `fuel` rounds: the status and `*out`. -/
def findLoop (b : RawBitmap) (isSet : Bool) (bitmax runLen : Nat) : Nat → Nat → Option (Status × Option Nat)
  | 0, _ => none
  | fuel + 1, bitoff =>
    match b.Scan bitoff bitmax !isSet with
    | none => some (.noResources, none)
    | some start =>
      if bitmax - start < runLen then some (.noResources, none)
      else
        match b.Scan start (start + runLen) isSet with
        | none => some (.ok, some start)
        | some bitoff => b.findLoop isSet bitmax runLen fuel bitoff

/-- `Find(is_set, bitoff, bitmax, run_len, out)`: the status and `*out`. Each
round moves `bitoff` up, so `bitmax` rounds are enough. -/
def Find (b : RawBitmap) (isSet : Bool) (bitoff bitmax runLen : Nat) : Option (Status × Option Nat) :=
  if bitmax ≤ bitoff then some (.invalidArgs, none)
  else b.findLoop isSet bitmax runLen bitmax bitoff

/-- The loop of `ReverseFind`, with `fuel` rounds. -/
def reverseFindLoop (b : RawBitmap) (isSet : Bool) (bitoff runLen : Nat) :
    Nat → Nat → Option (Status × Option Nat)
  | 0, _ => none
  | fuel + 1, bitmax =>
    match b.ReverseScan bitoff bitmax !isSet with
    | none => some (.noResources, none)
    | some start =>
      -- the bit after the last one equal to `is_set`
      let start := start + 1
      if start - bitoff < runLen then some (.noResources, none)
      else
        match b.ReverseScan (start - runLen) start isSet with
        | none => some (.ok, some (start - runLen))
        | some bitmax => b.reverseFindLoop isSet bitoff runLen fuel bitmax

/-- `ReverseFind(is_set, bitoff, bitmax, run_len, out)`: each round moves
`bitmax` down. -/
def ReverseFind (b : RawBitmap) (isSet : Bool) (bitoff bitmax runLen : Nat) : Option (Status × Option Nat) :=
  if bitmax ≤ bitoff then some (.invalidArgs, none)
  else b.reverseFindLoop isSet bitoff runLen bitmax bitmax

/-- `Get(bitoff, bitmax, first)`: the result and `*first`. -/
def Get (b : RawBitmap) (bitoff bitmax : Nat) : Bool × Option Nat :=
  match b.Scan bitoff bitmax true with
  | none => (true, some bitmax)
  | some first => (false, some first)

/-- The loop of `Set` and `Clear`: `data_[i] = combine(data_[i], GetMask(...))` for
each word from `FirstIdx(bitoff)` to `LastIdx(bitmax)`. -/
def applyMask (b : RawBitmap) (bitoff bitmax : Nat) (combine : Nat → Nat → Nat) : RawBitmap × Status :=
  if bitoff > bitmax ∨ bitmax > b.size then (b, .invalidArgs)
  else if bitoff = bitmax then (b, .ok)
  else
    let first_idx := FirstIdx bitoff
    let last_idx := LastIdx bitmax
    ({ b with words := fun i =>
        if first_idx ≤ i ∧ i ≤ last_idx then
          combine (b.words i) (GetMask (i == first_idx) (i == last_idx) bitoff bitmax)
        else b.words i }, .ok)

/-- `Set(bitoff, bitmax)`: `data_[i] |= mask`. -/
def Set (b : RawBitmap) (bitoff bitmax : Nat) : RawBitmap × Status :=
  b.applyMask bitoff bitmax fun data mask => data ||| mask

/-- `Clear(bitoff, bitmax)`: `data_[i] &= ~mask`. -/
def Clear (b : RawBitmap) (bitoff bitmax : Nat) : RawBitmap × Status :=
  b.applyMask bitoff bitmax fun data mask => data &&& (ones ^^^ mask)

/-- `ClearAll()`: zero every word up to `LastIdx(size_)`. -/
def ClearAll (b : RawBitmap) : RawBitmap :=
  if b.size = 0 then b
  else { b with words := fun i => if i ≤ LastIdx b.size then 0 else b.words i }

/-- `Shrink(size)`. -/
def Shrink (b : RawBitmap) (size : Nat) : RawBitmap × Status :=
  if size > b.size then (b, .noMemory) else ({ b with size := size }, .ok)

/-- `Reset(size)`: `size_` is set first; a size of `0` drops `data_` and
keeps the storage, any other allocates a new, cleared one. A failed `Allocate`
has released the old mapping and set the storage's `size_` all the same. -/
def Reset (b : RawBitmap) (size : Nat) (vmoOk : Bool) : RawBitmap × Status :=
  let b := { b with size := size }
  if size = 0 then (b, .ok)
  else
    let last_idx := LastIdx size
    match b.allocate (8 * (last_idx + 1) % 2 ^ 64) vmoOk with
    | (b, false) => (b, .noMemory)
    | (b, true) => (b.ClearAll, .ok)

/-- `LastIdx(size) + 1` in `size_t`: the words `Grow` counts for `size` bits. -/
def wordsFor (size : Nat) : Nat := (LastIdx size + 1) % 2 ^ 64

/-- The `memset` of `Grow`: `(new_len - old_len) * sizeof(size_t)` bytes of zeros
at byte `old_len * sizeof(size_t)` of the mapping, computed in `size_t`;
`none` when it reaches past the mapping. -/
def memsetWords (s : RawBitmap) (old_len new_len : Nat) : Option RawBitmap :=
  let first := 8 * old_len % 2 ^ 64
  let count := 8 * ((new_len + 2 ^ 64 - old_len) % 2 ^ 64) % 2 ^ 64
  if count ≠ 0 ∧ s.mapped < first + count then none
  else some { s with words := fun i => if old_len ≤ i ∧ i < new_len then 0 else s.words i }

/-- `Grow(size)`: the storage grows to `new_len = wordsFor size` words, the
words from `old_len = wordsFor size_` on are cleared, and then the bits from
the old size to the end of its last word. -/
def Grow (b : RawBitmap) (size : Nat) (vmoOk : Bool) : Option (RawBitmap × Status) :=
  if size < b.size then some (b, .invalidArgs)
  else if size = b.size then some (b, .ok)
  -- `ZX_ASSERT(new_bitsize >= new_len)`, with `new_bitsize = sizeof(size_t) * new_len`
  else if 8 * wordsFor size % 2 ^ 64 < wordsFor size then none
  else
    match b.growStorage (8 * wordsFor size % 2 ^ 64) vmoOk with
    | none => some (b, .noMemory)
    | some s =>
      (s.memsetWords (wordsFor b.size) (wordsFor size)).map fun s =>
        (({ s with size := size }.Clear b.size (min (wordsFor b.size * kBits % 2 ^ 64) size)).1, .ok)

/-! ## `Grow` from no bits -/

/-- Reset to 128 bits and then to none, a bitmap keeps its one-page mapping,
and `Grow(64)` runs its `memset` far past it. -/
theorem grow_after_reset_zero_overruns :
    ((empty.Reset 128 true).1.Reset 0 true).2 = .ok ∧
      ((empty.Reset 128 true).1.Reset 0 true).1.size = 0 ∧
      ((empty.Reset 128 true).1.Reset 0 true).1.cap = 4096 ∧
      (((empty.Reset 128 true).1.Reset 0 true).1.Grow 64 true).isNone = true := by
  decide

/-! ## The size a bitmap ends with -/

@[simp] theorem applyMask_size (b : RawBitmap) (bitoff bitmax : Nat) (combine : Nat → Nat → Nat) :
    (b.applyMask bitoff bitmax combine).1.size = b.size := by
  unfold applyMask
  split_ifs <;> rfl

/-- `Set` and `Clear` write the words only; the storage stays as it is. -/
@[simp] theorem applyMask_cap (b : RawBitmap) (bitoff bitmax : Nat) (combine : Nat → Nat → Nat) :
    (b.applyMask bitoff bitmax combine).1.cap = b.cap := by
  unfold applyMask
  split_ifs <;> rfl

@[simp] theorem applyMask_mapped (b : RawBitmap) (bitoff bitmax : Nat) (combine : Nat → Nat → Nat) :
    (b.applyMask bitoff bitmax combine).1.mapped = b.mapped := by
  unfold applyMask
  split_ifs <;> rfl

@[simp] theorem set_size (b : RawBitmap) (bitoff bitmax : Nat) : (b.Set bitoff bitmax).1.size = b.size :=
  applyMask_size b bitoff bitmax _

@[simp] theorem clear_size (b : RawBitmap) (bitoff bitmax : Nat) : (b.Clear bitoff bitmax).1.size = b.size :=
  applyMask_size b bitoff bitmax _

@[simp] theorem clearAll_size (b : RawBitmap) : b.ClearAll.size = b.size := by
  unfold ClearAll
  split_ifs <;> rfl

/-- `Reset` sets `size_` before it allocates, so the bitmap has the new size
whether or not the allocation succeeds. -/
@[simp] theorem reset_size (b : RawBitmap) (size : Nat) (vmoOk : Bool) : (b.Reset size vmoOk).1.size = size := by
  unfold Reset
  split_ifs
  · rfl
  · unfold allocate
    cases vmoOk <;> simp [clearAll_size]

/-! ## `Grow` and `Reset` when the storage can be had -/

/-- `Grow` to fewer bits than the bitmap has is refused, and changes nothing. -/
theorem grow_of_lt_size {b : RawBitmap} {size : Nat} (h : size < b.size) (vmoOk : Bool) :
    b.Grow size vmoOk = some (b, .invalidArgs) := by
  unfold Grow
  exact if_pos h

/-- For a bitmap of some bits, `Grow`'s count of words is `(size_ - 1) / 64 + 1`. -/
theorem wordsFor_of_pos {size : Nat} (hpos : 0 < size) (hsize : size < 2 ^ 64) :
    wordsFor size = (size - 1) / 64 + 1 := by
  unfold wordsFor LastIdx kBits
  omega

theorem le_roundUpPage {size : Nat} (h : size + 4095 < 2 ^ 64) : size ≤ roundUpPage size := by
  unfold roundUpPage pageSize
  omega

/-- A storage that maps at least its `size_` bytes, as a successful `Allocate`
leaves it and `Grow` keeps it. -/
def Mapped (b : RawBitmap) : Prop := 0 < b.mapped ∧ b.cap ≤ b.mapped

/-- A VMO that can grow gives a mapped storage at least the bytes asked for. -/
theorem growStorage_of_ok {b : RawBitmap} (hb : b.Mapped) {size : Nat} (h : size + 4095 < 2 ^ 64) :
    ∃ s, b.growStorage size true = some s ∧ size ≤ s.mapped ∧ s.size = b.size ∧ s.words = b.words := by
  unfold growStorage
  by_cases hcap : size ≤ b.cap
  · exact ⟨b, if_pos hcap, hcap.trans hb.2, rfl, rfl⟩
  · rw [if_neg hcap, if_pos ⟨rfl, Nat.pos_iff_ne_zero.mp hb.1⟩]
    exact ⟨_, rfl, le_roundUpPage h, rfl, rfl⟩

/-- Clearing the words from `old_len` to `new_len` stays inside a mapping that
holds `new_len` words. -/
theorem memsetWords_of_le {s : RawBitmap} {old_len new_len : Nat} (hle : old_len ≤ new_len)
    (hcap : 8 * new_len ≤ s.mapped) (hnew : new_len < 2 ^ 61) :
    s.memsetWords old_len new_len =
      some { s with words := fun i => if old_len ≤ i ∧ i < new_len then 0 else s.words i } := by
  unfold memsetWords
  -- the `memset` ends at byte `8 * new_len`
  exact if_neg (by omega)

/-- With its VMO able to grow, a bitmap of some bits grows to any larger size up
to `2 ^ 60`, and reports `ZX_OK`. -/
theorem grow_of_ok {b : RawBitmap} (hpos : 0 < b.size) (hm : b.Mapped) {size : Nat} (hlt : b.size < size)
    (hsize : size ≤ 2 ^ 60) : ∃ b', b.Grow size true = some (b', .ok) ∧ b'.size = size := by
  have hold := wordsFor_of_pos hpos (by omega)
  have hnew := @wordsFor_of_pos size (by omega) (by omega)
  obtain ⟨s, hs, hcap, -, -⟩ := @growStorage_of_ok b hm (8 * wordsFor size % 2 ^ 64) (by omega)
  have hmem := @memsetWords_of_le s (wordsFor b.size) (wordsFor size)
    (by rw [hold, hnew]; omega) (by omega) (by omega)
  unfold Grow
  rw [if_neg (by omega), if_neg (by omega), if_neg (by omega), hs]
  dsimp only
  rw [hmem]
  exact ⟨_, rfl, clear_size _ _ _⟩

/-- With its VMO able to be created, `Reset` reports `ZX_OK`. -/
theorem reset_of_ok (b : RawBitmap) (size : Nat) : (b.Reset size true).2 = .ok := by
  unfold Reset
  split_ifs
  · rfl
  · rfl

/-- A `Grow` that reports `ZX_OK` leaves the bitmap at the size asked for. -/
theorem grow_size_of_ok {b b' : RawBitmap} {size : Nat} {vmoOk : Bool} (h : b.Grow size vmoOk = some (b', .ok)) :
    b'.size = size := by
  unfold Grow at h
  split_ifs at h with hlt heq
  · cases h
  · cases h
    exact heq.symm
  · split at h
    · cases h
    · obtain ⟨s', -, h⟩ := Option.map_eq_some_iff.mp h
      cases h
      exact clear_size _ _ _

/-- A `Shrink` that reports `ZX_OK` leaves the bitmap at the size asked for. -/
theorem shrink_size_of_ok {b : RawBitmap} {size : Nat} (h : (b.Shrink size).2 = .ok) : (b.Shrink size).1.size = size := by
  unfold Shrink at *
  by_cases hgt : size > b.size
  · rw [if_pos hgt] at h
    cases h
  · rw [if_neg hgt]

end RawBitmap

end Zircon.Bitmap
