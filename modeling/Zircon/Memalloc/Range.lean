import Mathlib

/-!
# Physical memory ranges

The data model of `kernel/phys/lib/memalloc`: the `Type` of a range, `Range`
itself, and the private `Interval` of `algorithm.cc`.

A `Type` is a 64-bit value. The three ZBI base types and the extended types
from `kMinExtendedTypeValue` up to `kMaxExtendedTypeValue` are named by the
source; every other value is "unknown". The model keeps exactly the
distinctions the code makes: `ActiveRanges` counts an unknown value as
`kReserved`, while `IsExtendedType` reads the raw value, so an unknown value
keeps it.

Addresses and sizes are `Nat`. Where the code relies on 64-bit arithmetic
(the right end of a range, clamped by `GetRight`) the clamp is written out.
-/

namespace Zircon.Memalloc

/-- `std::numeric_limits<uint64_t>::max()`. -/
def kMax : Nat := 2 ^ 64 - 1

/-- `kMinExtendedTypeValue`: the first value above the 32-bit ZBI type space. -/
def kMinExtendedTypeValue : Nat := 2 ^ 32

/-- The number of named extended types, `kPoolBookkeeping` to `kNvram`. -/
def kNumExtendedTypes : Nat := 17

/-- `kNumBaseTypes`: `kFreeRam`, `kPeripheral` and `kReserved`. -/
def kNumBaseTypes : Nat := 3

/-- `kMaxExtendedTypeValue`, the value of the placeholder `kMaxExtended`. -/
def kMaxExtendedTypeValue : Nat := kMinExtendedTypeValue + kNumExtendedTypes

/--
`memalloc::Type`. `extended i` is the value `kMinExtendedTypeValue + i`, one
of the seventeen listed extended types; `unknown v` is any other raw value
(a base type the ZBI spec does not name, `kMaxExtended`, or beyond).
-/
inductive RangeType where
  | kFreeRam
  | kPeripheral
  | kReserved
  | extended (i : Fin kNumExtendedTypes)
  | unknown (value : Nat)
deriving DecidableEq, Repr

/-- `Type::kPoolBookkeeping`, the first extended type. -/
def kPoolBookkeeping : RangeType := .extended ⟨0, by decide⟩

/-- `Type::kPoolTestPayload`, the fourteenth extended type. -/
def kPoolTestPayload : RangeType := .extended ⟨13, by decide⟩

/-- `IsExtendedType`: the raw value is at least `kMinExtendedTypeValue`. -/
def IsExtendedType : RangeType → Bool
  | .extended _ => true
  | .unknown v => decide (kMinExtendedTypeValue ≤ v)
  | _ => false

/-- `memalloc::Range`. -/
structure Range where
  addr : Nat
  size : Nat
  type : RangeType
deriving DecidableEq, Repr

namespace Range

/-- `Range::end()`, only meaningful once `addr + size` is known not to overflow. -/
def «end» (r : Range) : Nat := r.addr + r.size

/-- `Range::operator<`: lexicographic on `(addr, size)`. -/
def lt (r o : Range) : Bool := decide (r.addr < o.addr ∨ (r.addr = o.addr ∧ r.size < o.size))

/-- `Range::IntersectsWith`: order the two lexicographically and compare the
end of the lesser with the start of the greater. -/
def IntersectsWith (r o : Range) : Bool :=
  if r.lt o then o.addr < r.end else r.addr < o.end

/-- The order `std::sort` leaves a span of ranges in: not greater. -/
def le (r o : Range) : Prop := o.lt r = false

instance : DecidableRel le := fun r o => inferInstanceAs (Decidable (o.lt r = false))

instance : Std.Total le where
  total r o := by
    simp only [le, lt, decide_eq_false_iff_not, not_or, not_and, Nat.not_lt]
    omega

instance : IsTrans Range le where
  trans r o q := by
    simp only [le, lt, decide_eq_false_iff_not, not_or, not_and, Nat.not_lt]
    omega

end Range

/-- `GetLeft`. -/
def GetLeft (r : Range) : Nat := r.addr

/-- `GetRight`: the exclusive right end, clamped so that it never passes `UINT64_MAX`. -/
def GetRight (r : Range) : Nat := GetLeft r + min (kMax - GetLeft r) r.size

theorem getLeft_le_getRight (r : Range) : GetLeft r ≤ GetRight r := by
  unfold GetRight; omega

/-- An address the range covers, up to its clamped right end. -/
def Covers (r : Range) (x : Nat) : Prop := GetLeft r ≤ x ∧ x < GetRight r

instance (r : Range) (x : Nat) : Decidable (Covers r x) :=
  inferInstanceAs (Decidable (_ ∧ _))

/-! ## `Interval` -/

/--
The private `Interval` of `algorithm.cc`: `[Left(), Right())` with the empty
interval represented only as `[0, 0)`. The field `wf` is the class invariant
its constructor establishes.
-/
structure Interval where
  left : Nat
  right : Nat
  wf : left < right ∨ (left = 0 ∧ right = 0)

namespace Interval

/-- `Interval()`, the empty interval. -/
def empty₀ : Interval := ⟨0, 0, .inr ⟨rfl, rfl⟩⟩

/-- `Interval(left, right)`: `[left, right)`, or empty when `left >= right`. -/
def make (left right : Nat) : Interval :=
  if h : left < right then ⟨left, right, .inl h⟩ else empty₀

/-- `Interval(const Range&)`. -/
def ofRange (r : Range) : Interval := make (GetLeft r) (GetRight r)

/-- `empty()`. -/
def empty (i : Interval) : Bool := i.left == i.right

/-- `IsAdjacentTo`. -/
def IsAdjacentTo (i o : Interval) : Bool := i.left == o.right || o.left == i.right

/-- `IntersectsWith`. -/
def IntersectsWith (i o : Interval) : Bool :=
  !i.empty && !o.empty && decide (i.left < o.right) && decide (o.left < i.right)

/-- `HeadBeforeIntersection`. -/
def HeadBeforeIntersection (i o : Interval) : Interval := make i.left (max i.left o.left)

/-- `TailAfterIntersection`. -/
def TailAfterIntersection (i o : Interval) : Interval := make (min i.right o.right) i.right

/-- `MergeInto`: the hull of the two, an empty argument changing nothing. -/
def MergeInto (i o : Interval) : Interval :=
  if o.empty then i
  else if hi : i.empty then o
  else ⟨min i.left o.left, max i.right o.right, by
    have := i.wf
    simp only [empty, beq_iff_eq] at hi
    omega⟩

/-- `AsRamRange`. -/
def AsRamRange (i : Interval) : Range := ⟨i.left, i.right - i.left, .kFreeRam⟩

/-- An address the interval holds. -/
def Mem (i : Interval) (x : Nat) : Prop := i.left ≤ x ∧ x < i.right

/-! The operations on the addresses they hold. -/

theorem left_le_right (i : Interval) : i.left ≤ i.right := by
  have := i.wf; omega

theorem empty_eq_false_iff (i : Interval) : i.empty = false ↔ i.left < i.right := by
  have := i.wf
  simp only [empty, beq_eq_false_iff_ne, ne_eq]
  omega

theorem empty_eq_true_iff (i : Interval) : i.empty = true ↔ i.left = 0 ∧ i.right = 0 := by
  have := i.wf
  simp only [empty, beq_iff_eq]
  omega

theorem not_mem_of_empty {i : Interval} (h : i.empty = true) (x : Nat) : ¬ i.Mem x := by
  rw [empty_eq_true_iff] at h
  simp [Mem, h.2]

theorem mem_make {l r x : Nat} : (make l r).Mem x ↔ l ≤ x ∧ x < r := by
  unfold make
  split_ifs with h
  · rfl
  · simp only [Mem, empty₀]
    omega

theorem mem_ofRange {r : Range} {x : Nat} : (ofRange r).Mem x ↔ Covers r x := mem_make

theorem make_left {l r : Nat} (h : l < r) : (make l r).left = l := by
  simp [make, h]

theorem intersectsWith_eq_true_iff (i o : Interval) :
    i.IntersectsWith o = true ↔ i.left < i.right ∧ o.left < o.right ∧
      i.left < o.right ∧ o.left < i.right := by
  simp only [IntersectsWith, Bool.and_eq_true, Bool.not_eq_true', empty_eq_false_iff,
    decide_eq_true_eq, and_assoc]

theorem intersectsWith_of_mem {i o : Interval} {x : Nat} (hi : i.Mem x) (ho : o.Mem x) :
    i.IntersectsWith o = true := by
  rw [intersectsWith_eq_true_iff]
  simp only [Mem] at hi ho
  omega

theorem isAdjacentTo_eq_true_iff (i o : Interval) :
    i.IsAdjacentTo o = true ↔ i.left = o.right ∨ o.left = i.right := by
  simp [IsAdjacentTo]

/-- The head lies before `o`, within `i` as far as it goes. -/
theorem mem_headBeforeIntersection {i o : Interval} {x : Nat} :
    (i.HeadBeforeIntersection o).Mem x ↔ i.left ≤ x ∧ x < o.left := by
  rw [HeadBeforeIntersection, mem_make]
  omega

/-- Once `o` reaches past the start of `i`, the tail is the part of `i` after `o`. -/
theorem mem_tailAfterIntersection {i o : Interval} (h : i.left < o.right) {x : Nat} :
    (i.TailAfterIntersection o).Mem x ↔ i.Mem x ∧ o.right ≤ x := by
  rw [TailAfterIntersection, mem_make, Mem]
  omega

theorem tailAfterIntersection_left {i o : Interval} (h : (i.TailAfterIntersection o).empty = false) :
    (i.TailAfterIntersection o).left = o.right := by
  rw [empty_eq_false_iff] at h
  unfold TailAfterIntersection make at h ⊢
  split_ifs at h ⊢ with h'
  · dsimp only at h ⊢
    omega
  · simp [empty₀] at h

/-- Two intervals that meet or touch merge into their union. -/
theorem mem_mergeInto {i o : Interval} (h : i.IntersectsWith o = true ∨ i.IsAdjacentTo o = true)
    {x : Nat} : (i.MergeInto o).Mem x ↔ i.Mem x ∨ o.Mem x := by
  have hi := i.wf
  have ho := o.wf
  unfold MergeInto
  split_ifs with h1 h2
  · simp [not_mem_of_empty h1]
  · simp [not_mem_of_empty h2]
  · rw [Bool.not_eq_true, empty_eq_false_iff] at h1 h2
    rw [intersectsWith_eq_true_iff] at h
    simp only [IsAdjacentTo, Bool.or_eq_true, beq_iff_eq] at h
    simp only [Mem]
    omega

theorem mergeInto_left {i o : Interval} (ho : o.empty = false) :
    (i.MergeInto o).left = if i.empty then o.left else min i.left o.left := by
  unfold MergeInto
  split_ifs <;> simp_all

theorem mergeInto_right {i o : Interval} (ho : o.empty = false) :
    (i.MergeInto o).right = if i.empty then o.right else max i.right o.right := by
  unfold MergeInto
  split_ifs <;> simp_all

theorem mergeInto_empty {i o : Interval} (ho : o.empty = false) : (i.MergeInto o).empty = false := by
  rw [empty_eq_false_iff, mergeInto_left ho, mergeInto_right ho]
  have := i.left_le_right
  rw [empty_eq_false_iff] at ho
  split_ifs <;> omega

theorem asRamRange_addr (i : Interval) : i.AsRamRange.addr = i.left := rfl

theorem asRamRange_end (i : Interval) : i.AsRamRange.end = i.right := by
  have := i.left_le_right
  simp only [AsRamRange, Range.end]
  omega

end Interval

end Zircon.Memalloc
