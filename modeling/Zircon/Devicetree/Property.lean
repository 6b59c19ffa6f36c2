import Mathlib

/-!
# `reg` and `ranges` properties

A `prop-encoded-array` property is a run of entries, each a tuple of fields, each field a number
of 32-bit big-endian cells. `PropEncodedArray` holds the cell count of each field and the raw
bytes. `operator[]` cuts out one entry, and `PropEncodedArrayElement` parses its fields with
`internal::ParseCells`, which reads one or two cells and panics on any other count.
`RegProperty::Create` and `RangesProperty::Create` check the cell counts and the size of the
bytes before building the array, whose constructor asserts that the bytes split into whole
entries.

A `ByteView` is the list of its bytes. The model returns `none` where the code panics or divides
by zero, and `some none` for a `std::nullopt`. `ofListBE` is the big-endian number of a byte
string, and `fieldAt` the reading the specification gives a field: its own cells, concatenated.

The two `Create`s part from the specification in three ways, each stated below for all inputs.
`RegProperty::Create` checks the size against `a + s` where the array asserts `4 * (a + s)`
bytes, so it panics on a size between the two (`RegProperty.create_eq_none_iff`).
`RangesProperty::Create` bounds no parent address cell count (`RangesProperty.create_nil`). And
it builds its array with the cell counts in the order `(a, s, p)`, so that the parent bus address
is read with the size cell count and the length with the parent address cell count
(`RangesProperty.get_fields`).
-/

namespace Zircon.Devicetree

/-! ## Cells -/

/-- The big-endian number of a byte string. -/
def ofListBE : List UInt8 → Nat
  | [] => 0
  | b :: bs => b.toNat * 256 ^ bs.length + ofListBE bs

@[simp]
theorem ofListBE_nil : ofListBE [] = 0 := rfl

@[simp]
theorem ofListBE_cons (b : UInt8) (bs : List UInt8) :
    ofListBE (b :: bs) = b.toNat * 256 ^ bs.length + ofListBE bs := rfl

theorem ofListBE_append (l₁ l₂ : List UInt8) :
    ofListBE (l₁ ++ l₂) = ofListBE l₁ * 256 ^ l₂.length + ofListBE l₂ := by
  induction l₁ with
  | nil => simp
  | cons b bs ih =>
    rw [List.cons_append, ofListBE_cons, ofListBE_cons, ih, List.length_append, pow_add]
    ring

theorem ofListBE_lt (l : List UInt8) : ofListBE l < 256 ^ l.length := by
  induction l with
  | nil => simp
  | cons b bs ih =>
    have hb : b.toNat < 256 := b.toNat_lt
    have hb' : b.toNat * 256 ^ bs.length + 256 ^ bs.length ≤ 256 ^ (bs.length + 1) := by
      rw [pow_succ]
      nlinarith
    rw [ofListBE_cons, List.length_cons]
    omega

/-- `internal::ReadBigEndianUint32(bytes)`: the first four bytes as a big-endian `uint32_t`, and
the rest of the view; `none` where `ZX_ASSERT(bytes.size() >= sizeof(uint32_t))` fails. -/
def ReadBigEndianUint32 : List UInt8 → Option (Nat × List UInt8)
  | b0 :: b1 :: b2 :: b3 :: rest =>
    some (b0.toNat <<< 24 ||| b1.toNat <<< 16 ||| b2.toNat <<< 8 ||| b3.toNat, rest)
  | _ => none

/-- `internal::ParseCells(bytes, num_cells)`; `none` where a read fails its assertion, and for a
count other than 1 or 2 (`ZX_PANIC`). -/
def ParseCells (bytes : List UInt8) (num_cells : Nat) : Option Nat :=
  match num_cells with
  | 1 => (ReadBigEndianUint32 bytes).map Prod.fst
  | 2 => do
    let (higher, _) ← ReadBigEndianUint32 bytes
    let (lower, _) ← ReadBigEndianUint32 (bytes.drop 4)
    pure (higher <<< 32 ||| lower)
  | _ => none

/-- A number shifted past a smaller one and or'ed with it is added to it. -/
theorem shiftLeft_or_eq (x y k : Nat) (hy : y < 2 ^ k) : x <<< k ||| y = x * 2 ^ k + y := by
  rw [← Nat.shiftLeft_add_eq_or_of_lt hy, Nat.shiftLeft_eq]

theorem readBigEndianUint32_eq {bytes : List UInt8} (h : 4 ≤ bytes.length) :
    ReadBigEndianUint32 bytes = some (ofListBE (bytes.take 4), bytes.drop 4) := by
  match bytes, h with
  | b0 :: b1 :: b2 :: b3 :: rest, _ =>
    -- the four shifted bytes do not overlap, so their `|` is their sum
    have h1 : b0.toNat <<< 24 ||| b1.toNat <<< 16 = (b0.toNat <<< 8 ||| b1.toNat) <<< 16 := by
      rw [Nat.shiftLeft_or_distrib, ← Nat.shiftLeft_add]
    have h2 : (b0.toNat <<< 8 ||| b1.toNat) <<< 16 ||| b2.toNat <<< 8 =
        ((b0.toNat <<< 8 ||| b1.toNat) <<< 8 ||| b2.toNat) <<< 8 := by
      rw [@Nat.shiftLeft_or_distrib 8 ((b0.toNat <<< 8 ||| b1.toNat) <<< 8) b2.toNat,
        ← Nat.shiftLeft_add]
    simp only [ReadBigEndianUint32, h1, h2]
    rw [shiftLeft_or_eq _ _ 8 b3.toNat_lt, shiftLeft_or_eq _ _ 8 b2.toNat_lt,
      shiftLeft_or_eq _ _ 8 b1.toNat_lt]
    simp only [List.take_succ_cons, List.take_zero, ofListBE_cons, List.length_cons,
      List.length_nil, ofListBE_nil, List.drop_succ_cons, List.drop_zero]
    ring_nf

/-- `ParseCells` reads its one or two cells big-endian. -/
theorem parseCells_eq {bytes : List UInt8} {n : Nat} (hn : n = 1 ∨ n = 2)
    (hlen : 4 * n ≤ bytes.length) : ParseCells bytes n = some (ofListBE (bytes.take (4 * n))) := by
  cases hn with
  | inl h =>
    subst h
    simp [ParseCells, readBigEndianUint32_eq hlen]
  | inr h =>
    subst h
    have hrest : 4 ≤ (bytes.drop 4).length := by
      rw [List.length_drop]
      omega
    -- the eight bytes are the first four followed by the next four
    have hsplit : bytes.take 8 = bytes.take 4 ++ (bytes.drop 4).take 4 := by
      rw [show 8 = 4 + 4 from rfl, List.take_add]
    have hlow : ofListBE ((bytes.drop 4).take 4) < 2 ^ 32 := by
      have := ofListBE_lt ((bytes.drop 4).take 4)
      rw [List.length_take_of_le hrest] at this
      simpa using this
    simp only [ParseCells, readBigEndianUint32_eq (le_trans (by omega) hlen),
      readBigEndianUint32_eq hrest, Option.bind_eq_bind, Option.bind_some, Option.pure_def]
    rw [shiftLeft_or_eq _ _ 32 hlow, hsplit, ofListBE_append,
      List.length_take_of_le hrest]
    norm_num

/-! ## Entries -/

/-- The `n` cells at byte `offset` of `bytes`. -/
def cellsAt (bytes : List UInt8) (offset n : Nat) : List UInt8 := (bytes.drop offset).take (4 * n)

/-- A field of `n` cells at byte `offset`, as the specification reads it: `std::nullopt` when it
has no cells, and otherwise its cells concatenated big-endian. -/
def fieldAt (bytes : List UInt8) (offset n : Nat) : Option Nat :=
  if n = 0 then none else some (ofListBE (cellsAt bytes offset n))

/-- The fields of the given cell counts, one after the other from byte `offset` on. -/
def fieldsFrom (bytes : List UInt8) : Nat → List Nat → List (Option Nat)
  | _, [] => []
  | offset, n :: cells => fieldAt bytes offset n :: fieldsFrom bytes (offset + 4 * n) cells

/-- A parsed entry: `std::array<std::optional<uint64_t>, N> elements_`. -/
structure PropEncodedArrayElement where
  elements_ : List (Option Nat)
deriving DecidableEq, Repr

namespace PropEncodedArrayElement

/-- The loop of the constructor `PropEncodedArrayElement(raw_element, num_cells)` from the field
at byte `offset` of the entry on; `none` where `ParseCells` panics. -/
def parseFrom (raw_element : List UInt8) : Nat → List Nat → Option (List (Option Nat))
  | _, [] => some []
  | offset, n :: cells =>
    if n = 0 then (parseFrom raw_element offset cells).map (none :: ·)
    else do
      let v ← ParseCells ((raw_element.drop offset).take (4 * n)) n
      let rest ← parseFrom raw_element (offset + n * 4) cells
      pure (some v :: rest)

/-- The constructor `PropEncodedArrayElement(raw_element, num_cells)`. -/
def make (raw_element : List UInt8) (num_cells : List Nat) : Option PropEncodedArrayElement :=
  (parseFrom raw_element 0 num_cells).map fun elements_ => ⟨elements_⟩

/-- `operator[](index)`. -/
def get (e : PropEncodedArrayElement) (index : Nat) : Option Nat := (e.elements_[index]?).join

/-- With one or two cells a field, and the bytes for all of them, the constructor does not panic
and reads each field as the specification does. -/
theorem parseFrom_eq {raw : List UInt8} {cells : List Nat} (hcells : ∀ n ∈ cells, n ≤ 2)
    (offset : Nat) (hlen : offset + 4 * cells.sum ≤ raw.length) :
    parseFrom raw offset cells = some (fieldsFrom raw offset cells) := by
  induction cells generalizing offset with
  | nil => rfl
  | cons n cells ih =>
    have hn : n ≤ 2 := hcells n (by simp)
    have hrest : ∀ m ∈ cells, m ≤ 2 := fun m hm => hcells m (by simp [hm])
    rw [List.sum_cons] at hlen
    by_cases h0 : n = 0
    · subst h0
      simp [parseFrom, fieldsFrom, fieldAt, ih hrest offset (by omega)]
    · -- the field's slice has all its bytes
      have hslice : 4 * n ≤ ((raw.drop offset).take (4 * n)).length := by
        rw [List.length_take, List.length_drop]
        omega
      rw [parseFrom, if_neg h0, parseCells_eq (by omega) hslice, List.take_take, min_self,
        Nat.mul_comm n 4, ih hrest (offset + 4 * n) (by omega)]
      simp [fieldsFrom, fieldAt, h0, cellsAt]

end PropEncodedArrayElement

/-! ## The array -/

/-- `entry_size_`: `std::accumulate` of the fields' byte counts from the `int` `0`. Its
accumulator is an `int`, so the sum is kept modulo `2 ^ 32` as a signed value, and the `size_t`
member sign-extends it. -/
def entrySize (num_cells : List Nat) : Nat :=
  let t := (num_cells.map (· * 4)).sum % 2 ^ 32
  if t < 2 ^ 31 then t else t + (2 ^ 64 - 2 ^ 32)

/-- `PropEncodedArray<ElementType, N>`. -/
structure PropEncodedArray where
  cells_for_elements_ : List Nat
  entry_size_ : Nat
  prop_encoded_raw_ : List UInt8
deriving DecidableEq, Repr

namespace PropEncodedArray

/-- The constructor `PropEncodedArray(data, num_cells...)`; `none` where
`ZX_ASSERT(prop_encoded_raw_.size() % entry_size_ == 0)` fails or divides by zero. -/
def make (data : List UInt8) (num_cells : List Nat) : Option PropEncodedArray :=
  let entry_size_ := entrySize num_cells
  if entry_size_ = 0 then none
  else if data.length % entry_size_ = 0 then some ⟨num_cells, entry_size_, data⟩
  else none

/-- `size()`. -/
def size (a : PropEncodedArray) : Nat :=
  if a.entry_size_ = 0 then 0 else a.prop_encoded_raw_.length / a.entry_size_

/-- `operator[](index)`; `none` where `ZX_ASSERT(index * entry_size_ < prop_encoded_raw_.size())`
fails or the entry's constructor panics. -/
def get (a : PropEncodedArray) (index : Nat) : Option PropEncodedArrayElement :=
  if index * a.entry_size_ < a.prop_encoded_raw_.length then
    PropEncodedArrayElement.make
      ((a.prop_encoded_raw_.drop (index * a.entry_size_)).take a.entry_size_) a.cells_for_elements_
  else none

/-- Small cell counts make no `int` wrap: the entry is four bytes a cell. -/
theorem entrySize_eq {num_cells : List Nat} (h : 4 * num_cells.sum < 2 ^ 31) :
    entrySize num_cells = 4 * num_cells.sum := by
  have hsum : (num_cells.map (· * 4)).sum = 4 * num_cells.sum := by
    rw [List.sum_map_mul_right, List.map_id', Nat.mul_comm]
  simp only [entrySize, hsum]
  rw [Nat.mod_eq_of_lt (by omega), if_pos h]

/-- The array of whole entries of a non-empty cell layout. -/
theorem make_eq {data : List UInt8} {num_cells : List Nat} (h : 4 * num_cells.sum < 2 ^ 31)
    (hpos : 0 < num_cells.sum) (hdvd : 4 * num_cells.sum ∣ data.length) :
    make data num_cells = some ⟨num_cells, 4 * num_cells.sum, data⟩ := by
  have hmod : data.length % (4 * num_cells.sum) = 0 := Nat.mod_eq_zero_of_dvd hdvd
  simp only [make, entrySize_eq h]
  rw [if_neg (by omega), if_pos hmod]

/-- Every entry below `size()` parses without a panic, into the fields the specification
reads from its bytes. -/
theorem get_eq {data : List UInt8} {num_cells : List Nat} (hcells : ∀ n ∈ num_cells, n ≤ 2)
    (hpos : 0 < num_cells.sum) {i : Nat}
    (hi : i < (⟨num_cells, 4 * num_cells.sum, data⟩ : PropEncodedArray).size) :
    (⟨num_cells, 4 * num_cells.sum, data⟩ : PropEncodedArray).get i =
      some ⟨fieldsFrom ((data.drop (i * (4 * num_cells.sum))).take (4 * num_cells.sum)) 0
        num_cells⟩ := by
  simp only [size] at hi
  rw [if_neg (by omega)] at hi
  -- the entry lies inside the bytes, with all of its own
  have hend : i * (4 * num_cells.sum) + 4 * num_cells.sum ≤ data.length := by
    have := Nat.mul_le_mul_right (4 * num_cells.sum) (Nat.succ_le_of_lt hi)
    rw [Nat.add_one_mul] at this
    exact le_trans this (Nat.div_mul_le_self _ _)
  have hlt : i * (4 * num_cells.sum) < data.length := by omega
  have hentry : 0 + 4 * num_cells.sum ≤
      ((data.drop (i * (4 * num_cells.sum))).take (4 * num_cells.sum)).length := by
    rw [List.length_take, List.length_drop]
    omega
  simp only [get, if_pos hlt, PropEncodedArrayElement.make,
    PropEncodedArrayElement.parseFrom_eq hcells 0 hentry, Option.map_some]

/-- Where the cell layout is small, the constructor fails exactly when the bytes do not split
into whole entries, or the layout has no cells and its `%` divides by zero. -/
theorem make_eq_none_iff {data : List UInt8} {num_cells : List Nat}
    (h : 4 * num_cells.sum < 2 ^ 31) :
    make data num_cells = none ↔ num_cells.sum = 0 ∨ ¬ 4 * num_cells.sum ∣ data.length := by
  simp only [make, entrySize_eq h]
  by_cases h0 : num_cells.sum = 0
  · simp [h0]
  · rw [if_neg (by omega), Nat.dvd_iff_mod_eq_zero]
    by_cases hmod : data.length % (4 * num_cells.sum) = 0 <;> simp [h0, hmod]

end PropEncodedArray

/-! ## `reg` -/

/-- `RegProperty::Create(num_address_cells, num_size_cells, bytes)`: `none` where it panics or
divides by zero, `some none` for `std::nullopt`. -/
def RegProperty.Create (num_address_cells num_size_cells : Nat) (bytes : List UInt8) :
    Option (Option PropEncodedArray) :=
  if num_address_cells > 2 ∨ num_size_cells > 2 then some none
  else if num_address_cells + num_size_cells = 0 then none
  else if bytes.length % (num_address_cells + num_size_cells) ≠ 0 then some none
  else (PropEncodedArray.make bytes [num_address_cells, num_size_cells]).map some

/-- `RegPropertyElement::address()`. -/
def RegPropertyElement.address (e : PropEncodedArrayElement) : Option Nat := e.get 0

/-- `RegPropertyElement::size()`. -/
def RegPropertyElement.size (e : PropEncodedArrayElement) : Option Nat := e.get 1

section Reg

variable {a s : Nat} {bytes : List UInt8}

/-- `RegProperty::Create` panics, or divides by zero, where the bytes split into whole entries
of `a + s` bytes but not of `4 * (a + s)`: its check counts cells where the array counts bytes. -/
theorem RegProperty.create_eq_none_iff (ha : a ≤ 2) (hs : s ≤ 2) :
    RegProperty.Create a s bytes = none ↔
      a + s = 0 ∨ ((a + s) ∣ bytes.length ∧ ¬ 4 * (a + s) ∣ bytes.length) := by
  have hsum : [a, s].sum = a + s := by simp
  unfold RegProperty.Create
  rw [if_neg (by omega)]
  by_cases h0 : a + s = 0
  · simp [h0]
  rw [if_neg h0]
  by_cases hdvd : (a + s) ∣ bytes.length
  · -- the cell check passes, and the array's constructor checks the bytes
    rw [if_neg (by simpa using Nat.mod_eq_zero_of_dvd hdvd), Option.map_eq_none_iff,
      PropEncodedArray.make_eq_none_iff (by rw [hsum]; omega), hsum]
    simp [hdvd]
  · -- the cell check fails: `std::nullopt`
    rw [if_pos (fun hmod => hdvd (Nat.dvd_of_mod_eq_zero hmod))]
    simp only [reduceCtorEq, hdvd, false_and, or_false, false_iff]
    exact h0

/-- With whole entries of `4 * (a + s)` bytes, `RegProperty::Create` returns the array. -/
theorem RegProperty.create_eq_some (ha : a ≤ 2) (hs : s ≤ 2) (hpos : 0 < a + s)
    (hdvd : 4 * (a + s) ∣ bytes.length) :
    RegProperty.Create a s bytes = some (some ⟨[a, s], 4 * (a + s), bytes⟩) := by
  have hsum : [a, s].sum = a + s := by simp
  have hmod : bytes.length % (a + s) = 0 :=
    Nat.mod_eq_zero_of_dvd (Nat.dvd_trans (Dvd.intro_left 4 rfl) hdvd)
  unfold RegProperty.Create
  rw [if_neg (by omega), if_neg (by omega), if_neg (by simpa using hmod),
    PropEncodedArray.make_eq (by rw [hsum]; omega) (by rw [hsum]; omega) (by rw [hsum]; exact hdvd),
    hsum]
  rfl

/-- Entry `i` of a `reg` array: its address is its first `a` cells and its size the `s` cells
after them, as the specification lays them out. -/
theorem RegProperty.get_fields (ha : a ≤ 2) (hs : s ≤ 2) (hpos : 0 < a + s) {i : Nat}
    (hi : i < (⟨[a, s], 4 * (a + s), bytes⟩ : PropEncodedArray).size) :
    ∃ e, (⟨[a, s], 4 * (a + s), bytes⟩ : PropEncodedArray).get i = some e ∧
      RegPropertyElement.address e =
        fieldAt ((bytes.drop (i * (4 * (a + s)))).take (4 * (a + s))) 0 a ∧
      RegPropertyElement.size e =
        fieldAt ((bytes.drop (i * (4 * (a + s)))).take (4 * (a + s))) (4 * a) s := by
  have hsum : [a, s].sum = a + s := by simp
  have hcells : ∀ n ∈ [a, s], n ≤ 2 := by simp [ha, hs]
  have hget := PropEncodedArray.get_eq hcells (by rw [hsum]; exact hpos) (hsum ▸ hi)
  rw [hsum] at hget
  refine ⟨_, hget, ?_, ?_⟩ <;>
    simp [RegPropertyElement.address, RegPropertyElement.size, PropEncodedArrayElement.get,
      fieldsFrom]

end Reg

/-! ## `ranges` -/

/-- `RangesProperty::Create(num_address_cells, num_size_cells, num_parent_address_cells,
bytes)`. The sum of the three `uint32_t` counts wraps, and the array gets the counts in the order
of the call. -/
def RangesProperty.Create (num_address_cells num_size_cells num_parent_address_cells : Nat)
    (bytes : List UInt8) : Option (Option PropEncodedArray) :=
  if num_address_cells > 2 ∨ num_size_cells > 2 then some none
  else
    let divisor := 4 * ((num_address_cells + num_size_cells + num_parent_address_cells) % 2 ^ 32)
    if divisor = 0 then none
    else if bytes.length % divisor ≠ 0 then some none
    else
      (PropEncodedArray.make bytes
        [num_address_cells, num_size_cells, num_parent_address_cells]).map some

/-- `RangesPropertyElement::child_bus_address()`. -/
def RangesPropertyElement.child_bus_address (e : PropEncodedArrayElement) : Option Nat := e.get 0

/-- `RangesPropertyElement::parent_bus_address()`. -/
def RangesPropertyElement.parent_bus_address (e : PropEncodedArrayElement) : Option Nat :=
  e.get 1

/-- `RangesPropertyElement::length()`. -/
def RangesPropertyElement.length (e : PropEncodedArrayElement) : Option Nat := e.get 2

/-- The loop of `TranslateChildAddress` over `n` entries from entry `i` on. The end of a range
is a `uint64_t` sum and wraps, and so does the translated address. -/
def RangesProperty.translateFrom (r : PropEncodedArray) (address : Nat) :
    Nat → Nat → Option (Option Nat)
  | 0, _ => some none
  | n + 1, i => do
    let range ← r.get i
    match RangesPropertyElement.child_bus_address range,
        RangesPropertyElement.parent_bus_address range, RangesPropertyElement.length range with
    | some child, some parent, some length =>
      if address ≥ child ∧ address < (child + length) % 2 ^ 64 then
        some (some ((address - child + parent) % 2 ^ 64))
      else translateFrom r address n (i + 1)
    | _, _, _ => translateFrom r address n (i + 1)

/-- `RangesProperty::TranslateChildAddress(address)`. -/
def RangesProperty.TranslateChildAddress (r : PropEncodedArray) (address : Nat) :
    Option (Option Nat) :=
  if r.size = 0 then some (some address) else RangesProperty.translateFrom r address r.size 0

section Ranges

variable {a s p : Nat} {bytes : List UInt8}

/-- With counts of at most two cells and whole entries, `RangesProperty::Create` returns the
array, with the counts in the order `(a, s, p)`. -/
theorem RangesProperty.create_eq_some (ha : a ≤ 2) (hs : s ≤ 2) (hp : p ≤ 2)
    (hpos : 0 < a + s + p) (hdvd : 4 * (a + s + p) ∣ bytes.length) :
    RangesProperty.Create a s p bytes = some (some ⟨[a, s, p], 4 * (a + s + p), bytes⟩) := by
  have hsum : [a, s, p].sum = a + s + p := by simp [Nat.add_assoc]
  have hmod : bytes.length % (4 * ((a + s + p) % 2 ^ 32)) = 0 := by
    rw [Nat.mod_eq_of_lt (show a + s + p < 2 ^ 32 by omega)]
    exact Nat.mod_eq_zero_of_dvd hdvd
  unfold RangesProperty.Create
  rw [if_neg (by omega)]
  simp only
  rw [if_neg (by omega), if_neg (by simpa using hmod),
    PropEncodedArray.make_eq (by rw [hsum]; omega) (by rw [hsum]; omega)
      (by rw [hsum]; exact hdvd), hsum]
  rfl

/-- `RangesProperty::Create` does not bound the parent's address cells: with no bytes it returns
an array for any count its sums do not wrap. -/
theorem RangesProperty.create_nil (ha : a ≤ 2) (hs : s ≤ 2) (hp : 4 * (a + s + p) < 2 ^ 31)
    (hpos : 0 < a + s + p) :
    RangesProperty.Create a s p [] = some (some ⟨[a, s, p], 4 * (a + s + p), []⟩) := by
  have hsum : [a, s, p].sum = a + s + p := by simp [Nat.add_assoc]
  unfold RangesProperty.Create
  rw [if_neg (by omega)]
  simp only
  rw [Nat.mod_eq_of_lt (show a + s + p < 2 ^ 32 by omega), if_neg (by omega), List.length_nil,
    Nat.zero_mod,
    if_neg (by simp), PropEncodedArray.make_eq (by rw [hsum]; omega) (by rw [hsum]; omega)
      (by simp), hsum]
  rfl

/-- Entry `i` of a `ranges` array: the child bus address is its first `a` cells, but the parent
bus address is read from the `s` cells after them and the length from the `p` cells after those,
where the specification puts `p` cells of parent bus address and then `s` cells of length. -/
theorem RangesProperty.get_fields (ha : a ≤ 2) (hs : s ≤ 2) (hp : p ≤ 2) (hpos : 0 < a + s + p)
    {i : Nat} (hi : i < (⟨[a, s, p], 4 * (a + s + p), bytes⟩ : PropEncodedArray).size) :
    ∃ e, (⟨[a, s, p], 4 * (a + s + p), bytes⟩ : PropEncodedArray).get i = some e ∧
      RangesPropertyElement.child_bus_address e =
        fieldAt ((bytes.drop (i * (4 * (a + s + p)))).take (4 * (a + s + p))) 0 a ∧
      RangesPropertyElement.parent_bus_address e =
        fieldAt ((bytes.drop (i * (4 * (a + s + p)))).take (4 * (a + s + p))) (4 * a) s ∧
      RangesPropertyElement.length e =
        fieldAt ((bytes.drop (i * (4 * (a + s + p)))).take (4 * (a + s + p)))
          (4 * a + 4 * s) p := by
  have hsum : [a, s, p].sum = a + s + p := by simp [Nat.add_assoc]
  have hcells : ∀ n ∈ [a, s, p], n ≤ 2 := by simp [ha, hs, hp]
  have hget := PropEncodedArray.get_eq hcells (by rw [hsum]; exact hpos) (hsum ▸ hi)
  rw [hsum] at hget
  refine ⟨_, hget, ?_, ?_, ?_⟩ <;>
    simp [RangesPropertyElement.child_bus_address, RangesPropertyElement.parent_bus_address,
      RangesPropertyElement.length, PropEncodedArrayElement.get, fieldsFrom]

end Ranges

/-- `ranges = <0x1000 0x0 0x80000000 0x1000>` for a child with one address cell and one size
cell under a parent with two address cells: the specification reads child bus address `0x1000`,
parent bus address `0x80000000` (two cells) and length `0x1000` (one cell). -/
def rangesOneOneTwo : List UInt8 :=
  [0x00, 0x00, 0x10, 0x00, 0x00, 0x00, 0x00, 0x00, 0x80, 0x00, 0x00, 0x00, 0x00, 0x00, 0x10, 0x00]

/-- `RangesProperty::Create(1, 1, 2, bytes)` reads the parent bus address with one cell and the
length with two, and translates the child address `0x1000` to `0` instead of `0x80000000`. -/
theorem rangesProperty_reads_parent_with_size_cells :
    RangesProperty.Create 1 1 2 rangesOneOneTwo =
        some (some ⟨[1, 1, 2], 16, rangesOneOneTwo⟩) ∧
      fieldAt rangesOneOneTwo 4 2 = some 0x80000000 ∧ fieldAt rangesOneOneTwo 12 1 = some 0x1000 ∧
      (⟨[1, 1, 2], 16, rangesOneOneTwo⟩ : PropEncodedArray).get 0 =
        some ⟨[some 0x1000, some 0, some 0x8000000000001000]⟩ ∧
      RangesProperty.TranslateChildAddress ⟨[1, 1, 2], 16, rangesOneOneTwo⟩ 0x1000 =
        some (some 0) := by
  refine ⟨?_, ?_, ?_, ?_, ?_⟩ <;> decide

end Zircon.Devicetree
