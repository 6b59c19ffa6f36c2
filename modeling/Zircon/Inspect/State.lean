import Zircon.Inspect.Reader
import Zircon.Inspect.Free

/-!
# `inspect::internal::State`: creating values

`State` of `vmo/state.cc` builds the Inspect hierarchy in the heap's blocks. A
value (`CreateNode`, `CreateIntProperty`, the buffer properties) takes a
block for itself (`InnerCreateValue`) and a `STRING_REFERENCE` block for its
name, shared through the ids of `StringReference`s and counted by the
reference count in its header. A name that does not fit the largest string
reference goes on in a chain of `EXTENT` blocks (`InnerCreateExtentChain`),
as does the value of a buffer property. The parent's payload counts its
children.

A creation can fail at each allocation, and each failure point undoes what
came before it. Two do not:

* `InnerDoStringReferenceAllocations` returns the failure of the name's
  extent chain without freeing the string reference it has just taken, so a
  long name on a nearly full VMO leaves a block behind
  (`createNode_long_name_leaks`);
* `InnerCreateProperty` undoes the name and the value block when the
  value's extent chain fails, but not the parent's count of children, which
  `InnerCreateValue` raised (`createStringProperty_leaks_parent_count`).

A name that fits in one string reference needs no extent, and then a failure
for want of memory leaves the allocated blocks and all counts as they were
(`innerCreateValue_no_memory_of_fits`).

The model keeps of each header the fields below bit 40 in the heap's
`Header` (order, type, and the index at bits 16 to 39, which is the next free
block, the next extent or the parent) and bits 40 to 63 in `upper`, the
reference count of a string reference and the name of a value. Of the
payloads it keeps the first word, which on a node counts its children; the
bytes of names and buffers are not modelled. The heap writes bits 40 to 63 as
zero on the blocks it writes, which the model does not track: the state
writes a whole header on every block it takes before it reads them.
-/

namespace Zircon.Inspect

open Function Reader

/-- `BorrowedStringValue`: a string literal, used once, or a
`StringReference` with its state id. -/
inductive BorrowedStringValue where
  | stringLiteral (data : List UInt8)
  | stringReference (id : Nat) (data : List UInt8)
deriving DecidableEq, Repr

/-- The bytes of a name. -/
def BorrowedStringValue.data : BorrowedStringValue → List UInt8
  | .stringLiteral data => data
  | .stringReference _ data => data

/-- `PropertyBlockFormat`. -/
inductive PropertyBlockFormat where
  | kUtf8
  | kBinary
deriving DecidableEq, Repr

/-- The underlying values of `PropertyBlockFormat`. -/
def PropertyBlockFormat.value : PropertyBlockFormat → Nat
  | .kUtf8 => 0
  | .kBinary => 1

/-- `kVmoHeaderOrder`. -/
def kVmoHeaderOrder : Nat := 1

/-- `kMaxPayloadSize`: the payload of a block of the largest order. -/
def kMaxPayloadSize : Nat := kMaxOrderSize - 8

/-- `StringReferenceBlockPayload::TotalLength::SizeInBytes()`. -/
def kTotalLengthSize : Nat := 4

/-- `BlockSizeForPayload(payload_size)`. -/
def BlockSizeForPayload (payloadSize : Nat) : Nat := max (payloadSize + 8) kMinOrderSize

/-- `GetOrderForSizeOfStringReference(data_size)`: despite its name, the size
in bytes that `Allocate` is asked for. -/
def GetOrderForSizeOfStringReference (dataSize : Nat) : Nat :=
  min (BlockSizeForPayload (dataSize + kTotalLengthSize)) (BlockSizeForPayload kMaxPayloadSize)

/-- `std::min(kMaxOrderSize, BlockSizeForPayload(length))`: the size asked for
an extent to hold `length` more bytes. -/
def extentSize (length : Nat) : Nat := min kMaxOrderSize (BlockSizeForPayload length)

/-- `string_reference_ids_`: both of its maps. -/
structure StringReferenceIds where
  stateIdToBlockIndex : Nat → Option Nat
  blockIndexToStateId : Nat → Option Nat

namespace StringReferenceIds

/-- `Insert(index, id)`: `unordered_map::insert` keeps an entry already there. -/
def Insert (t : StringReferenceIds) (index id : Nat) : StringReferenceIds :=
  ⟨update t.stateIdToBlockIndex id ((t.stateIdToBlockIndex id).or (some index)),
    update t.blockIndexToStateId index ((t.blockIndexToStateId index).or (some id))⟩

/-- `EraseByIndex(index)`. -/
def EraseByIndex (t : StringReferenceIds) (index : Nat) : StringReferenceIds :=
  match t.blockIndexToStateId index with
  | none => t
  | some id => ⟨update t.stateIdToBlockIndex id none, update t.blockIndexToStateId index none⟩

end StringReferenceIds

/-- The state: the heap, bits 40 to 63 of every header, the first payload
word of every block, and the ids of the string references. -/
structure State where
  heap : Heap
  upper : Nat → Nat
  payload : Nat → Nat
  stringReferenceIds : StringReferenceIds

namespace State

variable (s : State)

/-! ## The heap's operations and header writes -/

/-- `heap_->Allocate(min_size, &out)`. -/
def allocate (minSize : Nat) : Option (State × Except Status Nat) :=
  (s.heap.Allocate minSize).map fun r => ({ s with heap := r.1 }, r.2)

/-- `heap_->Free(index)`. -/
def free (index : Nat) : Option State :=
  (s.heap.Free index).map fun h => { s with heap := h }

/-- A whole header word written at `index`: bits 0 to 39 and bits 40 to 63. -/
def setHeader (index : Nat) (hdr : Header) (upper : Nat) : State :=
  { s with heap := { s.heap with mem := update s.heap.mem index hdr }, upper := update s.upper index upper }

/-- The index field at bits 16 to 39 of the header at `index` set. -/
def setNext (index next : Nat) : State :=
  { s with heap := { s.heap with mem := update s.heap.mem index { s.heap.mem index with next := next } } }

/-- The blocks a scan of the VMO finds allocated, by index. -/
def allocatedBlocks : Option (List Nat) :=
  s.heap.layout.map fun l => (l.filter fun b => b.2.1 ≠ .kFree).map Prod.fst

/-! ## Creation -/

/-- The magic number as the little-endian word `memcpy` makes of it. -/
def kMagicWord : Nat := kMagicNumber.foldr (fun b acc => b + 256 * acc) 0

/-- `State::Create(heap)`: the header block at index `0`, holding the version
and the magic number. `none` where it returns `nullptr`, or where the heap
fails an assertion. The words the heap has not written are those of a new
VMO, zero. -/
def Create (heap : Heap) : Option State :=
  match heap.Allocate (OrderToSize kVmoHeaderOrder) with
  | none => none
  | some (_, .error _) => none
  | some (heap, .ok header) =>
    if header ≠ 0 then none
    else
      let hdr : Header := ⟨(heap.mem header).order, .kHeader, kVersion + kMagicWord % 2 ^ 8 * 2 ^ 16⟩
      some ⟨{ heap with mem := update heap.mem header hdr }, update (fun _ => 0) header (kMagicWord / 2 ^ 8),
        fun _ => 0, ⟨fun _ => none, fun _ => none⟩⟩

/-- `State::CreateWithSize(size)`: a new VMO, of `size` rounded up to pages. -/
def CreateWithSize (size : Nat) : Option State :=
  if size = 0 then none
  else (Heap.new ((size + kPageSize - 1) / kPageSize * kPageSize) fun _ => ⟨0, .kFree, 0⟩).bind Create

/-! ## Extent chains -/

/-- The loop of `InnerFreeExtentChain`: while the block at `index` is an
extent, free it and follow its `NextExtentIndex`. Each pass frees a block, so
`cur_size_ / kMinOrderSize + 1` passes are enough on a heap whose extents
chain without a cycle; `none` past them. -/
def freeExtentLoop : Nat → State → Nat → Option State
  | 0, _, _ => none
  | fuel + 1, s, index =>
    if (s.heap.mem index).type = .kExtent then
      let nextExtent := (s.heap.mem index).next
      match s.free index with
      | none => none
      | some s => freeExtentLoop fuel s nextExtent
    else some s

/-- `InnerFreeExtentChain(index)`. -/
def InnerFreeExtentChain (index : Nat) : Option State :=
  freeExtentLoop (s.heap.curSize / kMinOrderSize + 1) s index

/-- The loop of `InnerCreateExtentChain` at `offset` into the value, writing
the extent at `extentIndex`: its header, then, while bytes remain, a new
extent linked from it. A failed allocation frees the chain from its first
extent. Each pass takes at least the 8 bytes of an extent's payload, so
`length + 1` passes are enough. -/
def createExtentLoop (length firstExtentIndex : Nat) : Nat → State → Nat → Nat → Option (State × Except Status Nat)
  | 0, _, _, _ => none
  | fuel + 1, s, extentIndex, offset =>
    if offset < length then
      let order := (s.heap.mem extentIndex).order
      let s := s.setHeader extentIndex ⟨order, .kExtent, 0⟩ 0
      let offset := offset + min (PayloadCapacity order) (length - offset)
      if offset < length then
        match s.allocate (extentSize (length - offset)) with
        | none => none
        | some (s, .error status) =>
          (s.InnerFreeExtentChain firstExtentIndex).map fun s => (s, .error status)
        | some (s, .ok next) =>
          createExtentLoop length firstExtentIndex fuel (s.setNext extentIndex next) next offset
      else createExtentLoop length firstExtentIndex fuel s extentIndex offset
    else some (s, .ok firstExtentIndex)

/-- `InnerCreateExtentChain(value, length)`: the first extent of a chain
holding `length` bytes, `0` for none; on failure `{0, status}`. -/
def InnerCreateExtentChain (length : Nat) : Option (State × Except Status Nat) :=
  if length = 0 then some (s, .ok 0)
  else
    match s.allocate (extentSize length) with
    | none => none
    | some (s, .error status) => some (s, .error status)
    | some (s, .ok extentIndex) => createExtentLoop length extentIndex (length + 1) s extentIndex 0

/-! ## String references -/

/-- `WriteStringReferencePayload(block, data)`: what fits goes inline after
the total length, the rest into an extent chain linked from the header. -/
def WriteStringReferencePayload (block : Nat) (data : List UInt8) : Option (State × Status) :=
  let inlineLength := min data.length (PayloadCapacity (s.heap.mem block).order - kTotalLengthSize)
  -- the whole of the data fit inline
  if inlineLength = data.length then some (s, .ok)
  else
    match s.InnerCreateExtentChain (data.length - inlineLength) with
    | none => none
    | some (s, .error status) => some (s, status)
    | some (s, .ok firstExtentIndex) =>
      some (s.setNext block ((s.heap.mem block).next ||| firstExtentIndex), .ok)

/-- `InnerDoStringReferenceAllocations(data, out)`. On a failure of the
payload it returns the status and keeps the block. -/
def InnerDoStringReferenceAllocations (data : List UInt8) : Option (State × Except Status Nat) :=
  match s.allocate (GetOrderForSizeOfStringReference data.length) with
  | none => none
  | some (s, .error status) => some (s, .error status)
  | some (s, .ok out) =>
    let s := s.setHeader out ⟨(s.heap.mem out).order, .kStringReference, 0⟩ 0
    match s.WriteStringReferencePayload out data with
    | none => none
    | some (s, .ok) => some (s, .ok out)
    | some (s, status) => some (s, .error status)

/-- `InnerCreateStringReference(value, out)`: a `StringReference` seen before
is found by its id. -/
def InnerCreateStringReference : BorrowedStringValue → Option (State × Except Status Nat)
  | .stringReference id data =>
    match s.stringReferenceIds.stateIdToBlockIndex id with
    | some index => some (s, .ok index)
    | none =>
      match s.InnerDoStringReferenceAllocations data with
      | none => none
      | some (s, .error status) => some (s, .error status)
      | some (s, .ok out) => some ({ s with stringReferenceIds := s.stringReferenceIds.Insert out id }, .ok out)
  | .stringLiteral data => s.InnerDoStringReferenceAllocations data

/-- `InnerCreateAndIncrementStringReference(name, out)`: the 24-bit
`ReferenceCount` goes up by one. -/
def InnerCreateAndIncrementStringReference (name : BorrowedStringValue) : Option (State × Except Status Nat) :=
  match s.InnerCreateStringReference name with
  | none => none
  | some (s, .error status) => some (s, .error status)
  | some (s, .ok out) => some ({ s with upper := update s.upper out ((s.upper out + 1) % 2 ^ 24) }, .ok out)

/-- `InnerMaybeFreeStringReference(index, block)`: a string reference no
longer counted is freed with its extents. -/
def InnerMaybeFreeStringReference (index : Nat) : Option State :=
  if s.upper index ≠ 0 then some s
  else
    let s := { s with stringReferenceIds := s.stringReferenceIds.EraseByIndex index }
    let firstExtentIndex := (s.heap.mem index).next
    match s.free index with
    | none => none
    | some s => s.InnerFreeExtentChain firstExtentIndex

/-- `InnerReleaseStringReference(index)`. -/
def InnerReleaseStringReference (index : Nat) : Option State :=
  if (s.heap.mem index).type ≠ .kStringReference then some s
  else
    let count := s.upper index
    let s := { s with upper := update s.upper index (if count > 0 then count - 1 else 0) }
    s.InnerMaybeFreeStringReference index

/-! ## Values -/

/-- `InnerCreateValue(name, type, parent_index, out_name, out_value,
min_size_required)`: the name's and the value's indices. A parent outside
the VMO's mapping is read out of bounds (`none`). -/
def InnerCreateValue (name : BorrowedStringValue) (type : BlockType) (parentIndex minSizeRequired : Nat) :
    Option (State × Except Status (Nat × Nat)) :=
  match s.allocate minSizeRequired with
  | none => none
  | some (s, .error status) => some (s, .error status)
  | some (s, .ok valueIndex) =>
    match s.InnerCreateAndIncrementStringReference name with
    | none => none
    | some (s, .error status) => (s.free valueIndex).map fun s => (s, .error status)
    | some (s, .ok nameIndex) =>
      let s := s.setHeader valueIndex ⟨(s.heap.mem valueIndex).order, type, parentIndex⟩ nameIndex
      -- the `memset` of the payload
      let s := { s with payload := update s.payload valueIndex 0 }
      if parentIndex ≥ s.heap.maxSize / kMinOrderSize then none
      else
        match (s.heap.mem parentIndex).type with
        | .kHeader => some (s, .ok (nameIndex, valueIndex))
        | .kNodeValue | .kTombstone =>
          some ({ s with payload := update s.payload parentIndex ((s.payload parentIndex + 1) % 2 ^ 64) },
            .ok (nameIndex, valueIndex))
        | _ =>
          match s.InnerReleaseStringReference nameIndex with
          | none => none
          | some s => (s.free valueIndex).map fun s => (s, .error .errInvalidArgs)

/-- `CreateNode(name, parent)`: the node's name and value indices, or an
empty `Node`. -/
def CreateNode (name : BorrowedStringValue) (parent : Nat) : Option (State × Option (Nat × Nat)) :=
  match s.InnerCreateValue name .kNodeValue parent kMinOrderSize with
  | none => none
  | some (s, .error _) => some (s, none)
  | some (s, .ok indices) => some (s, some indices)

/-- 3072 bytes: 2036 fit inline in a string reference of the largest order,
and the other 1036 need an extent of the largest order too. -/
def longName : List UInt8 := List.replicate 3072 0x61

/-- On a one-page VMO, a node with a long name finds the string reference but
no room for its extent: the creation fails with `ZX_ERR_NO_MEMORY`, the value
block is given back, and the string reference at `128` stays allocated. -/
theorem createNode_long_name_leaks :
    ∃ s s', CreateWithSize kMinVmoSize = some s ∧
      s.InnerCreateValue (.stringLiteral longName) .kNodeValue 0 kMinOrderSize = some (s', .error .errNoMemory) ∧
      s.CreateNode (.stringLiteral longName) 0 = some (s', none) ∧
      s.allocatedBlocks = some [0] ∧ s'.allocatedBlocks = some [0, 128] ∧ (s'.heap.mem 128).type = .kStringReference := by
  have hval : (CreateWithSize kMinVmoSize).bind (fun s =>
      (s.InnerCreateValue (.stringLiteral longName) .kNodeValue 0 kMinOrderSize).map fun r =>
        (r.2, s.allocatedBlocks, r.1.allocatedBlocks, (r.1.heap.mem 128).type)) =
      some (.error .errNoMemory, some [0], some [0, 128], .kStringReference) := by decide +kernel
  obtain ⟨s, hs, hcv⟩ := Option.bind_eq_some_iff.mp hval
  obtain ⟨⟨s', r⟩, hcv', hres⟩ := Option.map_eq_some_iff.mp hcv
  simp only [Prod.mk.injEq] at hres
  obtain ⟨rfl, hbefore, hafter, htype⟩ := hres
  refine ⟨s, s', hs, hcv', ?_, hbefore, hafter, htype⟩
  unfold CreateNode
  rw [hcv']

/-- `CreateIntProperty(name, parent, value)`: the payload holds the value as
an `int64_t`. -/
def CreateIntProperty (name : BorrowedStringValue) (parent : Nat) (value : Int) :
    Option (State × Option (Nat × Nat)) :=
  match s.InnerCreateValue name .kIntValue parent kMinOrderSize with
  | none => none
  | some (s, .error _) => some (s, none)
  | some (s, .ok (nameIndex, valueIndex)) =>
    some ({ s with payload := update s.payload valueIndex (value % 2 ^ 64).toNat }, some (nameIndex, valueIndex))

/-- `InnerCreateProperty(name, parent, value, length, format)`: a buffer
property, its bytes in an extent chain. The payload packs the total length,
the first extent and the format. When the chain fails, the name is released
and the value block freed. -/
def InnerCreateProperty (name : BorrowedStringValue) (parent : Nat) (value : List UInt8)
    (format : PropertyBlockFormat) : Option (State × Option (Nat × Nat)) :=
  match s.InnerCreateValue name .kBufferValue parent kMinOrderSize with
  | none => none
  | some (s, .error _) => some (s, none)
  | some (s, .ok (nameIndex, valueIndex)) =>
    match s.InnerCreateExtentChain value.length with
    | none => none
    | some (s, r) =>
      let firstExtentIndex := match r with
        | .ok index => index
        | .error _ => 0
      let word := value.length % 2 ^ 32 ||| (firstExtentIndex % 2 ^ 28) <<< 32 ||| format.value <<< 60
      let s := { s with payload := update s.payload valueIndex word }
      match r with
      | .ok _ => some (s, some (nameIndex, valueIndex))
      | .error _ =>
        match s.InnerReleaseStringReference nameIndex with
        | none => none
        | some s => (s.free valueIndex).map fun s => (s, none)

/-- `CreateStringProperty(name, parent, value)`. -/
def CreateStringProperty (name : BorrowedStringValue) (parent : Nat) (value : List UInt8) :
    Option (State × Option (Nat × Nat)) :=
  s.InnerCreateProperty name parent value .kUtf8

/-- On a one-page VMO, a string property of a node with a value that needs
two extents of the largest order gets one: the creation fails, the name, the
value block and the extent are given back, but the node's count of children
stays raised. -/
theorem createStringProperty_leaks_parent_count :
    ∃ s s₁ s₂, CreateWithSize kMinVmoSize = some s ∧
      s.CreateNode (.stringLiteral [0x61]) 0 = some (s₁, some (3, 2)) ∧
      s₁.CreateStringProperty (.stringLiteral [0x62]) 2 longName = some (s₂, none) ∧
      s₁.payload 2 = 0 ∧ s₂.payload 2 = 1 ∧ s₂.allocatedBlocks = s₁.allocatedBlocks := by
  have hval : (CreateWithSize kMinVmoSize).bind (fun s => (s.CreateNode (.stringLiteral [0x61]) 0).bind fun r =>
      (r.1.CreateStringProperty (.stringLiteral [0x62]) 2 longName).map fun r' => (r.2, r'.2)) =
      some (some (3, 2), none) := by decide +kernel
  have hcount : (CreateWithSize kMinVmoSize).bind (fun s => (s.CreateNode (.stringLiteral [0x61]) 0).bind fun r =>
      (r.1.CreateStringProperty (.stringLiteral [0x62]) 2 longName).map fun r' =>
        (r.1.payload 2, r'.1.payload 2)) = some (0, 1) := by decide +kernel
  have hblocks : (CreateWithSize kMinVmoSize).bind (fun s => (s.CreateNode (.stringLiteral [0x61]) 0).bind fun r =>
      (r.1.CreateStringProperty (.stringLiteral [0x62]) 2 longName).map fun r' =>
        decide (r'.1.allocatedBlocks = r.1.allocatedBlocks)) = some true := by decide +kernel
  obtain ⟨s, hs, hnode⟩ := Option.bind_eq_some_iff.mp hval
  obtain ⟨⟨s₁, n₁⟩, hnode', hprop⟩ := Option.bind_eq_some_iff.mp hnode
  obtain ⟨⟨s₂, n₂⟩, hprop', hres⟩ := Option.map_eq_some_iff.mp hprop
  simp only [Prod.mk.injEq] at hres
  obtain ⟨rfl, rfl⟩ := hres
  simp only [hs, hnode', hprop', Option.bind_some, Option.map_some, Option.some.injEq, Prod.mk.injEq] at hcount hblocks
  exact ⟨s, s₁, s₂, hs, hnode', hprop', hcount.1, hcount.2, of_decide_eq_true hblocks⟩

/-- `CreateByteVectorProperty(name, parent, value)`. -/
def CreateByteVectorProperty (name : BorrowedStringValue) (parent : Nat) (value : List UInt8) :
    Option (State × Option (Nat × Nat)) :=
  s.InnerCreateProperty name parent value .kBinary

/-! ## Failures for want of memory with a name that fits -/

/-- `FitOrder(size)` is the order of a block that holds `size` bytes. -/
theorem le_orderToSize_fitOrder {n : Nat} (hn : kMinOrderSize ≤ n) (hn' : n ≤ kMaxOrderSize) :
    n ≤ OrderToSize (FitOrder n) := by
  have hmin : kMinOrderSize = 16 := rfl
  have hmax : kMaxOrderSize = 2048 := rfl
  have hlog : (n - 1).log2 < 11 := (Nat.log2_lt (by omega)).mpr (by omega)
  have hlog₃ : 3 ≤ (n - 1).log2 := (Nat.le_log2 (by omega)).mpr (by omega)
  have hfit : FitOrder n = (n - 1).log2 - 3 := by
    simp only [FitOrder, clzl, kMinOrderShift]
    omega
  have hlt : n - 1 < 2 ^ ((n - 1).log2 + 1) := Nat.lt_log2_self
  rw [orderToSize_eq, hfit, hmin]
  calc n ≤ 2 ^ ((n - 1).log2 + 1) := by omega
    _ = 2 ^ 4 * 2 ^ ((n - 1).log2 - 3) := by rw [← Nat.pow_add]; congr 1; omega

/-- The size asked for a string reference is one `Allocate` takes. -/
theorem getOrderForSizeOfStringReference_mem (dataSize : Nat) :
    kMinOrderSize ≤ GetOrderForSizeOfStringReference dataSize ∧
      GetOrderForSizeOfStringReference dataSize ≤ kMaxOrderSize := by
  simp only [GetOrderForSizeOfStringReference, BlockSizeForPayload, kMaxPayloadSize, kMaxOrderSize,
    kMaxOrderShift, kMinOrderSize, kMinOrderShift, kNumOrders, kTotalLengthSize]
  omega

/-- A string reference of the size asked for data that fits holds it inline. -/
theorem le_payloadCapacity_of_fits {len : Nat} (hfits : len ≤ kMaxPayloadSize - kTotalLengthSize) :
    len ≤ PayloadCapacity (FitOrder (GetOrderForSizeOfStringReference len)) - kTotalLengthSize := by
  obtain ⟨hlo, hhi⟩ := getOrderForSizeOfStringReference_mem len
  have hle := le_orderToSize_fitOrder hlo hhi
  simp only [GetOrderForSizeOfStringReference, BlockSizeForPayload, kMaxPayloadSize, kMaxOrderSize,
    kMaxOrderShift, kMinOrderSize, kMinOrderShift, kNumOrders, kTotalLengthSize] at hfits hle ⊢
  simp only [PayloadCapacity]
  omega

section Spec

variable {s : State} {blk : Blocks} {L : Nat → List Nat}

/-- `allocate` on a well-formed heap, by `WellFormed.allocate`: only the heap
changes. -/
theorem allocate_spec (hwf : WellFormed s.heap blk L) {n : Nat} (hn : kMinOrderSize ≤ n)
    (hn' : n ≤ kMaxOrderSize) :
    ∃ h' r, s.allocate n = some ({ s with heap := h' }, r) ∧ ∃ blk' L', WellFormed h' blk' L' ∧
      AllocatedAfter blk blk' r ∧ ∀ b, r = .ok b → h'.mem b = ⟨FitOrder n, .kReserved, 0⟩ := by
  obtain ⟨h', r, hall, blk', L', hwf', hafter, hhdr⟩ := hwf.allocate hn hn'
  exact ⟨h', r, by rw [allocate, hall]; rfl, blk', L', hwf', hafter, hhdr⟩

/-- `free` of an allocated block on a well-formed heap, by `WellFormed.free`:
only the heap changes. -/
theorem free_spec (hwf : WellFormed s.heap blk L) {a : Nat} (ha : Allocated blk a) :
    ∃ h' blk' L', s.free a = some { s with heap := h' } ∧ WellFormed h' blk' L' ∧
      ∀ x, Allocated blk' x ↔ x ≠ a ∧ Allocated blk x := by
  obtain ⟨h', blk', L', hfree, hwf', halloc⟩ := hwf.free ha
  exact ⟨h', blk', L', by rw [free, hfree]; rfl, hwf', halloc⟩

/-- The outcome of a step that failed: only the heap changed, and its blocks
kept their hands. -/
def FailedAsBefore (s s' : State) (blk : Blocks) : Prop :=
  ∃ h' blk' L', s' = { s with heap := h' } ∧ WellFormed h' blk' L' ∧ ∀ x, Allocated blk' x ↔ Allocated blk x

/-- Data that fits one string reference: `InnerDoStringReferenceAllocations`
returns, and fails only when the allocation does, with no block taken. -/
theorem innerDoStringReferenceAllocations_fits (hwf : WellFormed s.heap blk L) {data : List UInt8}
    (hfits : data.length ≤ kMaxPayloadSize - kTotalLengthSize) :
    ∃ s' r, s.InnerDoStringReferenceAllocations data = some (s', r) ∧ ∀ e, r = .error e → FailedAsBefore s s' blk := by
  obtain ⟨hlo, hhi⟩ := getOrderForSizeOfStringReference_mem data.length
  obtain ⟨h₁, r₁, hall, blk₁, L₁, hwf₁, hafter, hhdr⟩ := allocate_spec (s := s) hwf hlo hhi
  unfold InnerDoStringReferenceAllocations
  rw [hall]
  cases r₁ with
  | error e =>
    exact ⟨_, _, rfl, fun _ _ => ⟨h₁, blk₁, L₁, rfl, hwf₁, hafter⟩⟩
  | ok b =>
    -- the header keeps the order `Allocate` wrote, whose payload holds the data
    have hinline : min data.length (PayloadCapacity (FitOrder (GetOrderForSizeOfStringReference data.length)) -
        kTotalLengthSize) = data.length := Nat.min_eq_left (le_payloadCapacity_of_fits hfits)
    simp only [WriteStringReferencePayload, setHeader, update_self, hhdr b rfl, hinline, if_true]
    exact ⟨_, _, rfl, fun _ he => by cases he⟩

/-- A name that fits one string reference:
`InnerCreateAndIncrementStringReference` returns, and fails only when the
allocation does, with no block taken and no count raised. -/
theorem innerCreateAndIncrementStringReference_fits (hwf : WellFormed s.heap blk L) {name : BorrowedStringValue}
    (hfits : name.data.length ≤ kMaxPayloadSize - kTotalLengthSize) :
    ∃ s' r, s.InnerCreateAndIncrementStringReference name = some (s', r) ∧
      ∀ e, r = .error e → FailedAsBefore s s' blk := by
  -- the string reference, found by its id or allocated
  have hcreate : ∃ s' r, s.InnerCreateStringReference name = some (s', r) ∧
      ∀ e, r = .error e → FailedAsBefore s s' blk := by
    cases name with
    | stringLiteral data => exact innerDoStringReferenceAllocations_fits hwf hfits
    | stringReference id data =>
      have hfits' : data.length ≤ kMaxPayloadSize - kTotalLengthSize := hfits
      obtain ⟨s₁, r₁, hdo, hfail⟩ := innerDoStringReferenceAllocations_fits hwf hfits'
      unfold InnerCreateStringReference
      dsimp only
      cases s.stringReferenceIds.stateIdToBlockIndex id with
      | some index => exact ⟨s, .ok index, rfl, fun _ he => by cases he⟩
      | none =>
        dsimp only
        rw [hdo]
        cases r₁ with
        | error e => exact ⟨_, _, rfl, fun _ _ => hfail e rfl⟩
        | ok out => exact ⟨_, _, rfl, fun _ he => by cases he⟩
  obtain ⟨s₁, r₁, hcs, hfail⟩ := hcreate
  unfold InnerCreateAndIncrementStringReference
  rw [hcs]
  cases r₁ with
  | error e => exact ⟨_, _, rfl, fun _ _ => hfail e rfl⟩
  | ok out => exact ⟨_, _, rfl, fun _ he => by cases he⟩

/-- **No leak when the name fits.** From a well-formed heap, an
`InnerCreateValue` whose name fits one string reference and that fails with
`ZX_ERR_NO_MEMORY` leaves the allocated blocks as they were, and every count,
name and id: only the heap changed, and not in which blocks it hands out. -/
theorem innerCreateValue_no_memory_of_fits (hwf : WellFormed s.heap blk L) {name : BorrowedStringValue}
    {type : BlockType} {parent n : Nat} {s' : State} (hn : kMinOrderSize ≤ n) (hn' : n ≤ kMaxOrderSize)
    (hfits : name.data.length ≤ kMaxPayloadSize - kTotalLengthSize)
    (hs : s.InnerCreateValue name type parent n = some (s', .error .errNoMemory)) :
    FailedAsBefore s s' blk := by
  obtain ⟨h₁, r₁, hall, blk₁, L₁, hwf₁, hafter, -⟩ := allocate_spec (s := s) hwf hn hn'
  unfold InnerCreateValue at hs
  rw [hall] at hs
  cases r₁ with
  | error e =>
    -- the value block was not allocated
    obtain ⟨rfl, -⟩ := Prod.mk.inj (Option.some.inj hs)
    exact ⟨h₁, blk₁, L₁, rfl, hwf₁, hafter⟩
  | ok v =>
    obtain ⟨hnew, halloc₁⟩ := hafter
    obtain ⟨s₂, r₂, hname, hfail⟩ := innerCreateAndIncrementStringReference_fits (s := { s with heap := h₁ }) hwf₁ hfits
    dsimp only at hs
    rw [hname] at hs
    cases r₂ with
    | error e =>
      -- the name was not allocated either, and the value block is given back
      obtain ⟨h₂, blk₂, L₂, rfl, hwf₂, halloc₂⟩ := hfail e rfl
      have hv : Allocated blk₂ v := (halloc₂ v).mpr ((halloc₁ v).mpr (.inl rfl))
      obtain ⟨h₃, blk₃, L₃, hfree, hwf₃, halloc₃⟩ := free_spec (s := { s with heap := h₂ }) hwf₂ hv
      dsimp only at hs
      rw [hfree, Option.map_some, Option.some.injEq, Prod.mk.injEq] at hs
      obtain ⟨rfl, -⟩ := hs
      refine ⟨h₃, blk₃, L₃, rfl, hwf₃, fun x => ?_⟩
      rw [halloc₃, halloc₂, halloc₁]
      constructor
      · rintro ⟨hxv, hx | hx⟩
        · exact absurd hx hxv
        · exact hx
      · intro hx
        exact ⟨fun hxv => hnew (hxv ▸ hx), .inr hx⟩
    | ok nameIndex =>
      -- past the name, the value succeeds or fails for an invalid parent
      dsimp only at hs
      split_ifs at hs
      split at hs
      · cases hs
      · cases hs
      · cases hs
      · split at hs
        · cases hs
        · obtain ⟨_, -, hres⟩ := Option.map_eq_some_iff.mp hs
          cases hres

end Spec

end State

end Zircon.Inspect
