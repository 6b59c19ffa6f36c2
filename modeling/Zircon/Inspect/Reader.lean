import Zircon.Inspect.Scanner

/-!
# The Inspect reader on an untrusted buffer

`ReadFromBuffer` of `reader.cc` reads an Inspect VMO's bytes, which may come
from anywhere. `Snapshot::Create` checks the header's magic number and
version. `Reader::Read` then scans the blocks with `ScanBlocks`, and its
callback parses each value block: it looks up the value's name (a `NAME` or
a `STRING_REFERENCE` block, through `GetAndValidateName`), reads numeric and
array payloads, and follows extent chains for buffers and long strings.

The model reads the buffer byte by byte. What C++ leaves undefined is a
`Fault`: a read outside the buffer, a `*` or `->` on an empty
`cpp17::optional`, and a use of an uninitialized value. The reader returns
what the scan adds to `parsed_nodes_` (`Parsed`), or `none` where
`ReadFromBuffer` returns an error before scanning. The assembly of the
hierarchy from `parsed_nodes_` reads no more of the buffer and is not
modelled.

A block that `GetBlock` or `ScanBlocks` found inside the buffer is read
inside it. So names, string references and extent chains never read outside
it. The extent walk takes at most the declared length
(`getAndValidateName_ok`, `readExtents_ok`). `InnerParseLink`, however, asks
the name for `empty()` without asking whether there is one. A link whose name
index points at a block that is not a name dereferences an empty optional
(`readFromBuffer_link_to_header`).
-/

namespace Zircon.Inspect

/-- The underlying values of `BlockType`. -/
def BlockType.value : BlockType → Nat
  | .kFree => 0
  | .kReserved => 1
  | .kHeader => 2
  | .kNodeValue => 3
  | .kIntValue => 4
  | .kUintValue => 5
  | .kDoubleValue => 6
  | .kBufferValue => 7
  | .kExtent => 8
  | .kName => 9
  | .kTombstone => 10
  | .kArrayValue => 11
  | .kLinkValue => 12
  | .kBoolValue => 13
  | .kStringReference => 14

namespace Reader

/-- What the reader does that C++ leaves undefined. -/
inductive Fault where
  /-- a read outside the buffer -/
  | outOfBounds
  /-- `*` or `->` on an empty `cpp17::optional` -/
  | absentOptional
  /-- a use of an uninitialized variable -/
  | indeterminate
deriving DecidableEq, Repr

/-- `kVersion`. -/
def kVersion : Nat := 2

/-- `kMagicNumber`, `"INSP"`. -/
def kMagicNumber : List Nat := [0x49, 0x4E, 0x53, 0x50]

/-- `kEmptyStringSlotIndex`. -/
def kEmptyStringSlotIndex : Nat := 0

/-- `Field<lo, hi>::Get(word)`. -/
def Field.get (lo hi word : Nat) : Nat := (word >>> lo) % 2 ^ (hi - lo + 1)

/-- `PayloadCapacity(order)`: a block less its 8-byte header. -/
def PayloadCapacity (order : Nat) : Nat := OrderToSize order - 8

/-- `GetOrder`. -/
def getOrder (header : Nat) : Nat := Field.get 0 3 header

/-- `GetType`. -/
def getType (header : Nat) : Nat := Field.get 8 15 header

/-- `LinkDisposition`. -/
inductive LinkDisposition where
  | kChild
  | kInline
deriving DecidableEq, Repr

/-- A property value as the reader takes it: a numeric word of its type, a
numeric array, an array of strings, or the bytes of a buffer. -/
inductive PropertyValue where
  | word (type value : Nat)
  | array (entryType : Nat) (values : List Nat)
  | stringArray (values : List (List Nat))
  | buffer (binary : Bool) (bytes : List Nat)
deriving DecidableEq, Repr

/-- What the scan adds to `parsed_nodes_`. -/
inductive Parsed where
  /-- `InitializeNode` of the node at `index` -/
  | object (index : Nat) (name : List Nat) (parent : Nat)
  | property (parent : Nat) (name : List Nat) (value : PropertyValue)
  | link (parent : Nat) (name content : List Nat) (disposition : LinkDisposition)
deriving DecidableEq, Repr

/-! ## Reading bytes -/

section Bytes

variable (buf : List UInt8)

/-- The byte at `i`. -/
def readByte (i : Nat) : Except Fault Nat :=
  match buf[i]? with
  | some b => .ok b.toNat
  | none => .error .outOfBounds

/-- The `n` bytes from `i`. -/
def readBytes (i : Nat) : Nat → Except Fault (List Nat)
  | 0 => .ok []
  | n + 1 => do
    let b ← readByte buf i
    let rest ← readBytes (i + 1) n
    return b :: rest

/-- The little-endian word of the `n` bytes from `i`. -/
def readWord (i n : Nat) : Except Fault Nat := do
  let bytes ← readBytes buf i n
  return bytes.foldr (fun b acc => b + 256 * acc) 0

/-- `block->header` of the block at `index`. -/
def header (index : Nat) : Except Fault Nat := readWord buf (kMinOrderSize * index) 8

/-- `block->payload.u64` of the block at `index`. -/
def payload (index : Nat) : Except Fault Nat := readWord buf (kMinOrderSize * index + 8) 8

end Bytes

/-! ## The parsers -/

section Parse

variable (buf : List UInt8)

/-- `GetBlock(&snapshot_, index)`: the block's header, when its first 16
bytes and then its whole declared size lie in the snapshot. -/
def GetBlock (index : Nat) : Except Fault (Option Nat) :=
  if index ≥ IndexForOffset buf.length then .ok none
  else do
    let hdr ← header buf index
    if index * kMinOrderSize + OrderToSize (getOrder hdr) > buf.length then return none
    return some hdr

/-- `LoadName(block)` of the block at `index`. -/
def LoadName (index hdr : Nat) : Except Fault (Option (List Nat)) :=
  let capacity := PayloadCapacity (getOrder hdr)
  let len := Field.get 16 27 hdr
  -- do not parse the name if the declared length is more than the block holds
  if len > capacity then .ok none
  else some <$> readBytes buf (kMinOrderSize * index + 8) len

/-- The loop of `ReadExtents` from the extent at `index`, whose header
`GetBlock` gave; each pass takes at least a byte, so `remaining + 1` passes
are enough. -/
def readExtentsLoop : Nat → Nat → Option Nat → Nat → Except Fault (List Nat)
  | 0, _, _, _ => .ok []
  | fuel + 1, index, extent, remaining =>
    if remaining > 0 then
      match extent with
      | none => .ok []
      | some hdr =>
        if getType hdr ≠ BlockType.kExtent.value then .ok []
        else do
          let len := min remaining (PayloadCapacity (getOrder hdr))
          let bytes ← readBytes buf (kMinOrderSize * index + 8) len
          let next := Field.get 16 39 hdr
          let rest ← readExtentsLoop fuel next (← GetBlock buf next) (remaining - len)
          return bytes ++ rest
    else .ok []

/-- `ReadExtents(head_extent, remaining_length, &buf)`. -/
def ReadExtents (headExtent remainingLength : Nat) : Except Fault (List Nat) := do
  readExtentsLoop buf (remainingLength + 1) headExtent (← GetBlock buf headExtent) remainingLength

/-- `LoadStringReference(block)` of the block at `index`: the inline part of
the string, then the rest from its extents. -/
def LoadStringReference (index hdr : Nat) : Except Fault (Option (List Nat)) := do
  let totalLength := Field.get 0 31 (← payload buf index)
  let maxInlinableLength := PayloadCapacity (getOrder hdr) - 4
  let inline ← readBytes buf (kMinOrderSize * index + 8 + 4) (min totalLength maxInlinableLength)
  if totalLength = inline.length then return some inline
  let rest ← ReadExtents buf (Field.get 16 39 hdr) (totalLength - maxInlinableLength)
  return some (inline ++ rest)

/-- `GetAndValidateName(index)`. -/
def GetAndValidateName (index : Nat) : Except Fault (Option (List Nat)) := do
  match ← GetBlock buf index with
  | none => return none
  | some hdr =>
    if getType hdr = BlockType.kName.value then LoadName buf index hdr
    else if getType hdr = BlockType.kStringReference.value then LoadStringReference buf index hdr
    else return none

/-- `InnerCreateObject(index, block)`. -/
def InnerCreateObject (index hdr : Nat) : Except Fault (List Parsed) := do
  match ← GetAndValidateName buf (Field.get 40 63 hdr) with
  | none => return []
  | some name => return [.object index name (Field.get 16 39 hdr)]

/-- `ArrayCapacity(order, type)`. -/
def ArrayCapacity (order entryType : Nat) : Option Nat :=
  if entryType = BlockType.kIntValue.value ∨ entryType = BlockType.kUintValue.value ∨
      entryType = BlockType.kDoubleValue.value then some ((OrderToSize order - 16) / 8)
  else if entryType = BlockType.kStringReference.value then some ((OrderToSize order - 16) / 4)
  else none

/-- `GetArraySlot<T>(block, index)` of an array block, for `T` of `width`
bytes: the byte offset of the slot, or `nullptr`. -/
def GetArraySlot (index hdr entryType width slot : Nat) : Option Nat :=
  match ArrayCapacity (getOrder hdr) entryType with
  | none => none
  | some capacity =>
    if slot > capacity then none
    -- skip the inline payload word
    else some (kMinOrderSize * index + 8 + width * (slot + 8 / width))

/-- The string array of `InnerParseNumericOrArrayProperty`, slot by slot from
`i`: an absent slot or string stays empty. -/
def stringSlots (index hdr entryType : Nat) : Nat → Nat → Except Fault (List (List Nat))
  | 0, _ => .ok []
  | n + 1, i => do
    let value ← match GetArraySlot index hdr entryType 4 i with
      | none => pure []
      | some offset => do
        let valueIndex ← readWord buf offset 4
        if valueIndex = kEmptyStringSlotIndex then pure []
        else match ← GetBlock buf valueIndex with
          | none => pure []
          | some shdr => do
            match ← LoadStringReference buf valueIndex shdr with
            | none => pure []
            | some s => pure s
    let rest ← stringSlots index hdr entryType n (i + 1)
    return value :: rest

/-- `InnerParseNumericOrArrayProperty(parent, block)`. -/
def InnerParseNumericOrArrayProperty (parent index hdr : Nat) : Except Fault (List Parsed) := do
  match ← GetAndValidateName buf (Field.get 40 63 hdr) with
  | none => return []
  | some name =>
    let type := getType hdr
    if type = BlockType.kIntValue.value ∨ type = BlockType.kUintValue.value ∨
        type = BlockType.kDoubleValue.value ∨ type = BlockType.kBoolValue.value then
      return [.property parent name (.word type (← payload buf index))]
    else if type = BlockType.kArrayValue.value then do
      let pl ← payload buf index
      let entryType := Field.get 0 3 pl
      let count := Field.get 8 15 pl
      -- `count - 1` is an `int`, `-1` for an empty array, taken as a `size_t`
      match GetArraySlot index hdr entryType 8 ((count + 2 ^ 64 - 1) % 2 ^ 64) with
      | none => return []
      | some _ =>
        if entryType = BlockType.kIntValue.value ∨ entryType = BlockType.kUintValue.value ∨
            entryType = BlockType.kDoubleValue.value then do
          -- `std::copy` from slot `0` to slot `count`
          let values ← (List.range count).mapM fun i =>
            readWord buf (kMinOrderSize * index + 16 + 8 * i) 8
          return [.property parent name (.array entryType values)]
        else if entryType = BlockType.kStringReference.value then do
          let values ← stringSlots buf index hdr entryType count 0
          return [.property parent name (.stringArray values)]
        else return []
    else return []

/-- `InnerParseProperty(parent, block)`: the bytes of a buffer property, at
most as many as the snapshot holds. -/
def InnerParseProperty (parent index hdr : Nat) : Except Fault (List Parsed) := do
  match ← GetAndValidateName buf (Field.get 40 63 hdr) with
  | none => return []
  | some name =>
    let pl ← payload buf index
    let remainingLength := min buf.length (Field.get 0 31 pl)
    let bytes ← ReadExtents buf (Field.get 32 59 pl) remainingLength
    return [.property parent name (.buffer (Field.get 60 63 pl % 2 = 1) bytes)]

/-- `InnerParseLink(parent, block)`. `name->empty()` and `content->empty()`
are asked without `has_value()`, and a disposition other than `kChild` and
`kInline` leaves `disposition` uninitialized. -/
def InnerParseLink (parent index hdr : Nat) : Except Fault (List Parsed) := do
  let name ← match ← GetAndValidateName buf (Field.get 40 63 hdr) with
    | none => throw Fault.absentOptional
    | some name => pure name
  if name = [] then return []
  let content ← match ← GetAndValidateName buf (Field.get 0 19 (← payload buf index)) with
    | none => throw Fault.absentOptional
    | some content => pure content
  if content = [] then return []
  let disposition ← match Field.get 60 63 (← payload buf index) with
    | 0 => pure LinkDisposition.kChild
    | 1 => pure LinkDisposition.kInline
    | _ => throw Fault.indeterminate
  return [.link parent name content disposition]

/-- The callback of `InnerScanBlocks` on the block at `index`: what it adds,
and whether the scan goes on. -/
def scanCallback (index hdr : Nat) : Except Fault (List Parsed × Bool) := do
  let type := getType hdr
  if index = 0 then
    return ([], type = BlockType.kHeader.value)
  else if type = BlockType.kNodeValue.value then
    return (← InnerCreateObject buf index hdr, true)
  else if type = BlockType.kIntValue.value ∨ type = BlockType.kUintValue.value ∨
      type = BlockType.kDoubleValue.value ∨ type = BlockType.kArrayValue.value ∨
      type = BlockType.kBoolValue.value then
    return (← InnerParseNumericOrArrayProperty buf (Field.get 16 39 hdr) index hdr, true)
  else if type = BlockType.kBufferValue.value then
    return (← InnerParseProperty buf (Field.get 16 39 hdr) index hdr, true)
  else if type = BlockType.kLinkValue.value then
    return (← InnerParseLink buf (Field.get 16 39 hdr) index hdr, true)
  else return ([], true)

/-- `ScanBlocks(snapshot_.data(), snapshot_.size(), callback)` from `offset`;
its `ZX_ERR_OUT_OF_RANGE` ends the scan, which `InnerScanBlocks` ignores. -/
def scanBlocksLoop : Nat → Nat → Except Fault (List Parsed)
  | 0, _ => .ok []
  | fuel + 1, offset =>
    if offset < buf.length then
      if buf.length - offset < kMinOrderSize then .ok []
      else do
        let hdr ← readWord buf offset 8
        if getOrder hdr > kMaxOrderShift then return []
        if buf.length - offset < OrderToSize (getOrder hdr) then return []
        let (parsed, more) ← scanCallback buf (IndexForOffset offset) hdr
        if !more then return parsed
        let rest ← scanBlocksLoop fuel (offset + OrderToSize (getOrder hdr))
        return parsed ++ rest
    else .ok []

/-- `InnerScanBlocks()`. -/
def InnerScanBlocks : Except Fault (List Parsed) := scanBlocksLoop buf (buf.length + 1) 0

/-- `ReadFromBuffer(buffer)` up to the assembly of the hierarchy: `none` where
`Snapshot::Create` fails, for a buffer shorter than a block or a header
without the magic number or of a later version. -/
def ReadFromBuffer : Except Fault (Option (List Parsed)) :=
  if buf.length < kMinOrderSize then .ok none
  else do
    let magic ← readBytes buf 4 4
    let hdr ← header buf 0
    if magic ≠ kMagicNumber ∨ Field.get 16 31 hdr > kVersion then return none
    return some (← InnerScanBlocks buf)

end Parse

/-! ## What stays inside the buffer -/

section Safe

variable (buf : List UInt8)

theorem readByte_ok {i : Nat} (h : i < buf.length) : readByte buf i = .ok buf[i].toNat := by
  rw [readByte, List.getElem?_eq_getElem h]

theorem readBytes_ok : ∀ n i, i + n ≤ buf.length → ∃ l, readBytes buf i n = .ok l ∧ l.length = n
  | 0, _, _ => ⟨[], rfl, rfl⟩
  | n + 1, i, h => by
    obtain ⟨l, hl, hlen⟩ := readBytes_ok n (i + 1) (by omega)
    have hi : i < buf.length := by omega
    refine ⟨buf[i].toNat :: l, ?_, by rw [List.length_cons, hlen]⟩
    rw [readBytes, readByte_ok buf hi, hl]
    rfl

theorem readWord_ok {i n : Nat} (h : i + n ≤ buf.length) : ∃ w, readWord buf i n = .ok w := by
  obtain ⟨l, hl, -⟩ := readBytes_ok buf n i h
  exact ⟨_, by rw [readWord, hl]; rfl⟩

/-- A block's 16 bytes lie in the buffer below `IndexForOffset(size)`. -/
theorem block_le_of_lt {index : Nat} (h : index < IndexForOffset buf.length) :
    kMinOrderSize * index + kMinOrderSize ≤ buf.length := by
  rw [IndexForOffset, kMinOrderSize_eq] at *
  omega

/-- `GetBlock` reads a header inside the buffer, and returns only blocks that
lie inside it. -/
theorem getBlock_ok (index : Nat) : ∃ r, GetBlock buf index = .ok r ∧
    ∀ hdr, r = some hdr → kMinOrderSize * index + OrderToSize (getOrder hdr) ≤ buf.length := by
  unfold GetBlock
  split_ifs with hlt
  · exact ⟨none, rfl, fun _ h => nomatch h⟩
  · have hle := block_le_of_lt buf (Nat.lt_of_not_le hlt)
    obtain ⟨w, hw⟩ := readWord_ok buf (i := kMinOrderSize * index) (n := 8) (by rw [kMinOrderSize_eq] at *; omega)
    rw [header, hw]
    by_cases hfit : index * kMinOrderSize + OrderToSize (getOrder w) > buf.length
    · exact ⟨none, by simp only [bind, Except.bind, if_pos hfit]; rfl, fun _ h => nomatch h⟩
    · refine ⟨some w, by simp only [bind, Except.bind, if_neg hfit]; rfl, ?_⟩
      rintro hdr ⟨⟩
      rw [Nat.mul_comm]
      omega

theorem kMinOrderSize_le_orderToSize (k : Nat) : kMinOrderSize ≤ OrderToSize k := by
  rw [orderToSize_eq]
  exact Nat.le_mul_of_pos_right _ (Nat.two_pow_pos k)

theorem loadName_ok {index hdr : Nat}
    (hfit : kMinOrderSize * index + OrderToSize (getOrder hdr) ≤ buf.length) :
    ∃ r, LoadName buf index hdr = .ok r := by
  have h16 := kMinOrderSize_le_orderToSize (getOrder hdr)
  unfold LoadName
  dsimp only
  split_ifs with hlen
  · exact ⟨none, rfl⟩
  · obtain ⟨l, hl, -⟩ := readBytes_ok buf (Field.get 16 27 hdr) (kMinOrderSize * index + 8)
      (by rw [PayloadCapacity] at hlen; rw [kMinOrderSize_eq] at *; omega)
    exact ⟨some l, by rw [hl]; rfl⟩

/-- The extent walk reads only extents inside the buffer, and at most
`remaining` bytes of them. -/
theorem readExtentsLoop_ok : ∀ fuel index extent remaining,
    (∀ hdr, extent = some hdr → kMinOrderSize * index + OrderToSize (getOrder hdr) ≤ buf.length) →
    ∃ bytes, readExtentsLoop buf fuel index extent remaining = .ok bytes ∧ bytes.length ≤ remaining
  | 0, _, _, _, _ => ⟨[], rfl, Nat.zero_le _⟩
  | fuel + 1, index, extent, remaining, hext => by
    unfold readExtentsLoop
    split_ifs with hrem
    · cases extent with
      | none => exact ⟨[], rfl, Nat.zero_le _⟩
      | some hdr =>
        have hfit := hext hdr rfl
        have h16 := kMinOrderSize_le_orderToSize (getOrder hdr)
        dsimp only
        split_ifs with htype
        · exact ⟨[], rfl, Nat.zero_le _⟩
        · obtain ⟨bytes, hbytes, hlen⟩ := readBytes_ok buf (min remaining (PayloadCapacity (getOrder hdr)))
            (kMinOrderSize * index + 8) (by rw [PayloadCapacity]; rw [kMinOrderSize_eq] at *; omega)
          obtain ⟨r, hr, hfit'⟩ := getBlock_ok buf (Field.get 16 39 hdr)
          obtain ⟨rest, hrest, hlen'⟩ := readExtentsLoop_ok fuel (Field.get 16 39 hdr) r
            (remaining - min remaining (PayloadCapacity (getOrder hdr))) hfit'
          refine ⟨bytes ++ rest, ?_, ?_⟩
          · rw [hbytes, hr]
            show (readExtentsLoop buf fuel _ r _ >>= fun rest => pure (bytes ++ rest)) = _
            rw [hrest]
            rfl
          · rw [List.length_append, hlen]
            omega
    · exact ⟨[], rfl, Nat.zero_le _⟩

theorem readExtents_ok (headExtent remainingLength : Nat) :
    ∃ bytes, ReadExtents buf headExtent remainingLength = .ok bytes ∧ bytes.length ≤ remainingLength := by
  obtain ⟨r, hr, hfit⟩ := getBlock_ok buf headExtent
  obtain ⟨bytes, hbytes, hlen⟩ := readExtentsLoop_ok buf (remainingLength + 1) headExtent r remainingLength hfit
  exact ⟨bytes, by rw [ReadExtents, hr]; exact hbytes, hlen⟩

theorem loadStringReference_ok {index hdr : Nat}
    (hfit : kMinOrderSize * index + OrderToSize (getOrder hdr) ≤ buf.length) :
    ∃ r, LoadStringReference buf index hdr = .ok r := by
  have h16 := kMinOrderSize_le_orderToSize (getOrder hdr)
  obtain ⟨pl, hpl⟩ := readWord_ok buf (i := kMinOrderSize * index + 8) (n := 8)
    (by rw [kMinOrderSize_eq] at *; omega)
  obtain ⟨inline, hinline, hlen⟩ := readBytes_ok buf
    (min (Field.get 0 31 pl) (PayloadCapacity (getOrder hdr) - 4)) (kMinOrderSize * index + 8 + 4)
    (by rw [PayloadCapacity]; rw [kMinOrderSize_eq] at *; omega)
  obtain ⟨rest, hrest, -⟩ := readExtents_ok buf (Field.get 16 39 hdr)
    (Field.get 0 31 pl - (PayloadCapacity (getOrder hdr) - 4))
  unfold LoadStringReference
  rw [payload, hpl]
  simp only [bind, Except.bind]
  rw [hinline]
  dsimp only
  by_cases hall : Field.get 0 31 pl = inline.length
  · exact ⟨some inline, by rw [if_pos hall]; rfl⟩
  · refine ⟨some (inline ++ rest), ?_⟩
    rw [if_neg hall, hrest]
    rfl

/-- `GetAndValidateName` of any index reads inside the buffer. -/
theorem getAndValidateName_ok (index : Nat) : ∃ r, GetAndValidateName buf index = .ok r := by
  obtain ⟨r, hr, hfit⟩ := getBlock_ok buf index
  unfold GetAndValidateName
  rw [hr]
  cases r with
  | none => exact ⟨none, rfl⟩
  | some hdr =>
    show ∃ r, (if getType hdr = BlockType.kName.value then LoadName buf index hdr
      else if getType hdr = BlockType.kStringReference.value then LoadStringReference buf index hdr
      else pure none) = .ok r
    split_ifs
    · exact loadName_ok buf (hfit hdr rfl)
    · exact loadStringReference_ok buf (hfit hdr rfl)
    · exact ⟨none, rfl⟩

/-- The walk ends by itself: each pass takes at least a byte, so beyond
`remaining` passes one more changes nothing. -/
theorem readExtentsLoop_succ : ∀ fuel index extent remaining, remaining < fuel →
    readExtentsLoop buf (fuel + 1) index extent remaining = readExtentsLoop buf fuel index extent remaining
  | 0, _, _, _, h => absurd h (Nat.not_lt_zero _)
  | fuel + 1, index, extent, remaining, h => by
    unfold readExtentsLoop
    split_ifs with hrem
    · cases extent with
      | none => rfl
      | some hdr =>
        dsimp only
        split_ifs with htype
        · rfl
        · -- an extent's payload holds at least a byte
          have hcap : 0 < PayloadCapacity (getOrder hdr) := by
            have := kMinOrderSize_le_orderToSize (getOrder hdr)
            rw [PayloadCapacity]
            rw [kMinOrderSize_eq] at this
            omega
          have hlt : remaining - min remaining (PayloadCapacity (getOrder hdr)) < fuel := by omega
          simp only [fun index extent => readExtentsLoop_succ fuel index extent _ hlt]
    · rfl

end Safe

/-! ## Where the reader reads outside a block -/

/-- A header block, then a `LINK_VALUE` block whose name index is `0`: the
header, not a name. -/
def linkToHeader : List UInt8 :=
  [0x00, 0x02, 0x02, 0x00, 0x49, 0x4E, 0x53, 0x50, 0, 0, 0, 0, 0, 0, 0, 0,
    0x00, 0x0C, 0, 0, 0, 0, 0, 0, 0, 0, 0, 0, 0, 0, 0, 0]

theorem readFromBuffer_link_to_header :
    GetAndValidateName linkToHeader 0 = .ok none ∧ ReadFromBuffer linkToHeader = .error .absentOptional := by
  decide

/-- A header, an empty `NAME` block, then an `ARRAY_VALUE` block of order `0`
at the end of the buffer, of one `int64_t`. Its capacity is `0` slots, but
`GetArraySlot` refuses only a slot above the capacity, so the one slot is
copied from past the buffer's end. -/
def arrayAtEnd : List UInt8 :=
  [0x00, 0x02, 0x02, 0x00, 0x49, 0x4E, 0x53, 0x50, 0, 0, 0, 0, 0, 0, 0, 0,
    0x00, 0x09, 0, 0, 0, 0, 0, 0, 0, 0, 0, 0, 0, 0, 0, 0,
    0x00, 0x0B, 0, 0, 0, 0x01, 0, 0, 0x04, 0x01, 0, 0, 0, 0, 0, 0]

example : ReadFromBuffer arrayAtEnd = .error .outOfBounds := by
  decide

end Reader

end Zircon.Inspect
