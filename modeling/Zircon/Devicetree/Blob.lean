import Mathlib

/-!
# The bounds `devicetree::Devicetree` puts on a blob

`Devicetree(ByteView blob)` reads the flattened devicetree header and keeps
four views into the blob: the first `totalsize` bytes (`fdt_`), the structure
block, the strings block and the memory reservation map. Every later access
goes through these views, so they are what bounds the bytes a walk reads.

The constructor checks that `totalsize` fits in the blob, that the structure
block lies in the first `totalsize` bytes and that the strings block and the
reservation map start in them. Its second check on the strings block repeats
the check on the structure block instead of bounding the end of the strings
block, so `string_block_` may run past `totalsize` and past the blob. A
property name is looked up in `string_block_` with only
`name_offset < string_block_.size()` checked, and `find_first_of('\0')` then
reads from there.

`Walk` goes through the structure block token by token (`WalkTree`,
`WalkSubtree`) and hands a pre-order visitor each node's properties, which
`Properties::iterator` steps through; the model gives the property positions
of every node, from which the name reads follow.

A view is its offset in the blob and its size. A byte past the blob reads as
`0` in the model; the reads themselves are recorded as offsets.
-/

namespace Zircon.Fdt

/-- A `ByteView` (or `std::string_view`) into the blob. -/
structure ByteView where
  off : Nat
  size : Nat
deriving DecidableEq, Repr

/-- `subspan(offset)`, for an offset within the view. -/
def ByteView.subspan (v : ByteView) (offset : Nat) : ByteView := ⟨v.off + offset, v.size - offset⟩

/-- `subspan(offset, count)`, for a slice within the view. -/
def ByteView.subspan' (v : ByteView) (offset count : Nat) : ByteView := ⟨v.off + offset, count⟩

/-- `ReadBigEndianUint32(bytes)`: the first four bytes, big-endian, and the
rest of the view; `none` when `ZX_ASSERT(bytes.size() >= 4)` fails. -/
def ReadBigEndianUint32 (blob : List UInt8) (bytes : ByteView) : Option (Nat × ByteView) :=
  if bytes.size ≥ 4 then
    let b i := (blob.getD (bytes.off + i) 0).toNat
    some (((b 0 * 256 + b 1) * 256 + b 2) * 256 + b 3, bytes.subspan 4)
  else none

/-- `kMagic`. -/
def kMagic : Nat := 0xd00dfeed

/-! The offsets in `struct_fdt_header` of the fields the constructor reads. -/

def offTotalsize : Nat := 4
def offOffDtStruct : Nat := 8
def offOffDtStrings : Nat := 12
def offOffMemRsvmap : Nat := 16
def offSizeDtStrings : Nat := 32
def offSizeDtStruct : Nat := 36

/-- `FDT_BEGIN_NODE`. -/
def FDT_BEGIN_NODE : Nat := 0x00000001
/-- `FDT_END_NODE`. -/
def FDT_END_NODE : Nat := 0x00000002
/-- `FDT_PROP`. -/
def FDT_PROP : Nat := 0x00000003
/-- `FDT_NOP`. -/
def FDT_NOP : Nat := 0x00000004
/-- `FDT_END`. -/
def FDT_END : Nat := 0x00000009

/-- The views a `Devicetree` keeps. -/
structure Devicetree where
  fdt : ByteView
  structBlock : ByteView
  stringBlock : ByteView
  memRsvmap : ByteView
deriving DecidableEq, Repr

/-- `Devicetree::Devicetree(ByteView blob)`; `none` when a `ZX_ASSERT` fails. -/
def Devicetree.ofByteView (blob : List UInt8) : Option Devicetree := do
  let blobView : ByteView := ⟨0, blob.length⟩
  let (magic, _) ← ReadBigEndianUint32 blob blobView
  guard (magic = kMagic)
  let (size, _) ← ReadBigEndianUint32 blob (blobView.subspan offTotalsize)
  guard (size ≤ blob.length)
  let fdt : ByteView := ⟨0, size⟩
  let (structBlockOffset, _) ← ReadBigEndianUint32 blob (fdt.subspan offOffDtStruct)
  let (structBlockSize, _) ← ReadBigEndianUint32 blob (fdt.subspan offSizeDtStruct)
  guard (structBlockOffset < fdt.size)
  guard (fdt.size - structBlockOffset ≥ structBlockSize)
  let structBlock : ByteView := ⟨structBlockOffset, structBlockSize⟩
  guard (structBlockSize > 0)
  let (last, _) ← ReadBigEndianUint32 blob (structBlock.subspan (structBlockSize - 4))
  guard (last = FDT_END)
  let (stringBlockOffset, _) ← ReadBigEndianUint32 blob (fdt.subspan offOffDtStrings)
  let (stringBlockSize, _) ← ReadBigEndianUint32 blob (fdt.subspan offSizeDtStrings)
  guard (stringBlockOffset ≤ fdt.size)
  -- the source checks the structure block a second time here
  guard (fdt.size - structBlockOffset ≥ structBlockSize)
  let stringBlock : ByteView := ⟨stringBlockOffset, stringBlockSize⟩
  let (memRsvmapOffset, _) ← ReadBigEndianUint32 blob (fdt.subspan offOffMemRsvmap)
  guard (memRsvmapOffset ≤ fdt.size)
  pure ⟨fdt, structBlock, stringBlock, ⟨memRsvmapOffset, fdt.size - memRsvmapOffset⟩⟩


/-! ## Property names -/

/-- `ReadPropertyBlock(bytes)` past a property token: the value, the name
offset and the aligned tail; `none` when an assertion fails. -/
def ReadPropertyBlock (blob : List UInt8) (bytes : ByteView) : Option (ByteView × Nat × ByteView) := do
  guard (bytes.size ≥ 8)
  let (propSize, _) ← ReadBigEndianUint32 blob bytes
  let (nameOffset, blockEnd) ← ReadBigEndianUint32 blob (bytes.subspan 4)
  pure (blockEnd.subspan' 0 propSize, nameOffset, blockEnd.subspan ((propSize + 3) / 4 * 4))

/-- The offsets `find_first_of('\0')` reads from `start` in a view of `n`
bytes: up to and including the first zero byte. -/
def findZeroReads (blob : List UInt8) : Nat → Nat → List Nat
  | _, 0 => []
  | i, n + 1 => i :: if blob.getD i 0 = 0 then [] else findZeroReads blob (i + 1) n

/-- The offsets `Properties::iterator::operator*` reads for the name of the
property at `position`, after the property block itself; `none` when an
assertion fails. -/
def propertyNameReads (blob : List UInt8) (dt : Devicetree) (position : ByteView) : Option (List Nat) := do
  let (_, nameOffset, _) ← ReadPropertyBlock blob position
  guard (nameOffset < dt.stringBlock.size)
  pure (findZeroReads blob (dt.stringBlock.off + nameOffset) (dt.stringBlock.size - nameOffset))

/-! ## The walk of the structure block

`Walk` with a pre-order visitor that goes into every node: the property
positions it is handed, node by node. Each loop reads a token or a block per
turn, so a view of `n` bytes is done within `n + 1` turns; the fuel counts
them, and running out is `none` like a failed assertion. -/

/-- `StructBlockAlign(x)`: `x` rounded up to 4 bytes. -/
def StructBlockAlign (x : Nat) : Nat := (x + 3) / 4 * 4

/-- `std::find(view.begin(), view.end(), 0)`: the index of the first zero
byte, `none` when there is none (`ZX_ASSERT_MSG`, "unterminated node name"). -/
def findZero (blob : List UInt8) (v : ByteView) : Option Nat :=
  (List.range v.size).find? fun i => blob.getD (v.off + i) 0 = 0

/-- The first loop of `WalkSubtree`: past no-op tokens and property blocks, up
to the node's first other token, which is left unread. -/
def skipProperties (blob : List UInt8) : Nat → ByteView → Option ByteView
  | 0, _ => none
  | fuel + 1, unprocessed =>
    if unprocessed.size = 0 then some unprocessed
    else do
      let (token, tail) ← ReadBigEndianUint32 blob unprocessed
      if token = FDT_NOP then skipProperties blob fuel tail
      else if token = FDT_PROP then
        -- `EndOfPropertyBlock(tail)`
        let (_, _, tail) ← ReadPropertyBlock blob tail
        skipProperties blob fuel tail
      else some unprocessed

/-- The loop before the `PropertyDecoder` is made: past every token up to and
including the first property token. -/
def seekFirstProperty (blob : List UInt8) : Nat → ByteView → Option ByteView
  | 0, _ => none
  | fuel + 1, props_block =>
    if props_block.size = 0 then some props_block
    else do
      let (token, tail) ← ReadBigEndianUint32 blob props_block
      if token = FDT_PROP then some tail else seekFirstProperty blob fuel tail

/-- The positions `Properties::iterator` takes from `position` to `end`, the
empty view at the end of `props`: `operator++` skips the property block, then
no-op tokens, and stops just past the next property token; any other token is
a `ZX_PANIC`. -/
def propertyPositions (blob : List UInt8) (props : ByteView) : Nat → ByteView → Option (List ByteView)
  | 0, _ => none
  | fuel + 1, position =>
    if position = ⟨props.off + props.size, 0⟩ then some []
    else do
      let (_, _, tail) ← ReadPropertyBlock blob position
      let next ← nextProperty fuel tail
      let rest ← propertyPositions blob props fuel next
      pure (position :: rest)
where
  /-- The loop of `operator++`. -/
  nextProperty : Nat → ByteView → Option ByteView
    | 0, _ => none
    | fuel + 1, position =>
      if position.size = 0 then some position
      else do
        let (token, tail) ← ReadBigEndianUint32 blob position
        if token = FDT_NOP then nextProperty fuel tail
        else if token = FDT_PROP then some tail
        else none

mutual

/-- `WalkSubtree(subtree, ...)` from just past a `FDT_BEGIN_NODE` token: the
property positions of the node and of its descendants in pre-order, and the
unprocessed tail. -/
def walkSubtree (blob : List UInt8) : Nat → ByteView → Option (List (List ByteView) × ByteView)
  | 0, _ => none
  | fuel + 1, subtree => do
    let name_len ← findZero blob subtree
    let unprocessed := subtree.subspan (StructBlockAlign (name_len + 1))
    let props_block := unprocessed
    let unprocessed ← skipProperties blob (unprocessed.size + 1) unprocessed
    let props_block : ByteView := ⟨props_block.off, props_block.size - unprocessed.size⟩
    let props_block ← seekFirstProperty blob (props_block.size + 1) props_block
    -- the visitor's loop over `decoder.properties()`
    let positions ← propertyPositions blob props_block (props_block.size + 1) props_block
    let (children, unprocessed) ← walkChildren blob fuel unprocessed
    pure (positions :: children, unprocessed)

/-- The last loop of `WalkSubtree`: the subtrees of the node, up to and past
its `FDT_END_NODE` (or any token other than a no-op or a node). -/
def walkChildren (blob : List UInt8) : Nat → ByteView → Option (List (List ByteView) × ByteView)
  | 0, _ => none
  | fuel + 1, unprocessed =>
    if unprocessed.size = 0 then some ([], unprocessed)
    else do
      let (token, tail) ← ReadBigEndianUint32 blob unprocessed
      if token = FDT_NOP then walkChildren blob fuel tail
      else if token = FDT_BEGIN_NODE then do
        let (nodes, tail) ← walkSubtree blob fuel tail
        let (more, tail) ← walkChildren blob fuel tail
        pure (nodes ++ more, tail)
      else some ([], tail)

end

/-- The loop of `WalkTree` over the structure block; an unknown token is a
`ZX_PANIC`. -/
def walkTreeLoop (blob : List UInt8) : Nat → ByteView → Option (List (List ByteView))
  | 0, _ => none
  | fuel + 1, unprocessed =>
    if unprocessed.size = 0 then some []
    else do
      let (token, tail) ← ReadBigEndianUint32 blob unprocessed
      if token = FDT_NOP then walkTreeLoop blob fuel tail
      else if token = FDT_BEGIN_NODE then do
        let (nodes, tail) ← walkSubtree blob (tail.size + 1) tail
        let more ← walkTreeLoop blob fuel tail
        pure (nodes ++ more)
      else if token = FDT_END then some []
      else none

/-- `Devicetree::Walk` with a pre-order visitor that goes into every node:
the positions of the properties it is handed, node by node. -/
def Devicetree.WalkTree (blob : List UInt8) (dt : Devicetree) : Option (List (List ByteView)) :=
  walkTreeLoop blob (dt.structBlock.size + 1) dt.structBlock

/-! ## A strings block past the end -/

/-- A 68-byte blob with `totalsize = 68`: the header, then a structure block
of 28 bytes at 40 holding a root node with one property, named at offset 0 of
a strings block that starts at 68 and claims 4 bytes. -/
def strayStrings : List UInt8 :=
  [0xd0, 0x0d, 0xfe, 0xed, 0, 0, 0, 68, 0, 0, 0, 40, 0, 0, 0, 68,
   0, 0, 0, 68, 0, 0, 0, 17, 0, 0, 0, 16, 0, 0, 0, 0,
   0, 0, 0, 4, 0, 0, 0, 28,
   -- `FDT_BEGIN_NODE`, the empty name, `FDT_PROP`, `len = 0`, `nameoff = 0`
   0, 0, 0, 1, 0, 0, 0, 0, 0, 0, 0, 3, 0, 0, 0, 0, 0, 0, 0, 0,
   -- `FDT_END_NODE`, `FDT_END`
   0, 0, 0, 2, 0, 0, 0, 9]

/-- The constructor accepts `strayStrings` with a strings block at 68, past
the last byte of the blob; the walk hands the visitor the root node's one
property, whose block starts at 52, and its name is then read at offset 68. -/
theorem ofByteView_reads_past_blob :
    strayStrings.length = 68 ∧
      Devicetree.ofByteView strayStrings = some ⟨⟨0, 68⟩, ⟨40, 28⟩, ⟨68, 4⟩, ⟨68, 0⟩⟩ ∧
      Devicetree.WalkTree strayStrings ⟨⟨0, 68⟩, ⟨40, 28⟩, ⟨68, 4⟩, ⟨68, 0⟩⟩ = some [[⟨52, 8⟩]] ∧
      propertyNameReads strayStrings ⟨⟨0, 68⟩, ⟨40, 28⟩, ⟨68, 4⟩, ⟨68, 0⟩⟩ ⟨52, 8⟩ = some [68] := by
  decide

end Zircon.Fdt
