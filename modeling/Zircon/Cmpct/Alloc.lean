import Zircon.Cmpct.Heap

/-!
# cmpctmalloc: allocating and freeing

`cmpct_alloc` rounds the request up to a bucket, takes the first free area
of that bucket or a larger one, growing the heap when there is none, and
carves off the rest of the area as a new free area unless it is small.
`cmpct_free` coalesces the freed area with a free neighbour on each side.
`cmpct_memalign` allocates enough to place an aligned payload inside, and
frees the part before it. `cmpct_sized_free` checks the size it is given
against the area before freeing it. A run of the heap is `cmpct_init` and then
a sequence of `Call`s.
-/

namespace Zircon.Cmpct

open Function

variable (pageAlloc : Nat → Nat)

/-! ## `cmpct_alloc` -/

/-- The loop of `cmpct_alloc` that grows the heap, halving the request down to
`rounded_up` while `heap_grow` fails; `false` when it gives up. Each failing
pass lowers `growby`, so `growby + 1` passes are enough. -/
def growLoop (rounded_up : Nat) : Nat → Heap → Nat → Option (Heap × Bool)
  | 0, _, _ => none
  | fuel + 1, h, growby => do
    let (h, ok) ← h.heap_grow pageAlloc growby
    if ok then pure (h, true)
    else if growby ≤ rounded_up then pure (h, false)
    else growLoop rounded_up fuel h (max (growby >>> 1) rounded_up)

/-- The end of `cmpct_alloc`: the head of `bucket`, with what is left of it
beyond `rounded_up` made a free area unless it is smaller than a `free_t` or
than 1/64 of the request. -/
def Heap.take_area (h : Heap) (bucket size rounded_up : Nat) : Option (Heap × Nat) := do
  let head := h.freeLists bucket
  let left_over := sub64 (h.mem head).size rounded_up
  let h ←
    if left_over ≥ FREE_SIZE ∧ left_over > size >>> 6 then do
      let right := h.right_header head
      let h ← h.unlink_free head bucket
      let free := head + rounded_up
      let h ← h.create_free_area free head left_over
      let h := h.FixLeftPointer right free
      pure (h.setMem head { h.mem head with size := u32 ((h.mem head).size + 2 ^ 32 - u32 left_over) })
    else h.unlink_free head bucket
  pure (h.create_allocation_header head 0 (h.mem head).size (h.mem head).left)

/-- `cmpct_alloc(size)`: the payload address, `0` for `NULL`. -/
def Heap.cmpct_alloc (h : Heap) (size : Nat) : Option (Heap × Nat) :=
  if size = 0 then some (h, 0)
  else if size > kHeapMaxAllocSize then some (h, 0)
  else
    match SizeToIndexAllocating size with
    | none => none
    | some (start_bucket, rounded_up) =>
      let rounded_up := rounded_up + HEADER_SIZE
      match h.find_nonempty_bucket start_bucket with
      | some bucket => h.take_area bucket size rounded_up
      | none =>
        -- grow the heap by at least an eighth of its size
        let growby := min HEAP_LARGE_ALLOC_BYTES (max (h.size >>> 3) (max kHeapUsableGrowSize rounded_up))
        if growby < rounded_up then none
        else
          match growLoop pageAlloc rounded_up (growby + 1) h growby with
          | none => none
          | some (h, false) => some (h, 0)
          | some (h, true) =>
            match h.find_nonempty_bucket start_bucket with
            | none => none
            | some bucket => h.take_area bucket size rounded_up

/-! ## Freeing -/

/-- `cmpct_free_internal(payload, header)`: coalesces with a free area on
the left, on the right, or both. -/
def Heap.cmpct_free_internal (h : Heap) (header : Nat) : Option Heap := do
  guard (!h.is_tagged_as_free header)
  guard ((h.mem header).size > HEADER_SIZE)
  let size := (h.mem header).size
  let left := (h.mem header).left
  if left ≠ 0 ∧ h.is_tagged_as_free left then do
    let h ← h.unlink_free_unknown_bucket left
    let right := h.right_header header
    if h.is_tagged_as_free right then do
      -- coalesce both sides
      let h ← h.unlink_free_unknown_bucket right
      let right_right := h.right_header right
      let h := h.FixLeftPointer right_right left
      h.free_memory left (h.mem left).left ((h.mem left).size + size + (h.mem right).size)
    else do
      let h := h.FixLeftPointer right left
      h.free_memory left (h.mem left).left ((h.mem left).size + size)
  else do
    let right := h.right_header header
    if h.is_tagged_as_free right then do
      -- coalesce only right
      let right_right := h.right_header right
      let h ← h.unlink_free_unknown_bucket right
      let h := h.FixLeftPointer right_right header
      h.free_memory header left (size + (h.mem right).size)
    else h.free_memory header left size

/-- `cmpct_free(payload)`. -/
def Heap.cmpct_free (h : Heap) (payload : Nat) : Option Heap :=
  if payload = 0 then some h else h.cmpct_free_internal (payload - HEADER_SIZE)

/-- `cmpct_sized_free(payload, s)`: the area must be at least `s` bytes and at
most `sizeof(header_t) + sizeof(free_t) + s / 4` more. -/
def Heap.cmpct_sized_free (h : Heap) (payload s : Nat) : Option Heap :=
  if payload = 0 then some h
  else do
    let header := payload - HEADER_SIZE
    guard ((h.mem header).size ≥ s)
    let max_diff := HEADER_SIZE + FREE_SIZE + (s >>> 2)
    guard ((h.mem header).size - s ≤ max_diff)
    h.cmpct_free_internal header

/-! ## `cmpct_memalign`, `calloc` and `cmpct_init` -/

/-- `cmpct_memalign(alignment, size)`: allocates `size + alignment +
sizeof(free_t)` bytes, gives the payload rounded up past a `free_t` its own
header, and frees the area before it. The part after the payload is kept. -/
def Heap.cmpct_memalign (h : Heap) (alignment size : Nat) : Option (Heap × Nat) :=
  if size = 0 then some (h, 0)
  else if alignment < 8 then h.cmpct_alloc pageAlloc size
  else do
    let padded_size := u64 (size + alignment + FREE_SIZE)
    let (h, unaligned) ← h.cmpct_alloc pageAlloc padded_size
    if unaligned = 0 then return (h, 0)
    let mask := alignment - 1
    let payload_int := u64 (unaligned + FREE_SIZE + mask)
    let payload := payload_int &&& (2 ^ 64 - 1 - mask)
    if unaligned ≠ payload then do
      let unaligned_header := unaligned - HEADER_SIZE
      let header := payload - HEADER_SIZE
      let left_over := sub64 payload unaligned
      let h := (h.create_allocation_header header 0 (sub64 (h.mem unaligned_header).size left_over)
        unaligned_header).1
      let right := h.right_header unaligned_header
      let h := h.setMem unaligned_header { h.mem unaligned_header with size := u32 left_over, cookie := 0 }
      let h := h.FixLeftPointer right header
      let h ← h.cmpct_free unaligned
      pure (h, payload)
    else pure (h, payload)

/-- `calloc(count, size)` of `heap_wrapper.cc`: `count * size` bytes, the
product taken in `size_t`. -/
def Heap.calloc (h : Heap) (count size : Nat) : Option (Heap × Nat) :=
  h.cmpct_alloc pageAlloc (u64 (count * size))

/-- `cmpct_init()`, over memory `mem`: empty lists and one OS allocation. -/
def cmpct_init (mem : Nat → Header) : Option Heap := do
  let h : Heap := ⟨0, 0, 0, fun _ => 0, fun _ => 0, mem⟩
  let (h, success) ← h.heap_grow pageAlloc kHeapUsableGrowSize
  guard success
  pure h

/-! ## Runs -/

/-- The calls a program makes on the heap. -/
inductive Call where
  | alloc (size : Nat)
  | memalign (alignment size : Nat)
  | calloc (count size : Nat)
  | free (payload : Nat)
  | sizedFree (payload s : Nat)
deriving DecidableEq, Repr

/-- A call, with what it returns (`0` for `NULL` and for the frees). -/
def Heap.call (h : Heap) : Call → Option (Heap × Nat)
  | .alloc size => h.cmpct_alloc pageAlloc size
  | .memalign alignment size => h.cmpct_memalign pageAlloc alignment size
  | .calloc count size => h.calloc pageAlloc count size
  | .free payload => (h.cmpct_free payload).map (·, 0)
  | .sizedFree payload s => (h.cmpct_sized_free payload s).map (·, 0)

/-- The calls in order, with what each returned; `none` when an assertion
fires on the way. -/
def Heap.run (h : Heap) : List Call → Option (Heap × List Nat)
  | [] => some (h, [])
  | c :: cs => do
    let (h, r) ← h.call pageAlloc c
    let (h, rs) ← h.run cs
    pure (h, r :: rs)

/-- What the calls return after `cmpct_init` over `mem`; `none` when an
assertion fires. -/
def results (mem : Nat → Header) (calls : List Call) : Option (List Nat) :=
  ((cmpct_init pageAlloc mem).bind fun h => h.run pageAlloc calls).map Prod.snd

/-- `cmpct_memalign` keeps the tail of the block it trims, so a page-aligned
8-byte allocation sits in an area of 560 bytes; freeing it with its size,
as sized aligned `operator delete` does, fails the slack assertion of
`cmpct_sized_free` (552 > 16 + 32 + 2). -/
theorem memalign_sized_free_asserts :
    results (fun _ => 2 ^ 20) (fun _ => ⟨0, 0, 0, 0, 0⟩) [.memalign 4096 8] = some [2 ^ 20 + 4096] ∧
    results (fun _ => 2 ^ 20) (fun _ => ⟨0, 0, 0, 0, 0⟩)
      [.memalign 4096 8, .sizedFree (2 ^ 20 + 4096) 8] = none := by
  constructor <;> decide

end Zircon.Cmpct
