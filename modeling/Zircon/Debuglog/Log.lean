import Mathlib
import Zircon.Ring
import Zircon.Word

/-!
# `DLog`: the debuglog ring

The debuglog keeps its records in a ring of `DLOG_SIZE` bytes, `data_`,
between two counters: `tail_`, the position of the oldest record, and `head_`,
where the next one goes. A record is a `dlog_header_t` of 40 bytes followed by
its data, and takes `DLOG_ALIGN`ed room on the wire, so that positions stay
multiples of 4 and a header's first word never wraps. `DLog::Write` first
discards records at the tail, reading each one's wire size from its
preamble, until the new record fits, and then copies the header and the data
in at `head_`, in up to three `memcpy`s where the ring wraps. Each
`DlogReader` keeps its own `tail_`; `DlogReader::Read` moves it to the log's
tail when a writer has lapped it, and otherwise copies out the record there.

Everything below runs under `lock_`. The counters are `size_t`s, taken
unbounded: each write adds at most 256 to them. A read past `data_`, or a
`memcpy` whose length wraps, is undefined and returns `none`, as does a
discard loop that never ends.
-/

namespace Zircon.Debuglog

open Zircon.Ring Zircon.Word

/-- `DLOG_SIZE`. -/
def DLOG_SIZE : Nat := 128 * 1024

/-- `DLOG_MASK`. -/
def DLOG_MASK : Nat := DLOG_SIZE - 1

/-- `DLOG_ALIGN_TRUNC(n)`: `n & ~3` in `size_t`. -/
def DLOG_ALIGN_TRUNC (n : Nat) : Nat := n &&& (2 ^ 64 - 4)

/-- `DLOG_ALIGN(n)`. -/
def DLOG_ALIGN (n : Nat) : Nat := DLOG_ALIGN_TRUNC (n + 3)

/-- `DLOG_HDR_SET(fifosize, readsize)`. -/
def DLOG_HDR_SET (fifosize readsize : Nat) : Nat := ((readsize &&& 0xFFF) <<< 12) ||| (fifosize &&& 0xFFF)

/-- `DLOG_HDR_GET_FIFOLEN(n)`. -/
def DLOG_HDR_GET_FIFOLEN (n : Nat) : Nat := n &&& 0xFFF

/-- `DLOG_HDR_GET_READLEN(n)`. -/
def DLOG_HDR_GET_READLEN (n : Nat) : Nat := (n >>> 12) &&& 0xFFF

/-- `sizeof(dlog_header)`. -/
def sizeofHeader : Nat := 40

/-- `DLOG_MAX_RECORD`. -/
def DLOG_MAX_RECORD : Nat := 256

/-- `DLOG_MAX_DATA`. -/
def DLOG_MAX_DATA : Nat := DLOG_MAX_RECORD - sizeofHeader

/-- `dlog_header_t`. -/
structure dlog_header where
  preamble : Nat
  datalen : Nat
  severity : Nat
  flags : Nat
  timestamp : Int
  pid : Nat
  tid : Nat
  sequence : Nat
deriving DecidableEq, Repr

/-- The 40 bytes of a `dlog_header_t` in memory, its fields little-endian. -/
def dlog_header.bytes (h : dlog_header) : List UInt8 :=
  leBytes h.preamble 4 ++ leBytes h.datalen 2 ++ leBytes h.severity 1 ++ leBytes h.flags 1 ++
    leBytes (h.timestamp % 2 ^ 64).toNat 8 ++ leBytes h.pid 8 ++ leBytes h.tid 8 ++ leBytes h.sequence 8

/-- The size of a record of `len` data bytes on the wire:
`sizeof(dlog_header) + DLOG_ALIGN(len)`. -/
def wireSize (len : Nat) : Nat := sizeofHeader + DLOG_ALIGN len

/-- The header `Write` prepares for `len` bytes of data, each field cast to
its width; `sequence` is `sequence_count_`, read under the lock. -/
def makeHeader (wiresize len severity flags : Nat) (timestamp : Int) (pid tid sequence : Nat) :
    dlog_header where
  preamble := DLOG_HDR_SET wiresize (sizeofHeader + len) % 2 ^ 32
  datalen := len % 2 ^ 16
  severity := severity % 2 ^ 8
  flags := flags % 2 ^ 8
  timestamp := timestamp
  pid := pid
  tid := tid
  sequence := sequence

/-- The `zx_status_t`s of the debuglog. -/
inductive Status where
  | ok
  | badState
  | shouldWait
  | invalidArgs
  | internal
deriving DecidableEq, Repr

/-- The state of a `DLog` that `Write` and `Read` use. `running` is
`lifecycle_ == Lifecycle::Running`. -/
structure DLog where
  data : Nat → UInt8
  head : Nat
  tail : Nat
  sequenceCount : Nat
  panic : Bool
  running : Bool

namespace DLog

/-- A new `DLog`: `data_` zeroed, both counters at `0`. -/
def init : DLog := ⟨fun _ => 0, 0, 0, 0, false, true⟩

/-- `*reinterpret_cast<uint32_t*>(data_ + off)`. -/
def readU32 (data : Nat → UInt8) (off : Nat) : Option Nat :=
  if off + 4 ≤ DLOG_SIZE then some (ofLE (read data off 4)) else none

/-- The loop of `Write` that discards records at the tail while the new
record of `wiresize` bytes does not fit. Each pass moves `tail_` by the FIFO
length in the preamble there, so that a loop that has not ended after
`head_ - tail_ + 1` passes has moved by `0` once and never ends. -/
def evictLoop (data : Nat → UInt8) (head wiresize : Nat) : Nat → Nat → Option Nat
  | 0, _ => none
  | fuel + 1, tail =>
    if head - tail > DLOG_SIZE - wiresize then do
      let preamble ← readU32 data (tail &&& DLOG_MASK)
      evictLoop data head wiresize fuel (tail + DLOG_HDR_GET_FIFOLEN preamble)
    else some tail

/-- The copy of a record into the ring at `offset = head_ & DLOG_MASK`, in
one, two or three `memcpy`s: the `if` of `Write` after its discard loop, with
`hdr` the header's bytes. -/
def copyIn (data : Nat → UInt8) (offset wiresize : Nat) (hdr str : List UInt8) : Option (Nat → UInt8) :=
  let len := str.length
  let fifospace := DLOG_SIZE - offset
  if fifospace ≥ wiresize then
    -- everything fits in one write
    some (memcpy (memcpy data offset hdr) (offset + sizeofHeader) str)
  else if fifospace < sizeofHeader then
    -- the wrap happens in the header
    some (memcpy (memcpy (memcpy data offset (hdr.take fifospace)) 0 (hdr.drop fifospace))
      (sizeofHeader - fifospace) str)
  else
    -- the wrap happens in the data; `len - fifospace` must not wrap
    let fifospace := fifospace - sizeofHeader
    if len < fifospace then none
    else
      some (memcpy (memcpy (memcpy data offset hdr) (offset + sizeofHeader) (str.take fifospace)) 0
        (str.drop fifospace))

/-- `Write(severity, flags, str)`, with `current_time()` and the current
thread's `pid` and `tid` (`0` without a thread) as arguments. -/
def Write (d : DLog) (severity flags : Nat) (str : List UInt8) (timestamp : Int) (pid tid : Nat) :
    Option (DLog × Status) :=
  let str := str.take DLOG_MAX_DATA
  let len := str.length
  if d.panic then some (d, .badState)
  else
    let wiresize := wireSize len
    let hdr := makeHeader wiresize len severity flags timestamp pid tid d.sequenceCount
    if !d.running then some (d, .badState)
    else do
      let tail ← evictLoop d.data d.head wiresize (d.head - d.tail + 1) d.tail
      let data ← copyIn d.data (d.head &&& DLOG_MASK) wiresize hdr.bytes str
      some ({ d with
        data := data
        tail := tail
        head := d.head + wiresize
        sequenceCount := d.sequenceCount + 1 }, .ok)

/-- `ReassembleFromOffset(offset, target)` for a target of `len` bytes: the
bytes it copies out. -/
def ReassembleFromOffset (data : Nat → UInt8) (offset len : Nat) : Except Status (List UInt8) :=
  if len = 0 then .ok []
  else if len > DLOG_SIZE then .error .invalidArgs
  else
    let offset := offset &&& DLOG_MASK
    let fifospace := DLOG_SIZE - offset
    if len ≤ fifospace then .ok (read data offset len)
    else .ok (read data offset fifospace ++ read data 0 (len - fifospace))

end DLog

/-- What `DlogReader::Read` gives back: a record's header (its preamble
cleared), its data and `*actual`, or a status. -/
inductive ReadOutcome where
  | record (hdr data : List UInt8) (actual : Nat)
  | status (s : Status)
deriving DecidableEq, Repr

namespace DLog

/-- `DlogReader::Read` by a reader whose `tail_` is `tail_`: its new `tail_`
and the outcome. The `DEBUG_ASSERT`s are compiled out; data longer than
`record->data` would overrun it, which is undefined. -/
def Read (d : DLog) (tail_ : Nat) : Option (Nat × ReadOutcome) :=
  -- a reader outside the log's `[tail_, head_]` has been lapped
  let rtail := if d.head - d.tail < d.head - tail_ then d.tail else tail_
  if rtail ≠ d.head then
    match ReassembleFromOffset d.data rtail sizeofHeader with
    | .error s => some (tail_, .status s)
    | .ok hdr =>
      let preamble := ofLE (hdr.take 4)
      let datalen := ofLE ((hdr.drop 4).take 2)
      let readlen := DLOG_HDR_GET_READLEN preamble
      if readlen < sizeofHeader ∨ readlen - sizeofHeader ≠ datalen then some (tail_, .status .internal)
      else if DLOG_MAX_DATA < datalen then none
      else
        match ReassembleFromOffset d.data (rtail + sizeofHeader) datalen with
        | .error _ => some (tail_, .status .internal)
        | .ok data =>
          some (rtail + DLOG_HDR_GET_FIFOLEN preamble, .record (leBytes 0 4 ++ hdr.drop 4) data readlen)
  else some (rtail, .status .shouldWait)

end DLog

/-! ## The macros and the header in memory -/

theorem DLOG_ALIGN_TRUNC_eq {n : Nat} (hn : n < 2 ^ 64) : DLOG_ALIGN_TRUNC n = n / 4 * 4 := by
  unfold DLOG_ALIGN_TRUNC
  apply Nat.eq_of_testBit_eq
  intro i
  rw [Nat.testBit_and, show (2 ^ 64 - 4 : Nat) = (2 ^ 62 - 1) * 2 ^ 2 by norm_num,
    show n / 4 * 4 = n / 2 ^ 2 * 2 ^ 2 by norm_num, Nat.testBit_mul_two_pow, Nat.testBit_mul_two_pow,
    Nat.testBit_two_pow_sub_one, Nat.testBit_div_two_pow]
  by_cases h2 : 2 ≤ i
  · by_cases h64 : i < 64
    · simp [h2, Nat.sub_add_cancel h2, show i - 2 < 62 by omega]
    · -- no bit of `n` at or past the 64th
      have hbit : n.testBit i = false :=
        Nat.testBit_eq_false_of_lt (lt_of_lt_of_le hn (Nat.pow_le_pow_right (by norm_num) (by omega)))
      simp [h2, Nat.sub_add_cancel h2, hbit]
  · simp [h2]

theorem DLOG_ALIGN_eq (n : Nat) (hn : n + 3 < 2 ^ 64) : DLOG_ALIGN n = (n + 3) / 4 * 4 :=
  DLOG_ALIGN_TRUNC_eq hn

theorem and_DLOG_MASK (n : Nat) : n &&& DLOG_MASK = n % DLOG_SIZE :=
  Nat.and_two_pow_sub_one_eq_mod n 17

theorem DLOG_HDR_SET_eq {f r : Nat} (hf : f < 4096) (hr : r < 4096) : DLOG_HDR_SET f r = r * 4096 + f := by
  unfold DLOG_HDR_SET
  rw [show (0xFFF : Nat) = 2 ^ 12 - 1 by norm_num, Nat.and_two_pow_sub_one_eq_mod,
    Nat.and_two_pow_sub_one_eq_mod, Nat.mod_eq_of_lt hf, Nat.mod_eq_of_lt hr, Nat.shiftLeft_eq,
    Word.mul_two_pow_or_of_lt (by omega)]
  norm_num

theorem DLOG_HDR_GET_FIFOLEN_set {f r : Nat} (hf : f < 4096) (hr : r < 4096) :
    DLOG_HDR_GET_FIFOLEN (DLOG_HDR_SET f r) = f := by
  unfold DLOG_HDR_GET_FIFOLEN
  rw [DLOG_HDR_SET_eq hf hr, show (0xFFF : Nat) = 2 ^ 12 - 1 by norm_num, Nat.and_two_pow_sub_one_eq_mod]
  omega

theorem DLOG_HDR_GET_READLEN_set {f r : Nat} (hf : f < 4096) (hr : r < 4096) :
    DLOG_HDR_GET_READLEN (DLOG_HDR_SET f r) = r := by
  unfold DLOG_HDR_GET_READLEN
  rw [DLOG_HDR_SET_eq hf hr, show (0xFFF : Nat) = 2 ^ 12 - 1 by norm_num, Nat.and_two_pow_sub_one_eq_mod,
    Nat.shiftRight_eq_div_pow]
  omega

@[simp] theorem length_bytes (h : dlog_header) : h.bytes.length = sizeofHeader := by
  simp [dlog_header.bytes, sizeofHeader]

/-- The first word of a header in memory is its preamble. -/
theorem ofLE_take_bytes (h : dlog_header) : ofLE (h.bytes.take 4) = h.preamble % 2 ^ 32 := by
  unfold dlog_header.bytes
  simp only [List.append_assoc]
  rw [List.take_append_of_le_length (by simp), List.take_of_length_le (by simp), ofLE_leBytes]

/-- The half-word after it is its `datalen`. -/
theorem ofLE_datalen_bytes (h : dlog_header) : ofLE ((h.bytes.drop 4).take 2) = h.datalen % 2 ^ 16 := by
  unfold dlog_header.bytes
  simp only [List.append_assoc]
  rw [List.drop_append_of_le_length (by simp), List.drop_of_length_le (by simp), List.nil_append,
    List.take_append_of_le_length (by simp), List.take_of_length_le (by simp), ofLE_leBytes]

/-- Clearing the preamble of a header in memory. -/
theorem clear_preamble_bytes (h : dlog_header) : leBytes 0 4 ++ h.bytes.drop 4 = { h with preamble := 0 }.bytes := by
  unfold dlog_header.bytes
  simp only [List.append_assoc]
  rw [List.drop_append_of_le_length (by simp), List.drop_of_length_le (by simp), List.nil_append]

/-! ## Writers and readers interleaved -/

/-- The calls made on a debuglog under its lock: `Write`,
`DlogReader::Initialize` (`attach`, a new reader) and `Read` by the reader of
that index. -/
inductive Op where
  | write (severity flags : Nat) (str : List UInt8) (timestamp : Int) (pid tid : Nat)
  | attach
  | read (reader : Nat)

/-- What a call returns. -/
inductive Output where
  | written (s : Status)
  | attached
  | read (o : ReadOutcome)
  | noReader
deriving DecidableEq, Repr

/-- The debuglog with the `tail_` of each of its readers. -/
structure System where
  log : DLog
  readers : List Nat

namespace System

/-- No reader, and a new log. -/
def init : System := ⟨DLog.init, []⟩

/-- One call. `Initialize` puts the new reader at the log's tail. -/
def step (s : System) : Op → Option (System × Output)
  | .write severity flags str timestamp pid tid => do
    let (log, status) ← s.log.Write severity flags str timestamp pid tid
    some (⟨log, s.readers⟩, .written status)
  | .attach => some (⟨s.log, s.readers ++ [s.log.tail]⟩, .attached)
  | .read i =>
    match s.readers[i]? with
    | none => some (s, .noReader)
    | some tail_ => do
      let (tail_, o) ← s.log.Read tail_
      some (⟨s.log, s.readers.set i tail_⟩, .read o)

/-- A run of calls, one after another under the lock. -/
def run : System → List Op → Option (System × List Output)
  | s, [] => some (s, [])
  | s, op :: ops => do
    let (s, o) ← s.step op
    let (s, os) ← s.run ops
    some (s, o :: os)

end System

end Zircon.Debuglog
