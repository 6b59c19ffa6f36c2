import Mathlib

/-!
# `tftp_session`: the exchange of DATA and ACK

The part of `system/ulib/tftp` that moves a file once the options are
negotiated, as `tftp.c` writes it. The sending session sends a window of
DATA messages (`tx_data`, `tftp_prepare_data`) and moves its window by the
ACKs it gets (`tftp_handle_ack`); the receiving session writes each DATA
message that comes in order (`tftp_handle_data`) and acknowledges at the end
of a window (`tftp_prepare_ack`). `tftp_timeout` resends.

A message carries 16-bit block numbers, and each side reads the one it gets
against its 64-bit `block_number` through a signed 16-bit difference.

The fixed-width arithmetic is written out: `u16` for a `uint16_t` (and for
`htons` of a wider value), `u64` for `uint64_t` and `size_t`, `toInt16` for the
conversion of an `int` to `int16_t`. The file interface is the one that reads
and writes whole buffers and never fails; the file is `file`, a byte per
offset. The metrics and the timer value (`*timeout_ms`) are not modelled.
-/

namespace Zircon.Tftp

/-- `tftp_state`. -/
inductive TftpState where
  | none
  | reqSent
  | reqReceived
  | firstData
  | sendingData
  | receivingData
  | error
  | completed
deriving DecidableEq, Repr

/-- `tftp_file_direction`. -/
inductive Direction where
  | sendFile
  | recvFile
deriving DecidableEq, Repr

/-- The `tftp_status` values the modelled functions return. -/
inductive TftpStatus where
  | noError
  | transferCompleted
  | errInternal
  | errBufferTooSmall
  | errBadState
  | errTimedOut
  | errShouldWait
deriving DecidableEq, Repr

/-- `ret < 0`. -/
def TftpStatus.isError : TftpStatus → Bool
  | .errInternal => true
  | .errBufferTooSmall => true
  | .errBadState => true
  | .errTimedOut => true
  | .errShouldWait => true
  | _ => false

/-- `OPCODE_DATA`. -/
def OPCODE_DATA : Nat := 3
/-- `OPCODE_ACK`. -/
def OPCODE_ACK : Nat := 4
/-- `OPCODE_ERROR`. -/
def OPCODE_ERROR : Nat := 5
/-- `TFTP_ERR_CODE_UNDEF`. -/
def TFTP_ERR_CODE_UNDEF : Nat := 0

/-- `DEFAULT_MAX_TIMEOUTS`, which `tftp_init` sets. -/
def DEFAULT_MAX_TIMEOUTS : Nat := 5
/-- `DEFAULT_USE_OPCODE_PREFIX`, which `tftp_init` sets. -/
def DEFAULT_USE_OPCODE_PREFIX : Bool := true

/-- A message by its fields: the 16-bit opcode (with the opcode prefix in its
high byte), the 16-bit block number of a DATA or ACK (the error code of an
ERROR), and the bytes after them. -/
structure Msg where
  opcode : Nat
  block : Nat
  payload : List UInt8
deriving DecidableEq, Repr

/-- The fields of `tftp_session` that the exchange reads and writes.
`session->offset` is read only by `tx_data`, right after it sets it, and is a
local there. -/
structure Session where
  direction : Direction
  state : TftpState
  consecutiveTimeouts : Nat
  opcodePrefix : Nat
  blockNumber : Nat
  windowIndex : Nat
  maxTimeouts : Nat
  useOpcodePrefix : Bool
  fileSize : Nat
  windowSize : Nat
  blockSize : Nat
deriving DecidableEq, Repr

/-! ## Fixed-width arithmetic -/

/-- A value stored in a `uint16_t`, or passed through `htons`. -/
def u16 (x : Nat) : Nat := x % 2 ^ 16

/-- `uint64_t` and `size_t` arithmetic. -/
def u64 (x : Nat) : Nat := x % 2 ^ 64

/-- An `int` converted to `int16_t`. -/
def toInt16 (x : Int) : Int := if x % 2 ^ 16 < 2 ^ 15 then x % 2 ^ 16 else x % 2 ^ 16 - 2 ^ 16

/-- The next block in 16 bits is one past the current one, also where the
16-bit numbers wrap. -/
theorem toInt16_u16_succ (n : Nat) : toInt16 ((u16 (n + 1) : Int) - (u16 n : Int)) = 1 := by
  simp only [toInt16, u16]
  split_ifs <;> omega


/-! ## Messages -/

variable (file : Nat → UInt8)

/-- `OPCODE(session, msg, value)`. -/
def opcodeOf (s : Session) (value : Nat) : Nat :=
  if s.useOpcodePrefix then (value &&& 0xff) ||| (s.opcodePrefix <<< 8) else value

/-- `tftp_process_msg` reads the opcode a session makes as the value it was
made from, whatever the opcode prefix. -/
theorem opcodeOf_decode (s : Session) {value : Nat} (hv : value < 2 ^ 8) :
    u16 (opcodeOf s value) &&& 0xff = value := by
  have h255 : (0xff : Nat) = 2 ^ 8 - 1 := rfl
  unfold opcodeOf u16
  split
  · rw [h255, Nat.and_two_pow_sub_one_eq_mod, Nat.and_two_pow_sub_one_eq_mod, Nat.mod_mod_of_dvd _ (by decide),
      Nat.or_mod_two_pow, Nat.shiftLeft_eq, Nat.mul_mod_left, Nat.or_zero, Nat.mod_mod, Nat.mod_eq_of_lt hv]
  · rw [h255, Nat.and_two_pow_sub_one_eq_mod, Nat.mod_mod_of_dvd _ (by decide), Nat.mod_eq_of_lt hv]

/-- `if (session->use_opcode_prefix) session->opcode_prefix++`, which each
side does where it suspects a lost message, in `uint8_t`. -/
def nextPrefix (s : Session) : Nat :=
  if s.useOpcodePrefix then (s.opcodePrefix + 1) % 2 ^ 8 else s.opcodePrefix

/-- The bytes `read` gives from `off` on. -/
def readFile (off len : Nat) : List UInt8 := (List.range len).map fun i => file (off + i)

/-- `set_error`: an ERROR message with the code and the text, and the
session in `ERROR`. The text is taken whole (the buffers hold it). -/
def setError (s : Session) (errCode : Nat) (errMsg : String) : Session × Msg :=
  ({ s with state := .error }, ⟨opcodeOf s OPCODE_ERROR, errCode, errMsg.toUTF8.data.toList ++ [0]⟩)

/-- `tftp_prepare_ack`. -/
def tftpPrepareAck (s : Session) : Session × Msg :=
  ({ s with windowIndex := 0 }, ⟨opcodeOf s OPCODE_ACK, u16 s.blockNumber, []⟩)

/-- `tx_data`: the next DATA message of the window, unless the window has
passed the end of the file. -/
def txData (s : Session) : Session × Option Msg :=
  let offset := u64 ((s.blockNumber + s.windowIndex) * s.blockSize)
  if offset ≤ s.fileSize then
    let windowIndex := (s.windowIndex + 1) % 2 ^ 32
    let len := min (s.fileSize - offset) s.blockSize
    ({ s with windowIndex := windowIndex },
      some ⟨opcodeOf s OPCODE_DATA, u16 (s.blockNumber + windowIndex), readFile file offset len⟩)
  else (s, none)

/-- The DATA message `tx_data` makes for the block at index `j` of the file,
which it numbers `j + 1`. -/
def blockMsg (s : Session) (j : Nat) : Msg :=
  ⟨opcodeOf s OPCODE_DATA, u16 (j + 1),
    readFile file (u64 (j * s.blockSize)) (min (s.fileSize - u64 (j * s.blockSize)) s.blockSize)⟩

/-- Within the file, `tx_data` sends the block at the end of the window and
widens it. -/
theorem txData_of_le {s : Session} (hoff : u64 ((s.blockNumber + s.windowIndex) * s.blockSize) ≤ s.fileSize)
    (hwi : s.windowIndex + 1 < 2 ^ 32) :
    txData file s =
      ({ s with windowIndex := s.windowIndex + 1 }, some (blockMsg file s (s.blockNumber + s.windowIndex))) := by
  simp only [txData, if_pos hoff, Nat.mod_eq_of_lt hwi, blockMsg, Nat.add_assoc]

/-- `tx_data` keeps the negotiated block and window sizes. -/
theorem txData_sizes (s : Session) :
    (txData file s).1.blockSize = s.blockSize ∧ (txData file s).1.windowSize = s.windowSize := by
  dsimp only [txData]
  split <;> exact ⟨rfl, rfl⟩

/-- `tftp_prepare_data`. -/
def tftpPrepareData (s : Session) : Session × TftpStatus × Option Msg :=
  if u64 ((s.blockNumber + s.windowIndex) * s.blockSize) > s.fileSize then (s, .transferCompleted, none)
  else ((txData file s).1, .noError, (txData file s).2)

theorem tftpPrepareData_of_le {s : Session}
    (hoff : u64 ((s.blockNumber + s.windowIndex) * s.blockSize) ≤ s.fileSize) (hwi : s.windowIndex + 1 < 2 ^ 32) :
    tftpPrepareData file s =
      ({ s with windowIndex := s.windowIndex + 1 }, .noError, some (blockMsg file s (s.blockNumber + s.windowIndex))) := by
  rw [tftpPrepareData, if_neg (Nat.not_lt.mpr hoff), txData_of_le file hoff hwi]

/-- `tftp_session_has_pending`. -/
def tftpSessionHasPending (s : Session) : Bool :=
  s.direction == .sendFile && decide (0 < s.windowIndex) && decide (s.windowIndex < s.windowSize) &&
    decide (u64 ((s.blockNumber + s.windowIndex) * s.blockSize) ≤ s.fileSize)

/-! ## Handling a message -/

/-- The part of `tftp_handle_data` that reads the block number: a block in
order is written at the offset of the next block and counted; a block ahead
of it ends the window. The file interface writes the whole payload at once,
and nothing when it is empty. -/
def dataStep (s : Session) (m : Msg) : Session × List (Nat × List UInt8) :=
  let blockDelta := toInt16 ((u16 m.block : Int) - (u16 s.blockNumber : Int))
  if blockDelta = 1 then
    ({ s with blockNumber := u64 (s.blockNumber + 1), windowIndex := (s.windowIndex + 1) % 2 ^ 32 },
      if m.payload = [] then [] else [(u64 (s.blockNumber * s.blockSize), m.payload)])
  else if blockDelta > 1 then
    ({ s with windowIndex := s.windowSize, opcodePrefix := nextPrefix s }, [])
  else (s, [])

/-- `tftp_handle_data`: the session, the status, the response and the
writes it made. -/
def tftpHandleData (s : Session) (m : Msg) : Session × TftpStatus × Option Msg × List (Nat × List UInt8) :=
  if s.direction = .recvFile ∧ (s.state = .reqReceived ∨ s.state = .firstData ∨ s.state = .receivingData) then
    let r := dataStep { s with state := .receivingData } m
    let s := r.1
    -- an ACK at the end of the window or of the file
    if s.windowIndex = s.windowSize ∨ u64 (s.blockNumber * s.blockSize) > s.fileSize then
      ((tftpPrepareAck s).1,
        if u64 (s.blockNumber * s.blockSize) > s.fileSize then .transferCompleted else .noError,
        some (tftpPrepareAck s).2, r.2)
    else (s, .noError, none, r.2)
  else
    let e := setError s TFTP_ERR_CODE_UNDEF "internal error: bad state"
    (e.1, .errInternal, some e.2, [])

section HandleData

variable {s : Session} {m : Msg} (hdir : s.direction = .recvFile)
  (hstate : s.state = .reqReceived ∨ s.state = .firstData ∨ s.state = .receivingData)
  (hdelta : toInt16 ((u16 m.block : Int) - (u16 s.blockNumber : Int)) = 1)
  (hbn : s.blockNumber + 1 < 2 ^ 64) (hend : (s.blockNumber + 1) * s.blockSize ≤ s.fileSize)
  (hws : s.windowSize < 2 ^ 32) (hfs : s.fileSize < 2 ^ 64)
include hdir hstate hdelta hbn hend hws hfs

/-- The block after the last one received is written at its own offset and
counted; within the window nothing is sent. -/
theorem tftpHandleData_inOrder (hwi : s.windowIndex + 1 < s.windowSize) :
    tftpHandleData s m =
      ({ s with state := .receivingData, blockNumber := s.blockNumber + 1, windowIndex := s.windowIndex + 1 },
        .noError, none, if m.payload = [] then [] else [(u64 (s.blockNumber * s.blockSize), m.payload)]) := by
  have hwi32 : (s.windowIndex + 1) % 2 ^ 32 = s.windowIndex + 1 := Nat.mod_eq_of_lt (by omega)
  have hend64 : ¬u64 ((s.blockNumber + 1) * s.blockSize) > s.fileSize := by
    rw [u64, Nat.mod_eq_of_lt (by omega)]
    omega
  have hbn64 : u64 (s.blockNumber + 1) = s.blockNumber + 1 := Nat.mod_eq_of_lt hbn
  simp only [tftpHandleData, dataStep, hdir, hstate, hdelta, if_true, true_and, hwi32, hbn64, hend64, or_false,
    Nat.ne_of_lt hwi, if_false]

/-- The block that fills the window is written the same way, and ends the
window with an ACK of it. -/
theorem tftpHandleData_inOrder_ack (hwi : s.windowIndex + 1 = s.windowSize) :
    tftpHandleData s m =
      ({ s with state := .receivingData, blockNumber := s.blockNumber + 1, windowIndex := 0 },
        .noError, some ⟨opcodeOf s OPCODE_ACK, u16 (s.blockNumber + 1), []⟩,
        if m.payload = [] then [] else [(u64 (s.blockNumber * s.blockSize), m.payload)]) := by
  have hwi32 : (s.windowIndex + 1) % 2 ^ 32 = s.windowSize := by rw [hwi, Nat.mod_eq_of_lt hws]
  have hend64 : ¬u64 ((s.blockNumber + 1) * s.blockSize) > s.fileSize := by
    rw [u64, Nat.mod_eq_of_lt (by omega)]
    omega
  have hbn64 : u64 (s.blockNumber + 1) = s.blockNumber + 1 := Nat.mod_eq_of_lt hbn
  simp only [tftpHandleData, dataStep, hdir, hstate, hdelta, if_true, true_and, hwi32, hbn64, hend64, or_false,
    tftpPrepareAck]
  rfl

end HandleData

/-- So does `tftp_handle_data`. -/
theorem tftpHandleData_sizes (s : Session) (m : Msg) :
    (tftpHandleData s m).1.blockSize = s.blockSize ∧ (tftpHandleData s m).1.windowSize = s.windowSize := by
  dsimp only [tftpHandleData, dataStep]
  split_ifs <;> exact ⟨rfl, rfl⟩

/-- `tftp_handle_data` writes at most once: the whole payload, when there is
one, at the offset of the block after the last one received. -/
theorem tftpHandleData_writes {s : Session} {m : Msg} {w : Nat × List UInt8}
    (hw : w ∈ (tftpHandleData s m).2.2.2) : w = (u64 (s.blockNumber * s.blockSize), m.payload) ∧ m.payload ≠ [] := by
  dsimp only [tftpHandleData, dataStep] at hw
  split_ifs at hw <;> simp_all

/-- `tftp_handle_ack`. -/
def tftpHandleAck (s : Session) (m : Msg) : Session × TftpStatus × Option Msg :=
  if s.direction ≠ .sendFile ∨ (s.state ≠ .firstData ∧ s.state ≠ .reqReceived ∧ s.state ≠ .sendingData) then
    let e := setError s TFTP_ERR_CODE_UNDEF "internal error: bad state"
    (e.1, .errInternal, some e.2)
  else
    let blockOffset := toInt16 ((u16 m.block : Int) - (u16 s.blockNumber : Int))
    -- a duplicate ACK is not answered
    if s.state ≠ .firstData ∧ s.state ≠ .reqReceived ∧ blockOffset = 0 then (s, .noError, none)
    else
      let opcodePrefix := if blockOffset < s.windowSize then nextPrefix s else s.opcodePrefix
      -- the window moves by the signed offset, in 64 bits
      let s := { s with
        opcodePrefix := opcodePrefix
        state := .sendingData
        blockNumber := ((s.blockNumber + blockOffset) % 2 ^ 64).toNat
        windowIndex := 0 }
      if u64 (s.blockNumber * s.blockSize) > s.fileSize then (s, .transferCompleted, none)
      else ((txData file s).1, .noError, (txData file s).2)

/-- An ACK that is not a duplicate moves the window to the block it names,
read through the signed 16-bit difference `d`, and sends the first block of
the new window. -/
theorem tftpHandleAck_move {s : Session} {m : Msg} {d : Int} (hdir : s.direction = .sendFile)
    (hstate : s.state = .firstData ∨ s.state = .reqReceived ∨ s.state = .sendingData)
    (hd : toInt16 ((u16 m.block : Int) - (u16 s.blockNumber : Int)) = d)
    (hsas : s.state = .firstData ∨ s.state = .reqReceived ∨ d ≠ 0)
    (hend : u64 (((s.blockNumber + d) % 2 ^ 64).toNat * s.blockSize) ≤ s.fileSize) :
    tftpHandleAck file s m =
      let s' := { s with
        opcodePrefix := if d < s.windowSize then nextPrefix s else s.opcodePrefix
        state := .sendingData
        blockNumber := ((s.blockNumber + d) % 2 ^ 64).toNat
        windowIndex := 0 }
      ({ s' with windowIndex := 1 }, .noError, some (blockMsg file s' s'.blockNumber)) := by
  have hok : ¬(s.direction ≠ .sendFile ∨ (s.state ≠ .firstData ∧ s.state ≠ .reqReceived ∧ s.state ≠ .sendingData)) := by
    rw [hdir]
    rcases hstate with h | h | h <;> simp [h]
  have hnsas : ¬(s.state ≠ .firstData ∧ s.state ≠ .reqReceived ∧ d = 0) := by
    rcases hsas with h | h | h <;> simp [h]
  have hnend : ¬u64 (((s.blockNumber + d) % 2 ^ 64).toNat * s.blockSize) > s.fileSize := Nat.not_lt.mpr hend
  simp only [tftpHandleAck, hd, if_neg hok, if_neg hnsas, if_neg hnend]
  rw [txData_of_le]
  · rfl
  · simpa using hend
  · exact Nat.one_lt_two_pow (by decide)

/-- So does `tftp_handle_ack`. -/
theorem tftpHandleAck_sizes (s : Session) (m : Msg) :
    (tftpHandleAck file s m).1.blockSize = s.blockSize ∧ (tftpHandleAck file s m).1.windowSize = s.windowSize := by
  dsimp only [tftpHandleAck]
  -- the window moves by `txData`, which keeps them too
  split_ifs <;> first | exact ⟨rfl, rfl⟩ | exact txData_sizes file _

/-- `tftp_process_msg` on a DATA or ACK message, with the writes it made; an
unknown opcode puts the session in `ERROR`. The request, OACK and ERROR
handlers are outside the exchange modelled here (`none`). -/
def tftpProcessMsg (s : Session) (m : Msg) : Option (Session × TftpStatus × Option Msg × List (Nat × List UInt8)) :=
  let s := { s with consecutiveTimeouts := 0 }
  match u16 m.opcode &&& 0xff with
  | 3 => some (tftpHandleData s m)
  | 4 => some ((tftpHandleAck file s m).1, (tftpHandleAck file s m).2.1, (tftpHandleAck file s m).2.2, [])
  | 1 | 2 | 5 | 6 => none
  | _ => some ({ s with state := .error }, .errInternal, none, [])

theorem tftpProcessMsg_data {s : Session} {m : Msg} (hop : u16 m.opcode &&& 0xff = OPCODE_DATA) :
    tftpProcessMsg file s m = some (tftpHandleData { s with consecutiveTimeouts := 0 } m) := by
  simp only [tftpProcessMsg, hop]
  rfl

theorem tftpProcessMsg_ack {s : Session} {m : Msg} (hop : u16 m.opcode &&& 0xff = OPCODE_ACK) :
    tftpProcessMsg file s m =
      some ((tftpHandleAck file { s with consecutiveTimeouts := 0 } m).1,
        (tftpHandleAck file { s with consecutiveTimeouts := 0 } m).2.1,
        (tftpHandleAck file { s with consecutiveTimeouts := 0 } m).2.2, []) := by
  simp only [tftpProcessMsg, hop]
  rfl

/-- `tftp_timeout`, given the message the caller's buffer holds, which it
resends while the request is unanswered. -/
def tftpTimeout (s : Session) (prev : Option Msg) : Session × TftpStatus × Option Msg :=
  let s := { s with consecutiveTimeouts := (s.consecutiveTimeouts + 1) % 2 ^ 32 }
  if s.consecutiveTimeouts > s.maxTimeouts then (s, .errTimedOut, none)
  else
    let s := { s with opcodePrefix := nextPrefix s }
    if s.state = .reqSent ∨ s.state = .reqReceived then (s, .noError, prev)
    else if s.direction = .sendFile then tftpPrepareData file { s with windowIndex := 0 }
    else ((tftpPrepareAck s).1, .noError, some (tftpPrepareAck s).2)

/-- A timeout of a receiving session past its request acknowledges again the
last block it received. -/
theorem tftpTimeout_recv {s : Session} {prev : Option Msg} (hdir : s.direction = .recvFile)
    (hstate : s.state ≠ .reqSent ∧ s.state ≠ .reqReceived) (hct : s.consecutiveTimeouts + 1 ≤ s.maxTimeouts)
    (hmt : s.maxTimeouts < 2 ^ 32) :
    tftpTimeout file s prev =
      ({ s with consecutiveTimeouts := s.consecutiveTimeouts + 1, opcodePrefix := nextPrefix s, windowIndex := 0 },
        .noError, some ⟨opcodeOf { s with opcodePrefix := nextPrefix s } OPCODE_ACK, u16 s.blockNumber, []⟩) := by
  have hct32 : (s.consecutiveTimeouts + 1) % 2 ^ 32 = s.consecutiveTimeouts + 1 := Nat.mod_eq_of_lt (by omega)
  simp only [tftpTimeout, hct32, if_neg (Nat.not_lt.mpr hct), hdir, hstate, or_self, if_false, tftpPrepareAck]
  rfl

end Zircon.Tftp
