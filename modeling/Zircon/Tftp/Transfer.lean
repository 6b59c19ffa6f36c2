import Mathlib
import Zircon.Tftp.Session

/-!
# A transfer between two sessions

Each side of a transfer runs `tftp_msg_loop`. A pass of the loop either
receives a message and hands it to `tftp_process_msg`, or finds `recv` timed
out and calls `tftp_prepare_data` (while the sending session has a window
pending, `recv` does not wait) or `tftp_timeout`; it sends the response it
gets, and returns on an error and when the transfer is complete. A side with
its inbound channel is a `LinkStep`; the channel loses or repeats messages, and
those it keeps arrive in order.

`World.start` is a write request just answered: the receiving session has
handled the WRQ and sent its OACK, and the sending session has handled the
OACK and sent the first block.
-/

namespace Zircon.Tftp

open Relation

/-- A side of the transfer: its session, what its outgoing buffer would send
(`tftp_timeout` resends it while the request is unanswered), whether its
`tftp_msg_loop` still runs, and the writes its file interface was given. -/
structure Party where
  session : Session
  outgoing : Option Msg
  running : Bool
  written : List (Nat × List UInt8)

/-- The two sides and the channels into each. -/
structure World where
  sender : Party
  receiver : Party
  toReceiver : List Msg
  toSender : List Msg

/-- A channel after its side sends `out`. -/
def enqueue (q : List Msg) : Option Msg → List Msg
  | none => q
  | some m => q ++ [m]

variable (file : Nat → UInt8)

/-- A pass of `tftp_msg_loop` in which `recv` times out, with the message it
sends. -/
def Party.onTimeout (p : Party) : Option (Party × Option Msg) :=
  if tftpSessionHasPending p.session then
    let r := tftpPrepareData file p.session
    some ({ p with session := r.1, outgoing := r.2.2, running := !r.2.1.isError }, r.2.2)
  else if p.session.state ≠ .none then
    let r := tftpTimeout file p.session p.outgoing
    -- the loop returns on an error before it sends
    if r.2.1.isError then some ({ p with session := r.1, running := false }, none)
    else some ({ p with session := r.1, outgoing := r.2.2 }, r.2.2)
  else some (p, none)

/-- A pass of `tftp_msg_loop` that receives `m`, with the message it sends;
the loop returns on an error and when the transfer is complete. -/
def Party.onMsg (p : Party) (m : Msg) : Option (Party × Option Msg) :=
  (tftpProcessMsg file p.session m).map fun r =>
    (⟨r.1, r.2.2.1, !(r.2.1.isError || decide (r.2.1 = .transferCompleted)), p.written ++ r.2.2.2⟩, r.2.2.1)

/-- A side and the channel into it: a pass of the side's loop, or the channel
losing or repeating a message. The last argument is what the side sends. -/
inductive LinkStep : Party → List Msg → Party → List Msg → Option Msg → Prop
  | timeout {p p' : Party} {q : List Msg} {out : Option Msg} :
      p.running = true → p.onTimeout file = some (p', out) → LinkStep p q p' q out
  | recv {p p' : Party} {m : Msg} {q : List Msg} {out : Option Msg} :
      p.running = true → p.onMsg file m = some (p', out) → LinkStep p (m :: q) p' q out
  | drop {p : Party} {q₁ q₂ : List Msg} {m : Msg} : LinkStep p (q₁ ++ m :: q₂) p (q₁ ++ q₂) none
  | duplicate {p : Party} {q₁ q₂ : List Msg} {m : Msg} :
      LinkStep p (q₁ ++ m :: q₂) p (q₁ ++ m :: m :: q₂) none

/-- A step of either side, whose message goes into the other side's channel. -/
inductive Step : World → World → Prop
  | sender {w : World} {p : Party} {q : List Msg} {out : Option Msg} :
      LinkStep file w.sender w.toSender p q out → Step w ⟨p, w.receiver, enqueue w.toReceiver out, q⟩
  | receiver {w : World} {p : Party} {q : List Msg} {out : Option Msg} :
      LinkStep file w.receiver w.toReceiver p q out → Step w ⟨w.sender, p, q, enqueue w.toSender out⟩

/-- The worlds a transfer reaches from `w₀`. -/
abbrev Reachable : World → World → Prop := ReflTransGen (Step file)

/-! ## The start of a transfer -/

/-- The sizes `tftp_handle_request` and `tftp_handle_oack` accept. -/
def OptionsAccepted (blockSize windowSize : Nat) : Prop :=
  8 ≤ blockSize ∧ blockSize ≤ 65464 ∧ 1 ≤ windowSize ∧ windowSize ≤ 65535

instance (blockSize windowSize : Nat) : Decidable (OptionsAccepted blockSize windowSize) :=
  inferInstanceAs (Decidable (_ ∧ _))

/-- A session as `tftp_init` makes it, once a request has set its direction,
state and sizes and the counters are reset: no timeout, no opcode prefix,
the window at block `0`. -/
def negotiated (direction : Direction) (state : TftpState) (fileSize blockSize windowSize : Nat) : Session :=
  { direction, state, consecutiveTimeouts := 0, opcodePrefix := 0, blockNumber := 0, windowIndex := 0,
    maxTimeouts := DEFAULT_MAX_TIMEOUTS, useOpcodePrefix := DEFAULT_USE_OPCODE_PREFIX, fileSize, windowSize,
    blockSize }

/-- A write request just answered: the receiving session in `REQ_RECEIVED`
with its OACK `oack` in its buffer, and the sending session, which has
handled the OACK, in `FIRST_DATA` with the first block sent by `tx_data`. -/
def World.start (fileSize blockSize windowSize : Nat) (oack : Msg) : World :=
  let s := negotiated .sendFile .firstData fileSize blockSize windowSize
  ⟨⟨(txData file s).1, (txData file s).2, true, []⟩,
    ⟨negotiated .recvFile .reqReceived fileSize blockSize windowSize, some oack, true, []⟩,
    enqueue [] (txData file s).2, []⟩

theorem World.start_eq (fileSize blockSize windowSize : Nat) (oack : Msg) :
    World.start file fileSize blockSize windowSize oack =
      ⟨⟨{ negotiated .sendFile .firstData fileSize blockSize windowSize with windowIndex := 1 },
          some (blockMsg file (negotiated .sendFile .firstData fileSize blockSize windowSize) 0), true, []⟩,
        ⟨negotiated .recvFile .reqReceived fileSize blockSize windowSize, some oack, true, []⟩,
        [blockMsg file (negotiated .sendFile .firstData fileSize blockSize windowSize) 0], []⟩ := by
  simp only [World.start]
  rw [txData_of_le]
  · rfl
  · simp [negotiated, u64]
  · exact Nat.one_lt_two_pow (by decide)

/-! ## Windows of blocks -/

/-- The DATA messages of the `n` blocks from the index `j` on. -/
def blockMsgs (s : Session) (j n : Nat) : List Msg := (List.range n).map fun i => blockMsg file s (j + i)

/-- The writes a receiving session with block size `blockSize` makes of
those blocks, each at the offset of its index. -/
def blockWrites (s : Session) (blockSize j n : Nat) : List (Nat × List UInt8) :=
  (List.range n).map fun i => (u64 ((j + i) * blockSize), (blockMsg file s (j + i)).payload)

/-- The messages of a window do not depend on where the window stands. -/
theorem blockMsgs_windowIndex (s : Session) (k : Nat) :
    blockMsgs file { s with windowIndex := k } = blockMsgs file s := rfl

theorem blockMsgs_succ (s : Session) (j n : Nat) :
    blockMsgs file s j (n + 1) = blockMsgs file s j n ++ [blockMsg file s (j + n)] := by
  simp [blockMsgs, List.range_succ]

theorem blockMsgs_add (s : Session) (j a b : Nat) :
    blockMsgs file s j (a + b) = blockMsgs file s j a ++ blockMsgs file s (j + a) b := by
  simp [blockMsgs, List.range_add, Nat.add_assoc]

theorem blockMsgs_cons (s : Session) (j n : Nat) :
    blockMsg file s j :: blockMsgs file s (j + 1) n = blockMsgs file s j (n + 1) := by
  simp [blockMsgs, List.range_succ_eq_map, Nat.add_assoc, Nat.add_comm 1]

theorem blockWrites_succ (s : Session) (blockSize j n : Nat) :
    blockWrites file s blockSize j (n + 1) =
      blockWrites file s blockSize j n ++ [(u64 ((j + n) * blockSize), (blockMsg file s (j + n)).payload)] := by
  simp [blockWrites, List.range_succ]

/-- A block that ends within the file is not empty. -/
theorem blockMsg_payload_ne_nil {s : Session} {j : Nat} (hbs : 0 < s.blockSize)
    (hend : (j + 1) * s.blockSize ≤ s.fileSize) (hfs : s.fileSize < 2 ^ 64) : (blockMsg file s j).payload ≠ [] := by
  have hoff : u64 (j * s.blockSize) = j * s.blockSize := Nat.mod_eq_of_lt (by rw [Nat.add_mul] at hend; omega)
  have hlen : 0 < min (s.fileSize - j * s.blockSize) s.blockSize := by
    rw [Nat.add_mul] at hend
    omega
  simp only [blockMsg, readFile, hoff, ne_eq, List.map_eq_nil_iff, List.range_eq_nil]
  omega

/-! ## Steps -/

section Steps

variable {file}

/-- A sending side with a window pending sends its next block. -/
theorem step_prepareData {s : Session} {out : Option Msg} {wr : List (Nat × List UInt8)} {r : Party}
    {qR qS : List Msg} (hdir : s.direction = .sendFile) (hwi : 0 < s.windowIndex) (hwin : s.windowIndex < s.windowSize)
    (hws : s.windowSize < 2 ^ 32) (hend : (s.blockNumber + s.windowIndex) * s.blockSize ≤ s.fileSize)
    (hfs : s.fileSize < 2 ^ 64) :
    Step file ⟨⟨s, out, true, wr⟩, r, qR, qS⟩
      ⟨⟨{ s with windowIndex := s.windowIndex + 1 }, some (blockMsg file s (s.blockNumber + s.windowIndex)), true, wr⟩,
        r, qR ++ [blockMsg file s (s.blockNumber + s.windowIndex)], qS⟩ := by
  have hoff : u64 ((s.blockNumber + s.windowIndex) * s.blockSize) ≤ s.fileSize := by
    rw [u64, Nat.mod_eq_of_lt (by omega)]
    exact hend
  have hpend : tftpSessionHasPending s = true := by
    simp [tftpSessionHasPending, hdir, hwi, hwin, hoff]
  have hp : Party.onTimeout file ⟨s, out, true, wr⟩ =
      some (⟨{ s with windowIndex := s.windowIndex + 1 }, some (blockMsg file s (s.blockNumber + s.windowIndex)), true, wr⟩,
        some (blockMsg file s (s.blockNumber + s.windowIndex))) := by
    simp only [Party.onTimeout, hpend, if_true, tftpPrepareData_of_le file hoff (by omega)]
    rfl
  exact Step.sender (w := ⟨⟨s, out, true, wr⟩, r, qR, qS⟩) (LinkStep.timeout rfl hp)

section Receive

variable {p : Party} {r : Session} {out : Option Msg} {wr : List (Nat × List UInt8)} {m : Msg} {qR qS : List Msg}
  (hdir : r.direction = .recvFile)
  (hstate : r.state = .reqReceived ∨ r.state = .firstData ∨ r.state = .receivingData)
  (hop : u16 m.opcode &&& 0xff = OPCODE_DATA)
  (hdelta : toInt16 ((u16 m.block : Int) - (u16 r.blockNumber : Int)) = 1)
  (hbn : r.blockNumber + 1 < 2 ^ 64) (hend : (r.blockNumber + 1) * r.blockSize ≤ r.fileSize)
  (hws : r.windowSize < 2 ^ 32) (hfs : r.fileSize < 2 ^ 64) (hpay : m.payload ≠ [])
include hdir hstate hop hdelta hbn hend hws hfs hpay

/-- A receiving side takes the block after the last one it received and
writes it at that block's offset. -/
theorem step_handleData (hwi : r.windowIndex + 1 < r.windowSize) :
    Step file ⟨p, ⟨r, out, true, wr⟩, m :: qR, qS⟩
      ⟨p, ⟨{ r with
              state := .receivingData, consecutiveTimeouts := 0, blockNumber := r.blockNumber + 1,
              windowIndex := r.windowIndex + 1 },
            none, true, wr ++ [(u64 (r.blockNumber * r.blockSize), m.payload)]⟩,
        qR, qS⟩ := by
  have hp : Party.onMsg file ⟨r, out, true, wr⟩ m =
      some (⟨{ r with
              state := .receivingData, consecutiveTimeouts := 0, blockNumber := r.blockNumber + 1,
              windowIndex := r.windowIndex + 1 },
            none, true, wr ++ [(u64 (r.blockNumber * r.blockSize), m.payload)]⟩,
        none) := by
    rw [Party.onMsg, tftpProcessMsg_data file hop,
      tftpHandleData_inOrder (s := { r with consecutiveTimeouts := 0 }) hdir hstate hdelta hbn hend hws hfs hwi]
    simp [hpay, TftpStatus.isError]
  exact Step.receiver (w := ⟨p, ⟨r, out, true, wr⟩, m :: qR, qS⟩) (LinkStep.recv rfl hp)

/-- The block that fills the window is taken the same way and acknowledged. -/
theorem step_handleData_ack (hwi : r.windowIndex + 1 = r.windowSize) :
    Step file ⟨p, ⟨r, out, true, wr⟩, m :: qR, qS⟩
      ⟨p, ⟨{ r with
              state := .receivingData, consecutiveTimeouts := 0, blockNumber := r.blockNumber + 1, windowIndex := 0 },
            some ⟨opcodeOf r OPCODE_ACK, u16 (r.blockNumber + 1), []⟩, true,
            wr ++ [(u64 (r.blockNumber * r.blockSize), m.payload)]⟩,
        qR, qS ++ [⟨opcodeOf r OPCODE_ACK, u16 (r.blockNumber + 1), []⟩]⟩ := by
  have hp : Party.onMsg file ⟨r, out, true, wr⟩ m =
      some (⟨{ r with
              state := .receivingData, consecutiveTimeouts := 0, blockNumber := r.blockNumber + 1, windowIndex := 0 },
            some ⟨opcodeOf r OPCODE_ACK, u16 (r.blockNumber + 1), []⟩, true,
            wr ++ [(u64 (r.blockNumber * r.blockSize), m.payload)]⟩,
        some ⟨opcodeOf r OPCODE_ACK, u16 (r.blockNumber + 1), []⟩) := by
    rw [Party.onMsg, tftpProcessMsg_data file hop,
      tftpHandleData_inOrder_ack (s := { r with consecutiveTimeouts := 0 }) hdir hstate hdelta hbn hend hws hfs hwi]
    simp [hpay, TftpStatus.isError]
    rfl
  exact Step.receiver (w := ⟨p, ⟨r, out, true, wr⟩, m :: qR, qS⟩) (LinkStep.recv rfl hp)

end Receive

section ReceiveBlock

variable {p : Party} {r s : Session} {out : Option Msg} {wr : List (Nat × List UInt8)} {k : Nat} {qR qS : List Msg}
  (hdir : r.direction = .recvFile)
  (hstate : r.state = .reqReceived ∨ r.state = .firstData ∨ r.state = .receivingData)
  (hdelta : toInt16 ((u16 (k + 1) : Int) - (u16 r.blockNumber : Int)) = 1)
  (hbs : s.blockSize = r.blockSize) (hfsz : s.fileSize = r.fileSize) (hbs0 : 0 < r.blockSize)
  (hk : (k + 1) * r.blockSize ≤ r.fileSize)
  (hbn : r.blockNumber + 1 < 2 ^ 64) (hend : (r.blockNumber + 1) * r.blockSize ≤ r.fileSize)
  (hws : r.windowSize < 2 ^ 32) (hfs : r.fileSize < 2 ^ 64)
include hdir hstate hdelta hbs hfsz hbs0 hk hbn hend hws hfs

/-- The block with index `k` that `tx_data` sent is taken by a receiving side
whose last block comes right before it in 16 bits: it is written at the offset
of the receiver's next block, whatever `k` is. -/
theorem step_handleBlock (hwi : r.windowIndex + 1 < r.windowSize) :
    Step file ⟨p, ⟨r, out, true, wr⟩, blockMsg file s k :: qR, qS⟩
      ⟨p, ⟨{ r with
              state := .receivingData, consecutiveTimeouts := 0, blockNumber := r.blockNumber + 1,
              windowIndex := r.windowIndex + 1 },
            none, true, wr ++ [(u64 (r.blockNumber * r.blockSize), (blockMsg file s k).payload)]⟩,
        qR, qS⟩ :=
  step_handleData hdir hstate (opcodeOf_decode s (by decide)) (by simpa only [blockMsg, u16, Nat.mod_mod] using hdelta)
    hbn hend hws hfs (blockMsg_payload_ne_nil file (by omega) (by rw [hbs, hfsz]; exact hk) (by omega)) hwi

theorem step_handleBlock_ack (hwi : r.windowIndex + 1 = r.windowSize) :
    Step file ⟨p, ⟨r, out, true, wr⟩, blockMsg file s k :: qR, qS⟩
      ⟨p, ⟨{ r with
              state := .receivingData, consecutiveTimeouts := 0, blockNumber := r.blockNumber + 1, windowIndex := 0 },
            some ⟨opcodeOf r OPCODE_ACK, u16 (r.blockNumber + 1), []⟩, true,
            wr ++ [(u64 (r.blockNumber * r.blockSize), (blockMsg file s k).payload)]⟩,
        qR, qS ++ [⟨opcodeOf r OPCODE_ACK, u16 (r.blockNumber + 1), []⟩]⟩ :=
  step_handleData_ack hdir hstate (opcodeOf_decode s (by decide))
    (by simpa only [blockMsg, u16, Nat.mod_mod] using hdelta) hbn hend hws hfs
    (blockMsg_payload_ne_nil file (by omega) (by rw [hbs, hfsz]; exact hk) (by omega)) hwi

end ReceiveBlock

/-- A receiving side whose `recv` times out acknowledges again the last
block it received. -/
theorem step_timeout_ack {p : Party} {r : Session} {out : Option Msg} {wr : List (Nat × List UInt8)}
    {qR qS : List Msg} (hdir : r.direction = .recvFile)
    (hstate : r.state ≠ .none ∧ r.state ≠ .reqSent ∧ r.state ≠ .reqReceived)
    (hct : r.consecutiveTimeouts + 1 ≤ r.maxTimeouts) (hmt : r.maxTimeouts < 2 ^ 32) :
    Step file ⟨p, ⟨r, out, true, wr⟩, qR, qS⟩
      ⟨p, ⟨{ r with consecutiveTimeouts := r.consecutiveTimeouts + 1, opcodePrefix := nextPrefix r, windowIndex := 0 },
          some ⟨opcodeOf { r with opcodePrefix := nextPrefix r } OPCODE_ACK, u16 r.blockNumber, []⟩, true, wr⟩,
        qR, qS ++ [⟨opcodeOf { r with opcodePrefix := nextPrefix r } OPCODE_ACK, u16 r.blockNumber, []⟩]⟩ := by
  have hpend : tftpSessionHasPending r = false := by
    simp [tftpSessionHasPending, hdir]
  have hp : Party.onTimeout file ⟨r, out, true, wr⟩ =
      some (⟨{ r with consecutiveTimeouts := r.consecutiveTimeouts + 1, opcodePrefix := nextPrefix r, windowIndex := 0 },
          some ⟨opcodeOf { r with opcodePrefix := nextPrefix r } OPCODE_ACK, u16 r.blockNumber, []⟩, true, wr⟩,
        some ⟨opcodeOf { r with opcodePrefix := nextPrefix r } OPCODE_ACK, u16 r.blockNumber, []⟩) := by
    simp only [Party.onTimeout, hpend, Bool.false_eq_true, if_false, ne_eq, hstate.1, not_false_eq_true, if_true,
      tftpTimeout_recv file hdir hstate.2 hct hmt]
    rfl
  exact Step.receiver (w := ⟨p, ⟨r, out, true, wr⟩, qR, qS⟩) (LinkStep.timeout rfl hp)

/-- A sending side that receives an ACK which is not a duplicate moves its
window by the signed 16-bit difference `d`, to the block `j`, and sends the
block after it. -/
theorem step_handleAck {s : Session} {out : Option Msg} {wr : List (Nat × List UInt8)} {r : Party} {m : Msg}
    {qR qS : List Msg} {d : Int} {j : Nat} (hdir : s.direction = .sendFile)
    (hstate : s.state = .firstData ∨ s.state = .reqReceived ∨ s.state = .sendingData)
    (hop : u16 m.opcode &&& 0xff = OPCODE_ACK) (hd : toInt16 ((u16 m.block : Int) - (u16 s.blockNumber : Int)) = d)
    (hsas : s.state = .firstData ∨ s.state = .reqReceived ∨ d ≠ 0) (hj : ((s.blockNumber + d) % 2 ^ 64).toNat = j)
    (hend : u64 (j * s.blockSize) ≤ s.fileSize) :
    let s' := { s with
      consecutiveTimeouts := 0
      opcodePrefix := if d < s.windowSize then nextPrefix s else s.opcodePrefix
      state := .sendingData
      blockNumber := j
      windowIndex := 1 }
    Step file ⟨⟨s, out, true, wr⟩, r, qR, m :: qS⟩
      ⟨⟨s', some (blockMsg file s' j), true, wr⟩, r, qR ++ [blockMsg file s' j], qS⟩ := by
  intro s'
  subst hj
  have hp : Party.onMsg file ⟨s, out, true, wr⟩ m =
      some (⟨s', some (blockMsg file s' s'.blockNumber), true, wr⟩, some (blockMsg file s' s'.blockNumber)) := by
    rw [Party.onMsg, tftpProcessMsg_ack file hop,
      tftpHandleAck_move (s := { s with consecutiveTimeouts := 0 }) file hdir hstate hd hsas hend]
    simp only [Option.map_some, List.append_nil]
    rfl
  exact Step.sender (w := ⟨⟨s, out, true, wr⟩, r, qR, m :: qS⟩) (LinkStep.recv rfl hp)

end Steps

/-! ## Runs -/

/-- The channel into the receiving side can lose every message in it. -/
theorem reachable_dropAll {p r : Party} {qR qS : List Msg} : Reachable file ⟨p, r, qR, qS⟩ ⟨p, r, [], qS⟩ := by
  induction qR with
  | nil => exact ReflTransGen.refl
  | cons m q ih => exact ReflTransGen.head (Step.receiver (w := ⟨p, r, m :: q, qS⟩) (@LinkStep.drop file r [] q m)) ih

/-- A sending side with a window pending sends `n + 1` blocks of it, from the
index `j` on. -/
theorem reachable_prepareData {s : Session} {out : Option Msg} {wr : List (Nat × List UInt8)} {r : Party}
    {qR qS : List Msg} (n j : Nat) (hj : s.blockNumber + s.windowIndex = j) (hdir : s.direction = .sendFile)
    (hwi : 0 < s.windowIndex) (hwin : s.windowIndex + n < s.windowSize) (hws : s.windowSize < 2 ^ 32)
    (hend : (j + n) * s.blockSize ≤ s.fileSize) (hfs : s.fileSize < 2 ^ 64) :
    Reachable file ⟨⟨s, out, true, wr⟩, r, qR, qS⟩
      ⟨⟨{ s with windowIndex := s.windowIndex + (n + 1) }, some (blockMsg file s (j + n)), true, wr⟩, r,
        qR ++ blockMsgs file s j (n + 1), qS⟩ := by
  subst hj
  induction n with
  | zero => exact ReflTransGen.single (step_prepareData hdir hwi hwin hws hend hfs)
  | succ n ih =>
    -- the first `n + 1` blocks, then one more
    have hend' : (s.blockNumber + s.windowIndex + n) * s.blockSize ≤ s.fileSize :=
      Nat.le_trans (Nat.mul_le_mul_right _ (Nat.le_succ _)) hend
    have hidx : s.blockNumber + s.windowIndex + (n + 1) = s.blockNumber + (s.windowIndex + (n + 1)) :=
      Nat.add_assoc _ _ _
    refine ReflTransGen.tail (ih (by omega) hend') ?_
    rw [blockMsgs_succ file s _ (n + 1), ← List.append_assoc, hidx]
    rw [hidx] at hend
    exact step_prepareData (s := { s with windowIndex := s.windowIndex + (n + 1) }) hdir
      (show 0 < s.windowIndex + (n + 1) by omega) (show s.windowIndex + (n + 1) < s.windowSize by omega) hws hend hfs

/-- A receiving side takes `n + 1` blocks that come in order, from the one
after the last it received (at the index `j`), and writes each at its own
offset. -/
theorem reachable_handleData {p : Party} {r s : Session} {out : Option Msg} {wr : List (Nat × List UInt8)}
    {q qR qS : List Msg} (n j : Nat) (hj : r.blockNumber = j) (hq : q = blockMsgs file s j (n + 1) ++ qR)
    (hdir : r.direction = .recvFile)
    (hstate : r.state = .reqReceived ∨ r.state = .firstData ∨ r.state = .receivingData)
    (hbs : s.blockSize = r.blockSize) (hfsz : s.fileSize = r.fileSize) (hbs0 : 0 < r.blockSize)
    (hbn : j + n + 1 < 2 ^ 64) (hend : (j + n + 1) * r.blockSize ≤ r.fileSize)
    (hws : r.windowSize < 2 ^ 32) (hfs : r.fileSize < 2 ^ 64) (hwi : r.windowIndex + n + 1 < r.windowSize) :
    Reachable file ⟨p, ⟨r, out, true, wr⟩, q, qS⟩
      ⟨p, ⟨{ r with
              state := .receivingData, consecutiveTimeouts := 0, blockNumber := j + (n + 1),
              windowIndex := r.windowIndex + (n + 1) },
            none, true, wr ++ blockWrites file s r.blockSize j (n + 1)⟩,
        qR, qS⟩ := by
  subst hj hq
  induction n generalizing qR with
  | zero =>
    have hone : (r.blockNumber + 0 + 1) * r.blockSize ≤ r.fileSize := hend
    exact ReflTransGen.single (step_handleBlock hdir hstate (toInt16_u16_succ _) hbs hfsz hbs0 (by simpa using hone)
      (by omega) (by simpa using hone) hws hfs (by omega))
  | succ n ih =>
    -- the first `n + 1` blocks, then the last one in `receivingData`
    have hend' : (r.blockNumber + n + 1) * r.blockSize ≤ r.fileSize :=
      Nat.le_trans (Nat.mul_le_mul_right _ (Nat.le_succ _)) hend
    have hrun := @ih (blockMsg file s (r.blockNumber + (n + 1)) :: qR) (by omega) (by omega) hend'
    rw [blockMsgs_succ file s r.blockNumber (n + 1), List.append_assoc, List.singleton_append]
    refine ReflTransGen.tail hrun ?_
    rw [blockWrites_succ file s r.blockSize r.blockNumber (n + 1), ← List.append_assoc]
    exact step_handleBlock (r := { r with
        state := .receivingData, consecutiveTimeouts := 0, blockNumber := r.blockNumber + (n + 1),
        windowIndex := r.windowIndex + (n + 1) })
      hdir (Or.inr (Or.inr rfl)) (toInt16_u16_succ _) hbs hfsz hbs0 hend (by simp only; omega) hend hws hfs
      (by simp only; omega)

/-! ## A window of more than half the block numbers -/

/-- With 40000 blocks of 8 bytes to a window, over a file of `2 ^ 20` bytes,
the receiving side writes the block at the index 4464 (bytes 35712 to 35719)
where the block at the index 70000 belongs (bytes 560000 to 560007). The
receiver takes 30000 blocks of the first window and the rest is lost; the ACK
of its timeout moves the sender to the block 30000, and the receiver takes the
whole next window, to the block 70000. The ACK of that window names the
16-bit block 4464, which the sender reads as 25536 blocks back, so it resends
from the block 4464, and the receiver reads that block's 16-bit number as the
one after 70000. -/
theorem reachable_stale_write (oack : Msg) :
    ∃ w, Reachable file (World.start file (2 ^ 20) 8 40000 oack) w ∧
      (560000, readFile file 35712 8) ∈ w.receiver.written := by
  have hq₁ : [blockMsg file (negotiated .sendFile .firstData (2 ^ 20) 8 40000) 0] ++
      blockMsgs file { negotiated .sendFile .firstData (2 ^ 20) 8 40000 with windowIndex := 1 } 1 (39998 + 1) =
      blockMsgs file (negotiated .sendFile .firstData (2 ^ 20) 8 40000) 0 30000 ++
        blockMsgs file (negotiated .sendFile .firstData (2 ^ 20) 8 40000) 30000 10000 := by
    rw [blockMsgs_windowIndex, List.singleton_append, blockMsgs_cons, ← blockMsgs_add]
  rw [World.start_eq]
  refine ⟨?w, ?run, ?mem⟩
  case run =>
    -- the first window, blocks 1 to 40000
    refine ReflTransGen.trans (reachable_prepareData file 39998 1 (by decide) (by decide) (by decide) (by decide)
      (by decide) (by decide) (by decide)) ?_
    -- the receiver takes 30000 of them and the rest is lost
    refine ReflTransGen.trans (reachable_handleData file 29999 0 (by decide) hq₁ (by decide) (by decide) (by decide)
      (by decide) (by decide) (by decide) (by decide) (by decide) (by decide) (by decide)) ?_
    refine ReflTransGen.trans (reachable_dropAll file) ?_
    -- its timeout acknowledges the block 30000, which moves the sender there
    refine ReflTransGen.head (step_timeout_ack (by decide) (by decide) (by decide) (by decide)) ?_
    refine ReflTransGen.head (step_handleAck (d := 30000) (j := 30000) (by decide) (Or.inl (by decide)) (by decide)
      (by decide) (Or.inl (by decide)) (by decide) (by decide)) ?_
    -- the second window, blocks 30001 to 70000, all of which the receiver takes
    refine ReflTransGen.trans (reachable_prepareData file 39998 30001 (by decide) (by decide) (by decide) (by decide)
      (by decide) (by decide) (by decide)) ?_
    refine ReflTransGen.trans (reachable_handleData file 39998 30000 (by decide)
      (by conv_lhs => rw [List.nil_append, List.singleton_append, blockMsgs_cons, blockMsgs_succ])
      (by decide) (by decide) (by decide) (by decide) (by decide) (by decide) (by decide) (by decide) (by decide)
      (by decide)) ?_
    -- the block 70000 fills the window and is acknowledged as the 16-bit block 4464
    refine ReflTransGen.head (step_handleBlock_ack (by decide) (Or.inr (Or.inr (by decide))) (by decide) (by decide)
      (by decide) (by decide) (by decide) (by decide) (by decide) (by decide) (by decide) (by decide)) ?_
    -- which the sender reads as 25536 blocks back
    refine ReflTransGen.head (step_handleAck (d := -25536) (j := 4464) (by decide) (Or.inr (Or.inr (by decide)))
      (by decide) (by decide) (Or.inr (Or.inr (by decide))) (by decide) (by decide)) ?_
    -- and the receiver takes the block 4465 as the one after 70000
    refine ReflTransGen.head (step_handleBlock (by decide) (Or.inr (Or.inr (by decide))) (by decide) (by decide)
      (by decide) (by decide) (by decide) (by decide) (by decide) (by decide) (by decide) (by decide)) ?_
    exact ReflTransGen.refl
  case mem => exact List.mem_append_right _ (List.mem_singleton.mpr rfl)

/-- Window sizes the negotiation accepts let a transfer write bytes that are
not the file's: over a file of `2 ^ 20` bytes, zero in its first half and one
in its second, with blocks of 8 bytes and windows of 40000 blocks, the
receiving side writes eight zero bytes at the offset 560000. -/
theorem transfer_writes_stale_block (oack : Msg) :
    OptionsAccepted 8 40000 ∧
      ∃ w, Reachable (fun i => if i < 2 ^ 19 then 0 else 1)
          (World.start (fun i => if i < 2 ^ 19 then 0 else 1) (2 ^ 20) 8 40000 oack) w ∧
        ∃ off d, (off, d) ∈ w.receiver.written ∧ d ≠ readFile (fun i => if i < 2 ^ 19 then 0 else 1) off d.length := by
  refine ⟨by decide, ?_⟩
  obtain ⟨w, hreach, hmem⟩ := reachable_stale_write (fun i => if i < 2 ^ 19 then 0 else 1) oack
  exact ⟨w, hreach, 560000, _, hmem, by decide⟩

end Zircon.Tftp
