import Mathlib
import Zircon.Tftp.Wire

/-!
# `tftp_process_msg` on the bytes of a message

The handlers of `tftp.c` as they read the message they are handed: the
request (`tftp_handle_request`, through `tftp_handle_rrq` and
`tftp_handle_wrq`), the OACK, the ERROR, and the DATA and ACK, whose exchange
`Session.lean` models by fields. The session here is `Session` with the
fields these handlers add: the server's overrides, the options the client
sent, the file name and mode, and the timeout.

What comes out:

* the options of a request and of an OACK are read inside the message
  whatever it holds, the loops end, and an OACK keeps the negotiated values in
  the ranges of the RFCs (`tftpHandleOack_spec`); a request does so as long as
  the overrides of `tftp_set_options` are in those ranges
  (`tftpHandleRequest_spec`), which `tftp_set_options` never checks;
* on a message of four bytes or more, DATA and ACK are the exchange of
  `Session.lean` on the message's fields (`tftpHandleData_of_four_le`,
  `tftpHandleAck_of_four_le`), and the only bytes `tftp_process_msg` ever
  reads past the end of a message are the block number of a DATA or ACK of
  two or three bytes (`tftpProcessMsg_error`).

The file callbacks are given by what they return; `*timeout_ms`, the
metrics and `printf` are not modelled.
-/

namespace Zircon.Tftp

/-! ## The session the handlers see -/

/-- `OPCODE_OACK`. -/
def OPCODE_OACK : Nat := 6

/-- `TFTP_ERR_CODE_FILE_NOT_FOUND`. -/
def TFTP_ERR_CODE_FILE_NOT_FOUND : Nat := 1
/-- `TFTP_ERR_CODE_ACCESS_VIOLATION`. -/
def TFTP_ERR_CODE_ACCESS_VIOLATION : Nat := 2
/-- `TFTP_ERR_CODE_BUSY`. -/
def TFTP_ERR_CODE_BUSY : Nat := 0x143

/-- `TFTP_ERR_SHOULD_WAIT`, as `open_read` returns it in place of a size. -/
def TFTP_ERR_SHOULD_WAIT : Int := -22

/-- `BLOCKSIZE_OPTION`. -/
def BLOCKSIZE_OPTION : Nat := 0x01
/-- `TIMEOUT_OPTION`. -/
def TIMEOUT_OPTION : Nat := 0x02
/-- `WINDOWSIZE_OPTION`. -/
def WINDOWSIZE_OPTION : Nat := 0x04

/-- `DEFAULT_BLOCKSIZE`. -/
def DEFAULT_BLOCKSIZE : Nat := 512
/-- `DEFAULT_TIMEOUT`. -/
def DEFAULT_TIMEOUT : Nat := 1
/-- `DEFAULT_WINDOWSIZE`. -/
def DEFAULT_WINDOWSIZE : Nat := 1

/-- `kMaxRequestSize`. -/
def kMaxRequestSize : Nat := 512

/-- `tftp_options`. -/
structure TftpOptions where
  mask : Nat
  blockSize : Nat
  timeout : Nat
  windowSize : Nat
deriving DecidableEq, Repr

/-- `tftp_mode`. -/
inductive Mode where
  | netascii
  | octet
  | mail
deriving DecidableEq, Repr

/-- The fields of `tftp_session` that the handlers of requests and OACKs
read and write beyond those of the exchange: the server's overrides
(`options`), the options of the client's request (`client_sent_opts`), the
file name and mode of a request, and the negotiated timeout. -/
structure WireSession extends Session where
  options : TftpOptions
  clientSentOpts : TftpOptions
  filename : List UInt8
  mode : Mode
  timeout : Nat
deriving DecidableEq, Repr

/-- What a handler leaves in the response buffer: a message by its fields,
or the OACK of a request, by its opcode and the bytes after it. -/
inductive Reply where
  | msg (m : Msg)
  | oack (opcode : Nat) (body : List UInt8)
deriving DecidableEq, Repr

/-- A handler that ends in `set_error` with `r` and returns `status`. -/
def WireSession.reject (s : WireSession) (r : Rejection) (status : TftpStatus) :
    WireSession × TftpStatus × Option Reply :=
  let e := setError s.toSession r.code r.text
  ({ s with toSession := e.1 }, status, some (.msg e.2))

/-- The negotiated values in the ranges of RFC 2348, 2349 and 7440. -/
structure OptionsInRange (s : WireSession) : Prop where
  blockSize : 8 ≤ s.blockSize ∧ s.blockSize ≤ 65464
  timeout : 1 ≤ s.timeout ∧ s.timeout ≤ 255
  windowSize : 1 ≤ s.windowSize ∧ s.windowSize ≤ 65535

/-- The overrides a server set with `tftp_set_options` in the same ranges. -/
structure OverridesInRange (o : TftpOptions) : Prop where
  blockSize : o.mask &&& BLOCKSIZE_OPTION ≠ 0 → 8 ≤ o.blockSize ∧ o.blockSize ≤ 65464
  timeout : o.mask &&& TIMEOUT_OPTION ≠ 0 → 1 ≤ o.timeout ∧ o.timeout ≤ 255
  windowSize : o.mask &&& WINDOWSIZE_OPTION ≠ 0 → 1 ≤ o.windowSize ∧ o.windowSize ≤ 65535

/-- `s'` has the negotiated values and the overrides of `s`. -/
structure SameOptions (s s' : WireSession) : Prop where
  blockSize : s'.blockSize = s.blockSize
  timeout : s'.timeout = s.timeout
  windowSize : s'.windowSize = s.windowSize
  options : s'.options = s.options

theorem SameOptions.refl (s : WireSession) : SameOptions s s := ⟨rfl, rfl, rfl, rfl⟩

theorem SameOptions.trans {s₁ s₂ s₃ : WireSession} (h₁ : SameOptions s₁ s₂) (h₂ : SameOptions s₂ s₃) :
    SameOptions s₁ s₃ :=
  ⟨h₂.blockSize.trans h₁.blockSize, h₂.timeout.trans h₁.timeout, h₂.windowSize.trans h₁.windowSize,
    h₂.options.trans h₁.options⟩

theorem OptionsInRange.of_same {s s' : WireSession} (hin : OptionsInRange s) (h : SameOptions s s') :
    OptionsInRange s' :=
  ⟨h.blockSize ▸ hin.blockSize, h.timeout ▸ hin.timeout, h.windowSize ▸ hin.windowSize⟩

theorem reject_sameOptions (s : WireSession) (r : Rejection) (status : TftpStatus) :
    SameOptions s (s.reject r status).1 := ⟨rfl, rfl, rfl, rfl⟩

/-- `tftp_init`: the session zeroed, with the defaults of what is not
negotiated (`DEFAULT_FILESIZE`, `DEFAULT_MODE`, `DEFAULT_MAX_TIMEOUTS`,
`DEFAULT_USE_OPCODE_PREFIX`). -/
def tftpInit : WireSession :=
  { direction := .sendFile, state := .none, consecutiveTimeouts := 0, opcodePrefix := 0, blockNumber := 0,
    windowIndex := 0, maxTimeouts := DEFAULT_MAX_TIMEOUTS, useOpcodePrefix := DEFAULT_USE_OPCODE_PREFIX,
    fileSize := 0, windowSize := 0, blockSize := 0, options := ⟨0, 0, 0, 0⟩, clientSentOpts := ⟨0, 0, 0, 0⟩,
    filename := [], mode := .octet, timeout := 0 }

/-- `tftp_set_options`: every value given becomes an override, whatever it
is. -/
def tftpSetOptions (s : WireSession) (block_size : Option UInt16) (timeout : Option UInt8)
    (window_size : Option UInt16) : WireSession :=
  { s with options := {
      mask := (if block_size.isSome then BLOCKSIZE_OPTION else 0) ||| (if timeout.isSome then TIMEOUT_OPTION else 0) |||
        (if window_size.isSome then WINDOWSIZE_OPTION else 0)
      blockSize := (block_size.map UInt16.toNat).getD s.options.blockSize
      timeout := (timeout.map UInt8.toNat).getD s.options.timeout
      windowSize := (window_size.map UInt16.toNat).getD s.options.windowSize } }

/-! ## The options of a request -/

section Request

variable (msg : List UInt8)

/-- The branch of the option loop of `tftp_handle_request` for `BLKSIZE`,
`TIMEOUT` or `WINDOWSIZE`, whose name is `len` bytes long: a `!` after the
name forces the value, `atol` reads it, a value outside `[lo, hi]` is
rejected with `text`, and the session takes the requested value unless the
server overrides the option (its `bit` in `override.mask`, with
`overrideValue`) and the request does not force it. The requested value and
the session's. -/
def requestRanged (option value len lo hi : Nat) (text : String) (override : TftpOptions)
    (bit overrideValue : Nat) : Except Nat (Except Rejection (Nat × Nat)) := do
  let force := (← byteAt msg (option + len)).toNat = 33
  let val ← atol msg value
  if val < lo ∨ val > hi then return .error ⟨TFTP_ERR_CODE_BAD_OPTIONS, text⟩
  return .ok (val.toNat, if force ∨ override.mask &&& bit = 0 then val.toNat else overrideValue)

/-- What the option loop of `tftp_handle_request` writes: the session,
`file_size_seen` and `requested_options`. -/
structure RequestParse where
  session : WireSession
  fileSizeSeen : Bool
  requested : TftpOptions

/-- One pass of the option loop of `tftp_handle_request`, on the option and
value `next_option` found at `option` and `value`; the overrides are
`session->options`. An option it does not know is skipped. -/
def requestOption (direction : Direction) (p : RequestParse) (option value : Nat) :
    Except Nat (Except Rejection RequestParse) := do
  let s := p.session
  let o := s.options
  if (← strncasecmpEq msg option (ascii "TSIZE")) then
    -- RFC 2349: only a write request gives the size
    if direction = .recvFile then
      let val ← atol msg value
      if val < 0 then return .error ⟨TFTP_ERR_CODE_BAD_OPTIONS, "invalid file size"⟩
      return .ok { p with session := { s with fileSize := val.toNat }, fileSizeSeen := true }
    else return .ok { p with fileSizeSeen := true }
  else if (← strncasecmpEq msg option (ascii "BLKSIZE")) then
    match ← requestRanged msg option value 7 8 65464 "invalid block size" o BLOCKSIZE_OPTION o.blockSize with
    | .error r => return .error r
    | .ok (req, v) => return .ok { p with
        session := { s with blockSize := v }
        requested := { p.requested with blockSize := req, mask := p.requested.mask ||| BLOCKSIZE_OPTION } }
  else if (← strncasecmpEq msg option (ascii "TIMEOUT")) then
    match ← requestRanged msg option value 7 1 255 "invalid timeout" o TIMEOUT_OPTION o.timeout with
    | .error r => return .error r
    | .ok (req, v) => return .ok { p with
        session := { s with timeout := v }
        requested := { p.requested with timeout := req, mask := p.requested.mask ||| TIMEOUT_OPTION } }
  else if (← strncasecmpEq msg option (ascii "WINDOWSIZE")) then
    match ← requestRanged msg option value 10 1 65535 "invalid window size" o WINDOWSIZE_OPTION o.windowSize with
    | .error r => return .error r
    | .ok (req, v) => return .ok { p with
        session := { s with windowSize := v }
        requested := { p.requested with windowSize := req, mask := p.requested.mask ||| WINDOWSIZE_OPTION } }
  else return .ok p

/-- A ranged option reads inside the message when its name and value end
inside it, and the session takes a value in range as long as an override
it takes is in range. -/
theorem requestRanged_ok {option value len lo hi : Nat} {text : String} {override : TftpOptions}
    {bit overrideValue : Nat} (hname : Terminated msg (option + len)) (hvalue : Terminated msg value) :
    ∃ r, requestRanged msg option value len lo hi text override bit overrideValue = .ok r ∧
      ∀ req v, r = .ok (req, v) → (override.mask &&& bit ≠ 0 → lo ≤ overrideValue ∧ overrideValue ≤ hi) →
        lo ≤ v ∧ v ≤ hi := by
  obtain ⟨val, hval, -⟩ := atol_ok hvalue
  have hlt := hname.lt_length
  by_cases hrange : val < lo ∨ val > hi
  · refine ⟨.error ⟨TFTP_ERR_CODE_BAD_OPTIONS, text⟩, ?_, fun _ _ h => nomatch h⟩
    simp [requestRanged, byteAt_of_lt hlt, hval, hrange]
  refine ⟨.ok (val.toNat, if msg[option + len].toNat = 33 ∨ override.mask &&& bit = 0 then val.toNat
    else overrideValue), ?_, ?_⟩
  · simp only [requestRanged, byteAt_of_lt hlt, hval, ok_bind, if_neg hrange, pure_ok]
  rintro req v ⟨⟩ hover
  split_ifs with hforce
  · omega
  · -- the override is taken only where the server set one
    exact hover (not_or.mp hforce).2

/-- A pass of the request's option loop reads inside the message when the
option and the value end inside it; it keeps the overrides, and keeps the
negotiated values in range as long as the overrides are. -/
theorem requestOption_ok {direction : Direction} {p : RequestParse} {option value : Nat}
    (hoption : Terminated msg option) (hvalue : Terminated msg value) :
    ∃ r, requestOption msg direction p option value = .ok r ∧
      ∀ p', r = .ok p' → p'.session.options = p.session.options ∧
        (OverridesInRange p.session.options → OptionsInRange p.session → OptionsInRange p'.session) := by
  obtain ⟨isTsize, hts⟩ := strncasecmpEq_ok (ascii "TSIZE") option (by decide) hoption
  cases isTsize
  case true =>
    -- the size is the only value a `TSIZE` changes
    by_cases hdir : direction = .recvFile
    · obtain ⟨val, hval, -⟩ := atol_ok hvalue
      simp only [requestOption, hts, hdir, hval, ok_bind, if_true]
      split
      · exact ⟨_, rfl, fun _ h => nomatch h⟩
      · refine ⟨_, rfl, ?_⟩
        rintro p' ⟨⟩
        exact ⟨rfl, fun _ hin => ⟨hin.blockSize, hin.timeout, hin.windowSize⟩⟩
    · simp only [requestOption, hts, hdir, ok_bind, if_true, if_false]
      refine ⟨_, rfl, ?_⟩
      rintro p' ⟨⟩
      exact ⟨rfl, fun _ hin => hin⟩
  case false =>
  obtain ⟨isBlk, hblk⟩ := strncasecmpEq_ok (ascii "BLKSIZE") option (by decide) hoption
  cases isBlk
  case true =>
    obtain ⟨r, hr, hrange⟩ := @requestRanged_ok msg option value 7 8 65464 "invalid block size" p.session.options
      BLOCKSIZE_OPTION p.session.options.blockSize (strncasecmpEq_true _ option (by decide) hoption hblk) hvalue
    simp only [requestOption, hts, hblk, hr, ok_bind]
    rcases r with rej | ⟨req, v⟩
    · exact ⟨_, rfl, fun _ h => nomatch h⟩
    · refine ⟨_, rfl, ?_⟩
      rintro p' ⟨⟩
      exact ⟨rfl, fun hover hin => ⟨hrange req v rfl hover.blockSize, hin.timeout, hin.windowSize⟩⟩
  case false =>
  obtain ⟨isTimeout, hto⟩ := strncasecmpEq_ok (ascii "TIMEOUT") option (by decide) hoption
  cases isTimeout
  case true =>
    obtain ⟨r, hr, hrange⟩ := @requestRanged_ok msg option value 7 1 255 "invalid timeout" p.session.options
      TIMEOUT_OPTION p.session.options.timeout (strncasecmpEq_true _ option (by decide) hoption hto) hvalue
    simp only [requestOption, hts, hblk, hto, hr, ok_bind]
    rcases r with rej | ⟨req, v⟩
    · exact ⟨_, rfl, fun _ h => nomatch h⟩
    · refine ⟨_, rfl, ?_⟩
      rintro p' ⟨⟩
      exact ⟨rfl, fun hover hin => ⟨hin.blockSize, hrange req v rfl hover.timeout, hin.windowSize⟩⟩
  case false =>
  obtain ⟨isWindow, hwin⟩ := strncasecmpEq_ok (ascii "WINDOWSIZE") option (by decide) hoption
  cases isWindow
  case true =>
    obtain ⟨r, hr, hrange⟩ := @requestRanged_ok msg option value 10 1 65535 "invalid window size" p.session.options
      WINDOWSIZE_OPTION p.session.options.windowSize (strncasecmpEq_true _ option (by decide) hoption hwin) hvalue
    simp only [requestOption, hts, hblk, hto, hwin, hr, ok_bind]
    rcases r with rej | ⟨req, v⟩
    · exact ⟨_, rfl, fun _ h => nomatch h⟩
    · refine ⟨_, rfl, ?_⟩
      rintro p' ⟨⟩
      exact ⟨rfl, fun hover hin => ⟨hin.blockSize, hin.timeout, hrange req v rfl hover.windowSize⟩⟩
  case false =>
  -- an option the server does not know is skipped
  simp only [requestOption, hts, hblk, hto, hwin, ok_bind]
  refine ⟨_, rfl, ?_⟩
  rintro p' ⟨⟩
  exact ⟨rfl, fun _ hin => hin⟩

/-- The mode of a request: its first letters compared with `NETASCII`,
`OCTET` and `MAIL`, in that order. -/
def requestMode (mode : Nat) : Except Nat (Option Mode) := do
  if (← strncasecmpEq msg mode (ascii "NETASCII")) then return some .netascii
  else if (← strncasecmpEq msg mode (ascii "OCTET")) then return some .octet
  else if (← strncasecmpEq msg mode (ascii "MAIL")) then return some .mail
  else return none

theorem requestMode_ok {mode : Nat} (hmode : Terminated msg mode) : ∃ m, requestMode msg mode = .ok m := by
  obtain ⟨b₁, h₁⟩ := strncasecmpEq_ok (ascii "NETASCII") mode (by decide) hmode
  obtain ⟨b₂, h₂⟩ := strncasecmpEq_ok (ascii "OCTET") mode (by decide) hmode
  obtain ⟨b₃, h₃⟩ := strncasecmpEq_ok (ascii "MAIL") mode (by decide) hmode
  simp only [requestMode, h₁, h₂, h₃, ok_bind]
  cases b₁ <;> cases b₂ <;> cases b₃ <;> exact ⟨_, rfl⟩

end Request

/-- The file a request opens, in state `NONE` only: `open_write` for a write
request, `open_read` for a read request, which gives the file size. The
callbacks are given by what they return, `none` where one is not set; a
failure is the handler's result. -/
def requestOpen (s : WireSession) (direction : Direction) (openRead : Option Int)
    (openWrite : Option TftpStatus) : Except (WireSession × TftpStatus × Option Reply) WireSession :=
  if s.state ≠ .none then .ok s
  else if direction = .recvFile then
    match openWrite with
    | none => .error (s.reject ⟨TFTP_ERR_CODE_UNDEF, "internal error"⟩ .errBadState)
    | some .errShouldWait =>
      let r := s.reject ⟨TFTP_ERR_CODE_BUSY, "not ready to receive"⟩ .errShouldWait
      .error ({ r.1 with state := .none }, r.2)
    | some .noError => .ok s
    | some _ => .error (s.reject ⟨TFTP_ERR_CODE_ACCESS_VIOLATION, "could not open file for writing"⟩ .errBadState)
  else
    match openRead with
    | none => .error (s.reject ⟨TFTP_ERR_CODE_UNDEF, "internal error"⟩ .errBadState)
    | some size =>
      if size = TFTP_ERR_SHOULD_WAIT then
        let r := s.reject ⟨TFTP_ERR_CODE_BUSY, "not ready to send"⟩ .errShouldWait
        .error ({ r.1 with state := .none }, r.2)
      else if size < 0 then
        .error (s.reject ⟨TFTP_ERR_CODE_FILE_NOT_FOUND, "could not open file for reading"⟩ .errBadState)
      else .ok { s with fileSize := size.toNat }

/-- Opening the file changes none of the negotiated values. -/
theorem requestOpen_ok {s s' : WireSession} {direction : Direction} {openRead : Option Int}
    {openWrite : Option TftpStatus} (h : requestOpen s direction openRead openWrite = .ok s') : SameOptions s s' := by
  unfold requestOpen at h
  split_ifs at h
  · cases h
    exact SameOptions.refl s
  · split at h <;> cases h
    exact SameOptions.refl s
  · split at h
    · cases h
    · split_ifs at h
      cases h
      exact ⟨rfl, rfl, rfl, rfl⟩

/-- A file that cannot be opened is an error of the request. -/
theorem requestOpen_error {s : WireSession} {direction : Direction} {openRead : Option Int}
    {openWrite : Option TftpStatus} {r : WireSession × TftpStatus × Option Reply}
    (h : requestOpen s direction openRead openWrite = .error r) : SameOptions s r.1 ∧ r.2.1.isError := by
  unfold requestOpen at h
  by_cases hnone : s.state ≠ .none
  · rw [if_pos hnone] at h
    cases h
  rw [if_neg hnone] at h
  by_cases hdir : direction = .recvFile
  · rw [if_pos hdir] at h
    rcases openWrite with _ | st
    · cases h
      exact ⟨⟨rfl, rfl, rfl, rfl⟩, rfl⟩
    · cases st <;> cases h <;> exact ⟨⟨rfl, rfl, rfl, rfl⟩, rfl⟩
  · rw [if_neg hdir] at h
    rcases openRead with _ | size
    · cases h
      exact ⟨⟨rfl, rfl, rfl, rfl⟩, rfl⟩
    · dsimp only at h
      split_ifs at h <;> cases h <;> exact ⟨⟨rfl, rfl, rfl, rfl⟩, rfl⟩

/-- The bytes of a C string: the text and its NUL. -/
def cString (text : String) : List UInt8 := text.toUTF8.data.toList ++ [0]

/-- `append_option(&body, &left, name, false, fmt, value)`: the name, a NUL,
the value in decimal and a NUL. -/
def appendOption (name : String) (value : Nat) : List UInt8 := cString name ++ cString (toString value)

/-- The options of the OACK that answers a request: the size, and each
option the request asked for with the value the session took. -/
def oackBody (s : WireSession) (requested : TftpOptions) : List UInt8 :=
  appendOption "TSIZE" s.fileSize ++
    (if requested.mask &&& BLOCKSIZE_OPTION ≠ 0 then appendOption "BLKSIZE" s.blockSize else []) ++
    (if requested.mask &&& TIMEOUT_OPTION ≠ 0 then appendOption "TIMEOUT" s.timeout else []) ++
    (if requested.mask &&& WINDOWSIZE_OPTION ≠ 0 then appendOption "WINDOWSIZE" s.windowSize else [])

namespace Bytes

/-- `tftp_handle_request` on the bytes `msg` of a request, opcode included. -/
def tftpHandleRequest (s : WireSession) (direction : Direction) (msg : List UInt8) (openRead : Option Int)
    (openWrite : Option TftpStatus) : Except Nat (WireSession × TftpStatus × Option Reply) := do
  -- a server is in `REQ_RECEIVED` still if its OACK was dropped
  if s.state ≠ .none ∧ s.state ≠ .reqReceived then
    return s.reject ⟨TFTP_ERR_CODE_UNDEF, "invalid state transition"⟩ .errBadState
  if msg.length > kMaxRequestSize then
    return s.reject ⟨TFTP_ERR_CODE_UNDEF, "write request is too large"⟩ .errInternal
  let left := msg.length - 2
  -- the file name and the mode are read as the first option and its value
  match ← next_option msg 2 left with
  | none => return s.reject ⟨TFTP_ERR_CODE_BAD_OPTIONS, "no options"⟩ .errInternal
  | some (offset, option, value) =>
    let left := left - offset
    -- `strncpy` of at most 511 bytes of the name
    let n ← strnlen msg option 511
    let s := { s with filename := (msg.drop option).take n }
    match ← requestMode msg value with
    | none => return s.reject ⟨TFTP_ERR_CODE_BAD_OPTIONS, "unknown write request mode"⟩ .errInternal
    | some mode =>
      let s := { s with
        mode := mode, blockSize := DEFAULT_BLOCKSIZE, timeout := DEFAULT_TIMEOUT, windowSize := DEFAULT_WINDOWSIZE }
      let (p, rej) ← optionLoop msg "no more options" (requestOption msg direction) left (2 + offset) left
        ⟨s, false, ⟨0, 0, 0, 0⟩⟩
      match rej with
      | some r => return p.session.reject r .errInternal
      | none =>
        match requestOpen p.session direction openRead openWrite with
        | .error r => return r
        | .ok s =>
          if !p.fileSizeSeen then
            return s.reject ⟨TFTP_ERR_CODE_BAD_OPTIONS, "no TSIZE option"⟩ .errBadState
          return ({ s with state := .reqReceived, direction := direction }, .noError,
            some (.oack (opcodeOf s.toSession OPCODE_OACK) (oackBody s p.requested)))

/-- `tftp_handle_rrq`. -/
def tftpHandleRrq (s : WireSession) (msg : List UInt8) (openRead : Option Int) (openWrite : Option TftpStatus) :
    Except Nat (WireSession × TftpStatus × Option Reply) :=
  tftpHandleRequest s .sendFile msg openRead openWrite

/-- `tftp_handle_wrq`. -/
def tftpHandleWrq (s : WireSession) (msg : List UInt8) (openRead : Option Int) (openWrite : Option TftpStatus) :
    Except Nat (WireSession × TftpStatus × Option Reply) :=
  tftpHandleRequest s .recvFile msg openRead openWrite

end Bytes

/-- A request of two bytes or more is read inside the message whatever it
holds, keeps the overrides, and, as long as they are in range, either ends
with the negotiated values in range or is refused before it sets them. -/
theorem tftpHandleRequest_spec {s : WireSession} {direction : Direction} {msg : List UInt8}
    {openRead : Option Int} {openWrite : Option TftpStatus} (hlen : 2 ≤ msg.length) :
    ∃ r, Bytes.tftpHandleRequest s direction msg openRead openWrite = .ok r ∧ r.1.options = s.options ∧
      (OverridesInRange s.options → OptionsInRange r.1 ∨ SameOptions s r.1 ∧ r.2.1.isError) := by
  unfold Bytes.tftpHandleRequest
  by_cases hstate : s.state ≠ .none ∧ s.state ≠ .reqReceived
  · rw [if_pos hstate]
    exact ⟨_, rfl, rfl, fun _ => .inr ⟨reject_sameOptions .., rfl⟩⟩
  rw [if_neg hstate]
  by_cases hsize : msg.length > kMaxRequestSize
  · rw [if_pos hsize]
    exact ⟨_, rfl, rfl, fun _ => .inr ⟨reject_sameOptions .., rfl⟩⟩
  rw [if_neg hsize]
  -- the file name and the mode are the first pair
  obtain ⟨r₁, hn, hspec⟩ := @next_option_spec msg 2 (msg.length - 2) (by omega)
  simp only [hn, ok_bind]
  rcases r₁ with _ | ⟨offset, option, value⟩
  · exact ⟨_, rfl, rfl, fun _ => .inr ⟨reject_sameOptions .., rfl⟩⟩
  obtain ⟨rfl, hopt, hval, -, hoff⟩ := hspec offset option value rfl
  obtain ⟨n, hname⟩ := strnlen_ok 511 2 hopt
  obtain ⟨mode, hmode⟩ := requestMode_ok msg hval
  simp only [hname, hmode, ok_bind]
  rcases mode with _ | mode
  · exact ⟨_, rfl, rfl, fun _ => .inr ⟨⟨rfl, rfl, rfl, rfl⟩, rfl⟩⟩
  -- the options after them, from the defaults
  refine bind_ok_of (optionLoop_ok msg _ _
    (P := fun p : RequestParse => p.session.options = s.options ∧ (OverridesInRange s.options → OptionsInRange p.session))
    (fun p option value hp ho hv => ?_) _ _ _ _ (by omega) ⟨rfl, fun _ => ⟨by simp [DEFAULT_BLOCKSIZE], by simp [DEFAULT_TIMEOUT], by simp [DEFAULT_WINDOWSIZE]⟩⟩) ?_
  · obtain ⟨r, hr, hkeep⟩ := @requestOption_ok msg direction p option value ho hv
    refine ⟨r, hr, fun p' hp' => ⟨(hkeep p' hp').1.trans hp.1, fun hover => ?_⟩⟩
    exact (hkeep p' hp').2 (hp.1 ▸ hover) (hp.2 hover)
  rintro ⟨p, rej⟩ ⟨hopts, hrange⟩
  rcases rej with _ | rej
  · dsimp only at hopts hrange ⊢
    cases hopen : requestOpen p.session direction openRead openWrite with
    | error r =>
      obtain ⟨hsame, herr⟩ := requestOpen_error hopen
      exact ⟨r, rfl, hsame.options.trans hopts, fun hover => .inl ((hrange hover).of_same hsame)⟩
    | ok s₂ =>
      -- with the size seen the request is answered by an OACK, and rejected without it
      have hsame := requestOpen_ok hopen
      cases hseen : p.fileSizeSeen
      · exact ⟨_, rfl, hsame.options.trans hopts,
          fun hover => .inl ((hrange hover).of_same (hsame.trans (reject_sameOptions ..)))⟩
      · exact ⟨_, rfl, hsame.options.trans hopts,
          fun hover => .inl ((hrange hover).of_same (hsame.trans ⟨rfl, rfl, rfl, rfl⟩))⟩
  · exact ⟨_, rfl, hopts, fun hover => .inl ((hrange hover).of_same (reject_sameOptions ..))⟩

/-! ## The options of an OACK -/

section Oack

variable (msg : List UInt8)

/-- The branch of the option loop of `tftp_handle_oack` for `BLKSIZE`,
`TIMEOUT` or `WINDOWSIZE`: an option the client did not send (its `bit` not
in `sent.mask`) is rejected with `noText`, and a value outside `[lo, hi]`
with `text`. -/
def oackRanged (value lo hi : Nat) (noText text : String) (sent : TftpOptions) (bit : Nat) :
    Except Nat (Except Rejection Nat) := do
  if sent.mask &&& bit = 0 then return .error ⟨TFTP_ERR_CODE_BAD_OPTIONS, noText⟩
  let val ← atol msg value
  if val < lo ∨ val > hi then return .error ⟨TFTP_ERR_CODE_BAD_OPTIONS, text⟩
  return .ok val.toNat

theorem oackRanged_ok {value lo hi : Nat} {noText text : String} {sent : TftpOptions} {bit : Nat}
    (hvalue : Terminated msg value) :
    ∃ r, oackRanged msg value lo hi noText text sent bit = .ok r ∧ ∀ v, r = .ok v → lo ≤ v ∧ v ≤ hi := by
  by_cases hsent : sent.mask &&& bit = 0
  · simp only [oackRanged, if_pos hsent]
    exact ⟨_, rfl, fun _ h => nomatch h⟩
  obtain ⟨val, hval, -⟩ := atol_ok hvalue
  by_cases hrange : val < lo ∨ val > hi
  · simp only [oackRanged, if_neg hsent, hval, ok_bind, if_pos hrange]
    exact ⟨_, rfl, fun _ h => nomatch h⟩
  · simp only [oackRanged, if_neg hsent, hval, ok_bind, if_neg hrange]
    refine ⟨_, rfl, ?_⟩
    rintro v ⟨⟩
    omega

/-- One pass of the option loop of `tftp_handle_oack`. -/
def oackOption (s : WireSession) (option value : Nat) : Except Nat (Except Rejection WireSession) := do
  if (← strncasecmpEq msg option (ascii "TSIZE")) then
    if s.direction = .recvFile then
      -- `session->file_size = atol(value)`, unchecked: a `long` stored in a `size_t`
      let val ← atol msg value
      return .ok { s with fileSize := (val % 2 ^ 64).toNat }
    else return .ok s
  else if (← strncasecmpEq msg option (ascii "BLKSIZE")) then
    match ← oackRanged msg value 8 65464 "no block size" "invalid block size" s.clientSentOpts BLOCKSIZE_OPTION with
    | .error r => return .error r
    | .ok v => return .ok { s with blockSize := v }
  else if (← strncasecmpEq msg option (ascii "TIMEOUT")) then
    match ← oackRanged msg value 1 255 "no timeout" "invalid timeout" s.clientSentOpts TIMEOUT_OPTION with
    | .error r => return .error r
    | .ok v => return .ok { s with timeout := v }
  else if (← strncasecmpEq msg option (ascii "WINDOWSIZE")) then
    match ← oackRanged msg value 1 65535 "no window size" "invalid window size" s.clientSentOpts
        WINDOWSIZE_OPTION with
    | .error r => return .error r
    | .ok v => return .ok { s with windowSize := v }
  else return .ok s

/-- A pass of the OACK's option loop reads inside the message when the
option and the value end inside it, and keeps the overrides and the
negotiated values in range. -/
theorem oackOption_ok {s : WireSession} {option value : Nat} (hoption : Terminated msg option)
    (hvalue : Terminated msg value) :
    ∃ r, oackOption msg s option value = .ok r ∧
      ∀ s', r = .ok s' → s'.options = s.options ∧ (OptionsInRange s → OptionsInRange s') := by
  obtain ⟨isTsize, hts⟩ := strncasecmpEq_ok (ascii "TSIZE") option (by decide) hoption
  cases isTsize
  case true =>
    -- the size is the only value a `TSIZE` changes
    by_cases hdir : s.direction = .recvFile
    · obtain ⟨val, hval, -⟩ := atol_ok hvalue
      simp only [oackOption, hts, hdir, hval, ok_bind, if_true]
      refine ⟨_, rfl, ?_⟩
      rintro s' ⟨⟩
      exact ⟨rfl, fun hin => ⟨hin.blockSize, hin.timeout, hin.windowSize⟩⟩
    · simp only [oackOption, hts, hdir, ok_bind, if_true, if_false]
      refine ⟨_, rfl, ?_⟩
      rintro s' ⟨⟩
      exact ⟨rfl, fun hin => hin⟩
  case false =>
  obtain ⟨isBlk, hblk⟩ := strncasecmpEq_ok (ascii "BLKSIZE") option (by decide) hoption
  cases isBlk
  case true =>
    obtain ⟨r, hr, hrange⟩ := @oackRanged_ok msg value 8 65464 "no block size" "invalid block size"
      s.clientSentOpts BLOCKSIZE_OPTION hvalue
    simp only [oackOption, hts, hblk, hr, ok_bind]
    rcases r with rej | v
    · exact ⟨_, rfl, fun _ h => nomatch h⟩
    · refine ⟨_, rfl, ?_⟩
      rintro s' ⟨⟩
      exact ⟨rfl, fun hin => ⟨hrange v rfl, hin.timeout, hin.windowSize⟩⟩
  case false =>
  obtain ⟨isTimeout, hto⟩ := strncasecmpEq_ok (ascii "TIMEOUT") option (by decide) hoption
  cases isTimeout
  case true =>
    obtain ⟨r, hr, hrange⟩ := @oackRanged_ok msg value 1 255 "no timeout" "invalid timeout"
      s.clientSentOpts TIMEOUT_OPTION hvalue
    simp only [oackOption, hts, hblk, hto, hr, ok_bind]
    rcases r with rej | v
    · exact ⟨_, rfl, fun _ h => nomatch h⟩
    · refine ⟨_, rfl, ?_⟩
      rintro s' ⟨⟩
      exact ⟨rfl, fun hin => ⟨hin.blockSize, hrange v rfl, hin.windowSize⟩⟩
  case false =>
  obtain ⟨isWindow, hwin⟩ := strncasecmpEq_ok (ascii "WINDOWSIZE") option (by decide) hoption
  cases isWindow
  case true =>
    obtain ⟨r, hr, hrange⟩ := @oackRanged_ok msg value 1 65535 "no window size" "invalid window size"
      s.clientSentOpts WINDOWSIZE_OPTION hvalue
    simp only [oackOption, hts, hblk, hto, hwin, hr, ok_bind]
    rcases r with rej | v
    · exact ⟨_, rfl, fun _ h => nomatch h⟩
    · refine ⟨_, rfl, ?_⟩
      rintro s' ⟨⟩
      exact ⟨rfl, fun hin => ⟨hin.blockSize, hin.timeout, hrange v rfl⟩⟩
  case false =>
  -- an option the client does not know is skipped
  simp only [oackOption, hts, hblk, hto, hwin, ok_bind]
  refine ⟨_, rfl, ?_⟩
  rintro s' ⟨⟩
  exact ⟨rfl, fun hin => hin⟩

end Oack

namespace Bytes

variable (file : Nat → UInt8)

/-- `tftp_handle_oack` on the bytes `msg` of an OACK; `openWrite` is what
`open_write` returns, `none` where it is not set. -/
def tftpHandleOack (s : WireSession) (msg : List UInt8) (openWrite : Option TftpStatus) :
    Except Nat (WireSession × TftpStatus × Option Reply) := do
  let s := if s.state = .reqSent ∨ s.state = .firstData then { s with state := .firstData } else s
  let left := msg.length - 2
  let (s, rej) ← optionLoop msg "invalid option format" (oackOption msg) left 2 left s
  match rej with
  | some r => return s.reject r .errInternal
  | none =>
    let s := { s with blockNumber := 0, windowIndex := 0 }
    if s.direction = .sendFile then
      let r := txData file s.toSession
      return ({ s with toSession := r.1 }, .noError, r.2.map .msg)
    -- `!open_write || open_write(...)`: anything but `TFTP_NO_ERROR` fails
    else if openWrite ≠ some .noError then
      return s.reject ⟨TFTP_ERR_CODE_UNDEF, "could not open file for writing"⟩ .errBadState
    else
      let r := tftpPrepareAck s.toSession
      return ({ s with toSession := r.1 }, .noError, some (.msg r.2))

/-- The fields of a message as `Msg` has them: the opcode and the block
number in network order, and the bytes after them. -/
def fieldsOf (msg : List UInt8) : Msg :=
  ⟨(msg.getD 0 0).toNat * 2 ^ 8 + (msg.getD 1 0).toNat, (msg.getD 2 0).toNat * 2 ^ 8 + (msg.getD 3 0).toNat,
    msg.drop 4⟩

/-- `tftp_handle_error`: nothing is answered. -/
def tftpHandleError (s : WireSession) (msg : List UInt8) : Except Nat (WireSession × TftpStatus × Option Reply) := do
  if msg.length < 4 then return (s, .errBufferTooSmall, none)
  let errCode ← readU16 msg 2
  if errCode = TFTP_ERR_CODE_BUSY then return ({ s with state := .none }, .errShouldWait, none)
  return ({ s with state := .error }, .errInternal, none)

/-- `tftp_handle_data` on the bytes of a DATA message whose opcode
`tftp_process_msg` read: the block number is read once the state is
checked, and the payload is the `msg_len - sizeof(tftp_data_msg)` bytes
after it. The writes it made. -/
def tftpHandleData (s : WireSession) (opcode : Nat) (msg : List UInt8) :
    Except Nat (WireSession × TftpStatus × Option Reply × List (Nat × List UInt8)) := do
  if s.direction = .recvFile ∧ (s.state = .reqReceived ∨ s.state = .firstData ∨ s.state = .receivingData) then
    let block ← readU16 msg 2
    let r := Tftp.tftpHandleData s.toSession ⟨opcode, block, msg.drop 4⟩
    return ({ s with toSession := r.1 }, r.2.1, r.2.2.1.map .msg, r.2.2.2)
  else
    let e := s.reject ⟨TFTP_ERR_CODE_UNDEF, "internal error: bad state"⟩ .errInternal
    return (e.1, e.2.1, e.2.2, [])

/-- `tftp_handle_ack` on the bytes of an ACK message whose opcode
`tftp_process_msg` read. -/
def tftpHandleAck (s : WireSession) (opcode : Nat) (msg : List UInt8) :
    Except Nat (WireSession × TftpStatus × Option Reply) := do
  if s.direction ≠ .sendFile ∨ (s.state ≠ .firstData ∧ s.state ≠ .reqReceived ∧ s.state ≠ .sendingData) then
    return s.reject ⟨TFTP_ERR_CODE_UNDEF, "internal error: bad state"⟩ .errInternal
  let block ← readU16 msg 2
  let r := Tftp.tftpHandleAck file s.toSession ⟨opcode, block, msg.drop 4⟩
  return ({ s with toSession := r.1 }, r.2.1, r.2.2.map .msg)

/-- `tftp_process_msg` on the bytes `msg` of a message, with the writes the
session made; `openRead` and `openWrite` are what the file callbacks
return. -/
def tftpProcessMsg (s : WireSession) (msg : List UInt8) (openRead : Option Int) (openWrite : Option TftpStatus) :
    Except Nat (WireSession × TftpStatus × Option Reply × List (Nat × List UInt8)) := do
  if msg.length < 2 then return (s, .errBufferTooSmall, none, [])
  let opcode ← readU16 msg 0
  let s := { s with consecutiveTimeouts := 0 }
  let noWrites := fun (r : WireSession × TftpStatus × Option Reply) => (r.1, r.2.1, r.2.2, ([] : List (Nat × List UInt8)))
  match opcode &&& 0xff with
  | 1 => return noWrites (← tftpHandleRrq s msg openRead openWrite)
  | 2 => return noWrites (← tftpHandleWrq s msg openRead openWrite)
  | 3 => tftpHandleData s opcode msg
  | 4 => return noWrites (← tftpHandleAck file s opcode msg)
  | 5 => return noWrites (← tftpHandleError s msg)
  | 6 => return noWrites (← tftpHandleOack file s msg openWrite)
  | _ => return ({ s with state := .error }, .errInternal, none, [])

end Bytes

/-- An OACK of two bytes or more is read inside the message whatever it
holds, and keeps the overrides and the negotiated values in range. -/
theorem tftpHandleOack_spec (file : Nat → UInt8) {s : WireSession} {msg : List UInt8}
    {openWrite : Option TftpStatus} (hlen : 2 ≤ msg.length) :
    ∃ r, Bytes.tftpHandleOack file s msg openWrite = .ok r ∧ r.1.options = s.options ∧
      (OptionsInRange s → OptionsInRange r.1) := by
  unfold Bytes.tftpHandleOack
  -- the loop starts from `s` with its state moved on
  have hstart : SameOptions s
      (if s.state = .reqSent ∨ s.state = .firstData then { s with state := .firstData } else s) := by
    split <;> exact ⟨rfl, rfl, rfl, rfl⟩
  refine bind_ok_of (optionLoop_ok msg _ _
    (P := fun st : WireSession => st.options = s.options ∧ (OptionsInRange s → OptionsInRange st))
    (fun st option value hst ho hv => ?_) _ _ _ _ (by omega) ⟨hstart.options, fun hin => hin.of_same hstart⟩) ?_
  · obtain ⟨r, hr, hkeep⟩ := oackOption_ok msg (s := st) ho hv
    exact ⟨r, hr, fun s' hs' => ⟨(hkeep s' hs').1.trans hst.1, fun hin => (hkeep s' hs').2 (hst.2 hin)⟩⟩
  rintro ⟨st, rej⟩ ⟨hopts, hrange⟩
  rcases rej with _ | rej
  · dsimp only at hopts hrange ⊢
    split
    · -- a sending session sends its first block
      exact ⟨_, rfl, hopts,
        fun hin => (hrange hin).of_same ⟨(txData_sizes file _).1, rfl, (txData_sizes file _).2, rfl⟩⟩
    · split
      · exact ⟨_, rfl, hopts, fun hin => (hrange hin).of_same ⟨rfl, rfl, rfl, rfl⟩⟩
      · exact ⟨_, rfl, hopts, fun hin => (hrange hin).of_same ⟨rfl, rfl, rfl, rfl⟩⟩
  · exact ⟨_, rfl, hopts, fun hin => (hrange hin).of_same (reject_sameOptions ..)⟩

/-! ## Error, DATA and ACK -/

namespace Bytes

section Handlers

variable (file : Nat → UInt8) {s : WireSession} {opcode : Nat} {msg : List UInt8}

/-- An ERROR is read inside the message: its code only when the message has
room for it. -/
theorem tftpHandleError_ok : ∃ r, tftpHandleError s msg = .ok r ∧ SameOptions s r.1 := by
  unfold tftpHandleError
  split_ifs with hshort
  · exact ⟨_, rfl, SameOptions.refl s⟩
  · simp only [readU16_of_lt (by omega : 2 + 1 < msg.length), ok_bind]
    split <;> exact ⟨_, rfl, ⟨rfl, rfl, rfl, rfl⟩⟩

/-- A DATA in a state that takes it reads its block number at bytes 2 and 3,
past the end of a message of two or three bytes. -/
theorem tftpHandleData_error (hlen : 2 ≤ msg.length) {i : Nat} (h : tftpHandleData s opcode msg = .error i) :
    i = msg.length ∧ msg.length < 4 := by
  unfold tftpHandleData at h
  split at h
  · by_cases hfour : 4 ≤ msg.length
    · rw [readU16_of_lt (by omega)] at h
      cases h
    · rw [readU16_of_le hlen (by omega)] at h
      cases h
      exact ⟨rfl, by omega⟩
  · cases h

/-- A DATA keeps the negotiated values, and writes its payload, the bytes
after its header, at the offset of the block after the last one received. -/
theorem tftpHandleData_ok {r : WireSession × TftpStatus × Option Reply × List (Nat × List UInt8)}
    (h : tftpHandleData s opcode msg = .ok r) :
    SameOptions s r.1 ∧ ∀ w ∈ r.2.2.2, w = (u64 (s.blockNumber * s.blockSize), msg.drop 4) ∧ msg.drop 4 ≠ [] := by
  unfold tftpHandleData at h
  split at h
  · obtain ⟨block, -, h⟩ := bind_eq_ok h
    cases h
    have hsizes := tftpHandleData_sizes s.toSession ⟨opcode, block, msg.drop 4⟩
    exact ⟨⟨hsizes.1, rfl, hsizes.2, rfl⟩, fun w hw => tftpHandleData_writes hw⟩
  · cases h
    exact ⟨⟨rfl, rfl, rfl, rfl⟩, fun w hw => nomatch hw⟩

/-- An ACK in a state that takes it reads its block number the same way. -/
theorem tftpHandleAck_error (hlen : 2 ≤ msg.length) {i : Nat} (h : tftpHandleAck file s opcode msg = .error i) :
    i = msg.length ∧ msg.length < 4 := by
  unfold tftpHandleAck at h
  split at h
  · cases h
  · by_cases hfour : 4 ≤ msg.length
    · rw [readU16_of_lt (by omega)] at h
      cases h
    · rw [readU16_of_le hlen (by omega)] at h
      cases h
      exact ⟨rfl, by omega⟩

theorem tftpHandleAck_ok {r : WireSession × TftpStatus × Option Reply} (h : tftpHandleAck file s opcode msg = .ok r) :
    SameOptions s r.1 := by
  unfold tftpHandleAck at h
  split at h
  · cases h
    exact ⟨rfl, rfl, rfl, rfl⟩
  · obtain ⟨block, -, h⟩ := bind_eq_ok h
    cases h
    have hsizes := tftpHandleAck_sizes file s.toSession ⟨opcode, block, msg.drop 4⟩
    exact ⟨hsizes.1, rfl, hsizes.2, rfl⟩

variable {openRead : Option Int} {openWrite : Option TftpStatus}

/-- The only bytes `tftp_process_msg` reads past the end of a message are
the block number of a DATA or an ACK that has no room for it: every other
read, of every message in every state, is inside the message. -/
theorem tftpProcessMsg_error {i : Nat} (h : tftpProcessMsg file s msg openRead openWrite = .error i) :
    i = msg.length ∧ 2 ≤ msg.length ∧ msg.length < 4 ∧
      ((fieldsOf msg).opcode &&& 0xff = OPCODE_DATA ∨ (fieldsOf msg).opcode &&& 0xff = OPCODE_ACK) := by
  unfold tftpProcessMsg at h
  split_ifs at h with hshort
  · cases h
  have h2 : 2 ≤ msg.length := by omega
  simp only [readU16_of_lt (by omega : 0 + 1 < msg.length), ok_bind] at h
  split at h
  · obtain ⟨r, hr, -⟩ := @tftpHandleRequest_spec _ .sendFile _ openRead openWrite h2
    rw [tftpHandleRrq, hr] at h
    cases h
  · obtain ⟨r, hr, -⟩ := @tftpHandleRequest_spec _ .recvFile _ openRead openWrite h2
    rw [tftpHandleWrq, hr] at h
    cases h
  · next hop =>
    obtain ⟨rfl, hlt⟩ := tftpHandleData_error h2 h
    exact ⟨rfl, h2, hlt, .inl hop⟩
  · next hop =>
    obtain ⟨rfl, hlt⟩ := tftpHandleAck_error file h2 (error_of_bind_pure h)
    exact ⟨rfl, h2, hlt, .inr hop⟩
  · obtain ⟨r, hr, -⟩ := @tftpHandleError_ok _ msg
    rw [hr] at h
    cases h
  · obtain ⟨r, hr, -⟩ := @tftpHandleOack_spec file _ _ openWrite h2
    rw [hr] at h
    cases h
  · cases h


/-- `tftp_process_msg` keeps the overrides, and keeps the negotiated values
in range as long as the overrides are. -/
theorem tftpProcessMsg_optionsInRange (hover : OverridesInRange s.options) (hin : OptionsInRange s)
    {r : WireSession × TftpStatus × Option Reply × List (Nat × List UInt8)}
    (h : tftpProcessMsg file s msg openRead openWrite = .ok r) : OptionsInRange r.1 ∧ r.1.options = s.options := by
  unfold tftpProcessMsg at h
  split_ifs at h with hshort
  · cases h
    exact ⟨hin, rfl⟩
  have h2 : 2 ≤ msg.length := by omega
  simp only [readU16_of_lt (by omega : 0 + 1 < msg.length), ok_bind] at h
  -- every handler either keeps the values of the session it is handed or leaves them in range
  have hs₀ : SameOptions s { s with consecutiveTimeouts := 0 } := ⟨rfl, rfl, rfl, rfl⟩
  have hkeep : ∀ {s' : WireSession}, SameOptions { s with consecutiveTimeouts := 0 } s' →
      OptionsInRange s' ∧ s'.options = s.options :=
    fun hsame => ⟨hin.of_same (hs₀.trans hsame), hsame.options⟩
  split at h
  · obtain ⟨r', hr, hopts, hrange⟩ := @tftpHandleRequest_spec _ .sendFile _ openRead openWrite h2
    rw [tftpHandleRrq, hr] at h
    cases h
    rcases hrange hover with hin' | ⟨hsame, -⟩
    · exact ⟨hin', hopts⟩
    · exact hkeep hsame
  · obtain ⟨r', hr, hopts, hrange⟩ := @tftpHandleRequest_spec _ .recvFile _ openRead openWrite h2
    rw [tftpHandleWrq, hr] at h
    cases h
    rcases hrange hover with hin' | ⟨hsame, -⟩
    · exact ⟨hin', hopts⟩
    · exact hkeep hsame
  · exact hkeep (tftpHandleData_ok h).1
  · obtain ⟨a, ha, h⟩ := bind_eq_ok h
    cases h
    exact hkeep (tftpHandleAck_ok file ha)
  · obtain ⟨a, ha, h⟩ := bind_eq_ok h
    cases h
    obtain ⟨r', hr, hsame⟩ := @tftpHandleError_ok { s with consecutiveTimeouts := 0 } msg
    rw [hr] at ha
    cases ha
    exact hkeep hsame
  · obtain ⟨a, ha, h⟩ := bind_eq_ok h
    cases h
    obtain ⟨r', hr, hopts, hrange⟩ := @tftpHandleOack_spec file { s with consecutiveTimeouts := 0 } _ openWrite h2
    rw [hr] at ha
    cases ha
    exact ⟨hrange (hin.of_same ⟨rfl, rfl, rfl, rfl⟩), hopts⟩
  · cases h
    exact hkeep ⟨rfl, rfl, rfl, rfl⟩

end Handlers

/-- The sessions a session reaches by handling messages one after another,
each with what the file callbacks return for it. -/
inductive Handled (file : Nat → UInt8) : WireSession → WireSession → Prop
  | refl (s : WireSession) : Handled file s s
  | step {s s₁ : WireSession} {msg : List UInt8} {openRead : Option Int} {openWrite : Option TftpStatus}
      {r : WireSession × TftpStatus × Option Reply × List (Nat × List UInt8)} :
      Handled file s s₁ → tftpProcessMsg file s₁ msg openRead openWrite = .ok r → Handled file s r.1

/-- Over any run of messages, a session whose negotiated values and
overrides are in range keeps them so. -/
theorem Handled.optionsInRange {file : Nat → UInt8} {s s' : WireSession} (hover : OverridesInRange s.options)
    (hin : OptionsInRange s) (h : Handled file s s') : OptionsInRange s' ∧ s'.options = s.options := by
  induction h with
  | refl => exact ⟨hin, rfl⟩
  | step _ hmsg ih =>
    obtain ⟨hin₁, hopts₁⟩ := ih
    obtain ⟨hin₂, hopts₂⟩ := tftpProcessMsg_optionsInRange _ (hopts₁ ▸ hover) hin₁ hmsg
    exact ⟨hin₂, hopts₂.trans hopts₁⟩

set_option maxRecDepth 8000 in
/-- A server with no overrides and in-range values that is handed an ERROR
message keeps its values in range. -/
theorem Handled.optionsInRange_error :
    ∃ s', Handled (fun _ => 0) { tftpInit with blockSize := 512, timeout := 1, windowSize := 1 } s' ∧
      OptionsInRange s' ∧ s'.options = ({ tftpInit with blockSize := 512, timeout := 1, windowSize := 1 } : WireSession).options := by
  obtain ⟨r, hr⟩ : ∃ r, tftpProcessMsg (fun _ => 0) { tftpInit with blockSize := 512, timeout := 1, windowSize := 1 }
      [0, 5, 0, 1, 0] none none = .ok r := ⟨_, rfl⟩
  have h := Handled.step (Handled.refl _) hr
  exact ⟨r.1, h, Handled.optionsInRange ⟨by decide, by decide, by decide⟩ ⟨by decide, by decide, by decide⟩ h⟩

end Bytes

/-! ## Where the handlers trust the message -/

/-- A server that took a write request for a file of size 0 reads byte 3 of
a DATA message of three bytes, and writes the two bytes of a DATA message
of six at offset 0, past the size it was given; and a server whose
`tftp_set_options` set a block size of 0 takes it for a read request that
asks for 512. -/
theorem process_msg_short_data_overrun_and_unchecked_overrides :
    (Bytes.tftpProcessMsg (fun _ => 0) tftpInit
        ([0, 2] ++ cString "f" ++ cString "octet" ++ cString "tsize" ++ cString "0") none (some .noError)).map
      (fun r => (r.1.state, r.1.direction, r.1.fileSize, r.2.1)) = .ok (.reqReceived, .recvFile, 0, .noError) ∧
    ((Bytes.tftpProcessMsg (fun _ => 0) tftpInit
        ([0, 2] ++ cString "f" ++ cString "octet" ++ cString "tsize" ++ cString "0") none (some .noError)).bind
      fun r => Bytes.tftpProcessMsg (fun _ => 0) r.1 [0, 3, 0] none none).map Prod.snd = .error 3 ∧
    ((Bytes.tftpProcessMsg (fun _ => 0) tftpInit
        ([0, 2] ++ cString "f" ++ cString "octet" ++ cString "tsize" ++ cString "0") none (some .noError)).bind
      fun r => Bytes.tftpProcessMsg (fun _ => 0) r.1 [0, 3, 0, 1, 65, 66] none none).map
        (fun r => r.2.2.2) = .ok [(0, [65, 66])] ∧
    (Bytes.tftpProcessMsg (fun _ => 0) (tftpSetOptions tftpInit (some 0) none none)
        ([0, 1] ++ cString "f" ++ cString "octet" ++ cString "tsize" ++ cString "0" ++ cString "blksize" ++
          cString "512") (some 100) none).map
      (fun r => (r.1.blockSize, r.2.1)) = .ok (0, .noError) := by
  refine ⟨by decide +kernel, by decide +kernel, by decide +kernel, by decide +kernel⟩

end Zircon.Tftp
