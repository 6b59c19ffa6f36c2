import Mathlib
import Zircon.Tftp.Session

/-!
# What `tftp_process_msg` reads of a message

`tftp_process_msg(session, incoming, inlen, ...)` is handed the `inlen` bytes
of a message. It checks `inlen >= sizeof(tftp_msg)`, reads the two bytes of
the opcode and passes the message on by opcode. Here the message is the list
of its bytes, and every byte a handler reads goes through `byteAt`, which
returns `.error i` for a byte `i` past the end: a handler reads only inside
the message exactly when it does not return an error.

The requests and the OACK are runs of NUL-terminated strings. `next_option`
cuts them with `strnlen` inside what is left of the message; the option names
are compared with `strncasecmp` and the values read with `atol`, and both stop
at the NUL that `next_option` found, so the option parsing reads inside the
message whatever it holds (`tftpHandleRequestOptions_ok`,
`tftpHandleOackOptions_ok`). ERROR checks its length before it reads its code.
DATA and ACK do not: they read the 16-bit block number at bytes 2 and 3 of
any message that has the two bytes of the opcode.
-/

namespace Zircon.Tftp

/-! ## Reading bytes -/

/-- A read of byte `i` of the message: `.error i` when `i` is past its end. -/
def byteAt (msg : List UInt8) (i : Nat) : Except Nat UInt8 :=
  match msg[i]? with
  | some b => .ok b
  | none => .error i

/-- `ntohs` of the 16-bit field at byte `i`. -/
def readU16 (msg : List UInt8) (i : Nat) : Except Nat Nat := do
  let hi ← byteAt msg i
  let lo ← byteAt msg (i + 1)
  return hi.toNat * 2 ^ 8 + lo.toNat

/-- `strnlen(msg + start, maxlen)`: the bytes before the first NUL, at most
`maxlen`. -/
def strnlen (msg : List UInt8) (start : Nat) : Nat → Except Nat Nat
  | 0 => .ok 0
  | maxlen + 1 => do
    let b ← byteAt msg start
    if b = 0 then return 0
    let n ← strnlen msg (start + 1) maxlen
    return n + 1

/-- `tolower` in the C locale. -/
def toLower (c : Nat) : Nat := if 65 ≤ c ∧ c ≤ 90 then c + 32 else c

/-- The character codes of a literal. -/
def ascii (s : String) : List Nat := s.toList.map Char.toNat

/-- `strncasecmp(msg + s, lit, strlen(lit)) == 0`, for a literal `lit` with no
NUL in it: the bytes are read up to the first that differs. -/
def strncasecmpEq (msg : List UInt8) (s : Nat) : List Nat → Except Nat Bool
  | [] => .ok true
  | c :: rest => do
    let b ← byteAt msg s
    if toLower b.toNat ≠ toLower c then return false
    strncasecmpEq msg (s + 1) rest

/-- `isspace` in the C locale. -/
def isSpace (c : Nat) : Bool := c = 32 ∨ (9 ≤ c ∧ c ≤ 13)

/-- `isdigit`. -/
def isDigit (c : Nat) : Bool := 48 ≤ c ∧ c ≤ 57

/-- The white space `strtol` skips from byte `s`, with `fuel` passes. -/
def skipSpace (msg : List UInt8) : Nat → Nat → Except Nat Nat
  | 0, s => .ok s
  | fuel + 1, s => do
    let b ← byteAt msg s
    if isSpace b.toNat then skipSpace msg fuel (s + 1) else return s

/-- The digits `strtol` reads from byte `s` into `acc`, with `fuel` passes. -/
def digitsFrom (msg : List UInt8) : Nat → Nat → Nat → Except Nat Nat
  | 0, _, acc => .ok acc
  | fuel + 1, s, acc => do
    let b ← byteAt msg s
    if isDigit b.toNat then digitsFrom msg fuel (s + 1) (acc * 10 + (b.toNat - 48)) else return acc

/-- `atol(msg + s)`, which glibc reads as `strtol(msg + s, NULL, 10)`: white
space, a sign and the digits, a value past `long` saturating. A run of either
loop ends at a byte past the message within `msg.length + 1` passes. -/
def atol (msg : List UInt8) (s : Nat) : Except Nat Int := do
  let s ← skipSpace msg (msg.length + 1) s
  let b ← byteAt msg s
  let neg := b.toNat = 45
  let s := if b.toNat = 45 ∨ b.toNat = 43 then s + 1 else s
  let n ← digitsFrom msg (msg.length + 1) s 0
  let v : Int := if neg then -n else n
  return max (-2 ^ 63) (min v (2 ^ 63 - 1))

/-- `next_option(msg + buffer, len, &option, &value)`: `none` where it returns
0, otherwise the bytes it took and where the option and the value start. -/
def next_option (msg : List UInt8) (buffer len : Nat) : Except Nat (Option (Nat × Nat × Nat)) := do
  let option_len ← strnlen msg buffer len
  if option_len = len then return none
  let value := buffer + option_len + 1
  let left := len - (option_len + 1)
  let value_len ← strnlen msg value left
  if value_len = left then return none
  return some (len - (left - (value_len + 1)), buffer, value)

/-! ## What the readers read -/

@[simp] theorem ok_bind {α β : Type} {x : α} {f : α → Except Nat β} : (Except.ok x >>= f) = f x := rfl

@[simp] theorem error_bind {α β : Type} {i : Nat} {f : α → Except Nat β} :
    (Except.error i >>= f : Except Nat β) = .error i := rfl

@[simp] theorem pure_ok {α : Type} {x : α} : (pure x : Except Nat α) = .ok x := rfl

theorem bind_eq_ok {α β : Type} {x : Except Nat α} {f : α → Except Nat β} {b : β} (h : (x >>= f) = .ok b) :
    ∃ a, x = .ok a ∧ f a = .ok b := by
  cases x with
  | error e => cases h
  | ok a => exact ⟨a, rfl, h⟩

/-- A failure of a computation whose result is only repackaged is its own. -/
theorem error_of_bind_pure {α β : Type} {x : Except Nat α} {g : α → β} {i : Nat}
    (h : (x >>= fun a => pure (g a)) = .error i) : x = .error i := by
  cases x with
  | error e =>
    rw [error_bind] at h
    cases h
    rfl
  | ok a => cases h

/-- A computation that succeeds followed by one that succeeds from each of
its results succeeds. -/
theorem bind_ok_of {α β : Type} {x : Except Nat α} {f : α → Except Nat β} {Q : α → Prop} {R : β → Prop}
    (hx : ∃ a, x = .ok a ∧ Q a) (hf : ∀ a, Q a → ∃ r, f a = .ok r ∧ R r) : ∃ r, (x >>= f) = .ok r ∧ R r := by
  obtain ⟨a, rfl, ha⟩ := hx
  exact hf a ha

theorem byteAt_of_lt {msg : List UInt8} {i : Nat} (h : i < msg.length) : byteAt msg i = .ok msg[i] := by
  simp [byteAt, List.getElem?_eq_getElem h]

theorem byteAt_of_le {msg : List UInt8} {i : Nat} (h : msg.length ≤ i) : byteAt msg i = .error i := by
  simp [byteAt, List.getElem?_eq_none h]

/-- The 16-bit field at byte `i` of a message that holds it. -/
theorem readU16_of_lt {msg : List UInt8} {i : Nat} (h : i + 1 < msg.length) :
    readU16 msg i = .ok ((msg.getD i 0).toNat * 2 ^ 8 + (msg.getD (i + 1) 0).toNat) := by
  have hi : i < msg.length := by omega
  simp only [readU16, byteAt_of_lt hi, byteAt_of_lt h, ok_bind, pure_ok, List.getD_eq_getElem _ _ hi,
    List.getD_eq_getElem _ _ h]

/-- A message that ends inside the field at byte `i` is read one byte past
its end. -/
theorem readU16_of_le {msg : List UInt8} {i : Nat} (h₁ : i ≤ msg.length) (h₂ : msg.length ≤ i + 1) :
    readU16 msg i = .error msg.length := by
  rcases Nat.eq_or_lt_of_le h₁ with heq | hlt
  · subst heq
    simp only [readU16, byteAt_of_le (le_refl msg.length), error_bind]
  · have hend : i + 1 = msg.length := by omega
    simp only [readU16, byteAt_of_lt hlt, hend, byteAt_of_le (le_refl msg.length), ok_bind, error_bind]

/-- `strnlen` inside the message finds a length `k ≤ maxlen`, with no NUL
before it and a NUL at it when `k < maxlen`. -/
theorem strnlen_spec (msg : List UInt8) :
    ∀ (n start : Nat), start + n ≤ msg.length → ∃ k, strnlen msg start n = .ok k ∧ k ≤ n ∧
      (∀ j < k, msg[start + j]? ≠ some 0) ∧ (k < n → msg[start + k]? = some 0)
  | 0, start, _ => ⟨0, rfl, le_rfl, fun _ hj => absurd hj (Nat.not_lt_zero _), fun h => absurd h (Nat.lt_irrefl 0)⟩
  | n + 1, start, h => by
    have hlt : start < msg.length := by omega
    by_cases hb : msg[start] = 0
    · refine ⟨0, ?_, by omega, fun _ hj => absurd hj (Nat.not_lt_zero _), fun _ => ?_⟩
      · simp [strnlen, byteAt_of_lt hlt, hb]
      · simp [List.getElem?_eq_getElem hlt, hb]
    · obtain ⟨k, hk, hkn, hbefore, hat⟩ := strnlen_spec msg n (start + 1) (by omega)
      refine ⟨k + 1, ?_, by omega, fun j hj => ?_, fun hkn' => ?_⟩
      · simp [strnlen, byteAt_of_lt hlt, hb, hk]
      · -- the first byte is not NUL, and the rest are those of the shorter run
        rcases j with _ | j
        · simp [List.getElem?_eq_getElem hlt, hb]
        · have := hbefore j (by omega)
          rwa [show start + 1 + j = start + (j + 1) by omega] at this
      · have := hat (by omega)
        rwa [show start + 1 + k = start + (k + 1) by omega] at this

/-- A NUL at or after byte `s`, inside the message: a string from `s` ends
inside it. -/
def Terminated (msg : List UInt8) (s : Nat) : Prop := ∃ p, s ≤ p ∧ msg[p]? = some 0

theorem Terminated.lt_length {msg : List UInt8} {s : Nat} (h : Terminated msg s) : s < msg.length := by
  obtain ⟨p, hsp, hp⟩ := h
  have := (List.getElem?_eq_some_iff.mp hp).1
  omega

/-- A string that does not end at byte `s` ends after it. -/
theorem Terminated.succ {msg : List UInt8} {s : Nat} (h : Terminated msg s) (hb : msg[s]? ≠ some 0) :
    Terminated msg (s + 1) := by
  obtain ⟨p, hsp, hp⟩ := h
  refine ⟨p, ?_, hp⟩
  rcases Nat.eq_or_lt_of_le hsp with rfl | hlt
  · exact absurd hp hb
  · exact hlt

/-- A string that goes on past byte `s` ends after it. -/
theorem Terminated.succ_of_ne {msg : List UInt8} {s : Nat} (h : Terminated msg s) (hlt : s < msg.length)
    (hb : msg[s] ≠ 0) : Terminated msg (s + 1) :=
  h.succ (by rw [List.getElem?_eq_getElem hlt]; exact fun h0 => hb (Option.some.inj h0))

theorem toLower_ne_zero {c : Nat} (hc : c ≠ 0) : toLower c ≠ 0 := by
  unfold toLower
  split_ifs <;> omega

/-- A byte that matched a character of a literal is not the NUL, so the
string goes on past it. -/
theorem Terminated.succ_of_match {msg : List UInt8} {s c : Nat} (h : Terminated msg s) (hlt : s < msg.length)
    (hc : c ≠ 0) (hmatch : ¬toLower msg[s].toNat ≠ toLower c) : Terminated msg (s + 1) :=
  h.succ_of_ne hlt fun h0 => toLower_ne_zero hc (by rw [← not_not.mp hmatch, h0]; rfl)

/-- A comparison with a literal stops inside a string that ends inside the
message. -/
theorem strncasecmpEq_ok {msg : List UInt8} :
    ∀ (lit : List Nat) (s : Nat), (∀ c ∈ lit, c ≠ 0) → Terminated msg s →
      ∃ r, strncasecmpEq msg s lit = .ok r
  | [], _, _, _ => ⟨true, rfl⟩
  | c :: rest, s, hlit, hs => by
    have hc : c ≠ 0 := hlit c (List.mem_cons_self ..)
    have hlt := hs.lt_length
    simp only [strncasecmpEq, byteAt_of_lt hlt, ok_bind]
    split_ifs with hdiff
    · exact ⟨false, rfl⟩
    · exact strncasecmpEq_ok rest (s + 1) (fun c' hc' => hlit c' (List.mem_cons_of_mem c hc'))
        (hs.succ_of_match hlt hc hdiff)

/-- A string that matched a literal goes on past it. -/
theorem strncasecmpEq_true {msg : List UInt8} :
    ∀ (lit : List Nat) (s : Nat), (∀ c ∈ lit, c ≠ 0) → Terminated msg s →
      strncasecmpEq msg s lit = .ok true → Terminated msg (s + lit.length)
  | [], s, _, hs, _ => hs
  | c :: rest, s, hlit, hs, h => by
    have hc : c ≠ 0 := hlit c (List.mem_cons_self ..)
    have hlt := hs.lt_length
    simp only [strncasecmpEq, byteAt_of_lt hlt, ok_bind] at h
    split_ifs at h with hdiff
    · cases h
    have := strncasecmpEq_true rest (s + 1) (fun c' hc' => hlit c' (List.mem_cons_of_mem c hc'))
      (hs.succ_of_match hlt hc hdiff) h
    rwa [List.length_cons, show s + (rest.length + 1) = s + 1 + rest.length by omega]

/-- `strtol` skips white space only up to the NUL, which is no space. -/
theorem skipSpace_ok {msg : List UInt8} :
    ∀ (fuel s : Nat), Terminated msg s → ∃ s', skipSpace msg fuel s = .ok s' ∧ Terminated msg s'
  | 0, s, hs => ⟨s, rfl, hs⟩
  | fuel + 1, s, hs => by
    have hlt := hs.lt_length
    simp only [skipSpace, byteAt_of_lt hlt, ok_bind]
    split
    · next hspace =>
      have hb : msg[s] ≠ 0 := by
        intro h0
        simp [h0, isSpace] at hspace
      exact skipSpace_ok fuel (s + 1) (hs.succ_of_ne hlt hb)
    · exact ⟨s, rfl, hs⟩

/-- The digits stop at the NUL too. -/
theorem digitsFrom_ok {msg : List UInt8} :
    ∀ (fuel s acc : Nat), Terminated msg s → ∃ n, digitsFrom msg fuel s acc = .ok n
  | 0, _, acc, _ => ⟨acc, rfl⟩
  | fuel + 1, s, acc, hs => by
    have hlt := hs.lt_length
    simp only [digitsFrom, byteAt_of_lt hlt, ok_bind]
    split
    · next hdigit =>
      have hb : msg[s] ≠ 0 := by
        intro h0
        simp [h0, isDigit] at hdigit
      exact digitsFrom_ok fuel (s + 1) _ (hs.succ_of_ne hlt hb)
    · exact ⟨acc, rfl⟩

/-- `atol` of a string that ends inside the message reads inside it, and
gives a `long`. -/
theorem atol_ok {msg : List UInt8} {s : Nat} (hs : Terminated msg s) :
    ∃ v, atol msg s = .ok v ∧ -2 ^ 63 ≤ v ∧ v ≤ 2 ^ 63 - 1 := by
  obtain ⟨s₁, hskip, hs₁⟩ := skipSpace_ok (msg.length + 1) s hs
  have hlt := hs₁.lt_length
  -- a sign is a byte of the string, so the digits start inside it too
  have hs₂ : Terminated msg (if msg[s₁].toNat = 45 ∨ msg[s₁].toNat = 43 then s₁ + 1 else s₁) := by
    split
    · next hsign =>
      refine hs₁.succ_of_ne hlt fun h0 => ?_
      simp [h0] at hsign
    · exact hs₁
  obtain ⟨n, hn⟩ := digitsFrom_ok (msg.length + 1) _ 0 hs₂
  have hval : atol msg s =
      .ok (max (-2 ^ 63) (min (if msg[s₁].toNat = 45 then -(n : Int) else n) (2 ^ 63 - 1))) := by
    simp only [atol, hskip, byteAt_of_lt hlt, hn, ok_bind, pure_ok]
  exact ⟨_, hval, le_max_left _ _, max_le (by norm_num) (min_le_right _ _)⟩

/-- What `next_option` finds inside `len` bytes of the message from
`buffer`: nothing, or an option at `buffer` and a value that both end inside
the message, and a step of at least one and at most `len` bytes. -/
theorem next_option_spec {msg : List UInt8} {buffer len : Nat} (h : buffer + len ≤ msg.length) :
    ∃ r, next_option msg buffer len = .ok r ∧
      ∀ offset option value, r = some (offset, option, value) →
        option = buffer ∧ Terminated msg option ∧ Terminated msg value ∧ 0 < offset ∧ offset ≤ len := by
  obtain ⟨k, hk, hkn, -, hat⟩ := strnlen_spec msg len buffer h
  by_cases hklen : k = len
  · refine ⟨none, by simp [next_option, hk, hklen], fun _ _ _ h => nomatch h⟩
  -- the option ends at its NUL, and the value is looked for after it
  have hopt : Terminated msg buffer := ⟨buffer + k, by omega, hat (by omega)⟩
  obtain ⟨k₂, hk₂, hk₂n, -, hat₂⟩ :=
    strnlen_spec msg (len - (k + 1)) (buffer + k + 1) (by omega)
  by_cases hk₂left : k₂ = len - (k + 1)
  · refine ⟨none, by simp [next_option, hk, hklen, hk₂, hk₂left], fun _ _ _ h => nomatch h⟩
  have hval : Terminated msg (buffer + k + 1) := ⟨buffer + k + 1 + k₂, by omega, hat₂ (by omega)⟩
  refine ⟨some (len - (len - (k + 1) - (k₂ + 1)), buffer, buffer + k + 1),
    by simp [next_option, hk, hklen, hk₂, hk₂left], ?_⟩
  rintro offset option value ⟨⟩
  exact ⟨rfl, hopt, hval, by omega, by omega⟩

/-- `strnlen` of a string that ends inside the message reads inside it,
whatever its bound. -/
theorem strnlen_ok {msg : List UInt8} : ∀ (n s : Nat), Terminated msg s → ∃ k, strnlen msg s n = .ok k
  | 0, _, _ => ⟨0, rfl⟩
  | n + 1, s, hs => by
    have hlt := hs.lt_length
    simp only [strnlen, byteAt_of_lt hlt, ok_bind]
    split
    · exact ⟨0, rfl⟩
    · next hb =>
      obtain ⟨k, hk⟩ := strnlen_ok n (s + 1) (hs.succ_of_ne hlt hb)
      exact ⟨k + 1, by simp [hk]⟩

theorem strnlen_le {msg : List UInt8} : ∀ {n s k : Nat}, strnlen msg s n = .ok k → k ≤ n
  | 0, _, _, h => by
    cases h
    exact le_rfl
  | n + 1, s, k, h => by
    simp only [strnlen] at h
    obtain ⟨b, -, h⟩ := bind_eq_ok h
    split at h
    · cases h
      exact Nat.zero_le _
    · obtain ⟨k', hk', h⟩ := bind_eq_ok h
      cases h
      exact Nat.succ_le_succ (strnlen_le hk')

/-- Whatever the message, an option that `next_option` finds takes at least
one of the `len` bytes and at most all of them. -/
theorem next_option_offset {msg : List UInt8} {buffer len offset option value : Nat}
    (h : next_option msg buffer len = .ok (some (offset, option, value))) : 0 < offset ∧ offset ≤ len := by
  simp only [next_option] at h
  obtain ⟨k, hk, h⟩ := bind_eq_ok h
  have hkn := strnlen_le hk
  split at h
  · cases h
  · obtain ⟨k₂, hk₂, h⟩ := bind_eq_ok h
    have hk₂n := strnlen_le hk₂
    split at h
    · cases h
    · cases h
      omega

/-! ## The option loops -/

/-- `TFTP_ERR_CODE_BAD_OPTIONS`. -/
def TFTP_ERR_CODE_BAD_OPTIONS : Nat := 8

/-- A `set_error` a handler ends in: the TFTP error code and the text. -/
structure Rejection where
  code : Nat
  text : String
deriving DecidableEq, Repr

section OptionLoop

variable {σ : Type} (msg : List UInt8) (text : String) (step : σ → Nat → Nat → Except Nat (Except Rejection σ))

/-- The option loop of `tftp_handle_request` and of `tftp_handle_oack`:
`next_option` from byte `cur` with `left` bytes left, the pair it finds
handed to `step`, and a message that ends inside a pair rejected with
`text`. The state the loop reached and the rejection, if any: a pass that
rejects changes nothing. Every pass takes at least one byte, so `left`
passes are enough (`optionLoop_succ_fuel`). -/
def optionLoop : Nat → Nat → Nat → σ → Except Nat (σ × Option Rejection)
  | 0, _, _, st => .ok (st, none)
  | fuel + 1, cur, left, st =>
    if left = 0 then .ok (st, none) else do
      match ← next_option msg cur left with
      | none => return (st, some ⟨TFTP_ERR_CODE_BAD_OPTIONS, text⟩)
      | some (offset, option, value) =>
        match ← step st option value with
        | .error r => return (st, some r)
        | .ok st => optionLoop fuel (cur + offset) (left - offset) st

/-- With at least `left` passes of fuel the loop has ended: more fuel
changes nothing. -/
theorem optionLoop_succ_fuel :
    ∀ {fuel cur left : Nat} {st : σ}, left ≤ fuel →
      optionLoop msg text step (fuel + 1) cur left st = optionLoop msg text step fuel cur left st
  | 0, cur, left, st, h => by
    obtain rfl : left = 0 := by omega
    simp [optionLoop]
  | fuel + 1, cur, left, st, h => by
    by_cases hleft : left = 0
    · simp [optionLoop, hleft]
    simp only [optionLoop, if_neg hleft]
    cases hn : next_option msg cur left with
    | error i => rfl
    | ok r =>
      rcases r with _ | ⟨offset, option, value⟩
      · rfl
      · -- the pass took at least one byte, so one pass less of fuel is still enough
        have hoff := (next_option_offset hn).1
        simp only [ok_bind]
        cases hs : step st option value with
        | error i => rfl
        | ok r =>
          rcases r with r | st'
          · rfl
          · exact optionLoop_succ_fuel (by omega)

/-- The option loop reads inside the message, and keeps every invariant that
each pass keeps on the option and value `next_option` found. -/
theorem optionLoop_ok {P : σ → Prop}
    (hstep : ∀ st option value, P st → Terminated msg option → Terminated msg value →
      ∃ r, step st option value = .ok r ∧ ∀ st', r = .ok st' → P st') :
    ∀ (fuel cur left : Nat) (st : σ), cur + left ≤ msg.length → P st →
      ∃ r, optionLoop msg text step fuel cur left st = .ok r ∧ P r.1
  | 0, _, _, st, _, hP => ⟨(st, none), rfl, hP⟩
  | fuel + 1, cur, left, st, hlen, hP => by
    by_cases hleft : left = 0
    · exact ⟨(st, none), by simp [optionLoop, hleft], hP⟩
    simp only [optionLoop, if_neg hleft]
    obtain ⟨r, hn, hspec⟩ := next_option_spec hlen
    rw [hn]
    rcases r with _ | ⟨offset, option, value⟩
    · exact ⟨_, rfl, hP⟩
    obtain ⟨-, hopt, hval, -, hoff⟩ := hspec offset option value rfl
    obtain ⟨r, hs, hkeep⟩ := hstep st option value hP hopt hval
    simp only [ok_bind, hs]
    rcases r with rej | st₁
    · exact ⟨_, rfl, hP⟩
    · -- the rest of the options lie in the rest of the message
      exact optionLoop_ok hstep fuel (cur + offset) (left - offset) st₁ (by omega) (hkeep st₁ rfl)

end OptionLoop

end Zircon.Tftp
