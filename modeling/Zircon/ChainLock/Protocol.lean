import Mathlib

/-!
# Chain locks: acquisition, backoff and release

The chain-lock protocol of `lib/concurrent/chainlock.h` and
`kernel/lib/kconcurrent/chainlock.cc`, as a transition system whose steps are
the atomic accesses of the source, under sequential consistency.

Each of `n` CPUs runs at most one `ChainLockTransaction`, with a token from
`token_generator_`. A lock's `state_` is `kUnlockedToken` or a token; an
acquisition is a compare-and-swap from `kUnlockedToken`, which on failure
retries (a larger token holds the lock), backs off (a smaller one does) or
reports a cycle (its own). Backing off runs `RecordBackoff`: read the CPU's
`chain_lock_conflict_id`, set the CPU's bit in the lock's `contention_mask_`,
and read `state_` again. A release stores `kMaxToken`, exchanges the mask for
`0`, stores `kUnlockedToken`, and then bumps the conflict id of every CPU whose
bit it took. A transaction that got `kBackoff` drops its locks and waits in
`Relax` until its CPU's conflict id moves past the one it recorded.

`held` is the set of locks a transaction holds: a lock is held from the
compare-and-swap that takes it to the store of `kMaxToken` that starts its
release. The trace-accounting path (`kCltTraceAccountingEnabled`) and
`TryAcquire` are not modelled.
-/

namespace Zircon.ChainLock

/-- `Token::kUnlockedTokenValue`. -/
def kUnlockedToken : Nat := 0

/-- `kMaxToken`, the largest 64-bit token: the state of a lock being released. -/
def kMaxToken : Nat := 2 ^ 64 - 1

/-- `Token::kReservedTokens`: the generator starts above it. -/
def kReservedTokens : Nat := 0x10000

/-- `SMP_MAX_CPUS`, as `kernel/params.gni` sets it. -/
def kSmpMaxCpus : Nat := 32

/-- The width of `cpu_mask_t`, a `uint32_t`. -/
def kCpuMaskBits : Nat := 32

/-- `1u << curr_cpu` as a `cpu_mask_t`. -/
def contentionBit (cpu : Nat) : Nat := (1 <<< cpu) % 2 ^ kCpuMaskBits

/-- Where a CPU is. Every phase but `idle` and `ready` stands before one atomic
access of the source. -/
inductive Phase (Lk : Type) where
  /-- No transaction runs on the CPU. -/
  | idle
  /-- Between two operations of the transaction. -/
  | ready
  /-- `state_.compare_exchange_strong(kUnlockedToken, token)`. -/
  | cas (l : Lk)
  /-- `RecordBackoff`: `chain_lock_conflict_id.load()`. -/
  | loadConflictId (l : Lk) (observed : Nat)
  /-- `RecordBackoff`: `contention_mask_.fetch_or(contention_bit)`. -/
  | setContentionBit (l : Lk) (observed conflictId : Nat)
  /-- `RecordBackoff`: `state_.load()`, compared with the observed token. -/
  | recheck (l : Lk) (observed conflictId : Nat)
  /-- `ReleaseInternal`, after `state_.store(kMaxToken)`: `contention_mask_.exchange(0)`. -/
  | exchangeMask (l : Lk)
  /-- `Base::Release()`: `state_.store(kUnlockedToken)`. -/
  | unlock (l : Lk) (wakeMask : Nat)
  /-- The loop over `wake_mask`, at `cpu`, with `wake_mask` shifted by `cpu`. -/
  | wake (l : Lk) (cpu wakeMask : Nat)
  /-- `ChainLockTransaction::Relax`. -/
  | relax
deriving DecidableEq, Repr

/-- The `ChainLockTransaction` running on a CPU. -/
structure Transaction (Lk : Type) where
  /-- `active_token()`. -/
  activeToken : Nat
  /-- `conflict_id_`: the conflict id recorded by a successful `RecordBackoff`. -/
  conflictId : Nat
  /-- The locks the transaction holds. -/
  held : List Lk
  /-- The transaction got `kBackoff` and has not yet passed `Relax`. -/
  backingOff : Bool
  phase : Phase Lk

/-- The shared memory and the CPUs. -/
structure State (n : Nat) (Lk : Type) where
  /-- `state_` of each lock. -/
  state : Lk → Nat
  /-- `contention_mask_` of each lock. -/
  contentionMask : Lk → Nat
  /-- `percpu::chain_lock_conflict_id`. -/
  chainLockConflictId : Fin n → Nat
  /-- `Token::token_generator_`. -/
  tokenGenerator : Nat
  cpus : Fin n → Transaction Lk

/-- What a CPU does next: a call of the API, or the next atomic access of the
call it is in. -/
inductive Action (Lk : Type) where
  | begin
  | acquire (l : Lk)
  | release (l : Lk)
  | relax
  | finish
  | proceed
deriving DecidableEq, Repr

variable {n : Nat} {Lk : Type}

/-- Every lock unlocked with an empty mask, every conflict id at its initial
`1`, and no transaction running. -/
def init : State n Lk :=
  ⟨fun _ => kUnlockedToken, fun _ => 0, fun _ => 1, kReservedTokens + 1,
    fun _ => ⟨0, 0, [], false, .idle⟩⟩

namespace State

/-- CPU `c`'s transaction becomes `t`. -/
def setCpu (s : State n Lk) (c : Fin n) (t : Transaction Lk) : State n Lk :=
  { s with cpus := Function.update s.cpus c t }

/-- CPU `c` moves to phase `p`. -/
def goto (s : State n Lk) (c : Fin n) (p : Phase Lk) : State n Lk :=
  s.setCpu c { s.cpus c with phase := p }

/-- `percpu::Get(cpu).chain_lock_conflict_id.fetch_add(1)`. -/
def bumpConflictId (s : State n Lk) (cpu : Nat) : State n Lk :=
  { s with chainLockConflictId := fun d =>
      if d.val = cpu then s.chainLockConflictId d + 1 else s.chainLockConflictId d }

variable [DecidableEq Lk]

/-- A store to `state_` of lock `l`. -/
def writeState (s : State n Lk) (l : Lk) (v : Nat) : State n Lk :=
  { s with state := Function.update s.state l v }

/-- A store to `contention_mask_` of lock `l`. -/
def writeMask (s : State n Lk) (l : Lk) (v : Nat) : State n Lk :=
  { s with contentionMask := Function.update s.contentionMask l v }

end State

section Steps

variable [DecidableEq Lk]

/-- One step of CPU `c` doing `a`, or `none` when `c` cannot do `a` now. Each
phase of an operation takes `proceed`; the API is called from `idle` and
`ready`, and only as a `ChainLockTransaction` calls it: a transaction that got
`kBackoff` only releases its locks and then goes back to its `Relax` point. The generator never
reaches `kMaxToken`, as the source argues 64-bit tokens never do. -/
def step (s : State n Lk) (c : Fin n) (a : Action Lk) : Option (State n Lk) :=
  match (s.cpus c).phase, a with
  -- `Token()`: `token_generator_.fetch_add(1)`
  | .idle, .begin =>
    if s.tokenGenerator < kMaxToken then
      some { s.setCpu c { s.cpus c with activeToken := s.tokenGenerator, phase := .ready } with
        tokenGenerator := s.tokenGenerator + 1 }
    else none
  | .ready, .acquire l => if (s.cpus c).backingOff then none else some (s.goto c (.cas l))
  -- `ReleaseInternal`: `state_.store(kMaxToken)`
  | .ready, .release l =>
    if l ∈ (s.cpus c).held then
      some ((s.setCpu c
        { s.cpus c with held := (s.cpus c).held.erase l, phase := .exchangeMask l }).writeState
          l kMaxToken)
    else none
  | .ready, .relax =>
    if (s.cpus c).backingOff ∧ (s.cpus c).held = [] then some (s.goto c .relax) else none
  | .ready, .finish =>
    if (s.cpus c).held = [] ∧ (s.cpus c).backingOff = false then some (s.goto c .idle) else none
  | .cas l, .proceed =>
    if s.state l = kUnlockedToken then
      some ((s.setCpu c { s.cpus c with held := l :: (s.cpus c).held, phase := .ready }).writeState
        l (s.cpus c).activeToken)
    -- `kRetry`: `Base::AcquireInternal` yields and tries again
    else if s.state l > (s.cpus c).activeToken then some s
    -- `kBackoff`: `RecordBackoff(observed_token)`
    else if s.state l < (s.cpus c).activeToken then
      some (s.goto c (.loadConflictId l (s.state l)))
    -- `kCycleDetected`, returned to the caller
    else some (s.goto c .ready)
  | .loadConflictId l obs, .proceed =>
    some (s.goto c (.setContentionBit l obs (s.chainLockConflictId c)))
  | .setContentionBit l obs k, .proceed =>
    some ((s.goto c (.recheck l obs k)).writeMask l (s.contentionMask l ||| contentionBit c))
  | .recheck l obs k, .proceed =>
    -- `conflict_id_ = conflict_id`, and `kBackoff` goes back to the caller
    if s.state l = obs then
      some (s.setCpu c { s.cpus c with conflictId := k, backingOff := true, phase := .ready })
    -- `RecordBackoff` failed: `AcquireInternal` loops
    else some (s.goto c (.cas l))
  | .exchangeMask l, .proceed =>
    some ((s.goto c (.unlock l (s.contentionMask l))).writeMask l 0)
  | .unlock l w, .proceed => some ((s.goto c (.wake l 0 w)).writeState l kUnlockedToken)
  | .wake l cpu w, .proceed =>
    if w = 0 then some (s.goto c .ready)
    else if w % 2 = 1 then some ((s.goto c (.wake l (cpu + 1) (w / 2))).bumpConflictId cpu)
    else some (s.goto c (.wake l (cpu + 1) (w / 2)))
  -- `pause`: wait while the conflict id is the recorded one, then clear it
  | .relax, .proceed =>
    if (s.cpus c).conflictId ≠ 0 ∧ s.chainLockConflictId c = (s.cpus c).conflictId then none
    else some (s.setCpu c { s.cpus c with conflictId := 0, backingOff := false, phase := .ready })
  | _, _ => none

/-- The states the CPUs reach from `init`, in any interleaving. -/
inductive Reachable : State n Lk → Prop where
  | init : Reachable init
  | step {s s' : State n Lk} {c : Fin n} {a : Action Lk} :
      Reachable s → step s c a = some s' → Reachable s'

/-- Steps taken one after another. -/
def run (s : State n Lk) : List (Fin n × Action Lk) → Option (State n Lk)
  | [] => some s
  | (c, a) :: rest => (step s c a).bind fun s' => run s' rest

theorem Reachable.run {s s' : State n Lk} (h : Reachable s) :
    ∀ {as : List (Fin n × Action Lk)}, run s as = some s' → Reachable s'
  | [], hr => by
    cases hr
    exact h
  | (c, a) :: rest, hr => by
    simp only [ChainLock.run, Option.bind_eq_some_iff] at hr
    obtain ⟨s₁, h₁, hrest⟩ := hr
    exact Reachable.run (Reachable.step h h₁) hrest

/-! ## What one step does -/

/-- The steps of `step`, one constructor for each branch. -/
inductive Transition (s : State n Lk) (c : Fin n) : State n Lk → Prop where
  | begin (hp : (s.cpus c).phase = .idle) (hg : s.tokenGenerator < kMaxToken) :
      Transition s c { s.setCpu c { s.cpus c with activeToken := s.tokenGenerator, phase := .ready } with
        tokenGenerator := s.tokenGenerator + 1 }
  | acquire (l : Lk) (hp : (s.cpus c).phase = .ready) (hb : (s.cpus c).backingOff = false) :
      Transition s c (s.goto c (.cas l))
  | release (l : Lk) (hp : (s.cpus c).phase = .ready) (hl : l ∈ (s.cpus c).held) :
      Transition s c
        ((s.setCpu c { s.cpus c with held := (s.cpus c).held.erase l, phase := .exchangeMask l }).writeState
          l kMaxToken)
  | relax (hp : (s.cpus c).phase = .ready) (hb : (s.cpus c).backingOff = true)
      (hh : (s.cpus c).held = []) : Transition s c (s.goto c .relax)
  | finish (hp : (s.cpus c).phase = .ready) (hh : (s.cpus c).held = [])
      (hb : (s.cpus c).backingOff = false) : Transition s c (s.goto c .idle)
  | casAcquired (l : Lk) (hp : (s.cpus c).phase = .cas l) (hu : s.state l = kUnlockedToken) :
      Transition s c
        ((s.setCpu c { s.cpus c with held := l :: (s.cpus c).held, phase := .ready }).writeState
          l (s.cpus c).activeToken)
  | casRetry (l : Lk) (hp : (s.cpus c).phase = .cas l) : Transition s c s
  | casBackoff (l : Lk) (hp : (s.cpus c).phase = .cas l) (hu : s.state l ≠ kUnlockedToken)
      (hlt : s.state l < (s.cpus c).activeToken) :
      Transition s c (s.goto c (.loadConflictId l (s.state l)))
  | casCycle (l : Lk) (hp : (s.cpus c).phase = .cas l) : Transition s c (s.goto c .ready)
  | loadConflictId (l : Lk) (obs : Nat) (hp : (s.cpus c).phase = .loadConflictId l obs) :
      Transition s c (s.goto c (.setContentionBit l obs (s.chainLockConflictId c)))
  | setContentionBit (l : Lk) (obs k : Nat) (hp : (s.cpus c).phase = .setContentionBit l obs k) :
      Transition s c ((s.goto c (.recheck l obs k)).writeMask l
        (s.contentionMask l ||| contentionBit c))
  | recheckBackoff (l : Lk) (obs k : Nat) (hp : (s.cpus c).phase = .recheck l obs k)
      (hs : s.state l = obs) :
      Transition s c
        (s.setCpu c { s.cpus c with conflictId := k, backingOff := true, phase := .ready })
  | recheckRetry (l : Lk) (obs k : Nat) (hp : (s.cpus c).phase = .recheck l obs k) :
      Transition s c (s.goto c (.cas l))
  | exchangeMask (l : Lk) (hp : (s.cpus c).phase = .exchangeMask l) :
      Transition s c ((s.goto c (.unlock l (s.contentionMask l))).writeMask l 0)
  | unlock (l : Lk) (w : Nat) (hp : (s.cpus c).phase = .unlock l w) :
      Transition s c ((s.goto c (.wake l 0 w)).writeState l kUnlockedToken)
  | wakeDone (l : Lk) (cpu : Nat) (hp : (s.cpus c).phase = .wake l cpu 0) :
      Transition s c (s.goto c .ready)
  | wakeBit (l : Lk) (cpu w : Nat) (hp : (s.cpus c).phase = .wake l cpu w) (hw : w % 2 = 1) :
      Transition s c ((s.goto c (.wake l (cpu + 1) (w / 2))).bumpConflictId cpu)
  | wakeSkip (l : Lk) (cpu w : Nat) (hp : (s.cpus c).phase = .wake l cpu w) (hw : w % 2 = 0) :
      Transition s c (s.goto c (.wake l (cpu + 1) (w / 2)))
  | relaxDone (hp : (s.cpus c).phase = .relax)
      (hw : (s.cpus c).conflictId = 0 ∨ s.chainLockConflictId c ≠ (s.cpus c).conflictId) :
      Transition s c
        (s.setCpu c { s.cpus c with conflictId := 0, backingOff := false, phase := .ready })

/-- Every step is a `Transition`: the one place `step` is taken apart. -/
theorem step_transition {s s' : State n Lk} {c : Fin n} {a : Action Lk}
    (h : step s c a = some s') : Transition s c s' := by
  unfold step at h
  split at h
  · rename_i hp
    split_ifs at h with hg
    cases h
    exact .begin hp hg
  · rename_i l hp
    split_ifs at h with hb
    cases h
    exact .acquire l hp (by simpa using hb)
  · rename_i l hp
    split_ifs at h with hl
    cases h
    exact .release l hp hl
  · rename_i hp
    split_ifs at h with hb
    cases h
    exact .relax hp (by simpa using hb.1) hb.2
  · rename_i hp
    split_ifs at h with hb
    cases h
    exact .finish hp hb.1 hb.2
  · rename_i l hp
    split_ifs at h with hu hgt hlt
    · cases h
      exact .casAcquired l hp hu
    · cases h
      exact .casRetry l hp
    · cases h
      exact .casBackoff l hp hu hlt
    · cases h
      exact .casCycle l hp
  · rename_i l obs hp
    cases h
    exact .loadConflictId l obs hp
  · rename_i l obs k hp
    cases h
    exact .setContentionBit l obs k hp
  · rename_i l obs k hp
    split_ifs at h with hs
    · cases h
      exact .recheckBackoff l obs k hp hs
    · cases h
      exact .recheckRetry l obs k hp
  · rename_i l hp
    cases h
    exact .exchangeMask l hp
  · rename_i l w hp
    cases h
    exact .unlock l w hp
  · rename_i l cpu w hp
    split_ifs at h with h0 hodd
    · cases h
      subst h0
      exact .wakeDone l cpu hp
    · cases h
      exact .wakeBit l cpu w hp hodd
    · cases h
      exact .wakeSkip l cpu w hp (by omega)
  · rename_i hp
    split_ifs at h with hw
    cases h
    exact .relaxDone hp (by tauto)
  · cases h

end Steps

/-! ## The state updates -/

namespace State

variable (s : State n Lk) (c d : Fin n)

@[simp] theorem setCpu_cpus (t : Transaction Lk) :
    (s.setCpu c t).cpus d = if d = c then t else s.cpus d :=
  Function.update_apply _ _ _ _

@[simp] theorem setCpu_state (t : Transaction Lk) : (s.setCpu c t).state = s.state := rfl

@[simp] theorem setCpu_contentionMask (t : Transaction Lk) :
    (s.setCpu c t).contentionMask = s.contentionMask := rfl

@[simp] theorem setCpu_chainLockConflictId (t : Transaction Lk) :
    (s.setCpu c t).chainLockConflictId = s.chainLockConflictId := rfl

@[simp] theorem setCpu_tokenGenerator (t : Transaction Lk) :
    (s.setCpu c t).tokenGenerator = s.tokenGenerator := rfl

@[simp] theorem goto_eq (p : Phase Lk) : s.goto c p = s.setCpu c { s.cpus c with phase := p } :=
  rfl

@[simp] theorem bumpConflictId_chainLockConflictId (cpu : Nat) :
    (s.bumpConflictId cpu).chainLockConflictId d =
      if d.val = cpu then s.chainLockConflictId d + 1 else s.chainLockConflictId d := rfl

@[simp] theorem bumpConflictId_cpus (cpu : Nat) : (s.bumpConflictId cpu).cpus = s.cpus := rfl

@[simp] theorem bumpConflictId_state (cpu : Nat) : (s.bumpConflictId cpu).state = s.state := rfl

@[simp] theorem bumpConflictId_contentionMask (cpu : Nat) :
    (s.bumpConflictId cpu).contentionMask = s.contentionMask := rfl

@[simp] theorem bumpConflictId_tokenGenerator (cpu : Nat) :
    (s.bumpConflictId cpu).tokenGenerator = s.tokenGenerator := rfl



variable [DecidableEq Lk]

@[simp] theorem writeState_state (l : Lk) (v : Nat) (l' : Lk) :
    (s.writeState l v).state l' = if l' = l then v else s.state l' :=
  Function.update_apply _ _ _ _

@[simp] theorem writeState_cpus (l : Lk) (v : Nat) : (s.writeState l v).cpus = s.cpus := rfl

@[simp] theorem writeState_contentionMask (l : Lk) (v : Nat) :
    (s.writeState l v).contentionMask = s.contentionMask := rfl

@[simp] theorem writeState_chainLockConflictId (l : Lk) (v : Nat) :
    (s.writeState l v).chainLockConflictId = s.chainLockConflictId := rfl

@[simp] theorem writeState_tokenGenerator (l : Lk) (v : Nat) :
    (s.writeState l v).tokenGenerator = s.tokenGenerator := rfl

@[simp] theorem writeMask_contentionMask (l : Lk) (v : Nat) (l' : Lk) :
    (s.writeMask l v).contentionMask l' = if l' = l then v else s.contentionMask l' :=
  Function.update_apply _ _ _ _

@[simp] theorem writeMask_cpus (l : Lk) (v : Nat) : (s.writeMask l v).cpus = s.cpus := rfl

@[simp] theorem writeMask_state (l : Lk) (v : Nat) : (s.writeMask l v).state = s.state := rfl

@[simp] theorem writeMask_chainLockConflictId (l : Lk) (v : Nat) :
    (s.writeMask l v).chainLockConflictId = s.chainLockConflictId := rfl

@[simp] theorem writeMask_tokenGenerator (l : Lk) (v : Nat) :
    (s.writeMask l v).tokenGenerator = s.tokenGenerator := rfl

end State

end Zircon.ChainLock
