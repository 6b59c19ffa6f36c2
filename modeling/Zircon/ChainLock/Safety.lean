import Mathlib
import Zircon.ChainLock.Protocol

/-!
# Chain locks in every interleaving

From `init`, in any interleaving of at most `SMP_MAX_CPUS` CPUs, each lock is
free, released by one CPU, or held by one running transaction whose token is its
state (`LockState`), and `RecordBackoff` runs only on a token smaller than the
CPU's own. These facts and the pending wakes below make `Inv`, which every step
keeps (`Inv.step`).

A CPU that backed off waits in `Relax` until its conflict id moves. What ends
the wait is `Owed`: the CPU's bit is in the contention mask of a lock that a CPU
holds, or a release took the bit and has yet to bump the CPU. `RecordBackoff`
returns `true` only when such a bump is owed, and the bump stays owed until it
is made (`owed_run`). It need not come from the *next* release of the lock: a
release that took the bit before the lock changed hands may still be running
when the next one has finished.
-/

namespace Zircon.ChainLock

variable {n : Nat} {Lk : Type}

namespace Phase

/-- The phases of a release of `l` from its store of `kMaxToken` to its store
of `kUnlockedToken`. -/
def Releasing (l : Lk) : Phase Lk → Prop
  | .exchangeMask l' => l' = l
  | .unlock l' _ => l' = l
  | _ => False

/-- The phases of a release of `l`, from its store of `kMaxToken` until
`ReleaseInternal` returns. -/
def InRelease (l : Lk) : Phase Lk → Prop
  | .exchangeMask l' => l' = l
  | .unlock l' _ => l' = l
  | .wake l' _ _ => l' = l
  | _ => False

/-- The phases of `RecordBackoff`, with the token `obs` its compare-and-swap saw. -/
def Observed (obs : Nat) : Phase Lk → Prop
  | .loadConflictId _ o => o = obs
  | .setContentionBit _ o _ => o = obs
  | .recheck _ o _ => o = obs
  | _ => False

end Phase

/-! ## Wakes owed to a CPU that backed off -/

section Owed

variable (s : State n Lk) (c : Fin n) (l : Lk)

/-- A release of `l` took CPU `c`'s bit out of the contention mask and has not
yet bumped `c`'s conflict id: it is before its store of `kUnlockedToken` with the
bit in the mask it took, or in its loop over that mask, not yet past `c`. -/
def InFlight : Prop :=
  (∃ d w, (s.cpus d).phase = .unlock l w ∧ w.testBit c) ∨
    ∃ d cpu w, (s.cpus d).phase = .wake l cpu w ∧ cpu ≤ c ∧ w.testBit (c - cpu)

/-- CPU `c`'s bit is in the contention mask of `l`, or a release of `l` took it
and has yet to bump `c`. -/
def Pending : Prop := (s.contentionMask l).testBit c ∨ InFlight s c l

/-- A release of `l` owes CPU `c` a bump of its conflict id: `c`'s bit is in the
contention mask of `l` while a CPU holds `l` or is about to take the mask, or a
release took the bit and has yet to bump `c`. -/
def Owed : Prop :=
  ((s.contentionMask l).testBit c ∧ ∃ d, l ∈ (s.cpus d).held ∨ (s.cpus d).phase = .exchangeMask l) ∨
    InFlight s c l

end Owed

/-- No bump is owed for a lock that no CPU holds or releases. -/
theorem not_owed_of_quiet {s : State n Lk} {c : Fin n} {l : Lk}
    (hq : ∀ d, l ∉ (s.cpus d).held ∧ ¬(s.cpus d).phase.InRelease l) : ¬Owed s c l := by
  intro ho
  rcases ho with ⟨-, d, hd | hd⟩ | ⟨d, w, hd, -⟩ | ⟨d, cpu, w, hd, -, -⟩
  · exact (hq d).1 hd
  all_goals
    apply (hq d).2
    rw [hd]
    rfl

/-! ## Locks -/

/-- Lock `l` is free, released by one CPU that has yet to store
`kUnlockedToken`, or held by one transaction whose token is its state. -/
inductive LockState (s : State n Lk) (l : Lk) : Prop where
  | free (hs : s.state l = kUnlockedToken) (hh : ∀ d, l ∉ (s.cpus d).held)
      (hr : ∀ d, ¬(s.cpus d).phase.Releasing l)
  | releasing (d : Fin n) (hs : s.state l = kMaxToken) (hh : ∀ d, l ∉ (s.cpus d).held)
      (hd : (s.cpus d).phase.Releasing l) (hr : ∀ d', (s.cpus d').phase.Releasing l → d' = d)
  | held (d : Fin n) (hd : l ∈ (s.cpus d).held) (hs : s.state l = (s.cpus d).activeToken)
      (hh : ∀ d', l ∈ (s.cpus d').held → d' = d) (hr : ∀ d', ¬(s.cpus d').phase.Releasing l)

/-- A step leaves lock `l` as it was: its state, which CPUs hold it or release
it, and the tokens of running transactions. -/
structure Unmoved (s s' : State n Lk) (l : Lk) : Prop where
  state_eq : s'.state l = s.state l
  held_iff : ∀ d, l ∈ (s'.cpus d).held ↔ l ∈ (s.cpus d).held
  releasing_iff : ∀ d, (s'.cpus d).phase.Releasing l ↔ (s.cpus d).phase.Releasing l
  token_eq : ∀ d, (s.cpus d).phase ≠ .idle → (s'.cpus d).activeToken = (s.cpus d).activeToken

section Unmoved

variable {s s' : State n Lk} {c : Fin n} {l : Lk}

/-- A lock that a step leaves as it was keeps its state. -/
theorem LockState.unmoved (hl : LockState s l) (hrun : ∀ d, l ∈ (s.cpus d).held → (s.cpus d).phase ≠ .idle)
    (hu : Unmoved s s' l) : LockState s' l := by
  cases hl with
  | free hs hh hr =>
    exact .free (by rw [hu.state_eq]; exact hs) (fun d => by rw [hu.held_iff]; exact hh d)
      (fun d => by rw [hu.releasing_iff]; exact hr d)
  | releasing d hs hh hd hr =>
    exact .releasing d (by rw [hu.state_eq]; exact hs) (fun d' => by rw [hu.held_iff]; exact hh d')
      ((hu.releasing_iff d).mpr hd) (fun d' hd' => hr d' ((hu.releasing_iff d').mp hd'))
  | held d hd hs hh hr =>
    exact .held d ((hu.held_iff d).mpr hd) (by rw [hu.state_eq, hs, hu.token_eq d (hrun d hd)])
      (fun d' hd' => hh d' ((hu.held_iff d').mp hd')) (fun d' => by rw [hu.releasing_iff]; exact hr d')

/-- A change of CPU `c` alone that keeps whether it holds or releases `l`, and its
token while it runs, leaves `l` as it was. -/
theorem unmoved_setCpu {t : Transaction Lk} (hheld : l ∈ t.held ↔ l ∈ (s.cpus c).held)
    (hrel : t.phase.Releasing l ↔ (s.cpus c).phase.Releasing l)
    (htok : (s.cpus c).phase ≠ .idle → t.activeToken = (s.cpus c).activeToken) :
    Unmoved s (s.setCpu c t) l where
  state_eq := rfl
  held_iff d := by
    by_cases hd : d = c
    · subst hd
      simpa using hheld
    · simp [hd]
  releasing_iff d := by
    by_cases hd : d = c
    · subst hd
      simpa using hrel
    · simp [hd]
  token_eq d hrun := by
    by_cases hd : d = c
    · subst hd
      simpa using htok hrun
    · simp [hd]

theorem Unmoved.setGenerator {g : Nat} (hu : Unmoved s s' l) : Unmoved s { s' with tokenGenerator := g } l :=
  ⟨hu.state_eq, hu.held_iff, hu.releasing_iff, hu.token_eq⟩

theorem Unmoved.bumpConflictId {cpu : Nat} (hu : Unmoved s s' l) : Unmoved s (s'.bumpConflictId cpu) l :=
  ⟨hu.state_eq, hu.held_iff, hu.releasing_iff, hu.token_eq⟩

end Unmoved

/-! ## What holds in every reachable state -/

/-- What holds in every state the CPUs reach from `init`. -/
structure Inv (s : State n Lk) : Prop where
  /-- Tokens are handed out above the reserved ones, and never reach `kMaxToken`. -/
  generator : kReservedTokens < s.tokenGenerator ∧ s.tokenGenerator ≤ kMaxToken
  /-- A running transaction's token has been handed out. -/
  token_lt : ∀ c, (s.cpus c).phase ≠ .idle →
    kReservedTokens < (s.cpus c).activeToken ∧ (s.cpus c).activeToken < s.tokenGenerator
  /-- Only a running transaction holds locks, each once. -/
  held_running : ∀ c l, l ∈ (s.cpus c).held → (s.cpus c).phase ≠ .idle
  held_nodup : ∀ c, (s.cpus c).held.Nodup
  lock : ∀ l, LockState s l
  /-- `RecordBackoff` runs on a token smaller than its own. -/
  observed : ∀ c obs, (s.cpus c).phase.Observed obs → kUnlockedToken < obs ∧ obs < (s.cpus c).activeToken
  /-- The conflict id `RecordBackoff` read is not past the CPU's, -/
  conflict_le : ∀ c l obs k,
    ((s.cpus c).phase = .setContentionBit l obs k ∨ (s.cpus c).phase = .recheck l obs k) →
      k ≤ s.chainLockConflictId c
  /-- and once its bit is set, a release of the lock owes it a bump until it has had one. -/
  recheck_pending : ∀ c l obs k, (s.cpus c).phase = .recheck l obs k → s.chainLockConflictId c = k →
    Pending s c l

theorem inv_init : Inv (init : State n Lk) where
  generator :=
    ⟨Nat.lt_succ_self _, show kReservedTokens + 1 ≤ kMaxToken by norm_num [kReservedTokens, kMaxToken]⟩
  token_lt _ hc := absurd rfl hc
  held_running _ _ hl := absurd hl List.not_mem_nil
  held_nodup _ := List.nodup_nil
  lock _ := .free rfl (fun _ => List.not_mem_nil) (fun _ => not_false)
  observed _ _ ho := ho.elim
  conflict_le _ _ _ _ hp := by simp [init] at hp
  recheck_pending _ _ _ _ hp := by simp [init] at hp

section Facts

variable {s : State n Lk} {c : Fin n} {l : Lk}

/-- A lock is free when its state is `kUnlockedToken`. -/
theorem Inv.not_mem_held_of_unlocked (h : Inv s) {l : Lk} (hs : s.state l = kUnlockedToken) (d : Fin n) :
    l ∉ (s.cpus d).held := by
  cases h.lock l with
  | free _ hh _ => exact hh d
  | releasing _ hs' hh _ _ => exact hh d
  | held d' hd' hs' hh _ =>
    intro hd
    have := (h.token_lt d' (h.held_running d' l hd')).1
    rw [hs] at hs'
    unfold kUnlockedToken at hs'
    omega

/-- A free lock is not being released. -/
theorem Inv.not_releasing_of_unlocked (h : Inv s) (hs : s.state l = kUnlockedToken) (d : Fin n) :
    ¬(s.cpus d).phase.Releasing l := by
  cases h.lock l with
  | free _ _ hr => exact hr d
  | releasing _ hs' _ _ _ =>
    rw [hs] at hs'
    exact absurd hs' (by decide)
  | held _ _ _ _ hr => exact hr d

/-- A lock that `c` holds is held by `c` alone, and not being released. -/
theorem Inv.held_by (h : Inv s) (hl : l ∈ (s.cpus c).held) :
    (∀ d, l ∈ (s.cpus d).held → d = c) ∧ (∀ d, ¬(s.cpus d).phase.Releasing l) ∧
      s.state l = (s.cpus c).activeToken := by
  cases h.lock l with
  | free _ hh _ => exact absurd hl (hh c)
  | releasing _ _ hh _ _ => exact absurd hl (hh c)
  | held d hd hs hh hr =>
    have hcd := hh c hl
    subst hcd
    exact ⟨hh, hr, hs⟩

/-- A lock that `c` releases is held by none, and released by `c` alone. -/
theorem Inv.releasing_by (h : Inv s) (hr : (s.cpus c).phase.Releasing l) :
    (∀ d, l ∉ (s.cpus d).held) ∧ ∀ d, (s.cpus d).phase.Releasing l → d = c := by
  cases h.lock l with
  | free _ _ hr' => exact absurd hr (hr' c)
  | releasing d _ hh _ hu =>
    have hcd := hu c hr
    subst hcd
    exact ⟨hh, hu⟩
  | held _ _ _ _ hr' => exact absurd hr (hr' c)

/-- A bump is owed to `c` for a lock whose state is a token if `c`'s bit is pending in it:
the lock is then held. -/
theorem Inv.owed_of_pending (h : Inv s) (hp : Pending s c l) (h0 : s.state l ≠ kUnlockedToken)
    (hmax : s.state l ≠ kMaxToken) : Owed s c l := by
  rcases hp with hb | hf
  · cases h.lock l with
    | free hs _ _ => exact absurd hs h0
    | releasing _ hs _ _ _ => exact absurd hs hmax
    | held d hd _ _ _ => exact .inl ⟨hb, d, .inl hd⟩
  · exact .inr hf

end Facts

/-! ## What a step does -/

variable [DecidableEq Lk]

namespace Transition

variable {s s' : State n Lk} {c : Fin n}

/-- A step of `c` leaves every other CPU as it was. -/
theorem cpus_of_ne (ht : Transition s c s') {d : Fin n} (hd : d ≠ c) : s'.cpus d = s.cpus d := by
  cases ht <;> simp [hd]

/-- Conflict ids only grow. -/
theorem chainLockConflictId_le (ht : Transition s c s') (d : Fin n) :
    s.chainLockConflictId d ≤ s'.chainLockConflictId d := by
  cases ht with
  | wakeBit l cpu w hp hw =>
    simp only [State.bumpConflictId_chainLockConflictId, State.goto_eq, State.setCpu_chainLockConflictId]
    split <;> omega
  | _ => simp

/-- Only the loop of a release bumps a conflict id. -/
theorem chainLockConflictId_eq (ht : Transition s c s')
    (hw : ∀ l cpu w, (s.cpus c).phase ≠ .wake l cpu w) : s'.chainLockConflictId = s.chainLockConflictId := by
  cases ht with
  | wakeBit l cpu w hp hodd => exact absurd hp (hw l cpu w)
  | _ => simp

theorem tokenGenerator_le (ht : Transition s c s') : s.tokenGenerator ≤ s'.tokenGenerator := by
  cases ht with
  | begin hp hg => simp
  | _ => simp

/-- A running CPU after a step began its transaction in it, with the next token,
or was running and kept its token. -/
theorem running_cases (ht : Transition s c s') (hrun : (s'.cpus c).phase ≠ .idle) :
    ((s.cpus c).phase = .idle ∧ (s'.cpus c).activeToken = s.tokenGenerator ∧
        s'.tokenGenerator = s.tokenGenerator + 1) ∨
      ((s.cpus c).phase ≠ .idle ∧ (s'.cpus c).activeToken = (s.cpus c).activeToken ∧
        s'.tokenGenerator = s.tokenGenerator) := by
  cases ht with
  | begin hp hg => exact .inl ⟨hp, by simp, rfl⟩
  | finish hp hh hb => simp at hrun
  | casRetry l hp => exact .inr ⟨hrun, rfl, rfl⟩
  | acquire l hp hb => exact .inr ⟨by simp [hp], by simp, rfl⟩
  | release l hp hl => exact .inr ⟨by simp [hp], by simp, rfl⟩
  | relax hp hb hh => exact .inr ⟨by simp [hp], by simp, rfl⟩
  | casAcquired l hp hu => exact .inr ⟨by simp [hp], by simp, rfl⟩
  | casBackoff l hp hu hlt => exact .inr ⟨by simp [hp], by simp, rfl⟩
  | casCycle l hp => exact .inr ⟨by simp [hp], by simp, rfl⟩
  | loadConflictId l obs hp => exact .inr ⟨by simp [hp], by simp, rfl⟩
  | setContentionBit l obs k hp => exact .inr ⟨by simp [hp], by simp, rfl⟩
  | recheckBackoff l obs k hp hs => exact .inr ⟨by simp [hp], by simp, rfl⟩
  | recheckRetry l obs k hp => exact .inr ⟨by simp [hp], by simp, rfl⟩
  | exchangeMask l hp => exact .inr ⟨by simp [hp], by simp, rfl⟩
  | unlock l w hp => exact .inr ⟨by simp [hp], by simp, rfl⟩
  | wakeDone l cpu hp => exact .inr ⟨by simp [hp], by simp, rfl⟩
  | wakeBit l cpu w hp hw => exact .inr ⟨by simp [hp], by simp, rfl⟩
  | wakeSkip l cpu w hp hw => exact .inr ⟨by simp [hp], by simp, rfl⟩
  | relaxDone hp hw => exact .inr ⟨by simp [hp], by simp, rfl⟩

/-- A CPU goes idle only by finishing, with no lock held. -/
theorem held_of_idle (ht : Transition s c s') (hidle : (s'.cpus c).phase = .idle) :
    (s'.cpus c).held = [] := by
  cases ht with
  | finish hp hh hb => simpa using hh
  | casRetry l hp =>
    rw [hp] at hidle
    cases hidle
  | _ => simp at hidle

/-- From `exchangeMask l`, the release takes the contention mask. -/
theorem eq_of_exchangeMask {l : Lk} (ht : Transition s c s') (hp : (s.cpus c).phase = .exchangeMask l) :
    s' = (s.goto c (.unlock l (s.contentionMask l))).writeMask l 0 := by
  cases ht with
  | exchangeMask l' hp' =>
    rw [hp] at hp'
    cases hp'
    rfl
  | _ => simp_all

/-- From `unlock l w`, the release stores `kUnlockedToken` and starts its loop
over `w`. -/
theorem eq_of_unlock {l : Lk} {w : Nat} (ht : Transition s c s') (hp : (s.cpus c).phase = .unlock l w) :
    s' = (s.goto c (.wake l 0 w)).writeState l kUnlockedToken := by
  cases ht with
  | unlock l' w' hp' =>
    rw [hp] at hp'
    cases hp'
    rfl
  | _ => simp_all

/-- From `wake l cpu w`, the loop ends, bumps `cpu` and moves on, or moves on. -/
theorem eq_of_wake {l : Lk} {cpu w : Nat} (ht : Transition s c s') (hp : (s.cpus c).phase = .wake l cpu w) :
    (w = 0 ∧ s' = s.goto c .ready) ∨
      (w % 2 = 1 ∧ s' = (s.goto c (.wake l (cpu + 1) (w / 2))).bumpConflictId cpu) ∨
      (w % 2 = 0 ∧ s' = s.goto c (.wake l (cpu + 1) (w / 2))) := by
  cases ht with
  | wakeDone l' cpu' hp' =>
    rw [hp] at hp'
    cases hp'
    exact .inl ⟨rfl, rfl⟩
  | wakeBit l' cpu' w' hp' hw =>
    rw [hp] at hp'
    cases hp'
    exact .inr (.inl ⟨hw, rfl⟩)
  | wakeSkip l' cpu' w' hp' hw =>
    rw [hp] at hp'
    cases hp'
    exact .inr (.inr ⟨hw, rfl⟩)
  | _ => simp_all

end Transition

section Moves

variable {s s' : State n Lk} {c e : Fin n} {l : Lk}

theorem Unmoved.writeMask {l' : Lk} {v : Nat} (hu : Unmoved s s' l) : Unmoved s (s'.writeMask l' v) l :=
  ⟨hu.state_eq, hu.held_iff, hu.releasing_iff, hu.token_eq⟩

theorem Unmoved.writeState {l' : Lk} {v : Nat} (hu : Unmoved s s' l) (hl : l ≠ l') :
    Unmoved s (s'.writeState l' v) l :=
  ⟨by simp [hl, hu.state_eq], hu.held_iff, hu.releasing_iff, hu.token_eq⟩

/-- A step leaves `l` as it was, or takes it from free, starts its release, or
stores `kUnlockedToken` to it. -/
theorem Transition.unmoved_or (ht : Transition s c s') (l : Lk) :
    Unmoved s s' l ∨
      ((s.cpus c).phase = .cas l ∧ s.state l = kUnlockedToken ∧
        s' = (s.setCpu c { s.cpus c with held := l :: (s.cpus c).held, phase := .ready }).writeState
          l (s.cpus c).activeToken) ∨
      ((s.cpus c).phase = .ready ∧ l ∈ (s.cpus c).held ∧
        s' = (s.setCpu c { s.cpus c with held := (s.cpus c).held.erase l, phase := .exchangeMask l }).writeState
          l kMaxToken) ∨
      (∃ w, (s.cpus c).phase = .unlock l w ∧ s' = (s.goto c (.wake l 0 w)).writeState l kUnlockedToken) := by
  cases ht with
  | begin hp hg =>
    exact .inl (Unmoved.setGenerator
      (unmoved_setCpu Iff.rfl (by simp [hp, Phase.Releasing]) (fun h => absurd hp h)))
  | acquire l' hp hb => exact .inl (unmoved_setCpu Iff.rfl (by simp [hp, Phase.Releasing]) (fun _ => rfl))
  | release l' hp hl =>
    by_cases hll : l = l'
    · subst hll
      exact .inr (.inr (.inl ⟨hp, hl, rfl⟩))
    · refine .inl (Unmoved.writeState
        (unmoved_setCpu ?_ (by simp [hp, Phase.Releasing, Ne.symm hll]) (fun _ => rfl)) hll)
      exact List.mem_erase_of_ne hll
  | relax hp hb hh => exact .inl (unmoved_setCpu Iff.rfl (by simp [hp, Phase.Releasing]) (fun _ => rfl))
  | finish hp hh hb => exact .inl (unmoved_setCpu Iff.rfl (by simp [hp, Phase.Releasing]) (fun _ => rfl))
  | casAcquired l' hp hu =>
    by_cases hll : l = l'
    · subst hll
      exact .inr (.inl ⟨hp, hu, rfl⟩)
    · refine .inl (Unmoved.writeState (unmoved_setCpu ?_ (by simp [hp, Phase.Releasing]) (fun _ => rfl)) hll)
      simp [hll]
  | casRetry l' hp => exact .inl ⟨rfl, fun _ => Iff.rfl, fun _ => Iff.rfl, fun _ _ => rfl⟩
  | casBackoff l' hp hu hlt =>
    exact .inl (unmoved_setCpu Iff.rfl (by simp [hp, Phase.Releasing]) (fun _ => rfl))
  | casCycle l' hp => exact .inl (unmoved_setCpu Iff.rfl (by simp [hp, Phase.Releasing]) (fun _ => rfl))
  | loadConflictId l' obs hp =>
    exact .inl (unmoved_setCpu Iff.rfl (by simp [hp, Phase.Releasing]) (fun _ => rfl))
  | setContentionBit l' obs k hp =>
    exact .inl (Unmoved.writeMask (unmoved_setCpu Iff.rfl (by simp [hp, Phase.Releasing]) (fun _ => rfl)))
  | recheckBackoff l' obs k hp hs =>
    exact .inl (unmoved_setCpu Iff.rfl (by simp [hp, Phase.Releasing]) (fun _ => rfl))
  | recheckRetry l' obs k hp =>
    exact .inl (unmoved_setCpu Iff.rfl (by simp [hp, Phase.Releasing]) (fun _ => rfl))
  | exchangeMask l' hp =>
    exact .inl (Unmoved.writeMask (unmoved_setCpu Iff.rfl (by simp [hp, Phase.Releasing]) (fun _ => rfl)))
  | unlock l' w hp =>
    by_cases hll : l = l'
    · subst hll
      exact .inr (.inr (.inr ⟨w, hp, rfl⟩))
    · exact .inl (Unmoved.writeState
        (unmoved_setCpu Iff.rfl (by simp [hp, Phase.Releasing, Ne.symm hll]) (fun _ => rfl)) hll)
  | wakeDone l' cpu hp => exact .inl (unmoved_setCpu Iff.rfl (by simp [hp, Phase.Releasing]) (fun _ => rfl))
  | wakeBit l' cpu w hp hw =>
    exact .inl (Unmoved.bumpConflictId (unmoved_setCpu Iff.rfl (by simp [hp, Phase.Releasing]) (fun _ => rfl)))
  | wakeSkip l' cpu w hp hw =>
    exact .inl (unmoved_setCpu Iff.rfl (by simp [hp, Phase.Releasing]) (fun _ => rfl))
  | relaxDone hp hw => exact .inl (unmoved_setCpu Iff.rfl (by simp [hp, Phase.Releasing]) (fun _ => rfl))

/-- The loop over a wake mask, past a CPU that is not `c`, keeps `c`'s bit ahead. -/
theorem testBit_div_two_of_ne {w cpu : Nat} (hle : cpu ≤ c) (hne : cpu ≠ c.val) (hw : w.testBit (c - cpu)) :
    (w / 2).testBit (c - (cpu + 1)) := by
  rw [Nat.testBit_div_two, show c.val - (cpu + 1) + 1 = c.val - cpu by omega]
  exact hw

/-- Until it bumps `c`, a release that took `c`'s bit keeps it. -/
theorem InFlight.step (hf : InFlight s c l) (ht : Transition s e s')
    (hid : s'.chainLockConflictId c = s.chainLockConflictId c) : InFlight s' c l := by
  rcases hf with ⟨d, w, hd, hw⟩ | ⟨d, cpu, w, hd, hle, hw⟩
  · by_cases hde : d = e
    · subst hde
      -- the store of `kUnlockedToken`: the loop starts at CPU `0`
      rw [ht.eq_of_unlock hd]
      exact .inr ⟨d, 0, w, by simp, Nat.zero_le _, by simpa using hw⟩
    · exact .inl ⟨d, w, by rw [ht.cpus_of_ne hde]; exact hd, hw⟩
  · by_cases hde : d = e
    swap
    · exact .inr ⟨d, cpu, w, by rw [ht.cpus_of_ne hde]; exact hd, hle, hw⟩
    subst hde
    rcases ht.eq_of_wake hd with ⟨rfl, -⟩ | ⟨hodd, rfl⟩ | ⟨heven, rfl⟩
    · simp at hw
    · -- bit `cpu` is set, and bumping `c` would change its conflict id
      have hne : cpu ≠ c.val := by
        intro hc
        simp [hc] at hid
      exact .inr ⟨d, cpu + 1, w / 2, by simp, by omega, testBit_div_two_of_ne hle hne hw⟩
    · -- bit `cpu` is clear, so it is not `c`'s
      have hne : cpu ≠ c.val := by
        intro hc
        rw [hc, Nat.sub_self, Nat.testBit_zero] at hw
        simp [heven] at hw
      exact .inr ⟨d, cpu + 1, w / 2, by simp, by omega, testBit_div_two_of_ne hle hne hw⟩

/-- Only the release that takes the contention mask of `l` clears a bit of it. -/
theorem Transition.testBit_contentionMask (ht : Transition s e s') (hx : (s.cpus e).phase ≠ .exchangeMask l)
    (hb : (s.contentionMask l).testBit c) : (s'.contentionMask l).testBit c := by
  cases ht with
  | setContentionBit l' obs k hp =>
    simp only [State.writeMask_contentionMask, State.goto_eq, State.setCpu_contentionMask]
    split
    · next hl =>
      subst hl
      rw [Nat.testBit_or, hb, Bool.true_or]
    · exact hb
  | exchangeMask l' hp =>
    have hl : l ≠ l' := by
      intro hl
      rw [hl] at hx
      exact hx hp
    simpa [hl] using hb
  | _ => simpa using hb

/-- Only the release that takes the contention mask of `l` stops holding `l`
or being about to take its mask. -/
theorem Transition.holder (ht : Transition s e s') (hx : (s.cpus e).phase ≠ .exchangeMask l)
    (hh : ∃ d, l ∈ (s.cpus d).held ∨ (s.cpus d).phase = .exchangeMask l) :
    ∃ d, l ∈ (s'.cpus d).held ∨ (s'.cpus d).phase = .exchangeMask l := by
  obtain ⟨d, hd⟩ := hh
  by_cases hde : d = e
  swap
  · exact ⟨d, by rw [ht.cpus_of_ne hde]; exact hd⟩
  subst hde
  rcases hd with hd | hd
  swap
  · exact absurd hd hx
  refine ⟨d, ?_⟩
  cases ht with
  | release l' hp hl =>
    -- a release of `l` is about to take its mask; of another lock, keeps `l`
    by_cases hl' : l = l'
    · subst hl'
      exact .inr (by simp)
    · exact .inl (by simpa using (List.mem_erase_of_ne hl').mpr hd)
  | finish hp hh hb =>
    rw [hh] at hd
    cases hd
  | casAcquired l' hp hu => exact .inl (by simp [hd])
  | _ => exact .inl (by simpa using hd)

/-- A release owes `c` what it owed, until `c` is bumped. -/
theorem Pending.step (hp : Pending s c l) (ht : Transition s e s')
    (hid : s'.chainLockConflictId c = s.chainLockConflictId c) : Pending s' c l := by
  by_cases hx : (s.cpus e).phase = .exchangeMask l
  · -- the release takes the mask, and `c`'s bit with it
    rcases hp with hb | hf
    · rw [ht.eq_of_exchangeMask hx]
      exact .inr (.inl ⟨e, _, by simp, hb⟩)
    · exact .inr (hf.step ht hid)
  · rcases hp with hb | hf
    · exact .inl (ht.testBit_contentionMask hx hb)
    · exact .inr (hf.step ht hid)

/-- A bump owed to `c` stays owed until `c` is bumped. -/
theorem Owed.step (ho : Owed s c l) (ht : Transition s e s')
    (hid : s'.chainLockConflictId c = s.chainLockConflictId c) : Owed s' c l := by
  by_cases hx : (s.cpus e).phase = .exchangeMask l
  · rcases ho with ⟨hb, -⟩ | hf
    · rw [ht.eq_of_exchangeMask hx]
      exact .inr (.inl ⟨e, _, by simp, hb⟩)
    · exact .inr (hf.step ht hid)
  · rcases ho with ⟨hb, hh⟩ | hf
    · exact .inl ⟨ht.testBit_contentionMask hx hb, ht.holder hx hh⟩
    · exact .inr (hf.step ht hid)

end Moves

/-! ## Each step keeps the invariant -/

section Step

variable {s s' : State n Lk} {c : Fin n}

theorem Inv.generator_step (h : Inv s) (ht : Transition s c s') :
    kReservedTokens < s'.tokenGenerator ∧ s'.tokenGenerator ≤ kMaxToken := by
  have := h.generator
  cases ht with
  | begin hp hg =>
    simp only
    omega
  | _ => simpa using this

theorem Inv.token_lt_step (h : Inv s) (ht : Transition s c s') (d : Fin n) (hd : (s'.cpus d).phase ≠ .idle) :
    kReservedTokens < (s'.cpus d).activeToken ∧ (s'.cpus d).activeToken < s'.tokenGenerator := by
  have hgen := ht.tokenGenerator_le
  by_cases hdc : d = c
  swap
  · rw [ht.cpus_of_ne hdc] at hd ⊢
    have := h.token_lt d hd
    omega
  subst hdc
  rcases ht.running_cases hd with ⟨-, htok, hgen'⟩ | ⟨hrun, htok, hgen'⟩
  · -- the transaction begins with the next token
    have := h.generator
    rw [htok, hgen']
    omega
  · rw [htok, hgen']
    exact h.token_lt d hrun

theorem Inv.held_running_step (h : Inv s) (ht : Transition s c s') (d : Fin n) (l : Lk)
    (hl : l ∈ (s'.cpus d).held) : (s'.cpus d).phase ≠ .idle := by
  intro hidle
  by_cases hdc : d = c
  · subst hdc
    rw [ht.held_of_idle hidle] at hl
    cases hl
  · rw [ht.cpus_of_ne hdc] at hl hidle
    exact h.held_running d l hl hidle

theorem Inv.held_nodup_step (h : Inv s) (ht : Transition s c s') (d : Fin n) : (s'.cpus d).held.Nodup := by
  by_cases hdc : d = c
  swap
  · rw [ht.cpus_of_ne hdc]
    exact h.held_nodup d
  subst hdc
  cases ht with
  | release l hp hl => simpa using (h.held_nodup d).erase l
  | casAcquired l hp hu =>
    simpa using ⟨h.not_mem_held_of_unlocked hu d, h.held_nodup d⟩
  | _ => simpa using h.held_nodup d

/-- Each step keeps every lock free, released by one CPU, or held by one. -/
theorem Inv.lock_step (h : Inv s) (ht : Transition s c s') (l : Lk) : LockState s' l := by
  rcases ht.unmoved_or l with hu | ⟨hp, hfree, rfl⟩ | ⟨hp, hl, rfl⟩ | ⟨w, hp, rfl⟩
  · exact (h.lock l).unmoved (fun d => h.held_running d l) hu
  · -- `c` takes the free lock
    refine .held c (by simp) (by simp) (fun d hd => ?_) (fun d => ?_)
    · by_contra hdc
      simp only [State.writeState_cpus, State.setCpu_cpus, hdc, if_false] at hd
      exact h.not_mem_held_of_unlocked hfree d hd
    · by_cases hdc : d = c
      · subst hdc
        simp [Phase.Releasing]
      · simpa [hdc] using h.not_releasing_of_unlocked hfree d
  · -- `c` starts the release of the lock it holds
    obtain ⟨hone, hnrel, -⟩ := h.held_by hl
    refine .releasing c (by simp) (fun d => ?_) (by simp [Phase.Releasing]) (fun d hd => ?_)
    · by_cases hdc : d = c
      · subst hdc
        simpa using (h.held_nodup d).not_mem_erase
      · simp only [State.writeState_cpus, State.setCpu_cpus, hdc, if_false]
        exact fun hd => hdc (hone d hd)
    · by_contra hdc
      simp only [State.writeState_cpus, State.setCpu_cpus, hdc, if_false] at hd
      exact hnrel d hd
  · -- `c` stores `kUnlockedToken`: the lock is free
    obtain ⟨hnone, hone⟩ := h.releasing_by (l := l) (by rw [hp]; rfl)
    refine .free (by simp [kUnlockedToken]) (fun d => ?_) (fun d => ?_)
    · by_cases hdc : d = c
      · subst hdc
        simpa using hnone d
      · simpa [hdc] using hnone d
    · by_cases hdc : d = c
      · subst hdc
        simp [Phase.Releasing]
      · simp only [State.writeState_cpus, State.goto_eq, State.setCpu_cpus, hdc, if_false]
        exact fun hd => hdc (hone d hd)

theorem Inv.observed_step (h : Inv s) (ht : Transition s c s') (d : Fin n) (obs : Nat)
    (ho : (s'.cpus d).phase.Observed obs) : kUnlockedToken < obs ∧ obs < (s'.cpus d).activeToken := by
  by_cases hdc : d = c
  swap
  · rw [ht.cpus_of_ne hdc] at ho ⊢
    exact h.observed d obs ho
  subst hdc
  cases ht with
  | casBackoff l hp hu hlt =>
    -- the compare-and-swap saw a token smaller than the CPU's own
    simp only [State.goto_eq, State.setCpu_cpus, if_true, Phase.Observed] at ho ⊢
    subst ho
    exact ⟨Nat.pos_of_ne_zero hu, hlt⟩
  | loadConflictId l o hp =>
    simp only [State.goto_eq, State.setCpu_cpus, if_true] at ho ⊢
    exact h.observed d obs (by rw [hp]; exact ho)
  | setContentionBit l o k hp =>
    simp only [State.writeMask_cpus, State.goto_eq, State.setCpu_cpus, if_true] at ho ⊢
    exact h.observed d obs (by rw [hp]; exact ho)
  | casRetry l hp => exact h.observed d obs ho
  | _ => simp [Phase.Observed] at ho

theorem Inv.conflict_le_step (h : Inv s) (ht : Transition s c s') (d : Fin n) (l : Lk) (obs k : Nat)
    (hp' : (s'.cpus d).phase = .setContentionBit l obs k ∨ (s'.cpus d).phase = .recheck l obs k) :
    k ≤ s'.chainLockConflictId d := by
  have hmono := ht.chainLockConflictId_le d
  by_cases hdc : d = c
  swap
  · rw [ht.cpus_of_ne hdc] at hp'
    exact le_trans (h.conflict_le d l obs k hp') hmono
  subst hdc
  cases ht with
  | loadConflictId l' o hp =>
    -- `RecordBackoff` reads the CPU's conflict id
    simp only [State.goto_eq, State.setCpu_cpus, if_true, Phase.setContentionBit.injEq, reduceCtorEq,
      or_false] at hp'
    rw [← hp'.2.2]
    exact hmono
  | setContentionBit l' o k' hp =>
    simp only [State.writeMask_cpus, State.goto_eq, State.setCpu_cpus, if_true, Phase.recheck.injEq,
      reduceCtorEq, false_or] at hp'
    rw [← hp'.2.2]
    exact le_trans (h.conflict_le d l' o k' (.inl hp)) hmono
  | casRetry l' hp => exact le_trans (h.conflict_le d l obs k hp') hmono
  | _ => simp at hp'

/-- The bit `contentionBit c` sets is `c`'s, for a CPU numbered below the width of the mask. -/
theorem testBit_contentionBit {cpu : Nat} (hcpu : cpu < kCpuMaskBits) : (contentionBit cpu).testBit cpu := by
  unfold contentionBit
  simp [hcpu]

theorem Inv.recheck_pending_step (hn : n ≤ kCpuMaskBits) (h : Inv s) (ht : Transition s c s') (d : Fin n)
    (l : Lk) (obs k : Nat) (hp' : (s'.cpus d).phase = .recheck l obs k) (hk : s'.chainLockConflictId d = k) :
    Pending s' d l := by
  by_cases hdc : d = c
  swap
  · rw [ht.cpus_of_ne hdc] at hp'
    -- `d`'s conflict id has not moved past `k`, so it has not moved
    have hid : s'.chainLockConflictId d = s.chainLockConflictId d := by
      have := h.conflict_le d l obs k (.inr hp')
      have := ht.chainLockConflictId_le d
      omega
    exact (h.recheck_pending d l obs k hp' (hid ▸ hk)).step ht hid
  subst hdc
  cases ht with
  | setContentionBit l' o k' hp =>
    -- `RecordBackoff` has just set the CPU's bit in the mask
    simp only [State.writeMask_cpus, State.goto_eq, State.setCpu_cpus, if_true, Phase.recheck.injEq] at hp'
    obtain ⟨rfl, -, -⟩ := hp'
    left
    simp [testBit_contentionBit (show d.val < kCpuMaskBits by omega)]
  | casRetry l' hp => exact h.recheck_pending d l obs k hp' hk
  | _ => simp at hp'

/-- With at most one CPU for each bit of the contention mask, every step keeps the invariant. -/
theorem Inv.step (hn : n ≤ kCpuMaskBits) (h : Inv s) (ht : Transition s c s') : Inv s' where
  generator := h.generator_step ht
  token_lt := h.token_lt_step ht
  held_running := h.held_running_step ht
  held_nodup := h.held_nodup_step ht
  lock := h.lock_step ht
  observed := h.observed_step ht
  conflict_le := h.conflict_le_step ht
  recheck_pending := h.recheck_pending_step hn ht

theorem Reachable.inv (hn : n ≤ kCpuMaskBits) (hs : Reachable s) : Inv s := by
  induction hs with
  | init => exact inv_init
  | step _ hstep ih => exact ih.step hn (step_transition hstep)

end Step

/-! ## What the protocol guarantees -/

/-- After its store of `kUnlockedToken`, a release reads and writes no lock's
memory: its steps are the same whatever that memory holds, and leave it as it is. -/
theorem step_of_wake {s : State n Lk} {c : Fin n} {l : Lk} {cpu w : Nat} (hp : (s.cpus c).phase = .wake l cpu w)
    (a : Action Lk) (st mask : Lk → Nat) :
    step { s with state := st, contentionMask := mask } c a =
      (step s c a).map fun t => { t with state := st, contentionMask := mask } := by
  have hp' : ({ s with state := st, contentionMask := mask } : State n Lk).cpus c = s.cpus c := rfl
  unfold step
  rw [hp', hp]
  -- only `proceed` moves a release on, through its loop over the wake mask
  cases a with
  | proceed =>
    dsimp only
    split_ifs <;> rfl
  | _ => rfl

section Guarantees

variable {s s' : State n Lk} {c : Fin n} {l : Lk}

/-- When `RecordBackoff` on `l` returns `true` after reading conflict id `k`, a
release of `l` owes the CPU a bump, unless its conflict id has moved past `k`. -/
theorem Inv.owed_of_recheck {obs k : Nat} (h : Inv s) (hp : (s.cpus c).phase = .recheck l obs k)
    (hs : s.state l = obs) (hstep : ChainLock.step s c .proceed = some s') :
    k ≤ s'.chainLockConflictId c ∧ (s'.chainLockConflictId c = k → Owed s' c l) := by
  have ht := step_transition hstep
  have hid := ht.chainLockConflictId_eq (fun l' cpu w => by rw [hp]; simp)
  have hk := h.conflict_le c l obs k (.inr hp)
  refine ⟨by rw [hid]; exact hk, fun hk' => ?_⟩
  rw [hid] at hk'
  -- the token `RecordBackoff` saw again is neither `kUnlockedToken` nor `kMaxToken`
  obtain ⟨h0, hlt⟩ := h.observed c obs (by rw [hp]; rfl)
  have hmax : s.state l ≠ kMaxToken := by
    have := (h.token_lt c (by rw [hp]; simp)).2
    have := h.generator.2
    omega
  have ho := h.owed_of_pending (h.recheck_pending c l obs k hp hk') (by omega) hmax
  exact ho.step ht (congrFun hid c)

/-- Along any run, a CPU whose conflict id has reached `k` while a release of `l`
owes it a bump keeps both facts, until its conflict id moves past `k`. -/
theorem owed_run {k : Nat} (hk : k ≤ s.chainLockConflictId c) (ho : s.chainLockConflictId c = k → Owed s c l) :
    ∀ {ops : List (Fin n × Action Lk)}, run s ops = some s' →
      k ≤ s'.chainLockConflictId c ∧ (s'.chainLockConflictId c = k → Owed s' c l) := by
  intro ops
  induction ops generalizing s with
  | nil =>
    intro hrun
    cases hrun
    exact ⟨hk, ho⟩
  | cons op ops ih =>
    intro hrun
    simp only [ChainLock.run, Option.bind_eq_some_iff] at hrun
    obtain ⟨s₁, hstep, hrest⟩ := hrun
    have ht := step_transition hstep
    have hmono := ht.chainLockConflictId_le c
    refine ih (le_trans hk hmono) (fun hk₁ => ?_) hrest
    -- the conflict id did not move, so the bump is still owed
    have hid : s₁.chainLockConflictId c = s.chainLockConflictId c := by omega
    exact (ho (by omega)).step ht hid

/-- A CPU gets `kBackoff` only from a lock held by a running transaction with a
smaller token. -/
theorem Inv.smaller_of_backoff {a : Action Lk} (h : Inv s) (hstep : ChainLock.step s c a = some s')
    (hb : (s.cpus c).backingOff = false) (hb' : (s'.cpus c).backingOff = true) :
    ∃ d, d ≠ c ∧ (s.cpus d).phase ≠ .idle ∧ (s.cpus d).activeToken < (s.cpus c).activeToken := by
  cases step_transition hstep with
  | recheckBackoff l obs k hp hs =>
    -- `RecordBackoff` saw its token again: the lock is held by the transaction with that token
    obtain ⟨h0, hlt⟩ := h.observed c obs (by rw [hp]; rfl)
    cases h.lock l with
    | free hs' _ _ =>
      rw [hs'] at hs
      omega
    | releasing _ hs' _ _ _ =>
      have := (h.token_lt c (by rw [hp]; simp)).2
      have := h.generator.2
      omega
    | held d hd hs' _ _ =>
      have hdlt : (s.cpus d).activeToken < (s.cpus c).activeToken := by omega
      exact ⟨d, fun hdc => by rw [hdc] at hdlt; omega, h.held_running d l hd, hdlt⟩
  | casRetry l hp =>
    rw [hb] at hb'
    cases hb'
  | _ => simp [hb] at hb'

end Guarantees

/-! ## A backoff that outlives the next release -/

/-- Three CPUs and one lock. CPU 1 backs off from the lock that CPU 0 holds with
the smaller token and reads its conflict id. Before CPU 1 sets its bit, CPU 0
releases the lock and CPU 2 takes it; CPU 2's release takes CPU 1's bit and
stores `kUnlockedToken`, and before it bumps CPU 1, CPU 0 takes the lock back
with the same token. -/
def lappedRecheck : List (Fin 3 × Action Unit) :=
  [(0, .begin), (1, .begin), (2, .begin), (0, .acquire ()), (0, .proceed),
    (1, .acquire ()), (1, .proceed), (1, .proceed),
    (0, .release ()), (0, .proceed), (0, .proceed), (0, .proceed),
    (2, .acquire ()), (2, .proceed), (1, .proceed),
    (2, .release ()), (2, .proceed), (2, .proceed),
    (0, .acquire ()), (0, .proceed)]

/-- `RecordBackoff` on CPU 1 sees CPU 0's token and returns `true`; then CPU 0
releases the lock again, to the end of `ReleaseInternal`. -/
def backoffThenRelease : List (Fin 3 × Action Unit) :=
  [(1, .proceed), (0, .release ()), (0, .proceed), (0, .proceed), (0, .proceed)]

/-- The state `lappedRecheck` reaches. -/
def lappedState : State 3 Unit := (run init lappedRecheck).getD init

/-- The state after `backoffThenRelease`. -/
def releasedState : State 3 Unit := (run lappedState backoffThenRelease).getD lappedState

theorem next_release_leaves_conflict_id :
    run init lappedRecheck = some lappedState ∧ (lappedState.cpus 1).phase = .recheck () 65537 1 ∧
      lappedState.state () = 65537 ∧ run lappedState backoffThenRelease = some releasedState ∧
      (releasedState.cpus 0).phase = .ready ∧ (releasedState.cpus 1).backingOff = true ∧
      (releasedState.cpus 1).conflictId = 1 ∧ releasedState.chainLockConflictId 1 = 1 :=
  ⟨rfl, rfl, rfl, rfl, rfl, rfl, rfl, rfl⟩

/-! ## Chain-lock transactions in every interleaving -/

theorem chainlock_transactions_safe (hn : n ≤ kSmpMaxCpus) {s : State n Lk} (hs : Reachable s) :
    (∀ l c d, l ∈ (s.cpus c).held → l ∈ (s.cpus d).held → c = d) ∧
      (∀ l c, l ∈ (s.cpus c).held → s.state l = (s.cpus c).activeToken) ∧
      (∀ c l obs k ops s', (s.cpus c).phase = .recheck l obs k → s.state l = obs →
        run s ((c, .proceed) :: ops) = some s' →
          (s'.chainLockConflictId c = k → Owed s' c l) ∧
          ((∀ d, l ∉ (s'.cpus d).held ∧ ¬(s'.cpus d).phase.InRelease l) → s'.chainLockConflictId c ≠ k)) ∧
      (∀ c l cpu w a st mask, (s.cpus c).phase = .wake l cpu w →
        step { s with state := st, contentionMask := mask } c a =
          (step s c a).map fun t => { t with state := st, contentionMask := mask }) ∧
      (∀ c a s', step s c a = some s' → (s.cpus c).backingOff = false → (s'.cpus c).backingOff = true →
        ∃ d, d ≠ c ∧ (s.cpus d).phase ≠ .idle ∧ (s.cpus d).activeToken < (s.cpus c).activeToken) := by
  have h := hs.inv hn
  refine ⟨fun l c d hc hd => ((h.held_by hc).1 d hd).symm, fun l c hc => (h.held_by hc).2.2,
    fun c l obs k ops s' hp hsl hrun => ?_, fun c l cpu w a st mask hp => step_of_wake hp a st mask,
    fun c a s' hstep hb hb' => h.smaller_of_backoff hstep hb hb'⟩
  -- `RecordBackoff` returns `true` in the first step, and the bump stays owed along the rest
  simp only [ChainLock.run, Option.bind_eq_some_iff] at hrun
  obtain ⟨s₁, hstep, hrest⟩ := hrun
  obtain ⟨hk, ho⟩ := h.owed_of_recheck hp hsl hstep
  obtain ⟨-, ho'⟩ := owed_run hk ho hrest
  exact ⟨ho', fun hq hk' => not_owed_of_quiet hq (ho' hk')⟩

theorem chainlock_bump_owed_after_lapped_backoff :
    3 ≤ kSmpMaxCpus ∧ Reachable lappedState ∧ Owed releasedState 1 () := by
  have hreach : Reachable lappedState :=
    Reachable.run .init (show run init lappedRecheck = some lappedState from rfl)
  refine ⟨by norm_num [kSmpMaxCpus], hreach, ?_⟩
  exact ((chainlock_transactions_safe (by norm_num [kSmpMaxCpus]) hreach).2.2.1 1 () 65537 1 _ _ rfl rfl
    (show run lappedState ((1, .proceed) :: backoffThenRelease.tail) = some releasedState from rfl)).1 rfl

end Zircon.ChainLock
