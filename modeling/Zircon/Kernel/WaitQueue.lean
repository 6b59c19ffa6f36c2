import Mathlib
import Zircon.SortedIndex
import Zircon.Word

/-!
# `WaitQueueCollection::Peek`

The threads blocked in a wait queue sit in one WAVL tree keyed by
`(blocked_threads_tree_sort_key_, address)`. `Insert` computes the sort key
once: the absolute deadline (`finish_time`) of a deadline thread, and the
virtual finish time of a fair thread with its top bit set, so that every fair
thread sorts after every deadline thread. An observer keeps at each node the
thread of least `(relative deadline, address)` in its subtree.

`thread.h` documents the order in which threads wake at `now`: deadline
threads whose absolute deadline is still ahead by `(deadline, address)`, then
those whose deadline has passed by `(relative deadline, address)`, then fair
threads by `(virtual finish, address)`. `Peek(now)` finds the first of that
order in three steps: a fair front means there are no deadline threads; a
front whose key is past `now` is the answer; otherwise `upper_bound({now, 0})`
looks for the first key past `(now, 0)`, and failing a deadline thread there
the root's least relative deadline is taken.

The front test is strict, but `upper_bound({now, 0})` stops at a key equal to
`now` as well, since a thread's address is never `0`. A deadline thread whose
deadline is exactly `now` is therefore woken as one still able to meet it,
ahead of an expired thread of shorter relative deadline. Read that way
(`AtOrAfter`), `Peek` returns the first of the documented order whenever the
times are those of a running system: not negative, so that no deadline key has
the top bit a fair key carries.

The tree is read as the list of its threads in key order, and the observer's
value at the root as the least of all its threads, which is what the observer
maintains; the WAVL ranks are not modelled.
-/

namespace Zircon.Kernel

open Zircon.SortedIndex

/-- `SchedDiscipline`. -/
inductive SchedDiscipline where
  | fair
  | deadline
deriving DecidableEq, Repr

/-- The part of a blocked `Thread` the collection reads: its address, the
discipline of its effective profile, its start and finish times, the
`kDefaultTargetLatency / weight` of a fair profile (a fixed-point quotient,
taken as computed) and the relative deadline of a deadline profile. -/
structure BlockedThread where
  address : Nat
  discipline : SchedDiscipline
  startTime : Int
  finishTime : Int
  latencyOverWeight : Int
  deadline : Int
deriving DecidableEq, Repr

/-- A fair thread's virtual finish time: `start_time() + kDefaultTargetLatency / weight`. -/
def BlockedThread.virtualFinish (t : BlockedThread) : Int := t.startTime + t.latencyOverWeight

/-- `kFairThreadSortKeyBit`. -/
def kFairThreadSortKeyBit : Nat := 2 ^ 63

/-- `SchedDuration::Max()`. -/
def SchedDurationMax : Int := 2 ^ 63 - 1

/-- `static_cast<uint64_t>` of an `int64_t`. -/
def toUInt64 (x : Int) : Nat := (x % 2 ^ 64).toNat

/-- The `blocked_threads_tree_sort_key_` that `Insert` computes. -/
def sortKeyOf (t : BlockedThread) : Nat :=
  match t.discipline with
  | .fair => toUInt64 t.virtualFinish ||| kFairThreadSortKeyBit
  | .deadline => toUInt64 t.finishTime

/-- A thread in the collection and the sort key it was inserted with. -/
structure Entry where
  thread : BlockedThread
  sortKey : Nat
deriving DecidableEq, Repr

/-- `BlockedThreadTreeTraits::GetKey`. -/
def Entry.key (e : Entry) : Nat × Nat := (e.sortKey, e.thread.address)

/-- `BlockedThreadTreeTraits::LessThan`: `<` on `ktl::pair<uint64_t, uintptr_t>`. -/
def keyLt (a b : Nat × Nat) : Bool := a.1 < b.1 || (a.1 == b.1 && a.2 < b.2)

/-- `IsFairThreadSortBitSet`. -/
def IsFairThreadSortBitSet (e : Entry) : Bool := e.sortKey &&& kFairThreadSortKeyBit != 0

/-- `MinRelativeDeadlineTraits::GetValue`: a deadline thread, or `nullptr`. -/
def GetValue (t : BlockedThread) : Option BlockedThread :=
  if t.discipline = .fair then none else some t

/-- `MinRelativeDeadlineTraits::Compare`: `nullptr` loses to any thread, and
threads compare by `(relative deadline, address)`. -/
def Compare : Option BlockedThread → Option BlockedThread → Bool
  | none, _ => false
  | some _, none => true
  | some a, some b => a.deadline < b.deadline || (a.deadline == b.deadline && a.address < b.address)

/-- The observer's value over a run of threads: the best by `Compare`. -/
def subtreeBest (l : List Entry) : Option BlockedThread :=
  l.foldr (fun e best => if Compare (GetValue e.thread) best then GetValue e.thread else best) none

/-- A `WaitQueueCollection`: its threads in key order. -/
structure WaitQueueCollection where
  threads : List Entry

namespace WaitQueueCollection

/-- An empty collection. -/
def empty : WaitQueueCollection := ⟨[]⟩

/-- `Insert(thread)`. -/
def Insert (c : WaitQueueCollection) (t : BlockedThread) : WaitQueueCollection :=
  ⟨insertSorted keyLt Entry.key ⟨t, sortKeyOf t⟩ c.threads⟩

/-- `Remove(thread)`: `threads_.erase(*thread)`. -/
def Remove (c : WaitQueueCollection) (t : BlockedThread) : WaitQueueCollection :=
  ⟨c.threads.filter fun e => e.thread.address != t.address⟩

/-- `threads_.upper_bound(key)`: the first thread whose key is past `key`. -/
def upperBound (c : WaitQueueCollection) (key : Nat × Nat) : Option Entry :=
  (c.threads.dropWhile fun e => !keyLt key e.key).head?

/-- `Peek(signed_now)`. Its `DEBUG_ASSERT`s are compiled out. -/
def Peek (c : WaitQueueCollection) (signed_now : Int) : Option BlockedThread :=
  match c.threads with
  | [] => none
  | front :: _ =>
    if IsFairThreadSortBitSet front then some front.thread
    else
      let now := toUInt64 signed_now
      if front.sortKey > now then some front.thread
      else
        match c.upperBound (now, 0) with
        | some best => if !IsFairThreadSortBitSet best then some best.thread else subtreeBest c.threads
        | none => subtreeBest c.threads

/-- `MinInheritableRelativeDeadline()`. -/
def MinInheritableRelativeDeadline (c : WaitQueueCollection) : Int :=
  if c.threads = [] then SchedDurationMax
  else
    match subtreeBest c.threads with
    | none => SchedDurationMax
    | some t => t.deadline

end WaitQueueCollection

/-! ## The documented wake order -/

/-- Lexicographic `<` on a time and an address. -/
def lexLt (a b : Int × Nat) : Bool := a.1 < b.1 || (a.1 == b.1 && a.2 < b.2)

/-- The tier of a thread in the order `thread.h` documents, with `Future`
saying which deadline threads can still meet their deadline. -/
def wakeTier (Future : BlockedThread → Bool) (t : BlockedThread) : Nat :=
  match t.discipline with
  | .deadline => if Future t then 0 else 1
  | .fair => 2

/-- `a` wakes before `b`: by tier, then by absolute deadline, relative
deadline or virtual finish time, and then by address. -/
def WakesBefore (Future : BlockedThread → Bool) (a b : BlockedThread) : Bool :=
  wakeTier Future a < wakeTier Future b ||
    (wakeTier Future a == wakeTier Future b &&
      match wakeTier Future a with
      | 0 => lexLt (a.finishTime, a.address) (b.finishTime, b.address)
      | 1 => lexLt (a.deadline, a.address) (b.deadline, b.address)
      | _ => lexLt (a.virtualFinish, a.address) (b.virtualFinish, b.address))

/-- A deadline "in the future", read strictly: still ahead of `now`, as the
ordering comment of `thread.h` words it. -/
def After (now : Int) (t : BlockedThread) : Bool := decide (now < t.finishTime)

/-- A deadline not yet behind `now`: the reading `Peek` implements. -/
def AtOrAfter (now : Int) (t : BlockedThread) : Bool := decide (now ≤ t.finishTime)

/-- `r` is the first of `ts` to wake. -/
def IsFirstToWake (Future : BlockedThread → Bool) (ts : List BlockedThread) (r : BlockedThread) : Prop :=
  r ∈ ts ∧ ∀ t ∈ ts, t ≠ r → WakesBefore Future r t = true

/-! ## A deadline at `now` -/

/-- A deadline thread whose deadline is `100`, with a relative deadline of `50`. -/
def dueAtHundred : BlockedThread := ⟨0x1000, .deadline, 50, 100, 0, 50⟩

/-- A deadline thread whose deadline passed at `50`, with a relative deadline of `10`. -/
def dueAtFifty : BlockedThread := ⟨0x2000, .deadline, 40, 50, 0, 10⟩

/-- At `now = 100` neither deadline is ahead, so the thread of relative
deadline `10` comes first; `Peek(100)` searches past the front (deadline `50`),
and `upper_bound({100, 0})` stops at the thread whose deadline is `100`. -/
theorem peek_takes_deadline_at_now :
    (WaitQueueCollection.empty.Insert dueAtHundred |>.Insert dueAtFifty).Peek 100 = some dueAtHundred ∧
      IsFirstToWake (After 100) [dueAtHundred, dueAtFifty] dueAtFifty := by
  refine ⟨by decide, ?_, ?_⟩
  · simp
  · intro t ht hne
    simp only [List.mem_cons, List.not_mem_nil, or_false] at ht
    rcases ht with rfl | rfl
    · decide
    · exact absurd rfl hne

/-! ## Sort keys of a running system -/

/-- A thread as a running system has it: a non-null address, and the time its
key is made of a non-negative `int64_t`. -/
def BlockedThread.Valid (t : BlockedThread) : Prop :=
  0 < t.address ∧
    match t.discipline with
    | .fair => 0 ≤ t.virtualFinish ∧ t.virtualFinish < 2 ^ 63
    | .deadline => 0 ≤ t.finishTime ∧ t.finishTime < 2 ^ 63

/-- An entry holds the key `Insert` computed for a valid thread. -/
def Entry.Valid (e : Entry) : Prop := e.sortKey = sortKeyOf e.thread ∧ e.thread.Valid

theorem toUInt64_of_nonneg {x : Int} (h0 : 0 ≤ x) (h : x < 2 ^ 64) : toUInt64 x = x.toNat := by
  unfold toUInt64
  rw [Int.emod_eq_of_lt h0 h]

theorem isFairThreadSortBitSet_eq (e : Entry) : IsFairThreadSortBitSet e = e.sortKey.testBit 63 := by
  unfold IsFairThreadSortBitSet kFairThreadSortKeyBit
  rw [Nat.and_two_pow]
  cases e.sortKey.testBit 63 <;> simp

section Keys

variable {e : Entry}

/-- A deadline thread's key is its absolute deadline, below the fair bit. -/
theorem Entry.Valid.key_deadline (he : e.Valid) (hd : e.thread.discipline = .deadline) :
    (e.sortKey : Int) = e.thread.finishTime ∧ e.sortKey < 2 ^ 63 := by
  obtain ⟨hkey, -, hv⟩ := he
  rw [hd] at hv
  obtain ⟨h0, hlt⟩ := hv
  rw [hkey]
  unfold sortKeyOf
  rw [hd]
  dsimp only
  rw [toUInt64_of_nonneg h0 (by omega)]
  omega

/-- A fair thread's key is its virtual finish time with the fair bit set. -/
theorem Entry.Valid.key_fair (he : e.Valid) (hf : e.thread.discipline = .fair) :
    (e.sortKey : Int) = e.thread.virtualFinish + 2 ^ 63 := by
  obtain ⟨hkey, -, hv⟩ := he
  rw [hf] at hv
  obtain ⟨h0, hlt⟩ := hv
  rw [hkey]
  unfold sortKeyOf
  rw [hf]
  dsimp only
  rw [toUInt64_of_nonneg h0 (by omega), kFairThreadSortKeyBit,
    show (2 : Nat) ^ 63 = 1 * 2 ^ 63 by norm_num, Word.or_mul_two_pow_of_lt (by omega)]
  omega

/-- The fair bit of a key says the thread is fair. -/
theorem Entry.Valid.isFair_iff (he : e.Valid) :
    IsFairThreadSortBitSet e = true ↔ e.thread.discipline = .fair := by
  rw [isFairThreadSortBitSet_eq]
  cases hd : e.thread.discipline with
  | fair =>
    have hk := he.key_fair hd
    have hv := he.2.2
    rw [hd] at hv
    rw [show e.sortKey = 2 ^ 63 + e.thread.virtualFinish.toNat by omega, Nat.testBit_two_pow_add_eq,
      Nat.testBit_eq_false_of_lt (by omega)]
    simp
  | deadline =>
    rw [Nat.testBit_eq_false_of_lt (he.key_deadline hd).2]
    simp

/-- Keys at or past the fair bit are fair threads'. -/
theorem Entry.Valid.fair_of_le (he : e.Valid) (h : 2 ^ 63 ≤ e.sortKey) : e.thread.discipline = .fair := by
  cases hd : e.thread.discipline with
  | fair => rfl
  | deadline => exact absurd (he.key_deadline hd).2 (by omega)

theorem Entry.Valid.deadline_of_lt (he : e.Valid) (h : e.sortKey < 2 ^ 63) :
    e.thread.discipline = .deadline := by
  cases hd : e.thread.discipline with
  | fair => exact absurd (he.key_fair hd) (by have := he.2.2; rw [hd] at this; omega)
  | deadline => rfl

/-- A thread without the fair bit is a deadline thread. -/
theorem Entry.Valid.deadline_of_not_fair (he : e.Valid) (h : ¬IsFairThreadSortBitSet e = true) :
    e.thread.discipline = .deadline := by
  cases hd : e.thread.discipline with
  | fair => exact absurd (he.isFair_iff.mpr hd) h
  | deadline => rfl

end Keys

/-! ## The key order and the documented order -/

@[simp] theorem keyLt_eq_true {a b : Nat × Nat} : keyLt a b = true ↔ a.1 < b.1 ∨ a.1 = b.1 ∧ a.2 < b.2 := by
  simp [keyLt]

@[simp] theorem lexLt_eq_true {a b : Int × Nat} : lexLt a b = true ↔ a.1 < b.1 ∨ a.1 = b.1 ∧ a.2 < b.2 := by
  simp [lexLt]

theorem keyLt_trans (a b c : Nat × Nat) (hab : keyLt a b = true) (hbc : keyLt b c = true) :
    keyLt a c = true := by
  rw [keyLt_eq_true] at *
  omega

/-- Keys of two threads at different addresses are ordered one way or the other. -/
theorem keyLt_total {a b : Nat × Nat} (hne : a.2 ≠ b.2) (h : keyLt a b = false) : keyLt b a = true := by
  rw [← Bool.not_eq_true, keyLt_eq_true] at h
  rw [keyLt_eq_true]
  omega

section Order

variable {e e' : Entry}

/-- Two deadline threads are keyed by their absolute deadline and address. -/
theorem keyLt_of_deadline (he : e.Valid) (he' : e'.Valid) (hd : e.thread.discipline = .deadline)
    (hd' : e'.thread.discipline = .deadline) :
    keyLt e.key e'.key = lexLt (e.thread.finishTime, e.thread.address) (e'.thread.finishTime, e'.thread.address) := by
  have h := he.key_deadline hd
  have h' := he'.key_deadline hd'
  rw [Bool.eq_iff_iff, keyLt_eq_true, lexLt_eq_true]
  simp only [Entry.key]
  omega

/-- Two fair threads are keyed by their virtual finish time and address. -/
theorem keyLt_of_fair (he : e.Valid) (he' : e'.Valid) (hf : e.thread.discipline = .fair)
    (hf' : e'.thread.discipline = .fair) :
    keyLt e.key e'.key = lexLt (e.thread.virtualFinish, e.thread.address) (e'.thread.virtualFinish, e'.thread.address) := by
  have h := he.key_fair hf
  have h' := he'.key_fair hf'
  rw [Bool.eq_iff_iff, keyLt_eq_true, lexLt_eq_true]
  simp only [Entry.key]
  omega

/-- Past a fair thread there are only fair threads. -/
theorem fair_of_keyLt (he : e.Valid) (he' : e'.Valid) (hf : e.thread.discipline = .fair)
    (h : keyLt e.key e'.key = true) : e'.thread.discipline = .fair := by
  have hk := he.key_fair hf
  have hv := he.2.2
  rw [hf] at hv
  rw [keyLt_eq_true] at h
  simp only [Entry.key] at h
  exact he'.fair_of_le (by omega)

end Order

section Now

variable {now : Int} {e : Entry}

theorem toUInt64_now (h0 : 0 ≤ now) (hlt : now < 2 ^ 63) : toUInt64 now = now.toNat :=
  toUInt64_of_nonneg h0 (by omega)

/-- `upper_bound({now, 0})` passes exactly the keys below `now`, since no
thread sits at address `0`. -/
theorem keyLt_now (he : e.Valid) (h0 : 0 ≤ now) (hlt : now < 2 ^ 63) :
    keyLt (toUInt64 now, 0) e.key = decide (now ≤ e.sortKey) := by
  have haddr := he.2.1
  rw [toUInt64_now h0 hlt, Bool.eq_iff_iff, keyLt_eq_true, decide_eq_true_iff]
  simp only [Entry.key]
  omega

/-- A thread `upper_bound({now, 0})` passes is a deadline thread whose deadline is behind `now`. -/
theorem past_of_keyLt_now (he : e.Valid) (h0 : 0 ≤ now) (hlt : now < 2 ^ 63)
    (h : keyLt (toUInt64 now, 0) e.key = false) :
    e.thread.discipline = .deadline ∧ AtOrAfter now e.thread = false := by
  rw [keyLt_now he h0 hlt, decide_eq_false_iff_not] at h
  have hd := he.deadline_of_lt (by omega)
  have hk := (he.key_deadline hd).1
  refine ⟨hd, ?_⟩
  unfold AtOrAfter
  rw [decide_eq_false_iff_not]
  omega

/-- A deadline thread `upper_bound({now, 0})` stops at has a deadline not behind `now`. -/
theorem atOrAfter_of_keyLt_now (he : e.Valid) (h0 : 0 ≤ now) (hlt : now < 2 ^ 63)
    (hd : e.thread.discipline = .deadline) (h : keyLt (toUInt64 now, 0) e.key = true) :
    AtOrAfter now e.thread = true := by
  rw [keyLt_now he h0 hlt, decide_eq_true_iff] at h
  have hk := (he.key_deadline hd).1
  unfold AtOrAfter
  rw [decide_eq_true_iff]
  omega

end Now

/-! ## The observer's value -/

theorem Compare_some (a b : BlockedThread) :
    Compare (some a) (some b) = lexLt (a.deadline, a.address) (b.deadline, b.address) := rfl

theorem Compare_irrefl (a : Option BlockedThread) : Compare a a = false := by
  cases a with
  | none => rfl
  | some a => simp [Compare_some, lexLt]

theorem Compare_trans (a b c : Option BlockedThread) (hab : Compare a b = true) (hbc : Compare b c = true) :
    Compare a c = true := by
  cases a with
  | none => cases hab
  | some a =>
    cases c with
    | none => rfl
    | some c =>
      cases b with
      | none => cases hbc
      | some b =>
        rw [Compare_some, lexLt_eq_true] at *
        omega

theorem GetValue_of_deadline {t : BlockedThread} (h : t.discipline = .deadline) : GetValue t = some t := by
  simp [GetValue, h]

/-- The observer's value at the root: the best of all values by `Compare`. -/
theorem subtreeBest_eq (l : List Entry) : subtreeBest l = bestOf Compare (fun e => GetValue e.thread) none l := rfl

/-- No thread beats the root's value, and a value there is a deadline thread of the collection. -/
theorem subtreeBest_spec (l : List Entry) :
    (∀ b, subtreeBest l = some b → ∃ e ∈ l, e.thread = b ∧ b.discipline = .deadline) ∧
      ∀ e ∈ l, Compare (GetValue e.thread) (subtreeBest l) = false := by
  obtain ⟨hfrom, hbest⟩ := bestOf_spec Compare_irrefl Compare_trans (fun e => GetValue e.thread) none l
  rw [← subtreeBest_eq] at hfrom hbest
  refine ⟨fun b hb => ?_, hbest⟩
  rcases hfrom with h | ⟨e, he, h⟩
  · rw [hb] at h; cases h
  · rw [hb] at h
    unfold GetValue at h
    split_ifs at h with hfair
    obtain rfl := Option.some.inj h
    refine ⟨e, he, rfl, ?_⟩
    cases hd : e.thread.discipline with
    | fair => exact absurd hd hfair
    | deadline => rfl

/-! ## The wake order, tier by tier -/

section Wake

variable {F : BlockedThread → Bool} {a b : BlockedThread}

theorem wakeTier_of_fair (h : a.discipline = .fair) : wakeTier F a = 2 := by
  simp [wakeTier, h]

theorem wakeTier_of_future (h : a.discipline = .deadline) (hF : F a = true) : wakeTier F a = 0 := by
  simp [wakeTier, h, hF]

theorem wakeTier_of_past (h : a.discipline = .deadline) (hF : F a = false) : wakeTier F a = 1 := by
  simp [wakeTier, h, hF]

theorem wakesBefore_of_tier (h : wakeTier F a < wakeTier F b) : WakesBefore F a b = true := by
  simp [WakesBefore, h]

theorem wakesBefore_of_future (ha : wakeTier F a = 0) (hb : wakeTier F b = 0)
    (h : lexLt (a.finishTime, a.address) (b.finishTime, b.address) = true) : WakesBefore F a b = true := by
  simp [WakesBefore, ha, hb, h]

theorem wakesBefore_of_past (ha : wakeTier F a = 1) (hb : wakeTier F b = 1)
    (h : lexLt (a.deadline, a.address) (b.deadline, b.address) = true) : WakesBefore F a b = true := by
  simp [WakesBefore, ha, hb, h]

theorem wakesBefore_of_fair (ha : wakeTier F a = 2) (hb : wakeTier F b = 2)
    (h : lexLt (a.virtualFinish, a.address) (b.virtualFinish, b.address) = true) : WakesBefore F a b = true := by
  simp [WakesBefore, ha, hb, h]

/-- A thread that wakes before every other thread at another address is the
first of a list of threads at distinct addresses. -/
theorem isFirstToWake_of_forall {L : List Entry} {r : Entry} (hnd : (L.map fun e => e.thread.address).Nodup)
    (hr : r ∈ L) (h : ∀ e ∈ L, e.thread.address ≠ r.thread.address → WakesBefore F r.thread e.thread = true) :
    IsFirstToWake F (L.map Entry.thread) r.thread := by
  refine ⟨List.mem_map_of_mem hr, ?_⟩
  intro t ht hne
  obtain ⟨e, he, rfl⟩ := List.mem_map.mp ht
  refine h e he fun haddr => hne ?_
  rw [List.inj_on_of_nodup_map hnd he hr haddr]

end Wake

/-! ## Reachable collections -/

namespace WaitQueueCollection

/-- What every reachable collection keeps: its entries in key order, each with
the key `Insert` computed for a valid thread, and no thread twice. -/
structure Invariant (c : WaitQueueCollection) : Prop where
  /-- The tree is a search tree on `(sort key, address)`. -/
  sorted : SortedIndex.Sorted keyLt Entry.key c.threads
  /-- Each key is the one `Insert` computed. -/
  valid : ∀ e ∈ c.threads, e.Valid
  /-- A thread blocks in one collection once. -/
  nodup : (c.threads.map fun e => e.thread.address).Nodup

/-- The collections a run of `Insert` and `Remove` builds, each `Insert`
of a valid thread not already blocked there. -/
inductive Reachable : WaitQueueCollection → Prop
  | empty : Reachable empty
  | insert {c : WaitQueueCollection} {t : BlockedThread} : Reachable c → t.Valid →
      (∀ e ∈ c.threads, e.thread.address ≠ t.address) → Reachable (c.Insert t)
  | remove {c : WaitQueueCollection} (t : BlockedThread) : Reachable c → Reachable (c.Remove t)

variable {c : WaitQueueCollection}

theorem Insert_threads (t : BlockedThread) :
    (c.Insert t).threads = insertSorted keyLt Entry.key ⟨t, sortKeyOf t⟩ c.threads := rfl

theorem invariant_empty : empty.Invariant where
  sorted := sorted_nil
  valid _ he := absurd he List.not_mem_nil
  nodup := List.nodup_nil

theorem Invariant.insert (hc : c.Invariant) {t : BlockedThread} (ht : t.Valid)
    (hnew : ∀ e ∈ c.threads, e.thread.address ≠ t.address) : (c.Insert t).Invariant where
  sorted := sorted_insertSorted keyLt_trans hc.sorted fun e he h => keyLt_total (hnew e he).symm h
  valid := by
    intro e he
    rcases mem_insertSorted.mp he with rfl | he
    · exact ⟨rfl, ht⟩
    · exact hc.valid e he
  nodup := by
    rw [Insert_threads, ((insertSorted_perm _ _).map _).nodup_iff, List.map_cons, List.nodup_cons]
    refine ⟨fun hmem => ?_, hc.nodup⟩
    obtain ⟨e, he, heq⟩ := List.mem_map.mp hmem
    exact hnew e he heq

theorem Invariant.remove (hc : c.Invariant) (t : BlockedThread) : (c.Remove t).Invariant where
  sorted := hc.sorted.sublist List.filter_sublist
  valid e he := hc.valid e (List.mem_of_mem_filter he)
  nodup := hc.nodup.sublist (List.filter_sublist.map _)

/-- Past a thread of the collection, every thread is keyed later. -/
theorem Invariant.keyLt_of_split (hc : c.Invariant) {P S : List Entry} {b e : Entry}
    (hL : c.threads = P ++ b :: S) (he : e ∈ S) : keyLt b.key e.key = true := by
  have h := hc.sorted
  rw [hL] at h
  exact List.rel_of_pairwise_cons (List.pairwise_append.mp h).2.1 he

/-- Every reachable collection keeps the invariant. -/
theorem Reachable.invariant (h : Reachable c) : c.Invariant := by
  induction h with
  | empty => exact invariant_empty
  | insert _ ht hnew ih => exact ih.insert ht hnew
  | remove t _ ih => exact ih.remove t

/-! ## `Peek` -/

/-- A deadline thread leaves the root's value set. -/
theorem subtreeBest_ne_none {e : Entry} (he : e ∈ c.threads) (hd : e.thread.discipline = .deadline) :
    subtreeBest c.threads ≠ none := by
  intro hnone
  have h := (subtreeBest_spec c.threads).2 e he
  rw [hnone, GetValue_of_deadline hd] at h
  cases h

/-- What `upper_bound(key)` finds: the threads before it are not past `key`,
and it is. -/
theorem upperBound_some {k : Nat × Nat} {best : Entry} (h : c.upperBound k = some best) :
    ∃ P S, c.threads = P ++ best :: S ∧ (∀ e ∈ P, keyLt k e.key = false) ∧ keyLt k best.key = true := by
  unfold upperBound at h
  obtain ⟨S, hS⟩ : ∃ S, c.threads.dropWhile (fun e => !keyLt k e.key) = best :: S := by
    cases hd : c.threads.dropWhile (fun e => !keyLt k e.key) with
    | nil => rw [hd] at h; cases h
    | cons d D =>
      rw [hd] at h
      obtain rfl := Option.some.inj h
      exact ⟨D, rfl⟩
  refine ⟨c.threads.takeWhile (fun e => !keyLt k e.key), S, ?_, ?_, ?_⟩
  · rw [← hS, List.takeWhile_append_dropWhile]
  · intro e he
    simpa using List.mem_takeWhile_imp he
  · have := List.head_dropWhile_not (fun e => !keyLt k e.key) (l := c.threads)
      (by rw [hS]; exact List.cons_ne_nil _ _)
    simpa [hS] using this

/-- No thread is past a key `upper_bound` does not find. -/
theorem upperBound_none {k : Nat × Nat} (h : c.upperBound k = none) :
    ∀ e ∈ c.threads, keyLt k e.key = false := by
  unfold upperBound at h
  rw [List.head?_eq_none_iff, List.dropWhile_eq_nil_iff] at h
  intro e he
  simpa using h e he

section Peek

variable {now : Int}

/-- A fair thread at the front: every thread is fair, and the front is the
first by virtual finish time. -/
theorem first_of_front_fair (hc : c.Invariant) {front : Entry} {rest : List Entry}
    (hL : c.threads = front :: rest) (hf : IsFairThreadSortBitSet front = true) (F : BlockedThread → Bool) :
    IsFirstToWake F (c.threads.map Entry.thread) front.thread := by
  have hmem : front ∈ c.threads := by rw [hL]; exact List.mem_cons_self
  have hvf := hc.valid front hmem
  have hff := hvf.isFair_iff.mp hf
  refine isFirstToWake_of_forall hc.nodup hmem fun e he hne => ?_
  have hve := hc.valid e he
  rw [hL] at he
  rcases List.mem_cons.mp he with rfl | he
  · exact absurd rfl hne
  · have hlt : keyLt front.key e.key = true := hc.keyLt_of_split (P := []) hL he
    have hef := fair_of_keyLt hvf hve hff hlt
    rw [keyLt_of_fair hvf hve hff hef] at hlt
    exact wakesBefore_of_fair (wakeTier_of_fair hff) (wakeTier_of_fair hef) hlt

/-- A deadline thread where `upper_bound({now, 0})` stops is the first: the
threads before it are past their deadline, and those after it are keyed
later. -/
theorem first_of_upperBound (hc : c.Invariant) (h0 : 0 ≤ now) (hlt : now < 2 ^ 63) {P S : List Entry}
    {best : Entry} (hL : c.threads = P ++ best :: S) (hP : ∀ e ∈ P, keyLt (toUInt64 now, 0) e.key = false)
    (hbest : keyLt (toUInt64 now, 0) best.key = true) (hd : best.thread.discipline = .deadline) :
    IsFirstToWake (AtOrAfter now) (c.threads.map Entry.thread) best.thread := by
  have hmem : best ∈ c.threads := by rw [hL]; simp
  have hvb := hc.valid best hmem
  have hfut := atOrAfter_of_keyLt_now hvb h0 hlt hd hbest
  have htier : wakeTier (AtOrAfter now) best.thread = 0 := wakeTier_of_future hd hfut
  refine isFirstToWake_of_forall hc.nodup hmem fun e he hne => ?_
  have hve := hc.valid e he
  rw [hL, List.mem_append, List.mem_cons] at he
  rcases he with he | rfl | he
  · -- before the bound: a deadline thread past its deadline
    obtain ⟨hde, hpast⟩ := past_of_keyLt_now hve h0 hlt (hP e he)
    exact wakesBefore_of_tier (by rw [htier, wakeTier_of_past hde hpast]; omega)
  · exact absurd rfl hne
  · have hke : keyLt best.key e.key = true := hc.keyLt_of_split hL he
    cases hde : e.thread.discipline with
    | fair => exact wakesBefore_of_tier (by rw [htier, wakeTier_of_fair hde]; omega)
    | deadline =>
      rw [keyLt_of_deadline hvb hve hd hde] at hke
      -- its deadline is no earlier than the bound's, so not behind `now` either
      have hefut : AtOrAfter now e.thread = true := by
        unfold AtOrAfter at hfut ⊢
        rw [decide_eq_true_iff] at hfut ⊢
        rw [lexLt_eq_true] at hke
        omega
      exact wakesBefore_of_future htier (wakeTier_of_future hde hefut) hke

/-- With every deadline behind `now`, the root's value is the first. -/
theorem first_of_subtreeBest (hc : c.Invariant)
    (hpast : ∀ e ∈ c.threads, e.thread.discipline = .deadline → AtOrAfter now e.thread = false)
    {b : BlockedThread} (hb : subtreeBest c.threads = some b) :
    IsFirstToWake (AtOrAfter now) (c.threads.map Entry.thread) b := by
  obtain ⟨hfrom, hleast⟩ := subtreeBest_spec c.threads
  obtain ⟨eb, hmem, rfl, hd⟩ := hfrom b hb
  have htier := wakeTier_of_past hd (hpast eb hmem hd)
  refine isFirstToWake_of_forall hc.nodup hmem fun e he hne => ?_
  cases hde : e.thread.discipline with
  | fair => exact wakesBefore_of_tier (by rw [htier, wakeTier_of_fair hde]; omega)
  | deadline =>
    -- no deadline thread beats the root's value, and none shares its address
    have hnot := hleast e he
    rw [hb, GetValue_of_deadline hde, Compare_some, ← Bool.not_eq_true, lexLt_eq_true] at hnot
    refine wakesBefore_of_past htier (wakeTier_of_past hde (hpast e he hde)) ?_
    rw [lexLt_eq_true]
    omega

/-- A fair thread where `upper_bound({now, 0})` stops leaves only deadlines
behind `now`. -/
theorem past_of_upperBound_fair (hc : c.Invariant) (h0 : 0 ≤ now) (hlt : now < 2 ^ 63) {best : Entry}
    (hbest : c.upperBound (toUInt64 now, 0) = some best) (hf : IsFairThreadSortBitSet best = true) :
    ∀ e ∈ c.threads, e.thread.discipline = .deadline → AtOrAfter now e.thread = false := by
  obtain ⟨P, S, hL, hP, -⟩ := upperBound_some hbest
  have hmem : best ∈ c.threads := by rw [hL]; simp
  have hvb := hc.valid best hmem
  intro e he hde
  have hve := hc.valid e he
  rw [hL, List.mem_append, List.mem_cons] at he
  rcases he with he | rfl | he
  · exact (past_of_keyLt_now hve h0 hlt (hP e he)).2
  · exact absurd (hvb.isFair_iff.mp hf) (by rw [hde]; simp)
  -- past a fair thread every thread is fair
  · have hef := fair_of_keyLt hvb hve (hvb.isFair_iff.mp hf) (hc.keyLt_of_split hL he)
    exact absurd hef (by rw [hde]; simp)

/-- `Peek` finds a thread whenever the collection holds one. -/
theorem peek_eq_none_iff (hc : c.Invariant) : c.Peek now = none ↔ c.threads = [] := by
  constructor
  · intro h
    unfold Peek at h
    dsimp only at h
    split at h
    · assumption
    · next front rest hL =>
      have hmem : front ∈ c.threads := by rw [hL]; exact List.mem_cons_self
      split_ifs at h with hf hfront
      -- with a deadline thread at the front, the root's value is a thread
      have hd := (hc.valid front hmem).deadline_of_not_fair hf
      split at h
      · next best hbest =>
        split_ifs at h with hbf
        exact absurd h (subtreeBest_ne_none hmem hd)
      · exact absurd h (subtreeBest_ne_none hmem hd)
  · intro h
    unfold Peek
    rw [h]

/-- `Peek(now)` returns the first thread to wake, reading a deadline at
`now` as not yet passed. -/
theorem peek_first (hc : c.Invariant) (h0 : 0 ≤ now) (hlt : now < 2 ^ 63) {r : BlockedThread}
    (hr : c.Peek now = some r) : IsFirstToWake (AtOrAfter now) (c.threads.map Entry.thread) r := by
  unfold Peek at hr
  dsimp only at hr
  split at hr
  · cases hr
  · next front rest hL =>
    have hvf := hc.valid front (by rw [hL]; exact List.mem_cons_self)
    split_ifs at hr with hf hfront
    · obtain rfl := Option.some.inj hr
      exact first_of_front_fair hc hL hf _
    · -- a deadline at the front that is still ahead: `upper_bound` would stop there too
      obtain rfl := Option.some.inj hr
      refine first_of_upperBound hc h0 hlt (P := []) hL (fun e he => absurd he List.not_mem_nil) ?_
        (hvf.deadline_of_not_fair hf)
      rw [keyLt_eq_true]
      exact Or.inl hfront
    · split at hr
      · next best hbest =>
        split_ifs at hr with hbf
        · obtain rfl := Option.some.inj hr
          obtain ⟨P, S, hL', hP, hb⟩ := upperBound_some hbest
          have hvb := hc.valid best (by rw [hL']; simp)
          exact first_of_upperBound hc h0 hlt hL' hP hb (hvb.deadline_of_not_fair (by simpa using hbf))
        · exact first_of_subtreeBest hc (past_of_upperBound_fair hc h0 hlt hbest (by simpa using hbf)) hr
      · next hnone =>
        refine first_of_subtreeBest hc (fun e he _ => ?_) hr
        exact (past_of_keyLt_now (hc.valid e he) h0 hlt (upperBound_none hnone e he)).2

end Peek

/-! ## `MinInheritableRelativeDeadline` -/

theorem minInheritableRelativeDeadline_of_some {b : BlockedThread} (h : subtreeBest c.threads = some b) :
    c.MinInheritableRelativeDeadline = b.deadline := by
  have hne : c.threads ≠ [] := by
    intro hnil
    rw [hnil] at h
    cases h
  unfold MinInheritableRelativeDeadline
  rw [if_neg hne, h]

/-- `MinInheritableRelativeDeadline()` is the least relative deadline of the
deadline threads, and `SchedDuration::Max()` when there are none. -/
theorem minInheritableRelativeDeadline_spec (c : WaitQueueCollection) :
    ((∀ t ∈ c.threads.map Entry.thread, t.discipline = .fair) →
        c.MinInheritableRelativeDeadline = SchedDurationMax) ∧
      ∀ t ∈ c.threads.map Entry.thread, t.discipline = .deadline →
        c.MinInheritableRelativeDeadline ≤ t.deadline ∧
          ∃ u ∈ c.threads.map Entry.thread, u.discipline = .deadline ∧ c.MinInheritableRelativeDeadline = u.deadline := by
  obtain ⟨hfrom, hleast⟩ := subtreeBest_spec c.threads
  constructor
  · intro hfair
    -- the root's value would be a deadline thread
    have hnone : subtreeBest c.threads = none := by
      cases hb : subtreeBest c.threads with
      | none => rfl
      | some b =>
        obtain ⟨e, he, rfl, hd⟩ := hfrom b hb
        exact absurd (hfair _ (List.mem_map_of_mem he)) (by rw [hd]; simp)
    unfold MinInheritableRelativeDeadline
    split_ifs
    · rfl
    · rw [hnone]
  · intro t ht hd
    obtain ⟨e, he, rfl⟩ := List.mem_map.mp ht
    obtain ⟨b, hb⟩ := Option.ne_none_iff_exists'.mp (subtreeBest_ne_none he hd)
    obtain ⟨eb, hmem, rfl, hdb⟩ := hfrom _ hb
    rw [minInheritableRelativeDeadline_of_some hb]
    refine ⟨?_, eb.thread, List.mem_map_of_mem hmem, hdb, rfl⟩
    -- `e` does not beat the root's value
    have hnot := hleast e he
    rw [hb, GetValue_of_deadline hd, Compare_some, ← Bool.not_eq_true, lexLt_eq_true] at hnot
    omega

end WaitQueueCollection

/-- For every collection a run of `Insert` and `Remove` of valid threads
builds, and every `now` of the clock: `Peek(now)` is empty exactly when the
collection is, and otherwise the first to wake, a deadline at `now` read as
not yet passed; `MinInheritableRelativeDeadline()` is the least relative
deadline of the deadline threads, or `SchedDuration::Max()`. -/
theorem peek_wakes_first (c : WaitQueueCollection) (hc : c.Reachable) (now : Int) (h0 : 0 ≤ now)
    (hlt : now < 2 ^ 63) :
    (c.Peek now = none ↔ c.threads = []) ∧
      (∀ r, c.Peek now = some r → IsFirstToWake (AtOrAfter now) (c.threads.map Entry.thread) r) ∧
      ((∀ t ∈ c.threads.map Entry.thread, t.discipline = .fair) →
        c.MinInheritableRelativeDeadline = SchedDurationMax) ∧
      ∀ t ∈ c.threads.map Entry.thread, t.discipline = .deadline →
        c.MinInheritableRelativeDeadline ≤ t.deadline ∧
          ∃ u ∈ c.threads.map Entry.thread, u.discipline = .deadline ∧
            c.MinInheritableRelativeDeadline = u.deadline := by
  have hinv := hc.invariant
  exact ⟨WaitQueueCollection.peek_eq_none_iff hinv, fun r hr => WaitQueueCollection.peek_first hinv h0 hlt hr,
    WaitQueueCollection.minInheritableRelativeDeadline_spec c⟩

/-- The two threads of `peek_takes_deadline_at_now`: with the deadline at
`now` read as not yet passed, `Peek(100)` returns the first. -/
theorem peek_wakes_first_at_deadline :
    (WaitQueueCollection.empty.Insert dueAtHundred |>.Insert dueAtFifty).Reachable ∧
      IsFirstToWake (AtOrAfter 100) [dueAtFifty, dueAtHundred] dueAtHundred := by
  have hreach : (WaitQueueCollection.empty.Insert dueAtHundred |>.Insert dueAtFifty).Reachable :=
    .insert (.insert .empty (by simp [BlockedThread.Valid, dueAtHundred]) (by simp [WaitQueueCollection.empty]))
      (by simp [BlockedThread.Valid, dueAtFifty]) (by decide)
  have hfirst := (peek_wakes_first _ hreach 100 (by norm_num) (by norm_num)).2.1 dueAtHundred (by decide)
  have hts : (WaitQueueCollection.empty.Insert dueAtHundred |>.Insert dueAtFifty).threads.map Entry.thread =
      [dueAtFifty, dueAtHundred] := by decide
  rw [hts] at hfirst
  exact ⟨hreach, hfirst⟩

end Zircon.Kernel
