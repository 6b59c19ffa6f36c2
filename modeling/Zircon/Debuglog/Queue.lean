import Mathlib
import Zircon.Debuglog.Log

/-!
# The queue of records a debuglog holds

What the debuglog is for, without the ring: a queue of records. `Write`
appends a record of its arguments and of the first `DLOG_MAX_DATA` bytes of
its string, and drops the oldest records until their total size on the wire
is at most `DLOG_SIZE`. Records have positions: the oldest is at `start`, and
each next one the wire size of its predecessor further on, so that a
position names the same record for as long as the record is kept.

A reader holds a position and reads the oldest record at or after it. Once
the records it had not read are dropped, that is the oldest record of the
queue; a reader that has read everything waits at the end. Either way it then
stands just past what it read, at a position it may hold (`ReaderOk`):
lapped, at a record, or at the end.
-/

namespace Zircon.Debuglog

/-- A record: the arguments `Write` was given, and the bytes it kept of its
string. -/
structure Record where
  severity : Nat
  flags : Nat
  timestamp : Int
  pid : Nat
  tid : Nat
  sequence : Nat
  data : List UInt8
  data_le : data.length ≤ DLOG_MAX_DATA

namespace Record

/-- The size of the record on the wire. -/
def wire (r : Record) : Nat := wireSize r.data.length

/-- The header `Write` made for the record. -/
def hdr (r : Record) : dlog_header :=
  makeHeader r.wire r.data.length r.severity r.flags r.timestamp r.pid r.tid r.sequence

/-- What a reader gets of the record: its header with the preamble cleared,
its data, and its length. -/
def outcome (r : Record) : ReadOutcome :=
  .record { r.hdr with preamble := 0 }.bytes r.data (sizeofHeader + r.data.length)

variable (r : Record)

theorem length_data_le : r.data.length ≤ 216 := r.data_le

theorem wire_eq : r.wire = 40 + (r.data.length + 3) / 4 * 4 := by
  have := r.length_data_le
  unfold wire wireSize sizeofHeader
  rw [DLOG_ALIGN_eq _ (by omega)]

/-- A record takes at most `DLOG_MAX_RECORD` bytes on the wire. -/
theorem wire_le : r.wire ≤ 256 := by
  have := r.length_data_le
  rw [wire_eq]
  omega

/-- The header and the data fit in the room a record takes. -/
theorem header_add_data_le : sizeofHeader + r.data.length ≤ r.wire := by
  rw [wire_eq, sizeofHeader]
  omega

theorem wire_mod_four : r.wire % 4 = 0 := by
  rw [wire_eq]
  omega

/-- The preamble `Write` made: the sizes on the wire and to read, which fit
in its 12-bit fields. -/
theorem hdr_preamble : r.hdr.preamble = DLOG_HDR_SET r.wire (sizeofHeader + r.data.length) := by
  have hw := r.wire_le
  have hl := r.length_data_le
  unfold hdr makeHeader
  dsimp only
  rw [DLOG_HDR_SET_eq (by omega) (by unfold sizeofHeader; omega)]
  unfold sizeofHeader
  omega

theorem fifolen_hdr : DLOG_HDR_GET_FIFOLEN r.hdr.preamble = r.wire := by
  have := r.wire_le
  have := r.length_data_le
  rw [hdr_preamble, DLOG_HDR_GET_FIFOLEN_set (by omega) (by unfold sizeofHeader; omega)]

theorem readlen_hdr : DLOG_HDR_GET_READLEN r.hdr.preamble = sizeofHeader + r.data.length := by
  have := r.wire_le
  have := r.length_data_le
  rw [hdr_preamble, DLOG_HDR_GET_READLEN_set (by omega) (by unfold sizeofHeader; omega)]

theorem preamble_lt : r.hdr.preamble < 2 ^ 32 := by
  unfold hdr makeHeader
  exact Nat.mod_lt _ (by norm_num)

theorem datalen_hdr : r.hdr.datalen = r.data.length := by
  have := r.length_data_le
  unfold hdr makeHeader
  dsimp only
  omega

end Record

/-- The total size on the wire of a run of records. -/
def total (rs : List Record) : Nat := (rs.map Record.wire).sum

@[simp] theorem total_nil : total [] = 0 := rfl

@[simp] theorem total_cons (r : Record) (rs : List Record) : total (r :: rs) = r.wire + total rs := by
  simp [total]

@[simp] theorem total_append (xs ys : List Record) : total (xs ++ ys) = total xs + total ys := by
  simp [total]

theorem total_mod_four (rs : List Record) : total rs % 4 = 0 := by
  induction rs with
  | nil => rfl
  | cons r rs ih =>
    have := r.wire_mod_four
    rw [total_cons]
    omega

/-- Drop the oldest records, from position `s`, while their total size on the
wire is past `bound`: the new first position, and the records left. -/
def dropUntil (bound : Nat) : Nat → List Record → Nat × List Record
  | s, [] => (s, [])
  | s, r :: rs => if bound < total (r :: rs) then dropUntil bound (s + r.wire) rs else (s, r :: rs)

/-- The records from position `s`, each with its position. -/
def positioned : Nat → List Record → List (Nat × Record)
  | _, [] => []
  | p, r :: rs => (p, r) :: positioned (p + r.wire) rs

section Drop

variable {bound : Nat}

/-- What `dropUntil` leaves is a suffix, from just past what it drops. -/
theorem dropUntil_spec (s : Nat) (rs : List Record) :
    ∃ xs, xs ++ (dropUntil bound s rs).2 = rs ∧ (dropUntil bound s rs).1 = s + total xs := by
  induction rs generalizing s with
  | nil => exact ⟨[], rfl, rfl⟩
  | cons r rs ih =>
    unfold dropUntil
    split
    · obtain ⟨xs, hxs, hs⟩ := ih (s + r.wire)
      refine ⟨r :: xs, by rw [List.cons_append, hxs], ?_⟩
      rw [hs, total_cons]
      omega
    · exact ⟨[], rfl, rfl⟩

theorem total_dropUntil_le (s : Nat) (rs : List Record) : total (dropUntil bound s rs).2 ≤ bound := by
  induction rs generalizing s with
  | nil => exact Nat.zero_le _
  | cons r rs ih =>
    unfold dropUntil
    split
    · exact ih _
    · next hfit =>
      dsimp only
      omega

/-- Dropping what a new record needs room for, before it is appended, is
dropping after: the new record is never dropped, since it fits alone. -/
theorem dropUntil_snoc {r : Record} (hr : r.wire ≤ bound) (s : Nat) (rs : List Record) :
    dropUntil bound s (rs ++ [r]) =
      ((dropUntil (bound - r.wire) s rs).1, (dropUntil (bound - r.wire) s rs).2 ++ [r]) := by
  induction rs generalizing s with
  | nil =>
    simp only [List.nil_append, dropUntil, total_cons, total_nil, Nat.add_zero]
    rw [if_neg (by omega)]
  | cons x xs ih =>
    simp only [List.cons_append, dropUntil]
    have htotal : total (x :: (xs ++ [r])) = total (x :: xs) + r.wire := by simp; omega
    by_cases hfit : bound - r.wire < total (x :: xs)
    · rw [if_pos (by omega), if_pos hfit, ih]
    · rw [if_neg (by omega), if_neg hfit]
      rfl

end Drop

section Positions

theorem positioned_append (s : Nat) (xs ys : List Record) :
    positioned s (xs ++ ys) = positioned s xs ++ positioned (s + total xs) ys := by
  induction xs generalizing s with
  | nil => rfl
  | cons x xs ih =>
    simp only [List.cons_append, positioned, ih, total_cons, Nat.add_assoc]

/-- A record's position lies in the run, with its whole size. -/
theorem le_of_mem_positioned {s p : Nat} {r : Record} {rs : List Record} (h : (p, r) ∈ positioned s rs) :
    s ≤ p ∧ p + r.wire ≤ s + total rs := by
  induction rs generalizing s with
  | nil => cases h
  | cons x xs ih =>
    rcases List.mem_cons.mp h with heq | h
    · obtain ⟨rfl, rfl⟩ := Prod.mk.inj heq
      simp
    · have := ih h
      rw [total_cons]
      omega

/-- Just past a record is the next record, or the end of the run. -/
theorem next_of_mem_positioned {s p : Nat} {r : Record} {rs : List Record} (h : (p, r) ∈ positioned s rs) :
    p + r.wire = s + total rs ∨ ∃ r', (p + r.wire, r') ∈ positioned s rs := by
  induction rs generalizing s with
  | nil => cases h
  | cons x xs ih =>
    rcases List.mem_cons.mp h with heq | h
    · obtain ⟨rfl, rfl⟩ := Prod.mk.inj heq
      cases xs with
      | nil => exact .inl (by simp)
      | cons y ys => exact .inr ⟨y, by simp [positioned]⟩
    · rcases ih h with hend | ⟨r', hr'⟩
      · exact .inl (by rw [hend, total_cons]; omega)
      · exact .inr ⟨r', List.mem_cons_of_mem _ hr'⟩

/-- The first record at or after a record's position is that record. -/
theorem find?_positioned_of_mem {s p : Nat} {r : Record} {rs : List Record} (h : (p, r) ∈ positioned s rs) :
    (positioned s rs).find? (fun e => p ≤ e.1) = some (p, r) := by
  induction rs generalizing s with
  | nil => cases h
  | cons x xs ih =>
    simp only [positioned, List.find?_cons]
    rcases List.mem_cons.mp h with heq | h
    · obtain ⟨rfl, rfl⟩ := Prod.mk.inj heq
      simp
    -- a later record sits past the first one
    · have hlt := (le_of_mem_positioned h).1
      have hw := x.header_add_data_le
      rw [decide_eq_false (by unfold sizeofHeader at hw; omega)]
      exact ih h

/-- A position at or before the first record reads the first record. -/
theorem find?_positioned_of_le {s p : Nat} {r : Record} {rs : List Record} (h : p ≤ s) :
    (positioned s (r :: rs)).find? (fun e => p ≤ e.1) = some (s, r) := by
  simp [positioned, h]

/-- Nothing is at or past the end of the run. -/
theorem find?_positioned_of_total_le {s p : Nat} {rs : List Record} (h : s + total rs ≤ p) :
    (positioned s rs).find? (fun e => p ≤ e.1) = none := by
  rw [List.find?_eq_none]
  intro e he
  have hb := le_of_mem_positioned (r := e.2) (p := e.1) he
  have hw := e.2.header_add_data_le
  unfold sizeofHeader at hw
  simp only [decide_eq_true_eq]
  omega

end Positions

/-- The queue of records of a debuglog: the oldest at `start`, and the number
of records ever written. -/
structure Queue where
  start : Nat
  records : List Record
  sequence : Nat

namespace Queue

/-- No record yet. -/
def empty : Queue := ⟨0, [], 0⟩

/-- Where the next record goes. -/
def endPos (q : Queue) : Nat := q.start + total q.records

/-- The record `Write(severity, flags, str)` appends. -/
def record (q : Queue) (severity flags : Nat) (str : List UInt8) (timestamp : Int) (pid tid : Nat) :
    Record :=
  ⟨severity, flags, timestamp, pid, tid, q.sequence, str.take DLOG_MAX_DATA, List.length_take_le _ _⟩

/-- `Write`: append the record, then drop the oldest records until the total
size on the wire is at most `DLOG_SIZE`. -/
def write (q : Queue) (severity flags : Nat) (str : List UInt8) (timestamp : Int) (pid tid : Nat) : Queue :=
  let rs := q.records ++ [q.record severity flags str timestamp pid tid]
  ⟨(dropUntil DLOG_SIZE q.start rs).1, (dropUntil DLOG_SIZE q.start rs).2, q.sequence + 1⟩

/-- A read from position `p`: the oldest record at or after `p`, and the
position just past it; a reader past every record waits at the end. -/
def read (q : Queue) (p : Nat) : Nat × ReadOutcome :=
  match (positioned q.start q.records).find? (fun e => p ≤ e.1) with
  | some (pos, r) => (pos + r.wire, r.outcome)
  | none => (q.endPos, .status .shouldWait)

/-- A position a reader may hold: not past the end, and, unless the records
after it have been dropped, at a record or at the end. -/
def ReaderOk (q : Queue) (p : Nat) : Prop :=
  p ≤ q.endPos ∧ (p < q.start ∨ p = q.endPos ∨ ∃ r, (p, r) ∈ positioned q.start q.records)

variable {q : Queue}


/-- A write keeps the records that leave room for the new one, and appends it. -/
theorem write_eq {severity flags : Nat} {str : List UInt8} {timestamp : Int} {pid tid : Nat} {r : Record}
    (hr : q.record severity flags str timestamp pid tid = r) :
    q.write severity flags str timestamp pid tid =
      ⟨(dropUntil (DLOG_SIZE - r.wire) q.start q.records).1,
        (dropUntil (DLOG_SIZE - r.wire) q.start q.records).2 ++ [r], q.sequence + 1⟩ := by
  have hw := r.wire_le
  unfold write
  dsimp only
  rw [hr, @dropUntil_snoc DLOG_SIZE r (by unfold DLOG_SIZE; omega)]

/-- A write moves the end by the size of the new record: dropping moves the
start and shortens the run by the same amount. -/
theorem endPos_write (severity flags : Nat) (str : List UInt8) (timestamp : Int) (pid tid : Nat) :
    (q.write severity flags str timestamp pid tid).endPos =
      q.endPos + (q.record severity flags str timestamp pid tid).wire := by
  obtain ⟨xs, hxs, hs⟩ := @dropUntil_spec DLOG_SIZE q.start
    (q.records ++ [q.record severity flags str timestamp pid tid])
  have htotal := congrArg total hxs
  rw [total_append, total_append] at htotal
  unfold endPos write
  dsimp only
  rw [hs]
  simp only [total_cons, total_nil] at htotal
  omega

/-- A new reader starts at the oldest record. -/
theorem readerOk_start : q.ReaderOk q.start := by
  refine ⟨by unfold endPos; omega, ?_⟩
  cases hrs : q.records with
  | nil => exact .inr (.inl (by unfold endPos; rw [hrs]; rfl))
  | cons r rs => exact .inr (.inr ⟨r, by simp [positioned]⟩)

/-- A write keeps every reader's position one it may hold: the end becomes
the new record's position, and a record either stays or is dropped from under
the reader. -/
theorem ReaderOk.write {p : Nat} (hp : q.ReaderOk p) (severity flags : Nat) (str : List UInt8)
    (timestamp : Int) (pid tid : Nat) : (q.write severity flags str timestamp pid tid).ReaderOk p := by
  obtain ⟨hle, hpos⟩ := hp
  set r := q.record severity flags str timestamp pid tid
  obtain ⟨xs, hxs, hs⟩ := @dropUntil_spec DLOG_SIZE q.start (q.records ++ [r])
  refine ⟨by rw [endPos_write]; omega, ?_⟩
  have hstart : (q.write severity flags str timestamp pid tid).start = q.start + total xs := hs
  by_cases hlap : p < q.start + total xs
  · exact .inl (by rw [hstart]; exact hlap)
  -- the positions past the dropped records are those of what is left
  have hsplit := positioned_append q.start xs (dropUntil DLOG_SIZE q.start (q.records ++ [r])).2
  rw [hxs, positioned_append] at hsplit
  have hmem : ∀ e ∈ positioned q.start (q.records ++ [r]), q.start + total xs ≤ e.1 →
      e ∈ positioned (q.write severity flags str timestamp pid tid).start
        (q.write severity flags str timestamp pid tid).records := by
    intro e he hge
    rw [positioned_append, hsplit] at he
    rcases List.mem_append.mp he with he | he
    · have := le_of_mem_positioned (p := e.1) (r := e.2) he
      have := e.2.header_add_data_le
      unfold sizeofHeader at this
      omega
    · rw [hstart]
      exact he
  refine .inr (.inr ?_)
  rcases hpos with hlt | hend | ⟨r0, hr0⟩
  · omega
  · -- the reader was at the end: the new record is there
    refine ⟨r, hmem (p, r) ?_ (by omega)⟩
    rw [positioned_append]
    simp [positioned, hend, endPos]
  · exact ⟨r0, hmem (p, r0) (by rw [positioned_append]; exact List.mem_append_left _ hr0) (by omega)⟩

/-- A read leaves the reader at a position it may hold. -/
theorem ReaderOk.read {p : Nat} : q.ReaderOk (q.read p).1 := by
  unfold Queue.read
  split
  · next pos r hfind =>
    have hmem := List.mem_of_find?_eq_some hfind
    refine ⟨(le_of_mem_positioned hmem).2, .inr ?_⟩
    exact next_of_mem_positioned hmem
  · exact ⟨le_refl _, .inr (.inl rfl)⟩

end Queue

/-! ## Readers and writers interleaved -/

/-- The queue with the position of each reader. -/
structure Spec where
  queue : Queue
  readers : List Nat

namespace Spec

/-- No reader, and no record. -/
def init : Spec := ⟨Queue.empty, []⟩

/-- One call: a write appends, a new reader starts at the oldest record, and a
read moves its reader past what it read. -/
def step (s : Spec) : Op → Spec × Output
  | .write severity flags str timestamp pid tid =>
    (⟨s.queue.write severity flags str timestamp pid tid, s.readers⟩, .written .ok)
  | .attach => (⟨s.queue, s.readers ++ [s.queue.start]⟩, .attached)
  | .read i =>
    match s.readers[i]? with
    | none => (s, .noReader)
    | some p => (⟨s.queue, s.readers.set i (s.queue.read p).1⟩, .read (s.queue.read p).2)

/-- A run of calls. -/
def run : Spec → List Op → Spec × List Output
  | s, [] => (s, [])
  | s, op :: ops =>
    let next := s.step op
    let rest := next.1.run ops
    (rest.1, next.2 :: rest.2)

/-- Every reader holds a position it may hold. -/
def ReadersOk (s : Spec) : Prop := ∀ p ∈ s.readers, s.queue.ReaderOk p

theorem readersOk_init : init.ReadersOk := fun _ hp => absurd hp List.not_mem_nil

/-- Each call keeps every reader at a position it may hold. -/
theorem ReadersOk.step {s : Spec} (h : s.ReadersOk) (op : Op) : (s.step op).1.ReadersOk := by
  cases op with
  | write severity flags str timestamp pid tid => exact fun p hp => (h p hp).write severity flags str timestamp pid tid
  | attach =>
    intro p hp
    rcases List.mem_append.mp hp with hp | hp
    · exact h p hp
    · rw [List.mem_singleton.mp hp]
      exact Queue.readerOk_start
  | read i =>
    simp only [Spec.step]
    split
    · exact h
    · intro p hp
      rcases List.mem_or_eq_of_mem_set hp with hp | rfl
      · exact h p hp
      · exact Queue.ReaderOk.read

end Spec

end Zircon.Debuglog
