import Mathlib
import Zircon.Debuglog.Queue

/-!
# The debuglog holds a queue of records

`DLog` keeps its records in a ring of `DLOG_SIZE` bytes between the counters
`tail_` and `head_`; `Queue` is the queue of records its calls mean. Here the
two are related: `Represents d q` says the records of `q` lie in the ring of
`d`, each as its header's bytes followed by its data, from `tail_` to `head_`.

`Write` keeps the relation, with the record appended and the oldest ones
dropped (`Represents.write`), and `Read` from any position a reader may hold
returns the queue's read (`Represents.read`). With the readers' positions this
is a simulation of `Spec` by `System` (`Sim.step`), and over any run of calls
the log holds the queue (`Sim.run`).
-/

namespace Zircon.Debuglog

open Zircon.Ring Zircon.Word

/-- The records `rs`, from position `p` on, each in the ring as the bytes of
its header followed by its data. -/
def Laid (data : Nat → UInt8) : Nat → List Record → Prop
  | _, [] => True
  | p, r :: rs =>
    readAt DLOG_SIZE data p (sizeofHeader + r.data.length) = r.hdr.bytes ++ r.data ∧ Laid data (p + r.wire) rs

/-- The ring and its counters hold the queue: the records lie in the ring
from `tail_` to `head_`, the log is open, and the sequence counts the writes. -/
structure Represents (d : DLog) (q : Queue) : Prop where
  tail_eq : d.tail = q.start
  head_eq : d.head = q.endPos
  total_le : total q.records ≤ DLOG_SIZE
  start_aligned : q.start % 4 = 0
  laid : Laid d.data q.start q.records
  sequence_eq : d.sequenceCount = q.sequence
  not_panic : d.panic = false
  running : d.running = true

theorem DLOG_SIZE_pos : 0 < DLOG_SIZE := by decide

section Laid

variable {data : Nat → UInt8}

theorem laid_append {p : Nat} (xs ys : List Record) :
    Laid data p (xs ++ ys) ↔ Laid data p xs ∧ Laid data (p + total xs) ys := by
  induction xs generalizing p with
  | nil => simp [Laid]
  | cons x xs ih =>
    simp only [List.cons_append, Laid, ih, total_cons, Nat.add_assoc, and_assoc]

/-- A record of the queue is in the ring at its position. -/
theorem Laid.readAt_of_mem {s p : Nat} {r : Record} {rs : List Record} (h : Laid data s rs)
    (hr : (p, r) ∈ positioned s rs) :
    readAt DLOG_SIZE data p (sizeofHeader + r.data.length) = r.hdr.bytes ++ r.data := by
  induction rs generalizing s with
  | nil => cases hr
  | cons x xs ih =>
    rcases List.mem_cons.mp hr with heq | hr
    · obtain ⟨rfl, rfl⟩ := Prod.mk.inj heq
      exact h.1
    · exact ih h.2 hr

/-- A write of at most a lap, past the records and ending no more than a lap
after the first of them, leaves them in place. -/
theorem Laid.wrapWrite {s h : Nat} {rs : List Record} {xs : List UInt8} (hl : Laid data s rs)
    (hxs : xs.length ≤ DLOG_SIZE) (hend : s + total rs ≤ h) (hlap : h + xs.length ≤ s + DLOG_SIZE) :
    Laid (Ring.wrapWrite DLOG_SIZE data (h % DLOG_SIZE) xs) s rs := by
  induction rs generalizing s with
  | nil => trivial
  | cons r rs ih =>
    have hr := r.header_add_data_le
    rw [total_cons] at hend
    refine ⟨?_, ih hl.2 (by omega) (by omega)⟩
    rw [readAt_wrapWrite_of_disjoint DLOG_SIZE_pos hxs (by omega) (by omega)]
    exact hl.1

end Laid

/-! ## `Write` -/

section Write

variable {data : Nat → UInt8} {d : DLog} {q : Queue}

theorem length_le_total (rs : List Record) : rs.length ≤ total rs := by
  induction rs with
  | nil => exact Nat.le_refl 0
  | cons r rs ih =>
    have := r.header_add_data_le
    rw [total_cons, List.length_cons]
    unfold sizeofHeader at this
    omega

/-- The first word of a record in the ring is its preamble: a record starts at
a multiple of 4, so the word does not wrap. -/
theorem readU32_of_laid {s : Nat} {r : Record} {rs : List Record} (hl : Laid data s (r :: rs))
    (hs : s % 4 = 0) : DLog.readU32 data (s &&& DLOG_MASK) = some r.hdr.preamble := by
  have hmod : s % DLOG_SIZE % 4 = 0 := by unfold DLOG_SIZE; omega
  have hlt : s % DLOG_SIZE < DLOG_SIZE := Nat.mod_lt _ DLOG_SIZE_pos
  unfold DLog.readU32
  rw [and_DLOG_MASK, if_pos (by unfold DLOG_SIZE at hmod hlt ⊢; omega), ← readAt_eq_read (by unfold DLOG_SIZE at hmod hlt ⊢; omega)]
  -- the first four bytes of the header
  have hbytes := congrArg (List.take 4) hl.1
  rw [show sizeofHeader + r.data.length = 4 + (sizeofHeader + r.data.length - 4) by unfold sizeofHeader; omega,
    readAt_add, List.take_left' (by simp), List.take_append_of_le_length (by simp [sizeofHeader])] at hbytes
  rw [hbytes, ofLE_take_bytes, Nat.mod_eq_of_lt r.preamble_lt]

/-- The discard loop drops the oldest records while the new record of
`wiresize` bytes does not fit. -/
theorem evictLoop_eq {s w fuel : Nat} {rs : List Record} (hl : Laid data s rs) (hs : s % 4 = 0)
    (hfuel : rs.length < fuel) :
    DLog.evictLoop data (s + total rs) w fuel s = some (dropUntil (DLOG_SIZE - w) s rs).1 := by
  induction rs generalizing s fuel with
  | nil =>
    obtain ⟨fuel, rfl⟩ : ∃ f, fuel = f + 1 := ⟨fuel - 1, by simp at hfuel; omega⟩
    simp [DLog.evictLoop, dropUntil]
  | cons r rs ih =>
    obtain ⟨fuel, rfl⟩ : ∃ f, fuel = f + 1 := ⟨fuel - 1, by simp at hfuel; omega⟩
    unfold DLog.evictLoop dropUntil
    rw [Nat.add_sub_cancel_left]
    split_ifs with hfit
    · -- the oldest record goes: `tail_` moves past it by its FIFO length
      rw [readU32_of_laid hl hs, Option.bind_eq_bind, Option.bind_some, r.fifolen_hdr,
        show s + total (r :: rs) = s + r.wire + total rs by rw [total_cons]; omega]
      exact ih hl.2 (by have := r.wire_mod_four; omega) (by simp at hfuel; omega)
    · rfl

/-- The copy of a record into the ring, in however many pieces, is the run of
its header and data from `head_`: a record starts at a multiple of 4, so a
copy that does not fit before the end of the buffer splits before the end of
the data. -/
theorem copyIn_eq {offset : Nat} (hoff : offset < DLOG_SIZE) (hal : offset % 4 = 0) {hdr str : List UInt8}
    (hhdr : hdr.length = sizeofHeader) (hlen : str.length ≤ DLOG_MAX_DATA) :
    DLog.copyIn data offset (wireSize str.length) hdr str =
      some (Ring.wrapWrite DLOG_SIZE data offset (hdr ++ str)) := by
  have h40 : sizeofHeader = 40 := rfl
  have hS : DLOG_SIZE = 131072 := rfl
  have hw : wireSize str.length = 40 + (str.length + 3) / 4 * 4 := by
    unfold wireSize
    rw [DLOG_ALIGN_eq _ (by unfold DLOG_MAX_DATA DLOG_MAX_RECORD at hlen; omega), h40]
  unfold DLog.copyIn Ring.wrapWrite
  dsimp only
  rw [List.length_append, hhdr]
  by_cases hfit : DLOG_SIZE - offset ≥ wireSize str.length
  · -- in one piece
    rw [if_pos hfit, if_pos (show sizeofHeader + str.length ≤ DLOG_SIZE - offset by omega), ← hhdr,
      memcpy_memcpy]
  rw [if_neg hfit, if_neg (show ¬sizeofHeader + str.length ≤ DLOG_SIZE - offset by omega)]
  by_cases hhead : DLOG_SIZE - offset < sizeofHeader
  · -- the wrap in the header: the data follows the rest of the header from `0`
    have hcut : DLOG_SIZE - offset ≤ hdr.length := by omega
    rw [if_pos hhead, List.take_append_of_le_length hcut, List.drop_append_of_le_length hcut,
      show sizeofHeader - (DLOG_SIZE - offset) = 0 + (hdr.drop (DLOG_SIZE - offset)).length by simp; omega,
      memcpy_memcpy]
  · -- the wrap in the data: the room and the space left are multiples of 4,
    -- so the space left ends before the data does
    have hshort : ¬str.length < DLOG_SIZE - offset - sizeofHeader := by omega
    have hcut : hdr.length ≤ DLOG_SIZE - offset := by omega
    rw [if_neg hhead, if_neg hshort, List.take_append, List.take_of_length_le hcut, List.drop_append,
      List.drop_eq_nil_of_le hcut, List.nil_append, hhdr, ← memcpy_memcpy, hhdr]

theorem Represents.head_aligned (h : Represents d q) : d.head % 4 = 0 := by
  have := total_mod_four q.records
  have := h.start_aligned
  rw [h.head_eq, Queue.endPos]
  omega

/-- `Write` on a log that holds a queue passes its checks, its loop stops at
the first record the queue keeps, and its copy puts the record at `head_`. -/
theorem Represents.write_eq (h : Represents d q) {severity flags : Nat} {str : List UInt8} {timestamp : Int}
    {pid tid : Nat} {r : Record} (hr : q.record severity flags str timestamp pid tid = r) :
    d.Write severity flags str timestamp pid tid =
      some ({ d with
        data := Ring.wrapWrite DLOG_SIZE d.data (d.head % DLOG_SIZE) (r.hdr.bytes ++ r.data)
        tail := (dropUntil (DLOG_SIZE - r.wire) q.start q.records).1
        head := d.head + r.wire
        sequenceCount := d.sequenceCount + 1 }, .ok) := by
  have hevict : DLog.evictLoop d.data d.head r.wire (d.head - d.tail + 1) d.tail =
      some (dropUntil (DLOG_SIZE - r.wire) q.start q.records).1 := by
    rw [h.head_eq, h.tail_eq, Queue.endPos, Nat.add_sub_cancel_left]
    exact evictLoop_eq h.laid h.start_aligned (by have := length_le_total q.records; omega)
  have hcopy : DLog.copyIn d.data (d.head &&& DLOG_MASK) r.wire r.hdr.bytes r.data =
      some (Ring.wrapWrite DLOG_SIZE d.data (d.head % DLOG_SIZE) (r.hdr.bytes ++ r.data)) := by
    have := h.head_aligned
    rw [and_DLOG_MASK]
    exact copyIn_eq (Nat.mod_lt _ DLOG_SIZE_pos) (by unfold DLOG_SIZE; omega) (length_bytes _) r.data_le
  -- the record `Write` builds from its arguments is the queue's
  have hhdr : makeHeader r.wire r.data.length severity flags timestamp pid tid d.sequenceCount = r.hdr := by
    rw [h.sequence_eq, ← hr]
    rfl
  have hdata : List.take DLOG_MAX_DATA str = r.data := by
    rw [← hr]
    rfl
  unfold DLog.Write
  simp only [h.not_panic, h.running, Bool.not_true, Bool.false_eq_true, if_false]
  rw [hdata, show wireSize r.data.length = r.wire from rfl, hhdr, hevict, Option.bind_eq_bind,
    Option.bind_some, hcopy, Option.bind_eq_bind, Option.bind_some]

/-- A log that holds a queue, with the oldest records `xs` dropped and a record
written at `head_` where it fits, holds the rest of the queue with the record
appended. -/
theorem Represents.append (h : Represents d q) {xs ys : List Record} (hxs : xs ++ ys = q.records) (r : Record)
    (hroom : total ys + r.wire ≤ DLOG_SIZE) :
    Represents
      { d with
        data := Ring.wrapWrite DLOG_SIZE d.data (d.head % DLOG_SIZE) (r.hdr.bytes ++ r.data)
        tail := q.start + total xs
        head := d.head + r.wire
        sequenceCount := d.sequenceCount + 1 }
      ⟨q.start + total xs, ys ++ [r], q.sequence + 1⟩ := by
  have hr := r.header_add_data_le
  have hlaid := (laid_append xs ys).mp (hxs ▸ h.laid)
  have hhead : d.head = q.start + total xs + total ys := by
    rw [h.head_eq, Queue.endPos, ← hxs, total_append, Nat.add_assoc]
  refine ⟨rfl, ?_, ?_, ?_, ?_, by rw [h.sequence_eq], h.not_panic, h.running⟩
  · show d.head + r.wire = q.start + total xs + total (ys ++ [r])
    rw [total_append, total_cons, total_nil, hhead]
    omega
  · show total (ys ++ [r]) ≤ DLOG_SIZE
    rw [total_append, total_cons, total_nil]
    omega
  · show (q.start + total xs) % 4 = 0
    have := total_mod_four xs
    have := h.start_aligned
    omega
  · -- the kept records stay where they were, and the new one is at `head_`
    show Laid _ (q.start + total xs) (ys ++ [r])
    have hlen : (r.hdr.bytes ++ r.data).length = sizeofHeader + r.data.length := by simp
    refine (laid_append _ _).mpr ⟨?_, ?_, trivial⟩
    · exact hlaid.2.wrapWrite (by rw [hlen]; omega) (by omega) (by rw [hlen]; omega)
    · rw [← hhead, ← hlen]
      exact readAt_wrapWrite_self DLOG_SIZE_pos (by rw [hlen]; omega) d.head

/-- `Write` on a log that holds a queue succeeds, and the log then holds the
queue with the record appended and the oldest ones dropped. -/
theorem Represents.write (h : Represents d q) (severity flags : Nat) (str : List UInt8) (timestamp : Int)
    (pid tid : Nat) :
    ∃ d', d.Write severity flags str timestamp pid tid = some (d', .ok) ∧
      Represents d' (q.write severity flags str timestamp pid tid) := by
  set r := q.record severity flags str timestamp pid tid with hr
  -- what is left of the queue once the new record fits
  obtain ⟨xs, hxs, hstart⟩ := @dropUntil_spec (DLOG_SIZE - r.wire) q.start q.records
  have hkept : total (dropUntil (DLOG_SIZE - r.wire) q.start q.records).2 ≤ DLOG_SIZE - r.wire :=
    total_dropUntil_le _ _
  have hw := r.wire_le
  refine ⟨_, h.write_eq hr.symm, ?_⟩
  rw [Queue.write_eq hr.symm, hstart]
  exact h.append hxs r (by unfold DLOG_SIZE at hkept ⊢; omega)

end Write

/-! ## `Read` -/

section Read

variable {d : DLog} {q : Queue}

/-- `ReassembleFromOffset` copies out the run of the ring. -/
theorem reassemble_eq (data : Nat → UInt8) (p : Nat) {len : Nat} (hlen : len ≤ DLOG_SIZE) :
    DLog.ReassembleFromOffset data p len = .ok (readAt DLOG_SIZE data p len) := by
  unfold DLog.ReassembleFromOffset
  split_ifs with h0 hbig
  · subst h0
    rfl
  · omega
  · dsimp only
    rw [and_DLOG_MASK, ← read_split_eq_readAt DLOG_SIZE_pos hlen]
    split <;> rfl

/-- Where the reader's `tail_` is at `head_`, it waits there. -/
theorem read_of_head {tail_ : Nat} (hrtail : (if d.head - d.tail < d.head - tail_ then d.tail else tail_) = d.head) :
    d.Read tail_ = some (d.head, .status .shouldWait) := by
  unfold DLog.Read
  dsimp only
  rw [hrtail, if_neg (not_not.mpr rfl)]

/-- Where the reader's `tail_` is at a record, it reads the record and moves
past it. -/
theorem read_of_record {tail_ p : Nat} {r : Record}
    (hrtail : (if d.head - d.tail < d.head - tail_ then d.tail else tail_) = p) (hne : p ≠ d.head)
    (hbytes : readAt DLOG_SIZE d.data p (sizeofHeader + r.data.length) = r.hdr.bytes ++ r.data) :
    d.Read tail_ = some (p + r.wire, r.outcome) := by
  have hlen := r.length_data_le
  -- the header and the data, each read in one piece of the ring
  rw [readAt_add] at hbytes
  obtain ⟨hhdr, hdata⟩ := List.append_inj hbytes (by simp)
  unfold DLog.Read
  dsimp only
  rw [hrtail, if_pos hne, reassemble_eq _ _ (by unfold sizeofHeader DLOG_SIZE; omega), hhdr]
  dsimp only
  rw [ofLE_take_bytes, ofLE_datalen_bytes, Nat.mod_eq_of_lt r.preamble_lt, r.readlen_hdr, r.datalen_hdr,
    Nat.mod_eq_of_lt (by omega), if_neg (by omega), if_neg (by unfold DLOG_MAX_DATA DLOG_MAX_RECORD sizeofHeader; omega),
    reassemble_eq _ _ (by unfold DLOG_SIZE; omega), hdata, r.fifolen_hdr, clear_preamble_bytes]
  rfl

/-- A reader that has not been lapped stands at or after the log's tail. -/
theorem Represents.rtail_eq (h : Represents d q) {p : Nat} (hp : p ≤ q.endPos) :
    (if d.head - d.tail < d.head - p then d.tail else p) = if p < q.start then q.start else p := by
  rw [h.head_eq, h.tail_eq]
  unfold Queue.endPos at hp ⊢
  split_ifs <;> omega

/-- `Read` from a position a reader may hold is the queue's read. -/
theorem Represents.read (h : Represents d q) {p : Nat} (hp : q.ReaderOk p) : d.Read p = some (q.read p) := by
  obtain ⟨hle, hpos⟩ := hp
  have hrt := h.rtail_eq hle
  unfold Queue.read
  rcases hpos with hlap | hend | ⟨r, hr⟩
  · -- lapped: back to the oldest record
    rw [if_pos hlap] at hrt
    cases hrs : q.records with
    | nil =>
      have hempty : q.start = d.head := by
        rw [h.head_eq, Queue.endPos, hrs, total_nil, Nat.add_zero]
      rw [hempty] at hrt
      rw [read_of_head hrt, positioned, List.find?_nil, ← hempty, Queue.endPos, hrs, total_nil, Nat.add_zero]
    | cons r rs =>
      have hl := h.laid
      rw [hrs] at hl
      have hw := r.header_add_data_le
      unfold sizeofHeader at hw
      have hne : q.start ≠ d.head := by
        rw [h.head_eq, Queue.endPos, hrs, total_cons]
        omega
      rw [read_of_record hrt hne hl.1, find?_positioned_of_le (Nat.le_of_lt hlap)]
  · -- at the end: nothing to read
    have hnot : ¬ p < q.start := by
      unfold Queue.endPos at hend
      omega
    have hhead : p = d.head := by rw [hend, h.head_eq]
    rw [if_neg hnot, hhead] at hrt
    rw [hhead, read_of_head hrt, find?_positioned_of_total_le (Nat.le_of_eq h.head_eq.symm), h.head_eq]
  · -- at a record
    have hb := le_of_mem_positioned hr
    have hw := r.header_add_data_le
    unfold sizeofHeader at hw
    have hne : p ≠ d.head := by
      rw [h.head_eq]
      unfold Queue.endPos
      omega
    rw [if_neg (show ¬ p < q.start by omega)] at hrt
    rw [read_of_record hrt hne (h.laid.readAt_of_mem hr), find?_positioned_of_mem hr]

end Read

/-! ## Runs -/

section Runs

/-- The system holds the specification: its log holds the queue, and its
readers hold the specification's positions, each one a reader may hold. -/
structure Sim (s : System) (a : Spec) : Prop where
  represents : Represents s.log a.queue
  readers_eq : s.readers = a.readers
  readers_ok : a.ReadersOk

theorem sim_init : Sim System.init Spec.init where
  represents := ⟨rfl, rfl, Nat.zero_le _, rfl, trivial, rfl, rfl, rfl⟩
  readers_eq := rfl
  readers_ok := Spec.readersOk_init

variable {s : System} {a : Spec}

/-- Each call of the system returns what the specification's call returns, and
keeps the simulation. -/
theorem Sim.step (h : Sim s a) (op : Op) : ∃ s', s.step op = some (s', (a.step op).2) ∧ Sim s' (a.step op).1 := by
  have hok := h.readers_ok.step op
  cases op with
  | write severity flags str timestamp pid tid =>
    obtain ⟨d', hw, hr⟩ := h.represents.write severity flags str timestamp pid tid
    refine ⟨⟨d', s.readers⟩, ?_, ⟨hr, h.readers_eq, hok⟩⟩
    rw [System.step, hw, Option.bind_eq_bind, Option.bind_some]
    rfl
  | attach =>
    refine ⟨_, rfl, ⟨h.represents, ?_, hok⟩⟩
    show s.readers ++ [s.log.tail] = a.readers ++ [a.queue.start]
    rw [h.readers_eq, h.represents.tail_eq]
  | read i =>
    simp only [System.step, Spec.step] at hok ⊢
    rw [h.readers_eq]
    cases hi : a.readers[i]? with
    | none => exact ⟨s, rfl, h⟩
    | some p =>
      rw [hi] at hok
      dsimp only at hok ⊢
      -- the reader's position is one it may hold, so `Read` is the queue's read
      have hp : a.queue.ReaderOk p := h.readers_ok p (List.mem_of_getElem? hi)
      rw [h.represents.read hp, Option.bind_eq_bind, Option.bind_some]
      exact ⟨_, rfl, ⟨h.represents, rfl, hok⟩⟩

/-- A whole run of the system returns what the specification's run returns,
and ends in a state that simulates the specification's. -/
theorem Sim.run (h : Sim s a) (ops : List Op) : ∃ s', s.run ops = some (s', (a.run ops).2) ∧ Sim s' (a.run ops).1 := by
  induction ops generalizing s a with
  | nil => exact ⟨s, rfl, h⟩
  | cons op ops ih =>
    obtain ⟨s₁, h₁, hs₁⟩ := h.step op
    obtain ⟨s₂, h₂, hs₂⟩ := ih hs₁
    refine ⟨s₂, ?_, hs₂⟩
    rw [System.run, h₁, Option.bind_eq_bind, Option.bind_some]
    dsimp only
    rw [h₂, Option.bind_eq_bind, Option.bind_some]
    rfl

end Runs

/-- Any run of writes, new readers and reads, from a new log, returns what the
queue returns, and the log then holds the queue: its records lie byte for byte
in the ring from `tail_`, which is at most one `DLOG_SIZE` behind `head_`. -/
theorem debuglog_holds_queue (ops : List Op) :
    ∃ s, System.init.run ops = some (s, (Spec.init.run ops).2) ∧
      Represents s.log (Spec.init.run ops).1.queue ∧ s.readers = (Spec.init.run ops).1.readers ∧
      s.log.tail ≤ s.log.head ∧ s.log.head ≤ s.log.tail + DLOG_SIZE := by
  obtain ⟨s, hrun, hsim⟩ := sim_init.run ops
  have hr := hsim.represents
  refine ⟨s, hrun, hr, hsim.readers_eq, ?_, ?_⟩
  · rw [hr.tail_eq, hr.head_eq, Queue.endPos]
    exact Nat.le_add_right _ _
  · rw [hr.tail_eq, hr.head_eq, Queue.endPos]
    exact Nat.add_le_add_left hr.total_le _

end Zircon.Debuglog
