import Zircon.Memalloc.Range

/-!
# `algorithm.cc`: finding normalized ranges

Both algorithms of `kernel/phys/lib/memalloc/algorithm.cc`, as the source
writes them.

* `FindNormalizedRamRanges` streams the ranges in lexicographic order and keeps
  one RAM `candidate` and the last merged non-RAM interval, trimming each
  against the other.
* `FindNormalizedRanges` sorts the left and right endpoints of every range,
  sweeps them in batches of equal value with one counter per type, and after
  each batch asks `ActiveRanges::DominantType` which type is on top.

A `RangeCallback` may carry state and may stop either algorithm by returning
`false`; it is a function `σ → Range → σ × Bool` here, and each algorithm
returns the callback's final state.
-/

namespace Zircon.Memalloc

/-! ## `RangeStream` -/

/-- `internal::RangeIterationContext`: a span of ranges and what its iterator has
not yet passed. -/
structure RangeIterationContext where
  ranges : List Range
  rest : List Range

/-- `RangeIterationContext(span)`: the constructor sorts the span. The model of
`std::sort` is an insertion sort, one of the orders `std::sort` may leave. -/
def RangeIterationContext.ofSpan (rs : List Range) : RangeIterationContext :=
  ⟨rs.insertionSort Range.le, rs.insertionSort Range.le⟩

/-- `RangeStream`: ranges served in lexicographic order from several sorted spans. -/
structure RangeStream where
  state : List RangeIterationContext

namespace RangeStream

/-- The `std::min_element` search of `operator()`: the first context whose head is
least, a context at its end counting as greater than any other. -/
def minElement : List RangeIterationContext → Nat → Option (Nat × Range) → Option (Nat × Range)
  | [], _, best => best
  | ctx :: rest, i, best =>
    match ctx.rest, best with
    | [], _ => minElement rest (i + 1) best
    | r :: _, none => minElement rest (i + 1) (some (i, r))
    | r :: _, some (_, b) =>
      if r.lt b then minElement rest (i + 1) (some (i, r)) else minElement rest (i + 1) best

/-- `operator()`: the next range, advancing the context it came from. -/
def next (s : RangeStream) : Option (Range × RangeStream) :=
  match minElement s.state 0 none with
  | none => none
  | some (i, r) => some (r, ⟨s.state.modify i fun ctx => { ctx with rest := ctx.rest.drop 1 }⟩)

/-- `size()`: the total number of ranges in the spans. -/
def size (s : RangeStream) : Nat := (s.state.map fun ctx => ctx.ranges.length).sum

/-- What is still to be served. -/
def remaining (s : RangeStream) : Nat := (s.state.map fun ctx => ctx.rest.length).sum

/-- `reset()`. -/
def reset (s : RangeStream) : RangeStream := ⟨s.state.map fun ctx => { ctx with rest := ctx.ranges }⟩

/-- Calling `operator()` until it returns `nullptr`; each call serves one range. -/
def drain : Nat → RangeStream → List Range
  | 0, _ => []
  | n + 1, s =>
    match s.next with
    | none => []
    | some (r, s') => r :: drain n s'

/-- Everything the stream still serves, in order. -/
def toList (s : RangeStream) : List Range := drain s.remaining s

/-- The stream over one span, as the `cpp20::span<Range>` overloads build it. -/
def ofSpan (rs : List Range) : RangeStream := ⟨[RangeIterationContext.ofSpan rs]⟩

end RangeStream

/-! ## `FindNormalizedRamRanges` -/

section RamRanges

variable {σ : Type}

/-- The loop body of `FindNormalizedRamRanges` and the final emission, over the
ranges the stream serves. -/
def ramRangesLoop (cb : σ → Range → σ × Bool) :
    List Range → σ → Interval → Interval → σ
  | [], s, candidate, _ =>
    if !candidate.empty then (cb s candidate.AsRamRange).1 else s
  | range :: rest, s, candidate, currentNonRam =>
    let interval := Interval.ofRange range
    if interval.empty then ramRangesLoop cb rest s candidate currentNonRam
    else if range.type = .kFreeRam then
      -- a RAM interval can only meet the current non-RAM interval at its head
      let trimmed := interval.IntersectsWith currentNonRam
      let interval := if trimmed then interval.TailAfterIntersection currentNonRam else interval
      if trimmed && interval.empty then ramRangesLoop cb rest s candidate currentNonRam
      else if candidate.IntersectsWith interval || candidate.IsAdjacentTo interval then
        ramRangesLoop cb rest s (candidate.MergeInto interval) currentNonRam
      else if !candidate.empty then
        let (s, ok) := cb s candidate.AsRamRange
        if !ok then s else ramRangesLoop cb rest s interval currentNonRam
      else ramRangesLoop cb rest s interval currentNonRam
    else
      -- a non-RAM interval cuts the candidate: emit the head, keep the tail
      if candidate.IntersectsWith interval then
        let before := candidate.HeadBeforeIntersection interval
        let (s, ok) := if !before.empty then cb s before.AsRamRange else (s, true)
        if !ok then s
        else
          let candidate := candidate.TailAfterIntersection interval
          if currentNonRam.IntersectsWith interval || currentNonRam.IsAdjacentTo interval then
            ramRangesLoop cb rest s candidate (currentNonRam.MergeInto interval)
          else ramRangesLoop cb rest s candidate interval
      else if currentNonRam.IntersectsWith interval || currentNonRam.IsAdjacentTo interval then
        ramRangesLoop cb rest s candidate (currentNonRam.MergeInto interval)
      else ramRangesLoop cb rest s candidate interval

/-- `FindNormalizedRamRanges(RangeStream, RangeCallback)`. -/
def FindNormalizedRamRanges (ranges : RangeStream) (cb : σ → Range → σ × Bool) (s : σ) : σ :=
  ramRangesLoop cb ranges.toList s Interval.empty₀ Interval.empty₀

end RamRanges

/-! ## `FindNormalizedRanges` -/

/-- `EndpointType`. -/
inductive EndpointType where
  | kLeft
  | kRight
deriving DecidableEq, Repr

/-- `Endpoint`: a range and which of its two ends is meant. -/
structure Endpoint where
  range : Range
  type : EndpointType
deriving DecidableEq, Repr

namespace Endpoint

/-- `IsLeft()`. -/
def IsLeft (e : Endpoint) : Bool := e.type == .kLeft

/-- `value()`. -/
def value (e : Endpoint) : Nat := if e.IsLeft then GetLeft e.range else GetRight e.range

/-- `operator<`: by value, left endpoints first. -/
def lt (e o : Endpoint) : Bool :=
  decide (e.value < o.value ∨ (e.value = o.value ∧ e.IsLeft = true ∧ o.IsLeft = false))

/-- The order `std::sort` leaves the endpoints in: not greater. -/
def le (e o : Endpoint) : Prop := o.lt e = false

instance : DecidableRel le := fun e o => inferInstanceAs (Decidable (o.lt e = false))

instance : Std.Total le where
  total e o := by
    simp only [le, lt, decide_eq_false_iff_not, not_or, not_and]
    cases e.IsLeft <;> cases o.IsLeft <;> simp <;> omega

instance : IsTrans Endpoint le where
  trans e o q := by
    simp only [le, lt, decide_eq_false_iff_not, not_or, not_and]
    cases e.IsLeft <;> cases o.IsLeft <;> cases q.IsLeft <;> simp <;> omega

end Endpoint

/-- The two endpoints `FindNormalizedRanges` writes for each range. -/
def endpointsOf (ranges : List Range) : List Endpoint :=
  ranges.flatMap fun r => [⟨r, .kLeft⟩, ⟨r, .kRight⟩]

/-- `ActiveRanges`: an array of counters, one per base type and per extended type. -/
structure ActiveRanges where
  values : Fin (kNumBaseTypes + kNumExtendedTypes) → Nat

namespace ActiveRanges

/-- The all-zero array. -/
def zero : ActiveRanges := ⟨fun _ => 0⟩

/-- Extended slots follow the base ones and stay inside the array. -/
theorem extended_slot_lt (i : Fin kNumExtendedTypes) :
    kNumBaseTypes + i < kNumBaseTypes + kNumExtendedTypes :=
  Nat.add_lt_add_left i.isLt _

/-- The slot `operator[]` selects: unknown types are normalized to `kReserved`. -/
def index : RangeType → Fin (kNumBaseTypes + kNumExtendedTypes)
  | .kFreeRam => ⟨0, by decide⟩
  | .kPeripheral => ⟨1, by decide⟩
  | .kReserved => ⟨2, by decide⟩
  | .extended i => ⟨kNumBaseTypes + i, extended_slot_lt i⟩
  | .unknown _ => ⟨2, by decide⟩

/-- `(*this)[type]`, read. -/
def get (c : ActiveRanges) (t : RangeType) : Nat := c.values (index t)

/-- `counters[type]++` for a left endpoint, `counters[type]--` for a right one. -/
def count (c : ActiveRanges) (e : Endpoint) : ActiveRanges :=
  ⟨Function.update c.values (index e.range.type)
    (if e.IsLeft then c.values (index e.range.type) + 1 else c.values (index e.range.type) - 1)⟩

/-- The second loop of `DominantType`, over the extended types in increasing order. -/
def extendedLoop (c : ActiveRanges) (activeBase : Option RangeType) :
    List (Fin kNumExtendedTypes) → Option RangeType → Except Unit (Option RangeType)
  | [], activeExtended => .ok activeExtended
  | i :: is, activeExtended =>
    if 0 < c.get (.extended i) then
      if (activeBase.isSome && activeBase != some .kFreeRam) || activeExtended.isSome then
        .error ()
      else extendedLoop c activeBase is (some (.extended i))
    else extendedLoop c activeBase is activeExtended

/-- The first loop of `DominantType`: the base types in reverse order of
precedence, so that the last active one wins. -/
def activeBase (c : ActiveRanges) : Option RangeType :=
  [RangeType.kFreeRam, .kPeripheral, .kReserved].foldl
    (fun acc t => if 0 < c.get t then some t else acc) none

/-- `DominantType`: the active type of highest precedence, `none` if nothing is
active, or `fit::failed` when two extended types, or an extended type and
`kReserved` or `kPeripheral`, are active together. -/
def DominantType (c : ActiveRanges) : Except Unit (Option RangeType) :=
  match extendedLoop c c.activeBase (List.finRange kNumExtendedTypes) none with
  | .error e => .error e
  | .ok (some t) => .ok (some t)
  | .ok none => .ok c.activeBase

end ActiveRanges

/-- The state the sweep of `FindNormalizedRanges` carries from batch to batch. -/
structure Sweep where
  counters : ActiveRanges
  currType : Option RangeType
  currStart : Nat
  currValue : Nat

section Sweep

variable {σ : Type}

/-- The `process_event` lambda: when the dominant type changes, emit the range
built up so far (if it has a type and is non-empty) and start a new one. The
`Bool` is `false` when the callback asked to stop. -/
def processEvent (cb : σ → Range → σ × Bool) (s : σ) (w : Sweep)
    (activeType : Option RangeType) : σ × Bool × Sweep :=
  if activeType = w.currType then (s, true, w)
  else
    let w' := { w with currStart := w.currValue, currType := activeType }
    match w.currType with
    | some t =>
      if w.currStart < w.currValue then
        let (s, ok) := cb s ⟨w.currStart, w.currValue - w.currStart, t⟩
        if !ok then (s, false, w) else (s, true, w')
      else (s, true, w')
    | none => (s, true, w')

/--
The sweep over the sorted endpoints. The `do ... while` loop of the source
consumes every endpoint of the current value; here each endpoint is counted and
the batch ends when the next endpoint has another value (or there is none). At
the end of a batch `curr_value` moves on to the next value, which the source
does at the top of its `for` loop.
-/
def sweepLoop (cb : σ → Range → σ × Bool) : List Endpoint → σ → Sweep → σ × Except Unit Unit
  | [], s, _ => (s, .ok ())
  | e :: rest, s, w =>
    let w := { w with counters := w.counters.count e }
    if rest.head?.map Endpoint.value = some w.currValue then sweepLoop cb rest s w
    else
      match w.counters.DominantType with
      | .error _ => (s, .error ())
      | .ok activeType =>
        let (s, go, w) := processEvent cb s w activeType
        if !go then (s, .ok ())
        else sweepLoop cb rest s { w with currValue := (rest.head?.map Endpoint.value).getD w.currValue }

/-- `FindNormalizedRangesScratchSize(n)`: the `void*` words of scratch the
sweep below needs for a stream of `n` ranges. -/
def FindNormalizedRangesScratchSize (n : Nat) : Nat := 4 * n

/-- `FindNormalizedRanges(RangeStream, scratch, RangeCallback)`. The scratch
span only holds the endpoint array; its size assertion is not modelled. -/
def FindNormalizedRanges (ranges : RangeStream) (cb : σ → Range → σ × Bool) (s : σ) :
    σ × Except Unit Unit :=
  if ranges.size = 0 then (s, .ok ())
  else
    let endpoints := (endpointsOf ranges.toList).insertionSort Endpoint.le
    match endpoints with
    | [] => (s, .ok ())
    | e :: _ => sweepLoop cb endpoints s ⟨ActiveRanges.zero, none, e.value, e.value⟩

end Sweep

/-- The callback of the tests and fuzzers: collect every range and go on. -/
def collect (acc : List Range) (r : Range) : List Range × Bool := (acc ++ [r], true)

end Zircon.Memalloc
