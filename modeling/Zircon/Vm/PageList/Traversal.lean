import Zircon.Runs
import Zircon.Vm.PageList.Lookup

/-!
# Walking a `VmPageList`: pages and gaps

`ForEveryPageInRange` calls a callback on every populated slot of a range of
offsets. It does not walk slot by slot: in skewed coordinates it takes the
`lower_bound` node of the start's node offset, walks the part of it from the
start, then every node that ends below the end, then the part of the last node
up to the end. `ForEveryPageAndGapInRange` wraps the callback to find the gaps
between the pages it is called on: a jump in offsets is a gap, unless it ends at
an interval's end; the stretch after the last page is a gap unless the walk
ended inside an interval, which a flag tracks, and which, where the walk saw no
page at all, `IsOffsetInInterval` decides.

The three-phase walk is the early-exit loop `visit` over the populated slots of
the range in offset order (`forEveryPageInRange_eq`): each node's part is its
slots clipped to the range, the nodes before the `lower_bound` hold none of it,
and those past the last node none either.

With callbacks that always return `ZX_ERR_NEXT`, the calls the wrapper makes are
followed along that list by the invariant `CallsBelow`: below the offset it
expects next, the page calls are the populated slots and the gap calls are
non-empty, apart, and cover exactly the offsets that hold nothing and lie in no
interval. Where a stretch between two populated slots lies is decided by its
ends alone (an end sentinel after it puts it in an interval, a start before it
does too, anything else leaves it free), which is what the wrapper looks at.
The gap calls are then the maximal runs of free offsets (`Runs.Gapped`).

The source's offsets are `uint64_t`: the range is read where the skewed end
does not wrap, below `MAX_SIZE`, and with a skew of whole pages, as
`InitializeSkew`'s callers give it.
-/

namespace Zircon.Vm

open VmPageOrMarker

/-- The `zx_status_t`s the traversals and their callbacks return. -/
inductive Status where
  | ok
  | next
  | stop
  | error (code : Int)
deriving DecidableEq, Repr

/-- What a traversal returns when a callback ends it early with `status`: a
`ZX_ERR_STOP` ends it with `ZX_OK`. -/
def Status.early (status : Status) : Status := if status = .stop then .ok else status

variable {σ : Type}

/-- The traversals over a run of populated slots, each with the offset reported
for it: the callback on each in turn until one returns other than
`ZX_ERR_NEXT`. Callbacks thread a state `σ` and give `none` where they fail a
DEBUG_ASSERT. -/
def visit (func : σ → VmPageOrMarker → Nat → Option (σ × Status)) :
    σ → List (VmPageOrMarker × Nat) → Option (σ × Status)
  | st, [] => some (st, .next)
  | st, (p, off) :: rest =>
    match func st p off with
    | none => none
    | some (st', status) => if status = .next then visit func st' rest else some (st', status)

namespace VmPageListNode

/-- `end_offset()`. -/
def endOffset (n : VmPageListNode) : Nat := (n.offset + kPageFanOut * PAGE_SIZE) % 2 ^ 64

/-- The loop of `ForEveryPageInRange` over `count` slots from `i`: the callback
on each populated one, at `obj_offset_ + i * PAGE_SIZE - skew`. -/
def forEveryPageLoop (n : VmPageListNode) (func : σ → VmPageOrMarker → Nat → Option (σ × Status))
    (skew : Nat) : Nat → Nat → σ → Option (σ × Status)
  | 0, _, st => some (st, .next)
  | count + 1, i, st =>
    if (n.pages i).IsEmpty then n.forEveryPageLoop func skew count (i + 1) st
    else
      match func st (n.pages i) ((n.objOffset + i * PAGE_SIZE + 2 ^ 64 - skew) % 2 ^ 64) with
      | none => none
      | some (st', status) =>
        if status = .next then n.forEveryPageLoop func skew count (i + 1) st' else some (st', status)

/-- `VmPageListNode::ForEveryPageInRange(func, start_offset, end_offset, skew)`,
over offsets in skewed coordinates; `none` where a DEBUG_ASSERT fails. -/
def ForEveryPageInRange (n : VmPageListNode) (func : σ → VmPageOrMarker → Nat → Option (σ × Status))
    (st : σ) (start_offset end_offset skew : Nat) : Option (σ × Status) :=
  if end_offset ≥ start_offset ∧ start_offset ≥ n.objOffset ∧ end_offset ≤ n.endOffset then
    let start := (start_offset - n.objOffset) / PAGE_SIZE
    let last := (end_offset - n.objOffset) / PAGE_SIZE
    n.forEveryPageLoop func skew (last - start) start st
  else none

/-- `ForEveryPage(func, skew)`: the whole node. -/
def ForEveryPage (n : VmPageListNode) (func : σ → VmPageOrMarker → Nat → Option (σ × Status))
    (st : σ) (skew : Nat) : Option (σ × Status) :=
  n.ForEveryPageInRange func st n.offset n.endOffset skew

end VmPageListNode

namespace VmPageList

/-- `list_.lower_bound(key)` as an iterator: the nodes from the first at or
above `key` on, in key order, so that `++` moves to the tail. -/
def lowerBoundIter (pl : VmPageList) (key : Nat) : List VmPageListNode :=
  pl.list.dropWhile fun n => n.objOffset < key

/-- A phase of `ForEveryPageInRange` ends with `.error` carrying the status the
traversal returns, or with `.ok` carrying the state and the iterator the next
phase starts from; `none` where a DEBUG_ASSERT fails. -/
def continueWith (r : Option (Except (σ × Status) (σ × List VmPageListNode)))
    (k : σ → List VmPageListNode → Option (σ × Status)) : Option (σ × Status) :=
  match r with
  | none => none
  | some (.error r) => some r
  | some (.ok (st, cur)) => k st cur

/-- The first phase of `ForEveryPageInRange`: the part of the first node from
`start_offset`, where `start_offset` is not its first offset. -/
def firstNode (per_page_func : σ → VmPageOrMarker → Nat → Option (σ × Status))
    (start_offset end_offset skew : Nat) (cur : VmPageListNode) (rest : List VmPageListNode) (st : σ) :
    Option (Except (σ × Status) (σ × List VmPageListNode)) :=
  if cur.offset < start_offset then
    match cur.ForEveryPageInRange per_page_func st start_offset (min end_offset cur.endOffset) skew with
    | none => none
    | some (st', status) =>
      if status = .next then some (.ok (st', rest)) else some (.error (st', status.early))
  else some (.ok (st, cur :: rest))

/-- The loop over whole nodes of `ForEveryPageInRange`: on from `cur` while the
node ends below `end_offset`. -/
def wholeNodes (per_page_func : σ → VmPageOrMarker → Nat → Option (σ × Status))
    (start_offset end_offset skew : Nat) :
    List VmPageListNode → σ → Option (Except (σ × Status) (σ × List VmPageListNode))
  | [], st => some (.ok (st, []))
  | cur :: rest, st =>
    if cur.endOffset < end_offset then
      if start_offset ≤ cur.offset then
        match cur.ForEveryPage per_page_func st skew with
        | none => none
        | some (st', status) =>
          if status = .next then wholeNodes per_page_func start_offset end_offset skew rest st'
          else some (.error (st', status.early))
      else none
    else some (.ok (st, cur :: rest))

/-- The last phase of `ForEveryPageInRange`: the part of the node holding
`end_offset` up to it. -/
def lastNode (per_page_func : σ → VmPageOrMarker → Nat → Option (σ × Status)) (end_offset skew : Nat)
    (cur : List VmPageListNode) (st : σ) : Option (σ × Status) :=
  match cur with
  | [] => some (st, .ok)
  | cur :: _ =>
    if cur.offset < end_offset then
      if cur.endOffset ≥ end_offset then
        match cur.ForEveryPageInRange per_page_func st cur.offset end_offset skew with
        | none => none
        | some (st', status) => some (st', if status = .next then .ok else status.early)
      else none
    else some (st, .ok)

/-- `VmPageList::ForEveryPageInRange<PTR_TYPE, NodeCheck::Skip>(self,
per_page_func, start_offset, end_offset)`. -/
def ForEveryPageInRange (pl : VmPageList) (per_page_func : σ → VmPageOrMarker → Nat → Option (σ × Status))
    (st : σ) (start_offset end_offset : Nat) : Option (σ × Status) :=
  if start_offset % PAGE_SIZE = 0 ∧ end_offset % PAGE_SIZE = 0 then
    let start_offset := (start_offset + pl.listSkew) % 2 ^ 64
    let end_offset := (end_offset + pl.listSkew) % 2 ^ 64
    match pl.lowerBoundIter (start_offset / (kPageFanOut * PAGE_SIZE) * (kPageFanOut * PAGE_SIZE)) with
    | [] => some (st, .ok)
    | cur :: rest =>
      continueWith (firstNode per_page_func start_offset end_offset pl.listSkew cur rest st) fun st₁ cur₁ =>
        continueWith (wholeNodes per_page_func start_offset end_offset pl.listSkew cur₁ st₁) fun st₂ cur₂ =>
          lastNode per_page_func end_offset pl.listSkew cur₂ st₂
  else none

/-- The state `ForEveryPageAndGapInRange` keeps across calls of its page
callback: `expected_next_off`, `in_interval`, and the callbacks' own state. -/
structure GapWalk (σ : Type) where
  expectedNextOff : Nat
  inInterval : Bool
  user : σ

/-- `per_page_wrapper_fn` of `ForEveryPageAndGapInRange`. -/
def perPageWrapperFn (per_page_func : σ → VmPageOrMarker → Nat → Option (σ × Status))
    (per_gap_func : σ → Nat → Nat → Option (σ × Status)) (start_offset end_offset : Nat) (w : GapWalk σ)
    (p : VmPageOrMarker) (off : Nat) : Option (GapWalk σ × Status) := do
  -- a jump to an interval's end is the interval, not a gap
  let (user, status) ← if w.expectedNextOff ≠ off ∧ !p.IsIntervalEnd then
      per_gap_func w.user w.expectedNextOff off
    else pure (w.user, .next)
  let (user, in_interval, status) ←
    if status = .next then do
      let in_interval ←
        if p.IsIntervalStart then
          if !w.inInterval ∧ p.IsIntervalZero then pure true else none
        else if p.IsIntervalEnd then
          if (w.inInterval ∨ w.expectedNextOff = start_offset) ∧ p.IsIntervalZero then pure false else none
        else pure w.inInterval
      let (user, status) ← per_page_func user p off
      pure (user, in_interval, status)
    else pure (user, w.inInterval, status)
  pure (⟨if status = .stop then end_offset else (off + PAGE_SIZE) % 2 ^ 64, in_interval, user⟩, status)

/-- `VmPageList::ForEveryPageAndGapInRange<const VmPageOrMarker*>(per_page_func,
per_gap_func, start_offset, end_offset)`. -/
def ForEveryPageAndGapInRange (pl : VmPageList) (per_page_func : σ → VmPageOrMarker → Nat → Option (σ × Status))
    (per_gap_func : σ → Nat → Nat → Option (σ × Status)) (st : σ) (start_offset end_offset : Nat) :
    Option (σ × Status) :=
  match pl.ForEveryPageInRange (perPageWrapperFn per_page_func per_gap_func start_offset end_offset)
      ⟨start_offset, false, st⟩ start_offset end_offset with
  | none => none
  | some (w, status) =>
    if status ≠ .ok then some (w.user, status)
    else if w.expectedNextOff ≠ end_offset then
      -- a walk that saw no page may lie wholly inside an interval
      let ended_in_interval :=
        w.inInterval || (w.expectedNextOff == start_offset && pl.IsOffsetInInterval start_offset)
      if !ended_in_interval then
        match per_gap_func w.user w.expectedNextOff end_offset with
        | none => none
        | some (user, status) =>
          if status ≠ .next ∧ status ≠ .stop then some (user, status) else some (user, .ok)
      else some (w.user, .ok)
    else some (w.user, .ok)

end VmPageList

/-! ## The loop over populated slots -/

/-- What a traversal returns once its loop is done with `status`. -/
def Status.finish (status : Status) : Status := if status = .next then .ok else status.early

section Visit

variable {func : σ → VmPageOrMarker → Nat → Option (σ × Status)}

/-- A run split in two is visited in two, the second part only when no callback
stopped the first. -/
theorem visit_append (st : σ) (xs ys : List (VmPageOrMarker × Nat)) :
    visit func st (xs ++ ys) = (visit func st xs).bind fun r => if r.2 = .next then visit func r.1 ys else some r := by
  induction xs generalizing st with
  | nil => simp [visit]
  | cons x xs ih =>
    obtain ⟨p, off⟩ := x
    simp only [List.cons_append, visit]
    cases func st p off with
    | none => rfl
    | some r =>
      obtain ⟨st', status⟩ := r
      dsimp only
      split_ifs with hn
      · exact ih st'
      · simp [hn]

end Visit

namespace VmPageListNode

variable {n : VmPageListNode} {func : σ → VmPageOrMarker → Nat → Option (σ × Status)}

@[simp] theorem offset_eq : n.offset = n.objOffset := rfl

/-- The populated slots among `count` from slot `i`, each with the offset the
node's loop reports for it. -/
def slotsFrom (n : VmPageListNode) (skew i count : Nat) : List (VmPageOrMarker × Nat) :=
  ((List.range' i count).filter fun j => !(n.pages j).IsEmpty).map fun j =>
    (n.pages j, (n.objOffset + j * PAGE_SIZE + 2 ^ 64 - skew) % 2 ^ 64)

/-- The populated slots of the node among the page numbers `[lo, hi)`. -/
def slotsIn (n : VmPageListNode) (skew lo hi : Nat) : List (VmPageOrMarker × Nat) :=
  n.slotsFrom skew (lo - n.objOffset / PAGE_SIZE)
    (min (hi - n.objOffset / PAGE_SIZE) kPageFanOut - (lo - n.objOffset / PAGE_SIZE))

theorem forEveryPageLoop_eq (skew : Nat) (count : Nat) :
    ∀ (i : Nat) (st : σ), n.forEveryPageLoop func skew count i st = visit func st (n.slotsFrom skew i count) := by
  induction count with
  | zero => intro i st; rfl
  | succ count ih =>
    intro i st
    rw [forEveryPageLoop, slotsFrom, List.range'_succ, List.filter_cons]
    by_cases he : (n.pages i).IsEmpty = true
    · rw [if_pos he, if_neg (by simp [he])]
      exact ih (i + 1) st
    · rw [if_neg he, if_pos (by simpa using he), List.map_cons, visit]
      cases func st (n.pages i) ((n.objOffset + i * PAGE_SIZE + 2 ^ 64 - skew) % 2 ^ 64) with
      | none => rfl
      | some r =>
        obtain ⟨st', status⟩ := r
        dsimp only
        split_ifs
        · exact ih (i + 1) st'
        · rfl

theorem endOffset_eq (h : n.objOffset < MAX_SIZE) : n.endOffset = n.objOffset + kPageFanOut * PAGE_SIZE := by
  rw [VmPageList.MAX_SIZE_eq] at h
  unfold endOffset offset kPageFanOut PAGE_SIZE
  exact Nat.mod_eq_of_lt (by omega)

/-- The node's loop over a part of it is the visit of its populated slots
there. -/
theorem forEveryPageInRange_eq_slotsIn (hal : n.objOffset % PAGE_SIZE = 0) (hbelow : n.objOffset < MAX_SIZE)
    {a b : Nat} (hab : a ≤ b) (ha : n.objOffset ≤ a) (hb : b ≤ n.objOffset + kPageFanOut * PAGE_SIZE)
    (st : σ) (skew : Nat) :
    n.ForEveryPageInRange func st a b skew = visit func st (n.slotsIn skew (a / PAGE_SIZE) (b / PAGE_SIZE)) := by
  rw [ForEveryPageInRange, if_pos ⟨hab, ha, by rw [endOffset_eq hbelow]; exact hb⟩]
  dsimp only
  rw [forEveryPageLoop_eq, slotsIn]
  congr 2
  · unfold PAGE_SIZE at *; omega
  · unfold PAGE_SIZE kPageFanOut at *; omega

/-- Two ranges with the same part in the node give the same slots. -/
theorem slotsIn_congr {skew lo hi : Nat} (lo' hi' : Nat) (hlo : lo - n.objOffset / PAGE_SIZE = lo' - n.objOffset / PAGE_SIZE)
    (hhi : min (hi - n.objOffset / PAGE_SIZE) kPageFanOut = min (hi' - n.objOffset / PAGE_SIZE) kPageFanOut) :
    n.slotsIn skew lo hi = n.slotsIn skew lo' hi' := by
  rw [slotsIn, slotsIn, hlo, hhi]

/-- The slots of a node in a range: the populated ones of its page numbers
there, each at the offset its loop reports. -/
theorem mem_slotsIn {skew lo hi : Nat} {p : VmPageOrMarker} {off : Nat} :
    (p, off) ∈ n.slotsIn skew lo hi ↔ ∃ j < kPageFanOut, lo ≤ n.objOffset / PAGE_SIZE + j ∧
      n.objOffset / PAGE_SIZE + j < hi ∧ n.pages j = p ∧ p.IsEmpty = false ∧
      off = (n.objOffset + j * PAGE_SIZE + 2 ^ 64 - skew) % 2 ^ 64 := by
  simp only [slotsIn, slotsFrom, List.mem_map, List.mem_filter, List.mem_range'_1, Prod.mk.injEq]
  constructor
  · intro h
    obtain ⟨j, ⟨⟨hlo, hhi⟩, hne⟩, hp, hoff⟩ := h
    refine ⟨j, by omega, by omega, by omega, hp, ?_, hoff.symm⟩
    rw [← hp]
    simpa using hne
  · intro h
    obtain ⟨j, hj, hlo, hhi, hp, hne, hoff⟩ := h
    refine ⟨j, ⟨⟨by omega, by omega⟩, ?_⟩, hp, hoff.symm⟩
    rw [hp]
    simpa using hne

/-- A node with no part in the range has no slots there. -/
theorem slotsIn_eq_nil {skew lo hi : Nat}
    (h : min (hi - n.objOffset / PAGE_SIZE) kPageFanOut ≤ lo - n.objOffset / PAGE_SIZE) :
    n.slotsIn skew lo hi = [] := by
  rw [slotsIn, slotsFrom, Nat.sub_eq_zero_of_le h]
  rfl

end VmPageListNode

namespace VmPageList

variable {pl : VmPageList} {func : σ → VmPageOrMarker → Nat → Option (σ × Status)}

/-- The populated slots of the page numbers `[lo, hi)` in skewed coordinates,
node by node, each with the offset the traversals report for it. -/
def slotsIn (pl : VmPageList) (lo hi : Nat) : List (VmPageOrMarker × Nat) :=
  pl.list.flatMap fun n => n.slotsIn pl.listSkew lo hi

/-- The nodes a walk from `A` to `E` (skewed) goes through: in key order, from
`A`'s node on, each an aligned node below `MAX_SIZE`. -/
structure WalkNodes (A : Nat) (L : List VmPageListNode) : Prop where
  sorted : L.Pairwise fun n m => n.objOffset < m.objOffset
  from_start : ∀ n ∈ L, A ≤ n.objOffset
  aligned : ∀ n ∈ L, n.objOffset % (PAGE_SIZE * kPageFanOut) = 0
  below : ∀ n ∈ L, n.objOffset < MAX_SIZE

theorem WalkNodes.tail {A : Nat} {cur : VmPageListNode} {rest : List VmPageListNode}
    (h : WalkNodes A (cur :: rest)) : WalkNodes A rest :=
  ⟨h.sorted.of_cons, fun n hn => h.from_start n (List.mem_cons_of_mem _ hn),
    fun n hn => h.aligned n (List.mem_cons_of_mem _ hn), fun n hn => h.below n (List.mem_cons_of_mem _ hn)⟩

/-- The nodes after one that reaches `E` have no slots below `E`. -/
theorem WalkNodes.slotsIn_rest {A E skew lo : Nat} {cur : VmPageListNode} {rest : List VmPageListNode}
    (h : WalkNodes A (cur :: rest)) (hE : E ≤ cur.objOffset + kPageFanOut * PAGE_SIZE) :
    rest.flatMap (·.slotsIn skew lo (E / PAGE_SIZE)) = [] := by
  refine List.flatMap_eq_nil_iff.mpr fun n hn => VmPageListNode.slotsIn_eq_nil ?_
  have hlt := List.rel_of_pairwise_cons h.sorted hn
  have hcur := h.aligned cur List.mem_cons_self
  have hn' := h.aligned n (List.mem_cons_of_mem _ hn)
  unfold PAGE_SIZE kPageFanOut at *
  omega

/-- **The loop over whole nodes and the last node visit the slots of the range
in those nodes.** -/
theorem wholeNodes_lastNode {A E : Nat} (skew : Nat) (L : List VmPageListNode) (hL : WalkNodes A L) (st : σ) :
    continueWith (wholeNodes func A E skew L st) (fun st₂ cur₂ => lastNode func E skew cur₂ st₂) =
      (visit func st (L.flatMap (·.slotsIn skew (A / PAGE_SIZE) (E / PAGE_SIZE)))).map
        fun r => (r.1, r.2.finish) := by
  induction L generalizing st with
  | nil => rfl
  | cons cur rest ih =>
    have hA := hL.from_start cur List.mem_cons_self
    have hal := hL.aligned cur List.mem_cons_self
    have hbelow := hL.below cur List.mem_cons_self
    have hal' : cur.objOffset % PAGE_SIZE = 0 := by rw [← Nat.mod_mul_right_mod, hal, Nat.zero_mod]
    rw [wholeNodes, VmPageListNode.endOffset_eq hbelow, VmPageListNode.offset_eq, List.flatMap_cons]
    by_cases hlt : cur.objOffset + kPageFanOut * PAGE_SIZE < E
    · -- a whole node inside the range
      rw [if_pos hlt, if_pos hA, VmPageListNode.ForEveryPage, VmPageListNode.endOffset_eq hbelow,
        VmPageListNode.offset_eq, VmPageListNode.forEveryPageInRange_eq_slotsIn hal' hbelow (by omega) le_rfl le_rfl,
        VmPageListNode.slotsIn_congr (A / PAGE_SIZE) (E / PAGE_SIZE)
          (by unfold PAGE_SIZE at *; omega) (by unfold PAGE_SIZE kPageFanOut at *; omega),
        visit_append]
      cases visit func st (cur.slotsIn skew (A / PAGE_SIZE) (E / PAGE_SIZE)) with
      | none => rfl
      | some r =>
        obtain ⟨st', status⟩ := r
        by_cases hn : status = .next
        · subst hn
          exact ih hL.tail st'
        · simp [hn, continueWith, Status.finish]
    · -- the last node: the range ends in it or before it
      rw [if_neg hlt, hL.slotsIn_rest (by omega), List.append_nil]
      simp only [continueWith, lastNode]
      rw [VmPageListNode.endOffset_eq hbelow, VmPageListNode.offset_eq]
      by_cases hoff : cur.objOffset < E
      · rw [if_pos hoff, if_pos (by omega),
          VmPageListNode.forEveryPageInRange_eq_slotsIn hal' hbelow (by omega) le_rfl (by omega),
          VmPageListNode.slotsIn_congr (A / PAGE_SIZE) (E / PAGE_SIZE)
            (by unfold PAGE_SIZE at *; omega) rfl]
        cases visit func st (cur.slotsIn skew (A / PAGE_SIZE) (E / PAGE_SIZE)) with
        | none => rfl
        | some r => rfl
      · rw [if_neg hoff, VmPageListNode.slotsIn_eq_nil (by unfold PAGE_SIZE at *; omega)]
        rfl

/-- The `lower_bound` iterator starts at or above its key. -/
theorem key_le_of_lowerBoundIter {key : Nat} {cur : VmPageListNode} {rest : List VmPageListNode}
    (h : pl.lowerBoundIter key = cur :: rest) : key ≤ cur.objOffset := by
  unfold lowerBoundIter at h
  generalize pl.list = l at h
  induction l with
  | nil => cases h
  | cons n ns ih =>
    rw [List.dropWhile_cons] at h
    split_ifs at h with hn
    · exact ih h
    · obtain ⟨rfl, -⟩ := List.cons.inj h
      simpa using hn

/-- The nodes below the `lower_bound` of `A`'s node offset hold none of the
slots from `A` on. -/
theorem slotsIn_eq_lowerBoundIter (hwf : pl.WellFormed) (A E : Nat) :
    pl.slotsIn (A / PAGE_SIZE) (E / PAGE_SIZE) =
      (pl.lowerBoundIter (A / (kPageFanOut * PAGE_SIZE) * (kPageFanOut * PAGE_SIZE))).flatMap
        (·.slotsIn pl.listSkew (A / PAGE_SIZE) (E / PAGE_SIZE)) := by
  set key := A / (kPageFanOut * PAGE_SIZE) * (kPageFanOut * PAGE_SIZE)
  have hbefore : (pl.list.takeWhile fun n => n.objOffset < key).flatMap
      (·.slotsIn pl.listSkew (A / PAGE_SIZE) (E / PAGE_SIZE)) = [] := by
    refine List.flatMap_eq_nil_iff.mpr fun n hn => VmPageListNode.slotsIn_eq_nil ?_
    have hlt : n.objOffset < key := by simpa using List.mem_takeWhile_imp hn
    have hal := hwf.aligned n ((List.takeWhile_sublist _).subset hn)
    unfold key PAGE_SIZE kPageFanOut at *
    omega
  calc pl.slotsIn (A / PAGE_SIZE) (E / PAGE_SIZE)
      = ((pl.list.takeWhile fun n => n.objOffset < key) ++ pl.lowerBoundIter key).flatMap
          (·.slotsIn pl.listSkew (A / PAGE_SIZE) (E / PAGE_SIZE)) := by
        rw [lowerBoundIter, List.takeWhile_append_dropWhile]
        rfl
    _ = _ := by rw [List.flatMap_append, hbefore, List.nil_append]

/-- **`ForEveryPageInRange` visits the populated slots of the range in offset
order**, whatever its callback does: the three phases split the visit at node
boundaries. -/
theorem forEveryPageInRange_eq (hwf : pl.WellFormed) {start_offset end_offset : Nat}
    (hs : start_offset % PAGE_SIZE = 0) (he : end_offset % PAGE_SIZE = 0) (hle : start_offset ≤ end_offset)
    (hmax : end_offset ≤ MAX_SIZE) (st : σ) :
    pl.ForEveryPageInRange func st start_offset end_offset =
      (visit func st (pl.slotsIn (pl.pageOf start_offset) (pl.pageOf end_offset))).map
        fun r => (r.1, r.2.finish) := by
  have hskew := pl.listSkew_lt
  rw [MAX_SIZE_eq] at hmax
  have hA : (start_offset + pl.listSkew) % 2 ^ 64 = start_offset + pl.listSkew :=
    Nat.mod_eq_of_lt (by unfold PAGE_SIZE kPageFanOut at hskew; omega)
  have hE : (end_offset + pl.listSkew) % 2 ^ 64 = end_offset + pl.listSkew :=
    Nat.mod_eq_of_lt (by unfold PAGE_SIZE kPageFanOut at hskew; omega)
  rw [ForEveryPageInRange, if_pos ⟨hs, he⟩]
  dsimp only
  rw [hA, hE, pageOf, pageOf, slotsIn_eq_lowerBoundIter hwf]
  set A := start_offset + pl.listSkew
  set E := end_offset + pl.listSkew
  set key := A / (kPageFanOut * PAGE_SIZE) * (kPageFanOut * PAGE_SIZE)
  have hsuffix := List.dropWhile_sublist (l := pl.list) fun n => decide (n.objOffset < key)
  cases hlb : pl.lowerBoundIter key with
  | nil => rfl
  | cons cur rest =>
    have hlb' : pl.list.dropWhile (fun n => decide (n.objOffset < key)) = cur :: rest := hlb
    have hmem : ∀ n ∈ cur :: rest, n ∈ pl.list := fun n hn => hsuffix.subset (hlb' ▸ hn)
    have hsorted : (cur :: rest).Pairwise fun n m => n.objOffset < m.objOffset := by
      rw [← hlb']
      exact hwf.sorted.sublist hsuffix
    have hkey : key ≤ cur.objOffset := key_le_of_lowerBoundIter hlb
    have hal := hwf.aligned cur (hmem cur List.mem_cons_self)
    have hbelow := hwf.below cur (hmem cur List.mem_cons_self)
    have hal' : cur.objOffset % PAGE_SIZE = 0 := by rw [← Nat.mod_mul_right_mod, hal, Nat.zero_mod]
    have hnodes : ∀ n ∈ rest, cur.objOffset + kPageFanOut * PAGE_SIZE ≤ n.objOffset := by
      intro n hn
      have hlt := List.rel_of_pairwise_cons hsorted hn
      have hn' := hwf.aligned n (hmem n (List.mem_cons_of_mem _ hn))
      unfold PAGE_SIZE kPageFanOut at *
      omega
    have hwalk : ∀ {B : Nat}, B ≤ cur.objOffset + kPageFanOut * PAGE_SIZE → WalkNodes B rest := fun hB =>
      ⟨hsorted.of_cons, fun n hn => le_trans hB (hnodes n hn),
        fun n hn => hwf.aligned n (hmem n (List.mem_cons_of_mem _ hn)),
        fun n hn => hwf.below n (hmem n (List.mem_cons_of_mem _ hn))⟩
    dsimp only
    rw [List.flatMap_cons, firstNode, VmPageListNode.offset_eq]
    by_cases hfirst : cur.objOffset < A
    · -- `start_offset` lies inside the first node: its part from there, then the rest
      have hcur : cur.objOffset = key := by unfold key PAGE_SIZE kPageFanOut at *; omega
      have hAlt : A < cur.objOffset + kPageFanOut * PAGE_SIZE := by
        unfold key PAGE_SIZE kPageFanOut at *; omega
      rw [if_pos hfirst, VmPageListNode.endOffset_eq hbelow,
        VmPageListNode.forEveryPageInRange_eq_slotsIn hal' hbelow (le_min (by omega) hAlt.le) hfirst.le
          (min_le_right _ _),
        VmPageListNode.slotsIn_congr (A / PAGE_SIZE) (E / PAGE_SIZE) rfl
          (by unfold PAGE_SIZE kPageFanOut at *; omega),
        visit_append]
      cases visit func st (cur.slotsIn pl.listSkew (A / PAGE_SIZE) (E / PAGE_SIZE)) with
      | none => rfl
      | some r =>
        obtain ⟨st', status⟩ := r
        by_cases hn : status = .next
        · subst hn
          exact wholeNodes_lastNode pl.listSkew rest (hwalk (by unfold key PAGE_SIZE kPageFanOut at *; omega)) st'
        · simp [hn, continueWith, Status.finish]
    · -- the first node starts at or after `start_offset`: the loop takes it whole or last
      have hwalk₀ : WalkNodes A (cur :: rest) :=
        ⟨hsorted, fun n hn => by
          rcases List.mem_cons.mp hn with rfl | hn
          · omega
          · exact le_trans (by omega) (hnodes n hn),
          fun n hn => hwf.aligned n (hmem n hn), fun n hn => hwf.below n (hmem n hn)⟩
      have h := @wholeNodes_lastNode _ func _ E pl.listSkew (cur :: rest) hwalk₀ st
      rw [List.flatMap_cons] at h
      rw [if_neg hfirst, continueWith]
      exact h

/-! ## The slots of a range -/

section Slots

variable (hwf : pl.WellFormed)
include hwf

/-- The slots of a range are its populated page numbers, each at the offset the
traversals report for it. -/
theorem mem_slotsIn {lo hi : Nat} {p : VmPageOrMarker} {off : Nat} :
    (p, off) ∈ pl.slotsIn lo hi ↔ ∃ u, lo ≤ u ∧ u < hi ∧ pl.slotAt u = p ∧ p.IsEmpty = false ∧
      off = (u * PAGE_SIZE + 2 ^ 64 - pl.listSkew) % 2 ^ 64 := by
  rw [slotsIn, List.mem_flatMap]
  constructor
  · intro h
    obtain ⟨n, hn, hmem⟩ := h
    obtain ⟨j, hj, hlo, hhi, hp, hne, hoff⟩ := VmPageListNode.mem_slotsIn.mp hmem
    have hal := hwf.aligned n hn
    refine ⟨n.objOffset / PAGE_SIZE + j, hlo, hhi, by rw [slotAt_of_mem hwf hn hj, hp], hne, ?_⟩
    rw [hoff]
    unfold PAGE_SIZE kPageFanOut at *
    congr 1
    omega
  · intro h
    obtain ⟨u, hlo, hhi, hp, hne, hoff⟩ := h
    obtain ⟨n, hn, hu, -⟩ := exists_mem_of_slotAt (hp ▸ hne)
    have hj : u % kPageFanOut < kPageFanOut := Nat.mod_lt _ (by decide)
    have hal := hwf.aligned n hn
    refine ⟨n, hn, VmPageListNode.mem_slotsIn.mpr ⟨u % kPageFanOut, hj, by omega, by omega, ?_, hne, ?_⟩⟩
    · rw [← slotAt_of_mem hwf hn hj, hu, hp]
    · rw [hoff]
      unfold PAGE_SIZE kPageFanOut at *
      congr 1
      omega

/-- The slots of a range come in increasing offset order, where no reported
offset wraps. -/
theorem slotsIn_sorted {lo hi : Nat} (hlo : pl.listSkew ≤ lo * PAGE_SIZE) (hhi : hi * PAGE_SIZE ≤ 2 ^ 64) :
    (pl.slotsIn lo hi).Pairwise fun a b => a.2 < b.2 := by
  rw [slotsIn, List.pairwise_flatMap]
  constructor
  · -- within a node, in slot order
    intro n hn
    have hal := hwf.aligned n hn
    rw [VmPageListNode.slotsIn, VmPageListNode.slotsFrom, List.pairwise_map]
    refine ((List.pairwise_lt_range' 1).filter _).imp_of_mem fun {i j} hi hj hij => ?_
    have hi' := List.mem_range'_1.mp (List.mem_filter.mp hi).1
    have hj' := List.mem_range'_1.mp (List.mem_filter.mp hj).1
    dsimp only
    unfold PAGE_SIZE kPageFanOut at *
    omega
  · -- across nodes, in key order
    refine hwf.sorted.imp_of_mem fun {n m} hn hm hnm x hx y hy => ?_
    obtain ⟨i, hi, hilo, hihi, -, -, hx⟩ := VmPageListNode.mem_slotsIn.mp hx
    obtain ⟨j, hj, hjlo, hjhi, -, -, hy⟩ := VmPageListNode.mem_slotsIn.mp hy
    have hn' := hwf.aligned n hn
    have hm' := hwf.aligned m hm
    rw [hx, hy]
    unfold PAGE_SIZE kPageFanOut at *
    omega

end Slots

/-! ## Stretches between populated slots

Whether an empty stretch lies in an interval is decided by the populated slots
at its ends: a start before it or an end after it puts it inside, anything else
leaves it out. -/

/-- The populated slot after a start, with nothing populated between, is its end. -/
theorem WellFormed.next_of_start (hwf : pl.WellFormed) {a b : Nat} (hst : (pl.slotAt a).IsIntervalStart = true)
    (hab : a < b) (he : pl.EmptyOn (a + 1) b) (hb : (pl.slotAt b).IsEmpty = false) :
    (pl.slotAt b).IsIntervalEnd = true := by
  obtain ⟨b', hab', hend, -, he'⟩ := hwf.start_end hst
  rcases lt_trichotomy b b' with h | rfl | h
  · have := he' b (by omega) h
    simp [hb] at this
  · exact hend
  · have := he b' (by omega) h
    simp [isEmpty_eq_false_of_isInterval (isInterval_of_isIntervalEnd hend)] at this

/-- The populated slot before an end, with nothing populated between, is its start. -/
theorem WellFormed.prev_of_end (hwf : pl.WellFormed) {c b : Nat} (hend : (pl.slotAt b).IsIntervalEnd = true)
    (hcb : c < b) (hc : (pl.slotAt c).IsEmpty = false) (he : pl.EmptyOn (c + 1) b) :
    (pl.slotAt c).IsIntervalStart = true := by
  obtain ⟨a, hab, hst, he'⟩ := hwf.end_start hend
  rcases lt_trichotomy c a with h | rfl | h
  · have := he a (by omega) hab
    simp [isEmpty_eq_false_of_isInterval (isInterval_of_isIntervalStart hst)] at this
  · exact hst
  · have := he' c (by omega) hcb
    simp [hc] at this

/-- Inside an interval, so is every page down an empty stretch. -/
theorem Inside.of_emptyOn_le {u u' : Nat} (hin : pl.Inside u) (hle : u' ≤ u) (he : pl.EmptyOn u' (u + 1)) :
    pl.Inside u' := by
  obtain ⟨a, b, hau, hub, hst, hend, hempty⟩ := hin
  have ha : a < u' := by
    by_contra h
    have := he a (by omega) (by omega)
    simp [isEmpty_eq_false_of_isInterval (isInterval_of_isIntervalStart hst)] at this
  exact ⟨a, b, ha, by omega, hst, hend, hempty⟩

/-- Inside an interval, so is every page up an empty stretch. -/
theorem Inside.of_emptyOn_ge {u u' : Nat} (hin : pl.Inside u) (hle : u ≤ u') (he : pl.EmptyOn u (u' + 1)) :
    pl.Inside u' := by
  obtain ⟨a, b, hau, hub, hst, hend, hempty⟩ := hin
  have hb : u' < b := by
    by_contra h
    have := he b (by omega) (by omega)
    simp [isEmpty_eq_false_of_isInterval (isInterval_of_isIntervalEnd hend)] at this
  exact ⟨a, b, by omega, hb, hst, hend, hempty⟩

/-! ## Gaps -/

/-- Offset `offset` holds no populated slot and lies in no interval. -/
def IsGap (pl : VmPageList) (offset : Nat) : Prop :=
  (pl.slotAt (pl.pageOf offset)).IsEmpty = true ∧ ¬ pl.InInterval offset

/-- An empty slot is in an interval only strictly inside one. -/
theorem isGap_iff {offset : Nat} :
    pl.IsGap offset ↔ (pl.slotAt (pl.pageOf offset)).IsEmpty = true ∧ ¬ pl.Inside (pl.pageOf offset) := by
  unfold IsGap InInterval
  constructor
  · intro h
    exact ⟨h.1, fun hin => h.2 (Or.inr hin)⟩
  · intro h
    refine ⟨h.1, fun hin => ?_⟩
    rcases hin with hint | hin
    · have := isEmpty_eq_false_of_isInterval hint
      simp [h.1] at this
    · exact h.2 hin

/-- With a skew of whole pages, the page number of an offset is its page plus
the skew's. -/
theorem pageOf_eq (hskew : pl.listSkew % PAGE_SIZE = 0) (offset : Nat) :
    pl.pageOf offset = offset / PAGE_SIZE + pl.listSkew / PAGE_SIZE := by
  unfold pageOf PAGE_SIZE at *
  omega

/-- `E` lists the populated slots of the offsets `[x, end_offset)`, in offset
order. -/
structure SlotsFrom (pl : VmPageList) (x end_offset : Nat) (E : List (VmPageOrMarker × Nat)) : Prop where
  le_end : x ≤ end_offset
  sorted : E.Pairwise fun a b => a.2 < b.2
  mem : ∀ p off, (p, off) ∈ E ↔ x ≤ off ∧ off < end_offset ∧ off % PAGE_SIZE = 0 ∧
    pl.slotAt (pl.pageOf off) = p ∧ p.IsEmpty = false

/-- A walk owes the rest of its slots from past its first. -/
theorem SlotsFrom.tail {x end_offset : Nat} {p : VmPageOrMarker} {off : Nat} {E : List (VmPageOrMarker × Nat)}
    (h : SlotsFrom pl x end_offset ((p, off) :: E)) (he : end_offset % PAGE_SIZE = 0) :
    SlotsFrom pl (off + PAGE_SIZE) end_offset E := by
  have hoff := (h.mem p off).mp List.mem_cons_self
  refine ⟨by unfold PAGE_SIZE at *; omega, h.sorted.of_cons, fun p' off' => ?_⟩
  constructor
  · intro hmem
    have hlt := List.rel_of_pairwise_cons h.sorted hmem
    have hal := ((h.mem p' off').mp (List.mem_cons_of_mem _ hmem))
    have hoff := ((h.mem p off).mp List.mem_cons_self)
    dsimp only at hlt
    refine ⟨?_, hal.2.1, hal.2.2⟩
    unfold PAGE_SIZE at *
    omega
  · intro hmem
    have hoff := ((h.mem p off).mp List.mem_cons_self)
    rcases List.mem_cons.mp ((h.mem p' off').mpr ⟨by omega, hmem.2⟩) with heq | htail
    · have := congrArg Prod.snd heq
      dsimp only at this
      unfold PAGE_SIZE at *
      omega
    · exact htail

section SlotsFrom

variable (hskew : pl.listSkew % PAGE_SIZE = 0)
include hskew

/-- The slots of the range of a walk are what it owes to visit. -/
theorem slotsFrom_slotsIn (hwf : pl.WellFormed) {start_offset end_offset : Nat}
    (hs : start_offset % PAGE_SIZE = 0) (he : end_offset % PAGE_SIZE = 0) (hle : start_offset ≤ end_offset)
    (hmax : end_offset ≤ MAX_SIZE) :
    SlotsFrom pl start_offset end_offset (pl.slotsIn (pl.pageOf start_offset) (pl.pageOf end_offset)) := by
  have hlt := pl.listSkew_lt
  rw [MAX_SIZE_eq] at hmax
  rw [pageOf_eq hskew, pageOf_eq hskew]
  refine ⟨hle, slotsIn_sorted hwf (by unfold PAGE_SIZE at *; omega) (by unfold PAGE_SIZE kPageFanOut at *; omega),
    fun p off => ?_⟩
  rw [mem_slotsIn hwf]
  constructor
  · intro h
    obtain ⟨u, hlo, hhi, hp, hne, hoff⟩ := h
    have hpage : pl.pageOf off = u := by
      rw [pageOf_eq hskew, hoff]
      unfold PAGE_SIZE kPageFanOut at *
      omega
    rw [hpage]
    refine ⟨?_, ?_, ?_, hp, hne⟩ <;> (rw [hoff]; unfold PAGE_SIZE kPageFanOut at *; omega)
  · intro h
    obtain ⟨hlo, hhi, hal, hp, hne⟩ := h
    rw [pageOf_eq hskew] at hp
    refine ⟨off / PAGE_SIZE + pl.listSkew / PAGE_SIZE, ?_, ?_, hp, hne, ?_⟩ <;>
      (unfold PAGE_SIZE kPageFanOut at *; omega)

variable {x end_offset : Nat} {p : VmPageOrMarker} {off : Nat} {E : List (VmPageOrMarker × Nat)}

/-- Nothing is populated from `x` up to the first slot a walk owes. -/
theorem SlotsFrom.emptyOn_head (h : SlotsFrom pl x end_offset ((p, off) :: E)) (hx : x % PAGE_SIZE = 0) :
    pl.EmptyOn (pl.pageOf x) (pl.pageOf off) := by
  intro c hlo hhi
  by_contra hne
  -- the populated page `c` lies at an aligned offset between `x` and `off`
  have hc := pl.listSkew_lt
  have hoff := ((h.mem p off).mp List.mem_cons_self)
  rw [pageOf_eq hskew] at hlo hhi
  have hmem := (h.mem _ (c * PAGE_SIZE - pl.listSkew)).mpr ⟨by unfold PAGE_SIZE at *; omega,
    by unfold PAGE_SIZE at *; omega, by unfold PAGE_SIZE at *; omega,
    by rw [pageOf_eq hskew, show (c * PAGE_SIZE - pl.listSkew) / PAGE_SIZE + pl.listSkew / PAGE_SIZE = c by
      unfold PAGE_SIZE at *; omega], by simpa using hne⟩
  rcases List.mem_cons.mp hmem with heq | htail
  · have := congrArg Prod.snd heq
    dsimp only at this
    unfold PAGE_SIZE at *
    omega
  · have := List.rel_of_pairwise_cons h.sorted htail
    dsimp only at this
    unfold PAGE_SIZE at *
    omega

/-- A walk that owes nothing more has nothing populated up to its end. -/
theorem SlotsFrom.emptyOn_nil (h : SlotsFrom pl x end_offset []) (hx : x % PAGE_SIZE = 0) :
    pl.EmptyOn (pl.pageOf x) (pl.pageOf end_offset) := by
  intro c hlo hhi
  by_contra hne
  have hc := pl.listSkew_lt
  rw [pageOf_eq hskew] at hlo hhi
  exact List.not_mem_nil ((h.mem _ (c * PAGE_SIZE - pl.listSkew)).mpr ⟨by unfold PAGE_SIZE at *; omega,
    by unfold PAGE_SIZE at *; omega, by unfold PAGE_SIZE at *; omega,
    by rw [pageOf_eq hskew, show (c * PAGE_SIZE - pl.listSkew) / PAGE_SIZE + pl.listSkew / PAGE_SIZE = c by
      unfold PAGE_SIZE at *; omega], by simpa using hne⟩)

end SlotsFrom

end VmPageList

/-! ## Callbacks that always go on -/

/-- A call a traversal makes: `per_page_func(p, off)` or `per_gap_func(lo, hi)`. -/
inductive Call where
  | page (p : VmPageOrMarker) (off : Nat)
  | gap (lo hi : Nat)
deriving DecidableEq, Repr

namespace Call

/-- The offset a call is made at. -/
def offset : Call → Nat
  | page _ off => off
  | gap lo _ => lo

/-- The range of a gap call. -/
def gap? : Call → Option (Nat × Nat)
  | page _ _ => none
  | gap lo hi => some (lo, hi)

/-- What a call does to the caller's state, for callbacks that always return
`ZX_ERR_NEXT`. -/
def run (f : σ → VmPageOrMarker → Nat → σ) (g : σ → Nat → Nat → σ) (st : σ) : Call → σ
  | page p off => f st p off
  | gap lo hi => g st lo hi

end Call

/-- The gap calls among `calls`, as ranges. -/
def gaps (calls : List Call) : List (Nat × Nat) := calls.filterMap Call.gap?

/-- A page callback that always returns `ZX_ERR_NEXT`. -/
def nextPage (f : σ → VmPageOrMarker → Nat → σ) : σ → VmPageOrMarker → Nat → Option (σ × Status) :=
  fun st p off => some (f st p off, .next)

/-- A gap callback that always returns `ZX_ERR_NEXT`. -/
def nextGap (g : σ → Nat → Nat → σ) : σ → Nat → Nat → Option (σ × Status) :=
  fun st lo hi => some (g st lo hi, .next)

namespace VmPageList

variable {pl : VmPageList}

/-- The calls the wrapper makes at a populated slot `p` at `off`, expecting
`expected`: a gap first, where the offsets jump to other than an end. -/
def stepCalls (expected : Nat) (p : VmPageOrMarker) (off : Nat) : List Call :=
  (if expected ≠ off ∧ p.IsIntervalEnd = false then [.gap expected off] else []) ++ [.page p off]

/-- One call of the wrapper with callbacks that go on, where its DEBUG_ASSERTs
hold: its calls, the offset it expects next, and the flag of the slot it saw. -/
theorem perPageWrapperFn_next (f : σ → VmPageOrMarker → Nat → σ) (g : σ → Nat → Nat → σ)
    {start_offset end_offset : Nat} (w : GapWalk σ) (p : VmPageOrMarker) (off : Nat)
    (hstart : p.IsIntervalStart = true → w.inInterval = false)
    (hend : p.IsIntervalEnd = true → w.inInterval = true ∨ w.expectedNextOff = start_offset) :
    perPageWrapperFn (nextPage f) (nextGap g) start_offset end_offset w p off =
      some (⟨(off + PAGE_SIZE) % 2 ^ 64,
        if p.IsIntervalStart then true else if p.IsIntervalEnd then false else w.inInterval,
        (stepCalls w.expectedNextOff p off).foldl (Call.run f g) w.user⟩, .next) := by
  have hzero : p.IsIntervalZero = p.IsInterval := isIntervalZero_eq_isInterval p
  simp only [perPageWrapperFn, nextPage, nextGap, stepCalls, Option.pure_def, Option.bind_eq_bind,
    Option.bind_some, reduceCtorEq, ↓reduceIte, List.foldl_append, List.foldl_cons, List.foldl_nil, Call.run,
    hzero]
  by_cases hst : p.IsIntervalStart = true
  · -- a start raises the flag
    have hen : p.IsIntervalEnd = false := isIntervalEnd_eq_false_of_isIntervalStart hst
    have hint := isInterval_of_isIntervalStart hst
    by_cases hx : w.expectedNextOff = off <;> simp [hst, hen, hint, hstart hst, hx, Call.run]
  · by_cases hen : p.IsIntervalEnd = true
    · -- an end lowers it, and no gap comes before it
      have hint := isInterval_of_isIntervalEnd hen
      simp [hst, hen, hint, hend hen]
    · -- anything else leaves it
      by_cases hx : w.expectedNextOff = off <;> simp [hst, hen, hx, Call.run]

theorem gaps_append (a b : List Call) : gaps (a ++ b) = gaps a ++ gaps b := List.filterMap_append

theorem gaps_stepCalls (x : Nat) (p : VmPageOrMarker) (off : Nat) :
    gaps (stepCalls x p off) = if x ≠ off ∧ p.IsIntervalEnd = false then [(x, off)] else [] := by
  unfold stepCalls
  split_ifs <;> rfl

theorem mem_stepCalls_page {x : Nat} {p p' : VmPageOrMarker} {off off' : Nat} :
    Call.page p' off' ∈ stepCalls x p off ↔ p' = p ∧ off' = off := by
  unfold stepCalls
  split_ifs <;> simp [and_comm]

/-- The calls at one slot are made from `x` up to the slot, in order. -/
theorem stepCalls_offsets {x off : Nat} {p : VmPageOrMarker} (hxo : x ≤ off) :
    (∀ c ∈ stepCalls x p off, x ≤ c.offset ∧ c.offset ≤ off) ∧
      ((stepCalls x p off).map Call.offset).Pairwise (· < ·) := by
  unfold stepCalls
  split_ifs with h
  · simp [Call.offset]
    omega
  · simp [Call.offset, hxo]

/-- A point at or past the end of every range of a list is not covered. -/
theorem not_covered_of_le {l : List (Nat × Nat)} {v : Nat} (h : ∀ r ∈ l, r.2 ≤ v) :
    ¬ Runs.Covered Prod.fst Prod.snd l v := by
  intro hcov
  obtain ⟨r, hr, -, hlt⟩ := hcov
  have := h r hr
  omega

/-- The gap the slot's calls may add, `[x, off)`, covers nothing before `x`
or from the slot on. -/
theorem not_covered_stepGap {x off v : Nat} {p : VmPageOrMarker} (hv : v < x ∨ off ≤ v) :
    ¬ Runs.Covered Prod.fst Prod.snd (if x ≠ off ∧ p.IsIntervalEnd = false then [(x, off)] else []) v := by
  split_ifs
  · rw [Runs.covered_singleton]
    unfold Runs.Holds
    omega
  · exact not_covered_of_le fun r hr => absurd hr List.not_mem_nil

/-! ## The wrapper's walk -/

/-- Where the wrapper's walk stands: it expects offset `x` next, just past the
last populated slot it saw, or at `start_offset` having seen none; its flag says
whether that slot was an interval's start. -/
structure Position (pl : VmPageList) (start_offset x : Nat) (inInterval : Bool) : Prop where
  aligned : x % PAGE_SIZE = 0
  from_start : start_offset ≤ x
  last : x = start_offset ∨ (pl.slotAt (pl.pageOf x - 1)).IsEmpty = false
  flag : inInterval = true ↔ x ≠ start_offset ∧ (pl.slotAt (pl.pageOf x - 1)).IsIntervalStart = true

/-- What the calls made before offset `x` owe: in offset order and below `x`,
the page calls are the populated slots from `start_offset` on, and the gap calls
are non-empty, apart, and cover exactly the gap offsets. -/
structure CallsBelow (pl : VmPageList) (start_offset end_offset x : Nat) (calls : List Call) : Prop where
  sorted : (calls.map Call.offset).Pairwise (· < ·)
  below : ∀ c ∈ calls, c.offset < x
  pages : ∀ p off, Call.page p off ∈ calls ↔ start_offset ≤ off ∧ off < x ∧ off % PAGE_SIZE = 0 ∧
    pl.slotAt (pl.pageOf off) = p ∧ p.IsEmpty = false
  gapped : Runs.Gapped Prod.fst Prod.snd (gaps calls)
  gaps_below : ∀ r ∈ gaps calls, r.2 < x
  covered : ∀ v, v < x →
    (Runs.Covered Prod.fst Prod.snd (gaps calls) v ↔ start_offset ≤ v ∧ v < end_offset ∧ pl.IsGap v)

theorem position_init {start_offset : Nat} (hs : start_offset % PAGE_SIZE = 0) :
    Position pl start_offset start_offset false :=
  ⟨hs, le_rfl, Or.inl rfl, by simp⟩

theorem callsBelow_init (start_offset end_offset : Nat) : CallsBelow pl start_offset end_offset start_offset [] where
  sorted := List.Pairwise.nil
  below c hc := absurd hc List.not_mem_nil
  pages p off := by
    simp only [List.not_mem_nil, false_iff]
    intro h
    omega
  gapped := Runs.gapped_nil
  gaps_below r hr := absurd hr List.not_mem_nil
  covered v hv := by
    simp only [gaps, List.filterMap_nil]
    constructor
    · intro h
      exact absurd h (not_covered_of_le fun r hr => absurd hr List.not_mem_nil)
    · intro h
      omega

/-- A walk past its start expects the page after a populated one. -/
theorem Position.one_le {start_offset x : Nat} {inInterval : Bool} (hskew : pl.listSkew % PAGE_SIZE = 0)
    (hpos : Position pl start_offset x inInterval) (hx : x ≠ start_offset) :
    1 ≤ pl.pageOf x := by
  have := hpos.aligned
  have := hpos.from_start
  rw [pageOf_eq hskew]
  unfold PAGE_SIZE at *
  omega

section Walk

variable (hwf : pl.WellFormed) (hskew : pl.listSkew % PAGE_SIZE = 0)
include hwf hskew

variable {start_offset end_offset x : Nat} {inInterval : Bool} {calls : List Call} {p : VmPageOrMarker}
  {off : Nat} {E : List (VmPageOrMarker × Nat)}

/-- The flag is down unless the slot the walk comes to is an end: a start is
followed by its end. -/
theorem Position.flag_eq_false (hpos : Position pl start_offset x inInterval)
    (hE : SlotsFrom pl x end_offset ((p, off) :: E)) (hnend : p.IsIntervalEnd = false) : inInterval = false := by
  obtain ⟨hxo, -, -, hb, hne⟩ := (hE.mem p off).mp List.mem_cons_self
  by_contra hin
  have hflag := hpos.flag.mp (by simpa using hin)
  have hone := hpos.one_le hskew hflag.1
  have hle : pl.pageOf x ≤ pl.pageOf off := by
    rw [pageOf_eq hskew, pageOf_eq hskew]
    unfold PAGE_SIZE at *
    omega
  have hend := hwf.next_of_start hflag.2 (by omega)
    (by rw [Nat.sub_add_cancel hone]; exact hE.emptyOn_head hskew hpos.aligned) (hb ▸ hne)
  rw [hb, hnend] at hend
  cases hend

/-- The DEBUG_ASSERTs of the wrapper hold at every populated slot: no start
while the flag is up, and an end only after its start or first. -/
theorem Position.asserts (hpos : Position pl start_offset x inInterval)
    (hE : SlotsFrom pl x end_offset ((p, off) :: E)) :
    (p.IsIntervalStart = true → inInterval = false) ∧
      (p.IsIntervalEnd = true → inInterval = true ∨ x = start_offset) := by
  obtain ⟨hxo, -, -, hb, hne⟩ := (hE.mem p off).mp List.mem_cons_self
  constructor
  · intro hst
    exact hpos.flag_eq_false hwf hskew hE (isIntervalEnd_eq_false_of_isIntervalStart hst)
  · intro hend
    by_cases hxs : x = start_offset
    · exact Or.inr hxs
    · -- the slot before an end, with nothing between, is its start
      have hone := hpos.one_le hskew hxs
      have hle : pl.pageOf x ≤ pl.pageOf off := by
        rw [pageOf_eq hskew, pageOf_eq hskew]
        unfold PAGE_SIZE at *
        omega
      refine Or.inl (hpos.flag.mpr ⟨hxs, hwf.prev_of_end (hb ▸ hend) (by omega) (hpos.last.resolve_left hxs) ?_⟩)
      rw [Nat.sub_add_cancel hone]
      exact hE.emptyOn_head hskew hpos.aligned

/-- The walk moves past each populated slot, with the flag of that slot. -/
theorem Position.step (hpos : Position pl start_offset x inInterval)
    (hE : SlotsFrom pl x end_offset ((p, off) :: E)) :
    Position pl start_offset (off + PAGE_SIZE)
      (if p.IsIntervalStart then true else if p.IsIntervalEnd then false else inInterval) := by
  obtain ⟨hxo, -, hal, hb, hne⟩ := (hE.mem p off).mp List.mem_cons_self
  have hfrom := hpos.from_start
  have hpage : pl.pageOf (off + PAGE_SIZE) - 1 = pl.pageOf off := by
    rw [pageOf_eq hskew, pageOf_eq hskew]
    unfold PAGE_SIZE
    omega
  have hne' : off + PAGE_SIZE ≠ start_offset := by
    unfold PAGE_SIZE
    omega
  refine ⟨by unfold PAGE_SIZE at *; omega, by omega, Or.inr (by rw [hpage, hb]; exact hne), ?_⟩
  rw [hpage, hb]
  by_cases hst : p.IsIntervalStart = true
  · simp [hst, hne']
  · by_cases hend : p.IsIntervalEnd = true
    · simp [hst, hend]
    · have hflag := hpos.flag_eq_false hwf hskew hE (by simpa using hend)
      simp [hst, hend, hflag]

omit hwf in
/-- The offsets from `x` up to the slot lie on the pages from `x`'s up to the
slot's, and those of the slot's own page on it. -/
theorem Position.pageOf_upto (hpos : Position pl start_offset x inInterval)
    (hE : SlotsFrom pl x end_offset ((p, off) :: E)) :
    (∀ v, x ≤ v → v < off → pl.pageOf x ≤ pl.pageOf v ∧ pl.pageOf v < pl.pageOf off) ∧
      ∀ v, off ≤ v → v < off + PAGE_SIZE → pl.pageOf v = pl.pageOf off := by
  obtain ⟨-, -, hal, -, -⟩ := (hE.mem p off).mp List.mem_cons_self
  have hxal := hpos.aligned
  constructor
  · intro v h₁ h₂
    rw [pageOf_eq hskew, pageOf_eq hskew, pageOf_eq hskew]
    unfold PAGE_SIZE at *
    omega
  · intro v h₁ h₂
    rw [pageOf_eq hskew, pageOf_eq hskew]
    unfold PAGE_SIZE at *
    omega

omit hwf in
/-- The page calls up to past the slot are those before `x` and the slot's. -/
theorem CallsBelow.step_pages (hpos : Position pl start_offset x inInterval)
    (hcalls : CallsBelow pl start_offset end_offset x calls) (hE : SlotsFrom pl x end_offset ((p, off) :: E))
    (p' : VmPageOrMarker) (off' : Nat) :
    Call.page p' off' ∈ calls ++ stepCalls x p off ↔ start_offset ≤ off' ∧ off' < off + PAGE_SIZE ∧
      off' % PAGE_SIZE = 0 ∧ pl.slotAt (pl.pageOf off') = p' ∧ p'.IsEmpty = false := by
  obtain ⟨hxo, -, hal, hb, hne⟩ := (hE.mem p off).mp List.mem_cons_self
  have hfrom := hpos.from_start
  rw [List.mem_append, hcalls.pages, mem_stepCalls_page]
  constructor
  · rintro (⟨h₁, h₂, h₃, h₄, h₅⟩ | ⟨rfl, rfl⟩)
    · exact ⟨h₁, by omega, h₃, h₄, h₅⟩
    · exact ⟨by omega, by unfold PAGE_SIZE; omega, hal, hb, hne⟩
  · rintro ⟨h₁, h₂, h₃, h₄, h₅⟩
    by_cases hlt : off' < x
    · exact Or.inl ⟨h₁, hlt, h₃, h₄, h₅⟩
    -- nothing is populated from `x` up to the slot, so this is the slot
    right
    have hoff : off' = off := by
      by_contra hne'
      have hlt' : off' < off := by
        unfold PAGE_SIZE at *
        omega
      obtain ⟨hlo, hhi⟩ := (hpos.pageOf_upto hskew hE).1 off' (by omega) hlt'
      have := hE.emptyOn_head hskew hpos.aligned _ hlo hhi
      rw [h₄, h₅] at this
      cases this
    rw [hoff] at h₄
    exact ⟨by rw [← h₄, hb], hoff⟩

/-- From `x` up to the slot nothing is populated: the stretch is a gap unless
the slot is an end, and then it lies in that end's interval. -/
theorem Position.stretch_covered (hpos : Position pl start_offset x inInterval)
    (hE : SlotsFrom pl x end_offset ((p, off) :: E)) {v : Nat} (hxv : x ≤ v) (hvo : v < off) :
    Runs.Covered Prod.fst Prod.snd (if x ≠ off ∧ p.IsIntervalEnd = false then [(x, off)] else []) v ↔
      start_offset ≤ v ∧ v < end_offset ∧ pl.IsGap v := by
  obtain ⟨-, hoe, -, hb, hne⟩ := (hE.mem p off).mp List.mem_cons_self
  have hempty := hE.emptyOn_head hskew hpos.aligned
  have hfrom := hpos.from_start
  obtain ⟨hlo, hhi⟩ := (hpos.pageOf_upto hskew hE).1 v hxv hvo
  have hemp : (pl.slotAt (pl.pageOf v)).IsEmpty = true := hempty _ hlo hhi
  split_ifs with hcond
  · -- the slot is no end: nothing puts the stretch in an interval
    have hgap : pl.IsGap v := by
      refine isGap_iff.mpr ⟨hemp, fun hin => ?_⟩
      have := isIntervalEnd_of_inside hin (hb ▸ hne) hhi (hempty.mono (by omega) le_rfl)
      rw [hb, hcond.2] at this
      cases this
    rw [Runs.covered_singleton]
    unfold Runs.Holds
    exact ⟨fun _ => ⟨by omega, by omega, hgap⟩, fun _ => ⟨by omega, hvo⟩⟩
  · -- the slot is an end: the stretch lies in its interval
    have hend : p.IsIntervalEnd = true := by
      by_contra h
      exact hcond ⟨by omega, by simpa using h⟩
    have hin := inside_of_end hwf (hb ▸ hend) hhi (hempty.mono hlo le_rfl)
    exact ⟨fun h => absurd h (not_covered_of_le fun r hr => absurd hr List.not_mem_nil),
      fun h => absurd hin (isGap_iff.mp h.2.2).2⟩

/-- The gaps up to past the slot cover what the calls owe: as before below
`x`, the stretch up to the slot, and not the slot itself, which is populated. -/
theorem CallsBelow.step_covered (hpos : Position pl start_offset x inInterval)
    (hcalls : CallsBelow pl start_offset end_offset x calls) (hE : SlotsFrom pl x end_offset ((p, off) :: E))
    (v : Nat) (hv : v < off + PAGE_SIZE) :
    Runs.Covered Prod.fst Prod.snd (gaps (calls ++ stepCalls x p off)) v ↔
      start_offset ≤ v ∧ v < end_offset ∧ pl.IsGap v := by
  obtain ⟨-, -, -, hb, hne⟩ := (hE.mem p off).mp List.mem_cons_self
  rw [gaps_append, Runs.covered_append, gaps_stepCalls]
  by_cases hvx : v < x
  · -- below `x` as before; the new gap starts at `x`
    rw [← hcalls.covered v hvx]
    simp only [not_covered_stepGap (Or.inl hvx), or_false]
  have hold : ¬ Runs.Covered Prod.fst Prod.snd (gaps calls) v :=
    not_covered_of_le fun r hr => by have := hcalls.gaps_below r hr; omega
  simp only [hold, false_or]
  by_cases hvo : v < off
  · exact hpos.stretch_covered hwf hskew hE (by omega) hvo
  -- the slot itself is populated
  have hnot : ¬ pl.IsGap v := by
    intro h
    have := (isGap_iff.mp h).1
    rw [(hpos.pageOf_upto hskew hE).2 v (by omega) hv, hb, hne] at this
    cases this
  exact ⟨fun h => absurd h (not_covered_stepGap (Or.inr (by omega))), fun h => absurd h.2.2 hnot⟩

/-- **The calls at one populated slot keep what the calls owe.** The stretch
from `x` up to the slot is a gap unless the slot is an end, and then it lies in
that end's interval. -/
theorem CallsBelow.step (hpos : Position pl start_offset x inInterval)
    (hcalls : CallsBelow pl start_offset end_offset x calls) (hE : SlotsFrom pl x end_offset ((p, off) :: E)) :
    CallsBelow pl start_offset end_offset (off + PAGE_SIZE) (calls ++ stepCalls x p off) := by
  obtain ⟨hxo, -, -, -, -⟩ := (hE.mem p off).mp List.mem_cons_self
  refine ⟨?sorted, ?below, hcalls.step_pages hskew hpos hE, ?gapped, ?gaps_below,
    hcalls.step_covered hwf hskew hpos hE⟩
  case sorted =>
    rw [List.map_append, List.pairwise_append]
    refine ⟨hcalls.sorted, (stepCalls_offsets hxo).2, fun a ha b hb' => ?_⟩
    obtain ⟨c, hc, rfl⟩ := List.mem_map.mp ha
    obtain ⟨d, hd, rfl⟩ := List.mem_map.mp hb'
    have := hcalls.below c hc
    have := ((stepCalls_offsets hxo).1 d hd).1
    omega
  case below =>
    intro c hc
    rcases List.mem_append.mp hc with hc | hc
    · have := hcalls.below c hc
      omega
    · have := ((stepCalls_offsets hxo).1 c hc).2
      unfold PAGE_SIZE
      omega
  case gapped =>
    rw [gaps_append, gaps_stepCalls]
    split_ifs with hcond
    · exact hcalls.gapped.snoc (by dsimp only; omega) fun r hr => hcalls.gaps_below r hr
    · rw [List.append_nil]
      exact hcalls.gapped
  case gaps_below =>
    intro r hr
    rw [gaps_append, gaps_stepCalls, List.mem_append] at hr
    rcases hr with hr | hr
    · have := hcalls.gaps_below r hr
      omega
    · split_ifs at hr
      · rw [List.mem_singleton] at hr
        rw [hr]
        unfold PAGE_SIZE
        dsimp only
        omega
      · cases hr

/-- **The wrapper's walk over the slots of a range**, with callbacks that go on:
it never stops, its DEBUG_ASSERTs hold, and what its calls owe holds where it
ends, induction on the slots left carrying `Position` and `CallsBelow`. -/
theorem visit_wrapper (he : end_offset % PAGE_SIZE = 0) (hmax : end_offset ≤ MAX_SIZE)
    (f : σ → VmPageOrMarker → Nat → σ) (g : σ → Nat → Nat → σ) (st : σ) (E : List (VmPageOrMarker × Nat)) :
    ∀ (x : Nat) (inInterval : Bool) (calls : List Call), Position pl start_offset x inInterval →
      CallsBelow pl start_offset end_offset x calls → SlotsFrom pl x end_offset E →
      ∃ x' inInterval' calls',
        visit (perPageWrapperFn (nextPage f) (nextGap g) start_offset end_offset)
            ⟨x, inInterval, calls.foldl (Call.run f g) st⟩ E =
          some (⟨x', inInterval', calls'.foldl (Call.run f g) st⟩, .next) ∧
        Position pl start_offset x' inInterval' ∧ CallsBelow pl start_offset end_offset x' calls' ∧
        SlotsFrom pl x' end_offset [] := by
  induction E with
  | nil =>
    intro x inInterval calls hpos hcalls hE
    exact ⟨x, inInterval, calls, rfl, hpos, hcalls, hE⟩
  | cons e E ih =>
    intro x inInterval calls hpos hcalls hE
    obtain ⟨p, off⟩ := e
    obtain ⟨hstart, hend⟩ := hpos.asserts hwf hskew hE
    have hoff := (hE.mem p off).mp List.mem_cons_self
    have hwrap : (off + PAGE_SIZE) % 2 ^ 64 = off + PAGE_SIZE := by
      rw [MAX_SIZE_eq] at hmax
      unfold PAGE_SIZE
      omega
    rw [visit, perPageWrapperFn_next f g _ p off hstart hend]
    dsimp only
    rw [if_pos rfl, hwrap, ← List.foldl_append]
    exact ih _ _ _ (hpos.step hwf hskew hE) (hcalls.step hwf hskew hpos hE) (hE.tail he)

end Walk

/-- What the calls of a whole traversal owe: in offset order, the page calls are
the populated slots of the range, and the gap calls are non-empty, apart, and
cover exactly its gap offsets. -/
structure CallsOf (pl : VmPageList) (start_offset end_offset : Nat) (calls : List Call) : Prop where
  sorted : (calls.map Call.offset).Pairwise (· < ·)
  pages : ∀ p off, Call.page p off ∈ calls ↔ start_offset ≤ off ∧ off < end_offset ∧ off % PAGE_SIZE = 0 ∧
    pl.slotAt (pl.pageOf off) = p ∧ p.IsEmpty = false
  gapped : Runs.Gapped Prod.fst Prod.snd (gaps calls)
  covered : ∀ v, Runs.Covered Prod.fst Prod.snd (gaps calls) v ↔ start_offset ≤ v ∧ v < end_offset ∧ pl.IsGap v

/-- The flag the wrapper ends with, or where it saw no page, `IsOffsetInInterval`
at its start, says whether the walk ended inside an interval. -/
def endedInInterval (pl : VmPageList) (start_offset x : Nat) (inInterval : Bool) : Bool :=
  inInterval || (x == start_offset && pl.IsOffsetInInterval start_offset)

/-- The gap after the last page: the stretch from `x` to the end, unless it is
empty or lies in an interval. -/
def lastGap (pl : VmPageList) (start_offset end_offset x : Nat) (inInterval : Bool) : List Call :=
  if x ≠ end_offset ∧ pl.endedInInterval start_offset x inInterval = false then [.gap x end_offset] else []

section Close

variable (hwf : pl.WellFormed) (hskew : pl.listSkew % PAGE_SIZE = 0)
include hwf hskew

variable {start_offset end_offset x : Nat} {inInterval : Bool} {calls : List Call}

/-- **The stretch after the last page is a gap exactly when the wrapper calls
it one**: it lies in an interval when the last page was a start, or, with no
page seen, when the start of the range does. -/
theorem lastGap_iff (hpos : Position pl start_offset x inInterval) (hE : SlotsFrom pl x end_offset [])
    (he : end_offset % PAGE_SIZE = 0) (hmax : end_offset ≤ MAX_SIZE) {v : Nat} (hxv : x ≤ v) (hve : v < end_offset) :
    pl.endedInInterval start_offset x inInterval = false ↔ pl.IsGap v := by
  have hempty := hE.emptyOn_nil hskew hpos.aligned
  have hxal := hpos.aligned
  have hpage : pl.pageOf x ≤ pl.pageOf v ∧ pl.pageOf v < pl.pageOf end_offset := by
    rw [pageOf_eq hskew, pageOf_eq hskew, pageOf_eq hskew]
    unfold PAGE_SIZE at *
    omega
  have hemp : (pl.slotAt (pl.pageOf v)).IsEmpty = true := hempty _ hpage.1 hpage.2
  have hbelow : pl.EmptyOn (pl.pageOf x) (pl.pageOf v + 1) := hempty.mono le_rfl (by omega)
  rw [isGap_iff]
  by_cases hxs : x = start_offset
  · -- no page seen: the whole stretch is in an interval exactly when its start is
    subst hxs
    have hflag : inInterval = false := by simpa using hpos.flag
    have hended : pl.endedInInterval x x inInterval = pl.IsOffsetInInterval x := by
      simp [endedInInterval, hflag]
    have hstart : pl.IsOffsetInInterval x = true ↔ pl.Inside (pl.pageOf x) := by
      rw [isOffsetInInterval_iff hwf (by omega), InInterval]
      have hx := hempty _ le_rfl (by omega)
      constructor
      · intro h
        rcases h with hint | hin
        · rw [isEmpty_eq_false_of_isInterval hint] at hx
          cases hx
        · exact hin
      · exact Or.inr
    rw [hended]
    constructor
    · intro hnot
      refine ⟨hemp, fun hin => ?_⟩
      have := hstart.mpr (hin.of_emptyOn_le hpage.1 hbelow)
      rw [hnot] at this
      cases this
    · intro h
      cases hq : pl.IsOffsetInInterval x with
      | false => rfl
      | true => exact absurd ((hstart.mp hq).of_emptyOn_ge hpage.1 hbelow) h.2
  · -- a page seen: the stretch is in an interval exactly when that page was a start
    have hone := hpos.one_le hskew hxs
    have hlast := hpos.last.resolve_left hxs
    have hfrom : pl.EmptyOn (pl.pageOf x - 1 + 1) (pl.pageOf v + 1) := by rwa [Nat.sub_add_cancel hone]
    have hended : pl.endedInInterval start_offset x inInterval = inInterval := by
      simp [endedInInterval, hxs]
    rw [hended]
    constructor
    · intro hflag
      refine ⟨hemp, fun hin => ?_⟩
      have hst := isIntervalStart_of_inside hin hlast (by omega) (hfrom.mono le_rfl (by omega))
      rw [hpos.flag.mpr ⟨hxs, hst⟩] at hflag
      cases hflag
    · intro h
      cases hq : inInterval with
      | false => rfl
      | true => exact absurd (inside_of_start hwf (hpos.flag.mp hq).2 (by omega) hfrom) h.2

/-- **The calls of a walk that went on to its end, with the last gap, are what
the whole traversal owes.** -/
theorem CallsBelow.close (hpos : Position pl start_offset x inInterval)
    (hcalls : CallsBelow pl start_offset end_offset x calls) (hE : SlotsFrom pl x end_offset [])
    (he : end_offset % PAGE_SIZE = 0) (hmax : end_offset ≤ MAX_SIZE) :
    CallsOf pl start_offset end_offset (calls ++ pl.lastGap start_offset end_offset x inInterval) := by
  have hxe := hE.le_end
  have hgaps : gaps (calls ++ pl.lastGap start_offset end_offset x inInterval) =
      gaps calls ++ if x ≠ end_offset ∧ pl.endedInInterval start_offset x inInterval = false then
        [(x, end_offset)] else [] := by
    rw [gaps_append, lastGap]
    split_ifs <;> rfl
  have hold : ∀ v, x ≤ v → ¬ Runs.Covered Prod.fst Prod.snd (gaps calls) v := fun v hv =>
    not_covered_of_le fun r hr => by have := hcalls.gaps_below r hr; omega
  refine ⟨?sorted, ?pages, ?gapped, ?covered⟩
  case sorted =>
    rw [List.map_append, List.pairwise_append]
    refine ⟨hcalls.sorted, ?_, fun a ha b hb => ?_⟩
    · unfold lastGap
      split_ifs <;> simp
    · obtain ⟨c, hc, rfl⟩ := List.mem_map.mp ha
      obtain ⟨d, hd, rfl⟩ := List.mem_map.mp hb
      have := hcalls.below c hc
      unfold lastGap at hd
      split_ifs at hd
      · rw [List.mem_singleton] at hd
        rw [hd]
        exact this
      · cases hd
  case pages =>
    intro p off
    have hlast : Call.page p off ∉ pl.lastGap start_offset end_offset x inInterval := by
      unfold lastGap
      split_ifs <;> simp
    rw [List.mem_append, hcalls.pages, or_iff_left hlast]
    constructor
    · intro h
      exact ⟨h.1, by omega, h.2.2⟩
    · intro h
      obtain ⟨h₁, h₂, h₃, h₄, h₅⟩ := h
      refine ⟨h₁, ?_, h₃, h₄, h₅⟩
      -- nothing is populated from `x` on
      by_contra hge
      exact List.not_mem_nil ((hE.mem p off).mpr ⟨by omega, h₂, h₃, h₄, h₅⟩)
  case gapped =>
    rw [hgaps]
    split_ifs with hcond
    · exact hcalls.gapped.snoc (by dsimp only; omega) fun r hr => hcalls.gaps_below r hr
    · rw [List.append_nil]
      exact hcalls.gapped
  case covered =>
    intro v
    rw [hgaps, Runs.covered_append]
    by_cases hvx : v < x
    · rw [hcalls.covered v hvx]
      have hnew : ¬ Runs.Covered Prod.fst Prod.snd
          (if x ≠ end_offset ∧ pl.endedInInterval start_offset x inInterval = false then
            [(x, end_offset)] else []) v := by
        split_ifs
        · rw [Runs.covered_singleton]
          unfold Runs.Holds
          omega
        · exact not_covered_of_le fun r hr => absurd hr List.not_mem_nil
      simp only [hnew, or_false]
    · simp only [hold v (by omega), false_or]
      by_cases hve : v < end_offset
      · have hfrom := hpos.from_start
        split_ifs with hcond
        · rw [Runs.covered_singleton]
          unfold Runs.Holds
          have hgap := (lastGap_iff hwf hskew hpos hE he hmax (by omega) hve).mp hcond.2
          exact ⟨fun _ => ⟨by omega, hve, hgap⟩, fun _ => ⟨by omega, hve⟩⟩
        · have hended : pl.endedInInterval start_offset x inInterval = true := by
            by_contra h
            exact hcond ⟨by omega, by simpa using h⟩
          have hnot : ¬ pl.IsGap v := fun h => by
            rw [(lastGap_iff hwf hskew hpos hE he hmax (by omega) hve).mpr h] at hended
            cases hended
          exact ⟨fun h => absurd h (not_covered_of_le fun r hr => absurd hr List.not_mem_nil),
            fun h => absurd h.2.2 hnot⟩
      · have hnew : ¬ Runs.Covered Prod.fst Prod.snd
            (if x ≠ end_offset ∧ pl.endedInInterval start_offset x inInterval = false then
              [(x, end_offset)] else []) v := by
          split_ifs
          · rw [Runs.covered_singleton]
            unfold Runs.Holds
            omega
          · exact not_covered_of_le fun r hr => absurd hr List.not_mem_nil
        exact ⟨fun h => absurd h hnew, fun h => absurd h.2.1 hve⟩

end Close

theorem mem_gaps {calls : List Call} {lo hi : Nat} : (lo, hi) ∈ gaps calls ↔ Call.gap lo hi ∈ calls := by
  rw [gaps, List.mem_filterMap]
  constructor
  · intro h
    obtain ⟨c, hc, hgap⟩ := h
    cases c with
    | page p off => cases hgap
    | gap lo' hi' =>
      cases hgap
      exact hc
  · intro h
    exact ⟨_, h, rfl⟩

/-- **`ForEveryPageAndGapInRange` calls back on every page and on every gap.**
With callbacks that go on, over a well-formed list and a page-aligned range, it
succeeds, and its calls, in increasing offset order, are `per_page_func` on each
populated slot of the range and `per_gap_func` on each maximal run of offsets
that hold nothing and lie in no interval; the gaps cover exactly those offsets,
so that with the pages and the interval-covered offsets they partition the range. -/
theorem forEveryPageAndGapInRange_calls (hwf : pl.WellFormed) (hskew : pl.listSkew % PAGE_SIZE = 0)
    {start_offset end_offset : Nat} (hs : start_offset % PAGE_SIZE = 0) (he : end_offset % PAGE_SIZE = 0)
    (hlt : start_offset < end_offset) (hmax : end_offset ≤ MAX_SIZE)
    (f : σ → VmPageOrMarker → Nat → σ) (g : σ → Nat → Nat → σ) (st : σ) :
    ∃ calls : List Call,
      pl.ForEveryPageAndGapInRange (nextPage f) (nextGap g) st start_offset end_offset =
        some (calls.foldl (Call.run f g) st, .ok) ∧
      (calls.map Call.offset).Pairwise (· < ·) ∧
      (∀ p off, Call.page p off ∈ calls ↔ start_offset ≤ off ∧ off < end_offset ∧ off % PAGE_SIZE = 0 ∧
        pl.slotAt (pl.pageOf off) = p ∧ p.IsEmpty = false) ∧
      (∀ lo hi, Call.gap lo hi ∈ calls ↔
        Runs.IsMaximalRun (fun off => start_offset ≤ off ∧ off < end_offset ∧ pl.IsGap off) lo hi) ∧
      (∀ off, (∃ lo hi, Call.gap lo hi ∈ calls ∧ lo ≤ off ∧ off < hi) ↔
        start_offset ≤ off ∧ off < end_offset ∧ pl.IsGap off) := by
  obtain ⟨x, inInterval, calls, hvisit, hpos, hcalls, hE⟩ :=
    visit_wrapper hwf hskew he hmax f g st _ start_offset false [] (position_init hs) (callsBelow_init _ _)
      (slotsFrom_slotsIn hskew hwf hs he hlt.le hmax)
  have hof := hcalls.close hwf hskew hpos hE he hmax
  refine ⟨calls ++ pl.lastGap start_offset end_offset x inInterval, ?_, hof.sorted, hof.pages, ?_, ?_⟩
  · -- the walk, then the gap after the last page
    rw [ForEveryPageAndGapInRange, forEveryPageInRange_eq hwf hs he hlt.le hmax]
    erw [hvisit]
    have hfinish : Status.next.finish = .ok := rfl
    simp only [Option.map_some, hfinish, ne_eq, not_true_eq_false, if_false, List.foldl_append]
    unfold lastGap endedInInterval
    by_cases hx : x = end_offset
    · simp [hx]
    · cases hq : (inInterval || x == start_offset && pl.IsOffsetInInterval start_offset) with
      | false => simp [hx, nextGap, Call.run]
      | true => simp [hx]
  · intro lo hi
    rw [← mem_gaps, ← hof.gapped.isMaximalRun_iff hof.covered lo hi]
    constructor
    · intro h
      exact ⟨_, h, rfl, rfl⟩
    · intro h
      obtain ⟨r, hr, hlo, hhi⟩ := h
      rw [← hlo, ← hhi]
      exact hr
  · intro off
    rw [← hof.covered off]
    constructor
    · intro h
      obtain ⟨lo, hi, hmem, hlo, hhi⟩ := h
      exact ⟨_, mem_gaps.mpr hmem, hlo, hhi⟩
    · intro h
      obtain ⟨r, hr, hlo, hhi⟩ := h
      exact ⟨r.1, r.2, mem_gaps.mp hr, hlo, hhi⟩

/-- The page callback of a test that records the calls made. -/
def recordPage (calls : List Call) (p : VmPageOrMarker) (off : Nat) : List Call := calls ++ [.page p off]

/-- The gap callback of a test that records the calls made. -/
def recordGap (calls : List Call) (lo hi : Nat) : List Call := calls ++ [.gap lo hi]

theorem forEveryPageAndGapInRange_calls_one_interval :
    oneIntervalList.WellFormed ∧ oneIntervalList.listSkew % PAGE_SIZE = 0 ∧ 0x10000 % PAGE_SIZE = 0 ∧
      0x20000 % PAGE_SIZE = 0 ∧ 0x10000 < 0x20000 ∧ 0x20000 ≤ MAX_SIZE ∧
      ∃ calls : List Call,
        oneIntervalList.ForEveryPageAndGapInRange (nextPage recordPage) (nextGap recordGap) [] 0x10000 0x20000 =
          some (calls.foldl (Call.run recordPage recordGap) [], .ok) ∧
        (calls.map Call.offset).Pairwise (· < ·) ∧
        (∀ p off, Call.page p off ∈ calls ↔ 0x10000 ≤ off ∧ off < 0x20000 ∧ off % PAGE_SIZE = 0 ∧
          oneIntervalList.slotAt (oneIntervalList.pageOf off) = p ∧ p.IsEmpty = false) ∧
        (∀ lo hi, Call.gap lo hi ∈ calls ↔
          Runs.IsMaximalRun (fun off => 0x10000 ≤ off ∧ off < 0x20000 ∧ oneIntervalList.IsGap off) lo hi) ∧
        (∀ off, (∃ lo hi, Call.gap lo hi ∈ calls ∧ lo ≤ off ∧ off < hi) ↔
          0x10000 ≤ off ∧ off < 0x20000 ∧ oneIntervalList.IsGap off) :=
  ⟨by decide +kernel, by decide, by decide, by decide, by decide, by decide,
    forEveryPageAndGapInRange_calls (by decide +kernel) (by decide) (by decide) (by decide) (by decide) (by decide)
      recordPage recordGap []⟩

/-- A list skewed by one byte, with a page in slot 1 of the node at 0. -/
def skewedByByte : VmPageList := ⟨[⟨0, fun i => if i = 1 then .page 0 else .empty⟩], 1, by decide⟩

/-- A list skewed by one page, with a page in slot 2 of the node at 0: the
page at offset `0x1000`. -/
def pageAtOne : VmPageList := ⟨[⟨0, fun i => if i = 2 then .page 0 else .empty⟩], 0x1000, by decide⟩

/-- With a skew of less than a page, a page is reported below the range and the
first gap ends before it starts; with a range whose skewed end wraps past
`2^64`, the first node's walk fails its DEBUG_ASSERT instead of reporting the
page at `0x1000`. -/
theorem forEveryPageAndGapInRange_off_page_or_wrapped :
    skewedByByte.WellFormed ∧
      skewedByByte.ForEveryPageAndGapInRange (nextPage recordPage) (nextGap recordGap) [] 0x1000 0x2000 =
        some ([.gap 0x1000 0xFFF, .page (.page 0) 0xFFF, .gap 0x1FFF 0x2000], .ok) ∧
      pageAtOne.WellFormed ∧ pageAtOne.listSkew % PAGE_SIZE = 0 ∧
      pageAtOne.ForEveryPageAndGapInRange (nextPage recordPage) (nextGap recordGap) [] 0 (2 ^ 64 - 0x1000) = none :=
  ⟨by decide +kernel, by decide +kernel, by decide +kernel, by decide, by decide +kernel⟩

end VmPageList

end Zircon.Vm
