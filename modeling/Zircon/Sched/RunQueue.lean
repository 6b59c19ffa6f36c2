import Mathlib

/-!
# `sched::RunQueue::FindNextEligibleThread`

The ready threads of a `RunQueue` sit in a WAVL tree keyed by
`(start, address)`, each node carrying the least finish time of its subtree.
A thread is eligible at `time` when it has started by then.
`FindNextEligibleThread(time)` is a partition search: it walks down from the
root, turning left at threads not yet started and right at started ones,
keeping the started thread of least finish seen on the way (`path`) and the
left subtree, off the way, of least finish (`subtree`). It then returns `path`
unless `subtree` holds a finish at least as early, and in that case walks
down `subtree` to a thread of that finish.

The documented policy, and the order `SchedulesBeforeIfActive` that
`SelectNextThread` uses against the current thread, is the least
`(finish, start, address)`. On a tie of finish times the search prefers
`subtree` to `path` and, inside `subtree`, the highest node of that finish;
neither is always the one that starts first.

`Queue` reactivates an expired thread and inserts it with fbl's `WAVLTree`:
a descent that lowers the stored minimum of each node it passes
(`RecordInsertTraverse` of `WAVLTreeBestNodeObserver`), then the bottom-up
rebalancing of `BalancePostInsert` on rank parities, with the rotations of
`PostInsertFixupLR` and the observer's `RecordRotation`. The remaining
timeslice that decides expiry is an argument: the bandwidth arithmetic of
`CapacityOf` is not modelled.
-/

namespace Zircon.Sched

/-- The part of a `ThreadBase` the run queue reads: the start and period of
its activation, and its address. -/
structure Thread where
  start : Int
  period : Int
  address : Nat
deriving DecidableEq, Repr

/-- `finish()`: the end of the current activation period. -/
def Thread.finish (t : Thread) : Int := t.start + t.period

/-- `SchedulesBeforeIfActive(a, b)`: the lexicographic order on
`(finish, start, address)`. -/
def SchedulesBeforeIfActive (a b : Thread) : Bool :=
  a.finish < b.finish || (a.finish == b.finish &&
    (a.start < b.start || (a.start == b.start && a.address < b.address)))

/-- `NodeTraits::LessThan` on the keys `(start, address)`. -/
def keyLt (a b : Thread) : Bool := a.start < b.start || (a.start == b.start && a.address < b.address)

/-- `NodeTraits::EqualTo` on the keys. -/
def keyEq (a b : Thread) : Bool := a.start == b.start && a.address == b.address

/-- The tree of ready threads; a node stores `subtree_min_finish` and the
parity of its WAVL rank. -/
inductive Tree where
  | nil
  | node (left : Tree) (thread : Thread) (subtreeMinFinish : Int) (rankParity : Bool) (right : Tree)
deriving DecidableEq, Repr

namespace Tree

/-- `SubtreeMinFinish(it)`: the value stored at a node. -/
def minFinish : Tree → Int
  | nil => 0
  | node _ _ m _ _ => m

/-- `rank_parity()`; a null child has rank `-1`, which is odd. -/
def rankParity : Tree → Bool
  | nil => true
  | node _ _ _ p _ => p

/-- `ready_.front()`: the thread of least key. -/
def front : Tree → Option Thread
  | nil => none
  | node l t _ _ _ => if l = nil then some t else l.front

/-- The threads of the tree, in key order. -/
def threads : Tree → List Thread
  | nil => []
  | node l t _ _ r => l.threads ++ t :: r.threads

/-- The least finish time of a subtree, from its threads. -/
def leastFinish : Tree → Option Int
  | nil => none
  | node l t _ _ r =>
    some (Min.min t.finish (Min.min ((l.leastFinish).getD t.finish) ((r.leastFinish).getD t.finish)))

/-- Every node stores the least finish time of its subtree. -/
def minFinishOk : Tree → Bool
  | nil => true
  | node l t m p r => l.minFinishOk && r.minFinishOk && some m == (node l t m p r).leastFinish

/-- A binary search tree on `(start, address)`. -/
def ordered : Tree → Bool
  | nil => true
  | node l t _ _ r =>
    l.ordered && r.ordered && l.threads.all (fun u => keyLt u t) && r.threads.all (fun u => keyLt t u)

end Tree

/-- The search loop of `FindNextEligibleThread(time)`, from `node`, with the
`path` and `subtree` found so far; returns them at the bottom. -/
def searchLoop (time : Int) : Tree → Option Thread → Option Tree → Option Thread × Option Tree
  | .nil, path, subtree => (path, subtree)
  | .node l t _ _ r, path, subtree =>
    -- not started yet: the started threads of this subtree are to the left
    if t.start > time then searchLoop time l path subtree
    else
      let path := match path with
        | some p => if p.finish > t.finish then some t else some p
        | none => some t
      -- `subtree = left` even when `left` is null
      let left := if l = .nil then none else some l
      let subtree := match subtree, left with
        | none, _ => left
        | some s, some l => if s.minFinish > l.minFinish then some l else some s
        | some s, none => some s
      searchLoop time r path subtree

/-- The second loop: walk down `subtree` to a thread whose finish is the
subtree's least, `target`. -/
def descend (target : Int) : Tree → Option Thread
  | .nil => none
  | .node l t m _ r =>
    if t.finish ≠ target then
      if l ≠ .nil ∧ m = l.minFinish then descend target l else descend target r
    else some t

/-- `FindNextEligibleThread(time)`; `none` is `ready_.end()`. -/
def FindNextEligibleThread (ready : Tree) (time : Int) : Option Thread :=
  match ready.front with
  | none => none
  | some f =>
    if f.start > time then none
    else
      match searchLoop time ready none none with
      | (path, none) => path
      | (none, some _) => none
      | (some p, some s) => if s.minFinish > p.finish then some p else descend s.minFinish s

/-! ## `Queue` -/

namespace Tree

/-- The best of `RecordRotation` for the node that moves down: its own finish,
then the best of the child it keeps and of the child it takes over, each
taken when it is less. -/
def bestOf (t : Thread) (sibling lrChild : Tree) : Int :=
  let best := t.finish
  let best := if sibling ≠ nil ∧ sibling.minFinish < best then sibling.minFinish else best
  if lrChild ≠ nil ∧ lrChild.minFinish < best then lrChild.minFinish else best

/-- `PostInsertFixupLR<ForwardTraits>(X, Z)`, `X` the left child of `Z` and
`Z` a 0,2 node: with `Y` the right child of `X` null or a 2-child, a right
rotation about `X` and a demotion of `Z`; otherwise a left rotation about `Y`,
a right rotation about `Y`, a promotion of `Y` and demotions of `X` and `Z`.
The pivot of each rotation takes the best of the node it replaces. -/
def postInsertFixupLeft : Tree → Tree
  | node (node a x _ px y) z mz pz c =>
    match y with
    | node b yv _ py d =>
      if py = px then node a x mz px (node y z (bestOf z c y) (!pz) c)
      else node (node a x (bestOf x a b) (!px) b) yv mz (!py) (node d z (bestOf z c d) (!pz) c)
    | nil => node a x mz px (node y z (bestOf z c y) (!pz) c)
  | t => t

/-- `PostInsertFixupLR<ReverseTraits>(X, Z)`, `X` the right child of `Z`: the
mirror image of `postInsertFixupLeft`. -/
def postInsertFixupRight : Tree → Tree
  | node c z mz pz (node y x _ px a) =>
    match y with
    | node b yv _ py d =>
      if py = px then node (node c z (bestOf z c y) (!pz) y) x mz px a
      else node (node c z (bestOf z c b) (!pz) b) yv mz (!py) (node d x (bestOf x a d) (!px) a)
    | nil => node (node c z (bestOf z c y) (!pz) y) x mz px a
  | t => t

/-- Where the rebalancing of `BalancePostInsert` stands when it comes back up
to a node from the child it inserted into. -/
inductive Climb where
  /-- Nothing is left to do. -/
  | done
  /-- The child is the node just inserted. -/
  | inserted
  /-- The child was just promoted. -/
  | promoted
deriving DecidableEq, Repr

/-- One step of `BalancePostInsert` at a node, for a child that is the node
just inserted or was just promoted; `isLeft` says which side the child is on.
The node just inserted leaves its parent alone if it has a sibling, and
otherwise promotes it. A promoted child `N` with parent `P` and sibling `S`
(by rank parities) promotes its parent if that made it a 0,1 node, leaves it if
it is not a 0,2 node, and has it fixed up by rotations if it is. -/
def balanceStep (isLeft : Bool) (climb : Climb) (child : Tree) (sibling : Tree) (t : Thread) (m : Int)
    (p : Bool) : Tree × Climb :=
  let build (p : Bool) := if isLeft then node child t m p sibling else node sibling t m p child
  match climb with
  | .done => (build p, .done)
  | .inserted => if sibling ≠ nil then (build p, .done) else (build (!p), .promoted)
  | .promoted =>
    let N := child.rankParity
    let S := sibling.rankParity
    if (!N && !p && S) || (N && p && !S) then (build (!p), .promoted)
    else if N ≠ p ∨ N ≠ S then (build p, .done)
    else if isLeft then (postInsertFixupLeft (build p), .done)
    else (postInsertFixupRight (build p), .done)

/-- `internal_insert` of `x` below a node: the descent, which lowers the
stored minimum of each node it passes, the new node of rank 0 at the bottom,
and the rebalancing on the way back up. A node of the same key is a
collision, which the run queue never meets: every thread has its own address. -/
def insert (x : Thread) : Tree → Tree × Climb
  | nil => (node nil x x.finish false nil, .inserted)
  | node l t m p r =>
    if keyEq x t then (node l t m p r, .done)
    else
      let m := if x.finish < m then x.finish else m
      if keyLt x t then
        let (l, climb) := insert x l
        balanceStep true climb l r t m p
      else
        let (r, climb) := insert x r
        balanceStep false climb r l t m p

end Tree

/-- `Queue(thread, now)` on `ready_`: a thread with no timeslice left, or
whose period has ended by `now`, is first reactivated (`Reactivate(now)`:
the new period starts at `max(now, finish)`), and then inserted.
`timeslice_remaining` is `TimesliceRemainingOn(thread)`. -/
def Queue (ready : Tree) (thread : Thread) (timeslice_remaining now : Int) : Tree :=
  let thread :=
    if timeslice_remaining ≤ 0 ∨ now ≥ thread.finish then { thread with start := max now thread.finish }
    else thread
  (ready.insert thread).1

/-! ## A tie of finish times -/

/-- Four threads keyed 1 to 4; the second and third finish first, at 10. -/
def tieThreads : List Thread := [⟨1, 19, 1⟩, ⟨2, 8, 2⟩, ⟨3, 7, 3⟩, ⟨4, 16, 4⟩]

/-- The tree that queuing the second, first, fourth and third of
`tieThreads` builds: no rotation, the fourth promoted over the third and the
root over the fourth. -/
def tieTree : Tree :=
  .node (.node .nil ⟨1, 19, 1⟩ 20 false .nil) ⟨2, 8, 2⟩ 10 false
    (.node (.node .nil ⟨3, 7, 3⟩ 10 false .nil) ⟨4, 16, 4⟩ 10 true .nil)

/-- At time 4 all four threads have started. The second finishes first and
starts before the third, which finishes at the same time, yet
`FindNextEligibleThread(4)` returns the third. -/
theorem findNextEligibleThread_breaks_tie :
    Queue (Queue (Queue (Queue .nil ⟨2, 8, 2⟩ 8 0) ⟨1, 19, 1⟩ 19 0) ⟨4, 16, 4⟩ 16 0) ⟨3, 7, 3⟩ 7 0 = tieTree ∧
    tieTree.ordered = true ∧ tieTree.minFinishOk = true ∧ tieTree.threads = tieThreads ∧
      (∀ t ∈ tieThreads, t.start ≤ 4) ∧
      SchedulesBeforeIfActive ⟨2, 8, 2⟩ ⟨3, 7, 3⟩ = true ∧
      FindNextEligibleThread tieTree 4 = some ⟨3, 7, 3⟩ := by
  decide

end Zircon.Sched
