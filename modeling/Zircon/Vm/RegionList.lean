import Mathlib

/-!
# `RegionList::FindSpotAtIndex`

A VMAR keeps its children in a WAVL tree keyed by base address, each node
augmented with the state of its subtree (`VmAddressRegionSubtreeState`): the
first byte of its first region, the last byte of its last region, and the
largest gap between two regions inside it. `FindSpotAtIndex(target_index,
align_pow2, size, parent_base, parent_size, upper_limit)` counts the aligned
spots of `size` bytes in the gaps of the parent, from the lowest address up,
and returns the one at `target_index`, or the number of spots it saw. It
looks at the gap before the first region, walks the tree with parent links
(descending only into subtrees whose largest gap is large enough and that
lie past `already_visited`), and ends with the gap after the last region.

The model keeps the tree as an inductive with each node's stored state, and
the walk's parent links as a path of frames above the current node. Addresses
and sizes are 64-bit words.

The walk comes back to a node twice: from its left subtree and from its right
one. Coming back from the right, nothing stops it from considering the node's
two gaps again, which it already counted on the way down. A spot in such a
gap is then counted twice, and `FindSpotAtIndex` hands it out at two indices
(`findSpotAtIndex_revisits_gap`).
-/

namespace Zircon.Vm

/-! ## Words -/

/-- A `vaddr_t` or `size_t` result. -/
def u64 (x : Nat) : Nat := x % 2 ^ 64

/-- `a - b` in `size_t`. -/
def sub64 (a b : Nat) : Nat := u64 (a + 2 ^ 64 - u64 b)

/-- `ffl::SaturateAddAs<size_t>(a, b)`. -/
def saturateAdd (a b : Nat) : Nat := min (a + b) (2 ^ 64 - 1)

/-- `ffl::SaturateSubtractAs<size_t>(a, b)`. -/
def saturateSubtract (a b : Nat) : Nat := a - b

/-- `ALIGN(a, 1UL << align_pow2)`: round up, in `vaddr_t`. -/
def alignUp (a alignPow2 : Nat) : Nat := u64 (a + 2 ^ alignPow2 - 1) / 2 ^ alignPow2 * 2 ^ alignPow2

/-! ## The tree and its subtree state -/

/-- `VmAddressRegionSubtreeState`. -/
structure SubtreeState where
  minFirstByte : Nat
  maxLastByte : Nat
  maxGap : Nat
deriving DecidableEq, Repr

/-- The tree of a `RegionList`: each node a region, by base and size, with the
stored state of its subtree. -/
inductive RegionTree where
  | nil
  | node (left : RegionTree) (base size : Nat) (state : SubtreeState) (right : RegionTree)
deriving DecidableEq, Repr

/-- `Observer::LastByte(node)`. -/
def LastByte (base size : Nat) : Nat := u64 (base + size - 1)

/-- `Observer::Gap(left_last_byte, right_first_byte)`. -/
def Gap (leftLastByte rightFirstByte : Nat) : Nat := sub64 (sub64 rightFirstByte leftLastByte) 1

/-- `Observer::Update(node, left, right)`: the state a node gets from its
region and its children's states. -/
def Update (left : RegionTree) (base size : Nat) (right : RegionTree) : SubtreeState :=
  let (leftMaxGap, minFirstByte) := match left with
    | .nil => (0, base)
    | .node _ _ _ st _ => (max (Gap st.maxLastByte base) st.maxGap, st.minFirstByte)
  let (rightMaxGap, maxLastByte) := match right with
    | .nil => (0, LastByte base size)
    | .node _ _ _ st _ => (max (Gap (LastByte base size) st.minFirstByte) st.maxGap, st.maxLastByte)
  ⟨minFirstByte, maxLastByte, max leftMaxGap rightMaxGap⟩

namespace RegionTree

/-- A node whose state is the one `Update` computes. -/
def mk (left : RegionTree) (base size : Nat) (right : RegionTree) : RegionTree :=
  .node left base size (Update left base size right) right

/-- Every stored state is the one `Update` computes from the children. -/
def Augmented : RegionTree → Prop
  | .nil => True
  | .node l b s st r => st = Update l b s r ∧ Augmented l ∧ Augmented r

instance decAugmented : (t : RegionTree) → Decidable t.Augmented
  | .nil => inferInstanceAs (Decidable True)
  | .node l _ _ _ r =>
    have := decAugmented l
    have := decAugmented r
    inferInstanceAs (Decidable (_ ∧ _ ∧ _))

/-- The regions in key order. -/
def regions : RegionTree → List (Nat × Nat)
  | .nil => []
  | .node l b s _ r => l.regions ++ (b, s) :: r.regions

/-- The number of regions. -/
def count : RegionTree → Nat
  | .nil => 0
  | .node l _ _ _ r => l.count + 1 + r.count

end RegionTree

/-- The parent lies in the address space, and the regions are non-empty, in
increasing order without overlap, and inside `[parent_base, parent_base +
parent_size)`. -/
def RegionsWellFormed (t : RegionTree) (parentBase parentSize : Nat) : Prop :=
  parentBase + parentSize ≤ 2 ^ 64 ∧
    (∀ r ∈ t.regions, 0 < r.2 ∧ parentBase ≤ r.1 ∧ r.1 + r.2 ≤ parentBase + parentSize) ∧
    t.regions.Pairwise fun r r' => r.1 + r.2 ≤ r'.1

instance (t : RegionTree) (parentBase parentSize : Nat) : Decidable (RegionsWellFormed t parentBase parentSize) :=
  inferInstanceAs (Decidable (_ ∧ _ ∧ _))

/-- The spots `FindSpotAtIndex` is to count: `[a, a + size)` aligned, inside
the parent, clear of every region, so inside one gap, and ending at or below
`upper_limit`. -/
def IsSpot (t : RegionTree) (alignPow2 size parentBase parentSize upperLimit a : Nat) : Prop :=
  a % 2 ^ alignPow2 = 0 ∧ parentBase ≤ a ∧ a + size ≤ parentBase + parentSize ∧ a + size ≤ upperLimit ∧
    ∀ r ∈ t.regions, a + size ≤ r.1 ∨ r.1 + r.2 ≤ a

instance (t : RegionTree) (alignPow2 size parentBase parentSize upperLimit a : Nat) :
    Decidable (IsSpot t alignPow2 size parentBase parentSize upperLimit a) :=
  inferInstanceAs (Decidable (_ ∧ _ ∧ _ ∧ _ ∧ _))

/-! ## `FindSpotAtIndex` -/

/-- The arguments the gaps are measured against. -/
structure Params where
  alignPow2 : Nat
  size : Nat
  upperLimit : Nat

/-- `spots_in_range(aligned_base, aligned_size)`: the aligned spots of the range,
clamped at `upper_limit`. -/
def spotsInRange (p : Params) (alignedBase alignedSize : Nat) : Nat :=
  let rangeLimit := saturateAdd alignedBase alignedSize
  let clampedRangeSize :=
    if rangeLimit < p.upperLimit then alignedSize else sub64 alignedSize (rangeLimit - p.upperLimit)
  if clampedRangeSize ≥ p.size then ((clampedRangeSize - p.size) >>> p.alignPow2) + 1 else 0

/-- `align_range(range_base, range_size)`: the base aligned up and the size
cut to keep the end. -/
def alignRange (p : Params) (rangeBase rangeSize : Nat) : Nat × Nat :=
  let alignedBase := alignUp rangeBase p.alignPow2
  let baseDelta := sub64 alignedBase rangeBase
  (alignedBase, saturateSubtract rangeSize baseDelta)

/-- One of the four gap blocks of `FindSpotAtIndex`: align the gap, return
the count at a base past `upper_limit`, add its spots, and return the spot at
`target_index` if it is in this gap. Otherwise the index and the count go
on. -/
def considerGap (p : Params) (gapBase gapSize targetIndex candidateSpotCount : Nat) :
    Except (Except Nat Nat) (Nat × Nat) :=
  let alignedGap := alignRange p gapBase gapSize
  if alignedGap.1 ≥ p.upperLimit then .error (.error candidateSpotCount)
  else
    let spotCount := spotsInRange p alignedGap.1 alignedGap.2
    let candidateSpotCount := candidateSpotCount + spotCount
    if targetIndex < spotCount then .error (.ok (u64 (alignedGap.1 + u64 (targetIndex <<< p.alignPow2))))
    else .ok (targetIndex - spotCount, candidateSpotCount)

/-- A node above the current one, and the side the walk went down. -/
inductive Frame where
  | left (base size : Nat) (state : SubtreeState) (right : RegionTree)
  | right (left : RegionTree) (base size : Nat) (state : SubtreeState)

/-- The parent rebuilt around the subtree the walk comes up from. -/
def Frame.plug : Frame → RegionTree → RegionTree
  | .left b s st r, t => .node t b s st r
  | .right l b s st, t => .node l b s st t

/-- What one pass of the walk's loop does at a node. -/
inductive Step where
  /-- `return` from `FindSpotAtIndex` -/
  | done (result : Except Nat Nat)
  /-- `node = left` or `node = right; continue` -/
  | descend (targetIndex candidateSpotCount : Nat) (child : RegionTree) (frame : Frame)
  /-- `already_visited = MaxLastByte(node); node = node.parent()` -/
  | up (targetIndex candidateSpotCount : Nat)

/-- The body of the `while (node)` loop at the node `l, b, s, st, r`. -/
def nodeBody (p : Params) (targetIndex candidateSpotCount alreadyVisited : Nat)
    (l : RegionTree) (b s : Nat) (st : SubtreeState) (r : RegionTree) : Step :=
  if st.maxGap ≥ p.size then
    -- the left subtree first, or else the gap between it and this node
    let afterLeft : Except Step (Nat × Nat) := match l with
      | .nil => .ok (targetIndex, candidateSpotCount)
      | .node _ _ _ lst _ =>
        if lst.maxGap ≥ p.size ∧ lst.maxLastByte > alreadyVisited then
          .error (.descend targetIndex candidateSpotCount l (.left b s st r))
        else
          match considerGap p (u64 (lst.maxLastByte + 1)) (Gap lst.maxLastByte b) targetIndex candidateSpotCount with
          | .error result => .error (.done result)
          | .ok next => .ok next
    match afterLeft with
    | .error step => step
    | .ok (targetIndex, candidateSpotCount) =>
      -- the gap between this node and the right subtree, then the subtree
      match r with
      | .nil => .up targetIndex candidateSpotCount
      | .node _ _ _ rst _ =>
        match considerGap p (u64 (LastByte b s + 1)) (Gap (LastByte b s) rst.minFirstByte) targetIndex
            candidateSpotCount with
        | .error result => .done result
        | .ok (targetIndex, candidateSpotCount) =>
          if rst.maxGap ≥ p.size ∧ rst.maxLastByte > alreadyVisited then
            .descend targetIndex candidateSpotCount r (.right l b s st)
          else .up targetIndex candidateSpotCount
  else .up targetIndex candidateSpotCount

/-- The `while (node)` loop from `node`, below the frames `path`: a result
returned, or the index and count at its end. A pass at a node either
descends, or goes up for good from a child, so three passes a node are
enough; `none` past the fuel. -/
def walkLoop (p : Params) : Nat → Nat → Nat → Nat → RegionTree → List Frame →
    Option (Except (Except Nat Nat) (Nat × Nat))
  | 0, _, _, _, _, _ => none
  | _ + 1, targetIndex, candidateSpotCount, _, .nil, _ => some (.ok (targetIndex, candidateSpotCount))
  | fuel + 1, targetIndex, candidateSpotCount, alreadyVisited, .node l b s st r, path =>
    match nodeBody p targetIndex candidateSpotCount alreadyVisited l b s st r with
    | .done result => some (.error result)
    | .descend targetIndex candidateSpotCount child frame =>
      walkLoop p fuel targetIndex candidateSpotCount alreadyVisited child (frame :: path)
    | .up targetIndex candidateSpotCount =>
      match path with
      | [] => some (.ok (targetIndex, candidateSpotCount))
      | frame :: path =>
        walkLoop p fuel targetIndex candidateSpotCount st.maxLastByte (frame.plug (.node l b s st r)) path

/-- `FindSpotAtIndex(target_index, align_pow2, size, parent_base, parent_size,
upper_limit)`: `.ok` a spot, or `.error` the `candidate_spot_count` of
`FindSpotAtIndexFailed`; `none` where the walk would not end. -/
def FindSpotAtIndex (regions : RegionTree) (targetIndex alignPow2 size parentBase parentSize upperLimit : Nat) :
    Option (Except Nat Nat) :=
  let p : Params := ⟨alignPow2, size, upperLimit⟩
  -- the gap before the first region, or the whole parent
  let gapSize := match regions with
    | .nil => parentSize
    | .node _ _ _ st _ => sub64 st.minFirstByte parentBase
  match considerGap p parentBase gapSize targetIndex 0 with
  | .error result => some result
  | .ok (targetIndex, candidateSpotCount) =>
    match walkLoop p (3 * regions.count + 1) targetIndex candidateSpotCount 0 regions [] with
    | none => none
    | some (.error result) => some result
    | some (.ok (targetIndex, candidateSpotCount)) =>
      -- the gap after the last region
      match regions with
      | .nil => some (.error candidateSpotCount)
      | .node _ _ _ st _ =>
        let gapBase := saturateAdd st.maxLastByte 1
        let gapSize := sub64 parentSize (sub64 gapBase parentBase)
        match considerGap p gapBase gapSize targetIndex candidateSpotCount with
        | .error result => some result
        | .ok (_, candidateSpotCount) => some (.error candidateSpotCount)

/-! ## The walk as a list of gaps

The loop with parent links is read as a recursion over the tree: entered
from above, a subtree whose largest gap holds `size` has its left subtree
walked if that one is worth it, then the node's two gaps considered, then its
right subtree walked if worth it, and, coming back from there, the node's two
gaps considered again (`visitGaps`). The walk only needs the stored states to
put the subtrees in order (`Fresh`), which sorted regions with correct states
do.
-/

namespace RegionTree

/-- The stored `max_last_byte_` of a subtree, `0` for none. -/
def maxLastByte : RegionTree → Nat
  | .nil => 0
  | .node _ _ _ st _ => st.maxLastByte

/-- The walk goes down into a subtree: there is one, and its largest gap holds
`size`. -/
def Worth (size : Nat) : RegionTree → Prop
  | .nil => False
  | .node _ _ _ st _ => size ≤ st.maxGap

instance decWorth (size : Nat) : (t : RegionTree) → Decidable (t.Worth size)
  | .nil => inferInstanceAs (Decidable False)
  | .node _ _ _ st _ => inferInstanceAs (Decidable (size ≤ st.maxGap))

end RegionTree

/-- The gap between a left subtree and its node, as base and size. -/
def leftGaps (l : RegionTree) (b : Nat) : List (Nat × Nat) :=
  match l with
  | .nil => []
  | .node _ _ _ lst _ => [(u64 (lst.maxLastByte + 1), Gap lst.maxLastByte b)]

/-- The gap between a node and its right subtree. -/
def rightGaps (b s : Nat) (r : RegionTree) : List (Nat × Nat) :=
  match r with
  | .nil => []
  | .node _ _ _ rst _ => [(u64 (LastByte b s + 1), Gap (LastByte b s) rst.minFirstByte)]

/-- The gaps the walk considers in a subtree it enters from above, in order. -/
def visitGaps (size : Nat) : RegionTree → List (Nat × Nat)
  | .nil => []
  | .node l b s st r =>
    if size ≤ st.maxGap then
      (if l.Worth size then visitGaps size l else []) ++ (leftGaps l b ++ rightGaps b s r) ++
        (if r.Worth size then visitGaps size r ++ (leftGaps l b ++ rightGaps b s r) else [])
    else []

/-- The passes of the loop spent in a subtree entered from above: one at the
node, and one more at it after each child walked. -/
def passes (size : Nat) : RegionTree → Nat
  | .nil => 0
  | .node l _ _ st r =>
    if size ≤ st.maxGap then
      1 + (if l.Worth size then passes size l + 1 else 0) + (if r.Worth size then passes size r + 1 else 0)
    else 1

/-- The stored states order the subtrees the walk goes down into past what it
has visited: entered with `v`, a worthy left subtree ends past `v`, and a
worthy right subtree ends past what the walk has seen when it gets there. -/
def Fresh (size : Nat) : Nat → RegionTree → Prop
  | _, .nil => True
  | v, .node l _ _ _ r =>
    (l.Worth size → v < l.maxLastByte ∧ Fresh size v l) ∧
    (r.Worth size → (if l.Worth size then l.maxLastByte else v) < r.maxLastByte ∧
      Fresh size (if l.Worth size then l.maxLastByte else v) r)

/-- The gap blocks in turn, until one returns. -/
def considerGaps (p : Params) : List (Nat × Nat) → Nat → Nat → Except (Except Nat Nat) (Nat × Nat)
  | [], targetIndex, candidateSpotCount => .ok (targetIndex, candidateSpotCount)
  | g :: gaps, targetIndex, candidateSpotCount =>
    match considerGap p g.1 g.2 targetIndex candidateSpotCount with
    | .error result => .error result
    | .ok (targetIndex, candidateSpotCount) => considerGaps p gaps targetIndex candidateSpotCount

/-- The walk after the gaps: a result returned by one of them, or `k` with the
index and count. -/
def thenGaps (p : Params) (gaps : List (Nat × Nat)) (targetIndex candidateSpotCount : Nat)
    (k : Nat → Nat → Option (Except (Except Nat Nat) (Nat × Nat))) : Option (Except (Except Nat Nat) (Nat × Nat)) :=
  match considerGaps p gaps targetIndex candidateSpotCount with
  | .error result => some (.error result)
  | .ok (targetIndex, candidateSpotCount) => k targetIndex candidateSpotCount

/-- `already_visited = MaxLastByte(node); node = node.parent()` from the
subtree `t`: the end of the loop at the root. -/
def upFrom (p : Params) (fuel : Nat) (t : RegionTree) :
    List Frame → Nat → Nat → Option (Except (Except Nat Nat) (Nat × Nat))
  | [], targetIndex, candidateSpotCount => some (.ok (targetIndex, candidateSpotCount))
  | frame :: path, targetIndex, candidateSpotCount =>
    walkLoop p fuel targetIndex candidateSpotCount t.maxLastByte (frame.plug t) path

theorem thenGaps_append (p : Params) (xs ys : List (Nat × Nat)) (k : Nat → Nat → Option (Except (Except Nat Nat) (Nat × Nat))) :
    ∀ t c, thenGaps p (xs ++ ys) t c k = thenGaps p xs t c fun t' c' => thenGaps p ys t' c' k := by
  induction xs with
  | nil => intro t c; rfl
  | cons g gaps ih =>
    intro t c
    unfold thenGaps
    simp only [List.cons_append, considerGaps]
    cases considerGap p g.1 g.2 t c with
    | error result => rfl
    | ok r => exact ih r.1 r.2

section Pass

variable (p : Params) (t c v : Nat) (l : RegionTree) (b s : Nat) (st : SubtreeState) (r : RegionTree)

/-- A node whose largest gap is too small is left at once. -/
theorem nodeBody_small (h : ¬p.size ≤ st.maxGap) : nodeBody p t c v l b s st r = .up t c := by
  simp [nodeBody, h]

/-- A worthy left subtree past `already_visited` is walked first. -/
theorem nodeBody_left (h : p.size ≤ st.maxGap) (hl : l.Worth p.size) (hv : v < l.maxLastByte) :
    nodeBody p t c v l b s st r = .descend t c l (.left b s st r) := by
  cases l with
  | nil => exact hl.elim
  | node l₁ b₁ s₁ lst r₁ =>
    simp only [RegionTree.Worth, RegionTree.maxLastByte] at hl hv
    simp [nodeBody, h, hl, hv]

/-- Otherwise the pass considers the node's two gaps and then goes down the
right subtree, if it is worthy and past `already_visited`, or up. -/
theorem nodeBody_gaps (h : p.size ≤ st.maxGap) (hl : ¬(l.Worth p.size ∧ v < l.maxLastByte)) :
    nodeBody p t c v l b s st r =
      match considerGaps p (leftGaps l b ++ rightGaps b s r) t c with
      | .error result => .done result
      | .ok (t', c') =>
        if r.Worth p.size ∧ v < r.maxLastByte then .descend t' c' r (.right l b s st) else .up t' c' := by
  cases l with
  | nil =>
    cases r with
    | nil => simp [nodeBody, h, leftGaps, rightGaps, considerGaps, RegionTree.Worth]
    | node l₂ b₂ s₂ rst r₂ =>
      simp only [nodeBody, ge_iff_le, gt_iff_lt, h, if_true, leftGaps, rightGaps, List.nil_append, considerGaps,
        RegionTree.Worth, RegionTree.maxLastByte]
      rcases considerGap p (u64 (LastByte b s + 1)) (Gap (LastByte b s) rst.minFirstByte) t c with
        result | ⟨t', c'⟩ <;> rfl
  | node l₁ b₁ s₁ lst r₁ =>
    simp only [RegionTree.Worth, RegionTree.maxLastByte] at hl
    cases r with
    | nil =>
      simp only [nodeBody, ge_iff_le, gt_iff_lt, h, hl, if_true, if_false, leftGaps, rightGaps, List.append_nil,
        considerGaps, RegionTree.Worth]
      rcases considerGap p (u64 (lst.maxLastByte + 1)) (Gap lst.maxLastByte b) t c with
        result | ⟨t', c'⟩ <;> rfl
    | node l₂ b₂ s₂ rst r₂ =>
      simp only [nodeBody, ge_iff_le, gt_iff_lt, h, hl, if_true, if_false, leftGaps, rightGaps,
        List.singleton_append, considerGaps, RegionTree.Worth, RegionTree.maxLastByte]
      rcases considerGap p (u64 (lst.maxLastByte + 1)) (Gap lst.maxLastByte b) t c with result | ⟨t', c'⟩
      · rfl
      · dsimp only
        rcases considerGap p (u64 (LastByte b s + 1)) (Gap (LastByte b s) rst.minFirstByte) t' c' with
          result | ⟨t'', c''⟩ <;> rfl

end Pass

section Walk

variable {p : Params} {fuel t c : Nat} {l : RegionTree} {b s : Nat} {st : SubtreeState} {r : RegionTree}
  {path : List Frame}

/-- A pass that considers the node's gaps and goes up. -/
theorem walkLoop_gaps_up {w : Nat} (h : p.size ≤ st.maxGap) (hl : ¬(l.Worth p.size ∧ w < l.maxLastByte))
    (hr : ¬(r.Worth p.size ∧ w < r.maxLastByte)) :
    walkLoop p (fuel + 1) t c w (.node l b s st r) path =
      thenGaps p (leftGaps l b ++ rightGaps b s r) t c (upFrom p fuel (.node l b s st r) path) := by
  rw [walkLoop.eq_3]
  unfold thenGaps
  rw [nodeBody_gaps p t c w l b s st r h hl]
  cases considerGaps p (leftGaps l b ++ rightGaps b s r) t c with
  | error result => rfl
  | ok r₁ =>
    simp only [hr, if_false]
    cases path <;> rfl

/-- A pass that considers the node's gaps and goes down the right subtree. -/
theorem walkLoop_gaps_right {w : Nat} (h : p.size ≤ st.maxGap) (hl : ¬(l.Worth p.size ∧ w < l.maxLastByte))
    (hr : r.Worth p.size) (hw : w < r.maxLastByte) :
    walkLoop p (fuel + 1) t c w (.node l b s st r) path =
      thenGaps p (leftGaps l b ++ rightGaps b s r) t c fun t' c' =>
        walkLoop p fuel t' c' w r (.right l b s st :: path) := by
  rw [walkLoop.eq_3]
  unfold thenGaps
  rw [nodeBody_gaps p t c w l b s st r h hl]
  cases considerGaps p (leftGaps l b ++ rightGaps b s r) t c with
  | error result => rfl
  | ok r₁ => simp only [hr, hw, and_self, if_true]

/-- **The walk of a subtree.** Entered from above with `v`, with enough fuel,
the loop considers the gaps of `visitGaps` and then goes up from the
subtree. -/
theorem walkLoop_visit (p : Params) :
    ∀ (T : RegionTree) (fuel t c v : Nat) (path : List Frame), T ≠ .nil → Fresh p.size v T →
      walkLoop p (fuel + passes p.size T) t c v T path =
        thenGaps p (visitGaps p.size T) t c (upFrom p fuel T path)
  | .nil, _, _, _, _, _, hT, _ => absurd rfl hT
  | .node l b s st r, fuel, t, c, v, path, _, ⟨hfl, hfr⟩ => by
    by_cases h : p.size ≤ st.maxGap
    case neg =>
      -- too small a gap below: up at once
      simp only [passes, visitGaps, h, if_false]
      rw [walkLoop.eq_3, nodeBody_small p t c v l b s st r h]
      cases path <;> rfl
    case pos =>
      simp only [passes, visitGaps, h, if_true]
      -- the node's gaps, then the right subtree if worthy and the gaps again
      have hmid : ∀ t c w, ¬(l.Worth p.size ∧ w < l.maxLastByte) →
          (r.Worth p.size → w < r.maxLastByte ∧ Fresh p.size w r) →
          (r.Worth p.size → l.Worth p.size → l.maxLastByte < r.maxLastByte) →
          walkLoop p (fuel + 1 + (if r.Worth p.size then passes p.size r + 1 else 0)) t c w (.node l b s st r) path =
            thenGaps p ((leftGaps l b ++ rightGaps b s r) ++
              (if r.Worth p.size then visitGaps p.size r ++ (leftGaps l b ++ rightGaps b s r) else []))
              t c (upFrom p fuel (.node l b s st r) path) := by
        intro t c w hl hr hlr
        by_cases hrw : r.Worth p.size
        case neg =>
          simp only [hrw, if_false, Nat.add_zero, List.append_nil]
          exact walkLoop_gaps_up h hl fun hw => hrw hw.1
        case pos =>
          obtain ⟨hw, hfresh⟩ := hr hrw
          have hr₀ : r ≠ .nil := by rintro rfl; exact hrw
          simp only [hrw, if_true]
          rw [show fuel + 1 + (passes p.size r + 1) = fuel + 1 + passes p.size r + 1 by omega,
            walkLoop_gaps_right h hl hrw hw,
            thenGaps_append p (leftGaps l b ++ rightGaps b s r) (visitGaps p.size r ++ (leftGaps l b ++ rightGaps b s r))]
          congr 1
          funext t' c'
          rw [thenGaps_append p (visitGaps p.size r) (leftGaps l b ++ rightGaps b s r),
            walkLoop_visit p r (fuel + 1) t' c' w (.right l b s st :: path) hr₀ hfresh]
          congr 1
          funext t'' c''
          -- back from the right subtree, past both children
          have hl' : ¬(l.Worth p.size ∧ r.maxLastByte < l.maxLastByte) := fun ⟨hlw, hlt⟩ =>
            Nat.lt_asymm hlt (hlr hrw hlw)
          exact walkLoop_gaps_up h hl' fun hw' => Nat.lt_irrefl _ hw'.2
      by_cases hlw : l.Worth p.size
      case neg =>
        simp only [hlw, if_false, Nat.add_zero, List.nil_append] at hfr ⊢
        rw [← Nat.add_assoc]
        exact hmid t c v (fun hw => hlw hw.1) hfr fun _ hw => absurd hw hlw
      case pos =>
        obtain ⟨hv, hfresh⟩ := hfl hlw
        simp only [hlw, if_true] at hfr ⊢
        have hl₀ : l ≠ .nil := by rintro rfl; exact hlw
        -- down the left subtree first
        have hdown : walkLoop p (fuel + 1 + (if r.Worth p.size then passes p.size r + 1 else 0) + passes p.size l + 1)
            t c v (.node l b s st r) path =
            walkLoop p (fuel + 1 + (if r.Worth p.size then passes p.size r + 1 else 0) + passes p.size l) t c v l
              (.left b s st r :: path) := by
          rw [walkLoop.eq_3, nodeBody_left p t c v l b s st r h hlw hv]
        rw [show fuel + (1 + (passes p.size l + 1) + (if r.Worth p.size then passes p.size r + 1 else 0)) =
            fuel + 1 + (if r.Worth p.size then passes p.size r + 1 else 0) + passes p.size l + 1 by omega,
          hdown, walkLoop_visit p l _ t c v _ hl₀ hfresh, List.append_assoc,
          thenGaps_append p (visitGaps p.size l)]
        congr 1
        funext t' c'
        exact hmid t' c' l.maxLastByte (fun hw => Nat.lt_irrefl _ hw.2) hfr fun hrw _ => (hfr hrw).1

end Walk

/-! ## Sorted regions with correct states -/

section Sorted

/-- What the regions of a subtree keep of the well-formedness of the tree:
non-empty, inside the address space, and in increasing order. -/
def SortedRegions (xs : List (Nat × Nat)) : Prop :=
  (∀ x ∈ xs, 0 < x.2 ∧ x.1 + x.2 ≤ 2 ^ 64) ∧ xs.Pairwise fun x y => x.1 + x.2 ≤ y.1

theorem SortedRegions.sublist {xs ys : List (Nat × Nat)} (h : SortedRegions ys) (hsub : xs.Sublist ys) :
    SortedRegions xs :=
  ⟨fun x hx => h.1 x (hsub.subset hx), h.2.sublist hsub⟩

/-- The last byte of a region is its base, or past it. -/
theorem le_lastByte {x : Nat × Nat} (hx : 0 < x.2 ∧ x.1 + x.2 ≤ 2 ^ 64) : x.1 ≤ LastByte x.1 x.2 := by
  unfold LastByte u64
  rw [Nat.mod_eq_of_lt (by omega)]
  omega

/-- The last byte of a region is below the base of a region after it. -/
theorem lastByte_lt {x y : Nat × Nat} (hx : 0 < x.2 ∧ x.1 + x.2 ≤ 2 ^ 64) (hxy : x.1 + x.2 ≤ y.1) :
    LastByte x.1 x.2 < y.1 := by
  unfold LastByte u64
  rw [Nat.mod_eq_of_lt (by omega)]
  omega

/-- A subtree with correct states ends with the last byte of its last region. -/
theorem maxLastByte_eq : ∀ {T : RegionTree}, T.Augmented → T ≠ .nil →
    ∃ pre x, T.regions = pre ++ [x] ∧ T.maxLastByte = LastByte x.1 x.2
  | .nil, _, hT => absurd rfl hT
  | .node l b s st r, ⟨hst, _, hr⟩, _ => by
    cases r with
    | nil => exact ⟨l.regions, (b, s), by simp [RegionTree.regions], by rw [hst]; rfl⟩
    | node l₂ b₂ s₂ rst r₂ =>
      obtain ⟨pre, x, hreg, hlast⟩ := maxLastByte_eq hr (by simp)
      refine ⟨l.regions ++ (b, s) :: pre, x, ?_, ?_⟩
      · simp only [RegionTree.regions] at hreg ⊢
        rw [hreg]
        simp
      · rw [← hlast, hst]
        rfl

/-- A subtree whose largest gap holds a byte has two regions or more. -/
theorem two_le_length_of_worth {size : Nat} (hsize : 0 < size) :
    ∀ {T : RegionTree}, T.Augmented → T.Worth size → 2 ≤ T.regions.length
  | .nil, _, hw => hw.elim
  | .node l b s st r, ⟨hst, _, _⟩, hw => by
    simp only [RegionTree.Worth] at hw
    -- a leaf's largest gap is zero
    cases l with
    | node => simp [RegionTree.regions]; omega
    | nil =>
      cases r with
      | node => simp [RegionTree.regions]; omega
      | nil =>
        rw [hst] at hw
        simp [Update] at hw
        omega

/-- **Sorted regions order the walk.** Over sorted regions with correct states,
entered with `v` below every region but the first, the walk's comparisons with
`already_visited` go as `visitGaps` says. -/
theorem fresh_of_sorted {size : Nat} (hsize : 0 < size) :
    ∀ {T : RegionTree} {v : Nat}, T.Augmented → SortedRegions T.regions → (∀ y ∈ T.regions.tail, v < y.1) →
      Fresh size v T
  | .nil, _, _, _, _ => trivial
  | .node l b s st r, v, ⟨_, hl, hr⟩, hsorted, hv => by
    -- the tree's regions are the left subtree's, the node's, then the right subtree's
    have hreg : (RegionTree.node l b s st r).regions = l.regions ++ (b, s) :: r.regions := rfl
    rw [hreg] at hsorted hv
    have hsl : SortedRegions l.regions := hsorted.sublist (List.sublist_append_left _ _)
    have hsr : SortedRegions r.regions := hsorted.sublist ((List.sublist_cons_self _ _).trans
      (List.sublist_append_right _ _))
    -- every region of the right subtree is past every other region
    have hright : ∀ y ∈ r.regions, ∀ x ∈ l.regions ++ [(b, s)], x.1 + x.2 ≤ y.1 := by
      intro y hy x hx
      have hpair := hsorted.2
      rw [List.append_cons] at hpair
      exact (List.pairwise_append.mp hpair).2.2 x hx y hy
    -- the right subtree lies within the tail, whatever the left one holds
    have hvr : ∀ y ∈ r.regions, v < y.1 := by
      intro y hy
      apply hv
      cases hlreg : l.regions with
      | nil => simpa [hlreg] using hy
      | cons x xs => simp [hy]
    -- the last region of a worthy subtree is past its first
    have hlast : ∀ {U : RegionTree}, U.Augmented → U.Worth size → ∃ pre x, pre ≠ [] ∧ U.regions = pre ++ [x] ∧
        U.maxLastByte = LastByte x.1 x.2 := by
      intro U hU hw
      have hU₀ : U ≠ .nil := by rintro rfl; exact hw
      obtain ⟨pre, x, hUreg, hmlb⟩ := maxLastByte_eq hU hU₀
      have hlen := two_le_length_of_worth hsize hU hw
      refine ⟨pre, x, ?_, hUreg, hmlb⟩
      rintro rfl
      simp [hUreg] at hlen
    refine ⟨fun hlw => ?_, fun hrw => ?_⟩
    · -- down the left subtree with `v`
      obtain ⟨pre, x, hpre, hlreg, hmlb⟩ := hlast hl hlw
      have hx : x ∈ (l.regions ++ (b, s) :: r.regions).tail := by
        obtain ⟨p₀, ps, rfl⟩ := List.exists_cons_of_ne_nil hpre
        simp [hlreg]
      have hxs := hsorted.1 x (List.mem_of_mem_tail hx)
      refine ⟨by rw [hmlb]; exact Nat.lt_of_lt_of_le (hv x hx) (le_lastByte hxs), ?_⟩
      refine fresh_of_sorted hsize hl hsl fun y hy => hv y ?_
      obtain ⟨p₀, ps, hps⟩ := List.exists_cons_of_ne_nil (List.ne_nil_of_mem (List.mem_of_mem_tail hy))
      rw [hps] at hy ⊢
      simp only [List.tail_cons, List.cons_append] at hy ⊢
      exact List.mem_append_left _ hy
    · obtain ⟨pre, z, -, hrreg, hrmlb⟩ := hlast hr hrw
      have hz : z ∈ r.regions := by rw [hrreg]; simp
      have hzs := hsr.1 z hz
      by_cases hlw : l.Worth size
      · -- past the left subtree: its last byte is below every region on the right
        simp only [hlw, if_true]
        obtain ⟨pre', x, -, hlreg, hmlb⟩ := hlast hl hlw
        have hxs := hsl.1 x (by rw [hlreg]; simp)
        have hpast : ∀ y ∈ r.regions, l.maxLastByte < y.1 := fun y hy => by
          rw [hmlb]
          exact lastByte_lt hxs (Nat.le_trans (by omega) (hright y hy x (by rw [hlreg]; simp)))
        refine ⟨by rw [hrmlb]; exact Nat.lt_of_lt_of_le (hpast z hz) (le_lastByte hzs), ?_⟩
        exact fresh_of_sorted hsize hr hsr fun y hy => hpast y (List.mem_of_mem_tail hy)
      · simp only [hlw, if_false]
        refine ⟨by rw [hrmlb]; exact Nat.lt_of_lt_of_le (hvr z hz) (le_lastByte hzs), ?_⟩
        exact fresh_of_sorted hsize hr hsr fun y hy => hvr y (List.mem_of_mem_tail hy)

/-- Three passes a region are enough for the walk. -/
theorem passes_le (size : Nat) : ∀ T : RegionTree, passes size T ≤ 3 * T.count
  | .nil => Nat.le_refl _
  | .node l _ _ st r => by
    have hl := passes_le size l
    have hr := passes_le size r
    simp only [passes, RegionTree.count]
    split_ifs <;> omega

end Sorted

/-- All the gaps `FindSpotAtIndex` considers, in order: the one before the
first region, those of the walk, and the one after the last region. -/
def walkGaps (size parentBase parentSize : Nat) : RegionTree → List (Nat × Nat)
  | .nil => [(parentBase, parentSize)]
  | .node l b s st r =>
    (parentBase, sub64 st.minFirstByte parentBase) :: visitGaps size (.node l b s st r) ++
      [(saturateAdd st.maxLastByte 1, sub64 parentSize (sub64 (saturateAdd st.maxLastByte 1) parentBase))]

theorem considerGaps_append (p : Params) (xs ys : List (Nat × Nat)) :
    ∀ t c, considerGaps p (xs ++ ys) t c =
      match considerGaps p xs t c with
      | .error result => .error result
      | .ok (t', c') => considerGaps p ys t' c' := by
  induction xs with
  | nil => intro t c; rfl
  | cons g gaps ih =>
    intro t c
    simp only [List.cons_append, considerGaps]
    rcases considerGap p g.1 g.2 t c with result | ⟨t', c'⟩
    · rfl
    · exact ih t' c'

/-- At the root, the walk ends with the index and count the gaps leave. -/
theorem thenGaps_upFrom_nil (p : Params) (gaps : List (Nat × Nat)) (fuel t c : Nat) (T : RegionTree) :
    thenGaps p gaps t c (upFrom p fuel T []) = some (considerGaps p gaps t c) := by
  unfold thenGaps
  rcases considerGaps p gaps t c with result | ⟨t', c'⟩ <;> rfl

/-- **`FindSpotAtIndex` is a scan of gaps.** On every tree of sorted regions
with correct states and every `size > 0`, the walk with parent links
considers the gaps of `walkGaps` in turn: it returns what the first gap
that returns gives, or the count they all leave. -/
theorem findSpotAtIndex_eq_considerGaps {T : RegionTree} {targetIndex alignPow2 size parentBase parentSize upperLimit : Nat}
    (haug : T.Augmented) (hwf : RegionsWellFormed T parentBase parentSize) (hsize : 0 < size) :
    FindSpotAtIndex T targetIndex alignPow2 size parentBase parentSize upperLimit =
      match considerGaps ⟨alignPow2, size, upperLimit⟩ (walkGaps size parentBase parentSize T) targetIndex 0 with
      | .error result => some result
      | .ok (_, candidateSpotCount) => some (.error candidateSpotCount) := by
  cases T with
  | nil =>
    simp only [FindSpotAtIndex, walkGaps, considerGaps]
    rcases considerGap ⟨alignPow2, size, upperLimit⟩ parentBase parentSize targetIndex 0 with result | ⟨t', c'⟩ <;> rfl
  | node l b s st r =>
    set p : Params := ⟨alignPow2, size, upperLimit⟩
    -- the walk, with three passes a region, is the scan of `visitGaps`
    have hsorted : SortedRegions (RegionTree.node l b s st r).regions :=
      ⟨fun x hx => ⟨(hwf.2.1 x hx).1, Nat.le_trans (hwf.2.1 x hx).2.2 hwf.1⟩, hwf.2.2⟩
    have hfresh : Fresh size 0 (.node l b s st r) := by
      refine fresh_of_sorted hsize haug hsorted fun y hy => ?_
      obtain ⟨x, xs, hxs⟩ := List.exists_cons_of_ne_nil (List.ne_nil_of_mem (List.mem_of_mem_tail hy))
      rw [hxs] at hy hsorted
      have hx := hsorted.1 x List.mem_cons_self
      have := List.rel_of_pairwise_cons hsorted.2 hy
      omega
    have hwalk : ∀ t c, walkLoop p (3 * (RegionTree.node l b s st r).count + 1) t c 0 (.node l b s st r) [] =
        some (considerGaps p (visitGaps size (.node l b s st r)) t c) := by
      intro t c
      have hle := passes_le size (.node l b s st r)
      rw [show 3 * (RegionTree.node l b s st r).count + 1 =
          (3 * (RegionTree.node l b s st r).count + 1 - passes size (.node l b s st r)) + passes size (.node l b s st r)
          by omega,
        walkLoop_visit p _ _ t c 0 [] (by simp) hfresh, thenGaps_upFrom_nil]
    simp only [FindSpotAtIndex, walkGaps, List.cons_append, considerGaps]
    rcases considerGap p parentBase (sub64 st.minFirstByte parentBase) targetIndex 0 with result | ⟨t₁, c₁⟩
    · rfl
    · dsimp only
      rw [hwalk, considerGaps_append]
      rcases considerGaps p (visitGaps size (.node l b s st r)) t₁ c₁ with result | ⟨t₂, c₂⟩
      · rfl
      · dsimp only
        simp only [considerGaps]
        rcases considerGap p (saturateAdd st.maxLastByte 1)
          (sub64 parentSize (sub64 (saturateAdd st.maxLastByte 1) parentBase)) t₂ c₂ with result | ⟨t₃, c₃⟩ <;> rfl

/-! ## Two walks that miscount -/

/-- Four pages in a parent of sixteen at `0x100000`: at pages 1, 3, 6 and 9,
inserted in the order 3, 1, 6, 9, so the root has a leaf on its left and a
right child with a leaf on its right. Between pages 4 and 6 and between 7
and 9 there is room for two pages, and six pages follow the last region. -/
def fourRegions : RegionTree :=
  .mk (.mk .nil 0x101000 0x1000 .nil) 0x103000 0x1000 (.mk .nil 0x106000 0x1000 (.mk .nil 0x109000 0x1000 .nil))

/-- The tree of four regions is augmented and sorted inside its parent, so
the walk for two-page spots is a scan of its gaps. -/
theorem findSpotAtIndex_eq_considerGaps_fourRegions :
    FindSpotAtIndex fourRegions 2 12 0x2000 0x100000 0x10000 (2 ^ 64 - 1) =
      match considerGaps ⟨12, 0x2000, 2 ^ 64 - 1⟩ (walkGaps 0x2000 0x100000 0x10000 fourRegions) 2 0 with
      | .error result => some result
      | .ok (_, candidateSpotCount) => some (.error candidateSpotCount) :=
  findSpotAtIndex_eq_considerGaps (by decide) (by decide) (by decide)

/-- In the tree of four regions, two-page spots aligned to pages lie at
pages 4, 7 and 10 to 14, and `FindSpotAtIndex` hands out page 4 at index 0
and again at index 2. Coming back from the right child of the root, the walk
counts the gap between the root and that child a second time. It reports
eight spots where there are seven. -/
theorem findSpotAtIndex_revisits_gap :
    fourRegions.Augmented ∧ RegionsWellFormed fourRegions 0x100000 0x10000 ∧
      (∀ a, IsSpot fourRegions 12 0x2000 0x100000 0x10000 (2 ^ 64 - 1) a ↔
        a ∈ [0x104000, 0x107000, 0x10A000, 0x10B000, 0x10C000, 0x10D000, 0x10E000]) ∧
      FindSpotAtIndex fourRegions 0 12 0x2000 0x100000 0x10000 (2 ^ 64 - 1) = some (.ok 0x104000) ∧
      FindSpotAtIndex fourRegions 2 12 0x2000 0x100000 0x10000 (2 ^ 64 - 1) = some (.ok 0x104000) ∧
      FindSpotAtIndex fourRegions 8 12 0x2000 0x100000 0x10000 (2 ^ 64 - 1) = some (.error 8) := by
  refine ⟨by decide, by decide, fun a => ⟨fun hs => ?_, fun ha => ?_⟩, by decide, by decide, by decide⟩
  · -- a spot is a page of the parent, and only those seven pages are clear
    obtain ⟨halign, hlo, hhi, -, hclear⟩ := hs
    obtain ⟨k, rfl⟩ : ∃ k, a = 0x100000 + 0x1000 * k := ⟨(a - 0x100000) / 0x1000, by omega⟩
    have hk : k < 15 := by omega
    interval_cases k <;> revert hclear <;> decide
  · simp only [List.mem_cons, List.not_mem_nil, or_false] at ha
    rcases ha with rfl | rfl | rfl | rfl | rfl | rfl | rfl <;> decide

end Zircon.Vm
