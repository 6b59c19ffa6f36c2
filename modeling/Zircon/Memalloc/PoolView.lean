import Zircon.Memalloc.Pool
import Zircon.Runs
import Zircon.KeyedList

/-!
# `Pool`: the type of each address

A normalized pool describes a partial map from addresses to types: an address
has the type of the tracked range that holds it (`typeAt`), and none when no
range does. The methods of `pool.cc` that retype memory all do it the same
way: `InsertSubrange(range, it)` cuts `range` out of the node `it` that holds
it and gives it a node of its own, and `Coalesce` then merges that node with a
neighbour of the same type that it touches. This module says what the pair
does to the map: the addresses of `range` take its type, every other keeps
its own, and the pool is normalized again.

The model names a node by the address of its slot. A pool the source can be
in has its nodes at distinct addresses, all in tracked bookkeeping memory
(`SlotsValid`); the lemmas that follow a node by its slot take that as given,
and the operations keep it.
-/

namespace Zircon.Memalloc

namespace Pool

open Runs (Holds Covered Increasing)

/-- The type `p` gives address `x`: that of the tracked range holding it. -/
def typeAt (p : Pool) (x : Nat) : Option RangeType := Runs.labelAt Range.addr Range.end Range.type p.tracked x

/-- Ranges in order whose touching neighbours differ in type: the "maximally
contiguous" part of `Normalized`. -/
def Maximal (l : List Range) : Prop := l.IsChain fun r s => r.end = s.addr → r.type ≠ s.type

/-- Every node, linked or unused, lies in tracked bookkeeping memory, and no
two nodes overlap. -/
structure SlotsValid (p : Pool) : Prop where
  bookkeeping : ∀ s ∈ p.slots ++ p.unused, ∀ y, s ≤ y → y < s + sizeofNode → p.typeAt y = some kPoolBookkeeping
  disjoint : (p.slots ++ p.unused).Pairwise fun s t => s + sizeofNode ≤ t ∨ t + sizeofNode ≤ s

theorem SlotsValid.nodup {p : Pool} (h : p.SlotsValid) : (p.slots ++ p.unused).Nodup :=
  h.disjoint.imp fun h => by unfold sizeofNode at h; omega

/-! ## A node and its neighbours -/

/-- `p.ranges` split around the node `n`, whose slot no other node has. -/
structure At (p : Pool) (A : List Node) (n : Node) (B : List Node) : Prop where
  ranges : p.ranges = A ++ n :: B
  left : n.slot ∉ A.map (·.slot)
  right : n.slot ∉ B.map (·.slot)

theorem at_of_nodup {p : Pool} {A B : List Node} {n : Node} (hnd : p.slots.Nodup)
    (hp : p.ranges = A ++ n :: B) : p.At A n B := by
  have h : (A.map (·.slot) ++ n.slot :: B.map (·.slot)).Nodup := by
    simpa [slots, hp] using hnd
  obtain ⟨-, hnB, hAB⟩ := List.nodup_append.mp h
  exact ⟨hp, fun hm => hAB _ hm _ List.mem_cons_self rfl, (List.nodup_cons.mp hnB).1⟩

section At

variable {p : Pool} {A B : List Node} {n : Node} (h : p.At A n B)
include h

theorem At.indexOf : p.indexOf n.slot = A.length := by
  rw [Pool.indexOf, h.ranges]
  exact KeyedList.findIdx_key h.left

theorem At.rangeAt : p.rangeAt n.slot = n.range := by
  rw [Pool.rangeAt, h.ranges, KeyedList.find?_key h.left]
  rfl

theorem At.nextOf : p.nextOf n.slot = B.head?.map (·.slot) := by
  rw [Pool.nextOf, h.indexOf, h.ranges, KeyedList.getElem?_next]

theorem At.prevOf : p.prevOf n.slot = A.getLast?.map (·.slot) := by
  rw [Pool.prevOf, h.indexOf]
  by_cases hA : A = []
  · subst hA
    rfl
  · rw [if_neg (by simpa using hA), h.ranges, KeyedList.getElem?_prev hA]

theorem At.modifyRange (f : Range → Range) :
    (p.modifyRange n.slot f).ranges = A ++ { n with range := f n.range } :: B := by
  rw [Pool.modifyRange, h.ranges]
  exact KeyedList.map_update (fun n => { n with range := f n.range }) h.left h.right

theorem At.modifyRange_at (f : Range → Range) :
    (p.modifyRange n.slot f).At A { n with range := f n.range } B :=
  ⟨h.modifyRange f, h.left, h.right⟩

theorem At.mem_slots : n.slot ∈ p.slots := by
  rw [slots, h.ranges]
  simp

theorem At.insertNodeAt (m : Node) : (p.InsertNodeAt m (some n.slot)).ranges = A ++ m :: n :: B := by
  simp only [InsertNodeAt, if_pos (Or.inl h.mem_slots), h.indexOf]
  rw [h.ranges]
  exact KeyedList.insertIdx_length m (n :: B)

theorem At.removeNodeAt : (p.RemoveNodeAt n.slot).ranges = A ++ B := by
  simp only [RemoveNodeAt, h.indexOf]
  rw [h.ranges]
  exact KeyedList.eraseIdx_length

end At

@[simp] theorem slots_modifyRange (p : Pool) (it : Nat) (f : Range → Range) :
    (p.modifyRange it f).slots = p.slots := by
  simp only [slots, modifyRange, List.map_map]
  exact List.map_congr_left fun n _ => by by_cases h : n.slot = it <;> simp [h]

@[simp] theorem numRanges_modifyRange (p : Pool) (it : Nat) (f : Range → Range) :
    (p.modifyRange it f).numRanges = p.numRanges := rfl

@[simp] theorem unused_modifyRange (p : Pool) (it : Nat) (f : Range → Range) :
    (p.modifyRange it f).unused = p.unused := rfl

@[simp] theorem numRanges_insertNodeAt (p : Pool) (m : Node) (it : Option Nat) :
    (p.InsertNodeAt m it).numRanges = p.numRanges + 1 := by
  cases it with
  | none => rfl
  | some s =>
    by_cases h : s ∈ p.slots ∨ p.ranges = []
    · simp only [InsertNodeAt, if_pos h]
    · simp only [InsertNodeAt, if_neg h]

/-- Inserting before a node of `ranges_` leaves `unused_` alone. -/
theorem unused_insertNodeAt_some {p : Pool} (m : Node) {s : Nat} (hs : s ∈ p.slots) :
    (p.InsertNodeAt m (some s)).unused = p.unused := by
  simp only [InsertNodeAt, if_pos (Or.inl hs)]

@[simp] theorem numRanges_removeNodeAt (p : Pool) (it : Nat) :
    (p.RemoveNodeAt it).numRanges = p.numRanges - 1 := rfl

@[simp] theorem unused_removeNodeAt (p : Pool) (it : Nat) : (p.RemoveNodeAt it).unused = p.unused := rfl

theorem insertNodeAt_none (p : Pool) (m : Node) : (p.InsertNodeAt m none).ranges = p.ranges ++ [m] :=
  List.insertIdx_length_self

/-- Inserting before the node after `n` puts the new node right after `n`. -/
theorem insertNodeAt_after {p : Pool} {A B : List Node} {n : Node} (hnd : p.slots.Nodup)
    (hp : p.ranges = A ++ n :: B) (m : Node) :
    (p.InsertNodeAt m (B.head?.map (·.slot))).ranges = A ++ n :: m :: B := by
  cases B with
  | nil => rw [List.head?_nil, Option.map_none, insertNodeAt_none, hp, List.append_assoc]; rfl
  | cons b B =>
    have hat : p.At (A ++ [n]) b B := at_of_nodup hnd (by rw [hp, List.append_assoc]; rfl)
    rw [List.head?_cons, Option.map_some, hat.insertNodeAt, List.append_assoc]
    rfl

/-- Inserting before the node after `n`, or at `end()`, leaves `unused_` alone. -/
theorem unused_insertNodeAt_after {p : Pool} {A B : List Node} {n : Node} (hp : p.ranges = A ++ n :: B)
    (m : Node) : (p.InsertNodeAt m (B.head?.map (·.slot))).unused = p.unused := by
  cases B with
  | nil => rfl
  | cons b B =>
    apply unused_insertNodeAt_some
    rw [slots, hp]
    simp

/-! ## Maximal lists -/

/-- The last range of a maximal list may be changed for one with its start and
type. -/
theorem maximal_snoc_congr {l : List Range} {a b : Range} (h : Maximal (l ++ [a])) (haddr : b.addr = a.addr)
    (htype : b.type = a.type) : Maximal (l ++ [b]) := by
  rw [Maximal, List.isChain_append] at h ⊢
  refine ⟨h.1, List.isChain_singleton _, fun c hc d hd => ?_⟩
  obtain rfl := Option.mem_some_iff.mp hd
  rw [haddr, htype]
  exact h.2.2 c hc a rfl

/-- The first range of a maximal list may be changed for one with its end and
type. -/
theorem maximal_cons_congr {l : List Range} {a b : Range} (h : Maximal (a :: l)) (hend : b.end = a.end)
    (htype : b.type = a.type) : Maximal (b :: l) := by
  cases l with
  | nil => exact List.isChain_singleton _
  | cons c l =>
    obtain ⟨hac, hl⟩ := List.isChain_cons_cons.mp h
    refine List.isChain_cons_cons.mpr ⟨?_, hl⟩
    rw [hend, htype]
    exact hac

/-- Two maximal lists that meet at `a` make one. -/
theorem maximal_join {l m : List Range} {a : Range} (hl : Maximal (l ++ [a])) (hm : Maximal (a :: m)) :
    Maximal (l ++ a :: m) := by
  have h := List.IsChain.append_overlap hl (show Maximal ([a] ++ m) from hm) (List.cons_ne_nil a [])
  rwa [List.append_assoc, List.singleton_append] at h


/-! ## Cutting a range out of the one that holds it -/

/-- The part of `cur` before `r`, when there is one. -/
def before (cur r : Range) : List Range :=
  if cur.addr < r.addr then [⟨cur.addr, r.addr - cur.addr, cur.type⟩] else []

/-- The part of `cur` after `r`, when there is one. -/
def after (cur r : Range) : List Range :=
  if r.end < cur.end then [⟨r.end, cur.end - r.end, cur.type⟩] else []

section Cut

variable {cur r : Range} (hr : cur.addr ≤ r.addr ∧ r.end ≤ cur.end) (hpos : 0 < r.size)

omit hr hpos in
theorem mem_before {q : Range} (hq : q ∈ before cur r) :
    q.addr = cur.addr ∧ q.end = r.addr ∧ q.type = cur.type ∧ q.addr < q.end := by
  unfold before at hq
  split_ifs at hq with h
  · obtain rfl := List.mem_singleton.mp hq
    refine ⟨rfl, ?_, rfl, ?_⟩ <;> simp only [Range.end] <;> omega
  · cases hq

omit hr hpos in
theorem mem_after {q : Range} (hq : q ∈ after cur r) :
    q.addr = r.end ∧ q.end = cur.end ∧ q.type = cur.type ∧ q.addr < q.end := by
  unfold after at hq
  split_ifs at hq with h
  · obtain rfl := List.mem_singleton.mp hq
    refine ⟨rfl, ?_, rfl, ?_⟩ <;> simp only [Range.end] at h ⊢ <;> omega
  · cases hq

include hr hpos

omit hr in
/-- The pieces are in order, each within `cur`. -/
theorem increasing_cut : Increasing Range.addr Range.end (before cur r ++ r :: after cur r) := by
  have hr' : r.addr < r.end := by unfold Range.end; omega
  have hinc : Increasing Range.addr Range.end ([] ++ after cur r) :=
    ⟨fun q hq => (mem_after hq).2.2.2, by unfold after; split_ifs <;> simp⟩
  have hb : Increasing Range.addr Range.end (before cur r ++ r :: after cur r) := by
    apply Runs.Increasing.insert (P := before cur r) _ hr'
    · intro q hq; exact (mem_before hq).2.1.le
    · intro q hq; exact (mem_after hq).1.ge
    · refine ⟨fun q hq => ?_, ?_⟩
      · rcases List.mem_append.mp hq with hq | hq
        · exact (mem_before hq).2.2.2
        · exact (mem_after hq).2.2.2
      · refine List.pairwise_append.mpr ⟨by unfold before; split_ifs <;> simp, hinc.sorted, ?_⟩
        intro q hq q' hq'
        have := (mem_before hq).2.1
        have := (mem_after hq').1
        unfold Range.end at *
        omega
  exact hb

theorem within_cut {q : Range} (hq : q ∈ before cur r ++ r :: after cur r) :
    cur.addr ≤ q.addr ∧ q.end ≤ cur.end := by
  rcases List.mem_append.mp hq with hq | hq
  · have := mem_before hq; unfold Range.end at *; omega
  · rcases List.mem_cons.mp hq with rfl | hq
    · exact hr
    · have := mem_after hq; unfold Range.end at *; omega

/-- The pieces give `r`'s addresses its type and the rest of `cur` its own. -/
theorem labelAt_cut (x : Nat) :
    Runs.labelAt Range.addr Range.end Range.type (before cur r ++ r :: after cur r) x =
      if Holds Range.addr Range.end r x then some r.type
      else Runs.labelAt Range.addr Range.end Range.type [cur] x := by
  by_cases h₁ : cur.addr < r.addr <;> by_cases h₂ : r.end < cur.end <;>
    simp only [before, after, h₁, h₂, if_true, if_false, List.nil_append, List.singleton_append,
      Runs.labelAt_cons, Runs.labelAt_nil] <;>
    split_ifs <;> simp only [Holds, Range.end] at * <;> first | rfl | omega

omit hr hpos in
theorem maximal_before {l : List Range} (h : Maximal (l ++ [cur])) : Maximal (l ++ before cur r) := by
  unfold before
  split_ifs
  · exact maximal_snoc_congr h rfl rfl
  · rw [List.append_nil]
    exact (List.isChain_append.mp h).1

omit hr hpos in
theorem maximal_after {l : List Range} (h : Maximal (cur :: l)) : Maximal (after cur r ++ l) := by
  unfold after
  split_ifs with hlt
  · -- the part after `r` ends where `cur` does
    refine maximal_cons_congr h ?_ rfl
    simp only [Range.end] at hlt ⊢
    omega
  · exact (List.isChain_cons.mp h).2

end Cut

/-! ## Retyping a piece of a range -/

/-- Taking the node at the back of `unused_` and linking it in keeps the
nodes, linked and unused, as they were. -/
theorem perm_pop {X Y D : List Nat} {s : Nat} : (X ++ s :: Y ++ D).Perm (X ++ Y ++ (D ++ [s])) :=
  List.perm_iff_count.mpr fun a => by simp only [List.count_append, List.count_cons, List.count_nil]; omega

/-- The same with two nodes taken from the back, linked in the order taken. -/
theorem perm_pop₂ {X Y D : List Nat} {s t : Nat} : (X ++ s :: t :: Y ++ D).Perm (X ++ Y ++ (D ++ [t] ++ [s])) :=
  List.perm_iff_count.mpr fun a => by simp only [List.count_append, List.count_cons, List.count_nil]; omega

theorem Normalized.toIncreasing {p : Pool} (hn : p.Normalized) : Increasing Range.addr Range.end p.tracked :=
  ⟨fun r hr => by have := hn.nonempty r hr; unfold Range.end; omega, hn.increasing⟩

/-- What `Normalized` asks of `ranges_` but maximality, with distinct slots. -/
structure Ordered (p : Pool) : Prop where
  increasing : Increasing Range.addr Range.end p.tracked
  noOverflow : ∀ r ∈ p.tracked, r.end ≤ kMax
  count : p.numRanges = p.ranges.length
  nodup : p.slots.Nodup

/-- `p` is normalized but at the node `s`, whose neighbours may touch it with
its type: what `InsertSubrange` leaves for `Coalesce`. -/
structure NormalizedAround (p : Pool) (s : Nat) : Prop extends p.Ordered where
  split : ∃ A n B, p.ranges = A ++ n :: B ∧ n.slot = s ∧ Maximal (A.map (·.range)) ∧ Maximal (B.map (·.range))

/-- `p` is normalized up to the node `s`; the range after it may touch it with
its type: what the first half of `Coalesce` leaves for the second. -/
structure NormalizedBefore (p : Pool) (s : Nat) : Prop extends p.Ordered where
  split : ∃ A n B, p.ranges = A ++ n :: B ∧ n.slot = s ∧ Maximal (A.map (·.range) ++ [n.range]) ∧
    Maximal (B.map (·.range))

/-- Replacing the tracked range `cur` by pieces that give `r`'s addresses its
type and the rest of `cur` its own retypes exactly `r`. -/
theorem typeAt_retype {p p' : Pool} {P S M : List Range} {cur r : Range}
    (hinc : Increasing Range.addr Range.end p.tracked) (hp : p.tracked = P ++ cur :: S)
    (hp' : p'.tracked = P ++ M ++ S) (hrc : ∀ x, Holds Range.addr Range.end r x → Holds Range.addr Range.end cur x)
    (hM : ∀ x, Runs.labelAt Range.addr Range.end Range.type M x =
      if Holds Range.addr Range.end r x then some r.type else Runs.labelAt Range.addr Range.end Range.type [cur] x)
    (x : Nat) : p'.typeAt x = if Holds Range.addr Range.end r x then some r.type else p.typeAt x := by
  -- the pieces hold nothing outside `cur`
  have hout : ∀ y, ¬ Holds Range.addr Range.end cur y → Runs.labelAt Range.addr Range.end Range.type M y = none := by
    intro y hy
    rw [hM, if_neg (fun h => hy (hrc y h)), Runs.labelAt_cons, if_neg hy, Runs.labelAt_nil]
  unfold typeAt
  rw [hp', hp]
  rw [hp] at hinc
  rw [hinc.labelAt_replace hout]
  by_cases hx : Holds Range.addr Range.end cur x
  · -- inside `cur` the old type is `cur`'s
    rw [if_pos hx, hM, Runs.labelAt_cons, if_pos hx,
      hinc.labelAt_eq (List.mem_append_right _ List.mem_cons_self) hx]
  · rw [if_neg hx, if_neg (fun h => hx (hrc x h))]

/-- The pool `InsertSubrange` leaves when it cuts `r` out of the node `it`
holding `cur`: the node `s` holds `r`, with the parts of `cur` before and
after it on either side. -/
theorem normalizedAround_of_cut {p p' : Pool} {A B A' B' : List Node} {it s : Nat} {cur r : Range}
    (hn : p.Normalized) (hp : p.ranges = A ++ ⟨it, cur⟩ :: B)
    (hr : cur.addr ≤ r.addr ∧ r.end ≤ cur.end) (hpos : 0 < r.size)
    (hp' : p'.ranges = A' ++ ⟨s, r⟩ :: B') (hA' : A'.map (·.range) = A.map (·.range) ++ before cur r)
    (hB' : B'.map (·.range) = after cur r ++ B.map (·.range))
    (hcount : p'.numRanges = p'.ranges.length) (hnd : p'.slots.Nodup) :
    p'.NormalizedAround s ∧
      ∀ x, p'.typeAt x = if Holds Range.addr Range.end r x then some r.type else p.typeAt x := by
  have ht : p.tracked = A.map (·.range) ++ cur :: B.map (·.range) := by simp [tracked, hp]
  have ht' : p'.tracked = A.map (·.range) ++ (before cur r ++ r :: after cur r) ++ B.map (·.range) := by
    simp only [tracked, hp', List.map_append, List.map_cons, hA', hB', List.append_assoc, List.cons_append]
  have hinc := hn.toIncreasing
  rw [ht] at hinc
  have hmax : Maximal (A.map (·.range) ++ [cur]) ∧ Maximal (cur :: B.map (·.range)) := by
    have h := hn.maximal
    rw [ht, ← List.singleton_append] at h
    exact ⟨List.IsChain.left_of_append (by rw [← List.append_assoc] at h; exact h), h.right_of_append⟩
  refine ⟨⟨⟨?_, ?_, hcount, hnd⟩, ⟨A', ⟨s, r⟩, B', hp', rfl, ?_, ?_⟩⟩, ?_⟩
  · rw [ht']
    exact hinc.replace (increasing_cut hpos) fun q hq => within_cut hr hpos hq
  · intro q hq
    rw [ht'] at hq
    rcases List.mem_append.mp hq with hq | hq
    · rcases List.mem_append.mp hq with hq | hq
      · exact hn.noOverflow q (by rw [ht]; exact List.mem_append_left _ hq)
      · exact le_trans (within_cut hr hpos hq).2 (hn.noOverflow cur (by rw [ht]; simp))
    · exact hn.noOverflow q (by rw [ht]; simp [hq])
  · rw [hA']
    exact maximal_before hmax.1
  · rw [hB']
    exact maximal_after hmax.2
  · intro x
    refine typeAt_retype hn.toIncreasing ht ht' (fun y hy => ?_) (labelAt_cut hr hpos) x
    unfold Holds Range.end at hy ⊢
    unfold Range.end at hr
    omega

/-- What a successful `InsertSubrange(r, it)` leaves: the node `s` holds `r`
and the pool is normalized around it; exactly `r`'s addresses are retyped;
the nodes, linked and unused, are those there were; `s` is `it` or a node
popped from `unused_`; every other node is still linked; and after `s` come
the part of `it`'s range after `r`, if any, and then the nodes that came
after `it`. -/
structure Inserted (p p' : Pool) (r : Range) (it s : Nat) : Prop where
  around : p'.NormalizedAround s
  rangeAt : p'.rangeAt s = r
  typeAt : ∀ x, p'.typeAt x = if Holds Range.addr Range.end r x then some r.type else p.typeAt x
  perm : (p'.slots ++ p'.unused).Perm (p.slots ++ p.unused)
  fresh : s = it ∨ s ∈ p.unused
  keeps : ∀ m ∈ p.ranges, m.slot ≠ it → m ∈ p'.ranges
  tail : ∃ L R, p'.ranges = L ++ ⟨s, r⟩ :: R ∧
    R.map (·.range) = after (p.rangeAt it) r ++ (p.ranges.drop (p.indexOf it + 1)).map (·.range)

/-- What `InsertSubrange` owes, read off the list it leaves: `r` has the node
`s`, between the parts of `cur` before and after it, with the nodes on either
side of `cur`'s kept. -/
theorem inserted_of_cut {p p' : Pool} {A B L R : List Node} {it s : Nat} {cur r : Range}
    (hn : p.Normalized) (hnd : (p.slots ++ p.unused).Nodup) (hp : p.ranges = A ++ ⟨it, cur⟩ :: B)
    (hr : cur.addr ≤ r.addr ∧ r.end ≤ cur.end) (hpos : 0 < r.size)
    (hp' : p'.ranges = L ++ ⟨s, r⟩ :: R) (hL : L.map (·.range) = A.map (·.range) ++ before cur r)
    (hR : R.map (·.range) = after cur r ++ B.map (·.range)) (hAL : A <+: L) (hBR : B <:+ R)
    (hcount : p'.numRanges = p'.ranges.length) (hperm : (p'.slots ++ p'.unused).Perm (p.slots ++ p.unused))
    (hs : s = it ∨ s ∈ p.unused) : Inserted p p' r it s := by
  have hnd' : p'.slots.Nodup := (List.nodup_append.mp (hperm.nodup_iff.mpr hnd)).1
  have hat : p.At A ⟨it, cur⟩ B := at_of_nodup (List.nodup_append.mp hnd).1 hp
  obtain ⟨hround, htype⟩ := normalizedAround_of_cut hn hp hr hpos hp' hL hR hcount hnd'
  have hcur : p.rangeAt it = cur := hat.rangeAt
  have hidx : p.indexOf it = A.length := hat.indexOf
  refine ⟨hround, (at_of_nodup hnd' hp').rangeAt, htype, hperm, hs, fun m hm hms => ?_,
    ⟨L, R, hp', by simp [hR, hcur, hidx, hp]⟩⟩
  -- a node other than `it` lies on one side of it, and that side is kept
  rw [hp']
  rw [hp] at hm
  rcases List.mem_append.mp hm with hm | hm
  · exact List.mem_append_left _ (hAL.subset hm)
  · rcases List.mem_cons.mp hm with rfl | hm
    · exact absurd rfl hms
    · exact List.mem_append_right _ (List.mem_cons_of_mem _ (hBR.subset hm))

/-! The four ways `InsertSubrange(r, it)` can succeed, each with the pool it
leaves, for `r` a non-empty part of the range `cur` of node `it`. -/

section Insert

variable {p : Pool} {A B : List Node} {it : Nat} {cur r : Range}

theorem Normalized.numRanges_eq (hn : p.Normalized) (hp : p.ranges = A ++ ⟨it, cur⟩ :: B) :
    p.numRanges = A.length + B.length + 1 := by
  rw [hn.count, hp, List.length_append, List.length_cons]
  omega

/-! The four ways `InsertSubrange` lays `r` over the range `cur` of the
normalized pool `p`, whose node `it` holds it. -/

variable (hn : p.Normalized) (hnd : (p.slots ++ p.unused).Nodup) (hp : p.ranges = A ++ ⟨it, cur⟩ :: B)
  (hr : cur.addr ≤ r.addr ∧ r.end ≤ cur.end) (hpos : 0 < r.size)
include hn hnd hp hr hpos

/-- All of `cur`: retyped in place. -/
theorem inserted_whole (hw : cur.addr = r.addr ∧ cur.size = r.size) :
    Inserted p (p.modifyRange it fun c => { c with type := r.type }) r it it := by
  have hat : p.At A ⟨it, cur⟩ B := at_of_nodup (List.nodup_append.mp hnd).1 hp
  have hp' := hat.modifyRange fun c => { c with type := r.type }
  have hcur : ({ cur with type := r.type } : Range) = r := by
    cases r
    simp only at hw
    rw [hw.1, hw.2]
  rw [hcur] at hp'
  refine inserted_of_cut hn hnd hp hr hpos hp' ?_ ?_ (List.prefix_refl A) (List.suffix_refl B) ?_ ?_ (.inl rfl)
  · rw [before, if_neg (by omega), List.append_nil]
  · rw [after, if_neg (by simp only [Range.end] at *; omega), List.nil_append]
  · rw [numRanges_modifyRange, hp', hn.numRanges_eq hp, List.length_append, List.length_cons]
    omega
  · rw [slots_modifyRange, unused_modifyRange]

/-- A head of `cur`: a node popped from `unused_` takes `r`, linked before `it`. -/
theorem inserted_head (hh : cur.addr = r.addr)
    (hw : ¬ (cur.addr = r.addr ∧ cur.size = r.size)) {slot : Nat} (hu : p.unused.getLast? = some slot) :
    Inserted p (({ p with unused := p.unused.dropLast }.modifyRange it fun c =>
      { c with addr := c.addr + r.size, size := c.size - r.size }).InsertNodeAt ⟨slot, r⟩ (some it)) r it slot := by
  have hat : p.At A ⟨it, cur⟩ B := at_of_nodup (List.nodup_append.mp hnd).1 hp
  have hunused : p.unused = p.unused.dropLast ++ [slot] := (List.dropLast_append_getLast? slot hu).symm
  have hat₁ : ({ p with unused := p.unused.dropLast } : Pool).At A ⟨it, cur⟩ B := ⟨hat.ranges, hat.left, hat.right⟩
  have hp' := (hat₁.modifyRange_at fun c =>
    { addr := c.addr + r.size, size := c.size - r.size, type := c.type }).insertNodeAt ⟨slot, r⟩
  dsimp only at hp'
  refine inserted_of_cut hn hnd hp hr hpos hp' ?_ ?_ (List.prefix_refl A) (List.suffix_cons _ B) ?_ ?_
    (.inr (List.mem_of_getLast? hu))
  · rw [before, if_neg (by omega), List.append_nil]
  · have hlt : r.end < cur.end := by
      have := hr.2
      simp only [Range.end] at this ⊢
      omega
    rw [after, if_pos hlt, List.map_cons]
    simp only [Range.end, List.singleton_append, List.cons.injEq, Range.mk.injEq, and_true] at hr hlt ⊢
    omega
  · rw [numRanges_insertNodeAt, numRanges_modifyRange, hp', hn.numRanges_eq hp]
    simp only [List.length_append, List.length_cons]
    omega
  · rw [slots, hp', unused_insertNodeAt_some _ (by rw [slots_modifyRange]; exact hat.mem_slots),
      unused_modifyRange, slots, hp, hunused]
    simpa using perm_pop (X := A.map (·.slot)) (Y := it :: B.map (·.slot)) (D := p.unused.dropLast)

/-- A tail of `cur`: a node popped from `unused_` takes `r`, linked after `it`. -/
theorem inserted_tail (hh : ¬ cur.addr = r.addr)
    (ht : r.end = cur.end) {slot : Nat} (hu : p.unused.getLast? = some slot) :
    Inserted p (({ p with unused := p.unused.dropLast }.modifyRange it fun c =>
      { c with size := c.size - r.size }).InsertNodeAt ⟨slot, r⟩ (p.nextOf it)) r it slot := by
  have hslots : p.slots.Nodup := (List.nodup_append.mp hnd).1
  have hat : p.At A ⟨it, cur⟩ B := at_of_nodup hslots hp
  have hunused : p.unused = p.unused.dropLast ++ [slot] := (List.dropLast_append_getLast? slot hu).symm
  have hat₁ : ({ p with unused := p.unused.dropLast } : Pool).At A ⟨it, cur⟩ B := ⟨hat.ranges, hat.left, hat.right⟩
  have hq := hat₁.modifyRange_at fun c => { addr := c.addr, size := c.size - r.size, type := c.type }
  dsimp only at hq
  have hp' := insertNodeAt_after (by rw [slots_modifyRange]; exact hslots) hq.ranges ⟨slot, r⟩
  rw [← List.singleton_append, ← List.append_assoc] at hp'
  rw [hat.nextOf]
  refine inserted_of_cut hn hnd hp hr hpos hp' ?_ ?_ (List.prefix_append A _) (List.suffix_refl B) ?_ ?_
    (.inr (List.mem_of_getLast? hu))
  · have hlt : cur.addr < r.addr := by omega
    rw [before, if_pos hlt, List.map_append]
    simp only [Range.end, List.map_cons, List.map_nil, List.cons.injEq, Range.mk.injEq, and_true,
      true_and, List.append_cancel_left_eq] at ht ⊢
    omega
  · rw [after, if_neg (by omega), List.nil_append]
  · rw [numRanges_insertNodeAt, numRanges_modifyRange, hp', hn.numRanges_eq hp]
    simp only [List.length_append, List.length_cons, List.length_nil]
    omega
  · rw [slots, hp', unused_insertNodeAt_after hq.ranges, unused_modifyRange, slots, hp, hunused]
    simpa using perm_pop (X := A.map (·.slot) ++ [it]) (Y := B.map (·.slot)) (D := p.unused.dropLast)

/-- Strictly inside `cur`: a node popped from `unused_` takes `r` and a second
one the part of `cur` after it, both linked after `it`. -/
theorem inserted_inside (hh : ¬ cur.addr = r.addr)
    (ht : ¬ r.end = cur.end) {slot slot₂ : Nat} (hu : p.unused.getLast? = some slot)
    (hu₂ : p.unused.dropLast.getLast? = some slot₂) :
    Inserted p ((({ p with unused := p.unused.dropLast.dropLast }.modifyRange it fun c =>
      { c with size := r.addr - c.addr }).InsertNodeAt ⟨slot, r⟩ (p.nextOf it)).InsertNodeAt
        ⟨slot₂, ⟨r.end, cur.end - r.end, cur.type⟩⟩ (p.nextOf it)) r it slot := by
  have hslots : p.slots.Nodup := (List.nodup_append.mp hnd).1
  have hat : p.At A ⟨it, cur⟩ B := at_of_nodup hslots hp
  have hunused : p.unused = p.unused.dropLast ++ [slot] := (List.dropLast_append_getLast? slot hu).symm
  have hunused₂ : p.unused.dropLast = p.unused.dropLast.dropLast ++ [slot₂] :=
    (List.dropLast_append_getLast? slot₂ hu₂).symm
  have hat₂ : ({ p with unused := p.unused.dropLast.dropLast } : Pool).At A ⟨it, cur⟩ B :=
    ⟨hat.ranges, hat.left, hat.right⟩
  have hq := hat₂.modifyRange_at fun c => { addr := c.addr, size := r.addr - c.addr, type := c.type }
  dsimp only at hq
  have hp₁ := insertNodeAt_after (by rw [slots_modifyRange]; exact hslots) hq.ranges ⟨slot, r⟩
  rw [← List.singleton_append, ← List.append_assoc] at hp₁
  -- the node just linked is one of the unused ones, so no slot is repeated
  have hnd₁ : (((A ++ [(⟨it, ⟨cur.addr, r.addr - cur.addr, cur.type⟩⟩ : Node)]) ++
      (⟨slot, r⟩ : Node) :: B).map (·.slot)).Nodup := by
    have hperm := perm_pop (X := A.map (·.slot) ++ [it]) (Y := B.map (·.slot)) (s := slot)
      (D := p.unused.dropLast)
    have h := hperm.nodup_iff.mpr (by
      rw [← hunused]
      simpa [slots, hp] using hnd)
    simpa using (List.nodup_append.mp (by simpa using h)).1
  have hp' := insertNodeAt_after (by rw [slots, hp₁]; exact hnd₁) hp₁ ⟨slot₂, ⟨r.end, cur.end - r.end, cur.type⟩⟩
  rw [hat.nextOf]
  refine inserted_of_cut hn hnd hp hr hpos hp' ?_ ?_ (List.prefix_append A _) (List.suffix_cons _ B) ?_ ?_
    (.inr (List.mem_of_getLast? hu))
  · have hlt : cur.addr < r.addr := by omega
    rw [before, if_pos hlt, List.map_append]
    rfl
  · have hlt : r.end < cur.end := by omega
    rw [after, if_pos hlt]
    rfl
  · rw [numRanges_insertNodeAt, numRanges_insertNodeAt, numRanges_modifyRange, hp', hn.numRanges_eq hp]
    simp only [List.length_append, List.length_cons, List.length_nil]
    omega
  · rw [slots, hp', unused_insertNodeAt_after hp₁, unused_insertNodeAt_after hq.ranges,
      unused_modifyRange, slots, hp, hunused, hunused₂]
    simpa using perm_pop₂ (X := A.map (·.slot) ++ [it]) (Y := B.map (·.slot))
      (D := p.unused.dropLast.dropLast) (s := slot) (t := slot₂)

/-- `InsertSubrange(r, it)` on a normalized pool, with `r` a non-empty part of
the range `cur` of node `it`: it succeeds with `r`'s node as `Inserted` says;
or it fails for want of a node, with the ranges as they were and at most the
popped nodes lost. -/
theorem insertSubrange_spec :
    match (InsertSubrange r (some it)).run p with
    | .ok s p' => Inserted p p' r it s
    | .error e p' => e = .failed ∧ p'.ranges = p.ranges ∧ p'.numRanges = p.numRanges ∧
        (p'.slots ++ p'.unused).Sublist (p.slots ++ p.unused) := by
  have hat : p.At A ⟨it, cur⟩ B := at_of_nodup (List.nodup_append.mp hnd).1 hp
  simp only [InsertSubrange, EStateM.run, bind, EStateM.bind, get, getThe, MonadStateOf.get, EStateM.get,
    Option.or, hat.rangeAt, set, MonadStateOf.set, pure, modify, modifyGet, MonadStateOf.modifyGet, NewNode,
    throw, throwThe, MonadExceptOf.throw]
  by_cases hw : cur.addr = r.addr ∧ cur.size = r.size
  · rw [if_pos hw]
    exact inserted_whole hn hnd hp hr hpos hw
  rw [if_neg hw]
  -- the first node popped from `unused_`, for `r`
  cases hu : p.unused.getLast? with
  | none =>
    simp only [EStateM.bind, EStateM.get, hu, EStateM.throw]
    exact ⟨trivial, trivial, trivial, List.Sublist.refl _⟩
  | some slot =>
    simp only [EStateM.bind, EStateM.get, hu, EStateM.set, EStateM.pure]
    by_cases hh : cur.addr = r.addr
    · rw [if_pos hh]
      exact inserted_head hn hnd hp hr hpos hh hw hu
    rw [if_neg hh]
    by_cases ht : r.end = cur.end
    · rw [if_pos ht]
      exact inserted_tail hn hnd hp hr hpos hh ht hu
    rw [if_neg ht]
    -- the second node, for the part of `cur` after `r`
    cases hu₂ : p.unused.dropLast.getLast? with
    | none =>
      simp only [EStateM.bind, EStateM.get, hu₂, EStateM.throw]
      exact ⟨trivial, trivial, trivial, List.Sublist.append_left (List.dropLast_sublist _) _⟩
    | some slot₂ =>
      simp only [EStateM.bind, EStateM.get, hu₂, EStateM.set, EStateM.pure, EStateM.modifyGet]
      exact inserted_inside hn hnd hp hr hpos hh ht hu hu₂

end Insert

/-! ## Merging a node with its neighbours -/

theorem Ordered.toNormalized {p : Pool} (h : p.Ordered) (hmax : Maximal p.tracked) : p.Normalized :=
  ⟨h.increasing.sorted, fun r hr => by have := h.increasing.nonempty r hr; unfold Range.end at this; omega,
    h.noOverflow, hmax, h.count⟩

/-- One range in place of two touching ones that it spans keeps the order. -/
theorem increasing_merge {P S : List Range} {a b m : Range}
    (h : Increasing Range.addr Range.end (P ++ a :: b :: S)) (haddr : m.addr = a.addr) (hend : m.end = b.end) :
    Increasing Range.addr Range.end (P ++ m :: S) := by
  have hsub : (P ++ S).Sublist (P ++ a :: b :: S) := ((List.sublist_cons_self b S).cons a).append_left P
  obtain ⟨ha, hb⟩ := List.pairwise_cons.mp (h.sublist (List.sublist_append_right P _)).sorted
  have hab : a.end ≤ b.addr := ha b List.mem_cons_self
  have hna := h.nonempty a (by simp)
  have hnb := h.nonempty b (by simp)
  apply (h.sublist hsub).insert
  · rw [haddr, hend]
    omega
  · intro i hi
    rw [haddr]
    exact h.le_of_append hi List.mem_cons_self
  · intro i hi
    rw [hend]
    exact (List.pairwise_cons.mp hb).1 i hi

/-- Two touching ranges of one type label the addresses as the range that
spans both does. -/
theorem labelAt_merge {a b m : Range} (htouch : a.end = b.addr) (haddr : m.addr = a.addr)
    (hend : m.end = b.end) (hta : m.type = a.type) (htb : m.type = b.type) (l : List Range) (x : Nat) :
    Runs.labelAt Range.addr Range.end Range.type (m :: l) x =
      Runs.labelAt Range.addr Range.end Range.type (a :: b :: l) x := by
  simp only [Runs.labelAt_cons, ← hta, ← htb]
  unfold Range.end at htouch hend
  by_cases hm : Holds Range.addr Range.end m x
  · rw [if_pos hm]
    by_cases ha : Holds Range.addr Range.end a x
    · rw [if_pos ha]
    · -- past `a`, so in `b`
      have hb : Holds Range.addr Range.end b x := by
        simp only [Holds, Range.end] at hm ha ⊢
        omega
      rw [if_neg ha, if_pos hb]
  · have ha : ¬ Holds Range.addr Range.end a x := by
      simp only [Holds, Range.end] at hm ⊢
      omega
    have hb : ¬ Holds Range.addr Range.end b x := by
      simp only [Holds, Range.end] at hm ⊢
      omega
    rw [if_neg hm, if_neg ha, if_neg hb]

section Merge

variable {p p₁ : Pool} {P S : List Node} {a b m : Node} (hp : p.ranges = P ++ a :: b :: S)
  (hp₁ : p₁.ranges = P ++ m :: S) (haddr : m.range.addr = a.range.addr) (hend : m.range.end = b.range.end)
include hp hp₁ haddr hend

/-- A node `m` in place of the neighbours `a` and `b` that it spans keeps the
pool ordered. -/
theorem ordered_merge (ho : p.Ordered) (hcount : p₁.numRanges = p.numRanges - 1) (hnd : p₁.slots.Nodup) :
    p₁.Ordered := by
  have ht : p.tracked = P.map (·.range) ++ a.range :: b.range :: S.map (·.range) := by simp [tracked, hp]
  have ht₁ : p₁.tracked = P.map (·.range) ++ m.range :: S.map (·.range) := by simp [tracked, hp₁]
  have hinc := ho.increasing
  rw [ht] at hinc
  refine ⟨?_, ?_, ?_, hnd⟩
  · rw [ht₁]
    exact increasing_merge hinc haddr hend
  · intro q hq
    rw [ht₁] at hq
    rcases List.mem_append.mp hq with hq | hq
    · exact ho.noOverflow q (by rw [ht]; exact List.mem_append_left _ hq)
    · rcases List.mem_cons.mp hq with rfl | hq
      · rw [hend]
        exact ho.noOverflow _ (by rw [ht]; simp)
      · exact ho.noOverflow q (by rw [ht]; simp [hq])
  · rw [hcount, ho.count, hp, hp₁]
    simp

/-- When `a` and `b` touch and `m` has their type, no address changes type. -/
theorem typeAt_merge (htouch : a.range.end = b.range.addr) (hta : m.range.type = a.range.type)
    (htb : m.range.type = b.range.type) (x : Nat) : p₁.typeAt x = p.typeAt x := by
  have ht : p.tracked = P.map (·.range) ++ a.range :: b.range :: S.map (·.range) := by simp [tracked, hp]
  have ht₁ : p₁.tracked = P.map (·.range) ++ m.range :: S.map (·.range) := by simp [tracked, hp₁]
  rw [typeAt, typeAt, ht₁, ht, Runs.labelAt_append, Runs.labelAt_append,
    labelAt_merge htouch haddr hend hta htb]

end Merge

/-- What the first half of `Coalesce(it)` does at the node `n`: nothing when
the range before it does not touch it with its type; otherwise the node `q`
before it is unlinked, its slot goes back to `unused_`, and `n` takes its
addresses. -/
theorem coalescePrev_cases {p : Pool} {A B : List Node} {n : Node} (hat : p.At A n B) (hnd : p.slots.Nodup) :
    (p.coalescePrev n.slot = p ∧ ∀ q ∈ A.getLast?, q.range.end = n.range.addr → q.range.type ≠ n.range.type) ∨
    ∃ A' q, A = A' ++ [q] ∧ q.range.type = n.range.type ∧ q.range.end = n.range.addr ∧
      (p.coalescePrev n.slot).ranges =
        A' ++ ⟨n.slot, ⟨q.range.addr, n.range.size + q.range.size, n.range.type⟩⟩ :: B ∧
      (p.coalescePrev n.slot).unused = p.unused ++ [q.slot] ∧
      (p.coalescePrev n.slot).numRanges = p.numRanges - 1 := by
  unfold coalescePrev
  rw [hat.prevOf]
  rcases List.eq_nil_or_concat' A with rfl | ⟨A', q, rfl⟩
  · -- `n` is the first node
    exact .inl ⟨rfl, fun q hq => by simp at hq⟩
  have hatq : p.At A' q (n :: B) := at_of_nodup hnd (by rw [hat.ranges, List.append_assoc]; rfl)
  rw [List.getLast?_concat, Option.map_some]
  dsimp only
  rw [hatq.rangeAt, hat.rangeAt]
  split_ifs with hm
  · have hmod := hat.modifyRange_at fun r => { r with addr := q.range.addr, size := r.size + q.range.size }
    have hatq₁ : (p.modifyRange n.slot fun r => { r with addr := q.range.addr, size := r.size + q.range.size }).At
        A' q (⟨n.slot, ⟨q.range.addr, n.range.size + q.range.size, n.range.type⟩⟩ :: B) :=
      at_of_nodup (by rw [slots_modifyRange]; exact hnd) (by rw [hmod.ranges, List.append_assoc]; rfl)
    exact .inr ⟨A', q, rfl, hm.1, hm.2, hatq₁.removeNodeAt, rfl, rfl⟩
  · refine .inl ⟨rfl, fun q' hq' he ht => ?_⟩
    obtain rfl := Option.mem_some_iff.mp hq'
    exact hm ⟨ht, he⟩

/-- What the second half of `Coalesce(it)` does at the node `n`: nothing when
the range after it does not touch it with its type; otherwise the node `b`
after it is unlinked, its slot goes back to `unused_`, and `n` takes its
addresses. -/
theorem coalesceNext_cases {p : Pool} {A B : List Node} {n : Node} (hat : p.At A n B) (hnd : p.slots.Nodup) :
    (p.coalesceNext n.slot = p ∧ ∀ b ∈ B.head?, n.range.end = b.range.addr → n.range.type ≠ b.range.type) ∨
    ∃ b B', B = b :: B' ∧ b.range.type = n.range.type ∧ n.range.end = b.range.addr ∧
      (p.coalesceNext n.slot).ranges =
        A ++ ⟨n.slot, ⟨n.range.addr, n.range.size + b.range.size, n.range.type⟩⟩ :: B' ∧
      (p.coalesceNext n.slot).unused = p.unused ++ [b.slot] ∧
      (p.coalesceNext n.slot).numRanges = p.numRanges - 1 := by
  unfold coalesceNext
  rw [hat.nextOf]
  cases B with
  | nil =>
    -- `n` is the last node
    exact .inl ⟨rfl, fun b hb => by simp at hb⟩
  | cons b B =>
    have hatb : p.At (A ++ [n]) b B := at_of_nodup hnd (by rw [hat.ranges, List.append_assoc]; rfl)
    rw [List.head?_cons, Option.map_some]
    dsimp only
    rw [hatb.rangeAt, hat.rangeAt]
    split_ifs with hm
    · have hmod := hat.modifyRange_at fun r => { r with size := r.size + b.range.size }
      have hatb₁ : (p.modifyRange n.slot fun r => { r with size := r.size + b.range.size }).At
          (A ++ [⟨n.slot, ⟨n.range.addr, n.range.size + b.range.size, n.range.type⟩⟩]) b B :=
        at_of_nodup (by rw [slots_modifyRange]; exact hnd) (by rw [hmod.ranges, List.append_assoc]; rfl)
      have hp₁ := hatb₁.removeNodeAt
      rw [List.append_assoc, List.singleton_append] at hp₁
      exact .inr ⟨b, B, rfl, hm.1, hm.2, hp₁, rfl, rfl⟩
    · refine .inl ⟨rfl, fun b' hb' he ht => ?_⟩
      obtain rfl := Option.mem_some_iff.mp hb'
      exact hm ⟨ht.symm, he⟩

/-- The first half of `Coalesce(it)` leaves the pool normalized up to `it`,
with no address retyped and the merged node's slot back in `unused_`. -/
theorem coalescePrev_spec {p : Pool} {s : Nat} (h : p.NormalizedAround s) :
    (p.coalescePrev s).NormalizedBefore s ∧ (∀ x, (p.coalescePrev s).typeAt x = p.typeAt x) ∧
      ((p.coalescePrev s).slots ++ (p.coalescePrev s).unused).Perm (p.slots ++ p.unused) := by
  obtain ⟨A, n, B, hp, rfl, hA, hB⟩ := h.split
  rcases coalescePrev_cases (at_of_nodup h.nodup hp) h.nodup with
    ⟨heq, hlast⟩ | ⟨A, q, rfl, hty, htouch, hp₁, hu₁, hc₁⟩
  · -- the range before `n` does not touch it with its type
    rw [heq]
    refine ⟨⟨h.toOrdered, ⟨A, n, B, hp, rfl, ?_, hB⟩⟩, fun _ => rfl, List.Perm.refl _⟩
    rw [Maximal, List.isChain_append]
    refine ⟨hA, List.isChain_singleton _, fun c hc d hd => ?_⟩
    rw [List.getLast?_map] at hc
    obtain ⟨q, hq, rfl⟩ := Option.mem_map.mp hc
    obtain rfl := Option.mem_some_iff.mp hd
    exact hlast q hq
  · -- `q` touches `n` with its type: `n` takes `q`'s addresses
    have hp₀ : p.ranges = A ++ q :: n :: B := by rw [hp, List.append_assoc]; rfl
    have hA' : Maximal (A.map (·.range) ++ [q.range]) := by simpa using hA
    have hend : (⟨q.range.addr, n.range.size + q.range.size, n.range.type⟩ : Range).end = n.range.end := by
      simp only [Range.end] at htouch ⊢
      omega
    have hnd₁ : (A.map (·.slot) ++ n.slot :: B.map (·.slot)).Nodup :=
      h.nodup.sublist (by rw [slots, hp₀]; simp)
    refine ⟨⟨ordered_merge hp₀ hp₁ rfl hend h.toOrdered hc₁ (by rw [slots, hp₁]; simpa using hnd₁),
      ⟨A, _, B, hp₁, rfl, maximal_snoc_congr hA' rfl hty.symm, hB⟩⟩,
      typeAt_merge hp₀ hp₁ rfl hend htouch hty.symm rfl, ?_⟩
    rw [slots, slots, hp₁, hu₁, hp₀]
    simpa using (perm_pop (X := A.map (·.slot)) (Y := n.slot :: B.map (·.slot)) (D := p.unused)).symm

/-- The second half of `Coalesce(it)` leaves the pool normalized, with no
address retyped and the merged node's slot back in `unused_`. -/
theorem coalesceNext_spec {p : Pool} {s : Nat} (h : p.NormalizedBefore s) :
    (p.coalesceNext s).Normalized ∧ (∀ x, (p.coalesceNext s).typeAt x = p.typeAt x) ∧
      ((p.coalesceNext s).slots ++ (p.coalesceNext s).unused).Perm (p.slots ++ p.unused) := by
  obtain ⟨A, n, B, hp, rfl, hA, hB⟩ := h.split
  have ht : p.tracked = A.map (·.range) ++ n.range :: B.map (·.range) := by simp [tracked, hp]
  rcases coalesceNext_cases (at_of_nodup h.nodup hp) h.nodup with
    ⟨heq, hfirst⟩ | ⟨b, B, rfl, hty, htouch, hp₁, hu₁, hc₁⟩
  · -- the range after `n` does not touch it with its type
    rw [heq]
    refine ⟨h.toOrdered.toNormalized ?_, fun _ => rfl, List.Perm.refl _⟩
    rw [ht]
    cases B with
    | nil => exact hA
    | cons b B => exact maximal_join hA (List.isChain_cons_cons.mpr ⟨hfirst b rfl, hB⟩)
  · -- `b` touches `n` with its type: `n` takes `b`'s addresses
    have hB' : Maximal (b.range :: B.map (·.range)) := hB
    have hend : (⟨n.range.addr, n.range.size + b.range.size, n.range.type⟩ : Range).end = b.range.end := by
      simp only [Range.end] at htouch ⊢
      omega
    have hnd₁ : (A.map (·.slot) ++ n.slot :: B.map (·.slot)).Nodup :=
      h.nodup.sublist (by rw [slots, hp]; simp)
    refine ⟨Ordered.toNormalized (ordered_merge hp hp₁ rfl hend h.toOrdered hc₁
      (by rw [slots, hp₁]; simpa using hnd₁)) ?_, typeAt_merge hp hp₁ rfl hend htouch rfl hty.symm, ?_⟩
    · rw [tracked, hp₁, List.map_append, List.map_cons]
      exact maximal_join (maximal_snoc_congr hA rfl rfl) (maximal_cons_congr hB' hend hty.symm)
    · rw [slots, slots, hp₁, hu₁, hp]
      simpa using (perm_pop (X := A.map (·.slot) ++ [n.slot]) (Y := B.map (·.slot)) (D := p.unused)).symm

/-- The first half of `Coalesce` keeps every node but `n` linked, save the
one it merges into `n`, which has `n`'s type and goes back to `unused_`. -/
theorem coalescePrev_keeps {p : Pool} {A B : List Node} {n : Node} (hat : p.At A n B) (hnd : p.slots.Nodup)
    {m : Node} (hm : m ∈ p.ranges) (hms : m.slot ≠ n.slot) :
    m ∈ (p.coalescePrev n.slot).ranges ∨
      (m.range.type = n.range.type ∧ m.slot ∈ (p.coalescePrev n.slot).unused) := by
  rcases coalescePrev_cases hat hnd with ⟨heq, -⟩ | ⟨A, q, rfl, hty, -, hp₁, hu₁, -⟩
  · rw [heq]
    exact .inl hm
  · rw [hat.ranges] at hm
    rw [hp₁, hu₁]
    rcases List.mem_append.mp hm with hm | hm
    · rcases List.mem_append.mp hm with hm | hm
      · exact .inl (List.mem_append_left _ hm)
      · obtain rfl := List.mem_singleton.mp hm
        exact .inr ⟨hty, List.mem_append_right _ (List.mem_singleton_self _)⟩
    · rcases List.mem_cons.mp hm with rfl | hm
      · exact absurd rfl hms
      · exact .inl (List.mem_append_right _ (List.mem_cons_of_mem _ hm))

/-- The same for the second half. -/
theorem coalesceNext_keeps {p : Pool} {A B : List Node} {n : Node} (hat : p.At A n B) (hnd : p.slots.Nodup)
    {m : Node} (hm : m ∈ p.ranges) (hms : m.slot ≠ n.slot) :
    m ∈ (p.coalesceNext n.slot).ranges ∨
      (m.range.type = n.range.type ∧ m.slot ∈ (p.coalesceNext n.slot).unused) := by
  rcases coalesceNext_cases hat hnd with ⟨heq, -⟩ | ⟨b, B, rfl, hty, -, hp₁, hu₁, -⟩
  · rw [heq]
    exact .inl hm
  · rw [hat.ranges] at hm
    rw [hp₁, hu₁]
    rcases List.mem_append.mp hm with hm | hm
    · exact .inl (List.mem_append_left _ hm)
    · rcases List.mem_cons.mp hm with rfl | hm
      · exact absurd rfl hms
      · rcases List.mem_cons.mp hm with rfl | hm
        · exact .inr ⟨hty, List.mem_append_right _ (List.mem_singleton_self _)⟩
        · exact .inl (List.mem_append_right _ (List.mem_cons_of_mem _ hm))


theorem unused_coalesceNext {p : Pool} {A B : List Node} {n : Node} (hat : p.At A n B) (hnd : p.slots.Nodup) :
    p.unused <+: (p.coalesceNext n.slot).unused := by
  rcases coalesceNext_cases hat hnd with ⟨heq, -⟩ | ⟨b, B, rfl, -, -, -, hu₁, -⟩
  · rw [heq]
  · rw [hu₁]
    exact List.prefix_append _ _

/-- The node `n` keeps its type through the first half of `Coalesce`. -/
theorem type_coalescePrev {p : Pool} {A B : List Node} {n : Node} (hat : p.At A n B) (hnd : p.slots.Nodup)
    (hnd₁ : (p.coalescePrev n.slot).slots.Nodup) : ((p.coalescePrev n.slot).rangeAt n.slot).type = n.range.type := by
  rcases coalescePrev_cases hat hnd with ⟨heq, -⟩ | ⟨A, q, rfl, -, -, hp₁, -, -⟩
  · rw [heq, hat.rangeAt]
  · rw [(at_of_nodup hnd₁ hp₁).rangeAt]

/-- `Coalesce(it)` after `InsertSubrange`: the pool is normalized again, no
address changes type, and the nodes are those there were. -/
theorem coalesce_spec {p : Pool} {s : Nat} (h : p.NormalizedAround s) :
    (p.Coalesce s).Normalized ∧ (∀ x, (p.Coalesce s).typeAt x = p.typeAt x) ∧
      ((p.Coalesce s).slots ++ (p.Coalesce s).unused).Perm (p.slots ++ p.unused) := by
  obtain ⟨h₁, ht₁, hp₁⟩ := coalescePrev_spec h
  obtain ⟨h₂, ht₂, hp₂⟩ := coalesceNext_spec h₁
  exact ⟨h₂, fun x => (ht₂ x).trans (ht₁ x), hp₂.trans hp₁⟩

/-- `Coalesce(it)` keeps every node but `it` linked, save those it merges into
`it`, which have `it`'s type and go back to `unused_`. -/
theorem coalesce_keeps {p : Pool} {s : Nat} (h : p.NormalizedAround s) {m : Node} (hm : m ∈ p.ranges)
    (hms : m.slot ≠ s) :
    m ∈ (p.Coalesce s).ranges ∨ (m.range.type = (p.rangeAt s).type ∧ m.slot ∈ (p.Coalesce s).unused) := by
  obtain ⟨A, n, B, hp, rfl, -, -⟩ := h.split
  have hat := at_of_nodup h.nodup hp
  have h₁ := (coalescePrev_spec h).1
  obtain ⟨A₁, n₁, B₁, hp₁, hs₁, -, -⟩ := h₁.split
  have hat₁ := at_of_nodup h₁.nodup hp₁
  -- the node at `n.slot` after the first half still has `n`'s type
  have hr₁ : (p.coalescePrev n.slot).rangeAt n.slot = n₁.range := by rw [← hat₁.rangeAt, hs₁]
  have ht₁ : n₁.range.type = n.range.type := by
    rw [← hr₁]
    exact type_coalescePrev hat h.nodup h₁.nodup
  have hnext := coalesceNext_keeps hat₁ h₁.nodup (m := m)
  have hunused := unused_coalesceNext hat₁ h₁.nodup
  rw [hs₁] at hnext hunused
  rw [hat.rangeAt, Coalesce]
  rcases coalescePrev_keeps hat h.nodup hm hms with hm₁ | ⟨hty, hu⟩
  · rcases hnext hm₁ hms with hm₂ | ⟨hty₂, hu₂⟩
    · exact .inl hm₂
    · exact .inr ⟨hty₂.trans ht₁, hu₂⟩
  · exact .inr ⟨hty, hunused.subset hu⟩

/-- The first half of `Coalesce` at the node `⟨s, r⟩` leaves it where it was,
with its type and its end, starting where `r` does or further down. -/
theorem coalescePrev_at {p : Pool} {L R : List Node} {s : Nat} {r : Range} (hat : p.At L ⟨s, r⟩ R)
    (hnd : p.slots.Nodup) :
    ∃ L' m, (p.coalescePrev s).ranges = L' ++ ⟨s, m⟩ :: R ∧ m.addr ≤ r.addr ∧ m.end = r.end ∧ m.type = r.type := by
  rcases coalescePrev_cases hat hnd with ⟨heq, -⟩ | ⟨L', q, -, -, htouch, hp₁, -, -⟩
  · have heq : p.coalescePrev s = p := heq
    exact ⟨L, r, by rw [heq]; exact hat.ranges, le_rfl, rfl, rfl⟩
  · refine ⟨L', _, hp₁, ?_, ?_, rfl⟩
    · exact show q.range.addr ≤ r.addr by simp only [Range.end] at htouch; omega
    · simp only [Range.end] at htouch ⊢
      omega

/-- The second half of `Coalesce` at the node `⟨s, r⟩` leaves it where it
was, with its type and its start, ending where `r` does or further up; the
nodes after it are those that were, or all but the first. -/
theorem coalesceNext_at {p : Pool} {L R : List Node} {s : Nat} {r : Range} (hat : p.At L ⟨s, r⟩ R)
    (hnd : p.slots.Nodup) :
    ∃ m R', (p.coalesceNext s).ranges = L ++ ⟨s, m⟩ :: R' ∧ m.addr = r.addr ∧ r.end ≤ m.end ∧
      m.type = r.type ∧ R' <:+ R := by
  rcases coalesceNext_cases hat hnd with ⟨heq, -⟩ | ⟨b, R', rfl, -, -, hp₁, -, -⟩
  · have heq : p.coalesceNext s = p := heq
    exact ⟨r, R, by rw [heq]; exact hat.ranges, rfl, le_rfl, rfl, List.suffix_refl R⟩
  · refine ⟨_, R', hp₁, rfl, ?_, rfl, List.suffix_cons b R'⟩
    simp only [Range.end]
    omega

/-- `Coalesce(s)` after `InsertSubrange`: the node `s` still holds its type,
over a range that takes in its own, and the nodes after it are those that
were, or all but the first. -/
theorem coalesce_at {p : Pool} {L R : List Node} {s : Nat} {r : Range} (h : p.NormalizedAround s)
    (hp : p.ranges = L ++ ⟨s, r⟩ :: R) :
    ∃ L' m R', (p.Coalesce s).ranges = L' ++ ⟨s, m⟩ :: R' ∧ m.addr ≤ r.addr ∧ r.end ≤ m.end ∧
      m.type = r.type ∧ R' <:+ R := by
  obtain ⟨L₁, m₁, hp₁, ha₁, he₁, ht₁⟩ := coalescePrev_at (at_of_nodup h.nodup hp) h.nodup
  have hnd₁ := (coalescePrev_spec h).1.nodup
  obtain ⟨m, R', hp₂, ha, he, ht, hR⟩ := coalesceNext_at (at_of_nodup hnd₁ hp₁) hnd₁
  exact ⟨L₁, m, R', hp₂, ha ▸ ha₁, he₁ ▸ he, ht.trans ht₁, hR⟩

/-- In a normalized pool, the ranges before a node end where or before it
starts, and those after it start where or after it ends. -/
theorem Normalized.around {p : Pool} (hn : p.Normalized) {L R : List Node} {n : Node}
    (hp : p.ranges = L ++ n :: R) :
    (∀ q ∈ L, q.range.end ≤ n.range.addr) ∧ ∀ q ∈ R, n.range.end ≤ q.range.addr := by
  have hinc := hn.increasing
  rw [tracked, hp, List.map_append, List.map_cons, List.pairwise_append, List.pairwise_cons] at hinc
  exact ⟨fun q hq => hinc.2.2 _ (List.mem_map_of_mem hq) _ List.mem_cons_self,
    fun q hq => hinc.2.1.1 _ (List.mem_map_of_mem hq)⟩

end Pool

end Zircon.Memalloc
