import Zircon.Bitmap.Clear

/-!
# The operations of `RleBitmap`, one after another

`Set` and `Clear` take an element from `new` when they need one, and
`SetNoAlloc` and `ClearNoAlloc` from a caller's free list, which must not be
null; `ClearAll` empties the bitmap. Each keeps the representation invariant,
and each either succeeds and does to the bits what it says, or returns an
error and leaves the bitmap as it was. It fails only where it needed an
element and had none to take (`ZX_ERR_NO_MEMORY`), or for arguments it refuses
(`ZX_ERR_INVALID_ARGS`). Over a whole sequence of calls the bitmap then holds
the bits that the same calls, made on a plain set of bits, leave there, where
a call that failed does nothing; with elements to take and arguments accepted,
that is every call.
-/

namespace Zircon.Bitmap

open Runs

namespace RleBitmap

theorem setInternal_wellFormed {b : RleBitmap} {bitoff bitmax : Nat} (h : b.WellFormed) (hmax : bitmax < 2 ^ 64)
    (freeList : FreeList) (newOk : Bool) : (b.SetInternal bitoff bitmax freeList newOk).1.WellFormed := by
  rcases setInternal_spec h hmax freeList newOk with ⟨-, hw, -⟩ | ⟨-, he⟩
  · exact hw
  · rw [he]
    exact h

theorem clearInternal_wellFormed {b : RleBitmap} {bitoff bitmax : Nat} (h : b.WellFormed) (freeList : FreeList) (newOk : Bool) :
    (b.ClearInternal bitoff bitmax freeList newOk).1.WellFormed := by
  rcases clearInternal_spec h bitoff bitmax freeList newOk with ⟨-, hw, -⟩ | ⟨-, he⟩
  · exact hw
  · rw [he]
    exact h

/-- The bitmaps that `Set`, `SetNoAlloc`, `Clear`, `ClearNoAlloc` and
`ClearAll` reach from an empty one, with `size_t` arguments. -/
inductive Reachable : RleBitmap → Prop
  | empty : Reachable empty
  | set {b : RleBitmap} (bitoff bitmax : Nat) (newOk : Bool) (hmax : bitmax < 2 ^ 64) :
      Reachable b → Reachable (b.Set bitoff bitmax newOk).1
  | setNoAlloc {b : RleBitmap} (bitoff bitmax : Nat) (freeList : FreeList) (hmax : bitmax < 2 ^ 64) :
      Reachable b → Reachable (b.SetNoAlloc bitoff bitmax freeList).1
  | clear {b : RleBitmap} (bitoff bitmax : Nat) (newOk : Bool) :
      Reachable b → Reachable (b.Clear bitoff bitmax newOk).1
  | clearNoAlloc {b : RleBitmap} (bitoff bitmax : Nat) (freeList : FreeList) :
      Reachable b → Reachable (b.ClearNoAlloc bitoff bitmax freeList).1
  | clearAll {b : RleBitmap} : Reachable b → Reachable b.ClearAll

/-- Every reachable bitmap keeps the representation invariant. -/
theorem Reachable.wellFormed {b : RleBitmap} (h : Reachable b) : b.WellFormed := by
  induction h with
  | empty => exact wellFormed_empty
  | set _ _ _ hmax _ ih => exact setInternal_wellFormed ih hmax _ _
  | setNoAlloc _ _ freeList hmax _ ih =>
    cases freeList with
    | none => exact ih
    | some _ => exact setInternal_wellFormed ih hmax _ _
  | clear _ _ _ _ ih => exact clearInternal_wellFormed ih _ _
  | clearNoAlloc _ _ freeList _ ih =>
    cases freeList with
    | none => exact ih
    | some _ => exact clearInternal_wellFormed ih _ _
  | clearAll _ => exact wellFormed_empty


/-! ## Sequences of calls -/

/-- A call on the bitmap. -/
inductive Call where
  | set (bitoff bitmax : Nat) (newOk : Bool)
  | setNoAlloc (bitoff bitmax : Nat) (freeList : FreeList)
  | clear (bitoff bitmax : Nat) (newOk : Bool)
  | clearNoAlloc (bitoff bitmax : Nat) (freeList : FreeList)
  | clearAll

namespace Call

/-- The `bitmax` argument of a call, `0` for `ClearAll`. -/
def bitmax : Call → Nat
  | .set _ bitmax _ | .setNoAlloc _ bitmax _ | .clear _ bitmax _ | .clearNoAlloc _ bitmax _ => bitmax
  | .clearAll => 0

/-- The bitmap after the call, and the status it returns. -/
def apply (b : RleBitmap) : Call → RleBitmap × Status
  | .set bitoff bitmax newOk => b.Set bitoff bitmax newOk
  | .setNoAlloc bitoff bitmax freeList =>
    let r := b.SetNoAlloc bitoff bitmax freeList
    (r.1, r.2.2)
  | .clear bitoff bitmax newOk => b.Clear bitoff bitmax newOk
  | .clearNoAlloc bitoff bitmax freeList =>
    let r := b.ClearNoAlloc bitoff bitmax freeList
    (r.1, r.2.2)
  | .clearAll => (b.ClearAll, .ok)

/-- What the call does to a plain set of bits `S`: `Set` adds `[bitoff, bitmax)`,
`Clear` removes it. -/
def onBits (S : Nat → Prop) : Call → Nat → Prop
  | .set bitoff bitmax _ | .setNoAlloc bitoff bitmax _ => fun x => S x ∨ (bitoff ≤ x ∧ x < bitmax)
  | .clear bitoff bitmax _ | .clearNoAlloc bitoff bitmax _ => fun x => S x ∧ ¬ (bitoff ≤ x ∧ x < bitmax)
  | .clearAll => fun _ => False

/-- The arguments the source accepts: `bitoff ≤ bitmax`, and for the
`NoAlloc` calls a free list that is not null. -/
def argsOk : Call → Bool
  | .set bitoff bitmax _ | .clear bitoff bitmax _ => decide (bitoff ≤ bitmax)
  | .setNoAlloc bitoff bitmax freeList | .clearNoAlloc bitoff bitmax freeList =>
    decide (bitoff ≤ bitmax) && freeList.isSome
  | .clearAll => true

/-- Whether the call can take an element when it needs one: `new` succeeds,
or the caller's free list is not empty. -/
def canAllocate : Call → Bool
  | .set _ _ newOk | .clear _ _ newOk => newOk
  | .setNoAlloc _ _ freeList | .clearNoAlloc _ _ freeList => decide (freeList ≠ some [])
  | .clearAll => true

/-- What a call may return: `ZX_OK`; `ZX_ERR_NO_MEMORY` only where it had no
element to take; `ZX_ERR_INVALID_ARGS` only for arguments it refuses. -/
def Returns (c : Call) (status : Status) : Prop :=
  status = .ok ∨ (status = .noMemory ∧ c.canAllocate = false) ∨ (status = .invalidArgs ∧ c.argsOk = false)

/-- A call with arguments it accepts and an element to take returns `ZX_OK`. -/
theorem Returns.eq_ok {c : Call} {status : Status} (h : c.Returns status) (hargs : c.argsOk = true)
    (halloc : c.canAllocate = true) : status = .ok := by
  rcases h with h | ⟨-, h⟩ | ⟨-, h⟩
  · exact h
  · rw [halloc] at h
    cases h
  · rw [hargs] at h
    cases h

end Call

/-! ## What each call returns -/

/-- A free list that took an element back has one to give. -/
theorem allocateElement_release {freeList : FreeList} {newOk : Bool} (e : Element)
    (h : AllocateElement (ReleaseElement freeList e) newOk = none) : AllocateElement freeList newOk = none := by
  cases freeList with
  | none => exact h
  | some l => cases l <;> simp [ReleaseElement, AllocateElement] at h

/-- The loop of `ClearInternal` runs out of elements only where its free list,
which only grows along the loop, had none to give when it started. -/
theorem clearLoop_status (bitoff bitmax : Nat) (newOk : Bool) :
    ∀ (l : List Element) (numBits numElems : Nat) (freeList : FreeList),
      (clearLoop bitoff bitmax newOk l numBits numElems freeList).2.2.2.2 = .ok ∨
        ((clearLoop bitoff bitmax newOk l numBits numElems freeList).2.2.2.2 = .noMemory ∧
          AllocateElement freeList newOk = none)
  | [], _, _, _ => .inl rfl
  | itr :: rest, numBits, numElems, freeList => by
    rw [clearLoop]
    split_ifs
    · exact clearLoop_status bitoff bitmax newOk rest numBits numElems freeList
    · exact .inl rfl
    · exact clearLoop_status bitoff bitmax newOk rest _ numElems freeList
    · -- the split of `*itr` is the one place an element is taken
      cases AllocateElement freeList newOk with
      | none => exact .inr ⟨rfl, rfl⟩
      | some _ => exact .inl rfl
    · exact .inl rfl
    · rcases clearLoop_status bitoff bitmax newOk rest _ (numElems - 1) (ReleaseElement freeList itr) with
        h | ⟨h, ha⟩
      · exact .inl h
      · exact .inr ⟨h, allocateElement_release itr ha⟩

theorem setInternal_status (b : RleBitmap) (bitoff bitmax : Nat) (freeList : FreeList) (newOk : Bool) :
    (b.SetInternal bitoff bitmax freeList newOk).2.2 = .ok ∨
      ((b.SetInternal bitoff bitmax freeList newOk).2.2 = .noMemory ∧ AllocateElement freeList newOk = none) ∨
      ((b.SetInternal bitoff bitmax freeList newOk).2.2 = .invalidArgs ∧ bitmax < bitoff) := by
  unfold SetInternal
  split_ifs with hlt
  · exact .inr (.inr ⟨rfl, hlt⟩)
  dsimp only
  split_ifs
  · exact .inl rfl
  -- an element is taken before the list is looked at
  cases AllocateElement freeList newOk with
  | none => exact .inr (.inl ⟨rfl, rfl⟩)
  | some _ =>
    left
    dsimp only
    split <;> rfl

theorem clearInternal_status (b : RleBitmap) (bitoff bitmax : Nat) (freeList : FreeList) (newOk : Bool) :
    (b.ClearInternal bitoff bitmax freeList newOk).2.2 = .ok ∨
      ((b.ClearInternal bitoff bitmax freeList newOk).2.2 = .noMemory ∧ AllocateElement freeList newOk = none) ∨
      ((b.ClearInternal bitoff bitmax freeList newOk).2.2 = .invalidArgs ∧ bitmax < bitoff) := by
  unfold ClearInternal
  split_ifs with hlt
  · exact .inr (.inr ⟨rfl, hlt⟩)
  · exact .inl rfl
  · rcases clearLoop_status bitoff bitmax newOk b.elems b.numBits b.numElems freeList with h | h
    · exact .inl h
    · exact .inr (.inl h)

/-- The element sources of the four calls that take one. -/
theorem allocateElement_none_iff_new {newOk : Bool} : AllocateElement none newOk = none ↔ newOk = false := by
  cases newOk <;> simp [AllocateElement]

theorem allocateElement_none_iff_list {l : List Element} : AllocateElement (some l) false = none ↔ l = [] := by
  cases l <;> simp [AllocateElement]

/-- Every call returns `ZX_OK`, or fails only for want of an element or for
arguments it refuses. -/
theorem Call.returns_apply (b : RleBitmap) (c : Call) : c.Returns (c.apply b).2 := by
  cases c with
  | set bitoff bitmax newOk =>
    rcases setInternal_status b bitoff bitmax none newOk with h | ⟨h, ha⟩ | ⟨h, hlt⟩
    · exact .inl h
    · exact .inr (.inl ⟨h, allocateElement_none_iff_new.mp ha⟩)
    · exact .inr (.inr ⟨h, decide_eq_false (Nat.not_le.mpr hlt)⟩)
  | setNoAlloc bitoff bitmax freeList =>
    cases freeList with
    | none => exact .inr (.inr ⟨rfl, by simp [Call.argsOk]⟩)
    | some l =>
      rcases setInternal_status b bitoff bitmax (some l) false with h | ⟨h, ha⟩ | ⟨h, hlt⟩
      · exact .inl h
      · exact .inr (.inl ⟨h, by simp [Call.canAllocate, allocateElement_none_iff_list.mp ha]⟩)
      · exact .inr (.inr ⟨h, by simp [Call.argsOk, hlt]⟩)
  | clear bitoff bitmax newOk =>
    rcases clearInternal_status b bitoff bitmax none newOk with h | ⟨h, ha⟩ | ⟨h, hlt⟩
    · exact .inl h
    · exact .inr (.inl ⟨h, allocateElement_none_iff_new.mp ha⟩)
    · exact .inr (.inr ⟨h, decide_eq_false (Nat.not_le.mpr hlt)⟩)
  | clearNoAlloc bitoff bitmax freeList =>
    cases freeList with
    | none => exact .inr (.inr ⟨rfl, by simp [Call.argsOk]⟩)
    | some l =>
      rcases clearInternal_status b bitoff bitmax (some l) false with h | ⟨h, ha⟩ | ⟨h, hlt⟩
      · exact .inl h
      · exact .inr (.inl ⟨h, by simp [Call.canAllocate, allocateElement_none_iff_list.mp ha]⟩)
      · exact .inr (.inr ⟨h, by simp [Call.argsOk, hlt]⟩)
  | clearAll => exact .inl rfl

/-- The shape of `setInternal_spec` and `clearInternal_spec`, read as the
outcome of a call. -/
theorem outcome_of_internal {b b' : RleBitmap} {status : Status} {S : Nat → Prop} (h : b.WellFormed)
    (hs : (status = .ok ∧ b'.WellFormed ∧ ∀ x, b'.Bits x ↔ S x) ∨
      ((status = .invalidArgs ∨ status = .noMemory) ∧ b' = b)) :
    b'.WellFormed ∧ ((status = .ok ∧ ∀ x, b'.Bits x ↔ S x) ∨ (status ≠ .ok ∧ b' = b)) := by
  rcases hs with ⟨hst, hw, hbits⟩ | ⟨hst, rfl⟩
  · exact ⟨hw, .inl ⟨hst, hbits⟩⟩
  · refine ⟨h, .inr ⟨?_, rfl⟩⟩
    rcases hst with rfl | rfl <;> decide

/-- One call on a well-formed bitmap, with `bitmax` in `size_t`: the bitmap
keeps the invariant, and the call either succeeds and does to the bits what it
does to a plain set, or returns an error and changes nothing. -/
theorem Call.apply_spec {b : RleBitmap} (h : b.WellFormed) (c : Call) (hc : c.bitmax < 2 ^ 64) :
    (c.apply b).1.WellFormed ∧
      (((c.apply b).2 = .ok ∧ ∀ x, (c.apply b).1.Bits x ↔ c.onBits b.Bits x) ∨
        ((c.apply b).2 ≠ .ok ∧ (c.apply b).1 = b)) := by
  cases c with
  | set bitoff bitmax newOk => exact outcome_of_internal h (setInternal_spec h hc none newOk)
  | setNoAlloc bitoff bitmax freeList =>
    cases freeList with
    | none => exact ⟨h, .inr ⟨(fun hst => by cases hst), rfl⟩⟩
    | some l => exact outcome_of_internal h (setInternal_spec h hc (some l) false)
  | clear bitoff bitmax newOk => exact outcome_of_internal h (clearInternal_spec h bitoff bitmax none newOk)
  | clearNoAlloc bitoff bitmax freeList =>
    cases freeList with
    | none => exact ⟨h, .inr ⟨(fun hst => by cases hst), rfl⟩⟩
    | some l => exact outcome_of_internal h (clearInternal_spec h bitoff bitmax (some l) false)
  | clearAll => exact ⟨wellFormed_empty, .inl ⟨rfl, fun x => by simp [Bits, Call.apply, ClearAll, Call.onBits]⟩⟩

/-- The calls made one after another: the bitmap after them, and the status
each returned. -/
def runCalls (b : RleBitmap) : List Call → RleBitmap × List Status
  | [] => (b, [])
  | c :: cs =>
    let r := runCalls (c.apply b).1 cs
    (r.1, (c.apply b).2 :: r.2)

/-- The same calls made on a plain set of bits `S`, given the status each
returned: a call that returned an error does nothing. -/
def refBits (S : Nat → Prop) : List Call → List Status → Nat → Prop
  | c :: cs, status :: statuses => refBits (if status = .ok then c.onBits S else S) cs statuses
  | _, _ => S

/-- The same calls made on a plain set of bits, each doing what it says. -/
def applyBits (S : Nat → Prop) : List Call → Nat → Prop
  | [] => S
  | c :: cs => applyBits (c.onBits S) cs

/-- Each call of a run, paired with the status it returned. -/
theorem runCalls_returns (b : RleBitmap) (calls : List Call) : List.Forall₂ Call.Returns calls (runCalls b calls).2 := by
  induction calls generalizing b with
  | nil => exact .nil
  | cons c cs ih => exact .cons (c.returns_apply b) (ih _)

/-- Where every call returned `ZX_OK`, the plain set is that of all the calls. -/
theorem refBits_of_ok : ∀ {S : Nat → Prop} {calls : List Call} {statuses : List Status},
    List.Forall₂ (fun _ status => status = .ok) calls statuses → refBits S calls statuses = applyBits S calls
  | _, [], [], .nil => rfl
  | _, _ :: _, _ :: _, .cons h hs => by
    rw [refBits, applyBits, if_pos h]
    exact refBits_of_ok hs

/-- Calls that accept their arguments and have an element to take all return `ZX_OK`. -/
theorem forall₂_ok {calls : List Call} {statuses : List Status} (h : List.Forall₂ Call.Returns calls statuses)
    (hcalls : ∀ c ∈ calls, c.argsOk = true ∧ c.canAllocate = true) :
    List.Forall₂ (fun _ status => status = .ok) calls statuses := by
  induction h with
  | nil => exact .nil
  | cons hc _ ih =>
    have hhead := hcalls _ List.mem_cons_self
    exact .cons (hc.eq_ok hhead.1 hhead.2) (ih fun c hc' => hcalls c (List.mem_cons_of_mem _ hc'))

/-- A run from a well-formed bitmap keeps the invariant, and holds the bits
of the same calls made on a plain set. -/
theorem runCalls_spec {b : RleBitmap} (h : b.WellFormed) (calls : List Call)
    (hcalls : ∀ c ∈ calls, c.bitmax < 2 ^ 64) :
    (runCalls b calls).1.WellFormed ∧
      ∀ x, (runCalls b calls).1.Bits x ↔ refBits b.Bits calls (runCalls b calls).2 x := by
  induction calls generalizing b with
  | nil => exact ⟨h, fun _ => Iff.rfl⟩
  | cons c cs ih =>
    obtain ⟨hw, hout⟩ := c.apply_spec h (hcalls c List.mem_cons_self)
    obtain ⟨hw', hbits'⟩ := ih hw fun c' hc' => hcalls c' (List.mem_cons_of_mem c hc')
    refine ⟨hw', fun x => (hbits' x).trans ?_⟩
    -- the plain set after `c` is the set of bits of the bitmap after `c`
    have hS : (c.apply b).1.Bits = if (c.apply b).2 = .ok then c.onBits b.Bits else b.Bits := by
      funext y
      rcases hout with ⟨hst, hb⟩ | ⟨hst, hb⟩
      · rw [if_pos hst]
        exact propext (hb y)
      · rw [if_neg hst, hb]
    simp only [runCalls, refBits, hS]

/-- **The invariant of `RleBitmap` over every sequence of calls.** From an
empty bitmap, any sequence of `Set`, `SetNoAlloc`, `Clear`, `ClearNoAlloc` and
`ClearAll` with `bitmax` in `size_t` leaves gapped runs with exact counters,
holding the bits that the calls that succeeded leave in a plain set; each call
succeeds unless it had no element to take or refused its arguments, so where
every call accepts its arguments and has an element to take, the bitmap holds
the bits of all the calls made on a plain set; and a call on the bitmap reached
that fails for want of an element changes nothing. -/
theorem runCalls_correct (calls : List Call) (hcalls : ∀ c ∈ calls, c.bitmax < 2 ^ 64) :
    (runCalls empty calls).1.WellFormed ∧
      (∀ x, (runCalls empty calls).1.Bits x ↔ refBits empty.Bits calls (runCalls empty calls).2 x) ∧
      List.Forall₂ Call.Returns calls (runCalls empty calls).2 ∧
      ((∀ c ∈ calls, c.argsOk = true ∧ c.canAllocate = true) →
        ∀ x, (runCalls empty calls).1.Bits x ↔ applyBits empty.Bits calls x) ∧
      ∀ c : Call, c.bitmax < 2 ^ 64 → (c.apply (runCalls empty calls).1).2 = .noMemory →
        (c.apply (runCalls empty calls).1).1 = (runCalls empty calls).1 := by
  obtain ⟨hw, hbits⟩ := runCalls_spec wellFormed_empty calls hcalls
  have hret := runCalls_returns empty calls
  refine ⟨hw, hbits, hret, fun hok x => ?_, fun c hc hst => ?_⟩
  · rw [hbits x, refBits_of_ok (forall₂_ok hret hok)]
  · rcases (c.apply_spec hw hc).2 with ⟨hok, -⟩ | ⟨-, hb⟩
    · rw [hok] at hst
      cases hst
    · exact hb

theorem runCalls_correct_set_clear :
    (∀ c ∈ [Call.set 2 9 true, .clear 4 6 true], c.bitmax < 2 ^ 64) ∧
      ∀ x, (runCalls empty [.set 2 9 true, .clear 4 6 true]).1.Bits x ↔
        applyBits empty.Bits [.set 2 9 true, .clear 4 6 true] x :=
  have hcalls : ∀ c ∈ [Call.set 2 9 true, .clear 4 6 true], c.bitmax < 2 ^ 64 := by decide
  ⟨hcalls, (runCalls_correct _ hcalls).2.2.2.1 (by decide)⟩

end RleBitmap

end Zircon.Bitmap
