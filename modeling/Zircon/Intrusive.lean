import Mathlib
import Zircon.Loop

/-!
# Lists threaded through a `next` field

An intrusive singly linked list keeps each element's successor in the element
itself: `next a` is the element after `a`, and the last element's `next` is a
terminator `t`. `Linked next t l` says that following `next` from the head of
`l` visits `l` in order and then reaches `t`.

The terminator may itself be an element of the list, as when index `0` both
ends a list and is a block on it: the list is then a cycle, and a walk that
follows `next` visits the elements of `l` and no others.

The lemmas are those of a list edited in place: pushing at the head, unlinking
an element by pointing its predecessor past it, and changing `next` away from
the list; and those of a walk along it: what a walk that goes on while a
predicate holds can reach, and where a search for an element's predecessor
stops.
-/

namespace Zircon.Intrusive

variable {α : Type*} (next : α → α) (t : α)

/-- Following `next` from the head of `l` visits `l` in order, then `t`. -/
def Linked : List α → Prop
  | [] => True
  | [a] => next a = t
  | a :: b :: l => next a = b ∧ Linked (b :: l)

variable {next t}

@[simp] theorem linked_nil : Linked next t [] := trivial

@[simp] theorem linked_singleton {a : α} : Linked next t [a] ↔ next a = t := Iff.rfl

@[simp] theorem linked_cons_cons {a b : α} {l : List α} :
    Linked next t (a :: b :: l) ↔ next a = b ∧ Linked next t (b :: l) := Iff.rfl

/-- The successor of the head is the head of the rest, or the terminator. -/
theorem Linked.next_head {a : α} {l : List α} (h : Linked next t (a :: l)) : next a = l.head?.getD t := by
  cases l with
  | nil => exact h
  | cons b l => exact h.1

theorem Linked.tail {a : α} {l : List α} (h : Linked next t (a :: l)) : Linked next t l := by
  cases l with
  | nil => trivial
  | cons b l => exact h.2

theorem linked_cons {a : α} {l : List α} :
    Linked next t (a :: l) ↔ next a = l.head?.getD t ∧ Linked next t l := by
  cases l with
  | nil => simp
  | cons b l => simp

/-- Only `next` on the elements matters. -/
theorem Linked.congr {next' : α → α} {l : List α} (h : Linked next t l) (hnext : ∀ a ∈ l, next' a = next a) :
    Linked next' t l := by
  induction l with
  | nil => trivial
  | cons a l ih =>
    rw [linked_cons] at h ⊢
    exact ⟨(hnext a List.mem_cons_self).trans h.1, ih h.2 fun b hb => hnext b (List.mem_cons_of_mem a hb)⟩

/-- `i` steps from the head reach the `i`-th element. -/
theorem Linked.iterate_head {a : α} {l : List α} (h : Linked next t (a :: l)) {i : Nat}
    (hi : i < (a :: l).length) : next^[i] a = (a :: l)[i] := by
  induction l generalizing a i with
  | nil =>
    obtain rfl : i = 0 := by simpa using hi
    rfl
  | cons b l ih =>
    cases i with
    | zero => rfl
    | succ i =>
      rw [Function.iterate_succ_apply, h.1]
      exact ih h.2 (by simpa using hi)

/-- The successor of an element is an element or the terminator. -/
theorem Linked.next_mem {a : α} {l : List α} (h : Linked next t l) (ha : a ∈ l) : next a ∈ l ∨ next a = t := by
  induction l with
  | nil => cases ha
  | cons b l ih =>
    rcases List.mem_cons.mp ha with rfl | ha
    · rw [h.next_head]
      cases l with
      | nil => exact .inr rfl
      | cons c l => exact .inl (List.mem_cons_of_mem _ List.mem_cons_self)
    · exact (ih h.tail ha).imp_left (List.mem_cons_of_mem b)

/-- A walk from the head that goes on while `P` holds meets exactly the
elements, when `P` holds on them and holds on the terminator only if it is
one. -/
theorem Linked.reach_iff {P : α → Prop} {l : List α} {x : α} (h : Linked next t l) (hP : ∀ a ∈ l, P a)
    (ht : P t → t ∈ l) :
    (∃ j, (∀ i ≤ j, P (next^[i] (l.head?.getD t))) ∧ next^[j] (l.head?.getD t) = x) ↔ x ∈ l := by
  constructor
  · -- every step of such a walk stays in the list
    have hstay : ∀ j, (∀ i ≤ j, P (next^[i] (l.head?.getD t))) → next^[j] (l.head?.getD t) ∈ l := by
      intro j
      induction j with
      | zero =>
        intro hj
        cases l with
        | nil => exact ht (hj 0 (Nat.le_refl _))
        | cons a l => exact List.mem_cons_self
      | succ j ih =>
        intro hj
        have hmem := ih fun i hi => hj i (Nat.le_succ_of_le hi)
        rw [Function.iterate_succ_apply']
        rcases h.next_mem hmem with hnext | hnext
        · exact hnext
        · have hPt := hj (j + 1) (Nat.le_refl _)
          rw [Function.iterate_succ_apply', hnext] at hPt
          rw [hnext]
          exact ht hPt
    rintro ⟨j, hj, rfl⟩
    exact hstay j hj
  · intro hx
    cases l with
    | nil => cases hx
    | cons a l =>
      obtain ⟨i, hi, rfl⟩ := List.getElem_of_mem hx
      refine ⟨i, fun i' hi' => ?_, h.iterate_head hi⟩
      show P (next^[i'] a)
      rw [h.iterate_head (by omega)]
      exact hP _ (List.getElem_mem _)

/-- Pushing `a` at the head with `next a` the old head. -/
theorem Linked.push {next' : α → α} {a : α} {l : List α} (h : Linked next t l)
    (hnext : ∀ b ∈ l, next' b = next b) (ha : next' a = l.head?.getD t) : Linked next' t (a :: l) :=
  linked_cons.mpr ⟨ha, h.congr hnext⟩

/-- A run `a, a + d, ..., a + d * (j - 1)` of indices, each pointing to the
next, ahead of `l`. -/
theorem linked_range'_append {next : Nat → Nat} {t a d j : Nat} {l : List Nat} (hl : Linked next t l)
    (hstep : ∀ i, i + 1 < j → next (a + d * i) = a + d * (i + 1))
    (hlast : 0 < j → next (a + d * (j - 1)) = l.head?.getD t) : Linked next t (List.range' a j d ++ l) := by
  induction j generalizing a with
  | zero => exact hl
  | succ j ih =>
    have hshift : ∀ i, a + d + d * i = a + d * (i + 1) := by
      intro i
      rw [Nat.mul_succ, Nat.add_assoc, Nat.add_comm d]
    rw [List.range'_succ, List.cons_append, linked_cons]
    constructor
    · cases j with
      | zero => simpa using hlast (Nat.succ_pos 0)
      | succ j =>
        rw [List.range'_succ, List.cons_append, List.head?_cons, Option.getD_some]
        simpa using hstep 0 (by omega)
    · refine ih (fun i hi => ?_) (fun hj => ?_)
      · rw [hshift, hshift]
        exact hstep (i + 1) (by omega)
      · obtain ⟨j, rfl⟩ : ∃ j', j = j' + 1 := ⟨j - 1, by omega⟩
        rw [Nat.add_sub_cancel, hshift]
        exact hlast (Nat.succ_pos _)

variable [DecidableEq α]

/-- Unlinking `b` by pointing its predecessor `p` past it. -/
theorem Linked.unlink {l₁ l₂ : List α} {p b : α} (h : Linked next t (l₁ ++ p :: b :: l₂))
    (hnd : (l₁ ++ p :: b :: l₂).Nodup) :
    Linked (Function.update next p (next b)) t (l₁ ++ p :: l₂) := by
  induction l₁ with
  | nil =>
    rw [List.nil_append, linked_cons_cons] at h
    rw [List.nil_append, linked_cons, Function.update_self, h.2.next_head]
    refine ⟨rfl, h.2.tail.congr fun c hc => Function.update_of_ne ?_ _ _⟩
    rintro rfl
    simp only [List.nil_append, List.nodup_cons, List.mem_cons, not_or] at hnd
    exact hnd.1.2 hc
  | cons a l₁ ih =>
    have hpa : a ≠ p := by
      rintro rfl
      simp at hnd
    rw [List.cons_append, linked_cons] at h ⊢
    refine ⟨?_, ih h.2 (List.nodup_cons.mp hnd).2⟩
    rw [Function.update_of_ne hpa, h.1]
    cases l₁ <;> rfl

/-- A walk from the head that goes on while `P` holds and the successor is
not `b` stops at the predecessor `p` of `b`, when `P` holds up to `p`. -/
theorem Linked.run_stop_pred {P : α → Bool} {l₁ l₂ : List α} {p b : α} (h : Linked next t (l₁ ++ p :: b :: l₂))
    (hnd : (l₁ ++ p :: b :: l₂).Nodup) (hP : ∀ a ∈ l₁ ++ [p], P a = true) {fuel : Nat}
    (hfuel : l₁.length < fuel) :
    Loop.run (fun a => P a && next a != b) next fuel ((l₁ ++ p :: b :: l₂).head?.getD t) = some p := by
  obtain ⟨fuel, rfl⟩ : ∃ f, fuel = f + 1 := ⟨fuel - 1, by omega⟩
  induction l₁ generalizing fuel with
  | nil =>
    -- at `p` the successor is `b`
    rw [List.nil_append, linked_cons_cons] at h
    apply Loop.run_succ_of_not_guard
    simp [h.1]
  | cons a l₁ ih =>
    -- `a` comes before `p`, so its successor is not `b`
    have hnext : next a = (l₁ ++ p :: b :: l₂).head?.getD t := (List.cons_append .. ▸ h).next_head
    have hne : next a ≠ b := by
      rw [hnext]
      cases l₁ with
      | nil =>
        intro hpb
        simp only [List.nil_append, List.head?_cons, Option.getD_some] at hpb
        simp [hpb] at hnd
      | cons c l₁ =>
        intro hcb
        simp only [List.cons_append, List.head?_cons, Option.getD_some] at hcb
        simp [hcb] at hnd
    have hguard : (fun x => P x && next x != b) a = true := by
      simp [hP a (by simp), hne]
    obtain ⟨fuel, rfl⟩ : ∃ f, fuel = f + 1 := ⟨fuel - 1, by simp at hfuel; omega⟩
    rw [List.cons_append, List.head?_cons, Option.getD_some,
      @Loop.run_succ_of_guard α (fun x => P x && next x != b) next a hguard, hnext]
    exact ih (List.cons_append .. ▸ h).tail (List.nodup_cons.mp hnd).2
      (fun c hc => hP c (List.mem_cons_of_mem a hc)) fuel (by simp at hfuel; omega)

end Zircon.Intrusive
