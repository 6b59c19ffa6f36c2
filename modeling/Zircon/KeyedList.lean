import Mathlib

/-!
# Lists of records named by a key

A list whose records carry distinct keys can be read and edited at one record
by its key: the position of the first record with that key, the record
itself, its neighbours, an update of the records with that key, an insertion
before it and its removal. Code that keeps a list of nodes and names them by
pointer does all of these, and the lemmas here say what each does to a list
split as `A ++ a :: B` around the record `a`, when no record of `A` (and, for
an update, none of `B`) has `a`'s key.
-/

namespace Zircon.KeyedList

variable {α κ : Type*} [DecidableEq κ] {key : α → κ} {A B : List α} {a : α}

/-- The record `a` is the first with its key. -/
theorem findIdx_key (hA : key a ∉ A.map key) : (A ++ a :: B).findIdx (key · == key a) = A.length := by
  induction A with
  | nil => simp [List.findIdx_cons]
  | cons b A ih =>
    have hb : key b ≠ key a := fun h => hA (h ▸ List.mem_cons_self)
    rw [List.cons_append, List.findIdx_cons, ih (fun h => hA (List.mem_cons_of_mem _ h)),
      beq_eq_false_iff_ne.mpr hb, cond_false, List.length_cons]

theorem find?_key (hA : key a ∉ A.map key) : (A ++ a :: B).find? (key · == key a) = some a := by
  rw [List.find?_append, List.find?_eq_none.mpr, Option.none_or]
  · simp
  · intro b hb h
    exact hA (List.mem_map.mpr ⟨b, hb, (beq_iff_eq.mp h)⟩)

/-- Updating the records with `a`'s key updates `a` alone. -/
theorem map_update (f : α → α) (hA : key a ∉ A.map key) (hB : key a ∉ B.map key) :
    (A ++ a :: B).map (fun b => if key b = key a then f b else b) = A ++ f a :: B := by
  have hid : ∀ l : List α, key a ∉ l.map key → l.map (fun b => if key b = key a then f b else b) = l := by
    intro l hl
    exact (List.map_congr_left fun b hb => if_neg fun h => hl (List.mem_map.mpr ⟨b, hb, h⟩)).trans
      (List.map_id l)
  rw [List.map_append, List.map_cons, hid A hA, hid B hB, if_pos rfl]

/-- The record after `a`. -/
theorem getElem?_next : (A ++ a :: B)[A.length + 1]? = B.head? := by
  rw [List.getElem?_append_right (by omega), show A.length + 1 - A.length = 0 + 1 by omega,
    List.getElem?_cons_succ, List.head?_eq_getElem?]

/-- The record before `a`, when there is one. -/
theorem getElem?_prev (hA : A ≠ []) : (A ++ a :: B)[A.length - 1]? = A.getLast? := by
  have hlen : A.length - 1 < A.length := by
    have := List.length_pos_iff.mpr hA
    omega
  rw [List.getElem?_append_left hlen, List.getLast?_eq_getElem?]

/-- Inserting at the position of `a` puts the new record right before it. -/
theorem insertIdx_length (x : α) (L : List α) : (A ++ L).insertIdx A.length x = A ++ x :: L := by
  induction A with
  | nil => simp
  | cons b A ih => rw [List.cons_append, List.length_cons, List.insertIdx_succ_cons, ih, List.cons_append]

/-- Removing at the position of `a` removes `a`. -/
theorem eraseIdx_length : (A ++ a :: B).eraseIdx A.length = A ++ B := by
  rw [List.eraseIdx_append_of_length_le (le_refl _), Nat.sub_self, List.eraseIdx_cons_zero]

end Zircon.KeyedList
