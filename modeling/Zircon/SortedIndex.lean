import Mathlib

/-!
# Sorted indices

An intrusive search tree keyed by a function of its elements, read as the
list of its elements in order. Insertion walks down comparing keys and sends
equal keys right, so in the list it goes before the first element whose key
is greater. Lookups (`lower_bound`, `upper_bound`) are `List.span` at a key.

The elements are names of objects and the key is read through them: an
object may be changed while it is in the list, and the list then reads the
new key, as a tree whose node was written through a pointer does.
-/

namespace Zircon.SortedIndex

variable {ι κ : Type*}

/-- Insert `x` before the first element whose key is greater than its own. -/
def insertSorted (lt : κ → κ → Bool) (key : ι → κ) (x : ι) : List ι → List ι
  | [] => [x]
  | y :: ys => if lt (key x) (key y) then x :: y :: ys else y :: insertSorted lt key x ys

variable {lt : κ → κ → Bool} {key : ι → κ}

theorem insertSorted_perm (x : ι) (l : List ι) : (insertSorted lt key x l).Perm (x :: l) := by
  induction l with
  | nil => exact List.Perm.refl _
  | cons y ys ih =>
    unfold insertSorted
    split
    · exact List.Perm.refl _
    · exact (List.Perm.cons y ih).trans (List.Perm.swap x y ys)

theorem mem_insertSorted {x y : ι} {l : List ι} : y ∈ insertSorted lt key x l ↔ y = x ∨ y ∈ l := by
  rw [(insertSorted_perm x l).mem_iff, List.mem_cons]

/-- Insertion reads only the keys of the element and of the list. -/
theorem insertSorted_congr {key' : ι → κ} {x : ι} {l : List ι} (hx : key' x = key x)
    (hl : ∀ y ∈ l, key' y = key y) : insertSorted lt key' x l = insertSorted lt key x l := by
  induction l with
  | nil => rfl
  | cons y ys ih =>
    simp only [insertSorted, hx, hl y List.mem_cons_self,
      ih fun z hz => hl z (List.mem_cons_of_mem y hz)]

/-- Inserting between a prefix of keys not above `x`'s and a suffix that
starts above it. -/
theorem insertSorted_append {x : ι} {P S : List ι} (hP : ∀ y ∈ P, lt (key x) (key y) = false)
    (hS : ∀ y ∈ S.head?, lt (key x) (key y) = true) :
    insertSorted lt key x (P ++ S) = P ++ x :: S := by
  induction P with
  | nil =>
    cases S with
    | nil => rfl
    | cons y ys => simp [insertSorted, hS y rfl]
  | cons y ys ih =>
    have hy : lt (key x) (key y) = false := hP y List.mem_cons_self
    simp only [List.cons_append, insertSorted, hy, Bool.false_eq_true, ↓reduceIte,
      ih fun z hz => hP z (List.mem_cons_of_mem y hz)]

/-- The keys strictly increase along the list: the in-order reading of a
search tree with distinct keys. -/
def Sorted (lt : κ → κ → Bool) (key : ι → κ) (l : List ι) : Prop :=
  l.Pairwise fun i j => lt (key i) (key j) = true

theorem sorted_nil : Sorted lt key [] := List.Pairwise.nil

theorem Sorted.sublist {l l' : List ι} (h : Sorted lt key l) (hs : l'.Sublist l) :
    Sorted lt key l' :=
  List.Pairwise.sublist hs h

/-- The keys of a list's members are all it is sorted by. -/
theorem Sorted.congr {key' : ι → κ} {l : List ι} (h : Sorted lt key l)
    (hk : ∀ i ∈ l, key' i = key i) : Sorted lt key' l :=
  List.Pairwise.imp_of_mem (fun hi hj hij => by rw [hk _ hi, hk _ hj]; exact hij) h

/-- Inserting a key that compares with every key of a sorted list, under a
transitive order, keeps it sorted. -/
theorem sorted_insertSorted (htrans : ∀ a b c, lt a b = true → lt b c = true → lt a c = true)
    {x : ι} {l : List ι} (h : Sorted lt key l)
    (htot : ∀ y ∈ l, lt (key x) (key y) = false → lt (key y) (key x) = true) :
    Sorted lt key (insertSorted lt key x l) := by
  induction l with
  | nil => exact List.pairwise_singleton _ x
  | cons y ys ih =>
    have hy := List.pairwise_cons.mp h
    unfold insertSorted
    split
    · next hxy =>
      refine List.Pairwise.cons (fun z hz => ?_) h
      rcases List.mem_cons.mp hz with rfl | hz
      · exact hxy
      · exact htrans _ _ _ hxy (hy.1 z hz)
    · next hxy =>
      refine List.Pairwise.cons (fun z hz => ?_)
        (ih hy.2 fun z hz => htot z (List.mem_cons_of_mem y hz))
      rcases mem_insertSorted.mp hz with rfl | hz
      · exact htot y List.mem_cons_self (Bool.eq_false_iff.mpr hxy)
      · exact hy.1 z hz

/-- A lookup by a predicate that, along the list, once false stays false:
`List.span` splits it into the members that satisfy it and those that do
not. -/
theorem span_spec {p : ι → Bool} {l : List ι} (h : l.Pairwise fun i j => p j = true → p i = true) :
    l = (l.span p).1 ++ (l.span p).2 ∧ (∀ i ∈ (l.span p).1, p i = true) ∧
      ∀ i ∈ (l.span p).2, p i = false := by
  rw [List.span_eq_takeWhile_dropWhile]
  refine ⟨List.takeWhile_append_dropWhile.symm, fun i hi => List.mem_takeWhile_imp hi, ?_⟩
  intro i hi
  -- the first member left fails `p`, and all after it would pass on it back
  obtain ⟨d, D, hdD⟩ : ∃ d D, l.dropWhile p = d :: D := by
    cases hD : l.dropWhile p with
    | nil => rw [hD] at hi; cases hi
    | cons d D => exact ⟨d, D, rfl⟩
  have hd : p d = false := by
    have := List.head_dropWhile_not p (l := l) (by rw [hdD]; exact List.cons_ne_nil d D)
    simpa [hdD] using this
  have hsuf : (d :: D).Sublist l := hdD ▸ (List.dropWhile_suffix p).sublist
  rw [hdD] at hi
  rcases List.mem_cons.mp hi with rfl | hi
  · exact hd
  · exact Bool.eq_false_iff.mpr fun hpi =>
      absurd ((List.pairwise_cons.mp (h.sublist hsuf)).1 i hi hpi) (by simp [hd])

/-- What `lower_bound` leaves of a sorted list: nothing below the key. -/
theorem Sorted.not_lt_of_mem_dropWhile (htrans : ∀ a b c, lt a b = true → lt b c = true → lt a c = true)
    {l : List ι} (h : Sorted lt key l) {k : κ} {i : ι} (hi : i ∈ l.dropWhile fun j => lt (key j) k) :
    lt (key i) k = false := by
  have hspan := span_spec (p := fun j => lt (key j) k) (h.imp fun hij hjk => htrans _ _ _ hij hjk)
  rw [List.span_eq_takeWhile_dropWhile] at hspan
  exact hspan.2.2 i hi

/-! ## The value an observer keeps

A tree augmented by an observer keeps at each node the best of its subtree's
values; at the root that is the best of all its members, read here as a fold
from the right. -/

section Best

variable {β : Type*}

/-- The best of the members' values under `better`, starting from `init`. -/
def bestOf (better : β → β → Bool) (f : ι → β) (init : β) (l : List ι) : β :=
  l.foldr (fun x best => if better (f x) best then f x else best) init

/-- Under an irreflexive, transitive `better`, no member's value beats the
best, and the best is `init` or a member's value. -/
theorem bestOf_spec {better : β → β → Bool} (hirr : ∀ a, better a a = false)
    (htrans : ∀ a b c, better a b = true → better b c = true → better a c = true)
    (f : ι → β) (init : β) (l : List ι) :
    (bestOf better f init l = init ∨ ∃ x ∈ l, f x = bestOf better f init l) ∧
      ∀ x ∈ l, better (f x) (bestOf better f init l) = false := by
  induction l with
  | nil => exact ⟨.inl rfl, fun x hx => absurd hx List.not_mem_nil⟩
  | cons y ys ih =>
    obtain ⟨hfrom, hbest⟩ := ih
    have hstep : bestOf better f init (y :: ys) =
        if better (f y) (bestOf better f init ys) then f y else bestOf better f init ys := rfl
    rw [hstep]
    split
    · next hy =>
      refine ⟨.inr ⟨y, List.mem_cons_self, rfl⟩, fun x hx => ?_⟩
      rcases List.mem_cons.mp hx with rfl | hx
      · exact hirr _
      -- a member that beat `f y` would beat the best of the rest too
      · exact Bool.eq_false_iff.mpr fun hxy => absurd (htrans _ _ _ hxy hy) (by simp [hbest x hx])
    · next hy =>
      refine ⟨?_, fun x hx => ?_⟩
      · rcases hfrom with h | ⟨x, hx, h⟩
        · exact .inl h
        · exact .inr ⟨x, List.mem_cons_of_mem y hx, h⟩
      · rcases List.mem_cons.mp hx with rfl | hx
        · exact Bool.eq_false_iff.mpr hy
        · exact hbest x hx

end Best

end Zircon.SortedIndex
