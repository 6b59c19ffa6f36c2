import Mathlib

/-!
# Runs: lists of half-open segments on the naturals

A list of segments, each `[lo i, hi i)` with a label, can describe a partial
labelling `f : Nat → Option β` of the naturals: a point carries label `b`
exactly when some segment holds it with that label. Normalizing algorithms
build such lists left to right, one run at a time, and what they owe is that
the list read so far agrees with the labelling up to the point reached.

Everything here is over an arbitrary type of segments `ι` and labels `β`,
given by three accessors, so that a record of the program can be read as a
segment without being copied into another type.

* `EncodesBelow l f n`: below `n`, the points `l` labels with `b` are exactly
  those `f` labels with `b`.
* `Ordered l`: the segments are non-empty, each ends where or before the next
  begins, and two that touch carry different labels.

The lemmas extend both by one run at the right end, which is the only way
the algorithms of this development grow their output.
-/

namespace Zircon.Runs

variable {ι β : Type*} (lo hi : ι → Nat) (label : ι → β)

/-- Segment `i` holds the point `x`. -/
def Holds (i : ι) (x : Nat) : Prop := lo i ≤ x ∧ x < hi i

/-- Below `n`, `l` labels a point `b` exactly when `f` does. -/
def EncodesBelow (l : List ι) (f : Nat → Option β) (n : Nat) : Prop :=
  ∀ x, x < n → ∀ b, (∃ i ∈ l, Holds lo hi i x ∧ label i = b) ↔ f x = some b

/-- Non-empty segments, left to right; touching ones carry different labels. -/
structure Ordered (l : List ι) : Prop where
  /-- Every segment is non-empty. -/
  nonempty : ∀ i ∈ l, lo i < hi i
  /-- Each segment ends where or before every later one begins. -/
  sorted : l.Pairwise fun i j => hi i ≤ lo j
  /-- Segments that touch carry different labels. -/
  touch : l.Pairwise fun i j => hi i = lo j → label i ≠ label j

variable {lo hi label}

theorem encodesBelow_nil (f : Nat → Option β) (n : Nat) (h : ∀ x, x < n → f x = none) :
    EncodesBelow lo hi label ([] : List ι) f n := by
  intro x hx b
  simp [h x hx]

theorem EncodesBelow.mono {l : List ι} {f : Nat → Option β} {n n' : Nat}
    (h : EncodesBelow lo hi label l f n) (hn : n' ≤ n) : EncodesBelow lo hi label l f n' :=
  fun x hx => h x (Nat.lt_of_lt_of_le hx hn)

/-- A stretch that `f` leaves unlabelled extends the encoding without a new run. -/
theorem EncodesBelow.extend_none {l : List ι} {f : Nat → Option β} {s v : Nat}
    (h : EncodesBelow lo hi label l f s) (hend : ∀ i ∈ l, hi i ≤ s)
    (hnone : ∀ x, s ≤ x → x < v → f x = none) : EncodesBelow lo hi label l f (max s v) := by
  intro x hx b
  by_cases hxs : x < s
  · exact h x hxs b
  · have hfx : f x = none := hnone x (Nat.le_of_not_lt hxs) (by omega)
    rw [hfx]
    simp only [reduceCtorEq, iff_false, not_exists, not_and]
    intro i hi hx' _
    have := hend i hi
    exact absurd hx'.2 (by omega)

/-- A stretch that `f` labels `label j` throughout extends the encoding by the run `j`. -/
theorem EncodesBelow.extend_run {l : List ι} {f : Nat → Option β} {s v : Nat} {j : ι}
    (h : EncodesBelow lo hi label l f s) (hend : ∀ i ∈ l, hi i ≤ s)
    (hlo : lo j = s) (hhi : hi j = v) (hrun : ∀ x, s ≤ x → x < v → f x = some (label j)) :
    EncodesBelow lo hi label (l ++ [j]) f (max s v) := by
  intro x hx b
  by_cases hxs : x < s
  · rw [← h x hxs b]
    constructor
    · rintro ⟨i, hi, hx', rfl⟩
      rcases List.mem_append.mp hi with hi | hi
      · exact ⟨i, hi, hx', rfl⟩
      · rw [List.mem_singleton.mp hi] at hx'
        exact absurd hx'.1 (by omega)
    · rintro ⟨i, hi, hx', rfl⟩
      exact ⟨i, List.mem_append_left _ hi, hx', rfl⟩
  · have hxv : x < v := by omega
    rw [hrun x (Nat.le_of_not_lt hxs) hxv]
    constructor
    · rintro ⟨i, hi, hx', rfl⟩
      rcases List.mem_append.mp hi with hi | hi
      · have := hend i hi
        exact absurd hx'.2 (by omega)
      · rw [List.mem_singleton.mp hi]
    · intro hb
      exact ⟨j, List.mem_append_right _ (List.mem_singleton_self j),
        ⟨by omega, by omega⟩, Option.some.inj hb⟩

/-- Once nothing is labelled from `n` on, an encoding below `n` is an encoding everywhere. -/
theorem EncodesBelow.everywhere {l : List ι} {f : Nat → Option β} {n : Nat}
    (h : EncodesBelow lo hi label l f n) (hend : ∀ i ∈ l, hi i ≤ n)
    (hnone : ∀ x, n ≤ x → f x = none) (x : Nat) (b : β) :
    (∃ i ∈ l, Holds lo hi i x ∧ label i = b) ↔ f x = some b := by
  by_cases hx : x < n
  · exact h x hx b
  · rw [hnone x (Nat.le_of_not_lt hx)]
    simp only [reduceCtorEq, iff_false, not_exists, not_and]
    intro i hi hx' _
    have := hend i hi
    exact absurd hx'.2 (by omega)

theorem ordered_nil : Ordered lo hi label ([] : List ι) :=
  ⟨by simp, List.Pairwise.nil, List.Pairwise.nil⟩

/-- Appending a non-empty run that starts where or after every segment ends,
and differs in label from any segment it touches. -/
theorem Ordered.snoc {l : List ι} {j : ι} (h : Ordered lo hi label l) (hj : lo j < hi j)
    (hafter : ∀ i ∈ l, hi i ≤ lo j) (htouch : ∀ i ∈ l, hi i = lo j → label i ≠ label j) :
    Ordered lo hi label (l ++ [j]) where
  nonempty i hi' := by
    rcases List.mem_append.mp hi' with hi' | hi'
    · exact h.nonempty i hi'
    · rw [List.mem_singleton.mp hi']; exact hj
  sorted := List.pairwise_append.mpr
    ⟨h.sorted, List.pairwise_singleton _ _, fun i hi' k hk => by
      rw [List.mem_singleton.mp hk]; exact hafter i hi'⟩
  touch := List.pairwise_append.mpr
    ⟨h.touch, List.pairwise_singleton _ _, fun i hi' k hk => by
      rw [List.mem_singleton.mp hk]; exact htouch i hi'⟩

/-! ## Gapped lists: the maximal runs of a set -/

variable (lo hi) in
/-- Non-empty segments, left to right, with a gap between any two. -/
structure Gapped (l : List ι) : Prop where
  /-- Every segment is non-empty. -/
  nonempty : ∀ i ∈ l, lo i < hi i
  /-- Each segment ends strictly before every later one begins. -/
  sorted : l.Pairwise fun i j => hi i < lo j

variable (lo hi) in
/-- Some segment of `l` holds `x`. -/
def Covered (l : List ι) (x : Nat) : Prop := ∃ i ∈ l, Holds lo hi i x

/-- `[a, b)` is a maximal non-empty run of points where `P` holds. -/
def IsMaximalRun (P : Nat → Prop) (a b : Nat) : Prop :=
  a < b ∧ (∀ x, a ≤ x → x < b → P x) ∧ ¬ P b ∧ (0 < a → ¬ P (a - 1))

theorem gapped_nil : Gapped lo hi ([] : List ι) := ⟨by simp, List.Pairwise.nil⟩

theorem covered_append_singleton {l : List ι} {j : ι} {x : Nat} :
    Covered lo hi (l ++ [j]) x ↔ Covered lo hi l x ∨ Holds lo hi j x := by
  simp [Covered, or_and_right, exists_or]

/-- Appending a non-empty segment past a gap after every segment. -/
theorem Gapped.snoc {l : List ι} {j : ι} (h : Gapped lo hi l) (hj : lo j < hi j)
    (hafter : ∀ i ∈ l, hi i < lo j) : Gapped lo hi (l ++ [j]) where
  nonempty i hi' := by
    rcases List.mem_append.mp hi' with hi' | hi'
    · exact h.nonempty i hi'
    · rw [List.mem_singleton.mp hi']; exact hj
  sorted := List.pairwise_append.mpr
    ⟨h.sorted, List.pairwise_singleton _ _, fun i hi' k hk => by
      rw [List.mem_singleton.mp hk]; exact hafter i hi'⟩

/-- Two segments of a gapped list are one, or one ends before the other begins. -/
theorem Gapped.separated {l : List ι} (h : Gapped lo hi l) {i j : ι} (hi' : i ∈ l)
    (hj : j ∈ l) : i = j ∨ hi i < lo j ∨ hi j < lo i := by
  induction l with
  | nil => cases hi'
  | cons k t ih =>
    have ht : Gapped lo hi t :=
      ⟨fun i hi' => h.nonempty i (List.mem_cons_of_mem k hi'), h.sorted.of_cons⟩
    rcases List.mem_cons.mp hi' with rfl | hit <;> rcases List.mem_cons.mp hj with rfl | hjt
    · exact Or.inl rfl
    · exact Or.inr (Or.inl (List.rel_of_pairwise_cons h.sorted hjt))
    · exact Or.inr (Or.inr (List.rel_of_pairwise_cons h.sorted hit))
    · exact ih ht hit hjt

/-- Nothing covers the end of a segment. -/
theorem Gapped.not_covered_hi {l : List ι} (h : Gapped lo hi l) {i : ι} (hi' : i ∈ l) :
    ¬ Covered lo hi l (hi i) := by
  rintro ⟨j, hj, hlo, hhi⟩
  have := h.nonempty i hi'
  rcases h.separated hi' hj with rfl | hsep | hsep <;> omega

/-- Nothing covers the point just before a segment. -/
theorem Gapped.not_covered_pred_lo {l : List ι} (h : Gapped lo hi l) {i : ι} (hi' : i ∈ l)
    (hpos : 0 < lo i) : ¬ Covered lo hi l (lo i - 1) := by
  rintro ⟨j, hj, hlo, hhi⟩
  have := h.nonempty i hi'
  rcases h.separated hi' hj with rfl | hsep | hsep <;> omega

/-- **A gapped list is the list of the maximal runs of what it covers.** -/
theorem Gapped.isMaximalRun_iff {l : List ι} (h : Gapped lo hi l) {P : Nat → Prop}
    (hP : ∀ x, Covered lo hi l x ↔ P x) (a b : Nat) :
    (∃ i ∈ l, lo i = a ∧ hi i = b) ↔ IsMaximalRun P a b := by
  obtain rfl : P = Covered lo hi l := funext fun x => propext (hP x).symm
  constructor
  · rintro ⟨i, hi', rfl, rfl⟩
    exact ⟨h.nonempty i hi', fun x hx hx' => ⟨i, hi', hx, hx'⟩, h.not_covered_hi hi',
      h.not_covered_pred_lo hi'⟩
  · rintro ⟨hab, hrun, hb, ha⟩
    obtain ⟨i, hi', hlo, hhi⟩ := hrun a (Nat.le_refl a) hab
    -- the segment holding `a` starts there, or `a - 1` would be covered
    have hloa : lo i = a := by
      by_contra hne
      exact ha (by omega) ⟨i, hi', by omega, by omega⟩
    -- and it ends at `b`: before, its end would be covered; after, `b` would be
    have hhib : hi i = b := by
      rcases Nat.lt_trichotomy (hi i) b with hlt | heq | hgt
      · exact absurd (hrun (hi i) (by omega) hlt) (h.not_covered_hi hi')
      · exact heq
      · exact absurd ⟨i, hi', by omega, hgt⟩ hb
    exact ⟨i, hi', hloa, hhib⟩

/-- **Uniqueness.** Two gapped lists that cover the same points have the same segments. -/
theorem Gapped.map_eq {l₁ l₂ : List ι} (h₁ : Gapped lo hi l₁) (h₂ : Gapped lo hi l₂)
    (hc : ∀ x, Covered lo hi l₁ x ↔ Covered lo hi l₂ x) :
    l₁.map (fun i => (lo i, hi i)) = l₂.map (fun i => (lo i, hi i)) := by
  have hmem : ∀ p, p ∈ l₁.map (fun i => (lo i, hi i)) ↔ p ∈ l₂.map (fun i => (lo i, hi i)) := by
    rintro ⟨a, b⟩
    simp only [List.mem_map, Prod.mk.injEq]
    rw [h₁.isMaximalRun_iff hc, h₂.isMaximalRun_iff (fun _ => Iff.rfl)]
  -- both lists of segments increase strictly in their starts
  have hinc : ∀ l : List ι, Gapped lo hi l →
      (l.map (fun i => (lo i, hi i))).Pairwise fun p q => p.1 < q.1 := by
    intro l hl
    rw [List.pairwise_map]
    exact hl.sorted.imp_of_mem fun hi' _ hij => Nat.lt_trans (hl.nonempty _ hi') hij
  have hnodup : ∀ l : List ι, Gapped lo hi l → (l.map (fun i => (lo i, hi i))).Nodup :=
    fun l hl => (hinc l hl).imp fun hpq heq => by rw [heq] at hpq; exact Nat.lt_irrefl _ hpq
  exact List.Perm.eq_of_pairwise (fun _ _ _ _ hpq hqp => absurd hqp (Nat.lt_asymm hpq))
    (hinc l₁ h₁) (hinc l₂ h₂) ((List.perm_ext_iff_of_nodup (hnodup l₁ h₁) (hnodup l₂ h₂)).mpr hmem)

/-! ## Editing gapped lists -/

theorem covered_append {l₁ l₂ : List ι} {x : Nat} :
    Covered lo hi (l₁ ++ l₂) x ↔ Covered lo hi l₁ x ∨ Covered lo hi l₂ x := by
  simp [Covered, or_and_right, exists_or]

theorem covered_cons {j : ι} {l : List ι} {x : Nat} :
    Covered lo hi (j :: l) x ↔ Holds lo hi j x ∨ Covered lo hi l x := by
  simp [Covered]

@[simp] theorem covered_nil {x : Nat} : ¬ Covered lo hi ([] : List ι) x := by
  simp [Covered]

theorem covered_singleton {j : ι} {x : Nat} : Covered lo hi [j] x ↔ Holds lo hi j x := by
  simp [Covered]

/-- A segment in the middle covers as it would at the front. -/
theorem covered_insert {P S : List ι} {j : ι} {x : Nat} :
    Covered lo hi (P ++ j :: S) x ↔ Holds lo hi j x ∨ Covered lo hi (P ++ S) x := by
  simp only [covered_append, covered_cons]
  exact or_left_comm

/-- Segments read through other bounds that agree on the list cover the same
points. -/
theorem covered_congr {lo' hi' : ι → Nat} {l : List ι}
    (h : ∀ i ∈ l, lo' i = lo i ∧ hi' i = hi i) {x : Nat} :
    Covered lo' hi' l x ↔ Covered lo hi l x := by
  constructor
  · rintro ⟨i, hmi, h₁, h₂⟩
    obtain ⟨e₁, e₂⟩ := h i hmi
    exact ⟨i, hmi, by omega, by omega⟩
  · rintro ⟨i, hmi, h₁, h₂⟩
    obtain ⟨e₁, e₂⟩ := h i hmi
    exact ⟨i, hmi, by omega, by omega⟩

/-- A bound on the points a list covers bounds the ends of its non-empty
segments. -/
theorem hi_le_of_covered {l : List ι} {N : Nat} (hne : ∀ i ∈ l, lo i < hi i)
    (h : ∀ x, Covered lo hi l x → x < N) : ∀ i ∈ l, hi i ≤ N := by
  intro i hmi
  have := hne i hmi
  have := h (hi i - 1) ⟨i, hmi, by omega, by omega⟩
  omega

/-- Every segment of a gapped list is in it once. -/
theorem Gapped.nodup {l : List ι} (h : Gapped lo hi l) : l.Nodup :=
  h.sorted.imp_of_mem fun hmi _ hij heq => by
    subst heq
    have := h.nonempty _ hmi
    omega

theorem Gapped.sublist {l l' : List ι} (h : Gapped lo hi l) (hs : l'.Sublist l) :
    Gapped lo hi l' :=
  ⟨fun i hmi => h.nonempty i (hs.subset hmi), h.sorted.sublist hs⟩

/-- A segment of a gapped list ends before every later one begins. -/
theorem Gapped.lt_of_append {A B : List ι} (h : Gapped lo hi (A ++ B)) {i j : ι} (hi' : i ∈ A)
    (hj : j ∈ B) : hi i < lo j :=
  (List.pairwise_append.mp h.sorted).2.2 i hi' j hj

/-- Shrinking each segment within itself keeps a list gapped. -/
theorem Gapped.shrink {lo' hi' : ι → Nat} {l : List ι} (h : Gapped lo hi l)
    (hlo : ∀ i ∈ l, lo i ≤ lo' i) (hhi : ∀ i ∈ l, hi' i ≤ hi i)
    (hne : ∀ i ∈ l, lo' i < hi' i) : Gapped lo' hi' l :=
  ⟨hne, h.sorted.imp_of_mem fun hmi hmj hij => by
    have := hlo _ hmj
    have := hhi _ hmi
    omega⟩

/-- A non-empty segment between a part of the list ending before it and a
part starting after it, with gaps on both sides. -/
theorem Gapped.insert {P S : List ι} {j : ι} (h : Gapped lo hi (P ++ S)) (hj : lo j < hi j)
    (hP : ∀ i ∈ P, hi i < lo j) (hS : ∀ i ∈ S, hi j < lo i) : Gapped lo hi (P ++ j :: S) where
  nonempty i hmi := by
    rcases List.mem_append.mp hmi with hmi | hmi
    · exact h.nonempty i (List.mem_append_left S hmi)
    · rcases List.mem_cons.mp hmi with rfl | hmi
      · exact hj
      · exact h.nonempty i (List.mem_append_right P hmi)
  sorted := by
    obtain ⟨hPs, hSs, hPS⟩ := List.pairwise_append.mp h.sorted
    refine List.pairwise_append.mpr ⟨hPs, List.pairwise_cons.mpr ⟨hS, hSs⟩, ?_⟩
    intro i hmi k hmk
    rcases List.mem_cons.mp hmk with rfl | hmk
    · exact hP i hmi
    · exact hPS i hmi k hmk

theorem gapped_singleton {i : ι} (h : lo i < hi i) : Gapped lo hi [i] :=
  ⟨fun _ hj => List.mem_singleton.mp hj ▸ h, List.pairwise_singleton _ _⟩

/-- Two gapped lists, the first ending before the second begins. -/
theorem Gapped.append {A B : List ι} (hA : Gapped lo hi A) (hB : Gapped lo hi B)
    (hAB : ∀ i ∈ A, ∀ j ∈ B, hi i < lo j) : Gapped lo hi (A ++ B) where
  nonempty i hmi := (List.mem_append.mp hmi).elim (hA.nonempty i) (hB.nonempty i)
  sorted := List.pairwise_append.mpr ⟨hA.sorted, hB.sorted, hAB⟩

/-! ## Increasing lists: disjoint segments in order -/

variable (lo hi) in
/-- Non-empty segments, left to right, each ending where or before every
later one begins. -/
structure Increasing (l : List ι) : Prop where
  /-- Every segment is non-empty. -/
  nonempty : ∀ i ∈ l, lo i < hi i
  /-- Each segment ends where or before every later one begins. -/
  sorted : l.Pairwise fun i j => hi i ≤ lo j

theorem increasing_nil : Increasing lo hi ([] : List ι) := ⟨by simp, List.Pairwise.nil⟩

theorem Increasing.nodup {l : List ι} (h : Increasing lo hi l) : l.Nodup :=
  h.sorted.imp_of_mem fun hmi _ hij heq => by
    subst heq
    have := h.nonempty _ hmi
    omega

theorem Increasing.sublist {l l' : List ι} (h : Increasing lo hi l) (hs : l'.Sublist l) :
    Increasing lo hi l' :=
  ⟨fun i hmi => h.nonempty i (hs.subset hmi), h.sorted.sublist hs⟩

/-- A non-empty segment between a part of the list ending where or before it
begins and a part starting where or after it ends. -/
theorem Increasing.insert {P S : List ι} {j : ι} (h : Increasing lo hi (P ++ S))
    (hj : lo j < hi j) (hP : ∀ i ∈ P, hi i ≤ lo j) (hS : ∀ i ∈ S, hi j ≤ lo i) :
    Increasing lo hi (P ++ j :: S) where
  nonempty i hmi := by
    rcases List.mem_append.mp hmi with hmi | hmi
    · exact h.nonempty i (List.mem_append_left S hmi)
    · rcases List.mem_cons.mp hmi with rfl | hmi
      · exact hj
      · exact h.nonempty i (List.mem_append_right P hmi)
  sorted := by
    obtain ⟨hPs, hSs, hPS⟩ := List.pairwise_append.mp h.sorted
    refine List.pairwise_append.mpr ⟨hPs, List.pairwise_cons.mpr ⟨hS, hSs⟩, ?_⟩
    intro i hmi k hmk
    rcases List.mem_cons.mp hmk with rfl | hmk
    · exact hP i hmi
    · exact hPS i hmi k hmk

/-- Distinct segments of a gapped list start at distinct points. -/
theorem Gapped.lo_ne {l : List ι} (h : Gapped lo hi l) {i j : ι} (hi' : i ∈ l) (hj : j ∈ l)
    (hij : i ≠ j) : lo i ≠ lo j := by
  have := h.nonempty i hi'
  have := h.nonempty j hj
  rcases h.separated hi' hj with h' | h' | h'
  · exact absurd h' hij
  · omega
  · omega

theorem Gapped.increasing {l : List ι} (h : Gapped lo hi l) : Increasing lo hi l :=
  ⟨h.nonempty, h.sorted.imp Nat.le_of_lt⟩

/-- Along an increasing list the starts strictly increase. -/
theorem Increasing.lo_lt {l : List ι} (h : Increasing lo hi l) :
    l.Pairwise fun i j => lo i < lo j :=
  h.sorted.imp_of_mem fun hmi _ hij => Nat.lt_of_lt_of_le (h.nonempty _ hmi) hij

theorem Increasing.le_of_append {A B : List ι} (h : Increasing lo hi (A ++ B)) {i j : ι}
    (hi' : i ∈ A) (hj : j ∈ B) : hi i ≤ lo j :=
  (List.pairwise_append.mp h.sorted).2.2 i hi' j hj

/-- Disjoint segments: a point of one is in no other. -/
theorem Increasing.not_holds {l : List ι} (h : Increasing lo hi l) {i j : ι} (hi' : i ∈ l)
    (hj : j ∈ l) (hij : i ≠ j) {x : Nat} (hx : Holds lo hi i x) : ¬ Holds lo hi j x := by
  rintro ⟨h₁, h₂⟩
  obtain ⟨h₃, h₄⟩ := hx
  rcases List.mem_iff_append.mp hi' with ⟨A, B, rfl⟩
  rcases List.mem_append.mp hj with hjA | hjB
  · have := h.le_of_append hjA (List.mem_cons_self (a := i))
    omega
  · rcases List.mem_cons.mp hjB with rfl | hjB
    · exact hij rfl
    · have := (List.pairwise_cons.mp (List.pairwise_append.mp h.sorted).2.1).1 j hjB
      omega

/-- Two non-empty segments with no point in common lie one after the other. -/
theorem separated_of_not_holds {i j : ι} (hi' : lo i < hi i) (hj : lo j < hi j)
    (h : ∀ x, Holds lo hi i x → ¬ Holds lo hi j x) : hi i ≤ lo j ∨ hi j ≤ lo i := by
  by_contra hc
  rcases Nat.le_total (lo i) (lo j) with hle | hle
  · exact h (lo j) ⟨hle, by omega⟩ ⟨Nat.le_refl _, hj⟩
  · exact h (lo i) ⟨Nat.le_refl _, hi'⟩ ⟨hle, by omega⟩

/-- Taking a segment out of an increasing list uncovers exactly its points. -/
theorem Increasing.covered_erase [DecidableEq ι] {l : List ι} (h : Increasing lo hi l) {j : ι}
    (hj : j ∈ l) {x : Nat} : Covered lo hi (l.erase j) x ↔ Covered lo hi l x ∧ ¬ Holds lo hi j x := by
  constructor
  · rintro ⟨i, hmi, hx⟩
    have hij : i ≠ j := fun hij => by
      subst hij
      exact (h.nodup.mem_erase_iff.mp hmi).1 rfl
    exact ⟨⟨i, List.mem_of_mem_erase hmi, hx⟩, h.not_holds (List.mem_of_mem_erase hmi) hj hij hx⟩
  · rintro ⟨⟨i, hmi, hx⟩, hnx⟩
    have hij : i ≠ j := fun hij => hnx (hij ▸ hx)
    exact ⟨i, (h.nodup.mem_erase_iff).mpr ⟨hij, hmi⟩, hx⟩

/-- Changing one segment of an increasing list within itself, and no other,
uncovers the points it gave up. -/
theorem Increasing.covered_update {lo' hi' : ι → Nat} {l : List ι} (h : Increasing lo hi l) {j : ι}
    (hj : j ∈ l) (hother : ∀ i ∈ l, i ≠ j → lo' i = lo i ∧ hi' i = hi i)
    (hsub : ∀ x, Holds lo' hi' j x → Holds lo hi j x) {x : Nat} :
    Covered lo' hi' l x ↔ Covered lo hi l x ∧ ¬ (Holds lo hi j x ∧ ¬ Holds lo' hi' j x) := by
  constructor
  · rintro ⟨i, hmi, hx⟩
    by_cases hij : i = j
    · subst hij
      exact ⟨⟨i, hmi, hsub x hx⟩, fun hn => hn.2 hx⟩
    · have hx₀ : Holds lo hi i x := by
        obtain ⟨h₁, h₂⟩ := hother i hmi hij
        simpa only [Holds, h₁, h₂] using hx
      exact ⟨⟨i, hmi, hx₀⟩, fun hn => h.not_holds hmi hj hij hx₀ hn.1⟩
  · rintro ⟨⟨i, hmi, hx⟩, hn⟩
    by_cases hij : i = j
    · subst hij
      exact ⟨i, hmi, by_contra fun hx' => hn ⟨hx, hx'⟩⟩
    · obtain ⟨h₁, h₂⟩ := hother i hmi hij
      exact ⟨i, hmi, by simpa only [Holds, h₁, h₂] using hx⟩

/-- Disjoint segments in order, all within `[M, N)`, hold at most `N - M`
points together. -/
theorem Increasing.sum_le {l : List ι} (h : Increasing lo hi l) {M N : Nat} (hM : ∀ i ∈ l, M ≤ lo i)
    (hN : ∀ i ∈ l, hi i ≤ N) : (l.map fun i => hi i - lo i).sum ≤ N - M := by
  induction l generalizing M with
  | nil => simp
  | cons j t ih =>
    have hj := h.nonempty j List.mem_cons_self
    -- the rest lies within `[hi j, N)`
    have ht := ih (h.sublist (List.sublist_cons_self j t)) (M := hi j)
      (fun i hi' => (List.pairwise_cons.mp h.sorted).1 i hi') fun i hi' => hN i (List.mem_cons_of_mem j hi')
    have := hM j List.mem_cons_self
    have := hN j List.mem_cons_self
    simp only [List.map_cons, List.sum_cons]
    omega

theorem covered_perm {l l' : List ι} (h : l.Perm l') {x : Nat} :
    Covered lo hi l x ↔ Covered lo hi l' x := by
  simp only [Covered, h.mem_iff]

end Zircon.Runs

/-! ## The label of a point

A list of disjoint segments, read as the partial labelling it describes: the
label of a point is that of the segment holding it. The lemmas say how the
labelling changes when a segment is replaced by others within it, which is how
code that splits and merges segments in place edits the list. -/

namespace Zircon.Runs

variable {ι β : Type*} {lo hi : ι → Nat} {label : ι → β}

instance (i : ι) (x : Nat) : Decidable (Holds lo hi i x) := inferInstanceAs (Decidable (_ ∧ _))

variable (lo hi label) in
/-- The label of the first segment of `l` that holds `x`. -/
def labelAt (l : List ι) (x : Nat) : Option β :=
  (l.find? fun i => decide (Holds lo hi i x)).map label

@[simp] theorem labelAt_nil (x : Nat) : labelAt lo hi label ([] : List ι) x = none := rfl

theorem labelAt_cons (i : ι) (l : List ι) (x : Nat) :
    labelAt lo hi label (i :: l) x = if Holds lo hi i x then some (label i) else labelAt lo hi label l x := by
  unfold labelAt
  by_cases hx : Holds lo hi i x <;> simp [hx]

theorem labelAt_append (A B : List ι) (x : Nat) :
    labelAt lo hi label (A ++ B) x = (labelAt lo hi label A x).or (labelAt lo hi label B x) := by
  simp only [labelAt, List.find?_append, Option.map_or]

theorem labelAt_eq_none_iff {l : List ι} {x : Nat} : labelAt lo hi label l x = none ↔ ¬ Covered lo hi l x := by
  simp [labelAt, Covered, List.find?_eq_none]

/-- In disjoint segments, a point has the label of the segment that holds it. -/
theorem Increasing.labelAt_eq {l : List ι} (h : Increasing lo hi l) {i : ι} (hi' : i ∈ l) {x : Nat}
    (hx : Holds lo hi i x) : labelAt lo hi label l x = some (label i) := by
  induction l with
  | nil => cases hi'
  | cons j l ih =>
    rw [labelAt_cons]
    rcases List.mem_cons.mp hi' with rfl | hmem
    · rw [if_pos hx]
    · -- `j` comes before `i`, so it ends before `x`
      have hij : i ≠ j := fun hij => (List.nodup_cons.mp h.nodup).1 (hij ▸ hmem)
      rw [if_neg (h.not_holds (List.mem_cons_of_mem j hmem) List.mem_cons_self hij hx)]
      exact ih (h.sublist (List.sublist_cons_self j l)) hmem

/-- Replacing segment `j` by segments that hold nothing outside it leaves the
labels of the other points as they were. -/
theorem Increasing.labelAt_replace {P S M : List ι} {j : ι} (h : Increasing lo hi (P ++ j :: S))
    (hM : ∀ x, ¬ Holds lo hi j x → labelAt lo hi label M x = none) (x : Nat) :
    labelAt lo hi label (P ++ M ++ S) x =
      if Holds lo hi j x then labelAt lo hi label M x else labelAt lo hi label (P ++ j :: S) x := by
  rw [labelAt_append, labelAt_append, labelAt_append P (j :: S), labelAt_cons]
  by_cases hx : Holds lo hi j x
  · -- the segments before `j` end, and those after it start, outside `j`
    have hP : labelAt lo hi label P x = none := labelAt_eq_none_iff.mpr fun ⟨i, hi', hix⟩ => by
      have := h.le_of_append hi' List.mem_cons_self
      exact absurd hix.2 (by unfold Holds at hx; omega)
    have hS : labelAt lo hi label S x = none := labelAt_eq_none_iff.mpr fun ⟨i, hi', hix⟩ => by
      have := (List.pairwise_cons.mp (List.pairwise_append.mp h.sorted).2.1).1 i hi'
      exact absurd hix.1 (by unfold Holds at hx; omega)
    rw [if_pos hx, hP, hS, Option.none_or, Option.or_none]
  · rw [if_neg hx, if_neg hx, hM x hx, Option.or_none]

/-- Segments in order within `j` can stand in its place. -/
theorem Increasing.replace {P S M : List ι} {j : ι} (h : Increasing lo hi (P ++ j :: S))
    (hM : Increasing lo hi M) (hin : ∀ i ∈ M, lo j ≤ lo i ∧ hi i ≤ hi j) :
    Increasing lo hi (P ++ M ++ S) where
  nonempty i hi' := by
    rcases List.mem_append.mp hi' with hi' | hi'
    · rcases List.mem_append.mp hi' with hi' | hi'
      · exact h.nonempty i (List.mem_append_left _ hi')
      · exact hM.nonempty i hi'
    · exact h.nonempty i (List.mem_append_right _ (List.mem_cons_of_mem j hi'))
  sorted := by
    obtain ⟨hPs, hjS, hPjS⟩ := List.pairwise_append.mp h.sorted
    obtain ⟨hjS, hSs⟩ := List.pairwise_cons.mp hjS
    refine List.pairwise_append.mpr ⟨List.pairwise_append.mpr ⟨hPs, hM.sorted, ?_⟩, hSs, ?_⟩
    · intro i hi' k hk
      exact Nat.le_trans (hPjS i hi' j List.mem_cons_self) (hin k hk).1
    · intro i hi' k hk
      rcases List.mem_append.mp hi' with hi' | hi'
      · exact hPjS i hi' k (List.mem_cons_of_mem j hk)
      · exact Nat.le_trans (hin i hi').2 (hjS k hk)

end Zircon.Runs
