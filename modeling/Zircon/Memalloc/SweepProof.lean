import Zircon.Memalloc.Dominant
import Zircon.Runs

/-!
# `FindNormalizedRanges` is correct

The sweep keeps one counter per type. After the batch of endpoints of value
`v`, the counter of a type is the number of left endpoints of that type at or
below `v` less the number of right endpoints at or below `v`: exactly the
ranges of that type covering `v` (`counters_eq_countAt`). Between two
consecutive endpoint values nothing starts or ends, so every address there is
covered as its left neighbour value is (`countAt_eq_of_between`). The sweep
therefore sees the dominant type of every address, and `process_event` is a
run-length encoder of it.

The one delicate point is that the counters are unsigned and decremented one
endpoint at a time. They never underflow because `std::sort` puts every left
endpoint before the right endpoints of the same value
(`rights_succ_le_lefts`), which is what the `ZX_DEBUG_ASSERT` in the loop
expects.
-/

namespace Zircon.Memalloc

open ActiveRanges

/-! ## Counting endpoints -/

/-- The left endpoints of slot `k` in a list of endpoints. -/
def lefts (k : Fin (kNumBaseTypes + kNumExtendedTypes)) (P : List Endpoint) : Nat :=
  P.countP fun e => e.IsLeft && decide (index e.range.type = k)

/-- The right endpoints of slot `k` in a list of endpoints. -/
def rights (k : Fin (kNumBaseTypes + kNumExtendedTypes)) (P : List Endpoint) : Nat :=
  P.countP fun e => !e.IsLeft && decide (index e.range.type = k)

theorem countP_endpointsOf_left (q : Range → Nat → Bool) (ranges : List Range) :
    (endpointsOf ranges).countP (fun e => e.IsLeft && q e.range e.value) =
      ranges.countP fun r => q r (GetLeft r) := by
  induction ranges with
  | nil => rfl
  | cons r rs ih =>
    simp only [endpointsOf, List.flatMap_cons, List.countP_append] at ih ⊢
    rw [ih]
    simp [Endpoint.IsLeft, Endpoint.value, List.countP_cons, Nat.add_comm]

theorem countP_endpointsOf_right (q : Range → Nat → Bool) (ranges : List Range) :
    (endpointsOf ranges).countP (fun e => !e.IsLeft && q e.range e.value) =
      ranges.countP fun r => q r (GetRight r) := by
  induction ranges with
  | nil => rfl
  | cons r rs ih =>
    simp only [endpointsOf, List.flatMap_cons, List.countP_append] at ih ⊢
    rw [ih]
    simp [Endpoint.IsLeft, Endpoint.value, List.countP_cons, Nat.add_comm]

theorem value_le_of_le {e o : Endpoint} (h : Endpoint.le e o) : e.value ≤ o.value := by
  simp only [Endpoint.le, Endpoint.lt, decide_eq_false_iff_not, not_or] at h
  omega

/-- A left endpoint never comes after a right endpoint of at least its value. -/
theorem not_le_of_left {e q : Endpoint} (hq : q.IsLeft = true) (he : e.IsLeft = false)
    (hv : q.value ≤ e.value) : ¬ Endpoint.le e q := by
  simp only [Endpoint.le, Endpoint.lt, decide_eq_false_iff_not, not_not]
  rcases Nat.lt_or_eq_of_le hv with h | h
  · exact Or.inl h
  · exact Or.inr ⟨h, hq, he⟩

section Sorted

variable {ranges : List Range} {E : List Endpoint}
  (hperm : E.Perm (endpointsOf ranges)) (hsorted : E.Pairwise Endpoint.le)
include hperm hsorted

/-- **No underflow.** Before a right endpoint of slot `k` is counted, more left
endpoints of slot `k` than right ones have been counted. -/
theorem rights_succ_le_lefts {P Q : List Endpoint} {e : Endpoint} (hE : E = P ++ e :: Q)
    (he : e.IsLeft = false) (k : Fin (kNumBaseTypes + kNumExtendedTypes))
    (hk : index e.range.type = k) : rights k P + 1 ≤ lefts k P := by
  subst hE
  obtain ⟨-, hsortedQ, hPQ⟩ := List.pairwise_append.mp hsorted
  -- everything counted so far has value at most `e.value`
  have hPm : ∀ p ∈ P, p.value ≤ e.value :=
    fun p hp => value_le_of_le (hPQ p hp e List.mem_cons_self)
  -- no left endpoint of value at most `e.value` is still to come
  have hQ : ∀ q ∈ e :: Q, ¬ (q.IsLeft = true ∧ q.value ≤ e.value) := by
    rintro q hq ⟨hql, hqv⟩
    rcases List.mem_cons.mp hq with rfl | hq
    · rw [he] at hql; cases hql
    · exact not_le_of_left hql he hqv (List.rel_of_pairwise_cons hsortedQ hq)
  have hrights : rights k P + 1 ≤ ranges.countP fun r =>
      decide (index r.type = k) && decide (GetRight r ≤ e.value) := by
    rw [← countP_endpointsOf_right (fun r v => decide (index r.type = k) && decide (v ≤ e.value)),
      ← hperm.countP_eq, List.countP_append, List.countP_cons]
    have hle : rights k P ≤ P.countP fun p =>
        !p.IsLeft && (decide (index p.range.type = k) && decide (p.value ≤ e.value)) := by
      apply List.countP_mono_left
      intro p hp
      simp only [Bool.and_eq_true, Bool.not_eq_true', decide_eq_true_eq]
      rintro ⟨h1, h2⟩
      exact ⟨h1, h2, hPm p hp⟩
    simp only [he, hk, Bool.not_false, decide_true, Nat.le_refl, Bool.and_self, ↓reduceIte]
    omega
  have hlefts : (ranges.countP fun r => decide (index r.type = k) && decide (GetLeft r ≤ e.value))
      ≤ lefts k P := by
    rw [← countP_endpointsOf_left (fun r v => decide (index r.type = k) && decide (v ≤ e.value)),
      ← hperm.countP_eq, List.countP_append]
    have hzero : (e :: Q).countP (fun q =>
        q.IsLeft && (decide (index q.range.type = k) && decide (q.value ≤ e.value))) = 0 := by
      rw [List.countP_eq_zero]
      intro q hq
      simp only [Bool.and_eq_true, decide_eq_true_eq, not_and]
      exact fun hql _ hqv => hQ q hq ⟨hql, hqv⟩
    rw [hzero, Nat.add_zero]
    apply List.countP_mono_left
    intro p _
    simp only [Bool.and_eq_true, decide_eq_true_eq]
    rintro ⟨h1, h2, -⟩
    exact ⟨h1, h2⟩
  have hmono : (ranges.countP fun r => decide (index r.type = k) && decide (GetRight r ≤ e.value))
      ≤ ranges.countP fun r => decide (index r.type = k) && decide (GetLeft r ≤ e.value) := by
    apply List.countP_mono_left
    intro r _
    simp only [Bool.and_eq_true, decide_eq_true_eq]
    rintro ⟨h1, h2⟩
    exact ⟨h1, Nat.le_trans (getLeft_le_getRight r) h2⟩
  omega

end Sorted

/-! ## Counters follow the endpoints counted so far -/

/-- The counters hold, slot by slot, the left endpoints counted so far less the
right ones, written without subtraction. -/
def Tallies (c : ActiveRanges) (P : List Endpoint) : Prop :=
  ∀ k, c.values k + rights k P = lefts k P

theorem tallies_zero : Tallies ActiveRanges.zero [] := fun _ => rfl

theorem Tallies.values_eq {c : ActiveRanges} {P : List Endpoint} (h : Tallies c P) (k) :
    c.values k = lefts k P - rights k P := by
  have := h k; omega

/-- Counting one more endpoint; a right endpoint needs a positive counter. -/
theorem Tallies.count {c : ActiveRanges} {P : List Endpoint} {e : Endpoint} (h : Tallies c P)
    (hpos : e.IsLeft = false → rights (index e.range.type) P + 1 ≤ lefts (index e.range.type) P) :
    Tallies (c.count e) (P ++ [e]) := by
  intro k
  have hk := h k
  simp only [ActiveRanges.count, lefts, rights, List.countP_append, List.countP_singleton] at hk ⊢
  by_cases hke : k = index e.range.type
  · subst hke
    rw [Function.update_self]
    cases hl : e.IsLeft
    · have := hpos hl
      simp only [lefts, rights] at this
      simp only [Bool.not_false, Bool.true_and, Bool.false_and, Bool.false_eq_true, ↓reduceIte,
        decide_true, Nat.add_zero]
      omega
    · simp only [Bool.not_true, Bool.false_and, Bool.true_and, Bool.false_eq_true, ↓reduceIte,
        decide_true]
      omega
  · rw [Function.update_of_ne hke]
    simp only [Ne.symm hke, decide_false, Bool.and_false, Bool.false_eq_true, ↓reduceIte]
    omega

section Sorted

variable {ranges : List Range} {E : List Endpoint}
  (hperm : E.Perm (endpointsOf ranges)) (hsorted : E.Pairwise Endpoint.le)
include hperm hsorted

/-- Counting a whole stretch `B` of the sorted endpoints keeps the tallies. -/
theorem tallies_foldl : ∀ (B P R : List Endpoint) (c : ActiveRanges),
    E = P ++ B ++ R → Tallies c P → Tallies (B.foldl ActiveRanges.count c) (P ++ B)
  | [], P, _, c, _, h => by simpa using h
  | e :: B, P, R, c, hE, h => by
    have hE' : E = P ++ e :: (B ++ R) := by rw [hE]; simp
    have h' : Tallies (c.count e) (P ++ [e]) :=
      h.count fun he => rights_succ_le_lefts hperm hsorted hE' he _ rfl
    simpa using tallies_foldl B (P ++ [e]) R (c.count e) (by simp [hE]) h'

end Sorted

/-! ## Counters after a batch are the covering counts -/

theorem left_mem_endpointsOf {r : Range} {ranges : List Range} (hr : r ∈ ranges) :
    (⟨r, .kLeft⟩ : Endpoint) ∈ endpointsOf ranges :=
  List.mem_flatMap.mpr ⟨r, hr, List.mem_cons_self⟩

theorem right_mem_endpointsOf {r : Range} {ranges : List Range} (hr : r ∈ ranges) :
    (⟨r, .kRight⟩ : Endpoint) ∈ endpointsOf ranges :=
  List.mem_flatMap.mpr ⟨r, hr, List.mem_cons_of_mem _ List.mem_cons_self⟩

/-- Counting in a list cut at `v` is counting the part at or below `v`. -/
theorem countP_cut {L R : List Endpoint} (p : Endpoint → Bool) {v : Nat}
    (hL : ∀ e ∈ L, e.value ≤ v) (hR : ∀ e ∈ R, v < e.value) :
    (L ++ R).countP (fun e => p e && decide (e.value ≤ v)) = L.countP p := by
  have hR0 : R.countP (fun e => p e && decide (e.value ≤ v)) = 0 := by
    rw [List.countP_eq_zero]
    intro e he
    simp [Nat.not_le.mpr (hR e he)]
  rw [List.countP_append, hR0, Nat.add_zero]
  apply List.countP_congr
  intro e he
  simp [hL e he]

/-- The ranges of slot `k` started at or below `v` are those ended at or below
`v` and those covering `v`. -/
theorem countP_started (ranges : List Range) (k : Fin (kNumBaseTypes + kNumExtendedTypes))
    (v : Nat) :
    (ranges.countP fun r => decide (index r.type = k) && decide (GetLeft r ≤ v)) =
      (ranges.countP fun r => decide (index r.type = k) && decide (GetRight r ≤ v)) +
        (countAt ranges v).values k := by
  induction ranges with
  | nil => rfl
  | cons r rs ih =>
    simp only [countAt, List.countP_cons] at ih ⊢
    have := getLeft_le_getRight r
    rw [ih]
    -- one case per position of `r` against `v`
    rcases Nat.lt_or_ge v (GetRight r) with h2 | h2
    · have h2' := Nat.not_le.mpr h2
      by_cases hk : index r.type = k <;> by_cases h1 : GetLeft r ≤ v <;>
        simp [hk, h1, h2, h2', Covers, Nat.add_assoc]
    · have h2' := Nat.not_lt.mpr h2
      by_cases hk : index r.type = k <;> by_cases h1 : GetLeft r ≤ v <;>
        simp [hk, h1, h2, h2', Covers] <;> omega

/-- **Counters after a batch.** Once the endpoints at or below `v` are counted,
and none above, each counter holds the ranges of its slot that cover `v`. -/
theorem counters_eq_countAt {ranges : List Range} {L R : List Endpoint}
    (hperm : (L ++ R).Perm (endpointsOf ranges)) {c : ActiveRanges} (hc : Tallies c L) {v : Nat}
    (hL : ∀ e ∈ L, e.value ≤ v) (hR : ∀ e ∈ R, v < e.value) : c = countAt ranges v := by
  obtain ⟨values⟩ := c
  show ActiveRanges.mk values = ActiveRanges.mk (countAt ranges v).values
  congr 1
  funext k
  have hl : lefts k L = ranges.countP fun r => decide (index r.type = k) && decide (GetLeft r ≤ v) := by
    rw [lefts, ← countP_cut _ hL hR, hperm.countP_eq]
    simp only [Bool.and_assoc]
    exact countP_endpointsOf_left (fun r w => decide (index r.type = k) && decide (w ≤ v)) ranges
  have hr : rights k L = ranges.countP fun r => decide (index r.type = k) && decide (GetRight r ≤ v) := by
    rw [rights, ← countP_cut _ hL hR, hperm.countP_eq]
    simp only [Bool.and_assoc]
    exact countP_endpointsOf_right (fun r w => decide (index r.type = k) && decide (w ≤ v)) ranges
  have hv : values k = lefts k L - rights k L := hc.values_eq k
  have := countP_started ranges k v
  rw [hv, hl, hr]
  omega

/-- Nothing starts or ends strictly between `v` and `x`: `x` is covered as `v` is. -/
theorem countAt_eq_of_gap {ranges : List Range} {x v : Nat}
    (h : ∀ r ∈ ranges, (GetLeft r ≤ x ↔ GetLeft r ≤ v) ∧ (GetRight r ≤ x ↔ GetRight r ≤ v)) :
    countAt ranges x = countAt ranges v := by
  simp only [countAt, ActiveRanges.mk.injEq]
  funext k
  apply List.countP_congr
  intro r hr
  obtain ⟨h1, h2⟩ := h r hr
  simp only [Covers, ← Nat.not_le, h1, h2]

/-- **Between two endpoint values** every address is covered as the lower value is. -/
theorem countAt_eq_of_between {ranges : List Range} {E : List Endpoint}
    (hperm : E.Perm (endpointsOf ranges)) {v v' x : Nat}
    (hE : ∀ e ∈ E, e.value ≤ v ∨ v' ≤ e.value) (hx : v ≤ x) (hx' : x < v') :
    countAt ranges x = countAt ranges v := by
  apply countAt_eq_of_gap
  intro r hr
  have hl := hE _ (hperm.mem_iff.mpr (left_mem_endpointsOf hr))
  have hr' := hE _ (hperm.mem_iff.mpr (right_mem_endpointsOf hr))
  simp only [Endpoint.value, Endpoint.IsLeft] at hl hr'
  constructor <;> constructor <;> intro <;> simp_all <;> omega

/-- Before the first endpoint and after the last, no range covers an address. -/
theorem uncovered_of_endpoints {ranges : List Range} {E : List Endpoint}
    (hperm : E.Perm (endpointsOf ranges)) {x : Nat}
    (hE : (∀ e ∈ E, x < e.value) ∨ (∀ e ∈ E, e.value ≤ x)) :
    ∀ r ∈ ranges, ¬ Covers r x := by
  intro r hr hrx
  have hl := hperm.mem_iff.mpr (left_mem_endpointsOf hr)
  have hr' := hperm.mem_iff.mpr (right_mem_endpointsOf hr)
  simp only [Covers] at hrx
  rcases hE with hE | hE
  · have := hE _ hl
    simp only [Endpoint.value, Endpoint.IsLeft] at this
    simp at this
    omega
  · have := hE _ hr'
    simp only [Endpoint.value, Endpoint.IsLeft] at this
    simp at this
    omega

/-- Where no range reaches, there is no conflict and no label. -/
theorem not_conflict_of_uncovered {ranges : List Range} {x : Nat}
    (h : ∀ r ∈ ranges, ¬ Covers r x) : ¬ Conflict ranges x :=
  fun ⟨r, hr, _, _, hrx, _⟩ => h r hr hrx

theorem labelAt_of_uncovered {ranges : List Range} {x : Nat}
    (h : ∀ r ∈ ranges, ¬ Covers r x) : labelAt ranges x = none :=
  (labelAt_eq_none_iff (not_conflict_of_uncovered h)).mpr h

/-! ## The sweep, one batch at a time -/

section Batch

variable {σ : Type} (cb : σ → Range → σ × Bool)

/-- What the sweep does once a batch is counted: ask `DominantType`, process the
event, and go on with the next value. -/
def batchEnd (Q : List Endpoint) (s : σ) (w : Sweep) : σ × Except Unit Unit :=
  match w.counters.DominantType with
  | .error _ => (s, .error ())
  | .ok activeType =>
    let (s, go, w) := processEvent cb s w activeType
    if !go then (s, .ok ())
    else sweepLoop cb Q s { w with currValue := (Q.head?.map Endpoint.value).getD w.currValue }

/-- A batch is counted endpoint by endpoint and ends at a change of value. -/
theorem sweepLoop_batch :
    ∀ (B Q : List Endpoint) (s : σ) (w : Sweep), B ≠ [] →
      (∀ e ∈ B, e.value = w.currValue) → Q.head?.map Endpoint.value ≠ some w.currValue →
      sweepLoop cb (B ++ Q) s w =
        batchEnd cb Q s { w with counters := B.foldl ActiveRanges.count w.counters }
  | [], _, _, _, hne, _, _ => absurd rfl hne
  | [e], Q, s, w, _, _, hQ => by
    rw [List.singleton_append, sweepLoop, if_neg hQ]
    rfl
  | e :: e' :: B, Q, s, w, _, hB, hQ => by
    have hnext : ((e' :: B ++ Q).head?.map Endpoint.value) = some w.currValue := by
      simp [hB e' (List.mem_cons_of_mem e List.mem_cons_self)]
    rw [List.cons_append, sweepLoop, if_pos hnext]
    exact sweepLoop_batch (e' :: B) Q s { w with counters := w.counters.count e }
      (List.cons_ne_nil _ _) (fun x hx => hB x (List.mem_cons_of_mem e hx)) hQ

theorem batchEnd_error {Q : List Endpoint} {s : σ} {w : Sweep} {u : Unit}
    (h : w.counters.DominantType = .error u) : batchEnd cb Q s w = (s, .error ()) := by
  rw [batchEnd, h]

end Batch

/-- The range `process_event` emits when the dominant type changes. -/
def pendingRun (w : Sweep) : List Range :=
  match w.currType with
  | some t => if w.currStart < w.currValue then [⟨w.currStart, w.currValue - w.currStart, t⟩] else []
  | none => []

/-- `process_event` with a callback that collects and always continues. -/
theorem processEvent_collect (out : List Range) (w : Sweep) (t : Option RangeType) :
    processEvent collect out w t =
      if t = w.currType then (out, true, w)
      else (out ++ pendingRun w, true, { w with currStart := w.currValue, currType := t }) := by
  obtain ⟨c, ct, cs, cv⟩ := w
  unfold processEvent pendingRun
  by_cases h : t = ct
  · simp [h]
  · simp only [if_neg h]
    cases ct with
    | none => simp
    | some T => by_cases hs : cs < cv <;> simp [hs, collect]

theorem mem_pendingRun {w : Sweep} {r : Range} :
    r ∈ pendingRun w ↔ ∃ T, w.currType = some T ∧ w.currStart < w.currValue ∧
      r = ⟨w.currStart, w.currValue - w.currStart, T⟩ := by
  unfold pendingRun
  cases w.currType with
  | none => simp
  | some T => by_cases h : w.currStart < w.currValue <;> simp [h]

theorem processEvent_collect_sweep (out : List Range) (w : Sweep) (t : Option RangeType) :
    (processEvent collect out w t).2.2.counters = w.counters ∧
      (processEvent collect out w t).2.2.currValue = w.currValue ∧
      (processEvent collect out w t).2.2.currType = t := by
  rw [processEvent_collect]
  split_ifs with h
  · exact ⟨rfl, rfl, h.symm⟩
  · exact ⟨rfl, rfl, rfl⟩

/-- With a callback that always continues, the sweep goes on after every event. -/
theorem batchEnd_collect {Q : List Endpoint} {out : List Range} {w : Sweep} {t : Option RangeType}
    (h : w.counters.DominantType = .ok t) :
    batchEnd collect Q out w =
      sweepLoop collect Q (processEvent collect out w t).1
        { (processEvent collect out w t).2.2 with
          currValue := (Q.head?.map Endpoint.value).getD w.currValue } := by
  unfold batchEnd
  rw [h]
  dsimp only
  rw [processEvent_collect]
  by_cases ht : t = w.currType
  · simp only [if_pos ht, Bool.not_true, Bool.false_eq_true, ↓reduceIte]
  · simp only [if_neg ht, Bool.not_true, Bool.false_eq_true, ↓reduceIte]

/-! ## `process_event` encodes runs -/

open Runs

/-- The emitted ranges and the open run `[currStart, ...)` account for every
label below `b`. -/
structure RunsBelow (ranges out : List Range) (w : Sweep) (b : Nat) : Prop where
  /-- The open run starts at or below `b` ... -/
  start_le : w.currStart ≤ b
  /-- ... and its type labels every address from its start up to `b`. -/
  open_run : ∀ x, w.currStart ≤ x → x < b → labelAt ranges x = w.currType
  /-- The emitted ranges encode the labels below the open run. -/
  encodes : EncodesBelow Range.addr Range.end Range.type out (labelAt ranges) w.currStart
  /-- The emitted ranges are non-empty, in order, and touching ones differ in type. -/
  ordered : Ordered Range.addr Range.end Range.type out
  /-- Once something is emitted the open run is non-empty; an emitted range
  ends by its start, and one that ends there has another type. -/
  before_open : ∀ r ∈ out, r.end ≤ w.currStart ∧ w.currStart < b ∧
    (r.end = w.currStart → some r.type ≠ w.currType)

variable {ranges : List Range}

theorem RunsBelow.extend {out : List Range} {w : Sweep} {b b' : Nat} (h : RunsBelow ranges out w b)
    (hb : b ≤ b') (hlabel : ∀ x, b ≤ x → x < b' → labelAt ranges x = w.currType) :
    RunsBelow ranges out w b' where
  start_le := Nat.le_trans h.start_le hb
  open_run x hx hx' := if hxb : x < b then h.open_run x hx hxb else hlabel x (by omega) hx'
  encodes := h.encodes
  ordered := h.ordered
  before_open r hr := by
    obtain ⟨h1, h2, h3⟩ := h.before_open r hr
    exact ⟨h1, by omega, h3⟩

/-- Only the start and the type of the open run matter. -/
theorem RunsBelow.congr {out : List Range} {w w' : Sweep} {b : Nat} (h : RunsBelow ranges out w b)
    (hs : w'.currStart = w.currStart) (ht : w'.currType = w.currType) :
    RunsBelow ranges out w' b := by
  obtain ⟨c, t, s, v⟩ := w
  obtain ⟨c', t', s', v'⟩ := w'
  dsimp only at hs ht
  subst hs ht
  exact ⟨h.start_le, h.open_run, h.encodes, h.ordered, h.before_open⟩

/-- Closing the open run: the emitted ranges with the pending run encode the
labels below `currValue`. -/
theorem RunsBelow.encodes_pendingRun {out : List Range} {w : Sweep}
    (h : RunsBelow ranges out w w.currValue) :
    EncodesBelow Range.addr Range.end Range.type (out ++ pendingRun w) (labelAt ranges)
      w.currValue := by
  have hend : ∀ r ∈ out, r.end ≤ w.currStart := fun r hr => (h.before_open r hr).1
  have hmax : max w.currStart w.currValue = w.currValue := Nat.max_eq_right h.start_le
  cases hT : w.currType with
  | none =>
    rw [show pendingRun w = [] by simp [pendingRun, hT], List.append_nil, ← hmax]
    exact h.encodes.extend_none hend fun x hx hx' => hT ▸ h.open_run x hx hx'
  | some T =>
    by_cases hlt : w.currStart < w.currValue
    · rw [show pendingRun w = [⟨w.currStart, w.currValue - w.currStart, T⟩] by
        simp [pendingRun, hT, hlt], ← hmax]
      exact h.encodes.extend_run hend rfl (by simp only [Range.end]; omega)
        fun x hx hx' => hT ▸ h.open_run x hx hx'
    · rw [show pendingRun w = [] by simp [pendingRun, hT, hlt], List.append_nil,
        show w.currValue = w.currStart by have := h.start_le; omega]
      exact h.encodes

theorem RunsBelow.ordered_pendingRun {out : List Range} {w : Sweep}
    (h : RunsBelow ranges out w w.currValue) :
    Ordered Range.addr Range.end Range.type (out ++ pendingRun w) := by
  cases hT : w.currType with
  | none => simpa [pendingRun, hT] using h.ordered
  | some T =>
    by_cases hlt : w.currStart < w.currValue
    · rw [show pendingRun w = [⟨w.currStart, w.currValue - w.currStart, T⟩] by
        simp [pendingRun, hT, hlt]]
      refine h.ordered.snoc (by simp only [Range.end]; omega) (fun r hr => (h.before_open r hr).1) ?_
      intro r hr hend hty
      exact (h.before_open r hr).2.2 hend (by rw [hT, hty])
    · simpa [pendingRun, hT, hlt] using h.ordered

/-- **One event.** Processing the label of `currValue` moves the bound past it. -/
theorem RunsBelow.processEvent {out : List Range} {w : Sweep} {t : Option RangeType}
    (h : RunsBelow ranges out w w.currValue) (ht : labelAt ranges w.currValue = t) :
    RunsBelow ranges (processEvent collect out w t).1 (processEvent collect out w t).2.2
      (w.currValue + 1) := by
  rw [processEvent_collect]
  split_ifs with hsame
  · -- the dominant type is unchanged: the open run grows by one address
    refine h.extend (Nat.le_succ _) fun x hx hx' => ?_
    rw [show x = w.currValue by omega, ht, hsame]
  · -- the dominant type changes: the pending run is emitted, a new one opens
    refine ⟨Nat.le_succ _, fun x hx hx' => ?_, h.encodes_pendingRun, h.ordered_pendingRun,
      fun r hr => ?_⟩
    · dsimp only at hx ⊢
      rw [show x = w.currValue by omega, ht]
    · dsimp only
      rcases List.mem_append.mp hr with hr | hr
      · obtain ⟨h1, h2, -⟩ := h.before_open r hr
        exact ⟨by omega, Nat.lt_succ_self _, fun he => absurd he (by omega)⟩
      · obtain ⟨T, hT, hlt, rfl⟩ := mem_pendingRun.mp hr
        refine ⟨by simp only [Range.end]; omega, Nat.lt_succ_self _, fun _ hty => hsame ?_⟩
        rw [← hty, hT]

/-- Once the open run is unlabelled and nothing is labelled past `b`, the
emitted ranges encode every label. -/
theorem RunsBelow.encodes_all {out : List Range} {w : Sweep} {b : Nat}
    (h : RunsBelow ranges out w b) (hnone : w.currType = none)
    (hafter : ∀ x, b ≤ x → labelAt ranges x = none) (x : Nat) (T : RangeType) :
    (∃ r ∈ out, Holds Range.addr Range.end r x ∧ r.type = T) ↔ labelAt ranges x = some T :=
  h.encodes.everywhere (fun r hr => (h.before_open r hr).1)
    (fun y hy => if hyb : y < b then hnone ▸ h.open_run y hy hyb else hafter y (by omega)) x T

/-! ## The whole sweep -/

/-- A list sorted by value splits into the batch of its first value and the
rest, all of greater value. -/
theorem exists_batch : ∀ (e : Endpoint) (Q : List Endpoint),
    (e :: Q).Pairwise (fun a b => a.value ≤ b.value) →
    ∃ B Q', e :: Q = B ++ Q' ∧ B ≠ [] ∧ (∀ q ∈ B, q.value = e.value) ∧
      Q'.head?.map Endpoint.value ≠ some e.value ∧ ∀ q ∈ Q', e.value < q.value
  | e, [], _ => ⟨[e], [], rfl, List.cons_ne_nil _ _, by simp, by simp, by simp⟩
  | e, e' :: Q, h => by
    have he' : e.value ≤ e'.value := List.rel_of_pairwise_cons h List.mem_cons_self
    by_cases hv : e'.value = e.value
    · -- `e'` joins the batch of `e`
      obtain ⟨B, Q', hsplit, -, hB, hhead, hgt⟩ := exists_batch e' Q h.of_cons
      rw [hv] at hhead hgt
      refine ⟨e :: B, Q', by rw [hsplit]; rfl, List.cons_ne_nil _ _, ?_, hhead, hgt⟩
      intro q hq
      rcases List.mem_cons.mp hq with rfl | hq
      · rfl
      · rw [hB q hq, hv]
    · -- the batch of `e` is `e` alone
      refine ⟨[e], e' :: Q, rfl, List.cons_ne_nil _ _, by simp, by simpa using hv, ?_⟩
      intro q hq
      rcases List.mem_cons.mp hq with rfl | hq
      · omega
      · have := List.rel_of_pairwise_cons h.of_cons hq
        omega

/-- The sweep at the start of the batch at `w.currValue`, with the endpoints `P`
counted and the ranges `out` emitted. -/
structure SweepInv (ranges : List Range) (P : List Endpoint) (out : List Range) (w : Sweep) :
    Prop where
  /-- The counters follow the endpoints counted. -/
  tallies : Tallies w.counters P
  /-- Everything counted lies below the current value. -/
  counted_lt : ∀ p ∈ P, p.value < w.currValue
  /-- No address below the current value is in conflict. -/
  no_conflict : ∀ x < w.currValue, ¬ Conflict ranges x
  /-- Every label below the current value is accounted for. -/
  runs : RunsBelow ranges out w w.currValue

/-- What the sweep owes: failure exactly on a conflict, and otherwise an ordered
encoding of the labels. -/
def SweepSpec (ranges : List Range) (res : List Range × Except Unit Unit) : Prop :=
  (res.2 = .error () ↔ ∃ x, Conflict ranges x) ∧
    (res.2 = .ok () → Ordered Range.addr Range.end Range.type res.1 ∧
      ∀ x T, (∃ r ∈ res.1, Holds Range.addr Range.end r x ∧ r.type = T) ↔
        labelAt ranges x = some T)

theorem labelAt_eq_of_countAt_eq {x v : Nat} (h : countAt ranges x = countAt ranges v) :
    labelAt ranges x = labelAt ranges v := by
  rw [labelAt, labelAt, h]

theorem not_conflict_of_countAt_eq {x v : Nat} {t : Option RangeType}
    (h : countAt ranges x = countAt ranges v) (ht : (countAt ranges v).DominantType = .ok t) :
    ¬ Conflict ranges x := by
  rw [← dominantType_countAt_error_iff, h, ht]
  exact fun h => nomatch h

section Sorted

variable {E : List Endpoint}
  (hperm : E.Perm (endpointsOf ranges)) (hsorted : E.Pairwise Endpoint.le)
include hperm hsorted

/-- **The sweep from a batch boundary** meets its specification. The recursion
is on the endpoints left, one batch per call. -/
theorem sweepLoop_spec (P : List Endpoint) (e : Endpoint) (Q : List Endpoint) (out : List Range)
    (w : Sweep) (hE : E = P ++ e :: Q) (he : e.value = w.currValue)
    (hinv : SweepInv ranges P out w) :
    SweepSpec ranges (sweepLoop collect (e :: Q) out w) := by
  have hmono : E.Pairwise fun a b => a.value ≤ b.value := hsorted.imp value_le_of_le
  have hsuffix : (e :: Q).Pairwise fun a b => a.value ≤ b.value := by
    rw [hE] at hmono
    exact (List.pairwise_append.mp hmono).2.1
  obtain ⟨B, Q', hsplit, hBne, hB, hhead, hgt⟩ := exists_batch e Q hsuffix
  rw [he] at hB hhead hgt
  have hEB : E = P ++ B ++ Q' := by rw [hE, hsplit, List.append_assoc]
  have hPB : ∀ p ∈ P ++ B, p.value ≤ w.currValue := by
    intro p hp
    rcases List.mem_append.mp hp with hp | hp
    · exact Nat.le_of_lt (hinv.counted_lt p hp)
    · exact Nat.le_of_eq (hB p hp)
  -- the batch brings the counters to the covering counts at `currValue`
  have htal := tallies_foldl hperm hsorted B P Q' w.counters hEB hinv.tallies
  have hc : B.foldl ActiveRanges.count w.counters = countAt ranges w.currValue :=
    counters_eq_countAt (hEB ▸ hperm) htal hPB hgt
  rw [hsplit, sweepLoop_batch collect B Q' out w hBne hB hhead, hc]
  cases hdom : (countAt ranges w.currValue).DominantType with
  | error u =>
    -- a conflict at `currValue` stops the sweep
    cases u
    rw [batchEnd_error collect hdom]
    have hconf : Conflict ranges w.currValue := dominantType_countAt_error_iff.mp hdom
    exact ⟨iff_of_true rfl ⟨_, hconf⟩, fun h => nomatch h⟩
  | ok t =>
    rw [batchEnd_collect hdom]
    have ht : labelAt ranges w.currValue = t := by rw [labelAt, hdom]
    have hruns₀ : RunsBelow ranges out { w with counters := countAt ranges w.currValue }
        w.currValue := hinv.runs.congr rfl rfl
    have hruns := hruns₀.processEvent ht
    obtain ⟨hcnt, hval, htype⟩ :=
      processEvent_collect_sweep out { w with counters := countAt ranges w.currValue } t
    generalize processEvent collect out { w with counters := countAt ranges w.currValue } t = res
      at hruns hcnt hval htype ⊢
    obtain ⟨out₂, go, w₂⟩ := res
    dsimp only at hruns hcnt hval htype ⊢
    rcases Q' with _ | ⟨e', Q''⟩
    · -- the last batch: no range reaches `currValue` or beyond
      have hunc : ∀ x, w.currValue ≤ x → ∀ r ∈ ranges, ¬ Covers r x := fun x hx =>
        uncovered_of_endpoints hperm (Or.inr fun q hq => by
          rw [hEB, List.append_nil] at hq
          exact Nat.le_trans (hPB q hq) hx)
      have ht0 : t = none := ht ▸ labelAt_of_uncovered (hunc _ (Nat.le_refl _))
      refine ⟨?_, fun _ => ⟨hruns.ordered, hruns.encodes_all (htype.trans ht0)
        fun x hx => labelAt_of_uncovered (hunc x (by omega))⟩⟩
      simp only [sweepLoop, reduceCtorEq, false_iff, not_exists]
      intro x
      by_cases hx : x < w.currValue
      · exact hinv.no_conflict x hx
      · exact not_conflict_of_uncovered (hunc x (by omega))
    · -- the next batch starts at `e'.value`; nothing starts or ends before it
      have hsorted' : (e' :: Q'').Pairwise fun a b => a.value ≤ b.value := by
        rw [hEB] at hmono
        exact (List.pairwise_append.mp hmono).2.1
      have hgap : ∀ q ∈ E, q.value ≤ w.currValue ∨ e'.value ≤ q.value := by
        intro q hq
        rw [hEB] at hq
        rcases List.mem_append.mp hq with hq | hq
        · exact Or.inl (hPB q hq)
        · rcases List.mem_cons.mp hq with rfl | hq
          · exact Or.inr (Nat.le_refl _)
          · exact Or.inr (List.rel_of_pairwise_cons hsorted' hq)
      have hlt : w.currValue < e'.value := hgt e' List.mem_cons_self
      have hbetween : ∀ x, w.currValue ≤ x → x < e'.value →
          countAt ranges x = countAt ranges w.currValue :=
        fun x hx hx' => countAt_eq_of_between hperm hgap hx hx'
      refine sweepLoop_spec (P ++ B) e' Q'' out₂ _ hEB rfl ⟨?_, ?_, ?_, ?_⟩
      · show Tallies w₂.counters (P ++ B)
        rw [hcnt, ← hc]
        exact htal
      · intro p hp
        exact Nat.lt_of_le_of_lt (hPB p hp) hlt
      · intro x hx
        by_cases hxv : x < w.currValue
        · exact hinv.no_conflict x hxv
        · exact not_conflict_of_countAt_eq (hbetween x (by omega) hx) hdom
      · show RunsBelow ranges out₂ { w₂ with currValue := e'.value } e'.value
        refine RunsBelow.congr (hruns.extend (Nat.succ_le_of_lt hlt) fun x hx hx' => ?_) rfl rfl
        show labelAt ranges x = w₂.currType
        rw [htype, ← ht]
        exact labelAt_eq_of_countAt_eq (hbetween x (by omega) hx')
termination_by Q.length
decreasing_by
  have hlen := congrArg List.length hsplit
  simp only [List.length_cons, List.length_append] at hlen
  have := List.length_pos_of_ne_nil hBne
  omega

/-- The sweep starts at the first endpoint with nothing counted or emitted. -/
theorem sweepInv_start {e : Endpoint} {Q : List Endpoint} (hE : E = e :: Q) :
    SweepInv ranges [] [] ⟨ActiveRanges.zero, none, e.value, e.value⟩ := by
  -- below the first endpoint nothing is covered
  have hunc : ∀ x < e.value, ∀ r ∈ ranges, ¬ Covers r x := by
    intro x hx
    apply uncovered_of_endpoints hperm (Or.inl fun q hq => ?_)
    have hmono : E.Pairwise fun a b => a.value ≤ b.value := hsorted.imp value_le_of_le
    rw [hE] at hmono hq
    rcases List.mem_cons.mp hq with rfl | hq
    · exact hx
    · exact Nat.lt_of_lt_of_le hx (List.rel_of_pairwise_cons hmono hq)
  refine ⟨tallies_zero, by simp, fun x hx => not_conflict_of_uncovered (hunc x hx), ?_⟩
  exact ⟨Nat.le_refl _, fun x hx hx' => absurd hx' (Nat.not_lt.mpr hx),
    encodesBelow_nil _ _ fun x hx => labelAt_of_uncovered (hunc x hx), ordered_nil, by simp⟩

end Sorted

/-! ## `FindNormalizedRanges` over one span -/

theorem RangeStream.drain_single (ranges : List Range) : ∀ rest : List Range,
    RangeStream.drain rest.length ⟨[⟨ranges, rest⟩]⟩ = rest
  | [] => rfl
  | r :: rest => by
    show r :: RangeStream.drain rest.length ⟨[⟨ranges, rest⟩]⟩ = r :: rest
    rw [RangeStream.drain_single ranges rest]

/-- A stream over one span serves the span sorted. -/
theorem RangeStream.toList_ofSpan (rs : List Range) :
    (RangeStream.ofSpan rs).toList = rs.insertionSort Range.le :=
  RangeStream.drain_single _ _

theorem RangeStream.size_ofSpan (rs : List Range) : (RangeStream.ofSpan rs).size = rs.length := by
  simp [RangeStream.size, RangeStream.ofSpan, RangeIterationContext.ofSpan,
    List.length_insertionSort]

section Perm

variable {rs rs' : List Range} (h : rs.Perm rs')
include h

theorem countAt_perm (x : Nat) : countAt rs x = countAt rs' x := by
  simp only [countAt, h.countP_eq]

theorem labelAt_perm (x : Nat) : labelAt rs x = labelAt rs' x := by
  rw [labelAt, labelAt, countAt_perm h]

theorem conflict_perm (x : Nat) : Conflict rs x ↔ Conflict rs' x := by
  simp only [Conflict, h.mem_iff]


end Perm

/-- The sweep over the sorted ranges meets its specification. -/
theorem findNormalizedRanges_spec (ranges : List Range) :
    SweepSpec (ranges.insertionSort Range.le)
      (FindNormalizedRanges (RangeStream.ofSpan ranges) collect []) := by
  unfold FindNormalizedRanges
  rw [RangeStream.size_ofSpan, RangeStream.toList_ofSpan]
  set sorted := ranges.insertionSort Range.le with hsorted_def
  by_cases h0 : ranges.length = 0
  · -- no ranges: nothing to emit and nothing in conflict
    have hnil : sorted = [] := by
      rw [hsorted_def, List.length_eq_zero_iff.mp h0]
      rfl
    rw [if_pos h0, hnil]
    refine ⟨by simp [Conflict], fun _ => ⟨ordered_nil, fun x T => ?_⟩⟩
    rw [labelAt_of_uncovered (by simp)]
    simp
  · rw [if_neg h0]
    set E := (endpointsOf sorted).insertionSort Endpoint.le with hE_def
    have hperm : E.Perm (endpointsOf sorted) := List.perm_insertionSort _ _
    have hsortedE : E.Pairwise Endpoint.le := List.pairwise_insertionSort _ _
    cases hE : E with
    | nil =>
      -- a range has a left endpoint, so there are endpoints to sweep
      exfalso
      obtain ⟨r, hr⟩ := List.exists_mem_of_ne_nil ranges (by simpa using h0)
      have hr' : r ∈ sorted := (List.perm_insertionSort _ _).mem_iff.mpr hr
      have := hperm.mem_iff.mpr (left_mem_endpointsOf hr')
      rw [hE] at this
      cases this
    | cons e Q =>
      exact sweepLoop_spec hperm hsortedE [] e Q [] _ hE rfl (sweepInv_start hperm hsortedE hE)

/-- **`FindNormalizedRanges` is correct.** With a callback that always goes on,
it fails exactly when some address is covered by two clashing types, and
otherwise emits non-empty ranges in increasing order, touching ones of different
types, that give every covered address its dominant type. -/
theorem findNormalizedRanges_correct (ranges : List Range) :
    let out := FindNormalizedRanges (RangeStream.ofSpan ranges) collect []
    (out.2 = .error () ↔ ∃ x, Conflict ranges x) ∧
      (out.2 = .ok () → (∀ r ∈ out.1, 0 < r.size) ∧
        out.1.Pairwise (fun r s => r.end ≤ s.addr ∧ (r.end = s.addr → r.type ≠ s.type)) ∧
        ∀ x T, (∃ r ∈ out.1, r.addr ≤ x ∧ x < r.end ∧ r.type = T) ↔ IsDominant ranges x T) := by
  intro out
  have hp : (ranges.insertionSort Range.le).Perm ranges := List.perm_insertionSort _ _
  obtain ⟨herr, hok⟩ := findNormalizedRanges_spec ranges
  refine ⟨?_, fun hout => ?_⟩
  · rw [herr]
    simp only [conflict_perm hp]
  · obtain ⟨hord, henc⟩ := hok hout
    -- success rules out a conflict anywhere
    have hnc : ∀ x, ¬ Conflict ranges x := fun x hx => by
      have := herr.mpr ⟨x, (conflict_perm hp x).mpr hx⟩
      rw [hout] at this
      cases this
    refine ⟨fun r hr => ?_, hord.sorted.and hord.touch, fun x T => ?_⟩
    · have := hord.nonempty r hr
      simp only [Range.end] at this
      omega
    · rw [← labelAt_eq_some_iff (hnc x), ← labelAt_perm hp, ← henc x T]
      simp only [Holds, and_assoc]
      rfl

end Zircon.Memalloc
