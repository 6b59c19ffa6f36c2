import Zircon.Memalloc.SweepProof
import Zircon.Runs

/-!
# `FindNormalizedRamRanges` is correct

The streaming algorithm reads the ranges in lexicographic order and keeps two
intervals: the RAM `candidate`, and `current_non_ram`, the last contiguous
stretch of non-RAM memory. The loop invariant (`RamInv`) is stated against
the left end `a` of the ranges still to come:

* what is emitted is free RAM, non-empty, in order with gaps, and ends by `a`;
* what is emitted, together with the candidate, is exactly the RAM-only
  memory of the ranges read so far;
* `current_non_ram` is non-RAM and holds every non-RAM address from its start
  on, and it starts by `a`;
* the candidate starts by `a` or where `current_non_ram` ends, and after every
  emitted range; without a candidate, the end of the last emitted range is
  before `a` or non-RAM, so that nothing to come can touch it.

From it the emitted list is the list of the maximal RAM-only runs
(`Runs.Gapped.isMaximalRun_iff`), and therefore the free-RAM ranges that
`FindNormalizedRanges` reports whenever it succeeds (`Runs.Gapped.map_eq`),
which is what the find fuzzer compares.
-/

namespace Zircon.Memalloc

open Runs

/-! ## What the algorithm owes -/

/-- Some free-RAM range covers `x`. -/
def RamAt (ranges : List Range) (x : Nat) : Prop :=
  ∃ r ∈ ranges, r.type = .kFreeRam ∧ Covers r x

/-- Some range of another type covers `x`. -/
def NonRamAt (ranges : List Range) (x : Nat) : Prop :=
  ∃ r ∈ ranges, r.type ≠ .kFreeRam ∧ Covers r x

/-- `x` is RAM and nothing else. -/
def RamOnly (ranges : List Range) (x : Nat) : Prop :=
  RamAt ranges x ∧ ¬ NonRamAt ranges x

theorem ramAt_append_singleton {P : List Range} {r : Range} {x : Nat} :
    RamAt (P ++ [r]) x ↔ RamAt P x ∨ (r.type = .kFreeRam ∧ Covers r x) := by
  simp [RamAt, or_and_right, exists_or]

theorem nonRamAt_append_singleton {P : List Range} {r : Range} {x : Nat} :
    NonRamAt (P ++ [r]) x ↔ NonRamAt P x ∨ (r.type ≠ .kFreeRam ∧ Covers r x) := by
  simp [NonRamAt, or_and_right, exists_or]

/-- A range that covers nothing changes nothing. -/
theorem ramOnly_append_of_empty {P : List Range} {r : Range}
    (hr : (Interval.ofRange r).empty = true) (x : Nat) : RamOnly (P ++ [r]) x ↔ RamOnly P x := by
  have hnc : ¬ Covers r x := fun h => Interval.not_mem_of_empty hr x (Interval.mem_ofRange.mpr h)
  simp [RamOnly, ramAt_append_singleton, nonRamAt_append_singleton, hnc]

theorem nonRamAt_append_of_empty {P : List Range} {r : Range}
    (hr : (Interval.ofRange r).empty = true) (x : Nat) : NonRamAt (P ++ [r]) x ↔ NonRamAt P x := by
  have hnc : ¬ Covers r x := fun h => Interval.not_mem_of_empty hr x (Interval.mem_ofRange.mpr h)
  simp [nonRamAt_append_singleton, hnc]

theorem ramOnly_append_of_ram {P : List Range} {r : Range} (hr : r.type = .kFreeRam) (x : Nat) :
    RamOnly (P ++ [r]) x ↔ RamOnly P x ∨ (Covers r x ∧ ¬ NonRamAt P x) := by
  simp only [RamOnly, ramAt_append_singleton, nonRamAt_append_singleton, hr, ne_eq,
    not_true_eq_false, false_and, or_false, true_and]
  tauto

theorem ramOnly_append_of_nonRam {P : List Range} {r : Range} (hr : r.type ≠ .kFreeRam)
    (x : Nat) : RamOnly (P ++ [r]) x ↔ RamOnly P x ∧ ¬ Covers r x := by
  simp only [RamOnly, ramAt_append_singleton, nonRamAt_append_singleton, hr, false_and, or_false,
    ne_eq, not_false_eq_true, true_and, not_or]
  tauto

/-! ## The loop body, with a callback that collects

The loop body of `ramRangesLoop`, cut along the source's branches: a RAM
interval is trimmed against `current_non_ram` and merged into the candidate
or starts a new one; a non-RAM interval cuts the candidate and then grows or
replaces `current_non_ram`. -/

/-- The RAM branch: the emitted ranges and the candidate. -/
def ramBranch (out : List Range) (C N I : Interval) : List Range × Interval :=
  let trimmed := I.IntersectsWith N
  let I := if trimmed then I.TailAfterIntersection N else I
  if trimmed && I.empty then (out, C)
  else if C.IntersectsWith I || C.IsAdjacentTo I then (out, C.MergeInto I)
  else if !C.empty then (out ++ [C.AsRamRange], I)
  else (out, I)

/-- The first half of the non-RAM branch: emit the head of the candidate that
the interval cuts, and keep its tail. -/
def cutCandidate (out : List Range) (C I : Interval) : List Range × Interval :=
  if C.IntersectsWith I then
    let before := C.HeadBeforeIntersection I
    (if !before.empty then out ++ [before.AsRamRange] else out, C.TailAfterIntersection I)
  else (out, C)

/-- The second half of the non-RAM branch: grow or replace `current_non_ram`. -/
def mergeNonRam (N I : Interval) : Interval :=
  if N.IntersectsWith I || N.IsAdjacentTo I then N.MergeInto I else I

/-- One pass of the loop: the emitted ranges, the candidate and `current_non_ram`. -/
def ramStep (out : List Range) (C N : Interval) (range : Range) :
    List Range × Interval × Interval :=
  let I := Interval.ofRange range
  if I.empty then (out, C, N)
  else if range.type = .kFreeRam then ((ramBranch out C N I).1, (ramBranch out C N I).2, N)
  else ((cutCandidate out C I).1, (cutCandidate out C I).2, mergeNonRam N I)

theorem ramRangesLoop_collect_cons (range : Range) (rest out : List Range) (C N : Interval) :
    ramRangesLoop collect (range :: rest) out C N =
      ramRangesLoop collect rest (ramStep out C N range).1 (ramStep out C N range).2.1
        (ramStep out C N range).2.2 := by
  rw [ramRangesLoop]
  unfold ramStep
  dsimp only
  generalize Interval.ofRange range = I
  by_cases hI : I.empty
  · simp [hI]
  · by_cases hr : range.type = .kFreeRam
    · -- the RAM branch, its interval trimmed to `J`
      simp only [hI, hr, Bool.false_eq_true, ↓reduceIte]
      unfold ramBranch
      dsimp only
      generalize (if I.IntersectsWith N = true then I.TailAfterIntersection N else I) = J
      split_ifs <;> simp_all [collect]
    · simp only [hI, hr, Bool.false_eq_true, ↓reduceIte]
      unfold cutCandidate mergeNonRam
      split_ifs <;> simp_all [collect]

theorem ramRangesLoop_collect_nil (out : List Range) (C N : Interval) :
    ramRangesLoop collect [] out C N = if !C.empty then out ++ [C.AsRamRange] else out := by
  rw [ramRangesLoop]
  split_ifs <;> rfl

/-! ## The loop invariant -/

/-- The state of the loop after the ranges `P`, every range still to come
starting at or after `a`: the emitted ranges `out`, the candidate `C` and
`current_non_ram` `N`. -/
structure RamInv (P out : List Range) (C N : Interval) (a : Nat) : Prop where
  /-- Emitted ranges are free RAM, ... -/
  out_ram : ∀ s ∈ out, s.type = .kFreeRam
  /-- ... non-empty and in order with gaps, ... -/
  gapped : Gapped Range.addr Range.end out
  /-- ... and end by `a`, out of reach of the ranges to come. -/
  out_le : ∀ s ∈ out, s.end ≤ a
  /-- The emitted ranges and the candidate hold the RAM-only addresses so far. -/
  covered : ∀ x, Covered Range.addr Range.end out x ∨ C.Mem x ↔ RamOnly P x
  /-- `current_non_ram` is non-RAM ... -/
  nonRam_sub : ∀ x, N.Mem x → NonRamAt P x
  /-- ... and holds every non-RAM address from its start on, ... -/
  nonRam_from : ∀ x, NonRamAt P x → N.left ≤ x → N.Mem x
  /-- ... which is by `a`. -/
  nonRam_left : N.left ≤ a
  /-- A candidate starts by `a` or where `current_non_ram` ends, ... -/
  cand_left : C.left < C.right → C.left ≤ a ∨ C.left = N.right
  /-- ... and past a gap after everything emitted. -/
  before_cand : C.left < C.right → ∀ s ∈ out, s.end < C.left
  /-- Without a candidate, what is emitted ends before `a` or on a non-RAM address. -/
  settled : C.right ≤ C.left → ∀ s ∈ out, s.end < a ∨ N.Mem s.end

variable {P out : List Range} {C N : Interval} {a : Nat}

theorem ramInv_start (a : Nat) : RamInv [] [] .empty₀ .empty₀ a where
  out_ram := by simp
  gapped := gapped_nil
  out_le := by simp
  covered x := by simp [Covered, Interval.Mem, Interval.empty₀, RamOnly, RamAt]
  nonRam_sub x hx := by simp [Interval.Mem, Interval.empty₀] at hx
  nonRam_from x hx := by simp [NonRamAt] at hx
  nonRam_left := Nat.zero_le a
  cand_left h := absurd h (Nat.lt_irrefl 0)
  before_cand h := absurd h (Nat.lt_irrefl 0)
  settled _ := by simp

/-- The ranges to come start later still: the invariant holds for a larger `a`. -/
theorem RamInv.mono {a' : Nat} (h : RamInv P out C N a) (ha : a ≤ a') : RamInv P out C N a' where
  out_ram := h.out_ram
  gapped := h.gapped
  out_le s hs := Nat.le_trans (h.out_le s hs) ha
  covered := h.covered
  nonRam_sub := h.nonRam_sub
  nonRam_from := h.nonRam_from
  nonRam_left := Nat.le_trans h.nonRam_left ha
  cand_left hC := (h.cand_left hC).imp (fun h' => Nat.le_trans h' ha) id
  before_cand := h.before_cand
  settled hC s hs := (h.settled hC s hs).imp (fun h' => Nat.lt_of_lt_of_le h' ha) id

/-- The candidate is RAM-only, so it never meets `current_non_ram`. -/
theorem RamInv.not_mem_nonRam (h : RamInv P out C N a) {x : Nat} (hC : C.Mem x) : ¬ N.Mem x :=
  fun hN => ((h.covered x).mp (Or.inr hC)).2 (h.nonRam_sub x hN)

/-- A range that covers nothing is skipped. -/
theorem RamInv.skip {r : Range} (h : RamInv P out C N a)
    (hr : (Interval.ofRange r).empty = true) : RamInv (P ++ [r]) out C N a where
  out_ram := h.out_ram
  gapped := h.gapped
  out_le := h.out_le
  covered x := by rw [ramOnly_append_of_empty hr]; exact h.covered x
  nonRam_sub x hx := (nonRamAt_append_of_empty hr x).mpr (h.nonRam_sub x hx)
  nonRam_from x hx := h.nonRam_from x ((nonRamAt_append_of_empty hr x).mp hx)
  nonRam_left := h.nonRam_left
  cand_left := h.cand_left
  before_cand := h.before_cand
  settled := h.settled

/-! ## A RAM range -/

section RamRange

variable {r : Range} {I J : Interval}

/-- **Trimming.** With `I` the interval of a RAM range starting at `a`, the
trimmed interval `J` holds the addresses of the range that are not non-RAM so
far; it is `I` itself when `I` misses `current_non_ram` (which then does not
hold `a`), and otherwise starts where `current_non_ram` ends, past `a`. -/
theorem RamInv.trim (h : RamInv P out C N a) (hI : ∀ x, I.Mem x ↔ Covers r x) (hIl : I.left = a)
    (hIne : I.left < I.right)
    (hJ : (if I.IntersectsWith N = true then I.TailAfterIntersection N else I) = J) :
    (∀ x, J.Mem x ↔ Covers r x ∧ ¬ NonRamAt P x) ∧
      ((I.IntersectsWith N = false ∧ J = I ∧ ¬ N.Mem a) ∨
        (I.IntersectsWith N = true ∧ a < N.right ∧ (J.left < J.right → J.left = N.right))) := by
  have hfrom : ∀ x, Covers r x → N.left ≤ x := fun x hx => by
    have := ((hI x).mpr hx).1
    have := h.nonRam_left
    omega
  subst hJ
  by_cases ht : I.IntersectsWith N = true
  · -- trimmed: the tail of `I` past `current_non_ram`
    have ht' := (Interval.intersectsWith_eq_true_iff I N).mp ht
    rw [if_pos ht]
    refine ⟨fun x => ?_, Or.inr ⟨ht, by omega, fun hne =>
      Interval.tailAfterIntersection_left ((Interval.empty_eq_false_iff _).mpr hne)⟩⟩
    rw [Interval.mem_tailAfterIntersection (by omega), hI]
    constructor
    · rintro ⟨hx, hNx⟩
      refine ⟨hx, fun hn => ?_⟩
      have := (h.nonRam_from x hn (hfrom x hx)).2
      omega
    · rintro ⟨hx, hn⟩
      refine ⟨hx, Nat.le_of_not_lt fun hlt => hn (h.nonRam_sub x ⟨hfrom x hx, hlt⟩)⟩
  · -- untouched: `I` misses `current_non_ram`
    rw [if_neg ht]
    have hmiss : ∀ x, I.Mem x → ¬ N.Mem x := fun x hx hN => ht (Interval.intersectsWith_of_mem hx hN)
    refine ⟨fun x => ?_, Or.inl ⟨by simpa using ht, rfl, hmiss a ⟨Nat.le_of_eq hIl, by omega⟩⟩⟩
    rw [hI]
    constructor
    · intro hx
      exact ⟨hx, fun hn => hmiss x ((hI x).mpr hx) (h.nonRam_from x hn (hfrom x hx))⟩
    · exact fun hx => hx.1

/-- The trimmed interval starts past a gap after everything emitted. -/
theorem RamInv.emitted_before_trim (h : RamInv P out C N a)
    (hJ : (I.IntersectsWith N = false ∧ J = I ∧ ¬ N.Mem a) ∨
      (I.IntersectsWith N = true ∧ a < N.right ∧ (J.left < J.right → J.left = N.right)))
    (hIl : I.left = a) (hJne : J.left < J.right) : ∀ s ∈ out, s.end < J.left := by
  intro s hs
  have hle := h.out_le s hs
  rcases hJ with ⟨-, rfl, hNa⟩ | ⟨-, haN, hJN⟩
  · -- an emitted range ending at `a` would make `a` non-RAM
    rw [hIl]
    rcases Nat.lt_or_ge s.end a with hlt | hge
    · exact hlt
    · have hsa : s.end = a := by omega
      by_cases hC : C.left < C.right
      · have hbefore := h.before_cand hC s hs
        rcases h.cand_left hC with hCa | hCN
        · omega
        · exact absurd ⟨h.nonRam_left, by omega⟩ hNa
      · rcases h.settled (Nat.le_of_not_lt hC) s hs with hlt | hN
        · omega
        · exact absurd (hsa ▸ hN) hNa
  · rw [hJN hJne]
    omega

theorem holds_asRamRange (i : Interval) (x : Nat) :
    Holds Range.addr Range.end i.AsRamRange x ↔ i.Mem x := by
  simp only [Holds, Interval.asRamRange_addr, Interval.asRamRange_end, Interval.Mem]

/-- A range that covers something and starts at `a` gives an interval from `a`. -/
theorem ofRange_left_of_nonempty {r : Range} (hI : (Interval.ofRange r).empty = false) (hL : GetLeft r = a) :
    (Interval.ofRange r).left = a ∧ (Interval.ofRange r).left < (Interval.ofRange r).right := by
  have hIne : (Interval.ofRange r).left < (Interval.ofRange r).right :=
    (Interval.empty_eq_false_iff _).mp hI
  have hlt : GetLeft r < GetRight r := by
    by_contra hge
    simp [Interval.ofRange, Interval.make, hge, Interval.empty₀] at hIne
  exact ⟨by rw [Interval.ofRange, Interval.make_left hlt, hL], hIne⟩

/-! The four ways out of the RAM branch. Each is stated for ranges `Q` read so
far whose RAM-only addresses are those of `P` and the trimmed interval `J`,
with `current_non_ram` still right for `Q`. -/

/-- A candidate that neither meets nor touches the trimmed interval lies
before it, past a gap, and ends by `a`. -/
theorem RamInv.candidate_before_trim (h : RamInv P out C N a)
    (hJcases : (I.IntersectsWith N = false ∧ J = I ∧ ¬ N.Mem a) ∨
      (I.IntersectsWith N = true ∧ a < N.right ∧ (J.left < J.right → J.left = N.right)))
    (hIl : I.left = a) (hJne : J.left < J.right) (hC : C.left < C.right)
    (hnm : ¬ (C.IntersectsWith J = true ∨ C.IsAdjacentTo J = true)) : C.right < J.left ∧ C.right ≤ a := by
  -- the candidate starts by the trimmed interval ...
  have hCJl : C.left ≤ J.left := by
    rcases h.cand_left hC with hCa | hCN
    · rcases hJcases with ⟨-, rfl, -⟩ | ⟨-, haN, hJN⟩
      · omega
      · rw [hJN hJne]
        omega
    · rcases hJcases with ⟨-, rfl, hNa⟩ | ⟨-, haN, hJN⟩
      · -- `current_non_ram` ends by `a`, or it would hold `a`
        have : N.right ≤ a := Nat.le_of_not_lt fun hlt => hNa ⟨h.nonRam_left, hlt⟩
        omega
      · rw [hJN hJne]
        omega
  -- ... so, neither meeting nor touching it, it ends before it past a gap
  have hCJ : C.right < J.left := by
    rw [Interval.intersectsWith_eq_true_iff, Interval.isAdjacentTo_eq_true_iff] at hnm
    omega
  refine ⟨hCJ, ?_⟩
  -- a trimmed interval starts after `current_non_ram`, which the candidate does not meet
  rcases hJcases with ⟨-, rfl, -⟩ | ⟨-, haN, hJN⟩
  · omega
  · rw [hJN hJne] at hCJ
    have hN := h.nonRam_left
    by_contra hgt
    exact h.not_mem_nonRam (show C.Mem (max C.left N.left) from ⟨by omega, by omega⟩) ⟨by omega, by omega⟩

/-- Emitting a non-empty interval `H` that starts past a gap after everything
emitted and ends by `a`: what is emitted stays free RAM, in order with gaps,
and ends by `a`. -/
theorem RamInv.emit (h : RamInv P out C N a) {H : Interval} (hH : H.left < H.right)
    (hbefore : ∀ s ∈ out, s.end < H.left) (hHa : H.right ≤ a) :
    (∀ s ∈ out ++ [H.AsRamRange], s.type = .kFreeRam) ∧ Gapped Range.addr Range.end (out ++ [H.AsRamRange]) ∧
      ∀ s ∈ out ++ [H.AsRamRange], s.end ≤ a := by
  refine ⟨fun s hs => ?_, h.gapped.snoc ?_ fun s hs => ?_, fun s hs => ?_⟩
  · rcases List.mem_append.mp hs with hs | hs
    · exact h.out_ram s hs
    · rw [List.mem_singleton.mp hs]
      rfl
  · rw [Interval.asRamRange_addr, Interval.asRamRange_end]
    exact hH
  · rw [Interval.asRamRange_addr]
    exact hbefore s hs
  · rcases List.mem_append.mp hs with hs | hs
    · exact h.out_le s hs
    · rw [List.mem_singleton.mp hs, Interval.asRamRange_end]
      exact hHa

section RamBranches

/-! The four ways the RAM branch ends, from the same description of the
ranges seen so far: `hnew` for the RAM-only addresses, `hsub` and `hfrom` for
`current_non_ram`, which the branch leaves as it is. -/

variable {Q : List Range} (hnew : ∀ x, RamOnly Q x ↔ RamOnly P x ∨ J.Mem x)
  (hsub : ∀ x, N.Mem x → NonRamAt Q x) (hfrom : ∀ x, NonRamAt Q x → N.left ≤ x → N.Mem x)
include hnew hsub hfrom

/-- Trimmed away entirely: nothing changes. -/
theorem RamInv.trimmed_away (h : RamInv P out C N a)
    (hJe : ∀ x, ¬ J.Mem x) : RamInv Q out C N a :=
  { h with
    covered := fun x => by rw [hnew, ← h.covered]; simp [hJe]
    nonRam_sub := hsub
    nonRam_from := hfrom }

/-- Merged into the candidate, which then starts at the earlier of the two. -/
theorem RamInv.merge_candidate (h : RamInv P out C N a)
    (hJne : J.left < J.right) (hJcand : J.left ≤ a ∨ J.left = N.right) (hbefore : ∀ s ∈ out, s.end < J.left)
    (hmerge : C.IntersectsWith J = true ∨ C.IsAdjacentTo J = true) : RamInv Q out (C.MergeInto J) N a := by
  have hJe : J.empty = false := (Interval.empty_eq_false_iff J).mpr hJne
  have hleft : (C.MergeInto J).left = if C.empty then J.left else min C.left J.left :=
    Interval.mergeInto_left hJe
  refine ⟨h.out_ram, h.gapped, h.out_le, fun x => ?_, hsub, hfrom, h.nonRam_left,
    fun _ => ?_, fun _ s hs => ?_, fun hle => ?_⟩
  · rw [hnew, Interval.mem_mergeInto hmerge, ← h.covered]
    exact or_assoc.symm
  · rw [hleft]
    split_ifs with hCe
    · exact hJcand
    · have hC : C.left < C.right := (Interval.empty_eq_false_iff C).mp (by simpa using hCe)
      rcases h.cand_left hC with h3 | h4 <;> omega
  · rw [hleft]
    split_ifs with hCe
    · exact hbefore s hs
    · have hC : C.left < C.right := (Interval.empty_eq_false_iff C).mp (by simpa using hCe)
      have := h.before_cand hC s hs
      have := hbefore s hs
      omega
  · have := (Interval.empty_eq_false_iff _).mp (Interval.mergeInto_empty hJe (i := C))
    omega

/-- The candidate is emitted, and the trimmed interval replaces it. -/
theorem RamInv.emit_candidate (h : RamInv P out C N a)
    (hJne : J.left < J.right) (hJcand : J.left ≤ a ∨ J.left = N.right) (hC : C.left < C.right)
    (hCJ : C.right < J.left) (hCa : C.right ≤ a) : RamInv Q (out ++ [C.AsRamRange]) J N a := by
  obtain ⟨hram, hgap, hle⟩ := h.emit hC (fun s hs => h.before_cand hC s hs) hCa
  refine ⟨hram, hgap, hle, fun x => ?_, hsub, hfrom, h.nonRam_left, fun _ => hJcand, fun _ s hs => ?_,
    fun hle => absurd hle (by omega)⟩
  · rw [hnew, ← h.covered, covered_append_singleton, holds_asRamRange]
  · rcases List.mem_append.mp hs with hs | hs
    · have := h.before_cand hC s hs
      omega
    · rw [List.mem_singleton.mp hs, Interval.asRamRange_end]
      exact hCJ

/-- No candidate: the trimmed interval becomes it. -/
theorem RamInv.new_candidate (h : RamInv P out C N a)
    (hJne : J.left < J.right) (hJcand : J.left ≤ a ∨ J.left = N.right) (hbefore : ∀ s ∈ out, s.end < J.left)
    (hCe : ∀ x, ¬ C.Mem x) : RamInv Q out J N a := by
  refine ⟨h.out_ram, h.gapped, h.out_le, fun x => ?_, hsub, hfrom, h.nonRam_left,
    fun _ => hJcand, fun _ => hbefore, fun hle => absurd hle (by omega)⟩
  rw [hnew, ← h.covered]
  simp [hCe]

end RamBranches

/-- **A RAM range**, starting at `a`: trimmed against `current_non_ram`, then
merged into the candidate, or the candidate is emitted and replaced. -/
theorem RamInv.ram (h : RamInv P out C N a) (hr : r.type = .kFreeRam) (hL : GetLeft r = a)
    (hI : (Interval.ofRange r).empty = false) :
    RamInv (P ++ [r]) (ramBranch out C N (.ofRange r)).1 (ramBranch out C N (.ofRange r)).2 N a := by
  obtain ⟨hIl, hIne⟩ := ofRange_left_of_nonempty hI hL
  have hImem : ∀ x, (Interval.ofRange r).Mem x ↔ Covers r x := fun _ => Interval.mem_ofRange
  generalize Interval.ofRange r = I at hIne hIl hImem
  unfold ramBranch
  dsimp only
  generalize hJdef : (if I.IntersectsWith N = true then I.TailAfterIntersection N else I) = J
  obtain ⟨hJmem, hJcases⟩ := h.trim hImem hIl hIne hJdef
  have hnew : ∀ x, RamOnly (P ++ [r]) x ↔ RamOnly P x ∨ J.Mem x := fun x => by
    rw [ramOnly_append_of_ram hr, hJmem]
  have hnon : ∀ x, NonRamAt (P ++ [r]) x ↔ NonRamAt P x := fun x => by
    simp [nonRamAt_append_singleton, hr]
  -- `current_non_ram` is left as it is
  have hsub : ∀ x, N.Mem x → NonRamAt (P ++ [r]) x := fun x hx => (hnon x).mpr (h.nonRam_sub x hx)
  have hfrom : ∀ x, NonRamAt (P ++ [r]) x → N.left ≤ x → N.Mem x :=
    fun x hx => h.nonRam_from x ((hnon x).mp hx)
  -- the trimmed interval starts at `a` or where `current_non_ram` ends
  have hJcand : J.left < J.right → J.left ≤ a ∨ J.left = N.right := by
    intro hJne
    rcases hJcases with ⟨-, rfl, -⟩ | ⟨-, -, hJN⟩
    · exact Or.inl (Nat.le_of_eq hIl)
    · exact Or.inr (hJN hJne)
  -- unless trimmed away entirely, what is left of the interval is not empty
  have hJne_of : ¬ (I.IntersectsWith N && J.empty) = true → J.left < J.right := by
    intro hskip
    rcases hJcases with ⟨-, rfl, -⟩ | ⟨ht, -, -⟩
    · exact hIne
    · simp only [ht, Bool.true_and, Bool.not_eq_true] at hskip
      exact (Interval.empty_eq_false_iff J).mp hskip
  split_ifs with hskip hmerge hemit <;> dsimp only
  · simp only [Bool.and_eq_true] at hskip
    exact h.trimmed_away hnew hsub hfrom (Interval.not_mem_of_empty hskip.2)
  · have hJne := hJne_of hskip
    exact h.merge_candidate hnew hsub hfrom hJne (hJcand hJne) (h.emitted_before_trim hJcases hIl hJne)
      (by simpa using hmerge)
  · have hJne := hJne_of hskip
    have hC : C.left < C.right := (Interval.empty_eq_false_iff C).mp (by simpa using hemit)
    obtain ⟨hCJ, hCa⟩ := h.candidate_before_trim hJcases hIl hJne hC (by simpa using hmerge)
    exact h.emit_candidate hnew hsub hfrom hJne (hJcand hJne) hC hCJ hCa
  · have hJne := hJne_of hskip
    exact h.new_candidate hnew hsub hfrom hJne (hJcand hJne) (h.emitted_before_trim hJcases hIl hJne)
      (Interval.not_mem_of_empty (by simpa using hemit))

/-! ## A non-RAM range -/

/-- What `current_non_ram` becomes after a non-RAM interval starting at `a`:
it holds the interval and at most what it held besides, it still holds every
earlier non-RAM address from its start on, and it has grown, or it was left
behind before `a`. -/
theorem RamInv.nonRam_merged (h : RamInv P out C N a) (hIl : I.left = a) (hIne : I.left < I.right) :
    (∀ x, (mergeNonRam N I).Mem x → N.Mem x ∨ I.Mem x) ∧
      (∀ x, I.Mem x → (mergeNonRam N I).Mem x) ∧
      (∀ x, NonRamAt P x → (mergeNonRam N I).left ≤ x → (mergeNonRam N I).Mem x) ∧
      (mergeNonRam N I).left ≤ a ∧
      ((mergeNonRam N I).right = max N.right I.right ∨
        ((mergeNonRam N I).right = I.right ∧ N.right < a)) := by
  have hIe : I.empty = false := (Interval.empty_eq_false_iff I).mpr hIne
  have hNwf := N.wf
  have hNa := h.nonRam_left
  unfold mergeNonRam
  split_ifs with hm
  · -- grown: the hull of two intervals that meet or touch
    have hm' : N.IntersectsWith I = true ∨ N.IsAdjacentTo I = true := by simpa using hm
    have hmem : ∀ x, (N.MergeInto I).Mem x ↔ N.Mem x ∨ I.Mem x := fun x => Interval.mem_mergeInto hm'
    refine ⟨fun x => (hmem x).mp, fun x hx => (hmem x).mpr (Or.inr hx), fun x hx hle => ?_, ?_, ?_⟩
    · have hNx := h.nonRam_from x hx
      rw [Interval.mergeInto_left hIe] at hle
      split_ifs at hle with hNe
      · -- an empty `current_non_ram` leaves nothing non-RAM before
        rw [Interval.empty_eq_true_iff] at hNe
        exact absurd (hNx (by omega)).2 (by omega)
      · exact (hmem x).mpr (Or.inl (hNx (by omega)))
    · rw [Interval.mergeInto_left hIe]
      split_ifs <;> omega
    · left
      rw [Interval.mergeInto_right hIe]
      split_ifs with hNe
      · rw [Interval.empty_eq_true_iff] at hNe
        omega
      · rfl
  · -- replaced: the interval neither meets nor touches it, so it ends before `a`
    have hm' : ¬ (N.IntersectsWith I = true ∨ N.IsAdjacentTo I = true) := by simpa using hm
    rw [Interval.intersectsWith_eq_true_iff, Interval.isAdjacentTo_eq_true_iff] at hm'
    have hNr : N.right < a := by omega
    refine ⟨fun x hx => Or.inr hx, fun x hx => hx, fun x hx hle => ?_, Nat.le_of_eq hIl,
      Or.inr ⟨rfl, hNr⟩⟩
    have := (h.nonRam_from x hx (by omega)).2
    omega

/-- Everything emitted lies before `a`, where the ranges to come start. -/
theorem RamInv.lt_of_covered (h : RamInv P out C N a) {x : Nat}
    (hx : Covered Range.addr Range.end out x) : x < a := by
  obtain ⟨s, hs, -, hxs⟩ := hx
  have := h.out_le s hs
  omega

/-! The two ways out of the non-RAM branch, for ranges `Q` read so far whose
RAM-only addresses are those of `P` off the interval `I`, and `N'` the new
`current_non_ram`. -/

/-- The head of the candidate before the interval, `[C.left, a)`, is emitted
when it is not empty: what is emitted stays free RAM, in order with gaps, ends
by `a`, and now covers the head as well. -/
theorem RamInv.emit_head (h : RamInv P out C N a) (hC : C.left < C.right)
    (hHmem : ∀ x, (C.HeadBeforeIntersection I).Mem x ↔ C.left ≤ x ∧ x < a) {out₁ : List Range}
    (hout : (if (!(C.HeadBeforeIntersection I).empty) = true then
      out ++ [(C.HeadBeforeIntersection I).AsRamRange] else out) = out₁) :
    (∀ s ∈ out₁, s.type = .kFreeRam) ∧ Gapped Range.addr Range.end out₁ ∧ (∀ s ∈ out₁, s.end ≤ a) ∧
      ∀ x, Covered Range.addr Range.end out₁ x ↔
        Covered Range.addr Range.end out x ∨ (C.HeadBeforeIntersection I).Mem x := by
  subst hout
  split_ifs with hH
  · have hHne : (C.HeadBeforeIntersection I).left < (C.HeadBeforeIntersection I).right :=
      (Interval.empty_eq_false_iff _).mp (by simpa using hH)
    -- the head starts where the candidate does ...
    have hHl : (C.HeadBeforeIntersection I).left = C.left := by
      rw [Interval.HeadBeforeIntersection, Interval.make_left (by
        simp only [Interval.HeadBeforeIntersection, Interval.make] at hHne
        split_ifs at hHne with h'
        · exact h'
        · simp [Interval.empty₀] at hHne)]
    -- ... and ends by `a`
    have hHr : (C.HeadBeforeIntersection I).right ≤ a := by
      by_contra hgt
      have := (hHmem (C.HeadBeforeIntersection I).left).mp ⟨Nat.le_refl _, hHne⟩
      have := (hHmem a).mp ⟨by omega, by omega⟩
      omega
    obtain ⟨hram, hgap, hle⟩ := h.emit hHne (fun s hs => hHl ▸ h.before_cand hC s hs) hHr
    exact ⟨hram, hgap, hle, fun x => by rw [covered_append_singleton, holds_asRamRange]⟩
  · have hHe : ∀ x, ¬ (C.HeadBeforeIntersection I).Mem x := Interval.not_mem_of_empty (by simpa using hH)
    exact ⟨h.out_ram, h.gapped, h.out_le, fun x => by simp [hHe]⟩

section NonRamBranches

/-! The two ways the non-RAM branch ends, from what its first half left:
`hnew` for the RAM-only addresses, and `current_non_ram` grown to `N'`. -/

variable {Q : List Range} {N' : Interval} (hnew : ∀ x, RamOnly Q x ↔ RamOnly P x ∧ ¬ I.Mem x)
  (hsub : ∀ x, N'.Mem x → NonRamAt Q x) (hfrom : ∀ x, NonRamAt Q x → N'.left ≤ x → N'.Mem x)
  (hNleft : N'.left ≤ a) (hNright : N'.right = max N.right I.right ∨ (N'.right = I.right ∧ N.right < a))
  (hsettled : ∀ e, e ≤ a → e < a ∨ N'.Mem e) (hIl : I.left = a)
include hnew hsub hfrom hNleft hNright hsettled hIl

/-- The interval cuts the candidate: its head is emitted and its tail kept. -/
theorem RamInv.cut_through (h : RamInv P out C N a) (hcut : C.IntersectsWith I = true)
    {out₁ : List Range}
    (hout : (if (!(C.HeadBeforeIntersection I).empty) = true then
      out ++ [(C.HeadBeforeIntersection I).AsRamRange] else out) = out₁) :
    RamInv Q out₁ (C.TailAfterIntersection I) N' a := by
  have hc := (Interval.intersectsWith_eq_true_iff C I).mp hcut
  have hHmem : ∀ x, (C.HeadBeforeIntersection I).Mem x ↔ C.left ≤ x ∧ x < a := fun x => by
    rw [Interval.mem_headBeforeIntersection, hIl]
  have hTmem : ∀ x, (C.TailAfterIntersection I).Mem x ↔ C.Mem x ∧ I.right ≤ x :=
    fun x => Interval.mem_tailAfterIntersection (by omega)
  obtain ⟨hram₁, hgap₁, hle₁, hcov₁⟩ := h.emit_head hc.1 hHmem hout
  refine ⟨hram₁, hgap₁, hle₁, fun x => ?_, hsub, hfrom, hNleft, fun hT => ?_, fun hT s hs => ?_,
    fun _ s hs => hsettled s.end (hle₁ s hs)⟩
  · -- the candidate less the interval: the head and the tail
    rw [hcov₁, hTmem, hnew, ← h.covered, hHmem]
    have hlt : Covered Range.addr Range.end out x → x < a := h.lt_of_covered
    simp only [Interval.Mem]
    constructor
    · rintro ((hx | hx) | hx)
      · exact ⟨Or.inl hx, fun hxI => absurd (hlt hx) (by omega)⟩
      · exact ⟨Or.inr ⟨hx.1, by omega⟩, by omega⟩
      · exact ⟨Or.inr hx.1, by omega⟩
    · rintro ⟨hx | hx, hxI⟩
      · exact Or.inl (Or.inl hx)
      · by_cases hxa : x < a
        · exact Or.inl (Or.inr ⟨hx.1, hxa⟩)
        · exact Or.inr ⟨hx, by omega⟩
  · -- the tail starts where the interval ends, which is where `current_non_ram` ends
    have hTl := Interval.tailAfterIntersection_left ((Interval.empty_eq_false_iff _).mpr hT)
    rw [hTl]
    right
    rcases hNright with hmax | ⟨hNr, -⟩
    · rw [hmax]
      -- `current_non_ram` cannot reach past the interval into the candidate
      have hTne := (hTmem (C.TailAfterIntersection I).left).mp ⟨Nat.le_refl _, hT⟩
      rw [hTl] at hTne
      by_contra hne
      have hN := h.nonRam_left
      exact h.not_mem_nonRam hTne.1 ⟨by omega, by omega⟩
    · exact hNr.symm
  · have hTl := Interval.tailAfterIntersection_left ((Interval.empty_eq_false_iff _).mpr hT)
    rw [hTl]
    have := hle₁ s hs
    omega

/-- The interval misses the candidate, which stays as it is. -/
theorem RamInv.cut_miss (h : RamInv P out C N a) (hmiss : ∀ x, C.Mem x → ¬ I.Mem x) :
    RamInv Q out C N' a := by
  refine ⟨h.out_ram, h.gapped, h.out_le, fun x => ?_, hsub, hfrom, hNleft, fun hC => ?_,
    h.before_cand, fun _ s hs => hsettled s.end (h.out_le s hs)⟩
  · rw [hnew, ← h.covered]
    constructor
    · rintro (hx | hx)
      · exact ⟨Or.inl hx, fun hI => absurd (h.lt_of_covered hx) (by simp only [Interval.Mem] at hI; omega)⟩
      · exact ⟨Or.inr hx, hmiss x hx⟩
    · exact fun hx => hx.1
  · rcases h.cand_left hC with hCa | hCN
    · exact Or.inl hCa
    · -- a candidate past `a` starts where `current_non_ram` ends, and the
      -- interval, which misses it, ends by its start
      by_cases hCa : C.left ≤ a
      · exact Or.inl hCa
      · right
        have hIC : I.right ≤ C.left := Nat.le_of_not_lt fun hlt =>
          hmiss C.left ⟨Nat.le_refl _, hC⟩ ⟨by omega, hlt⟩
        rcases hNright with hmax | ⟨-, hNr⟩
        · rw [hmax]
          omega
        · omega

end NonRamBranches

/-- **A non-RAM range**, starting at `a`: it cuts the candidate, whose head is
emitted, and then grows or replaces `current_non_ram`. -/
theorem RamInv.nonRam (h : RamInv P out C N a) (hr : r.type ≠ .kFreeRam) (hL : GetLeft r = a)
    (hI : (Interval.ofRange r).empty = false) :
    RamInv (P ++ [r]) (cutCandidate out C (.ofRange r)).1 (cutCandidate out C (.ofRange r)).2
      (mergeNonRam N (.ofRange r)) a := by
  obtain ⟨hIl, hIne⟩ := ofRange_left_of_nonempty hI hL
  have hImem : ∀ x, (Interval.ofRange r).Mem x ↔ Covers r x := fun _ => Interval.mem_ofRange
  generalize Interval.ofRange r = I at hIne hIl hImem
  have hnew : ∀ x, RamOnly (P ++ [r]) x ↔ RamOnly P x ∧ ¬ I.Mem x := fun x => by
    rw [ramOnly_append_of_nonRam hr, hImem]
  -- `current_non_ram`, grown or replaced
  obtain ⟨hNsub, hIN, hNfrom, hNleft, hNright⟩ := h.nonRam_merged hIl hIne
  have hsub : ∀ x, (mergeNonRam N I).Mem x → NonRamAt (P ++ [r]) x := by
    intro x hx
    rw [nonRamAt_append_singleton, ← hImem]
    exact (hNsub x hx).imp (h.nonRam_sub x) fun hI => ⟨hr, hI⟩
  have hfrom : ∀ x, NonRamAt (P ++ [r]) x → (mergeNonRam N I).left ≤ x → (mergeNonRam N I).Mem x := by
    intro x hx hle
    rcases nonRamAt_append_singleton.mp hx with hx | ⟨-, hx⟩
    · exact hNfrom x hx hle
    · exact hIN x ((hImem x).mpr hx)
  -- whatever ends by `a` ends before `a` or on the new interval
  have hsettled : ∀ e, e ≤ a → e < a ∨ (mergeNonRam N I).Mem e := fun e he => by
    rcases Nat.lt_or_ge e a with hlt | hge
    · exact Or.inl hlt
    · exact Or.inr (hIN e ⟨by omega, by omega⟩)
  unfold cutCandidate
  split_ifs with hcut <;> dsimp only
  · exact h.cut_through hnew hsub hfrom hNleft hNright hsettled hIl hcut rfl
  · exact h.cut_miss hnew hsub hfrom hNleft hNright hsettled hIl fun x hC hI =>
      hcut (Interval.intersectsWith_of_mem hC hI)

/-- **One pass of the loop** keeps the invariant, for a range starting at `a`. -/
theorem RamInv.step (h : RamInv P out C N a) (hL : GetLeft r = a) :
    RamInv (P ++ [r]) (ramStep out C N r).1 (ramStep out C N r).2.1 (ramStep out C N r).2.2 a := by
  unfold ramStep
  dsimp only
  by_cases hI : (Interval.ofRange r).empty = true
  · rw [if_pos hI]
    exact h.skip hI
  · have hI' : (Interval.ofRange r).empty = false := by simpa using hI
    rw [if_neg hI]
    by_cases hr : r.type = .kFreeRam
    · rw [if_pos hr]
      exact h.ram hr hL hI'
    · rw [if_neg hr]
      exact h.nonRam hr hL hI'

end RamRange

/-! ## The whole loop -/

/-- What `FindNormalizedRamRanges` owes for `ranges`: free-RAM ranges, in order
with gaps, that hold exactly the RAM-only addresses. -/
def RamSpec (ranges out : List Range) : Prop :=
  (∀ s ∈ out, s.type = .kFreeRam) ∧ Gapped Range.addr Range.end out ∧
    ∀ x, Covered Range.addr Range.end out x ↔ RamOnly ranges x

/-- After the last range the candidate is emitted, if there is one. -/
theorem RamInv.finish (h : RamInv P out C N a) : RamSpec P (ramRangesLoop collect [] out C N) := by
  rw [ramRangesLoop_collect_nil]
  split_ifs with hC
  · have hC' : C.left < C.right := (Interval.empty_eq_false_iff C).mp (by simpa using hC)
    refine ⟨fun s hs => ?_, h.gapped.snoc ?_ fun s hs => ?_, fun x => ?_⟩
    · rcases List.mem_append.mp hs with hs | hs
      · exact h.out_ram s hs
      · rw [List.mem_singleton.mp hs]
        rfl
    · rw [Interval.asRamRange_addr, Interval.asRamRange_end]
      exact hC'
    · rw [Interval.asRamRange_addr]
      exact h.before_cand hC' s hs
    · rw [covered_append_singleton, holds_asRamRange]
      exact h.covered x
  · have hCe : ∀ x, ¬ C.Mem x := Interval.not_mem_of_empty (by simpa using hC)
    exact ⟨h.out_ram, h.gapped, fun x => by simpa [hCe] using h.covered x⟩

theorem Range.addr_le_of_le {r s : Range} (h : Range.le r s) : r.addr ≤ s.addr := by
  simp only [Range.le, Range.lt, decide_eq_false_iff_not, not_or] at h
  omega

/-- **The loop over sorted ranges**, from any state that keeps the invariant
for the first left end to come. -/
theorem ramRangesLoop_spec : ∀ (rest P out : List Range) (C N : Interval) (a : Nat),
    RamInv P out C N a → (∀ r ∈ rest, a ≤ GetLeft r) → rest.Pairwise Range.le →
    RamSpec (P ++ rest) (ramRangesLoop collect rest out C N)
  | [], P, out, C, N, a, h, _, _ => by
    rw [List.append_nil]
    exact h.finish
  | r :: rest, P, out, C, N, a, h, ha, hsorted => by
    rw [ramRangesLoop_collect_cons]
    have h' := (h.mono (ha r List.mem_cons_self)).step rfl
    have hrest : ∀ s ∈ rest, GetLeft r ≤ GetLeft s :=
      fun s hs => Range.addr_le_of_le (List.rel_of_pairwise_cons hsorted hs)
    have := ramRangesLoop_spec rest (P ++ [r]) _ _ _ _ h' hrest hsorted.of_cons
    rwa [List.append_assoc, List.singleton_append] at this


/-! ## Against `FindNormalizedRanges` -/

theorem ramOnly_perm {rs rs' : List Range} (h : rs.Perm rs') {x : Nat} :
    RamOnly rs x ↔ RamOnly rs' x := by
  simp only [RamOnly, RamAt, NonRamAt, h.mem_iff]

/-- Free RAM dominates exactly where nothing else covers. -/
theorem isDominant_freeRam_iff {ranges : List Range} {x : Nat} :
    IsDominant ranges x .kFreeRam ↔ RamOnly ranges x := by
  have hnorm : ∀ t : RangeType, normalize t = .kFreeRam ↔ t = .kFreeRam := by
    intro t; cases t <;> simp [normalize]
  have hprec : ∀ t : RangeType, precedence t ≤ precedence .kFreeRam ↔ t = .kFreeRam := by
    intro t; cases t <;> simp [precedence]
  simp only [IsDominant, RamOnly, RamAt, NonRamAt, hnorm, hprec, not_exists, not_and]
  constructor
  · rintro ⟨⟨r, hr, hx, ht⟩, hall⟩
    exact ⟨⟨r, hr, ht, hx⟩, fun r hr ht hx => ht (hall r hr hx)⟩
  · rintro ⟨⟨r, hr, ht, hx⟩, hnone⟩
    exact ⟨⟨r, hr, hx, ht⟩, fun r hr hx => by_contra fun ht => hnone r hr ht hx⟩

/-- Free-RAM ranges are determined by where they start and end. -/
theorem eq_of_map_addr_end : ∀ {l₁ l₂ : List Range}, (∀ r ∈ l₁, r.type = .kFreeRam) →
    (∀ r ∈ l₂, r.type = .kFreeRam) →
    l₁.map (fun r => (r.addr, r.end)) = l₂.map (fun r => (r.addr, r.end)) → l₁ = l₂
  | [], [], _, _, _ => rfl
  | [], _ :: _, _, _, h => by simp at h
  | _ :: _, [], _, _, h => by simp at h
  | r :: t₁, s :: t₂, h₁, h₂, h => by
    simp only [List.map_cons, List.cons.injEq, Prod.mk.injEq] at h
    obtain ⟨⟨ha, he⟩, ht⟩ := h
    have hr : r = s := by
      have hrt := h₁ r List.mem_cons_self
      have hst := h₂ s List.mem_cons_self
      obtain ⟨ra, rs, rt⟩ := r
      obtain ⟨sa, ss, st⟩ := s
      simp only [Range.end] at ha he hrt hst
      simp only [Range.mk.injEq]
      exact ⟨ha, by omega, hrt.trans hst.symm⟩
    rw [hr, eq_of_map_addr_end (fun r hr => h₁ r (List.mem_cons_of_mem _ hr))
      (fun r hr => h₂ r (List.mem_cons_of_mem _ hr)) ht]

/-- The free-RAM ranges of a successful `FindNormalizedRanges`: in order with
gaps, since touching ranges there differ in type, and holding exactly the
RAM-only addresses. -/
theorem findNormalizedRanges_freeRam (ranges : List Range)
    (hok : (FindNormalizedRanges (RangeStream.ofSpan ranges) collect []).2 = .ok ()) :
    RamSpec ranges ((FindNormalizedRanges (RangeStream.ofSpan ranges) collect []).1.filter
      fun r => r.type = .kFreeRam) := by
  have hp : (ranges.insertionSort Range.le).Perm ranges := List.perm_insertionSort _ _
  obtain ⟨herr, hspec⟩ := findNormalizedRanges_spec ranges
  obtain ⟨hord, henc⟩ := hspec hok
  generalize (FindNormalizedRanges (RangeStream.ofSpan ranges) collect []).1 = full at hord henc
  have hnc : ∀ x, ¬ Conflict (ranges.insertionSort Range.le) x := fun x hx => by
    have := herr.mpr ⟨x, hx⟩
    rw [hok] at this
    cases this
  refine ⟨fun r hr => by simpa using (List.mem_filter.mp hr).2, ⟨?_, ?_⟩, fun x => ?_⟩
  · exact fun r hr => hord.nonempty r (List.mem_filter.mp hr).1
  · -- two free-RAM ranges never touch
    refine ((hord.sorted.and hord.touch).filter _).imp_of_mem fun {r s} hr hs hrs => ?_
    have hrt : r.type = .kFreeRam := by simpa using (List.mem_filter.mp hr).2
    have hst : s.type = .kFreeRam := by simpa using (List.mem_filter.mp hs).2
    exact Nat.lt_of_le_of_ne hrs.1 fun heq => hrs.2 heq (hrt.trans hst.symm)
  · have hlabel := henc x .kFreeRam
    rw [labelAt_eq_some_iff (hnc x), isDominant_freeRam_iff] at hlabel
    rw [← ramOnly_perm hp, ← hlabel]
    simp only [Covered, Holds, List.mem_filter, decide_eq_true_eq]
    constructor
    · rintro ⟨r, ⟨hr, ht⟩, hx⟩
      exact ⟨r, hr, hx, ht⟩
    · rintro ⟨r, hr, hx, ht⟩
      exact ⟨r, ⟨hr, ht⟩, hx⟩

/-- **`FindNormalizedRamRanges` is correct.** With a callback that always goes
on, it emits free-RAM ranges in increasing order with gaps between them, which
are exactly the maximal runs of addresses covered by free RAM and by nothing
else; and when `FindNormalizedRanges` succeeds on the same ranges, they are the
free-RAM ranges it reports. -/
theorem findNormalizedRamRanges_correct (ranges : List Range) :
    let out := FindNormalizedRamRanges (RangeStream.ofSpan ranges) collect []
    (∀ r ∈ out, r.type = .kFreeRam) ∧
      out.Pairwise (fun r s => r.end < s.addr) ∧
      (∀ l e, (∃ r ∈ out, r.addr = l ∧ r.end = e) ↔ IsMaximalRun (RamOnly ranges) l e) ∧
      ((FindNormalizedRanges (RangeStream.ofSpan ranges) collect []).2 = .ok () →
        out = (FindNormalizedRanges (RangeStream.ofSpan ranges) collect []).1.filter
          fun r => r.type = .kFreeRam) := by
  intro out
  have hp : (ranges.insertionSort Range.le).Perm ranges := List.perm_insertionSort _ _
  have hspec : RamSpec (ranges.insertionSort Range.le) out := by
    show RamSpec _ (ramRangesLoop collect (RangeStream.ofSpan ranges).toList [] .empty₀ .empty₀)
    rw [RangeStream.toList_ofSpan]
    have := ramRangesLoop_spec (ranges.insertionSort Range.le) [] [] .empty₀ .empty₀ 0
      (ramInv_start 0) (fun _ _ => Nat.zero_le _) (List.pairwise_insertionSort _ _)
    rwa [List.nil_append] at this
  obtain ⟨hty, hgap, hcov⟩ := hspec
  -- sorting does not change which addresses are RAM-only
  have hcov' : ∀ x, Covered Range.addr Range.end out x ↔ RamOnly ranges x :=
    fun x => (hcov x).trans (ramOnly_perm hp)
  refine ⟨hty, hgap.sorted, hgap.isMaximalRun_iff hcov', fun hok => ?_⟩
  obtain ⟨hFty, hFgap, hFcov⟩ := findNormalizedRanges_freeRam ranges hok
  exact eq_of_map_addr_end hty hFty
    (hgap.map_eq hFgap fun x => (hcov' x).trans (hFcov x).symm)

end Zircon.Memalloc
