import Mathlib
import Zircon.Bitmap.Calls

/-!
# `Find` and `Get`

`Find` walks the runs with `bitoff` the first bit it has not yet ruled out as
the start of a run. At each element it has three exits: the element, clipped
to the window, is a long enough run of set bits; the gap before the element is
a long enough run of clear bits; or the window ends inside the element, and no
run fits. Otherwise it moves `bitoff` to the end of the element. This is right
because the runs are maximal: the bit at the end of an element and the bit
before its start are clear, so no run of set bits reaches past an element,
and no run of clear bits into one.

`Get` skips the elements that end at or before `bitoff` and stops at the first
clear bit from there.
-/

namespace Zircon.Bitmap

open Runs

namespace RleBitmap

/-- `[s, s + runLen)` lies in `[bitoff, bitmax)`, and `P` holds on each of its
bits exactly when `isSet`. -/
def RunIn (P : Nat → Prop) (isSet : Bool) (bitoff bitmax runLen s : Nat) : Prop :=
  bitoff ≤ s ∧ s + runLen ≤ bitmax ∧ ∀ x, s ≤ x → x < s + runLen → (P x ↔ isSet = true)

/-- What `Find` owes: the least start of a run when there is one, and
`bitmax` with `ZX_ERR_NO_RESOURCES` when there is none. -/
def FindSpec (P : Nat → Prop) (isSet : Bool) (bitoff bitmax runLen : Nat) (r : Status × Nat) : Prop :=
  (∀ s, IsLeast {s | RunIn P isSet bitoff bitmax runLen s} s → r = (.ok, s)) ∧
    ((∀ s, ¬ RunIn P isSet bitoff bitmax runLen s) → r = (.noResources, bitmax))

section Spec

variable {P Q : Nat → Prop} {isSet : Bool} {bitoff bitmax runLen : Nat}

theorem findSpec_ok {s : Nat} (h : IsLeast {s | RunIn P isSet bitoff bitmax runLen s} s) :
    FindSpec P isSet bitoff bitmax runLen (.ok, s) :=
  ⟨fun _ hs => by rw [h.unique hs], fun hno => absurd h.1 (hno s)⟩

theorem findSpec_none (h : ∀ s, ¬ RunIn P isSet bitoff bitmax runLen s) :
    FindSpec P isSet bitoff bitmax runLen (.noResources, bitmax) :=
  ⟨fun s hs => absurd hs.1 (h s), fun _ => rfl⟩

/-- Two searches that admit the same starts owe the same result. -/
theorem findSpec_congr {bitoff' : Nat} {r : Status × Nat}
    (h : ∀ s, RunIn P isSet bitoff bitmax runLen s ↔ RunIn Q isSet bitoff' bitmax runLen s)
    (hQ : FindSpec Q isSet bitoff' bitmax runLen r) : FindSpec P isSet bitoff bitmax runLen r := by
  have hset : {s | RunIn P isSet bitoff bitmax runLen s} = {s | RunIn Q isSet bitoff' bitmax runLen s} :=
    Set.ext h
  exact ⟨fun s hs => hQ.1 s (hset ▸ hs), fun hno => hQ.2 fun s => (h s).not.mp (hno s)⟩

/-- Bits at or above `lo` decide which runs start there. -/
theorem runIn_congr {lo : Nat} (h : ∀ x, lo ≤ x → (P x ↔ Q x)) (s : Nat) :
    RunIn P isSet lo bitmax runLen s ↔ RunIn Q isSet lo bitmax runLen s := by
  constructor
  · rintro ⟨h₁, h₂, h₃⟩
    exact ⟨h₁, h₂, fun x hx hx' => (h x (by omega)).symm.trans (h₃ x hx hx')⟩
  · rintro ⟨h₁, h₂, h₃⟩
    exact ⟨h₁, h₂, fun x hx hx' => (h x (by omega)).trans (h₃ x hx hx')⟩

/-- A result that meets the spec is `ZX_OK` exactly at the least start. -/
theorem FindSpec.ok_iff {r : Status × Nat} (h : FindSpec P isSet bitoff bitmax runLen r) (s : Nat) :
    r = (.ok, s) ↔ IsLeast {s | RunIn P isSet bitoff bitmax runLen s} s := by
  classical
  refine ⟨fun hr => ?_, h.1 s⟩
  by_cases hex : ∃ s, RunIn P isSet bitoff bitmax runLen s
  · have hm := Nat.isLeast_find hex
    rw [h.1 _ hm, Prod.mk.injEq] at hr
    rw [← hr.2]
    exact hm
  · rw [h.2 (not_exists.mp hex)] at hr
    simp at hr

/-- A result that meets the spec is `ZX_ERR_NO_RESOURCES` exactly when no run
fits. -/
theorem FindSpec.none_iff {r : Status × Nat} (h : FindSpec P isSet bitoff bitmax runLen r) :
    r = (.noResources, bitmax) ↔ ∀ s, ¬ RunIn P isSet bitoff bitmax runLen s := by
  classical
  refine ⟨fun hr s hs => ?_, h.2⟩
  rw [h.1 _ (Nat.isLeast_find ⟨s, hs⟩)] at hr
  simp at hr

end Spec

/-! ## The first run of a gapped list -/

section Head

variable {elem : Element} {rest : List Element}

/-- Below the end of its first run, a gapped list holds the bits of that run. -/
theorem covered_cons_of_lt_end (hL : Gapped Element.bitoff Element.end (elem :: rest)) {x : Nat}
    (hx : x < elem.end) : Covered Element.bitoff Element.end (elem :: rest) x ↔ elem.bitoff ≤ x := by
  rw [covered_cons]
  constructor
  · rintro (⟨h, -⟩ | ⟨d, hd, h, -⟩)
    · exact h
    · have := end_lt_bitoff_of_cons hL hd
      omega
  · intro h
    exact .inl ⟨h, hx⟩

/-- From the end of its first run on, a gapped list holds the bits of the rest. -/
theorem covered_cons_of_end_le {x : Nat} (hx : elem.end ≤ x) :
    Covered Element.bitoff Element.end (elem :: rest) x ↔ Covered Element.bitoff Element.end rest x := by
  rw [covered_cons]
  exact or_iff_right fun h => by
    have := h.2
    omega

variable {isSet : Bool} {bitmax runLen : Nat}

/-- When neither exit of `findLoop` at `elem` is taken, no run starts below
the end of `elem`. -/
theorem not_runIn_of_lt_end (hL : Gapped Element.bitoff Element.end (elem :: rest)) (hrun : 0 < runLen)
    {c s : Nat}
    (hset : ¬(isSet = true ∧ Min.min bitmax elem.end > Max.max c elem.bitoff ∧
      Min.min bitmax elem.end - Max.max c elem.bitoff ≥ runLen))
    (hclr : ¬(isSet = false ∧ c < elem.bitoff ∧ elem.bitoff - c ≥ runLen)) (hs : s < elem.end) :
    ¬ RunIn (Covered Element.bitoff Element.end (elem :: rest)) isSet c bitmax runLen s := by
  rintro ⟨hcs, hsmax, hbits⟩
  have hne := hL.nonempty elem List.mem_cons_self
  cases isSet with
  | true =>
    -- the run holds `s`, so it starts in `elem`, and it stops before `elem.end`
    have h₀ := (covered_cons_of_lt_end hL hs).mp ((hbits s le_rfl (by omega)).mpr rfl)
    have h₁ : s + runLen ≤ elem.end := by
      by_contra hlt
      exact hL.not_covered_hi List.mem_cons_self ((hbits elem.end (by omega) (by omega)).mpr rfl)
    exact hset ⟨rfl, by omega, by omega⟩
  | false =>
    -- the run misses `s`, so it starts before `elem`, and it stops before `elem.bitoff`
    have h₀ : s < elem.bitoff := by
      by_contra hle
      exact Bool.false_ne_true ((hbits s le_rfl (by omega)).mp ((covered_cons_of_lt_end hL hs).mpr (by omega)))
    have h₁ : s + runLen ≤ elem.bitoff := by
      by_contra hlt
      exact Bool.false_ne_true
        ((hbits elem.bitoff (by omega) (by omega)).mp ((covered_cons_of_lt_end hL hne).mpr le_rfl))
    exact hclr ⟨rfl, by omega, by omega⟩

end Head

/-! ## The loops -/

/-- The loop of `Find` over gapped runs, from a `bitoff` within the window. -/
theorem findLoop_spec (isSet : Bool) {bitmax runLen : Nat} (hmax : bitmax < 2 ^ 64) (hrun : 0 < runLen)
    {L : List Element} (hL : Gapped Element.bitoff Element.end L) {c : Nat} (hc : c ≤ bitmax) :
    FindSpec (Covered Element.bitoff Element.end L) isSet c bitmax runLen (findLoop isSet bitmax runLen L c) := by
  induction L generalizing c with
  | nil =>
    rw [findLoop, wrap_sub_of_le hc hmax]
    split_ifs with h
    · -- past the last run every bit is clear, so `c` starts a run of clear bits
      refine findSpec_ok ⟨⟨le_rfl, by omega, fun x _ _ => ?_⟩, fun s hs => hs.1⟩
      simp [h.1]
    · refine findSpec_none fun s ⟨hcs, hsmax, hbits⟩ => h ⟨?_, by omega⟩
      simpa using hbits s le_rfl (by omega)
  | cons elem rest ih =>
    have hrest := hL.sublist (List.sublist_cons_self elem rest)
    have hne := hL.nonempty elem List.mem_cons_self
    rw [findLoop]
    dsimp only
    split_ifs with h₁ h₂ h₃ h₄ h₅
    · -- `elem` ends at or before `c`
      exact findSpec_congr (runIn_congr fun x hx => covered_cons_of_end_le (by omega)) (ih hrest hc)
    · -- the window is shorter than a run
      rw [wrap_sub_of_le hc hmax] at h₂
      exact findSpec_none fun s hs => by
        have := hs.1
        have := hs.2.1
        omega
    · -- `elem`, clipped to the window, is a run of set bits
      obtain ⟨rfl, hgt, hlen⟩ := h₃
      refine findSpec_ok ⟨⟨by omega, by omega, fun x hx hx' => ?_⟩, fun s hs => ?_⟩
      · simp only [iff_true]
        exact (covered_cons_of_lt_end hL (by omega)).mpr (by omega)
      · -- a start before `elem` would be a clear bit
        obtain ⟨hcs, -, hbits⟩ := hs
        by_contra hlt
        have hcov := (hbits s le_rfl (by omega)).mpr rfl
        rw [covered_cons_of_lt_end hL (by omega)] at hcov
        omega
    · -- the gap before `elem` is a run of clear bits
      obtain ⟨rfl, hlt, hlen⟩ := h₄
      rw [wrap_sub_of_le hc hmax] at h₂
      refine findSpec_ok ⟨⟨le_rfl, by omega, fun x hx hx' => ?_⟩, fun s hs => hs.1⟩
      rw [covered_cons_of_lt_end hL (by omega)]
      simp only [Bool.false_eq_true, iff_false, not_le]
      omega
    · -- the window ends inside `elem`, and no run starts before its end
      exact findSpec_none fun s hs => not_runIn_of_lt_end hL hrun h₃ h₄ (by have := hs.2.1; omega) hs
    · -- no run starts before the end of `elem`: the search goes on from there
      refine findSpec_congr (fun s => ⟨fun hs => ?_, fun hs => ?_⟩) (ih hrest (c := elem.end) (by omega))
      · have hse : elem.end ≤ s := by
          by_contra hlt
          exact not_runIn_of_lt_end hL hrun h₃ h₄ (by omega) hs
        exact ⟨hse, hs.2.1, fun x hx hx' => (covered_cons_of_end_le (by omega)).symm.trans (hs.2.2 x hx hx')⟩
      · have := hs.1
        exact ⟨by omega, hs.2.1, fun x hx hx' => (covered_cons_of_end_le (by omega)).trans (hs.2.2 x hx hx')⟩

/-- The loop of `Get` returns the first bit at or after `c` that the runs do
not hold. -/
theorem getLoop_spec {L : List Element} (hL : Gapped Element.bitoff Element.end L) (c : Nat) :
    IsLeast {x | c ≤ x ∧ ¬ Covered Element.bitoff Element.end L x} (getLoop L c) := by
  induction L with
  | nil => exact ⟨⟨le_rfl, covered_nil⟩, fun _ hx => hx.1⟩
  | cons elem rest ih =>
    have hne := hL.nonempty elem List.mem_cons_self
    have hend : elem.end = elem.bitoff + elem.bitlen := rfl
    rw [getLoop]
    split_ifs with h₁ h₂
    · -- `c` is in the gap before `elem`
      refine ⟨⟨le_rfl, ?_⟩, fun _ hx => hx.1⟩
      rw [covered_cons_of_lt_end hL (by omega)]
      omega
    · -- `c` is in `elem`, and the end of `elem` is the first clear bit after it
      refine ⟨⟨by omega, hL.not_covered_hi List.mem_cons_self⟩, fun x ⟨hcx, hx⟩ => ?_⟩
      by_contra hlt
      exact hx ((covered_cons_of_lt_end hL (by omega)).mpr (by omega))
    · -- `elem` ends at or before `c`
      have hset : {x | c ≤ x ∧ ¬ Covered Element.bitoff Element.end (elem :: rest) x} =
          {x | c ≤ x ∧ ¬ Covered Element.bitoff Element.end rest x} :=
        Set.ext fun x => and_congr_right fun hcx => not_congr (covered_cons_of_end_le (by omega))
      rw [hset]
      exact ih (hL.sublist (List.sublist_cons_self elem rest))

/-! ## `Find` and `Get` -/

/-- `Find(is_set, bitoff, bitmax, run_len)` on a bitmap whose runs are gapped,
with `bitoff ≤ bitmax` in `size_t` and a non-empty run. -/
theorem find_spec {b : RleBitmap} (h : Gapped Element.bitoff Element.end b.elems) (isSet : Bool)
    {bitoff bitmax runLen : Nat} (hle : bitoff ≤ bitmax) (hmax : bitmax < 2 ^ 64) (hrun : 0 < runLen) :
    FindSpec b.Bits isSet bitoff bitmax runLen (b.Find isSet bitoff bitmax runLen) :=
  findLoop_spec isSet hmax hrun h hle

/-- `Get(bitoff, bitmax)` on a bitmap whose runs are gapped: whether every bit
of `[bitoff, bitmax)` is set, and the first clear bit from `bitoff`, clipped
to `bitmax`. -/
theorem get_spec {b : RleBitmap} (h : Gapped Element.bitoff Element.end b.elems) (bitoff bitmax : Nat) :
    ((b.Get bitoff bitmax).1 = true ↔ ∀ x, bitoff ≤ x → x < bitmax → b.Bits x) ∧
      ∃ c, IsLeast {x | bitoff ≤ x ∧ ¬ b.Bits x} c ∧ (b.Get bitoff bitmax).2 = Min.min bitmax c := by
  have hg := getLoop_spec h bitoff
  refine ⟨?_, getLoop b.elems bitoff, hg, ?_⟩
  · simp only [Get, beq_iff_eq]
    constructor
    · -- every bit below the first clear one is set
      intro heq x hx hx'
      by_contra hnx
      have := hg.2 ⟨hx, hnx⟩
      split_ifs at heq <;> omega
    · -- the first clear bit is not below `bitmax`
      intro hall
      have hge : bitmax ≤ getLoop b.elems bitoff := by
        by_contra hlt
        exact hg.1.2 (hall _ hg.1.1 (by omega))
      split_ifs <;> omega
  · simp only [Get]
    split_ifs <;> omega

/-- `Find` and `Get` on every bitmap the operations reach, for `bitoff ≤ bitmax`
in `size_t` and a non-empty run: `Find` returns `ZX_OK` at exactly the least
start of a run of `run_len` bits equal to `is_set` within `[bitoff, bitmax)`,
and `ZX_ERR_NO_RESOURCES` with `bitmax` exactly when there is none; `Get`
returns `true` exactly when every bit of `[bitoff, bitmax)` is set, and the
first clear bit from `bitoff`, clipped to `bitmax`. -/
theorem find_get_correct {b : RleBitmap} (h : Reachable b) (isSet : Bool) {bitoff bitmax runLen : Nat}
    (hle : bitoff ≤ bitmax) (hmax : bitmax < 2 ^ 64) (hrun : 1 ≤ runLen) :
    (∀ s, b.Find isSet bitoff bitmax runLen = (.ok, s) ↔
        IsLeast {s | RunIn b.Bits isSet bitoff bitmax runLen s} s) ∧
      (b.Find isSet bitoff bitmax runLen = (.noResources, bitmax) ↔
        ∀ s, ¬ RunIn b.Bits isSet bitoff bitmax runLen s) ∧
      ((b.Get bitoff bitmax).1 = true ↔ ∀ x, bitoff ≤ x → x < bitmax → b.Bits x) ∧
      ∃ c, IsLeast {x | bitoff ≤ x ∧ ¬ b.Bits x} c ∧ (b.Get bitoff bitmax).2 = Min.min bitmax c := by
  have hg := h.wellFormed.gapped
  have hf := find_spec hg isSet hle hmax hrun
  exact ⟨hf.ok_iff, hf.none_iff, get_spec hg bitoff bitmax⟩

theorem find_get_correct_set :
    Reachable (empty.Set 2 5 true).1 ∧
      ((empty.Set 2 5 true).1.Find true 0 10 2 = (.noResources, 10) ↔
        ∀ s, ¬ RunIn (empty.Set 2 5 true).1.Bits true 0 10 2 s) :=
  have hr : Reachable (empty.Set 2 5 true).1 := .set 2 5 true (by decide) .empty
  ⟨hr, (find_get_correct hr true (by decide) (by decide) (by decide)).2.1⟩

end RleBitmap

end Zircon.Bitmap
