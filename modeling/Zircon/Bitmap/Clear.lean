import Zircon.Bitmap.Set

/-!
# `ClearInternal`

`ClearInternal` walks the runs once. It keeps the runs that end before
`bitoff`, cuts `[bitoff, bitmax)` out of the run that holds `bitoff`
(splitting it in two when it also holds `bitmax`, which takes an element),
deletes the runs inside the range, trims the run that holds `bitmax`, and
stops at the first run that starts past `bitmax`. Every run it leaves is a
piece of a run it found, so the gaps between runs stay.

The split is the only failure, for want of an element, and it can only happen
at the first run the loop changes: the runs before it end before `bitoff`, and
a run after one that holds `bitoff` starts past it. So a failed call has
changed nothing.
-/

namespace Zircon.Bitmap

open Runs

namespace RleBitmap

variable {bitoff bitmax : Nat}

/-- What the loop of `ClearInternal` makes of the runs `L` from `itr` on when
it succeeds: gapped runs, each a piece of a run of `L`, holding the bits of
`L` outside `[bitoff, bitmax)`, with the counters accounting for them. -/
structure Cleared (bitoff bitmax : Nat) (L : List Element) (numBits numElems : Nat)
    (r : List Element × Nat × Nat × FreeList × Status) : Prop where
  gapped : Gapped Element.bitoff Element.end r.1
  within : ∀ e ∈ r.1, ∃ d ∈ L, d.bitoff ≤ e.bitoff ∧ e.end ≤ d.end
  covered : ∀ x, Covered Element.bitoff Element.end r.1 x ↔
    Covered Element.bitoff Element.end L x ∧ ¬ (bitoff ≤ x ∧ x < bitmax)
  numElems : r.2.2.1 + L.length = numElems + r.1.length
  numBits : ∀ T : Int, numBits = wrap (T + bitsOf L) → r.2.1 = wrap (T + bitsOf r.1)

/-- Runs that all start past `bitmax` are left as they are. -/
theorem cleared_self {L : List Element} (hL : Gapped Element.bitoff Element.end L)
    (hpast : ∀ d ∈ L, bitmax < d.bitoff) (numBits numElems : Nat) (freeList : FreeList) (status : Status) :
    Cleared bitoff bitmax L numBits numElems (L, numBits, numElems, freeList, status) where
  gapped := hL
  within e he := ⟨e, he, le_rfl, le_rfl⟩
  covered x := by
    refine ⟨fun hx => ⟨hx, ?_⟩, And.left⟩
    obtain ⟨d, hd, hlo, -⟩ := hx
    have := hpast d hd
    omega
  numElems := rfl
  numBits _ h := h

/-- One step of the loop: the first run `itr` is replaced by pieces `P` of it,
which hold its bits outside `[bitoff, bitmax)`, and the loop goes on, or
stops, with the runs after it. -/
theorem Cleared.pieces {itr : Element} {rest P : List Element} {numBits numElems numBits₀ numElems₀ : Nat}
    {r : List Element × Nat × Nat × FreeList × Status}
    (hL : Gapped Element.bitoff Element.end (itr :: rest)) (hc : Cleared bitoff bitmax rest numBits₀ numElems₀ r)
    (hP : Gapped Element.bitoff Element.end P) (hin : ∀ e ∈ P, itr.bitoff ≤ e.bitoff ∧ e.end ≤ itr.end)
    (hholds : ∀ x, Covered Element.bitoff Element.end P x ↔ itr.Holds x ∧ ¬ (bitoff ≤ x ∧ x < bitmax))
    (hne : numElems₀ + 1 = numElems + P.length)
    (hnb : ∀ T : Int, numBits = wrap (T + itr.bitlen + bitsOf rest) →
      numBits₀ = wrap (T + bitsOf P + bitsOf rest)) :
    Cleared bitoff bitmax (itr :: rest) numBits numElems (P ++ r.1, r.2) where
  gapped := by
    -- a piece of `itr` ends before the runs after `itr`, and their pieces, begin
    refine hP.append hc.gapped fun e he e' he' => ?_
    obtain ⟨d, hd, hlo, -⟩ := hc.within e' he'
    have := (hin e he).2
    have := end_lt_bitoff_of_cons hL hd
    omega
  within e he := by
    rcases List.mem_append.mp he with he | he
    · exact ⟨itr, List.mem_cons_self, hin e he⟩
    · obtain ⟨d, hd, hd'⟩ := hc.within e he
      exact ⟨d, List.mem_cons_of_mem itr hd, hd'⟩
  covered x := by
    dsimp only
    rw [covered_append, hholds, hc.covered, covered_cons, or_and_right]
  numElems := by
    have := hc.numElems
    simp only [List.length_cons, List.length_append] at this ⊢
    omega
  numBits T hT := by
    have h₀ := hnb T (by rw [hT, bitsOf_cons, Int.natCast_add, Int.add_assoc])
    dsimp only
    rw [bitsOf_append, Int.natCast_add, ← Int.add_assoc]
    exact hc.numBits _ h₀

/-- The loop of `ClearInternal` over gapped runs `L`, for a non-empty range:
it clears `[bitoff, bitmax)`, or it fails for want of an element at a run that
holds `bitoff`, and then has changed nothing. -/
theorem clearLoop_spec (hlt : bitoff < bitmax) (newOk : Bool) {L : List Element}
    (hL : Gapped Element.bitoff Element.end L) (numBits numElems : Nat) (freeList : FreeList)
    (hcount : L.length ≤ numElems) :
    ((clearLoop bitoff bitmax newOk L numBits numElems freeList).2.2.2.2 = .ok ∧
        Cleared bitoff bitmax L numBits numElems (clearLoop bitoff bitmax newOk L numBits numElems freeList)) ∨
      ((clearLoop bitoff bitmax newOk L numBits numElems freeList).2.2.2.2 = .noMemory ∧
        (∃ d ∈ L, d.bitoff < bitoff) ∧
        (clearLoop bitoff bitmax newOk L numBits numElems freeList).1 = L ∧
        (clearLoop bitoff bitmax newOk L numBits numElems freeList).2.1 = numBits ∧
        (clearLoop bitoff bitmax newOk L numBits numElems freeList).2.2.1 = numElems) := by
  induction L generalizing numBits numElems freeList with
  | nil => exact .inl ⟨rfl, cleared_self gapped_nil (by simp) numBits numElems freeList .ok⟩
  | cons itr rest ih =>
    have hrest := hL.sublist (List.sublist_cons_self itr rest)
    have hne := hL.nonempty itr List.mem_cons_self
    have hafter : ∀ d ∈ rest, itr.end < d.bitoff := fun d hd => end_lt_bitoff_of_cons hL hd
    have hcount' : rest.length + 1 ≤ numElems := hcount
    simp only [Element.end] at hne hafter
    rw [clearLoop]
    split_ifs with h₁ h₂ h₃ h₄ h₅
    · -- `itr` ends before `bitoff` and is kept
      rcases ih hrest numBits numElems freeList (by omega) with ⟨hst, hc⟩ | ⟨hst, ⟨d, hd, hdlt⟩, h1, h2, h3⟩
      · refine .inl ⟨hst, hc.pieces (P := [itr]) hL (gapped_singleton hne) (by simp) (fun x => ?_) rfl
          fun T hT => by simpa using hT⟩
        simp only [covered_singleton, Holds, Element.end]
        omega
      · exact .inr ⟨hst, ⟨d, List.mem_cons_of_mem itr hd, hdlt⟩, congrArg (itr :: ·) h1, h2, h3⟩
    · -- `itr` and every run after it start past `bitmax`
      refine .inl ⟨rfl, cleared_self hL (fun d hd => ?_) numBits numElems freeList .ok⟩
      rcases List.mem_cons.mp hd with rfl | hd
      · exact h₂
      · have := hafter d hd
        omega
    · -- `itr` holds `bitoff` and ends within the range: its tail is cut off
      rcases ih hrest _ numElems freeList (by omega) with ⟨hst, hc⟩ | ⟨-, ⟨d, hd, hdlt⟩, -⟩
      · refine .inl ⟨hst, hc.pieces (P := [⟨itr.bitoff, bitoff - itr.bitoff⟩]) hL
          (gapped_singleton (by simp only [Element.end]; omega))
          (by simp only [List.mem_singleton, forall_eq, Element.end]; omega) (fun x => ?_) rfl
          fun T hT => ?_⟩
        · simp only [covered_singleton, Holds, Element.end]
          omega
        · rw [hT, wrap_sub_wrap]
          simp only [bitsOf_cons, bitsOf_nil]
          apply congrArg wrap
          omega
      · have := hafter d hd
        omega
    · -- `itr` holds the whole range: it is split, which takes an element
      split
      · exact .inr ⟨rfl, ⟨itr, List.mem_cons_self, h₃⟩, rfl, rfl, rfl⟩
      · rename_i fl _
        have hpast : ∀ d ∈ rest, bitmax < d.bitoff := fun d hd => by
          have := hafter d hd
          omega
        refine .inl ⟨rfl, (cleared_self hrest hpast _ _ fl .ok).pieces
          (P := [⟨itr.bitoff, bitoff - itr.bitoff⟩, ⟨bitmax, itr.bitoff + itr.bitlen - bitmax⟩]) hL
          ((gapped_singleton (by simp only [Element.end]; omega)).append
            (gapped_singleton (by simp only [Element.end]; omega)) ?_) ?_ (fun x => ?_) (by simp)
          fun T hT => ?_⟩
        · simp only [List.mem_singleton, forall_eq, Element.end]
          omega
        · simp only [List.mem_cons, List.not_mem_nil, or_false, forall_eq_or_imp, forall_eq, Element.end]
          omega
        · simp only [covered_cons, covered_nil, or_false, Holds, Element.end]
          omega
        · rw [hT, wrap_sub_wrap]
          simp only [bitsOf_cons, bitsOf_nil]
          apply congrArg wrap
          omega
    · -- `itr` starts in the range and holds `bitmax`: its head is cut off
      have hpast : ∀ d ∈ rest, bitmax < d.bitoff := fun d hd => by
        have := hafter d hd
        omega
      refine .inl ⟨rfl, (cleared_self hrest hpast _ _ freeList .ok).pieces
        (P := [⟨bitmax, itr.bitoff + itr.bitlen - bitmax⟩]) hL
        (gapped_singleton (by simp only [Element.end]; omega))
        (by simp only [List.mem_singleton, forall_eq, Element.end]; omega) (fun x => ?_) (by simp)
        fun T hT => ?_⟩
      · simp only [covered_singleton, Holds, Element.end]
        omega
      · rw [hT, wrap_sub_wrap]
        simp only [bitsOf_cons, bitsOf_nil]
        apply congrArg wrap
        omega
    · -- the range holds all of `itr`, which is deleted
      rcases ih hrest _ (numElems - 1) (ReleaseElement freeList itr) (by omega) with
        ⟨hst, hc⟩ | ⟨-, ⟨d, hd, hdlt⟩, -⟩
      · refine .inl ⟨hst, hc.pieces (P := []) hL gapped_nil (by simp) (fun x => ?_) (by simp; omega)
          fun T hT => ?_⟩
        · simp only [covered_nil, false_iff, not_and, Holds, Element.end]
          omega
        · rw [hT, wrap_sub_wrap, bitsOf_nil]
          apply congrArg wrap
          omega
      · have := hafter d hd
        omega

/-- `ClearInternal` fails only on `bitmax < bitoff` or for want of an element,
and changes nothing then; otherwise it clears `[bitoff, bitmax)` and keeps the
invariant. -/
theorem clearInternal_spec {b : RleBitmap} (h : b.WellFormed) (bitoff bitmax : Nat) (freeList : FreeList)
    (newOk : Bool) :
    ((b.ClearInternal bitoff bitmax freeList newOk).2.2 = .ok ∧
        (b.ClearInternal bitoff bitmax freeList newOk).1.WellFormed ∧
        ∀ x, (b.ClearInternal bitoff bitmax freeList newOk).1.Bits x ↔ b.Bits x ∧ ¬ (bitoff ≤ x ∧ x < bitmax)) ∨
      (((b.ClearInternal bitoff bitmax freeList newOk).2.2 = .invalidArgs ∨
          (b.ClearInternal bitoff bitmax freeList newOk).2.2 = .noMemory) ∧
        (b.ClearInternal bitoff bitmax freeList newOk).1 = b) := by
  unfold ClearInternal
  split_ifs with hinv hzero
  · exact .inr ⟨.inl rfl, rfl⟩
  · exact .inl ⟨rfl, h, fun x => ⟨fun hx => ⟨hx, by omega⟩, And.left⟩⟩
  have hs := clearLoop_spec (show bitoff < bitmax by omega) newOk h.gapped b.numBits b.numElems
    freeList h.numElems.ge
  generalize clearLoop bitoff bitmax newOk b.elems b.numBits b.numElems freeList = r at hs ⊢
  obtain ⟨elems, numBits, numElems, fl, status⟩ := r
  rcases hs with ⟨hst, hc⟩ | ⟨hst, -, h1, h2, h3⟩
  · refine .inl ⟨hst, wellFormed_of hc.gapped (fun e he => ?_) ?_ (T := bitsOf elems) rfl ?_, hc.covered⟩
    · obtain ⟨d, hd, -, hle⟩ := hc.within e he
      exact Nat.lt_of_le_of_lt hle (h.bounded d hd)
    · have := hc.numElems
      have := h.numElems
      dsimp only at *
      omega
    · -- the counter was exact before the call, so it is after
      have h₀ : b.numBits = wrap (0 + bitsOf b.elems) := by
        rw [Int.zero_add, h.numBits, wrap_of_lt (bitsOf_lt h.gapped h.bounded)]
      simpa using hc.numBits 0 h₀
  · dsimp only at h1 h2 h3
    subst h1 h2 h3
    exact .inr ⟨.inr hst, rfl⟩

end RleBitmap

end Zircon.Bitmap
