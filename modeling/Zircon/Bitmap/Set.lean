import Zircon.Bitmap.Invariant

/-!
# `SetInternal`

`SetInternal` puts a new run `[bitoff, bitmax)` before the first run that
ends at or after `bitoff`, moves its start back to that run's start when it
begins inside or after it, and then folds into it every run that starts at or
before its end. The runs before it end before `bitoff`, so a clear bit stays
between them and the new run; the loop stops at the first run starting past
the merged end.
-/

namespace Zircon.Bitmap

open Runs SortedIndex

namespace RleBitmap

/-- What the merge loop of `SetInternal` makes of `elem` and the runs `D` it
folds in: the merged run starts where `elem` does and holds the bits of both,
the run after it starts past its end, and the counters account for the runs
taken out. -/
structure Merged (elem : Element) (numBits numElems : Nat) (D : List Element)
    (r : Element × List Element × Nat × Nat × FreeList) : Prop where
  bitoff : r.1.bitoff = elem.bitoff
  end_le : elem.end ≤ r.1.end
  holds : ∀ x, r.1.Holds x ↔ elem.Holds x ∨ Covered Element.bitoff Element.end D x
  gap : ∀ q ∈ r.2.1.head?, r.1.end < q.bitoff
  numElems : r.2.2.2.1 + D.length = numElems
  numBits : ∀ T : Int, numBits = wrap (T + elem.bitlen + bitsOf D) → r.2.2.1 = wrap (T + r.1.bitlen)

/-- The merge loop stops at once before a run starting past `max`. -/
theorem merged_nil {elem : Element} {numBits numElems : Nat} {rest : List Element} {freeList : FreeList}
    (hgap : ∀ q ∈ rest.head?, elem.end < q.bitoff) :
    Merged elem numBits numElems [] (elem, rest, numBits, numElems, freeList) where
  bitoff := rfl
  end_le := le_rfl
  holds x := by simp [Covered]
  gap := hgap
  numElems := rfl
  numBits T h := by simpa using h

/-- The merge loop on the runs `L` after the new one, all starting no earlier
than it: it folds in a prefix `D` of them. -/
theorem mergeLoop_spec {L : List Element} (hL : Gapped Element.bitoff Element.end L) (freeList : FreeList)
    (elem : Element) (max numBits numElems : Nat) (hmax : max = elem.end) (hne : elem.bitoff < elem.end)
    (hle : ∀ d ∈ L, elem.bitoff ≤ d.bitoff) (hcount : L.length ≤ numElems) :
    ∃ D, L = D ++ (mergeLoop freeList elem max numBits numElems L).2.1 ∧
      Merged elem numBits numElems D (mergeLoop freeList elem max numBits numElems L) := by
  induction L generalizing freeList elem max numBits numElems with
  | nil => exact ⟨[], rfl, merged_nil (by simp)⟩
  | cons itr rest ih =>
    by_cases hgap : itr.bitoff > max
    · rw [mergeLoop, if_pos hgap]
      refine ⟨[], rfl, merged_nil fun q hq => ?_⟩
      rw [List.head?_cons, Option.mem_some_iff] at hq
      subst hq
      omega
    · rw [mergeLoop, if_neg hgap]
      dsimp only
      have hitr := hle itr List.mem_cons_self
      -- one step: `elem` now reaches the end of `itr` as well
      have hend₁ : Max.max max itr.end = Element.end { elem with bitlen := Max.max max itr.end - elem.bitoff } := by
        simp only [Element.end] at hmax ⊢
        omega
      obtain ⟨D, hD, hm⟩ := ih (hL.sublist (List.sublist_cons_self itr rest)) (ReleaseElement freeList itr)
        { elem with bitlen := Max.max max itr.end - elem.bitoff } (Max.max max itr.end)
        (wrap (numBits + (((Max.max max itr.end : Nat) : Int) - elem.bitoff - itr.bitlen - elem.bitlen)))
        (numElems - 1) hend₁ (by simp only [Element.end] at hmax hne ⊢; omega)
        (fun d hd => hle d (List.mem_cons_of_mem itr hd)) (by simp only [List.length_cons] at hcount; omega)
      refine ⟨itr :: D, by rw [List.cons_append, ← hD], hm.bitoff, ?_, fun x => ?_, hm.gap, ?_, fun T hT => ?_⟩
      · have := hm.end_le
        simp only [Element.end] at hmax this ⊢
        omega
      · -- the stretched run holds the bits of `elem` and of `itr`
        have hstep : Element.Holds { elem with bitlen := Max.max max itr.end - elem.bitoff } x ↔
            elem.Holds x ∨ itr.Holds x := by
          simp only [Element.holds_iff, Element.end] at hmax hgap hitr ⊢
          omega
        rw [hm.holds x, covered_cons, hstep, or_assoc]
      · have := hm.numElems
        simp only [List.length_cons] at hcount ⊢
        omega
      · refine hm.numBits T ?_
        rw [hT, wrap_add_wrap, bitsOf_cons]
        apply congrArg wrap
        dsimp only
        simp only [Element.end] at hmax hgap hne
        omega

/-- After the merge, the runs left start past the merged run's end: the first
by the loop's exit test, the others past that one. -/
theorem gap_after_merged {elem : Element} {rest' : List Element} (hgr : Gapped Element.bitoff Element.end rest')
    (hgp : ∀ q ∈ rest'.head?, elem.end < q.bitoff) : ∀ e ∈ rest', elem.end < e.bitoff := by
  intro e he
  cases rest' with
  | nil => simp at he
  | cons q S =>
    have hq := hgp q (by simp)
    rcases List.mem_cons.mp he with rfl | he
    · exact hq
    · have := end_lt_bitoff_of_cons hgr he
      have := hgr.nonempty q List.mem_cons_self
      omega

/-- The merged run ends in `size_t`: its last bit is one of the new run's or
of a run folded in, and all of those do. -/
theorem merged_end_lt {elem elem₀ : Element} {D : List Element} (hbo : elem.bitoff = elem₀.bitoff)
    (hel : elem₀.end ≤ elem.end) (hne₀ : elem₀.bitoff < elem₀.end)
    (hho : ∀ x, elem.Holds x ↔ elem₀.Holds x ∨ Covered Element.bitoff Element.end D x)
    (h₀ : elem₀.end < 2 ^ 64) (hD : ∀ d ∈ D, d.end < 2 ^ 64) : elem.end < 2 ^ 64 := by
  have hlast := (hho (elem.end - 1)).mp (by
    rw [Element.holds_iff, hbo]
    simp only [Element.end] at hel hne₀ ⊢
    omega)
  rcases hlast with hx | ⟨d, hd, hx⟩
  · have := hx.2
    omega
  · have := hD d hd
    have := hx.2
    omega

/-- The bits after the merge: those of the runs before, of the merged run and
of the runs after it are the old bits and `[bitoff, bitmax)`. `itr` is the
first of the runs `D ++ rest'`, so its bits are counted on both sides. -/
theorem bits_after_merge {b : RleBitmap} {bitoff bitmax : Nat} {before rest D rest' : List Element}
    {itr elem₀ elem : Element} {numElems numBits : Nat} (hall : b.elems = before ++ D ++ rest')
    (hD : itr :: rest = D ++ rest')
    (hho : ∀ x, elem.Holds x ↔ elem₀.Holds x ∨ Covered Element.bitoff Element.end D x)
    (h₀holds : ∀ x, elem₀.Holds x ∨ itr.Holds x ↔ (bitoff ≤ x ∧ x < bitmax) ∨ itr.Holds x) (x : Nat) :
    Bits ⟨before ++ elem :: rest', numElems, numBits⟩ x ↔ b.Bits x ∨ (bitoff ≤ x ∧ x < bitmax) := by
  have hitr : itr.Holds x → Covered Element.bitoff Element.end D x ∨
      Covered Element.bitoff Element.end rest' x := fun hx => by
    rw [← covered_append, ← hD]
    exact ⟨itr, List.mem_cons_self, hx⟩
  simp only [Bits]
  rw [hall, covered_append, covered_append, covered_cons,
    show Holds Element.bitoff Element.end elem x ↔ _ from hho x, covered_append]
  -- a bit of `elem₀` is in `[bitoff, bitmax)` or in `itr`, which `D` or `rest'` covers
  have hcov : itr.Holds x → (Covered Element.bitoff Element.end before x ∨
      Covered Element.bitoff Element.end D x) ∨ Covered Element.bitoff Element.end rest' x := fun hi =>
    (hitr hi).imp .inr id
  constructor
  · rintro (hb | (he | hd) | hr)
    · exact .inl (.inl (.inl hb))
    · rcases (h₀holds x).mp (.inl he) with hs | hi
      · exact .inr hs
      · exact .inl (hcov hi)
    · exact .inl (.inl (.inr hd))
    · exact .inl (.inr hr)
  · rintro (((hb | hd) | hr) | hs)
    · exact .inl hb
    · exact .inr (.inl (.inr hd))
    · exact .inr (.inr hr)
    · rcases (h₀holds x).mpr (.inl hs) with he | hi
      · exact .inr (.inl (.inl he))
      · rcases hitr hi with hd | hr
        · exact .inr (.inl (.inr hd))
        · exact .inr (.inr hr)

/-- The case of `SetInternal` where a run `itr` ends at or after `bitoff`: the
new run `elem₀`, moved back to the start of `itr` if need be, is merged with
the runs from `itr` on. -/
theorem setInternal_merge {b : RleBitmap} (h : b.WellFormed) {bitoff bitmax : Nat}
    (hlt : bitoff < bitmax) (hmax : bitmax < 2 ^ 64) {before rest : List Element} {itr : Element}
    (hl : b.elems = before ++ itr :: rest) (hbefore : ∀ e ∈ before, e.end < bitoff)
    {elem₀ : Element} (h₀end : elem₀.end = bitmax) (h₀lo : elem₀.bitoff = Min.min bitoff itr.bitoff)
    (h₀holds : ∀ x, elem₀.Holds x ∨ itr.Holds x ↔ (bitoff ≤ x ∧ x < bitmax) ∨ itr.Holds x)
    (freeList : FreeList) {elem : Element} {rest' : List Element} {numBits numElems : Nat} {fl : FreeList}
    (hr : mergeLoop freeList elem₀ (elem₀.bitoff + elem₀.bitlen) (wrap (b.numBits + elem₀.bitlen))
      (b.numElems + 1) (itr :: rest) = (elem, rest', numBits, numElems, fl)) :
    (⟨before ++ elem :: rest', numElems, numBits⟩ : RleBitmap).WellFormed ∧
      ∀ x, Bits ⟨before ++ elem :: rest', numElems, numBits⟩ x ↔ b.Bits x ∨ (bitoff ≤ x ∧ x < bitmax) := by
  have hg : Gapped Element.bitoff Element.end (before ++ itr :: rest) := hl ▸ h.gapped
  have hgL := hg.sublist (List.sublist_append_right before _)
  -- the runs from `itr` on start after `itr` does
  have hle : ∀ d ∈ itr :: rest, elem₀.bitoff ≤ d.bitoff := by
    intro d hd
    rcases List.mem_cons.mp hd with rfl | hd
    · omega
    · have := end_lt_bitoff_of_cons hgL hd
      have := hgL.nonempty itr List.mem_cons_self
      simp only [Element.end] at *
      omega
  have hne₀ : elem₀.bitoff < elem₀.end := by omega
  have hcount : (itr :: rest).length ≤ b.numElems + 1 := by
    rw [h.numElems, hl]
    simp only [List.length_cons, List.length_append]
    omega
  obtain ⟨D, hD, hm⟩ := mergeLoop_spec hgL freeList elem₀ (elem₀.bitoff + elem₀.bitlen)
    (wrap (b.numBits + elem₀.bitlen)) (b.numElems + 1) rfl hne₀ hle hcount
  rw [hr] at hD hm
  obtain ⟨hbo, hel, hho, hgp, hne, hnb⟩ := hm
  dsimp only at hD hbo hel hho hgp hne hnb
  have hall : b.elems = before ++ D ++ rest' := by rw [hl, hD, List.append_assoc]
  have hgall : Gapped Element.bitoff Element.end (before ++ D ++ rest') := hall ▸ h.gapped
  -- the merged run starts where `elem₀` does, after every run before it
  have hlo : ∀ e ∈ before, e.end < elem.bitoff := by
    intro e he
    have := hbefore e he
    have := hg.lt_of_append he List.mem_cons_self
    rw [hbo, h₀lo]
    omega
  have hgap' := gap_after_merged (hgall.sublist (List.sublist_append_right _ _)) hgp
  have hbound : ∀ e ∈ b.elems, e.end < 2 ^ 64 := h.bounded
  have hend : elem.end < 2 ^ 64 :=
    merged_end_lt hbo hel hne₀ hho (by omega) fun d hd => hbound d (by rw [hall]; simp [hd])
  refine ⟨wellFormed_of ?_ ?_ ?_ (T := bitsOf (before ++ elem :: rest')) rfl ?_,
    bits_after_merge hall hD hho h₀holds⟩
  · refine (hgall.sublist ?_).insert (by rw [hbo]; omega) hlo hgap'
    exact List.Sublist.append (List.sublist_append_left _ _) (List.Sublist.refl _)
  · intro e he
    rcases List.mem_append.mp he with he | he
    · exact hbound e (by rw [hall]; simp [he])
    · rcases List.mem_cons.mp he with rfl | he
      · exact hend
      · exact hbound e (by rw [hall]; simp [he])
  · have hlen := congrArg List.length hall
    rw [← h.numElems] at hlen
    simp only [List.length_append, List.length_cons] at hlen hne ⊢
    omega
  · -- the loop's count is the total with `D` and `elem₀` traded for the merged run
    have hT : wrap (b.numBits + elem₀.bitlen) =
        wrap ((bitsOf before + bitsOf rest' : Nat) + elem₀.bitlen + bitsOf D) := by
      rw [h.numBits, hall]
      apply congrArg wrap
      simp only [bitsOf_append]
      omega
    rw [hnb _ hT]
    apply congrArg wrap
    simp only [bitsOf_append, bitsOf_cons]
    omega

/-- `SetInternal` with `size_t` arguments fails only on `bitmax < bitoff` or
for want of an element, and changes nothing then; otherwise it sets
`[bitoff, bitmax)` and keeps the invariant. -/
theorem setInternal_spec {b : RleBitmap} (h : b.WellFormed) {bitoff bitmax : Nat} (hmax : bitmax < 2 ^ 64)
    (freeList : FreeList) (newOk : Bool) :
    ((b.SetInternal bitoff bitmax freeList newOk).2.2 = .ok ∧
        (b.SetInternal bitoff bitmax freeList newOk).1.WellFormed ∧
        ∀ x, (b.SetInternal bitoff bitmax freeList newOk).1.Bits x ↔ b.Bits x ∨ (bitoff ≤ x ∧ x < bitmax)) ∨
      (((b.SetInternal bitoff bitmax freeList newOk).2.2 = .invalidArgs ∨
          (b.SetInternal bitoff bitmax freeList newOk).2.2 = .noMemory) ∧
        (b.SetInternal bitoff bitmax freeList newOk).1 = b) := by
  unfold SetInternal
  dsimp only
  split_ifs with hinv hzero
  · exact .inr ⟨.inl rfl, rfl⟩
  · exact .inl ⟨rfl, h, fun x => ⟨.inl, fun hx => hx.elim id fun hx => by omega⟩⟩
  split
  · exact .inr ⟨.inr rfl, rfl⟩
  rename_i fl _
  have hlt : bitoff < bitmax := by omega
  obtain ⟨hl, hbefore, hafter⟩ := span_end_spec h.gapped bitoff
  generalize hsp : b.elems.span _ = sp at hl hbefore hafter
  obtain ⟨before, after⟩ := sp
  dsimp only at hl hbefore hafter ⊢
  cases after with
  | nil =>
    -- every run ends before `bitoff`: the new run goes last
    rw [List.append_nil] at hl
    refine .inl ⟨rfl, wellFormed_of ?_ ?_ ?_ (T := bitsOf (before ++ [⟨bitoff, bitmax - bitoff⟩])) rfl ?_,
      fun x => ?_⟩
    · exact (hl ▸ h.gapped).snoc (by simp only [Element.end]; omega) fun e he => hbefore e he
    · intro e he
      rcases List.mem_append.mp he with he | he
      · exact h.bounded e (hl ▸ he)
      · rw [List.mem_singleton.mp he]
        simp only [Element.end]
        omega
    · rw [h.numElems, hl, List.length_append, List.length_singleton]
    · rw [h.numBits, hl, bitsOf_append, bitsOf_cons, bitsOf_nil]
      apply congrArg wrap
      dsimp only
      omega
    · simp only [Bits]
      rw [covered_append_singleton, hl]
      refine or_congr_right ?_
      simp only [Holds, Element.end]
      omega
  | cons itr rest =>
    dsimp only
    have hitr := hafter itr List.mem_cons_self
    split_ifs with hadj
    · -- the new run starts in or after `itr`: it is moved back to the start of `itr`
      dsimp only
      generalize hr : mergeLoop _ _ _ _ _ _ = r
      obtain ⟨elem, rest', numBits, numElems, fl'⟩ := r
      -- the count after the move is the count with the stretched run
      have hnb : wrap ((wrap (b.numBits + (bitmax - bitoff : Nat)) : Int) + ((bitoff : Int) - itr.bitoff)) =
          wrap (b.numBits + (bitmax - bitoff + (bitoff - itr.bitoff) : Nat)) := by
        rw [wrap_add_wrap]
        apply congrArg wrap
        omega
      rw [hnb] at hr
      refine .inl ⟨rfl, setInternal_merge h hlt hmax hl hbefore ?_ ?_ ?_ fl hr⟩
      · simp only [Element.end]
        omega
      · simp only
        omega
      · intro x
        simp only [Element.holds_iff, Element.end] at hitr ⊢
        omega
    · dsimp only
      generalize hr : mergeLoop _ _ _ _ _ _ = r
      obtain ⟨elem, rest', numBits, numElems, fl'⟩ := r
      refine .inl ⟨rfl, setInternal_merge h hlt hmax hl hbefore ?_ ?_ ?_ fl hr⟩
      · simp only [Element.end]
        omega
      · simp only
        omega
      · intro x
        refine or_congr_left ?_
        simp only [Element.holds_iff]
        omega

end RleBitmap

end Zircon.Bitmap
