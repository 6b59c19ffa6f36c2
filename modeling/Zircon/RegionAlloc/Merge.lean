import Zircon.RegionAlloc.Trees

namespace Zircon.RegionAlloc
open SortedIndex Runs
namespace RegionAllocator


/-- A neighbour merges only if it reaches the other region. -/
theorem le_of_merges {mode : AllowOverlap} {e b : Nat} (h : merges mode e b = true) : b ≤ e := by
  cases mode <;> simp [merges] at h <;> omega

/-- A neighbour that does not merge, and does not overlap when overlaps are
refused, stops short of the other region. -/
theorem lt_of_not_merges {mode : AllowOverlap} {e b : Nat} (h : merges mode e b = false)
    (hno : mode = .no → e ≤ b) : e < b := by
  cases mode with
  | no =>
    have := hno rfl
    simp [merges] at h
    omega
  | yes => simpa [merges] using h

theorem diff_append_of_nodup {A M C : List Nat} (h : (A ++ M ++ C).Nodup) :
    (A ++ M ++ C).diff M = A ++ C := by
  induction M generalizing A with
  | nil => simp
  | cons m M ih =>
    have hm : m ∉ A := fun hmA => by
      have := List.nodup_append.mp h
      exact (List.nodup_append.mp this.1).2.2 m hmA m List.mem_cons_self rfl
    have herase : (A ++ m :: M ++ C).erase m = A ++ M ++ C := by
      rw [List.append_assoc, List.erase_append_right _ hm, List.cons_append, List.erase_cons_head,
        List.append_assoc]
    rw [List.diff_cons, herase]
    exact ih (by rw [← herase]; exact h.erase m)

theorem mergeAfter_spec (mode : AllowOverlap) (base : Nat) (S : List Nat) :
    ∀ (e : Nat) (s : RegionAllocator), Gapped s.lo s.hi S →
      (∀ q ∈ S, base < s.lo q) → base < e → (mode = .no → ∀ q ∈ S.head?, e ≤ s.lo q) →
      ∃ M S', S = M ++ S' ∧
        (mergeAfter mode S e s).2 =
          { s with
            availByBase := s.availByBase.diff M
            availBySize := s.availBySize.diff M
            spare := s.spare + M.length } ∧
        (∀ x, base ≤ x ∧ x < (mergeAfter mode S e s).1 ↔
          (base ≤ x ∧ x < e) ∨ Covered s.lo s.hi M x) ∧
        ∀ q ∈ S', (mergeAfter mode S e s).1 < s.lo q := by
  induction S with
  | nil =>
    intro e s _ _ _ _
    exact ⟨[], [], rfl, by simp [mergeAfter], fun x => by simp [mergeAfter, Covered], by simp⟩
  | cons a rest ih =>
    intro e s hgap hbase he hsep
    have ha := hgap.nonempty a List.mem_cons_self
    have hrest : ∀ q ∈ rest, s.hi a < s.lo q := fun q hq => List.rel_of_pairwise_cons hgap.sorted hq
    have hba := hbase a List.mem_cons_self
    by_cases hm : merges mode e (s.lo a) = true
    · cases mode with
      | no =>
        -- without overlaps only a region starting at `e` merges, and the loop stops
        have hea : e = s.lo a := by simpa [merges] using hm
        refine ⟨[a], rest, rfl, ?_, fun x => ?_, fun q hq => ?_⟩
        · simp [mergeAfter, hm, eraseAvailBase, eraseAvailSize, DestroyRegion, List.diff_cons]
        · have hres : (mergeAfter .no (a :: rest) e s).1 = max e (s.hi a) := by
            simp [mergeAfter, hm]
          rw [hres, covered_cons]
          simp only [Holds, Covered, List.not_mem_nil, false_and, exists_false, or_false]
          omega
        · simp only [mergeAfter, obj_base, hm, Bool.not_true, Bool.false_eq_true, ↓reduceIte, obj_end]
          have := hrest q hq
          omega
      | yes =>
        have hle : s.lo a ≤ e := by simpa [merges] using hm
        let s₁ := ((s.eraseAvailBase a).eraseAvailSize a).DestroyRegion a
        obtain ⟨M, S', hS, hst, hcov, hafter⟩ := ih (max e (s.hi a)) s₁
          (hgap.sublist (List.sublist_cons_self a rest)) (fun q hq => hbase q (List.mem_cons_of_mem a hq))
          (by omega) (by simp)
        have hstep : mergeAfter .yes (a :: rest) e s = mergeAfter .yes rest (max e (s.hi a)) s₁ := by
          simp [mergeAfter, hm, s₁]
        refine ⟨a :: M, S', by rw [hS]; rfl, ?_, fun x => ?_, fun q hq => ?_⟩
        · rw [hstep, hst]
          simp only [s₁, eraseAvailBase, eraseAvailSize, DestroyRegion, List.diff_cons,
            List.length_cons]
          congr 1
          omega
        · -- `a` starts inside `[base, e]`, so it and `[base, e)` make one interval
          have hiv : base ≤ x ∧ x < max e (s.hi a) ↔ (base ≤ x ∧ x < e) ∨ Holds s.lo s.hi a x := by
            simp only [Holds]
            omega
          rw [hstep, hcov x, covered_cons]
          simp only [s₁, lo_destroyRegion, lo_eraseAvailSize, lo_eraseAvailBase, hi_destroyRegion,
            hi_eraseAvailSize, hi_eraseAvailBase]
          rw [hiv, or_assoc]
        · rw [hstep]
          exact hafter q hq
    · -- `a` does not merge: the loop stops with every region still after `e`
      have hea : e < s.lo a := by
        cases mode with
        | no =>
          have := hsep rfl a rfl
          simp [merges] at hm
          omega
        | yes => simpa [merges] using hm
      have hstep : mergeAfter mode (a :: rest) e s = (e, s) := by simp [mergeAfter, hm]
      refine ⟨[], a :: rest, rfl, by simp [hstep], fun x => by simp [hstep, Covered], ?_⟩
      intro q hq
      rw [hstep]
      rcases List.mem_cons.mp hq with rfl | hq
      · exact hea
      · have := hrest q hq
        omega

/-- What adding `r` to the available regions makes of them: `r` joins them,
merged with those it meets, and nothing else changes. -/
structure Joined (s s' : RegionAllocator) (r : Nat) : Prop where
  trees : s'.AvailTrees
  avail : ∀ x, s'.AvailAt x ↔ s.AvailAt x ∨ (s.lo r ≤ x ∧ x < s.hi r)
  mem : ∀ i ∈ s'.availByBase, i = r ∨ i ∈ s.availByBase
  obj : ∀ i, i ≠ r → s'.obj i = s.obj i
  allocated : s'.allocatedByBase = s.allocatedByBase
  nextRegion : s'.nextRegion = s.nextRegion

/-- The merge after `r` and the insertion, once the merge before it is done:
`s₁` is `s` with the regions `D` just before `r` folded into `r`, which now
covers `[s₁.lo r, e₁)`. -/
theorem joined_of_mergeBefore {s s₁ s₂ : RegionAllocator} {r e₁ e₂ : Nat} {mode : AllowOverlap}
    {P D S : List Nat} (hB : s.availByBase = P ++ D ++ S) (hgap : Gapped s.lo s.hi s.availByBase)
    (hr : r ∉ s.availByBase) (hB₁ : s₁.availByBase = P ++ S) (hZ₁ : s₁.availBySize.Perm (P ++ S))
    (hsort₁ : Sorted sizeLt s₁.obj s₁.availBySize)
    (hobj : ∀ i, i ≠ r → s₁.obj i = s.obj i) (halloc : s₁.allocatedByBase = s.allocatedByBase)
    (hnext : s₁.nextRegion = s.nextRegion) (hP : ∀ p ∈ P, s.hi p < s₁.lo r)
    (hS : ∀ q ∈ S, s₁.lo r < s.lo q) (hlt : s₁.lo r < e₁)
    (hcov : ∀ x, s₁.lo r ≤ x ∧ x < e₁ ↔ (s.lo r ≤ x ∧ x < s.hi r) ∨ Covered s.lo s.hi D x)
    (hsep : mode = .no → ∀ q ∈ S.head?, e₁ ≤ s.lo q) (hma : mergeAfter mode S e₁ s₁ = (e₂, s₂)) :
    Joined s (s₂.insertAvail r e₂) r := by
  have hnd : (P ++ D ++ S).Nodup := hB ▸ hgap.nodup
  have hne : ∀ {i : Nat} {l : List Nat}, i ∈ l → l.Sublist s.availByBase → i ≠ r :=
    fun hi hl => ne_of_mem_of_not_mem hi fun h => hr (hl.subset h)
  have hsubS : S.Sublist s.availByBase := hB ▸ List.sublist_append_right _ _
  have hobjS : ∀ i ∈ S, s₁.obj i = s.obj i := fun i hi => hobj i (hne hi hsubS)
  -- the regions after `r` are untouched so far: the loop runs over them as in `s`
  obtain ⟨M, S', rfl, hst, hcov₂, hafter⟩ := mergeAfter_spec mode (s₁.lo r) S e₁ s₁
    (gapped_of_obj_eq (hgap.sublist hsubS) hobjS)
    (fun q hq => (congrArg Region.base (hobjS q hq)).trans_gt (hS q hq)) hlt
    (fun hm q hq => (hsep hm q hq).trans_eq
      (congrArg Region.base (hobjS q (List.mem_of_mem_head? hq))).symm)
  rw [hma] at hst hcov₂ hafter
  dsimp only at hst hcov₂ hafter
  have hndM : (P ++ M ++ S').Nodup := by
    refine hnd.sublist ?_
    simpa only [List.append_assoc] using
      (List.sublist_append_left P D).append (List.Sublist.refl (M ++ S'))
  have hdiff : (P ++ (M ++ S')).diff M = P ++ S' := by
    rw [← List.append_assoc]
    exact diff_append_of_nodup hndM
  have hobj₂ : s₂.obj = s₁.obj := by rw [hst]
  have hlo₂ : s₂.lo r = s₁.lo r := congrArg (fun f => (f r).base) hobj₂
  have hobjs₂ : ∀ i, i ≠ r → s₂.obj i = s.obj i := fun i hi => by rw [hobj₂]; exact hobj i hi
  have hsub' : (P ++ S').Sublist s.availByBase := by
    rw [hB]
    exact ((List.sublist_append_left P D).append (List.sublist_append_right M S'))
  -- after the merges the trees hold `P ++ S'`, with `r` to go between them
  have hB₂ : s₂.availByBase = P ++ S' := by
    rw [hst]
    simp only
    rw [hB₁, hdiff]
  have htrees₂ : s₂.AvailTrees := by
    refine ⟨hB₂ ▸ gapped_of_obj_eq (hgap.sublist hsub') fun i hi => hobjs₂ i (hne hi hsub'), ?_, ?_⟩
    · rw [hB₂, hst, ← hdiff]
      exact hZ₁.diff_right M
    · rw [hst]
      exact hsort₁.sublist (List.diff_sublist _ _)
  have hr₂ : r ∉ s₂.availByBase := hB₂ ▸ fun h => hr (hsub'.subset h)
  have he₂ : s₂.lo r < e₂ := hlo₂ ▸ ((hcov₂ (s₁.lo r)).mpr (.inl ⟨le_rfl, hlt⟩)).2
  let v : Region := { s₂.obj r with size := e₂ - s₂.lo r }
  have hvb : v.base = s₁.lo r := hlo₂
  have hve : v.end = e₂ := by simp only [v, Region.end, obj_base]; omega
  obtain ⟨hB', htrees'⟩ := insertNew_spec htrees₂ hr₂ (v := v) (by omega) hB₂
    (fun p hp => by
      rw [hvb, show s₂.hi p = s.hi p from
        congrArg Region.end (hobjs₂ p (hne (List.mem_append_left S' hp) hsub'))]
      exact hP p hp)
    (fun q hq => by
      rw [hve, show s₂.lo q = s₁.lo q from congrArg (fun f => (f q).base) hobj₂]
      exact hafter q hq)
  show Joined s (((s₂.setObj r v).insertAvailBase r).insertAvailSize r) r
  have hobjs : ∀ i, i ≠ r → (s₂.setObj r v).obj i = s.obj i :=
    fun i hi => (setObj_obj_of_ne hi).trans (hobjs₂ i hi)
  refine ⟨htrees', fun x => ?_, fun i hi => ?_, hobjs, ?_, ?_⟩
  · -- `r` now covers itself, `D` and `M`; the other regions keep their objects
    have hcovM : Covered s₁.lo s₁.hi M x ↔ Covered s.lo s.hi M x :=
      covered_of_obj_eq fun i hi => hobjS i (List.mem_append_left S' hi)
    have hrest : s₂.AvailAt x ↔ Covered s.lo s.hi P x ∨ Covered s.lo s.hi S' x := by
      rw [AvailAt, hB₂, covered_of_obj_eq fun i hi => hobjs₂ i (hne hi hsub'), covered_append]
    have hold : s.AvailAt x ↔ Covered s.lo s.hi P x ∨ Covered s.lo s.hi D x ∨
        Covered s.lo s.hi M x ∨ Covered s.lo s.hi S' x := by
      simp only [AvailAt, hB, covered_append, or_assoc]
    rw [availAt_insertNew hB₂ hr₂ hB' x, hrest, hold, hvb, hve, hcov₂, hcovM, hcov]
    simp only [or_assoc, or_comm, or_left_comm]
  · rw [hB'] at hi
    rcases List.mem_append.mp hi with hi | hi
    · exact .inr (hsub'.subset (List.mem_append_left S' hi))
    · rcases List.mem_cons.mp hi with rfl | hi
      · exact .inl rfl
      · exact .inr (hsub'.subset (List.mem_append_right P hi))
  · show s₂.allocatedByBase = s.allocatedByBase
    rw [hst]
    exact halloc
  · show s₂.nextRegion = s.nextRegion
    rw [hst]
    exact hnext

/-- `AddRegionToAvailLocked` on a region `r` that is in no tree joins it to
the available regions. Without `AllowOverlap::Yes` the caller has checked
that `r` overlaps none of them. -/
theorem addRegionToAvail_joined {s : RegionAllocator} {r : Nat} (mode : AllowOverlap)
    (htrees : s.AvailTrees) (hr : r ∉ s.availByBase) (hne : s.lo r < s.hi r)
    (hsep : mode = .no → ∀ i ∈ s.availByBase, s.hi i ≤ s.lo r ∨ s.hi r ≤ s.lo i) :
    Joined s (s.AddRegionToAvailLocked r mode) r := by
  obtain ⟨hgap, hZ, hsort⟩ := htrees
  obtain ⟨hsplit, hPle, hSgt⟩ := splitAtBase_spec hgap (s.lo r)
  generalize hPS : s.splitAtBase s.availByBase (s.lo r) = PS at hsplit hPle hSgt
  obtain ⟨P, S⟩ := PS
  dsimp only at hsplit hPle hSgt
  have hsepS : mode = .no → ∀ q ∈ S.head?, s.hi r ≤ s.lo q := by
    intro hm q hq
    have hqS := List.mem_of_mem_head? hq
    have := hSgt q hqS
    have := hgap.nonempty q (hsplit ▸ List.mem_append_right P hqS)
    have := hsep hm q (hsplit ▸ List.mem_append_right P hqS)
    omega
  rcases hmb : s.mergeBefore r mode P.getLast? with ⟨e₁, s₁⟩
  rcases hma : mergeAfter mode S e₁ s₁ with ⟨e₂, s₂⟩
  have hunfold : s.AddRegionToAvailLocked r mode = s₂.insertAvail r e₂ := by
    simp only [AddRegionToAvailLocked, obj_base, hPS, hmb, hma]
  rw [hunfold]
  by_cases hmerge : ∃ b, P.getLast? = some b ∧ merges mode (s.hi b) (s.lo r) = true
  · -- the region before `r` reaches it: `r` takes its base and it is freed
    obtain ⟨b, hb, hm⟩ := hmerge
    obtain ⟨P₀, rfl⟩ := List.getLast?_eq_some_iff.mp hb
    simp only [mergeBefore, hb, obj_end, obj_base, hm, ↓reduceIte, Prod.mk.injEq] at hmb
    obtain ⟨he₁, hs₁⟩ := hmb
    have hgapB : Gapped s.lo s.hi (P₀ ++ b :: S) := by
      have h := hgap
      rw [hsplit] at h
      simpa using h
    have hbP₀ : b ∉ P₀ := fun h => by
      have := List.nodup_append.mp hgapB.nodup
      exact this.2.2 b h b List.mem_cons_self rfl
    have herase : (P₀ ++ [b] ++ S).erase b = P₀ ++ S := by
      rw [List.append_assoc, List.erase_append_right _ hbP₀, List.singleton_append,
        List.erase_cons_head]
    have hlb := hgapB.nonempty b (List.mem_append_right P₀ List.mem_cons_self)
    have hbr := hPle b (List.mem_append_right P₀ List.mem_cons_self)
    have hrb := le_of_merges hm
    have hlo₁ : s₁.lo r = s.lo b := by
      rw [← hs₁, lo_destroyRegion, lo_eraseAvailSize, lo_eraseAvailBase, lo_setObj, if_pos rfl]
    refine joined_of_mergeBefore (P := P₀) (D := [b]) hsplit hgap hr ?_ ?_ ?_ ?_ ?_ ?_ ?_ ?_ ?_ ?_
      ?_ hma
    · rw [← hs₁]
      simp only [eraseAvailBase, eraseAvailSize, DestroyRegion, setObj, hsplit, herase]
    · rw [← hs₁]
      simp only [eraseAvailBase, eraseAvailSize, DestroyRegion, setObj]
      rw [← herase, ← hsplit]
      exact hZ.erase b
    · rw [← hs₁]
      exact (hsort.sublist List.erase_sublist).congr fun i hi =>
        setObj_obj_of_ne (ne_of_mem_of_not_mem (hZ.subset (List.erase_sublist.subset hi)) hr)
    · intro i hi
      rw [← hs₁]
      exact setObj_obj_of_ne hi
    · rw [← hs₁]; rfl
    · rw [← hs₁]; rfl
    · intro p hp
      rw [hlo₁]
      exact hgapB.lt_of_append hp List.mem_cons_self
    · intro q hq
      have := hSgt q hq
      omega
    · omega
    · intro x
      rw [covered_cons, hlo₁]
      simp only [Holds, Covered, List.not_mem_nil, false_and, exists_false, or_false]
      omega
    · -- without overlaps `b` ends where `r` begins, so `r`'s end is unchanged
      intro hno q hq
      have := hsepS hno q hq
      subst hno
      simp only [merges, decide_eq_true_eq] at hm
      omega
  · -- nothing before `r` reaches it: `r` keeps its base and `s` is unchanged
    have hmb' : s.mergeBefore r mode P.getLast? = (s.hi r, s) := by
      cases hP : P.getLast? with
      | none => rfl
      | some b =>
        have hnm : merges mode (s.hi b) (s.lo r) = false := by
          simpa using fun h => hmerge ⟨b, hP, h⟩
        simp [mergeBefore, hnm]
    rw [hmb', Prod.mk.injEq] at hmb
    obtain ⟨rfl, rfl⟩ := hmb
    refine joined_of_mergeBefore (P := P) (D := []) (by simpa using hsplit) hgap hr hsplit
      (hsplit ▸ hZ) hsort (fun _ _ => rfl) rfl rfl ?_ hSgt hne (by simp [Covered]) hsepS hma
    intro p hp
    obtain ⟨P', b, hPb⟩ := (List.eq_nil_or_concat P).resolve_left (List.ne_nil_of_mem hp)
    rw [List.concat_eq_append] at hPb
    subst hPb
    have hbP : b ∈ P' ++ [b] := List.mem_append_right P' (List.mem_singleton_self b)
    have hgapB : Gapped s.lo s.hi (P' ++ b :: S) := by
      have h := hgap
      rw [hsplit] at h
      simpa using h
    have hbB : b ∈ s.availByBase := hsplit ▸ List.mem_append_left S hbP
    have hbr := hPle b hbP
    have hnm : merges mode (s.hi b) (s.lo r) = false := by simpa using fun h => hmerge ⟨b, by simp, h⟩
    -- `b` stops short of `r`; in `.no` mode it may not overlap `r` either
    have hb : s.hi b < s.lo r := lt_of_not_merges hnm fun hno => by
      have := hsep hno b hbB
      omega
    rcases List.mem_append.mp hp with hp | hp
    · have := hgapB.lt_of_append hp List.mem_cons_self
      have := hgapB.nonempty b (List.mem_append_right P' List.mem_cons_self)
      omega
    · rw [List.mem_singleton.mp hp]
      exact hb

end RegionAllocator
end Zircon.RegionAlloc
