import Zircon.Memalloc.PoolUpdate

/-!
# `Pool` over whole runs refines its type map

The specifications of `PoolRun` and `PoolUpdate` say what each call does to
the type of every address. Read through `TypeMap`, each is one or two
`TypeStep`s: the refill of bookkeeping and an allocation claim free RAM, a
free releases a run of one releasable type, and each turn of the loop of
`UpdateFreeRamSubranges` claims the free RAM of a part of a range
(`updateFreeRamLoop_steps`, which needs no bound on the fuel).

So over any run of these calls (`Reachable`), whatever each returned, the
pool stays valid and its type map moves by `TypeStep`s only
(`Reachable.refines`); the facts of `TypeMap` about such moves then hold of
every run.

`Resize`, `MarkAsPeripheral` and `CoalescePeripherals` are not among the
calls: each can leave `ranges_` out of normal form (`Pool.lean`).
-/

namespace Zircon.Memalloc

namespace Pool

open Runs (Holds)
open StateTriple
open Relation (ReflTransGen)

/-! ## Concrete retypings as steps -/

/-- Retyping a run of free RAM is claiming it. -/
theorem claim_of_retype {f g : TypeMap} {r : Range}
    (hfree : ∀ x, Holds Range.addr Range.end r x → f x = some .kFreeRam)
    (hg : ∀ x, g x = if Holds Range.addr Range.end r x then some r.type else f x) :
    g = f.claim r.addr r.size r.type := by
  funext x
  rw [hg, TypeMap.claim]
  by_cases hx : Holds Range.addr Range.end r x
  · rw [if_pos hx, if_pos ⟨hx.1, hx.2, hfree x hx⟩]
  · rw [if_neg hx, if_neg fun h => hx ⟨h.1, h.2.1⟩]

/-- What `TryToEnsureTwoBookkeepingNodes` does is nothing, or a claim. -/
theorem Refilled.steps {p₀ p₁ : Pool} (h : Refilled p₀ p₁) : ReflTransGen TypeStep p₀.typeAt p₁.typeAt := by
  rcases h with h | ⟨a, hfree, h⟩
  · have heq : p₁.typeAt = p₀.typeAt := funext h
    rw [heq]
    exact .refl
  · rw [claim_of_retype hfree h]
    exact .single (.claim _ _ _ _)

/-- A pool valid and reached from `p₀` by steps of its type map. -/
def Follows (p₀ p : Pool) : Prop := p.Valid ∧ ReflTransGen TypeStep p₀.typeAt p.typeAt

theorem Follows.trans {p₀ p₁ p : Pool} (h₁ : Follows p₀ p₁) (h : Follows p₁ p) : Follows p₀ p :=
  ⟨h.1, h₁.2.trans h.2⟩

theorem Refilled.follows {p₀ p₁ : Pool} (h : Refilled p₀ p₁) (hv : p₁.Valid) : Follows p₀ p₁ :=
  ⟨hv, h.steps⟩

/-- A valid pool with the types of `p₀` follows it. -/
theorem Follows.of_typeAt {p₀ p : Pool} (hv : p.Valid) (ht : ∀ x, p.typeAt x = p₀.typeAt x) : Follows p₀ p := by
  have heq : p.typeAt = p₀.typeAt := funext ht
  refine ⟨hv, ?_⟩
  rw [heq]
  exact .refl

/-! ## Each call -/

/-- `Allocate` is a refill and a claim. -/
theorem allocate_follows {p₀ : Pool} (hv : p₀.Valid) (type : RangeType) (size : Nat) {k : Nat} (hk : k < 64)
    (minAddr maxAddr : Option Nat) :
    Triple (· = p₀) (Allocate type size (2 ^ k) minAddr maxAddr) (fun _ p => Follows p₀ p)
      (fun e p => e = .abort ∨ Follows p₀ p) := by
  refine (allocate_spec hv type size hk minAddr maxAddr).mono (fun _ h => h) (fun a p h => ?_) fun _ p h => ?_
  · obtain ⟨hv', -, -, -, p₁, href, hfree, htype⟩ := h
    refine ⟨hv', href.steps.tail ?_⟩
    rw [claim_of_retype hfree htype]
    exact .claim _ _ _ _
  · rcases h with h | ⟨-, hv', href⟩
    · exact .inl h
    · exact .inr (href.follows hv')

/-- `Free` is a refill and a release. -/
theorem free_follows {p₀ : Pool} (hv : p₀.Valid) (addr size : Nat) :
    Triple (· = p₀) (Free addr size) (fun _ p => Follows p₀ p) (fun e p => e = .abort ∨ Follows p₀ p) := by
  refine (free_spec hv addr size).mono (fun _ h => h) (fun _ p h => ?_) fun _ p h => ?_
  · obtain ⟨hv', p₁, href, ⟨t, ht, hrun⟩, htype⟩ := h
    refine ⟨hv', href.steps.tail ?_⟩
    have heq : p.typeAt = TypeMap.release p₁.typeAt addr size := funext htype
    rw [heq]
    exact .release _ _ _ t ht fun x hx₁ hx₂ => hrun x ⟨hx₁, hx₂⟩
  · rcases h with h | ⟨-, hv', href⟩
    · exact .inl h
    · exact .inr (href.follows hv')

/-- Each turn of the loop of `UpdateFreeRamSubranges` claims a part of a free
range, or nothing: whatever the fuel, the loop keeps the pool valid and claims
free RAM only. -/
theorem updateFreeRamLoop_steps (type : RangeType) {addr size : Nat} (hsize : 0 < size) (fuel : Nat) :
    ∀ (it : Option Nat) {p₀ : Pool}, p₀.Valid →
      Triple (· = p₀) (updateFreeRamLoop type addr size fuel it) (fun _ p => Follows p₀ p)
        (fun _ p => Follows p₀ p) := by
  induction fuel with
  | zero =>
    intro it p₀ hv
    exact Triple.pure fun p hp => by subst hp; exact ⟨hv, .refl⟩
  | succ fuel ih =>
    intro it p₀ hv
    cases it with
    | none => exact Triple.pure fun p hp => by subst hp; exact ⟨hv, .refl⟩
    | some it =>
      rw [updateFreeRamLoop]
      dsimp only
      refine Triple.get_bind fun p hp => ?_
      subst p
      refine Triple.ite (fun _ => Triple.pure fun p hp => by subst hp; exact ⟨hv, .refl⟩) fun hlt => ?_
      refine Triple.ite (fun hfree => ?_) fun _ => Triple.get_bind fun p hp => by subst hp; exact ih _ hv
      -- the node `it` is linked: an unlinked slot reads as an empty range
      have hn : (⟨it, p₀.rangeAt it⟩ : Node) ∈ p₀.ranges := by
        rcases rangeAt_cases (List.nodup_append.mp hv.slots.nodup).1 it with hn | hn
        · exact hn
        · rw [hn] at hfree
          exact absurd hfree.1 (by simp [Range.end])
      have hne := hv.normalized.nonempty _ (List.mem_map_of_mem (f := (·.range)) hn)
      obtain ⟨A, B, hp⟩ := List.append_of_mem hn
      obtain ⟨hr, hpos⟩ := cut_within hne hsize (Nat.not_le.mp hlt) hfree.1
      have hbk : (p₀.rangeAt it).type ≠ kPoolBookkeeping := by
        rw [hfree.2]
        decide
      refine Triple.bind ((insertSubrange_triple hv.normalized hv.slots.nodup hp hr hpos).mono (fun _ h => h)
        (fun _ _ h => h) fun _ p h => ?_) fun s => ?_
      · -- a failed `InsertSubrange` changes no type
        obtain ⟨-, hv', ht⟩ := valid_of_failed hv h
        exact Follows.of_typeAt hv' ht
      refine Triple.bind (R := fun _ p => Follows p₀ p) (Triple.modify fun p hins => ?_) fun _ => ?_
      · -- the part retyped was free RAM of the node `it`
        obtain ⟨hv', hret⟩ := hins.retype hv hn hr hbk
        refine ⟨hv', .single ?_⟩
        rw [claim_of_retype (fun x hx => ?_) hret.typeAt]
        · exact .claim _ _ _ _
        rw [typeAt_of_mem hv.normalized hn ⟨hr.1.trans hx.1, Nat.lt_of_lt_of_le hx.2 hr.2⟩, hfree.2]
      exact Triple.get_bind fun p hp => (ih _ hp.1).mono (fun _ h => h) (fun _ _ h => hp.trans h)
        fun _ _ h => hp.trans h

/-- `UpdateFreeRamSubranges` is a refill and claims. -/
theorem updateFreeRamSubranges_follows {p₀ : Pool} (hv : p₀.Valid) (type : RangeType) (addr size : Nat) :
    Triple (· = p₀) (UpdateFreeRamSubranges type addr size) (fun _ p => Follows p₀ p)
      (fun e p => e = .abort ∨ Follows p₀ p) := by
  unfold UpdateFreeRamSubranges
  dsimp only
  refine Triple.ite (fun _ => Triple.bind (Triple.throw fun _ _ => .inl rfl) fun _ => Triple.false) fun _ => ?_
  refine Triple.ite (fun _ => Triple.pure fun p hp => by subst hp; exact ⟨hv, .refl⟩) fun hsize => ?_
  refine Triple.bind ((tryToEnsure_spec hv).mono (fun _ h => h) (fun _ _ h => h) fun _ _ h => .inl h) fun _ => ?_
  refine Triple.intro fun p₁ h₁ => ?_
  obtain ⟨hv₁, href, -⟩ := h₁
  exact Triple.get_bind fun p hp => (updateFreeRamLoop_steps type (Nat.pos_of_ne_zero hsize) _ _ (hp ▸ hv₁)).mono
    (fun _ h => h) (fun _ _ h => (href.follows hv₁).trans (hp ▸ h)) fun _ _ h => .inr ((href.follows hv₁).trans (hp ▸ h))

/-! ## Runs -/

/-- A call that returns, or fails with `fit::failed`, leaves a pool the
program goes on with; one that aborts stops the kernel. -/
def Continues {α : Type} (x : PoolM α) (p p' : Pool) : Prop :=
  (∃ a, x.run p = .ok a p') ∨ x.run p = .error .failed p'

/-- A call that continues ends where its specification says, save aborting. -/
theorem Continues.of_triple {α : Type} {x : PoolM α} {p p' : Pool} {R : Pool → Prop} (hc : Continues x p p')
    (h : Triple (· = p) x (fun _ q => R q) (fun e q => e = .abort ∨ R q)) : R p' := by
  rcases hc with ⟨a, hx⟩ | hx
  · exact h.run_ok rfl hx
  · exact (h.run_error rfl hx).resolve_left nofun

/-- The pools a program reaches from `p₀` by calls of `Allocate` with a
power-of-two alignment, `Free` and `UpdateFreeRamSubranges`, each of which
returned or failed with `fit::failed`. -/
inductive Reachable (p₀ : Pool) : Pool → Prop
  | start : Reachable p₀ p₀
  | allocate {p p' : Pool} {type : RangeType} {size k : Nat} {minAddr maxAddr : Option Nat} :
      Reachable p₀ p → k < 64 → Continues (Allocate type size (2 ^ k) minAddr maxAddr) p p' → Reachable p₀ p'
  | free {p p' : Pool} {addr size : Nat} : Reachable p₀ p → Continues (Free addr size) p p' → Reachable p₀ p'
  | updateFreeRam {p p' : Pool} {type : RangeType} {addr size : Nat} :
      Reachable p₀ p → Continues (UpdateFreeRamSubranges type addr size) p p' → Reachable p₀ p'

/-- **Every run refines the type map.** Over any run of `Allocate`, `Free`
and `UpdateFreeRamSubranges` from a valid pool, whatever each call returned,
every pool reached is valid and its type map is reached from the first one by
`TypeStep`s: so the tracked addresses stay those there were, and every address
whose type may not change (bookkeeping, peripheral, reserved) keeps it. -/
theorem Reachable.refines {p₀ p : Pool} (h : Reachable p₀ p) (hv : p₀.Valid) :
    p.Valid ∧ ReflTransGen TypeStep p₀.typeAt p.typeAt ∧
      ∀ x, (p.typeAt x = none ↔ p₀.typeAt x = none) ∧
        (¬ TypeMap.Mutable (p₀.typeAt x) → p.typeAt x = p₀.typeAt x) := by
  -- one call at a time, each one following from the pool before it
  have hrun : Follows p₀ p := by
    induction h with
    | start => exact ⟨hv, .refl⟩
    | allocate _ hk hc ih => exact ih.trans (hc.of_triple (allocate_follows ih.1 _ _ hk _ _))
    | free _ hc ih => exact ih.trans (hc.of_triple (free_follows ih.1 _ _))
    | updateFreeRam _ hc ih => exact ih.trans (hc.of_triple (updateFreeRamSubranges_follows ih.1 _ _ _))
  exact ⟨hrun.1, hrun.2, fun x => ⟨TypeSteps.none_iff hrun.2 x, TypeSteps.fixed hrun.2⟩⟩

/-- `onePage` after `Allocate` of a page of test payload, which returns
`0x2000`. -/
def onePageAllocated : Pool := stateOf ((Allocate kPoolTestPayload 0x1000 (2 ^ 12) none none).run onePage)

theorem refines_onePageAllocated :
    Reachable onePage onePageAllocated ∧ onePageAllocated.Valid ∧
      ReflTransGen TypeStep onePage.typeAt onePageAllocated.typeAt := by
  have hr : Reachable onePage onePageAllocated :=
    @Reachable.allocate onePage onePage onePageAllocated kPoolTestPayload 0x1000 12 none none .start
      (by norm_num) (.inl ⟨0x2000, rfl⟩)
  exact ⟨hr, (Reachable.refines hr onePage_valid).1, (Reachable.refines hr onePage_valid).2.1⟩

end Pool

end Zircon.Memalloc
