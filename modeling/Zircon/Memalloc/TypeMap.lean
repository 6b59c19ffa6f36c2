import Zircon.Memalloc.Range

/-!
# What a pool does to memory

Seen from outside, a `Pool` is a map from addresses to types: the type of the
range that tracks an address, or none. `Allocate`, `Free` and
`UpdateFreeRamSubranges` change that map in two ways only (`TypeStep`):

* the free RAM of a run of addresses takes a type (`claim`), which is what an
  allocation, the refill of bookkeeping and an update all do;
* a run of addresses of one type that `Free` accepts becomes free RAM
  (`release`).

Neither reaches an address that is untracked or whose type may not change
(`Mutable`): bookkeeping, which holds the pool's own nodes, and the base types
other than free RAM. So along any sequence of steps the tracked addresses stay
those there were, and every other address keeps its type (`TypeSteps.fixed`).
-/

namespace Zircon.Memalloc

/-- The type of each address, or none where nothing is tracked. -/
def TypeMap : Type := Nat → Option RangeType

namespace TypeMap

/-- `f` with the free RAM of `[addr, addr + size)` retyped as `t`. -/
def claim (f : TypeMap) (addr size : Nat) (t : RangeType) : TypeMap := fun x =>
  if addr ≤ x ∧ x < addr + size ∧ f x = some .kFreeRam then some t else f x

/-- `f` with all of `[addr, addr + size)` retyped as free RAM. -/
def release (f : TypeMap) (addr size : Nat) : TypeMap := fun x =>
  if addr ≤ x ∧ x < addr + size then some .kFreeRam else f x

/-- A type `Free` turns into free RAM: an extended type other than
bookkeeping, or free RAM itself, where freeing is a no-op. -/
def Releasable (t : RangeType) : Prop := t = .kFreeRam ∨ (IsExtendedType t = true ∧ t ≠ kPoolBookkeeping)

/-- An address whose type a step may change: tracked, with a type that may be
released. Free RAM is one, since it may be claimed. -/
def Mutable (o : Option RangeType) : Prop := ∃ t, o = some t ∧ Releasable t

end TypeMap

open TypeMap

/-- One change the pool's methods make to the type of memory. -/
inductive TypeStep : TypeMap → TypeMap → Prop
  | claim (f : TypeMap) (addr size : Nat) (t : RangeType) : TypeStep f (f.claim addr size t)
  | release (f : TypeMap) (addr size : Nat) (t : RangeType) : Releasable t →
      (∀ x, addr ≤ x → x < addr + size → f x = some t) → TypeStep f (f.release addr size)

variable {f g : TypeMap}

/-- A step changes the type of mutable addresses only. -/
theorem TypeStep.fixed (h : TypeStep f g) {x : Nat} (hx : ¬ Mutable (f x)) : g x = f x := by
  cases h with
  | claim addr size t =>
    -- only free RAM is claimed
    exact if_neg fun hc => hx ⟨.kFreeRam, hc.2.2, .inl rfl⟩
  | release addr size t ht hrun =>
    -- only addresses of the releasable type `t` are released
    exact if_neg fun hc => hx ⟨t, hrun x hc.1 hc.2, ht⟩

/-- A step neither tracks nor untracks an address. -/
theorem TypeStep.none_iff (h : TypeStep f g) (x : Nat) : g x = none ↔ f x = none := by
  cases h with
  | claim addr size t =>
    show (if _ then _ else _) = none ↔ _
    split_ifs with hc
    · simp [hc.2.2]
    · rfl
  | release addr size t ht hrun =>
    show (if _ then _ else _) = none ↔ _
    split_ifs with hc
    · simp [hrun x hc.1 hc.2]
    · rfl

/-- Along any sequence of steps, an address that may not change keeps its type. -/
theorem TypeSteps.fixed (h : Relation.ReflTransGen TypeStep f g) {x : Nat} (hx : ¬ Mutable (f x)) :
    g x = f x := by
  induction h with
  | refl => rfl
  | tail _ hstep ih => rw [hstep.fixed (by rwa [ih]), ih]

/-- Along any sequence of steps, the tracked addresses stay those there were. -/
theorem TypeSteps.none_iff (h : Relation.ReflTransGen TypeStep f g) (x : Nat) : g x = none ↔ f x = none := by
  induction h with
  | refl => rfl
  | tail _ hstep ih => exact (hstep.none_iff x).trans ih

end Zircon.Memalloc
