import Mathlib

/-!
# Pre- and postconditions for `EStateM`

A method that reads and writes a state and may fail is an `EStateM ε σ α`
program. `Triple P x Q E` says what it does from every state of `P`: it
returns `a` in a state of `Q a`, or fails with `e` in a state of `E e`. The
state it fails in is part of the statement, since a caller that catches the
failure goes on from there.

One rule per primitive (`pure`, `get`, `set`, `modify`, `throw`) and the rule
for `bind` let a `do` block be read statement by statement; `Triple.intro`
fixes the state a relational postcondition speaks of, and `Triple.mono`
weakens what a callee's specification gives to what its caller needs.
-/

namespace Zircon.StateTriple

variable {ε σ α β : Type}

/-- From every state of `P`, `x` returns `a` in a state of `Q a` or fails
with `e` in a state of `E e`. -/
def Triple (P : σ → Prop) (x : EStateM ε σ α) (Q : α → σ → Prop) (E : ε → σ → Prop) : Prop :=
  ∀ s, P s → match x.run s with
    | .ok a s' => Q a s'
    | .error e s' => E e s'

variable {P P' : σ → Prop} {Q Q' : α → σ → Prop} {E E' : ε → σ → Prop}

/-- A specification stated from one state at a time. -/
theorem Triple.intro {x : EStateM ε σ α} (h : ∀ s₀, P s₀ → Triple (· = s₀) x Q E) : Triple P x Q E :=
  fun s hs => h s hs s rfl

theorem Triple.mono {x : EStateM ε σ α} (h : Triple P x Q E) (hP : ∀ s, P' s → P s)
    (hQ : ∀ a s, Q a s → Q' a s) (hE : ∀ e s, E e s → E' e s) : Triple P' x Q' E' := by
  intro s hs
  have h' := h s (hP s hs)
  revert h'
  cases x.run s with
  | ok a s' => exact hQ a s'
  | error e s' => exact hE e s'

/-- Nothing is owed from no state: the continuation of a `throw`. -/
theorem Triple.false {x : EStateM ε σ α} : Triple (fun _ => False) x Q E := fun _ h => h.elim


theorem Triple.pure {a : α} (h : ∀ s, P s → Q a s) : Triple P (Pure.pure a : EStateM ε σ α) Q E :=
  fun s hs => h s hs

theorem Triple.get {Q : σ → σ → Prop} (h : ∀ s, P s → Q s s) :
    Triple P (MonadState.get : EStateM ε σ σ) Q E :=
  fun s hs => h s hs

theorem Triple.set {s' : σ} {Q : PUnit → σ → Prop} (h : ∀ s, P s → Q () s') :
    Triple P (MonadStateOf.set s' : EStateM ε σ PUnit) Q E :=
  fun s hs => h s hs

theorem Triple.modify {f : σ → σ} {Q : PUnit → σ → Prop} (h : ∀ s, P s → Q () (f s)) :
    Triple P (modify f : EStateM ε σ PUnit) Q E :=
  fun s hs => h s hs

theorem Triple.throw {e : ε} {Q : α → σ → Prop} (h : ∀ s, P s → E e s) :
    Triple P (MonadExcept.throw e : EStateM ε σ α) Q E :=
  fun s hs => h s hs

/-- Sequencing: what `x` returns, in the state it leaves, is where `f`
starts; a failure of `x` is the failure of the whole. -/
theorem Triple.bind {R : α → σ → Prop} {x : EStateM ε σ α} {f : α → EStateM ε σ β}
    {Q : β → σ → Prop} (hx : Triple P x R E) (hf : ∀ a, Triple (R a) (f a) Q E) :
    Triple P (x >>= f) Q E := by
  intro s hs
  have h := hx s hs
  show match (match x.run s with
    | .ok a s' => (f a).run s'
    | .error e s' => .error e s') with
    | .ok b s'' => Q b s''
    | .error e s'' => E e s''
  revert h
  cases x.run s with
  | ok a s' => exact fun h => hf a s' h
  | error e s' => exact id

/-- Reading the state: the rest of the block starts from the state read. -/
theorem Triple.get_bind {f : σ → EStateM ε σ β} {Q : β → σ → Prop}
    (h : ∀ s, P s → Triple (· = s) (f s) Q E) : Triple P (MonadState.get >>= f) Q E :=
  Triple.bind (R := fun a s => P s ∧ a = s) (Triple.get fun s hs => ⟨hs, rfl⟩) fun a s hs => by
    obtain ⟨hP, rfl⟩ := hs
    exact h a hP a rfl

/-- What a run that returns owes. -/
theorem Triple.run_ok {x : EStateM ε σ α} (h : Triple P x Q E) {s s' : σ} {a : α} (hs : P s)
    (hx : x.run s = .ok a s') : Q a s' := by
  have h' := h s hs
  rw [hx] at h'
  exact h'

/-- What a run that fails owes. -/
theorem Triple.run_error {x : EStateM ε σ α} (h : Triple P x Q E) {s s' : σ} {e : ε} (hs : P s)
    (hx : x.run s = .error e s') : E e s' := by
  have h' := h s hs
  rw [hx] at h'
  exact h'

theorem Triple.ite {c : Prop} [Decidable c] {x y : EStateM ε σ α} (hx : c → Triple P x Q E)
    (hy : ¬c → Triple P y Q E) : Triple P (if c then x else y) Q E := by
  by_cases hc : c
  · rw [if_pos hc]
    exact hx hc
  · rw [if_neg hc]
    exact hy hc

end Zircon.StateTriple
