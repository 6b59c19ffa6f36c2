import Mathlib

/-!
# `while` loops with fuel

A loop `while (guard) { body }` whose termination the code does not make
evident is read as `Loop.run guard body fuel s`: the state the loop exits
with, or `none` when the fuel runs out first. Such a loop exits exactly when
some fuel gives `some`.

Three rules cover what the developments need: a loop whose guard holds in
every state of an invariant that the body keeps never exits, whatever the
fuel; a loop whose guard fails after `k` passes exits with the `k`-th iterate
of the body once the fuel exceeds `k`; and a loop whose body keeps an
invariant and lowers a measure exits, in a state of the invariant, once the
fuel exceeds the measure.

A counted loop whose every pass may fail (a `ZX_ASSERT` in its body) is a
`List.foldlM` in `Option` over its indices; a relation that each pass keeps,
reflexive and transitive, relates the loop's start to its end.
-/

namespace Zircon.Loop

variable {σ : Type*} (guard : σ → Bool) (body : σ → σ)

/-- `while (guard) { body }` from `s`, for at most `fuel` tests of the guard. -/
def run : Nat → σ → Option σ
  | 0, _ => none
  | fuel + 1, s => if guard s then run fuel (body s) else some s

variable {guard body}

@[simp] theorem run_zero (s : σ) : run guard body 0 s = none := rfl

theorem run_succ_of_guard {s : σ} (h : guard s = true) (fuel : Nat) :
    run guard body (fuel + 1) s = run guard body fuel (body s) := by
  simp [run, h]

theorem run_succ_of_not_guard {s : σ} (h : guard s = false) (fuel : Nat) :
    run guard body (fuel + 1) s = some s := by
  simp [run, h]

/-- A loop whose guard holds throughout an invariant the body keeps never
exits: it runs out of every fuel. -/
theorem run_eq_none_of_invariant (I : σ → Prop) (hguard : ∀ s, I s → guard s = true)
    (hbody : ∀ s, I s → I (body s)) : ∀ fuel s, I s → run guard body fuel s = none := by
  intro fuel
  induction fuel with
  | zero => intro s _; rfl
  | succ fuel ih =>
    intro s hs
    rw [run_succ_of_guard (hguard s hs)]
    exact ih (body s) (hbody s hs)

/-- A loop whose guard holds for the first `k` iterates of the body and fails
at the `k`-th exits there, given more than `k` tests of the guard. -/
theorem run_of_iterate {s : σ} {k : Nat} (hpass : ∀ j < k, guard (body^[j] s) = true)
    (hstop : guard (body^[k] s) = false) {fuel : Nat} (hfuel : k < fuel) :
    run guard body fuel s = some (body^[k] s) := by
  induction k generalizing s fuel with
  | zero =>
    obtain ⟨fuel, rfl⟩ : ∃ f, fuel = f + 1 := ⟨fuel - 1, by omega⟩
    exact run_succ_of_not_guard hstop fuel
  | succ k ih =>
    obtain ⟨fuel, rfl⟩ : ∃ f, fuel = f + 1 := ⟨fuel - 1, by omega⟩
    have h₀ : guard s = true := hpass 0 (Nat.succ_pos k)
    rw [run_succ_of_guard h₀, Function.iterate_succ_apply]
    exact ih (fun j hj => by rw [← Function.iterate_succ_apply]; exact hpass (j + 1) (by omega))
      (by rw [← Function.iterate_succ_apply]; exact hstop) (by omega)

/-- A loop whose body keeps an invariant and lowers a measure while the guard
holds exits, in a state of the invariant where the guard fails, given more
tests of the guard than the measure. -/
theorem run_of_invariant (I : σ → Prop) (μ : σ → Nat)
    (hbody : ∀ s, I s → guard s = true → I (body s) ∧ μ (body s) < μ s) :
    ∀ fuel s, I s → μ s < fuel → ∃ t, run guard body fuel s = some t ∧ I t ∧ guard t = false := by
  intro fuel
  induction fuel with
  | zero => intro s _ h; omega
  | succ fuel ih =>
    intro s hs hμ
    cases hg : guard s with
    | false => exact ⟨s, run_succ_of_not_guard hg fuel, hs, hg⟩
    | true =>
      obtain ⟨hs', hlt⟩ := hbody s hs hg
      rw [run_succ_of_guard hg]
      exact ih (body s) hs' (by omega)

/-- A reflexive, transitive relation kept by every pass of a `foldlM` in
`Option` relates the start of the loop to what it returns. -/
theorem foldlM_rel {α β : Type*} {R : β → β → Prop} (hrefl : ∀ b, R b b)
    (htrans : ∀ {a b c}, R a b → R b c → R a c) {f : β → α → Option β} :
    ∀ {l : List α}, (∀ b x b', x ∈ l → f b x = some b' → R b b') →
      ∀ (b b' : β), l.foldlM f b = some b' → R b b'
  | [], _, b, b', h => by
    cases h
    exact hrefl b
  | x :: xs, hf, b, b', h => by
    rw [List.foldlM_cons] at h
    -- the first pass returns some `c`, and the rest of the loop runs from it
    obtain ⟨c, hc, hrest⟩ := Option.bind_eq_some_iff.mp h
    exact htrans (hf b x c (List.mem_cons_self ..) hc)
      (foldlM_rel hrefl htrans (fun b y b' hy => hf b y b' (List.mem_cons_of_mem x hy)) c b' hrest)

end Zircon.Loop
