import Mathlib.Dynamics.PeriodicPts.Lemmas
import Mathlib.Data.Fintype.Card

/-! # Cycle walking

Iterating a permutation of a finite set until the orbit enters a subset gives
a permutation of that subset. The walk below carries a bound on its passes;
on a finite carrier the size of the carrier is always enough.
-/

namespace CycleWalk
set_option autoImplicit false

universe u

variable {α : Type u}

def walk (step : α → α) (stop : α → Prop) [DecidablePred stop] : Nat → α → Option α
  | 0, _ => none
  | fuel + 1, x => if stop x then some x else walk step stop fuel (step x)

/-- The walk returns the first point of the orbit that meets `stop`. -/
theorem walk_eq_some_iff (step : α → α) (stop : α → Prop) [DecidablePred stop]
    (fuel : Nat) (x y : α) :
    walk step stop fuel x = some y ↔
      ∃ k < fuel, step^[k] x = y ∧ stop y ∧ ∀ j < k, ¬ stop (step^[j] x) := by
  induction fuel generalizing x with
  | zero => simp [walk]
  | succ fuel ih =>
    rw [walk]
    by_cases hx : stop x
    · rw [if_pos hx]
      constructor
      · intro h
        cases h
        exact ⟨0, by omega, rfl, hx, by omega⟩
      · rintro ⟨k, -, hk, -, hBefore⟩
        cases k with
        | zero => exact congrArg some hk
        | succ k => exact absurd hx (hBefore 0 (by omega))
    · rw [if_neg hx, ih]
      constructor
      · rintro ⟨k, hk, hy, hStop, hBefore⟩
        refine ⟨k + 1, by omega, hy, hStop, ?_⟩
        intro j hj
        cases j with
        | zero => exact hx
        | succ j => exact hBefore j (by omega)
      · rintro ⟨k, hk, hy, hStop, hBefore⟩
        cases k with
        | zero =>
          cases hy
          exact absurd hStop hx
        | succ k =>
          exact ⟨k, by omega, hy, hStop, fun j hj => hBefore (j + 1) (by omega)⟩

theorem walk_isSome_of_reaches (step : α → α) (stop : α → Prop) [DecidablePred stop]
    {fuel k : Nat} {x : α} (hk : k < fuel) (hStop : stop (step^[k] x)) :
    ∃ y, walk step stop fuel x = some y := by
  induction k generalizing fuel x with
  | zero =>
    cases fuel with
    | zero => omega
    | succ fuel => exact ⟨x, by rw [walk, if_pos (by simpa using hStop)]⟩
  | succ k ih =>
    cases fuel with
    | zero => omega
    | succ fuel =>
      rw [walk]
      by_cases hx : stop x
      · exact ⟨x, if_pos hx⟩
      · rw [if_neg hx]
        exact ih (by omega) hStop

structure Undoes (n : Nat) (back step : Nat → Nat) : Prop where
  step_lt : ∀ x < n, step x < n
  back_step : ∀ x < n, back (step x) = x

theorem Undoes.iterate_lt {n : Nat} {back step : Nat → Nat} (h : Undoes n back step)
    (k x : Nat) (hx : x < n) : step^[k] x < n := by
  induction k with
  | zero => exact hx
  | succ k ih =>
    rw [Function.iterate_succ_apply']
    exact h.step_lt _ ih

theorem Undoes.iterate_back {n : Nat} {back step : Nat → Nat} (h : Undoes n back step)
    (j k x : Nat) (hj : j ≤ k) (hx : x < n) : back^[j] (step^[k] x) = step^[k - j] x := by
  induction j with
  | zero => rfl
  | succ j ih =>
    have hSteps : k - j = (k - (j + 1)) + 1 := by omega
    rw [Function.iterate_succ_apply', ih (by omega), hSteps, Function.iterate_succ_apply',
      h.back_step _ (h.iterate_lt _ _ hx)]

/-- An orbit of a permutation of `[0, n)` is back at its start after at most `n` steps. -/
theorem Undoes.exists_return {n : Nat} {back step : Nat → Nat} (h : Undoes n back step)
    (x : Nat) (hx : x < n) : ∃ k, 0 < k ∧ k ≤ n ∧ step^[k] x = x := by
  let lift : Fin n → Fin n := fun i => ⟨step i, h.step_lt i i.isLt⟩
  have hInjective : Function.Injective lift := by
    intro i j hij
    apply Fin.ext
    rw [← h.back_step i i.isLt, ← h.back_step j j.isLt]
    exact congrArg back (congrArg Fin.val hij)
  have hIterate : ∀ k (i : Fin n), (lift^[k] i).val = step^[k] i.val := by
    intro k
    induction k with
    | zero => intro i; rfl
    | succ k ih =>
      intro i
      rw [Function.iterate_succ_apply', Function.iterate_succ_apply', ← ih]
  have hPeriodic := hInjective.mem_periodicPts ⟨x, hx⟩
  refine ⟨Function.minimalPeriod lift ⟨x, hx⟩,
    Function.minimalPeriod_pos_of_mem_periodicPts hPeriodic, ?_, ?_⟩
  · simpa using Function.minimalPeriod_le_card (f := lift) (x := ⟨x, hx⟩)
  · have hReturn := Function.iterate_minimalPeriod (f := lift) (x := ⟨x, hx⟩)
    rw [← hIterate _ ⟨x, hx⟩, hReturn]

section Walk
variable {n range : Nat} {back step : Nat → Nat}

theorem Undoes.walk_terminates (h : Undoes n back step) (hRange : range ≤ n)
    (x : Nat) (hx : x < range) :
    ∃ y, walk step (· < range) n (step x) = some y := by
  obtain ⟨k, hPos, hk, hReturn⟩ := h.exists_return x (by omega)
  apply walk_isSome_of_reaches step (· < range) (k := k - 1) (by omega)
  have hSteps : (k - 1).succ = k := by omega
  rw [← Function.iterate_succ_apply, hSteps, hReturn]
  exact hx

theorem Undoes.walk_lt {x y : Nat} (hWalk : walk step (· < range) n (step x) = some y) :
    y < range := by
  obtain ⟨k, -, -, hStop, -⟩ := (walk_eq_some_iff _ _ _ _ _).mp hWalk
  exact hStop

theorem Undoes.walk_back (h : Undoes n back step) (hRange : range ≤ n)
    {x y : Nat} (hx : x < range) (hWalk : walk step (· < range) n (step x) = some y) :
    walk back (· < range) n (back y) = some x := by
  obtain ⟨k, hk, rfl, hStop, hBefore⟩ := (walk_eq_some_iff _ _ _ _ _).mp hWalk
  rw [walk_eq_some_iff]
  have hBack : ∀ j ≤ k, back^[j] (back (step^[k] (step x))) = step^[k - j] x := by
    intro j hj
    rw [← Function.iterate_succ_apply, ← Function.iterate_succ_apply,
      h.iterate_back j.succ k.succ x (by omega) (by omega), Nat.succ_sub_succ]
  refine ⟨k, hk, ?_, hx, ?_⟩
  · rw [hBack k (Nat.le_refl k), Nat.sub_self]
    rfl
  · intro j hj
    have hSteps : k - j = (k - j - 1) + 1 := by omega
    rw [hBack j (by omega), hSteps, Function.iterate_succ_apply]
    exact hBefore (k - j - 1) (by omega)

end Walk

end CycleWalk
