/-! # Loops with a bound on their passes

A loop of a program that need not end is a function of the number of passes it
may take. Whether it ends, and with what, is settled by what one pass does:
what it goes on with, or which result it ends with, is the same for every
number of passes that are left.
-/

namespace PassLoop
set_option autoImplicit false

universe u

variable {ε σ ρ : Type u}

def Continues (loop : Nat → σ → Except ε ρ) (s s' : σ) : Prop := ∀ n, loop (n + 1) s = loop n s'

def Ends (loop : Nat → σ → Except ε ρ) (s : σ) (result : ρ) : Prop := ∀ n, loop (n + 1) s = .ok result

variable (loop : Nat → σ → Except ε ρ)

theorem ok_of_le (hZero : ∀ s result, loop 0 s ≠ .ok result)
    (hPass : ∀ s, (∃ s', Continues loop s s') ∨ ∃ result, Ends loop s result) {n n' : Nat} {s : σ} {result : ρ}
    (hLe : n ≤ n') (h : loop n s = .ok result) : loop n' s = .ok result := by
  induction n generalizing n' s with
  | zero => exact absurd h (hZero s result)
  | succ n ih =>
    obtain ⟨more, rfl⟩ : ∃ more, n' = more + 1 := ⟨n' - 1, by omega⟩
    rcases hPass s with ⟨s', hNext⟩ | ⟨last, hEnd⟩
    · rw [hNext n] at h
      rw [hNext more]
      exact ih (Nat.le_of_succ_le_succ hLe) h
    · rw [hEnd n] at h
      rw [hEnd more, h]

/-- A loop whose passes come closer to their end returns, and as many passes as were left are enough. -/
theorem returns (inv : σ → Prop) (left : σ → Nat) (post : ρ → Prop)
    (hStep : ∀ s, inv s → (∃ result, Ends loop s result ∧ post result) ∨
      ∃ s', Continues loop s s' ∧ inv s' ∧ left s' < left s) {s : σ} (hInv : inv s) :
    ∃ result, post result ∧ ∀ n, left s < n → loop n s = .ok result := by
  generalize hLeft : left s = k
  induction k using Nat.strongRecOn generalizing s with
  | ind k ih =>
    rcases hStep s hInv with ⟨result, hEnd, hPost⟩ | ⟨s', hNext, hInv', hLess⟩
    · refine ⟨result, hPost, fun n hn => ?_⟩
      obtain ⟨m, rfl⟩ : ∃ m, n = m + 1 := ⟨n - 1, by omega⟩
      exact hEnd m
    · obtain ⟨result, hPost, hRest⟩ := ih (left s') (hLeft ▸ hLess) hInv' rfl
      refine ⟨result, hPost, fun n hn => ?_⟩
      obtain ⟨m, rfl⟩ : ∃ m, n = m + 1 := ⟨n - 1, by omega⟩
      rw [hNext m]
      exact hRest m (by omega)

/-- A loop that always goes on uses up every bound. -/
theorem stalls (inv : σ → Prop) {e : ε} (hZero : ∀ s, loop 0 s = .error e)
    (hStep : ∀ s, inv s → ∃ s', Continues loop s s' ∧ inv s') {s : σ} (hInv : inv s) (n : Nat) :
    loop n s = .error e := by
  induction n generalizing s with
  | zero => exact hZero s
  | succ n ih =>
    obtain ⟨s', hNext, hInv'⟩ := hStep s hInv
    rw [hNext n]
    exact ih hInv'

end PassLoop
