import IncPir.FeistelNetwork

/-! # Cycle walking yields inverse permutations of the range

`prp` and `invPrp` are the values of the two walks. Neither walk can run out
of passes below its range, because the Feistel network permutes the power of
two above it.
-/

namespace IncPir
open CycleWalk LoopM
set_option autoImplicit false

theorem range_le_domain (range : Nat) : range ≤ 2 ^ prpLength range := Nat.le_of_lt Nat.lt_log2_self

theorem prpLength_le {range : Nat} (h : range < 2 ^ 32) : prpLength range ≤ 32 := by
  rcases Nat.eq_zero_or_pos range with rfl | hPos
  · decide
  · exact (Nat.log2_lt (by omega)).mpr h

variable (aes : Aes)

/-- The permutation of `range` numbers that `cycle_walk` computes. -/
def prp (key : Key) (range x : Nat) : Nat := ((cycleWalk aes x range key).toOption).getD 0

def invPrp (key : Key) (range y : Nat) : Nat := ((invCycleWalk aes y range key).toOption).getD 0

section Range
variable {range : Nat} (key : Key) (hRange : range < 2 ^ 32)
include hRange

/-- Walking from below the range comes back below it, so that the loop returns. -/
theorem cycleWalk_walk {x : Nat} (hx : x < range) :
    ∃ y, walk (fun b => feistelPrp aes b (prpLength range) ROUNDS key) (· < range)
        (2 ^ prpLength range) (feistelPrp aes x (prpLength range) ROUNDS key) = some y ∧
      cycleWalk aes x range key = .ok y := by
  have hUndoes := feistelPrp_undoes aes ROUNDS key (prpLength_le hRange) (by decide)
  obtain ⟨y, hy⟩ := hUndoes.walk_terminates (range_le_domain range) x hx
  refine ⟨y, hy, ?_⟩
  rw [cycleWalk, if_neg (by omega)]
  simp only [walkBelow, hy]

theorem invCycleWalk_walk {y : Nat} (hy : y < range) :
    ∃ x, walk (fun b => feistelInvPrp aes b (prpLength range) ROUNDS key) (· < range)
        (2 ^ prpLength range) (feistelInvPrp aes y (prpLength range) ROUNDS key) = some x ∧
      invCycleWalk aes y range key = .ok x := by
  have hUndoes := feistelInvPrp_undoes aes ROUNDS key (prpLength_le hRange) (by decide)
  obtain ⟨x, hx⟩ := hUndoes.walk_terminates (range_le_domain range) y hy
  refine ⟨x, hx, ?_⟩
  rw [invCycleWalk, if_neg (by omega)]
  simp only [walkBelow, hx]

theorem cycleWalk_eq_prp {x : Nat} (hx : x < range) :
    cycleWalk aes x range key = .ok (prp aes key range x) := by
  obtain ⟨y, -, hOk⟩ := cycleWalk_walk aes key hRange hx
  rw [prp, hOk]
  rfl

theorem invCycleWalk_eq_invPrp {y : Nat} (hy : y < range) :
    invCycleWalk aes y range key = .ok (invPrp aes key range y) := by
  obtain ⟨x, -, hOk⟩ := invCycleWalk_walk aes key hRange hy
  rw [invPrp, hOk]
  rfl

theorem prp_walk {x : Nat} (hx : x < range) :
    walk (fun b => feistelPrp aes b (prpLength range) ROUNDS key) (· < range)
      (2 ^ prpLength range) (feistelPrp aes x (prpLength range) ROUNDS key) =
        some (prp aes key range x) := by
  obtain ⟨y, hWalk, hOk⟩ := cycleWalk_walk aes key hRange hx
  rw [cycleWalk_eq_prp aes key hRange hx] at hOk
  cases hOk
  exact hWalk

theorem invPrp_walk {y : Nat} (hy : y < range) :
    walk (fun b => feistelInvPrp aes b (prpLength range) ROUNDS key) (· < range)
      (2 ^ prpLength range) (feistelInvPrp aes y (prpLength range) ROUNDS key) =
        some (invPrp aes key range y) := by
  obtain ⟨x, hWalk, hOk⟩ := invCycleWalk_walk aes key hRange hy
  rw [invCycleWalk_eq_invPrp aes key hRange hy] at hOk
  cases hOk
  exact hWalk

theorem prp_lt {x : Nat} (hx : x < range) : prp aes key range x < range :=
  Undoes.walk_lt (prp_walk aes key hRange hx)

theorem invPrp_lt {y : Nat} (hy : y < range) : invPrp aes key range y < range :=
  Undoes.walk_lt (invPrp_walk aes key hRange hy)

theorem invPrp_prp {x : Nat} (hx : x < range) :
    invPrp aes key range (prp aes key range x) = x := by
  have hUndoes := feistelPrp_undoes aes ROUNDS key (prpLength_le hRange) (by decide)
  have hBack := hUndoes.walk_back (range_le_domain range) hx (prp_walk aes key hRange hx)
  rw [invPrp_walk aes key hRange (prp_lt aes key hRange hx)] at hBack
  exact Option.some.inj hBack

theorem prp_invPrp {y : Nat} (hy : y < range) :
    prp aes key range (invPrp aes key range y) = y := by
  have hUndoes := feistelInvPrp_undoes aes ROUNDS key (prpLength_le hRange) (by decide)
  have hBack := hUndoes.walk_back (range_le_domain range) hy (invPrp_walk aes key hRange hy)
  rw [prp_walk aes key hRange (invPrp_lt aes key hRange hy)] at hBack
  exact Option.some.inj hBack

theorem prp_injective {x x' : Nat} (hx : x < range) (hx' : x' < range)
    (h : prp aes key range x = prp aes key range x') : x = x' := by
  rw [← invPrp_prp aes key hRange hx, h, invPrp_prp aes key hRange hx']

end Range

/-- Both walks return on every number below the range, and they compute a permutation of the range
and its inverse. -/
theorem cycleWalk_permutes {range : Nat} (hRange : range < 2 ^ 32) (key : Key) :
    ∃ e : Equiv.Perm (Fin range), ∀ x : Fin range,
      cycleWalk aes x range key = .ok (e x : Nat) ∧
      invCycleWalk aes x range key = .ok (e.symm x : Nat) ∧
      (cycleWalk aes x range key >>= fun y => invCycleWalk aes y range key) = .ok (x : Nat) ∧
      (invCycleWalk aes x range key >>= fun y => cycleWalk aes y range key) = .ok (x : Nat) := by
  let e : Equiv.Perm (Fin range) :=
    { toFun := fun x => ⟨prp aes key range x, prp_lt aes key hRange x.isLt⟩
      invFun := fun y => ⟨invPrp aes key range y, invPrp_lt aes key hRange y.isLt⟩
      left_inv := fun x => Fin.ext (invPrp_prp aes key hRange x.isLt)
      right_inv := fun y => Fin.ext (prp_invPrp aes key hRange y.isLt) }
  refine ⟨e, fun x => ?_⟩
  have hWalk := cycleWalk_eq_prp aes key hRange x.isLt
  have hInvWalk := invCycleWalk_eq_invPrp aes key hRange x.isLt
  refine ⟨hWalk, hInvWalk, ?_, ?_⟩
  · rw [hWalk, ok_bind, invCycleWalk_eq_invPrp aes key hRange (prp_lt aes key hRange x.isLt),
      invPrp_prp aes key hRange x.isLt]
  · rw [hInvWalk, ok_bind, cycleWalk_eq_prp aes key hRange (invPrp_lt aes key hRange x.isLt),
      prp_invPrp aes key hRange x.isLt]

theorem cycleWalk_permutes_five :
    ∃ e : Equiv.Perm (Fin 5), ∀ x : Fin 5,
      cycleWalk (fun _ block => block) x 5 (Vector.replicate 16 0) = .ok (e x : Nat) ∧
      invCycleWalk (fun _ block => block) x 5 (Vector.replicate 16 0) = .ok (e.symm x : Nat) ∧
      (cycleWalk (fun _ block => block) x 5 (Vector.replicate 16 0) >>= fun y =>
        invCycleWalk (fun _ block => block) y 5 (Vector.replicate 16 0)) = .ok (x : Nat) ∧
      (invCycleWalk (fun _ block => block) x 5 (Vector.replicate 16 0) >>= fun y =>
        cycleWalk (fun _ block => block) y 5 (Vector.replicate 16 0)) = .ok (x : Nat) :=
  cycleWalk_permutes _ (by decide) _

end IncPir
