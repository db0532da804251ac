import Mathlib.Algebra.BigOperators.Fin
import Mathlib.Data.Fintype.BigOperators
import Mathlib.Algebra.Order.Field.Rat
import Mathlib.Data.Nat.Choose.Basic
import Mathlib.Tactic.FieldSimp
import Mathlib.Tactic.Ring
import Mathlib.Tactic.Positivity
import Mathlib.Tactic.LinearCombination

/-! # Reservoir sampling by independent trials

Each trial is accepted with a probability of its own and, when accepted, puts a
new item into one of `k` cells. The number of cells that hold a new item is
hypergeometric when trial `i` is accepted with probability `k / (a + 1 + i)`.
-/

namespace Reservoir
open Finset
set_option autoImplicit false

variable {k m : Nat}

/-- The cells that the accepted trials put their items into. -/
def occupied (accept : Fin m → Bool) (cell : Fin m → Fin k) : Finset (Fin k) :=
  (univ.filter fun i => accept i = true).image cell

def coinWeight (p : ℚ) (b : Bool) : ℚ := if b then p else 1 - p

def weight (p : Nat → ℚ) (accept : Fin m → Bool) : ℚ := ∏ i : Fin m, coinWeight (p i) (accept i)

/-- The probability that `l` cells end up with a new item, with uniform cells. -/
def law (p : Nat → ℚ) (k m l : Nat) : ℚ :=
  ∑ accept : Fin m → Bool, ∑ cell : Fin m → Fin k,
    if (occupied accept cell).card = l then weight p accept * (1 / k) ^ m else 0

theorem occupied_snoc (accept : Fin m → Bool) (cell : Fin m → Fin k) (b : Bool) (r : Fin k) :
    occupied (Fin.snoc accept b : Fin (m + 1) → Bool) (Fin.snoc cell r : Fin (m + 1) → Fin k) =
      if b then insert r (occupied accept cell) else occupied accept cell := by
  ext c
  have hAny : c ∈ occupied (Fin.snoc accept b : Fin (m + 1) → Bool) (Fin.snoc cell r : Fin (m + 1) → Fin k) ↔
      c ∈ occupied accept cell ∨ b = true ∧ r = c := by
    simp [occupied, Fin.exists_fin_succ']
  rw [hAny]
  cases b with
  | false => simp
  | true => rw [if_pos rfl, mem_insert, or_comm, @eq_comm _ r c, eq_self, true_and]

theorem weight_snoc (p : Nat → ℚ) (accept : Fin m → Bool) (b : Bool) :
    weight p (Fin.snoc accept b : Fin (m + 1) → Bool) = weight p accept * coinWeight (p m) b := by
  simp [weight, Fin.prod_univ_castSucc]

theorem sum_snoc {α : Type} [Fintype α] (f : (Fin (m + 1) → α) → ℚ) :
    ∑ v, f v = ∑ v : Fin m → α, ∑ a, f (Fin.snoc v a : Fin (m + 1) → α) := by
  rw [← (Fin.snocEquiv fun _ => α).sum_comp f, Fintype.sum_prod_type, sum_comm]
  rfl

theorem sum_card_insert (S : Finset (Fin k)) (l : Nat) :
    (∑ r, if (insert r S).card = l then (1 : ℚ) else 0) =
      (if S.card = l then (l : ℚ) else 0) + if S.card + 1 = l then (k : ℚ) - S.card else 0 := by
  have hInside : ∑ r ∈ S, (if (insert r S).card = l then (1 : ℚ) else 0) =
      if S.card = l then (l : ℚ) else 0 := by
    have hSame : ∀ r ∈ S, (if (insert r S).card = l then (1 : ℚ) else 0) = if S.card = l then 1 else 0 :=
      fun r hr => by rw [insert_eq_of_mem hr]
    rw [sum_congr rfl hSame, sum_const, nsmul_eq_mul, mul_ite, mul_one, mul_zero]
    exact ite_congr rfl (fun h => congrArg _ h) fun _ => rfl
  have hOutside : ∑ r ∈ Sᶜ, (if (insert r S).card = l then (1 : ℚ) else 0) =
      if S.card + 1 = l then (k : ℚ) - S.card else 0 := by
    have hOneMore : ∀ r ∈ Sᶜ,
        (if (insert r S).card = l then (1 : ℚ) else 0) = if S.card + 1 = l then 1 else 0 :=
      fun r hr => by rw [card_insert_of_notMem (mem_compl.mp hr)]
    rw [sum_congr rfl hOneMore, sum_const, nsmul_eq_mul, mul_ite, mul_one, mul_zero, card_compl,
      Fintype.card_fin, Nat.cast_sub (by simpa using card_le_univ S)]
  rw [← sum_add_sum_compl S, hInside, hOutside]

/-- The probability of the next trial, from a set of occupied cells. -/
theorem sum_step (p : ℚ) (hk : 0 < k) (S : Finset (Fin k)) (l : Nat) :
    (∑ b, ∑ r, if (if b then insert r S else S).card = l then coinWeight p b * (1 / k) else 0) =
      (if S.card = l then 1 - p + p * (l / k) else 0) +
        if S.card + 1 = l then p * ((k - S.card) / k) else 0 := by
  have hk' : (k : ℚ) ≠ 0 := Nat.cast_ne_zero.mpr (Nat.ne_of_gt hk)
  have hKeep : (∑ r : Fin k, if S.card = l then (1 - p) * (1 / k : ℚ) else 0) =
      if S.card = l then 1 - p else 0 := by
    rw [sum_const, card_univ, Fintype.card_fin, nsmul_eq_mul, mul_ite, mul_zero]
    refine ite_congr rfl (fun _ => ?_) fun _ => rfl
    field_simp
  have hPut : (∑ r, if (insert r S).card = l then p * (1 / k : ℚ) else 0) =
      p * (1 / k) * ((if S.card = l then (l : ℚ) else 0) + if S.card + 1 = l then (k : ℚ) - S.card else 0) := by
    rw [← sum_card_insert, mul_sum]
    exact sum_congr rfl fun r _ => by rw [mul_ite, mul_one, mul_zero]
  rw [Fintype.sum_bool]
  simp only [if_true, Bool.false_eq_true, if_false, coinWeight]
  rw [hKeep, hPut]
  split_ifs <;> ring

theorem law_succ (p : Nat → ℚ) (hk : 0 < k) (m l : Nat) :
    law p k (m + 1) l =
      law p k m l * (1 - p m + p m * (l / k)) +
        if l = 0 then 0 else law p k m (l - 1) * (p m * ((k - (l - 1 : Nat)) / k)) := by
  let w (accept : Fin m → Bool) : ℚ := weight p accept * (1 / k) ^ m
  have hSplit : law p k (m + 1) l = ∑ accept : Fin m → Bool, ∑ cell : Fin m → Fin k, w accept *
      ∑ b, ∑ r, if (if b then insert r (occupied accept cell) else occupied accept cell).card = l then
        coinWeight (p m) b * (1 / k) else 0 := by
    rw [law, sum_snoc]
    refine sum_congr rfl fun accept _ => ?_
    simp only [sum_snoc (α := Fin k), occupied_snoc, weight_snoc, mul_sum]
    rw [sum_comm]
    refine sum_congr rfl fun cell _ => sum_congr rfl fun b _ => sum_congr rfl fun r _ => ?_
    rw [mul_ite, mul_zero]
    refine ite_congr rfl (fun _ => ?_) fun _ => rfl
    ring
  have hStay : law p k m l * (1 - p m + p m * (l / k)) = ∑ accept : Fin m → Bool, ∑ cell : Fin m → Fin k,
      w accept * if (occupied accept cell).card = l then 1 - p m + p m * (l / k) else 0 := by
    simp only [law, sum_mul, ite_mul, zero_mul, mul_ite, mul_zero, w]
  have hMove : (if l = 0 then 0 else law p k m (l - 1) * (p m * ((k - (l - 1 : Nat)) / k))) =
      ∑ accept : Fin m → Bool, ∑ cell : Fin m → Fin k, w accept *
        if (occupied accept cell).card + 1 = l then p m * ((k - (occupied accept cell).card) / k) else 0 := by
    cases l with
    | zero => simp
    | succ l =>
      rw [if_neg (Nat.succ_ne_zero l), Nat.add_sub_cancel]
      simp only [law, sum_mul, ite_mul, zero_mul, mul_ite, mul_zero, Nat.succ.injEq, w]
      refine sum_congr rfl fun accept _ => sum_congr rfl fun cell _ => ?_
      exact ite_congr rfl (fun h => by rw [h]) fun _ => rfl
  rw [hSplit, hStay, hMove, ← sum_add_distrib]
  refine sum_congr rfl fun accept _ => ?_
  rw [← sum_add_distrib]
  refine sum_congr rfl fun cell _ => ?_
  rw [sum_step (p m) hk, mul_add]

theorem law_zero (p : Nat → ℚ) (k l : Nat) : law p k 0 l = if l = 0 then 1 else 0 := by
  simp only [law, univ_unique, sum_singleton, occupied, weight, univ_eq_empty, filter_empty, image_empty,
    card_empty, prod_empty, pow_zero, mul_one, @eq_comm _ 0 l]

/-- One more trial, accepted with probability `k / total`. -/
theorem law_succ_mul {p : Nat → ℚ} (hk : 0 < k) {m : Nat} {total : ℚ} (hTotal : total ≠ 0)
    (hp : p m = k / total) (l : Nat) :
    law p k (m + 1) l * total = law p k m l * (total - k + l) +
      if l = 0 then 0 else law p k m (l - 1) * (k - (l - 1 : Nat)) := by
  have hk' : (k : ℚ) ≠ 0 := Nat.cast_ne_zero.mpr (Nat.ne_of_gt hk)
  rw [law_succ p hk, hp, add_mul]
  congr 1
  · field_simp
  · rw [ite_mul, zero_mul]
    refine ite_congr rfl (fun _ => rfl) fun _ => ?_
    field_simp

section Hypergeometric

/-- The ways to choose the `k - l` elements that are not new among `a` old ones. -/
def chooseOld (a k l : Nat) : Nat := if l ≤ k then a.choose (k - l) else 0

theorem choose_succ_mul (n j : Nat) : (n.choose (j + 1) : ℚ) * (j + 1) = n.choose j * (n - j) := by
  by_cases hj : j ≤ n
  · rw [← Nat.cast_sub hj]
    exact_mod_cast Nat.choose_succ_right_eq n j
  · rw [Nat.choose_eq_zero_of_lt (by omega), Nat.choose_eq_zero_of_lt (by omega)]
    simp

theorem choose_mul_succ {n k : Nat} (hk : k ≤ n + 1) :
    (n.choose k : ℚ) * (n + 1) = (n + 1).choose k * (n + 1 - k) := by
  rw [← Nat.cast_succ, ← Nat.cast_sub hk]
  exact_mod_cast Nat.choose_mul_succ_eq n k

theorem chooseOld_succ (a k l : Nat) :
    (chooseOld a k l : ℚ) * (k - l) = chooseOld a k (l + 1) * (a - (k - (l + 1))) := by
  rcases Nat.lt_trichotomy l k with hl | rfl | hl
  · have hChoose := choose_succ_mul a (k - (l + 1))
    have hPred : k - (l + 1) + 1 = k - l := by omega
    rw [hPred] at hChoose
    rw [chooseOld, chooseOld, if_pos (by omega), if_pos (by omega)]
    push_cast [Nat.cast_sub (by omega : l + 1 ≤ k)] at hChoose
    linear_combination hChoose
  · simp [chooseOld]
  · rw [chooseOld, chooseOld, if_neg (by omega), if_neg (by omega)]
    simp

/-- The acceptance of trial `i` that keeps a uniform `k`-subset of `a` old and `i` new items. -/
def acceptance (a k i : Nat) : ℚ := k / (a + 1 + i)

variable {a : Nat} (hk : 0 < k) (ha : k ≤ a + 1)
include hk ha

theorem law_one (l : Nat) :
    law (acceptance a k) k 1 l * (a + 1).choose k = Nat.choose 1 l * chooseOld a k l := by
  have hTotal : (a : ℚ) + 1 ≠ 0 := by positivity
  have hStep := @law_succ_mul k (acceptance a k) hk 0 _ hTotal (by simp [acceptance]) l
  apply mul_right_cancel₀ hTotal
  rw [mul_right_comm, hStep, law_zero]
  rcases l with - | - | l
  · have hChoose := choose_mul_succ ha
    simp only [chooseOld, Nat.zero_le, if_true, Nat.choose_zero_right, Nat.sub_zero, Nat.cast_zero, Nat.cast_one]
    linear_combination -hChoose
  · have hChoose : ((a : ℚ) + 1) * a.choose (k - 1) = (a + 1).choose k * k := by
      obtain ⟨j, rfl⟩ := Nat.exists_eq_add_of_le' hk
      exact_mod_cast Nat.add_one_mul_choose_eq a j
    have hSome : 0 + 1 ≤ k := hk
    rw [if_neg (by decide), if_neg (by decide), Nat.add_sub_cancel, law_zero, if_pos rfl, chooseOld,
      if_pos hSome, Nat.choose_self, Nat.cast_zero, Nat.cast_one]
    linear_combination -hChoose
  · rw [if_neg (by omega), if_neg (by omega), law_zero, if_neg (by omega),
      Nat.choose_eq_zero_of_lt (by omega : 1 < l + 1 + 1)]
    simp

/-- The number of new items is hypergeometric. -/
theorem law_hypergeometric (m l : Nat) :
    law (acceptance a k) k (m + 1) l * (a + (m + 1)).choose k = (m + 1).choose l * chooseOld a k l := by
  induction m generalizing l with
  | zero => exact law_one hk ha l
  | succ m ih =>
    have hTotal : (a + (m + 1) + 1 : ℚ) ≠ 0 := by positivity
    have hOthers : (a + (m + 1) + 1 - k : ℚ) ≠ 0 := by
      have hLt : (k : ℚ) < a + (m + 1) + 1 := by exact_mod_cast (by omega : k < a + (m + 1) + 1)
      exact ne_of_gt (sub_pos.mpr hLt)
    have hAccept : acceptance a k (m + 1) = k / (a + (m + 1) + 1) := by
      rw [acceptance]
      push_cast
      ring
    have hStep := law_succ_mul hk hTotal hAccept l
    -- the next binomial coefficient is this one times the total over the total less `k`
    have hChoose : ((a + (m + 1)).choose k : ℚ) * (a + (m + 1) + 1) =
        (a + (m + 1 + 1)).choose k * (a + (m + 1) + 1 - k) := by
      have hNext := @choose_mul_succ (a + (m + 1)) k (by omega)
      push_cast at hNext
      exact hNext
    have hScaled : law (acceptance a k) k (m + 1 + 1) l * (a + (m + 1 + 1)).choose k * (a + (m + 1) + 1 - k) =
        (a + (m + 1)).choose k * (law (acceptance a k) k (m + 1 + 1) l * (a + (m + 1) + 1)) := by
      linear_combination -law (acceptance a k) k (m + 1 + 1) l * hChoose
    apply mul_right_cancel₀ hOthers
    rw [hScaled, hStep]
    cases l with
    | zero =>
      have hNone := ih 0
      rw [Nat.choose_zero_right, Nat.cast_one, one_mul] at hNone ⊢
      rw [if_pos rfl, Nat.cast_zero]
      linear_combination (a + (m + 1) + 1 - k : ℚ) * hNone
    | succ l =>
      have hPascal : ((m + 1 + 1).choose (l + 1) : ℚ) = (m + 1).choose l + (m + 1).choose (l + 1) := by
        exact_mod_cast Nat.choose_succ_succ (m + 1) l
      have hNew := choose_succ_mul (m + 1) l
      have hOld := chooseOld_succ a k l
      rw [if_neg (Nat.succ_ne_zero l), Nat.add_sub_cancel, hPascal]
      push_cast at hNew ⊢
      linear_combination (a + (m + 1) + 1 - k + (l + 1) : ℚ) * ih (l + 1) + (k - l : ℚ) * ih l +
        ((m + 1).choose l : ℚ) * hOld + (chooseOld a k (l + 1) : ℚ) * hNew

end Hypergeometric

end Reservoir
