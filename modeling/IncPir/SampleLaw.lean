import IncPir.KickLoop
import IncPir.Library.Reservoir

/-! # The law of the sampling loop

`cur_idx` counts from 0, so it is the number of indices before the new one. The
coin has the probability `setsize / cur_idx`, where a uniform set would need
`setsize / (cur_idx + 1)`.
-/

namespace IncPir
open Finset Reservoir
set_option autoImplicit false

/-- `double(setsize) / double(cur_idx)` for element `i` of a batch, without rounding. -/
def coinProb (setsize prevRange i : Nat) : ℚ := setsize / (prevRange + i)

def valueAt {α : Type} {m : Nat} (v : Fin m → α) (other : α) (i : Nat) : α := if h : i < m then v ⟨i, h⟩ else other

/-- The probability that a set receives `ell` new indices, with independent coins and uniform `r`. -/
def ellLaw (prevRange setsize nbrAdd ell : Nat) : ℚ :=
  ∑ coin : Fin nbrAdd → Bool, ∑ r : Fin nbrAdd → Fin setsize,
    if (sampleLinfo setsize prevRange nbrAdd (valueAt (fun i => (r i).val) 0) (valueAt coin false)).map
        List.length = .ok ell then
      weight (coinProb setsize prevRange) coin * (1 / setsize) ^ nbrAdd
    else 0

theorem valueAt_val {α : Type} {m : Nat} (v : Fin m → α) (other : α) (i : Fin m) : valueAt v other i = v i :=
  dif_pos i.isLt

theorem sampledCount_eq_card {setsize nbrAdd : Nat} (coin : Fin nbrAdd → Bool) (r : Fin nbrAdd → Fin setsize) :
    sampledCount setsize nbrAdd (valueAt (fun i => (r i).val) 0) (valueAt coin false) =
      (occupied coin r).card := by
  rw [sampledCount, ← List.card_toFinset, ← card_map Fin.valEmbedding]
  apply congrArg card
  ext x
  simp only [List.mem_toFinset, List.mem_map, List.mem_filter, List.mem_range, mem_map, occupied, mem_image,
    mem_filter, mem_univ, true_and, Fin.valEmbedding_apply]
  constructor
  · rintro ⟨i, ⟨hi, hCoin⟩, rfl⟩
    refine ⟨r ⟨i, hi⟩, ⟨⟨i, hi⟩, ?_, rfl⟩, ?_⟩
    · exact (valueAt_val coin false ⟨i, hi⟩).symm.trans hCoin
    · rw [valueAt, dif_pos hi, Nat.mod_eq_of_lt (r ⟨i, hi⟩).isLt]
  · rintro ⟨c, ⟨i, hCoin, rfl⟩, rfl⟩
    refine ⟨i, ⟨i.isLt, (valueAt_val coin false i).trans hCoin⟩, ?_⟩
    rw [valueAt_val, Nat.mod_eq_of_lt (r i).isLt]

theorem ellLaw_eq {prevRange setsize : Nat} (hPos : 1 ≤ setsize) (hLe : setsize ≤ prevRange) (nbrAdd ell : Nat) :
    ellLaw prevRange setsize nbrAdd ell = law (acceptance (prevRange - 1) setsize) setsize nbrAdd ell := by
  have hCoin : coinProb setsize prevRange = acceptance (prevRange - 1) setsize := by
    funext i
    rw [coinProb, acceptance, Nat.cast_pred (by omega), sub_add_cancel]
  rw [ellLaw, law, hCoin]
  refine sum_congr rfl fun coin _ => sum_congr rfl fun r _ => ?_
  obtain ⟨linfo, hLoop, hLength⟩ := sampleLinfo_ok setsize (valueAt (fun i => (r i).val) 0)
    (valueAt coin false) hPos prevRange nbrAdd
  rw [hLoop, ← sampledCount_eq_card, ← hLength]
  simp only [Except.map, Except.ok.injEq]

/-- The number of indices from `n` to `n + m - 1` in a uniform `k`-subset of the first `n + m`. -/
def subsetLaw (n k m l : Nat) : ℚ := m.choose l * chooseOld n k l / (n + m).choose k

theorem subsetLaw_pred_ne {n k m : Nat} (hk : 1 ≤ k) (hkn : k ≤ n) (hm : 1 ≤ m) :
    subsetLaw (n - 1) k m 0 ≠ subsetLaw n k m 0 := by
  obtain ⟨a, rfl⟩ := Nat.exists_eq_add_of_le' (hk.trans hkn)
  have hOld : ((a + 1).choose k : ℚ) ≠ 0 := Nat.cast_ne_zero.mpr (Nat.choose_pos hkn).ne'
  have hTotal : ((a + 1 + m).choose k : ℚ) ≠ 0 := Nat.cast_ne_zero.mpr (Nat.choose_pos (by omega)).ne'
  have hLess : ((a + m).choose k : ℚ) ≠ 0 := Nat.cast_ne_zero.mpr (Nat.choose_pos (by omega)).ne'
  have hOldSucc := choose_mul_succ hkn
  have hTotalSucc : ((a + m).choose k : ℚ) * (a + m + 1) = (a + 1 + m).choose k * (a + m + 1 - k) := by
    have hNext := @choose_mul_succ (a + m) k (by omega)
    rw [Nat.add_right_comm a m 1] at hNext
    push_cast at hNext
    exact hNext
  intro hEq
  rw [subsetLaw, subsetLaw, Nat.add_sub_cancel, Nat.choose_zero_right, Nat.cast_one, one_mul, one_mul,
    chooseOld, if_pos (Nat.zero_le k), chooseOld, if_pos (Nat.zero_le k), Nat.sub_zero,
    div_eq_div_iff hLess hTotal] at hEq
  have hZero : ((a + 1).choose k : ℚ) * (a + 1 + m).choose k * (k * m) = 0 := by
    linear_combination (-(a + 1) * (a + m + 1) : ℚ) * hEq + (a + m + 1 : ℚ) * (a + 1 + m).choose k * hOldSucc -
      (a + 1 : ℚ) * (a + 1).choose k * hTotalSucc
  have hProduct : (k * m : ℚ) ≠ 0 := by
    have hPos : 0 < k * m := Nat.mul_pos hk hm
    exact_mod_cast hPos.ne'
  exact mul_ne_zero (mul_ne_zero hOld hTotal) hProduct hZero

/-- For every range, set size and batch size, the number of new indices follows the law of the range
that is one smaller, and never that of the range itself. -/
theorem ellLaw_off_by_one {n k m : Nat} (hk : 1 ≤ k) (hkn : k ≤ n) (hm : 1 ≤ m) :
    (∀ l, ellLaw n k m l = m.choose l * chooseOld (n - 1) k l / (n - 1 + m).choose k) ∧
      ¬ ∀ l, ellLaw n k m l = m.choose l * chooseOld n k l / (n + m).choose k := by
  have hLaw : ∀ l, ellLaw n k m l = subsetLaw (n - 1) k m l := by
    intro l
    obtain ⟨j, rfl⟩ := Nat.exists_eq_add_of_le' hm
    have hTotal : ((n - 1 + (j + 1)).choose k : ℚ) ≠ 0 :=
      Nat.cast_ne_zero.mpr (Nat.choose_pos (by omega)).ne'
    rw [ellLaw_eq hk hkn, subsetLaw, eq_div_iff hTotal]
    exact law_hypergeometric hk (by omega) j l
  exact ⟨hLaw, fun hClaimed => subsetLaw_pred_ne hk hkn hm ((hLaw 0).symm.trans (hClaimed 0))⟩

theorem ellLaw_off_by_one_three :
    (∀ l, ellLaw 3 2 2 l = (2 : Nat).choose l * chooseOld (3 - 1) 2 l / (3 - 1 + 2 : Nat).choose 2) ∧
      ¬ ∀ l, ellLaw 3 2 2 l = (2 : Nat).choose l * chooseOld 3 2 l / (3 + 2 : Nat).choose 2 :=
  ellLaw_off_by_one (by decide) (by decide) (by decide)

theorem ellLaw_two :
    ellLaw 2 1 1 1 = 1 / 2 ∧
      ellLaw 2 1 1 1 ≠ (Nat.choose 1 1 * chooseOld 2 1 1 : ℚ) / (2 + 1 : Nat).choose 1 := by
  decide +kernel

end IncPir
