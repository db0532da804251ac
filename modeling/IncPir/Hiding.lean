import IncPir.Removal
import IncPir.Library.ErasureCount

/-! # The removal hides the index

The coin `pr = (setsize - 1) / dbrange` is counted exactly: of `n` equal parts,
`n - (k - 1)` fall to coin 0 and one to each draw of `r` under coin 1.
-/

namespace IncPir
open Finset ErasureCount
set_option autoImplicit false

/-- The set that is sent, for one outcome of the coin and of `r`. -/
def removalResult (S : Finset Nat) (coin : Bool) (r idx : Nat) : Option (Finset Nat) :=
  ((probabilisticRemove (OrdSet.ofFinset S) ⟨coin, r⟩ idx).toOption).map OrdSet.toFinset

/-- The weight of the outcomes, over all sets of `k` elements that contain `idx`, that send `T`. -/
def removalWeight (n k idx : Nat) (T : Finset Nat) : Nat :=
  ∑ S ∈ ((range n).powersetCard k).filter (idx ∈ ·),
    ((if removalResult S false 0 idx = some T then n - (k - 1) else 0) +
      ∑ r ∈ range (k - 1), if removalResult S true r idx = some T then 1 else 0)

theorem removalResult_coin_false (S : Finset Nat) (r idx : Nat) :
    removalResult S false r idx = some (S.erase idx) := by
  rw [removalResult, probabilisticRemove_of_coin_false rfl]
  apply congrArg some
  ext z
  simp

section Result
variable {S : Finset Nat} {idx : Nat} (hMem : idx ∈ S)
include hMem

theorem size_ofFinset_erase : ((OrdSet.ofFinset S).erase idx).size = S.card - 1 := by
  rw [OrdSet.size_erase ((OrdSet.mem_ofFinset S idx).mpr hMem), ← OrdSet.card_toFinset,
    OrdSet.toFinset_ofFinset]

theorem removalResult_coin_true {r : Nat} (hr : r < S.card - 1) :
    removalResult S true r idx =
      some (S.erase (((OrdSet.ofFinset S).erase idx).elems.getD r 0)) := by
  have hIdx := (OrdSet.mem_ofFinset S idx).mpr hMem
  have hErase := size_ofFinset_erase hMem
  have hSize : 2 ≤ (OrdSet.ofFinset S).size := by
    rw [OrdSet.size_erase hIdx] at hErase
    omega
  rw [removalResult, probabilisticRemove_of_mem hIdx fun _ => hSize, omitted, if_neg (by simp), hErase,
    Nat.mod_eq_of_lt hr]
  apply congrArg some
  ext z
  simp

end Result

theorem sum_draws {S : Finset Nat} {n k idx : Nat} (hS : S ∈ containing (range n) (k + 1) idx)
    (T : Finset Nat) :
    (∑ r ∈ range k, if removalResult S true r idx = some T then 1 else 0) =
      ∑ h ∈ S.erase idx, if S.erase h = T then 1 else 0 := by
  obtain ⟨⟨-, hCard⟩, hMem⟩ := (mem_containing S).mp hS
  let others := (OrdSet.ofFinset S).erase idx
  have hLength : others.elems.length = k := by
    have hSize : others.size = S.card - 1 := size_ofFinset_erase hMem
    rw [hCard] at hSize
    exact hSize
  have hFinset : others.elems.toFinset = S.erase idx := by
    ext z
    simp [others]
  rw [← hFinset, ← sum_range_getElem others.nodup (fun h => if S.erase h = T then 1 else 0) 0, hLength]
  apply sum_congr rfl
  intro r hr
  have hLt : r < S.card - 1 := by
    rw [hCard]
    exact mem_range.mp hr
  simp only [removalResult_coin_true hMem hLt, Option.some.injEq, others]

/-- Every outcome is a set of `k - 1` indices, and each such set has the same weight for every
index asked for, whether or not it contains that index. -/
theorem removalWeight_uniform {n k idx : Nat} (hk : 2 ≤ k) (hkn : k ≤ n) (hIdx : idx < n) :
    (∀ T ∈ (range n).powersetCard (k - 1), removalWeight n k idx T = n - (k - 1)) ∧
    ∀ S ∈ ((range n).powersetCard k).filter (idx ∈ ·), ∀ coin, ∀ r < k - 1,
      ∃ T ∈ (range n).powersetCard (k - 1), removalResult S coin r idx = some T := by
  obtain ⟨k, rfl⟩ : ∃ m, k = m + 1 := ⟨k - 1, by omega⟩
  rw [Nat.add_sub_cancel]
  constructor
  · intro T hT
    have hSplit : removalWeight n (k + 1) idx T =
        (∑ S ∈ containing (range n) (k + 1) idx, if S.erase idx = T then n - k else 0) +
        ∑ S ∈ containing (range n) (k + 1) idx, ∑ h ∈ S.erase idx, if S.erase h = T then 1 else 0 := by
      rw [removalWeight, Nat.add_sub_cancel, ← sum_add_distrib]
      apply sum_congr rfl
      intro S hS
      rw [sum_draws hS]
      simp only [removalResult_coin_false, Option.some.injEq]
    rw [hSplit, sum_erase_self hT (mem_range.mpr hIdx), sum_erase_others hT, card_range]
    split
    · exact Nat.zero_add _
    · exact Nat.add_zero _
  · intro S hS coin r hr
    obtain ⟨⟨-, hCard⟩, hMem⟩ := (mem_containing S).mp hS
    cases coin with
    | false => exact ⟨_, erase_mem_powersetCard hS hMem, removalResult_coin_false S r idx⟩
    | true =>
      have hLt : r < S.card - 1 := by omega
      refine ⟨_, erase_mem_powersetCard hS ?_, removalResult_coin_true hMem hLt⟩
      have hLength : r < ((OrdSet.ofFinset S).erase idx).elems.length := by
        have hSize := size_ofFinset_erase hMem
        rw [OrdSet.size] at hSize
        omega
      rw [List.getD_eq_getElem _ _ hLength]
      exact (OrdSet.mem_ofFinset S _).mp ((OrdSet.mem_erase _ _ _).mp (List.getElem_mem hLength)).2

theorem removalWeight_uniform_three :
    (∀ T ∈ (range 3).powersetCard 1, removalWeight 3 2 1 T = 2) ∧
    ∀ S ∈ ((range 3).powersetCard 2).filter (1 ∈ ·), ∀ coin, ∀ r < 1,
      ∃ T ∈ (range 3).powersetCard 1, removalResult S coin r 1 = some T :=
  removalWeight_uniform (by decide : 2 ≤ 2) (by decide : 2 ≤ 3) (by decide : 1 < 3)

end IncPir
