import Mathlib.Algebra.BigOperators.Group.Finset.Sigma
import Mathlib.Algebra.BigOperators.Group.Finset.Piecewise
import Mathlib.Data.Finset.Powerset
import Mathlib.Data.Finset.Sort

/-! # Counting the ways to lose one element

How many sets of `k + 1` elements that contain `a` become a given set of `k`
elements when one element is taken out, `a` itself or any other.
-/

namespace ErasureCount
open Finset
set_option autoImplicit false

universe u

variable {α : Type u} [DecidableEq α]

def containing (U : Finset α) (k : Nat) (a : α) : Finset (Finset α) :=
  (U.powersetCard k).filter (a ∈ ·)

variable {U T : Finset α} {k : Nat} {a : α}

theorem mem_containing (S : Finset α) : S ∈ containing U k a ↔ (S ⊆ U ∧ S.card = k) ∧ a ∈ S := by
  rw [containing, mem_filter, mem_powersetCard]

theorem erase_mem_powersetCard {S : Finset α} (hS : S ∈ containing U (k + 1) a) {h : α} (hMem : h ∈ S) :
    S.erase h ∈ U.powersetCard k := by
  obtain ⟨⟨hSub, hCard⟩, -⟩ := (mem_containing S).mp hS
  refine mem_powersetCard.mpr ⟨(erase_subset h S).trans hSub, ?_⟩
  rw [card_erase_of_mem hMem, hCard, Nat.add_sub_cancel]

theorem insert_mem_containing (hT : T ∈ U.powersetCard k) {h : α} (hU : h ∈ U) (hNot : h ∉ T)
    (ha : a ∈ insert h T) : insert h T ∈ containing U (k + 1) a := by
  obtain ⟨hSub, hCard⟩ := mem_powersetCard.mp hT
  refine (mem_containing _).mpr ⟨⟨insert_subset hU hSub, ?_⟩, ha⟩
  rw [card_insert_of_notMem hNot, hCard]

/-- Taking out `h` leads to `T` from exactly one set when `h ∉ T`, and from none otherwise. -/
theorem sum_erase_eq (hT : T ∈ U.powersetCard k) {h : α} (hU : h ∈ U) (ha : a = h ∨ a ∈ T) (weight : Nat) :
    (∑ S ∈ containing U (k + 1) a, if h ∈ S ∧ S.erase h = T then weight else 0) =
      if h ∈ T then 0 else weight := by
  by_cases hMem : h ∈ T
  · rw [if_pos hMem]
    apply sum_eq_zero
    intro S _
    apply if_neg
    rintro ⟨-, rfl⟩
    exact notMem_erase h S hMem
  · rw [if_neg hMem]
    have ha' : a ∈ insert h T := mem_insert.mpr ha
    have hUnique : ∀ S, (h ∈ S ∧ S.erase h = T) ↔ S = insert h T := by
      intro S
      constructor
      · rintro ⟨hS, rfl⟩
        exact (insert_erase hS).symm
      · rintro rfl
        exact ⟨mem_insert_self h T, erase_insert hMem⟩
    simp only [hUnique]
    rw [sum_ite_eq', if_pos (insert_mem_containing hT hU hMem ha')]

theorem sum_erase_self (hT : T ∈ U.powersetCard k) (hU : a ∈ U) (weight : Nat) :
    (∑ S ∈ containing U (k + 1) a, if S.erase a = T then weight else 0) =
      if a ∈ T then 0 else weight := by
  rw [← sum_erase_eq hT hU (Or.inl rfl) weight]
  apply sum_congr rfl
  intro S hS
  simp only [((mem_containing S).mp hS).2, true_and]

/-- Taking out one other element leads to `T` once for every element outside `T`, if `a ∈ T`. -/
theorem sum_erase_others (hT : T ∈ U.powersetCard k) :
    (∑ S ∈ containing U (k + 1) a, ∑ h ∈ S.erase a, if S.erase h = T then 1 else 0) =
      if a ∈ T then U.card - k else 0 := by
  obtain ⟨hSub, hCard⟩ := mem_powersetCard.mp hT
  by_cases hMem : a ∈ T
  · have hSwap : (∑ S ∈ containing U (k + 1) a, ∑ h ∈ S.erase a, if S.erase h = T then 1 else 0) =
        ∑ h ∈ U, ∑ S ∈ containing U (k + 1) a, if h ∈ S ∧ S.erase h = T then 1 else 0 := by
      rw [sum_comm]
      apply sum_congr rfl
      intro S hS
      obtain ⟨⟨hS, -⟩, -⟩ := (mem_containing S).mp hS
      rw [← sum_subset ((erase_subset a S).trans hS)]
      · apply sum_congr rfl
        intro h hh
        simp only [mem_of_mem_erase hh, true_and]
      · intro h _ hOut
        apply if_neg
        rintro ⟨hIn, rfl⟩
        obtain ⟨hNe, -⟩ := mem_erase.mp hMem
        exact hOut (mem_erase.mpr ⟨hNe.symm, hIn⟩)
    rw [hSwap, if_pos hMem, sum_congr rfl fun h hh => sum_erase_eq hT hh (Or.inr hMem) 1]
    have hIte : ∀ h, (if h ∈ T then 0 else 1) = if h ∉ T then 1 else 0 := fun h => by
      rw [ite_not]
    simp only [hIte]
    rw [← card_filter, filter_notMem_eq_sdiff, card_sdiff_of_subset hSub, hCard]
  · rw [if_neg hMem]
    apply sum_eq_zero
    intro S hS
    apply sum_eq_zero
    intro h hh
    apply if_neg
    rintro rfl
    obtain ⟨hNe, -⟩ := mem_erase.mp hh
    exact hMem (mem_erase.mpr ⟨hNe.symm, ((mem_containing S).mp hS).2⟩)

theorem sum_range_getElem {l : List α} (hl : l.Nodup) (f : α → Nat) (default : α) :
    (∑ r ∈ range l.length, f (l.getD r default)) = ∑ h ∈ l.toFinset, f h := by
  rw [List.sum_toFinset f hl]
  clear hl
  induction l with
  | nil => rfl
  | cons x rest ih =>
    rw [List.length_cons, sum_range_succ', List.map_cons, List.sum_cons, ← ih, Nat.add_comm]
    rfl

end ErasureCount
