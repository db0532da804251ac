import IncPir.Client
import IncPir.Library.XorFold

/-! # What the probabilistic removal takes out

On a set of at least two elements that contains the index, the removal takes
out exactly one element, the index itself for coin 0 and another one for coin
1. On a set without the index it keeps the number of elements.
-/

namespace IncPir
open LoopM XorFold
set_option autoImplicit false

/-- The element that the removal draws from the set. -/
def omitted (s : OrdSet Nat) (draw : RemoveDraw) (idx : Nat) : Nat :=
  if draw.coin = false then idx
  else (s.erase idx).elems.getD (draw.rand % (s.erase idx).size) 0

theorem omitted_of_coin_false {draw : RemoveDraw} (h : draw.coin = false) (s : OrdSet Nat) (idx : Nat) :
    omitted s draw idx = idx := if_pos h

theorem probabilisticRemove_of_coin_false {draw : RemoveDraw} (h : draw.coin = false)
    (s : OrdSet Nat) (idx : Nat) : probabilisticRemove s draw idx = .ok (s.erase idx) := if_pos h

theorem omitted_mem_of_coin_true {s : OrdSet Nat} {draw : RemoveDraw} {idx : Nat}
    (hCoin : draw.coin = true) (hSize : 1 ≤ (s.erase idx).size) :
    omitted s draw idx ∈ (s.erase idx).elems := by
  have hLt : draw.rand % (s.erase idx).size < (s.erase idx).elems.length := Nat.mod_lt _ (by omega)
  rw [omitted, if_neg (by simp [hCoin]), List.getD_eq_getElem _ _ hLt]
  exact List.getElem_mem hLt

theorem probabilisticRemove_of_coin_true {s : OrdSet Nat} {draw : RemoveDraw} {idx : Nat}
    (hCoin : draw.coin = true) (hSize : 1 ≤ (s.erase idx).size) :
    probabilisticRemove s draw idx =
      .ok (((s.erase idx).erase (omitted s draw idx)).insert idx) := by
  have hLt : draw.rand % (s.erase idx).size < (s.erase idx).elems.length := Nat.mod_lt _ (by omega)
  have hGet : elemAt (s.erase idx).elems (draw.rand % (s.erase idx).size) =
      .ok (omitted s draw idx) := by
    rw [omitted, if_neg (by simp [hCoin]), List.getD_eq_getElem _ _ hLt]
    exact elemAt_of_getElem? (List.getElem?_eq_getElem hLt)
  rw [probabilisticRemove, if_neg (by simp [hCoin])]
  simp only [modBy_of_pos hSize, ok_bind, hGet]

section Contained
variable {s : OrdSet Nat} {draw : RemoveDraw} {idx : Nat} (hMem : idx ∈ s.elems)
  (hCoin : draw.coin = true → 2 ≤ s.size)
include hMem hCoin

theorem omitted_mem : omitted s draw idx ∈ s.elems := by
  cases hDraw : draw.coin with
  | false => rwa [omitted_of_coin_false hDraw]
  | true =>
    have hSize := hCoin hDraw
    have hErase := OrdSet.size_erase hMem
    exact ((OrdSet.mem_erase _ _ _).mp (omitted_mem_of_coin_true hDraw (by omega))).2

theorem omitted_eq_iff : omitted s draw idx = idx ↔ draw.coin = false := by
  cases hDraw : draw.coin with
  | false => exact iff_of_true (omitted_of_coin_false hDraw s idx) rfl
  | true =>
    have hSize := hCoin hDraw
    have hErase := OrdSet.size_erase hMem
    have hMemErase := @omitted_mem_of_coin_true s draw idx hDraw (by omega)
    exact iff_of_false ((OrdSet.mem_erase _ _ _).mp hMemErase).1 (by decide)

theorem probabilisticRemove_of_mem :
    probabilisticRemove s draw idx = .ok (s.erase (omitted s draw idx)) := by
  cases hDraw : draw.coin with
  | false => rw [probabilisticRemove_of_coin_false hDraw, omitted_of_coin_false hDraw]
  | true =>
    have hSize := hCoin hDraw
    have hErase := OrdSet.size_erase hMem
    have hNe : omitted s draw idx ≠ idx := by
      intro hEq
      have hFalse := (omitted_eq_iff hMem hCoin).mp hEq
      rw [hDraw] at hFalse
      cases hFalse
    rw [probabilisticRemove_of_coin_true hDraw (by omega)]
    congr 1
    apply OrdSet.ext_mem
    intro z
    rw [OrdSet.mem_insert, OrdSet.mem_erase, OrdSet.mem_erase, OrdSet.mem_erase]
    constructor
    · rintro (rfl | ⟨hOmitted, -, hz⟩)
      · exact ⟨hNe.symm, hMem⟩
      · exact ⟨hOmitted, hz⟩
    · rintro ⟨hOmitted, hz⟩
      rcases eq_or_ne z idx with rfl | hz'
      · exact Or.inl rfl
      · exact Or.inr ⟨hOmitted, hz', hz⟩

end Contained

/-- A set without the index keeps its size: coin 1 exchanges an element for the index. -/
theorem probabilisticRemove_of_not_mem {s : OrdSet Nat} {draw : RemoveDraw} {idx : Nat}
    (hNot : idx ∉ s.elems) (hSize : 1 ≤ s.size) :
    probabilisticRemove s draw idx =
      .ok (if draw.coin = false then s else (s.erase (omitted s draw idx)).insert idx) ∧
      (draw.coin = true → omitted s draw idx ∈ s.elems) := by
  have hErase := OrdSet.erase_of_not_mem hNot
  cases hDraw : draw.coin with
  | false =>
    rw [probabilisticRemove_of_coin_false hDraw, hErase]
    exact ⟨rfl, by simp⟩
  | true =>
    have hMem := @omitted_mem_of_coin_true s draw idx hDraw (by rw [hErase]; exact hSize)
    rw [probabilisticRemove_of_coin_true hDraw (by rw [hErase]; exact hSize), hErase]
    rw [hErase] at hMem
    exact ⟨rfl, fun _ => hMem⟩

/-- What the removal adds to the exclusive-or of a set. -/
def removalBlock {w : Nat} (f : Nat → BitVec w) (s : OrdSet Nat) (draw : RemoveDraw) (idx : Nat) :
    BitVec w :=
  if idx ∈ s.elems then f (omitted s draw idx)
  else if draw.coin = false then 0#w else f (omitted s draw idx) ^^^ f idx

theorem xorOver_erase_insert {w : Nat} (f : Nat → BitVec w) {s : OrdSet Nat} {old new : Nat}
    (hOld : old ∈ s.elems) (hNew : new ∉ s.elems) :
    xorOver f ((s.erase old).insert new).elems = xorOver f s.elems ^^^ (f old ^^^ f new) := by
  have hNot : new ∉ (s.erase old).elems := fun h => hNew ((OrdSet.mem_erase _ _ _).mp h).2
  have hErase : xorOver f (s.erase old).elems = xorOver f s.elems ^^^ f old := xorOver_erase f hOld
  rw [xorOver_perm f (OrdSet.insert_perm hNot), xorOver_cons, hErase, BitVec.xor_comm, BitVec.xor_assoc]

/-- The removal returns; it changes the exclusive-or by `removalBlock`, and the size is one less
exactly when the index was a member. -/
theorem removal_spec {w : Nat} (f : Nat → BitVec w) {s : OrdSet Nat} {draw : RemoveDraw} {idx : Nat}
    (hCoin : draw.coin = true → 2 ≤ s.size) (hSize : 1 ≤ s.size) :
    ∃ t, probabilisticRemove s draw idx = .ok t ∧ (∀ i ∈ t.elems, i ∈ s.elems ∨ i = idx) ∧
      t.size = (if idx ∈ s.elems then s.size - 1 else s.size) ∧
      xorOver f t.elems = xorOver f s.elems ^^^ removalBlock f s draw idx := by
  by_cases hMem : idx ∈ s.elems
  · have hOld := omitted_mem hMem hCoin
    refine ⟨_, probabilisticRemove_of_mem hMem hCoin, ?_, ?_, ?_⟩
    · intro i hi
      exact Or.inl ((OrdSet.mem_erase _ _ _).mp hi).2
    · rw [if_pos hMem, OrdSet.size_erase hOld]
    · rw [removalBlock, if_pos hMem]
      exact xorOver_erase f hOld
  · obtain ⟨hOk, hOmitted⟩ := @probabilisticRemove_of_not_mem s draw idx hMem hSize
    refine ⟨_, hOk, ?_⟩
    rw [removalBlock, if_neg hMem, if_neg hMem]
    cases hDraw : draw.coin with
    | false =>
      rw [if_pos rfl, if_pos rfl, BitVec.xor_zero]
      exact ⟨fun i hi => Or.inl hi, rfl, rfl⟩
    | true =>
      rw [if_neg (by decide), if_neg (by decide)]
      have hOld := hOmitted hDraw
      refine ⟨?_, ?_, xorOver_erase_insert f hOld hMem⟩
      · intro i hi
        rcases (OrdSet.mem_insert _ _ _).mp hi with rfl | hi
        · exact Or.inr rfl
        · exact Or.inl ((OrdSet.mem_erase _ _ _).mp hi).2
      · rw [OrdSet.size_insert (fun h => hMem ((OrdSet.mem_erase _ _ _).mp h).2),
          OrdSet.size_erase hOld]
        omega

end IncPir
