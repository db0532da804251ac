import Mathlib.Data.Nat.Bitwise
import IncPir.Ck.PuncPrf
import IncPir.Library.LabelTree
import IncPir.Library.LoopM

/-! # Three evaluators of one tree

Plain, breadth-first and punctured evaluation read the same leaf. The punctured
keys are the labels beside the path, so they give every leaf except the one at
its end.
-/

namespace CkPir
open IncPir (Key Fault elemAt elemAt_of_getElem?)
open LabelTree LoopM
set_option autoImplicit false

theorem slide_toNat : ∀ {lgn : Nat}, lgn ≤ 30 → (slide lgn 0).toNat = 2 ^ lgn - 1 := by decide

theorem leafValue_lt {lgn range : Nat} (hLgn : lgn ≤ 30) (hRange : 2 ^ lgn ≤ range) (node : Key) :
    leafValue lgn range node < 2 ^ lgn := by
  have hWindow : ((leadingWord node &&& slide lgn 0) >>> 0).toNat < 2 ^ lgn := by
    have hMask := slide_toNat hLgn
    have hAnd : (leadingWord node).toNat &&& (slide lgn 0).toNat ≤ (slide lgn 0).toNat := Nat.and_le_right
    have hPos := Nat.two_pow_pos lgn
    rw [BitVec.ushiftRight_zero, BitVec.toNat_and]
    omega
  have hFirst : (List.range 64).find? (fun i =>
      decide (((leadingWord node &&& slide lgn i) >>> i).toNat < range)) = some 0 := by
    rw [List.range_succ_eq_map]
    exact List.find?_cons_of_pos (decide_eq_true (Nat.lt_of_lt_of_le hWindow hRange))
  simp only [leafValue, hFirst]
  exact Nat.lt_of_le_of_lt (Nat.mod_le _ _) hWindow

section Walk
variable (prg : Prg)

theorem bit_eq_testBit (x m : Nat) : x >>> m &&& 1 = (x.testBit m).toNat := by
  rw [Nat.and_one_is_mod, Nat.shiftRight_eq_div_pow, Nat.toNat_testBit]

theorem walkStep_bit (nodeKey : Key) (bit : Bool) :
    walkStep prg nodeKey bit.toNat = .ok (child prg nodeKey bit) := by
  cases bit <;> rfl

theorem walk_eq (lgn first x : Nat) (nodeKey : Key) :
    walk prg x lgn (first + 1) nodeKey = .ok (descend prg nodeKey ((pathBits lgn x).drop first)) := by
  have hBits : (pathBits lgn x).drop first =
      (List.range' (first + 1) (lgn - first)).map fun i => x.testBit (lgn - i) := by
    rw [pathBits, ← List.map_drop, List.range_eq_range', List.drop_range', List.range'_succ_left,
      List.map_map, Nat.mul_one, Nat.zero_add]
    apply List.map_congr_left
    intro i _
    rw [Function.comp_apply, Nat.sub_sub, Nat.add_comm 1 i]
  rw [walk, hBits, descend, List.foldl_map, Nat.add_sub_add_right]
  apply foldlM_eq_ok_of_forall
  intro node i _
  rw [bit_eq_testBit, walkStep_bit]

/-- The value at leaf `x` of the tree with the given root. -/
def leaf (lgn range : Nat) (key : Key) (x : Nat) : Nat :=
  leafValue lgn range (descend prg key (pathBits lgn x))

theorem eval_eq {lgn x : Nat} (h : x < 2 ^ lgn) (key : Key) (range : Nat) :
    eval prg key x lgn range = .ok (leaf prg lgn range key x) := by
  rw [eval, Nat.one_shiftLeft, if_neg (by omega), ← Nat.zero_add 1, walk_eq, ok_bind, List.drop_zero, leaf]

end Walk

section Breadth
variable (prg : Prg)

theorem expandLevel_eq {prevNodes : List Key} {size : Nat} (h : prevNodes.length = size) :
    expandLevel prg prevNodes size = .ok (nextLevel prg prevNodes) := by
  subst h
  rw [expandLevel, if_neg (by simp)]
  have hPushed : ∀ n ≤ prevNodes.length, (List.range n).foldlM (fun curNodes b => do
      let keyb ← elemAt prevNodes b
      .ok (curNodes ++ [(prg keyb).1, (prg keyb).2])) [] = .ok (nextLevel prg (prevNodes.take n)) := by
    intro n hn
    induction n with
    | zero => rfl
    | succ n ih =>
      have hLt : n < prevNodes.length := by omega
      have hNode := List.getElem?_eq_getElem hLt
      have hTake : prevNodes.take (n + 1) = prevNodes.take n ++ [prevNodes[n]] :=
        List.take_succ_eq_append_getElem (by omega)
      rw [List.range_succ, List.foldlM_append, ih (by omega), ok_bind, List.foldlM_cons,
        elemAt_of_getElem? hNode, ok_bind, ok_bind, hTake, nextLevel, nextLevel, List.flatMap_append]
      rfl
  rw [hPushed _ (Nat.le_refl _), List.take_length]

theorem goLeft_eq (key : Key) (n : Nat) :
    (List.range n).foldl (fun node _ => (prg node).1) key = descend prg key (List.replicate n false) := by
  induction n with
  | zero => rfl
  | succ n ih =>
    rw [List.range_succ, List.foldl_append, ih, List.replicate_succ', descend_append]
    rfl

/-- After `m` levels the list holds the leaves of height `m`, in order. -/
theorem levels_eq (subroot : Key) (start m : Nat) :
    (List.range' start m).foldlM (fun prev i => expandLevel prg prev (1 <<< (i - start))) [subroot] =
      .ok ((List.range (2 ^ m)).map fun x => descend prg subroot (pathBits m x)) := by
  induction m with
  | zero => rfl
  | succ m ih =>
    rw [List.range'_concat, List.foldlM_append, ih, ok_bind, List.foldlM_cons, Nat.one_mul,
      Nat.add_sub_cancel_left, Nat.one_shiftLeft, expandLevel_eq prg (by simp), ok_bind,
      nextLevel_leaves]
    rfl

theorem breadthEval_eq (key : Key) (lgn range : Nat) :
    breadthEval prg key 0 (1 <<< (lgn / 2)) lgn range =
      .ok ((List.range (2 ^ (lgn / 2))).map (leaf prg lgn range key)) := by
  rw [breadthEval, levels_eq, ok_bind, Nat.one_shiftLeft, Nat.sub_zero]
  apply mapM_range_eq_ok
  intro i hi
  have hHalves : lgn / 2 + (lgn - lgn / 2) = lgn := by omega
  have hi' : i < 2 ^ (lgn - lgn / 2) :=
    Nat.lt_of_lt_of_le hi (Nat.pow_le_pow_right (by decide) (by omega))
  have hNode : ((List.range (2 ^ (lgn - lgn / 2))).map fun x => descend prg
      (descend prg key (List.replicate (lgn / 2) false)) (pathBits (lgn - lgn / 2) x))[i]? =
        some (descend prg key (pathBits lgn i)) := by
    have hPath := pathBits_add hi' (lgn / 2)
    rw [hHalves] at hPath
    rw [List.getElem?_map, List.getElem?_range hi', hPath, descend_append]
    rfl
  rw [goLeft_eq, elemAt_of_getElem? hNode, ok_bind, leaf]

/-- The fast path lists the first `2 ^ (lgn / 2)` point evaluations, for even and for odd heights. -/
theorem breadthEval_eval {lgn range : Nat} (hLgn : lgn ≤ 30) (hRange : 2 ^ lgn ≤ range) (key : Key) :
    ∃ vec, breadthEval prg key 0 (2 ^ (lgn / 2)) lgn range = .ok vec ∧ vec.length = 2 ^ (lgn / 2) ∧
      ∀ i < 2 ^ (lgn / 2), ∃ v, vec[i]? = some v ∧ eval prg key i lgn range = .ok v ∧ v < 2 ^ lgn := by
  have hVec := breadthEval_eq prg key lgn range
  rw [Nat.one_shiftLeft] at hVec
  refine ⟨_, hVec, by rw [List.length_map, List.length_range], ?_⟩
  intro i hi
  have hi' : i < 2 ^ lgn := Nat.lt_of_lt_of_le hi (Nat.pow_le_pow_right (by decide) (Nat.div_le_self lgn 2))
  refine ⟨leaf prg lgn range key i, ?_, eval_eq prg hi' key range, leafValue_lt hLgn hRange _⟩
  rw [List.getElem?_map, List.getElem?_range hi]
  rfl

theorem breadthEval_eval_odd :
    ∃ vec, breadthEval (fun key => (key, key)) (Vector.replicate 16 7) 0 (2 ^ (3 / 2)) 3 8 = .ok vec ∧
      vec.length = 2 ^ (3 / 2) ∧ ∀ i < 2 ^ (3 / 2), ∃ v, vec[i]? = some v ∧
        eval (fun key => (key, key)) (Vector.replicate 16 7) i 3 8 = .ok v ∧ v < 2 ^ 3 :=
  breadthEval_eval _ (by decide) (by decide) _

end Breadth

section Punctured
variable (prg : Prg)

theorem puncStep_eq {lgn i m : Nat} (hLevel : i + m = lgn) (p : Nat) (node : Key) (keys : List Key) :
    puncStep prg lgn ⟨p % 2 ^ (m + 1), node, p / 2 ^ (m + 1) * 2 ^ (m + 1), keys⟩ i =
      ⟨p % 2 ^ m, child prg node (p.testBit m), p / 2 ^ m * 2 ^ m,
        keys ++ [child prg node (!p.testBit m)]⟩ := by
  subst hLevel
  have hHalf : (1 <<< (i + m)) / (1 <<< i) = 2 ^ m := by
    rw [Nat.one_shiftLeft, Nat.one_shiftLeft, Nat.pow_add, Nat.mul_div_cancel_left _ (Nat.two_pow_pos i)]
  have hLow : p % 2 ^ (m + 1) = p % 2 ^ m + 2 ^ m * (p / 2 ^ m % 2) := Nat.mod_pow_succ
  have hQuot : p / 2 ^ (m + 1) = p / 2 ^ m / 2 := by rw [Nat.pow_succ, Nat.div_div_eq_div_mul]
  have hMod := Nat.mod_lt p (Nat.two_pow_pos m)
  have hWhole := Nat.div_add_mod (p / 2 ^ m) 2
  cases hBit : p.testBit m with
  | true =>
    rw [Nat.testBit_eq_decide_div_mod_eq, decide_eq_true_iff] at hBit
    rw [hBit, Nat.mul_one] at hLow
    have hOr : p / 2 ^ (m + 1) * 2 ^ (m + 1) ||| 2 ^ m = p / 2 ^ m * 2 ^ m := by
      rw [Nat.mul_comm (p / 2 ^ (m + 1)), ← Nat.two_pow_add_eq_or_of_lt
        (Nat.pow_lt_pow_right (by decide) (Nat.lt_succ_self m)), hQuot, Nat.pow_succ, Nat.mul_assoc]
      calc 2 ^ m * (2 * (p / 2 ^ m / 2)) + 2 ^ m = 2 ^ m * (2 * (p / 2 ^ m / 2) + 1) := (Nat.mul_succ _ _).symm
        _ = 2 ^ m * (p / 2 ^ m) := by rw [← hBit, hWhole]
        _ = p / 2 ^ m * 2 ^ m := Nat.mul_comm _ _
    have hShift : 1 <<< (i + m - i) = 2 ^ m := by rw [Nat.add_sub_cancel_left, Nat.one_shiftLeft]
    simp only [puncStep, hHalf, hShift, hOr]
    rw [if_pos (by omega), hLow, Nat.add_sub_cancel]
    rfl
  | false =>
    rw [Nat.testBit_eq_decide_div_mod_eq, decide_eq_false_iff_not] at hBit
    have hEven : p / 2 ^ m % 2 = 0 := by omega
    rw [hEven, Nat.mul_zero, Nat.add_zero] at hLow
    have hSame : p / 2 ^ (m + 1) * 2 ^ (m + 1) = p / 2 ^ m * 2 ^ m := by
      rw [hQuot, Nat.pow_succ, Nat.mul_comm (2 ^ m), ← Nat.mul_assoc]
      congr 1
      omega
    simp only [puncStep, hHalf]
    rw [if_neg (by omega), hLow, hSame]
    rfl

theorem puncLoop_eq {lgn p : Nat} (hp : p < 2 ^ lgn) (key : Key) {j : Nat} (hj : j ≤ lgn) :
    (List.range' 1 j).foldl (puncStep prg lgn) ⟨p, key, 0, []⟩ =
      ⟨p % 2 ^ (lgn - j), descend prg key ((pathBits lgn p).take j), p / 2 ^ (lgn - j) * 2 ^ (lgn - j),
        siblings prg key ((pathBits lgn p).take j)⟩ := by
  induction j with
  | zero => simp [Nat.mod_eq_of_lt hp, Nat.div_eq_of_lt hp, descend, siblings]
  | succ j ih =>
    obtain ⟨m, hm⟩ : ∃ m, lgn = j + 1 + m := ⟨lgn - (j + 1), by omega⟩
    have hLength : j < (pathBits lgn p).length := by
      rw [length_pathBits]
      omega
    have hTake : (pathBits lgn p).take (j + 1) = (pathBits lgn p).take j ++ [p.testBit m] := by
      rw [List.take_succ_eq_append_getElem hLength, pathBits_getElem]
      congr 3
      omega
    have hBefore : lgn - j = m + 1 := by omega
    have hAfter : lgn - (j + 1) = m := by omega
    rw [List.range'_concat, List.foldl_append, ih (by omega), hTake, descend_concat, siblings_concat,
      hBefore, hAfter, List.foldl_cons, List.foldl_nil, puncStep_eq prg (by omega)]

theorem punc_eq {lgn p : Nat} (hp : p < 2 ^ lgn) (key : Key) :
    punc prg key p lgn = ⟨lgn, p, siblings prg key (pathBits lgn p)⟩ := by
  have hTake : (pathBits lgn p).take lgn = pathBits lgn p :=
    List.take_of_length_le (Nat.le_of_eq (length_pathBits lgn p))
  rw [punc, puncLoop_eq prg hp key (Nat.le_refl lgn), hTake, Nat.sub_self, Nat.pow_zero, Nat.div_one,
    Nat.mul_one]

theorem maskedBit_eq_iff (x p m : Nat) : x &&& 1 <<< m = p &&& 1 <<< m ↔ x.testBit m = p.testBit m := by
  rw [Nat.one_shiftLeft, Nat.and_two_pow, Nat.and_two_pow, Nat.mul_right_cancel_iff (Nat.two_pow_pos m)]
  cases x.testBit m <;> cases p.testBit m <;> simp

/-- The loop stops at the first level at which the paths part, with the label of the other side. -/
theorem leavePath_eq (key : Key) {lgn p x : Nat} (hp : p < 2 ^ lgn) (hx : x < 2 ^ lgn) (hNe : x ≠ p)
    {level remaining : Nat} (hLevel : level + remaining = lgn)
    (hShared : (pathBits lgn x).take level = (pathBits lgn p).take level) :
    ∃ last, leavePath ⟨lgn, p, siblings prg key (pathBits lgn p)⟩ x lgn
        (List.range' (level + 1) remaining) (level + 1) =
      .ok (some (descend prg key ((pathBits lgn x).take last)), last) := by
  induction remaining generalizing level with
  | zero =>
    have hAll : pathBits lgn x = pathBits lgn p := by
      rwa [List.take_of_length_le (by rw [length_pathBits]; omega),
        List.take_of_length_le (by rw [length_pathBits]; omega)] at hShared
    exact absurd (pathBits_injective hx hp hAll) hNe
  | succ remaining ih =>
    have hLengthX : level < (pathBits lgn x).length := by
      rw [length_pathBits]
      omega
    have hLengthP : level < (pathBits lgn p).length := by
      rw [length_pathBits]
      omega
    have hIndex : lgn - 1 - level = lgn - (level + 1) := by omega
    have hTakeX : (pathBits lgn x).take (level + 1) =
        (pathBits lgn p).take level ++ [x.testBit (lgn - (level + 1))] := by
      rw [List.take_succ_eq_append_getElem hLengthX, pathBits_getElem, hShared, hIndex]
    rw [List.range'_succ, leavePath]
    by_cases hBit : x.testBit (lgn - (level + 1)) = p.testBit (lgn - (level + 1))
    · rw [if_neg (not_not.mpr ((maskedBit_eq_iff ..).mpr hBit))]
      apply ih (by omega)
      rw [hTakeX, List.take_succ_eq_append_getElem hLengthP, pathBits_getElem, hIndex, hBit]
    · rw [if_pos fun hEq => hBit ((maskedBit_eq_iff ..).mp hEq)]
      refine ⟨level + 1, ?_⟩
      have hKey := siblings_getElem? prg key (pathBits lgn p) hLengthP
      have hTurn : (!p.testBit (lgn - (level + 1))) = x.testBit (lgn - (level + 1)) := by
        rw [Bool.not_eq_eq_eq_not]
        exact (Bool.eq_not_of_ne fun h => hBit h.symm)
      rw [pathBits_getElem, hIndex, hTurn, ← hTakeX] at hKey
      rw [Nat.add_sub_cancel, elemAt_of_getElem? hKey, ok_bind]

theorem evalPunc_punc_of_ne {lgn p x range : Nat} (hLgn : lgn ≤ 30) (hRange : 2 ^ lgn ≤ range)
    (hp : p < 2 ^ lgn) (hx : x < 2 ^ lgn) (hNe : x ≠ p) (key : Key) :
    evalPunc prg (punc prg key p lgn) x lgn range = .ok (leaf prg lgn range key x : Int) := by
  obtain ⟨last, hLeave⟩ := leavePath_eq prg key hp hx hNe (Nat.zero_add lgn) rfl
  have hLeaf : leaf prg lgn range key x < 2 ^ 31 :=
    Nat.lt_of_lt_of_le (leafValue_lt hLgn hRange _) (Nat.pow_le_pow_right (by decide) (by omega))
  rw [punc_eq prg hp, evalPunc, if_neg hNe, hLeave, ok_bind]
  simp only
  have hNat : (BitVec.ofNat 32 (leaf prg lgn range key x)).toNat = leaf prg lgn range key x :=
    Nat.mod_eq_of_lt (by omega)
  rw [walk_eq, ok_bind, ← descend_append, List.take_append_drop, ← leaf,
    BitVec.toInt_eq_toNat_of_lt (by omega), hNat]

theorem evalPunc_punc_self {lgn p : Nat} (hp : p < 2 ^ lgn) (key : Key) (range : Nat) :
    evalPunc prg (punc prg key p lgn) p lgn range = .ok (-1) := by
  rw [punc_eq prg hp, evalPunc, if_pos rfl]

/-- The punctured key knows its point and one label for each level, and evaluates as the key does
everywhere else. -/
theorem evalPunc_agrees {lgn range p x : Nat} (hLgn : lgn ≤ 30) (hRange : 2 ^ lgn ≤ range)
    (hp : p < 2 ^ lgn) (hx : x < 2 ^ lgn) (key : Key) :
    (punc prg key p lgn).bitvec = p ∧ (punc prg key p lgn).keys.length = lgn ∧
      (x ≠ p → ∃ v : Nat, eval prg key x lgn range = .ok v ∧
        evalPunc prg (punc prg key p lgn) x lgn range = .ok (v : Int)) ∧
      (x = p → evalPunc prg (punc prg key p lgn) x lgn range = .ok (-1)) := by
  have hPunc := punc_eq prg hp key
  refine ⟨by rw [hPunc], ?_, ?_, ?_⟩
  · rw [hPunc, length_siblings, length_pathBits]
  · intro hNe
    exact ⟨_, eval_eq prg hx key range, evalPunc_punc_of_ne prg hLgn hRange hp hx hNe key⟩
  · rintro rfl
    exact evalPunc_punc_self prg hp key range

theorem evalPunc_agrees_two :
    (punc (fun key => (key, key)) (Vector.replicate 16 7) 1 2).bitvec = 1 ∧
      (punc (fun key => (key, key)) (Vector.replicate 16 7) 1 2).keys.length = 2 ∧
      (2 ≠ 1 → ∃ v : Nat, eval (fun key => (key, key)) (Vector.replicate 16 7) 2 2 4 = .ok v ∧
        evalPunc (fun key => (key, key)) (punc (fun key => (key, key)) (Vector.replicate 16 7) 1 2) 2 2 4 =
          .ok (v : Int)) ∧
      (2 = 1 → evalPunc (fun key => (key, key)) (punc (fun key => (key, key)) (Vector.replicate 16 7) 1 2)
        2 2 4 = .ok (-1)) :=
  evalPunc_agrees _ (by decide) (by decide) (by decide) (by decide) _

end Punctured

end CkPir
