import Mathlib.Data.List.Basic

/-! # Bits in words, and flattened lists

A mask that walks over a word packs bits into it, least significant bit first,
and reads them back. A list flattened from parts of one length is cut again at
the multiples of that length. Widths are arbitrary.
-/

namespace BitWords
set_option autoImplicit false

universe u v

section Mask
variable {v w : Nat}

theorem mask_shift (n : Nat) : BitVec.twoPow v n <<< 1 = BitVec.twoPow v (n + 1) := by
  rw [BitVec.twoPow_eq, BitVec.twoPow_eq, BitVec.shiftLeft_add]

/-- One pass of the packing loop: the word so far and the mask. -/
def packStep (bit : Nat → Bool) (acc : BitVec v × BitVec v) (k : Nat) : BitVec v × BitVec v :=
  (if bit k then acc.1 ||| acc.2 else acc.1, acc.2 <<< 1)

theorem foldl_packStep (bit : Nat → Bool) (base n : Nat) :
    ∃ word, (List.range' base n).foldl (packStep bit) (0#v, 1#v) = (word, BitVec.twoPow v n) ∧
      ∀ i < v, word.getLsbD i = (decide (i < n) && bit (base + i)) := by
  induction n with
  | zero => exact ⟨0#v, by rw [BitVec.twoPow_zero]; rfl, fun i _ => by simp⟩
  | succ n ih =>
    obtain ⟨word, hLoop, hBits⟩ := ih
    refine ⟨if bit (base + n) then word ||| BitVec.twoPow v n else word, ?_, ?_⟩
    · rw [List.range'_1_concat, List.foldl_append, hLoop, List.foldl_cons, List.foldl_nil, packStep, mask_shift]
    · intro i hi
      have hStep : (if bit (base + n) then word ||| BitVec.twoPow v n else word).getLsbD i =
          (word.getLsbD i || (bit (base + n) && decide (n = i))) := by
        cases bit (base + n) with
        | false => simp
        | true =>
          rw [if_pos rfl, BitVec.getLsbD_or, BitVec.getLsbD_twoPow]
          by_cases hSame : n = i
          · simp [hSame, hi]
          · simp [hSame]
      rw [hStep, hBits i hi]
      rcases Nat.lt_trichotomy i n with hLt | rfl | hLt
      · simp [hLt, Nat.lt_succ_of_lt hLt, Nat.ne_of_gt hLt]
      · simp
      · simp [Nat.not_lt_of_gt hLt, Nat.ne_of_lt hLt]
        omega

def assignBit (block : BitVec w) (k : Nat) (b : Bool) : BitVec w :=
  if b then block ||| BitVec.twoPow w k else block &&& ~~~BitVec.twoPow w k

theorem getLsbD_assignBit (block : BitVec w) (k : Nat) (b : Bool) {i : Nat} (hi : i < w) :
    (assignBit block k b).getLsbD i = if i = k then b else block.getLsbD i := by
  rw [assignBit]
  by_cases hk : i = k
  · subst hk
    cases b <;> simp [hi]
  · cases b <;> simp [hi, hk]

/-- One pass of the unpacking loop: the block so far and the mask. -/
def unpackStep (word : BitVec v) (acc : BitVec w × BitVec v) (k : Nat) : BitVec w × BitVec v :=
  (assignBit acc.1 k (word &&& acc.2 != 0#v), acc.2 <<< 1)

theorem and_mask_ne_zero (word : BitVec v) {n : Nat} (hn : n < v) :
    (word &&& BitVec.twoPow v n != 0#v) = word.getLsbD n := by
  rw [BitVec.and_twoPow]
  cases hBit : word.getLsbD n with
  | false => simp
  | true =>
    have hMask : BitVec.twoPow v n ≠ 0#v := by
      intro hZero
      have hTop := congrArg (fun x : BitVec v => x.getLsbD n) hZero
      simp [hn] at hTop
    simpa using hMask

theorem foldl_unpackStep (word : BitVec v) (block : BitVec w) (base : Nat) {n : Nat} (hn : n ≤ v) :
    ∃ out, (List.range' base n).foldl (unpackStep word) (block, 1#v) = (out, BitVec.twoPow v n) ∧
      ∀ i < w, out.getLsbD i =
        if base ≤ i ∧ i < base + n then word.getLsbD (i - base) else block.getLsbD i := by
  induction n with
  | zero =>
    refine ⟨block, by rw [BitVec.twoPow_zero]; rfl, fun i _ => ?_⟩
    rw [if_neg (by omega)]
  | succ n ih =>
    obtain ⟨out, hLoop, hBits⟩ := ih (by omega)
    refine ⟨assignBit out (base + n) (word.getLsbD n), ?_, ?_⟩
    · rw [List.range'_1_concat, List.foldl_append, hLoop, List.foldl_cons, List.foldl_nil, unpackStep, mask_shift,
        and_mask_ne_zero word (by omega)]
    · intro i hi
      rw [getLsbD_assignBit _ _ _ hi, hBits i hi]
      by_cases hLast : i = base + n
      · rw [if_pos hLast, if_pos (by omega)]
        congr 1
        omega
      · rw [if_neg hLast]
        by_cases hOld : base ≤ i ∧ i < base + n
        · rw [if_pos hOld, if_pos (by omega)]
        · rw [if_neg hOld, if_neg (by omega)]

end Mask

section Recut
variable {α : Type u} {β : Type v} {l : List α} {f : α → List β} {n : Nat}

theorem length_flatMap_const (h : ∀ a ∈ l, (f a).length = n) : (l.flatMap f).length = l.length * n := by
  rw [List.length_flatMap, List.map_congr_left h, List.map_const', List.sum_replicate_nat]

theorem getElem?_flatMap_const (h : ∀ a ∈ l, (f a).length = n) {i : Nat} {a : α} (hi : l[i]? = some a) {j : Nat}
    (hj : j < n) : (l.flatMap f)[i * n + j]? = (f a)[j]? := by
  induction l generalizing i with
  | nil => cases hi
  | cons b rest ih =>
    have hHead := h b List.mem_cons_self
    rw [List.flatMap_cons]
    cases i with
    | zero =>
      cases hi
      rw [Nat.zero_mul, Nat.zero_add, List.getElem?_append_left (by omega)]
    | succ i =>
      rw [Nat.succ_mul, List.getElem?_append_right (by omega), hHead,
        ← ih (fun c hc => h c (List.mem_cons_of_mem b hc)) hi]
      congr 1
      omega

/-- Rows of equal length, listed one after the other. -/
theorem flatMap_range_map {m : Nat} (hm : 0 < m) (rows : Nat) (g : Nat → Nat → α) :
    ((List.range rows).flatMap fun row => (List.range m).map (g row)) =
      (List.range (m * rows)).map fun i => g (i / m) (i % m) := by
  induction rows with
  | zero => rfl
  | succ rows ih =>
    have hLast : (List.range m).map (g rows) =
        (List.range m).map ((fun i => g (i / m) (i % m)) ∘ (m * rows + ·)) := by
      apply List.map_congr_left
      intro j hj
      have hCol := List.mem_range.mp hj
      rw [Function.comp_apply, Nat.mul_add_div hm, Nat.div_eq_of_lt hCol, Nat.mul_add_mod, Nat.mod_eq_of_lt hCol,
        Nat.add_zero]
    rw [List.range_succ, List.flatMap_append, ih, Nat.mul_succ, List.range_add, List.map_append, List.map_map,
      List.flatMap_singleton, hLast]

theorem length_flatMap_div (h : ∀ a ∈ l, (f a).length = n) (hn : 0 < n) : (l.flatMap f).length / n = l.length := by
  rw [length_flatMap_const h, Nat.mul_div_cancel _ hn]

end Recut

end BitWords
