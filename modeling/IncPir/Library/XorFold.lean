import Mathlib.Data.List.Perm.Basic

/-! # Exclusive-or folds over lists of indices

The fold depends only on the multiset of indices, and any value folded in
twice disappears. Widths and index types are arbitrary.
-/

namespace XorFold
set_option autoImplicit false

universe u v

variable {ι : Type u} {κ : Type v} {w : Nat}

def xorOver (f : ι → BitVec w) : List ι → BitVec w
  | [] => 0#w
  | i :: rest => f i ^^^ xorOver f rest

@[simp] theorem xorOver_nil (f : ι → BitVec w) : xorOver f [] = 0#w := rfl

@[simp] theorem xorOver_cons (f : ι → BitVec w) (i : ι) (rest : List ι) :
    xorOver f (i :: rest) = f i ^^^ xorOver f rest := rfl

theorem xor_xor_cancel_right (a b : BitVec w) : a ^^^ b ^^^ b = a := by
  rw [BitVec.xor_assoc, BitVec.xor_self, BitVec.xor_zero]

theorem xor_xor_cancel_left (a b : BitVec w) : a ^^^ (a ^^^ b) = b := by
  rw [← BitVec.xor_assoc, BitVec.xor_self, BitVec.zero_xor]

theorem xor_xor_self (a b : BitVec w) : a ^^^ (b ^^^ b) = a := by
  rw [BitVec.xor_self, BitVec.xor_zero]

theorem xor_eq_iff_eq_xor (a b c : BitVec w) : a ^^^ b = c ↔ a = c ^^^ b := by
  constructor
  · rintro rfl
    exact (xor_xor_cancel_right a b).symm
  · rintro rfl
    exact xor_xor_cancel_right c b

theorem xor_xor_eq_self_iff (a b c : BitVec w) : a ^^^ b ^^^ c = a ↔ b = c :=
  (xor_eq_iff_eq_xor (a ^^^ b) c a).trans (BitVec.xor_right_inj a)

theorem eq_xor_self_iff (a b : BitVec w) : a = a ^^^ b ↔ b = 0#w := by
  constructor
  · intro h
    rw [← xor_xor_cancel_left a b, ← h, BitVec.xor_self]
  · rintro rfl
    rw [BitVec.xor_zero]

theorem xor_xor_shared (a b c : BitVec w) : (a ^^^ b) ^^^ (a ^^^ c) = b ^^^ c := by
  rw [BitVec.xor_comm a b, BitVec.xor_assoc, xor_xor_cancel_left]

theorem xorOver_append (f : ι → BitVec w) (left right : List ι) :
    xorOver f (left ++ right) = xorOver f left ^^^ xorOver f right := by
  induction left with
  | nil => simp
  | cons i rest ih => simp [ih, BitVec.xor_assoc]

theorem xorOver_perm (f : ι → BitVec w) {left right : List ι} (h : left.Perm right) :
    xorOver f left = xorOver f right := by
  induction h with
  | nil => rfl
  | cons i _ ih => simp [ih]
  | swap i j rest =>
    simp only [xorOver_cons]
    rw [← BitVec.xor_assoc, ← BitVec.xor_assoc, BitVec.xor_comm (f j)]
  | trans _ _ ih₁ ih₂ => exact ih₁.trans ih₂

theorem xorOver_congr {f g : ι → BitVec w} {l : List ι} (h : ∀ i ∈ l, f i = g i) :
    xorOver f l = xorOver g l := by
  induction l with
  | nil => rfl
  | cons i rest ih =>
    rw [xorOver_cons, xorOver_cons, h i List.mem_cons_self,
      ih fun j hj => h j (List.mem_cons_of_mem i hj)]

theorem xorOver_map (f : κ → BitVec w) (g : ι → κ) (l : List ι) :
    xorOver f (l.map g) = xorOver (fun i => f (g i)) l := by
  induction l with
  | nil => rfl
  | cons i rest ih => simp [ih]

theorem xorOver_zero (l : List ι) : xorOver (fun _ => 0#w) l = 0#w := by
  induction l with
  | nil => rfl
  | cons i rest ih => simp [ih]

/-- Only one index contributes. -/
theorem xorOver_single [DecidableEq ι] (f : ι → BitVec w) {l : List ι} (hNodup : l.Nodup) {p : ι} (hp : p ∈ l) :
    xorOver (fun i => if i = p then f i else 0#w) l = f p := by
  induction l with
  | nil => cases hp
  | cons i rest ih =>
    obtain ⟨hFirst, hRest⟩ := List.nodup_cons.mp hNodup
    rcases List.mem_cons.mp hp with rfl | hp
    · have hZero : xorOver (fun i => if i = p then f i else 0#w) rest = xorOver (fun _ => 0#w) rest := by
        apply xorOver_congr
        intro j hj
        rw [if_neg]
        rintro rfl
        exact hFirst hj
      rw [xorOver_cons, if_pos rfl, hZero, xorOver_zero, BitVec.xor_zero]
    · have hOther : i ≠ p := by
        rintro rfl
        exact hFirst hp
      rw [xorOver_cons, if_neg hOther, BitVec.zero_xor, ih hRest hp]

/-- Over a list without repetition an indicator contributes its value where its index is listed. -/
theorem xorOver_indicator [DecidableEq ι] (a : BitVec w) {l : List ι} (hNodup : l.Nodup) (p : ι) :
    xorOver (fun i => if i = p then a else 0#w) l = if p ∈ l then a else 0#w := by
  by_cases hp : p ∈ l
  · rw [xorOver_single (fun _ => a) hNodup hp, if_pos hp]
  · have hZero : xorOver (fun i => if i = p then a else 0#w) l = xorOver (fun _ => 0#w) l := by
      apply xorOver_congr
      intro i hi
      rw [if_neg]
      rintro rfl
      exact hp hi
    rw [hZero, xorOver_zero, if_neg hp]

theorem xorOver_filter (f : ι → BitVec w) (l : List ι) :
    xorOver f (l.filter fun i => decide (f i ≠ 0#w)) = xorOver f l := by
  induction l with
  | nil => rfl
  | cons i rest ih =>
    by_cases hi : f i = 0#w
    · rw [List.filter_cons_of_neg (by simpa using hi), ih, xorOver_cons, hi, BitVec.zero_xor]
    · rw [List.filter_cons_of_pos (by simpa using hi), xorOver_cons, ih, xorOver_cons]

/-- Only the indices with a value other than zero have to be the same. -/
theorem xorOver_congr_mem {f : ι → BitVec w} {left right : List ι} (hLeft : left.Nodup) (hRight : right.Nodup)
    (h : ∀ i, f i ≠ 0#w → (i ∈ left ↔ i ∈ right)) : xorOver f left = xorOver f right := by
  have hPerm : (left.filter fun i => decide (f i ≠ 0#w)).Perm (right.filter fun i => decide (f i ≠ 0#w)) := by
    refine (List.perm_ext_iff_of_nodup (hLeft.filter _) (hRight.filter _)).mpr ?_
    intro i
    rw [List.mem_filter, List.mem_filter]
    refine and_congr_left ?_
    intro hi
    exact h i (by simpa using hi)
  rw [← xorOver_filter f left, ← xorOver_filter f right, xorOver_perm f hPerm]

theorem xorOver_erase [DecidableEq ι] (f : ι → BitVec w) {l : List ι} {i : ι} (h : i ∈ l) :
    xorOver f (l.erase i) = xorOver f l ^^^ f i := by
  rw [xorOver_perm f (List.perm_cons_erase h), xorOver_cons, BitVec.xor_comm,
    xor_xor_cancel_left]

theorem foldl_xor (f : ι → BitVec w) (l : List ι) (start : BitVec w) :
    l.foldl (fun acc i => acc ^^^ f i) start = start ^^^ xorOver f l := by
  induction l generalizing start with
  | nil => simp
  | cons i rest ih => rw [List.foldl_cons, ih, xorOver_cons, BitVec.xor_assoc]

theorem xorOver_xor (f g : ι → BitVec w) (l : List ι) :
    xorOver (fun i => f i ^^^ g i) l = xorOver f l ^^^ xorOver g l := by
  induction l with
  | nil => simp
  | cons i rest ih =>
    rw [xorOver_cons, ih, xorOver_cons, xorOver_cons, BitVec.xor_assoc, ← BitVec.xor_assoc (g i),
      BitVec.xor_comm (g i), BitVec.xor_assoc, ← BitVec.xor_assoc]

/-- Folding the columns of a table on their own folds the whole table. -/
theorem xorOver_rows (f : Nat → BitVec w) (m rows : Nat) :
    xorOver f (List.range (m * rows)) =
      xorOver (fun k => xorOver (fun row => f (m * row + k)) (List.range rows)) (List.range m) := by
  induction rows with
  | zero => simp [xorOver_zero]
  | succ rows ih =>
    rw [Nat.mul_succ, List.range_add, xorOver_append, ih, xorOver_map, ← xorOver_xor]
    apply xorOver_congr
    intro k _
    rw [List.range_succ, xorOver_append, xorOver_cons, xorOver_nil, BitVec.xor_zero]

theorem xorOver_range_erase (f : Nat → BitVec w) {n p : Nat} (h : p < n) :
    xorOver f ((List.range n).filter (· != p)) = xorOver f (List.range n) ^^^ f p := by
  rw [← xorOver_erase f (List.mem_range.mpr h), List.nodup_range.erase_eq_filter]

theorem zipWith_zero_xor {l : List (BitVec w)} {n : Nat} (h : l.length = n) :
    List.zipWith (· ^^^ ·) (List.replicate n 0#w) l = l := by
  induction l generalizing n with
  | nil => simp
  | cons b rest ih =>
    subst h
    rw [List.length_cons, List.replicate_succ, List.zipWith_cons_cons, ih rfl, BitVec.zero_xor]

theorem zipWith_xor_right_comm (l a b : List (BitVec w)) :
    List.zipWith (· ^^^ ·) (List.zipWith (· ^^^ ·) l a) b =
      List.zipWith (· ^^^ ·) (List.zipWith (· ^^^ ·) l b) a := by
  induction l generalizing a b with
  | nil => simp
  | cons x rest ih =>
    cases a with
    | nil => simp
    | cons y a =>
      cases b with
      | nil => simp
      | cons z b =>
        rw [List.zipWith_cons_cons, List.zipWith_cons_cons, List.zipWith_cons_cons,
          List.zipWith_cons_cons, ih, BitVec.xor_assoc, BitVec.xor_comm y, ← BitVec.xor_assoc]

end XorFold
