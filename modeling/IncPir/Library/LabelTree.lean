import Mathlib.Data.List.Basic
import Mathlib.Data.Nat.Bitwise

/-! # Labelled binary trees grown from a root

A generator turns a label into the labels of two children. A leaf is reached by
its bits, most significant first; one sibling for each bit of a path gives
every leaf except the one at its end.
-/

namespace LabelTree
set_option autoImplicit false

universe u

variable {κ : Type u} (grow : κ → κ × κ)

def child (label : κ) (bit : Bool) : κ := if bit then (grow label).2 else (grow label).1

def descend (label : κ) (bits : List Bool) : κ := bits.foldl (child grow) label

theorem descend_append (label : κ) (front back : List Bool) :
    descend grow label (front ++ back) = descend grow (descend grow label front) back :=
  List.foldl_append

theorem descend_concat (label : κ) (bits : List Bool) (bit : Bool) :
    descend grow label (bits ++ [bit]) = child grow (descend grow label bits) bit :=
  descend_append grow label bits [bit]

def siblings (label : κ) : List Bool → List κ
  | [] => []
  | bit :: rest => child grow label (!bit) :: siblings (child grow label bit) rest

theorem siblings_concat (label : κ) (bits : List Bool) (bit : Bool) :
    siblings grow label (bits ++ [bit]) =
      siblings grow label bits ++ [child grow (descend grow label bits) (!bit)] := by
  induction bits generalizing label with
  | nil => rfl
  | cons first rest ih =>
    rw [List.cons_append, siblings, siblings, ih, List.cons_append]
    rfl

theorem length_siblings (label : κ) (bits : List Bool) : (siblings grow label bits).length = bits.length := by
  induction bits generalizing label with
  | nil => rfl
  | cons first rest ih => rw [siblings, List.length_cons, List.length_cons, ih]

/-- The sibling at a level is the label of the path that turns off there. -/
theorem siblings_getElem? (label : κ) (bits : List Bool) {i : Nat} (h : i < bits.length) :
    (siblings grow label bits)[i]? = some (descend grow label (bits.take i ++ [!bits[i]])) := by
  induction bits generalizing label i with
  | nil => exact absurd h (Nat.not_lt_zero i)
  | cons bit rest ih =>
    cases i with
    | zero => rfl
    | succ i =>
      rw [siblings, List.getElem?_cons_succ, ih _ (Nat.lt_of_succ_lt_succ h)]
      rfl

section Bits

/-- The bits of `x` in a tree of the given height, most significant first. -/
def pathBits (height x : Nat) : List Bool := (List.range height).map fun i => x.testBit (height - 1 - i)

theorem length_pathBits (height x : Nat) : (pathBits height x).length = height := by
  rw [pathBits, List.length_map, List.length_range]

theorem pathBits_getElem {height i : Nat} (x : Nat) (h : i < (pathBits height x).length) :
    (pathBits height x)[i] = x.testBit (height - 1 - i) := by
  simp only [pathBits, List.getElem_map, List.getElem_range]

theorem pathBits_succ (height x : Nat) :
    pathBits (height + 1) x = pathBits height (x / 2) ++ [x.testBit 0] := by
  rw [pathBits, List.range_succ, List.map_append, pathBits]
  congr 1
  · apply List.map_congr_left
    intro i hi
    have hi' := List.mem_range.mp hi
    rw [Nat.testBit_div_two]
    congr 1
    omega
  · simp

theorem pathBits_cons (height x : Nat) : pathBits (height + 1) x = x.testBit height :: pathBits height x := by
  rw [pathBits, pathBits, List.range_succ_eq_map, List.map_cons, List.map_map]
  congr 1
  apply List.map_congr_left
  intro i _
  simp [Nat.sub_sub, Nat.add_comm]

theorem pathBits_two_pow_add (height x : Nat) : pathBits height (2 ^ height + x) = pathBits height x := by
  apply List.map_congr_left
  intro i hi
  have hHeight := List.mem_range.mp hi
  exact Nat.testBit_two_pow_add_gt (by omega) x

theorem pathBits_injective {height x y : Nat} (hx : x < 2 ^ height) (hy : y < 2 ^ height)
    (h : pathBits height x = pathBits height y) : x = y := by
  induction height generalizing x y with
  | zero => omega
  | succ height ih =>
    rw [pathBits_succ, pathBits_succ] at h
    obtain ⟨hFront, hLast⟩ := List.append_inj' h rfl
    rw [Nat.pow_succ] at hx hy
    have hHalf := ih (by omega) (by omega) hFront
    have hBit : x % 2 = y % 2 := by
      have hBits := List.head_eq_of_cons_eq hLast
      rw [Nat.testBit_zero, Nat.testBit_zero, decide_eq_decide] at hBits
      omega
    omega

theorem pathBits_add {low x : Nat} (hx : x < 2 ^ low) (high : Nat) :
    pathBits (high + low) x = List.replicate high false ++ pathBits low x := by
  induction low generalizing x with
  | zero =>
    have hZero : x = 0 := by omega
    subst hZero
    simp [pathBits]
  | succ low ih =>
    rw [← Nat.add_assoc, pathBits_succ, pathBits_succ, ih (by rw [Nat.pow_succ] at hx; omega),
      List.append_assoc]

end Bits

section Levels

def nextLevel (labels : List κ) : List κ := labels.flatMap fun label => [(grow label).1, (grow label).2]

theorem range_double (n : Nat) : List.range (2 * n) = (List.range n).flatMap fun i => [2 * i, 2 * i + 1] := by
  induction n with
  | zero => rfl
  | succ n ih =>
    rw [Nat.mul_succ, List.range_succ, List.range_succ, ih, List.range_succ, List.flatMap_append,
      List.append_assoc]
    rfl

/-- The level below the leaves of height `m` lists the leaves of height `m + 1`. -/
theorem nextLevel_leaves (label : κ) (m : Nat) :
    nextLevel grow ((List.range (2 ^ m)).map fun x => descend grow label (pathBits m x)) =
      (List.range (2 ^ (m + 1))).map fun x => descend grow label (pathBits (m + 1) x) := by
  have hHalf : ∀ i, (2 * i) / 2 = i ∧ (2 * i + 1) / 2 = i := fun i => by omega
  rw [nextLevel, Nat.pow_succ, Nat.mul_comm, range_double, List.flatMap_map, List.map_flatMap]
  congr 1
  funext i
  rw [List.map_cons, List.map_singleton, pathBits_succ, pathBits_succ, descend_concat, descend_concat,
    (hHalf i).1, (hHalf i).2]
  simp [child]

end Levels

end LabelTree
