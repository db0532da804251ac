import IncPir.Library.LabelTree
import IncPir.Library.XorFold
import Mathlib.Data.LawfulXor.Basic

/-! # Point functions shared by two parties

A tree whose levels grow differently has one generator for each level; its
leaves stand in the order of their paths. Two parties grow such a tree from
seeds of their own. A correction word for each level makes their nodes equal
off one path and keeps their control bits different on it, so that values
computed at the leaves cancel everywhere but at the end of that path. Widths
and generators are arbitrary.
-/

namespace SharedTree
set_option autoImplicit false

open LabelTree XorFold

universe u v

section Levels
variable {κ : Type u} {μ : Type v}

def walk : List (κ → κ × κ) → κ → List Bool → κ
  | grow :: levels, root, bit :: bits => walk levels (child grow root bit) bits
  | _, root, _ => root

def leaves : List (κ → κ × κ) → κ → List κ
  | [], root => [root]
  | grow :: levels, root => leaves levels (grow root).1 ++ leaves levels (grow root).2

@[simp] theorem walk_stay (levels : List (κ → κ × κ)) (root : κ) : walk levels root [] = root := by
  cases levels <;> rfl

@[simp] theorem walk_cons (grow : κ → κ × κ) (levels : List (κ → κ × κ)) (root : κ) (bit : Bool)
    (bits : List Bool) : walk (grow :: levels) root (bit :: bits) = walk levels (child grow root bit) bits :=
  rfl

@[simp] theorem leaves_nil (root : κ) : leaves [] root = [root] := rfl

theorem leaves_append (upper lower : List (κ → κ × κ)) (root : κ) :
    leaves (upper ++ lower) root = (leaves upper root).flatMap (leaves lower) := by
  induction upper generalizing root with
  | nil => simp
  | cons grow upper ih => simp [leaves, ih]

@[simp] theorem length_leaves (levels : List (κ → κ × κ)) (root : κ) :
    (leaves levels root).length = 2 ^ levels.length := by
  induction levels generalizing root with
  | nil => rfl
  | cons grow levels ih =>
    rw [leaves, List.length_append, ih, ih, List.length_cons, Nat.pow_succ]
    omega

/-- The leaf at index `x` stands at the end of the path that the bits of `x` describe. -/
theorem leaves_eq (levels : List (κ → κ × κ)) (root : κ) :
    leaves levels root =
      (List.range (2 ^ levels.length)).map fun x => walk levels root (pathBits levels.length x) := by
  induction levels generalizing root with
  | nil => rfl
  | cons grow levels ih =>
    rw [leaves, ih, ih, List.length_cons, Nat.pow_succ, Nat.mul_two, List.range_add, List.map_append, List.map_map]
    congr 1
    · apply List.map_congr_left
      intro x hx
      have hBit := Nat.testBit_lt_two_pow (List.mem_range.mp hx)
      simp [pathBits_cons, hBit, child]
    · apply List.map_congr_left
      intro x hx
      have hBit : (2 ^ levels.length + x).testBit levels.length = true := by
        rw [Nat.testBit_two_pow_add_eq, Nat.testBit_lt_two_pow (List.mem_range.mp hx)]
        rfl
      simp [pathBits_cons, pathBits_two_pow_add, hBit, child]

/-- Trees whose levels correspond node by node have corresponding nodes. -/
theorem walk_map {ι : Type u} (f : κ → μ) {lower : ι → κ → κ × κ} {upper : ι → μ → μ × μ}
    (hGrow : ∀ i node, upper i (f node) = ((f (lower i node).1), f (lower i node).2)) (is : List ι) (root : κ)
    (bits : List Bool) : walk (is.map upper) (f root) bits = f (walk (is.map lower) root bits) := by
  induction is generalizing root bits with
  | nil => rfl
  | cons i is ih =>
    cases bits with
    | nil => rfl
    | cons bit bits =>
      have hChild : child (upper i) (f root) bit = f (child (lower i) root bit) := by
        cases bit <;> simp [child, hGrow]
      rw [List.map_cons, List.map_cons, walk_cons, walk_cons, hChild, ih]

end Levels

structure Node (n : Nat) where
  seed : BitVec n
  bit : Bool
deriving DecidableEq

/-- The word that corrects the two children of a node. -/
structure Correction (n : Nat) where
  seed : BitVec n
  left : Bool
  right : Bool

section PointFunction
variable {n m : Nat} (grow : BitVec n → Node n × Node n)

def Correction.onLeft (c : Correction n) (node : Node n) : Node n := ⟨node.seed ^^^ c.seed, node.bit ^^ c.left⟩

def Correction.onRight (c : Correction n) (node : Node n) : Node n := ⟨node.seed ^^^ c.seed, node.bit ^^ c.right⟩

/-- The children of a node; the correction applies to the nodes whose control bit is set. -/
def step (c : Correction n) (node : Node n) : Node n × Node n :=
  if node.bit then (c.onLeft (grow node.seed).1, c.onRight (grow node.seed).2) else grow node.seed

/-- The correction that keeps one side of two nodes and makes the other side equal. -/
def correct (keep : Bool) (a b : Node n) : Correction n :=
  let (aL, aR) := grow a.seed
  let (bL, bR) := grow b.seed
  ⟨if keep then aL.seed ^^^ bL.seed else aR.seed ^^^ bR.seed, aL.bit ^^ bL.bit ^^ !keep, aR.bit ^^ bR.bit ^^ keep⟩

/-- The corrections along a path, and the nodes of the two parties at its end. -/
def deal : List Bool → Node n → Node n → List (Correction n) × Node n × Node n
  | [], a, b => ([], a, b)
  | keep :: path, a, b =>
    let c := correct grow keep a b
    let (rest, ends) := deal path (child (step grow c) a keep) (child (step grow c) b keep)
    (c :: rest, ends)

variable {grow}

theorem bool_xor_swap : ∀ x y : Bool, (y ^^ (x ^^ y)) = x := by decide

theorem correct_lose {a b : Node n} (hBits : a.bit ≠ b.bit) (keep : Bool) :
    child (step grow (correct grow keep a b)) a (!keep) = child (step grow (correct grow keep a b)) b (!keep) := by
  obtain ⟨s, t⟩ := a
  obtain ⟨s', t'⟩ := b
  cases t <;> cases t'
  · exact absurd rfl hBits
  · cases keep <;> simp [child, step, correct, Correction.onLeft, Correction.onRight, bool_xor_swap]
  · cases keep <;> simp [child, step, correct, Correction.onLeft, Correction.onRight]
  · exact absurd rfl hBits

theorem correct_keep {a b : Node n} (hBits : a.bit ≠ b.bit) (keep : Bool) :
    (child (step grow (correct grow keep a b)) a keep).bit ≠
      (child (step grow (correct grow keep a b)) b keep).bit := by
  obtain ⟨s, t⟩ := a
  obtain ⟨s', t'⟩ := b
  cases t <;> cases t'
  · exact absurd rfl hBits
  · cases keep <;> simp [child, step, correct, Correction.onRight, Correction.onLeft, bool_xor_swap]
  · cases keep <;> simp [child, step, correct, Correction.onRight, Correction.onLeft]
  · exact absurd rfl hBits

theorem length_deal (path : List Bool) (a b : Node n) : (deal grow path a b).1.length = path.length := by
  induction path generalizing a b with
  | nil => rfl
  | cons keep path ih => simp [deal, ih]

theorem deal_bits (path : List Bool) {a b : Node n} (hBits : a.bit ≠ b.bit) :
    (deal grow path a b).2.1.bit ≠ (deal grow path a b).2.2.bit := by
  induction path generalizing a b with
  | nil => exact hBits
  | cons keep path ih => exact ih (correct_keep hBits keep)

/-- The two parties walk along the dealt path to the nodes that were dealt. -/
theorem walk_path (path : List Bool) (a b : Node n) :
    walk ((deal grow path a b).1.map (step grow)) a path = (deal grow path a b).2.1 ∧
      walk ((deal grow path a b).1.map (step grow)) b path = (deal grow path a b).2.2 := by
  induction path generalizing a b with
  | nil => exact ⟨rfl, rfl⟩
  | cons keep path ih => exact ih _ _

/-- Off the dealt path the two parties stand on equal nodes. -/
theorem walk_off_path {path bits : List Bool} (hLen : bits.length = path.length) (hOff : bits ≠ path)
    {a b : Node n} (hBits : a.bit ≠ b.bit) :
    walk ((deal grow path a b).1.map (step grow)) a bits =
      walk ((deal grow path a b).1.map (step grow)) b bits := by
  induction path generalizing a b bits with
  | nil => exact absurd (List.length_eq_zero_iff.mp hLen) hOff
  | cons keep path ih =>
    cases bits with
    | nil => simp at hLen
    | cons bit bits =>
      simp only [deal, List.map_cons, walk_cons]
      by_cases hSide : bit = keep
      · subst hSide
        exact ih (Nat.succ.inj hLen) (fun h => hOff (h ▸ rfl)) (correct_keep hBits bit)
      · obtain rfl : bit = !keep := by cases bit <;> cases keep <;> simp_all
        rw [correct_lose hBits keep]

variable (convert : BitVec n → BitVec m)

/-- The value of a node; the last correction applies where the control bit is set. -/
def value (last : BitVec m) (node : Node n) : BitVec m := convert node.seed ^^^ if node.bit then last else 0#m

theorem value_xor {a b : Node n} (hBits : a.bit ≠ b.bit) (last : BitVec m) :
    value convert last a ^^^ value convert last b = convert a.seed ^^^ convert b.seed ^^^ last := by
  obtain ⟨s, t⟩ := a
  obtain ⟨s', t'⟩ := b
  cases t <;> cases t' <;> simp_all [value, BitVec.xor_assoc, BitVec.xor_comm last]

/-- Whatever the last correction is, the values cancel off the path. -/
theorem values_xor {path bits : List Bool} (hLen : bits.length = path.length) {a b : Node n}
    (hBits : a.bit ≠ b.bit) (last : BitVec m) :
    value convert last (walk ((deal grow path a b).1.map (step grow)) a bits) ^^^
        value convert last (walk ((deal grow path a b).1.map (step grow)) b bits) =
      if bits = path then
        convert (deal grow path a b).2.1.seed ^^^ convert (deal grow path a b).2.2.seed ^^^ last
      else 0#m := by
  by_cases hPath : bits = path
  · rw [if_pos hPath, hPath, (walk_path path a b).1, (walk_path path a b).2, value_xor convert (deal_bits path hBits)]
  · rw [if_neg hPath, walk_off_path hLen hPath hBits, BitVec.xor_self]

end PointFunction

end SharedTree
