import Mathlib.Data.Nat.Bitwise
import Mathlib.Algebra.Order.Ring.Nat

/-! # Feistel networks with unequal halves

A block of `left + right` bits is read as a high part of `left` bits and a low
part of `right` bits. One round moves the low part up and mixes the high part
with a function of the low one, so the halves swap their widths. The round
functions are arbitrary apart from the size of their results.
-/

namespace Feistel
set_option autoImplicit false

/-- One round: the low part becomes the high part of the result. -/
def round (left right : Nat) (mix : Nat → Nat) (block : Nat) : Nat :=
  (block % 2 ^ right) * 2 ^ left + ((block / 2 ^ right) ^^^ mix (block % 2 ^ right))

def unround (left right : Nat) (mix : Nat → Nat) (block : Nat) : Nat :=
  ((block % 2 ^ left) ^^^ mix (block / 2 ^ left)) * 2 ^ right + block / 2 ^ left

def Bounded (left : Nat) (mix : Nat → Nat) : Prop := ∀ x, mix x < 2 ^ left

theorem join_div (high low k : Nat) (h : low < 2 ^ k) : (high * 2 ^ k + low) / 2 ^ k = high := by
  rw [Nat.add_comm, Nat.add_mul_div_right _ _ (Nat.two_pow_pos k), Nat.div_eq_of_lt h, Nat.zero_add]

theorem join_mod (high low k : Nat) (h : low < 2 ^ k) : (high * 2 ^ k + low) % 2 ^ k = low := by
  rw [Nat.add_comm, Nat.add_mul_mod_self_right, Nat.mod_eq_of_lt h]

theorem join_lt {high low m k : Nat} (hHigh : high < 2 ^ m) (hLow : low < 2 ^ k) :
    high * 2 ^ k + low < 2 ^ (k + m) := by
  calc
    high * 2 ^ k + low < high * 2 ^ k + 2 ^ k := Nat.add_lt_add_left hLow _
    _ = (high + 1) * 2 ^ k := by rw [Nat.add_mul, Nat.one_mul]
    _ ≤ 2 ^ m * 2 ^ k := Nat.mul_le_mul_right _ hHigh
    _ = 2 ^ (k + m) := by rw [← Nat.pow_add, Nat.add_comm]

/-- The shifted disjunction by which code joins two halves. -/
theorem shift_or_eq_join (high low k : Nat) (h : low < 2 ^ k) :
    high <<< k ||| low = high * 2 ^ k + low := by
  rw [← Nat.shiftLeft_add_eq_or_of_lt h, Nat.shiftLeft_eq]

theorem high_lt {left right block : Nat} (h : block < 2 ^ (left + right)) :
    block / 2 ^ right < 2 ^ left := by
  rw [Nat.div_lt_iff_lt_mul (Nat.two_pow_pos right), ← Nat.pow_add]
  exact h

section Round
variable {left right : Nat} {mix : Nat → Nat}

theorem mixed_lt (hMix : Bounded left mix) {block : Nat} (h : block < 2 ^ (left + right)) :
    (block / 2 ^ right) ^^^ mix (block % 2 ^ right) < 2 ^ left :=
  Nat.xor_lt_two_pow (high_lt h) (hMix _)

theorem unmixed_lt (hMix : Bounded left mix) (block : Nat) :
    (block % 2 ^ left) ^^^ mix (block / 2 ^ left) < 2 ^ left :=
  Nat.xor_lt_two_pow (Nat.mod_lt _ (Nat.two_pow_pos left)) (hMix _)

theorem round_lt (hMix : Bounded left mix) {block : Nat} (h : block < 2 ^ (left + right)) :
    round left right mix block < 2 ^ (left + right) :=
  join_lt (Nat.mod_lt _ (Nat.two_pow_pos right)) (mixed_lt hMix h)

theorem unround_lt (hMix : Bounded left mix) {block : Nat} (h : block < 2 ^ (left + right)) :
    unround left right mix block < 2 ^ (left + right) := by
  rw [Nat.add_comm left right]
  exact join_lt (unmixed_lt hMix block) (high_lt (by rwa [Nat.add_comm right left]))

theorem unround_round (hMix : Bounded left mix) {block : Nat} (h : block < 2 ^ (left + right)) :
    unround left right mix (round left right mix block) = block := by
  have hLow := mixed_lt hMix h
  rw [unround, round, join_mod _ _ _ hLow, join_div _ _ _ hLow, Nat.xor_assoc, Nat.xor_self,
    Nat.xor_zero]
  exact Nat.div_add_mod' block (2 ^ right)

theorem round_unround {block : Nat} (h : block < 2 ^ (left + right)) :
    round left right mix (unround left right mix block) = block := by
  have hLow : block / 2 ^ left < 2 ^ right := high_lt (by rwa [Nat.add_comm right left])
  rw [round, unround, join_mod _ _ _ hLow, join_div _ _ _ hLow, Nat.xor_assoc, Nat.xor_self,
    Nat.xor_zero]
  exact Nat.div_add_mod' block (2 ^ left)

end Round

/-- The rounds in order, each reading the block in the same two parts. -/
def network (left right : Nat) (mixes : List (Nat → Nat)) (block : Nat) : Nat :=
  mixes.foldl (fun acc mix => round left right mix acc) block

def unnetwork (left right : Nat) (mixes : List (Nat → Nat)) (block : Nat) : Nat :=
  mixes.foldl (fun acc mix => unround left right mix acc) block

section Network
variable (left right : Nat)

theorem network_lt (mixes : List (Nat → Nat)) (hMixes : ∀ mix ∈ mixes, Bounded left mix)
    {block : Nat} (h : block < 2 ^ (left + right)) :
    network left right mixes block < 2 ^ (left + right) := by
  induction mixes generalizing block with
  | nil => exact h
  | cons mix rest ih =>
    exact ih (fun m hm => hMixes m (List.mem_cons_of_mem mix hm))
      (round_lt (hMixes mix List.mem_cons_self) h)

theorem unnetwork_lt (mixes : List (Nat → Nat)) (hMixes : ∀ mix ∈ mixes, Bounded left mix)
    {block : Nat} (h : block < 2 ^ (left + right)) :
    unnetwork left right mixes block < 2 ^ (left + right) := by
  induction mixes generalizing block with
  | nil => exact h
  | cons mix rest ih =>
    exact ih (fun m hm => hMixes m (List.mem_cons_of_mem mix hm))
      (unround_lt (hMixes mix List.mem_cons_self) h)

theorem unnetwork_reverse_network (mixes : List (Nat → Nat))
    (hMixes : ∀ mix ∈ mixes, Bounded left mix) {block : Nat} (h : block < 2 ^ (left + right)) :
    unnetwork left right mixes.reverse (network left right mixes block) = block := by
  induction mixes generalizing block with
  | nil => rfl
  | cons mix rest ih =>
    have hMix := hMixes mix List.mem_cons_self
    have hInner := ih (fun m hm => hMixes m (List.mem_cons_of_mem mix hm)) (round_lt hMix h)
    rw [unnetwork, List.reverse_cons, List.foldl_append]
    change unround left right mix
      (unnetwork left right rest.reverse (network left right rest (round left right mix block))) = _
    rw [hInner, unround_round hMix h]

theorem network_unnetwork_reverse (mixes : List (Nat → Nat))
    (hMixes : ∀ mix ∈ mixes, Bounded left mix) {block : Nat} (h : block < 2 ^ (left + right)) :
    network left right mixes (unnetwork left right mixes.reverse block) = block := by
  induction mixes generalizing block with
  | nil => rfl
  | cons mix rest ih =>
    have hRest : ∀ m ∈ rest, Bounded left m := fun m hm => hMixes m (List.mem_cons_of_mem mix hm)
    have hSplit : unnetwork left right (mix :: rest).reverse block =
        unround left right mix (unnetwork left right rest.reverse block) := by
      rw [unnetwork, List.reverse_cons, List.foldl_append]
      rfl
    rw [hSplit]
    change network left right rest (round left right mix (unround left right mix _)) = _
    rw [round_unround
      (unnetwork_lt left right rest.reverse (fun m hm => hRest m (List.mem_reverse.mp hm)) h)]
    exact ih hRest h

end Network

end Feistel
