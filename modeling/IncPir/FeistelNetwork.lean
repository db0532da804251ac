import IncPir.Adprp

/-! # The Feistel functions are inverse permutations

The two loops of the code are the rounds of a Feistel network on blocks of at
most 32 bits, the second with the round functions in reverse order.
-/

namespace IncPir
open Feistel CycleWalk
set_option autoImplicit false

theorem lowMask_eq (length : Nat) : lowMask length = 2 ^ length - 1 := by
  rw [lowMask, Nat.one_shiftLeft]

theorem and_lowMask (x length : Nat) : x &&& lowMask length = x % 2 ^ length := by
  rw [lowMask_eq, Nat.and_two_pow_sub_one_eq_mod]

variable (aes : Aes)

/-- The round function of pass `tweak` as a mixing function on the low half. -/
def mixOf (key : Key) (leftLength tweak : Nat) (right : Nat) : Nat :=
  roundFunc aes right key tweak leftLength

theorem mixOf_bounded (key : Key) (leftLength tweak : Nat) :
    Bounded leftLength (mixOf aes key leftLength tweak) := by
  intro right
  rw [mixOf, roundFunc, and_lowMask]
  exact Nat.mod_lt _ (Nat.two_pow_pos leftLength)

def mixes (key : Key) (leftLength rounds : Nat) : List (Nat → Nat) :=
  (List.range rounds).map fun i => mixOf aes key leftLength (i + 1)

theorem mixes_bounded (key : Key) (leftLength rounds : Nat) :
    ∀ mix ∈ mixes aes key leftLength rounds, Bounded leftLength mix := by
  intro mix hMix
  obtain ⟨i, -, rfl⟩ := List.mem_map.mp hMix
  exact mixOf_bounded aes key leftLength (i + 1)

theorem mixes_reverse (key : Key) (leftLength rounds : Nat) :
    (mixes aes key leftLength rounds).reverse =
      (List.range rounds).map fun i => mixOf aes key leftLength (rounds - i) := by
  apply List.ext_getElem
  · simp [mixes]
  · intro i h₁ h₂
    have hi : i < rounds := by simpa [mixes] using h₁
    simp only [mixes, List.getElem_reverse, List.getElem_map, List.getElem_range, List.length_map,
      List.length_range]
    have hTweak : rounds - 1 - i + 1 = rounds - i := by omega
    rw [hTweak]

/-- The loop variables hold the two parts of a block cut at bit `low`. -/
def FeistelVars.Hold (vars : FeistelVars) (low block : Nat) : Prop :=
  vars.left = block / 2 ^ low ∧ vars.right = block % 2 ^ low

theorem hold_cut (high low : Nat) {block : Nat} (h : block < 2 ^ (high + low)) (last : Nat) :
    FeistelVars.Hold ⟨(block >>> low) &&& lowMask high, block &&& lowMask low, last⟩ low block := by
  constructor
  · change (block >>> low) &&& lowMask high = _
    rw [and_lowMask, Nat.shiftRight_eq_div_pow]
    exact Nat.mod_eq_of_lt (high_lt h)
  · exact and_lowMask block low

theorem join32_eq {high low m k : Nat} (hHigh : high < 2 ^ m) (hLow : low < 2 ^ k)
    (hWidth : k + m ≤ 32) : u32 (high <<< k) ||| low = high * 2 ^ k + low := by
  have hJoin : high * 2 ^ k + low < 2 ^ (k + m) := join_lt hHigh hLow
  have hPow : 2 ^ (k + m) ≤ 2 ^ 32 := Nat.pow_le_pow_right (by decide) hWidth
  rw [u32_of_lt, shift_or_eq_join _ _ _ hLow]
  rw [Nat.shiftLeft_eq]
  omega

section Passes
variable {left right : Nat} (rounds : Nat) (key : Key) (hWidth : left + right ≤ 32)
include hWidth

theorem feistelPrpPass_block {vars : FeistelVars} {block : Nat} (h : block < 2 ^ (left + right))
    (hVars : vars.Hold right block) (i : Nat) :
    (feistelPrpPass aes left right rounds key vars i).block =
      Feistel.round left right (mixOf aes key left (i + 1)) block := by
  obtain ⟨hLeft, hRight⟩ := hVars
  have hJoin := join32_eq (Nat.mod_lt block (Nat.two_pow_pos right))
    (mixed_lt (mixOf_bounded aes key left (i + 1)) h) hWidth
  rw [Feistel.round, ← hJoin, mixOf, feistelPrpPass, hLeft, hRight]
  split <;> rfl

theorem feistelPrpPass_hold {vars : FeistelVars} {block : Nat} (h : block < 2 ^ (left + right))
    (hVars : vars.Hold right block) {i : Nat} (hNotLast : i ≠ rounds - 1) :
    (feistelPrpPass aes left right rounds key vars i).Hold right
      (Feistel.round left right (mixOf aes key left (i + 1)) block) := by
  have hBlock := feistelPrpPass_block aes rounds key hWidth h hVars i
  rw [feistelPrpPass, if_neg hNotLast] at hBlock ⊢
  dsimp only at hBlock
  rw [← hBlock]
  apply hold_cut
  rw [hBlock]
  exact round_lt (mixOf_bounded aes key left (i + 1)) h

theorem feistelInvPrpPass_block {vars : FeistelVars} {block : Nat} (h : block < 2 ^ (left + right))
    (hVars : vars.Hold left block) (i : Nat) :
    (feistelInvPrpPass aes right left rounds key vars i).block =
      unround left right (mixOf aes key left (rounds - i)) block := by
  obtain ⟨hLeft, hRight⟩ := hVars
  have hSwap : block < 2 ^ (right + left) := by rwa [Nat.add_comm]
  have hJoin := join32_eq (unmixed_lt (mixOf_bounded aes key left (rounds - i)) block)
    (high_lt hSwap) (by rwa [Nat.add_comm])
  rw [unround, ← hJoin, mixOf, feistelInvPrpPass, hLeft, hRight]
  split <;> rfl

theorem feistelInvPrpPass_hold {vars : FeistelVars} {block : Nat} (h : block < 2 ^ (left + right))
    (hVars : vars.Hold left block) {i : Nat} (hNotLast : i ≠ rounds - 1) :
    (feistelInvPrpPass aes right left rounds key vars i).Hold left
      (unround left right (mixOf aes key left (rounds - i)) block) := by
  have hBlock := feistelInvPrpPass_block aes rounds key hWidth h hVars i
  rw [feistelInvPrpPass, if_neg hNotLast] at hBlock ⊢
  dsimp only at hBlock
  rw [← hBlock]
  apply hold_cut
  rw [hBlock, Nat.add_comm]
  exact unround_lt (mixOf_bounded aes key left (rounds - i)) h

theorem feistelPrp_passes_hold {vars : FeistelVars} {block : Nat} (h : block < 2 ^ (left + right))
    (hVars : vars.Hold right block) (m : Nat) (hm : m < rounds) :
    ((List.range m).foldl (feistelPrpPass aes left right rounds key) vars).Hold right
      (network left right (mixes aes key left m) block) := by
  induction m with
  | zero => exact hVars
  | succ m ih =>
    have hMixed := network_lt left right _ (mixes_bounded aes key left m) h
    rw [mixes, List.range_succ, List.foldl_append, List.map_append, network, List.foldl_append]
    exact feistelPrpPass_hold aes rounds key hWidth hMixed (ih (by omega)) (by omega)

theorem feistelInvPrp_passes_hold {vars : FeistelVars} {block : Nat}
    (h : block < 2 ^ (left + right)) (hVars : vars.Hold left block) (m : Nat) (hm : m < rounds) :
    ((List.range m).foldl (feistelInvPrpPass aes right left rounds key) vars).Hold left
      (unnetwork left right ((List.range m).map fun i => mixOf aes key left (rounds - i)) block) := by
  induction m with
  | zero => exact hVars
  | succ m ih =>
    have hMixed := unnetwork_lt left right
      ((List.range m).map fun i => mixOf aes key left (rounds - i)) (by
        intro mix hMix
        obtain ⟨i, -, rfl⟩ := List.mem_map.mp hMix
        exact mixOf_bounded aes key left (rounds - i)) h
    rw [List.range_succ, List.foldl_append, List.map_append, unnetwork, List.foldl_append]
    exact feistelInvPrpPass_hold aes rounds key hWidth hMixed (ih (by omega)) (by omega)

end Passes

theorem feistelPrp_eq_network {block blockLength rounds : Nat} (key : Key)
    (hLength : blockLength ≤ 32) (hRounds : 0 < rounds) (h : block < 2 ^ blockLength) :
    feistelPrp aes block blockLength rounds key =
      network (blockLength / 2) (blockLength - blockLength / 2)
        (mixes aes key (blockLength / 2) rounds) block := by
  obtain ⟨m, rfl⟩ : ∃ m, rounds = m + 1 := ⟨rounds - 1, by omega⟩
  have hSum : blockLength / 2 + (blockLength - blockLength / 2) = blockLength := by omega
  have hBlock : block < 2 ^ (blockLength / 2 + (blockLength - blockLength / 2)) := by rwa [hSum]
  have hWidth : blockLength / 2 + (blockLength - blockLength / 2) ≤ 32 := by omega
  have hCut := hold_cut _ _ hBlock 0
  have hPasses := feistelPrp_passes_hold aes (m + 1) key hWidth hBlock hCut m (by omega)
  have hMixed := network_lt _ _ _
    (mixes_bounded aes key (blockLength / 2) m) hBlock
  rw [feistelPrp]
  simp only [Nat.and_comm (lowMask _) block]
  rw [mixes, List.range_succ, List.foldl_append, List.map_append, network, List.foldl_append]
  exact feistelPrpPass_block aes (m + 1) key hWidth hMixed hPasses m

theorem feistelInvPrp_eq_unnetwork {block blockLength rounds : Nat} (key : Key)
    (hLength : blockLength ≤ 32) (hRounds : 0 < rounds) (h : block < 2 ^ blockLength) :
    feistelInvPrp aes block blockLength rounds key =
      unnetwork (blockLength / 2) (blockLength - blockLength / 2)
        (mixes aes key (blockLength / 2) rounds).reverse block := by
  obtain ⟨m, rfl⟩ : ∃ m, rounds = m + 1 := ⟨rounds - 1, by omega⟩
  have hSum : blockLength / 2 + (blockLength - blockLength / 2) = blockLength := by omega
  have hBlock : block < 2 ^ (blockLength / 2 + (blockLength - blockLength / 2)) := by rwa [hSum]
  have hWidth : blockLength / 2 + (blockLength - blockLength / 2) ≤ 32 := by omega
  have hCut := hold_cut (blockLength - blockLength / 2) (blockLength / 2)
    (by rwa [Nat.add_comm]) 0
  have hPasses := feistelInvPrp_passes_hold aes (m + 1) key hWidth hBlock hCut m (by omega)
  have hMixed := unnetwork_lt _ _
    ((List.range m).map fun i => mixOf aes key (blockLength / 2) (m + 1 - i)) (by
      intro mix hMix
      obtain ⟨i, -, rfl⟩ := List.mem_map.mp hMix
      exact mixOf_bounded aes key (blockLength / 2) (m + 1 - i)) hBlock
  rw [feistelInvPrp, mixes_reverse, List.range_succ, List.foldl_append, List.map_append, unnetwork,
    List.foldl_append]
  exact feistelInvPrpPass_block aes (m + 1) key hWidth hMixed hPasses m

/-- `feistel_prp` permutes the blocks of its length and `feistel_inv_prp` undoes it. -/
theorem feistelPrp_undoes {blockLength : Nat} (rounds : Nat) (key : Key) (hLength : blockLength ≤ 32)
    (hRounds : 0 < rounds) :
    Undoes (2 ^ blockLength) (fun b => feistelInvPrp aes b blockLength rounds key)
      (fun b => feistelPrp aes b blockLength rounds key) := by
  have hSum : blockLength / 2 + (blockLength - blockLength / 2) = blockLength := by omega
  have hBounded := mixes_bounded aes key (blockLength / 2) rounds
  have hLt : ∀ b < 2 ^ blockLength, feistelPrp aes b blockLength rounds key < 2 ^ blockLength := by
    intro b hb
    rw [feistelPrp_eq_network aes key hLength hRounds hb]
    simpa only [hSum] using network_lt (blockLength / 2) (blockLength - blockLength / 2) _ hBounded
      (by rwa [hSum])
  refine ⟨hLt, fun b hb => ?_⟩
  rw [feistelInvPrp_eq_unnetwork aes key hLength hRounds (hLt b hb),
    feistelPrp_eq_network aes key hLength hRounds hb]
  exact unnetwork_reverse_network _ _ _ hBounded (by rwa [hSum])

theorem feistelInvPrp_undoes {blockLength : Nat} (rounds : Nat) (key : Key) (hLength : blockLength ≤ 32)
    (hRounds : 0 < rounds) :
    Undoes (2 ^ blockLength) (fun b => feistelPrp aes b blockLength rounds key)
      (fun b => feistelInvPrp aes b blockLength rounds key) := by
  have hSum : blockLength / 2 + (blockLength - blockLength / 2) = blockLength := by omega
  have hBounded := mixes_bounded aes key (blockLength / 2) rounds
  have hLt : ∀ b < 2 ^ blockLength, feistelInvPrp aes b blockLength rounds key < 2 ^ blockLength := by
    intro b hb
    rw [feistelInvPrp_eq_unnetwork aes key hLength hRounds hb]
    simpa only [hSum] using unnetwork_lt (blockLength / 2) (blockLength - blockLength / 2) _
      (fun m hm => hBounded m (List.mem_reverse.mp hm)) (by rwa [hSum])
  refine ⟨hLt, fun b hb => ?_⟩
  rw [feistelPrp_eq_network aes key hLength hRounds (hLt b hb),
    feistelInvPrp_eq_unnetwork aes key hLength hRounds hb]
  exact network_unnetwork_reverse _ _ _ hBounded (by rwa [hSum])

/-- For every block length up to 32, also an odd one, and every number of rounds, the two functions are
inverse permutations of the blocks. -/
theorem feistelPrp_permutes {blockLength rounds : Nat} (hLength : blockLength ≤ 32) (hRounds : 1 ≤ rounds)
    (key : Key) {b : Nat} (hb : b < 2 ^ blockLength) :
    feistelPrp aes b blockLength rounds key < 2 ^ blockLength ∧
      feistelInvPrp aes b blockLength rounds key < 2 ^ blockLength ∧
      feistelInvPrp aes (feistelPrp aes b blockLength rounds key) blockLength rounds key = b ∧
      feistelPrp aes (feistelInvPrp aes b blockLength rounds key) blockLength rounds key = b := by
  obtain ⟨hPrpLt, hBack⟩ := feistelPrp_undoes aes rounds key hLength hRounds
  obtain ⟨hInvLt, hForth⟩ := feistelInvPrp_undoes aes rounds key hLength hRounds
  exact ⟨hPrpLt b hb, hInvLt b hb, hBack b hb, hForth b hb⟩

theorem feistelPrp_permutes_odd :
    feistelPrp (fun _ block => block) 19 5 3 (Vector.replicate 16 0) < 2 ^ 5 ∧
      feistelInvPrp (fun _ block => block) 19 5 3 (Vector.replicate 16 0) < 2 ^ 5 ∧
      feistelInvPrp (fun _ block => block)
        (feistelPrp (fun _ block => block) 19 5 3 (Vector.replicate 16 0)) 5 3 (Vector.replicate 16 0) = 19 ∧
      feistelPrp (fun _ block => block)
        (feistelInvPrp (fun _ block => block) 19 5 3 (Vector.replicate 16 0)) 5 3 (Vector.replicate 16 0) = 19 :=
  feistelPrp_permutes _ (by decide) (by decide) _ (by decide)

end IncPir
