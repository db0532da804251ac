import IncPir.Dpf.Evaluation

/-! # The two keys share a point function

The loop of `Gen` deals the corrections of a shared tree along the bits of the
index. The evaluations of the two keys then differ at that index only.
-/

namespace DpfPir
set_option autoImplicit false

open BitWords LabelTree LoopM SharedTree XorFold

section Layout

def levelBytes (w : LevelWord) : List UInt8 := blockBytes w.sCW ++ [w.tLCW, w.tRCW]

/-- The words of a key, one behind the other. -/
def KeyView.key (view : KeyView) : List UInt8 :=
  blockBytes view.root.1 ++ [view.root.2] ++ (view.levels.flatMap levelBytes ++ blockBytes view.last)

@[simp] theorem length_levelBytes (w : LevelWord) : (levelBytes w).length = 18 := by simp [levelBytes]

theorem length_levels (levels : List LevelWord) : (levels.flatMap levelBytes).length = 18 * levels.length := by
  rw [length_flatMap_const fun w _ => length_levelBytes w, Nat.mul_comm]

theorem length_key (view : KeyView) : view.key.length = 33 + 18 * view.levels.length := by
  simp only [KeyView.key, List.length_append, length_blockBytes, List.length_singleton, length_levels]
  omega

/-- Reading a part of a list that is written in three parts. -/
theorem readBlock_middle {front back : List UInt8} {b : Block} {offset : Nat} (h : front.length = offset) :
    readBlock (front ++ (blockBytes b ++ back)) offset = .ok b := by
  rw [readBlock_ok (by simp; omega), List.drop_left' h, List.take_left' (length_blockBytes b), toBlock_blockBytes]

theorem readByte_middle {front back : List UInt8} {byte : UInt8} {offset : Nat} (h : front.length = offset) :
    readByte (front ++ byte :: back) offset = .ok byte := by
  subst h
  simp [readByte]

theorem readLevel_middle {front back : List UInt8} {w : LevelWord} {lvl : Nat} (h : front.length = 17 + lvl * 18) :
    readLevel (front ++ (levelBytes w ++ back)) lvl = .ok w := by
  have hBlock : front ++ (levelBytes w ++ back) =
      front ++ (blockBytes w.sCW ++ (w.tLCW :: w.tRCW :: back)) := by simp [levelBytes]
  have hLeft : front ++ (levelBytes w ++ back) = (front ++ blockBytes w.sCW) ++ w.tLCW :: (w.tRCW :: back) := by
    simp [levelBytes]
  have hRight : front ++ (levelBytes w ++ back) = (front ++ blockBytes w.sCW ++ [w.tLCW]) ++ w.tRCW :: back := by
    simp [levelBytes]
  have hReadBlock : readBlock (front ++ (levelBytes w ++ back)) (17 + lvl * 18) = .ok w.sCW := by
    rw [hBlock, readBlock_middle h]
  have hReadLeft : readByte (front ++ (levelBytes w ++ back)) (17 + lvl * 18 + 16) = .ok w.tLCW := by
    rw [hLeft, readByte_middle (by simp [h])]
  have hReadRight : readByte (front ++ (levelBytes w ++ back)) (17 + lvl * 18 + 17) = .ok w.tRCW := by
    rw [hRight, readByte_middle (by simp [h])]
  rw [readLevel, hReadBlock, ok_bind, hReadLeft, ok_bind, hReadRight]
  rfl

theorem holds_key (view : KeyView) : Holds view.key view where
  seed := by
    have hKey : view.key = [] ++ (blockBytes view.root.1 ++
        (view.root.2 :: (view.levels.flatMap levelBytes ++ blockBytes view.last))) := by simp [KeyView.key]
    rw [hKey, readBlock_middle List.length_nil]
  control := by
    have hKey : view.key = blockBytes view.root.1 ++
        view.root.2 :: (view.levels.flatMap levelBytes ++ blockBytes view.last) := by simp [KeyView.key]
    rw [hKey, readByte_middle (length_blockBytes _)]
  levels := by
    intro lvl w hw
    obtain ⟨hLt, rfl⟩ := List.getElem?_eq_some_iff.mp hw
    have hSplit : view.levels = view.levels.take lvl ++ view.levels[lvl] :: view.levels.drop (lvl + 1) := by
      rw [← List.drop_eq_getElem_cons hLt, List.take_append_drop]
    have hKey : view.key = (blockBytes view.root.1 ++ [view.root.2] ++ (view.levels.take lvl).flatMap levelBytes) ++
        (levelBytes view.levels[lvl] ++
          ((view.levels.drop (lvl + 1)).flatMap levelBytes ++ blockBytes view.last)) := by
      conv_lhs => rw [KeyView.key, hSplit, List.flatMap_append, List.flatMap_cons]
      simp only [List.append_assoc]
    rw [hKey, readLevel_middle]
    simp only [List.length_append, length_blockBytes, List.length_singleton, length_levels, List.length_take]
    omega
  last := by
    have hKey : view.key = (blockBytes view.root.1 ++ [view.root.2] ++ view.levels.flatMap levelBytes) ++
        (blockBytes view.last ++ []) := by simp [KeyView.key]
    have hLength := length_key view
    rw [readLast, if_pos (by omega), hLength, hKey, readBlock_middle]
    simp only [List.length_append, length_blockBytes, List.length_singleton, length_levels]
    omega

end Layout

variable (isa : AesInstructions)

section Dealing

def topBit (b : Block) : Bool := b &&& MSBBlock != 0#128

/-- The children of a seed as nodes of a shared tree. -/
def growSeed (s : Block) : Node 128 × Node 128 :=
  (⟨clr (getL isa s), topBit (getL isa s)⟩, ⟨clr (getR isa s), topBit (getR isa s)⟩)

def keyNode (node : Node 128) : KeyNode := (node.seed, node.bit.toUInt8)

def levelWord (c : Correction 128) : LevelWord := ⟨c.seed, c.left.toUInt8, c.right.toUInt8⟩

theorem toUInt8_xor : ∀ a b : Bool, a.toUInt8 ^^^ b.toUInt8 = (a ^^ b).toUInt8 := by decide

theorem toUInt8_xor_one : ∀ b : Bool, b.toUInt8 ^^^ 1 = (!b).toUInt8 := by decide

theorem toUInt8_eq_zero : ∀ b : Bool, b.toUInt8 = 0 ↔ b = false := by decide

/-- Control bytes of zero and one behave as bits. -/
theorem growWith_levelWord (c : Correction 128) (node : Node 128) :
    growWith isa (levelWord c) (keyNode node) =
      (keyNode (step (growSeed isa) c node).1, keyNode (step (growSeed isa) c node).2) := by
  obtain ⟨seed, bit⟩ := node
  cases bit
  · rfl
  · simp [growWith, keyNode, levelWord, step, children, growSeed, Correction.onLeft, Correction.onRight, getT, topBit,
      toUInt8_xor, toUInt8_eq_zero]

theorem leafWith_keyNode (last : Block) (node : Node 128) :
    leafWith isa last (keyNode node) = value (convertBlock isa) last node := by
  obtain ⟨seed, bit⟩ := node
  cases bit
  · simp [leafWith, keyNode, value, toUInt8_eq_zero]
  · simp [leafWith, keyNode, value, toUInt8_eq_zero, BitVec.xor_comm]

/-- The state of `Gen` for the nodes of the two parties. -/
def genState (a b : Node 128) (CW : List UInt8) : GenState := ⟨a.seed, b.seed, a.bit.toUInt8, b.bit.toUInt8, CW⟩

theorem genLevel_eq (alpha logn i : Nat) (a b : Node 128) (CW : List UInt8) :
    genLevel isa alpha logn (genState a b CW) i =
      let keep := alpha.testBit (logn - 1 - i)
      let c := correct (growSeed isa) keep a b
      genState (child (step (growSeed isa) c) a keep) (child (step (growSeed isa) c) b keep)
        (CW ++ levelBytes (levelWord c)) := by
  obtain ⟨s, t⟩ := a
  obtain ⟨s', t'⟩ := b
  cases hKeep : alpha.testBit (logn - 1 - i) <;> cases t <;> cases t' <;>
    simp [genLevel, genState, hKeep, child, step, correct, growSeed, levelBytes, levelWord, Correction.onLeft,
      Correction.onRight, getT, topBit, toUInt8_xor, toUInt8_xor_one, toUInt8_eq_zero]

/-- The loop of `Gen` writes the corrections that are dealt along the remaining bits. -/
theorem genLoop_eq (alpha logn : Nat) (i left : Nat) (a b : Node 128) (CW : List UInt8) :
    (List.range' i left).foldl (genLevel isa alpha logn) (genState a b CW) =
      let dealt := deal (growSeed isa) ((List.range' i left).map fun i => alpha.testBit (logn - 1 - i)) a b
      genState dealt.2.1 dealt.2.2 (CW ++ (dealt.1.map levelWord).flatMap levelBytes) := by
  induction left generalizing i a b CW with
  | zero => simp [deal]
  | succ left ih =>
    rw [List.range'_succ, List.foldl_cons, genLevel_eq, ih]
    simp [deal]

/-- The node that a party starts from: bytes of the keystream, with the top bit as control bit. -/
def startNode (party : Nat) : Node 128 :=
  let s := toBlock (keystream isa (setKey isa TestBlock) (16 * party) 16)
  ⟨clr s, if party = 0 then topBit s else !topBit (toBlock (keystream isa (setKey isa TestBlock) 0 16))⟩

def dealt (alpha logn : Nat) : List (Correction 128) × Node 128 × Node 128 :=
  deal (growSeed isa) (pathBits (stopLevel logn) (alpha / 128)) (startNode isa 0) (startNode isa 1)

/-- The words of the two keys. -/
def keyView (alpha logn party : Nat) : KeyView where
  root := keyNode (startNode isa party)
  levels := (dealt isa alpha logn).1.map levelWord
  last := pointBlock alpha ^^^ convertBlock isa (dealt isa alpha logn).2.1.seed ^^^
    convertBlock isa (dealt isa alpha logn).2.2.seed

theorem start_bits : (startNode isa 0).bit ≠ (startNode isa 1).bit := by
  simp [startNode]

theorem length_keyView (alpha logn party : Nat) : (keyView isa alpha logn party).levels.length = stopLevel logn := by
  simp [keyView, dealt, length_deal, length_pathBits]

theorem gen_eq {alpha logn : Nat} (hLogn : logn ≤ 31) (hAlpha : alpha < 2 ^ logn) :
    gen isa alpha logn = .ok ((keyView isa alpha logn 0).key, (keyView isa alpha logn 1).key) := by
  obtain ⟨p, hNew, hKeyed⟩ := newPRNG_keyed isa TestBlock (show 0 < 256 by decide)
  obtain ⟨p₁, hGet₁, hKeyed₁⟩ := get_keyed isa hKeyed 16
  obtain ⟨p₂, hGet₂, _⟩ := get_keyed isa hKeyed₁ 16
  have hLoop := genLoop_eq isa alpha logn 0 (stopLevel logn) (startNode isa 0) (startNode isa 1) []
  rw [evalBits_eq, ← List.range_eq_range'] at hLoop
  have hT (b : Block) : (if getT b = 0 then 1 else 0) = (!topBit b).toUInt8 := by
    have hGetT : getT b = (topBit b).toUInt8 := rfl
    rw [hGetT]
    cases topBit b <;> rfl
  simp only [gen, checkIndex_ok hLogn hAlpha, ok_bind, getTestPRNG, hNew, hGet₁, hGet₂, hT]
  have hStart : (⟨clr (toBlock (keystream isa (setKey isa TestBlock) 0 16)),
      clr (toBlock (keystream isa (setKey isa TestBlock) (0 + 16) 16)),
      getT (toBlock (keystream isa (setKey isa TestBlock) 0 16)),
      (!topBit (toBlock (keystream isa (setKey isa TestBlock) 0 16))).toUInt8, []⟩ : GenState) =
      genState (startNode isa 0) (startNode isa 1) [] := rfl
  rw [hStart, hLoop]
  rfl

/-- Bit `i` of the last correction's target is set for the index itself only. -/
theorem getLsbD_pointBlock (alpha : Nat) {i : Nat} (hi : i < 128) :
    (pointBlock alpha).getLsbD i = decide (i = alpha % 128) := by
  have hMask : alpha &&& 127 = alpha % 128 := Nat.and_two_pow_sub_one_eq_mod alpha 7
  have hLt : alpha % 128 < 128 := Nat.mod_lt alpha (by decide)
  have hByte : alpha % 128 / 8 < 16 := by omega
  have hBits : ∀ k < 8, ∀ j < 8, (UInt8.ofNat (1 <<< k)).toBitVec.getLsbD j = decide (j = k) := by decide
  rw [pointBlock, getLsbD_toBlock _ hi, hMask, List.getD_eq_getElem?_getD, List.getElem?_set]
  by_cases hSame : alpha % 128 / 8 = i / 8
  · rw [if_pos hSame, if_pos (by simpa using hByte), Option.getD_some,
      hBits _ (Nat.mod_lt _ (by decide)) _ (Nat.mod_lt _ (by decide)), decide_eq_decide]
    omega
  · have hOther : i ≠ alpha % 128 := by omega
    have hZero : (List.replicate 16 (0 : UInt8))[i / 8]? = some 0 := by
      rw [List.getElem?_replicate, if_pos (by omega)]
    rw [if_neg hSame, hZero]
    simp [hOther]

end Dealing

section Correct

theorem view_node (alpha logn party x : Nat) :
    (keyView isa alpha logn party).node isa x =
      keyNode (walk ((dealt isa alpha logn).1.map (step (growSeed isa))) (startNode isa party)
        (pathBits (stopLevel logn) (x / 128))) := by
  rw [KeyView.node, length_keyView]
  simp only [keyView]
  rw [List.map_map]
  exact walk_map keyNode (growWith_levelWord isa) _ _ _

/-- Whatever the last word of both keys is, the leaves cancel everywhere but at the leaf of `alpha`. -/
theorem leaves_xor (alpha logn x : Nat) (last : Block) :
    leafWith isa last ((keyView isa alpha logn 0).node isa x) ^^^
        leafWith isa last ((keyView isa alpha logn 1).node isa x) =
      if pathBits (stopLevel logn) (x / 128) = pathBits (stopLevel logn) (alpha / 128) then
        convertBlock isa (dealt isa alpha logn).2.1.seed ^^^ convertBlock isa (dealt isa alpha logn).2.2.seed ^^^ last
      else 0#128 := by
  rw [view_node, view_node, leafWith_keyNode, leafWith_keyNode]
  exact values_xor (convertBlock isa) (by simp [length_pathBits]) (start_bits isa) last

/-- With a word `last` in the place of the last word of both keys, the outputs differ in the leaf of
`alpha` only, and there in the bits of the target and of the change. -/
theorem bit_xor_last {alpha logn x : Nat} (hAlpha : alpha < 2 ^ logn) (hx : x < 2 ^ logn) (last : Block) :
    (((keyView isa alpha logn 0).withLast last).bit isa x ^^ ((keyView isa alpha logn 1).withLast last).bit isa x) =
      (decide (x / 128 = alpha / 128) &&
        (pointBlock alpha ^^^ ((keyView isa alpha logn 0).last ^^^ last)).getLsbD (x % 128)) := by
  have hBits := congrArg (fun b : Block => b.getLsbD (x % 128)) (leaves_xor isa alpha logn x last)
  simp only [BitVec.getLsbD_xor] at hBits
  rw [KeyView.bit, KeyView.bit, bitOfBlock_eq, bitOfBlock_eq]
  refine Eq.trans hBits ?_
  by_cases hPath : pathBits (stopLevel logn) (x / 128) = pathBits (stopLevel logn) (alpha / 128)
  · have hLeaf := pathBits_injective (leaf_lt hx) (leaf_lt hAlpha) hPath
    have hLast : pointBlock alpha ^^^ ((keyView isa alpha logn 0).last ^^^ last) =
        convertBlock isa (dealt isa alpha logn).2.1.seed ^^^ convertBlock isa (dealt isa alpha logn).2.2.seed ^^^
          last := by
      simp only [keyView]
      rw [BitVec.xor_assoc (pointBlock alpha), BitVec.xor_assoc (pointBlock alpha), xor_xor_cancel_left]
    rw [if_pos hPath, hLast, decide_eq_true hLeaf, Bool.true_and]
  · have hLeaf : x / 128 ≠ alpha / 128 := fun h => hPath (h ▸ rfl)
    rw [if_neg hPath, decide_eq_false hLeaf, Bool.false_and, BitVec.getLsbD_zero]

theorem bit_xor {alpha logn x : Nat} (hAlpha : alpha < 2 ^ logn) (hx : x < 2 ^ logn) :
    ((keyView isa alpha logn 0).bit isa x ^^ (keyView isa alpha logn 1).bit isa x) = decide (x = alpha) := by
  refine (bit_xor_last isa hAlpha hx (keyView isa alpha logn 0).last).trans ?_
  rw [BitVec.xor_self, BitVec.xor_zero, getLsbD_pointBlock alpha (Nat.mod_lt _ (by decide)), ← Bool.decide_and,
    decide_eq_decide]
  omega

end Correct

section Privacy

/-- The bytes that both keys end in. -/
theorem drop_key (alpha logn party : Nat) {m : Nat} (h : 17 ≤ m) :
    (keyView isa alpha logn party).key.drop m = (keyView isa alpha logn 0).key.drop m := by
  obtain ⟨more, rfl⟩ := Nat.exists_eq_add_of_le h
  have hHead (p : Nat) :
      (blockBytes (keyView isa alpha logn p).root.1 ++ [(keyView isa alpha logn p).root.2]).length = 17 := by
    simp
  rw [KeyView.key, KeyView.key, ← List.drop_drop, ← List.drop_drop, List.drop_left' (hHead party),
    List.drop_left' (hHead 0)]
  rfl

theorem length_keys (alpha logn party : Nat) : (keyView isa alpha logn party).key.length = 33 + 18 * stopLevel logn := by
  rw [length_key, length_keyView]

theorem keyView_key_injective {logn alpha beta : Nat} (hLogn : logn ≤ 31) (hAlpha : alpha < 2 ^ logn)
    (hBeta : beta < 2 ^ logn) {party : Nat} (hKey : (keyView isa alpha logn party).key = (keyView isa beta logn party).key) :
    alpha = beta := by
  have hSplit (index : Nat) (p : Nat) : (keyView isa index logn p).key =
      blockBytes (keyNode (startNode isa p)).1 ++ [(keyNode (startNode isa p)).2] ++
        (keyView isa index logn 0).key.drop 17 := by
    rw [← drop_key isa index logn p (Nat.le_refl 17), KeyView.key, List.drop_left' (by simp)]
    rfl
  have hShared : (keyView isa alpha logn 0).key.drop 17 = (keyView isa beta logn 0).key.drop 17 := by
    rw [hSplit alpha party, hSplit beta party] at hKey
    exact List.append_cancel_left hKey
  have hEval (p : Nat) : (keyView isa alpha logn p).bit isa alpha = (keyView isa beta logn p).bit isa alpha := by
    have hLeft := eval_eq isa (holds_key (keyView isa alpha logn p)) hLogn hAlpha (length_keyView ..)
    have hRight := eval_eq isa (holds_key (keyView isa beta logn p)) hLogn hAlpha (length_keyView ..)
    rw [hSplit alpha p, hShared, ← hSplit beta p, hRight] at hLeft
    exact (Except.ok.inj hLeft).symm
  have hPoint := bit_xor isa hAlpha hAlpha
  rw [hEval 0, hEval 1, bit_xor isa hBeta hAlpha, decide_eq_true rfl, decide_eq_true_eq] at hPoint
  exact hPoint

/-- The two seeds are fixed, so each key alone tells which index it was made for. -/
theorem index_of_key {logn alpha beta : Nat} (hLogn : logn ≤ 31) (hAlpha : alpha < 2 ^ logn) (hBeta : beta < 2 ^ logn) :
    ∃ ka kb ka' kb', gen isa alpha logn = .ok (ka, kb) ∧ gen isa beta logn = .ok (ka', kb') ∧
      (ka = ka' ↔ alpha = beta) ∧ (kb = kb' ↔ alpha = beta) := by
  refine ⟨_, _, _, _, gen_eq isa hLogn hAlpha, gen_eq isa hLogn hBeta, ⟨keyView_key_injective isa hLogn hAlpha hBeta, ?_⟩,
    ⟨keyView_key_injective isa hLogn hAlpha hBeta, ?_⟩⟩
  · rintro rfl
    rfl
  · rintro rfl
    rfl

theorem index_of_key_three : ∃ ka kb ka' kb', gen aesNi 5 3 = .ok (ka, kb) ∧ gen aesNi 6 3 = .ok (ka', kb') ∧
    (ka = ka' ↔ 5 = 6) ∧ (kb = kb' ↔ 5 = 6) :=
  index_of_key aesNi (by decide) (by decide) (by decide)

end Privacy

/-- The evaluations of the two keys differ at the index they were made for, and nowhere else. -/
theorem eval_gen {alpha logn : Nat} (hLogn : logn ≤ 31) (hAlpha : alpha < 2 ^ logn) :
    ∃ ka kb, gen isa alpha logn = .ok (ka, kb) ∧ ka.length = 33 + 18 * stopLevel logn ∧
      kb.length = 33 + 18 * stopLevel logn ∧ ∀ x < 2 ^ logn, ∃ a b, eval isa ka x logn = .ok a ∧
        eval isa kb x logn = .ok b ∧ (a ^^ b) = decide (x = alpha) := by
  refine ⟨_, _, gen_eq isa hLogn hAlpha, ?_, ?_, fun x hx => ?_⟩
  · rw [length_key, length_keyView]
  · rw [length_key, length_keyView]
  · exact ⟨_, _, eval_eq isa (holds_key _) hLogn hx (length_keyView ..),
      eval_eq isa (holds_key _) hLogn hx (length_keyView ..), bit_xor isa hAlpha hx⟩

theorem eval_gen_nine : ∃ ka kb, gen aesNi 300 9 = .ok (ka, kb) ∧ ka.length = 33 + 18 * stopLevel 9 ∧
    kb.length = 33 + 18 * stopLevel 9 ∧ ∀ x < 2 ^ 9, ∃ a b, eval aesNi ka x 9 = .ok a ∧ eval aesNi kb x 9 = .ok b ∧
      (a ^^ b) = decide (x = 300) :=
  eval_gen aesNi (by decide) (by decide)

end DpfPir
