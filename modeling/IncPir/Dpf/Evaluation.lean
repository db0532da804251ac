import IncPir.Dpf.PointFunction
import IncPir.Library.LoopM
import IncPir.Library.SharedTree

/-! # What a key evaluates to

The functions of `dpf.cpp` read a key at fixed places. On the words that stand
there, the evaluation at one index is a walk down a tree and the evaluation at
all indices lists the leaves of that tree.
-/

namespace DpfPir
set_option autoImplicit false

open BitWords LabelTree LoopM SharedTree

/-- The words of a key. -/
structure KeyView where
  root : KeyNode
  levels : List LevelWord
  last : Block

def KeyView.withLast (view : KeyView) (last : Block) : KeyView := { view with last := last }

structure Holds (key : List UInt8) (view : KeyView) : Prop where
  seed : readBlock key 0 = .ok view.root.1
  control : readByte key 16 = .ok view.root.2
  levels : ∀ lvl w, view.levels[lvl]? = some w → readLevel key lvl = .ok w
  last : readLast key = .ok view.last

section Reads

theorem readBlock_ok {key : List UInt8} {offset : Nat} (h : offset + 16 ≤ key.length) :
    readBlock key offset = .ok (toBlock ((key.drop offset).take 16)) := if_pos h

theorem readByte_ok {key : List UInt8} {offset : Nat} (h : offset < key.length) :
    readByte key offset = .ok key[offset] := by
  simp [readByte, h]

theorem readLevel_ok {key : List UInt8} {lvl : Nat} (h : 17 + 18 * (lvl + 1) ≤ key.length) :
    ∃ w, readLevel key lvl = .ok w := by
  refine ⟨⟨toBlock ((key.drop (17 + lvl * 18)).take 16), key[17 + lvl * 18 + 16], key[17 + lvl * 18 + 17]⟩, ?_⟩
  rw [readLevel, readBlock_ok (by omega), ok_bind, readByte_ok (by omega), ok_bind, readByte_ok (by omega), ok_bind]
  rfl

/-- A key that is long enough for its levels can be read everywhere. -/
theorem exists_view {key : List UInt8} {stop : Nat} (h : 17 + 18 * stop ≤ key.length) :
    ∃ view, Holds key view ∧ view.levels.length = stop := by
  have hLevel (lvl : Fin stop) : ∃ w, readLevel key lvl = .ok w := readLevel_ok (by omega)
  obtain ⟨words, hWords⟩ := Classical.axiomOfChoice hLevel
  refine ⟨⟨(toBlock ((key.drop 0).take 16), key[16]), List.ofFn words, toBlock ((key.drop (key.length - 16)).take 16)⟩,
    ⟨readBlock_ok (by omega), readByte_ok (by omega), ?_, ?_⟩, by simp⟩
  · intro lvl w hw
    obtain ⟨hLt, rfl⟩ := List.getElem?_eq_some_iff.mp hw
    simpa using hWords ⟨lvl, by simpa using hLt⟩
  · rw [readLast, if_pos (by omega), readBlock_ok (by omega)]

end Reads

variable (isa : AesInstructions)

def growWith (w : LevelWord) (node : KeyNode) : KeyNode × KeyNode :=
  let (l, r) := children isa node.1
  if node.2 ≠ 0 then ((l.1 ^^^ w.sCW, l.2 ^^^ w.tLCW), (r.1 ^^^ w.sCW, r.2 ^^^ w.tRCW)) else (l, r)

def leafWith (last : Block) (node : KeyNode) : Block :=
  if node.2 ≠ 0 then last ^^^ convertBlock isa node.1 else convertBlock isa node.1

/-- The node that index `x` leads to. -/
def KeyView.node (view : KeyView) (x : Nat) : KeyNode :=
  walk (view.levels.map (growWith isa)) view.root (pathBits view.levels.length (x / 128))

def KeyView.bit (view : KeyView) (x : Nat) : Bool := bitOfBlock (leafWith isa view.last (view.node isa x)) x

section Steps
variable {key : List UInt8} {view : KeyView}

theorem grow_eq {lvl : Nat} {w : LevelWord} (h : readLevel key lvl = .ok w) (node : KeyNode) :
    grow isa key lvl node = .ok (growWith isa w node) := by
  simp only [grow, growWith, h, ok_bind]
  split
  · rfl
  · rfl

theorem leafBlock_eq (h : readLast key = .ok view.last) (node : KeyNode) :
    leafBlock isa key node = .ok (leafWith isa view.last node) := by
  simp only [leafBlock, leafWith, h, ok_bind]
  split
  · rfl
  · rfl

/-- The loop of `Eval` walks down the levels that are left. -/
theorem evalLoop_eq (hHolds : Holds key view) (x logn : Nat) {lvl left : Nat}
    (hLen : view.levels.length = lvl + left) (node : KeyNode) :
    (List.range' lvl left).foldlM (evalLevel isa key x logn) node =
      .ok (walk ((view.levels.drop lvl).map (growWith isa)) node
        ((List.range' lvl left).map fun i => x.testBit (logn - 1 - i))) := by
  induction left generalizing lvl node with
  | zero => simp
  | succ left ih =>
    have hLvl : lvl < view.levels.length := by omega
    have hGrow := grow_eq isa (hHolds.levels lvl _ (List.getElem?_eq_getElem hLvl)) node
    have hPass : evalLevel isa key x logn node lvl =
        .ok (child (growWith isa view.levels[lvl]) node (x.testBit (logn - 1 - lvl))) := by
      simp only [evalLevel, hGrow, ok_bind]
      rfl
    rw [List.range'_succ, List.foldlM_cons, hPass, ok_bind, ih (by omega), List.drop_eq_getElem_cons hLvl]
    rfl

theorem bitOfBlock_eq (b : Block) (x : Nat) : bitOfBlock b x = b.getLsbD (x % 128) := by
  have hMask : x &&& 127 = x % 128 := Nat.and_two_pow_sub_one_eq_mod x 7
  have hLt : x % 128 < 128 := Nat.mod_lt x (by decide)
  have hBit : 8 * (x % 128 / 8) + x % 128 % 8 = x % 128 := Nat.div_add_mod _ 8
  rw [bitOfBlock, hMask, blockBytes_getD b (by omega)]
  simp only [UInt8.toNat_ofBitVec, BitVec.testBit_toNat, BitVec.getLsbD_extractLsb', hBit,
    Nat.mod_lt _ (by decide : 0 < 8), decide_true, Bool.true_and]

/-- The bits that `Eval` looks at are those of the path to the leaf of `x`. -/
theorem evalBits_eq (x logn : Nat) :
    ((List.range' 0 (stopLevel logn)).map fun i => x.testBit (logn - 1 - i)) =
      pathBits (stopLevel logn) (x / 128) := by
  rw [pathBits, ← List.range_eq_range']
  apply List.map_congr_left
  intro i hi
  have hStop := List.mem_range.mp hi
  have hIndex : stopLevel logn - 1 - i + 7 = logn - 1 - i := by
    unfold stopLevel at hStop ⊢
    split at hStop <;> simp_all
    omega
  rw [show (128 : Nat) = 2 ^ 7 from rfl, Nat.testBit_div_two_pow, hIndex]

theorem leaf_lt {x logn : Nat} (hx : x < 2 ^ logn) : x / 128 < 2 ^ stopLevel logn := by
  unfold stopLevel
  split
  · next hSeven =>
    have hPow : 2 ^ logn = 128 * 2 ^ (logn - 7) := by
      rw [show (128 : Nat) = 2 ^ 7 from rfl, ← Nat.pow_add, Nat.add_sub_cancel' hSeven]
    exact Nat.div_lt_of_lt_mul (hPow ▸ hx)
  · next hSmall =>
    have hPow : 2 ^ logn ≤ 2 ^ 6 := Nat.pow_le_pow_right (by decide) (by omega)
    omega

theorem checkIndex_ok {x logn : Nat} (hLogn : logn ≤ 31) (hx : x < 2 ^ logn) : checkIndex x logn = .ok () := by
  have hAllowed : ¬ 63 < logn := by omega
  rcases Nat.lt_or_eq_of_le hLogn with hSmall | rfl
  · simp [checkIndex, shiftedOne, hAllowed, hSmall, Nat.not_le.mpr hx]
  · have hBound : x < 18446744071562067968 := by omega
    simp [checkIndex, shiftedOne, hBound]

theorem eval_eq (hHolds : Holds key view) {x logn : Nat} (hLogn : logn ≤ 31) (hx : x < 2 ^ logn)
    (hLen : view.levels.length = stopLevel logn) : eval isa key x logn = .ok (view.bit isa x) := by
  have hFromRoot : view.levels.length = 0 + stopLevel logn := by omega
  have hLoop := evalLoop_eq isa hHolds x logn hFromRoot view.root
  rw [evalBits_eq, List.drop_zero] at hLoop
  rw [eval, checkIndex_ok hLogn hx, ok_bind, hHolds.seed, ok_bind, hHolds.control, ok_bind, List.range_eq_range',
    hLoop, ok_bind, leafBlock_eq isa hHolds.last, ok_bind, KeyView.bit, KeyView.node, hLen]
  rfl

end Steps

section FullDomain
variable {key : List UInt8} {view : KeyView}

def KeyView.bytes (view : KeyView) : List UInt8 :=
  (leaves (view.levels.map (growWith isa)) view.root).flatMap fun node => blockBytes (leafWith isa view.last node)

theorem evalFullRecursive_eq (hHolds : Holds key view) {lvl left : Nat} (hLen : view.levels.length = lvl + left)
    (node : KeyNode) (res : List UInt8) :
    evalFullRecursive isa key left lvl node res =
      .ok (res ++ (leaves ((view.levels.drop lvl).map (growWith isa)) node).flatMap fun node =>
        blockBytes (leafWith isa view.last node)) := by
  induction left generalizing lvl node res with
  | zero =>
    rw [evalFullRecursive, leafBlock_eq isa hHolds.last, ok_bind, List.drop_eq_nil_of_le (by omega)]
    simp
  | succ left ih =>
    have hLvl : lvl < view.levels.length := by omega
    have hGrow := grow_eq isa (hHolds.levels lvl _ (List.getElem?_eq_getElem hLvl)) node
    have hBelow := ih (show view.levels.length = lvl + 1 + left by omega)
    simp only [evalFullRecursive, hGrow, ok_bind, hBelow]
    rw [List.drop_eq_getElem_cons hLvl, List.map_cons, leaves, List.flatMap_append, List.append_assoc]

theorem evalFull_eq (hHolds : Holds key view) {logn : Nat} (hLogn : logn ≤ 63)
    (hLen : view.levels.length = stopLevel logn) : evalFull isa key logn = .ok (view.bytes isa) := by
  have hFromRoot : view.levels.length = 0 + stopLevel logn := by omega
  have hLoop := evalFullRecursive_eq isa hHolds hFromRoot view.root []
  simp only [evalFull, Nat.not_lt.mpr hLogn, hHolds.seed, hHolds.control, ok_bind, hLoop]
  simp [KeyView.bytes]

theorem length_bytes (view : KeyView) : (view.bytes isa).length = 16 * 2 ^ view.levels.length := by
  rw [KeyView.bytes, length_flatMap_const fun node _ => length_blockBytes _, length_leaves, List.length_map, Nat.mul_comm]

/-- Bit `x` of a byte vector, least significant bit first. -/
def dataBit (data : List UInt8) (x : Nat) : Bool := (data.getD (x / 8) 0).toNat.testBit (x % 8)

theorem dataBit_bytes (view : KeyView) {x : Nat} (hx : x / 128 < 2 ^ view.levels.length) :
    dataBit (view.bytes isa) x = view.bit isa x := by
  have hLeaf : (leaves (view.levels.map (growWith isa)) view.root)[x / 128]? = some (view.node isa x) := by
    rw [leaves_eq, KeyView.node, List.length_map]
    simp [hx]
  have hMask : x &&& 127 = x % 128 := Nat.and_two_pow_sub_one_eq_mod x 7
  have hByte : x / 8 = x / 128 * 16 + x % 128 / 8 := by omega
  have hBit : x % 128 % 8 = x % 8 := by omega
  rw [dataBit, KeyView.bit, bitOfBlock, hMask, hBit, hByte, List.getD_eq_getElem?_getD, List.getD_eq_getElem?_getD,
    KeyView.bytes, getElem?_flatMap_const (fun node _ => length_blockBytes _) hLeaf (by omega)]

/-- The full evaluation lists the evaluations at all indices, for every key that reaches down to the
last level. -/
theorem evalFull_bit {logn : Nat} (hLogn : logn ≤ 31)
    (hKey : 17 + 18 * stopLevel logn ≤ key.length) :
    ∃ data, evalFull isa key logn = .ok data ∧ data.length = 16 * 2 ^ stopLevel logn ∧
      ∀ x < 2 ^ logn, eval isa key x logn = .ok (dataBit data x) := by
  obtain ⟨view, hHolds, hLen⟩ := exists_view hKey
  refine ⟨view.bytes isa, evalFull_eq isa hHolds (by omega) hLen, by rw [length_bytes, hLen], fun x hx => ?_⟩
  rw [eval_eq isa hHolds hLogn hx hLen, dataBit_bytes isa view]
  rw [hLen]
  exact leaf_lt hx

theorem evalFull_bit_eight : ∃ data, evalFull aesNi (List.replicate 35 1) 8 = .ok data ∧
    data.length = 16 * 2 ^ stopLevel 8 ∧ ∀ x < 2 ^ 8, eval aesNi (List.replicate 35 1) x 8 = .ok (dataBit data x) :=
  evalFull_bit aesNi (by decide) (by decide)

end FullDomain

end DpfPir
