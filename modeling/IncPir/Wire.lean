import IncPir.Pir
import IncPir.Library.BitWords
import IncPir.Library.WireFields

/-! # Blocks and keys in messages

Both versions of `serial.hpp` cut a block into words of 64 bits and a key into
bytes, and read them back with the same loops. The generated protobuf classes
are parameters. A repeated field is a list; the classes allow it fewer than 2^31
entries, so that its size and the counters of the loops are exact.
-/

namespace IncPir
open LoopM BitWords
set_option autoImplicit false

/-- The generated `SerializeToString` and `ParseFromString` of a message. -/
structure MessageClass (Wire Msg : Type) where
  serializeToString : Msg → Wire
  parseFromString : Wire → Option Msg

/-- Parsing undoes serializing. -/
def MessageClass.Undoes {Wire Msg : Type} (cls : MessageClass Wire Msg) : Prop :=
  ∀ m, cls.parseFromString (cls.serializeToString m) = some m

/-- How a function of `serial.hpp` ends when it does not return: an assertion that fails after a
text was printed, or a fault of the code that reads the message. -/
inductive SerialFault where
  | assertionFailed (output : String)
  | raised (fault : Fault)
deriving DecidableEq

def readParsed {Wire Msg α : Type} (cls : MessageClass Wire Msg) (output : String) (read : Msg → Except Fault α)
    (msg : Wire) : Except SerialFault α :=
  match cls.parseFromString msg with
  | none => .error (.assertionFailed output)
  | some r => (read r).mapError .raised

theorem readParsed_serialize {Wire Msg α : Type} {cls : MessageClass Wire Msg} (h : cls.Undoes) (output : String)
    {read : Msg → Except Fault α} {m : Msg} {a : α} (hRead : read m = .ok a) :
    readParsed cls output read (cls.serializeToString m) = .ok a := by
  rw [readParsed, h m]
  dsimp only
  rw [hRead]
  rfl

section Blocks

def packWord (blk : Block) (j : Nat) : UInt64 :=
  .ofBitVec ((List.range' (j * 64) 64).foldl (packStep blk.getLsbD) (0#64, 1#64)).1

def blockWords (blk : Block) : List UInt64 := (List.range (BlockLen / 64)).map (packWord blk)

def unpackWord (bitsets : Block) (j : Nat) (val : UInt64) : Block :=
  ((List.range' (j * 64) 64).foldl (unpackStep val.toBitVec) (bitsets, 1#64)).1

/-- The loop over the words of one block, from position `first` of the field on. -/
def readBlock (words : List UInt64) (first : Nat) : Except Fault Block :=
  (List.range (BlockLen / 64)).foldlM (fun bitsets j => do
    let val ← elemAt words (first + j)
    .ok (unpackWord bitsets j val)) 0

theorem length_blockWords (blk : Block) : (blockWords blk).length = BlockLen / 64 := by
  rw [blockWords, List.length_map, List.length_range]

theorem getElem?_blockWords (blk : Block) {j : Nat} (hj : j < BlockLen / 64) :
    (blockWords blk)[j]? = some (packWord blk j) := by
  rw [blockWords, List.getElem?_map, List.getElem?_range hj]
  rfl

theorem getLsbD_packWord (blk : Block) (j : Nat) {i : Nat} (hi : i < 64) :
    (packWord blk j).toBitVec.getLsbD i = blk.getLsbD (j * 64 + i) := by
  obtain ⟨word, hLoop, hBits⟩ := @foldl_packStep 64 blk.getLsbD (j * 64) 64
  rw [packWord, hLoop]
  exact (hBits i hi).trans (by rw [decide_eq_true hi, Bool.true_and])

theorem getLsbD_unpackWord (bitsets : Block) (j : Nat) (val : UInt64) {i : Nat} (hi : i < BlockLen) :
    (unpackWord bitsets j val).getLsbD i =
      if j * 64 ≤ i ∧ i < j * 64 + 64 then val.toBitVec.getLsbD (i - j * 64) else bitsets.getLsbD i := by
  obtain ⟨out, hLoop, hBits⟩ := foldl_unpackStep val.toBitVec bitsets (j * 64) (Nat.le_refl 64)
  rw [unpackWord, hLoop]
  exact hBits i hi

theorem foldl_unpackWord (blk : Block) (n : Nat) {i : Nat} (hi : i < BlockLen) :
    ((List.range n).foldl (fun bitsets j => unpackWord bitsets j (packWord blk j)) (0 : Block)).getLsbD i =
      (decide (i < n * 64) && blk.getLsbD i) := by
  induction n with
  | zero => simp
  | succ n ih =>
    rw [List.range_succ, List.foldl_append, List.foldl_cons, List.foldl_nil, getLsbD_unpackWord _ _ _ hi]
    by_cases hWord : n * 64 ≤ i ∧ i < n * 64 + 64
    · have hIndex : n * 64 + (i - n * 64) = i := by omega
      rw [if_pos hWord, getLsbD_packWord _ _ (by omega), hIndex, decide_eq_true (by omega), Bool.true_and]
    · have hSame : decide (i < (n + 1) * 64) = decide (i < n * 64) := decide_eq_decide.mpr (by omega)
      rw [if_neg hWord, ih, hSame]

theorem readBlock_eq {words : List UInt64} {first : Nat} {blk : Block}
    (h : ∀ j < BlockLen / 64, words[first + j]? = some (packWord blk j)) : readBlock words first = .ok blk := by
  have hLoop : readBlock words first = .ok ((List.range (BlockLen / 64)).foldl
      (fun bitsets j => unpackWord bitsets j (packWord blk j)) 0) := by
    apply foldlM_eq_ok_of_forall
    intro bitsets j hj
    rw [elemAt_of_getElem? (h j (List.mem_range.mp hj)), ok_bind]
  rw [hLoop]
  apply congrArg Except.ok
  apply BitVec.eq_of_getLsbD_eq
  intro i hi
  rw [foldl_unpackWord blk _ hi, decide_eq_true (by omega), Bool.true_and]

theorem readBlock_blockWords (blk : Block) : readBlock (blockWords blk) 0 = .ok blk :=
  readBlock_eq fun j hj => by rw [Nat.zero_add, getElem?_blockWords blk hj]

/-- The words of many blocks, cut again. -/
def readBlocks (words : List UInt64) : Except Fault (List Block) :=
  (List.range (words.length / (BlockLen / 64))).mapM fun i => readBlock words (i * (BlockLen / 64))

theorem readBlocks_flatMap (blocks : List Block) : readBlocks (blocks.flatMap blockWords) = .ok blocks := by
  have hLength : ∀ blk ∈ blocks, (blockWords blk).length = BlockLen / 64 := fun blk _ => length_blockWords blk
  have hLoop : (List.range blocks.length).mapM
      (fun i => readBlock (blocks.flatMap blockWords) (i * (BlockLen / 64))) = .ok (blocks.map id) := by
    apply mapM_range_eq_map
    intro i hi
    apply readBlock_eq
    intro j hj
    rw [getElem?_flatMap_const hLength (List.getElem?_eq_getElem hi) hj]
    exact getElem?_blockWords _ hj
  rw [readBlocks, length_flatMap_div hLength (by decide), hLoop, List.map_id]

end Blocks

section Keys

def keyValues (key : Key) : List UInt32 := key.toList.map UInt8.toUInt32

/-- The loop over the bytes of one key; every value is truncated to a byte. -/
def readKey (values : List UInt32) (first : Nat) : Except Fault Key := do
  let bytes ← (List.range KeyLen).mapM fun j => do
    let value ← elemAt values (first + j)
    .ok value.toUInt8
  .ok (Vector.ofFn fun j => bytes.getD j 0)

theorem length_keyValues (key : Key) : (keyValues key).length = KeyLen := by simp [keyValues]

theorem getElem?_keyValues (key : Key) {j : Nat} (hj : j < KeyLen) :
    (keyValues key)[j]? = some key[j].toUInt32 := by
  simp [keyValues, hj]

theorem readKey_eq {values : List UInt32} {first : Nat} {key : Key}
    (h : ∀ j (_ : j < KeyLen), values[first + j]? = some key[j].toUInt32) : readKey values first = .ok key := by
  have hLoop : (List.range key.toList.length).mapM (fun j => do
      let value ← elemAt values (first + j)
      .ok value.toUInt8) = (.ok (key.toList.map id) : Except Fault _) := by
    apply mapM_range_eq_map
    intro j hj
    have hj' : j < KeyLen := by simpa using hj
    rw [elemAt_of_getElem? (h j hj'), ok_bind]
    simp
  have hLength : key.toList.length = KeyLen := by simp
  rw [hLength, List.map_id] at hLoop
  rw [readKey, hLoop, ok_bind]
  apply congrArg Except.ok
  ext j hj
  simp

theorem readKey_keyValues (key : Key) : readKey (keyValues key) 0 = .ok key :=
  readKey_eq fun j hj => by rw [Nat.zero_add, getElem?_keyValues key hj]

end Keys

section Format
open WireFields

/-- The values of one repeated field in the wire format, not packed. -/
def words32 (field : Nat) (values : List UInt32) : List (Nat × Value) := numberField field UInt32.toNat values

def words64 (field : Nat) (values : List UInt64) : List (Nat × Value) := numberField field UInt64.toNat values

def readWords32 (field : Nat) (records : List (Nat × Value)) : List UInt32 := (numbers field records).map UInt32.ofNat

def readWords64 (field : Nat) (records : List (Nat × Value)) : List UInt64 := (numbers field records).map UInt64.ofNat

/-- Without its required field a message does not parse. -/
def readRequired (field : Nat) (records : List (Nat × Value)) : Option UInt32 := (readWords32 field records).getLast?

end Format

section Sizes
open WireFields

theorem length_words32 {field : Nat} (hField : field < 16) (values : List UInt32) :
    (writeRecords (words32 field values)).length ≤ values.length * 6 :=
  length_numberField_le hField fun v _ => by
    have hLt := v.toNat_lt
    omega

theorem length_words64 {field : Nat} (hField : field < 16) (values : List UInt64) :
    (writeRecords (words64 field values)).length ≤ values.length * 11 :=
  length_numberField_le hField fun v _ => by
    have hLt := v.toNat_lt
    omega

theorem length_blocks (blocks : List Block) : (blocks.flatMap blockWords).length = blocks.length * 250 := by
  have hWords : BlockLen / 64 = 250 := rfl
  rw [List.length_flatMap]
  simp [length_blockWords, hWords]

/-- An enumeration and the header of the message that follows it take 8 bytes at most. -/
theorem length_typedMessage {Label : Type} {value : Label → Nat} {type : Label} (hType : value type < 128)
    {msg : List UInt8} (h : msg.length < 2 ^ 31) :
    (writeRecords (numberField 1 value [type] ++ messageField 2 id [msg])).length ≤ msg.length + 8 := by
  have hLabel : (writeRecords (numberField 1 value [type])).length ≤ 1 * 2 :=
    length_numberField_le (k := 0) (by decide) fun v hv => by rwa [List.mem_singleton.mp hv]
  have hMsg : (writeRecords (messageField 2 id [msg])).length ≤ 1 * (msg.length + 4 + 2) :=
    length_messageField_le (by decide) (fun v hv => by rw [List.mem_singleton.mp hv]; exact Nat.le_refl _)
      (by omega)
  rw [length_writeRecords_append]
  omega

end Sizes

end IncPir
