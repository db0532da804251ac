import Mathlib.Algebra.Order.Ring.Nat
import IncPir.Library.BitWords
import IncPir.Library.Digits
import IncPir.Library.XorFold

/-! # Blocks and AES (`baselines/dpf-pir/Defines.h`, `AES.cpp`)

The AES instructions are parameters. The functions over many blocks handle
eight blocks in one pass and the rest one by one.
-/

namespace DpfPir
set_option autoImplicit false

open BitWords XorFold

/-- The register type `__m128i`; the byte at the lowest address is the lowest one. -/
abbrev Block := BitVec 128

def blockBytes (b : Block) : List UInt8 := (Digits.digits 8 16 b).map UInt8.ofBitVec

/-- Sixteen bytes loaded from memory, as `toBlock` and `memcpy` do. -/
def toBlock (bytes : List UInt8) : Block := Digits.ofDigits 128 (bytes.map UInt8.toBitVec)

def MSBBlock : Block := BitVec.twoPow 128 127

def TestBlock : Block := toBlock (List.replicate 16 0xaa)

/-- `_mm_set1_epi64x` -/
def dupUint64 (val : UInt64) : Block := val.toBitVec ++ val.toBitVec

section Bytes

@[simp] theorem length_blockBytes (b : Block) : (blockBytes b).length = 16 := by simp [blockBytes]

@[simp] theorem toBlock_blockBytes (b : Block) : toBlock (blockBytes b) = b := by
  rw [toBlock, blockBytes, List.map_map]
  exact (congrArg _ (List.map_id _)).trans (Digits.ofDigits_digits (by decide) (by decide) b)

theorem blockBytes_toBlock {bytes : List UInt8} (hLen : bytes.length = 16) : blockBytes (toBlock bytes) = bytes := by
  rw [blockBytes, toBlock, Digits.digits_ofDigits (u := 8) (by decide) (by simpa using hLen), List.map_map]
  exact List.map_id _

theorem getLsbD_toBlock (bytes : List UInt8) {i : Nat} (hi : i < 128) :
    (toBlock bytes).getLsbD i = (bytes.getD (i / 8) 0).toBitVec.getLsbD (i % 8) := by
  rw [toBlock, Digits.getLsbD_ofDigits (by decide) _ hi]
  congr 1
  simp only [List.getD_eq_getElem?_getD, List.getElem?_map]
  cases bytes[i / 8]? <;> rfl

theorem blockBytes_getD (b : Block) {k : Nat} (hk : k < 16) :
    (blockBytes b).getD k 0 = UInt8.ofBitVec (b.extractLsb' (8 * k) 8) := by
  simp [blockBytes, Digits.digits_getElem? hk]

end Bytes

/-- The AES instructions of the processor. -/
structure AesInstructions where
  aesenc : Block → Block → Block
  aesenclast : Block → Block → Block
  aeskeygenassist : Block → UInt8 → Block

section Processor

/-- Multiplication by `x` modulo `x⁸ + x⁴ + x³ + x + 1`. -/
def xtime (b : UInt8) : UInt8 := b <<< 1 ^^^ if b < 0x80 then 0 else 0x1B

def fieldMul (a b : UInt8) : UInt8 :=
  ((List.range 8).foldl (fun (acc, power) i => (if b.toNat.testBit i then acc ^^^ power else acc, xtime power))
    (0, a)).1

/-- The inverse as the power `254`, by squaring. -/
def fieldInv (a : UInt8) : UInt8 :=
  ((List.range 7).foldl (fun (acc, power) _ => (fieldMul acc (fieldMul power power), fieldMul power power))
    (1, a)).1

def subByte (a : UInt8) : UInt8 :=
  let rotate (b : UInt8) (k : UInt8) := b <<< k ||| b >>> (8 - k)
  let b := fieldInv a
  b ^^^ rotate b 1 ^^^ rotate b 2 ^^^ rotate b 3 ^^^ rotate b 4 ^^^ 0x63

def shiftRows (bytes : List UInt8) : List UInt8 :=
  (List.range 16).map fun k => bytes.getD (4 * ((k / 4 + k % 4) % 4) + k % 4) 0

def mixColumns (bytes : List UInt8) : List UInt8 :=
  (List.range 16).map fun k =>
    let entry (i : Nat) := bytes.getD (4 * (k / 4) + (k % 4 + i) % 4) 0
    xtime (entry 0) ^^^ (xtime (entry 1) ^^^ entry 1) ^^^ entry 2 ^^^ entry 3

def subWord (word : BitVec 32) : BitVec 32 :=
  Digits.ofDigits 32 ((Digits.digits 8 4 word).map fun byte => (subByte (UInt8.ofBitVec byte)).toBitVec)

/-- The instructions as the processor carries them out. -/
def aesNi : AesInstructions where
  aesenc state key := toBlock (mixColumns (shiftRows ((blockBytes state).map subByte))) ^^^ key
  aesenclast state key := toBlock (shiftRows ((blockBytes state).map subByte)) ^^^ key
  aeskeygenassist b rcon :=
    let low := subWord (b.extractLsb' 32 32)
    let high := subWord (b.extractLsb' 96 32)
    (high.rotateRight 8 ^^^ rcon.toBitVec.setWidth 32) ++ high ++
      (low.rotateRight 8 ^^^ rcon.toBitVec.setWidth 32) ++ low

end Processor

structure AES where
  mRoundKeysEnc : Vector Block 11

variable (isa : AesInstructions)

/-- `_mm_shuffle_epi32` with the selector `(3, 3, 3, 3)`. -/
def spreadTopWord (b : Block) : Block :=
  let top := b.extractLsb' 96 32
  top ++ top ++ top ++ top

def keyGenHelper (key keyRcon : Block) : Block :=
  let keyRcon := spreadTopWord keyRcon
  -- `_mm_slli_si128` shifts by whole bytes
  let key := key ^^^ key <<< 32
  let key := key ^^^ key <<< 32
  let key := key ^^^ key <<< 32
  key ^^^ keyRcon

def roundConstants : Vector UInt8 10 := #v[0x01, 0x02, 0x04, 0x08, 0x10, 0x20, 0x40, 0x80, 0x1B, 0x36]

def setKey (key : Block) : AES where
  mRoundKeysEnc :=
    ⟨(roundConstants.toList.scanl (fun k rcon => keyGenHelper k (isa.aeskeygenassist k rcon)) key).toArray, by
      simp⟩

def AES.encryptECB (aes : AES) (plaintext : Block) : Block :=
  let ciphertext := plaintext ^^^ aes.mRoundKeysEnc[0]
  let ciphertext := ((aes.mRoundKeysEnc.toList.drop 1).take 9).foldl isa.aesenc ciphertext
  isa.aesenclast ciphertext aes.mRoundKeysEnc[10]

def AES.encryptECB_MMO (aes : AES) (plaintext : Block) : Block := aes.encryptECB isa plaintext ^^^ plaintext

section Blocks

/-- A loop over `blockLength` blocks: the pass at `idx` stores `wide idx j` at `idx + j`
for all eight `j`, and the blocks that are left over are stored one by one. -/
def blocksLoop (blockLength : Nat) (wide : Nat → Nat → Block) (narrow : Nat → Block) : List Block :=
  let length := blockLength - blockLength % 8
  ((List.range (length / 8)).flatMap fun pass => (List.range 8).map (wide (8 * pass))) ++
    (List.range' length (blockLength % 8)).map narrow

def AES.encryptECBBlocks (aes : AES) (plaintexts : List Block) : List Block :=
  blocksLoop plaintexts.length (fun idx j => aes.encryptECB isa (plaintexts.getD (idx + j) 0#128))
    fun idx => aes.encryptECB isa (plaintexts.getD idx 0#128)

def AES.encryptECB_MMO_Blocks (aes : AES) (plaintexts : List Block) : List Block :=
  -- the wide pass takes the block it adds from the first eight, whatever `idx` is
  blocksLoop plaintexts.length
    (fun idx j => aes.encryptECB isa (plaintexts.getD (idx + j) 0#128) ^^^ plaintexts.getD j 0#128)
    fun idx => plaintexts.getD idx 0#128 ^^^ aes.encryptECB isa (plaintexts.getD idx 0#128)

def AES.encryptCTR (aes : AES) (baseIdx : UInt64) (blockLength : Nat) : List Block :=
  blocksLoop blockLength
    (fun idx j => aes.encryptECB isa (dupUint64 (baseIdx + UInt64.ofNat idx + UInt64.ofNat j)))
    fun idx => aes.encryptECB isa (dupUint64 (baseIdx + UInt64.ofNat idx))

/-- The block at `i` comes from a wide pass exactly when it lies in the part of full passes. -/
theorem blocksLoop_eq (blockLength : Nat) (wide : Nat → Nat → Block) (narrow : Nat → Block) :
    blocksLoop blockLength wide narrow = (List.range blockLength).map fun i =>
      if i < blockLength - blockLength % 8 then wide (8 * (i / 8)) (i % 8) else narrow i := by
  obtain ⟨passes, rest, hRest, rfl⟩ : ∃ passes rest, rest < 8 ∧ blockLength = 8 * passes + rest :=
    ⟨blockLength / 8, blockLength % 8, Nat.mod_lt _ (by decide), (Nat.div_add_mod _ 8).symm⟩
  have hMod : (8 * passes + rest) % 8 = rest := by rw [Nat.mul_add_mod, Nat.mod_eq_of_lt hRest]
  have hFull : 8 * passes / 8 = passes := Nat.mul_div_cancel_left passes (by decide)
  simp only [blocksLoop, hMod, Nat.add_sub_cancel, hFull]
  rw [flatMap_range_map (by decide) passes fun pass => wide (8 * pass), List.range_add, List.map_append, List.map_map,
    List.range'_eq_map_range, List.map_map]
  congr 1
  · apply List.map_congr_left
    intro i hi
    rw [if_pos (List.mem_range.mp hi)]
  · apply List.map_congr_left
    intro j _
    rw [Function.comp_apply, Function.comp_apply, if_neg (by omega)]

theorem map_getD_range {α : Type} (l : List Block) (f : Block → α) :
    ((List.range l.length).map fun i => f (l.getD i 0#128)) = l.map f := by
  apply List.ext_getElem (by simp)
  intro i _ hi
  have hInside : i < l.length := by simpa using hi
  simp [hInside]

theorem wide_index (i : Nat) : 8 * (i / 8) + i % 8 = i := Nat.div_add_mod i 8

theorem encryptECBBlocks_eq (aes : AES) (plaintexts : List Block) :
    aes.encryptECBBlocks isa plaintexts = plaintexts.map (aes.encryptECB isa) := by
  rw [AES.encryptECBBlocks, blocksLoop_eq, ← map_getD_range]
  apply List.map_congr_left
  intro i _
  rw [wide_index, ite_self]

theorem ofNat_wide_index (baseIdx : UInt64) (i : Nat) :
    baseIdx + UInt64.ofNat (8 * (i / 8)) + UInt64.ofNat (i % 8) = baseIdx + UInt64.ofNat i := by
  rw [UInt64.add_assoc, ← UInt64.ofNat_add, wide_index]

theorem encryptCTR_eq (aes : AES) (baseIdx : UInt64) (blockLength : Nat) :
    aes.encryptCTR isa baseIdx blockLength =
      (List.range blockLength).map fun i => aes.encryptECB isa (dupUint64 (baseIdx + UInt64.ofNat i)) := by
  rw [AES.encryptCTR, blocksLoop_eq]
  apply List.map_congr_left
  intro i _
  rw [ofNat_wide_index, ite_self]

/-- Every block of a wide pass is combined with one of the first eight plaintexts. -/
theorem encryptECB_MMO_Blocks_eq (aes : AES) (plaintexts : List Block) :
    aes.encryptECB_MMO_Blocks isa plaintexts = (List.range plaintexts.length).map fun i =>
      aes.encryptECB isa (plaintexts.getD i 0#128) ^^^
        plaintexts.getD (if i < plaintexts.length - plaintexts.length % 8 then i % 8 else i) 0#128 := by
  rw [AES.encryptECB_MMO_Blocks, blocksLoop_eq]
  apply List.map_congr_left
  intro i _
  split
  · rw [wide_index]
  · rw [BitVec.xor_comm]

theorem encryptECB_MMO_Blocks_eq_map_iff (aes : AES) (plaintexts : List Block) :
    aes.encryptECB_MMO_Blocks isa plaintexts = plaintexts.map (aes.encryptECB_MMO isa) ↔
      ∀ i < plaintexts.length - plaintexts.length % 8, plaintexts[i]? = plaintexts[i % 8]? := by
  rw [encryptECB_MMO_Blocks_eq, ← map_getD_range, List.map_inj_left]
  constructor
  · intro h i hi
    have hInside : i < plaintexts.length := by omega
    have hFirst : i % 8 < plaintexts.length := by omega
    have hBlock := h i (List.mem_range.mpr hInside)
    rw [if_pos hi, AES.encryptECB_MMO, BitVec.xor_right_inj] at hBlock
    simpa [hInside, hFirst] using hBlock.symm
  · intro h i hi
    rw [AES.encryptECB_MMO, BitVec.xor_right_inj]
    split
    · next hWide => rw [List.getD_eq_getElem?_getD, ← h i hWide, List.getD_eq_getElem?_getD]
    · rfl

end Blocks

end DpfPir
