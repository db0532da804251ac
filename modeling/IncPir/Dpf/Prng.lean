import IncPir.Dpf.Aes

/-! # The pseudorandom generator (`baselines/dpf-pir/PRNG.h`, `PRNG.cpp`)

A buffer of counter-mode blocks is handed out byte by byte and refilled when it
is used up. Requests of any sizes read one keystream from front to back.
-/

namespace DpfPir
set_option autoImplicit false

open BitWords

/-- Why a call does not return a value. -/
inductive Fault
  | assertionFailed
  | runtimeError
  | outOfBounds
  | undefinedShift
  | noReturn
deriving DecidableEq, Repr

structure PRNG where
  mBuffer : List Block
  mAes : AES
  mBytesIdx : Nat
  mBlockIdx : UInt64
  mBufferByteCapacity : Nat

variable (isa : AesInstructions)

def PRNG.refillBuffer (p : PRNG) : Except Fault PRNG :=
  if p.mBuffer.length = 0 then .error .runtimeError
  else .ok { p with
    mBuffer := p.mAes.encryptCTR isa p.mBlockIdx p.mBuffer.length
    mBlockIdx := p.mBlockIdx + UInt64.ofNat p.mBuffer.length
    mBytesIdx := 0 }

/-- A buffer that is already there keeps its size. -/
def PRNG.setSeed (p : PRNG) (seed : Block) (bufferSize : Nat) : Except Fault PRNG :=
  let p := { p with mAes := setKey isa seed, mBlockIdx := 0 }
  let p := if p.mBuffer.length = 0 then
      { p with mBuffer := List.replicate bufferSize 0#128, mBufferByteCapacity := 16 * bufferSize }
    else p
  p.refillBuffer isa

/-- The constructor that takes a seed. -/
def newPRNG (seed : Block) (bufferSize : Nat) : Except Fault PRNG :=
  PRNG.setSeed isa ⟨[], setKey isa 0#128, 0, 0, 0⟩ seed bufferSize

def getTestPRNG : Except Fault PRNG := newPRNG isa TestBlock 256

def PRNG.bytes (p : PRNG) : List UInt8 := p.mBuffer.flatMap blockBytes

/-- The end of a pass of `get`: the buffer is refilled as soon as it is used up. -/
def PRNG.advance (p : PRNG) (step : Nat) : Except Fault PRNG :=
  let p := { p with mBytesIdx := p.mBytesIdx + step }
  if p.mBytesIdx = p.mBufferByteCapacity then p.refillBuffer isa else .ok p

/-- The loop of `get` over the bytes that are still to be filled. -/
def PRNG.getLoop : Nat → PRNG → Nat → List UInt8 → Except Fault (List UInt8 × PRNG)
  | _, p, 0, dest => .ok (dest, p)
  | 0, _, _ + 1, _ => .error .noReturn
  | passes + 1, p, length + 1, dest => do
    let step := min (length + 1) (p.mBufferByteCapacity - p.mBytesIdx)
    let dest := dest ++ (p.bytes.drop p.mBytesIdx).take step
    let p ← p.advance isa step
    PRNG.getLoop passes p (length + 1 - step) dest

/-- Every pass fills a byte or throws, so that `length` passes are enough. -/
def PRNG.get (p : PRNG) (length : Nat) : Except Fault (List UInt8 × PRNG) := p.getLoop isa length length []

def PRNG.getAll (p : PRNG) : List Nat → Except Fault (List (List UInt8) × PRNG)
  | [] => .ok ([], p)
  | length :: rest => do
    let (dest, p) ← p.get isa length
    let (dests, p) ← PRNG.getAll p rest
    .ok (dest :: dests, p)

section Keystream
variable (aes : AES)

/-- Counter-mode encryption of the block numbers `0, 1, …`, as bytes. -/
def keystreamByte (k : Nat) : UInt8 :=
  (blockBytes (aes.encryptECB isa (dupUint64 (UInt64.ofNat (k / 16))))).getD (k % 16) 0

def keystream (start length : Nat) : List UInt8 := (List.range' start length).map (keystreamByte isa aes)

@[simp] theorem length_keystream (start length : Nat) : (keystream isa aes start length).length = length := by
  simp [keystream]

theorem keystream_append (start m n : Nat) :
    keystream isa aes start m ++ keystream isa aes (start + m) n = keystream isa aes start (m + n) := by
  rw [keystream, keystream, keystream, ← List.map_append]
  congr 1
  simp

theorem keystream_slice (start : Nat) {skip step length : Nat} (h : skip + step ≤ length) :
    ((keystream isa aes start length).drop skip).take step = keystream isa aes (start + skip) step := by
  obtain ⟨rest, rfl⟩ := Nat.exists_eq_add_of_le h
  rw [← keystream_append, ← keystream_append, List.append_assoc, List.drop_left' (length_keystream ..),
    List.take_left' (length_keystream ..)]

theorem blockBytes_eq (b : Block) : blockBytes b = (List.range 16).map fun j => (blockBytes b).getD j 0 := by
  apply List.ext_getElem (by simp)
  intro j hj _
  rw [List.getElem_map, List.getElem_range, List.getD_eq_getElem?_getD, List.getElem?_eq_getElem hj,
    Option.getD_some]

/-- A refilled buffer holds the keystream from its first block on. -/
theorem encryptCTR_bytes (base blocks : Nat) :
    (aes.encryptCTR isa (UInt64.ofNat base) blocks).flatMap blockBytes =
      keystream isa aes (16 * base) (16 * blocks) := by
  have hBlock (i : Nat) : blockBytes (aes.encryptECB isa (dupUint64 (UInt64.ofNat base + UInt64.ofNat i))) =
      (List.range 16).map fun j =>
        (blockBytes (aes.encryptECB isa (dupUint64 (UInt64.ofNat (base + i))))).getD j 0 := by
    rw [← UInt64.ofNat_add]
    exact blockBytes_eq _
  rw [encryptCTR_eq, List.flatMap_map]
  simp only [hBlock]
  rw [flatMap_range_map (by decide) blocks fun i j =>
      (blockBytes (aes.encryptECB isa (dupUint64 (UInt64.ofNat (base + i))))).getD j 0,
    keystream, List.range'_eq_map_range, List.map_map]
  apply List.map_congr_left
  intro k _
  have hDiv : (16 * base + k) / 16 = base + k / 16 := Nat.mul_add_div (by decide) base k
  have hMod : (16 * base + k) % 16 = k % 16 := Nat.mul_add_mod 16 base k
  rw [Function.comp_apply, keystreamByte, hDiv, hMod]

end Keystream

section Requests
variable {aes : AES}

/-- The buffer holds the keystream that follows the bytes handed out so far. -/
structure Keyed (aes : AES) (p : PRNG) (handedOut : Nat) : Prop where
  cipher : p.mAes = aes
  capacity : p.mBufferByteCapacity = 16 * p.mBuffer.length
  inside : p.mBytesIdx < p.mBufferByteCapacity
  buffered : ∃ base, p.mBuffer = aes.encryptCTR isa (UInt64.ofNat base) p.mBuffer.length ∧
    p.mBlockIdx = UInt64.ofNat (base + p.mBuffer.length) ∧ handedOut = 16 * base + p.mBytesIdx

theorem length_encryptCTR (baseIdx : UInt64) (blockLength : Nat) :
    (aes.encryptCTR isa baseIdx blockLength).length = blockLength := by
  simp [encryptCTR_eq]

theorem refillBuffer_keyed {p : PRNG} (hCipher : p.mAes = aes)
    (hCapacity : p.mBufferByteCapacity = 16 * p.mBuffer.length) (hFull : 0 < p.mBuffer.length) (base : Nat)
    (hBlock : p.mBlockIdx = UInt64.ofNat base) :
    ∃ p', p.refillBuffer isa = .ok p' ∧ Keyed isa aes p' (16 * base) := by
  refine ⟨_, if_neg (by omega), hCipher, ?_, ?_, base, ?_, ?_, rfl⟩
  · simp [hCapacity, length_encryptCTR]
  · simp [hCapacity, hFull]
  · simp [hCipher, hBlock, length_encryptCTR]
  · simp [hBlock, length_encryptCTR, UInt64.ofNat_add]

theorem newPRNG_keyed (seed : Block) {bufferSize : Nat} (hSize : 0 < bufferSize) :
    ∃ p, newPRNG isa seed bufferSize = .ok p ∧ Keyed isa (setKey isa seed) p 0 := by
  refine refillBuffer_keyed isa ?_ ?_ ?_ 0 ?_
  · simp
  · simp
  · simpa using hSize
  · simp

/-- One pass hands out the next bytes of the keystream. -/
theorem pass_keyed {p : PRNG} {handedOut step : Nat} (hKeyed : Keyed isa aes p handedOut)
    (hStep : p.mBytesIdx + step ≤ p.mBufferByteCapacity) :
    (p.bytes.drop p.mBytesIdx).take step = keystream isa aes handedOut step ∧
      ∃ p', p.advance isa step = .ok p' ∧ Keyed isa aes p' (handedOut + step) := by
  obtain ⟨hCipher, hCapacity, hInside, base, hBuffer, hBlock, rfl⟩ := hKeyed
  have hBytes : p.bytes = keystream isa aes (16 * base) p.mBufferByteCapacity := by
    rw [PRNG.bytes, hBuffer, encryptCTR_bytes, hCapacity]
  refine ⟨by rw [hBytes, keystream_slice isa aes _ hStep], ?_⟩
  by_cases hEnd : p.mBytesIdx + step = p.mBufferByteCapacity
  · simp only [PRNG.advance, hEnd, if_true]
    have hNext : 16 * base + p.mBytesIdx + step = 16 * (base + p.mBuffer.length) := by omega
    rw [hNext]
    exact refillBuffer_keyed isa hCipher hCapacity (by omega) _ hBlock
  · simp only [PRNG.advance, hEnd, if_false]
    exact ⟨_, rfl, hCipher, hCapacity, by simp only; omega, base, hBuffer, hBlock, Nat.add_assoc _ _ _⟩

theorem getLoop_keyed {passes length handedOut : Nat} {p : PRNG} (hPasses : length ≤ passes)
    (hKeyed : Keyed isa aes p handedOut) (dest : List UInt8) :
    ∃ p', p.getLoop isa passes length dest = .ok (dest ++ keystream isa aes handedOut length, p') ∧
      Keyed isa aes p' (handedOut + length) := by
  induction passes generalizing p length handedOut dest with
  | zero =>
    obtain rfl : length = 0 := by omega
    exact ⟨p, by simp [PRNG.getLoop, keystream], hKeyed⟩
  | succ passes ih =>
    cases length with
    | zero => exact ⟨p, by simp [PRNG.getLoop, keystream], hKeyed⟩
    | succ length =>
      have hInside := hKeyed.inside
      obtain ⟨step, hStep⟩ : ∃ step, step = min (length + 1) (p.mBufferByteCapacity - p.mBytesIdx) := ⟨_, rfl⟩
      have hRoom : p.mBytesIdx + step ≤ p.mBufferByteCapacity := by omega
      have hLess : length + 1 - step ≤ passes := by omega
      obtain ⟨hChunk, p₁, hPass, hKeyed₁⟩ := pass_keyed isa hKeyed hRoom
      obtain ⟨p₂, hLoop, hKeyed₂⟩ := ih hLess hKeyed₁
        (dest ++ keystream isa aes handedOut step)
      have hTotal : step + (length + 1 - step) = length + 1 := by omega
      rw [List.append_assoc, keystream_append, hTotal] at hLoop
      rw [Nat.add_assoc, hTotal] at hKeyed₂
      refine ⟨p₂, ?_, hKeyed₂⟩
      simp only [PRNG.getLoop, ← hStep, hChunk, hPass]
      exact hLoop

theorem get_keyed {p : PRNG} {handedOut : Nat} (hKeyed : Keyed isa aes p handedOut) (length : Nat) :
    ∃ p', p.get isa length = .ok (keystream isa aes handedOut length, p') ∧
      Keyed isa aes p' (handedOut + length) :=
  getLoop_keyed isa (Nat.le_refl length) hKeyed []

theorem getAll_keyed {p : PRNG} {handedOut : Nat} (hKeyed : Keyed isa aes p handedOut) (lengths : List Nat) :
    ∃ dests p', p.getAll isa lengths = .ok (dests, p') ∧ dests.map List.length = lengths ∧
      dests.flatten = keystream isa aes handedOut lengths.sum ∧ Keyed isa aes p' (handedOut + lengths.sum) := by
  induction lengths generalizing p handedOut with
  | nil => exact ⟨[], p, rfl, rfl, by simp [keystream], hKeyed⟩
  | cons length rest ih =>
    obtain ⟨p₁, hGet, hKeyed₁⟩ := get_keyed isa hKeyed length
    obtain ⟨dests, p₂, hRest, hLengths, hBytes, hKeyed₂⟩ := ih hKeyed₁
    refine ⟨keystream isa aes handedOut length :: dests, p₂, ?_, ?_, ?_, ?_⟩
    · simp only [PRNG.getAll, hGet]
      exact congrArg (fun r => r.bind fun out => .ok (keystream isa aes handedOut length :: out.1, out.2)) hRest
    · rw [List.map_cons, length_keystream, hLengths]
    · rw [List.flatten_cons, hBytes, keystream_append, List.sum_cons]
    · rwa [List.sum_cons, ← Nat.add_assoc]

/-- Whatever the buffer size is and however a caller splits its requests, it reads one keystream. -/
theorem getAll_newPRNG (seed : Block) {bufferSize : Nat} (hSize : 0 < bufferSize)
    (lengths : List Nat) : ∃ dests p', (do (← newPRNG isa seed bufferSize).getAll isa lengths) = .ok (dests, p') ∧
      dests.map List.length = lengths ∧ dests.flatten = keystream isa (setKey isa seed) 0 lengths.sum := by
  obtain ⟨p, hNew, hKeyed⟩ := newPRNG_keyed isa seed hSize
  obtain ⟨dests, p', hGet, hLengths, hBytes, _⟩ := getAll_keyed isa hKeyed lengths
  refine ⟨dests, p', ?_, hLengths, hBytes⟩
  rw [hNew]
  exact hGet

theorem getAll_newPRNG_uneven : ∃ dests p',
    (do (← newPRNG aesNi 5#128 2).getAll aesNi [3, 40, 0, 7]) = .ok (dests, p') ∧ dests.map List.length = [3, 40, 0, 7] ∧
      dests.flatten = keystream aesNi (setKey aesNi 5#128) 0 [3, 40, 0, 7].sum :=
  getAll_newPRNG aesNi 5#128 (by decide) [3, 40, 0, 7]

end Requests

end DpfPir
