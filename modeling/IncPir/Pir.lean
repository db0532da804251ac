import Mathlib.Algebra.Order.Ring.Nat
import IncPir.Library.LoopM

/-! # Messages, set descriptors and slot keys (`pir.hpp`, `pir.cpp`)

`uint32_t` values are natural numbers; sums that the code forms in 32 bits go
through `u32`. AES-128 is a parameter that maps a key and a plaintext block to
a ciphertext block.
-/

namespace IncPir
set_option autoImplicit false

abbrev KeyLen : Nat := 16

abbrev BlockLen : Nat := 16000

abbrev Key := Vector UInt8 KeyLen

abbrev Block := BitVec BlockLen

abbrev Database := List Block

/-- One AES-128 block encryption under a zero initialization vector: key, then plaintext. -/
abbrev Aes := Key → Key → Key

/-- A slot list: the range of each slot and its number of members. -/
abbrev Aux := List (Nat × Nat)

/-- How an operation of the code ends when it does not return. -/
inductive Fault where
  | invalidArgument (what : String)
  | outOfRange
  | divideByZero
  | noReturn
  | uninitialized
deriving DecidableEq, Repr

instance decidableEqExcept {ε α : Type} [DecidableEq ε] [DecidableEq α] : DecidableEq (Except ε α)
  | .ok a, .ok b => decidable_of_iff (a = b) ⟨congrArg Except.ok, Except.ok.inj⟩
  | .error e, .error f => decidable_of_iff (e = f) ⟨congrArg Except.error, Except.error.inj⟩
  | .ok _, .error _ => isFalse nofun
  | .error _, .ok _ => isFalse nofun

def u32 (n : Nat) : Nat := n % 2 ^ 32

def u16 (n : Nat) : Nat := n % 2 ^ 16

/-- Subtraction of `uint32_t` values. -/
def sub32 (a b : Nat) : Nat := u32 (a + 2 ^ 32 - b)

theorem u32_of_lt {n : Nat} (h : n < 2 ^ 32) : u32 n = n := Nat.mod_eq_of_lt h

theorem sub32_of_le {a b : Nat} (hb : b ≤ a) (ha : a < 2 ^ 32) : sub32 a b = a - b := by
  have hSum : a + 2 ^ 32 - b = (a - b) + 2 ^ 32 := by omega
  rw [sub32, u32, hSum, Nat.add_mod_right]
  exact Nat.mod_eq_of_lt (by omega)

/-- Element access; reading past the end is undefined in the code and a fault here. -/
def elemAt {α : Type} (l : List α) (i : Nat) : Except Fault α :=
  match l[i]? with
  | some a => .ok a
  | none => .error .outOfRange

def modBy (a b : Nat) : Except Fault Nat :=
  if b = 0 then .error .divideByZero else .ok (a % b)

theorem modBy_of_pos {b : Nat} (h : 0 < b) (a : Nat) : modBy a b = .ok (a % b) := if_neg (Nat.ne_of_gt h)

def storeAt {α : Type} (l : List α) (i : Nat) (a : α) : Except Fault (List α) :=
  if i < l.length then .ok (l.set i a) else .error .outOfRange

theorem elemAt_of_getElem? {α : Type} {l : List α} {i : Nat} {a : α} (h : l[i]? = some a) :
    elemAt l i = .ok a := by rw [elemAt, h]

theorem elemAt_eq_ok_iff {α : Type} (l : List α) (i : Nat) (a : α) :
    elemAt l i = .ok a ↔ l[i]? = some a := by
  rw [elemAt]
  cases l[i]? <;> simp

structure SetDesc where
  sk : Key
  shift : Nat
  aux : Aux
deriving DecidableEq

structure LocalHints where
  sets : List SetDesc
  parities : List Block
deriving DecidableEq

structure OfflineQuery where
  sets : List SetDesc
deriving DecidableEq

structure OfflineReply where
  parities : List Block
deriving DecidableEq

structure OnlineQuery where
  indices : List Nat
deriving DecidableEq

structure OnlineReply where
  parity : Block
deriving DecidableEq

structure DiffSetDesc where
  sk : Key
  shift : Nat
  auxPrev : Aux
  auxCurr : Aux
deriving DecidableEq

structure UpdateQueryAdd where
  build ::
  nbrsets : Nat
  setsize : Nat
  mk : Key
  diffsets : List DiffSetDesc
deriving DecidableEq

/-- The key of slot `batchNo`: only the low byte of the slot number enters the plaintext. -/
def kdf (aes : Aes) (mk sk : Key) (batchNo : Nat) : Key :=
  aes mk (sk.set 0 (sk[0] ^^^ UInt8.ofNat (batchNo &&& 0xFF)))

end IncPir
