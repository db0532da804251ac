import IncPir.Pir
import IncPir.Library.CycleWalk
import IncPir.Library.Feistel

/-! # The small-domain permutation (`adprp.hpp`, `adprp.cpp`)

A Feistel network on the smallest power of two above the range, walked until
the result falls below the range.
-/

namespace IncPir
set_option autoImplicit false

abbrev ROUNDS : Nat := 7

def lowMask (length : Nat) : Nat := (1 <<< length) - 1

section Cipher
variable (aes : Aes)

/-- The round function; `block` and `tweak` arrive truncated to `uint16_t` and
`input_length` is not used by the code. -/
def roundFunc (block : Nat) (key : Key) (tweak outputLength : Nat) : Nat :=
  let block := u16 block ^^^ u16 tweak
  let plaintext : Key := ((Vector.replicate KeyLen 0).set (KeyLen - 2)
    (UInt8.ofNat ((block >>> 8) &&& 0xFF))).set (KeyLen - 1) (UInt8.ofNat (block &&& 0xFF))
  let outbuf := aes key plaintext
  let res := outbuf[KeyLen - 2].toNat
  let res := u32 (res <<< 8)
  let res := res ||| outbuf[KeyLen - 1].toNat
  res &&& lowMask outputLength

/-- The variables that a pass of either Feistel loop hands to the next one. -/
structure FeistelVars where
  left : Nat
  right : Nat
  block : Nat

def feistelPrpPass (leftLength rightLength rounds : Nat) (key : Key) (vars : FeistelVars) (i : Nat) :
    FeistelVars :=
  let left1 := vars.right
  let right1 := vars.left ^^^ roundFunc aes vars.right key (i + 1) leftLength
  let permBlock := u32 (left1 <<< leftLength) ||| right1
  if i = rounds - 1 then { vars with block := permBlock }
  else ⟨(permBlock >>> rightLength) &&& lowMask leftLength, permBlock &&& lowMask rightLength, permBlock⟩

def feistelPrp (block blockLength rounds : Nat) (key : Key) : Nat :=
  let leftLength := blockLength / 2
  let rightLength := blockLength - leftLength
  let start : FeistelVars :=
    ⟨(block >>> rightLength) &&& lowMask leftLength, lowMask rightLength &&& block, 0⟩
  ((List.range rounds).foldl (feistelPrpPass aes leftLength rightLength rounds key) start).block

def feistelInvPrpPass (leftLength rightLength rounds : Nat) (key : Key) (vars : FeistelVars)
    (i : Nat) : FeistelVars :=
  let right1 := vars.left
  let left1 := vars.right ^^^ roundFunc aes vars.left key (rounds - i) rightLength
  let block := u32 (left1 <<< leftLength) ||| right1
  if i = rounds - 1 then { vars with block := block }
  else ⟨(block >>> rightLength) &&& lowMask leftLength, block &&& lowMask rightLength, block⟩

/-- The inverse network: the widths of the two halves are swapped and the tweaks run down. -/
def feistelInvPrp (permBlock blockLength rounds : Nat) (key : Key) : Nat :=
  let rightLength := blockLength / 2
  let leftLength := blockLength - rightLength
  let start : FeistelVars :=
    ⟨(permBlock >>> rightLength) &&& lowMask leftLength, permBlock &&& lowMask rightLength, 0⟩
  ((List.range rounds).foldl (feistelInvPrpPass aes leftLength rightLength rounds key) start).block

/-- The `while (tmp >= range)` loop; the bound on its passes is the size of the Feistel domain. -/
def walkBelow (step : Nat → Nat) (range passes tmp : Nat) : Except Fault Nat :=
  match CycleWalk.walk step (· < range) passes tmp with
  | some y => .ok y
  | none => .error .noReturn

/-- `log2(range) + 1`, with the floor of the logarithm taken exactly. -/
def prpLength (range : Nat) : Nat := Nat.log2 range + 1

def cycleWalk (num range : Nat) (key : Key) : Except Fault Nat :=
  if num ≥ range then .error (.invalidArgument "PRP input is invalid")
  else
    let cnt := prpLength range
    walkBelow (fun tmp => feistelPrp aes tmp cnt ROUNDS key) range (2 ^ cnt)
      (feistelPrp aes num cnt ROUNDS key)

def invCycleWalk (num range : Nat) (key : Key) : Except Fault Nat :=
  if num ≥ range then .error (.invalidArgument "PRP input is invalid")
  else
    let cnt := prpLength range
    walkBelow (fun tmp => feistelInvPrp aes tmp cnt ROUNDS key) range (2 ^ cnt)
      (feistelInvPrp aes num cnt ROUNDS key)

end Cipher

end IncPir
