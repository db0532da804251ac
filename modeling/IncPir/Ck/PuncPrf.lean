import IncPir.Pir

/-! # The puncturable PRF (`baselines/ck-pir/src/puncprf.hpp`, `puncprf.cpp`)

`PRG` is a parameter that maps a node label to the labels of its two children.
Loop counters run over `List.range'` where the code starts them at 1.
-/

namespace CkPir
open IncPir (Key Fault elemAt)
set_option autoImplicit false

abbrev Prg := Key → Key × Key

/-- The keys beside the path to the punctured point. -/
structure PuncKeys where
  height : Nat
  bitvec : Nat
  keys : List Key
deriving DecidableEq

/-- The first 8 bytes of a label, most significant first. -/
def leadingWord (node : Key) : BitVec 64 :=
  (node.toList.take 8).foldl (fun v byte => v <<< 8 ||| byte.toBitVec.setWidth 64) 0

/-- The mask is formed on a signed 32-bit integer and then widened; a shift of 32 or more, undefined
in the code, leaves it empty here. -/
def slide (lgn i : Nat) : BitVec 64 := ((1#32 <<< lgn - 1#32) <<< i).signExtend 64

/-- The first window of the leading word that is in range, 0 if none of the 64 windows is. -/
def leafValue (lgn range : Nat) (node : Key) : Nat :=
  let v := leadingWord node
  match (List.range 64).find? fun i => decide (((v &&& slide lgn i) >>> i).toNat < range) with
  | some i => ((v &&& slide lgn i) >>> i).toNat % 2 ^ 32
  | none => 0

section Evaluators
variable (prg : Prg)

def walkStep (nodeKey : Key) (curBit : Nat) : Except Fault Key :=
  if curBit ≠ 0 ∧ curBit ≠ 1 then .error (.invalidArgument "error")
  else .ok (if curBit = 0 then (prg nodeKey).1 else (prg nodeKey).2)

def walk (x lgn first : Nat) (nodeKey : Key) : Except Fault Key :=
  (List.range' first (lgn + 1 - first)).foldlM (fun node i => walkStep prg node (x >>> (lgn - i) &&& 1)) nodeKey

def eval (key : Key) (x lgn range : Nat) : Except Fault Nat :=
  if x ≥ 1 <<< lgn then .error (.invalidArgument "Eval input invalid")
  else do
    let nodeKey ← walk prg x lgn 1 key
    .ok (leafValue lgn range nodeKey)

def expandLevel (prevNodes : List Key) (size : Nat) : Except Fault (List Key) :=
  if prevNodes.length ≠ size then .error (.invalidArgument "vec size error")
  else (List.range size).foldlM (fun curNodes b => do
    let keyb ← elemAt prevNodes b
    .ok (curNodes ++ [(prg keyb).1, (prg keyb).2])) []

def breadthEval (rootkey : Key) (low high lgn range : Nat) : Except Fault (List Nat) := do
  let subheight := lgn / 2
  let subroot := (List.range subheight).foldl (fun node _ => (prg node).1) rootkey
  let prevNodes ← (List.range' subheight (lgn - subheight)).foldlM
    (fun prev i => expandLevel prg prev (1 <<< (i - subheight))) [subroot]
  (List.range (high - low)).mapM fun i => do
    let node ← elemAt prevNodes i
    .ok (leafValue lgn range node)

/-- The loop that looks for the level at which `x` leaves the punctured path, with the key
stored there; `none` is a key that no level has set. -/
def leavePath (puncKeys : PuncKeys) (x lgn : Nat) : List Nat → Nat → Except Fault (Option Key × Nat)
  | [], curPos => .ok (none, curPos)
  | i :: rest, curPos =>
    if x &&& 1 <<< (lgn - i) ≠ puncKeys.bitvec &&& 1 <<< (lgn - i) then do
      let key ← elemAt puncKeys.keys (i - 1)
      .ok (some key, curPos)
    else leavePath puncKeys x lgn rest (curPos + 1)

/-- The result is a signed integer, `-1` at the punctured point. -/
def evalPunc (puncKeys : PuncKeys) (x lgn range : Nat) : Except Fault Int :=
  if x = puncKeys.bitvec then .ok (-1)
  else do
    let (curKey, curPos) ← leavePath puncKeys x lgn (List.range' 1 lgn) 1
    match curKey with
    | none => .error .uninitialized
    | some curKey => do
      let nodeKey ← walk prg x lgn (curPos + 1) curKey
      .ok (BitVec.ofNat 32 (leafValue lgn range nodeKey)).toInt

structure PuncState where
  puncNumber : Nat
  nodeKey : Key
  bitvec : Nat
  keys : List Key

def puncStep (lgn : Nat) (st : PuncState) (i : Nat) : PuncState :=
  let derivedKeys := prg st.nodeKey
  if (1 <<< lgn) / (1 <<< i) ≤ st.puncNumber then
    { puncNumber := st.puncNumber - (1 <<< lgn) / (1 <<< i), nodeKey := derivedKeys.2,
      bitvec := st.bitvec ||| 1 <<< (lgn - i), keys := st.keys ++ [derivedKeys.1] }
  else { st with nodeKey := derivedKeys.1, keys := st.keys ++ [derivedKeys.2] }

def punc (key : Key) (puncX lgn : Nat) : PuncKeys :=
  let st := (List.range' 1 lgn).foldl (puncStep prg lgn) ⟨puncX, key, 0, []⟩
  ⟨lgn, st.bitvec, st.keys⟩

end Evaluators

end CkPir
