import IncPir.Dpf.Prng
import IncPir.Library.Buffer

/-! # Keys of a point function and their evaluation (`baselines/dpf-pir/dpf.cpp`)

A key holds a seed and a control byte, one correction word for each level of
the tree, and a last correction word for the leaves of 128 bits. The arguments
of type `size_t` are natural numbers here.
-/

namespace DpfPir
set_option autoImplicit false

variable (isa : AesInstructions)

def mAesFixedKey : AES :=
  setKey isa (toBlock [36, 156, 50, 234, 92, 230, 49, 9, 174, 170, 205, 160, 98, 236, 29, 243])

def mAesFixedKey2 : AES :=
  setKey isa (toBlock [209, 12, 199, 173, 29, 74, 44, 128, 194, 224, 14, 44, 2, 201, 110, 28])

def getL (seed : Block) : Block := (mAesFixedKey isa).encryptECB_MMO isa seed

def getR (seed : Block) : Block := (mAesFixedKey2 isa).encryptECB_MMO isa seed

def getL8 (seeds : List Block) : List Block := (mAesFixedKey isa).encryptECB_MMO_Blocks isa seeds

def getR8 (seeds : List Block) : List Block := (mAesFixedKey2 isa).encryptECB_MMO_Blocks isa seeds

def clr (b : Block) : Block := b &&& ~~~MSBBlock

def getT (b : Block) : UInt8 := (b &&& MSBBlock != 0#128).toUInt8

def convertBlock (b : Block) : Block := (mAesFixedKey isa).encryptECB isa b

def convertBlock8 (bs : List Block) : List Block := (mAesFixedKey isa).encryptECBBlocks isa bs

/-- `1<<logn` for an `int`, compared with a `size_t`: the sign bit is extended. -/
def shiftedOne (logn : Nat) : Except Fault Nat :=
  if logn < 31 then .ok (2 ^ logn) else if logn = 31 then .ok (2 ^ 64 - 2 ^ 31) else .error .undefinedShift

/-- The assertions at the start of `Gen` and `Eval`. -/
def checkIndex (x logn : Nat) : Except Fault Unit := do
  if 63 < logn then throw .assertionFailed
  let bound ← shiftedOne logn
  if bound ≤ x then throw .assertionFailed

/-- Seven layers are packed into a leaf. -/
def stopLevel (logn : Nat) : Nat := if 7 ≤ logn then logn - 7 else 0

section Gen

structure GenState where
  s0 : Block
  s1 : Block
  t0 : UInt8
  t1 : UInt8
  CW : List UInt8

def genLevel (alpha logn : Nat) (g : GenState) (i : Nat) : GenState :=
  let s0L := getL isa g.s0
  let t0L := getT s0L
  let s0L := clr s0L
  let s0R := getR isa g.s0
  let t0R := getT s0R
  let s0R := clr s0R
  let s1L := getL isa g.s1
  let t1L := getT s1L
  let s1L := clr s1L
  let s1R := getR isa g.s1
  let t1R := getT s1R
  let s1R := clr s1R
  if alpha.testBit (logn - 1 - i) then
    -- the right side is kept
    let scw := s0L ^^^ s1L
    let tLCW := t0L ^^^ t1L
    let tRCW := t0R ^^^ t1R ^^^ 1
    { s0 := if g.t0 ≠ 0 then s0R ^^^ scw else s0R
      s1 := if g.t1 ≠ 0 then s1R ^^^ scw else s1R
      t0 := if g.t0 ≠ 0 then t0R ^^^ tRCW else t0R
      t1 := if g.t1 ≠ 0 then t1R ^^^ tRCW else t1R
      CW := g.CW ++ blockBytes scw ++ [tLCW, tRCW] }
  else
    let scw := s0R ^^^ s1R
    let tLCW := t0L ^^^ t1L ^^^ 1
    let tRCW := t0R ^^^ t1R
    { s0 := if g.t0 ≠ 0 then s0L ^^^ scw else s0L
      s1 := if g.t1 ≠ 0 then s1L ^^^ scw else s1L
      t0 := if g.t0 ≠ 0 then t0L ^^^ tLCW else t0L
      t1 := if g.t1 ≠ 0 then t1L ^^^ tLCW else t1L
      CW := g.CW ++ blockBytes scw ++ [tLCW, tRCW] }

/-- The block whose bit `alpha & 127` is set, stored byte by byte. -/
def pointBlock (alpha : Nat) : Block :=
  toBlock ((List.replicate 16 0).set ((alpha &&& 127) / 8) (UInt8.ofNat (1 <<< ((alpha &&& 127) % 8))))

def gen (alpha logn : Nat) : Except Fault (List UInt8 × List UInt8) := do
  checkIndex alpha logn
  let p ← getTestPRNG isa
  let (bytes0, p) ← p.get isa 16
  let (bytes1, _) ← p.get isa 16
  let s0 := toBlock bytes0
  let s1 := toBlock bytes1
  let t0 := getT s0
  let t1 := if t0 = 0 then 1 else 0
  let s0 := clr s0
  let s1 := clr s1
  let g := (List.range (stopLevel logn)).foldl (genLevel isa alpha logn) ⟨s0, s1, t0, t1, []⟩
  let CW := g.CW ++ blockBytes (pointBlock alpha ^^^ convertBlock isa g.s0 ^^^ convertBlock isa g.s1)
  return (blockBytes s0 ++ [t0] ++ CW, blockBytes s1 ++ [t1] ++ CW)

end Gen

section Reads

/-- `memcpy` of sixteen bytes of the key. -/
def readBlock (key : List UInt8) (offset : Nat) : Except Fault Block :=
  if offset + 16 ≤ key.length then .ok (toBlock ((key.drop offset).take 16)) else .error .outOfBounds

def readByte (key : List UInt8) (offset : Nat) : Except Fault UInt8 :=
  match key[offset]? with
  | some byte => .ok byte
  | none => .error .outOfBounds

/-- The correction word of a level as it stands in a key. -/
structure LevelWord where
  sCW : Block
  tLCW : UInt8
  tRCW : UInt8
deriving DecidableEq

def readLevel (key : List UInt8) (lvl : Nat) : Except Fault LevelWord := do
  let sCW ← readBlock key (17 + lvl * 18)
  let tLCW ← readByte key (17 + lvl * 18 + 16)
  let tRCW ← readByte key (17 + lvl * 18 + 17)
  return ⟨sCW, tLCW, tRCW⟩

def readLast (key : List UInt8) : Except Fault Block :=
  if 16 ≤ key.length then readBlock key (key.length - 16) else .error .outOfBounds

end Reads

section Eval

/-- The seed and the control byte of a node. -/
abbrev KeyNode := Block × UInt8

/-- The children of a node before correction, left and right. -/
def children (s : Block) : KeyNode × KeyNode :=
  let sL := getL isa s
  let tL := getT sL
  let sL := clr sL
  let sR := getR isa s
  let tR := getT sR
  let sR := clr sR
  ((sL, tL), (sR, tR))

/-- The children of a node at level `lvl`. The word of the level is read only where it applies. -/
def grow (key : List UInt8) (lvl : Nat) (node : KeyNode) : Except Fault (KeyNode × KeyNode) := do
  let (s, t) := node
  let ((sL, tL), (sR, tR)) := children isa s
  if t ≠ 0 then
    let w ← readLevel key lvl
    return ((sL ^^^ w.sCW, tL ^^^ w.tLCW), (sR ^^^ w.sCW, tR ^^^ w.tRCW))
  else return ((sL, tL), (sR, tR))

/-- The 128 output bits of a node at the last level. -/
def leafBlock (key : List UInt8) (node : KeyNode) : Except Fault Block := do
  let (s, t) := node
  if t ≠ 0 then
    let CW ← readLast key
    return CW ^^^ convertBlock isa s
  else return convertBlock isa s

def bitOfBlock (b : Block) (x : Nat) : Bool :=
  ((blockBytes b).getD ((x &&& 127) / 8) 0).toNat.testBit ((x &&& 127) % 8)

def evalLevel (key : List UInt8) (x logn : Nat) (node : KeyNode) (i : Nat) : Except Fault KeyNode := do
  let (l, r) ← grow isa key i node
  return if x.testBit (logn - 1 - i) then r else l

def eval (key : List UInt8) (x logn : Nat) : Except Fault Bool := do
  checkIndex x logn
  let s ← readBlock key 0
  let t ← readByte key 16
  let node ← (List.range (stopLevel logn)).foldlM (evalLevel isa key x logn) (s, t)
  let tmp ← leafBlock isa key node
  return bitOfBlock tmp x

/-- The recursion is on the levels that are left, `stop - lvl`. -/
def evalFullRecursive (key : List UInt8) : (left lvl : Nat) → KeyNode → List UInt8 → Except Fault (List UInt8)
  | 0, _, node, res => do
    let tmp ← leafBlock isa key node
    return res ++ blockBytes tmp
  | left + 1, lvl, node, res => do
    let (l, r) ← grow isa key lvl node
    let res ← evalFullRecursive key left (lvl + 1) l res
    evalFullRecursive key left (lvl + 1) r res

def evalFull (key : List UInt8) (logn : Nat) : Except Fault (List UInt8) := do
  if 63 < logn then throw .assertionFailed
  let s ← readBlock key 0
  let t ← readByte key 16
  evalFullRecursive isa key (stopLevel logn) 0 (s, t) []

end Eval

section Eval8

/-- `_mm_set1_epi8(-t)` -/
def spreadMask (t : UInt8) : Block := toBlock (List.replicate 16 (0 - t))

/-- Eight `memcpy` calls of sixteen bytes; the pointers move behind what they wrote. -/
def storeLanes : List Nat → List Block → List UInt8 → Except Fault (List UInt8 × List Nat)
  | ptr :: ptrs, b :: blocks, data => do
    if data.length < ptr + 16 then throw .outOfBounds
    let (data, ptrs) ← storeLanes ptrs blocks (Buffer.overwrite data ptr (blockBytes b))
    return (data, (ptr + 16) :: ptrs)
  | ptrs, _, data => .ok (data, ptrs)

/-- The children of eight nodes on one side, with masks in the place of branches. -/
def growLanes (sCW : Block) (tCW : UInt8) (seeds : List Block) (lanes : List KeyNode) : List KeyNode :=
  List.zipWith (fun s' lane => (clr s' ^^^ (sCW &&& spreadMask lane.2), getT s' ^^^ (tCW &&& lane.2))) seeds lanes

/-- The arrays `s` and `t` are given lane by lane. -/
def evalFullRecursive8 (key : List UInt8) :
    (left lvl : Nat) → List KeyNode → List UInt8 → List Nat → Except Fault (List UInt8 × List Nat)
  | 0, _, lanes, data, res => do
    let CW ← readLast key
    let conv := convertBlock8 isa (lanes.map Prod.fst)
    storeLanes res (List.zipWith (fun c lane => c ^^^ (CW &&& spreadMask lane.2)) conv lanes) data
  | left + 1, lvl, lanes, data, res => do
    let w ← readLevel key lvl
    let sL := getL8 isa (lanes.map Prod.fst)
    let sR := getR8 isa (lanes.map Prod.fst)
    let (data, res) ← evalFullRecursive8 key left (lvl + 1) (growLanes w.sCW w.tLCW sL lanes) data res
    evalFullRecursive8 key left (lvl + 1) (growLanes w.sCW w.tRCW sR lanes) data res

def evalFull8 (key : List UInt8) (logn : Nat) : Except Fault (List UInt8) := do
  if 63 < logn then throw .assertionFailed
  if logn < 6 then throw .undefinedShift
  let data := List.replicate (2 ^ (logn - 3)) (0 : UInt8)
  let dataPtrs := (List.range 8).map fun i => i * 2 ^ (logn - 6)
  let s ← readBlock key 0
  let t ← readByte key 16
  if stopLevel logn < 3 then throw .assertionFailed
  let (l, r) ← grow isa key 0 (s, t)
  let (ll, rl) ← grow isa key 1 l
  let (lr, rr) ← grow isa key 1 r
  let (lll, rll) ← grow isa key 2 ll
  let (lrl, rrl) ← grow isa key 2 rl
  let (llr, rlr) ← grow isa key 2 lr
  let (lrr, rrr) ← grow isa key 2 rr
  let (data, _) ← evalFullRecursive8 isa key (stopLevel logn - 3) 3 [lll, rll, lrl, rrl, llr, rlr, lrr, rrr] data
    dataPtrs
  return data

end Eval8

end DpfPir
