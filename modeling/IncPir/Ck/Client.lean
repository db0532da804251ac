import IncPir.Ck.PuncPrf
import IncPir.Library.LoopM

/-! # The client of the baseline (`baselines/ck-pir/src/pir.hpp`, `client.cpp`)

A set is given by a key and a shift. Fresh keys and `rand()` values are
arguments; the hints of new sets are zero.
-/

namespace CkPir
open IncPir (Key Block Fault elemAt storeAt modBy u32 sub32)
open LoopM (findSomeM)
set_option autoImplicit false

structure SetDesc where
  prfKey : Key
  shift : Nat
  hint : Block
deriving DecidableEq

structure OfflineQuery where
  nbrsets : Nat
  setsize : Nat
  offlineKeys : List Key
  shifts : List Nat
deriving DecidableEq

structure OnlineQuery where
  height : Nat
  bitvec : Nat
  keys : List Key
  shift : Nat
deriving DecidableEq

structure OfflineReply where
  nbrsets : Nat
  hints : List Block
deriving DecidableEq

structure OnlineReply where
  parity : Block
deriving DecidableEq

structure PIRClient where
  lgn : Nat
  dbrange : Nat
  setsize : Nat
  nbrsets : Nat
  puncX : Nat
  curQrySetno : Nat
  sets : List SetDesc
deriving DecidableEq

/-- `int(log2(n)-1)+1`, the floor of the logarithm. -/
def lgnOf (n : Nat) : Nat := Nat.log2 n

namespace PIRClient
variable (prg : Prg)

def setParms (c : PIRClient) (dbrange setsize nbrsets : Nat) : PIRClient :=
  { c with dbrange := dbrange, lgn := lgnOf dbrange, setsize := setsize, nbrsets := nbrsets, puncX := 0 }

def generateOfflineQuery (c : PIRClient) : Except Fault OfflineQuery := do
  let sets ← (List.range c.nbrsets).mapM fun i => elemAt c.sets i
  .ok ⟨c.nbrsets, c.setsize, sets.map SetDesc.prfKey, sets.map SetDesc.shift⟩

def updateLocalHints (c : PIRClient) (offlineReply : OfflineReply) : Except Fault PIRClient := do
  let sets ← (List.range offlineReply.nbrsets).foldlM (fun sets i => do
    let d ← elemAt sets i
    let hint ← elemAt offlineReply.hints i
    storeAt sets i { d with hint := d.hint ^^^ hint }) c.sets
  .ok { c with sets := sets }

/-- The inner loop of the search: the first position of a set that the shift maps to the index. -/
def searchPoints (c : PIRClient) (d : SetDesc) (desiredIdx : Nat) : Except Fault (Option Nat) :=
  findSomeM (fun i => do
    let y ← eval prg d.prfKey i c.lgn c.dbrange
    let point ← modBy (u32 (y + d.shift)) c.dbrange
    .ok (if point = desiredIdx then some i else none)) (1 <<< (c.lgn / 2)) 0

/-- The set number and the position at which the search jumps to `Found`. -/
def search (c : PIRClient) (desiredIdx : Nat) : Except Fault (Option (Nat × Nat)) :=
  findSomeM (fun s => do
    let d ← elemAt c.sets s
    let found ← c.searchPoints prg d desiredIdx
    .ok (found.map fun i => (s, i))) c.nbrsets 0

def puncturedQuery (c : PIRClient) (d : SetDesc) (puncX : Nat) : OnlineQuery :=
  let punckeys := punc prg d.prfKey puncX c.lgn
  ⟨punckeys.height, punckeys.bitvec, punckeys.keys, d.shift⟩

def generateOnlineQuery (c : PIRClient) (desiredIdx : Nat) : Except Fault (PIRClient × OnlineQuery) := do
  match ← c.search prg desiredIdx with
  | none => .error (.invalidArgument "cannot find desired index!")
  | some (setno, puncX) => do
    let d ← elemAt c.sets setno
    .ok ({ c with puncX := puncX, curQrySetno := setno }, c.puncturedQuery prg d puncX)

def recoverBlock (c : PIRClient) (onlineReply : OnlineReply) : Except Fault Block := do
  let d ← elemAt c.sets c.curQrySetno
  .ok (onlineReply.parity ^^^ d.hint)

def generateRefreshQuery (c : PIRClient) (desiredIdx : Nat) (key : Key) (rand : Nat) :
    Except Fault (PIRClient × OnlineQuery) := do
  let old ← elemAt c.sets c.curQrySetno
  let r ← modBy rand c.setsize
  let y ← eval prg key r c.lgn c.dbrange
  let shift ← modBy (sub32 (u32 (desiredIdx + c.dbrange)) y) c.dbrange
  let d := { old with prfKey := key, shift := shift }
  let sets ← storeAt c.sets c.curQrySetno d
  -- punctured where the last online query found its index
  .ok ({ c with sets := sets }, c.puncturedQuery prg d c.puncX)

/-- The assignment to `sets[cur_qry_setno].hint` after a refresh reply (`main.cpp`,
`NetClient::refresh_query`). -/
def storeHint (c : PIRClient) (hint : Block) : Except Fault PIRClient := do
  let d ← elemAt c.sets c.curQrySetno
  let sets ← storeAt c.sets c.curQrySetno { d with hint := hint }
  .ok { c with sets := sets }

end PIRClient

end CkPir
