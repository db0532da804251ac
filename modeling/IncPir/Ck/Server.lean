import IncPir.Ck.Client

/-! # The server of the baseline (`baselines/ck-pir/src/server.cpp`) -/

namespace CkPir
open IncPir (Block Database Fault elemAt modBy u32)
set_option autoImplicit false

structure PIRServer where
  lgn : Nat
  dbSize : Nat
  db : Database
deriving DecidableEq

/-- The database of the code is never a null pointer here. -/
def setDatabase (dbSize : Nat) (db : Database) : PIRServer := ⟨lgnOf dbSize, dbSize, db⟩

namespace PIRServer
variable (prg : Prg)

def hintStep (s : PIRServer) (offlineQry : OfflineQuery) (i : Nat) (hint : Block) (rawIdx : Nat) :
    Except Fault Block := do
  let shift ← elemAt offlineQry.shifts i
  let y ← modBy (u32 (rawIdx + shift)) s.dbSize
  let blk ← elemAt s.db y
  .ok (hint ^^^ blk)

def generateOfflineReplyFast (s : PIRServer) (offlineQry : OfflineQuery) : Except Fault OfflineReply := do
  let hints ← (List.range offlineQry.nbrsets).mapM fun i => do
    let key ← elemAt offlineQry.offlineKeys i
    let rawIndices ← breadthEval prg key 0 (1 <<< (s.lgn / 2)) s.lgn s.dbSize
    rawIndices.foldlM (s.hintStep offlineQry i) 0
  .ok ⟨offlineQry.nbrsets, hints⟩

def replyStep (s : PIRServer) (onlineQry : OnlineQuery) (parity : Block) (i : Nat) : Except Fault Block := do
  let y ← evalPunc prg ⟨onlineQry.height, onlineQry.bitvec, onlineQry.keys⟩ i s.lgn s.dbSize
  if y = -1 then .ok parity
  else do
    -- the signed value is converted to `uint32_t` for the sum
    let y ← modBy ((y + onlineQry.shift) % 2 ^ 32).toNat s.dbSize
    let blk ← elemAt s.db y
    .ok (parity ^^^ blk)

def generateOnlineReply (s : PIRServer) (onlineQry : OnlineQuery) : Except Fault OnlineReply := do
  let parity ← (List.range (1 <<< (s.lgn / 2))).foldlM (s.replyStep prg onlineQry) 0
  .ok ⟨parity⟩

end PIRServer

end CkPir
