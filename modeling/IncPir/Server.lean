import IncPir.Client

/-! # The server (`server.hpp`, `server.cpp`)

The database pointer is represented by the database it points to.
-/

namespace IncPir
set_option autoImplicit false

structure PIRServer where
  dbrange : Nat
  setsize : Nat
  nbrsets : Nat
  db : Database
deriving DecidableEq

section Replies
variable (aes : Aes)

/-- The parity of one set in `generate_offline_reply`; the sum with the shift is formed in 64 bits. -/
def offlineParity (server : PIRServer) (d : SetDesc) : Except Fault Block :=
  (List.range server.setsize).foldlM (fun parity j => do
    let y ← cycleWalk aes j server.dbrange d.sk
    let blk ← elemAt server.db ((y + d.shift) % server.dbrange)
    .ok (parity ^^^ blk)) 0

/-- The blocks of the positions that left slot `i` between the two lists. -/
def kickedParity (db : Database) (mk : Key) (d : DiffSetDesc) (i accumRange range : Nat)
    (curCount prevCount : Nat) (parity : Block) : Except Fault Block :=
  (List.range' curCount (prevCount - curCount)).foldlM (fun parity ell => do
    let idx ← cycleWalk aes ell range (slotKey aes mk d.sk i)
    let idx := if d.shift ≠ 0 ∧ i = 0 then u32 (idx + d.shift) % range else idx
    let blk ← elemAt db (u32 (accumRange + idx))
    .ok (parity ^^^ blk)) parity

/-- The loop over the slots of `prev` from slot `i` on: the parity and the offset it ends with. -/
def kickedSlots (db : Database) (mk : Key) (d : DiffSetDesc) :
    Nat → Nat → Aux → Block → Except Fault (Block × Nat)
  | _, accumRange, [], parity => .ok (parity, accumRange)
  | i, accumRange, (range, prevCount) :: rest, parity => do
    let cur ← elemAt d.auxCurr i
    let parity ← kickedParity aes db mk d i accumRange range cur.2 prevCount parity
    kickedSlots db mk d (i + 1) (u32 (accumRange + range)) rest parity

def lastSlotParity (db : Database) (mk : Key) (d : DiffSetDesc) (newSlot accumRange : Nat)
    (last : Nat × Nat) (parity : Block) : Except Fault Block :=
  (List.range last.2).foldlM (fun parity ell => do
    if ell = last.1 then .error (.invalidArgument "error in server eval")
    else
      let idx ← cycleWalk aes ell last.1 (kdf aes mk d.sk newSlot)
      let blk ← elemAt db (u32 (accumRange + idx))
      .ok (parity ^^^ blk)) parity

def diffParity (db : Database) (mk : Key) (d : DiffSetDesc) : Except Fault Block := do
  let (parity, accumRange) ← kickedSlots aes db mk d 0 0 d.auxPrev 0
  let newSlot := d.auxCurr.length - 1
  let last ← elemAt d.auxCurr newSlot
  lastSlotParity aes db mk d newSlot accumRange last parity

namespace PIRServer

def generateOfflineReply (server : PIRServer) (offlineQry : OfflineQuery) : Except Fault OfflineReply := do
  let parities ← (List.range server.nbrsets).mapM fun s => do
    let d ← elemAt offlineQry.sets s
    offlineParity aes server d
  .ok ⟨parities⟩

def batchedAdditionReply (server : PIRServer) (offlineAddQry : UpdateQueryAdd) :
    Except Fault OfflineReply := do
  let parities ← (List.range server.nbrsets).mapM fun s => do
    let d ← elemAt offlineAddQry.diffsets s
    diffParity aes server.db offlineAddQry.mk d
  .ok ⟨parities⟩

end PIRServer
end Replies

namespace PIRServer

def generateOnlineReply (server : PIRServer) (onlineQry : OnlineQuery) : Except Fault OnlineReply := do
  let parity ← onlineQry.indices.foldlM (fun parity i => do
    let blk ← elemAt server.db i
    .ok (parity ^^^ blk)) 0
  .ok ⟨parity⟩

def addElements (server : PIRServer) (nbrAdd : Nat) (v : List Block) : Except Fault PIRServer :=
  if nbrAdd ≠ v.length then .error (.invalidArgument "server additions error")
  else .ok { server with db := server.db ++ v, dbrange := u32 (server.dbrange + nbrAdd) }

end PIRServer

end IncPir
