import IncPir.Exchange
import IncPir.NetServer

/-! # Requests (`net_client.cpp`, `net_server.cpp`)

The accept loops of the server differ in the requests they take. Each request
of the client is an exchange whose response updates the client.
-/

namespace IncPir
open LoopM
set_option autoImplicit false

inductive QueryType where
  | offline
  | online
  | add
  | refresh
deriving DecidableEq, Repr

def QueryType.value : QueryType → Nat
  | .offline => 0
  | .online => 1
  | .add => 2
  | .refresh => 3

structure Interface.Query where
  type : QueryType
  msg : List UInt8
deriving DecidableEq

section Loops
variable (aes : Aes) (pb : Protobuf (List UInt8)) (server : PIRServer)

/-- The requests of `run`; a refresh request has no branch, and its response stays empty. -/
def runHandler (query : Interface.Query) : Except SerialFault (List UInt8) :=
  match query.type with
  | .offline => offlineQueryHandler aes pb server query.msg
  | .online => onlineQueryHandler pb server query.msg
  | .add => addQueryHandler aes pb server query.msg
  | .refresh => .ok []

def runRefreshHandler (query : Interface.Query) : Except SerialFault (List UInt8) :=
  match query.type with
  | .offline => offlineQueryHandler aes pb server query.msg
  | .refresh => onlineQueryHandler pb server query.msg
  | .online => onlineQueryHandler pb server query.msg
  | .add => .error (.assertionFailed "unsupported operation\n")

/-- The first accept loop of `run_offline`. -/
def runOfflineHandler (query : Interface.Query) : Except SerialFault (List UInt8) :=
  match query.type with
  | .offline => offlineQueryHandler aes pb server query.msg
  | _ => .error (.assertionFailed "should only receive offline request at the beginning\n")

/-- The second accept loop of `run_offline`. -/
def runAddHandler (query : Interface.Query) : Except SerialFault (List UInt8) :=
  match query.type with
  | .add => addQueryHandler aes pb server query.msg
  | other => .error (.assertionFailed
      (toString other.value ++ "\n" ++ "should only receive add request at the beginning\n"))

end Loops

section Request
variable (queries : MessageClass (List UInt8) Interface.Query)

def serializeQuery (query : List UInt8) (type : QueryType) : List UInt8 := queries.serializeToString ⟨type, query⟩

def request (handler : Interface.Query → Except SerialFault (List UInt8)) (link : Link) (passes : Nat)
    (query : List UInt8) (type : QueryType) : Except SerialFault (List UInt8) :=
  overConnection (handleQuery queries handler) link passes (serializeQuery queries query type)

end Request

namespace NetClient
variable (pb : Protobuf (List UInt8)) (queries : MessageClass (List UInt8) Interface.Query)
  (handler : Interface.Query → Except SerialFault (List UInt8)) (link : Link) (passes : Nat) (c : PIRClient)

def offlineQueryBaseline (offlineQry : OfflineQuery) : Except SerialFault PIRClient := do
  let response ← request queries handler link passes (serializeOfflineQuery pb offlineQry) .offline
  let offlineReply ← deserializeOfflineReply pb response
  (c.updateParity offlineReply).mapError .raised

def offlineQuery : Except SerialFault PIRClient := do
  let offlineQry ← c.generateOfflineQuery.mapError .raised
  offlineQueryBaseline pb queries handler link passes c offlineQry

def onlineQuery (onlineQry : OnlineQuery) : Except SerialFault (PIRClient × Block) := do
  let response ← request queries handler link passes (serializeOnlineQuery pb onlineQry) .online
  let onlineReply ← deserializeOnlineReply pb response
  (c.queryRecov onlineReply).mapError .raised

def refreshQuery (onlineQry : OnlineQuery) : Except SerialFault PIRClient := do
  let response ← request queries handler link passes (serializeOnlineQuery pb onlineQry) .refresh
  let refreshReply ← deserializeOnlineReply pb response
  (c.refreshRecov refreshReply).mapError .raised

def addQuery (offlineAddQry : UpdateQueryAdd) : Except SerialFault PIRClient := do
  let response ← request queries handler link passes (serializeOfflineAddQuery pb offlineAddQry) .add
  let offlineReply ← deserializeOfflineReply pb response
  (c.updateParity offlineReply).mapError .raised

end NetClient

theorem request_eq {link : Link} (hLink : link.Reliable) {passes : Nat} (hPasses : 2 ^ 31 ≤ passes)
    {queries : MessageClass (List UInt8) Interface.Query} (hQueries : queries.Undoes)
    {handler : Interface.Query → Except SerialFault (List UInt8)} {query response : List UInt8} {type : QueryType}
    (hQuery : Sendable (serializeQuery queries query type)) (hHandler : handler ⟨type, query⟩ = .ok response)
    (hResponse : Sendable response) : request queries handler link passes query type = .ok response :=
  overConnection_eq hLink hPasses hQuery ((handleQuery_serialize hQueries handler ⟨type, query⟩).trans hHandler) hResponse

end IncPir
