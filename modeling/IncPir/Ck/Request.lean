import IncPir.Ck.Refresh
import IncPir.Ck.Serial
import IncPir.Exchange

/-! # Requests of the baseline (`baselines/ck-pir/src/net_client.cpp`, `net_server.cpp`)

The loop of the server takes no refresh request; `run_refresh` answers one like
an online query. The client keeps the block of the last query outside, and
passes it back with the refresh.
-/

namespace CkPir
open IncPir (Block Fault MessageClass SerialFault Link Sendable overConnection overConnection_eq handleQuery
  handleQuery_serialize)
open LoopM
set_option autoImplicit false

inductive QueryType where
  | offline
  | online
  | refresh
deriving DecidableEq, Repr

def QueryType.value : QueryType → Nat
  | .offline => 0
  | .online => 1
  | .refresh => 2

structure Interface.Query where
  type : QueryType
  msg : List UInt8
deriving DecidableEq

section Handlers
variable (prg : Prg) (pb : Protobuf (List UInt8)) (server : PIRServer)

def offlineQueryHandler (queryStr : List UInt8) : Except SerialFault (List UInt8) := do
  let offlineQry ← deserializeOfflineQuery pb queryStr
  let offlineReply ← (server.generateOfflineReplyFast prg offlineQry).mapError .raised
  .ok (serializeOfflineReply pb offlineReply)

def onlineQueryHandler (queryStr : List UInt8) : Except SerialFault (List UInt8) := do
  let onlineQry ← deserializeOnlineQuery pb queryStr
  let onlineReply ← (server.generateOnlineReply prg onlineQry).mapError .raised
  .ok (serializeOnlineReply pb onlineReply)

def runHandler (query : Interface.Query) : Except SerialFault (List UInt8) :=
  match query.type with
  | .offline => offlineQueryHandler prg pb server query.msg
  | .online => onlineQueryHandler prg pb server query.msg
  | .refresh => .error (.assertionFailed "")

def runRefreshHandler (query : Interface.Query) : Except SerialFault (List UInt8) :=
  match query.type with
  | .offline => offlineQueryHandler prg pb server query.msg
  | .refresh => onlineQueryHandler prg pb server query.msg
  | .online => onlineQueryHandler prg pb server query.msg

end Handlers

section Request
variable (queries : MessageClass (List UInt8) Interface.Query)

def serializeQuery (query : List UInt8) (type : QueryType) : List UInt8 := queries.serializeToString ⟨type, query⟩

def request (handler : Interface.Query → Except SerialFault (List UInt8)) (link : Link) (passes : Nat)
    (query : List UInt8) (type : QueryType) : Except SerialFault (List UInt8) :=
  overConnection (handleQuery queries handler) link passes (serializeQuery queries query type)

end Request

namespace NetClient
variable (pb : Protobuf (List UInt8)) (queries : MessageClass (List UInt8) Interface.Query)
  (handler : Interface.Query → Except SerialFault (List UInt8)) (link : Link) (passes : Nat) (c : PIRClient)

def offlineQueryBaseline (offlineQry : OfflineQuery) : Except SerialFault PIRClient := do
  let response ← request queries handler link passes (serializeOfflineQuery pb offlineQry) .offline
  let offlineReply ← deserializeOfflineReply pb response
  (c.updateLocalHints offlineReply).mapError .raised

def offlineQuery : Except SerialFault PIRClient := do
  let offlineQry ← c.generateOfflineQuery.mapError .raised
  offlineQueryBaseline pb queries handler link passes c offlineQry

def onlineQuery (onlineQry : OnlineQuery) : Except SerialFault Block := do
  let response ← request queries handler link passes (serializeOnlineQuery pb onlineQry) .online
  let onlineReply ← deserializeOnlineReply pb response
  (c.recoverBlock onlineReply).mapError .raised

def refreshQuery (onlineQry : OnlineQuery) (blk : Block) : Except SerialFault PIRClient := do
  let response ← request queries handler link passes (serializeOnlineQuery pb onlineQry) .refresh
  let refreshReply ← deserializeOnlineReply pb response
  (c.storeHint (blk ^^^ refreshReply.parity)).mapError .raised

end NetClient

/-- A query and the refresh that follows it, with the connections of the two requests. -/
structure NetRound where
  round : RefreshRound
  onlineLink : Link
  refreshLink : Link

def netRefreshRound (prg : Prg) (pb : Protobuf (List UInt8)) (queries : MessageClass (List UInt8) Interface.Query)
    (server : PIRServer) (passes : Nat) (c : PIRClient) (r : NetRound) : Except SerialFault (PIRClient × Block) := do
  let handler := runRefreshHandler prg pb server
  let (c, onlineQry) ← (c.generateOnlineQuery prg r.round.idx).mapError .raised
  let blk ← NetClient.onlineQuery pb queries handler r.onlineLink passes c onlineQry
  let (c, refreshQry) ← (c.generateRefreshQuery prg r.round.idx r.round.key r.round.rand).mapError .raised
  let c ← NetClient.refreshQuery pb queries handler r.refreshLink passes c refreshQry blk
  .ok (c, blk)

/-- Messages about so many sets, and queries for so many positions, are not longer than a connection can
carry. -/
structure MessagesFit (pb : Protobuf (List UInt8)) (queries : MessageClass (List UInt8) Interface.Query)
    (nbrsets height : Nat) : Prop where
  offlineQuery : ∀ q : OfflineQuery, q.offlineKeys.length ≤ nbrsets → q.shifts.length ≤ nbrsets →
    Sendable (serializeQuery queries (serializeOfflineQuery pb q) .offline)
  offlineReply : ∀ r : OfflineReply, r.hints.length ≤ nbrsets → Sendable (serializeOfflineReply pb r)
  onlineQuery : ∀ (q : OnlineQuery) (type : QueryType), q.keys.length ≤ height →
    Sendable (serializeQuery queries (serializeOnlineQuery pb q) type)
  onlineReply : ∀ r, Sendable (serializeOnlineReply pb r)

/-- What the messages between a client and a server of these sizes rely on. -/
structure Transport (pb : Protobuf (List UInt8)) (queries : MessageClass (List UInt8) Interface.Query)
    (nbrsets passes : Nat) : Prop where
  messages_undo : pb.Undoes
  queries_undo : queries.Undoes
  fits : MessagesFit pb queries nbrsets 30
  passes_ge : 2 ^ 31 ≤ passes

section Simulation
variable {prg : Prg} {pb : Protobuf (List UInt8)} {queries : MessageClass (List UInt8) Interface.Query}
  {nbrsets passes : Nat} (hTransport : Transport pb queries nbrsets passes) {link : Link} (hLink : link.Reliable)
  {server : PIRServer} {handler : Interface.Query → Except SerialFault (List UInt8)}
include hTransport hLink

theorem request_eq {query response : List UInt8} {type : QueryType}
    (hQuery : Sendable (serializeQuery queries query type)) (hHandler : handler ⟨type, query⟩ = .ok response)
    (hResponse : Sendable response) : request queries handler link passes query type = .ok response :=
  overConnection_eq hLink hTransport.passes_ge hQuery
    ((handleQuery_serialize hTransport.queries_undo handler ⟨type, query⟩).trans hHandler) hResponse

omit hTransport hLink in
theorem offlineQueryHandler_serialize (hParse : pb.Undoes) {q : OfflineQuery} (hTyped : q.Typed)
    {reply : OfflineReply} (hReply : server.generateOfflineReplyFast prg q = .ok reply) :
    offlineQueryHandler prg pb server (serializeOfflineQuery pb q) = .ok (serializeOfflineReply pb reply) := by
  rw [offlineQueryHandler, deserializeOfflineQuery_serialize hParse hTyped, ok_bind, hReply]
  rfl

omit hTransport hLink in
theorem onlineQueryHandler_serialize (hParse : pb.Undoes) {q : OnlineQuery} (hTyped : q.Typed) {reply : OnlineReply}
    (hReply : server.generateOnlineReply prg q = .ok reply) :
    onlineQueryHandler prg pb server (serializeOnlineQuery pb q) = .ok (serializeOnlineReply pb reply) := by
  rw [onlineQueryHandler, deserializeOnlineQuery_serialize hParse hTyped, ok_bind, hReply]
  rfl

variable (c : PIRClient)

theorem offlineQueryBaseline_eq (hHandler : ∀ msg, handler ⟨.offline, msg⟩ = offlineQueryHandler prg pb server msg)
    {q : OfflineQuery} (hTyped : q.Typed) (hKeys : q.offlineKeys.length ≤ nbrsets) (hShifts : q.shifts.length ≤ nbrsets)
    {reply : OfflineReply} (hReply : server.generateOfflineReplyFast prg q = .ok reply)
    (hHints : reply.hints.length ≤ nbrsets)
    (hNbrsets : reply.nbrsets < 2 ^ 32) :
    NetClient.offlineQueryBaseline pb queries handler link passes c q = (c.updateLocalHints reply).mapError .raised := by
  have hRequest := request_eq hTransport hLink (hTransport.fits.offlineQuery q hKeys hShifts)
    ((hHandler _).trans (offlineQueryHandler_serialize hTransport.messages_undo hTyped hReply))
    (hTransport.fits.offlineReply reply hHints)
  rw [NetClient.offlineQueryBaseline, hRequest, ok_bind,
    deserializeOfflineReply_serialize hTransport.messages_undo hNbrsets, ok_bind]

theorem onlineQuery_eq (hHandler : ∀ msg, handler ⟨.online, msg⟩ = onlineQueryHandler prg pb server msg)
    {q : OnlineQuery} (hTyped : q.Typed) (hKeys : q.keys.length ≤ 30) {reply : OnlineReply}
    (hReply : server.generateOnlineReply prg q = .ok reply) :
    NetClient.onlineQuery pb queries handler link passes c q = (c.recoverBlock reply).mapError .raised := by
  have hRequest := request_eq hTransport hLink (hTransport.fits.onlineQuery q .online hKeys)
    ((hHandler _).trans (onlineQueryHandler_serialize hTransport.messages_undo hTyped hReply))
    (hTransport.fits.onlineReply reply)
  rw [NetClient.onlineQuery, hRequest, ok_bind, deserializeOnlineReply_serialize hTransport.messages_undo, ok_bind]

theorem refreshQuery_eq (hHandler : ∀ msg, handler ⟨.refresh, msg⟩ = onlineQueryHandler prg pb server msg)
    {q : OnlineQuery} (hTyped : q.Typed) (hKeys : q.keys.length ≤ 30) (blk : Block) {reply : OnlineReply}
    (hReply : server.generateOnlineReply prg q = .ok reply) :
    NetClient.refreshQuery pb queries handler link passes c q blk =
      (c.storeHint (blk ^^^ reply.parity)).mapError .raised := by
  have hRequest := request_eq hTransport hLink (hTransport.fits.onlineQuery q .refresh hKeys)
    ((hHandler _).trans (onlineQueryHandler_serialize hTransport.messages_undo hTyped hReply))
    (hTransport.fits.onlineReply reply)
  rw [NetClient.refreshQuery, hRequest, ok_bind, deserializeOnlineReply_serialize hTransport.messages_undo, ok_bind]

end Simulation

end CkPir
