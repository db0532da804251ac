import IncPir.Net
import IncPir.Wire

/-! # Messages over connections (`net.hpp`, the accept loops of the servers)

A client opens one connection for each request, and an accept loop of the
server takes one connection after the other. However the sockets split what is
sent, an exchange over a connection is a call of the server's handler.
-/

namespace IncPir
open LoopM
set_option autoImplicit false

/-- How the sockets of one connection split what is sent over it. -/
structure Link where
  clientWrites : Nat → SocketCall
  serverReads : Nat → SocketCall
  serverWrites : Nat → SocketCall
  clientReads : Nat → SocketCall

structure Link.Reliable (link : Link) : Prop where
  clientWrites : IncPir.Reliable link.clientWrites
  serverReads : IncPir.Reliable link.serverReads
  serverWrites : IncPir.Reliable link.serverWrites
  clientReads : IncPir.Reliable link.clientReads

section Connection

/-- The client does not look at what `sendMsg` returns. -/
def sendQuery (link : Link) (passes : Nat) (queryStr : List UInt8) : Except SerialFault (List UInt8) := do
  let (_, w) ← (sendMsg link.clientWrites passes queryStr ⟨[], 0⟩).mapError .raised
  .ok w.outgoing

def handleQuery {Query : Type} (queries : MessageClass (List UInt8) Query)
    (handler : Query → Except SerialFault (List UInt8)) (recvMsg : List UInt8) : Except SerialFault (List UInt8) :=
  match queries.parseFromString recvMsg with
  | none => .error (.assertionFailed "parse query failed\n")
  | some query => handler query

/-- One pass of an accept loop: the bytes that it sends, or nothing where it receives no message and
leaves the connection open. -/
def servePass (handle : List UInt8 → Except SerialFault (List UInt8)) (link : Link) (passes : Nat)
    (incoming : List UInt8) : Except SerialFault (Option (List UInt8)) := do
  let (received, _) ← (recvMsg link.serverReads passes ⟨incoming, 0⟩).mapError .raised
  match received with
  | none => .ok none
  | some recvMsg => do
    let response ← handle recvMsg
    let (sent, w) ← (sendMsg link.serverWrites passes response ⟨[], 0⟩).mapError .raised
    if sent then .ok (some w.outgoing) else .error (.assertionFailed "")

def receiveResponse (link : Link) (passes : Nat) (incoming : List UInt8) : Except SerialFault (List UInt8) := do
  let (received, _) ← (recvMsg link.clientReads passes ⟨incoming, 0⟩).mapError .raised
  match received with
  | none => .error (.assertionFailed "")
  | some response => .ok response

/-- A message and its response, with the server's pass between. -/
def overConnection (handle : List UInt8 → Except SerialFault (List UInt8)) (link : Link) (passes : Nat)
    (message : List UInt8) : Except SerialFault (List UInt8) := do
  let incoming ← sendQuery link passes message
  let answer ← servePass handle link passes incoming
  receiveResponse link passes (answer.getD [])

end Connection

section Delivery

/-- The length of the message and its header is an `int`. -/
def Sendable (msg : List UInt8) : Prop := msg.length ≤ 2 ^ 31 - 5

def Delivers (reads : Nat → SocketCall) (passes : Nat) (incoming msg : List UInt8) : Prop :=
  ∃ s, recvMsg reads passes ⟨incoming, 0⟩ = .ok (some msg, s)

theorem mapError_ok {ε ε' α : Type} (f : ε → ε') (a : α) : (Except.ok a : Except ε α).mapError f = .ok a := rfl

/-- Both ends of a transfer: the writer returns `true`, and what it wrote is read as the message. -/
theorem sendMsg_delivers {writes reads : Nat → SocketCall} (hWrites : Reliable writes) (hReads : Reliable reads)
    {passes : Nat} (hPasses : 2 ^ 31 ≤ passes) {msg : List UInt8} (hMsg : Sendable msg) :
    ∃ w, sendMsg writes passes msg ⟨[], 0⟩ = .ok (true, w) ∧ Delivers reads passes w.outgoing msg := by
  have hLen : msg.length ≤ 2 ^ 31 - 5 := hMsg
  obtain ⟨w, hSend⟩ := sendMsg_returns hWrites (by omega : 4 + msg.length < 2 ^ 31) ⟨[], 0⟩
  have hSend := hSend passes (by omega)
  obtain ⟨sent, hSent, -, hRecv⟩ := recvMsg_sendMsg hReads hLen hSend
  obtain ⟨reads', hAll⟩ := hRecv [] 0
  refine ⟨w, hSend, ⟨[], reads'⟩, ?_⟩
  rw [hSent, List.nil_append]
  rw [List.append_nil] at hAll
  exact hAll passes (by omega)

variable {handle : List UInt8 → Except SerialFault (List UInt8)} {link : Link} (hLink : link.Reliable) {passes : Nat}
  (hPasses : 2 ^ 31 ≤ passes)
include hLink hPasses

theorem sendQuery_delivers {queryStr : List UInt8} (hMsg : Sendable queryStr) :
    ∃ incoming, sendQuery link passes queryStr = .ok incoming ∧
      Delivers link.serverReads passes incoming queryStr := by
  obtain ⟨w, hSend, hDelivers⟩ := sendMsg_delivers hLink.clientWrites hLink.serverReads hPasses hMsg
  refine ⟨w.outgoing, ?_, hDelivers⟩
  rw [sendQuery, hSend]
  rfl

theorem servePass_delivers {incoming message response : List UInt8}
    (hIncoming : Delivers link.serverReads passes incoming message) (hHandle : handle message = .ok response)
    (hMsg : Sendable response) :
    ∃ outgoing, servePass handle link passes incoming = .ok (some outgoing) ∧
      Delivers link.clientReads passes outgoing response := by
  obtain ⟨s, hRecv⟩ := hIncoming
  obtain ⟨w, hSend, hDelivers⟩ := sendMsg_delivers hLink.serverWrites hLink.clientReads hPasses hMsg
  refine ⟨w.outgoing, ?_, hDelivers⟩
  simp only [servePass, hRecv, mapError_ok, ok_bind, hHandle, hSend, if_true]

omit hLink hPasses in
theorem receiveResponse_eq {incoming response : List UInt8}
    (hIncoming : Delivers link.clientReads passes incoming response) :
    receiveResponse link passes incoming = .ok response := by
  obtain ⟨s, hRecv⟩ := hIncoming
  simp only [receiveResponse, hRecv, mapError_ok, ok_bind]

/-- However the sockets split the two messages, an exchange is a call of the handler. -/
theorem overConnection_eq {message response : List UInt8} (hMessage : Sendable message)
    (hHandle : handle message = .ok response) (hResponse : Sendable response) :
    overConnection handle link passes message = .ok response := by
  obtain ⟨incoming, hSend, hIncoming⟩ := sendQuery_delivers hLink hPasses hMessage
  obtain ⟨outgoing, hServe, hOutgoing⟩ := servePass_delivers hLink hPasses hIncoming hHandle hResponse
  simp only [overConnection, hSend, ok_bind, hServe, Option.getD_some, receiveResponse_eq hOutgoing]

omit hLink hPasses in
theorem handleQuery_serialize {Query : Type} {queries : MessageClass (List UInt8) Query} (hQueries : queries.Undoes)
    (handler : Query → Except SerialFault (List UInt8)) (query : Query) :
    handleQuery queries handler (queries.serializeToString query) = handler query := by
  rw [handleQuery, hQueries]

end Delivery

def piecesLink : Link := ⟨growingPieces, equalPieces, growingPieces, equalPieces⟩

theorem piecesLink_reliable : piecesLink.Reliable where
  clientWrites k := ⟨k + 1, Nat.succ_pos k, rfl⟩
  serverReads := equalPieces_reliable
  serverWrites k := ⟨k + 1, Nat.succ_pos k, rfl⟩
  clientReads := equalPieces_reliable

end IncPir
