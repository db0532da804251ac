import IncPir.Dpf.WireRound
import IncPir.Threads

/-! # Retrievals under load (`baselines/dpf-pir/net_client.cpp`, `net_server.cpp`)

The server takes as many connections as the load has clients, and then stops.
Every client makes its keys before the first thread starts; its thread sends
them and keeps the two replies.
-/

namespace DpfPir
open IncPir (SerialFault Link Sendable Service Thread Answerable AllServed Shared overConnection started_served mapError_ok
  piecesLink piecesLink_reliable)
open LoopM Interleaving
set_option autoImplicit false

/-- Whatever a fault is, the process ends there. -/
def stopped (_ : Fault) : SerialFault := .assertionFailed ""

section Load
variable (isa : AesInstructions) (pb : Protobuf (List UInt8)) (replyPb : ReplyProtobuf (List UInt8)) (server : PIRServer)

def NetClient.onlineQuery (handle : List UInt8 → Except SerialFault (List UInt8)) (link : Link) (passes : Nat)
    (onlineQry : ClientQuery) : Except SerialFault (List UInt32 × List UInt32) := do
  let response ← overConnection handle link passes (serializeQuery pb onlineQry)
  (deserializeReply replyPb response).mapError stopped

def replyService : Service Unit Nat (List UInt32 × List UInt32) where
  handle recvMsg := (onlineHandler isa pb replyPb server recvMsg).mapError stopped
  finish _ _ response := Except.map (fun replies => ((), replies)) ((deserializeReply replyPb response).mapError stopped)

/-- The index that a client asks for, and its connection. -/
structure QueryStart where
  idx : Nat
  link : Link

def queryThread (start : QueryStart) (onlineQry : ClientQuery) : Thread Nat (List UInt32 × List UInt32) :=
  ⟨start.idx, serializeQuery pb onlineQry, start.link, .ready⟩

theorem queryThread_alone (passes : Nat) (start : QueryStart) (onlineQry : ClientQuery) :
    (queryThread pb start onlineQry).alone (replyService isa pb replyPb server) passes () =
      (NetClient.onlineQuery pb replyPb (replyService isa pb replyPb server).handle start.link passes onlineQry).map
        fun replies => ((), replies) :=
  (map_bind (fun replies => ((), replies)) _ _).symm

/-- What the messages of a load rely on. -/
structure Transport (passes : Nat) : Prop where
  query_undoes : ∀ m, pb.parseFromString (pb.serializeToString m) = some m
  reply_undoes : ∀ m, replyPb.parseFromString (replyPb.serializeToString m) = some m
  query_fits : ∀ q : ClientQuery, q.leftQuery.length ≤ 465 → q.rightQuery.length ≤ 465 → Sendable (serializeQuery pb q)
  reply_fits : ∀ l r : List UInt32, l.length ≤ 496 → r.length ≤ 496 → Sendable (serializeReply replyPb l r)
  passes_ge : 2 ^ 31 ≤ passes

end Load

section Sizes
open WireFields

theorem length_packWords (bytes : List UInt8) : (packWords bytes).length = bytes.length / 4 + 1 := by simp [packWords]

theorem length_wordFields (field : Nat) (hField : field < 16) (words : List UInt32) :
    (writeFields (words.map fun v => (field, v.toNat))).length ≤ words.length * 6 := by
  have hBound := @length_writeFields_le (words.map fun v => (field, v.toNat)) 4 (by
    intro entry hEntry
    obtain ⟨v, -, rfl⟩ := List.mem_map.mp hEntry
    exact ⟨hField, v.toNat_lt.trans (by decide)⟩)
  rwa [List.length_map] at hBound

theorem wireTransport : Transport wireFormat replyWireFormat (2 ^ 31) where
  query_undoes := wireFormat_parse
  reply_undoes := replyWireFormat_parse
  query_fits := by
    intro q hLeft hRight
    have hLeftWords := length_wordFields 1 (by decide) (packWords q.leftQuery)
    have hRightWords := length_wordFields 2 (by decide) (packWords q.rightQuery)
    rw [length_packWords] at hLeftWords hRightWords
    simp only [Sendable, serializeQuery, wireFormat, length_writeFields_append]
    omega
  reply_fits := by
    intro l r hLeft hRight
    have hWords := length_wordFields 1 (by decide) (l ++ r)
    rw [List.length_append] at hWords
    simp only [Sendable, serializeReply, replyWireFormat]
    omega
  passes_ge := Nat.le_refl _

end Sizes

section Evaluation
variable (isa : AesInstructions) {pb : Protobuf (List UInt8)} {replyPb : ReplyProtobuf (List UInt8)}
  {server : PIRServer} {passes : Nat} (hTransport : Transport pb replyPb passes) (hLow : 10 ≤ server.lgn)
  (hHigh : server.lgn ≤ 31) (hSize : server.database.length = 2 ^ server.lgn)
include hTransport hLow hHigh hSize

end Evaluation

end DpfPir
