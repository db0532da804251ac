import IncPir.Serial
import IncPir.Preparation

/-! # The request handlers (`net_server.cpp`)

Nothing relates the lengths and values of a request to the parameters of the
server before they are used. What keeps a handler in bounds is a condition on
the request.
-/

namespace IncPir
open LoopM
set_option autoImplicit false

section Handlers
variable {Wire : Type} (aes : Aes) (pb : Protobuf Wire) (server : PIRServer)

def offlineQueryHandler (queryStr : Wire) : Except SerialFault Wire := do
  let offlineQry ← deserializeOfflineQuery pb queryStr
  let offlineReply ← (server.generateOfflineReply aes offlineQry).mapError .raised
  .ok (serializeOfflineReply pb offlineReply)

def onlineQueryHandler (queryStr : Wire) : Except SerialFault Wire := do
  let onlineQry ← deserializeOnlineQuery pb queryStr
  let onlineReply ← (server.generateOnlineReply onlineQry).mapError .raised
  .ok (serializeOnlineReply pb onlineReply)

def addQueryHandler (queryStr : Wire) : Except SerialFault Wire := do
  let offlineAddQry ← deserializeOfflineAddQuery pb queryStr
  let offlineAddReply ← (server.batchedAdditionReply aes offlineAddQry).mapError .raised
  .ok (serializeOfflineReply pb offlineAddReply)

end Handlers

section Decoded

theorem elemAt_of_lt {α : Type} {l : List α} {i : Nat} (h : i < l.length) (other : α) :
    elemAt l i = .ok (l.getD i other) := by
  rw [List.getD_eq_getElem _ _ h]
  exact elemAt_of_getElem? (List.getElem?_eq_getElem h)

theorem elemAt_of_ge {α : Type} {l : List α} {i : Nat} (h : l.length ≤ i) : elemAt l i = .error .outOfRange := by
  rw [elemAt, List.getElem?_eq_none h]

end Decoded

section Walks
variable (aes : Aes) {db : Database} {range : Nat}

end Walks

section Offline
variable (aes : Aes) {server : PIRServer} (hType : server.dbrange < 2 ^ 32)
  (hDb : server.db.length = server.dbrange)
include hType hDb

end Offline

section Online

theorem generateOnlineReply_avoids_iff {server : PIRServer} (hDb : server.db.length = server.dbrange)
    (indices : List Nat) :
    Avoids .outOfRange (server.generateOnlineReply ⟨indices⟩) ↔ ∀ i ∈ indices, i < server.dbrange := by
  have hLoop : ∀ parity : Block, Avoids .outOfRange (indices.foldlM (fun parity i => do
      let blk ← elemAt server.db i
      .ok (parity ^^^ blk) : Block → Nat → Except Fault Block) parity) ↔ ∀ i ∈ indices, i < server.dbrange := by
    induction indices with
    | nil => exact fun parity => iff_of_true (avoids_ok _) fun i hi => absurd hi List.not_mem_nil
    | cons i rest ih =>
      intro parity
      rw [List.foldlM_cons, List.forall_mem_cons]
      rcases Nat.lt_or_ge i server.dbrange with hi | hi
      · rw [elemAt_of_lt (hDb ▸ hi) 0, ok_bind, ok_bind, ih]
        exact (and_iff_right hi).symm
      · rw [elemAt_of_ge (hDb ▸ hi)]
        exact iff_of_false (fun hAvoids => hAvoids rfl) fun hAll => absurd hAll.1 (Nat.not_lt_of_le hi)
  exact (avoids_bind_ok_iff _ OnlineReply.mk).trans (hLoop 0)

end Online

section Addition

variable (aes : Aes) {db : Database} (hDb : db.length < 2 ^ 32) (mk : Key) (d : DiffSetDesc)
include hDb

end Addition

section Requests
variable {Wire Msg Q R : Type} {cls : MessageClass Wire Msg} {output : String} {read : Msg → Except Fault Q}
  {reply : Q → Except Fault R} {write : R → Wire} {queryStr : Wire} {m : Msg}

end Requests

section Messages
variable {Wire : Type} (aes : Aes) {pb : Protobuf Wire} {server : PIRServer} {queryStr : Wire}

variable (hType : server.dbrange < 2 ^ 32) (hDb : server.db.length = server.dbrange)
include hType hDb

end Messages

end IncPir
