import IncPir.Dpf.DataStore
import IncPir.Dpf.FullDomain
import IncPir.Dpf.Serial

/-! # A retrieval (`baselines/dpf-pir/serial.hpp`, `test.cpp`, `net_client.cpp`, `net_server.cpp`)

The client makes two keys for an index, each server answers with the exclusive
or of the items that its key selects, and the client adds the two answers.
-/

namespace DpfPir
set_option autoImplicit false

open LoopM XorFold

variable (isa : AesInstructions)

/-- `_mm256_storeu_si256` into a vector of eight words, as in `hash_uint32`. -/
def itemWords (v : Item) : List UInt32 := (Digits.digits 32 8 v).map UInt32.ofBitVec

def uint32ToHash (words : List UInt32) : Except Fault Item :=
  if words.length = 8 then .ok (Digits.ofDigits 256 (words.map UInt32.toBitVec)) else .error .assertionFailed

structure PIRServer where
  lgn : Nat
  database : List Item

/-- The answer is computed 62 times to reach the size of the items elsewhere. -/
def PIRServer.generateReply (server : PIRServer) (query : List UInt8) : Except Fault (List UInt32) := do
  let eval ← evalFull8 isa query server.lgn
  (List.range 62).foldlM (fun reply _ => do
    let answer ← answerPir2 server.database eval
    return reply ++ itemWords answer) []

def PIRServer.generateLeftReply (server : PIRServer) (leftQuery : List UInt8) : Except Fault (List UInt32) :=
  server.generateReply isa leftQuery

def PIRServer.generateRightReply (server : PIRServer) (rightQuery : List UInt8) : Except Fault (List UInt32) :=
  server.generateReply isa rightQuery

/-- The parameter is an `int`, which `Gen` takes as a `size_t`. -/
def generateQuery (lgn : Nat) (idx : Int) : Except Fault ClientQuery := do
  let (leftQuery, rightQuery) ← gen isa (idx % 2 ^ 64).toNat lgn
  return ⟨leftQuery, rightQuery⟩

structure ReplyMessage where
  v : List UInt32
deriving DecidableEq

structure ReplyProtobuf (Wire : Type) where
  serializeToString : ReplyMessage → Wire
  parseFromString : Wire → Option ReplyMessage

section Codec
variable {Wire : Type} (pb : ReplyProtobuf Wire)

def serializeReply (l r : List UInt32) : Wire := pb.serializeToString ⟨l ++ r⟩

def deserializeReply (msg : Wire) : Except Fault (List UInt32 × List UInt32) :=
  match pb.parseFromString msg with
  | none => .error .assertionFailed
  | some reply =>
    if reply.v.length % 2 = 0 then .ok (reply.v.take (reply.v.length / 2), reply.v.drop (reply.v.length / 2))
    else .error .assertionFailed

theorem deserializeReply_serializeReply (hParse : ∀ m, pb.parseFromString (pb.serializeToString m) = some m)
    {l r : List UInt32} (hLen : l.length = r.length) : deserializeReply pb (serializeReply pb l r) = .ok (l, r) := by
  have hHalf : (l ++ r).length / 2 = l.length := by
    rw [List.length_append]
    omega
  have hEven : (l ++ r).length % 2 = 0 := by
    rw [List.length_append]
    omega
  simp only [deserializeReply, serializeReply, hParse, hEven, if_true, hHalf, List.take_left, List.drop_left]

open WireFields in
/-- The unpacked encoding of the repeated field. -/
def replyWireFormat : ReplyProtobuf (List UInt8) where
  serializeToString m := writeFields (m.v.map fun v => (1, v.toNat))
  parseFromString bytes := do
    let fields ← parse bytes
    some ⟨(fields.filter fun field => field.1 == 1).map fun field => UInt32.ofNat field.2⟩

theorem replyWireFormat_parse (m : ReplyMessage) :
    replyWireFormat.parseFromString (replyWireFormat.serializeToString m) = some m := by
  simp [replyWireFormat, WireFields.parse_writeFields, List.filter_map, Function.comp_def]

end Codec

def recoverItem (l r : List UInt32) : Except Fault Item := do
  if l.length < 8 ∨ r.length < 8 then throw .outOfBounds
  let leftHashReply ← uint32ToHash (l.take 8)
  let rightHashReply ← uint32ToHash (r.take 8)
  return leftHashReply ^^^ rightHashReply

/-- `test_baseline`: keys, evaluations and answers without any message. -/
def testBaseline (lgn : Nat) (database : List Item) (idx : Nat) : Except Fault Item := do
  let (a, b) ← gen isa idx lgn
  let aaaa ← evalFull8 isa a lgn
  let bbbb ← evalFull8 isa b lgn
  let answerA ← answerPir2 database aaaa
  let answerB ← answerPir2 database bbbb
  return answerA ^^^ answerB

section Network
variable {Wire ReplyWire : Type} (pb : Protobuf Wire) (replyPb : ReplyProtobuf ReplyWire)

def onlineHandler (server : PIRServer) (recvMsg : Wire) : Except Fault ReplyWire := do
  let query ← match deserializeQuery pb recvMsg with
    | some query => Except.ok query
    | none => .error .assertionFailed
  let leftReply ← server.generateLeftReply isa query.leftQuery
  let rightReply ← server.generateRightReply isa query.rightQuery
  return serializeReply replyPb leftReply rightReply

/-- A query of a client over the network, and what the replies amount to. -/
def onlineQuery (server : PIRServer) (lgn : Nat) (idx : Int) : Except Fault Item := do
  let onlineQry ← generateQuery isa lgn idx
  let response ← onlineHandler isa pb replyPb server (serializeQuery pb onlineQry)
  let (l, r) ← deserializeReply replyPb response
  recoverItem l r

/-- The test program: as above, with an assertion that the query came through unchanged. -/
def testRound (server : PIRServer) (lgn : Nat) (idx : Int) : Except Fault Item := do
  let query ← generateQuery isa lgn idx
  let query1 ← match deserializeQuery pb (serializeQuery pb query) with
    | some query1 => Except.ok query1
    | none => .error .assertionFailed
  if query ≠ query1 then throw .assertionFailed
  let leftReply ← server.generateLeftReply isa query1.leftQuery
  let rightReply ← server.generateRightReply isa query1.rightQuery
  let (l, r) ← deserializeReply replyPb (serializeReply replyPb leftReply rightReply)
  recoverItem l r

end Network

section Replies

@[simp] theorem length_itemWords (v : Item) : (itemWords v).length = 8 := by simp [itemWords]

theorem uint32ToHash_itemWords (v : Item) : uint32ToHash (itemWords v) = .ok v := by
  have hWords : (itemWords v).map UInt32.toBitVec = Digits.digits 32 8 v := by
    rw [itemWords, List.map_map]
    exact List.map_id _
  rw [uint32ToHash, if_pos (length_itemWords v), hWords, Digits.ofDigits_digits (by decide) (by decide)]

/-- What a server answers to a key: the words of the selection, 62 times. -/
def replyWords (v : Item) : List UInt32 := (List.replicate 62 (itemWords v)).flatten

theorem length_replyWords (v : Item) : (replyWords v).length = 496 := by simp [replyWords]

theorem recoverItem_replyWords (a b : Item) : recoverItem (replyWords a) (replyWords b) = .ok (a ^^^ b) := by
  have hFirst (v : Item) : (replyWords v).take 8 = itemWords v := by
    rw [replyWords, List.replicate_succ, List.flatten_cons, List.take_left' (length_itemWords v)]
  have hLong : ¬ ((replyWords a).length < 8 ∨ (replyWords b).length < 8) := by simp [length_replyWords]
  simp only [recoverItem, hLong, if_false, hFirst, uint32ToHash_itemWords, ok_bind]
  rfl

theorem foldl_append_const {α : Type} (part : List α) (n : Nat) (start : List α) :
    (List.range n).foldl (fun acc _ => acc ++ part) start = start ++ (List.replicate n part).flatten := by
  induction n with
  | zero => simp
  | succ n ih => simp [List.range_succ, ih, List.replicate_succ', List.append_assoc]

theorem half_pow {lgn : Nat} (hLow : 10 ≤ lgn) : 2 ^ lgn = 8 * (16 * 2 ^ (lgn - 7)) := by
  have hExponent : lgn = 3 + (4 + (lgn - 7)) := by omega
  conv_lhs => rw [hExponent, Nat.pow_add, Nat.pow_add]

/-- A server with `2 ^ lgn` items answers every key that the lanes can evaluate. -/
theorem generateReply_eq {server : PIRServer} (hLow : 10 ≤ server.lgn) (hHigh : server.lgn ≤ 63)
    (hSize : server.database.length = 2 ^ server.lgn) {key : List UInt8} {view : KeyView} (hHolds : Holds key view)
    (hWords : ∀ w ∈ view.levels, w.IsBits) (hLen : view.levels.length = stopLevel server.lgn) :
    server.generateReply isa key = .ok (replyWords (selected server.database (view.bytes isa))) := by
  have hPow := half_pow hLow
  have hStop : stopLevel server.lgn = server.lgn - 7 := if_pos (by omega)
  have hGroups : server.database.length % 8 = 0 := by omega
  have hIndexing : server.database.length / 8 ≤ (view.bytes isa).length := by
    rw [length_bytes, hLen, hStop]
    omega
  have hPass : (List.range 62).foldlM (fun (reply : List UInt32) _ => do
      let answer ← answerPir2 server.database (view.bytes isa)
      return reply ++ itemWords answer) [] =
      .ok ((List.range 62).foldl
        (fun reply _ => reply ++ itemWords (selected server.database (view.bytes isa))) []) := by
    apply foldlM_eq_ok_of_forall
    intro reply _ _
    rw [answerPir2_eq hGroups hIndexing]
    rfl
  rw [PIRServer.generateReply, evalFull8_eq_bytes isa hHolds hWords hLow hHigh hLen, ok_bind, hPass, foldl_append_const]
  rfl

theorem selected_xor (database : List Item) (a b : List UInt8) :
    selected database a ^^^ selected database b =
      xorOver (fun i => if dataBit a i ^^ dataBit b i then database.getD i 0#256 else 0#256)
        (List.range database.length) := by
  rw [selected, selected, ← xorOver_xor]
  apply xorOver_congr
  intro i _
  cases dataBit a i <;> cases dataBit b i <;> simp

end Replies

section Rounds
variable {alpha lgn : Nat} {database : List Item}

/-- The exclusive or of the two selections of a pair of keys that end in the word `last`. -/
theorem selected_keys (hAlpha : alpha < 2 ^ lgn) (hSize : database.length = 2 ^ lgn) (last : Block) :
    selected database (((keyView isa alpha lgn 0).withLast last).bytes isa) ^^^
        selected database (((keyView isa alpha lgn 1).withLast last).bytes isa) =
      xorOver (fun i => if i / 128 = alpha / 128 ∧
          (pointBlock alpha ^^^ ((keyView isa alpha lgn 0).last ^^^ last)).getLsbD (i % 128) then
        database.getD i 0#256 else 0#256) (List.range database.length) := by
  rw [selected_xor]
  apply xorOver_congr
  intro i hi
  have hIndex : i < 2 ^ lgn := hSize ▸ List.mem_range.mp hi
  have hLeaf (party : Nat) : i / 128 < 2 ^ ((keyView isa alpha lgn party).withLast last).levels.length := by
    simpa [KeyView.withLast, length_keyView] using leaf_lt hIndex
  rw [dataBit_bytes isa _ (hLeaf 0), dataBit_bytes isa _ (hLeaf 1), bit_xor_last isa hAlpha hIndex]
  simp only [Bool.and_eq_true, decide_eq_true_eq]

theorem selected_point (hAlpha : alpha < 2 ^ lgn) (hSize : database.length = 2 ^ lgn) :
    selected database ((keyView isa alpha lgn 0).bytes isa) ^^^
        selected database ((keyView isa alpha lgn 1).bytes isa) = database.getD alpha 0#256 := by
  refine (selected_keys isa hAlpha hSize (keyView isa alpha lgn 0).last).trans ?_
  rw [BitVec.xor_self, BitVec.xor_zero]
  have hPoint : xorOver (fun i => if i / 128 = alpha / 128 ∧ (pointBlock alpha).getLsbD (i % 128) then
      database.getD i 0#256 else 0#256) (List.range database.length) =
      xorOver (fun i => if i = alpha then database.getD i 0#256 else 0#256) (List.range database.length) := by
    apply xorOver_congr
    intro i _
    rw [getLsbD_pointBlock alpha (Nat.mod_lt _ (by decide))]
    have hSame : (i / 128 = alpha / 128 ∧ decide (i % 128 = alpha % 128) = true) ↔ i = alpha := by
      rw [decide_eq_true_eq]
      omega
    simp only [hSame]
  rw [hPoint, xorOver_single _ List.nodup_range (List.mem_range.mpr (hSize ▸ hAlpha))]

/-- Keys, full evaluations and answers give the item at the index. -/
theorem testBaseline_eq (hLow : 10 ≤ lgn) (hHigh : lgn ≤ 31) (hAlpha : alpha < 2 ^ lgn)
    (hSize : database.length = 2 ^ lgn) : testBaseline isa lgn database alpha = .ok (database.getD alpha 0#256) := by
  have hPow := half_pow hLow
  have hStop : stopLevel lgn = lgn - 7 := if_pos (by omega)
  have hAnswer (party : Nat) : answerPir2 database ((keyView isa alpha lgn party).bytes isa) =
      .ok (selected database ((keyView isa alpha lgn party).bytes isa)) := by
    apply answerPir2_eq (by omega)
    rw [length_bytes, length_keyView, hStop]
    omega
  simp only [testBaseline, gen_eq isa hHigh hAlpha, ok_bind, evalFull8_key isa hLow (show lgn ≤ 63 by omega), hAnswer,
    ← selected_point isa hAlpha hSize]
  rfl

theorem testBaseline_eq_ten : testBaseline aesNi 10 ((List.range (2 ^ 10)).map fun i => BitVec.ofNat 256 i) 700 =
    .ok (((List.range (2 ^ 10)).map fun i => BitVec.ofNat 256 i).getD 700 0#256) :=
  testBaseline_eq aesNi (by decide) (by decide) (by decide) (by simp)

end Rounds

end DpfPir
