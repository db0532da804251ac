import IncPir.Ck.Client
import IncPir.Dpf.Serial
import IncPir.Wire

/-! # Serialization of the baseline (`baselines/ck-pir/src/serial.hpp`)

The keys of an offline query travel as words of four bytes, most significant
byte first, those of an online query as single bytes. The decoders recover the
number of keys from the size of the field.
-/

namespace CkPir
open IncPir (Key KeyLen Block Fault SerialFault elemAt elemAt_of_getElem? MessageClass readParsed
  readParsed_serialize blockWords readBlock readBlock_blockWords readBlocks readBlocks_flatMap keyValues
  length_keyValues getElem?_keyValues readKey readKey_eq words32 words64 readWords32 readWords64 readRequired)
open DpfPir (pushByte wordBytes wordBytes_pushByte)
open LoopM BitWords
set_option autoImplicit false

namespace Interface

structure OnlineReply where
  reply : List UInt64

structure OfflineReply where
  nbrsets : UInt32
  hints : List UInt64

structure OnlineQuery where
  height : UInt32
  bitvec : UInt32
  keys : List UInt32
  shifts : UInt32

structure OfflineQuery where
  nbrsets : UInt32
  setsize : UInt32
  offlineKeys : List UInt32
  shifts : List UInt32

end Interface

/-- The generated classes of the four messages. -/
structure Protobuf (Wire : Type) where
  onlineReply : MessageClass Wire Interface.OnlineReply
  offlineReply : MessageClass Wire Interface.OfflineReply
  onlineQuery : MessageClass Wire Interface.OnlineQuery
  offlineQuery : MessageClass Wire Interface.OfflineQuery

/-- What the codecs rely on: parsing undoes serializing, message by message. -/
structure Protobuf.Undoes {Wire : Type} (pb : Protobuf Wire) : Prop where
  onlineReply : pb.onlineReply.Undoes
  offlineReply : pb.offlineReply.Undoes
  onlineQuery : pb.onlineQuery.Undoes
  offlineQuery : pb.offlineQuery.Undoes

section Words

/-- Four bytes of a key in one word, the first byte highest. -/
def keyWord (key : Key) (j : Nat) : UInt32 :=
  (List.range 4).foldl (fun tmp b => pushByte tmp (key.toList.getD (4 * j + b) 0)) 0

def keyWords (key : Key) : List UInt32 := (List.range (KeyLen / 4)).map (keyWord key)

def readWordKey (words : List UInt32) (first : Nat) : Except Fault Key := do
  let bytes ← (List.range (KeyLen / 4)).mapM fun j => do
    let tmp ← elemAt words (first + j)
    .ok (wordBytes tmp)
  .ok (Vector.ofFn fun i => bytes.flatten.getD i 0)

/-- `offline_keys_size()*4 / KeyLen`. As in `packWord` an int has no bound: its overflow is undefined, and
compilers fold this quotient to a quarter of the size. -/
def keyCount (size : Nat) : Nat := size * 4 / KeyLen

end Words

section Codecs
variable {Wire : Type} (pb : Protobuf Wire)

def serializeOnlineReply (reply : OnlineReply) : Wire := pb.onlineReply.serializeToString ⟨blockWords reply.parity⟩

def deserializeOnlineReply (msg : Wire) : Except SerialFault OnlineReply :=
  readParsed pb.onlineReply "deserialize online reply failed\n" (fun r => do
    let parity ← readBlock r.reply 0
    .ok ⟨parity⟩) msg

def serializeOfflineReply (reply : OfflineReply) : Wire :=
  pb.offlineReply.serializeToString ⟨UInt32.ofNat reply.nbrsets, reply.hints.flatMap blockWords⟩

def deserializeOfflineReply (msg : Wire) : Except SerialFault OfflineReply :=
  readParsed pb.offlineReply "deserialize offline reply failed\n" (fun r => do
    let hints ← readBlocks r.hints
    .ok ⟨r.nbrsets.toNat, hints⟩) msg

def serializeOnlineQuery (q : OnlineQuery) : Wire :=
  pb.onlineQuery.serializeToString
    ⟨UInt32.ofNat q.height, UInt32.ofNat q.bitvec, q.keys.flatMap keyValues, UInt32.ofNat q.shift⟩

def deserializeOnlineQuery (msg : Wire) : Except SerialFault OnlineQuery :=
  readParsed pb.onlineQuery "deserialize online query failed\n" (fun query => do
    let keys ← (List.range (query.keys.length / KeyLen)).mapM fun i => readKey query.keys (i * KeyLen)
    .ok ⟨query.height.toNat, query.bitvec.toNat, keys, query.shifts.toNat⟩) msg

def serializeOfflineQuery (q : OfflineQuery) : Wire :=
  pb.offlineQuery.serializeToString
    ⟨UInt32.ofNat q.nbrsets, UInt32.ofNat q.setsize, q.offlineKeys.flatMap keyWords, q.shifts.map UInt32.ofNat⟩

def deserializeOfflineQuery (msg : Wire) : Except SerialFault OfflineQuery :=
  readParsed pb.offlineQuery "deserialize offline query failed\n" (fun query => do
    let offlineKeys ← (List.range (keyCount query.offlineKeys.length)).mapM fun i =>
      readWordKey query.offlineKeys (i * (KeyLen / 4))
    .ok ⟨query.nbrsets.toNat, query.setsize.toNat, offlineKeys, query.shifts.map UInt32.toNat⟩) msg

end Codecs

section Keys

theorem length_keyWords (key : Key) : (keyWords key).length = KeyLen / 4 := by
  rw [keyWords, List.length_map, List.length_range]

theorem wordBytes_keyWord (key : Key) (j : Nat) :
    wordBytes (keyWord key j) = (List.range 4).map fun b => key.toList.getD (4 * j + b) 0 :=
  wordBytes_pushByte _ _ _ _

theorem flatten_keyBytes (key : Key) :
    ((List.range (KeyLen / 4)).map fun j => wordBytes (keyWord key j)).flatten = key.toList := by
  have hBytes : ((List.range (KeyLen / 4)).map fun j => wordBytes (keyWord key j)).flatten =
      (List.range KeyLen).map fun i => key.toList.getD i 0 := by
    simp only [wordBytes_keyWord]
    rfl
  rw [hBytes]
  apply List.ext_getElem
  · simp
  · intro i hi hi'
    have hi'' : i < KeyLen := by simpa using hi'
    simp [hi'']

theorem readWordKey_eq {words : List UInt32} {first : Nat} {key : Key}
    (h : ∀ j < KeyLen / 4, words[first + j]? = some (keyWord key j)) : readWordKey words first = .ok key := by
  have hLoop : (List.range (KeyLen / 4)).mapM (fun j => do
      let tmp ← elemAt words (first + j)
      .ok (wordBytes tmp)) =
        (.ok ((List.range (KeyLen / 4)).map fun j => wordBytes (keyWord key j)) : Except Fault _) := by
    apply mapM_range_eq_ok
    intro j hj
    rw [elemAt_of_getElem? (h j hj), ok_bind]
  rw [readWordKey, hLoop, ok_bind, flatten_keyBytes]
  apply congrArg Except.ok
  ext i hi
  simp

theorem keyCount_words (n : Nat) : keyCount (n * (KeyLen / 4)) = n := by
  have hLength : KeyLen = 16 := rfl
  rw [keyCount, hLength]
  omega

end Keys

section RoundTrip

/-- The numbers of a query are values of their C++ types; likewise below. -/
structure OnlineQuery.Typed (q : OnlineQuery) : Prop where
  height : q.height < 2 ^ 31
  bitvec : q.bitvec < 2 ^ 32
  shift : q.shift < 2 ^ 32

structure OfflineQuery.Typed (q : OfflineQuery) : Prop where
  nbrsets : q.nbrsets < 2 ^ 32
  setsize : q.setsize < 2 ^ 32
  shifts : ∀ s ∈ q.shifts, s < 2 ^ 32

theorem readKeys_flatMap (keys : List Key) :
    (List.range ((keys.flatMap keyValues).length / KeyLen)).mapM (fun i =>
      readKey (keys.flatMap keyValues) (i * KeyLen)) = .ok keys := by
  have hLength : ∀ key ∈ keys, (keyValues key).length = KeyLen := fun key _ => length_keyValues key
  have hLoop : (List.range keys.length).mapM (fun i => readKey (keys.flatMap keyValues) (i * KeyLen)) =
      .ok (keys.map id) := by
    apply mapM_range_eq_map
    intro i hi
    apply readKey_eq
    intro j hj
    rw [getElem?_flatMap_const hLength (List.getElem?_eq_getElem hi) hj]
    exact getElem?_keyValues _ hj
  rw [length_flatMap_div hLength (by decide), hLoop, List.map_id]

theorem readWordKeys_flatMap (keys : List Key) :
    (List.range keys.length).mapM (fun i => readWordKey (keys.flatMap keyWords) (i * (KeyLen / 4))) = .ok keys := by
  have hLength : ∀ key ∈ keys, (keyWords key).length = KeyLen / 4 := fun key _ => length_keyWords key
  have hLoop : (List.range keys.length).mapM (fun i =>
      readWordKey (keys.flatMap keyWords) (i * (KeyLen / 4))) = .ok (keys.map id) := by
    apply mapM_range_eq_map
    intro i hi
    apply readWordKey_eq
    intro j hj
    rw [getElem?_flatMap_const hLength (List.getElem?_eq_getElem hi) hj, keyWords, List.getElem?_map,
      List.getElem?_range hj]
    rfl
  rw [hLoop, List.map_id]

variable {Wire : Type} {pb : Protobuf Wire} (hParse : pb.Undoes)
include hParse

theorem deserializeOnlineReply_serialize (x : OnlineReply) :
    deserializeOnlineReply pb (serializeOnlineReply pb x) = .ok x := by
  apply readParsed_serialize hParse.onlineReply
  dsimp only
  rw [readBlock_blockWords, ok_bind]

theorem deserializeOfflineReply_serialize {x : OfflineReply} (h : x.nbrsets < 2 ^ 32) :
    deserializeOfflineReply pb (serializeOfflineReply pb x) = .ok x := by
  apply readParsed_serialize hParse.offlineReply
  dsimp only
  rw [readBlocks_flatMap, ok_bind, UInt32.toNat_ofNat_of_lt' h]

theorem deserializeOnlineQuery_serialize {x : OnlineQuery} (h : x.Typed) :
    deserializeOnlineQuery pb (serializeOnlineQuery pb x) = .ok x := by
  have hHeight : x.height < 2 ^ 32 := h.height.trans (by decide)
  apply readParsed_serialize hParse.onlineQuery
  dsimp only
  rw [readKeys_flatMap, ok_bind, UInt32.toNat_ofNat_of_lt' hHeight, UInt32.toNat_ofNat_of_lt' h.bitvec,
    UInt32.toNat_ofNat_of_lt' h.shift]

theorem deserializeOfflineQuery_serialize {x : OfflineQuery} (h : x.Typed) :
    deserializeOfflineQuery pb (serializeOfflineQuery pb x) = .ok x := by
  have hLength : (x.offlineKeys.flatMap keyWords).length = x.offlineKeys.length * (KeyLen / 4) :=
    length_flatMap_const fun key _ => length_keyWords key
  have hShifts : (x.shifts.map UInt32.ofNat).map UInt32.toNat = x.shifts := by
    rw [List.map_map]
    exact (List.map_congr_left fun s hs => UInt32.toNat_ofNat_of_lt' (h.shifts s hs)).trans (List.map_id _)
  apply readParsed_serialize hParse.offlineQuery
  dsimp only
  rw [hLength, keyCount_words, readWordKeys_flatMap, ok_bind, hShifts, UInt32.toNat_ofNat_of_lt' h.nbrsets,
    UInt32.toNat_ofNat_of_lt' h.setsize]

/-- Every message comes back unchanged, with any number of keys, shifts and hints. -/
theorem messages_roundTrip :
    (∀ x, deserializeOnlineReply pb (serializeOnlineReply pb x) = .ok x) ∧
      (∀ x : OfflineReply, x.nbrsets < 2 ^ 32 →
        deserializeOfflineReply pb (serializeOfflineReply pb x) = .ok x) ∧
      (∀ x : OnlineQuery, x.Typed → deserializeOnlineQuery pb (serializeOnlineQuery pb x) = .ok x) ∧
      ∀ x : OfflineQuery, x.Typed → deserializeOfflineQuery pb (serializeOfflineQuery pb x) = .ok x :=
  ⟨deserializeOnlineReply_serialize hParse, fun _ h => deserializeOfflineReply_serialize hParse h,
    fun _ h => deserializeOnlineQuery_serialize hParse h, fun _ h => deserializeOfflineQuery_serialize hParse h⟩

end RoundTrip

section WireFormat
open WireFields

def wireFormat : Protobuf (List UInt8) where
  onlineReply := {
    serializeToString m := writeRecords (words64 1 m.reply)
    parseFromString bytes := (parseRecords bytes).map fun records => ⟨readWords64 1 records⟩ }
  offlineReply := {
    serializeToString m := writeRecords (words32 1 [m.nbrsets] ++ words64 2 m.hints)
    parseFromString bytes := do
      let records ← parseRecords bytes
      let nbrsets ← readRequired 1 records
      some ⟨nbrsets, readWords64 2 records⟩ }
  onlineQuery := {
    serializeToString m :=
      writeRecords (words32 1 [m.height] ++ words32 2 [m.bitvec] ++ words32 3 m.keys ++ words32 4 [m.shifts])
    parseFromString bytes := do
      let records ← parseRecords bytes
      let height ← readRequired 1 records
      let bitvec ← readRequired 2 records
      let shifts ← readRequired 4 records
      some ⟨height, bitvec, readWords32 3 records, shifts⟩ }
  offlineQuery := {
    serializeToString m :=
      writeRecords (words32 1 [m.nbrsets] ++ words32 2 [m.setsize] ++ words32 3 m.offlineKeys ++ words32 4 m.shifts)
    parseFromString bytes := do
      let records ← parseRecords bytes
      let nbrsets ← readRequired 1 records
      let setsize ← readRequired 2 records
      some ⟨nbrsets, setsize, readWords32 3 records, readWords32 4 records⟩ }

theorem wireFormat_undoes : wireFormat.Undoes where
  onlineReply m := by simp [wireFormat, words64, readWords64, parseRecords_writeRecords, Function.comp_def]
  offlineReply m := by
    simp [wireFormat, words32, words64, readWords32, readWords64, readRequired, parseRecords_writeRecords,
      Function.comp_def]
  onlineQuery m := by
    simp [wireFormat, words32, readWords32, readRequired, parseRecords_writeRecords, Function.comp_def]
  offlineQuery m := by
    simp [wireFormat, words32, readWords32, readRequired, parseRecords_writeRecords, Function.comp_def]

end WireFormat

theorem messages_roundTrip_wire :
    deserializeOfflineReply wireFormat (serializeOfflineReply wireFormat ⟨2, [5, 7]⟩) = .ok ⟨2, [5, 7]⟩ ∧
      deserializeOnlineQuery wireFormat (serializeOnlineQuery wireFormat
          ⟨1, 1, [Vector.replicate 16 200, Vector.replicate 16 3], 300⟩) =
        .ok ⟨1, 1, [Vector.replicate 16 200, Vector.replicate 16 3], 300⟩ ∧
      deserializeOfflineQuery wireFormat (serializeOfflineQuery wireFormat
          ⟨2, 2, [Vector.replicate 16 200, Vector.replicate 16 3], [3, 300]⟩) =
        .ok ⟨2, 2, [Vector.replicate 16 200, Vector.replicate 16 3], [3, 300]⟩ := by
  obtain ⟨-, hOfflineReply, hOnlineQuery, hOfflineQuery⟩ := messages_roundTrip wireFormat_undoes
  exact ⟨hOfflineReply _ (by decide), hOnlineQuery _ ⟨by decide, by decide, by decide⟩,
    hOfflineQuery _ ⟨by decide, by decide, by decide⟩⟩

end CkPir
