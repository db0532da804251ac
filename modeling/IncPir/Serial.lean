import IncPir.Wire

/-! # Serialization (`serial.hpp`, `proto/interface.proto`)

Lists of pairs travel flattened, keys as one value for each byte, and blocks as
words of 64 bits. The order of the fields is that of `interface.proto`.
-/

namespace IncPir
open LoopM BitWords
set_option autoImplicit false

namespace Interface

structure OnlineReply where
  reply : List UInt64

structure OfflineReply where
  parities : List UInt64

structure OnlineQuery where
  indices : List UInt32

structure SetDesc where
  sk : List UInt32
  shift : UInt32
  aux : List UInt32

structure OfflineQuery where
  sets : List SetDesc

structure DiffSetDesc where
  sk : List UInt32
  shift : UInt32
  auxPrev : List UInt32
  auxCurr : List UInt32

structure OfflineAddQueryShort where
  build ::
  nbrsets : UInt32
  setsize : UInt32
  diffsets : List DiffSetDesc
  mk : List UInt32

end Interface

/-- The generated classes of the five messages. -/
structure Protobuf (Wire : Type) where
  onlineReply : MessageClass Wire Interface.OnlineReply
  offlineReply : MessageClass Wire Interface.OfflineReply
  onlineQuery : MessageClass Wire Interface.OnlineQuery
  offlineQuery : MessageClass Wire Interface.OfflineQuery
  offlineAddQueryShort : MessageClass Wire Interface.OfflineAddQueryShort

/-- What the codecs rely on: parsing undoes serializing, message by message. -/
structure Protobuf.Undoes {Wire : Type} (pb : Protobuf Wire) : Prop where
  onlineReply : pb.onlineReply.Undoes
  offlineReply : pb.offlineReply.Undoes
  onlineQuery : pb.onlineQuery.Undoes
  offlineQuery : pb.offlineQuery.Undoes
  offlineAddQueryShort : pb.offlineAddQueryShort.Undoes

section Parts

/-- Each pair of an auxiliary list takes two values, the range first. -/
def pairValues (aux : Aux) : List UInt32 := aux.flatMap fun t => [UInt32.ofNat t.1, UInt32.ofNat t.2]

/-- The loops read two values a turn, for half the size rounded down. -/
def readPairs (values : List UInt32) : Except Fault Aux :=
  (List.range (values.length / 2)).mapM fun j => do
    let range ← elemAt values (j * 2)
    let count ← elemAt values (j * 2 + 1)
    .ok (range.toNat, count.toNat)

def writeSetDesc (d : SetDesc) : Interface.SetDesc := ⟨keyValues d.sk, UInt32.ofNat d.shift, pairValues d.aux⟩

def readSetDesc (d : Interface.SetDesc) : Except Fault SetDesc := do
  let sk ← readKey d.sk 0
  let aux ← readPairs d.aux
  .ok ⟨sk, d.shift.toNat, aux⟩

def writeDiffSetDesc (d : DiffSetDesc) : Interface.DiffSetDesc :=
  ⟨keyValues d.sk, UInt32.ofNat d.shift, pairValues d.auxPrev, pairValues d.auxCurr⟩

def readDiffSetDesc (d : Interface.DiffSetDesc) : Except Fault DiffSetDesc := do
  let sk ← readKey d.sk 0
  let auxCurr ← readPairs d.auxCurr
  let auxPrev ← readPairs d.auxPrev
  .ok ⟨sk, d.shift.toNat, auxPrev, auxCurr⟩

def readAddQuery (query : Interface.OfflineAddQueryShort) : Except Fault UpdateQueryAdd := do
  let diffsets ← query.diffsets.mapM readDiffSetDesc
  let mk ← readKey query.mk 0
  .ok ⟨query.nbrsets.toNat, query.setsize.toNat, mk, diffsets⟩

end Parts

section Codecs
variable {Wire : Type} (pb : Protobuf Wire)

def serializeOnlineReply (reply : OnlineReply) : Wire := pb.onlineReply.serializeToString ⟨blockWords reply.parity⟩

def deserializeOnlineReply (msg : Wire) : Except SerialFault OnlineReply :=
  readParsed pb.onlineReply "deserialize online reply failed\n" (fun r => do
    let parity ← readBlock r.reply 0
    .ok ⟨parity⟩) msg

def serializeOfflineReply (reply : OfflineReply) : Wire :=
  pb.offlineReply.serializeToString ⟨reply.parities.flatMap blockWords⟩

def deserializeOfflineReply (msg : Wire) : Except SerialFault OfflineReply :=
  readParsed pb.offlineReply "deserialize offline reply failed\n" (fun r => do
    let parities ← readBlocks r.parities
    .ok ⟨parities⟩) msg

def serializeOnlineQuery (q : OnlineQuery) : Wire :=
  pb.onlineQuery.serializeToString ⟨q.indices.map UInt32.ofNat⟩

def deserializeOnlineQuery (msg : Wire) : Except SerialFault OnlineQuery :=
  readParsed pb.onlineQuery "deserialize online query failed\n"
    (fun query => .ok ⟨query.indices.map UInt32.toNat⟩) msg

def serializeOfflineQuery (q : OfflineQuery) : Wire :=
  pb.offlineQuery.serializeToString ⟨q.sets.map writeSetDesc⟩

def deserializeOfflineQuery (msg : Wire) : Except SerialFault OfflineQuery :=
  readParsed pb.offlineQuery "deserialize offline query failed\n" (fun query => do
    let sets ← query.sets.mapM readSetDesc
    .ok ⟨sets⟩) msg

def serializeOfflineAddQuery (q : UpdateQueryAdd) : Wire :=
  pb.offlineAddQueryShort.serializeToString
    ⟨UInt32.ofNat q.nbrsets, UInt32.ofNat q.setsize, q.diffsets.map writeDiffSetDesc, keyValues q.mk⟩

def deserializeOfflineAddQuery (msg : Wire) : Except SerialFault UpdateQueryAdd :=
  readParsed pb.offlineAddQueryShort "deserialize offline add query failed\n" readAddQuery msg

end Codecs

section Comparisons

/-- The loop that compares two vectors of one size entry by entry. -/
def equalEntries {α : Type} (same : α → α → Bool) (a b : List α) : Bool :=
  (List.range a.length).all fun i =>
    match a[i]?, b[i]? with
    | some x, some y => same x y
    | _, _ => false

def equalKeys (a b : Key) : Bool := (List.range KeyLen).all fun j => a[j]? == b[j]?

def equalOnlineReply (a b : OnlineReply) : Bool := a.parity == b.parity

def equalOfflineReply (a b : OfflineReply) : Bool :=
  if a.parities.length ≠ b.parities.length then false else equalEntries (· == ·) a.parities b.parities

def equalOnlineQuery (a b : OnlineQuery) : Bool :=
  if a.indices.length ≠ b.indices.length then false else equalEntries (· == ·) a.indices b.indices

def equalSetDesc (a b : SetDesc) : Bool :=
  if equalKeys a.sk b.sk = false then false
  else if a.shift ≠ b.shift then false
  else if a.aux.length ≠ b.aux.length then false
  else equalEntries (· == ·) a.aux b.aux

def equalOfflineQuery (a b : OfflineQuery) : Bool :=
  if a.sets.length ≠ b.sets.length then false else equalEntries equalSetDesc a.sets b.sets

def equalDiffSetDesc (a b : DiffSetDesc) : Bool :=
  if a.shift ≠ b.shift ∨ a.auxCurr.length ≠ b.auxCurr.length ∨ a.auxPrev.length ≠ b.auxPrev.length then false
  else if equalKeys a.sk b.sk = false then false
  else if equalEntries (· == ·) a.auxCurr b.auxCurr = false then false
  else equalEntries (· == ·) a.auxPrev b.auxPrev

def equalOfflineAddQuery (a b : UpdateQueryAdd) : Bool :=
  if a.nbrsets ≠ b.nbrsets ∨ a.setsize ≠ b.setsize ∨ a.diffsets.length ≠ b.diffsets.length then false
  else if equalKeys a.mk b.mk = false then false
  else equalEntries equalDiffSetDesc a.diffsets b.diffsets

theorem guard_eq_true_iff {p : Prop} [Decidable p] {b : Bool} :
    (if p then false else b) = true ↔ ¬ p ∧ b = true := by
  by_cases h : p <;> simp [h]

theorem equalEntries_iff {α : Type} {same : α → α → Bool} (hSame : ∀ x y, same x y = true ↔ x = y) (a b : List α) :
    (¬ a.length ≠ b.length ∧ equalEntries same a b = true) ↔ a = b := by
  rw [not_not, equalEntries, List.all_eq_true]
  constructor
  · rintro ⟨hLength, hAll⟩
    apply List.ext_getElem hLength
    intro i hi hi'
    have hEntry := hAll i (List.mem_range.mpr hi)
    rw [List.getElem?_eq_getElem hi, List.getElem?_eq_getElem hi'] at hEntry
    exact (hSame _ _).mp hEntry
  · rintro rfl
    refine ⟨rfl, fun i hi => ?_⟩
    rw [List.getElem?_eq_getElem (List.mem_range.mp hi)]
    exact (hSame _ _).mpr rfl

theorem equalEntries_beq_iff {α : Type} [BEq α] [LawfulBEq α] (a b : List α) :
    (¬ a.length ≠ b.length ∧ equalEntries (· == ·) a b = true) ↔ a = b :=
  equalEntries_iff (fun _ _ => beq_iff_eq) a b

theorem equalKeys_iff (a b : Key) : equalKeys a b = true ↔ a = b := by
  rw [equalKeys, List.all_eq_true]
  constructor
  · intro hAll
    ext j hj
    have hEntry := eq_of_beq (hAll j (List.mem_range.mpr hj))
    rw [Vector.getElem?_eq_getElem hj, Vector.getElem?_eq_getElem hj] at hEntry
    rw [Option.some.inj hEntry]
  · rintro rfl j _
    exact beq_self_eq_true _

theorem equalOnlineReply_iff (a b : OnlineReply) : equalOnlineReply a b = true ↔ a = b := by
  rw [equalOnlineReply, beq_iff_eq]
  exact ⟨fun h => congrArg OnlineReply.mk h, congrArg OnlineReply.parity⟩

theorem equalOfflineReply_iff (a b : OfflineReply) : equalOfflineReply a b = true ↔ a = b := by
  rw [equalOfflineReply, guard_eq_true_iff, equalEntries_beq_iff]
  exact ⟨fun h => congrArg OfflineReply.mk h, congrArg OfflineReply.parities⟩

theorem equalOnlineQuery_iff (a b : OnlineQuery) : equalOnlineQuery a b = true ↔ a = b := by
  rw [equalOnlineQuery, guard_eq_true_iff, equalEntries_beq_iff]
  exact ⟨fun h => congrArg OnlineQuery.mk h, congrArg OnlineQuery.indices⟩

theorem equalSetDesc_iff (a b : SetDesc) : equalSetDesc a b = true ↔ a = b := by
  rw [equalSetDesc, guard_eq_true_iff, guard_eq_true_iff, guard_eq_true_iff, Bool.not_eq_false, equalKeys_iff,
    not_not, equalEntries_beq_iff]
  obtain ⟨sk, shift, aux⟩ := a
  obtain ⟨sk', shift', aux'⟩ := b
  rw [SetDesc.mk.injEq]

theorem equalOfflineQuery_iff (a b : OfflineQuery) : equalOfflineQuery a b = true ↔ a = b := by
  rw [equalOfflineQuery, guard_eq_true_iff, equalEntries_iff equalSetDesc_iff]
  exact ⟨fun h => congrArg OfflineQuery.mk h, congrArg OfflineQuery.sets⟩

theorem equalDiffSetDesc_iff (a b : DiffSetDesc) : equalDiffSetDesc a b = true ↔ a = b := by
  rw [equalDiffSetDesc, guard_eq_true_iff, guard_eq_true_iff, guard_eq_true_iff, Bool.not_eq_false,
    Bool.not_eq_false, equalKeys_iff]
  obtain ⟨sk, shift, auxPrev, auxCurr⟩ := a
  obtain ⟨sk', shift', auxPrev', auxCurr'⟩ := b
  have hCurr := equalEntries_beq_iff auxCurr auxCurr'
  have hPrev := equalEntries_beq_iff auxPrev auxPrev'
  rw [DiffSetDesc.mk.injEq, ← hCurr, ← hPrev]
  dsimp only
  tauto

theorem equalOfflineAddQuery_iff (a b : UpdateQueryAdd) : equalOfflineAddQuery a b = true ↔ a = b := by
  rw [equalOfflineAddQuery, guard_eq_true_iff, guard_eq_true_iff, Bool.not_eq_false, equalKeys_iff]
  obtain ⟨nbrsets, setsize, mk, diffsets⟩ := a
  obtain ⟨nbrsets', setsize', mk', diffsets'⟩ := b
  have hSets := equalEntries_iff equalDiffSetDesc_iff diffsets diffsets'
  rw [UpdateQueryAdd.build.injEq, ← hSets]
  dsimp only
  tauto

end Comparisons

section Values

/-- The numbers of an auxiliary list are `uint32_t` values; likewise below. -/
def AuxTyped (aux : Aux) : Prop := ∀ t ∈ aux, t.1 < 2 ^ 32 ∧ t.2 < 2 ^ 32

structure SetDesc.Typed (d : SetDesc) : Prop where
  shift : d.shift < 2 ^ 32
  aux : AuxTyped d.aux

structure DiffSetDesc.Typed (d : DiffSetDesc) : Prop where
  shift : d.shift < 2 ^ 32
  auxPrev : AuxTyped d.auxPrev
  auxCurr : AuxTyped d.auxCurr

def OnlineQuery.Typed (q : OnlineQuery) : Prop := ∀ i ∈ q.indices, i < 2 ^ 32

def OfflineQuery.Typed (q : OfflineQuery) : Prop := ∀ d ∈ q.sets, d.Typed

structure UpdateQueryAdd.Typed (q : UpdateQueryAdd) : Prop where
  nbrsets : q.nbrsets < 2 ^ 32
  setsize : q.setsize < 2 ^ 32
  diffsets : ∀ d ∈ q.diffsets, d.Typed

theorem readPairs_pairValues {aux : Aux} (h : AuxTyped aux) : readPairs (pairValues aux) = .ok aux := by
  have hLength : ∀ t ∈ aux, [UInt32.ofNat t.1, UInt32.ofNat t.2].length = 2 := fun _ _ => rfl
  have hLoop : (List.range aux.length).mapM (fun j => do
      let range ← elemAt (pairValues aux) (j * 2)
      let count ← elemAt (pairValues aux) (j * 2 + 1)
      .ok (range.toNat, count.toNat)) = (.ok (aux.map id) : Except Fault _) := by
    apply mapM_range_eq_map
    intro j hj
    have hEntry := List.getElem?_eq_getElem hj
    obtain ⟨hRange, hCount⟩ := h aux[j] (List.getElem_mem hj)
    have hFirst : (pairValues aux)[j * 2]? = some (UInt32.ofNat aux[j].1) :=
      getElem?_flatMap_const hLength hEntry Nat.zero_lt_two
    have hSecond : (pairValues aux)[j * 2 + 1]? = some (UInt32.ofNat aux[j].2) :=
      getElem?_flatMap_const hLength hEntry Nat.one_lt_two
    rw [elemAt_of_getElem? hFirst, ok_bind, elemAt_of_getElem? hSecond, ok_bind, UInt32.toNat_ofNat_of_lt' hRange,
      UInt32.toNat_ofNat_of_lt' hCount]
    rfl
  have hHalf : (pairValues aux).length / 2 = aux.length := length_flatMap_div hLength Nat.zero_lt_two
  rw [readPairs, hHalf, hLoop, List.map_id]

theorem readSetDesc_writeSetDesc {d : SetDesc} (h : d.Typed) : readSetDesc (writeSetDesc d) = .ok d := by
  rw [readSetDesc, writeSetDesc, readKey_keyValues, ok_bind, readPairs_pairValues h.aux, ok_bind,
    UInt32.toNat_ofNat_of_lt' h.shift]

theorem readDiffSetDesc_writeDiffSetDesc {d : DiffSetDesc} (h : d.Typed) :
    readDiffSetDesc (writeDiffSetDesc d) = .ok d := by
  rw [readDiffSetDesc, writeDiffSetDesc, readKey_keyValues, ok_bind, readPairs_pairValues h.auxCurr, ok_bind,
    readPairs_pairValues h.auxPrev, ok_bind, UInt32.toNat_ofNat_of_lt' h.shift]

end Values

section RoundTrip
variable {Wire : Type} {pb : Protobuf Wire} (hParse : pb.Undoes)
include hParse

theorem deserializeOnlineReply_serialize (x : OnlineReply) :
    deserializeOnlineReply pb (serializeOnlineReply pb x) = .ok x := by
  apply readParsed_serialize hParse.onlineReply
  dsimp only
  rw [readBlock_blockWords, ok_bind]

theorem deserializeOfflineReply_serialize (x : OfflineReply) :
    deserializeOfflineReply pb (serializeOfflineReply pb x) = .ok x := by
  apply readParsed_serialize hParse.offlineReply
  dsimp only
  rw [readBlocks_flatMap, ok_bind]

theorem deserializeOnlineQuery_serialize {x : OnlineQuery} (h : x.Typed) :
    deserializeOnlineQuery pb (serializeOnlineQuery pb x) = .ok x := by
  apply readParsed_serialize hParse.onlineQuery
  dsimp only
  have hValues : (x.indices.map UInt32.ofNat).map UInt32.toNat = x.indices := by
    rw [List.map_map]
    exact (List.map_congr_left fun i hi => UInt32.toNat_ofNat_of_lt' (h i hi)).trans (List.map_id _)
  rw [hValues]

theorem deserializeOfflineQuery_serialize {x : OfflineQuery} (h : x.Typed) :
    deserializeOfflineQuery pb (serializeOfflineQuery pb x) = .ok x := by
  apply readParsed_serialize hParse.offlineQuery
  dsimp only
  rw [mapM_map_eq_ok fun d hd => readSetDesc_writeSetDesc (h d hd), ok_bind]

theorem deserializeOfflineAddQuery_serialize {x : UpdateQueryAdd} (h : x.Typed) :
    deserializeOfflineAddQuery pb (serializeOfflineAddQuery pb x) = .ok x := by
  apply readParsed_serialize hParse.offlineAddQueryShort
  rw [readAddQuery, mapM_map_eq_ok fun d hd => readDiffSetDesc_writeDiffSetDesc (h.diffsets d hd), ok_bind,
    readKey_keyValues, ok_bind, UInt32.toNat_ofNat_of_lt' h.nbrsets, UInt32.toNat_ofNat_of_lt' h.setsize]

/-- Every message comes back unchanged, and the comparisons decide equality. -/
theorem serial_roundTrip :
    (∀ x, deserializeOnlineReply pb (serializeOnlineReply pb x) = .ok x) ∧
      (∀ x, deserializeOfflineReply pb (serializeOfflineReply pb x) = .ok x) ∧
      (∀ x : OnlineQuery, x.Typed → deserializeOnlineQuery pb (serializeOnlineQuery pb x) = .ok x) ∧
      (∀ x : OfflineQuery, x.Typed → deserializeOfflineQuery pb (serializeOfflineQuery pb x) = .ok x) ∧
      (∀ x : UpdateQueryAdd, x.Typed →
        deserializeOfflineAddQuery pb (serializeOfflineAddQuery pb x) = .ok x) ∧
      (∀ a b, equalOnlineReply a b = true ↔ a = b) ∧
      (∀ a b, equalOfflineReply a b = true ↔ a = b) ∧
      (∀ a b, equalOnlineQuery a b = true ↔ a = b) ∧
      (∀ a b, equalOfflineQuery a b = true ↔ a = b) ∧
      ∀ a b, equalOfflineAddQuery a b = true ↔ a = b :=
  ⟨deserializeOnlineReply_serialize hParse, deserializeOfflineReply_serialize hParse,
    fun _ h => deserializeOnlineQuery_serialize hParse h,
    fun _ h => deserializeOfflineQuery_serialize hParse h,
    fun _ h => deserializeOfflineAddQuery_serialize hParse h,
    equalOnlineReply_iff, equalOfflineReply_iff, equalOnlineQuery_iff, equalOfflineQuery_iff,
    equalOfflineAddQuery_iff⟩

end RoundTrip

section WireFormat
open WireFields

def setDescFormat : MessageClass (List UInt8) Interface.SetDesc where
  serializeToString m := writeRecords (words32 1 m.sk ++ words32 2 [m.shift] ++ words32 3 m.aux)
  parseFromString bytes := do
    let records ← parseRecords bytes
    let shift ← readRequired 2 records
    some ⟨readWords32 1 records, shift, readWords32 3 records⟩

def diffSetDescFormat : MessageClass (List UInt8) Interface.DiffSetDesc where
  serializeToString m :=
    writeRecords (words32 1 m.sk ++ words32 2 [m.shift] ++ words32 3 m.auxPrev ++ words32 4 m.auxCurr)
  parseFromString bytes := do
    let records ← parseRecords bytes
    let shift ← readRequired 2 records
    some ⟨readWords32 1 records, shift, readWords32 3 records, readWords32 4 records⟩

/-- The wire format of the five messages, field numbers as in the interface file. -/
def wireFormat : Protobuf (List UInt8) where
  onlineReply := {
    serializeToString m := writeRecords (words64 1 m.reply)
    parseFromString bytes := (parseRecords bytes).map fun records => ⟨readWords64 1 records⟩ }
  offlineReply := {
    serializeToString m := writeRecords (words64 1 m.parities)
    parseFromString bytes := (parseRecords bytes).map fun records => ⟨readWords64 1 records⟩ }
  onlineQuery := {
    serializeToString m := writeRecords (words32 1 m.indices)
    parseFromString bytes := (parseRecords bytes).map fun records => ⟨readWords32 1 records⟩ }
  offlineQuery := {
    serializeToString m := writeRecords (messageField 1 setDescFormat.serializeToString m.sets)
    parseFromString bytes := do
      let records ← parseRecords bytes
      let sets ← (messages 1 records).mapM setDescFormat.parseFromString
      some ⟨sets⟩ }
  offlineAddQueryShort := {
    serializeToString m := writeRecords (words32 1 [m.nbrsets] ++ words32 2 [m.setsize] ++
      messageField 3 diffSetDescFormat.serializeToString m.diffsets ++ words32 4 m.mk)
    parseFromString bytes := do
      let records ← parseRecords bytes
      let nbrsets ← readRequired 1 records
      let setsize ← readRequired 2 records
      let diffsets ← (messages 3 records).mapM diffSetDescFormat.parseFromString
      some ⟨nbrsets, setsize, diffsets, readWords32 4 records⟩ }

theorem setDescFormat_undoes : setDescFormat.Undoes := by
  intro m
  simp [setDescFormat, words32, readWords32, readRequired, parseRecords_writeRecords, Function.comp_def]

theorem diffSetDescFormat_undoes : diffSetDescFormat.Undoes := by
  intro m
  simp [diffSetDescFormat, words32, readWords32, readRequired, parseRecords_writeRecords, Function.comp_def]

theorem mapM_parse_serialize {Wire Msg : Type} {cls : MessageClass Wire Msg} (h : cls.Undoes) (l : List Msg) :
    (l.map cls.serializeToString).mapM cls.parseFromString = some l := by
  induction l with
  | nil => rfl
  | cons m rest ih => simp [h m, ih]

theorem wireFormat_undoes : wireFormat.Undoes where
  onlineReply m := by simp [wireFormat, words64, readWords64, parseRecords_writeRecords, Function.comp_def]
  offlineReply m := by simp [wireFormat, words64, readWords64, parseRecords_writeRecords, Function.comp_def]
  onlineQuery m := by simp [wireFormat, words32, readWords32, parseRecords_writeRecords, Function.comp_def]
  offlineQuery m := by
    simp [wireFormat, parseRecords_writeRecords, mapM_parse_serialize setDescFormat_undoes]
  offlineAddQueryShort m := by
    simp [wireFormat, words32, readWords32, readRequired, parseRecords_writeRecords, Function.comp_def,
      mapM_parse_serialize diffSetDescFormat_undoes]

end WireFormat

theorem serial_roundTrip_wire :
    deserializeOfflineReply wireFormat (serializeOfflineReply wireFormat ⟨[5, 7]⟩) = .ok ⟨[5, 7]⟩ ∧
      deserializeOnlineQuery wireFormat (serializeOnlineQuery wireFormat ⟨[300, 1]⟩) = .ok ⟨[300, 1]⟩ ∧
      deserializeOfflineQuery wireFormat
          (serializeOfflineQuery wireFormat ⟨[⟨Vector.replicate 16 9, 1, [(2, 1), (1, 1)]⟩]⟩) =
        .ok ⟨[⟨Vector.replicate 16 9, 1, [(2, 1), (1, 1)]⟩]⟩ ∧
      deserializeOfflineAddQuery wireFormat (serializeOfflineAddQuery wireFormat
          ⟨1, 2, Vector.replicate 16 9, [⟨Vector.replicate 16 3, 1, [(2, 2)], [(2, 1), (1, 1)]⟩]⟩) =
        .ok ⟨1, 2, Vector.replicate 16 9, [⟨Vector.replicate 16 3, 1, [(2, 2)], [(2, 1), (1, 1)]⟩]⟩ := by
  obtain ⟨-, hOfflineReply, hOnlineQuery, hOfflineQuery, hAddQuery, -⟩ := serial_roundTrip wireFormat_undoes
  refine ⟨hOfflineReply _, hOnlineQuery _ ?_, hOfflineQuery _ ?_, hAddQuery _ ⟨by decide, by decide, ?_⟩⟩
  · exact (by decide : ∀ i ∈ [300, 1], i < 2 ^ 32)
  · intro d hd
    rw [List.mem_singleton.mp hd]
    exact ⟨by decide, (by decide : ∀ t ∈ [(2, 1), (1, 1)], t.1 < 2 ^ 32 ∧ t.2 < 2 ^ 32)⟩
  · intro d hd
    rw [List.mem_singleton.mp hd]
    exact ⟨by decide, (by decide : ∀ t ∈ [(2, 2)], t.1 < 2 ^ 32 ∧ t.2 < 2 ^ 32),
      (by decide : ∀ t ∈ [(2, 1), (1, 1)], t.1 < 2 ^ 32 ∧ t.2 < 2 ^ 32)⟩

end IncPir
