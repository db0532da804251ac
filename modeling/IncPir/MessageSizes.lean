import IncPir.Request

/-! # Sizes of messages

A message of a connection has fewer than 2^31 bytes. What has to fit are the
keys and slot lists of all sets, the blocks of all parities, and the indices of
one set.
-/

namespace IncPir
open LoopM WireFields
set_option autoImplicit false

/-- Messages about so many sets, positions and slots are not longer than a connection can carry. -/
structure MessagesFit (pb : Protobuf (List UInt8)) (queries : MessageClass (List UInt8) Interface.Query)
    (nbrsets setsize slots : Nat) : Prop where
  offlineQuery : ∀ q : OfflineQuery, q.sets.length ≤ nbrsets → (∀ d ∈ q.sets, d.aux.length ≤ slots) →
    Sendable (serializeQuery queries (serializeOfflineQuery pb q) .offline)
  offlineReply : ∀ r : OfflineReply, r.parities.length ≤ nbrsets → Sendable (serializeOfflineReply pb r)
  onlineQuery : ∀ (q : OnlineQuery) (type : QueryType), q.indices.length ≤ setsize →
    Sendable (serializeQuery queries (serializeOnlineQuery pb q) type)
  onlineReply : ∀ r, Sendable (serializeOnlineReply pb r)
  addQuery : ∀ q : UpdateQueryAdd, q.diffsets.length ≤ nbrsets →
    (∀ d ∈ q.diffsets, d.auxPrev.length ≤ slots ∧ d.auxCurr.length ≤ slots) →
    Sendable (serializeQuery queries (serializeOfflineAddQuery pb q) .add)

def QueryType.ofValue : Nat → Option QueryType
  | 0 => some .offline
  | 1 => some .online
  | 2 => some .add
  | 3 => some .refresh
  | _ => none

@[simp] theorem QueryType.ofValue_value (type : QueryType) : QueryType.ofValue type.value = some type := by
  cases type <;> rfl

theorem QueryType.value_lt (type : QueryType) : type.value < 128 := by
  cases type <;> decide

/-- Without one of its two required fields a query does not parse. -/
def queryFormat : MessageClass (List UInt8) Interface.Query where
  serializeToString m := writeRecords (numberField 1 QueryType.value [m.type] ++ messageField 2 id [m.msg])
  parseFromString bytes := do
    let records ← parseRecords bytes
    let value ← (numbers 1 records).getLast?
    let type ← QueryType.ofValue value
    let msg ← (messages 2 records).getLast?
    some ⟨type, msg⟩

theorem queryFormat_undoes : queryFormat.Undoes := by
  intro m
  simp [queryFormat, parseRecords_writeRecords]

section Bounds

theorem length_pairValues (aux : Aux) : (pairValues aux).length = aux.length * 2 := by
  rw [pairValues, List.length_flatMap]
  simp

theorem length_setDesc {d : SetDesc} {slots : Nat} (h : d.aux.length ≤ slots) :
    (setDescFormat.serializeToString (writeSetDesc d)).length ≤ 102 + 12 * slots := by
  have hKey := length_words32 (by decide : 1 < 16) (writeSetDesc d).sk
  have hShift := length_words32 (by decide : 2 < 16) [(writeSetDesc d).shift]
  have hAux := length_words32 (by decide : 3 < 16) (writeSetDesc d).aux
  simp only [writeSetDesc, length_keyValues, length_pairValues, List.length_singleton] at hKey hShift hAux
  have hKeyLen : KeyLen = 16 := rfl
  simp only [setDescFormat, writeSetDesc, length_writeRecords_append]
  omega

theorem length_diffSetDesc {d : DiffSetDesc} {slots : Nat} (hPrev : d.auxPrev.length ≤ slots)
    (hCurr : d.auxCurr.length ≤ slots) :
    (diffSetDescFormat.serializeToString (writeDiffSetDesc d)).length ≤ 102 + 24 * slots := by
  have hKey := length_words32 (by decide : 1 < 16) (writeDiffSetDesc d).sk
  have hShift := length_words32 (by decide : 2 < 16) [(writeDiffSetDesc d).shift]
  have hAuxPrev := length_words32 (by decide : 3 < 16) (writeDiffSetDesc d).auxPrev
  have hAuxCurr := length_words32 (by decide : 4 < 16) (writeDiffSetDesc d).auxCurr
  simp only [writeDiffSetDesc, length_keyValues, length_pairValues, List.length_singleton] at hKey hShift hAuxPrev hAuxCurr
  have hKeyLen : KeyLen = 16 := rfl
  simp only [diffSetDescFormat, writeDiffSetDesc, length_writeRecords_append]
  omega

theorem length_serializeQuery {query : List UInt8} (type : QueryType) (h : query.length < 2 ^ 31) :
    (serializeQuery queryFormat query type).length ≤ query.length + 8 :=
  length_typedMessage (QueryType.value_lt type) h

end Bounds

theorem wireFormat_fits {nbrsets setsize slots : Nat}
    (h : (nbrsets + 1) * (2750 + 24 * slots) + 6 * setsize < 2 ^ 31 - 2 ^ 10) :
    MessagesFit wireFormat queryFormat nbrsets setsize slots := by
  have hSets : ∀ {count bound : Nat}, count ≤ nbrsets → bound ≤ 2750 + 24 * slots →
      count * bound ≤ nbrsets * (2750 + 24 * slots) := fun hCount hBound => Nat.mul_le_mul hCount hBound
  rw [Nat.add_mul, Nat.one_mul] at h
  have hQuery : ∀ {query : List UInt8} (type : QueryType), query.length + 2 ^ 9 < 2 ^ 31 →
      Sendable (serializeQuery queryFormat query type) := by
    intro query type hLength
    have hBound := length_serializeQuery type (by omega : query.length < 2 ^ 31)
    rw [Sendable]
    omega
  constructor
  · intro q hCount hSlots
    have hField := length_messageField_le (by decide : 1 < 15)
      (fun v (hv : v ∈ q.sets.map writeSetDesc) => by
        obtain ⟨d, hd, rfl⟩ := List.mem_map.mp hv
        exact length_setDesc (hSlots d hd))
      (by omega : 102 + 12 * slots < 128 ^ (4 + 1))
    have hLess := hSets hCount (by omega : 102 + 12 * slots + 4 + 2 ≤ 2750 + 24 * slots)
    rw [List.length_map] at hField
    apply hQuery
    simp only [serializeOfflineQuery, wireFormat]
    omega
  · intro r hCount
    have hField := length_words64 (by decide : 1 < 16) (r.parities.flatMap blockWords)
    have hLess := hSets hCount (by omega : 2750 ≤ 2750 + 24 * slots)
    rw [length_blocks] at hField
    simp only [Sendable, serializeOfflineReply, wireFormat]
    omega
  · intro q type hCount
    have hField := length_words32 (by decide : 1 < 16) (q.indices.map UInt32.ofNat)
    rw [List.length_map] at hField
    apply hQuery
    simp only [serializeOnlineQuery, wireFormat]
    omega
  · intro r
    have hField := length_words64 (by decide : 1 < 16) (blockWords r.parity)
    have hWords : BlockLen / 64 = 250 := rfl
    rw [length_blockWords, hWords] at hField
    simp only [Sendable, serializeOnlineReply, wireFormat]
    omega
  · intro q hCount hSlots
    have hField := length_messageField_le (by decide : 3 < 15)
      (fun v (hv : v ∈ q.diffsets.map writeDiffSetDesc) => by
        obtain ⟨d, hd, rfl⟩ := List.mem_map.mp hv
        exact length_diffSetDesc (hSlots d hd).1 (hSlots d hd).2)
      (by omega : 102 + 24 * slots < 128 ^ (4 + 1))
    have hLess := hSets hCount (by omega : 102 + 24 * slots + 4 + 2 ≤ 2750 + 24 * slots)
    have hCounts := length_words32 (by decide : 1 < 16) [UInt32.ofNat q.nbrsets]
    have hSizes := length_words32 (by decide : 2 < 16) [UInt32.ofNat q.setsize]
    have hKey := length_words32 (by decide : 4 < 16) (keyValues q.mk)
    rw [List.length_singleton] at hCounts hSizes
    rw [length_keyValues] at hKey
    rw [List.length_map] at hField
    have hKeyLen : KeyLen = 16 := rfl
    apply hQuery
    simp only [serializeOfflineAddQuery, wireFormat, length_writeRecords_append]
    omega

end IncPir
