import IncPir.Ck.Request

/-! # Sizes of the messages of the baseline

An offline query holds a key and a shift for each set, a reply a block for each
set, and an online query the keys beside one path of the tree.
-/

namespace CkPir
open IncPir (KeyLen BlockLen MessageClass Sendable blockWords length_blockWords length_keyValues keyValues words32
  length_words32 length_words64 length_blocks length_typedMessage piecesLink)
open LoopM WireFields BitWords
set_option autoImplicit false

def QueryType.ofValue : Nat → Option QueryType
  | 0 => some .offline
  | 1 => some .online
  | 2 => some .refresh
  | _ => none

@[simp] theorem QueryType.ofValue_value (type : QueryType) : QueryType.ofValue type.value = some type := by
  cases type <;> rfl

theorem QueryType.value_lt (type : QueryType) : type.value < 128 := by
  cases type <;> decide

def queryFormat : MessageClass (List UInt8) Interface.Query where
  serializeToString m := writeRecords (numberField 1 QueryType.value [m.type] ++ messageField 2 id [m.msg])
  parseFromString bytes := do
    let records ← parseRecords bytes
    let value ← (numbers 1 records).getLast?
    let type ← QueryType.ofValue value
    let msg ← (messages 2 records).getLast?
    some ⟨type, msg⟩

theorem queryFormat_undoes : queryFormat.Undoes := by
  intro m
  simp [queryFormat, parseRecords_writeRecords]

theorem length_serializeQuery {query : List UInt8} (type : QueryType) (h : query.length < 2 ^ 31) :
    (serializeQuery queryFormat query type).length ≤ query.length + 8 :=
  length_typedMessage (QueryType.value_lt type) h

/-- A set takes at most 2750 bytes of the longest message, which is the offline reply. -/
theorem wireFormat_fits {nbrsets : Nat} (h : 2750 * nbrsets < 2 ^ 31 - 2 ^ 10) :
    MessagesFit wireFormat queryFormat nbrsets 30 := by
  have hQuery : ∀ {query : List UInt8} (type : QueryType), query.length + 2 ^ 9 < 2 ^ 31 →
      Sendable (serializeQuery queryFormat query type) := by
    intro query type hLength
    have hBound := length_serializeQuery type (by omega : query.length < 2 ^ 31)
    rw [Sendable]
    omega
  have hWords : BlockLen / 64 = 250 := rfl
  have hKeyLen : KeyLen = 16 := rfl
  constructor
  · intro q hKeys hShifts
    have hCounts := length_words32 (by decide : 1 < 16) [UInt32.ofNat q.nbrsets]
    have hSizes := length_words32 (by decide : 2 < 16) [UInt32.ofNat q.setsize]
    have hKeyWords := length_words32 (by decide : 3 < 16) (q.offlineKeys.flatMap keyWords)
    have hShiftWords := length_words32 (by decide : 4 < 16) (q.shifts.map UInt32.ofNat)
    rw [List.length_singleton] at hCounts hSizes
    rw [length_flatMap_const fun key _ => length_keyWords key, hKeyLen] at hKeyWords
    rw [List.length_map] at hShiftWords
    apply hQuery
    simp only [serializeOfflineQuery, wireFormat, length_writeRecords_append]
    omega
  · intro r hHints
    have hCounts := length_words32 (by decide : 1 < 16) [UInt32.ofNat r.nbrsets]
    have hBlocks := length_words64 (by decide : 2 < 16) (r.hints.flatMap blockWords)
    rw [List.length_singleton] at hCounts
    rw [length_blocks] at hBlocks
    simp only [Sendable, serializeOfflineReply, wireFormat, length_writeRecords_append]
    omega
  · intro q type hKeys
    have hHeights := length_words32 (by decide : 1 < 16) [UInt32.ofNat q.height]
    have hBitvecs := length_words32 (by decide : 2 < 16) [UInt32.ofNat q.bitvec]
    have hKeyValues := length_words32 (by decide : 3 < 16) (q.keys.flatMap keyValues)
    have hShifts := length_words32 (by decide : 4 < 16) [UInt32.ofNat q.shift]
    rw [List.length_singleton] at hHeights hBitvecs hShifts
    rw [length_flatMap_const fun key _ => length_keyValues key, hKeyLen] at hKeyValues
    apply hQuery
    simp only [serializeOnlineQuery, wireFormat, length_writeRecords_append]
    omega
  · intro r
    have hBlock := length_words64 (by decide : 1 < 16) (blockWords r.parity)
    rw [length_blockWords, hWords] at hBlock
    simp only [Sendable, serializeOnlineReply, wireFormat]
    omega

theorem wireTransport {nbrsets : Nat} (h : 2750 * nbrsets < 2 ^ 31 - 2 ^ 10) :
    Transport wireFormat queryFormat nbrsets (2 ^ 31) :=
  ⟨wireFormat_undoes, queryFormat_undoes, wireFormat_fits h, Nat.le_refl _⟩

end CkPir
