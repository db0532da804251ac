import Mathlib.Data.List.TakeWhile
import IncPir.Library.WireFields

/-! # Serialization of DPF queries (`baselines/dpf-pir/serial.hpp`)

The two key vectors travel as words of four bytes, most significant byte first.
The length is not sent: the encoder fills the last word with `0xFF` and the
decoder drops what follows the first `0xFF` there.
-/

namespace DpfPir
set_option autoImplicit false

structure ClientQuery where
  leftQuery : List UInt8
  rightQuery : List UInt8
deriving DecidableEq

/-- The message `interface::query`. -/
structure QueryMessage where
  leftQuery : List UInt32
  rightQuery : List UInt32
deriving DecidableEq

/-- The generated `SerializeToString` and `ParseFromString` of the message. -/
structure Protobuf (Wire : Type) where
  serializeToString : QueryMessage → Wire
  parseFromString : Wire → Option QueryMessage

def pushByte (tmp : UInt32) (byte : UInt8) : UInt32 := tmp <<< 8 ||| byte.toUInt32

/-- The word that the loop of `serialize_query` computes for counter `i`, an int without bound. -/
def packWord (bytes : List UInt8) (i : Nat) : UInt32 :=
  (List.range 4).foldl (fun tmp b => pushByte tmp (bytes.getD (4 * i + b) 0xFF)) 0

def packWords (bytes : List UInt8) : List UInt32 := (List.range (bytes.length / 4 + 1)).map (packWord bytes)

def byteOf (tmp shift : UInt32) : UInt8 := (tmp >>> shift &&& 0xFF).toUInt8

def wordBytes (tmp : UInt32) : List UInt8 := [byteOf tmp 24, byteOf tmp 16, byteOf tmp 8, byteOf tmp 0]

/-- The checks on the last word: `true` when a byte `0xFF` leaves the loop. -/
def readTail : List UInt8 → List UInt8 → List UInt8 × Bool
  | out, [] => (out, false)
  | out, tail :: rest => if tail = 0xFF then (out, true) else readTail (out ++ [tail]) rest

def unpackLoop : List UInt8 → List UInt32 → List UInt8
  | out, [] => out
  | out, [tmp] =>
    -- a last word that passes all four checks is pushed a second time
    let (out, broke) := readTail out (wordBytes tmp)
    if broke then out else out ++ wordBytes tmp
  | out, tmp :: rest => unpackLoop (out ++ wordBytes tmp) rest

section Codec
variable {Wire : Type} (pb : Protobuf Wire)

def serializeQuery (q : ClientQuery) : Wire :=
  pb.serializeToString ⟨packWords q.leftQuery, packWords q.rightQuery⟩

/-- `none` stands for the assertion after a failed parse. -/
def deserializeQuery (msg : Wire) : Option ClientQuery := do
  let query ← pb.parseFromString msg
  some ⟨unpackLoop [] query.leftQuery, unpackLoop [] query.rightQuery⟩

end Codec

section Words

theorem maskBit : ∀ {i : Nat} (hi : i < 8), (255#8)[i] = true := by decide

theorem byteOf_pushByte_zero (tmp : UInt32) (byte : UInt8) : byteOf (pushByte tmp byte) 0 = byte := by
  apply UInt8.toBitVec_inj.mp
  ext i hi
  simp [byteOf, pushByte, maskBit hi]

theorem byteOf_pushByte (tmp : UInt32) (byte : UInt8) {shift next : UInt32} (hNext : next = shift + 8)
    (h : shift.toNat + 16 ≤ 32) : byteOf (pushByte tmp byte) next = byteOf tmp shift := by
  subst hNext
  apply UInt8.toBitVec_inj.mp
  ext i hi
  have hShift : (shift.toNat + 8) % 32 = shift.toNat + 8 := Nat.mod_eq_of_lt (by omega)
  have hShift' : shift.toNat % 32 = shift.toNat := Nat.mod_eq_of_lt (by omega)
  have hIndex : shift.toNat + 8 + i - 8 = shift.toNat + i := by omega
  have hByte : byte.toBitVec.getLsbD (shift.toNat + 8 + i) = false :=
    BitVec.getLsbD_of_ge _ _ (by omega)
  have hWord : tmp.toBitVec.getLsbD (shift.toNat + i) = tmp.toBitVec[shift.toNat + i] :=
    BitVec.getLsbD_eq_getElem (by omega)
  have hLow : ¬ shift.toNat + 8 + i < 8 := by omega
  have hHigh : shift.toNat + 8 + i < 32 := by omega
  simp [byteOf, pushByte, maskBit hi, hShift, hShift', hIndex, hByte, hWord, hLow, hHigh]

theorem wordBytes_pushByte (a b c d : UInt8) :
    wordBytes (pushByte (pushByte (pushByte (pushByte 0 a) b) c) d) = [a, b, c, d] := by
  have hThird (tmp : UInt32) (c d : UInt8) : byteOf (pushByte (pushByte tmp c) d) 8 = c := by
    rw [byteOf_pushByte _ _ (by decide : (8 : UInt32) = 0 + 8) (by decide), byteOf_pushByte_zero]
  have hSecond (tmp : UInt32) (b c d : UInt8) :
      byteOf (pushByte (pushByte (pushByte tmp b) c) d) 16 = b := by
    rw [byteOf_pushByte _ _ (by decide : (16 : UInt32) = 8 + 8) (by decide), hThird]
  have hTop : byteOf (pushByte (pushByte (pushByte (pushByte 0 a) b) c) d) 24 = a := by
    rw [byteOf_pushByte _ _ (by decide : (24 : UInt32) = 16 + 8) (by decide), hSecond]
  rw [wordBytes, hTop, hSecond, hThird, byteOf_pushByte_zero]

theorem wordBytes_packWord (bytes : List UInt8) (i : Nat) :
    wordBytes (packWord bytes i) = (List.range 4).map fun b => bytes.getD (4 * i + b) 0xFF :=
  wordBytes_pushByte _ _ _ _

theorem flatMap_wordBytes (bytes : List UInt8) {n : Nat} (h : 4 * n ≤ bytes.length) :
    ((List.range n).map (packWord bytes)).flatMap wordBytes = bytes.take (4 * n) := by
  induction n with
  | zero => rfl
  | succ n ih =>
    have hWord : wordBytes (packWord bytes n) = (bytes.drop (4 * n)).take 4 := by
      rw [wordBytes_packWord]
      apply List.ext_getElem
      · simp
        omega
      · intro b hb hb'
        have hb'' : b < 4 := by simpa using hb
        have hIndex : 4 * n + b < bytes.length := by omega
        simp [hIndex]
    rw [List.range_succ, List.map_append, List.flatMap_append, ih (by omega), Nat.mul_succ,
      List.take_add, List.map_singleton, List.flatMap_singleton, hWord]

theorem pad_eq : ∀ {tail : List UInt8}, tail.length < 4 →
    (List.range 4).map (fun b => tail.getD b 0xFF) =
      tail ++ 0xFF :: List.replicate (3 - tail.length) 0xFF
  | [], _ => rfl
  | [_], _ => rfl
  | [_, _], _ => rfl
  | [_, _, _], _ => rfl
  | _ :: _ :: _ :: _ :: _, h => by simp at h; omega

theorem wordBytes_last (bytes : List UInt8) :
    wordBytes (packWord bytes (bytes.length / 4)) =
      bytes.drop (4 * (bytes.length / 4)) ++ 0xFF :: List.replicate (3 - bytes.length % 4) 0xFF := by
  have hLength : (bytes.drop (4 * (bytes.length / 4))).length = bytes.length % 4 := by
    rw [List.length_drop]
    omega
  rw [wordBytes_packWord, ← hLength, ← pad_eq (by omega)]
  apply List.map_congr_left
  intro b _
  rw [List.getD_eq_getElem?_getD, List.getD_eq_getElem?_getD, List.getElem?_drop]

end Words

section Decoder

theorem readTail_filler (out tail more : List UInt8) :
    readTail out (tail ++ 0xFF :: more) = (out ++ tail.takeWhile (· ≠ 0xFF), true) := by
  induction tail generalizing out with
  | nil => simp [readTail]
  | cons byte rest ih =>
    rw [List.cons_append, readTail]
    by_cases hByte : byte = 0xFF
    · simp [hByte]
    · rw [if_neg hByte, ih, List.takeWhile_cons_of_pos (by simpa using hByte), List.append_assoc]
      rfl

theorem unpackLoop_cons (out : List UInt8) (word : UInt32) {words : List UInt32} (h : words ≠ []) :
    unpackLoop out (word :: words) = unpackLoop (out ++ wordBytes word) words := by
  cases words with
  | nil => exact absurd rfl h
  | cons next more =>
    rw [unpackLoop]
    exact h

theorem unpackLoop_append (words : List UInt32) (last : UInt32) (out : List UInt8) :
    unpackLoop out (words ++ [last]) = unpackLoop (out ++ words.flatMap wordBytes) [last] := by
  induction words generalizing out with
  | nil => rw [List.nil_append, List.flatMap_nil, List.append_nil]
  | cons word rest ih =>
    rw [List.cons_append, unpackLoop_cons out word (List.append_ne_nil_of_right_ne_nil _ (by simp)), ih,
      List.flatMap_cons, List.append_assoc]

/-- The decoder returns the full words and the rest up to its first byte `0xFF`. -/
theorem unpackLoop_packWords (bytes : List UInt8) :
    unpackLoop [] (packWords bytes) = bytes.take (4 * (bytes.length / 4)) ++
      (bytes.drop (4 * (bytes.length / 4))).takeWhile (· ≠ 0xFF) := by
  rw [packWords, List.range_succ, List.map_append, List.map_singleton, unpackLoop_append,
    flatMap_wordBytes bytes (by omega), unpackLoop, wordBytes_last, readTail_filler]
  rfl

def TailClear (bytes : List UInt8) : Prop := ∀ byte ∈ bytes.drop (4 * (bytes.length / 4)), byte ≠ 0xFF

instance (bytes : List UInt8) : Decidable (TailClear bytes) :=
  inferInstanceAs (Decidable (∀ byte ∈ bytes.drop (4 * (bytes.length / 4)), byte ≠ 0xFF))

theorem unpack_eq_self_iff (bytes : List UInt8) :
    unpackLoop [] (packWords bytes) = bytes ↔ TailClear bytes := by
  have hSplit := List.take_append_drop (4 * (bytes.length / 4)) bytes
  rw [unpackLoop_packWords]
  constructor
  · intro h
    have hTail := List.append_cancel_left (h.trans hSplit.symm)
    intro byte hByte
    simpa using List.takeWhile_eq_self_iff.mp hTail byte hByte
  · intro h
    rw [List.takeWhile_eq_self_iff.mpr fun byte hByte => decide_eq_true (h byte hByte), hSplit]

end Decoder

section RoundTrip
variable {Wire : Type} {pb : Protobuf Wire}

theorem deserializeQuery_serializeQuery
    (hParse : ∀ m, pb.parseFromString (pb.serializeToString m) = some m) (q : ClientQuery) :
    deserializeQuery pb (serializeQuery pb q) =
      some ⟨unpackLoop [] (packWords q.leftQuery), unpackLoop [] (packWords q.rightQuery)⟩ := by
  rw [deserializeQuery, serializeQuery, hParse]
  rfl

/-- A query comes back unchanged exactly when neither vector ends in a byte that looks like filler. -/
theorem roundTrip_iff (hParse : ∀ m, pb.parseFromString (pb.serializeToString m) = some m)
    (q : ClientQuery) : deserializeQuery pb (serializeQuery pb q) = some q ↔
      TailClear q.leftQuery ∧ TailClear q.rightQuery := by
  rw [deserializeQuery_serializeQuery hParse, ← unpack_eq_self_iff, ← unpack_eq_self_iff, Option.some_inj]
  constructor
  · intro h
    exact ⟨congrArg ClientQuery.leftQuery h, congrArg ClientQuery.rightQuery h⟩
  · rintro ⟨hLeft, hRight⟩
    rw [hLeft, hRight]

end RoundTrip

section WireFormat
open WireFields

/-- The unpacked encoding of the two repeated fields. -/
def wireFormat : Protobuf (List UInt8) where
  serializeToString m :=
    writeFields (m.leftQuery.map (fun v => (1, v.toNat)) ++ m.rightQuery.map fun v => (2, v.toNat))
  parseFromString bytes := do
    let fields ← parse bytes
    let values (number : Nat) : List UInt32 :=
      (fields.filter fun field => field.1 == number).map fun field => UInt32.ofNat field.2
    some ⟨values 1, values 2⟩

theorem wireFormat_parse (m : QueryMessage) :
    wireFormat.parseFromString (wireFormat.serializeToString m) = some m := by
  simp [wireFormat, parse_writeFields, List.filter_map, Function.comp_def]

end WireFormat

theorem roundTrip_iff_short :
    deserializeQuery wireFormat (serializeQuery wireFormat ⟨[1, 2, 3, 4, 5], [0xFF, 0, 0, 0]⟩) =
        some ⟨[1, 2, 3, 4, 5], [0xFF, 0, 0, 0]⟩ ↔
      TailClear [1, 2, 3, 4, 5] ∧ TailClear [0xFF, 0, 0, 0] :=
  roundTrip_iff wireFormat_parse ⟨[1, 2, 3, 4, 5], [0xFF, 0, 0, 0]⟩

/-- The only byte of the left vector is taken for filler. -/
theorem roundTrip_lost :
    (∀ m, wireFormat.parseFromString (wireFormat.serializeToString m) = some m) ∧
      deserializeQuery wireFormat (serializeQuery wireFormat ⟨[0xFF], []⟩) = some ⟨[], []⟩ ∧
      (⟨[], []⟩ : ClientQuery) ≠ ⟨[0xFF], []⟩ := by
  refine ⟨wireFormat_parse, ?_, by decide⟩
  rw [deserializeQuery_serializeQuery wireFormat_parse]
  decide

end DpfPir
