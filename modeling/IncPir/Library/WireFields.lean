import Mathlib.Data.List.Basic
import Mathlib.Algebra.Order.Ring.Nat

/-! # Varint records

A message whose fields are unsigned numbers is written as a sequence of tags
and values, each in base 128 with the least significant digit first. Reading
the written bytes returns the fields in order. A field that holds a message of
its own is written with the length of its bytes before them.
-/

namespace WireFields
set_option autoImplicit false

def varint (n : Nat) : List UInt8 :=
  if n < 128 then [UInt8.ofNat n] else UInt8.ofNat (n % 128 + 128) :: varint (n / 128)

def readVarint : List UInt8 → Option (Nat × List UInt8)
  | [] => none
  | byte :: bytes =>
    if byte.toNat < 128 then some (byte.toNat, bytes)
    else (readVarint bytes).map fun t => (byte.toNat - 128 + 128 * t.1, t.2)

theorem readVarint_varint (n : Nat) (rest : List UInt8) : readVarint (varint n ++ rest) = some (n, rest) := by
  induction n using Nat.strongRecOn with
  | ind n ih =>
    rw [varint]
    split
    · rename_i hSmall
      have hByte : (UInt8.ofNat n).toNat = n := by
        rw [UInt8.toNat_ofNat']
        omega
      rw [List.singleton_append, readVarint, hByte, if_pos hSmall]
    · rename_i hLarge
      have hByte : (UInt8.ofNat (n % 128 + 128)).toNat = n % 128 + 128 := by
        rw [UInt8.toNat_ofNat']
        omega
      rw [List.cons_append, readVarint, hByte, if_neg (by omega), ih (n / 128) (by omega)]
      simp only [Option.map_some, Nat.add_sub_cancel, Nat.mod_add_div]

theorem varint_ne_nil (n : Nat) : varint n ≠ [] := by
  rw [varint]
  split <;> simp

def writeField (field : Nat × Nat) : List UInt8 := varint (8 * field.1) ++ varint field.2

def writeFields (fields : List (Nat × Nat)) : List UInt8 := fields.flatMap writeField

def readFields : Nat → List UInt8 → Option (List (Nat × Nat))
  | _, [] => some []
  | 0, _ :: _ => none
  | fuel + 1, byte :: bytes => do
    let (tag, bytes) ← readVarint (byte :: bytes)
    if tag % 8 ≠ 0 then none
    else do
      let (value, bytes) ← readVarint bytes
      let fields ← readFields fuel bytes
      some ((tag / 8, value) :: fields)

theorem readFields_writeFields {fields : List (Nat × Nat)} {fuel : Nat} (h : fields.length ≤ fuel) :
    readFields fuel (writeFields fields) = some fields := by
  induction fields generalizing fuel with
  | nil => cases fuel <;> rfl
  | cons field rest ih =>
    cases fuel with
    | zero => exact absurd h (by simp)
    | succ fuel =>
      have hWrite : writeFields (field :: rest) =
          varint (8 * field.1) ++ (varint field.2 ++ writeFields rest) := by
        rw [writeFields, List.flatMap_cons, writeField, List.append_assoc]
        rfl
      have hRest := ih (Nat.le_of_succ_le_succ h)
      obtain ⟨byte, bytes, hCons⟩ := List.exists_cons_of_ne_nil (varint_ne_nil (8 * field.1))
      have hTag := readVarint_varint (8 * field.1) (varint field.2 ++ writeFields rest)
      rw [hWrite, hCons, List.cons_append, readFields, ← List.cons_append, ← hCons, hTag]
      simp [readVarint_varint, hRest]

theorem length_le_length_writeFields (fields : List (Nat × Nat)) :
    fields.length ≤ (writeFields fields).length := by
  induction fields with
  | nil => exact Nat.le_refl _
  | cons field rest ih =>
    have hTag := List.length_pos_iff.mpr (varint_ne_nil (8 * field.1))
    rw [writeFields, List.flatMap_cons, writeField, List.length_append, List.length_append,
      List.length_cons]
    rw [writeFields] at ih
    omega

/-- The fields of a byte string; every field takes at least one byte. -/
def parse (bytes : List UInt8) : Option (List (Nat × Nat)) := readFields bytes.length bytes

theorem parse_writeFields (fields : List (Nat × Nat)) : parse (writeFields fields) = some fields :=
  readFields_writeFields (length_le_length_writeFields fields)

section Records

inductive Value where
  | number (n : Nat)
  | message (bytes : List UInt8)
deriving DecidableEq

def writeRecord : Nat × Value → List UInt8
  | (field, .number n) => varint (8 * field) ++ varint n
  | (field, .message bytes) => varint (8 * field + 2) ++ (varint bytes.length ++ bytes)

def writeRecords (records : List (Nat × Value)) : List UInt8 := records.flatMap writeRecord

/-- The record that follows its tag, with the bytes after it. -/
def readValue (tag : Nat) (bytes : List UInt8) : Option ((Nat × Value) × List UInt8) := do
  let (n, bytes) ← readVarint bytes
  if tag % 8 = 0 then some ((tag / 8, .number n), bytes)
  else if tag % 8 = 2 ∧ n ≤ bytes.length then some ((tag / 8, .message (bytes.take n)), bytes.drop n)
  else none

def readRecords : Nat → List UInt8 → Option (List (Nat × Value))
  | _, [] => some []
  | 0, _ :: _ => none
  | fuel + 1, byte :: bytes => do
    let (tag, bytes) ← readVarint (byte :: bytes)
    let (record, bytes) ← readValue tag bytes
    let records ← readRecords fuel bytes
    some (record :: records)

theorem writeRecord_spec (record : Nat × Value) : ∃ tag body, writeRecord record = varint tag ++ body ∧
    ∀ rest, readValue tag (body ++ rest) = some (record, rest) := by
  obtain ⟨field, value⟩ := record
  cases value with
  | number n =>
    refine ⟨8 * field, varint n, rfl, fun rest => ?_⟩
    simp [readValue, readVarint_varint]
  | message bytes =>
    refine ⟨8 * field + 2, varint bytes.length ++ bytes, rfl, fun rest => ?_⟩
    have hTag : (8 * field + 2) / 8 = field := by omega
    simp [readValue, List.append_assoc, readVarint_varint, hTag]

theorem readRecords_writeRecords {records : List (Nat × Value)} {fuel : Nat} (h : records.length ≤ fuel) :
    readRecords fuel (writeRecords records) = some records := by
  induction records generalizing fuel with
  | nil => cases fuel <;> rfl
  | cons record rest ih =>
    cases fuel with
    | zero => exact absurd h (by simp)
    | succ fuel =>
      obtain ⟨tag, body, hRecord, hRead⟩ := writeRecord_spec record
      have hWrite : writeRecords (record :: rest) = varint tag ++ (body ++ writeRecords rest) := by
        rw [writeRecords, List.flatMap_cons, hRecord, List.append_assoc]
        rfl
      obtain ⟨byte, bytes, hCons⟩ := List.exists_cons_of_ne_nil (varint_ne_nil tag)
      have hTag := readVarint_varint tag (body ++ writeRecords rest)
      rw [hWrite, hCons, List.cons_append, readRecords, ← List.cons_append, ← hCons, hTag]
      simp [hRead, ih (Nat.le_of_succ_le_succ h)]

theorem length_le_length_writeRecords (records : List (Nat × Value)) :
    records.length ≤ (writeRecords records).length := by
  induction records with
  | nil => exact Nat.le_refl _
  | cons record rest ih =>
    obtain ⟨tag, body, hRecord, -⟩ := writeRecord_spec record
    have hTag := List.length_pos_iff.mpr (varint_ne_nil tag)
    rw [writeRecords] at ih
    rw [writeRecords, List.flatMap_cons, hRecord, List.length_append, List.length_append, List.length_cons]
    omega

def parseRecords (bytes : List UInt8) : Option (List (Nat × Value)) := readRecords bytes.length bytes

theorem parseRecords_writeRecords (records : List (Nat × Value)) :
    parseRecords (writeRecords records) = some records :=
  readRecords_writeRecords (length_le_length_writeRecords records)

/-- The numbers of one field, in order. -/
def numbers (field : Nat) (records : List (Nat × Value)) : List Nat :=
  records.filterMap fun
    | (f, .number n) => if f = field then some n else none
    | _ => none

/-- The messages of one field, in order. -/
def messages (field : Nat) (records : List (Nat × Value)) : List (List UInt8) :=
  records.filterMap fun
    | (f, .message bytes) => if f = field then some bytes else none
    | _ => none

def numberField {α : Type} (field : Nat) (toNat : α → Nat) (values : List α) : List (Nat × Value) :=
  values.map fun v => (field, .number (toNat v))

def messageField {α : Type} (field : Nat) (write : α → List UInt8) (values : List α) : List (Nat × Value) :=
  values.map fun v => (field, .message (write v))

@[simp] theorem numbers_nil (field : Nat) : numbers field [] = [] := rfl

@[simp] theorem messages_nil (field : Nat) : messages field [] = [] := rfl

@[simp] theorem numbers_append (field : Nat) (left right : List (Nat × Value)) :
    numbers field (left ++ right) = numbers field left ++ numbers field right := List.filterMap_append ..

@[simp] theorem messages_append (field : Nat) (left right : List (Nat × Value)) :
    messages field (left ++ right) = messages field left ++ messages field right := List.filterMap_append ..

@[simp] theorem numbers_numberField {α : Type} (field f : Nat) (toNat : α → Nat) (values : List α) :
    numbers field (numberField f toNat values) = if f = field then values.map toNat else [] := by
  by_cases h : f = field <;> simp [numbers, numberField, h, List.filterMap_map]

@[simp] theorem numbers_messageField {α : Type} (field f : Nat) (write : α → List UInt8) (values : List α) :
    numbers field (messageField f write values) = [] := by
  simp [numbers, messageField, List.filterMap_map]

@[simp] theorem messages_numberField {α : Type} (field f : Nat) (toNat : α → Nat) (values : List α) :
    messages field (numberField f toNat values) = [] := by
  simp [messages, numberField, List.filterMap_map]

@[simp] theorem messages_messageField {α : Type} (field f : Nat) (write : α → List UInt8) (values : List α) :
    messages field (messageField f write values) = if f = field then values.map write else [] := by
  by_cases h : f = field <;> simp [messages, messageField, h, List.filterMap_map]

end Records

section Sizes

theorem length_varint_le {k n : Nat} (h : n < 128 ^ (k + 1)) : (varint n).length ≤ k + 1 := by
  induction k generalizing n with
  | zero =>
    have hOne : n < 128 := by simpa using h
    rw [varint, if_pos hOne]
    exact Nat.le_refl _
  | succ k ih =>
    rw [varint]
    split
    · exact Nat.le_add_left _ _
    · have hRest : n / 128 < 128 ^ (k + 1) := Nat.div_lt_of_lt_mul (by rwa [pow_succ, Nat.mul_comm] at h)
      exact Nat.succ_le_succ (ih hRest)

theorem length_writeRecords_append (left right : List (Nat × Value)) :
    (writeRecords (left ++ right)).length = (writeRecords left).length + (writeRecords right).length := by
  rw [writeRecords, List.flatMap_append, List.length_append]
  rfl

theorem length_writeRecords_le {records : List (Nat × Value)} {bound : Nat}
    (h : ∀ record ∈ records, (writeRecord record).length ≤ bound) :
    (writeRecords records).length ≤ records.length * bound := by
  induction records with
  | nil => exact Nat.zero_le _
  | cons record rest ih =>
    have hFirst := h record List.mem_cons_self
    have hRest := ih fun r hr => h r (List.mem_cons_of_mem _ hr)
    rw [writeRecords] at hRest
    rw [writeRecords, List.flatMap_cons, List.length_append, List.length_cons, Nat.succ_mul]
    omega

/-- Tags of fields below 16 take one byte. -/
theorem length_varint_tag {tag : Nat} (h : tag < 128) : (varint tag).length = 1 := by
  rw [varint, if_pos h]
  rfl

theorem length_writeFields_append (left right : List (Nat × Nat)) :
    (writeFields (left ++ right)).length = (writeFields left).length + (writeFields right).length := by
  rw [writeFields, List.flatMap_append, List.length_append]
  rfl

theorem length_writeFields_le {fields : List (Nat × Nat)} {k : Nat}
    (h : ∀ field ∈ fields, field.1 < 16 ∧ field.2 < 128 ^ (k + 1)) :
    (writeFields fields).length ≤ fields.length * (k + 2) := by
  induction fields with
  | nil => exact Nat.zero_le _
  | cons field rest ih =>
    obtain ⟨hTag, hValue⟩ := h field List.mem_cons_self
    have hVarint := length_varint_le hValue
    have hRest := ih fun next hNext => h next (List.mem_cons_of_mem _ hNext)
    rw [writeFields] at hRest
    rw [writeFields, List.flatMap_cons, writeField, List.length_append, List.length_append,
      length_varint_tag (by omega), List.length_cons, Nat.succ_mul]
    omega

theorem length_numberField_le {α : Type} {field k : Nat} (hField : field < 16) {toNat : α → Nat} {values : List α}
    (hValues : ∀ v ∈ values, toNat v < 128 ^ (k + 1)) :
    (writeRecords (numberField field toNat values)).length ≤ values.length * (k + 2) := by
  have hBound : ∀ record ∈ numberField field toNat values, (writeRecord record).length ≤ k + 2 := by
    intro record hRecord
    obtain ⟨v, hv, rfl⟩ := List.mem_map.mp hRecord
    have hVarint := length_varint_le (hValues v hv)
    rw [writeRecord, List.length_append, length_varint_tag (by omega)]
    omega
  have hWhole := length_writeRecords_le hBound
  rwa [numberField, List.length_map] at hWhole

theorem length_messageField_le {α : Type} {field k bound : Nat} (hField : field < 15) {write : α → List UInt8}
    {values : List α} (hValues : ∀ v ∈ values, (write v).length ≤ bound) (hBound : bound < 128 ^ (k + 1)) :
    (writeRecords (messageField field write values)).length ≤ values.length * (bound + k + 2) := by
  have hRecords : ∀ record ∈ messageField field write values, (writeRecord record).length ≤ bound + k + 2 := by
    intro record hRecord
    obtain ⟨v, hv, rfl⟩ := List.mem_map.mp hRecord
    have hLength := hValues v hv
    have hVarint := length_varint_le (Nat.lt_of_le_of_lt hLength hBound)
    rw [writeRecord, List.length_append, List.length_append, length_varint_tag (by omega)]
    omega
  have hWhole := length_writeRecords_le hRecords
  rwa [messageField, List.length_map] at hWhole

end Sizes

end WireFields
