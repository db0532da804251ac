import Mathlib.Data.List.Basic

/-! # Bit vectors as lists of digits

A register is cut into digits of one width, least significant first, the way a
little-endian machine lays it out in memory, and put together again. Widths and
numbers of digits are arbitrary.
-/

namespace Digits
set_option autoImplicit false

variable {u w : Nat}

/-- The `count` lowest digits of `u` bits each, the lowest first. -/
def digits (u count : Nat) (v : BitVec w) : List (BitVec u) :=
  (List.range count).map fun i => v.extractLsb' (u * i) u

/-- The vector with the given digits, lowest first; what does not fit is cut off. -/
def ofDigits (w : Nat) : List (BitVec u) → BitVec w
  | [] => 0#w
  | digit :: rest => ofDigits w rest <<< u ||| digit.setWidth w

@[simp] theorem length_digits (count : Nat) (v : BitVec w) : (digits u count v).length = count := by
  simp [digits]

theorem digits_getElem? {count i : Nat} (hi : i < count) (v : BitVec w) :
    (digits u count v)[i]? = some (v.extractLsb' (u * i) u) := by
  simp [digits, hi]

theorem getLsbD_ofDigits (hu : 0 < u) (ds : List (BitVec u)) {i : Nat} (hi : i < w) :
    (ofDigits w ds).getLsbD i = (ds.getD (i / u) 0#u).getLsbD (i % u) := by
  induction ds generalizing i with
  | nil => simp [ofDigits]
  | cons digit rest ih =>
    rw [ofDigits, BitVec.getLsbD_or, BitVec.getLsbD_shiftLeft, BitVec.getLsbD_setWidth]
    rcases Nat.lt_or_ge i u with hLow | hHigh
    · simp [hi, hLow, Nat.div_eq_of_lt hLow, Nat.mod_eq_of_lt hLow]
    · obtain ⟨j, rfl⟩ := Nat.exists_eq_add_of_le hHigh
      have hIndex : (u + j) / u = j / u + 1 := Nat.add_div_left j hu
      simp [hi, hIndex, ih (by omega : j < w)]

theorem ofDigits_digits (hu : 0 < u) {count : Nat} (hCount : w ≤ u * count) (v : BitVec w) :
    ofDigits w (digits u count v) = v := by
  apply BitVec.eq_of_getLsbD_eq
  intro i hi
  have hDigit : i / u < count := Nat.div_lt_of_lt_mul (Nat.lt_of_lt_of_le hi hCount)
  rw [getLsbD_ofDigits hu _ hi, List.getD_eq_getElem?_getD, digits_getElem? hDigit]
  simp [Nat.mod_lt _ hu, Nat.div_add_mod]

theorem digits_ofDigits (hu : 0 < u) {count : Nat} {ds : List (BitVec u)} (hLen : ds.length = count) :
    digits u count (ofDigits (u * count) ds) = ds := by
  apply List.ext_getElem?
  intro i
  rcases Nat.lt_or_ge i count with hi | hi
  · have hInside : i < ds.length := hLen ▸ hi
    rw [digits_getElem? hi, List.getElem?_eq_getElem hInside, Option.some_inj]
    apply BitVec.eq_of_getLsbD_eq
    intro j hj
    have hBit : u * i + j < u * count := by
      have hRow := Nat.mul_le_mul_left u (Nat.succ_le_of_lt hi)
      rw [Nat.mul_succ] at hRow
      omega
    have hDiv : (u * i + j) / u = i := by
      rw [Nat.mul_add_div hu, Nat.div_eq_of_lt hj, Nat.add_zero]
    have hMod : (u * i + j) % u = j := by
      rw [Nat.mul_add_mod, Nat.mod_eq_of_lt hj]
    simp [hj, getLsbD_ofDigits hu ds hBit, hDiv, hMod, hInside]
  · rw [List.getElem?_eq_none (by simpa using hi), List.getElem?_eq_none (by omega)]

end Digits
