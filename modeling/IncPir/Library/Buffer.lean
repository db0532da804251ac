import Mathlib.Data.List.Basic

/-! # Buffers filled from a stream

A chunk is stored into a buffer from an offset on. While chunks of a stream are
stored one behind the other, the buffer is a prefix of the stream followed by
what it held before, whichever sizes the chunks have.
-/

namespace Buffer
set_option autoImplicit false

variable {α : Type}

def overwrite (buf : List α) (offset : Nat) (chunk : List α) : List α :=
  buf.take offset ++ chunk ++ buf.drop (offset + chunk.length)

/-- The buffer whose first `n` entries come from the stream. -/
def filled (stream buf : List α) (n : Nat) : List α := stream.take n ++ buf.drop n

@[simp] theorem filled_zero (stream buf : List α) : filled stream buf 0 = buf := rfl

theorem filled_of_length_le {stream buf : List α} {n : Nat} (h : buf.length ≤ n) :
    filled stream buf n = stream.take n := by
  rw [filled, List.drop_eq_nil_of_le h, List.append_nil]

theorem overwrite_filled {stream buf : List α} {n : Nat} (hn : n ≤ stream.length) (size : Nat) :
    overwrite (filled stream buf n) n ((stream.drop n).take size) =
      filled stream buf (n + ((stream.drop n).take size).length) := by
  have hTake : (stream.take n).length = n := List.length_take_of_le hn
  have hChunk : (stream.drop n).take ((stream.drop n).take size).length = (stream.drop n).take size := by
    simp
  have hDrop : (stream.take n ++ buf.drop n).drop (n + ((stream.drop n).take size).length) =
      buf.drop (n + ((stream.drop n).take size).length) := by
    rw [← List.drop_drop, List.drop_left' hTake, List.drop_drop]
  rw [overwrite, filled, List.take_left' hTake, hDrop, filled, List.take_add, hChunk]

section Regions

@[simp] theorem length_overwrite {buf chunk : List α} {offset : Nat} (h : offset + chunk.length ≤ buf.length) :
    (overwrite buf offset chunk).length = buf.length := by
  simp only [overwrite, List.length_append, List.length_take, List.length_drop]
  omega

theorem overwrite_whole {buf chunk : List α} (h : chunk.length = buf.length) : overwrite buf 0 chunk = chunk := by
  simp [overwrite, h]

/-- A chunk that is stored behind another one makes one chunk with it. -/
theorem overwrite_overwrite {buf first second : List α} {offset : Nat} (h : offset ≤ buf.length) :
    overwrite (overwrite buf offset first) (offset + first.length) second = overwrite buf offset (first ++ second) := by
  have hOffset : (buf.take offset).length = offset := List.length_take_of_le h
  have hFront : (buf.take offset ++ first).length = offset + first.length := by
    rw [List.length_append, hOffset]
  have hBack : (overwrite buf offset first).drop (offset + first.length + second.length) =
      buf.drop (offset + (first ++ second).length) := by
    rw [overwrite, ← List.drop_drop, List.drop_left' hFront, List.drop_drop, List.length_append, Nat.add_assoc]
  rw [overwrite, hBack, overwrite, List.take_left' hFront, overwrite]
  simp only [List.append_assoc]

/-- A chunk that fits into a region changes no other region. -/
theorem overwrite_region {region chunk : List α} {offset : Nat} (h : offset + chunk.length ≤ region.length)
    (front back : List α) :
    overwrite (front ++ region ++ back) (front.length + offset) chunk = front ++ overwrite region offset chunk ++ back := by
  have hTake : (front ++ region ++ back).take (front.length + offset) = front ++ region.take offset := by
    rw [List.append_assoc, List.take_length_add_append, List.take_append_of_le_length (by omega)]
  have hDrop : (front ++ region ++ back).drop (front.length + offset + chunk.length) =
      region.drop (offset + chunk.length) ++ back := by
    rw [Nat.add_assoc, List.append_assoc, List.drop_length_add_append, List.drop_append_of_le_length h]
  rw [overwrite, hTake, hDrop, overwrite]
  simp only [List.append_assoc]

/-- The addresses of one offset in regions that lie one behind the other. -/
def addresses (base offset : Nat) : List (List α) → List Nat
  | [] => []
  | region :: rest => (base + offset) :: addresses (base + region.length) offset rest

theorem addresses_replicate (base offset count : Nat) (region : List α) :
    addresses base offset (List.replicate count region) =
      (List.range count).map fun i => base + i * region.length + offset := by
  induction count generalizing base with
  | zero => rfl
  | succ count ih =>
    rw [List.replicate_succ, addresses, ih, List.range_succ_eq_map, List.map_cons, List.map_map]
    congr 1
    · omega
    · apply List.map_congr_left
      intro i _
      rw [Function.comp_apply, Nat.succ_mul]
      omega

theorem addresses_congr (base offset : Nat) {regions regions' : List (List α)}
    (h : regions.map List.length = regions'.map List.length) :
    addresses base offset regions = addresses base offset regions' := by
  induction regions generalizing base regions' with
  | nil =>
    obtain rfl := List.map_eq_nil_iff.mp h.symm
    rfl
  | cons region rest ih =>
    cases regions' with
    | nil => cases h
    | cons region' rest' =>
      rw [List.map_cons, List.map_cons] at h
      obtain ⟨hHead, hTail⟩ := List.cons_eq_cons.mp h
      rw [addresses, addresses, hHead, ih _ hTail]

end Regions

end Buffer
