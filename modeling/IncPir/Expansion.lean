import IncPir.Client
import IncPir.RangePrp
import IncPir.Library.SlotSet

/-! # Descriptors as slotted index sets

The abstract layer: a descriptor with genuine counts denotes a slotted set,
the expansion loop lists its members, and the search loop decides membership
in the set obtained with the slot keys that the search uses.
-/

namespace IncPir
open SlotSet LoopM
set_option autoImplicit false

structure AuxWF (dbrange setsize : Nat) (aux : Aux) : Prop where
  ranges : (aux.map Prod.fst).sum = dbrange
  counts_le : ∀ t ∈ aux, t.2 ≤ t.1
  counts : countSum aux = setsize

/-- The shift is a residue modulo the range of the first slot. -/
structure SetWF (dbrange setsize : Nat) (d : SetDesc) : Prop extends AuxWF dbrange setsize d.aux where
  shift_lt : ∀ t, d.aux.head? = some t → d.shift < t.1

theorem SetWF.own_count {dbrange setsize : Nat} {d : SetDesc} (h : SetWF dbrange setsize d) :
    SetWF dbrange (countSum d.aux) d := by
  rwa [h.counts]

variable (aes : Aes)

/-- The position `(y + range - shift) % range` that the shift moved to `y`. -/
def unshift (range shift y : Nat) : Nat := (y + (range - shift % range)) % range

theorem unshift_lt {range : Nat} (shift : Nat) {y : Nat} (hy : y < range) : unshift range shift y < range :=
  Nat.mod_lt _ (by omega)

theorem add_unshift_sum {range : Nat} (hPos : 0 < range) (shift : Nat) :
    shift + (range - shift % range) = range * (shift / range + 1) := by
  have hMod := Nat.mod_lt shift hPos
  have hDecomp := Nat.div_add_mod shift range
  rw [Nat.mul_succ]
  omega

theorem unshift_add {range shift x : Nat} (hx : x < range) :
    unshift range shift ((x + shift) % range) = x := by
  rw [unshift, Nat.mod_add_mod, Nat.add_assoc, add_unshift_sum (by omega), Nat.add_mul_mod_self_left,
    Nat.mod_eq_of_lt hx]

theorem add_unshift {range shift y : Nat} (hy : y < range) :
    (unshift range shift y + shift) % range = y := by
  rw [unshift, Nat.mod_add_mod, Nat.add_assoc, Nat.add_comm _ shift, add_unshift_sum (by omega),
    Nat.add_mul_mod_self_left, Nat.mod_eq_of_lt hy]

theorem unshift_zero {range y : Nat} (hy : y < range) : unshift range 0 y = y := by
  rw [unshift, Nat.zero_mod, Nat.sub_zero, Nat.add_mod_right, Nat.mod_eq_of_lt hy]

theorem unshift_of_lt {range shift : Nat} (h : shift < range) (y : Nat) :
    unshift range shift y = (y + range - shift) % range := by
  rw [unshift, Nat.mod_eq_of_lt h, Nat.add_sub_assoc (by omega)]

/-- A slot under the key and shift; a count above the range denotes no members. -/
def slotOf (key : Key) (shift range count : Nat) : Slot :=
  if h : range < 2 ^ 32 ∧ count ≤ range then
    { range := range
      count := count
      place := fun x => (prp aes key range x + shift) % range
      locate := fun y => invPrp aes key range (unshift range shift y)
      count_le := h.2
      place_lt := fun _ hx => Nat.mod_lt _ (by omega)
      locate_lt := fun _ hy => invPrp_lt aes key h.1 (unshift_lt shift hy)
      locate_place := fun x hx => by
        rw [unshift_add (prp_lt aes key h.1 hx), invPrp_prp aes key h.1 hx]
      place_locate := fun y hy => by
        rw [prp_invPrp aes key h.1 (unshift_lt shift hy), add_unshift hy] }
  else
    { range := range
      count := 0
      place := id
      locate := id
      count_le := Nat.zero_le _
      place_lt := fun _ hx => hx
      locate_lt := fun _ hy => hy
      locate_place := fun _ _ => rfl
      place_locate := fun _ _ => rfl }

@[simp] theorem slotOf_range (key : Key) (shift range count : Nat) :
    (slotOf aes key shift range count).range = range := by
  rw [slotOf]
  split <;> rfl

section Genuine
variable {range count : Nat} (hRange : range < 2 ^ 32) (hCount : count ≤ range)
include hRange hCount

theorem slotOf_count (key : Key) (shift : Nat) : (slotOf aes key shift range count).count = count := by
  rw [slotOf, dif_pos ⟨hRange, hCount⟩]

theorem slotOf_place (key : Key) (shift : Nat) :
    (slotOf aes key shift range count).place = fun x => (prp aes key range x + shift) % range := by
  rw [slotOf, dif_pos ⟨hRange, hCount⟩]

theorem slotOf_locate (key : Key) (shift : Nat) :
    (slotOf aes key shift range count).locate =
      fun y => invPrp aes key range (unshift range shift y) := by
  rw [slotOf, dif_pos ⟨hRange, hCount⟩]

end Genuine

/-- The slots of a list, the first one of number `slot`, under a choice of slot keys. -/
def slotsFrom (key : Nat → Key) (shift : Nat) : Nat → Aux → List Slot
  | _, [] => []
  | slot, (range, count) :: rest =>
    slotOf aes (key slot) (if slot = 0 then shift else 0) range count :: slotsFrom key shift (slot + 1) rest

theorem span_slotsFrom (key : Nat → Key) (shift slot : Nat) (aux : Aux) :
    span (slotsFrom aes key shift slot aux) = (aux.map Prod.fst).sum := by
  induction aux generalizing slot with
  | nil => rfl
  | cons t rest ih => rw [slotsFrom, span_cons, slotOf_range, ih, List.map_cons, List.sum_cons]

structure Fits (off : Nat) (aux : Aux) : Prop where
  within : off + (aux.map Prod.fst).sum ≤ 2 ^ 31
  counts_le : ∀ t ∈ aux, t.2 ≤ t.1

theorem Fits.head {off range count : Nat} {rest : Aux} (h : Fits off ((range, count) :: rest)) :
    off + range ≤ 2 ^ 31 ∧ count ≤ range := by
  have hWithin := h.within
  rw [List.map_cons, List.sum_cons] at hWithin
  exact ⟨by omega, h.counts_le (range, count) List.mem_cons_self⟩

theorem Fits.tail {off range count : Nat} {rest : Aux} (h : Fits off ((range, count) :: rest)) :
    Fits (off + range) rest := by
  have hWithin := h.within
  rw [List.map_cons, List.sum_cons] at hWithin
  exact ⟨by omega, fun t ht => h.counts_le t (List.mem_cons_of_mem _ ht)⟩

theorem AuxWF.fits {dbrange setsize : Nat} {aux : Aux} (h : AuxWF dbrange setsize aux)
    (hRange : dbrange ≤ 2 ^ 31) : Fits 0 aux :=
  ⟨by rw [h.ranges]; omega, h.counts_le⟩

theorem total_slotsFrom (key : Nat → Key) (shift slot off : Nat) (aux : Aux) (h : Fits off aux) :
    total (slotsFrom aes key shift slot aux) = countSum aux := by
  induction aux generalizing slot off with
  | nil => rfl
  | cons t rest ih =>
    obtain ⟨range, count⟩ := t
    obtain ⟨hRange, hCount⟩ := h.head
    rw [slotsFrom, total_cons, slotOf_count aes (by omega) hCount, ih _ _ h.tail, countSum, countSum,
      List.map_cons, List.sum_cons]

section Descriptor
variable (mk : Key)

def expansion (d : SetDesc) : List Nat := members 0 (slotsFrom aes (slotKey aes mk d.sk) d.shift 0 d.aux)

/-- The slot keys of the search: a zero shift makes it derive a key for slot 0 as well. -/
def searchKey (d : SetDesc) (slot : Nat) : Key :=
  if d.shift ≠ 0 ∧ slot = 0 then d.sk else kdf aes mk d.sk slot

def searched (d : SetDesc) : List Nat := members 0 (slotsFrom aes (searchKey aes mk d) d.shift 0 d.aux)

theorem searched_eq_expansion {d : SetDesc} (h : d.shift ≠ 0) : searched aes mk d = expansion aes mk d := by
  have hKey : searchKey aes mk d = slotKey aes mk d.sk := by
    funext slot
    simp only [searchKey, slotKey, h, ne_eq, not_false_eq_true, true_and]
  rw [searched, expansion, hKey]

section WellFormed
variable {dbrange setsize : Nat} {d : SetDesc} (h : SetWF dbrange setsize d)
include h

theorem expansion_lt : ∀ i ∈ expansion aes mk d, i < dbrange := by
  intro i hi
  have hBounds := members_bounds _ _ i hi
  rw [span_slotsFrom, h.ranges] at hBounds
  omega

theorem length_expansion (hRange : dbrange ≤ 2 ^ 31) : (expansion aes mk d).length = setsize := by
  rw [expansion, length_members, total_slotsFrom aes _ _ _ _ _ (h.fits hRange), h.counts]

end WellFormed

theorem nodup_expansion (d : SetDesc) : (expansion aes mk d).Nodup := nodup_members _ _

theorem expandPoint_eq (d : SetDesc) {slot off range count x : Nat} (hRange : off + range ≤ 2 ^ 31)
    (hCount : count ≤ range) (hShift : slot = 0 → d.shift < range) (hx : x < count) :
    expandPoint aes mk d slot off range x =
      .ok (off + (slotOf aes (slotKey aes mk d.sk slot) (if slot = 0 then d.shift else 0)
        range count).place x) := by
  have hWord : range < 2 ^ 32 := by omega
  have hx' : x < range := by omega
  have hPoint := prp_lt aes (slotKey aes mk d.sk slot) hWord hx'
  rw [expandPoint, cycleWalk_eq_prp aes _ hWord hx',
    slotOf_place aes (by omega) hCount, ok_bind]
  by_cases hSlot : slot = 0
  · have hLt := hShift hSlot
    by_cases hZero : d.shift = 0
    · simp only [hZero, hSlot, ne_eq, not_true_eq_false, false_and, if_false, if_true, Nat.add_zero]
      rw [Nat.mod_eq_of_lt (by rwa [hSlot] at hPoint), u32_of_lt (by rw [hSlot] at hPoint; omega),
        Nat.add_comm]
    · have hMod : (prp aes (slotKey aes mk d.sk slot) range x + d.shift) % range < range :=
        Nat.mod_lt _ (by omega)
      simp only [hZero, hSlot, ne_eq, not_false_eq_true, true_and, if_true]
      rw [hSlot] at hMod hPoint
      rw [u32_of_lt (n := prp _ _ _ _ + d.shift) (by omega), u32_of_lt (by omega), Nat.add_comm]
  · simp only [hSlot, and_false, if_false, Nat.add_zero]
    rw [Nat.mod_eq_of_lt hPoint, u32_of_lt (by omega), Nat.add_comm]

end Descriptor

end IncPir
