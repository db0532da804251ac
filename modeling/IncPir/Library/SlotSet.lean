import IncPir.Library.XorFold
import Mathlib.Algebra.Order.Ring.Nat
import Mathlib.Data.List.Nodup

/-! # Index sets cut into slots

A slot is a run of consecutive indices whose first `count` positions, in the
order of a permutation of the run, are members. A list of slots placed end to
end is a set without repetitions, whose members are recognized by the inverse
permutation of the one slot that covers them.
-/

set_option autoImplicit false

structure Slot where
  range : Nat
  count : Nat
  place : Nat → Nat
  locate : Nat → Nat
  count_le : count ≤ range
  place_lt : ∀ x < range, place x < range
  locate_lt : ∀ y < range, locate y < range
  locate_place : ∀ x < range, locate (place x) = x
  place_locate : ∀ y < range, place (locate y) = y

namespace Slot
open XorFold

def points (s : Slot) : List Nat := (List.range s.count).map s.place

theorem length_points (s : Slot) : s.points.length = s.count := by
  rw [points, List.length_map, List.length_range]

theorem lt_range {s : Slot} {x : Nat} (hx : x < s.count) : x < s.range :=
  Nat.lt_of_lt_of_le hx s.count_le

theorem points_lt (s : Slot) : ∀ y ∈ s.points, y < s.range := by
  intro y hy
  obtain ⟨x, hx, rfl⟩ := List.mem_map.mp hy
  exact s.place_lt x (lt_range (List.mem_range.mp hx))

theorem mem_points_iff (s : Slot) {y : Nat} (hy : y < s.range) :
    y ∈ s.points ↔ s.locate y < s.count := by
  constructor
  · intro h
    obtain ⟨x, hx, rfl⟩ := List.mem_map.mp h
    rw [s.locate_place x (lt_range (List.mem_range.mp hx))]
    exact List.mem_range.mp hx
  · intro h
    exact List.mem_map.mpr ⟨s.locate y, List.mem_range.mpr h, s.place_locate y hy⟩

theorem nodup_points (s : Slot) : s.points.Nodup := by
  apply List.Nodup.map_on _ List.nodup_range
  intro x hx y hy h
  rw [← s.locate_place x (lt_range (List.mem_range.mp hx)),
    h, s.locate_place y (lt_range (List.mem_range.mp hy))]

/-- Positions `low, …, high - 1` in the order of the slot. -/
def band (s : Slot) (low high : Nat) : List Nat := (List.range' low (high - low)).map s.place

theorem points_eq_lower_append (s t : Slot) (hPlace : s.place = t.place) (hCount : t.count ≤ s.count) :
    s.points = t.points ++ s.band t.count s.count := by
  have hRange : List.range s.count = List.range t.count ++ List.range' t.count (s.count - t.count) := by
    have hAppend := List.range'_append_1 (s := 0) (m := t.count) (n := s.count - t.count)
    rw [Nat.zero_add, Nat.add_sub_cancel' hCount] at hAppend
    rw [List.range_eq_range', List.range_eq_range', hAppend]
  rw [points, hRange, List.map_append, hPlace, band, hPlace]
  rfl

end Slot

namespace SlotSet
open XorFold

def span (slots : List Slot) : Nat := (slots.map Slot.range).sum

def total (slots : List Slot) : Nat := (slots.map Slot.count).sum

@[simp] theorem span_nil : span [] = 0 := rfl

@[simp] theorem span_cons (s : Slot) (rest : List Slot) : span (s :: rest) = s.range + span rest := rfl

@[simp] theorem total_nil : total [] = 0 := rfl

@[simp] theorem total_cons (s : Slot) (rest : List Slot) :
    total (s :: rest) = s.count + total rest := rfl

/-- The members of slots laid end to end from index `off` on. -/
def members : Nat → List Slot → List Nat
  | _, [] => []
  | off, s :: rest => s.points.map (off + ·) ++ members (off + s.range) rest

theorem mem_head_iff (s : Slot) (off i : Nat) :
    i ∈ s.points.map (off + ·) ↔ off ≤ i ∧ i < off + s.range ∧ s.locate (i - off) < s.count := by
  constructor
  · intro h
    obtain ⟨y, hy, rfl⟩ := List.mem_map.mp h
    have hLt := s.points_lt y hy
    refine ⟨Nat.le_add_right off y, by omega, ?_⟩
    rw [Nat.add_sub_cancel_left]
    exact (s.mem_points_iff hLt).mp hy
  · rintro ⟨hLow, hHigh, hLocate⟩
    exact List.mem_map.mpr ⟨i - off, (s.mem_points_iff (by omega)).mpr hLocate, by omega⟩

theorem members_bounds (off : Nat) (slots : List Slot) :
    ∀ i ∈ members off slots, off ≤ i ∧ i < off + span slots := by
  induction slots generalizing off with
  | nil => intro i hi; cases hi
  | cons s rest ih =>
    intro i hi
    rw [span_cons]
    rcases List.mem_append.mp hi with hi | hi
    · obtain ⟨hLow, hHigh, -⟩ := (mem_head_iff s off i).mp hi
      omega
    · have h := ih (off + s.range) i hi
      omega

theorem nodup_members (off : Nat) (slots : List Slot) : (members off slots).Nodup := by
  induction slots generalizing off with
  | nil => exact List.nodup_nil
  | cons s rest ih =>
    refine List.Nodup.append (s.nodup_points.map fun a b h => Nat.add_left_cancel h) (ih _) ?_
    intro i hHead hRest
    obtain ⟨-, hHigh, -⟩ := (mem_head_iff s off i).mp hHead
    have h := members_bounds (off + s.range) rest i hRest
    omega

theorem length_members (off : Nat) (slots : List Slot) : (members off slots).length = total slots := by
  induction slots generalizing off with
  | nil => rfl
  | cons s rest ih =>
    rw [members, List.length_append, List.length_map, s.length_points, ih, total_cons]

theorem members_append (off : Nat) (front back : List Slot) :
    members off (front ++ back) = members off front ++ members (off + span front) back := by
  induction front generalizing off with
  | nil => rfl
  | cons s rest ih =>
    rw [List.cons_append, members, members, ih, span_cons, List.append_assoc, Nat.add_assoc]

/-- An index covered by the first slot is a member exactly when its position there is counted. -/
theorem mem_members_cons_of_lt {s : Slot} {rest : List Slot} {off i : Nat} (hLow : off ≤ i)
    (hHigh : i < off + s.range) :
    i ∈ members off (s :: rest) ↔ s.locate (i - off) < s.count := by
  rw [members, List.mem_append, mem_head_iff]
  constructor
  · rintro (⟨-, -, h⟩ | h)
    · exact h
    · have hBounds := members_bounds (off + s.range) rest i h
      omega
  · intro h
    exact Or.inl ⟨hLow, hHigh, h⟩

theorem mem_members_cons_of_ge {s : Slot} {rest : List Slot} {off i : Nat}
    (h : i < off ∨ off + s.range ≤ i) :
    i ∈ members off (s :: rest) ↔ i ∈ members (off + s.range) rest := by
  rw [members, List.mem_append, mem_head_iff]
  constructor
  · rintro (⟨hLow, hHigh, -⟩ | h')
    · omega
    · exact h'
  · exact Or.inr

/-- `low` arises from `slots` by lowering counts in place. -/
def Lowered (slots low : List Slot) : Prop :=
  List.Forall₂ (fun s t => t.range = s.range ∧ t.place = s.place ∧ t.count ≤ s.count) slots low

def dropped : Nat → List Slot → List Slot → List Nat
  | off, s :: slots, t :: low => (s.band t.count s.count).map (off + ·) ++ dropped (off + s.range) slots low
  | _, _, _ => []

theorem xorOver_members_lowered {w : Nat} (f : Nat → BitVec w) {slots low : List Slot}
    (h : Lowered slots low) (off : Nat) :
    xorOver f (members off slots) =
      xorOver f (members off low) ^^^ xorOver f (dropped off slots low) := by
  induction h generalizing off with
  | nil => simp [members, dropped]
  | cons hHead _ ih =>
    obtain ⟨hRange, hPlace, hCount⟩ := hHead
    rw [members, members, dropped, Slot.points_eq_lower_append _ _ hPlace.symm hCount,
      List.map_append, xorOver_append, xorOver_append, xorOver_append, xorOver_append, ih, hRange]
    ac_rfl

end SlotSet
