import Mathlib.Data.Finset.Sort
import Mathlib.Order.Basic

/-! # Ordered sets as strictly increasing lists

The container keeps its elements sorted and without repetition, as a balanced
tree would list them. The order is carried by the type, so that every set has
one representation and equality is equality of members.
-/

set_option autoImplicit false

universe u

/-- A finite set, given by its members in increasing order. -/
structure OrdSet (α : Type u) [LinearOrder α] where
  elems : List α
  sorted : elems.Pairwise (· < ·)
deriving DecidableEq

namespace OrdSet

variable {α : Type u} [LinearOrder α]

def empty : OrdSet α := ⟨[], List.Pairwise.nil⟩

def size (s : OrdSet α) : Nat := s.elems.length

/-- Insertion keeps the list sorted, and a member that is there already is not stored again. -/
def insertElems (x : α) : List α → List α
  | [] => [x]
  | y :: rest => if x < y then x :: y :: rest else if x = y then y :: rest else y :: insertElems x rest

theorem mem_insertElems (x z : α) (l : List α) : z ∈ insertElems x l ↔ z = x ∨ z ∈ l := by
  induction l with
  | nil => simp [insertElems]
  | cons y rest ih =>
    rw [insertElems]
    split
    · simp
    · split
      · rename_i hxy
        subst hxy
        simp
      · rw [List.mem_cons, ih, List.mem_cons]
        exact or_left_comm

theorem sorted_insertElems (x : α) {l : List α} (h : l.Pairwise (· < ·)) :
    (insertElems x l).Pairwise (· < ·) := by
  induction l with
  | nil => exact List.pairwise_singleton _ _
  | cons y rest ih =>
    obtain ⟨hHead, hRest⟩ := List.pairwise_cons.mp h
    rw [insertElems]
    split
    · rename_i hxy
      refine List.pairwise_cons.mpr ⟨?_, h⟩
      intro z hz
      rcases List.mem_cons.mp hz with rfl | hz
      · exact hxy
      · exact hxy.trans (hHead z hz)
    · split
      · exact h
      · rename_i hNotLt hNe
        refine List.pairwise_cons.mpr ⟨?_, ih hRest⟩
        intro z hz
        rcases (mem_insertElems x z rest).mp hz with rfl | hz
        · exact lt_of_le_of_ne (not_lt.mp hNotLt) fun h => hNe h.symm
        · exact hHead z hz

def insert (s : OrdSet α) (x : α) : OrdSet α := ⟨insertElems x s.elems, sorted_insertElems x s.sorted⟩

def erase (s : OrdSet α) (x : α) : OrdSet α :=
  ⟨s.elems.erase x, s.sorted.sublist List.erase_sublist⟩

theorem nodup (s : OrdSet α) : s.elems.Nodup := s.sorted.imp fun h => h.ne

@[simp] theorem mem_insert (s : OrdSet α) (x z : α) :
    z ∈ (s.insert x).elems ↔ z = x ∨ z ∈ s.elems := mem_insertElems x z s.elems

@[simp] theorem mem_erase (s : OrdSet α) (x z : α) :
    z ∈ (s.erase x).elems ↔ z ≠ x ∧ z ∈ s.elems := s.nodup.mem_erase_iff

@[simp] theorem empty_elems : (empty : OrdSet α).elems = [] := rfl

theorem perm_of_mem_iff {s : OrdSet α} {l : List α} (hl : l.Nodup)
    (h : ∀ x, x ∈ s.elems ↔ x ∈ l) : s.elems.Perm l :=
  (List.perm_ext_iff_of_nodup s.nodup hl).mpr h

/-- Equal members give equal sets, because the sorted list is the only representation. -/
theorem ext_mem {s t : OrdSet α} (h : ∀ x, x ∈ s.elems ↔ x ∈ t.elems) : s = t := by
  have hElems : s.elems = t.elems :=
    (perm_of_mem_iff t.nodup h).eq_of_pairwise
      (fun a b _ _ hab hba => absurd hab hba.asymm) s.sorted t.sorted
  cases s
  cases t
  cases hElems
  rfl

theorem insert_perm {s : OrdSet α} {x : α} (h : x ∉ s.elems) : (s.insert x).elems.Perm (x :: s.elems) :=
  perm_of_mem_iff (List.nodup_cons.mpr ⟨h, s.nodup⟩) fun z => by simp

theorem size_insert {s : OrdSet α} {x : α} (h : x ∉ s.elems) : (s.insert x).size = s.size + 1 :=
  (insert_perm h).length_eq

theorem size_erase {s : OrdSet α} {x : α} (h : x ∈ s.elems) : (s.erase x).size = s.size - 1 :=
  List.length_erase_of_mem h

theorem size_insert_le (s : OrdSet α) (x : α) : (s.insert x).size ≤ s.size + 1 := by
  by_cases h : x ∈ s.elems
  · have hSame : s.insert x = s := by
      apply ext_mem
      intro z
      rw [mem_insert]
      exact or_iff_right_of_imp fun hz => hz ▸ h
    rw [hSame]
    exact Nat.le_succ _
  · exact (size_insert h).le

theorem size_erase_le (s : OrdSet α) (x : α) : (s.erase x).size ≤ s.size := List.length_erase_le

theorem erase_of_not_mem {s : OrdSet α} {x : α} (h : x ∉ s.elems) : s.erase x = s :=
  ext_mem fun z => by
    rw [mem_erase]
    exact and_iff_right_of_imp fun hz hEq => h (hEq ▸ hz)

/-- Insertion of a list from left to right, as a loop over it does. -/
def insertAll (s : OrdSet α) (l : List α) : OrdSet α := l.foldl insert s

@[simp] theorem insertAll_nil (s : OrdSet α) : s.insertAll [] = s := rfl

@[simp] theorem insertAll_cons (s : OrdSet α) (x : α) (l : List α) :
    s.insertAll (x :: l) = (s.insert x).insertAll l := rfl

theorem insertAll_append (s : OrdSet α) (left right : List α) :
    s.insertAll (left ++ right) = (s.insertAll left).insertAll right := List.foldl_append

@[simp] theorem mem_insertAll (s : OrdSet α) (l : List α) (z : α) :
    z ∈ (s.insertAll l).elems ↔ z ∈ s.elems ∨ z ∈ l := by
  induction l generalizing s with
  | nil => simp
  | cons x rest ih =>
    rw [insertAll_cons, ih, mem_insert, List.mem_cons, or_assoc, or_left_comm]

def ofList (l : List α) : OrdSet α := empty.insertAll l

@[simp] theorem mem_ofList (l : List α) (z : α) : z ∈ (ofList l).elems ↔ z ∈ l := by
  simp [ofList]

theorem ofList_perm {l : List α} (h : l.Nodup) : (ofList l).elems.Perm l :=
  perm_of_mem_iff h (mem_ofList l)

theorem size_ofList {l : List α} (h : l.Nodup) : (ofList l).size = l.length :=
  (ofList_perm h).length_eq

def toFinset (s : OrdSet α) : Finset α := s.elems.toFinset

@[simp] theorem mem_toFinset (s : OrdSet α) (x : α) : x ∈ s.toFinset ↔ x ∈ s.elems :=
  List.mem_toFinset

theorem card_toFinset (s : OrdSet α) : s.toFinset.card = s.size :=
  List.toFinset_card_of_nodup s.nodup

/-- The representation of a mathematical set. -/
def ofFinset (s : Finset α) : OrdSet α := ⟨s.sort (· ≤ ·), s.sortedLT_sort.pairwise⟩

@[simp] theorem mem_ofFinset (s : Finset α) (x : α) : x ∈ (ofFinset s).elems ↔ x ∈ s :=
  Finset.mem_sort _

@[simp] theorem toFinset_ofFinset (s : Finset α) : (ofFinset s).toFinset = s :=
  Finset.ext fun x => by rw [mem_toFinset, mem_ofFinset]

end OrdSet
