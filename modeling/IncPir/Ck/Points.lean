import IncPir.Ck.Leaves
import IncPir.Ck.Server
import IncPir.Hints

/-! # Points of a set and what the operations compute

A point is a leaf value moved by the shift. The hint of a set is the
exclusive-or over its points, counted as often as they occur; the reply to a
query punctured at a position leaves that position out.
-/

namespace CkPir
open IncPir (Key Block Database Fault elemAt modBy u32 sub32 elemAt_of_getElem? modBy_of_pos blockAt
  elemAt_blockAt)
open LabelTree LoopM XorFold
set_option autoImplicit false

/-- Sizes for which every evaluator stays in range. -/
structure SizeWF (n : Nat) : Prop where
  pos : 1 ≤ n
  lt : n < 2 ^ 31

theorem SizeWF.lgn_le {n : Nat} (h : SizeWF n) : lgnOf n ≤ 30 := by
  have hPos := h.pos
  exact Nat.lt_succ_iff.mp ((Nat.log2_lt (by omega)).mpr h.lt)

theorem SizeWF.two_pow_le {n : Nat} (h : SizeWF n) : 2 ^ lgnOf n ≤ n := by
  have hPos := h.pos
  exact Nat.log2_self_le (by omega)

/-- The number of points of a set, `2^(lgn/2)`. -/
def setPoints (n : Nat) : Nat := 2 ^ (lgnOf n / 2)

theorem setPoints_le (n : Nat) : setPoints n ≤ 2 ^ lgnOf n :=
  Nat.pow_le_pow_right (by decide) (Nat.div_le_self _ _)

section Points
variable (prg : Prg) (n : Nat)

def leafOf (key : Key) (i : Nat) : Nat := leaf prg (lgnOf n) n key i

/-- The point at position `i`: a leaf of the key, moved by the shift. -/
def point (d : SetDesc) (i : Nat) : Nat := u32 (leafOf prg n d.prfKey i + d.shift) % n

theorem leafOf_lt {n : Nat} (h : SizeWF n) (key : Key) (i : Nat) : leafOf prg n key i < n :=
  Nat.lt_of_lt_of_le (leafValue_lt h.lgn_le h.two_pow_le _) h.two_pow_le

theorem point_lt {n : Nat} (h : SizeWF n) (d : SetDesc) (i : Nat) : point prg n d i < n := Nat.mod_lt _ h.pos

def setHint (db : Database) (d : SetDesc) : Block :=
  xorOver (blockAt db) ((List.range (setPoints n)).map (point prg n d))

/-- The first position of an index in a set, where the index can stand more than once. -/
def position (d : SetDesc) (idx : Nat) : Option Nat :=
  (List.range (setPoints n)).find? fun i => point prg n d i == idx

theorem position_some {d : SetDesc} {idx i : Nat} (h : position prg n d idx = some i) :
    i < setPoints n ∧ point prg n d i = idx := by
  obtain ⟨hPoint, hMem⟩ := And.intro (List.find?_some h) (List.mem_of_find?_eq_some h)
  exact ⟨List.mem_range.mp hMem, by simpa using hPoint⟩

end Points

section Client
variable (prg : Prg)

structure ClientWF (c : PIRClient) : Prop where
  size : SizeWF c.dbrange
  lgn : c.lgn = lgnOf c.dbrange
  sets_length : c.sets.length = c.nbrsets

/-- The first set that contains the index, and the first position there. -/
def PIRClient.firstPoint (c : PIRClient) (idx : Nat) : Option (Nat × Nat) :=
  (List.range c.nbrsets).findSome? fun s =>
    c.sets[s]?.bind fun d => (position prg c.dbrange d idx).map fun i => (s, i)

variable {c : PIRClient}

theorem firstPoint_some {idx s i : Nat} (h : c.firstPoint prg idx = some (s, i)) :
    ∃ d, c.sets[s]? = some d ∧ i < setPoints c.dbrange ∧ point prg c.dbrange d i = idx := by
  obtain ⟨s', hMem, hFound⟩ := List.exists_of_findSome?_eq_some h
  obtain ⟨d, hSet, hFound⟩ := Option.bind_eq_some_iff.mp hFound
  obtain ⟨i', hPosition, hPair⟩ := Option.map_eq_some_iff.mp hFound
  cases hPair
  exact ⟨d, hSet, position_some prg c.dbrange hPosition⟩

theorem searchPoints_eq (hWF : ClientWF c) (d : SetDesc) (idx : Nat) :
    c.searchPoints prg d idx = .ok (position prg c.dbrange d idx) := by
  rw [PIRClient.searchPoints, hWF.lgn, Nat.one_shiftLeft, position, ← List.findSome?_guard,
    List.range_eq_range']
  apply findSomeM_eq_ok
  intro i hi
  have hPoints : i < setPoints c.dbrange := by
    rw [setPoints]
    omega
  have hi' : i < 2 ^ lgnOf c.dbrange := Nat.lt_of_lt_of_le hPoints (setPoints_le c.dbrange)
  rw [eval_eq prg hi', ok_bind, modBy_of_pos hWF.size.pos, ok_bind]
  simp [Option.guard, point, leafOf]

theorem search_eq (hWF : ClientWF c) (idx : Nat) : c.search prg idx = .ok (c.firstPoint prg idx) := by
  rw [PIRClient.search, PIRClient.firstPoint, List.range_eq_range']
  apply findSomeM_eq_ok
  intro s hs
  have hLength := hWF.sets_length
  have hLt : s < c.sets.length := by omega
  have hSet := List.getElem?_eq_getElem hLt
  rw [elemAt_of_getElem? hSet, ok_bind, searchPoints_eq prg hWF, ok_bind, hSet]
  rfl

theorem generateOnlineQuery_eq (hWF : ClientWF c) {idx s i : Nat} {d : SetDesc}
    (hFound : c.firstPoint prg idx = some (s, i)) (hSet : c.sets[s]? = some d) :
    c.generateOnlineQuery prg idx =
      .ok ({ c with puncX := i, curQrySetno := s }, c.puncturedQuery prg d i) := by
  rw [PIRClient.generateOnlineQuery, search_eq prg hWF, hFound, ok_bind]
  simp only
  rw [elemAt_of_getElem? hSet, ok_bind]

theorem generateOnlineQuery_ok_iff (hWF : ClientWF c) (idx : Nat) {c' : PIRClient} {q : OnlineQuery} :
    c.generateOnlineQuery prg idx = .ok (c', q) ↔ ∃ s i d, c.firstPoint prg idx = some (s, i) ∧
      c.sets[s]? = some d ∧ c' = { c with puncX := i, curQrySetno := s } ∧
      q = c.puncturedQuery prg d i := by
  constructor
  · intro h
    cases hFound : c.firstPoint prg idx with
    | none =>
      rw [PIRClient.generateOnlineQuery, search_eq prg hWF, hFound, ok_bind] at h
      cases h
    | some found =>
      obtain ⟨s, i⟩ := found
      obtain ⟨d, hSet, -, -⟩ := firstPoint_some prg hFound
      rw [generateOnlineQuery_eq prg hWF hFound hSet] at h
      cases h
      exact ⟨s, i, d, rfl, hSet, rfl, rfl⟩
  · rintro ⟨s, i, d, hFound, hSet, rfl, rfl⟩
    exact generateOnlineQuery_eq prg hWF hFound hSet

end Client

section Server
variable (prg : Prg)

theorem signedSum_eq (y shift : Nat) : (((y : Int) + shift) % 2 ^ 32).toNat = u32 (y + shift) := by
  rw [u32]
  omega

variable {n : Nat} (hSize : SizeWF n) {db : Database} (hDb : db.length = n) {c : PIRClient}
  (hLgn : c.lgn = lgnOf n) (d : SetDesc)
include hSize hDb

theorem blockAt_point (i : Nat) :
    elemAt db (u32 (leafOf prg n d.prfKey i + d.shift) % n) = .ok (blockAt db (point prg n d i)) :=
  elemAt_blockAt (by rw [hDb]; exact point_lt prg hSize d i)

include hLgn

theorem replyStep_eq {p i : Nat} (hp : p < 2 ^ lgnOf n) (hi : i < 2 ^ lgnOf n) (parity : Block) :
    (setDatabase n db).replyStep prg (c.puncturedQuery prg d p) parity i =
      .ok (if i != p then parity ^^^ blockAt db (point prg n d i) else parity) := by
  simp only [PIRServer.replyStep, PIRClient.puncturedQuery, setDatabase, hLgn]
  by_cases hPunctured : i = p
  · subst hPunctured
    rw [evalPunc_punc_self prg hp, ok_bind, if_pos rfl]
    simp
  · rw [evalPunc_punc_of_ne prg hSize.lgn_le hSize.two_pow_le hp hi hPunctured, ok_bind,
      if_neg (by omega), signedSum_eq, modBy_of_pos hSize.pos, ok_bind, ← leafOf,
      blockAt_point prg hSize hDb, ok_bind, if_pos (by simpa using hPunctured)]

theorem generateOnlineReply_eq {p : Nat} (hp : p < setPoints n) :
    (setDatabase n db).generateOnlineReply prg (c.puncturedQuery prg d p) =
      .ok ⟨setHint prg n db d ^^^ blockAt db (point prg n d p)⟩ := by
  have hAll := setPoints_le n
  have hLoop := foldlM_eq_ok_of_forall (0 : Block) (l := List.range (setPoints n)) fun parity i hi =>
    replyStep_eq prg hSize hDb hLgn d (p := p) (i := i) (by omega)
      (by have := List.mem_range.mp hi; omega) parity
  rw [← List.foldl_filter, foldl_xor, xorOver_range_erase _ hp, ← xorOver_map] at hLoop
  rw [PIRServer.generateOnlineReply, setDatabase, Nat.one_shiftLeft, ← setPoints, ← setDatabase, hLoop,
    ok_bind, setHint]
  congr 2
  exact BitVec.zero_xor

end Server

end CkPir
