import Mathlib.Data.List.GetD
import IncPir.SearchLoop
import IncPir.Server
import IncPir.Library.XorFold

/-! # Well-formed clients and exact hints

A hint is exact when it is the exclusive-or of the database over the indices
that the expansion loop lists for its set.
-/

namespace IncPir
open SlotSet LoopM XorFold
set_option autoImplicit false

section Parity

/-- The block at an index, and 0 outside the database. -/
def blockAt (db : Database) (i : Nat) : Block := db.getD i 0

theorem elemAt_blockAt {db : Database} {i : Nat} (h : i < db.length) :
    elemAt db i = .ok (blockAt db i) := by
  rw [blockAt, List.getD_eq_getElem _ _ h]
  exact elemAt_of_getElem? (List.getElem?_eq_getElem h)

theorem blockAt_append {db : Database} {i : Nat} (h : i < db.length) (v : List Block) :
    blockAt (db ++ v) i = blockAt db i := List.getD_append _ _ _ _ h

/-- A loop that folds the blocks at computed positions into a parity. -/
theorem parityLoop_eq (db : Database) {l : List Nat} {step : Block → Nat → Except Fault Block} {g : Nat → Nat}
    (h : ∀ x ∈ l, ∀ acc, step acc x = .ok (acc ^^^ blockAt db (g x))) (start : Block) :
    l.foldlM step start = .ok (start ^^^ xorOver (blockAt db) (l.map g)) := by
  rw [xorOver_map, ← foldl_xor]
  exact foldlM_eq_ok_of_forall start fun acc x hx => h x hx acc

end Parity

section Listed
variable (aes : Aes)

/-- The indices that a descriptor lists, as the client expands them. -/
def listed (mk : Key) (d : SetDesc) : OrdSet Nat := OrdSet.ofList (expansion aes mk d)

@[simp] theorem mem_listed (mk : Key) (d : SetDesc) (i : Nat) :
    i ∈ (listed aes mk d).elems ↔ i ∈ expansion aes mk d := OrdSet.mem_ofList _ _

theorem size_listed (mk : Key) {dbrange setsize : Nat} {d : SetDesc} (h : SetWF dbrange setsize d)
    (hRange : dbrange ≤ 2 ^ 31) : (listed aes mk d).size = setsize := by
  rw [listed, OrdSet.size_ofList (nodup_expansion aes mk d), length_expansion aes mk h hRange]

end Listed

/-- A client after its constructor: the sizes fit, and one hint stands for each set. -/
structure ClientWF (c : PIRClient) : Prop where
  setsize_pos : 1 ≤ c.setsize
  setsize_le : c.setsize ≤ c.dbrange
  dbrange_le : c.dbrange ≤ 2 ^ 31
  sets_length : c.localhints.sets.length = c.nbrsets
  parities_length : c.localhints.parities.length = c.nbrsets
  sets_wf : ∀ d ∈ c.localhints.sets, SetWF c.dbrange c.setsize d

section Exact
variable (aes : Aes) (db : Database)

def HintExact (c : PIRClient) (s : Nat) : Prop :=
  ∃ d h tmp, c.localhints.sets[s]? = some d ∧ c.localhints.parities[s]? = some h ∧
    expandSet aes c.mk c.dbrange d = .ok tmp ∧ h = xorOver (blockAt db) tmp.elems

/-- The hint that the expansion loop yields for set `s`. -/
def expectedHint (c : PIRClient) (s : Nat) : Except Fault Block := do
  let d ← elemAt c.localhints.sets s
  let tmp ← expandSet aes c.mk c.dbrange d
  .ok (xorOver (blockAt db) tmp.elems)

theorem hintExact_iff_expected (c : PIRClient) (s : Nat) :
    HintExact aes db c s ↔ expectedHint aes db c s = elemAt c.localhints.parities s ∧
      s < c.localhints.parities.length := by
  simp only [HintExact, expectedHint]
  constructor
  · rintro ⟨d, h, tmp, hSet, hParity, hTmp, rfl⟩
    rw [elemAt_of_getElem? hSet, ok_bind, hTmp, ok_bind, elemAt_of_getElem? hParity]
    exact ⟨rfl, (List.getElem?_eq_some_iff.mp hParity).1⟩
  · rintro ⟨hEq, hs⟩
    have hParity := List.getElem?_eq_getElem hs
    rw [elemAt_of_getElem? hParity] at hEq
    obtain ⟨d, hSet, hEq⟩ := (bind_eq_ok_iff _ _ _).mp hEq
    obtain ⟨tmp, hTmp, hEq⟩ := (bind_eq_ok_iff _ _ _).mp hEq
    exact ⟨d, _, tmp, (elemAt_eq_ok_iff _ _ _).mp hSet, hParity, hTmp, (Except.ok.inj hEq).symm⟩

instance (c : PIRClient) (s : Nat) : Decidable (HintExact aes db c s) :=
  decidable_of_iff' _ (hintExact_iff_expected aes db c s)

def HintsExact (c : PIRClient) : Prop := ∀ s < c.nbrsets, HintExact aes db c s

instance (c : PIRClient) : Decidable (HintsExact aes db c) :=
  inferInstanceAs (Decidable (∀ s < c.nbrsets, HintExact aes db c s))

/-- The parity of the blocks that a descriptor lists. -/
def setHint (mk : Key) (d : SetDesc) : Block := xorOver (blockAt db) (expansion aes mk d)

theorem xorOver_ofList_expansion (mk : Key) (d : SetDesc) :
    xorOver (blockAt db) (OrdSet.ofList (expansion aes mk d)).elems = setHint aes db mk d :=
  xorOver_perm _ (OrdSet.ofList_perm (nodup_expansion aes mk d))

theorem hintExact_iff {c : PIRClient} (hWF : ClientWF c) {s : Nat} {d : SetDesc} {h : Block}
    (hSet : c.localhints.sets[s]? = some d) (hParity : c.localhints.parities[s]? = some h) :
    HintExact aes db c s ↔ h = setHint aes db c.mk d := by
  have hd := hWF.sets_wf d (List.mem_of_getElem? hSet)
  have hExpand := expandSet_eq aes c.mk hd hWF.dbrange_le
  constructor
  · rintro ⟨d', h', tmp, hSet', hParity', hTmp, rfl⟩
    rw [hSet] at hSet'
    cases hSet'
    rw [hParity] at hParity'
    cases hParity'
    rw [hExpand] at hTmp
    cases hTmp
    exact xorOver_ofList_expansion aes db c.mk d
  · rintro rfl
    exact ⟨d, _, _, hSet, hParity, hExpand, (xorOver_ofList_expansion aes db c.mk d).symm⟩

theorem hintsExact_iff {c : PIRClient} (hWF : ClientWF c) :
    HintsExact aes db c ↔ c.localhints.parities = c.localhints.sets.map (setHint aes db c.mk) := by
  have hSets := hWF.sets_length
  have hParities := hWF.parities_length
  constructor
  · intro hExact
    apply List.ext_getElem (by rw [List.length_map, hSets, hParities])
    intro s hs hs'
    rw [List.length_map] at hs'
    rw [List.getElem_map]
    exact (hintExact_iff aes db hWF (List.getElem?_eq_getElem hs')
      (List.getElem?_eq_getElem hs)).mp (hExact s (by omega))
  · intro hEq s hs
    have hs' : s < c.localhints.sets.length := by omega
    apply (hintExact_iff aes db hWF (List.getElem?_eq_getElem hs')
      (List.getElem?_eq_getElem (by omega))).mpr
    rw [List.getElem_of_eq hEq, List.getElem_map]

theorem parity_of_exact {c : PIRClient} (hWF : ClientWF c) (hExact : HintsExact aes db c) {s : Nat} {d : SetDesc}
    (hSet : c.localhints.sets[s]? = some d) : c.localhints.parities[s]? = some (setHint aes db c.mk d) := by
  rw [(hintsExact_iff aes db hWF).mp hExact, List.getElem?_map, hSet]
  rfl

end Exact

section Single
variable (aes : Aes) (mk : Key) {range count : Nat} (sk : Key) (shift : Nat)

theorem expansion_single (hRange : range < 2 ^ 32) (hCount : count ≤ range) :
    expansion aes mk ⟨sk, shift, [(range, count)]⟩ =
      (List.range count).map fun x => (prp aes sk range x + shift) % range := by
  simp only [expansion, slotsFrom, members, List.append_nil, Nat.zero_add, List.map_id', Slot.points,
    slotOf_count aes hRange hCount, slotOf_place aes hRange hCount, slotKey, if_true]

theorem setWF_single (hCount : count ≤ range) (hShift : shift < range) :
    SetWF range count ⟨sk, shift, [(range, count)]⟩ where
  ranges := by simp
  counts_le := by simpa using hCount
  counts := by simp [countSum]
  shift_lt := by simpa using hShift

end Single

end IncPir
