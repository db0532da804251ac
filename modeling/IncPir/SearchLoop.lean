import IncPir.Expansion

/-! # The expansion and search loops on genuine descriptors

Neither loop fails on a descriptor with genuine counts. The expansion returns
exactly its members; the search stops at the first set whose slots, taken with
the keys of the search, contain the index.
-/

namespace IncPir
open SlotSet LoopM
set_option autoImplicit false

variable (aes : Aes) (mk : Key)

theorem foldl_insert_map (tmp : OrdSet Nat) (l : List Nat) (g : Nat → Nat) :
    l.foldl (fun tmp x => tmp.insert (g x)) tmp = tmp.insertAll (l.map g) := by
  rw [OrdSet.insertAll, List.foldl_map]

/-- The loop over the slots of a descriptor collects the members of its slot family. -/
theorem expandSlots_eq {dbrange : Nat} (d : SetDesc) {slot off : Nat} {aux : Aux}
    (hFits : Fits off aux) (hRange : off + (aux.map Prod.fst).sum ≤ dbrange)
    (hShift : slot = 0 → ∀ t, aux.head? = some t → d.shift < t.1) (tmp : OrdSet Nat) :
    expandSlots aes mk dbrange d slot off aux tmp =
      .ok (tmp.insertAll (members off (slotsFrom aes (slotKey aes mk d.sk) d.shift slot aux))) := by
  induction aux generalizing slot off tmp with
  | nil => rfl
  | cons t rest ih =>
    obtain ⟨range, count⟩ := t
    obtain ⟨hHead, hCount⟩ := hFits.head
    rw [List.map_cons, List.sum_cons] at hRange
    have hLt : slot = 0 → d.shift < range := fun h => hShift h (range, count) rfl
    have hLoop : (List.range count).foldlM (fun tmp x => do
        let y ← expandPoint aes mk d slot off range x
        .ok (tmp.insert y)) tmp = .ok (tmp.insertAll ((slotOf aes (slotKey aes mk d.sk slot)
          (if slot = 0 then d.shift else 0) range count).points.map (off + ·))) := by
      rw [Slot.points, slotOf_count aes (by omega) hCount, List.map_map, ← foldl_insert_map]
      apply foldlM_eq_ok_of_forall
      intro acc x hx
      rw [expandPoint_eq aes mk d hHead hCount hLt (List.mem_range.mp hx), ok_bind]
      rfl
    rw [expandSlots, if_neg (by omega), hLoop, ok_bind, u32_of_lt (by omega),
      ih hFits.tail (by omega) (fun h => by omega), slotsFrom, members, slotOf_range,
      OrdSet.insertAll_append]

theorem expandSet_eq {dbrange setsize : Nat} {d : SetDesc} (h : SetWF dbrange setsize d)
    (hRange : dbrange ≤ 2 ^ 31) :
    expandSet aes mk dbrange d = .ok (OrdSet.ofList (expansion aes mk d)) := by
  rw [expandSet, expandSlots_eq aes mk d (h.fits hRange) (by rw [h.ranges]; omega)
    (fun _ => h.shift_lt)]
  rfl

theorem searchInverse_eq (d : SetDesc) {slot off range count idx : Nat} (hRange : off + range ≤ 2 ^ 31)
    (hCount : count ≤ range) (hShift : slot = 0 → d.shift < range) (hOff : slot = 0 → off = 0)
    (hLow : off ≤ idx) (hHigh : idx < off + range) :
    searchInverse aes mk d idx slot off range =
      .ok ((slotOf aes (searchKey aes mk d slot) (if slot = 0 then d.shift else 0)
        range count).locate (idx - off)) := by
  rw [searchInverse, slotOf_locate aes (by omega) hCount, searchKey]
  by_cases hSlot : slot = 0
  · have hLt := hShift hSlot
    have hZeroOff := hOff hSlot
    by_cases hZero : d.shift = 0
    · simp only [hZero, ne_eq, not_true_eq_false, false_and, if_false, ite_self]
      rw [unshift_zero (by omega), invCycleWalk_eq_invPrp aes _ (by omega) (by omega)]
    · simp only [hZero, hSlot, hZeroOff, ne_eq, not_false_eq_true, true_and, if_true, Nat.sub_zero]
      rw [u32_of_lt (by omega), sub32_of_le (by omega) (by omega), ← unshift_of_lt hLt,
        invCycleWalk_eq_invPrp aes _ (by omega) (unshift_lt _ (by omega))]
  · simp only [hSlot, and_false, if_false]
    rw [unshift_zero (by omega), invCycleWalk_eq_invPrp aes _ (by omega) (by omega)]

/-- The search finds the slot of the index with one inversion, under the keys it derives itself. -/
theorem searchSlots_eq (d : SetDesc) (idx : Nat) {slot off : Nat} {aux : Aux} (hFits : Fits off aux)
    (hShift : slot = 0 → ∀ t, aux.head? = some t → d.shift < t.1) (hOff : slot = 0 → off = 0) :
    searchSlots aes mk d idx slot off aux =
      .ok (decide (idx ∈ members off (slotsFrom aes (searchKey aes mk d) d.shift slot aux))) := by
  induction aux generalizing slot off with
  | nil => simp [searchSlots, slotsFrom, members]
  | cons t rest ih =>
    obtain ⟨range, count⟩ := t
    obtain ⟨hHead, hCount⟩ := hFits.head
    have hLt : slot = 0 → d.shift < range := fun h => hShift h (range, count) rfl
    have hRest := @ih (slot + 1) _ hFits.tail (fun h => by omega) (fun h => by omega)
    have hWord : off + range < 2 ^ 32 := by omega
    rw [searchSlots, slotsFrom, u32_of_lt hWord]
    let head := slotOf aes (searchKey aes mk d slot) (if slot = 0 then d.shift else 0) range count
    let later := slotsFrom aes (searchKey aes mk d) d.shift (slot + 1) rest
    have hHeadRange : head.range = range := slotOf_range aes _ _ _ _
    by_cases hIn : off ≤ idx ∧ idx < off + range
    · -- the slot that covers the index: a miss here is a miss in all later slots
      have hMember : idx ∈ members off (head :: later) ↔ head.locate (idx - off) < count := by
        rw [mem_members_cons_of_lt hIn.1 (by rw [hHeadRange]; exact hIn.2),
          slotOf_count aes (by omega) hCount]
      have hLater : idx ∉ members (off + range) later := by
        intro h
        have hBounds := members_bounds _ _ idx h
        omega
      rw [if_pos hIn, searchInverse_eq aes mk d hHead hCount hLt hOff hIn.1 hIn.2, ok_bind, hRest,
        decide_eq_false hLater]
      by_cases hInv : head.locate (idx - off) < count
      · rw [if_pos hInv, decide_eq_true (hMember.mpr hInv)]
      · rw [if_neg hInv, decide_eq_false (mt hMember.mp hInv)]
    · have hMember : idx ∈ members off (head :: later) ↔ idx ∈ members (off + range) later := by
        rw [mem_members_cons_of_ge (by rw [hHeadRange]; omega), hHeadRange]
      rw [if_neg hIn, hRest]
      exact congrArg Except.ok (decide_eq_decide.mpr hMember.symm)

theorem searchSlots_desc_eq {dbrange setsize : Nat} {d : SetDesc} (h : SetWF dbrange setsize d)
    (hRange : dbrange ≤ 2 ^ 31) (idx : Nat) :
    searchSlots aes mk d idx 0 0 d.aux = .ok (decide (idx ∈ searched aes mk d)) :=
  searchSlots_eq aes mk d idx (h.fits hRange) (fun _ => h.shift_lt) (fun _ => rfl)

theorem searchSets_eq {dbrange : Nat} {sets : List SetDesc}
    (hSets : ∀ d ∈ sets, SetWF dbrange (countSum d.aux) d) (hRange : dbrange ≤ 2 ^ 31) (idx : Nat)
    {remaining s : Nat} (hLength : s + remaining = sets.length) :
    searchSets aes mk sets idx remaining s =
      .ok (((sets.drop s).findIdx? fun d => decide (idx ∈ searched aes mk d)).map (· + s)) := by
  induction remaining generalizing s with
  | zero => rw [searchSets, List.drop_of_length_le (by omega)]; rfl
  | succ remaining ih =>
    have hs : s < sets.length := by omega
    have hGet : elemAt sets s = .ok sets[s] := elemAt_of_getElem? (List.getElem?_eq_getElem hs)
    rw [searchSets, hGet, ok_bind, searchSlots_desc_eq aes mk (hSets _ (List.getElem_mem hs)) hRange,
      ok_bind, List.drop_eq_getElem_cons hs, List.findIdx?_cons, ih (by omega)]
    split
    · simp
    · rw [Option.map_map]
      congr 2
      funext i
      simp only [Function.comp_apply]
      omega

end IncPir
