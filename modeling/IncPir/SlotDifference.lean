import IncPir.Hints

/-! # The difference of two slot lists

The server folds the blocks of the positions that left the common slots, then
the blocks of the last slot. On lists that follow the contract of
`DiffSetDesc` this is the difference of the exact hints.
-/

namespace IncPir
open SlotSet LoopM XorFold
set_option autoImplicit false

/-- The same ranges, no count above the previous one. -/
def Lowers (prev low : Aux) : Prop := List.Forall₂ (fun t u => u.1 = t.1 ∧ u.2 ≤ t.2) prev low

/-- The contract of `DiffSetDesc`: one slot of range `n` more, the other counts lowered. -/
def Extends (prev cur : Aux) (n : Nat) : Prop :=
  ∃ low ell, Lowers prev low ∧ cur = low ++ [(n, ell)] ∧ ell ≤ n

theorem Lowers.ranges_eq {prev low : Aux} (h : Lowers prev low) : low.map Prod.fst = prev.map Prod.fst := by
  induction h with
  | nil => rfl
  | cons hHead _ ih => rw [List.map_cons, List.map_cons, hHead.1, ih]

theorem Lowers.exists_of_mem {prev low : Aux} (h : Lowers prev low) {u : Nat × Nat} (hu : u ∈ low) :
    ∃ t ∈ prev, u.1 = t.1 ∧ u.2 ≤ t.2 := by
  induction h with
  | nil => cases hu
  | cons hHead _ ih =>
    rcases List.mem_cons.mp hu with rfl | hu
    · exact ⟨_, List.mem_cons_self, hHead⟩
    · obtain ⟨t, ht, hBelow⟩ := ih hu
      exact ⟨t, List.mem_cons_of_mem _ ht, hBelow⟩

theorem Lowers.fits {prev low : Aux} (h : Lowers prev low) {off : Nat} (hFits : Fits off prev) :
    Fits off low := by
  refine ⟨by rw [h.ranges_eq]; exact hFits.within, ?_⟩
  intro u hu
  obtain ⟨t, ht, hRange, hCount⟩ := h.exists_of_mem hu
  have hGenuine := hFits.counts_le t ht
  omega

variable (aes : Aes)

theorem slotOf_lowered (key : Key) (shift : Nat) {range count low : Nat} (hRange : range < 2 ^ 32)
    (hCount : count ≤ range) (hLow : low ≤ count) :
    (slotOf aes key shift range low).place = (slotOf aes key shift range count).place := by
  rw [slotOf_place aes hRange (by omega), slotOf_place aes hRange hCount]

theorem lowered_slotsFrom (key : Nat → Key) (shift : Nat) {slot off : Nat} {prev low : Aux}
    (h : Lowers prev low) (hFits : Fits off prev) :
    Lowered (slotsFrom aes key shift slot prev) (slotsFrom aes key shift slot low) := by
  induction h generalizing slot off with
  | nil => exact List.Forall₂.nil
  | @cons t u prev low hHead hTail ih =>
    obtain ⟨range, count⟩ := t
    obtain ⟨range', count'⟩ := u
    obtain ⟨rfl, hLow⟩ := hHead
    obtain ⟨hRange, hCount⟩ := hFits.head
    refine List.Forall₂.cons ⟨?_, slotOf_lowered aes _ _ (by omega) hCount hLow, ?_⟩ (ih hFits.tail)
    · rw [slotOf_range, slotOf_range]
    · rw [slotOf_count aes (by omega) hCount, slotOf_count aes (by omega) (by omega)]
      exact hLow

theorem slotsFrom_append (key : Nat → Key) (shift slot : Nat) (front back : Aux) :
    slotsFrom aes key shift slot (front ++ back) =
      slotsFrom aes key shift slot front ++ slotsFrom aes key shift (slot + front.length) back := by
  induction front generalizing slot with
  | nil => rfl
  | cons t rest ih =>
    obtain ⟨range, count⟩ := t
    rw [List.cons_append, slotsFrom, slotsFrom, ih, List.length_cons, List.cons_append,
      Nat.add_assoc, Nat.add_comm 1]

section Loops
variable (db : Database) (mk : Key) (d : DiffSetDesc)

theorem kickedStep_eq (slot off range x : Nat) (parity : Block) :
    (do let idx ← cycleWalk aes x range (slotKey aes mk d.sk slot)
        let idx := if d.shift ≠ 0 ∧ slot = 0 then u32 (idx + d.shift) % range else idx
        let blk ← elemAt db (u32 (off + idx))
        .ok (parity ^^^ blk)) =
      (do let idx ← expandPoint aes mk ⟨d.sk, d.shift, d.auxPrev⟩ slot off range x
          let blk ← elemAt db idx
          .ok (parity ^^^ blk)) := by
  rw [expandPoint]
  cases cycleWalk aes x range (slotKey aes mk d.sk slot) with
  | error e => rfl
  | ok y => simp only [ok_bind, Nat.add_comm off]

theorem lastStep_eq {slot : Nat} (hSlot : slot ≠ 0) (off range x : Nat) (parity : Block) :
    (do let idx ← cycleWalk aes x range (kdf aes mk d.sk slot)
        let blk ← elemAt db (u32 (off + idx))
        .ok (parity ^^^ blk)) =
      (do let idx ← expandPoint aes mk ⟨d.sk, 0, []⟩ slot off range x
          let blk ← elemAt db idx
          .ok (parity ^^^ blk)) := by
  rw [expandPoint, slotKey, if_neg hSlot]
  cases cycleWalk aes x range (kdf aes mk d.sk slot) with
  | error e => rfl
  | ok y => simp only [ok_bind, hSlot, and_false, if_false, Nat.add_comm off]

theorem kickedParity_eq {slot off range prevCount curCount : Nat} (hRange : off + range ≤ 2 ^ 31)
    (hCount : prevCount ≤ range) (hShift : slot = 0 → d.shift < range)
    (hDb : off + range ≤ db.length) (parity : Block) :
    kickedParity aes db mk d slot off range curCount prevCount parity =
      .ok (parity ^^^ xorOver (blockAt db) (((slotOf aes (slotKey aes mk d.sk slot)
        (if slot = 0 then d.shift else 0) range prevCount).band curCount prevCount).map (off + ·))) := by
  let head := slotOf aes (slotKey aes mk d.sk slot) (if slot = 0 then d.shift else 0) range prevCount
  have hHeadRange : head.range = range := slotOf_range aes _ _ _ _
  rw [kickedParity, Slot.band, List.map_map]
  apply parityLoop_eq
  intro x hx acc
  obtain ⟨i, hi, rfl⟩ := List.mem_range'.mp hx
  have hPlace : head.place (curCount + 1 * i) < range := by
    rw [← hHeadRange]
    exact head.place_lt _ (by omega)
  have hPoint : expandPoint aes mk ⟨d.sk, d.shift, d.auxPrev⟩ slot off range (curCount + 1 * i) =
      .ok (off + head.place (curCount + 1 * i)) :=
    expandPoint_eq aes mk _ hRange hCount hShift (by omega)
  rw [kickedStep_eq, hPoint, ok_bind, elemAt_blockAt (by omega), ok_bind]
  rfl

theorem kickedSlots_eq {slot off : Nat} {prev low : Aux} (h : Lowers prev low) (hFits : Fits off prev)
    (hCur : ∀ j < low.length, d.auxCurr[slot + j]? = low[j]?)
    (hShift : slot = 0 → ∀ t, prev.head? = some t → d.shift < t.1)
    (hDb : off + (prev.map Prod.fst).sum ≤ db.length) (parity : Block) :
    kickedSlots aes db mk d slot off prev parity =
      .ok (parity ^^^ xorOver (blockAt db) (dropped off
        (slotsFrom aes (slotKey aes mk d.sk) d.shift slot prev)
        (slotsFrom aes (slotKey aes mk d.sk) d.shift slot low)),
        off + (prev.map Prod.fst).sum) := by
  induction h generalizing slot off parity with
  | nil => simp [kickedSlots, slotsFrom, dropped]
  | @cons t u prev low hHead hTail ih =>
    obtain ⟨range, count⟩ := t
    obtain ⟨range', count'⟩ := u
    obtain ⟨rfl, hLow⟩ := hHead
    obtain ⟨hRange, hCount⟩ := hFits.head
    rw [List.map_cons, List.sum_cons] at hDb ⊢
    have hGet : elemAt d.auxCurr slot = .ok (range', count') :=
      elemAt_of_getElem? (hCur 0 (Nat.zero_lt_succ _))
    have hCurTail : ∀ j < low.length, d.auxCurr[slot + 1 + j]? = low[j]? := by
      intro j hj
      rw [Nat.add_assoc, Nat.add_comm 1]
      exact hCur (j + 1) (Nat.succ_lt_succ hj)
    have hKicked := @kickedParity_eq aes db mk d slot off range' count count' hRange hCount
      (fun h => hShift h (range', count) rfl) (by omega) parity
    rw [kickedSlots, hGet, ok_bind, hKicked, ok_bind, u32_of_lt (by omega),
      ih hFits.tail hCurTail (fun h => by omega) (by omega), slotsFrom, slotsFrom, dropped,
      slotOf_range, xorOver_append, slotOf_count aes (by omega) hCount,
      slotOf_count aes (by omega) (by omega), BitVec.xor_assoc, Nat.add_assoc]

theorem lastSlotParity_eq {slot off range count : Nat} (hSlot : slot ≠ 0) (hRange : off + range ≤ 2 ^ 31)
    (hCount : count ≤ range) (hDb : off + range ≤ db.length) (parity : Block) :
    lastSlotParity aes db mk d slot off (range, count) parity =
      .ok (parity ^^^ xorOver (blockAt db)
        ((slotOf aes (slotKey aes mk d.sk slot) 0 range count).points.map (off + ·))) := by
  let last := slotOf aes (slotKey aes mk d.sk slot) 0 range count
  have hLastRange : last.range = range := slotOf_range aes _ _ _ _
  rw [lastSlotParity, Slot.points, slotOf_count aes (by omega) hCount, List.map_map]
  apply parityLoop_eq
  intro x hx acc
  have hx' := List.mem_range.mp hx
  have hPlace : last.place x < range := by
    rw [← hLastRange]
    exact last.place_lt _ (by omega)
  have hPoint : expandPoint aes mk ⟨d.sk, 0, []⟩ slot off range x = .ok (off + last.place x) := by
    have hPoint := expandPoint_eq aes mk ⟨d.sk, 0, []⟩ hRange hCount (fun h => absurd h hSlot) hx'
    rwa [ite_self] at hPoint
  rw [if_neg (by omega), lastStep_eq aes db mk d hSlot, hPoint, ok_bind, elemAt_blockAt (by omega),
    ok_bind]
  rfl

end Loops

theorem countSum_append (front back : Aux) : countSum (front ++ back) = countSum front + countSum back := by
  rw [countSum, countSum, countSum, List.map_append, List.sum_append]

theorem Lowers.length_eq {prev low : Aux} (h : Lowers prev low) : low.length = prev.length :=
  (List.Forall₂.length_eq h).symm

theorem Lowers.head_range {prev low : Aux} (h : Lowers prev low) {t : Nat × Nat} (ht : low.head? = some t) :
    ∃ u, prev.head? = some u ∧ u.1 = t.1 := by
  cases h with
  | nil => cases ht
  | cons hHead _ =>
    cases ht
    exact ⟨_, rfl, hHead.1.symm⟩

section Growth
variable {dbrange setsize n : Nat} {sk : Key} {shift : Nat} {prev cur : Aux}

theorem SetWF.ne_nil (h : SetWF dbrange setsize ⟨sk, shift, prev⟩) (hPos : 0 < dbrange) : prev ≠ [] := by
  rintro rfl
  exact absurd h.ranges (by simp; omega)

theorem SetWF.extend (h : SetWF dbrange setsize ⟨sk, shift, prev⟩) (hPos : 0 < dbrange)
    (hExt : Extends prev cur n) : SetWF (dbrange + n) (countSum cur) ⟨sk, shift, cur⟩ := by
  obtain ⟨low, ell, hLow, rfl, hEll⟩ := hExt
  have hNe : low ≠ [] := by
    intro hNil
    have hLength := hLow.length_eq
    rw [hNil] at hLength
    exact h.ne_nil hPos (List.length_eq_zero_iff.mp hLength.symm)
  refine ⟨⟨?_, ?_, rfl⟩, ?_⟩
  · rw [List.map_append, List.sum_append, hLow.ranges_eq, h.ranges]
    simp
  · intro t ht
    rcases List.mem_append.mp ht with ht | ht
    · obtain ⟨u, hu, hRange, hCount⟩ := hLow.exists_of_mem ht
      have hGenuine := h.counts_le u hu
      omega
    · rw [List.mem_singleton.mp ht]
      exact hEll
  · intro t ht
    rw [List.head?_append_of_ne_nil _ hNe] at ht
    obtain ⟨u, hu, hRange⟩ := hLow.head_range ht
    rw [← hRange]
    exact h.shift_lt u hu

variable (mk : Key) {db : Database} (hRange : dbrange + n ≤ 2 ^ 31) (hDb : db.length = dbrange + n)
include hRange hDb

theorem diffParity_eq (h : SetWF dbrange setsize ⟨sk, shift, prev⟩) (hPos : 0 < dbrange)
    (hExt : Extends prev cur n) :
    diffParity aes db mk ⟨sk, shift, prev, cur⟩ =
      .ok (setHint aes db mk ⟨sk, shift, prev⟩ ^^^ setHint aes db mk ⟨sk, shift, cur⟩) := by
  obtain ⟨low, ell, hLow, rfl, hEll⟩ := hExt
  have hFits : Fits 0 prev := h.fits (by omega)
  have hRanges : (prev.map Prod.fst).sum = dbrange := h.ranges
  have hNew : (low ++ [(n, ell)]).length - 1 = low.length := by simp
  have hLast : elemAt (low ++ [(n, ell)]) low.length = .ok (n, ell) :=
    elemAt_of_getElem? (by simp)
  have hSlot : low.length ≠ 0 := by
    rw [hLow.length_eq]
    exact fun h' => h.ne_nil hPos (List.length_eq_zero_iff.mp h')
  have hKicked := @kickedSlots_eq aes db mk ⟨sk, shift, prev, low ++ [(n, ell)]⟩ 0 0 prev low hLow hFits
    (fun j hj => by rw [Nat.zero_add]; exact List.getElem?_append_left hj) (fun _ => h.shift_lt)
    (by omega) 0
  have hLastParity := @lastSlotParity_eq aes db mk ⟨sk, shift, prev, low ++ [(n, ell)]⟩ low.length dbrange
    n ell hSlot hRange hEll (by omega)
  rw [diffParity, hKicked, ok_bind]
  dsimp only
  rw [hNew, hLast, ok_bind, hRanges, Nat.zero_add, hLastParity]
  congr 1
  let key := slotKey aes mk sk
  let slots := slotsFrom aes key shift 0 prev
  let lows := slotsFrom aes key shift 0 low
  have hLowered : Lowered slots lows := lowered_slotsFrom aes key shift hLow hFits
  have hSpan : span lows = dbrange := by
    rw [span_slotsFrom, hLow.ranges_eq, hRanges]
  have hCur : expansion aes mk ⟨sk, shift, low ++ [(n, ell)]⟩ =
      members 0 lows ++ (slotOf aes (key low.length) 0 n ell).points.map (dbrange + ·) := by
    rw [expansion, slotsFrom_append, members_append, hSpan, Nat.zero_add, Nat.zero_add, slotsFrom,
      if_neg hSlot, slotsFrom, members, members, List.append_nil]
  rw [setHint, setHint, hCur, xorOver_append, expansion, xorOver_members_lowered _ hLowered,
    xor_xor_shared]
  exact congrArg (· ^^^ _) (BitVec.zero_xor ..)

end Growth

theorem setHint_append {dbrange setsize : Nat} {d : SetDesc} (h : SetWF dbrange setsize d) (mk : Key)
    {db : Database} (hDb : db.length = dbrange) (v : List Block) :
    setHint aes (db ++ v) mk d = setHint aes db mk d := by
  apply xorOver_congr
  intro i hi
  have hLt := expansion_lt aes mk h i hi
  exact blockAt_append (by omega) v

end IncPir
