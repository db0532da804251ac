import IncPir.SlotDifference
import Mathlib.Algebra.Order.BigOperators.Group.List

/-! # The kick loop of a batched addition

The loop draws positions against prefix sums that are taken once. A slot that
is drawn no more often than its count loses exactly that many positions; no
other counter changes.
-/

namespace IncPir
open LoopM
set_option autoImplicit false

/-- The slot whose interval of prefix sums contains `fall`. -/
def slotAt : Aux → Nat → Nat
  | [], _ => 0
  | (_, count) :: rest, fall => if fall < count then 0 else slotAt rest (fall - count) + 1

def hits (aux : Aux) (fall : Nat → Nat) (ell slot : Nat) : Nat :=
  (List.range ell).countP fun i => slotAt aux (fall i % countSum aux) == slot

/-- No slot is drawn more often than its count. -/
def NoOverdraw (aux : Aux) (fall : Nat → Nat) (ell : Nat) : Prop :=
  ∀ slot t, aux[slot]? = some t → hits aux fall ell slot ≤ t.2

instance (aux : Aux) (fall : Nat → Nat) (ell : Nat) : Decidable (NoOverdraw aux fall ell) :=
  decidableForallEntry aux fun slot t => hits aux fall ell slot ≤ t.2

theorem countSum_cons (t : Nat × Nat) (rest : Aux) : countSum (t :: rest) = t.2 + countSum rest := rfl

theorem slotAt_lt {aux : Aux} {fall : Nat} (h : fall < countSum aux) : slotAt aux fall < aux.length := by
  induction aux generalizing fall with
  | nil => cases h
  | cons t rest ih =>
    obtain ⟨range, count⟩ := t
    rw [countSum_cons] at h
    rw [slotAt, List.length_cons]
    split
    · exact Nat.zero_lt_succ _
    · exact Nat.succ_lt_succ (ih (by omega))

theorem hits_succ (aux : Aux) (fall : Nat → Nat) (ell slot : Nat) :
    hits aux fall (ell + 1) slot =
      hits aux fall ell slot + if slotAt aux (fall ell % countSum aux) = slot then 1 else 0 := by
  rw [hits, List.range_succ, List.countP_append, List.countP_singleton]
  simp only [beq_iff_eq]
  rfl

theorem NoOverdraw.of_le {aux : Aux} {fall : Nat → Nat} {ell k : Nat} (h : NoOverdraw aux fall ell)
    (hk : k ≤ ell) : NoOverdraw aux fall k := by
  intro slot t ht
  have hPrefix : hits aux fall k slot ≤ hits aux fall ell slot :=
    (List.range_sublist.mpr hk).countP_le
  exact hPrefix.trans (h slot t ht)

section Draw

def drawnSlot (cntr : List Nat) (fall : Nat) : Option Nat :=
  if fall < cntr.getD 0 0 then some 0
  else ((List.range (cntr.length - 1)).find? fun cnt =>
    decide (cntr.getD cnt 0 ≤ fall ∧ fall < cntr.getD (cnt + 1) 0)).map (· + 1)

theorem drawnSlot_cons_cons {a b fall : Nat} (rest : List Nat) (h : a ≤ fall) :
    drawnSlot (a :: b :: rest) fall = (drawnSlot (b :: rest) fall).map (· + 1) := by
  rw [drawnSlot, if_neg (by simpa using h), drawnSlot]
  simp only [List.length_cons, Nat.add_sub_cancel, List.range_succ_eq_map, List.find?_cons,
    List.getD_cons_zero, List.getD_cons_succ]
  by_cases hb : fall < b
  · simp [h, hb]
  · simp only [h, hb, and_false, decide_false, if_false, List.find?_map, Option.map_map]
    rfl

theorem drawnSlot_counters {aux : Aux} {lsum fall : Nat} (hLow : lsum ≤ fall)
    (hHigh : fall < lsum + countSum aux) (hBound : lsum + countSum aux < 2 ^ 32) :
    drawnSlot (counters lsum aux) fall = some (slotAt aux (fall - lsum)) := by
  induction aux generalizing lsum with
  | nil => exact absurd hHigh (by simp [countSum]; omega)
  | cons t rest ih =>
    obtain ⟨range, count⟩ := t
    rw [countSum_cons] at hHigh hBound
    rw [counters, slotAt, u32_of_lt (by omega)]
    by_cases hHead : fall < lsum + count
    · rw [if_pos (by omega), drawnSlot, List.getD_cons_zero, if_pos hHead]
    · have hTail := @ih (lsum + count) (by omega) (by omega) (by omega)
      rw [if_neg (by omega), Nat.sub_sub]
      cases rest with
      | nil => exact absurd hHigh (by simp [countSum]; omega)
      | cons u rest =>
        rw [counters] at hTail ⊢
        rw [drawnSlot_cons_cons _ (by omega), hTail]
        rfl

theorem kickSlot_eq {aux : Aux} {fall : Nat} (h : fall < countSum aux) (hBound : countSum aux < 2 ^ 32) :
    kickSlot (counters 0 aux) fall = .ok (some (slotAt aux fall)) := by
  have hDrawn := @drawnSlot_counters aux 0 fall (Nat.zero_le fall) (by omega) (by omega)
  cases aux with
  | nil => cases h
  | cons t rest =>
    obtain ⟨range, count⟩ := t
    rw [counters] at hDrawn ⊢
    rw [kickSlot, elemAt_of_getElem? (List.getElem?_cons_zero), ok_bind]
    rw [drawnSlot, List.getD_cons_zero] at hDrawn
    split
    · rw [if_pos (by assumption)] at hDrawn
      exact congrArg Except.ok hDrawn
    · rw [if_neg (by assumption)] at hDrawn
      exact congrArg Except.ok hDrawn

end Draw

theorem decrement_getElem? (aux : Aux) (k slot : Nat) :
    (decrementCount aux (some k))[slot]? =
      (aux[slot]?).map fun t => if k = slot then (t.1, sub32 t.2 1) else t := by
  rw [decrementCount, List.getElem?_modify]
  rfl

theorem decrement_spec {prev low : Aux} (hLow : Lowers prev low) {k : Nat} {u : Nat × Nat}
    (hu : low[k]? = some u) (hPos : 0 < u.2) (hBound : u.2 < 2 ^ 32) :
    Lowers prev (decrementCount low (some k)) ∧
      countSum (decrementCount low (some k)) + 1 = countSum low := by
  have hSub : sub32 u.2 1 = u.2 - 1 := sub32_of_le hPos hBound
  rw [decrementCount]
  induction hLow generalizing k with
  | nil => cases hu
  | @cons t v prev low hHead hTail ih =>
    cases k with
    | zero =>
      cases hu
      rw [List.modify_zero_cons, hSub]
      refine ⟨List.Forall₂.cons ⟨hHead.1, ?_⟩ hTail, ?_⟩
      · exact (Nat.sub_le _ _).trans hHead.2
      · rw [countSum_cons, countSum_cons]
        omega
    | succ k =>
      obtain ⟨hRest, hSum⟩ := ih hu
      rw [List.modify_succ_cons]
      refine ⟨List.Forall₂.cons hHead hRest, ?_⟩
      rw [countSum_cons, countSum_cons]
      omega

/-- After `ell` draws that overdraw no slot, each slot has lost one position for each hit. -/
theorem kickOut_ok {aux : Aux} {fall : Nat → Nat} {ell : Nat} (h : NoOverdraw aux fall ell)
    (hPos : 0 < countSum aux) (hBound : countSum aux < 2 ^ 32) :
    ∃ low, kickOut aux ell fall = .ok low ∧ Lowers aux low ∧ countSum low + ell = countSum aux ∧
      ∀ slot t, aux[slot]? = some t →
        ∃ u, low[slot]? = some u ∧ u.2 + hits aux fall ell slot = t.2 := by
  induction ell with
  | zero =>
    refine ⟨aux, rfl, List.forall₂_same.mpr fun t _ => ⟨rfl, le_rfl⟩, rfl, ?_⟩
    intro slot t ht
    exact ⟨t, ht, rfl⟩
  | succ ell ih =>
    obtain ⟨low, hOk, hLow, hSum, hHits⟩ := ih (h.of_le (Nat.le_succ ell))
    have hFall : fall ell % countSum aux < countSum aux := Nat.mod_lt _ hPos
    have hSlot := slotAt_lt hFall
    let k := slotAt aux (fall ell % countSum aux)
    obtain ⟨u, hu, hCount⟩ := hHits k _ (List.getElem?_eq_getElem hSlot)
    have hDraw := h k _ (List.getElem?_eq_getElem hSlot)
    rw [hits_succ, if_pos rfl] at hDraw
    have hEntry : u.2 ≤ countSum low := List.le_sum_of_mem
      (List.mem_map_of_mem (List.mem_of_getElem? hu))
    obtain ⟨hLow', hSum'⟩ := decrement_spec hLow hu (by omega) (by omega)
    refine ⟨decrementCount low (some k), ?_, hLow', by omega, ?_⟩
    · rw [kickOut] at hOk ⊢
      rw [List.range_succ, List.foldlM_append, hOk, ok_bind, List.foldlM_cons, modBy, u32_of_lt hBound,
        if_neg (by omega), ok_bind, kickSlot_eq hFall hBound]
      rfl
    · intro slot t ht
      obtain ⟨v, hv, hvCount⟩ := hHits slot t ht
      rw [decrement_getElem?, hv]
      refine ⟨_, rfl, ?_⟩
      rw [hits_succ]
      by_cases hSame : k = slot
      · subst hSame
        rw [hu] at hv
        cases hv
        dsimp only
        rw [if_pos rfl, if_pos rfl, sub32_of_le (by omega) (by omega)]
        omega
      · dsimp only
        rw [if_neg hSame, if_neg hSame]
        omega

theorem kickOut_positive {aux : Aux} {fall : Nat → Nat} {ell : Nat} (h : NoOverdraw aux fall ell)
    (hPos : 0 < countSum aux) (hBound : countSum aux < 2 ^ 32) :
    ∀ i < ell, ∃ cur slot t, kickOut aux i fall = .ok cur ∧
      kickSlot (counters 0 aux) (fall i % countSum aux) = .ok (some slot) ∧
      cur[slot]? = some t ∧ 0 < t.2 := by
  intro i hi
  have hFall : fall i % countSum aux < countSum aux := Nat.mod_lt _ hPos
  have hSlot := List.getElem?_eq_getElem (slotAt_lt hFall)
  obtain ⟨cur, hOk, -, -, hHits⟩ := kickOut_ok (h.of_le (Nat.le_of_lt hi)) hPos hBound
  obtain ⟨u, hu, hCount⟩ := hHits _ _ hSlot
  have hDraw := (h.of_le (Nat.succ_le_of_lt hi)) _ _ hSlot
  rw [hits_succ, if_pos rfl] at hDraw
  exact ⟨cur, _, u, hOk, kickSlot_eq hFall hBound, hu, by omega⟩

section Sampling

def sampledCount (setsize nbrAdd : Nat) (rand : Nat → Nat) (coin : Nat → Bool) : Nat :=
  (((List.range nbrAdd).filter coin).map fun i => rand i % setsize).dedup.length

variable (setsize : Nat) (rand : Nat → Nat) (coin : Nat → Bool)

theorem sampledCount_le (nbrAdd : Nat) : sampledCount setsize nbrAdd rand coin ≤ nbrAdd := by
  refine (List.dedup_sublist _).length_le.trans ?_
  rw [List.length_map]
  exact (List.length_filter_le _ _).trans_eq List.length_range

theorem isInTuple_spec (r : Nat) (linfo : List (Nat × Nat)) :
    (∃ flag, isInTuple r linfo = some flag ∧ r ∈ linfo.map Prod.fst) ∨
      isInTuple r linfo = none ∧ r ∉ linfo.map Prod.fst := by
  rw [isInTuple]
  cases hFlag : linfo.findIdx? fun t => t.1 == r with
  | none =>
    refine Or.inr ⟨rfl, ?_⟩
    intro hMem
    obtain ⟨t, ht, rfl⟩ := List.mem_map.mp hMem
    have hNone := List.findIdx?_eq_none_iff.mp hFlag t ht
    simp at hNone
  | some flag =>
    obtain ⟨hLt, hEq, -⟩ := List.findIdx?_eq_some_iff_getElem.mp hFlag
    exact Or.inl ⟨flag, rfl, List.mem_map.mpr ⟨_, List.getElem_mem hLt, by simpa using hEq⟩⟩

theorem map_fst_modify (linfo : List (Nat × Nat)) (flag idx : Nat) :
    (linfo.modify flag fun t => (t.1, idx)).map Prod.fst = linfo.map Prod.fst := by
  apply List.ext_getElem?
  intro i
  rw [List.getElem?_map, List.getElem?_map, List.getElem?_modify]
  cases linfo[i]? with
  | none => rfl
  | some t =>
    rw [Option.map_some, Option.map_eq_map, Option.map_some, Option.map_some]
    split <;> rfl

/-- The sampling loop keeps one tuple for each distinct value drawn under coin 1. -/
theorem sampleLinfo_ok (hPos : 0 < setsize) (prevRange nbrAdd : Nat) :
    ∃ linfo, sampleLinfo setsize prevRange nbrAdd rand coin = .ok linfo ∧
      linfo.length = sampledCount setsize nbrAdd rand coin := by
  have hLoop : ∃ linfo, sampleLinfo setsize prevRange nbrAdd rand coin = .ok linfo ∧
      (linfo.map Prod.fst).Nodup ∧
      ∀ r, r ∈ linfo.map Prod.fst ↔ ∃ i < nbrAdd, coin i = true ∧ rand i % setsize = r := by
    induction nbrAdd with
    | zero => exact ⟨[], rfl, List.nodup_nil, by simp⟩
    | succ n ih =>
      obtain ⟨linfo, hOk, hNodup, hMem⟩ := ih
      rw [sampleLinfo] at hOk ⊢
      rw [List.range_succ, List.foldlM_append, hOk, ok_bind, List.foldlM_cons, modBy, if_neg (by omega),
        ok_bind]
      cases hCoin : coin n with
      | false =>
        refine ⟨linfo, rfl, hNodup, fun r => (hMem r).trans ?_⟩
        simp only [Nat.lt_succ_iff_lt_or_eq, or_and_right, exists_or, exists_eq_left, hCoin]
        simp
      | true =>
        have hStep : ∀ r, (r = rand n % setsize ∨ r ∈ linfo.map Prod.fst) ↔
            ∃ i < n + 1, coin i = true ∧ rand i % setsize = r := by
          intro r
          rw [hMem]
          simp only [Nat.lt_succ_iff_lt_or_eq, or_and_right, exists_or, exists_eq_left, hCoin, true_and]
          rw [or_comm, eq_comm]
        rcases isInTuple_spec (rand n % setsize) linfo with ⟨flag, hFlag, hIn⟩ | ⟨hFlag, hNot⟩
        · simp only [hFlag, if_true, List.foldlM_nil]
          refine ⟨_, rfl, ?_⟩
          rw [map_fst_modify]
          refine ⟨hNodup, fun r => ?_⟩
          rw [← hStep]
          exact ⟨Or.inr, fun h => h.elim (fun h => h ▸ hIn) id⟩
        · simp only [hFlag, if_true, List.foldlM_nil]
          refine ⟨_, rfl, ?_⟩
          rw [List.map_append]
          refine ⟨List.nodup_append.mpr ⟨hNodup, List.nodup_singleton _, ?_⟩, fun r => ?_⟩
          · rintro a ha b hb rfl
            rw [List.mem_singleton.mp hb] at ha
            exact hNot ha
          · rw [← hStep, List.mem_append, or_comm]
            simp
  obtain ⟨linfo, hOk, hNodup, hMem⟩ := hLoop
  refine ⟨linfo, hOk, ?_⟩
  have hPerm : (linfo.map Prod.fst).Perm
      (((List.range nbrAdd).filter coin).map fun i => rand i % setsize).dedup := by
    refine (List.perm_ext_iff_of_nodup hNodup (List.nodup_dedup _)).mpr fun r => ?_
    rw [hMem, List.mem_dedup, List.mem_map]
    simp only [List.mem_filter, List.mem_range, and_assoc]
  rw [sampledCount, ← hPerm.length_eq, List.length_map]

end Sampling

end IncPir
