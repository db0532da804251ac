import IncPir.OnlineRound

/-! # The search on sets without shift

For a zero shift the search derives a key for slot 0, while the expansion takes
the set key. This is the only way in which the search can stop at a set that
lacks the index, or pass one that has it.
-/

namespace IncPir
open SlotSet LoopM
set_option autoImplicit false

variable (aes : Aes)

/-- The index lies in slot 0 of a set without shift, where the set key places no member. -/
def FalseHit (d : SetDesc) (idx : Nat) : Prop :=
  d.shift = 0 ∧ ∃ t, d.aux.head? = some t ∧ idx < t.1 ∧ t.2 ≤ invPrp aes d.sk t.1 idx

/-- The index lies in slot 0 of a set without shift, where the set key and the key derived for slot 0
disagree about it. -/
def KeySplit (mk : Key) (d : SetDesc) (idx : Nat) : Prop :=
  d.shift = 0 ∧ ∃ t, d.aux.head? = some t ∧ idx < t.1 ∧
    ¬ (invPrp aes d.sk t.1 idx < t.2 ↔ invPrp aes (kdf aes mk d.sk 0) t.1 idx < t.2)

theorem slotsFrom_congr {key key' : Nat → Key} {shift slot : Nat} {aux : Aux}
    (h : ∀ s, slot ≤ s → key s = key' s) :
    slotsFrom aes key shift slot aux = slotsFrom aes key' shift slot aux := by
  induction aux generalizing slot with
  | nil => rfl
  | cons t rest ih =>
    obtain ⟨range, count⟩ := t
    rw [slotsFrom, slotsFrom, h slot le_rfl, ih fun s hs => h s (by omega)]

section Head
variable {range count : Nat} {rest : Aux} (hFits : Fits 0 ((range, count) :: rest)) {idx : Nat}
include hFits

theorem mem_unshifted_head_iff (key : Nat → Key) (hLow : idx < range) :
    idx ∈ members 0 (slotsFrom aes key 0 0 ((range, count) :: rest)) ↔
      invPrp aes (key 0) range idx < count := by
  obtain ⟨hHead, hCount⟩ := hFits.head
  have hLocate : (slotOf aes (key 0) (if 0 = 0 then 0 else 0) range count).locate (idx - 0) =
      invPrp aes (key 0) range idx := by
    rw [slotOf_locate aes (by omega) hCount, if_pos rfl, Nat.sub_zero]
    exact congrArg _ (unshift_zero hLow)
  rw [slotsFrom, mem_members_cons_of_lt (Nat.zero_le _) (by rw [slotOf_range]; omega),
    slotOf_count aes (by omega) hCount, hLocate]

omit hFits in
/-- Beyond slot 0 the keys of the search are those of the expansion. -/
theorem mem_searched_tail_iff (mk sk : Key) (hHigh : range ≤ idx) :
    idx ∈ members 0 (slotsFrom aes (kdf aes mk sk) 0 0 ((range, count) :: rest)) ↔
      idx ∈ members 0 (slotsFrom aes (slotKey aes mk sk) 0 0 ((range, count) :: rest)) := by
  have hRest : slotsFrom aes (kdf aes mk sk) 0 1 rest = slotsFrom aes (slotKey aes mk sk) 0 1 rest := by
    apply slotsFrom_congr
    intro s hs
    rw [slotKey, if_neg (by omega)]
  rw [slotsFrom, slotsFrom, mem_members_cons_of_ge (Or.inr (by rw [slotOf_range]; omega)),
    mem_members_cons_of_ge (Or.inr (by rw [slotOf_range]; omega)), slotOf_range, slotOf_range, hRest]

end Head

section Unshifted
variable {mk : Key} {d : SetDesc} (hShift : d.shift = 0)
include hShift

theorem searched_unshifted : searched aes mk d = members 0 (slotsFrom aes (kdf aes mk d.sk) 0 0 d.aux) := by
  have hKey : searchKey aes mk d = kdf aes mk d.sk := by
    funext slot
    rw [searchKey, if_neg fun h => h.1 hShift]
  rw [searched, hKey, hShift]

theorem expansion_unshifted :
    expansion aes mk d = members 0 (slotsFrom aes (slotKey aes mk d.sk) 0 0 d.aux) := by
  rw [expansion, hShift]

end Unshifted

section Member
variable (mk : Key) {dbrange setsize : Nat} {d : SetDesc} (h : SetWF dbrange setsize d)
  (hRange : dbrange ≤ 2 ^ 31) {idx : Nat}
include h hRange

theorem mem_expansion_iff (hFound : idx ∈ searched aes mk d) :
    idx ∈ expansion aes mk d ↔ ¬ FalseHit aes d idx := by
  by_cases hShift : d.shift = 0
  · have hFits := h.fits hRange
    rw [searched_unshifted aes hShift] at hFound
    rw [expansion_unshifted aes hShift, FalseHit]
    cases hAux : d.aux with
    | nil =>
      rw [hAux] at hFound
      cases hFound
    | cons t rest =>
      obtain ⟨range, count⟩ := t
      rw [hAux] at hFound hFits
      by_cases hLow : idx < range
      · rw [mem_unshifted_head_iff aes hFits _ hLow]
        simp [hShift, hLow, slotKey]
      · refine iff_of_true ((mem_searched_tail_iff aes mk d.sk (by omega)).mp hFound) ?_
        rintro ⟨-, t, ht, hLt, -⟩
        cases ht
        exact hLow hLt
  · rw [searched_eq_expansion aes mk hShift] at hFound
    exact iff_of_true hFound fun hFalse => hShift hFalse.1

theorem searched_agrees_iff :
    (idx ∈ searched aes mk d ↔ idx ∈ expansion aes mk d) ↔ ¬ KeySplit aes mk d idx := by
  by_cases hShift : d.shift = 0
  · have hFits := h.fits hRange
    rw [searched_unshifted aes hShift, expansion_unshifted aes hShift, KeySplit]
    cases hAux : d.aux with
    | nil => simp [slotsFrom, members]
    | cons t rest =>
      obtain ⟨range, count⟩ := t
      rw [hAux] at hFits
      by_cases hLow : idx < range
      · rw [mem_unshifted_head_iff aes hFits _ hLow, mem_unshifted_head_iff aes hFits _ hLow, slotKey,
          if_pos rfl]
        simp only [hShift, List.head?_cons, Option.some.injEq, exists_eq_left', hLow, true_and, not_not]
        exact ⟨Iff.symm, Iff.symm⟩
      · refine iff_of_true (mem_searched_tail_iff aes mk d.sk (by omega)) ?_
        rintro ⟨-, t, ht, hLt, -⟩
        cases ht
        exact hLow hLt
  · rw [searched_eq_expansion aes mk hShift]
    exact iff_of_true Iff.rfl fun hSplit => hShift hSplit.1

end Member

/-- The set a search reports has the index when it is no false hit. -/
theorem expansion_of_search {c : PIRClient} (hWF : ClientWF c) {idx setno : Nat}
    (hFound : c.search aes idx = .ok (some setno))
    (hHit : ∀ d, c.localhints.sets[setno]? = some d → ¬ FalseHit aes d idx) :
    ∃ d, c.localhints.sets[c.selected aes idx]? = some d ∧ idx ∈ expansion aes c.mk d := by
  obtain ⟨d, hSet, hMem⟩ := searched_of_search aes hWF hFound
  have hd := hWF.sets_wf d (List.mem_of_getElem? hSet)
  refine ⟨d, ?_, (mem_expansion_iff aes c.mk hd hWF.dbrange_le hMem).mpr (hHit d hSet)⟩
  rw [selected_of_search aes hWF hFound]
  exact hSet

/-- The expansion loop lists the index for set `s`. -/
def Lists (c : PIRClient) (idx s : Nat) : Prop :=
  ∃ d tmp, c.localhints.sets[s]? = some d ∧ expandSet aes c.mk c.dbrange d = .ok tmp ∧ idx ∈ tmp.elems

section Agreement
variable {c : PIRClient} (hSets : ∀ d ∈ c.localhints.sets, SetWF c.dbrange (countSum d.aux) d)
  (hRange : c.dbrange ≤ 2 ^ 31)
include hSets hRange

theorem lists_iff (idx s : Nat) :
    Lists aes c idx s ↔ ∃ d, c.localhints.sets[s]? = some d ∧ idx ∈ expansion aes c.mk d := by
  constructor
  · rintro ⟨d, tmp, hSet, hTmp, hMem⟩
    rw [expandSet_eq aes c.mk (hSets d (List.mem_of_getElem? hSet)) hRange] at hTmp
    cases hTmp
    exact ⟨d, hSet, (OrdSet.mem_ofList _ _).mp hMem⟩
  · rintro ⟨d, hSet, hMem⟩
    exact ⟨d, _, hSet, expandSet_eq aes c.mk (hSets d (List.mem_of_getElem? hSet)) hRange,
      (OrdSet.mem_ofList _ _).mpr hMem⟩

/-- The least set that lists an index. -/
theorem findIdx?_expansion_eq_some_iff (idx s : Nat) :
    (c.localhints.sets.findIdx? fun d => decide (idx ∈ expansion aes c.mk d)) = some s ↔
      Lists aes c idx s ∧ ∀ s' < s, ¬ Lists aes c idx s' := by
  rw [List.findIdx?_eq_some_iff_getElem]
  constructor
  · rintro ⟨hs, hMem, hBefore⟩
    refine ⟨(lists_iff aes hSets hRange idx s).mpr
      ⟨_, List.getElem?_eq_getElem hs, of_decide_eq_true hMem⟩, ?_⟩
    intro s' hs' hLists
    obtain ⟨d, hSet, hMem'⟩ := (lists_iff aes hSets hRange idx s').mp hLists
    obtain ⟨hLt, rfl⟩ := List.getElem?_eq_some_iff.mp hSet
    exact hBefore s' hs' (decide_eq_true hMem')
  · rintro ⟨hLists, hBefore⟩
    obtain ⟨d, hSet, hMem⟩ := (lists_iff aes hSets hRange idx s).mp hLists
    obtain ⟨hs, rfl⟩ := List.getElem?_eq_some_iff.mp hSet
    refine ⟨hs, decide_eq_true hMem, ?_⟩
    intro s' hs' hMem'
    exact hBefore s' hs' ((lists_iff aes hSets hRange idx s').mpr
      ⟨_, List.getElem?_eq_getElem (by omega), of_decide_eq_true hMem'⟩)

theorem findIdx?_expansion_eq_none_iff (idx : Nat) :
    (c.localhints.sets.findIdx? fun d => decide (idx ∈ expansion aes c.mk d)) = none ↔
      ∀ s, ¬ Lists aes c idx s := by
  rw [List.findIdx?_eq_none_iff]
  constructor
  · intro hNone s hLists
    obtain ⟨d, hSet, hMem⟩ := (lists_iff aes hSets hRange idx s).mp hLists
    exact of_decide_eq_false (hNone d (List.mem_of_getElem? hSet)) hMem
  · intro hNone d hd
    obtain ⟨s, hSet⟩ := List.getElem?_of_mem hd
    exact decide_eq_false fun hMem => hNone s ((lists_iff aes hSets hRange idx s).mpr ⟨d, hSet, hMem⟩)

/-- The search returns; it reports the least set that lists the index, and no set exactly when none
does, if and only if every set on whose slot 0 the two keys disagree comes after one that lists
the index. -/
theorem search_least_iff (hLength : c.localhints.sets.length = c.nbrsets) (idx : Nat) :
    ∃ setno, c.search aes idx = .ok setno ∧
      (((∀ s, setno = some s ↔ Lists aes c idx s ∧ ∀ s' < s, ¬ Lists aes c idx s') ∧
          (setno = none ↔ ∀ s, ¬ Lists aes c idx s)) ↔
        ∀ s d, c.localhints.sets[s]? = some d → KeySplit aes c.mk d idx →
          ∃ s' < s, Lists aes c idx s') := by
  let found := c.localhints.sets.findIdx? fun d => decide (idx ∈ searched aes c.mk d)
  let first := c.localhints.sets.findIdx? fun d => decide (idx ∈ expansion aes c.mk d)
  have hSearch : c.search aes idx = .ok found := by
    have hLoop := searchSets_eq aes c.mk hSets hRange idx (by rw [Nat.zero_add, hLength])
    rw [PIRClient.search, hLoop, List.drop_zero]
    simp [found]
  refine ⟨found, hSearch, ?_⟩
  have hLeast : ((∀ s, found = some s ↔ Lists aes c idx s ∧ ∀ s' < s, ¬ Lists aes c idx s') ∧
      (found = none ↔ ∀ s, ¬ Lists aes c idx s)) ↔ found = first := by
    simp only [← findIdx?_expansion_eq_some_iff aes hSets hRange,
      ← findIdx?_expansion_eq_none_iff aes hSets hRange]
    constructor
    · rintro ⟨hSome, -⟩
      exact Option.ext hSome
    · rintro hEq
      rw [hEq]
      exact ⟨fun _ => Iff.rfl, Iff.rfl⟩
  rw [hLeast, findIdx?_eq_findIdx?_iff]
  apply forall_congr'
  intro s
  apply forall_congr'
  intro d
  apply imp_congr_right
  intro hSet
  have hSplit := @searched_agrees_iff aes c.mk _ _ d (hSets d (List.mem_of_getElem? hSet))
    hRange idx
  have hDiffer : decide (idx ∈ searched aes c.mk d) ≠ decide (idx ∈ expansion aes c.mk d) ↔
      KeySplit aes c.mk d idx := by
    rw [ne_eq, decide_eq_decide, hSplit, not_not]
  rw [hDiffer]
  simp only [decide_eq_true_iff, lists_iff aes hSets hRange]

end Agreement

def unshiftedClient : PIRClient :=
  ⟨2, 1, 1, ⟨[⟨Vector.replicate 16 0, 0, [(2, 1)]⟩], [0]⟩, Vector.replicate 16 1, 0, 0⟩

theorem unshiftedClient_wf : ∀ d ∈ unshiftedClient.localhints.sets,
    SetWF unshiftedClient.dbrange (countSum d.aux) d := by
  intro d hd
  rw [List.mem_singleton.mp hd]
  exact setWF_single _ _ (by decide) (by decide)

theorem search_least_iff_unshifted :
    ∃ setno, unshiftedClient.search (fun key _ => key) 1 = .ok setno ∧
      (((∀ s, setno = some s ↔ Lists (fun key _ => key) unshiftedClient 1 s ∧
            ∀ s' < s, ¬ Lists (fun key _ => key) unshiftedClient 1 s') ∧
          (setno = none ↔ ∀ s, ¬ Lists (fun key _ => key) unshiftedClient 1 s)) ↔
        ∀ s d, unshiftedClient.localhints.sets[s]? = some d →
          KeySplit (fun key _ => key) unshiftedClient.mk d 1 →
          ∃ s' < s, Lists (fun key _ => key) unshiftedClient 1 s') :=
  search_least_iff _ unshiftedClient_wf (by decide) rfl 1

/-- The search reports set 0 for index 1, which no set lists. -/
theorem search_not_least :
    (∀ d ∈ unshiftedClient.localhints.sets, SetWF unshiftedClient.dbrange (countSum d.aux) d) ∧
      1 < unshiftedClient.dbrange ∧
      unshiftedClient.search (fun key _ => key) 1 = .ok (some 0) ∧
      expandSet (fun key _ => key) unshiftedClient.mk 2 ⟨Vector.replicate 16 0, 0, [(2, 1)]⟩ =
        .ok (OrdSet.ofList [0]) ∧
      ∀ s, ¬ Lists (fun key _ => key) unshiftedClient 1 s := by
  have hExpand : expandSet (fun key _ => key) unshiftedClient.mk 2 ⟨Vector.replicate 16 0, 0, [(2, 1)]⟩ =
      .ok (OrdSet.ofList [0]) := by decide +kernel
  refine ⟨unshiftedClient_wf, by decide, by decide +kernel, hExpand, ?_⟩
  rintro s ⟨d, tmp, hSet, hTmp, hMem⟩
  cases s with
  | zero =>
    cases hSet
    cases hExpand.symm.trans hTmp
    exact absurd hMem (by decide)
  | succ s => cases hSet

end IncPir
