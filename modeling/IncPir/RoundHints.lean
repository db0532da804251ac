import IncPir.QueryRound

/-! # What a round leaves in the hints

The round never checks whether the search or a coin made it unlucky. The hint
it stores is exact precisely when the online removal and the refresh removal
took out equal blocks; when the set contains the index these are the blocks of
the one index that each query omits.
-/

namespace IncPir
open LoopM XorFold
set_option autoImplicit false

variable (aes : Aes)

section Round
variable {server : PIRServer} {c : PIRClient} {idx : Nat} {refresh : RefreshDraw} {loss : Block}

theorem AfterRound.untouched {c' : PIRClient} (h : AfterRound aes server.db c c' idx refresh loss)
    {s : Nat} (hs : s ≠ c.selected aes idx) :
    c'.localhints.sets[s]? = c.localhints.sets[s]? ∧
      c'.localhints.parities[s]? = c.localhints.parities[s]? := by
  rw [h.sets, h.parities]
  exact ⟨List.getElem?_set_ne hs.symm, List.getElem?_set_ne hs.symm⟩

theorem HintExact.of_untouched {db : Database} {c' : PIRClient} {s : Nat} (hExact : HintExact aes db c s)
    (hMk : c'.mk = c.mk) (hRange : c'.dbrange = c.dbrange)
    (hSame : c'.localhints.sets[s]? = c.localhints.sets[s]? ∧
      c'.localhints.parities[s]? = c.localhints.parities[s]?) : HintExact aes db c' s := by
  obtain ⟨d, h, tmp, hSet, hParity, hTmp, hEq⟩ := hExact
  refine ⟨d, h, tmp, hSame.1.trans hSet, hSame.2.trans hParity, ?_, hEq⟩
  rw [hMk, hRange]
  exact hTmp

end Round

def pairClient : PIRClient :=
  ⟨2, 2, 1, ⟨[⟨Vector.replicate 16 0, 1, [(2, 2)]⟩], [1]⟩, Vector.replicate 16 0, 0, 0⟩

def pairServer : PIRServer := ⟨2, 2, 1, [1, 0]⟩

theorem pairClient_wf : ClientWF pairClient where
  setsize_pos := by decide
  setsize_le := by decide
  dbrange_le := by decide
  sets_length := rfl
  parities_length := rfl
  sets_wf := by
    intro d hd
    rw [List.mem_singleton.mp hd]
    exact setWF_single _ _ (by decide) (by decide)

/-- An online coin of 1 stores a hint for the new set that is not exact. -/
theorem queryRound_not_exact :
    ClientWF pairClient ∧ 2 ≤ pairClient.setsize ∧
    HintsExact (fun key _ => key) pairServer.db pairClient ∧
    pairServer.db.length = pairClient.dbrange ∧ 0 < pairClient.dbrange ∧
    ∃ c' blk, queryRound (fun key _ => key) pairServer pairClient 0 ⟨true, 0⟩
        ⟨Vector.replicate 16 1, 0, ⟨false, 0⟩⟩ = .ok (c', blk) ∧
      ¬ HintsExact (fun key _ => key) pairServer.db c' := by
  refine ⟨pairClient_wf, by decide, by decide +kernel, rfl, by decide,
    ⟨2, 2, 1, ⟨[⟨Vector.replicate 16 1, 1, [(2, 2)]⟩], [0]⟩, Vector.replicate 16 0, 0, 0⟩, 0,
    by decide +kernel, by decide +kernel⟩

/-- After the round every other set is untouched and exact, and the hint of the used set is exact
if and only if the online removal and the refresh removal took out equal blocks. -/
theorem queryRound_exact_iff {server : PIRServer} {c : PIRClient} {idx : Nat} (hWF : ClientWF c)
    (hSize : 2 ≤ c.setsize) (hSets : 1 ≤ c.nbrsets) (hDb : server.db.length = c.dbrange)
    (hExact : HintsExact aes server.db c) (hIdx : idx < c.dbrange) (draw : RemoveDraw)
    (refresh : RefreshDraw) :
    ∃ c' blk d fresh before after, queryRound aes server c idx draw refresh = .ok (c', blk) ∧
      c.localhints.sets[c'.curQrySetno]? = some d ∧ expandSet aes c.mk c.dbrange d = .ok before ∧
      c'.localhints.sets[c'.curQrySetno]? = some fresh ∧
      expandSet aes c.mk c.dbrange fresh = .ok after ∧
      (∀ s < c.nbrsets, s ≠ c'.curQrySetno → c'.localhints.sets[s]? = c.localhints.sets[s]? ∧
        c'.localhints.parities[s]? = c.localhints.parities[s]? ∧ HintExact aes server.db c' s) ∧
      (HintExact aes server.db c' c'.curQrySetno ↔
        removalBlock (blockAt server.db) before draw idx =
          blockAt server.db (omitted after refresh.remove idx)) ∧
      (idx ∈ before.elems → draw.coin = false → refresh.remove.coin = false →
        HintExact aes server.db c' c'.curQrySetno) := by
  have hLt := selected_lt aes hWF hSets idx
  have hLength := hWF.sets_length
  have hParities := hWF.parities_length
  have hSet := List.getElem?_eq_getElem hLt
  have hParity := parity_of_exact aes server.db hWF hExact hSet
  let d := c.localhints.sets[c.selected aes idx]
  have hBlk : removalBlock (blockAt server.db) (listed aes c.mk d) draw idx =
      removalBlock (blockAt server.db) (listed aes c.mk d) draw idx ^^^
        (setHint aes server.db c.mk d ^^^ setHint aes server.db c.mk d) := (xor_xor_self _ _).symm
  obtain ⟨c', hRound, hAfter⟩ := @queryRound_eq aes c hWF server hDb idx hIdx d _ _ hSet hParity draw hBlk hSets
    refresh (fun _ => hSize)
  let fresh := freshDesc aes c.dbrange c.setsize idx refresh
  have hd := hWF.sets_wf d (List.getElem_mem hLt)
  have hFresh : SetWF c.dbrange c.setsize fresh :=
    freshDesc_wf aes hWF.setsize_le hWF.setsize_pos idx refresh
  have hMem : idx ∈ (listed aes c.mk fresh).elems :=
    (mem_listed aes c.mk fresh idx).mpr
      (mem_freshDesc aes hWF.setsize_le hWF.dbrange_le hWF.setsize_pos c.mk hIdx refresh)
  have hSetFresh : c'.localhints.sets[c'.curQrySetno]? = some fresh := by
    rw [hAfter.curQrySetno, hAfter.sets]
    exact List.getElem?_set_self hLt
  have hParityFresh : c'.localhints.parities[c'.curQrySetno]? =
      some (setHint aes server.db c.mk fresh ^^^
        blockAt server.db (omitted (listed aes c.mk fresh) refresh.remove idx) ^^^
        removalBlock (blockAt server.db) (listed aes c.mk d) draw idx) := by
    have hLoss : removalBlock (blockAt server.db) (listed aes c.mk fresh) refresh.remove idx =
        blockAt server.db (omitted (listed aes c.mk fresh) refresh.remove idx) := if_pos hMem
    rw [hAfter.curQrySetno, hAfter.parities, List.getElem?_set_self (by omega), hLoss]
  have hIff : HintExact aes server.db c' c'.curQrySetno ↔
      removalBlock (blockAt server.db) (listed aes c.mk d) draw idx =
        blockAt server.db (omitted (listed aes c.mk fresh) refresh.remove idx) := by
    rw [hintExact_iff aes server.db hAfter.wf hSetFresh hParityFresh, hAfter.mk,
      xor_xor_eq_self_iff]
    exact eq_comm
  refine ⟨c', _, d, fresh, listed aes c.mk d, listed aes c.mk fresh, hRound, ?_,
    expandSet_eq aes c.mk hd hWF.dbrange_le, hSetFresh, expandSet_eq aes c.mk hFresh hWF.dbrange_le,
    ?_, hIff, ?_⟩
  · rw [hAfter.curQrySetno]
    exact hSet
  · intro s hs hNe
    rw [hAfter.curQrySetno] at hNe
    have hSame := hAfter.untouched aes hNe
    exact ⟨hSame.1, hSame.2, (hExact s hs).of_untouched aes hAfter.mk hAfter.dbrange hSame⟩
  · intro hContained hOnline hRefresh
    rw [hIff, removalBlock, if_pos hContained, omitted_of_coin_false hOnline,
      omitted_of_coin_false hRefresh]

theorem queryRound_exact_iff_pair :
    ∃ c' blk d fresh before after, queryRound (fun key _ => key) pairServer pairClient 0 ⟨true, 0⟩
        ⟨Vector.replicate 16 1, 0, ⟨false, 0⟩⟩ = .ok (c', blk) ∧
      pairClient.localhints.sets[c'.curQrySetno]? = some d ∧
      expandSet (fun key _ => key) pairClient.mk pairClient.dbrange d = .ok before ∧
      c'.localhints.sets[c'.curQrySetno]? = some fresh ∧
      expandSet (fun key _ => key) pairClient.mk pairClient.dbrange fresh = .ok after ∧
      (∀ s < pairClient.nbrsets, s ≠ c'.curQrySetno →
        c'.localhints.sets[s]? = pairClient.localhints.sets[s]? ∧
        c'.localhints.parities[s]? = pairClient.localhints.parities[s]? ∧
        HintExact (fun key _ => key) pairServer.db c' s) ∧
      (HintExact (fun key _ => key) pairServer.db c' c'.curQrySetno ↔
        removalBlock (blockAt pairServer.db) before ⟨true, 0⟩ 0 =
          blockAt pairServer.db (omitted after ⟨false, 0⟩ 0)) ∧
      (0 ∈ before.elems → true = false → false = false →
        HintExact (fun key _ => key) pairServer.db c' c'.curQrySetno) :=
  queryRound_exact_iff _ pairClient_wf (by decide) (by decide) rfl (by decide +kernel) (by decide) _ _

/-- A query that sends every index of the set but `h`, which is the desired one for coin 0 only. -/
structure OmitsOne (s : OrdSet Nat) (coin : Bool) (idx h : Nat) (qry : OnlineQuery) : Prop where
  mem : h ∈ s.elems
  indices : qry.indices = (s.erase h).elems
  eq_iff : h = idx ↔ coin = false

/-- The online half of a round: the query omits `h`, and its block is recovered. -/
def Fetches (server : PIRServer) (c : PIRClient) (idx : Nat) (draw : RemoveDraw) (before : OrdSet Nat)
    (h : Nat) (c' : PIRClient) : Prop :=
  ∃ c₁ qry reply, c.generateOnlineQuery aes idx draw = .ok (c₁, qry) ∧
    OmitsOne before draw.coin idx h qry ∧ server.generateOnlineReply qry = .ok reply ∧
    c₁.queryRecov reply = .ok (c', blockAt server.db h)

/-- The refresh half: the query for the new set omits `h`, and only its reply changes the hints. -/
def Renews (server : PIRServer) (c : PIRClient) (idx : Nat) (refresh : RefreshDraw) (after : OrdSet Nat)
    (h : Nat) (c' : PIRClient) : Prop :=
  ∃ c₁ qry reply, c.generateRefreshQuery aes idx refresh = .ok (c₁, qry) ∧
    OmitsOne after refresh.remove.coin idx h qry ∧ server.generateOnlineReply qry = .ok reply ∧
    c₁.refreshRecov reply = .ok c' ∧ c₁.localhints.sets = c'.localhints.sets ∧
    c₁.localhints.parities = c.localhints.parities

section Effect
variable {c : PIRClient} (hWF : ClientWF c) (hSize : 2 ≤ c.setsize) {server : PIRServer}
  (hDb : server.db.length = c.dbrange) {idx : Nat} (hIdx : idx < c.dbrange)
include hWF hSize hDb hIdx

theorem omitsOne_reply {d : SetDesc} (hd : SetWF c.dbrange c.setsize d)
    (hMem : idx ∈ expansion aes c.mk d) (draw : RemoveDraw) :
    ∃ t, probabilisticRemove (listed aes c.mk d) draw idx = .ok t ∧
      OmitsOne (listed aes c.mk d) draw.coin idx (omitted (listed aes c.mk d) draw idx) ⟨t.elems⟩ ∧
      server.generateOnlineReply ⟨t.elems⟩ = .ok ⟨setHint aes server.db c.mk d ^^^
        blockAt server.db (omitted (listed aes c.mk d) draw idx)⟩ := by
  have hCoin : draw.coin = true → 2 ≤ (listed aes c.mk d).size := by
    rw [size_listed aes c.mk hd hWF.dbrange_le]
    exact fun _ => hSize
  have hContained := (mem_listed aes c.mk d idx).mpr hMem
  obtain ⟨t, hRemove, hReply⟩ := @removal_reply aes c hWF server hDb idx hIdx d hd draw fun _ => hSize
  have hErase := probabilisticRemove_of_mem hContained hCoin
  rw [hRemove] at hErase
  cases hErase
  rw [removalBlock, if_pos hContained] at hReply
  exact ⟨_, hRemove, ⟨omitted_mem hContained hCoin, rfl, omitted_eq_iff hContained hCoin⟩, hReply⟩

theorem fetches_of_mem (hExact : HintsExact aes server.db c) {d : SetDesc}
    (hSet : c.localhints.sets[c.selected aes idx]? = some d) (hMem : idx ∈ expansion aes c.mk d)
    (draw : RemoveDraw) :
    Fetches aes server c idx draw (listed aes c.mk d) (omitted (listed aes c.mk d) draw idx)
      { c with
        curQrySetno := c.selected aes idx
        curQryBlk := blockAt server.db (omitted (listed aes c.mk d) draw idx) } := by
  have hd := hWF.sets_wf d (List.mem_of_getElem? hSet)
  obtain ⟨t, hRemove, hOmits, hReply⟩ := omitsOne_reply aes hWF hSize hDb hIdx hd hMem draw
  have hParity := parity_of_exact aes server.db hWF hExact hSet
  refine ⟨_, _, _, generateOnlineQuery_eq aes hWF hIdx hSet hRemove, hOmits, hReply, ?_⟩
  rw [PIRClient.queryRecov, elemAt_of_getElem? hParity, ok_bind, BitVec.xor_comm (setHint _ _ _ _),
    xor_xor_cancel_right]

theorem renews_fresh (hSetno : c.curQrySetno < c.nbrsets) (refresh : RefreshDraw) :
    Renews aes server c idx refresh (listed aes c.mk (freshDesc aes c.dbrange c.setsize idx refresh))
      (omitted (listed aes c.mk (freshDesc aes c.dbrange c.setsize idx refresh)) refresh.remove idx)
      ((c.putSet c.curQrySetno (freshDesc aes c.dbrange c.setsize idx refresh)).putParity c.curQrySetno
        (setHint aes server.db c.mk (freshDesc aes c.dbrange c.setsize idx refresh) ^^^
          blockAt server.db (omitted (listed aes c.mk (freshDesc aes c.dbrange c.setsize idx refresh))
            refresh.remove idx) ^^^ c.curQryBlk)) := by
  have hFresh := freshDesc_wf aes hWF.setsize_le hWF.setsize_pos idx refresh
  have hMem := mem_freshDesc aes hWF.setsize_le hWF.dbrange_le hWF.setsize_pos c.mk hIdx refresh
  obtain ⟨t, hRemove, hOmits, hReply⟩ := omitsOne_reply aes hWF hSize hDb hIdx hFresh hMem refresh.remove
  have hStore : c.curQrySetno < c.localhints.parities.length := by
    rw [hWF.parities_length]
    exact hSetno
  refine ⟨_, _, _, generateRefreshQuery_eq aes hWF hSetno idx hRemove, hOmits, hReply, ?_, rfl, rfl⟩
  rw [PIRClient.refreshRecov, storeAt]
  exact (congrArg (· >>= _) (if_pos hStore)).trans (ok_bind _ _)

/-- The exact effect of a round on a set that contains the index: both queries omit one index, the
round recovers the block of the first, and the new hint is off by both blocks. -/
theorem queryRound_effect (hExact : HintsExact aes server.db c) {found : Option Nat} {d : SetDesc}
    {before : OrdSet Nat} (hFound : c.search aes idx = .ok found)
    (hSet : c.localhints.sets[found.getD 0]? = some d)
    (hBefore : expandSet aes c.mk c.dbrange d = .ok before) (hMem : idx ∈ before.elems)
    (draw : RemoveDraw) (refresh : RefreshDraw) :
    ∃ c₁ c' h h' fresh after, Fetches aes server c idx draw before h c₁ ∧
      Renews aes server c₁ idx refresh after h' c' ∧
      c'.localhints.sets[found.getD 0]? = some fresh ∧ fresh.sk = refresh.nsk ∧
      fresh.aux = [(c.dbrange, c.setsize)] ∧
      expandSet aes c.mk c.dbrange fresh = .ok after ∧ idx ∈ after.elems ∧
      c'.localhints.parities[found.getD 0]? = some (xorOver (blockAt server.db) after.elems ^^^
        blockAt server.db h ^^^ blockAt server.db h') ∧
      ∀ s, s ≠ found.getD 0 → c'.localhints.sets[s]? = c.localhints.sets[s]? ∧
        c'.localhints.parities[s]? = c.localhints.parities[s]? := by
  have hd := hWF.sets_wf d (List.mem_of_getElem? hSet)
  rw [expandSet_eq aes c.mk hd hWF.dbrange_le] at hBefore
  cases hBefore
  have hSelected : found.getD 0 = c.selected aes idx := (selected_of_search aes hWF hFound).symm
  rw [hSelected] at hSet ⊢
  have hLt := (List.getElem?_eq_some_iff.mp hSet).1
  have hFetches := fetches_of_mem aes hWF hSize hDb hIdx hExact hSet ((mem_listed aes c.mk d idx).mp hMem) draw
  have hRenews := renews_fresh aes (hWF.current (c.selected aes idx)
    (blockAt server.db (omitted (listed aes c.mk d) draw idx))) hSize hDb hIdx (hWF.sets_length ▸ hLt) refresh
  let fresh := freshDesc aes c.dbrange c.setsize idx refresh
  have hFresh : SetWF c.dbrange c.setsize fresh :=
    freshDesc_wf aes hWF.setsize_le hWF.setsize_pos idx refresh
  refine ⟨_, _, _, _, fresh, listed aes c.mk fresh, hFetches, hRenews, List.getElem?_set_self hLt, rfl, rfl,
    expandSet_eq aes c.mk hFresh hWF.dbrange_le, ?_, ?_,
    fun s hs => ⟨List.getElem?_set_ne hs.symm, List.getElem?_set_ne hs.symm⟩⟩
  · exact (mem_listed aes c.mk fresh idx).mpr
      (mem_freshDesc aes hWF.setsize_le hWF.dbrange_le hWF.setsize_pos c.mk hIdx refresh)
  · have hAfter : xorOver (blockAt server.db) (listed aes c.mk fresh).elems = setHint aes server.db c.mk fresh :=
      xorOver_ofList_expansion aes server.db c.mk fresh
    have hLtParity : c.selected aes idx < c.localhints.parities.length := by
      rw [hWF.parities_length, ← hWF.sets_length]
      exact hLt
    refine (List.getElem?_set_self hLtParity).trans (congrArg some ?_)
    rw [hAfter, BitVec.xor_assoc (setHint _ _ _ _) (blockAt _ (omitted (listed aes c.mk d) draw idx)),
      BitVec.xor_comm (blockAt _ (omitted (listed aes c.mk d) draw idx)), ← BitVec.xor_assoc]

end Effect

theorem queryRound_effect_pair :
    ∃ c₁ c' h h' fresh after,
      Fetches (fun key _ => key) pairServer pairClient 0 ⟨true, 0⟩ (OrdSet.ofList [0, 1]) h c₁ ∧
      Renews (fun key _ => key) pairServer c₁ 0 ⟨Vector.replicate 16 1, 0, ⟨false, 0⟩⟩ after h' c' ∧
      c'.localhints.sets[0]? = some fresh ∧ fresh.sk = Vector.replicate 16 1 ∧ fresh.aux = [(2, 2)] ∧
      expandSet (fun key _ => key) pairClient.mk 2 fresh = .ok after ∧ 0 ∈ after.elems ∧
      c'.localhints.parities[0]? = some (xorOver (blockAt pairServer.db) after.elems ^^^
        blockAt pairServer.db h ^^^ blockAt pairServer.db h') ∧
      ∀ s, s ≠ 0 → c'.localhints.sets[s]? = pairClient.localhints.sets[s]? ∧
        c'.localhints.parities[s]? = pairClient.localhints.parities[s]? :=
  queryRound_effect _ pairClient_wf (by decide) rfl (by decide) (by decide +kernel)
    (by decide +kernel : pairClient.search _ 0 = .ok (some 0)) rfl
    (by decide +kernel : expandSet _ _ _ _ = .ok (OrdSet.ofList [0, 1])) (by decide) ⟨true, 0⟩
    ⟨Vector.replicate 16 1, 0, ⟨false, 0⟩⟩

end IncPir
