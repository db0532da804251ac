import IncPir.OnlineRound

/-! # The complete round of query and refresh

The block that a round recovers is the one that the online removal took out,
and the hint it stores differs from the exact hint of the new set by that block
and by the block of the refresh removal.
-/

namespace IncPir
open LoopM XorFold
set_option autoImplicit false

variable (aes : Aes)

def fetch (server : PIRServer) (c : PIRClient) (idx : Nat) (draw : RemoveDraw) :
    Except Fault (PIRClient × Block) := do
  let (c, qry) ← c.generateOnlineQuery aes idx draw
  let reply ← server.generateOnlineReply qry
  c.queryRecov reply

def refreshHint (server : PIRServer) (c : PIRClient) (idx : Nat) (draw : RefreshDraw) :
    Except Fault PIRClient := do
  let (c, qry) ← c.generateRefreshQuery aes idx draw
  let reply ← server.generateOnlineReply qry
  c.refreshRecov reply

def queryRound (server : PIRServer) (c : PIRClient) (idx : Nat) (draw : RemoveDraw)
    (refresh : RefreshDraw) : Except Fault (PIRClient × Block) := do
  let (c, blk) ← fetch aes server c idx draw
  let c ← refreshHint aes server c idx refresh
  .ok (c, blk)

/-- The client after a round: the fresh set, and its hint off by the two removals. -/
structure AfterRound (db : Database) (c c' : PIRClient) (idx : Nat) (refresh : RefreshDraw)
    (loss : Block) : Prop where
  build ::
  wf : ClientWF c'
  dbrange : c'.dbrange = c.dbrange
  setsize : c'.setsize = c.setsize
  nbrsets : c'.nbrsets = c.nbrsets
  mk : c'.mk = c.mk
  curQrySetno : c'.curQrySetno = c.selected aes idx
  sets : c'.localhints.sets =
    c.localhints.sets.set (c.selected aes idx) (freshDesc aes c.dbrange c.setsize idx refresh)
  parities : c'.localhints.parities = c.localhints.parities.set (c.selected aes idx)
    (setHint aes db c.mk (freshDesc aes c.dbrange c.setsize idx refresh) ^^^
      removalBlock (blockAt db) (listed aes c.mk (freshDesc aes c.dbrange c.setsize idx refresh))
        refresh.remove idx ^^^ loss)

theorem listed_lt (mk : Key) {dbrange setsize idx : Nat} {d : SetDesc} (hd : SetWF dbrange setsize d)
    (hIdx : idx < dbrange) : ∀ i, i ∈ (listed aes mk d).elems ∨ i = idx → i < dbrange := by
  rintro i (hi | rfl)
  · exact expansion_lt aes mk hd i ((mem_listed aes mk d i).mp hi)
  · exact hIdx

theorem removalBlock_listed {mk : Key} {d : SetDesc} {idx : Nat} (hMem : idx ∈ expansion aes mk d)
    {draw : RemoveDraw} (hCoin : draw.coin = false) {w : Nat} (f : Nat → BitVec w) :
    removalBlock f (listed aes mk d) draw idx = f idx := by
  rw [removalBlock, if_pos ((mem_listed ..).mpr hMem), omitted_of_coin_false hCoin]

section Wellformed
variable {c : PIRClient} (hWF : ClientWF c)
include hWF

theorem ClientWF.putSet {d : SetDesc} (hd : SetWF c.dbrange c.setsize d) (s : Nat) :
    ClientWF (c.putSet s d) where
  setsize_pos := hWF.setsize_pos
  setsize_le := hWF.setsize_le
  dbrange_le := hWF.dbrange_le
  sets_length := (List.length_set ..).trans hWF.sets_length
  parities_length := hWF.parities_length
  sets_wf := by
    intro d' hd'
    rcases List.mem_or_eq_of_mem_set hd' with hd' | rfl
    · exact hWF.sets_wf d' hd'
    · exact hd

theorem ClientWF.putParity (s : Nat) (h : Block) : ClientWF (c.putParity s h) where
  setsize_pos := hWF.setsize_pos
  setsize_le := hWF.setsize_le
  dbrange_le := hWF.dbrange_le
  sets_length := hWF.sets_length
  parities_length := (List.length_set ..).trans hWF.parities_length
  sets_wf := hWF.sets_wf

theorem ClientWF.current (setno : Nat) (blk : Block) :
    ClientWF { c with curQrySetno := setno, curQryBlk := blk } where
  setsize_pos := hWF.setsize_pos
  setsize_le := hWF.setsize_le
  dbrange_le := hWF.dbrange_le
  sets_length := hWF.sets_length
  parities_length := hWF.parities_length
  sets_wf := hWF.sets_wf

variable {server : PIRServer} (hDb : server.db.length = c.dbrange) {idx : Nat} (hIdx : idx < c.dbrange)
include hDb hIdx

theorem removal_reply {d : SetDesc} (hd : SetWF c.dbrange c.setsize d) {draw : RemoveDraw}
    (hCoin : draw.coin = true → 2 ≤ c.setsize) :
    ∃ t, probabilisticRemove (listed aes c.mk d) draw idx = .ok t ∧
      server.generateOnlineReply ⟨t.elems⟩ =
        .ok ⟨setHint aes server.db c.mk d ^^^
          removalBlock (blockAt server.db) (listed aes c.mk d) draw idx⟩ := by
  have hSize := size_listed aes c.mk hd hWF.dbrange_le
  obtain ⟨t, hRemove, hMem, -, hXor⟩ := @removal_spec BlockLen (blockAt server.db)
    (listed aes c.mk d) draw idx (by rwa [hSize]) (by rw [hSize]; exact hWF.setsize_pos)
  refine ⟨t, hRemove, ?_⟩
  have hLt : ∀ i ∈ t.elems, i < server.db.length := by
    intro i hi
    rw [hDb]
    exact listed_lt aes c.mk hd hIdx i (hMem i hi)
  rw [generateOnlineReply_eq server ⟨t.elems⟩ hLt, hXor, listed, xorOver_ofList_expansion]

theorem refreshHint_eq (hSetno : c.curQrySetno < c.nbrsets) {draw : RefreshDraw}
    (hCoin : draw.remove.coin = true → 2 ≤ c.setsize) :
    refreshHint aes server c idx draw =
      .ok ((c.putSet c.curQrySetno (freshDesc aes c.dbrange c.setsize idx draw)).putParity c.curQrySetno
        (setHint aes server.db c.mk (freshDesc aes c.dbrange c.setsize idx draw) ^^^
          removalBlock (blockAt server.db)
            (listed aes c.mk (freshDesc aes c.dbrange c.setsize idx draw)) draw.remove idx ^^^
          c.curQryBlk)) := by
  have hFresh := freshDesc_wf aes hWF.setsize_le hWF.setsize_pos idx draw
  obtain ⟨t, hRemove, hReply⟩ := removal_reply aes hWF hDb hIdx hFresh hCoin
  rw [refreshHint, generateRefreshQuery_eq aes hWF hSetno idx hRemove, ok_bind]
  dsimp only
  rw [hReply, ok_bind, PIRClient.refreshRecov, storeAt, if_pos]
  · rfl
  · have hLength := hWF.parities_length
    change c.curQrySetno < c.localhints.parities.length
    omega

section Selected
variable {d : SetDesc} {h blk : Block} (hSet : c.localhints.sets[c.selected aes idx]? = some d)
  (hParity : c.localhints.parities[c.selected aes idx]? = some h) {draw : RemoveDraw}
  (hBlk : blk = removalBlock (blockAt server.db) (listed aes c.mk d) draw idx ^^^
    (h ^^^ setHint aes server.db c.mk d))
include hSet hParity hBlk

/-- The recovered block is off by as much as the hint is. -/
theorem fetch_eq (hCoin : draw.coin = true → 2 ≤ c.setsize) :
    fetch aes server c idx draw =
      .ok ({ c with curQrySetno := c.selected aes idx, curQryBlk := blk }, blk) := by
  have hd := hWF.sets_wf d (List.mem_of_getElem? hSet)
  obtain ⟨t, hRemove, hReply⟩ := removal_reply aes hWF hDb hIdx hd hCoin
  have hRecovered : setHint aes server.db c.mk d ^^^
      removalBlock (blockAt server.db) (listed aes c.mk d) draw idx ^^^ h = blk := by
    rw [hBlk, BitVec.xor_comm (setHint _ _ _ _), BitVec.xor_assoc, BitVec.xor_comm (setHint _ _ _ _)]
  rw [fetch, generateOnlineQuery_eq aes hWF hIdx hSet hRemove, ok_bind]
  dsimp only
  rw [hReply, ok_bind, PIRClient.queryRecov, elemAt_of_getElem? hParity, ok_bind]
  dsimp only
  rw [hRecovered]

theorem queryRound_eq (hSets : 1 ≤ c.nbrsets) {refresh : RefreshDraw}
    (hCoins : draw.coin = true ∨ refresh.remove.coin = true → 2 ≤ c.setsize) :
    ∃ c' : PIRClient, queryRound aes server c idx draw refresh = .ok (c', blk) ∧
      AfterRound aes server.db c c' idx refresh blk := by
  have hLt := selected_lt aes hWF hSets idx
  have hFresh := freshDesc_wf aes hWF.setsize_le hWF.setsize_pos idx refresh
  have hWF' := hWF.current (c.selected aes idx) blk
  have hSecond := @refreshHint_eq aes _ hWF' server hDb idx hIdx (hWF.sets_length ▸ hLt) refresh
    fun hCoin => hCoins (.inr hCoin)
  refine ⟨_, ?_, (hWF'.putSet hFresh _).putParity _ _, rfl, rfl, rfl, rfl, rfl, rfl, rfl⟩
  rw [queryRound, fetch_eq aes hWF hDb hIdx hSet hParity hBlk fun hCoin => hCoins (.inl hCoin), ok_bind]
  dsimp only
  rw [hSecond, ok_bind]

end Selected

end Wellformed

end IncPir
