import IncPir.OnlineEval

/-! # Refreshes in many threads (`refresh_client_eval.cpp`, `run_refresh`)

After one online query the client generates all refresh queries, each with a
fresh set in the place of the one before. The threads then send the queries, and
each stores the hint of its own fresh set in the same place, word by word.
-/

namespace IncPir
open LoopM XorFold Interleaving WordCopy
set_option autoImplicit false

structure RefreshStart where
  draw : RefreshDraw
  link : Link

section Threads
variable (aes : Aes) (pb : Protobuf (List UInt8)) (queries : MessageClass (List UInt8) Interface.Query)

def refreshThread (start : RefreshStart) (onlineQry : OnlineQuery) : Thread RefreshStart Block :=
  ⟨start, serializeQuery queries (serializeOnlineQuery pb onlineQry) .refresh, start.link, .ready⟩

/-- The loop over `generate_refresh_query`, always for the index of the online query. -/
def generateRefreshQueries (c : PIRClient) (qryIdx : Nat) :
    List RefreshStart → Except Fault (PIRClient × List (Thread RefreshStart Block))
  | [] => .ok (c, [])
  | start :: rest => do
    let (c, refreshQry) ← c.generateRefreshQuery aes qryIdx start.draw
    let (c, threads) ← generateRefreshQueries c qryIdx rest
    .ok (c, refreshThread pb queries start refreshQry :: threads)

/-- The bitset that `refresh_recov` assigns to the hint of the current set. -/
def PIRClient.refreshed (c : PIRClient) (refreshReply : OnlineReply) : Except Fault Block := do
  let _ ← elemAt c.localhints.parities c.curQrySetno
  .ok (refreshReply.parity ^^^ c.curQryBlk)

def refreshService (handler : Interface.Query → Except SerialFault (List UInt8)) :
    Service PIRClient RefreshStart Block where
  handle := handleQuery queries handler
  finish _ c response := do
    let refreshReply ← deserializeOnlineReply pb response
    let parity ← (c.refreshed refreshReply).mapError .raised
    .ok (c, parity)

omit pb queries in
theorem refreshRecov_eq_refreshed (c : PIRClient) (refreshReply : OnlineReply) :
    c.refreshRecov refreshReply = (c.refreshed refreshReply).map fun parity => c.putParity c.curQrySetno parity := by
  rw [PIRClient.refreshRecov, PIRClient.refreshed, storeAt, elemAt]
  by_cases hPlace : c.curQrySetno < c.localhints.parities.length
  · rw [if_pos hPlace, List.getElem?_eq_getElem hPlace]
    rfl
  · rw [if_neg hPlace, List.getElem?_eq_none (Nat.le_of_not_lt hPlace)]
    rfl

/-- Without the other threads a thread stores what the network client does. -/
theorem refreshThread_alone (handler : Interface.Query → Except SerialFault (List UInt8)) (passes : Nat)
    (start : RefreshStart) (onlineQry : OnlineQuery) (c : PIRClient) :
    ((refreshThread pb queries start onlineQry).alone (refreshService pb queries handler) passes c).map
        (fun out => out.1.putParity out.1.curQrySetno out.2) =
      NetClient.refreshQuery pb queries handler start.link passes c onlineQry := by
  have hSame : NetClient.refreshQuery pb queries handler start.link passes c onlineQry =
      (NetClient.refreshQuery pb queries handler start.link passes c onlineQry).map id := by
    cases NetClient.refreshQuery pb queries handler start.link passes c onlineQry <;> rfl
  rw [hSame]
  refine map_bind_congr fun response => map_bind_congr fun refreshReply => ?_
  rw [refreshRecov_eq_refreshed]
  cases c.refreshed refreshReply <;> rfl

/-- The client whose current hint is what the threads have stored. -/
def storedClient (s : System (Cell (Shared PIRClient) (BitVec 64)) (Copier (Thread RefreshStart Block) (BitVec 64))) :
    PIRClient :=
  s.shared.shared.state.putParity s.shared.shared.state.curQrySetno (bitsetOf s.shared.words)

def PIRClient.currentHint (c : PIRClient) : Block := c.localhints.parities.getD c.curQrySetno 0

end Threads

/-- A client between an online query for `idx` and its refresh. -/
structure QueryPending (server : PIRServer) (c : PIRClient) (idx : Nat) : Prop where
  wf : ClientWF c
  setsize : c.setsize = server.setsize
  dbrange : server.dbrange = c.dbrange
  db_length : server.db.length = c.dbrange
  idx_lt : idx < c.dbrange
  setno_lt : c.curQrySetno < c.nbrsets

theorem queryPending_of_fetch {aes : Aes} {server : PIRServer} {c c' : PIRClient} (h : NetExact aes server c) {idx : Nat}
    {draw : RemoveDraw} {blk : Block} (hFetch : fetch aes server c idx draw = .ok (c', blk)) :
    c' = { c with curQrySetno := c'.curQrySetno, curQryBlk := blk } ∧ QueryPending server c' idx := by
  obtain ⟨setno, q, reply, hint, hQuery, hReply, hHint, -, -⟩ := fetch_parts hFetch
  have hIdx : idx < c.dbrange := by
    by_contra hOut
    rw [PIRClient.generateOnlineQuery, if_pos (by omega)] at hQuery
    cases hQuery
  rw [fetch, hQuery, ok_bind] at hFetch
  dsimp only at hFetch
  rw [hReply, ok_bind] at hFetch
  obtain rfl := queryRecov_inv hFetch
  refine ⟨rfl, h.session.wf.current setno blk, h.setsize, h.session.dbrange, h.session.db_length, hIdx, ?_⟩
  exact (List.getElem?_eq_some_iff.mp hHint).1.trans_eq h.session.wf.parities_length

section Queries
variable (aes : Aes)

/-- What a refresh stores as the hint of its fresh set. -/
def refreshParity (db : Database) (c : PIRClient) (idx : Nat) (draw : RefreshDraw) : Block :=
  setHint aes db c.mk (freshDesc aes c.dbrange c.setsize idx draw) ^^^
    removalBlock (blockAt db) (listed aes c.mk (freshDesc aes c.dbrange c.setsize idx draw)) draw.remove idx ^^^
    c.curQryBlk

/-- The current set after refresh queries were generated for all these. -/
def lastFresh (c : PIRClient) (idx : Nat) (d : SetDesc) (starts : List RefreshStart) : SetDesc :=
  starts.foldl (fun _ start => freshDesc aes c.dbrange c.setsize idx start.draw) d

variable {aes} {pb : Protobuf (List UInt8)} {queries : MessageClass (List UInt8) Interface.Query}
  {server : PIRServer} {c : PIRClient} {idx : Nat} (h : QueryPending server c idx)
include h

theorem generateRefreshQuery_ok {draw : RefreshDraw} (hCoin : draw.remove.coin = true → 2 ≤ c.setsize) :
    ∃ q reply, (∀ d, SetWF c.dbrange c.setsize d →
        (c.putSet c.curQrySetno d).generateRefreshQuery aes idx draw =
          .ok (c.putSet c.curQrySetno (freshDesc aes c.dbrange c.setsize idx draw), q)) ∧
      server.generateOnlineReply q = .ok reply ∧
      reply.parity ^^^ c.curQryBlk = refreshParity aes server.db c idx draw := by
  have hFresh := freshDesc_wf aes h.wf.setsize_le h.wf.setsize_pos idx draw
  obtain ⟨t, hRemove, hReply⟩ := removal_reply aes h.wf h.db_length h.idx_lt hFresh hCoin
  refine ⟨⟨t.elems⟩, _, ?_, hReply, rfl⟩
  intro d hd
  refine (generateRefreshQuery_eq aes (h.wf.putSet hd c.curQrySetno) h.setno_lt idx hRemove).trans ?_
  simp only [PIRClient.putSet, List.set_set]

theorem generateRefreshQueries_ok {starts : List RefreshStart}
    (hCoins : ∀ start ∈ starts, start.draw.remove.coin = true → 2 ≤ c.setsize) {d : SetDesc}
    (hd : SetWF c.dbrange c.setsize d) :
    ∃ threads, generateRefreshQueries aes pb queries (c.putSet c.curQrySetno d) idx starts =
        .ok (c.putSet c.curQrySetno (lastFresh aes c idx d starts), threads) ∧
      threads.map Thread.owner = starts ∧
      ∀ t ∈ threads, ∃ q reply, t = refreshThread pb queries t.owner q ∧ q.indices.length ≤ c.setsize ∧
        server.generateOnlineReply q = .ok reply ∧
        reply.parity ^^^ c.curQryBlk = refreshParity aes server.db c idx t.owner.draw := by
  induction starts generalizing d with
  | nil => exact ⟨[], rfl, rfl, fun t ht => by cases ht⟩
  | cons start rest ih =>
    have hFresh := freshDesc_wf aes h.wf.setsize_le h.wf.setsize_pos idx start.draw
    obtain ⟨q, reply, hQuery, hReply, hParity⟩ := generateRefreshQuery_ok h (hCoins start List.mem_cons_self)
    obtain ⟨threads, hRest, hOwners, hAll⟩ :=
      ih (fun next hNext => hCoins next (List.mem_cons_of_mem start hNext)) hFresh
    refine ⟨refreshThread pb queries start q :: threads, ?_, congrArg (start :: ·) hOwners, ?_⟩
    · rw [generateRefreshQueries, hQuery d hd, ok_bind]
      dsimp only
      rw [hRest, ok_bind]
      rfl
    · intro t ht
      rcases List.mem_cons.mp ht with rfl | ht
      · have hLength : q.indices.length ≤ (c.putSet c.curQrySetno d).setsize := generateRefreshQuery_length (hQuery d hd)
        exact ⟨q, reply, rfl, hLength, hReply, hParity⟩
      · exact hAll t ht

theorem generateRefreshQueries_pending {starts : List RefreshStart}
    (hCoins : ∀ start ∈ starts, start.draw.remove.coin = true → 2 ≤ c.setsize) :
    ∃ own threads, generateRefreshQueries aes pb queries c idx starts =
        .ok (c.putSet c.curQrySetno (lastFresh aes c idx own starts), threads) ∧
      threads.map Thread.owner = starts ∧
      ∀ t ∈ threads, ∃ q reply, t = refreshThread pb queries t.owner q ∧ q.indices.length ≤ c.setsize ∧
        server.generateOnlineReply q = .ok reply ∧
        reply.parity ^^^ c.curQryBlk = refreshParity aes server.db c idx t.owner.draw := by
  have hPlace : c.curQrySetno < c.localhints.sets.length := h.wf.sets_length.symm ▸ h.setno_lt
  have hOwn : c.putSet c.curQrySetno c.localhints.sets[c.curQrySetno] = c := by
    rw [PIRClient.putSet, List.set_getElem_self]
  obtain ⟨threads, hQueries, hRest⟩ := @generateRefreshQueries_ok aes pb queries server c idx h starts hCoins _
    (h.wf.sets_wf _ (List.getElem_mem hPlace))
  rw [hOwn] at hQueries
  exact ⟨_, threads, hQueries, hRest⟩

end Queries

section Evaluation
variable {aes : Aes} {pb : Protobuf (List UInt8)} {queries : MessageClass (List UInt8) Interface.Query}
  {server : PIRServer} {slots passes : Nat}
  (hTransport : Transport pb queries server.nbrsets server.setsize slots passes) {c : PIRClient} {idx : Nat}
  (h : QueryPending server c idx) {starts : List RefreshStart}
  (hStarts : ∀ start ∈ starts, (start.draw.remove.coin = true → 2 ≤ c.setsize) ∧ start.link.Reliable)
include hTransport h

theorem refreshThread_answerable (d : SetDesc) {t : Thread RefreshStart Block} (hLink : t.owner.link.Reliable)
    {q : OnlineQuery} {reply : OnlineReply} (hThread : t = refreshThread pb queries t.owner q)
    (hLength : q.indices.length ≤ c.setsize) (hReply : server.generateOnlineReply q = .ok reply) :
    Answerable (refreshService pb queries (runRefreshHandler aes pb server)) (· = c.putSet c.curQrySetno d) t
      (serializeOnlineReply pb reply) (reply.parity ^^^ c.curQryBlk) := by
  have hDb : server.db.length = server.dbrange := h.db_length.trans h.dbrange.symm
  have hRange : server.dbrange ≤ 2 ^ 31 := h.dbrange ▸ h.wf.dbrange_le
  have hPlace : c.curQrySetno < c.localhints.parities.length := h.wf.parities_length.symm ▸ h.setno_lt
  have hElem : elemAt (c.putSet c.curQrySetno d).localhints.parities (c.putSet c.curQrySetno d).curQrySetno =
      .ok c.localhints.parities[c.curQrySetno] := elemAt_of_getElem? (List.getElem?_eq_getElem hPlace)
  have hComputed : (c.putSet c.curQrySetno d).refreshed reply = .ok (reply.parity ^^^ c.curQryBlk) := by
    rw [PIRClient.refreshed, hElem]
    rfl
  rw [hThread]
  exact {
    stage := rfl
    link := hLink
    sendable := hTransport.fits.onlineQuery q .refresh (h.setsize ▸ hLength)
    handled := (handleQuery_serialize hTransport.queries_undo _ _).trans
      (onlineQueryHandler_serialize hTransport.messages_undo (OnlineQuery.typed_of_answered hDb hRange hReply) hReply)
    reply_sendable := hTransport.fits.onlineReply reply
    finishes := by
      rintro state rfl
      refine ⟨_, ?_, rfl⟩
      simp only [refreshService, deserializeOnlineReply_serialize hTransport.messages_undo, ok_bind, hComputed,
        mapError_ok] }

include hStarts in
theorem refreshThreads_stored (hSome : starts ≠ []) :
    ∃ own threads, generateRefreshQueries aes pb queries c idx starts =
        .ok (c.putSet c.curQrySetno (lastFresh aes c idx own starts), threads) ∧ threads.length = starts.length ∧
      ∀ left, starts.length ≤ left → ∀ init,
        (∀ n s, Reaches (blockMove (refreshService pb queries (runRefreshHandler aes pb server)) passes 0)
            (copiers ⟨⟨left, c.putSet c.curQrySetno (lastFresh aes c idx own starts)⟩, threads⟩ (bitsetWords init)) n s →
          BlocksServed (refreshService pb queries (runRefreshHandler aes pb server)) passes 0
            (c.putSet c.curQrySetno (lastFresh aes c idx own starts)) (starts.length * 253) n s) ∧
        ∀ final, (∃ s, Reaches (blockMove (refreshService pb queries (runRefreshHandler aes pb server)) passes 0)
            (copiers ⟨⟨left, c.putSet c.curQrySetno (lastFresh aes c idx own starts)⟩, threads⟩ (bitsetWords init))
              (starts.length * 253) s ∧ storedClient s = final) ↔
          ∃ parity, MixtureOf (starts.map fun start => refreshParity aes server.db c idx start.draw) parity ∧
            final = (c.putSet c.curQrySetno (lastFresh aes c idx own starts)).putParity c.curQrySetno parity := by
  obtain ⟨own, threads, hQueries, hOwners, hAll⟩ := @generateRefreshQueries_pending aes pb queries server c idx h starts
    fun start hStart => (hStarts start hStart).1
  let c' := c.putSet c.curQrySetno (lastFresh aes c idx own starts)
  have hLength : threads.length = starts.length := (List.length_map _).symm.trans (congrArg List.length hOwners)
  have hSteps : starts.length * 3 + starts.length * (BlockWords + 0) = starts.length * 253 := by
    rw [← Nat.mul_add]
    rfl
  have hAnswers : ∀ t ∈ threads, ∃ response parity,
      Answerable (refreshService pb queries (runRefreshHandler aes pb server)) (· = c') t response parity ∧
        parity = refreshParity aes server.db c idx t.owner.draw := by
    intro t ht
    obtain ⟨q, reply, hThread, hShort, hReply, hParity⟩ := hAll t ht
    have hOwner : t.owner ∈ starts := hOwners ▸ List.mem_map_of_mem ht
    exact ⟨_, _, refreshThread_answerable hTransport h _ (hStarts _ hOwner).2 hThread hShort hReply, hParity⟩
  have hBlocks : List.Forall₂ (fun t parity => parity = refreshParity aes server.db c idx (Thread.owner t).draw) threads
      (starts.map fun start => refreshParity aes server.db c idx start.draw) := by
    rw [← hOwners, List.map_map, List.forall₂_map_right_iff]
    exact List.forall₂_same.mpr fun t _ => rfl
  refine ⟨own, threads, hQueries, hLength, ?_⟩
  intro left hLeft init
  have hThreads : threads ≠ [] := by
    rintro rfl
    exact hSome hOwners.symm
  obtain ⟨hServed, hLeaves, -⟩ := @blockThreads_outcomes PIRClient RefreshStart
    (refreshService pb queries (runRefreshHandler aes pb server)) c' passes 0
    (fun start parity => parity = refreshParity aes server.db c idx start.draw) left threads _ hTransport.passes_ge
    (Nat.zero_le BlockWords) (hLength.trans_le hLeft) hAnswers hBlocks (fun _ _ _ hb hb' => hb.trans hb'.symm) init
    hThreads
  simp only [hLength, hSteps] at hServed hLeaves
  refine ⟨hServed, ?_⟩
  have hStored : ∀ s, Reaches (blockMove (refreshService pb queries (runRefreshHandler aes pb server)) passes 0)
      (copiers ⟨⟨left, c'⟩, threads⟩ (bitsetWords init)) (starts.length * 253) s →
        storedClient s = c'.putParity c.curQrySetno (bitsetOf s.shared.words) := by
    intro s hReaches
    rw [storedClient, (hServed _ s hReaches).state]
    rfl
  intro final
  constructor
  · rintro ⟨s, hReaches, rfl⟩
    exact ⟨_, (hLeaves _).mp ⟨s, hReaches, rfl⟩, hStored s hReaches⟩
  · rintro ⟨parity, hMixture, rfl⟩
    obtain ⟨s, hReaches, rfl⟩ := (hLeaves parity).mpr hMixture
    exact ⟨s, hReaches, hStored s hReaches⟩

end Evaluation

def exampleRefresh (byte : UInt8) : RefreshStart := ⟨⟨Vector.replicate 16 byte, 0, ⟨false, 0⟩⟩, piecesLink⟩

theorem sharedClient_exact : NetExact (fun key _ => key) ⟨3, 1, 2, [5, 7, 9]⟩ sharedClient :=
  ⟨⟨sharedClient_wf, rfl, rfl, rfl, by decide +kernel⟩, rfl⟩

section Outcomes
variable {aes : Aes} {pb : Protobuf (List UInt8)} {queries : MessageClass (List UInt8) Interface.Query}
  {server : PIRServer}

/-- In every order of the threads all requests are answered. The clients that can be left have the set of the
last query, with a mixture of the hints that the refreshes store when each is made alone. -/
theorem refreshThreads_outcomes {slots passes : Nat}
    (hTransport : Transport pb queries server.nbrsets server.setsize slots passes) {c₀ c : PIRClient}
    (hStart : NetExact aes server c₀) {idx : Nat} {draw : RemoveDraw} {blk : Block}
    (hFetch : fetch aes server c₀ idx draw = .ok (c, blk)) {starts : List RefreshStart} (hSome : starts ≠ [])
    (hStarts : ∀ start ∈ starts, (start.draw.remove.coin = true → 2 ≤ c.setsize) ∧ start.link.Reliable) :
    ∃ c' threads parities, generateRefreshQueries aes pb queries c idx starts = .ok (c', threads) ∧
      List.Forall₂ (fun start parity => ∃ c₁, refreshHint aes server c idx start.draw = .ok c₁ ∧
        c₁.localhints.parities[c.curQrySetno]? = some parity) starts parities ∧
      ∀ left, starts.length ≤ left →
        (∀ n s, Reaches (blockMove (refreshService pb queries (runRefreshHandler aes pb server)) passes 0)
            (copiers ⟨⟨left, c'⟩, threads⟩ (bitsetWords c'.currentHint)) n s →
          BlocksServed (refreshService pb queries (runRefreshHandler aes pb server)) passes 0 c'
            (starts.length * 253) n s) ∧
        ∀ final, (∃ s, Reaches (blockMove (refreshService pb queries (runRefreshHandler aes pb server)) passes 0)
            (copiers ⟨⟨left, c'⟩, threads⟩ (bitsetWords c'.currentHint)) (starts.length * 253) s ∧
              storedClient s = final) ↔
          ∃ parity, MixtureOf parities parity ∧ final = c'.putParity c.curQrySetno parity := by
  obtain ⟨-, h⟩ := queryPending_of_fetch hStart hFetch
  obtain ⟨own, threads, hQueries, hLength, hAll⟩ := refreshThreads_stored hTransport h hStarts hSome
  refine ⟨_, threads, starts.map fun start => refreshParity aes server.db c idx start.draw, hQueries, ?_, ?_⟩
  · rw [List.forall₂_map_right_iff]
    refine List.forall₂_same.mpr fun start hMem => ?_
    refine ⟨_, refreshHint_eq aes h.wf h.db_length h.idx_lt h.setno_lt (hStarts start hMem).1, ?_⟩
    exact List.getElem?_set_self (h.wf.parities_length.symm ▸ h.setno_lt)
  · intro left hLeft
    exact hAll left hLeft _

theorem refreshThreads_outcomes_two :
    ∃ c' threads parities, generateRefreshQueries (fun key _ => key) wireFormat queryFormat
        { sharedClient with curQryBlk := 7 } 1 [exampleRefresh 1, exampleRefresh 2] = .ok (c', threads) ∧
      List.Forall₂ (fun start parity => ∃ c₁, refreshHint (fun key _ => key) ⟨3, 1, 2, [5, 7, 9]⟩
          { sharedClient with curQryBlk := 7 } 1 start.draw = .ok c₁ ∧ c₁.localhints.parities[0]? = some parity)
        [exampleRefresh 1, exampleRefresh 2] parities ∧
      ∀ left, 2 ≤ left →
        (∀ n s, Reaches (blockMove (refreshService wireFormat queryFormat
              (runRefreshHandler (fun key _ => key) wireFormat ⟨3, 1, 2, [5, 7, 9]⟩)) (2 ^ 31) 0)
            (copiers ⟨⟨left, c'⟩, threads⟩ (bitsetWords c'.currentHint)) n s →
          BlocksServed (refreshService wireFormat queryFormat
            (runRefreshHandler (fun key _ => key) wireFormat ⟨3, 1, 2, [5, 7, 9]⟩)) (2 ^ 31) 0 c' 506 n s) ∧
        ∀ final, (∃ s, Reaches (blockMove (refreshService wireFormat queryFormat
              (runRefreshHandler (fun key _ => key) wireFormat ⟨3, 1, 2, [5, 7, 9]⟩)) (2 ^ 31) 0)
            (copiers ⟨⟨left, c'⟩, threads⟩ (bitsetWords c'.currentHint)) 506 s ∧ storedClient s = final) ↔
          ∃ parity, MixtureOf parities parity ∧ final = c'.putParity 0 parity := by
  have hTransport : Transport wireFormat queryFormat 2 1 1 (2 ^ 31) := wireTransport (by decide)
  have hFetch : fetch (fun key _ => key) ⟨3, 1, 2, [5, 7, 9]⟩ sharedClient 1 ⟨false, 0⟩ =
      .ok ({ sharedClient with curQryBlk := 7 }, 7) := by decide +kernel
  refine @refreshThreads_outcomes (fun key _ => key) wireFormat queryFormat ⟨3, 1, 2, [5, 7, 9]⟩ 1 (2 ^ 31) hTransport
    sharedClient { sharedClient with curQryBlk := 7 } sharedClient_exact 1 ⟨false, 0⟩ 7 hFetch
    [exampleRefresh 1, exampleRefresh 2] (List.cons_ne_nil _ _) ?_
  intro start hMem
  rcases List.mem_pair.mp hMem with rfl | rfl
  · exact ⟨nofun, piecesLink_reliable⟩
  · exact ⟨nofun, piecesLink_reliable⟩

end Outcomes

section Exactness
variable {aes : Aes} {pb : Protobuf (List UInt8)} {queries : MessageClass (List UInt8) Interface.Query}
  {server : PIRServer}

/-- The set of the last refresh with the hint of another one is exact when the two hints are the same. -/
theorem refreshed_hintsExact_iff {c : PIRClient} {idx : Nat} (h : QueryPending server c idx)
    (hExact : HintsExact aes server.db c) {d : SetDesc} (hd : SetWF c.dbrange c.setsize d) (parity : Block) :
    HintsExact aes server.db ((c.putSet c.curQrySetno d).putParity c.curQrySetno parity) ↔
      parity = setHint aes server.db c.mk d := by
  have hHint : c.curQrySetno < (c.localhints.sets.map (setHint aes server.db c.mk)).length := by
    rw [List.length_map, h.wf.sets_length]
    exact h.setno_lt
  rw [hintsExact_iff aes server.db ((h.wf.putSet hd _).putParity _ _)]
  simp only [PIRClient.putSet, PIRClient.putParity, (hintsExact_iff aes server.db h.wf).mp hExact, List.map_set]
  exact set_inj hHint _ _

theorem refreshParity_of_coin_false {c : PIRClient} {idx : Nat} (h : QueryPending server c idx)
    (hBlk : c.curQryBlk = blockAt server.db idx) {draw : RefreshDraw} (hCoin : draw.remove.coin = false) :
    refreshParity aes server.db c idx draw =
      setHint aes server.db c.mk (freshDesc aes c.dbrange c.setsize idx draw) := by
  have hMem := mem_freshDesc aes h.wf.setsize_le h.wf.dbrange_le h.wf.setsize_pos c.mk h.idx_lt draw
  rw [refreshParity, removalBlock_listed aes hMem hCoin, hBlk, xor_xor_cancel_right]

/-- After a query that recovered its block, refreshes whose coins are 0 leave exact hints in every order of their
threads exactly when all their fresh sets have the same hint as the last. -/
theorem refreshThreads_exact_iff {slots passes : Nat}
    (hTransport : Transport pb queries server.nbrsets server.setsize slots passes) {c₀ c : PIRClient}
    (hStart : NetExact aes server c₀) {idx : Nat} {draw : RemoveDraw}
    (hFetch : fetch aes server c₀ idx draw = .ok (c, blockAt server.db idx)) {earlier : List RefreshStart}
    {last : RefreshStart}
    (hStarts : ∀ start ∈ earlier ++ [last], start.draw.remove.coin = false ∧ start.link.Reliable) :
    ∃ c' threads, generateRefreshQueries aes pb queries c idx (earlier ++ [last]) = .ok (c', threads) ∧
      ∀ left, earlier.length + 1 ≤ left →
        ((∀ s, Reaches (blockMove (refreshService pb queries (runRefreshHandler aes pb server)) passes 0)
            (copiers ⟨⟨left, c'⟩, threads⟩ (bitsetWords c'.currentHint)) ((earlier.length + 1) * 253) s →
              HintsExact aes server.db (storedClient s)) ↔
          ∀ start ∈ earlier, setHint aes server.db c.mk (freshDesc aes c.dbrange c.setsize idx start.draw) =
            setHint aes server.db c.mk (freshDesc aes c.dbrange c.setsize idx last.draw)) := by
  obtain ⟨hClient, h⟩ := queryPending_of_fetch hStart hFetch
  have hBlk : c.curQryBlk = blockAt server.db idx := by rw [hClient]
  have hExact : HintsExact aes server.db c := by
    rw [hClient]
    exact hStart.session.exact
  have hCoins : ∀ start ∈ earlier ++ [last], start.draw.remove.coin = true → 2 ≤ c.setsize := by
    intro start hMem hCoin
    rw [(hStarts start hMem).1] at hCoin
    cases hCoin
  have hLength : (earlier ++ [last]).length = earlier.length + 1 := by rw [List.length_append, List.length_singleton]
  obtain ⟨own, threads, hQueries, -, hAll⟩ := @refreshThreads_stored aes pb queries server slots passes hTransport c idx h
    (earlier ++ [last]) (fun start hMem => ⟨hCoins start hMem, (hStarts start hMem).2⟩) (by simp)
  have hLast : lastFresh aes c idx own (earlier ++ [last]) = freshDesc aes c.dbrange c.setsize idx last.draw := by
    rw [lastFresh, List.foldl_append]
    rfl
  have hFresh := @freshDesc_wf aes c.dbrange c.setsize h.wf.setsize_le h.wf.setsize_pos idx last.draw
  let lastHint := setHint aes server.db c.mk (freshDesc aes c.dbrange c.setsize idx last.draw)
  -- the hints that the threads store are those of their fresh sets
  have hParities : (∀ b ∈ (earlier ++ [last]).map fun start => refreshParity aes server.db c idx start.draw, b = lastHint) ↔
      ∀ start ∈ earlier, setHint aes server.db c.mk (freshDesc aes c.dbrange c.setsize idx start.draw) = lastHint := by
    rw [List.forall_mem_map, List.forall_mem_append]
    constructor
    · rintro ⟨hEarlier, -⟩ start hMem
      rw [← refreshParity_of_coin_false h hBlk (hStarts start (List.mem_append_left _ hMem)).1]
      exact hEarlier start hMem
    · intro hSame
      refine ⟨fun start hMem => ?_, fun start hMem => ?_⟩
      · rw [refreshParity_of_coin_false h hBlk (hStarts start (List.mem_append_left _ hMem)).1]
        exact hSame start hMem
      · rw [refreshParity_of_coin_false h hBlk (hStarts start (List.mem_append_right _ hMem)).1,
          List.mem_singleton.mp hMem]
  refine ⟨_, threads, hQueries, ?_⟩
  intro left hLeft
  obtain ⟨-, hFinal⟩ := hAll left (hLength.trans_le hLeft) _
  rw [hLength, hLast] at hFinal
  rw [hLast, ← hParities, ← mixtures_eq_iff]
  constructor
  · intro hRuns parity hMixture
    obtain ⟨s, hReaches, hState⟩ := (hFinal _).mpr ⟨parity, hMixture, rfl⟩
    have hSame := hRuns s hReaches
    rwa [hState, refreshed_hintsExact_iff h hExact hFresh] at hSame
  · intro hMixtures s hReaches
    obtain ⟨parity, hMixture, hState⟩ := (hFinal _).mp ⟨s, hReaches, rfl⟩
    rw [hState, refreshed_hintsExact_iff h hExact hFresh]
    exact hMixtures parity hMixture

theorem refreshThreads_exact_iff_two :
    ∃ c' threads, generateRefreshQueries (fun key _ => key) wireFormat queryFormat
        { sharedClient with curQryBlk := 7 } 1 [exampleRefresh 1, exampleRefresh 2] = .ok (c', threads) ∧
      ∀ left, 2 ≤ left →
        ((∀ s, Reaches (blockMove (refreshService wireFormat queryFormat
              (runRefreshHandler (fun key _ => key) wireFormat ⟨3, 1, 2, [5, 7, 9]⟩)) (2 ^ 31) 0)
            (copiers ⟨⟨left, c'⟩, threads⟩ (bitsetWords c'.currentHint)) 506 s →
              HintsExact (fun key _ => key) [5, 7, 9] (storedClient s)) ↔
          ∀ start ∈ [exampleRefresh 1],
            setHint (fun key _ => key) [5, 7, 9] sharedClient.mk (freshDesc (fun key _ => key) 3 1 1 start.draw) =
              setHint (fun key _ => key) [5, 7, 9] sharedClient.mk
                (freshDesc (fun key _ => key) 3 1 1 (exampleRefresh 2).draw)) := by
  have hTransport : Transport wireFormat queryFormat 2 1 1 (2 ^ 31) := wireTransport (by decide)
  have hFetch : fetch (fun key _ => key) ⟨3, 1, 2, [5, 7, 9]⟩ sharedClient 1 ⟨false, 0⟩ =
      .ok ({ sharedClient with curQryBlk := 7 }, blockAt [5, 7, 9] 1) := by decide +kernel
  refine @refreshThreads_exact_iff (fun key _ => key) wireFormat queryFormat ⟨3, 1, 2, [5, 7, 9]⟩ 1 (2 ^ 31) hTransport
    sharedClient { sharedClient with curQryBlk := 7 } sharedClient_exact 1 ⟨false, 0⟩ hFetch [exampleRefresh 1]
    (exampleRefresh 2) ?_
  intro start hMem
  rcases List.mem_pair.mp hMem with rfl | rfl
  · exact ⟨rfl, piecesLink_reliable⟩
  · exact ⟨rfl, piecesLink_reliable⟩

end Exactness

end IncPir
