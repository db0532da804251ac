import IncPir.NetSession
import IncPir.SharedBlock

/-! # One client in many threads (`online_client_eval.cpp`, `run`)

All queries are generated before the first thread starts, by one client. The
client only remembers the set of the query that it generated last, and every
thread recovers its block with the hint of that set. All threads store their
blocks in the one record of the recovered block, and return what they find there.
-/

namespace IncPir
open LoopM XorFold Interleaving WordCopy
set_option autoImplicit false

structure QueryStart where
  idx : Nat
  draw : RemoveDraw
  link : Link

section Threads
variable (aes : Aes) (pb : Protobuf (List UInt8)) (queries : MessageClass (List UInt8) Interface.Query)

def onlineThread (start : QueryStart) (onlineQry : OnlineQuery) : Thread QueryStart Block :=
  ⟨start, serializeQuery queries (serializeOnlineQuery pb onlineQry) .online, start.link, .ready⟩

/-- The client goes through all queries, and each overwrites its set number. -/
def generateQueries (c : PIRClient) : List QueryStart → Except Fault (PIRClient × List (Thread QueryStart Block))
  | [] => .ok (c, [])
  | start :: rest => do
    let (c, onlineQry) ← c.generateOnlineQuery aes start.idx start.draw
    let (c, threads) ← generateQueries c rest
    .ok (c, onlineThread pb queries start onlineQry :: threads)

/-- The bitset that `query_recov` assigns to the record of the recovered block and then returns from there. -/
def PIRClient.recovered (c : PIRClient) (onlineReply : OnlineReply) : Except Fault Block := do
  let hint ← elemAt c.localhints.parities c.curQrySetno
  .ok (onlineReply.parity ^^^ hint)

def onlineService (handler : Interface.Query → Except SerialFault (List UInt8)) : Service PIRClient QueryStart Block where
  handle := handleQuery queries handler
  finish _ c response := do
    let onlineReply ← deserializeOnlineReply pb response
    let blk ← (c.recovered onlineReply).mapError .raised
    .ok (c, blk)

omit pb queries in
theorem queryRecov_eq_recovered (c : PIRClient) (onlineReply : OnlineReply) :
    c.queryRecov onlineReply = (c.recovered onlineReply).map fun blk => ({ c with curQryBlk := blk }, blk) := by
  rw [PIRClient.queryRecov, PIRClient.recovered]
  cases elemAt c.localhints.parities c.curQrySetno <;> rfl

/-- Without the other threads a thread returns what the network client does. -/
theorem onlineThread_alone (handler : Interface.Query → Except SerialFault (List UInt8)) (passes : Nat)
    (start : QueryStart) (onlineQry : OnlineQuery) (c : PIRClient) :
    ((onlineThread pb queries start onlineQry).alone (onlineService pb queries handler) passes c).map Prod.snd =
      (NetClient.onlineQuery pb queries handler start.link passes c onlineQry).map Prod.snd := by
  refine map_bind_congr fun response => map_bind_congr fun onlineReply => ?_
  rw [queryRecov_eq_recovered]
  cases c.recovered onlineReply <;> rfl

def RecoversWith (server : PIRServer) (c : PIRClient) (last : Nat) (start : QueryStart) (blk : Block) : Prop :=
  ∃ c' own ownHint usedHint, fetch aes server c start.idx start.draw = .ok (c', own) ∧
    c.localhints.parities[c'.curQrySetno]? = some ownHint ∧ c.localhints.parities[last]? = some usedHint ∧
    blk = own ^^^ (ownHint ^^^ usedHint) ∧ (blk = own ↔ ownHint = usedHint)

theorem RecoversWith.unique {aes : Aes} {server : PIRServer} {c : PIRClient} {last : Nat} {start : QueryStart}
    {blk blk' : Block} (h : RecoversWith aes server c last start blk) (h' : RecoversWith aes server c last start blk') :
    blk = blk' := by
  obtain ⟨c₁, own, ownHint, usedHint, hFetch, hOwn, hUsed, rfl, -⟩ := h
  obtain ⟨c₁', own', ownHint', usedHint', hFetch', hOwn', hUsed', rfl, -⟩ := h'
  cases hFetch.symm.trans hFetch'
  cases hOwn.symm.trans hOwn'
  cases hUsed.symm.trans hUsed'
  rfl

end Threads

section Queries
variable {aes : Aes} {pb : Protobuf (List UInt8)} {queries : MessageClass (List UInt8) Interface.Query}

theorem generateOnlineQuery_setno (c : PIRClient) (k idx : Nat) (draw : RemoveDraw) :
    PIRClient.generateOnlineQuery aes { c with curQrySetno := k } idx draw = c.generateOnlineQuery aes idx draw := rfl

theorem fetch_parts {server : PIRServer} {c c' : PIRClient} {idx : Nat} {draw : RemoveDraw} {blk : Block}
    (h : fetch aes server c idx draw = .ok (c', blk)) :
    ∃ setno q reply hint, c.generateOnlineQuery aes idx draw = .ok ({ c with curQrySetno := setno }, q) ∧
      server.generateOnlineReply q = .ok reply ∧ c.localhints.parities[setno]? = some hint ∧
      blk = reply.parity ^^^ hint ∧ c'.curQrySetno = setno := by
  obtain ⟨⟨c₁, q⟩, hQuery, h⟩ := (bind_eq_ok_iff _ _ _).mp h
  obtain ⟨reply, hReply, h⟩ := (bind_eq_ok_iff _ _ _).mp h
  obtain ⟨setno, rfl⟩ := generateOnlineQuery_inv hQuery
  obtain ⟨hint, hHint, h⟩ := (bind_eq_ok_iff _ _ _).mp h
  cases h
  exact ⟨setno, q, reply, hint, hQuery, hReply, (elemAt_eq_ok_iff _ _ _).mp hHint, rfl, rfl⟩

/-- The queries of one client: each thread sends its own, and the client keeps the last set number. -/
theorem generateQueries_ok {server : PIRServer} {c : PIRClient} {starts : List QueryStart}
    (hFetch : ∀ start ∈ starts, ∃ out, fetch aes server c start.idx start.draw = .ok out) (k : Nat) :
    ∃ last threads, generateQueries aes pb queries { c with curQrySetno := k } starts =
        .ok ({ c with curQrySetno := last }, threads) ∧
      threads.map Thread.owner = starts ∧ (starts ≠ [] → ∃ hint, c.localhints.parities[last]? = some hint) ∧
      ∀ t ∈ threads, ∃ c' q, c.generateOnlineQuery aes t.owner.idx t.owner.draw = .ok (c', q) ∧
        t = onlineThread pb queries t.owner q := by
  induction starts generalizing k with
  | nil => exact ⟨k, [], rfl, rfl, fun h => absurd rfl h, fun t ht => by cases ht⟩
  | cons start rest ih =>
    obtain ⟨⟨c', blk⟩, hFirst⟩ := hFetch start List.mem_cons_self
    obtain ⟨setno, q, reply, hint, hQuery, -, hHint, -, -⟩ := fetch_parts hFirst
    obtain ⟨last, threads, hRest, hOwners, hLast, hAll⟩ :=
      ih (fun next hNext => hFetch next (List.mem_cons_of_mem start hNext)) setno
    refine ⟨last, onlineThread pb queries start q :: threads, ?_, congrArg (start :: ·) hOwners, ?_, ?_⟩
    · rw [generateQueries, generateOnlineQuery_setno, hQuery, ok_bind]
      dsimp only
      rw [hRest, ok_bind]
    · intro _
      cases rest with
      | nil =>
        cases hRest
        exact ⟨hint, hHint⟩
      | cons next rest => exact hLast (List.cons_ne_nil next rest)
    · intro t ht
      rcases List.mem_cons.mp ht with rfl | ht
      · exact ⟨_, q, hQuery, rfl⟩
      · exact hAll t ht

end Queries

/-- Two sets of one index each, with exact hints for the blocks 5, 7 and 9. -/
def sharedClient : PIRClient :=
  ⟨3, 1, 2, ⟨[⟨Vector.replicate 16 0, 1, [(3, 1)]⟩, ⟨Vector.replicate 16 0, 2, [(3, 1)]⟩], [7, 9]⟩,
    Vector.replicate 16 1, 0, 0⟩

theorem sharedClient_wf : ClientWF sharedClient where
  setsize_pos := by decide
  setsize_le := by decide
  dbrange_le := by decide
  sets_length := rfl
  parities_length := rfl
  sets_wf := by
    intro d hd
    rcases List.mem_pair.mp hd with rfl | rfl
    · exact setWF_single _ _ (by decide) (by decide)
    · exact setWF_single _ _ (by decide) (by decide)

section Evaluation
variable {aes : Aes} {pb : Protobuf (List UInt8)} {queries : MessageClass (List UInt8) Interface.Query}
  {server : PIRServer} {slots passes : Nat}
  (hTransport : Transport pb queries server.nbrsets server.setsize slots passes)
  (hDb : server.db.length = server.dbrange) (hRange : server.dbrange ≤ 2 ^ 31)
  {c : PIRClient} (hWF : ClientWF c) (hSetsize : c.setsize = server.setsize)
include hTransport hDb hRange hWF hSetsize

theorem onlineThread_answerable {start : QueryStart} (hLink : start.link.Reliable) {after : PIRClient} {own : Block}
    (hFetch : fetch aes server c start.idx start.draw = .ok (after, own)) {c' : PIRClient} {q : OnlineQuery}
    (hQuery : c.generateOnlineQuery aes start.idx start.draw = .ok (c', q)) {last : Nat} {usedHint : Block}
    (hUsed : c.localhints.parities[last]? = some usedHint) :
    ∃ response blk, Answerable (onlineService pb queries (runHandler aes pb server))
        (· = { c with curQrySetno := last }) (onlineThread pb queries start q) response blk ∧
      RecoversWith aes server c last start blk := by
  obtain ⟨setno, q', reply, ownHint, hOwn, hReply, hHint, hBlk, hSetno⟩ := fetch_parts hFetch
  cases hQuery.symm.trans hOwn
  refine ⟨serializeOnlineReply pb reply, reply.parity ^^^ usedHint, {
    stage := rfl
    link := hLink
    sendable := hTransport.fits.onlineQuery q .online (hSetsize ▸ generateOnlineQuery_length hWF hOwn)
    handled := (handleQuery_serialize hTransport.queries_undo _ _).trans
      (onlineQueryHandler_serialize hTransport.messages_undo (OnlineQuery.typed_of_answered hDb hRange hReply) hReply)
    reply_sendable := hTransport.fits.onlineReply reply
    finishes := ?_ }, after, own, ownHint, usedHint, hFetch, hSetno ▸ hHint, hUsed, ?_⟩
  · rintro state rfl
    have hElem : elemAt c.localhints.parities last = .ok usedHint := elemAt_of_getElem? hUsed
    refine ⟨_, ?_, rfl⟩
    simp only [onlineService, deserializeOnlineReply_serialize hTransport.messages_undo, ok_bind, PIRClient.recovered,
      hElem, mapError_ok]
  · have hDifference : reply.parity ^^^ usedHint = own ^^^ (ownHint ^^^ usedHint) := by
      rw [hBlk, BitVec.xor_assoc, xor_xor_cancel_left]
    refine ⟨hDifference, ?_⟩
    rw [hDifference, ← BitVec.xor_assoc]
    exact xor_xor_eq_self_iff _ _ _

/-- In every order of the threads all requests are answered. What a thread can return are the mixtures of the
blocks that the threads recover with the hint of the set of the last query; it is right in every order exactly
when all threads recover that block. -/
theorem onlineThreads_outcomes {starts : List QueryStart} (hLinks : ∀ start ∈ starts, start.link.Reliable)
    (hFetch : ∀ start ∈ starts, ∃ out, fetch aes server c start.idx start.draw = .ok out) (hSome : starts ≠ []) :
    ∃ c' threads blocks, generateQueries aes pb queries c starts = .ok (c', threads) ∧
      List.Forall₂ (RecoversWith aes server c c'.curQrySetno) starts blocks ∧
      ∀ left, starts.length ≤ left →
        (∀ n s, Reaches (blockMove (onlineService pb queries (runHandler aes pb server)) passes BlockWords)
            (copiers ⟨⟨left, c'⟩, threads⟩ (bitsetWords c'.curQryBlk)) n s →
          BlocksServed (onlineService pb queries (runHandler aes pb server)) passes BlockWords c'
            (starts.length * 503) n s) ∧
        (∀ i < starts.length, ∀ blk,
          (∃ s, Reaches (blockMove (onlineService pb queries (runHandler aes pb server)) passes BlockWords)
            (copiers ⟨⟨left, c'⟩, threads⟩ (bitsetWords c'.curQryBlk)) (starts.length * 503) s ∧ Returns s i blk) ↔
            MixtureOf blocks blk) ∧
        ∀ i < starts.length, ∀ own,
          (∀ s blk, Reaches (blockMove (onlineService pb queries (runHandler aes pb server)) passes BlockWords)
            (copiers ⟨⟨left, c'⟩, threads⟩ (bitsetWords c'.curQryBlk)) (starts.length * 503) s →
              Returns s i blk → blk = own) ↔ ∀ b ∈ blocks, b = own := by
  obtain ⟨last, threads, hQueries, hOwners, hLast, hAll⟩ :=
    @generateQueries_ok aes pb queries server c starts hFetch c.curQrySetno
  obtain ⟨usedHint, hUsed⟩ := hLast hSome
  have hLength : threads.length = starts.length := (List.length_map _).symm.trans (congrArg List.length hOwners)
  have hSteps : starts.length * 3 + starts.length * (BlockWords + BlockWords) = starts.length * 503 := by
    rw [← Nat.mul_add]
    rfl
  have hAnswers : ∀ t ∈ threads, ∃ response blk,
      Answerable (onlineService pb queries (runHandler aes pb server)) (· = { c with curQrySetno := last }) t response blk ∧
        RecoversWith aes server c last t.owner blk := by
    intro t ht
    obtain ⟨c', q, hQuery, hThread⟩ := hAll t ht
    have hOwner : t.owner ∈ starts := hOwners ▸ List.mem_map_of_mem ht
    obtain ⟨⟨after, own⟩, hOut⟩ := hFetch t.owner hOwner
    have hAnswer := onlineThread_answerable hTransport hDb hRange hWF hSetsize (hLinks _ hOwner) hOut hQuery hUsed
    rwa [← hThread] at hAnswer
  obtain ⟨blocks, hBlocks⟩ : ∃ blocks, List.Forall₂ (fun t blk => RecoversWith aes server c last (Thread.owner t) blk)
      threads blocks := exists_forall₂ fun t ht => by
    obtain ⟨response, blk, -, hBlk⟩ := hAnswers t ht
    exact ⟨blk, hBlk⟩
  refine ⟨_, threads, blocks, hQueries, hOwners ▸ List.forall₂_map_left_iff.mpr hBlocks, ?_⟩
  intro left hLeft
  have hThreads : threads ≠ [] := by
    rintro rfl
    exact hSome hOwners.symm
  obtain ⟨hServed, -, hReturned⟩ := blockThreads_outcomes hTransport.passes_ge (Nat.le_refl BlockWords)
    (hLength.trans_le hLeft) hAnswers hBlocks (fun _ _ _ => RecoversWith.unique) c.curQryBlk hThreads
  simp only [hLength, hSteps, forall_const] at hServed hReturned
  refine ⟨hServed, hReturned, ?_⟩
  intro i hi own
  rw [← mixtures_eq_iff]
  constructor
  · intro hRuns blk hMixture
    obtain ⟨s, hReaches, hReturns⟩ := (hReturned i hi blk).mpr hMixture
    exact hRuns s blk hReaches hReturns
  · intro hMixtures s blk hReaches hReturns
    exact hMixtures blk ((hReturned i hi blk).mp ⟨s, hReaches, hReturns⟩)

omit hTransport hDb hRange hWF hSetsize in
theorem onlineThreads_outcomes_two :
    ∃ c' threads blocks, generateQueries (fun key _ => key) wireFormat queryFormat sharedClient
        [⟨1, ⟨false, 0⟩, piecesLink⟩, ⟨2, ⟨false, 0⟩, piecesLink⟩] = .ok (c', threads) ∧
      List.Forall₂ (RecoversWith (fun key _ => key) ⟨3, 1, 2, [5, 7, 9]⟩ sharedClient c'.curQrySetno)
        [⟨1, ⟨false, 0⟩, piecesLink⟩, ⟨2, ⟨false, 0⟩, piecesLink⟩] blocks ∧
      ∀ left, 2 ≤ left →
        (∀ n s, Reaches (blockMove (onlineService wireFormat queryFormat
              (runHandler (fun key _ => key) wireFormat ⟨3, 1, 2, [5, 7, 9]⟩)) (2 ^ 31) BlockWords)
            (copiers ⟨⟨left, c'⟩, threads⟩ (bitsetWords c'.curQryBlk)) n s →
          BlocksServed (onlineService wireFormat queryFormat
            (runHandler (fun key _ => key) wireFormat ⟨3, 1, 2, [5, 7, 9]⟩)) (2 ^ 31) BlockWords c' 1006 n s) ∧
        (∀ i < 2, ∀ blk,
          (∃ s, Reaches (blockMove (onlineService wireFormat queryFormat
                (runHandler (fun key _ => key) wireFormat ⟨3, 1, 2, [5, 7, 9]⟩)) (2 ^ 31) BlockWords)
              (copiers ⟨⟨left, c'⟩, threads⟩ (bitsetWords c'.curQryBlk)) 1006 s ∧ Returns s i blk) ↔
            MixtureOf blocks blk) ∧
        ∀ i < 2, ∀ own,
          (∀ s blk, Reaches (blockMove (onlineService wireFormat queryFormat
                (runHandler (fun key _ => key) wireFormat ⟨3, 1, 2, [5, 7, 9]⟩)) (2 ^ 31) BlockWords)
              (copiers ⟨⟨left, c'⟩, threads⟩ (bitsetWords c'.curQryBlk)) 1006 s → Returns s i blk → blk = own) ↔
            ∀ b ∈ blocks, b = own := by
  have hTransport : Transport wireFormat queryFormat 2 1 1 (2 ^ 31) := wireTransport (by decide)
  refine @onlineThreads_outcomes (fun key _ => key) wireFormat queryFormat ⟨3, 1, 2, [5, 7, 9]⟩ 1 (2 ^ 31) hTransport rfl
    (by decide) sharedClient sharedClient_wf rfl [⟨1, ⟨false, 0⟩, piecesLink⟩, ⟨2, ⟨false, 0⟩, piecesLink⟩] ?_ ?_
    (List.cons_ne_nil _ _)
  · intro start hMem
    rcases List.mem_pair.mp hMem with rfl | rfl <;> exact piecesLink_reliable
  · intro start hMem
    rcases List.mem_pair.mp hMem with rfl | rfl
    · exact ⟨({ sharedClient with curQryBlk := 7 }, 7), by decide +kernel⟩
    · exact ⟨({ sharedClient with curQrySetno := 1, curQryBlk := 9 }, 9), by decide +kernel⟩

end Evaluation

end IncPir
