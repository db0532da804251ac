import IncPir.Ck.NetSession
import IncPir.Threads

/-! # The baseline under load (`baselines/ck-pir/src/offline_client_eval.cpp`, `online_client_eval.cpp`)

The offline evaluation gives each thread a client of its own. The online
evaluation generates all queries with one client before the first thread starts;
every thread then recovers its block with the hint of the last query's set.
-/

namespace CkPir
open IncPir (Key Block Database Fault MessageClass SerialFault Link elemAt elemAt_of_getElem? blockAt elemAt_blockAt
  mapError_ok handleQuery handleQuery_serialize Service Thread Answerable AllServed Shared started_served threads_served
  piecesLink piecesLink_reliable)
open LoopM XorFold Interleaving
set_option autoImplicit false

section Offline
variable (pb : Protobuf (List UInt8)) (queries : MessageClass (List UInt8) Interface.Query)

def hintService (handler : Interface.Query → Except SerialFault (List UInt8)) : Service Unit PIRClient PIRClient where
  handle := handleQuery queries handler
  finish c _ response := Except.map (fun c => ((), c)) do
    let offlineReply ← deserializeOfflineReply pb response
    (c.updateLocalHints offlineReply).mapError .raised

def baselineThread (client : PIRClient) (offlineQry : OfflineQuery) (link : Link) : Thread PIRClient PIRClient :=
  ⟨client, serializeQuery queries (serializeOfflineQuery pb offlineQry) .offline, link, .ready⟩

theorem baselineThread_alone (handler : Interface.Query → Except SerialFault (List UInt8)) (passes : Nat)
    (client : PIRClient) (offlineQry : OfflineQuery) (link : Link) :
    (baselineThread pb queries client offlineQry link).alone (hintService pb queries handler) passes () =
      (NetClient.offlineQueryBaseline pb queries handler link passes client offlineQry).map fun c => ((), c) :=
  (map_bind (fun c => ((), c)) _ _).symm

theorem hintService_finishes (hMessages : pb.Undoes) (handler : Interface.Query → Except SerialFault (List UInt8))
    {c c' : PIRClient} {reply : OfflineReply} (hNbrsets : reply.nbrsets < 2 ^ 32) (h : c.updateLocalHints reply = .ok c')
    (state : Unit) :
    ∃ state', (hintService pb queries handler).finish c state (serializeOfflineReply pb reply) = .ok (state', c') ∧
      True := by
  refine ⟨(), ?_, trivial⟩
  simp only [hintService, deserializeOfflineReply_serialize hMessages hNbrsets, ok_bind, h]
  rfl

/-- The keys and shifts that a client generated, and its connection. -/
structure ClientStart where
  keys : List (Key × Nat)
  curQrySetno : Nat
  link : Link

def startBaseline (dbrange setsize : Nat) (start : ClientStart) : Except SerialFault (Thread PIRClient PIRClient) := do
  let client := keyedClient dbrange setsize start.curQrySetno start.keys
  let offlineQry ← client.generateOfflineQuery.mapError .raised
  .ok (baselineThread pb queries client offlineQry start.link)

structure ClientStart.Fits (nbrsets : Nat) (start : ClientStart) : Prop where
  keys : start.keys.length ≤ nbrsets
  shifts : ∀ t ∈ start.keys, t.2 < 2 ^ 32
  link : start.link.Reliable

end Offline

section Clients
variable {prg : Prg} {pb : Protobuf (List UInt8)} {queries : MessageClass (List UInt8) Interface.Query}
  {nbrsets passes : Nat} (hTransport : Transport pb queries nbrsets passes) (hCount : nbrsets < 2 ^ 32) {n : Nat}
  (hPos : 1 ≤ n) (hLt : n < 2 ^ 31) {db : Database} (hDb : db.length = n) {setsize : Nat} (hSetsize : setsize < 2 ^ 32)
include hTransport hCount hPos hLt hDb hSetsize

theorem baselineThread_answerable {start : ClientStart} (hStart : start.Fits nbrsets) :
    ∃ t response, startBaseline pb queries n setsize start = .ok t ∧
      Answerable (hintService pb queries (runHandler prg pb (setDatabase n db))) (fun _ => True) t response
        (t.owner.hinted prg db) := by
  let c := keyedClient n setsize start.curQrySetno start.keys
  have hWF : ClientWF c := ⟨⟨hPos, hLt⟩, rfl, List.length_map ..⟩
  have hKeys : c.nbrsets < 2 ^ 32 := hStart.keys.trans_lt hCount
  have hOffline := offlinePhase_eq prg hWF hDb (keyedClient_hints n setsize start.curQrySetno start.keys)
  obtain ⟨q, hQuery, hOffline⟩ := (bind_eq_ok_iff _ _ _).mp hOffline
  obtain ⟨reply, hReply, hStored⟩ := (bind_eq_ok_iff _ _ _).mp hOffline
  cases (generateOfflineQuery_eq hWF.sets_length).symm.trans hQuery
  cases (generateOfflineReplyFast_eq prg hWF.size hDb hWF.sets_length c.setsize).symm.trans hReply
  have hKeyCount : (c.sets.map SetDesc.prfKey).length = c.nbrsets := (List.length_map _).trans hWF.sets_length
  have hShiftCount : (c.sets.map SetDesc.shift).length = c.nbrsets := (List.length_map _).trans hWF.sets_length
  have hHintCount : (c.sets.map (setHint prg n db)).length = c.nbrsets := (List.length_map _).trans hWF.sets_length
  refine ⟨baselineThread pb queries c _ start.link, _, ?_, {
    stage := rfl
    link := hStart.link
    sendable := hTransport.fits.offlineQuery _ (hKeyCount.trans_le hStart.keys) (hShiftCount.trans_le hStart.keys)
    handled := (handleQuery_serialize hTransport.queries_undo _ _).trans
      (offlineQueryHandler_serialize hTransport.messages_undo
        ((keyedClient_shifts n setsize start.curQrySetno hStart.shifts).offlineQuery_typed hKeys hSetsize) hReply)
    reply_sendable := hTransport.fits.offlineReply _ (hHintCount.trans_le hStart.keys)
    finishes := ?_ }⟩
  · rw [startBaseline, hQuery]
    rfl
  · intro state _
    exact hintService_finishes pb queries hTransport.messages_undo _ hKeys hStored state

/-- In every order of the threads each client gets the hints of its own sets. -/
theorem evalBaseline_served {starts : List ClientStart} (hStarts : ∀ start ∈ starts, start.Fits nbrsets) :
    ∃ threads, starts.mapM (startBaseline pb queries n setsize) = .ok threads ∧ threads.length = starts.length ∧
      ∀ left m s, starts.length ≤ left →
        Reaches (Thread.move (hintService pb queries (runHandler prg pb (setDatabase n db))) passes)
          ⟨⟨left, ()⟩, threads⟩ m s →
        AllServed (hintService pb queries (runHandler prg pb (setDatabase n db))) passes (fun _ => True)
          (fun c c' => c' = c.hinted prg db) ⟨⟨left, ()⟩, threads⟩ m s := by
  refine started_served hTransport.passes_ge ?_ trivial
  intro start hMem
  obtain ⟨t, response, hThread, hAnswer⟩ := @baselineThread_answerable prg pb queries nbrsets passes hTransport hCount
    n hPos hLt db hDb setsize hSetsize start (hStarts start hMem)
  exact ⟨t, hThread, response, _, hAnswer, rfl⟩

omit hTransport hCount hPos hLt hDb hSetsize in
theorem evalBaseline_served_two :
    ∃ threads, [⟨[(Vector.replicate 16 0, 4)], 0, piecesLink⟩, ⟨[(Vector.replicate 16 1, 0)], 0, piecesLink⟩].mapM
        (startBaseline wireFormat queryFormat 5 2) = .ok threads ∧ threads.length = 2 ∧
      ∀ left m s, 2 ≤ left →
        Reaches (Thread.move (hintService wireFormat queryFormat
            (runHandler countPrg wireFormat (setDatabase 5 [1, 2, 4, 8, 16]))) (2 ^ 31)) ⟨⟨left, ()⟩, threads⟩ m s →
        AllServed (hintService wireFormat queryFormat (runHandler countPrg wireFormat (setDatabase 5 [1, 2, 4, 8, 16])))
          (2 ^ 31) (fun _ => True) (fun c c' => c' = c.hinted countPrg [1, 2, 4, 8, 16]) ⟨⟨left, ()⟩, threads⟩ m s := by
  have hTransport : Transport wireFormat queryFormat 1 (2 ^ 31) := wireTransport (by decide)
  refine @evalBaseline_served countPrg wireFormat queryFormat 1 (2 ^ 31) hTransport (by decide) 5 (by decide) (by decide)
    [1, 2, 4, 8, 16] rfl 2 (by decide)
    [⟨[(Vector.replicate 16 0, 4)], 0, piecesLink⟩, ⟨[(Vector.replicate 16 1, 0)], 0, piecesLink⟩] ?_
  intro start hMem
  rcases List.mem_pair.mp hMem with rfl | rfl <;> refine ⟨Nat.le_refl 1, ?_, piecesLink_reliable⟩ <;> simp

end Clients

section Online
variable (prg : Prg) (pb : Protobuf (List UInt8)) (queries : MessageClass (List UInt8) Interface.Query)

structure QueryStart where
  idx : Nat
  link : Link

def onlineThread (start : QueryStart) (onlineQry : OnlineQuery) : Thread QueryStart Block :=
  ⟨start, serializeQuery queries (serializeOnlineQuery pb onlineQry) .online, start.link, .ready⟩

/-- The client goes through all queries, and each overwrites its set number. -/
def generateQueries (c : PIRClient) : List QueryStart → Except Fault (PIRClient × List (Thread QueryStart Block))
  | [] => .ok (c, [])
  | start :: rest => do
    let (c, onlineQry) ← c.generateOnlineQuery prg start.idx
    let (c, threads) ← generateQueries c rest
    .ok (c, onlineThread pb queries start onlineQry :: threads)

/-- The threads read the shared client and change nothing of it. -/
def onlineService (handler : Interface.Query → Except SerialFault (List UInt8)) : Service PIRClient QueryStart Block where
  handle := handleQuery queries handler
  finish _ c response := Except.map (fun blk => (c, blk)) do
    let onlineReply ← deserializeOnlineReply pb response
    (c.recoverBlock onlineReply).mapError .raised

theorem onlineThread_alone (handler : Interface.Query → Except SerialFault (List UInt8)) (passes : Nat)
    (start : QueryStart) (onlineQry : OnlineQuery) (c : PIRClient) :
    (onlineThread pb queries start onlineQry).alone (onlineService pb queries handler) passes c =
      (NetClient.onlineQuery pb queries handler start.link passes c onlineQry).map fun blk => (c, blk) :=
  (map_bind (fun blk => (c, blk)) _ _).symm

/-- The block of the thread, recovered with the hint of set `last`. -/
def RecoversWith (db : Database) (c : PIRClient) (last : Nat) (start : QueryStart) (blk : Block) : Prop :=
  ∃ s i own used, c.firstPoint prg start.idx = some (s, i) ∧ c.sets[s]? = some own ∧ c.sets[last]? = some used ∧
    blk = blockAt db start.idx ^^^ (own.hint ^^^ used.hint) ∧
    (blk = blockAt db start.idx ↔ own.hint = used.hint)

end Online

section Queries
variable {prg : Prg} {pb : Protobuf (List UInt8)} {queries : MessageClass (List UInt8) Interface.Query}

theorem generateOnlineQuery_current (c : PIRClient) (i k idx : Nat) :
    PIRClient.generateOnlineQuery prg { c with puncX := i, curQrySetno := k } idx = c.generateOnlineQuery prg idx := rfl

/-- Each thread sends its own query, and the client keeps the set of the last one. -/
theorem generateQueries_ok {c : PIRClient} (hWF : ClientWF c) {starts : List QueryStart}
    (hQuery : ∀ start ∈ starts, ∃ out, c.generateOnlineQuery prg start.idx = .ok out) (i k : Nat) :
    ∃ x last threads, generateQueries prg pb queries { c with puncX := i, curQrySetno := k } starts =
        .ok ({ c with puncX := x, curQrySetno := last }, threads) ∧
      threads.length = starts.length ∧ (starts ≠ [] → ∃ used, c.sets[last]? = some used) ∧
      ∀ t ∈ threads, ∃ start ∈ starts, ∃ c' q, c.generateOnlineQuery prg start.idx = .ok (c', q) ∧
        t = onlineThread pb queries start q := by
  induction starts generalizing i k with
  | nil => exact ⟨i, k, [], rfl, rfl, fun h => absurd rfl h, fun t ht => by cases ht⟩
  | cons start rest ih =>
    obtain ⟨⟨c', q⟩, hFirst⟩ := hQuery start List.mem_cons_self
    obtain ⟨s, x, d, -, hSet, rfl, -⟩ := (generateOnlineQuery_ok_iff prg hWF start.idx).mp hFirst
    obtain ⟨y, last, threads, hRest, hLength, hLast, hAll⟩ :=
      ih (fun next hNext => hQuery next (List.mem_cons_of_mem start hNext)) x s
    refine ⟨y, last, onlineThread pb queries start q :: threads, ?_, congrArg (· + 1) hLength, ?_, ?_⟩
    · rw [generateQueries, generateOnlineQuery_current, hFirst, ok_bind]
      dsimp only
      rw [hRest, ok_bind]
    · intro _
      cases rest with
      | nil =>
        cases hRest
        exact ⟨d, hSet⟩
      | cons next rest => exact hLast (List.cons_ne_nil next rest)
    · intro t ht
      rcases List.mem_cons.mp ht with rfl | ht
      · exact ⟨start, List.mem_cons_self, _, q, hFirst, rfl⟩
      · obtain ⟨next, hNext, hThread⟩ := hAll t ht
        exact ⟨next, List.mem_cons_of_mem start hNext, hThread⟩

end Queries

section Evaluation
variable {prg : Prg} {pb : Protobuf (List UInt8)} {queries : MessageClass (List UInt8) Interface.Query}
  {nbrsets passes : Nat} (hTransport : Transport pb queries nbrsets passes) {n : Nat} {db : Database}
  (hDb : db.length = n) {c : PIRClient} (hWF : ClientWF c) (hRange : c.dbrange = n) (hShifts : ShiftsTyped c)
include hTransport hDb hWF hRange hShifts

theorem onlineThread_answerable (hExact : HintsExact prg db c) {start : QueryStart} (hLink : start.link.Reliable)
    {c' : PIRClient} {q : OnlineQuery} (hQuery : c.generateOnlineQuery prg start.idx = .ok (c', q)) (x : Nat)
    {last : Nat} {used : SetDesc} (hUsed : c.sets[last]? = some used) :
    ∃ response blk, Answerable (onlineService pb queries (runHandler prg pb (setDatabase n db)))
        (fun state => state = { c with puncX := x, curQrySetno := last }) (onlineThread pb queries start q) response blk ∧
      RecoversWith prg db c last start blk := by
  subst hRange
  obtain ⟨s, i, own, hFound, hSet, rfl, rfl⟩ := (generateOnlineQuery_ok_iff prg hWF start.idx).mp hQuery
  obtain ⟨s', i', own', hSet', hClient, hTyped, hLength, hReply, -⟩ := onlineQuery_answer hWF hDb hShifts hQuery
  obtain rfl : s = s' := congrArg PIRClient.curQrySetno hClient
  cases hSet.symm.trans hSet'
  have hs : s < c.nbrsets := hWF.sets_length ▸ (List.getElem?_eq_some_iff.mp hSet).1
  have hHint := (hintExact_iff prg hWF hDb hSet).mp (hExact s hs)
  have hBlk : setHint prg c.dbrange db own ^^^ blockAt db start.idx ^^^ used.hint =
      blockAt db start.idx ^^^ (own.hint ^^^ used.hint) := by
    rw [hHint, ← BitVec.xor_assoc, BitVec.xor_comm (blockAt db start.idx)]
  refine ⟨serializeOnlineReply pb ⟨setHint prg c.dbrange db own ^^^ blockAt db start.idx⟩, _, {
    stage := rfl
    link := hLink
    sendable := hTransport.fits.onlineQuery _ .online hLength
    handled := (handleQuery_serialize hTransport.queries_undo _ _).trans
      (onlineQueryHandler_serialize hTransport.messages_undo hTyped hReply)
    reply_sendable := hTransport.fits.onlineReply _
    finishes := ?_ }, s, i, own, used, hFound, hSet, hUsed, hBlk, ?_⟩
  · rintro _ rfl
    refine ⟨_, ?_, rfl⟩
    simp only [onlineService, deserializeOnlineReply_serialize hTransport.messages_undo, ok_bind, PIRClient.recoverBlock,
      elemAt_of_getElem? hUsed, mapError_ok]
    rfl
  · rw [hBlk, ← BitVec.xor_assoc]
    exact xor_xor_eq_self_iff _ _ _

end Evaluation

end CkPir
