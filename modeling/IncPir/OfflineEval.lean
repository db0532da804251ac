import IncPir.NetSession
import IncPir.Threads

/-! # Many clients at once (`offline_client_eval.cpp`, `run_offline`)

The client process prepares a client for each unit of load, and sends their
requests from threads. A thread is in `add_query` or in
`offline_query_baseline`; the two differ in the query that they send.
-/

namespace IncPir
open LoopM Interleaving
set_option autoImplicit false

section Threads
variable (pb : Protobuf (List UInt8)) (queries : MessageClass (List UInt8) Interface.Query)
  (handler : Interface.Query → Except SerialFault (List UInt8)) (passes : Nat)

def parityService : Service Unit PIRClient PIRClient where
  handle := handleQuery queries handler
  finish c _ response := Except.map (fun c => ((), c)) do
    let offlineReply ← deserializeOfflineReply pb response
    (c.updateParity offlineReply).mapError .raised

def addThread (client : PIRClient) (addQry : UpdateQueryAdd) (link : Link) : Thread PIRClient PIRClient :=
  ⟨client, serializeQuery queries (serializeOfflineAddQuery pb addQry) .add, link, .ready⟩

def baselineThread (client : PIRClient) (offlineQry : OfflineQuery) (link : Link) : Thread PIRClient PIRClient :=
  ⟨client, serializeQuery queries (serializeOfflineQuery pb offlineQry) .offline, link, .ready⟩

theorem addThread_alone (client : PIRClient) (addQry : UpdateQueryAdd) (link : Link) :
    (addThread pb queries client addQry link).alone (parityService pb queries handler) passes () =
      (NetClient.addQuery pb queries handler link passes client addQry).map fun c => ((), c) :=
  (map_bind (fun c => ((), c)) _ _).symm

theorem baselineThread_alone (client : PIRClient) (offlineQry : OfflineQuery) (link : Link) :
    (baselineThread pb queries client offlineQry link).alone (parityService pb queries handler) passes () =
      (NetClient.offlineQueryBaseline pb queries handler link passes client offlineQry).map fun c => ((), c) :=
  (map_bind (fun c => ((), c)) _ _).symm

variable {pb}

theorem parityService_finishes (hMessages : pb.Undoes) {c c' : PIRClient} {reply : OfflineReply}
    (h : c.updateParity reply = .ok c') (state : Unit) :
    ∃ state', (parityService pb queries handler).finish c state (serializeOfflineReply pb reply) = .ok (state', c') ∧
      True := by
  refine ⟨(), ?_, trivial⟩
  simp only [parityService, deserializeOfflineReply_serialize hMessages, ok_bind, h]
  rfl

end Threads

section Draws

theorem sampledCount_le_setsize {setsize : Nat} (hPos : 0 < setsize) (nbrAdd : Nat) (rand : Nat → Nat)
    (coin : Nat → Bool) : sampledCount setsize nbrAdd rand coin ≤ setsize := by
  have hSub : (((List.range nbrAdd).filter coin).map fun i => rand i % setsize).dedup ⊆ List.range setsize := by
    intro r hr
    obtain ⟨i, -, rfl⟩ := List.mem_map.mp (List.mem_dedup.mp hr)
    exact List.mem_range.mpr (Nat.mod_lt _ hPos)
  exact ((List.nodup_dedup _).subperm hSub).length_le.trans_eq List.length_range

/-- The first batch kicks no slot below zero, whatever is drawn. -/
theorem undrained_single {c : PIRClient} (hPos : 1 ≤ c.setsize)
    (hSlots : ∀ d ∈ c.localhints.sets, d.aux = [(c.dbrange, c.setsize)]) (nbrAdd : Nat) (draw : AddDraw) :
    c.Undrained nbrAdd draw := by
  intro s d hSet slot t hSlot
  rw [hSlots d (List.mem_of_getElem? hSet)] at hSlot ⊢
  obtain rfl := List.mem_singleton.mp (List.mem_of_getElem? hSlot)
  have hHits : hits [(c.dbrange, c.setsize)] (draw.fall s) (c.sampled nbrAdd draw s) slot ≤
      c.sampled nbrAdd draw s := List.countP_le_length.trans_eq List.length_range
  exact hHits.trans (sampledCount_le_setsize hPos nbrAdd _ _)

end Draws

/-- The random values of a client, and the connections that it makes. -/
structure ClientStart where
  build ::
  mk : Key
  sk : Nat → Key
  rand : Nat → Nat
  add : AddDraw
  offlineLink : Link
  link : Link

structure ClientStart.Reliable (start : ClientStart) : Prop where
  offlineLink : start.offlineLink.Reliable
  link : start.link.Reliable

def exampleStart (byte : UInt8) : ClientStart :=
  ⟨Vector.replicate 16 1, fun _ => Vector.replicate 16 byte, fun s => s, ⟨fun i _ => i, fun _ _ => true, fun s _ => s⟩,
    piecesLink, piecesLink⟩

theorem exampleStart_reliable (byte : UInt8) : (exampleStart byte).Reliable := ⟨piecesLink_reliable, piecesLink_reliable⟩

section Starts
variable (aes : Aes) (pb : Protobuf (List UInt8)) (queries : MessageClass (List UInt8) Interface.Query)
  (passes : Nat) (server : PIRServer) (dbSize setSize nbrSets : Nat)

/-- A client of the baseline, whose thread sends its offline query. -/
def startBaseline (start : ClientStart) : Except SerialFault (Thread PIRClient PIRClient) := do
  let client ← (newPIRClient dbSize setSize nbrSets start.mk start.sk start.rand).mapError .raised
  let offlineQry ← client.generateOfflineQuery.mapError .raised
  .ok (baselineThread pb queries client offlineQry start.link)

/-- A client that is prepared before the threads start; its thread sends a batch of additions. -/
def startAdd (nbrAdd : Nat) (start : ClientStart) : Except SerialFault (Thread PIRClient PIRClient) := do
  let client ← (newPIRClient dbSize setSize nbrSets start.mk start.sk start.rand).mapError .raised
  let client ← NetClient.offlineQuery pb queries (runOfflineHandler aes pb server) start.offlineLink passes client
  let (client, addQry) ← (client.batchedAdditionQuery nbrAdd start.add).mapError .raised
  .ok (addThread pb queries client addQry start.link)

end Starts

section Messages
variable {c : PIRClient} (hWF : ClientWF c) {nbrAdd : Nat} {draw : AddDraw} (hDraw : c.Undrained nbrAdd draw)
include hWF hDraw

theorem additionMessage_typed (hRange : c.dbrange + nbrAdd ≤ 2 ^ 31) (hNbrsets : c.nbrsets < 2 ^ 32) :
    (c.additionMessage nbrAdd draw).Typed := by
  have hPos := hWF.setsize_pos
  have hLe := hWF.setsize_le
  refine ⟨hNbrsets, by dsimp only [PIRClient.additionMessage]; omega, ?_⟩
  intro d hd
  obtain ⟨s, hs, rfl⟩ := List.mem_mapIdx.mp hd
  have hSet := List.getElem?_eq_getElem hs
  have hOld := (hWF.sets_wf _ (List.getElem_mem hs)).typed hPos hWF.dbrange_le
  have hNew := (addedAux_wf hWF hDraw hSet).typed hPos hRange
  exact ⟨hOld.shift, hOld.aux, hNew.aux⟩

theorem additionMessage_slots {slots : Nat} (hSlots : ∀ d ∈ c.localhints.sets, d.aux.length < slots) :
    ∀ d ∈ (c.additionMessage nbrAdd draw).diffsets, d.auxPrev.length ≤ slots ∧ d.auxCurr.length ≤ slots := by
  intro d hd
  obtain ⟨s, hs, rfl⟩ := List.mem_mapIdx.mp hd
  have hLess := hSlots _ (List.getElem_mem hs)
  obtain ⟨low, hKick, -, hAux, -⟩ := kickOut_addedAux hWF hDraw (List.getElem?_eq_getElem hs)
  have hLength := kickOut_length hKick
  refine ⟨hLess.le, ?_⟩
  dsimp only
  rw [hAux, List.length_append, List.length_singleton]
  omega

end Messages

section Requests
variable {aes : Aes} {pb : Protobuf (List UInt8)} {queries : MessageClass (List UInt8) Interface.Query}
  {server : PIRServer} {slots passes : Nat}
  (hTransport : Transport pb queries server.nbrsets server.setsize slots passes)
include hTransport

theorem baselineThread_answerable {c c' : PIRClient} (hWF : ClientWF c) (hNbrsets : c.nbrsets = server.nbrsets)
    (hSlots : ∀ d ∈ c.localhints.sets, d.aux.length ≤ slots) {link : Link} (hLink : link.Reliable)
    (h : prepare aes server c = .ok c') :
    ∃ q response, c.generateOfflineQuery = .ok q ∧
      Answerable (parityService pb queries (runOfflineHandler aes pb server)) (fun _ => True)
        (baselineThread pb queries c q link) response c' := by
  obtain ⟨q, hQuery, h⟩ := (bind_eq_ok_iff _ _ _).mp h
  obtain ⟨reply, hReply, hStored⟩ := (bind_eq_ok_iff _ _ _).mp h
  have hSame := hQuery
  rw [generateOfflineQuery_eq hWF.sets_length] at hSame
  cases hSame
  obtain ⟨parities, hParities, hEnd⟩ := (bind_eq_ok_iff _ _ _).mp hReply
  cases hEnd
  have hLength := (mapM_range_results hParities).1
  exact ⟨_, _, hQuery, {
    stage := rfl
    link := hLink
    sendable := hTransport.fits.offlineQuery _ (hNbrsets ▸ hWF.sets_length.le) hSlots
    handled := (handleQuery_serialize hTransport.queries_undo _ _).trans
      (offlineQueryHandler_serialize hTransport.messages_undo hWF.typed hReply)
    reply_sendable := hTransport.fits.offlineReply _ hLength.le
    finishes := fun state _ => parityService_finishes queries _ hTransport.messages_undo hStored state }⟩

theorem addThread_answerable {c : PIRClient} (h : SessionExact aes ⟨server, c⟩) (hNbrsets : server.nbrsets < 2 ^ 32)
    (hSlots : ∀ d ∈ c.localhints.sets, d.aux.length < slots) {v : List Block}
    (hRange : c.dbrange + v.length ≤ 2 ^ 31) {draw : AddDraw} (hDraw : c.Undrained v.length draw) {link : Link}
    (hLink : link.Reliable) {server' : PIRServer} (hServer : server.addElements v.length v = .ok server') :
    ∃ c₁ q response c', c.batchedAdditionQuery v.length draw = .ok (c₁, q) ∧
      Answerable (parityService pb queries (runAddHandler aes pb server')) (fun _ => True)
        (addThread pb queries c₁ q link) response c' ∧
      SessionExact aes ⟨server', c'⟩ := by
  have hKept : server'.nbrsets = server.nbrsets := by
    rw [PIRServer.addElements, if_neg (by simp)] at hServer
    cases hServer
    rfl
  obtain ⟨s', hStep, hExact⟩ := additionStep_ok aes h hRange hDraw
  obtain ⟨⟨server₁, c'⟩, hRound, hStep⟩ := (bind_eq_ok_iff _ _ _).mp hStep
  cases hStep
  obtain ⟨server₂, hAdd, hRound⟩ := (bind_eq_ok_iff _ _ _).mp hRound
  cases hServer.symm.trans hAdd
  obtain ⟨⟨c₁, q⟩, hQuery, hRound⟩ := (bind_eq_ok_iff _ _ _).mp hRound
  obtain ⟨reply, hReply, hRound⟩ := (bind_eq_ok_iff _ _ _).mp hRound
  obtain ⟨c₂, hStored, hRound⟩ := (bind_eq_ok_iff _ _ _).mp hRound
  cases hRound
  cases (batchedAdditionQuery_eq h.wf hDraw hRange).symm.trans hQuery
  have hSets : server.nbrsets = c.nbrsets := h.nbrsets
  obtain ⟨parities, hParities, hEnd⟩ := (bind_eq_ok_iff _ _ _).mp hReply
  cases hEnd
  have hLength := (mapM_range_results hParities).1
  refine ⟨_, _, _, c', hQuery, {
    stage := rfl
    link := hLink
    sendable := hTransport.fits.addQuery _ ?_ (additionMessage_slots h.wf hDraw hSlots)
    handled := (handleQuery_serialize hTransport.queries_undo _ _).trans
      (addQueryHandler_serialize hTransport.messages_undo
        (additionMessage_typed h.wf hDraw hRange (hSets ▸ hNbrsets)) hReply)
    reply_sendable := hTransport.fits.offlineReply _ (hKept ▸ hLength.le)
    finishes := fun state _ => parityService_finishes queries _ hTransport.messages_undo hStored state }, hExact⟩
  exact List.length_mapIdx.trans_le (h.wf.sets_length.trans hSets.symm).le

end Requests

section Evaluation
variable (aes : Aes) {pb : Protobuf (List UInt8)} {queries : MessageClass (List UInt8) Interface.Query}
  {server : PIRServer} {passes : Nat} (hPos : 1 ≤ server.setsize) (hLe : server.setsize ≤ server.dbrange)
  (hDb : server.db.length = server.dbrange) {starts : List ClientStart}
  (hLinks : ∀ start ∈ starts, start.Reliable)
include hPos hLe hDb hLinks

/-- The offline queries of the baseline, in any order of their connections. -/
theorem offlineBaseline_served (hTransport : Transport pb queries server.nbrsets server.setsize 1 passes)
    (hRange : server.dbrange ≤ 2 ^ 31) :
    ∃ threads, starts.mapM (startBaseline pb queries server.dbrange server.setsize server.nbrsets) = .ok threads ∧
      threads.length = starts.length ∧ ∀ n s,
        Reaches (Thread.move (parityService pb queries (runOfflineHandler aes pb server)) passes)
          ⟨⟨starts.length, ()⟩, threads⟩ n s →
        AllServed (parityService pb queries (runOfflineHandler aes pb server)) passes (fun _ => True)
          (fun _ c => SessionExact aes ⟨server, c⟩) ⟨⟨starts.length, ()⟩, threads⟩ n s := by
  have hThread : ∀ start ∈ starts, ∃ t,
      startBaseline pb queries server.dbrange server.setsize server.nbrsets start = .ok t ∧ ∃ response result,
        Answerable (parityService pb queries (runOfflineHandler aes pb server)) (fun _ => True) t response result ∧
          SessionExact aes ⟨server, result⟩ := by
    intro start hMem
    obtain ⟨c, hPrepare, hExact, -⟩ := prepare_exact aes hPos hLe hRange hDb start.mk start.sk start.rand
    obtain ⟨q, response, hQuery, hAnswer⟩ := baselineThread_answerable hTransport
      (setupClient_wf server.nbrsets start.mk start.sk start.rand hPos hLe hRange) rfl setupClient_slots
      (hLinks start hMem).link hPrepare
    refine ⟨_, ?_, response, c, hAnswer, hExact.session⟩
    rw [startBaseline, newPIRClient_eq _ _ _ _ hPos hLe, mapError_ok, ok_bind, hQuery]
    rfl
  obtain ⟨threads, hStart, hLength, hAll⟩ :=
    @started_served _ _ _ _ _ _ (fun _ c => SessionExact aes ⟨server, c⟩) hTransport.passes_ge _ _ starts hThread () trivial
  exact ⟨threads, hStart, hLength, fun n s => hAll starts.length n s (Nat.le_refl _)⟩

omit hPos hLe hDb hLinks in
theorem offlineBaseline_served_two :
    ∃ threads, [exampleStart 1, exampleStart 2].mapM (startBaseline wireFormat queryFormat 2 2 1) = .ok threads ∧
      threads.length = 2 ∧ ∀ n s,
        Reaches (Thread.move (parityService wireFormat queryFormat
            (runOfflineHandler (fun key _ => key) wireFormat ⟨2, 2, 1, [5, 7]⟩)) (2 ^ 31)) ⟨⟨2, ()⟩, threads⟩ n s →
        AllServed (parityService wireFormat queryFormat
            (runOfflineHandler (fun key _ => key) wireFormat ⟨2, 2, 1, [5, 7]⟩)) (2 ^ 31) (fun _ => True)
          (fun _ c => SessionExact (fun key _ => key) ⟨⟨2, 2, 1, [5, 7]⟩, c⟩) ⟨⟨2, ()⟩, threads⟩ n s := by
  have hTransport : Transport wireFormat queryFormat 1 2 1 (2 ^ 31) := wireTransport (by decide)
  have hLinks : ∀ start ∈ [exampleStart 1, exampleStart 2], start.Reliable := by
    intro start hMem
    rcases List.mem_pair.mp hMem with rfl | rfl <;> exact exampleStart_reliable _
  exact @offlineBaseline_served (fun key _ => key) wireFormat queryFormat ⟨2, 2, 1, [5, 7]⟩ (2 ^ 31) (by decide)
    (by decide) rfl _ hLinks hTransport (by decide)

/-- The batched additions to the grown database, in any order of their connections. -/
theorem offlineAdditions_served (hTransport : Transport pb queries server.nbrsets server.setsize 2 passes)
    (hNbrsets : server.nbrsets < 2 ^ 32) (v : List Block) (hRange : server.dbrange + v.length ≤ 2 ^ 31) :
    ∃ threads server', starts.mapM (startAdd aes pb queries passes server server.dbrange server.setsize
        server.nbrsets v.length) = .ok threads ∧
      threads.length = starts.length ∧ server.addElements v.length v = .ok server' ∧ ∀ n s,
        Reaches (Thread.move (parityService pb queries (runAddHandler aes pb server')) passes)
          ⟨⟨starts.length, ()⟩, threads⟩ n s →
        AllServed (parityService pb queries (runAddHandler aes pb server')) passes (fun _ => True)
          (fun _ c => SessionExact aes ⟨server', c⟩) ⟨⟨starts.length, ()⟩, threads⟩ n s := by
  obtain ⟨server', hServer⟩ : ∃ server', server.addElements v.length v = .ok server' :=
    ⟨_, by rw [PIRServer.addElements, if_neg (by simp)]⟩
  have hThread : ∀ start ∈ starts, ∃ t,
      startAdd aes pb queries passes server server.dbrange server.setsize server.nbrsets v.length start = .ok t ∧
      ∃ response result, Answerable (parityService pb queries (runAddHandler aes pb server')) (fun _ => True) t response
        result ∧ SessionExact aes ⟨server', result⟩ := by
    intro start hMem
    have hWF := setupClient_wf server.nbrsets start.mk start.sk start.rand hPos hLe (by omega)
    obtain ⟨c, hPrepare, hExact, hSingle⟩ := prepare_exact aes hPos hLe (by omega) hDb start.mk start.sk start.rand
    have hSlots : ∀ d ∈ c.localhints.sets, d.aux.length < 2 := by
      intro d hd
      rw [hSingle d hd]
      exact Nat.one_lt_two
    have hSize : server.dbrange = c.dbrange := hExact.session.dbrange
    have hOffline := offlineQuery_of_ok hTransport (hLinks start hMem).offlineLink
      (fun _ => rfl : ∀ msg, runOfflineHandler aes pb server ⟨.offline, msg⟩ = offlineQueryHandler aes pb server msg)
      hWF rfl (fun d hd => (setupClient_slots d hd).trans (by decide)) hPrepare
    obtain ⟨c₁, q, response, c', hQuery, hAnswer, hExact'⟩ := addThread_answerable hTransport hExact.session hNbrsets
      hSlots (hSize ▸ hRange) (undrained_single hExact.session.wf.setsize_pos hSingle v.length start.add)
      (hLinks start hMem).link hServer
    refine ⟨_, ?_, response, c', hAnswer, hExact'⟩
    simp only [startAdd, newPIRClient_eq _ _ _ _ hPos hLe, mapError_ok, ok_bind, hOffline, hQuery]
  obtain ⟨threads, hStart, hLength, hAll⟩ :=
    @started_served _ _ _ _ _ _ (fun _ c => SessionExact aes ⟨server', c⟩) hTransport.passes_ge _ _ starts hThread () trivial
  exact ⟨threads, server', hStart, hLength, hServer, fun n s => hAll starts.length n s (Nat.le_refl _)⟩

omit hPos hLe hDb hLinks in
theorem offlineAdditions_served_two :
    ∃ threads server', [exampleStart 1, exampleStart 2].mapM (startAdd (fun key _ => key) wireFormat queryFormat
        (2 ^ 31) ⟨2, 2, 1, [5, 7]⟩ 2 2 1 1) = .ok threads ∧
      threads.length = 2 ∧ PIRServer.addElements ⟨2, 2, 1, [5, 7]⟩ 1 [9] = .ok server' ∧ ∀ n s,
        Reaches (Thread.move (parityService wireFormat queryFormat
            (runAddHandler (fun key _ => key) wireFormat server')) (2 ^ 31)) ⟨⟨2, ()⟩, threads⟩ n s →
        AllServed (parityService wireFormat queryFormat (runAddHandler (fun key _ => key) wireFormat server')) (2 ^ 31)
          (fun _ => True) (fun _ c => SessionExact (fun key _ => key) ⟨server', c⟩) ⟨⟨2, ()⟩, threads⟩ n s := by
  have hTransport : Transport wireFormat queryFormat 1 2 2 (2 ^ 31) := wireTransport (by decide)
  have hLinks : ∀ start ∈ [exampleStart 1, exampleStart 2], start.Reliable := by
    intro start hMem
    rcases List.mem_pair.mp hMem with rfl | rfl <;> exact exampleStart_reliable _
  exact @offlineAdditions_served (fun key _ => key) wireFormat queryFormat ⟨2, 2, 1, [5, 7]⟩ (2 ^ 31) (by decide)
    (by decide) rfl _ hLinks hTransport (by decide) [9] (by decide)

end Evaluation

end IncPir
