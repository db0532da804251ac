import IncPir.MessageSizes
import IncPir.Outcomes
import IncPir.Session

/-! # Sessions over the network

Each request of the client to a server in `run_refresh` is the direct call of
the server's operation, however the sockets split the messages. A session over
the network is therefore as good as one without.
-/

namespace IncPir
open LoopM Runs
set_option autoImplicit false

/-- What the messages between a client and a server with these parameters rely on. -/
structure Transport (pb : Protobuf (List UInt8)) (queries : MessageClass (List UInt8) Interface.Query)
    (nbrsets setsize slots passes : Nat) : Prop where
  messages_undo : pb.Undoes
  queries_undo : queries.Undoes
  fits : MessagesFit pb queries nbrsets setsize slots
  passes_ge : 2 ^ 31 ≤ passes

section Typed

theorem AuxWF.typed {dbrange setsize : Nat} {aux : Aux} (h : AuxWF dbrange setsize aux) (hRange : dbrange ≤ 2 ^ 31) :
    AuxTyped aux := by
  intro t ht
  have hFirst : t.1 ≤ (aux.map Prod.fst).sum := List.le_sum_of_mem (List.mem_map_of_mem ht)
  have hCount := h.counts_le t ht
  have hSum := h.ranges
  constructor <;> omega

theorem SetWF.typed {dbrange setsize : Nat} {d : SetDesc} (h : SetWF dbrange setsize d) (hPos : 1 ≤ setsize)
    (hRange : dbrange ≤ 2 ^ 31) : d.Typed := by
  have hAux := h.toAuxWF.typed hRange
  refine ⟨?_, hAux⟩
  obtain ⟨sk, shift, aux⟩ := d
  cases aux with
  | nil =>
    have hCounts := h.counts
    simp only [countSum, List.map_nil, List.sum_nil] at hCounts
    omega
  | cons t rest =>
    have hShift := h.shift_lt t rfl
    have hFirst := (hAux t List.mem_cons_self).1
    dsimp only at hShift ⊢
    omega

theorem ClientWF.typed {c : PIRClient} (hWF : ClientWF c) : (⟨c.localhints.sets⟩ : OfflineQuery).Typed :=
  fun d hd => (hWF.sets_wf d hd).typed hWF.setsize_pos hWF.dbrange_le

/-- A query that is answered asks for indices of the database. -/
theorem OnlineQuery.typed_of_answered {server : PIRServer} (hDb : server.db.length = server.dbrange)
    (hRange : server.dbrange ≤ 2 ^ 31) {q : OnlineQuery} {reply : OnlineReply}
    (h : server.generateOnlineReply q = .ok reply) : q.Typed := by
  have hAll := (generateOnlineReply_avoids_iff hDb q.indices).mp (by rw [h]; exact avoids_ok _)
  intro i hi
  have hLt := hAll i hi
  omega

end Typed

section Lengths
variable {aes : Aes} {c c' : PIRClient} {idx : Nat} {q : OnlineQuery}

theorem probabilisticRemove_size {s t : OrdSet Nat} {draw : RemoveDraw} (h : probabilisticRemove s draw idx = .ok t) :
    t.size ≤ s.size := by
  rw [probabilisticRemove] at h
  split at h
  · cases h
    exact OrdSet.size_erase_le s idx
  · obtain ⟨r, -, h⟩ := (bind_eq_ok_iff _ _ _).mp h
    obtain ⟨it, hIt, h⟩ := (bind_eq_ok_iff _ _ _).mp h
    cases h
    have hMem := List.mem_of_getElem? ((elemAt_eq_ok_iff _ _ _).mp hIt)
    have hPos : 0 < (s.erase idx).size := List.length_pos_of_mem hMem
    have hFirst := OrdSet.size_erase_le s idx
    have hSecond := OrdSet.size_erase hMem
    have hInsert := OrdSet.size_insert_le ((s.erase idx).erase it) idx
    omega

theorem generateOnlineQuery_length (hWF : ClientWF c) {draw : RemoveDraw}
    (h : c.generateOnlineQuery aes idx draw = .ok (c', q)) : q.indices.length ≤ c.setsize := by
  rw [PIRClient.generateOnlineQuery] at h
  split at h
  · cases h
  · obtain ⟨found, -, h⟩ := (bind_eq_ok_iff _ _ _).mp h
    obtain ⟨d, hSet, h⟩ := (bind_eq_ok_iff _ _ _).mp h
    obtain ⟨tmp, hTmp, h⟩ := (bind_eq_ok_iff _ _ _).mp h
    obtain ⟨t, hRemove, h⟩ := (bind_eq_ok_iff _ _ _).mp h
    cases h
    have hd := hWF.sets_wf d (List.mem_of_getElem? ((elemAt_eq_ok_iff _ _ _).mp hSet))
    rw [expandSet_eq aes c.mk hd hWF.dbrange_le] at hTmp
    cases hTmp
    exact (probabilisticRemove_size hRemove).trans_eq (size_listed aes c.mk hd hWF.dbrange_le)

theorem generateRefreshQuery_length {draw : RefreshDraw} (h : c.generateRefreshQuery aes idx draw = .ok (c', q)) :
    q.indices.length ≤ c.setsize := by
  obtain ⟨r, -, h⟩ := (bind_eq_ok_iff _ _ _).mp h
  obtain ⟨y, -, h⟩ := (bind_eq_ok_iff _ _ _).mp h
  obtain ⟨sets, -, h⟩ := (bind_eq_ok_iff _ _ _).mp h
  obtain ⟨members, hMembers, h⟩ := (bind_eq_ok_iff _ _ _).mp h
  obtain ⟨t, hRemove, h⟩ := (bind_eq_ok_iff _ _ _).mp h
  cases h
  have hSize : members.size ≤ c.setsize := by
    refine foldlM_range_invariant (fun i (tmp : OrdSet Nat) => tmp.size ≤ i) ?_ ?_ hMembers
    · exact Nat.le_refl 0
    intro i _ tmp tmp' hTmp hStep
    obtain ⟨v, -, hStep⟩ := (bind_eq_ok_iff _ _ _).mp hStep
    cases hStep
    exact (OrdSet.size_insert_le _ _).trans (Nat.succ_le_succ hTmp)
  exact (probabilisticRemove_size hRemove).trans hSize

end Lengths

section Handlers
variable {aes : Aes} {pb : Protobuf (List UInt8)} (hParse : pb.Undoes) {server : PIRServer}
include hParse

theorem offlineQueryHandler_serialize {q : OfflineQuery} (hTyped : q.Typed) {reply : OfflineReply}
    (hReply : server.generateOfflineReply aes q = .ok reply) :
    offlineQueryHandler aes pb server (serializeOfflineQuery pb q) = .ok (serializeOfflineReply pb reply) := by
  rw [offlineQueryHandler, deserializeOfflineQuery_serialize hParse hTyped, ok_bind, hReply]
  rfl

theorem onlineQueryHandler_serialize {q : OnlineQuery} (hTyped : q.Typed) {reply : OnlineReply}
    (hReply : server.generateOnlineReply q = .ok reply) :
    onlineQueryHandler pb server (serializeOnlineQuery pb q) = .ok (serializeOnlineReply pb reply) := by
  rw [onlineQueryHandler, deserializeOnlineQuery_serialize hParse hTyped, ok_bind, hReply]
  rfl

theorem addQueryHandler_serialize {q : UpdateQueryAdd} (hTyped : q.Typed) {reply : OfflineReply}
    (hReply : server.batchedAdditionReply aes q = .ok reply) :
    addQueryHandler aes pb server (serializeOfflineAddQuery pb q) = .ok (serializeOfflineReply pb reply) := by
  rw [addQueryHandler, deserializeOfflineAddQuery_serialize hParse hTyped, ok_bind, hReply]
  rfl

end Handlers

section Requests
variable {aes : Aes} {pb : Protobuf (List UInt8)} {queries : MessageClass (List UInt8) Interface.Query}
  {nbrsets setsize slots passes : Nat} (hTransport : Transport pb queries nbrsets setsize slots passes)
  {link : Link} (hLink : link.Reliable) {server : PIRServer}
  {handler : Interface.Query → Except SerialFault (List UInt8)} (c : PIRClient)
include hTransport hLink

theorem offlineQueryBaseline_eq (hHandler : ∀ msg, handler ⟨.offline, msg⟩ = offlineQueryHandler aes pb server msg)
    {q : OfflineQuery} (hTyped : q.Typed) (hSets : q.sets.length ≤ nbrsets) (hSlots : ∀ d ∈ q.sets, d.aux.length ≤ slots)
    {reply : OfflineReply} (hReply : server.generateOfflineReply aes q = .ok reply)
    (hParities : reply.parities.length ≤ nbrsets) :
    NetClient.offlineQueryBaseline pb queries handler link passes c q = (c.updateParity reply).mapError .raised := by
  have hRequest := request_eq hLink hTransport.passes_ge hTransport.queries_undo
    (hTransport.fits.offlineQuery q hSets hSlots)
    ((hHandler _).trans (offlineQueryHandler_serialize hTransport.messages_undo hTyped hReply))
    (hTransport.fits.offlineReply reply hParities)
  rw [NetClient.offlineQueryBaseline, hRequest, ok_bind, deserializeOfflineReply_serialize hTransport.messages_undo, ok_bind]

theorem onlineQuery_eq (hHandler : ∀ msg, handler ⟨.online, msg⟩ = onlineQueryHandler pb server msg)
    {q : OnlineQuery} (hTyped : q.Typed) (hLength : q.indices.length ≤ setsize) {reply : OnlineReply}
    (hReply : server.generateOnlineReply q = .ok reply) :
    NetClient.onlineQuery pb queries handler link passes c q = (c.queryRecov reply).mapError .raised := by
  have hRequest := request_eq hLink hTransport.passes_ge hTransport.queries_undo
    (hTransport.fits.onlineQuery q .online hLength)
    ((hHandler _).trans (onlineQueryHandler_serialize hTransport.messages_undo hTyped hReply))
    (hTransport.fits.onlineReply reply)
  rw [NetClient.onlineQuery, hRequest, ok_bind, deserializeOnlineReply_serialize hTransport.messages_undo, ok_bind]

theorem refreshQuery_eq (hHandler : ∀ msg, handler ⟨.refresh, msg⟩ = onlineQueryHandler pb server msg)
    {q : OnlineQuery} (hTyped : q.Typed) (hLength : q.indices.length ≤ setsize) {reply : OnlineReply}
    (hReply : server.generateOnlineReply q = .ok reply) :
    NetClient.refreshQuery pb queries handler link passes c q = (c.refreshRecov reply).mapError .raised := by
  have hRequest := request_eq hLink hTransport.passes_ge hTransport.queries_undo
    (hTransport.fits.onlineQuery q .refresh hLength)
    ((hHandler _).trans (onlineQueryHandler_serialize hTransport.messages_undo hTyped hReply))
    (hTransport.fits.onlineReply reply)
  rw [NetClient.refreshQuery, hRequest, ok_bind, deserializeOnlineReply_serialize hTransport.messages_undo, ok_bind]

end Requests

/-- A round of a session over the network, with the connections of its two requests. -/
structure NetRound where
  idx : Nat
  draw : RemoveDraw
  refresh : RefreshDraw
  onlineLink : Link
  refreshLink : Link

def NetRound.round (r : NetRound) : Round := .query r.idx r.draw r.refresh

section Rounds
variable (aes : Aes) (pb : Protobuf (List UInt8)) (queries : MessageClass (List UInt8) Interface.Query)
  (server : PIRServer) (passes : Nat)

structure NetRound.Reliable (r : NetRound) : Prop where
  onlineLink : r.onlineLink.Reliable
  refreshLink : r.refreshLink.Reliable

/-- The client of a session with this server. -/
structure NetExact (c : PIRClient) : Prop where
  session : SessionExact aes ⟨server, c⟩
  setsize : c.setsize = server.setsize

variable {aes pb queries server passes} {slots : Nat}
  (hTransport : Transport pb queries server.nbrsets server.setsize slots passes)

end Rounds

section Preparation
variable {aes : Aes} {pb : Protobuf (List UInt8)} {queries : MessageClass (List UInt8) Interface.Query}
  {server : PIRServer} {slots passes : Nat}
  (hTransport : Transport pb queries server.nbrsets server.setsize slots passes)
  {link : Link} (hLink : link.Reliable) {handler : Interface.Query → Except SerialFault (List UInt8)}
  (hHandler : ∀ msg, handler ⟨.offline, msg⟩ = offlineQueryHandler aes pb server msg)
include hTransport hLink hHandler

theorem offlineQuery_of_ok {c c' : PIRClient} (hWF : ClientWF c) (hNbrsets : c.nbrsets = server.nbrsets)
    (hSlots : ∀ d ∈ c.localhints.sets, d.aux.length ≤ slots) (h : prepare aes server c = .ok c') :
    NetClient.offlineQuery pb queries handler link passes c = .ok c' := by
  obtain ⟨q, hQuery, h⟩ := (bind_eq_ok_iff _ _ _).mp h
  obtain ⟨reply, hReply, h⟩ := (bind_eq_ok_iff _ _ _).mp h
  have hSame := hQuery
  rw [generateOfflineQuery_eq hWF.sets_length] at hSame
  cases hSame
  obtain ⟨parities, hParities, hEnd⟩ := (bind_eq_ok_iff _ _ _).mp hReply
  cases hEnd
  have hLength := (mapM_range_results hParities).1
  rw [NetClient.offlineQuery, hQuery, mapError_ok, ok_bind, offlineQueryBaseline_eq hTransport hLink c hHandler hWF.typed
    (hNbrsets ▸ hWF.sets_length.le) hSlots hReply hLength.le, h]
  rfl

end Preparation

/-- A prepared client: its hints are exact, and its sets still have a single slot. -/
theorem prepare_exact (aes : Aes) {server : PIRServer} (hPos : 1 ≤ server.setsize)
    (hLe : server.setsize ≤ server.dbrange) (hRange : server.dbrange ≤ 2 ^ 31)
    (hDb : server.db.length = server.dbrange) (mk : Key) (sk : Nat → Key) (rand : Nat → Nat) :
    ∃ c, prepare aes server (setupClient server.dbrange server.setsize server.nbrsets mk sk rand) = .ok c ∧
      NetExact aes server c ∧ ∀ d ∈ c.localhints.sets, d.aux = [(c.dbrange, c.setsize)] := by
  obtain ⟨c, hPrepare, hWF, hSize, hSets, hExact⟩ := prepare_ok aes mk sk rand hPos hLe hRange hDb
  have hSession : SessionExact aes ⟨server, c⟩ := ⟨hWF, hSets.symm, hSize.symm, hDb.trans hSize.symm, hExact⟩
  refine ⟨c, hPrepare, ?_⟩
  obtain ⟨q, -, hPrepare⟩ := (bind_eq_ok_iff _ _ _).mp hPrepare
  obtain ⟨reply, -, hPrepare⟩ := (bind_eq_ok_iff _ _ _).mp hPrepare
  obtain ⟨parities, -, -, rfl⟩ := updateParity_inv hPrepare
  refine ⟨⟨hSession, rfl⟩, ?_⟩
  intro d hd
  obtain ⟨s, -, rfl⟩ := List.mem_map.mp hd
  rfl

theorem setupClient_slots {dbrange setsize nbrsets : Nat} {mk : Key} {sk : Nat → Key} {rand : Nat → Nat} :
    ∀ d ∈ (setupClient dbrange setsize nbrsets mk sk rand).localhints.sets, d.aux.length ≤ 1 := by
  intro d hd
  obtain ⟨s, -, rfl⟩ := List.mem_map.mp hd
  exact Nat.le_refl 1

theorem wireTransport {nbrsets setsize slots : Nat}
    (h : (nbrsets + 1) * (2750 + 24 * slots) + 6 * setsize < 2 ^ 31 - 2 ^ 10) :
    Transport wireFormat queryFormat nbrsets setsize slots (2 ^ 31) :=
  ⟨wireFormat_undoes, queryFormat_undoes, wireFormat_fits h, Nat.le_refl _⟩

end IncPir
