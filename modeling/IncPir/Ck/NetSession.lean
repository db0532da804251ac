import IncPir.Ck.MessageSizes

/-! # The baseline over the network

The offline phase, a query and a refresh over connections are those of the
direct calls, so that recovery and exactness carry over.
-/

namespace CkPir
open IncPir (Key Block Database MessageClass SerialFault Link elemAt elemAt_of_getElem? blockAt elemAt_blockAt
  mapError_ok piecesLink piecesLink_reliable)
open LoopM XorFold Runs
set_option autoImplicit false

def ShiftsTyped (c : PIRClient) : Prop := ∀ d ∈ c.sets, d.shift < 2 ^ 32

section Typed
variable {prg : Prg} {c : PIRClient} (hWF : ClientWF c) {i : Nat} (hi : i < setPoints c.dbrange) {d : SetDesc}
include hWF hi

theorem puncturedQuery_typed (hShift : d.shift < 2 ^ 32) : (c.puncturedQuery prg d i).Typed := by
  have hLgn := hWF.size.lgn_le
  have hPoint : i < 2 ^ lgnOf c.dbrange := hi.trans_le (setPoints_le c.dbrange)
  have hPow : 2 ^ lgnOf c.dbrange ≤ 2 ^ 30 := Nat.pow_le_pow_right (by decide) hLgn
  rw [PIRClient.puncturedQuery, hWF.lgn, punc_eq prg hPoint]
  refine ⟨?_, ?_, hShift⟩
  · dsimp only
    omega
  · dsimp only
    omega

theorem puncturedQuery_keys : (c.puncturedQuery prg d i).keys.length ≤ 30 := by
  have hLgn := hWF.size.lgn_le
  have hPoint : i < 2 ^ lgnOf c.dbrange := hi.trans_le (setPoints_le c.dbrange)
  rw [PIRClient.puncturedQuery, hWF.lgn, punc_eq prg hPoint]
  dsimp only
  rw [LabelTree.length_siblings, LabelTree.length_pathBits]
  exact hLgn

end Typed

section Answers
variable {prg : Prg} {c : PIRClient} (hWF : ClientWF c) {db : Database} (hDb : db.length = c.dbrange)
  (hShifts : ShiftsTyped c)
include hWF hDb hShifts

/-- A query that does not throw fits its message, and the answer to it is the hint of its set without the
block of the index. -/
theorem onlineQuery_answer {idx : Nat} {c' : PIRClient} {q : OnlineQuery}
    (h : c.generateOnlineQuery prg idx = .ok (c', q)) :
    ∃ s i d, c.sets[s]? = some d ∧ c' = { c with puncX := i, curQrySetno := s } ∧ q.Typed ∧ q.keys.length ≤ 30 ∧
      (setDatabase c.dbrange db).generateOnlineReply prg q = .ok ⟨setHint prg c.dbrange db d ^^^ blockAt db idx⟩ ∧
      idx < db.length := by
  obtain ⟨s, i, d, hFound, hSet, rfl, rfl⟩ := (generateOnlineQuery_ok_iff prg hWF idx).mp h
  obtain ⟨d', hSet', hi, hPoint⟩ := firstPoint_some prg hFound
  cases hSet.symm.trans hSet'
  have hIdx : idx < db.length := by
    rw [← hPoint, hDb]
    exact point_lt prg hWF.size d i
  have hReply := generateOnlineReply_eq prg hWF.size hDb hWF.lgn d hi
  rw [hPoint] at hReply
  exact ⟨s, i, d, hSet, rfl, puncturedQuery_typed hWF hi (hShifts d (List.mem_of_getElem? hSet)),
    puncturedQuery_keys hWF hi, hReply, hIdx⟩

end Answers

theorem ShiftsTyped.offlineQuery_typed {c : PIRClient} (hShifts : ShiftsTyped c) (hCount : c.nbrsets < 2 ^ 32)
    (hSetsize : c.setsize < 2 ^ 32) :
    OfflineQuery.Typed ⟨c.nbrsets, c.setsize, c.sets.map SetDesc.prfKey, c.sets.map SetDesc.shift⟩ := by
  refine ⟨hCount, hSetsize, ?_⟩
  intro shift hMem
  obtain ⟨d, hd, rfl⟩ := List.mem_map.mp hMem
  exact hShifts d hd

theorem keyedClient_shifts (n setsize curQrySetno : Nat) {keys : List (Key × Nat)} (h : ∀ t ∈ keys, t.2 < 2 ^ 32) :
    ShiftsTyped (keyedClient n setsize curQrySetno keys) := by
  intro d hd
  obtain ⟨t, ht, rfl⟩ := List.mem_map.mp hd
  exact h t ht

theorem keyedClient_hints (n setsize curQrySetno : Nat) (keys : List (Key × Nat)) :
    ∀ d ∈ (keyedClient n setsize curQrySetno keys).sets, d.hint = 0 := by
  intro d hd
  obtain ⟨t, -, rfl⟩ := List.mem_map.mp hd
  rfl

section Network
variable {prg : Prg} {pb : Protobuf (List UInt8)} {queries : MessageClass (List UInt8) Interface.Query}
  {nbrsets passes : Nat} (hTransport : Transport pb queries nbrsets passes) {link : Link} (hLink : link.Reliable)
include hTransport hLink

theorem offlineQuery_of_ok {server : PIRServer} {handler : Interface.Query → Except SerialFault (List UInt8)}
    (hHandler : ∀ msg, handler ⟨.offline, msg⟩ = offlineQueryHandler prg pb server msg) {c c' : PIRClient}
    (hWF : ClientWF c) (hShifts : ShiftsTyped c) (hCount : c.nbrsets < 2 ^ 32) (hSetsize : c.setsize < 2 ^ 32)
    (hNbrsets : c.nbrsets ≤ nbrsets) (h : offlinePhase prg server c = .ok c') :
    NetClient.offlineQuery pb queries handler link passes c = .ok c' := by
  obtain ⟨q, hQuery, h⟩ := (bind_eq_ok_iff _ _ _).mp h
  obtain ⟨reply, hReply, hStored⟩ := (bind_eq_ok_iff _ _ _).mp h
  have hSame := hQuery
  rw [generateOfflineQuery_eq hWF.sets_length] at hSame
  cases hSame
  obtain ⟨hints, hHints, hEnd⟩ := (bind_eq_ok_iff _ _ _).mp hReply
  cases hEnd
  have hLength := (mapM_range_results hHints).1
  have hSets := hWF.sets_length
  have hKeyCount : (c.sets.map SetDesc.prfKey).length = c.nbrsets := (List.length_map _).trans hSets
  have hShiftCount : (c.sets.map SetDesc.shift).length = c.nbrsets := (List.length_map _).trans hSets
  have hStep := offlineQueryBaseline_eq hTransport hLink c hHandler (hShifts.offlineQuery_typed hCount hSetsize)
    (hKeyCount.trans_le hNbrsets) (hShiftCount.trans_le hNbrsets) hReply
    (hLength.trans_le hNbrsets) hCount
  rw [NetClient.offlineQuery, hQuery, mapError_ok, ok_bind, hStep, hStored]
  rfl

end Network

section Recovery
variable (prg : Prg) {pb : Protobuf (List UInt8)} {queries : MessageClass (List UInt8) Interface.Query} {passes : Nat}

/-- After the offline phase over the network every query that does not throw recovers its block over the
network, after any queries. -/
theorem netRecovery {n : Nat} (hPos : 1 ≤ n) (hLt : n < 2 ^ 31) {db : Database} (hDb : db.length = n)
    {setsize : Nat} (hSetsize : setsize < 2 ^ 32) (curQrySetno : Nat) {keys : List (Key × Nat)}
    (hKeys : keys.length < 2 ^ 32) (hShifts : ∀ t ∈ keys, t.2 < 2 ^ 32)
    (hTransport : Transport pb queries keys.length passes) {link : Link} (hLink : link.Reliable) :
    ∃ c, NetClient.offlineQuery pb queries (runHandler prg pb (setDatabase n db)) link passes
        (keyedClient n setsize curQrySetno keys) = .ok c ∧
      ∀ idxs idx c' q onlineLink, onlineLink.Reliable →
        (afterQueries prg c idxs).generateOnlineQuery prg idx = .ok (c', q) →
        ∃ blk, NetClient.onlineQuery pb queries (runHandler prg pb (setDatabase n db)) onlineLink passes c' q = .ok blk ∧
          elemAt db idx = .ok blk := by
  let c₀ := keyedClient n setsize curQrySetno keys
  have hWF : ClientWF c₀ := ⟨⟨hPos, hLt⟩, rfl, List.length_map ..⟩
  have hTyped : ShiftsTyped c₀ := keyedClient_shifts n setsize curQrySetno hShifts
  have hOffline := offlinePhase_eq prg hWF hDb (keyedClient_hints n setsize curQrySetno keys)
  refine ⟨_, offlineQuery_of_ok hTransport hLink (fun _ => rfl) hWF hTyped hKeys hSetsize
    (Nat.le_refl _) hOffline, ?_⟩
  intro idxs idx c' q onlineLink hOnline hQuery
  have hSame := afterQueries_sameSets prg (hinted_wf prg hWF db) idxs
  have hWF' := hSame.wf (hinted_wf prg hWF db)
  have hRange : (afterQueries prg (c₀.hinted prg db) idxs).dbrange = n := hSame.dbrange
  have hShifts' : ShiftsTyped (afterQueries prg (c₀.hinted prg db) idxs) := by
    intro d hd
    rw [hSame.sets] at hd
    obtain ⟨d₀, hd₀, rfl⟩ := List.mem_map.mp hd
    exact hTyped d₀ hd₀
  obtain ⟨s, i, d, hSet, rfl, hTyped, hLength, hReply, hIdx⟩ :=
    onlineQuery_answer hWF' (hDb.trans hRange.symm) hShifts' hQuery
  have hHint := hint_of_hinted prg (hSame.sets ▸ hSet)
  rw [hRange] at hReply
  refine ⟨blockAt db idx, ?_, elemAt_blockAt hIdx⟩
  rw [onlineQuery_eq hTransport hOnline _ (fun _ => rfl) hTyped hLength hReply, PIRClient.recoverBlock,
    elemAt_of_getElem? hSet, ok_bind, hHint]
  exact congrArg Except.ok ((BitVec.xor_comm _ _).trans (xor_xor_cancel_left _ _))

theorem netRecovery_five :
    ∃ c, NetClient.offlineQuery wireFormat queryFormat (runHandler countPrg wireFormat (setDatabase 5 [1, 2, 4, 8, 16]))
        piecesLink (2 ^ 31) (keyedClient 5 2 0 [(Vector.replicate 16 0, 4), (Vector.replicate 16 1, 0)]) = .ok c ∧
      ∀ idxs idx c' q onlineLink, onlineLink.Reliable →
        (afterQueries countPrg c idxs).generateOnlineQuery countPrg idx = .ok (c', q) →
        ∃ blk, NetClient.onlineQuery wireFormat queryFormat
            (runHandler countPrg wireFormat (setDatabase 5 [1, 2, 4, 8, 16])) onlineLink (2 ^ 31) c' q = .ok blk ∧
          elemAt ([1, 2, 4, 8, 16] : Database) idx = .ok blk := by
  have hShifts : ∀ t ∈ [((Vector.replicate 16 0 : Key), 4), (Vector.replicate 16 1, 0)], t.2 < 2 ^ 32 := by
    intro t ht
    rcases List.mem_pair.mp ht with rfl | rfl <;> decide
  have hTransport : Transport wireFormat queryFormat 2 (2 ^ 31) := wireTransport (by decide)
  exact @netRecovery countPrg wireFormat queryFormat (2 ^ 31) 5 (by decide) (by decide) [1, 2, 4, 8, 16] rfl 2 (by decide)
    0 [(Vector.replicate 16 0, 4), (Vector.replicate 16 1, 0)] (by decide) hShifts hTransport piecesLink
    piecesLink_reliable

end Recovery

structure NetRound.Reliable (r : NetRound) : Prop where
  onlineLink : r.onlineLink.Reliable
  refreshLink : r.refreshLink.Reliable

section Refresh
variable {prg : Prg} {pb : Protobuf (List UInt8)} {queries : MessageClass (List UInt8) Interface.Query}
  {nbrsets passes : Nat} (hTransport : Transport pb queries nbrsets passes) {n : Nat} {db : Database}
  (hDb : db.length = n)
include hTransport hDb

/-- A round that returns also returns over the network, with the same client and block. -/
theorem netRefreshRound_of_ok {c : PIRClient} (hWF : RefreshWF c) (hRange : c.dbrange = n) (hShifts : ShiftsTyped c)
    {r : NetRound} (hLinks : r.Reliable) {c' : PIRClient} {blk : Block}
    (h : refreshRound prg (setDatabase n db) c r.round = .ok (c', blk)) :
    netRefreshRound prg pb queries (setDatabase n db) passes c r = .ok (c', blk) := by
  subst hRange
  obtain ⟨⟨c₁, q⟩, hQuery, h⟩ := (bind_eq_ok_iff _ _ _).mp h
  obtain ⟨reply, hReply, h⟩ := (bind_eq_ok_iff _ _ _).mp h
  obtain ⟨out, hBlk, h⟩ := (bind_eq_ok_iff _ _ _).mp h
  obtain ⟨⟨c₂, q'⟩, hRefresh, h⟩ := (bind_eq_ok_iff _ _ _).mp h
  obtain ⟨reply', hReply', h⟩ := (bind_eq_ok_iff _ _ _).mp h
  obtain ⟨c₃, hStored, h⟩ := (bind_eq_ok_iff _ _ _).mp h
  cases h
  obtain ⟨s, i, d, hFound, hSet, rfl, rfl⟩ := (generateOnlineQuery_ok_iff prg hWF.toClientWF r.round.idx).mp hQuery
  obtain ⟨d', hSet', hi, hPoint⟩ := firstPoint_some prg hFound
  cases hSet.symm.trans hSet'
  have hIdx : r.round.idx < c.dbrange := by
    rw [← hPoint]
    exact point_lt prg hWF.size d i
  have hPos := hWF.size.pos
  have hLt := hWF.size.lt
  rw [generateRefreshQuery_eq prg hWF hIdx hSet] at hRefresh
  cases hRefresh
  have hFresh : (freshSet prg c.dbrange c.setsize r.round d.hint).shift < 2 ^ 32 :=
    (Nat.mod_lt _ hPos).trans (hLt.trans (by decide))
  have hFirst := onlineQuery_eq hTransport hLinks.onlineLink { c with puncX := i, curQrySetno := s } (fun _ => rfl : ∀ msg,
      runRefreshHandler prg pb (setDatabase c.dbrange db) ⟨.online, msg⟩ =
        onlineQueryHandler prg pb (setDatabase c.dbrange db) msg)
    (puncturedQuery_typed hWF.toClientWF hi (hShifts d (List.mem_of_getElem? hSet)))
    (puncturedQuery_keys hWF.toClientWF hi) hReply
  have hSecond := refreshQuery_eq hTransport hLinks.refreshLink
    { c with
      puncX := i
      curQrySetno := s
      sets := c.sets.set s (freshSet prg c.dbrange c.setsize r.round d.hint) }
    (fun _ => rfl : ∀ msg, runRefreshHandler prg pb (setDatabase c.dbrange db) ⟨.refresh, msg⟩ =
      onlineQueryHandler prg pb (setDatabase c.dbrange db) msg)
    (puncturedQuery_typed hWF.toClientWF hi hFresh) (puncturedQuery_keys hWF.toClientWF hi) blk hReply'
  simp only [netRefreshRound, hQuery, mapError_ok, ok_bind, hFirst, hBlk, generateRefreshQuery_eq prg hWF hIdx hSet,
    hSecond, hStored]

omit hTransport hDb in
theorem refreshed_shifts {c : PIRClient} (hWF : ClientWF c) (hShifts : ShiftsTyped c) (round : RefreshRound) (s i : Nat) :
    ShiftsTyped (c.refreshed prg db round s i) := by
  have hPos := hWF.size.pos
  have hLt := hWF.size.lt
  intro d hd
  rcases List.mem_or_eq_of_mem_set hd with hd | rfl
  · exact hShifts d hd
  · exact (Nat.mod_lt _ hPos).trans (hLt.trans (by decide))

/-- The client of a session over the network. -/
structure NetExact (prg : Prg) (n : Nat) (db : Database) (c : PIRClient) : Prop where
  exact : RefreshExact prg n db c
  shifts : ShiftsTyped c

/-- Every run of harmless rounds over the network recovers its blocks and keeps every hint exact. -/
theorem netRefresh_exact {c : PIRClient} (hStart : NetExact prg n db c) {rounds : List NetRound}
    (hMeets : Meets (netRefreshRound prg pb queries (setDatabase n db) passes)
      (fun c r => r.Reliable ∧ Harmless prg db c r.round) c rounds) :
    ∃ events, trace (netRefreshRound prg pb queries (setDatabase n db) passes) c rounds = .ok events ∧
      ∀ e ∈ events, HintsExact prg db e.after ∧ e.output = blockAt db e.input.round.idx := by
  obtain ⟨events, hTrace, hAll⟩ := @trace_of_invariant _ _ _ _
    (netRefreshRound prg pb queries (setDatabase n db) passes) _ (NetExact prg n db)
    (fun e => e.output = blockAt db e.input.round.idx)
    (by
      rintro c r hInv ⟨hLinks, s, i, hFound, hSame⟩
      obtain ⟨hRound, hs⟩ := refreshRound_ok prg hDb hInv.exact hFound
      exact ⟨_, _, netRefreshRound_of_ok hTransport hDb hInv.exact.toRefreshWF hInv.exact.dbrange hInv.shifts hLinks hRound,
        ⟨refreshed_exact prg hDb hInv.exact hs hSame,
          refreshed_shifts hInv.exact.toClientWF hInv.shifts r.round s i⟩, rfl⟩) _ hStart _ hMeets
  refine ⟨events, hTrace, ?_⟩
  intro e he
  exact ⟨(hAll e he).1.exact.exact, (hAll e he).2⟩

omit hTransport hDb in
theorem netRefresh_exact_four :
    ∃ events, trace (netRefreshRound countPrg wireFormat queryFormat (setDatabase 4 twinDb) (2 ^ 31)) countClient
        [⟨twinRound, piecesLink, piecesLink⟩, ⟨twinRound, piecesLink, piecesLink⟩] = .ok events ∧
      ∀ e ∈ events, HintsExact countPrg twinDb e.after ∧ e.output = blockAt twinDb e.input.round.idx := by
  have hTransport : Transport wireFormat queryFormat 1 (2 ^ 31) := wireTransport (by decide)
  have hWF : RefreshWF countClient := ⟨⟨⟨by decide, by decide⟩, rfl, rfl⟩, rfl⟩
  have hExact : RefreshExact countPrg 4 twinDb countClient := ⟨hWF, rfl, by decide +kernel⟩
  have hShifts : ShiftsTyped countClient := by
    intro d hd
    rw [List.mem_singleton.mp hd]
    decide
  have hLinks : NetRound.Reliable ⟨twinRound, piecesLink, piecesLink⟩ := ⟨piecesLink_reliable, piecesLink_reliable⟩
  have hRound := @netRefreshRound_of_ok countPrg wireFormat queryFormat 1 (2 ^ 31) hTransport 4 twinDb rfl
    countClient hWF rfl hShifts _ hLinks twinClient 2 twinRound_ok
  exact @netRefresh_exact countPrg wireFormat queryFormat 1 (2 ^ 31) hTransport 4 twinDb rfl countClient
    ⟨hExact, hShifts⟩ _ (@Meets.cons _ _ _ _ _ _ _ twinClient _ _ ⟨hLinks, twinRound_harmless⟩
      (congrArg (Except.map Prod.fst) hRound)
      ⟨⟨hLinks, 0, 1, by decide +kernel, by decide +kernel⟩, fun _ _ _ => trivial⟩)

end Refresh

end CkPir
