import IncPir.Ck.Points

/-! # Recovery without refresh

The offline phase stores the hint of every set; online queries change only the
record of the current query. Every query that finds its index recovers its
block, whatever was asked before.
-/

namespace CkPir
open IncPir (Key Block Database Fault elemAt storeAt u32 elemAt_of_getElem? modBy_of_pos blockAt elemAt_blockAt
  parityLoop_eq)
open LoopM XorFold
set_option autoImplicit false

variable (prg : Prg)

/-- The client after `set_parms` and some outcome of `generate_setkeys`. -/
def keyedClient (n setsize curQrySetno : Nat) (keys : List (Key × Nat)) : PIRClient :=
  PIRClient.setParms ⟨0, 0, 0, 0, 0, curQrySetno, keys.map fun t => ⟨t.1, t.2, 0⟩⟩ n setsize keys.length

def offlinePhase (server : PIRServer) (c : PIRClient) : Except Fault PIRClient := do
  let query ← c.generateOfflineQuery
  let reply ← server.generateOfflineReplyFast prg query
  c.updateLocalHints reply

/-- The client after online queries; a query that throws leaves it as it was. -/
def afterQueries (c : PIRClient) (idxs : List Nat) : PIRClient :=
  idxs.foldl (fun c idx =>
    match c.generateOnlineQuery prg idx with
    | .ok (c', _) => c'
    | .error _ => c) c

section Offline
variable {c : PIRClient}

theorem generateOfflineQuery_eq (h : c.sets.length = c.nbrsets) : c.generateOfflineQuery =
    .ok ⟨c.nbrsets, c.setsize, c.sets.map SetDesc.prfKey, c.sets.map SetDesc.shift⟩ := by
  have hSets : (List.range c.sets.length).mapM (fun i => elemAt c.sets i) = .ok (c.sets.map id) :=
    mapM_range_eq_map fun i hi => elemAt_of_getElem? (List.getElem?_eq_getElem hi)
  rw [PIRClient.generateOfflineQuery, ← h, hSets, ok_bind, List.map_id]

theorem generateOfflineReplyFast_eq {n : Nat} (hSize : SizeWF n) {db : Database} (hDb : db.length = n)
    {sets : List SetDesc} {nbrsets : Nat} (hLength : sets.length = nbrsets) (setsize : Nat) :
    (setDatabase n db).generateOfflineReplyFast prg
        ⟨nbrsets, setsize, sets.map SetDesc.prfKey, sets.map SetDesc.shift⟩ =
      .ok ⟨nbrsets, sets.map (setHint prg n db)⟩ := by
  subst hLength
  rw [PIRServer.generateOfflineReplyFast, mapM_range_eq_map (l := sets) (g := setHint prg n db)]
  · rfl
  · intro i hi
    have hSet := List.getElem?_eq_getElem hi
    have hKey : elemAt (sets.map SetDesc.prfKey) i = .ok sets[i].prfKey :=
      elemAt_of_getElem? (by rw [List.getElem?_map, hSet]; rfl)
    have hShift : elemAt (sets.map SetDesc.shift) i = .ok sets[i].shift :=
      elemAt_of_getElem? (by rw [List.getElem?_map, hSet]; rfl)
    have hStep : ∀ raw ∈ (List.range (setPoints n)).map (leafOf prg n sets[i].prfKey), ∀ hint : Block,
        (setDatabase n db).hintStep
          ⟨sets.length, setsize, sets.map SetDesc.prfKey, sets.map SetDesc.shift⟩ i hint raw =
        .ok (hint ^^^ blockAt db (u32 (raw + sets[i].shift) % n)) := by
      intro raw hRaw hint
      obtain ⟨x, -, rfl⟩ := List.mem_map.mp hRaw
      simp only [PIRServer.hintStep, setDatabase]
      rw [hShift, ok_bind, modBy_of_pos hSize.pos, ok_bind, blockAt_point prg hSize hDb, ok_bind]
      rfl
    rw [hKey, ok_bind, breadthEval_eq, ok_bind]
    refine (parityLoop_eq db hStep 0).trans ?_
    rw [List.map_map]
    exact congrArg Except.ok BitVec.zero_xor

theorem updateLoop_eq (sets : List SetDesc) (f : SetDesc → Block) {k : Nat} (hk : k ≤ sets.length) :
    (List.range k).foldlM (fun cur i => do
      let d ← elemAt cur i
      let hint ← elemAt (sets.map f) i
      storeAt cur i { d with hint := d.hint ^^^ hint }) sets =
    .ok ((sets.take k).map (fun d => { d with hint := d.hint ^^^ f d }) ++ sets.drop k) := by
  induction k with
  | zero => rfl
  | succ k ih =>
    have hLt : k < sets.length := by omega
    have hFront : ((sets.take k).map fun d => { d with hint := d.hint ^^^ f d }).length = k := by
      rw [List.length_map, List.length_take]
      omega
    have hDrop := List.drop_eq_getElem_cons hLt
    have hSet : ((sets.take k).map (fun d => { d with hint := d.hint ^^^ f d }) ++ sets.drop k)[k]? =
        some sets[k] := by
      rw [List.getElem?_append_right (by omega), hFront, Nat.sub_self, hDrop]
      rfl
    have hHint : elemAt (sets.map f) k = .ok (f sets[k]) :=
      elemAt_of_getElem? (by rw [List.getElem?_map, List.getElem?_eq_getElem hLt]; rfl)
    rw [List.range_succ, List.foldlM_append, ih (by omega), ok_bind, List.foldlM_cons,
      elemAt_of_getElem? hSet, ok_bind, hHint, ok_bind, storeAt, if_pos (by simp; omega), ok_bind,
      List.foldlM_nil, List.set_append_right _ _ (by omega), hFront, Nat.sub_self, hDrop,
      List.set_cons_zero, List.take_succ_eq_append_getElem hLt, List.map_append, List.append_assoc]
    rfl

def PIRClient.hinted (c : PIRClient) (db : Database) : PIRClient :=
  { c with sets := c.sets.map fun d => { d with hint := setHint prg c.dbrange db d } }

theorem hinted_wf (hWF : ClientWF c) (db : Database) : ClientWF (c.hinted prg db) :=
  ⟨hWF.size, hWF.lgn, (List.length_map ..).trans hWF.sets_length⟩

theorem hint_of_hinted {db : Database} {s : Nat} {d : SetDesc} (h : (c.hinted prg db).sets[s]? = some d) :
    d.hint = setHint prg c.dbrange db d := by
  obtain ⟨d', -, rfl⟩ := List.mem_map.mp (List.mem_of_getElem? h)
  rfl

theorem offlinePhase_eq (hWF : ClientWF c) {db : Database} (hDb : db.length = c.dbrange)
    (hZero : ∀ d ∈ c.sets, d.hint = 0) :
    offlinePhase prg (setDatabase c.dbrange db) c = .ok (c.hinted prg db) := by
  have hLength := Nat.le_of_eq hWF.sets_length
  have hLoop := updateLoop_eq c.sets (setHint prg c.dbrange db) (Nat.le_of_eq hWF.sets_length.symm)
  rw [List.take_of_length_le hLength, List.drop_of_length_le hLength, List.append_nil] at hLoop
  rw [offlinePhase, generateOfflineQuery_eq hWF.sets_length, ok_bind,
    generateOfflineReplyFast_eq prg hWF.size hDb hWF.sets_length, ok_bind, PIRClient.updateLocalHints,
    hLoop, ok_bind]
  refine congrArg (fun sets => Except.ok { c with sets := sets }) (List.map_congr_left ?_)
  intro d hd
  rw [hZero d hd]
  exact congrArg (SetDesc.mk d.prfKey d.shift) BitVec.zero_xor

end Offline

section Online

structure SameSets (c c' : PIRClient) : Prop where
  lgn : c'.lgn = c.lgn
  dbrange : c'.dbrange = c.dbrange
  nbrsets : c'.nbrsets = c.nbrsets
  sets : c'.sets = c.sets

theorem SameSets.wf {c c' : PIRClient} (h : SameSets c c') (hWF : ClientWF c) : ClientWF c' where
  size := h.dbrange ▸ hWF.size
  lgn := by rw [h.lgn, h.dbrange, hWF.lgn]
  sets_length := by rw [h.sets, h.nbrsets, hWF.sets_length]

theorem generateOnlineQuery_sameSets {c c' : PIRClient} {idx : Nat} {q : OnlineQuery} (hWF : ClientWF c)
    (h : c.generateOnlineQuery prg idx = .ok (c', q)) : SameSets c c' := by
  obtain ⟨s, i, d, -, -, rfl, -⟩ := (generateOnlineQuery_ok_iff prg hWF idx).mp h
  exact ⟨rfl, rfl, rfl, rfl⟩

theorem afterQueries_sameSets {c : PIRClient} (hWF : ClientWF c) (idxs : List Nat) :
    SameSets c (afterQueries prg c idxs) := by
  induction idxs generalizing c with
  | nil => exact ⟨rfl, rfl, rfl, rfl⟩
  | cons idx rest ih =>
    rw [afterQueries, List.foldl_cons]
    cases hQuery : c.generateOnlineQuery prg idx with
    | error e => exact ih hWF
    | ok out =>
      have hSame := generateOnlineQuery_sameSets prg hWF hQuery
      have hRest := ih (hSame.wf hWF)
      exact ⟨hRest.lgn.trans hSame.lgn, hRest.dbrange.trans hSame.dbrange,
        hRest.nbrsets.trans hSame.nbrsets, hRest.sets.trans hSame.sets⟩

/-- The recovered block is off by as much as the hint is. -/
theorem onlineReply_eq {c : PIRClient} (hWF : ClientWF c) {db : Database} (hDb : db.length = c.dbrange)
    {d : SetDesc} {s i : Nat} (hi : i < setPoints c.dbrange) (hSet : c.sets[s]? = some d) {blk : Block}
    (hBlk : blk = blockAt db (point prg c.dbrange d i) ^^^ (d.hint ^^^ setHint prg c.dbrange db d)) :
    ∃ reply, (setDatabase c.dbrange db).generateOnlineReply prg (c.puncturedQuery prg d i) = .ok reply ∧
      PIRClient.recoverBlock { c with puncX := i, curQrySetno := s } reply =
        .ok blk := by
  refine ⟨_, generateOnlineReply_eq prg hWF.size hDb hWF.lgn d hi, ?_⟩
  rw [PIRClient.recoverBlock, elemAt_of_getElem? hSet, ok_bind, hBlk]
  refine congrArg Except.ok ?_
  dsimp only
  ac_rfl

theorem onlineReply_recovers {c : PIRClient} (hWF : ClientWF c) {db : Database} (hDb : db.length = c.dbrange)
    {d : SetDesc} {s i : Nat} (hi : i < setPoints c.dbrange) (hSet : c.sets[s]? = some d)
    (hHint : d.hint = setHint prg c.dbrange db d) :
    ∃ reply, (setDatabase c.dbrange db).generateOnlineReply prg (c.puncturedQuery prg d i) = .ok reply ∧
      PIRClient.recoverBlock { c with puncX := i, curQrySetno := s } reply =
        .ok (blockAt db (point prg c.dbrange d i)) :=
  onlineReply_eq prg hWF hDb hi hSet (by rw [hHint, xor_xor_self])

end Online

/-- After the offline phase every query that does not throw recovers its block, after any queries. -/
theorem recovery {n : Nat} (hPos : 1 ≤ n) (hLt : n < 2 ^ 31) {db : Database} (hDb : db.length = n)
    (setsize curQrySetno : Nat) (keys : List (Key × Nat)) :
    ∃ c, offlinePhase prg (setDatabase n db) (keyedClient n setsize curQrySetno keys) = .ok c ∧
      ∀ idxs idx c' q, (afterQueries prg c idxs).generateOnlineQuery prg idx = .ok (c', q) →
        ∃ reply blk, (setDatabase n db).generateOnlineReply prg q = .ok reply ∧
          c'.recoverBlock reply = .ok blk ∧ elemAt db idx = .ok blk := by
  have hSize : SizeWF n := ⟨hPos, hLt⟩
  have hWF : ClientWF (keyedClient n setsize curQrySetno keys) := ⟨hSize, rfl, List.length_map ..⟩
  have hZero : ∀ d ∈ (keyedClient n setsize curQrySetno keys).sets, d.hint = 0 := by
    intro d hd
    obtain ⟨key, -, rfl⟩ := List.mem_map.mp hd
    rfl
  refine ⟨_, offlinePhase_eq prg hWF hDb hZero, ?_⟩
  intro idxs idx c' q hQuery
  have hSame := afterQueries_sameSets prg (hinted_wf prg hWF db) idxs
  have hWF' := hSame.wf (hinted_wf prg hWF db)
  have hRange : (afterQueries prg ((keyedClient n setsize curQrySetno keys).hinted prg db) idxs).dbrange = n :=
    hSame.dbrange
  obtain ⟨s, i, d, hFound, hSet, rfl, rfl⟩ := (generateOnlineQuery_ok_iff prg hWF' idx).mp hQuery
  obtain ⟨d', hSet', hi, hPoint⟩ := firstPoint_some prg hFound
  cases hSet.symm.trans hSet'
  have hHint := hint_of_hinted prg (by rw [← hSame.sets]; exact hSet)
  obtain ⟨reply, hReply, hBlk⟩ := onlineReply_recovers prg hWF' (hDb.trans hRange.symm) hi hSet
    (by rw [hRange]; exact hHint)
  have hIdx : idx < db.length := by
    rw [← hPoint, hDb, hRange]
    exact point_lt prg hSize d i
  rw [hRange] at hReply
  rw [hPoint] at hBlk
  exact ⟨reply, _, hReply, hBlk, elemAt_blockAt hIdx⟩

/-- Labels that collect the bits of their path in the last byte that the leaf value reads. -/
def countPrg : Prg := fun key => (key.set 7 (key[7] * 2), key.set 7 (key[7] * 2 + 1))

theorem recovery_five :
    ∃ c q reply, offlinePhase countPrg (setDatabase 5 [1, 2, 4, 8, 16])
        (keyedClient 5 2 0 [(Vector.replicate 16 0, 4), (Vector.replicate 16 1, 0)]) = .ok c ∧
      (afterQueries countPrg c [1, 4]).generateOnlineQuery countPrg 0 =
        .ok ({ c with puncX := 1, curQrySetno := 0 }, q) ∧
      (setDatabase 5 [1, 2, 4, 8, 16]).generateOnlineReply countPrg q = .ok reply ∧
      PIRClient.recoverBlock { c with puncX := 1, curQrySetno := 0 } reply = .ok 1 := by
  obtain ⟨c, hOffline, hAll⟩ := @recovery countPrg 5 (by decide) (by decide) [1, 2, 4, 8, 16] rfl 2 0
    [(Vector.replicate 16 0, 4), (Vector.replicate 16 1, 0)]
  have hComputed : offlinePhase countPrg (setDatabase 5 [1, 2, 4, 8, 16])
      (keyedClient 5 2 0 [(Vector.replicate 16 0, 4), (Vector.replicate 16 1, 0)]) =
        .ok ⟨2, 5, 2, 2, 0, 0, [⟨Vector.replicate 16 0, 4, 17⟩, ⟨Vector.replicate 16 1, 0, 3⟩]⟩ := by
    decide +kernel
  have hClient := Except.ok.inj (hOffline.symm.trans hComputed)
  have hQuery : (afterQueries countPrg c [1, 4]).generateOnlineQuery countPrg 0 =
      .ok ({ c with puncX := 1, curQrySetno := 0 },
        c.puncturedQuery countPrg ⟨Vector.replicate 16 0, 4, 17⟩ 1) := by
    rw [hClient]
    decide +kernel
  obtain ⟨reply, blk, hReply, hBlk, hDb⟩ := hAll [1, 4] 0 _ _ hQuery
  have hFirst : elemAt ([1, 2, 4, 8, 16] : Database) 0 = .ok 1 := by decide +kernel
  rw [Except.ok.inj (hDb.symm.trans hFirst)] at hBlk
  exact ⟨c, _, reply, hOffline, hQuery, hReply, hBlk⟩

end CkPir
