import IncPir.Outcomes
import IncPir.Session

/-! # Redoing the setup

The offline reply expands every set as if it had one slot, and the client folds
the reply onto the hint it already has. A second setup is therefore right for
the sets whose hint happens to make up for both.
-/

namespace IncPir
open LoopM XorFold Runs
set_option autoImplicit false

/-- The part of well-formedness that every operation keeps, whatever it draws. -/
structure ClientShape (c : PIRClient) : Prop where
  sets_length : c.localhints.sets.length = c.nbrsets
  parities_length : c.localhints.parities.length = c.nbrsets

theorem newPIRClient_shape {dbrange setsize nbrsets : Nat} {mk : Key} {sk : Nat → Key} {rand : Nat → Nat}
    {c : PIRClient} (h : newPIRClient dbrange setsize nbrsets mk sk rand = .ok c) : ClientShape c := by
  obtain ⟨sets, hLength, -, rfl⟩ := newPIRClient_inv h
  exact ⟨hLength, List.length_replicate⟩

namespace ClientShape
variable {aes : Aes} {c c' : PIRClient} (h : ClientShape c)
include h

theorem batchedAdditionQuery {nbrAdd : Nat} {draw : AddDraw} {qry : UpdateQueryAdd}
    (hStep : c.batchedAdditionQuery nbrAdd draw = .ok (c', qry)) : ClientShape c' := by
  obtain ⟨pairs, hLength, -, rfl, -⟩ := batchedAdditionQuery_inv hStep
  refine ⟨?_, h.parities_length⟩
  rw [List.drop_of_length_le (Nat.le_of_eq h.sets_length), List.append_nil, List.length_map]
  exact hLength

theorem updateParity {reply : OfflineReply} (hStep : c.updateParity reply = .ok c') : ClientShape c' := by
  obtain ⟨parities, hLength, -, rfl⟩ := updateParity_inv hStep
  refine ⟨h.sets_length, ?_⟩
  rw [List.drop_of_length_le (Nat.le_of_eq h.parities_length), List.append_nil]
  exact hLength

theorem generateOnlineQuery {idx : Nat} {draw : RemoveDraw} {qry : OnlineQuery}
    (hStep : c.generateOnlineQuery aes idx draw = .ok (c', qry)) : ClientShape c' := by
  obtain ⟨setno, rfl⟩ := generateOnlineQuery_inv hStep
  exact ⟨h.sets_length, h.parities_length⟩

theorem queryRecov {reply : OnlineReply} {blk : Block} (hStep : c.queryRecov reply = .ok (c', blk)) :
    ClientShape c' := by
  obtain rfl := queryRecov_inv hStep
  exact ⟨h.sets_length, h.parities_length⟩

theorem generateRefreshQuery {idx : Nat} {draw : RefreshDraw} {qry : OnlineQuery}
    (hStep : c.generateRefreshQuery aes idx draw = .ok (c', qry)) : ClientShape c' := by
  obtain ⟨-, r, y, -, -, rfl⟩ := generateRefreshQuery_inv hStep
  exact ⟨(List.length_set ..).trans h.sets_length, h.parities_length⟩

theorem refreshRecov {reply : OnlineReply} (hStep : c.refreshRecov reply = .ok c') : ClientShape c' := by
  obtain ⟨-, rfl⟩ := refreshRecov_inv hStep
  exact ⟨h.sets_length, (List.length_set ..).trans h.parities_length⟩

theorem prepare {server : PIRServer} (hStep : prepare aes server c = .ok c') : ClientShape c' := by
  obtain ⟨qry, -, hStep⟩ := (bind_eq_ok_iff _ _ _).mp hStep
  obtain ⟨reply, -, hStep⟩ := (bind_eq_ok_iff _ _ _).mp hStep
  exact h.updateParity hStep

theorem additionRound {server server' : PIRServer} {v : List Block} {draw : AddDraw}
    (hStep : additionRound aes server c v draw = .ok (server', c')) : ClientShape c' := by
  obtain ⟨grown, -, hStep⟩ := (bind_eq_ok_iff _ _ _).mp hStep
  obtain ⟨⟨c₁, qry⟩, hQuery, hStep⟩ := (bind_eq_ok_iff _ _ _).mp hStep
  obtain ⟨reply, -, hStep⟩ := (bind_eq_ok_iff _ _ _).mp hStep
  obtain ⟨c₂, hUpdate, hStep⟩ := (bind_eq_ok_iff _ _ _).mp hStep
  cases hStep
  exact (h.batchedAdditionQuery hQuery).updateParity hUpdate

theorem queryRound {server : PIRServer} {idx : Nat} {draw : RemoveDraw} {refresh : RefreshDraw} {blk : Block}
    (hStep : queryRound aes server c idx draw refresh = .ok (c', blk)) : ClientShape c' := by
  obtain ⟨⟨c₂, blk'⟩, hFetch, hStep⟩ := (bind_eq_ok_iff _ _ _).mp hStep
  obtain ⟨c₄, hRefresh, hStep⟩ := (bind_eq_ok_iff _ _ _).mp hStep
  cases hStep
  obtain ⟨⟨c₁, qry⟩, hOnline, hFetch⟩ := (bind_eq_ok_iff _ _ _).mp hFetch
  obtain ⟨reply, -, hRecov⟩ := (bind_eq_ok_iff _ _ _).mp hFetch
  obtain ⟨⟨c₃, qry'⟩, hFresh, hRefresh⟩ := (bind_eq_ok_iff _ _ _).mp hRefresh
  obtain ⟨reply', -, hStore⟩ := (bind_eq_ok_iff _ _ _).mp hRefresh
  exact (((h.generateOnlineQuery hOnline).queryRecov hRecov).generateRefreshQuery hFresh).refreshRecov hStore

end ClientShape

theorem sessionStep_shape {aes : Aes} {s s' : Session} {round : Round} {blk : Option Block}
    (h : ClientShape s.client) (hStep : sessionStep aes s round = .ok (s', blk)) :
    ClientShape s'.client := by
  cases round with
  | addition blocks draw =>
    obtain ⟨⟨server, c⟩, hRound, hStep⟩ := (bind_eq_ok_iff _ _ _).mp hStep
    cases hStep
    exact h.additionRound hRound
  | query idx draw refresh =>
    obtain ⟨⟨c, out⟩, hRound, hStep⟩ := (bind_eq_ok_iff _ _ _).mp hStep
    cases hStep
    exact h.queryRound hRound

section Redo
variable (aes : Aes) (server : PIRServer) (c : PIRClient)

/-- What a second setup is to achieve. -/
def ResetupExact : Prop := ∃ c', prepare aes server c = .ok c' ∧ HintsExact aes server.db c'

/-- The hint of set `i` makes up for what the second reply adds to it in this database. -/
def Redoable (i : Nat) : Prop :=
  ∃ d old tmp, c.localhints.sets[i]? = some d ∧ c.localhints.parities[i]? = some old ∧
    expandSet aes c.mk c.dbrange d = .ok tmp ∧
    old = xorOver (blockAt server.db) tmp.elems ^^^
      xorOver (blockAt server.db) (offlinePoints aes server.dbrange server.setsize d)

/-- Set `i` has the hint of a set not yet prepared, and its own slots list the same indices of the
database as one slot over the whole range. -/
def Unprepared (i : Nat) : Prop :=
  server.setsize ≤ server.dbrange ∧ ∃ d tmp, c.localhints.sets[i]? = some d ∧
    c.localhints.parities[i]? = some 0 ∧ expandSet aes c.mk c.dbrange d = .ok tmp ∧
    ∀ j < server.dbrange, j ∈ tmp.elems ↔ j ∈ offlinePoints aes server.dbrange server.setsize d

variable {aes server c}

section Databases
variable (hLe : server.setsize ≤ server.dbrange) (hType : server.dbrange < 2 ^ 32)
include hLe hType

omit hLe hType in
theorem blockAt_of_le {db : Database} {j : Nat} (h : db.length ≤ j) : blockAt db j = 0 :=
  List.getD_eq_default _ _ h

theorem redoable_iff_of_same (hDb : server.db.length = server.dbrange) {i : Nat} {d : SetDesc}
    (hSet : c.localhints.sets[i]? = some d) {tmp : OrdSet Nat} (hTmp : expandSet aes c.mk c.dbrange d = .ok tmp)
    (hSame : ∀ j < server.dbrange, j ∈ tmp.elems ↔ j ∈ offlinePoints aes server.dbrange server.setsize d) :
    Redoable aes server c i ↔ c.localhints.parities[i]? = some 0 := by
  have hFold : xorOver (blockAt server.db) tmp.elems =
      xorOver (blockAt server.db) (offlinePoints aes server.dbrange server.setsize d) := by
    refine xorOver_congr_mem tmp.nodup (offlinePoints_nodup aes d hLe hType) ?_
    intro j hj
    refine hSame j ?_
    by_contra hOut
    exact hj (blockAt_of_le (by omega))
  constructor
  · rintro ⟨d', old, tmp', hSet', hParity, hTmp', hOld⟩
    obtain rfl := Option.some.inj (hSet.symm.trans hSet')
    obtain rfl := Except.ok.inj (hTmp.symm.trans hTmp')
    rw [hFold, BitVec.xor_self] at hOld
    rwa [hOld] at hParity
  · intro hParity
    refine ⟨d, 0, tmp, hSet, hParity, hTmp, ?_⟩
    rw [hFold]
    exact BitVec.xor_self.symm

omit hLe in
theorem Unprepared.redoable {i : Nat} (h : Unprepared aes server c i)
    (hDb : server.db.length = server.dbrange) : Redoable aes server c i := by
  obtain ⟨hLe, d, tmp, hSet, hParity, hTmp, hSame⟩ := h
  exact (redoable_iff_of_same hLe hType hDb hSet hTmp hSame).mpr hParity

/-- The database of `n` blocks in which only block `j` is not zero. -/
def unitDb (n j : Nat) : Database :=
  (List.range n).map fun i => if i = j then BitVec.ofNat BlockLen 1 else BitVec.ofNat BlockLen 0

omit hLe hType in
theorem blockAt_unitDb {n j : Nat} (hj : j < n) :
    blockAt (unitDb n j) = fun i => if i = j then BitVec.ofNat BlockLen 1 else BitVec.ofNat BlockLen 0 := by
  funext i
  by_cases hi : i < n
  · rw [blockAt, unitDb, List.getD_eq_getElem?_getD, List.getElem?_map, List.getElem?_range hi]
    rfl
  · rw [blockAt_of_le (by rw [unitDb, List.length_map, List.length_range]; omega), if_neg (by omega)]
    rfl

/-- The zero database shows the hint, and the database with block `j` alone whether both list `j`. -/
theorem unprepared_of_redoable {i : Nat}
    (h : ∀ db : Database, db.length = server.dbrange → Redoable aes { server with db := db } c i) :
    Unprepared aes server c i := by
  have hUnit : ∀ j, (unitDb server.dbrange j).length = server.dbrange := fun j => by
    rw [unitDb, List.length_map, List.length_range]
  obtain ⟨d, old, tmp, hSet, hParity, hTmp, hOld⟩ := h (List.replicate server.dbrange 0) List.length_replicate
  have hZero : blockAt (List.replicate server.dbrange 0) = fun _ => BitVec.ofNat BlockLen 0 := by
    funext j
    rw [blockAt, List.getD_eq_getElem?_getD, List.getElem?_replicate]
    split <;> rfl
  rw [hZero] at hOld
  obtain rfl : old = 0 := by
    rw [hOld, xorOver_zero, xorOver_zero, BitVec.xor_self]
    rfl
  refine ⟨hLe, d, tmp, hSet, hParity, hTmp, ?_⟩
  intro j hj
  obtain ⟨d', old', tmp', hSet', hParity', hTmp', hOld'⟩ := h (unitDb server.dbrange j) (hUnit j)
  obtain rfl := Option.some.inj (hSet.symm.trans hSet')
  obtain rfl := Option.some.inj (hParity.symm.trans hParity')
  obtain rfl := Except.ok.inj (hTmp.symm.trans hTmp')
  rw [blockAt_unitDb hj, xorOver_indicator (BitVec.ofNat BlockLen 1) tmp.nodup,
    xorOver_indicator (BitVec.ofNat BlockLen 1) (offlinePoints_nodup aes d hLe hType)] at hOld'
  have hOne : BitVec.ofNat BlockLen 1 ≠ BitVec.ofNat BlockLen 0 := fun hEq => by cases BitVec.one_eq_zero_iff.mp hEq
  constructor
  · intro hOwn
    by_contra hFlat
    rw [if_pos hOwn, if_neg hFlat] at hOld'
    exact hOne ((hOld'.trans BitVec.xor_zero).symm)
  · intro hFlat
    by_contra hOwn
    rw [if_pos hFlat, if_neg hOwn] at hOld'
    exact hOne ((hOld'.trans BitVec.zero_xor).symm)

end Databases

/-- Without additions since its last refresh a set is still one slot over the whole range. -/
theorem redoable_single_iff (hLe : server.setsize ≤ server.dbrange) (hRange : server.dbrange ≤ 2 ^ 31)
    (hDb : server.db.length = server.dbrange) (hSame : c.dbrange = server.dbrange) {i : Nat} {d : SetDesc}
    (hSet : c.localhints.sets[i]? = some d) (hAux : d.aux = [(server.dbrange, server.setsize)])
    (hShift : d.shift < server.dbrange) :
    Redoable aes server c i ↔ c.localhints.parities[i]? = some 0 := by
  obtain ⟨sk, shift, aux⟩ := d
  obtain rfl : aux = [(server.dbrange, server.setsize)] := hAux
  have hExpand := expandSet_eq aes c.mk (setWF_single sk shift hLe hShift) hRange
  rw [← congrArg (expandSet aes c.mk · _) hSame] at hExpand
  refine redoable_iff_of_same hLe (by omega) hDb hSet hExpand ?_
  intro j hj
  rw [OrdSet.mem_ofList, expansion_single aes c.mk sk shift (by omega) hLe]
  rfl

theorem prepare_ok_setsize {c' : PIRClient} (hSets : server.nbrsets = c.nbrsets) (hPos : 0 < c.nbrsets)
    (h : prepare aes server c = .ok c') : server.setsize ≤ server.dbrange := by
  obtain ⟨qry, -, h⟩ := (bind_eq_ok_iff _ _ _).mp h
  obtain ⟨reply, hReply, -⟩ := (bind_eq_ok_iff _ _ _).mp h
  obtain ⟨parities, hParities, -⟩ := (bind_eq_ok_iff _ _ _).mp hReply
  obtain ⟨hLength, hAll⟩ := mapM_range_results hParities
  have hFirst : 0 < parities.length := by omega
  obtain ⟨d, -, hParity⟩ := (bind_eq_ok_iff _ _ _).mp (hAll 0 _ (List.getElem?_eq_getElem hFirst))
  exact offlineParity_ok_setsize hParity

section Shaped
variable (hShape : ClientShape c) (hSets : server.nbrsets = c.nbrsets) (hType : server.dbrange < 2 ^ 32)
  (hDb : server.db.length = server.dbrange)
include hShape hSets hType hDb

theorem hintExact_redone_iff (hLe : server.setsize ≤ server.dbrange) {c' : PIRClient}
    (hPrepare : prepare aes server c = .ok c') (i : Nat) :
    HintExact aes server.db c' i ↔ Redoable aes server c i := by
  rw [prepare_eq aes hLe hType hDb hShape.sets_length hShape.parities_length hSets] at hPrepare
  obtain rfl := Except.ok.inj hPrepare
  constructor
  · rintro ⟨d, h, tmp, hSet, hParity, hTmp, rfl⟩
    obtain ⟨old, diff, hOld, hDiff, hXor⟩ := List.getElem?_zipWith_eq_some.mp hParity
    obtain rfl := Option.some.inj (hDiff.symm.trans ((List.getElem?_map ..).trans (congrArg _ hSet)))
    exact ⟨d, old, tmp, hSet, hOld, hTmp, (xor_eq_iff_eq_xor _ _ _).mp hXor⟩
  · rintro ⟨d, old, tmp, hSet, hOld, hTmp, hEq⟩
    refine ⟨d, _, tmp, hSet, ?_, hTmp, rfl⟩
    refine List.getElem?_zipWith_eq_some.mpr ⟨old, _, hOld, ?_, (xor_eq_iff_eq_xor _ _ _).mpr hEq⟩
    rw [List.getElem?_map, hSet]
    rfl

theorem resetupExact_iff : ResetupExact aes server c ↔
    ∀ i < c.nbrsets, server.setsize ≤ server.dbrange ∧ Redoable aes server c i := by
  constructor
  · rintro ⟨c', hPrepare, hExact⟩ i hi
    have hLe := prepare_ok_setsize hSets (Nat.zero_lt_of_lt hi) hPrepare
    have hSame : c'.nbrsets = c.nbrsets := by
      obtain ⟨qry, -, hPrepare⟩ := (bind_eq_ok_iff _ _ _).mp hPrepare
      obtain ⟨reply, -, hPrepare⟩ := (bind_eq_ok_iff _ _ _).mp hPrepare
      obtain ⟨parities, -, -, rfl⟩ := updateParity_inv hPrepare
      rfl
    exact ⟨hLe, (hintExact_redone_iff hShape hSets hType hDb hLe hPrepare i).mp (hExact i (hSame ▸ hi))⟩
  · intro hAll
    by_cases hLe : server.setsize ≤ server.dbrange
    · have hPrepare := prepare_eq aes hLe hType hDb hShape.sets_length hShape.parities_length hSets
      exact ⟨_, hPrepare, fun i hi =>
        (hintExact_redone_iff hShape hSets hType hDb hLe hPrepare i).mpr (hAll i hi).2⟩
    · -- without sets no position is evaluated, and the setup returns
      have hNone : c.nbrsets = 0 := by
        by_contra hSome
        exact hLe (hAll 0 (Nat.pos_of_ne_zero hSome)).1
      have hUpdate := @updateParity_eq c hShape.parities_length ⟨[]⟩ hNone.symm
      have hRedone : prepare aes server c =
          .ok (c.putParities (List.zipWith (· ^^^ ·) c.localhints.parities [])) := by
        rw [prepare, generateOfflineQuery_eq hShape.sets_length, ok_bind, PIRServer.generateOfflineReply, hSets,
          hNone]
        exact hUpdate
      exact ⟨_, hRedone, fun i (hi : i < c.nbrsets) => absurd hi (by omega)⟩

theorem resetupExact_of_unprepared (hAll : ∀ i < c.nbrsets, Unprepared aes server c i) :
    ResetupExact aes server c :=
  (resetupExact_iff hShape hSets hType hDb).mpr fun i hi => ⟨(hAll i hi).1, (hAll i hi).redoable hType hDb⟩

omit hDb in
theorem resetupExact_forall_iff :
    (∀ db : Database, db.length = server.dbrange → ResetupExact aes { server with db := db } c) ↔
      ∀ i < c.nbrsets, Unprepared aes server c i := by
  constructor
  · intro hAll i hi
    have hRedo (db : Database) (hLength : db.length = server.dbrange) :=
      (@resetupExact_iff aes { server with db := db } c hShape hSets hType hLength).mp (hAll db hLength) i hi
    have hLe := (hRedo (List.replicate server.dbrange 0) List.length_replicate).1
    exact unprepared_of_redoable hLe hType fun db hLength => (hRedo db hLength).2
  · intro hAll db hLength
    exact @resetupExact_of_unprepared aes { server with db := db } c hShape hSets hType hLength hAll

omit hType in
theorem resetupExact_single_iff (hLe : server.setsize ≤ server.dbrange) (hRange : server.dbrange ≤ 2 ^ 31)
    (hSame : c.dbrange = server.dbrange)
    (hSingle : ∀ d ∈ c.localhints.sets, d.aux = [(server.dbrange, server.setsize)] ∧ d.shift < server.dbrange) :
    ResetupExact aes server c ↔ ∀ i < c.nbrsets, c.localhints.parities[i]? = some 0 := by
  rw [resetupExact_iff hShape hSets (by omega) hDb]
  refine forall₂_congr ?_
  intro i hi
  have hSet := List.getElem?_eq_getElem (hi.trans_eq hShape.sets_length.symm)
  obtain ⟨hAux, hShift⟩ := hSingle _ (List.mem_of_getElem? hSet)
  rw [redoable_single_iff hLe hRange hDb hSame hSet hAux hShift]
  exact and_iff_right hLe

end Shaped

end Redo

/-- In every state of every run, a second setup leaves every hint exact if every hint is zero and every
set lists the indices of one slot over the whole range. It is exact whatever the blocks of the database are
only then, and in a client whose sets all are one slot over the whole range only if every hint is zero. -/
theorem resetup_exact {aes : Aes} {dbrange setsize nbrsets : Nat} {mk : Key} {sk : Nat → Key}
    {rand : Nat → Nat} {c₀ c₁ : PIRClient} (hNew : newPIRClient dbrange setsize nbrsets mk sk rand = .ok c₀)
    {first : PIRServer} (hPrepare : prepare aes first c₀ = .ok c₁) {rounds : List Round}
    {events : List (Event Session Round (Option Block))}
    (hTrace : trace (sessionStep aes) ⟨first, c₁⟩ rounds = .ok events) {s : Session}
    (hReached : s = ⟨first, c₁⟩ ∨ ∃ e ∈ events, s = e.after) {server : PIRServer}
    (hNbrsets : server.nbrsets = s.client.nbrsets) (hType : server.dbrange < 2 ^ 32)
    (hDb : server.db.length = server.dbrange) :
    ((∀ i < s.client.nbrsets, Unprepared aes server s.client i) → ResetupExact aes server s.client) ∧
      ((∀ db : Database, db.length = server.dbrange → ResetupExact aes { server with db := db } s.client) ↔
        ∀ i < s.client.nbrsets, Unprepared aes server s.client i) ∧
      (server.setsize ≤ server.dbrange → server.dbrange ≤ 2 ^ 31 → s.client.dbrange = server.dbrange →
        (∀ d ∈ s.client.localhints.sets,
          d.aux = [(server.dbrange, server.setsize)] ∧ d.shift < server.dbrange) →
        (ResetupExact aes server s.client ↔
          ∀ i < s.client.nbrsets, s.client.localhints.parities[i]? = some 0)) := by
  have hStart : ClientShape c₁ := (newPIRClient_shape hNew).prepare hPrepare
  have hShape : ClientShape s.client := by
    rcases hReached with rfl | ⟨e, he, rfl⟩
    · exact hStart
    · obtain ⟨k, hk⟩ := List.getElem?_of_mem he
      exact @trace_history _ _ _ _ (sessionStep aes) (fun _ s => ClientShape s.client)
        (fun _ _ _ _ _ h hStep => sessionStep_shape h hStep) [] _ _ hStart _ hTrace _ _ hk
  exact ⟨resetupExact_of_unprepared hShape hNbrsets hType hDb, resetupExact_forall_iff hShape hNbrsets hType,
    fun hLe hRange hSame => resetupExact_single_iff hShape hNbrsets hDb hLe hRange hSame⟩

section Refreshed

/-- A client with one set, of the indices 0 and 1, after its preparation with three equal blocks. -/
def preparedTriple : PIRClient :=
  ⟨3, 2, 1, ⟨[⟨Vector.replicate 16 0, 1, [(3, 2)]⟩], [0]⟩, Vector.replicate 16 1, 0, 0⟩

/-- The same client after the query for index 0 and a refresh to the indices 0 and 2. -/
def refreshedTriple : PIRClient :=
  ⟨3, 2, 1, ⟨[⟨Vector.replicate 16 2, 0, [(3, 2)]⟩], [0]⟩, Vector.replicate 16 1, 0, 5⟩

theorem resetup_exact_refreshed : ResetupExact (fun key _ => key) ⟨3, 2, 1, [5, 5, 5]⟩ refreshedTriple ∧
    (∀ db : Database, db.length = 3 → ResetupExact (fun key _ => key) ⟨3, 2, 1, db⟩ refreshedTriple) ∧
      ∀ i < 1, refreshedTriple.localhints.parities[i]? = some 0 := by
  let round : Round := .query 0 ⟨false, 0⟩ ⟨Vector.replicate 16 2, 0, ⟨false, 0⟩⟩
  have hStep : sessionStep (fun key _ => key) ⟨⟨3, 2, 1, [5, 5, 5]⟩, preparedTriple⟩ round =
      .ok (⟨⟨3, 2, 1, [5, 5, 5]⟩, refreshedTriple⟩, some 5) := by decide +kernel
  have hTrace : trace (sessionStep fun key _ => key) ⟨⟨3, 2, 1, [5, 5, 5]⟩, preparedTriple⟩ [round] =
      .ok [⟨⟨⟨3, 2, 1, [5, 5, 5]⟩, preparedTriple⟩, round, some 5, ⟨⟨3, 2, 1, [5, 5, 5]⟩, refreshedTriple⟩⟩] := by
    rw [trace, hStep]
    rfl
  obtain ⟨hSufficient, hForall, hSingle⟩ := @resetup_exact (fun key _ => key) 3 2 1 (Vector.replicate 16 1)
    (fun _ => Vector.replicate 16 0) (fun _ => 1) preparedTriple preparedTriple (by decide +kernel)
    ⟨3, 2, 1, [5, 5, 5]⟩ (by decide +kernel) _ _ hTrace ⟨⟨3, 2, 1, [5, 5, 5]⟩, refreshedTriple⟩
    (.inr ⟨_, List.mem_cons_self, rfl⟩) ⟨3, 2, 1, [5, 5, 5]⟩ rfl (by decide) rfl
  have hUnprepared : ∀ i < 1, Unprepared (fun key _ => key) ⟨3, 2, 1, [5, 5, 5]⟩ refreshedTriple i := by
    intro i hi
    obtain rfl : i = 0 := by omega
    exact ⟨by decide, _, ⟨[0, 2], by decide⟩, rfl, rfl, by decide +kernel, by decide +kernel⟩
  have hExact := hSufficient hUnprepared
  exact ⟨hExact, hForall.mpr hUnprepared,
    (hSingle (by decide) (by decide) rfl (by decide)).mp hExact⟩

end Refreshed

section Growth

/-- A client with one set, of both indices, after its preparation with the blocks 5 and 7. -/
def preparedPair : PIRClient :=
  ⟨2, 2, 1, ⟨[⟨Vector.replicate 16 0, 1, [(2, 2)]⟩], [2]⟩, Vector.replicate 16 1, 0, 0⟩

/-- The same client after block 9 has replaced the first index of its set. -/
def grownClient : PIRClient :=
  ⟨3, 2, 1, ⟨[⟨Vector.replicate 16 0, 1, [(2, 1), (1, 1)]⟩], [14]⟩, Vector.replicate 16 1, 0, 0⟩

def growth : Round := .addition [9] ⟨fun _ _ => 0, fun _ _ => true, fun _ _ => 0⟩

theorem newPIRClient_pair :
    newPIRClient 2 2 1 (Vector.replicate 16 1) (fun _ => Vector.replicate 16 0) (fun _ => 1) =
      .ok { preparedPair with localhints := ⟨preparedPair.localhints.sets, [0]⟩ } := by decide +kernel

theorem prepare_pair : prepare (fun key _ => key) ⟨2, 2, 1, [5, 7]⟩
    { preparedPair with localhints := ⟨preparedPair.localhints.sets, [0]⟩ } = .ok preparedPair := by decide +kernel

theorem trace_growth : trace (sessionStep fun key _ => key) ⟨⟨2, 2, 1, [5, 7]⟩, preparedPair⟩ [growth] =
    .ok [⟨⟨⟨2, 2, 1, [5, 7]⟩, preparedPair⟩, growth, none, ⟨⟨3, 2, 1, [5, 7, 9]⟩, grownClient⟩⟩] := by
  have hStep : sessionStep (fun key _ => key) ⟨⟨2, 2, 1, [5, 7]⟩, preparedPair⟩ growth =
      .ok (⟨⟨3, 2, 1, [5, 7, 9]⟩, grownClient⟩, none) := by decide +kernel
  rw [trace, hStep]
  rfl

/-- The second setup folds blocks 5 and 7 onto the exact hint 14, which leaves 12. -/
theorem resetup_not_exact :
    newPIRClient 2 2 1 (Vector.replicate 16 1) (fun _ => Vector.replicate 16 0) (fun _ => 1) =
        .ok { preparedPair with localhints := ⟨preparedPair.localhints.sets, [0]⟩ } ∧
      prepare (fun key _ => key) ⟨2, 2, 1, [5, 7]⟩
        { preparedPair with localhints := ⟨preparedPair.localhints.sets, [0]⟩ } = .ok preparedPair ∧
      trace (sessionStep fun key _ => key) ⟨⟨2, 2, 1, [5, 7]⟩, preparedPair⟩ [growth] =
        .ok [⟨⟨⟨2, 2, 1, [5, 7]⟩, preparedPair⟩, growth, none, ⟨⟨3, 2, 1, [5, 7, 9]⟩, grownClient⟩⟩] ∧
      HintsExact (fun key _ => key) [5, 7, 9] grownClient ∧
      prepare (fun key _ => key) ⟨3, 2, 1, [5, 7, 9]⟩ grownClient = .ok (grownClient.putParities [12]) ∧
      ¬ ResetupExact (fun key _ => key) ⟨3, 2, 1, [5, 7, 9]⟩ grownClient := by
  have hRedone : prepare (fun key _ => key) ⟨3, 2, 1, [5, 7, 9]⟩ grownClient =
      .ok (grownClient.putParities [12]) := by decide +kernel
  refine ⟨newPIRClient_pair, prepare_pair, trace_growth, by decide +kernel, hRedone, ?_⟩
  rintro ⟨c', hPrepare, hExact⟩
  obtain rfl := Except.ok.inj (hRedone.symm.trans hPrepare)
  have hWrong : ¬ HintsExact (fun key _ => key) [5, 7, 9] (grownClient.putParities [12]) := by
    decide +kernel
  exact hWrong hExact

end Growth

end IncPir
