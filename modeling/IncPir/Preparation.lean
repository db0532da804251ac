import IncPir.Addition

/-! # Preparation

The constructor makes well-formed clients, and after the offline reply has been
folded into the parities every hint is exact.
-/

namespace IncPir
open LoopM XorFold
set_option autoImplicit false

def setupDesc (dbrange setsize : Nat) (sk : Nat → Key) (rand : Nat → Nat) (s : Nat) : SetDesc :=
  ⟨sk s, rand s % dbrange, [(dbrange, setsize)]⟩

def setupClient (dbrange setsize nbrsets : Nat) (mk : Key) (sk : Nat → Key) (rand : Nat → Nat) : PIRClient :=
  ⟨dbrange, setsize, nbrsets,
    ⟨(List.range nbrsets).map (setupDesc dbrange setsize sk rand), List.replicate nbrsets 0⟩, mk, 0, 0⟩

section Setup
variable {dbrange setsize : Nat} (nbrsets : Nat) (mk : Key) (sk : Nat → Key) (rand : Nat → Nat)
  (hPos : 1 ≤ setsize) (hLe : setsize ≤ dbrange)
include hPos hLe

theorem newPIRClient_eq :
    newPIRClient dbrange setsize nbrsets mk sk rand =
      .ok (setupClient dbrange setsize nbrsets mk sk rand) := by
  have hLoop : (List.range nbrsets).mapM (fun s => do
      let shift ← modBy (rand s) dbrange
      .ok ({ sk := sk s, shift := shift, aux := [(dbrange, setsize)] } : SetDesc)) =
        (.ok ((List.range nbrsets).map (setupDesc dbrange setsize sk rand)) : Except Fault _) := by
    apply mapM_eq_ok
    intro s _
    rw [modBy, if_neg (by omega), ok_bind]
    rfl
  rw [newPIRClient, hLoop, ok_bind]
  rfl

theorem setupClient_wf (hRange : dbrange ≤ 2 ^ 31) :
    ClientWF (setupClient dbrange setsize nbrsets mk sk rand) where
  setsize_pos := hPos
  setsize_le := hLe
  dbrange_le := hRange
  sets_length := by simp [setupClient]
  parities_length := List.length_replicate
  sets_wf := by
    intro d hd
    obtain ⟨s, -, rfl⟩ := List.mem_map.mp hd
    exact setWF_single _ _ hLe (Nat.mod_lt _ (by omega))

end Setup

/-- Offline query, offline reply and the first update of the parities. -/
def prepare (aes : Aes) (server : PIRServer) (c : PIRClient) : Except Fault PIRClient := do
  let qry ← c.generateOfflineQuery
  let reply ← server.generateOfflineReply aes qry
  c.updateParity reply

/-- The positions that the offline reply folds together for a set: those of a single slot. -/
def offlinePoints (aes : Aes) (dbrange setsize : Nat) (d : SetDesc) : List Nat :=
  (List.range setsize).map fun x => (prp aes d.sk dbrange x + d.shift) % dbrange

theorem offlinePoints_nodup (aes : Aes) {dbrange setsize : Nat} (d : SetDesc) (hLe : setsize ≤ dbrange)
    (hRange : dbrange < 2 ^ 32) : (offlinePoints aes dbrange setsize d).Nodup := by
  refine List.Nodup.map_on ?_ List.nodup_range
  intro x hx x' hx' hSame
  have hx := (List.mem_range.mp hx).trans_le hLe
  have hx' := (List.mem_range.mp hx').trans_le hLe
  have hPoint : prp aes d.sk dbrange x = prp aes d.sk dbrange x' := by
    rw [← @unshift_add dbrange d.shift _ (prp_lt aes d.sk hRange hx), hSame,
      unshift_add (prp_lt aes d.sk hRange hx')]
  exact prp_injective aes d.sk hRange hx hx' hPoint

theorem offlineParity_ok_setsize {aes : Aes} {server : PIRServer} {d : SetDesc} {parity : Block}
    (h : offlineParity aes server d = .ok parity) : server.setsize ≤ server.dbrange := by
  by_contra hTooLarge
  obtain ⟨acc, acc', hStep⟩ := foldlM_ok_step h (List.mem_range.mpr (Nat.lt_of_not_le hTooLarge))
  obtain ⟨y, hWalk, -⟩ := (bind_eq_ok_iff _ _ _).mp hStep
  rw [cycleWalk, if_pos (Nat.le_refl _)] at hWalk
  cases hWalk

section Offline
variable (aes : Aes) {server : PIRServer} (hLe : server.setsize ≤ server.dbrange)
  (hRange : server.dbrange < 2 ^ 32) (hDb : server.db.length = server.dbrange)
include hLe hRange hDb

theorem offlineParity_eq (d : SetDesc) :
    offlineParity aes server d =
      .ok (xorOver (blockAt server.db) (offlinePoints aes server.dbrange server.setsize d)) := by
  have hLoop : offlineParity aes server d =
      .ok (0 ^^^ xorOver (blockAt server.db) (offlinePoints aes server.dbrange server.setsize d)) := by
    apply parityLoop_eq
    intro x hx acc
    have hx' := List.mem_range.mp hx
    have hPoint : (prp aes d.sk server.dbrange x + d.shift) % server.dbrange < server.db.length := by
      rw [hDb]
      exact Nat.mod_lt _ (by omega)
    rw [cycleWalk_eq_prp aes d.sk hRange (by omega), ok_bind, elemAt_blockAt hPoint, ok_bind]
  rw [hLoop]
  exact congrArg Except.ok (BitVec.zero_xor ..)

theorem generateOfflineReply_eq {sets : List SetDesc} (hSets : sets.length = server.nbrsets) :
    server.generateOfflineReply aes ⟨sets⟩ =
      .ok ⟨sets.map fun d =>
        xorOver (blockAt server.db) (offlinePoints aes server.dbrange server.setsize d)⟩ := by
  have hLoop : (List.range sets.length).mapM (fun s => do
      let d ← elemAt sets s
      offlineParity aes server d) =
        (.ok (sets.map fun d =>
          xorOver (blockAt server.db) (offlinePoints aes server.dbrange server.setsize d)) :
          Except Fault _) := by
    apply mapM_range_eq_map
    intro s hs
    rw [elemAt_of_getElem? (List.getElem?_eq_getElem hs), ok_bind]
    exact offlineParity_eq aes hLe hRange hDb _
  rw [PIRServer.generateOfflineReply, ← hSets, hLoop, ok_bind]

end Offline

theorem generateOfflineQuery_eq {c : PIRClient} (hLength : c.localhints.sets.length = c.nbrsets) :
    c.generateOfflineQuery = .ok ⟨c.localhints.sets⟩ := by
  have hLoop : (List.range c.localhints.sets.length).mapM (fun s => elemAt c.localhints.sets s) =
      (.ok (c.localhints.sets.map id) : Except Fault _) := by
    apply mapM_range_eq_map
    intro s hs
    exact elemAt_of_getElem? (List.getElem?_eq_getElem hs)
  rw [PIRClient.generateOfflineQuery, ← hLength, hLoop, ok_bind, List.map_id]

/-- Preparation folds the parities over the offline points onto the hints the client has. -/
theorem prepare_eq (aes : Aes) {server : PIRServer} (hLe : server.setsize ≤ server.dbrange)
    (hRange : server.dbrange < 2 ^ 32) (hDb : server.db.length = server.dbrange) {c : PIRClient}
    (hSets : c.localhints.sets.length = c.nbrsets) (hParities : c.localhints.parities.length = c.nbrsets)
    (hNbrsets : server.nbrsets = c.nbrsets) :
    prepare aes server c = .ok (c.putParities (List.zipWith (· ^^^ ·) c.localhints.parities
      (c.localhints.sets.map fun d =>
        xorOver (blockAt server.db) (offlinePoints aes server.dbrange server.setsize d)))) := by
  have hReply := generateOfflineReply_eq aes hLe hRange hDb (hSets.trans hNbrsets.symm)
  rw [prepare, generateOfflineQuery_eq hSets, ok_bind, hReply, ok_bind]
  exact updateParity_eq hParities ((List.length_map _).trans hSets)

theorem setHint_single (aes : Aes) (db : Database) (mk : Key) {dbrange setsize : Nat} {d : SetDesc}
    (hAux : d.aux = [(dbrange, setsize)]) (hLe : setsize ≤ dbrange) (hRange : dbrange < 2 ^ 32) :
    setHint aes db mk d = xorOver (blockAt db) (offlinePoints aes dbrange setsize d) := by
  obtain ⟨sk, shift, aux⟩ := d
  subst hAux
  rw [setHint, expansion_single aes mk sk shift hRange hLe, offlinePoints]

section Prepared
variable (aes : Aes) {nbrsets : Nat} (mk : Key) (sk : Nat → Key) (rand : Nat → Nat) {server : PIRServer}
  (hPos : 1 ≤ server.setsize) (hLe : server.setsize ≤ server.dbrange)
  (hRange : server.dbrange ≤ 2 ^ 31) (hDb : server.db.length = server.dbrange)
include hPos hLe hRange hDb

theorem prepare_ok :
    ∃ c, prepare aes server (setupClient server.dbrange server.setsize server.nbrsets mk sk rand) =
        .ok c ∧
      ClientWF c ∧ c.dbrange = server.dbrange ∧ c.nbrsets = server.nbrsets ∧
      HintsExact aes server.db c := by
  let c₀ := setupClient server.dbrange server.setsize server.nbrsets mk sk rand
  have hWF : ClientWF c₀ := setupClient_wf _ mk sk rand hPos hLe hRange
  have hHints : (c₀.localhints.sets.map fun d =>
      xorOver (blockAt server.db) (offlinePoints aes server.dbrange server.setsize d)) =
        c₀.localhints.sets.map (setHint aes server.db mk) := by
    apply List.map_congr_left
    intro d hd
    obtain ⟨s, -, rfl⟩ := List.mem_map.mp hd
    exact (setHint_single aes server.db mk rfl hLe (by omega)).symm
  have hLength : (c₀.localhints.sets.map (setHint aes server.db mk)).length = c₀.nbrsets :=
    (List.length_map _).trans hWF.sets_length
  have hPrepare := @prepare_eq aes server hLe (by omega) hDb c₀ hWF.sets_length hWF.parities_length rfl
  have hZero : List.zipWith (· ^^^ ·) c₀.localhints.parities
      (c₀.localhints.sets.map (setHint aes server.db mk)) =
        c₀.localhints.sets.map (setHint aes server.db mk) := zipWith_zero_xor hLength
  rw [hHints, hZero] at hPrepare
  have hWF' := hWF.putParities hLength
  exact ⟨_, hPrepare, hWF', rfl, rfl, (hintsExact_iff aes server.db hWF').mpr rfl⟩

end Prepared

end IncPir
