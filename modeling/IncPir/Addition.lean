import IncPir.KickLoop

/-! # One batched addition

When no slot is overdrawn the client's message follows the contract of
`DiffSetDesc`, the server answers it with the differences of the exact hints,
and the new descriptors are genuine for the larger database.
-/

namespace IncPir
open LoopM XorFold
set_option autoImplicit false

def PIRClient.sampled (c : PIRClient) (nbrAdd : Nat) (draw : AddDraw) (s : Nat) : Nat :=
  sampledCount c.setsize nbrAdd (draw.rand · s) (draw.coin · s)

def PIRClient.Undrained (c : PIRClient) (nbrAdd : Nat) (draw : AddDraw) : Prop :=
  ∀ s d, c.localhints.sets[s]? = some d → NoOverdraw d.aux (draw.fall s) (c.sampled nbrAdd draw s)

instance (c : PIRClient) (nbrAdd : Nat) (draw : AddDraw) : Decidable (c.Undrained nbrAdd draw) :=
  decidableForallEntry c.localhints.sets fun s d => NoOverdraw d.aux (draw.fall s) (c.sampled nbrAdd draw s)

namespace PIRClient
variable (c : PIRClient) (nbrAdd : Nat) (draw : AddDraw)

def addedAux (s : Nat) (d : SetDesc) : Aux :=
  (kickOut d.aux (c.sampled nbrAdd draw s) (draw.fall s)).toOption.getD [] ++
    [(nbrAdd, c.sampled nbrAdd draw s)]

def added : PIRClient :=
  { c with
    dbrange := c.dbrange + nbrAdd
    localhints := { c.localhints with
      sets := c.localhints.sets.mapIdx fun s d => { d with aux := c.addedAux nbrAdd draw s d } } }

def additionMessage : UpdateQueryAdd :=
  ⟨c.nbrsets, c.setsize, c.mk, c.localhints.sets.mapIdx fun s d =>
    { sk := d.sk, shift := d.shift, auxPrev := d.aux, auxCurr := c.addedAux nbrAdd draw s d }⟩

end PIRClient

section Client
variable {c : PIRClient} (hWF : ClientWF c) {nbrAdd : Nat} {draw : AddDraw}
  (hDraw : c.Undrained nbrAdd draw)
include hWF hDraw

theorem kickOut_addedAux {s : Nat} {d : SetDesc} (hSet : c.localhints.sets[s]? = some d) :
    ∃ low, kickOut d.aux (c.sampled nbrAdd draw s) (draw.fall s) = .ok low ∧ Lowers d.aux low ∧
      c.addedAux nbrAdd draw s d = low ++ [(nbrAdd, c.sampled nbrAdd draw s)] ∧
      countSum low + c.sampled nbrAdd draw s = c.setsize := by
  have hd := hWF.sets_wf d (List.mem_of_getElem? hSet)
  have hCounts := hd.counts
  have hPos := hWF.setsize_pos
  have hLe := hWF.setsize_le
  have hRange := hWF.dbrange_le
  obtain ⟨low, hOk, hLow, hSum, -⟩ := kickOut_ok (hDraw s d hSet) (by omega) (by omega)
  refine ⟨low, hOk, hLow, ?_, by omega⟩
  rw [PIRClient.addedAux, hOk]
  rfl

theorem addedAux_extends {s : Nat} {d : SetDesc} (hSet : c.localhints.sets[s]? = some d) :
    Extends d.aux (c.addedAux nbrAdd draw s d) nbrAdd ∧
      countSum (c.addedAux nbrAdd draw s d) = c.setsize := by
  obtain ⟨low, -, hLow, hAux, hSum⟩ := kickOut_addedAux hWF hDraw hSet
  refine ⟨⟨low, _, hLow, hAux, sampledCount_le _ _ _ _⟩, ?_⟩
  rw [hAux, countSum_append]
  exact hSum

theorem addedAux_wf {s : Nat} {d : SetDesc} (hSet : c.localhints.sets[s]? = some d) :
    SetWF (c.dbrange + nbrAdd) c.setsize { d with aux := c.addedAux nbrAdd draw s d } := by
  have hd := hWF.sets_wf d (List.mem_of_getElem? hSet)
  have hPos := hWF.setsize_pos
  have hLe := hWF.setsize_le
  obtain ⟨hExt, hSum⟩ := addedAux_extends hWF hDraw hSet
  have hNew := @SetWF.extend c.dbrange c.setsize nbrAdd d.sk d.shift d.aux _ hd (by omega) hExt
  rwa [hSum] at hNew

theorem added_wf (hRange : c.dbrange + nbrAdd ≤ 2 ^ 31) : ClientWF (c.added nbrAdd draw) where
  setsize_pos := hWF.setsize_pos
  setsize_le := hWF.setsize_le.trans (Nat.le_add_right _ _)
  dbrange_le := hRange
  sets_length := List.length_mapIdx.trans hWF.sets_length
  parities_length := hWF.parities_length
  sets_wf := by
    intro d' hd'
    obtain ⟨s, hs⟩ := List.getElem?_of_mem hd'
    rw [PIRClient.added, List.getElem?_mapIdx] at hs
    obtain ⟨d, hSet, rfl⟩ := Option.map_eq_some_iff.mp hs
    exact addedAux_wf hWF hDraw hSet

theorem batchedAdditionQuery_eq (hRange : c.dbrange + nbrAdd ≤ 2 ^ 31) :
    c.batchedAdditionQuery nbrAdd draw =
      .ok (c.added nbrAdd draw, c.additionMessage nbrAdd draw) := by
  have hLength := hWF.sets_length
  have hPos := hWF.setsize_pos
  obtain ⟨linfos, hSample, hLinfos⟩ := @mapM_range_exists Fault (List (Nat × Nat))
    (fun s => sampleLinfo c.setsize c.dbrange nbrAdd (draw.rand · s) (draw.coin · s))
    (fun s linfo => linfo.length = c.sampled nbrAdd draw s) c.nbrsets
    (fun s _ => sampleLinfo_ok c.setsize _ _ hPos c.dbrange nbrAdd)
  have hKick : (List.range c.localhints.sets.length).mapM (fun s => do
      let linfo ← elemAt linfos s
      let d ← elemAt c.localhints.sets s
      addToSet nbrAdd linfo.length (draw.fall s) d) =
        (.ok (c.localhints.sets.mapIdx fun s d =>
          ({ d with aux := c.addedAux nbrAdd draw s d },
            { sk := d.sk, shift := d.shift, auxPrev := d.aux,
              auxCurr := c.addedAux nbrAdd draw s d })) : Except Fault _) := by
    apply mapM_range_eq_mapIdx
    intro s hs
    have hSet := List.getElem?_eq_getElem hs
    obtain ⟨linfo, hLinfo, hEll⟩ := hLinfos s (by omega)
    obtain ⟨low, hOk, -, hAux, -⟩ := kickOut_addedAux hWF hDraw hSet
    rw [elemAt_of_getElem? hLinfo, ok_bind, elemAt_of_getElem? hSet, ok_bind, addToSet, hEll, hOk, ok_bind,
      hAux]
  rw [hLength] at hKick
  rw [PIRClient.batchedAdditionQuery]
  dsimp only
  rw [hSample, ok_bind, hKick, ok_bind, map_mapIdx, map_mapIdx, ← hLength, List.drop_length,
    List.append_nil, u32_of_lt (by omega), PIRClient.additionMessage, hLength]
  rfl

end Client

def PIRClient.putParities (c : PIRClient) (parities : List Block) : PIRClient :=
  { c with localhints := { c.localhints with parities := parities } }

theorem ClientWF.putParities {c : PIRClient} (hWF : ClientWF c) {parities : List Block}
    (hLength : parities.length = c.nbrsets) : ClientWF (c.putParities parities) where
  setsize_pos := hWF.setsize_pos
  setsize_le := hWF.setsize_le
  dbrange_le := hWF.dbrange_le
  sets_length := hWF.sets_length
  parities_length := hLength
  sets_wf := hWF.sets_wf

theorem updateParity_eq {c : PIRClient} (hLength : c.localhints.parities.length = c.nbrsets)
    {reply : OfflineReply} (hReply : reply.parities.length = c.nbrsets) :
    c.updateParity reply =
      .ok (c.putParities (List.zipWith (· ^^^ ·) c.localhints.parities reply.parities)) := by
  have hLoop : (List.range c.nbrsets).mapM (fun s => do
      let old ← elemAt c.localhints.parities s
      let diff ← elemAt reply.parities s
      .ok (old ^^^ diff)) =
        (.ok (List.zipWith (· ^^^ ·) c.localhints.parities reply.parities) : Except Fault _) := by
    have hZip : (List.zipWith (· ^^^ ·) c.localhints.parities reply.parities).length = c.nbrsets := by
      rw [List.length_zipWith, hLength, hReply, Nat.min_self]
    have hIdx := @mapM_range_eq_map Fault Block Block
      (List.zipWith (· ^^^ ·) c.localhints.parities reply.parities) (fun s => do
        let old ← elemAt c.localhints.parities s
        let diff ← elemAt reply.parities s
        .ok (old ^^^ diff)) id (by
      intro s hs
      rw [elemAt_of_getElem? (List.getElem?_eq_getElem (by omega)), ok_bind,
        elemAt_of_getElem? (List.getElem?_eq_getElem (by omega)), ok_bind, List.getElem_zipWith]
      rfl)
    rwa [hZip, List.map_id] at hIdx
  rw [PIRClient.updateParity, hLoop, ok_bind, List.drop_of_length_le (by omega), List.append_nil]
  rfl

/-- One batched addition: the server's database grows, and the client updates its hints. -/
def additionRound (aes : Aes) (server : PIRServer) (c : PIRClient) (v : List Block) (draw : AddDraw) :
    Except Fault (PIRServer × PIRClient) := do
  let server ← server.addElements v.length v
  let (c, qry) ← c.batchedAdditionQuery v.length draw
  let reply ← server.batchedAdditionReply aes qry
  let c ← c.updateParity reply
  .ok (server, c)

namespace PIRClient
variable (c : PIRClient) (aes : Aes) (db : Database) (nbrAdd : Nat) (draw : AddDraw)

def deltas : List Block :=
  c.localhints.sets.mapIdx fun s d => setHint aes db c.mk d ^^^
    setHint aes db c.mk { d with aux := c.addedAux nbrAdd draw s d }

/-- The client that the update leaves. -/
def moved : PIRClient :=
  (c.added nbrAdd draw).putParities
    (List.zipWith (· ^^^ ·) c.localhints.parities (c.deltas aes db nbrAdd draw))

end PIRClient

section Reply
variable (aes : Aes) {c : PIRClient} (hWF : ClientWF c) {nbrAdd : Nat} {draw : AddDraw}
  (hDraw : c.Undrained nbrAdd draw) (hRange : c.dbrange + nbrAdd ≤ 2 ^ 31)
include hWF hDraw hRange

omit hDraw hRange in
theorem length_deltas (db : Database) : (c.deltas aes db nbrAdd draw).length = c.nbrsets :=
  List.length_mapIdx.trans hWF.sets_length

theorem batchedAdditionReply_eq {server : PIRServer} (hSets : server.nbrsets = c.nbrsets)
    (hDb : server.db.length = c.dbrange + nbrAdd) :
    server.batchedAdditionReply aes (c.additionMessage nbrAdd draw) =
      .ok ⟨c.deltas aes server.db nbrAdd draw⟩ := by
  have hLength := hWF.sets_length
  have hPos := hWF.setsize_pos
  have hLe := hWF.setsize_le
  have hLoop : (List.range c.localhints.sets.length).mapM (fun s => do
      let d ← elemAt (c.additionMessage nbrAdd draw).diffsets s
      diffParity aes server.db c.mk d) =
        .ok (c.deltas aes server.db nbrAdd draw) := by
    apply mapM_range_eq_mapIdx
    intro s hs
    have hSet := List.getElem?_eq_getElem hs
    have hDiff : (c.additionMessage nbrAdd draw).diffsets[s]? =
        some ⟨c.localhints.sets[s].sk, c.localhints.sets[s].shift, c.localhints.sets[s].aux,
          c.addedAux nbrAdd draw s c.localhints.sets[s]⟩ := by
      rw [PIRClient.additionMessage, List.getElem?_mapIdx, hSet]
      rfl
    rw [elemAt_of_getElem? hDiff, ok_bind]
    exact diffParity_eq aes c.mk hRange hDb (hWF.sets_wf _ (List.getElem_mem hs)) (by omega)
      (addedAux_extends hWF hDraw hSet).1
  rw [PIRServer.batchedAdditionReply, hSets, ← hLength]
  exact (congrArg (· >>= _) hLoop).trans (ok_bind _ _)

omit hDraw hRange in
theorem zipWith_hints {db : Database} (hDb : db.length = c.dbrange) (v : List Block) (mk : Key)
    (next : Nat → SetDesc → SetDesc) :
    List.zipWith (· ^^^ ·) (c.localhints.sets.map (setHint aes db mk))
        (c.localhints.sets.mapIdx fun s d => setHint aes (db ++ v) mk d ^^^
          setHint aes (db ++ v) mk (next s d)) =
      (c.localhints.sets.mapIdx next).map (setHint aes (db ++ v) mk) := by
  apply List.ext_getElem?
  intro s
  rw [List.getElem?_zipWith, List.getElem?_map, List.getElem?_map, List.getElem?_mapIdx,
    List.getElem?_mapIdx]
  cases hSet : c.localhints.sets[s]? with
  | none => rfl
  | some d =>
    have hd := hWF.sets_wf d (List.mem_of_getElem? hSet)
    simp only [Option.map_some]
    rw [← setHint_append aes hd mk hDb v, xor_xor_cancel_left]

theorem moved_wf (db : Database) : ClientWF (c.moved aes db nbrAdd draw) := by
  apply (added_wf hWF hDraw hRange).putParities
  rw [List.length_zipWith, length_deltas aes hWF, hWF.parities_length, Nat.min_self]
  rfl

/-- Every hint moves by the difference the server sent for it, whether it was exact or not. -/
theorem additionRound_eq {server : PIRServer} (hSets : server.nbrsets = c.nbrsets) {v : List Block}
    (hLength : v.length = nbrAdd) (hServer : server.dbrange = c.dbrange) (hDb : server.db.length = c.dbrange) :
    additionRound aes server c v draw =
      .ok ({ server with db := server.db ++ v, dbrange := c.dbrange + nbrAdd },
        c.moved aes (server.db ++ v) nbrAdd draw) := by
  subst hLength
  let server' : PIRServer := { server with db := server.db ++ v, dbrange := c.dbrange + v.length }
  have hSum : u32 (server.dbrange + v.length) = c.dbrange + v.length := by
    rw [hServer, u32_of_lt (by omega)]
  have hReply : server'.batchedAdditionReply aes (c.additionMessage v.length draw) =
      .ok ⟨c.deltas aes (server.db ++ v) v.length draw⟩ :=
    batchedAdditionReply_eq aes hWF hDraw hRange hSets (by rw [List.length_append, hDb])
  have hUpdate := @updateParity_eq (c.added v.length draw) hWF.parities_length
    ⟨c.deltas aes (server.db ++ v) v.length draw⟩ (length_deltas aes hWF _)
  rw [additionRound, PIRServer.addElements, if_neg (by simp), ok_bind,
    batchedAdditionQuery_eq hWF hDraw hRange, ok_bind, hSum]
  dsimp only
  rw [hReply, ok_bind]
  exact (congrArg (· >>= _) hUpdate).trans (ok_bind _ _)

theorem moved_exact {db : Database} (hDb : db.length = c.dbrange) (hExact : HintsExact aes db c) (v : List Block) :
    HintsExact aes (db ++ v) (c.moved aes (db ++ v) nbrAdd draw) := by
  apply (hintsExact_iff aes _ (moved_wf aes hWF hDraw hRange _)).mpr
  rw [PIRClient.moved, (hintsExact_iff aes db hWF).mp hExact]
  exact zipWith_hints aes hWF hDb v c.mk _

end Reply

end IncPir
