import IncPir.Addition
import IncPir.QueryRound

/-! # What the operations leave of a client

Each operation of the client that returns is read back here without any
assumption on the client it started from.
-/

namespace IncPir
open LoopM
set_option autoImplicit false

theorem storeAt_inv {α : Type} {l l' : List α} {i : Nat} {a : α} (h : storeAt l i a = .ok l') :
    i < l.length ∧ l' = l.set i a := by
  rw [storeAt] at h
  split at h
  · rename_i hLt
    exact ⟨hLt, (Except.ok.inj h).symm⟩
  · cases h

theorem kickOut_length {aux low : Aux} {ell : Nat} {fall : Nat → Nat} (h : kickOut aux ell fall = .ok low) :
    low.length = aux.length := by
  apply foldlM_invariant (fun cur => cur.length = aux.length) rfl ?_ h
  intro cur hCur i next hNext
  obtain ⟨r, -, hNext⟩ := (bind_eq_ok_iff _ _ _).mp hNext
  obtain ⟨slot, -, hNext⟩ := (bind_eq_ok_iff _ _ _).mp hNext
  cases hNext
  cases slot with
  | none => exact hCur
  | some slot => exact (List.length_modify ..).trans hCur

theorem addToSet_length {nbrAdd ell : Nat} {fall : Nat → Nat} {d d' : SetDesc} {diff : DiffSetDesc}
    (h : addToSet nbrAdd ell fall d = .ok (d', diff)) : d'.aux.length = d.aux.length + 1 := by
  obtain ⟨kicked, hKicked, h⟩ := (bind_eq_ok_iff _ _ _).mp h
  cases h
  rw [List.length_append, kickOut_length hKicked, List.length_singleton]

/-- A new client has one slot in every set, and zero hints. -/
theorem newPIRClient_inv {dbrange setsize nbrsets : Nat} {mk : Key} {sk : Nat → Key} {rand : Nat → Nat}
    {c : PIRClient} (h : newPIRClient dbrange setsize nbrsets mk sk rand = .ok c) :
    ∃ sets : List SetDesc, sets.length = nbrsets ∧
      (∀ (s : Nat) (d : SetDesc), sets[s]? = some d → ∃ shift, d = ⟨sk s, shift, [(dbrange, setsize)]⟩) ∧
      c = ⟨dbrange, setsize, nbrsets, ⟨sets, List.replicate nbrsets 0⟩, mk, 0, 0⟩ := by
  obtain ⟨sets, hSets, h⟩ := (bind_eq_ok_iff _ _ _).mp h
  cases h
  obtain ⟨hLength, hAll⟩ := mapM_range_results hSets
  refine ⟨sets, hLength, ?_, rfl⟩
  intro s d hSet
  obtain ⟨shift, -, hDesc⟩ := (bind_eq_ok_iff _ _ _).mp (hAll s d hSet)
  exact ⟨shift, (Except.ok.inj hDesc).symm⟩

section Client
variable {aes : Aes} {c c' : PIRClient}

theorem batchedAdditionQuery_inv {nbrAdd : Nat} {draw : AddDraw} {qry : UpdateQueryAdd}
    (h : c.batchedAdditionQuery nbrAdd draw = .ok (c', qry)) :
    ∃ pairs : List (SetDesc × DiffSetDesc), pairs.length = c.nbrsets ∧
      (∀ s p, pairs[s]? = some p → ∃ d ell, c.localhints.sets[s]? = some d ∧
        addToSet nbrAdd ell (draw.fall s) d = .ok p) ∧
      c' = { c with
        dbrange := u32 (c.dbrange + nbrAdd)
        localhints := { c.localhints with
          sets := pairs.map Prod.fst ++ c.localhints.sets.drop c.nbrsets } } ∧
      qry = ⟨c.nbrsets, c.setsize, c.mk, pairs.map Prod.snd⟩ := by
  obtain ⟨linfos, -, h⟩ := (bind_eq_ok_iff _ _ _).mp h
  obtain ⟨pairs, hPairs, h⟩ := (bind_eq_ok_iff _ _ _).mp h
  cases h
  obtain ⟨hLength, hAll⟩ := mapM_range_results hPairs
  refine ⟨pairs, hLength, ?_, rfl, rfl⟩
  intro s p hp
  obtain ⟨linfo, -, hAdd⟩ := (bind_eq_ok_iff _ _ _).mp (hAll s p hp)
  obtain ⟨d, hd, hAdd⟩ := (bind_eq_ok_iff _ _ _).mp hAdd
  exact ⟨d, linfo.length, (elemAt_eq_ok_iff _ _ _).mp hd, hAdd⟩

theorem updateParity_inv {reply : OfflineReply} (h : c.updateParity reply = .ok c') :
    ∃ parities : List Block, parities.length = c.nbrsets ∧
      (∀ (s : Nat) (p : Block), parities[s]? = some p → ∃ old diff, c.localhints.parities[s]? = some old ∧
        reply.parities[s]? = some diff ∧ p = old ^^^ diff) ∧
      c' = c.putParities (parities ++ c.localhints.parities.drop c.nbrsets) := by
  obtain ⟨parities, hParities, h⟩ := (bind_eq_ok_iff _ _ _).mp h
  cases h
  obtain ⟨hLength, hAll⟩ := mapM_range_results hParities
  refine ⟨parities, hLength, ?_, rfl⟩
  intro s p hp
  obtain ⟨old, hOld, hXor⟩ := (bind_eq_ok_iff _ _ _).mp (hAll s p hp)
  obtain ⟨diff, hDiff, hXor⟩ := (bind_eq_ok_iff _ _ _).mp hXor
  exact ⟨old, diff, (elemAt_eq_ok_iff _ _ _).mp hOld, (elemAt_eq_ok_iff _ _ _).mp hDiff,
    (Except.ok.inj hXor).symm⟩

theorem generateOnlineQuery_inv {idx : Nat} {draw : RemoveDraw} {qry : OnlineQuery}
    (h : c.generateOnlineQuery aes idx draw = .ok (c', qry)) :
    ∃ setno, c' = { c with curQrySetno := setno } := by
  rw [PIRClient.generateOnlineQuery] at h
  split at h
  · cases h
  · obtain ⟨found, -, h⟩ := (bind_eq_ok_iff _ _ _).mp h
    obtain ⟨d, -, h⟩ := (bind_eq_ok_iff _ _ _).mp h
    obtain ⟨tmp, -, h⟩ := (bind_eq_ok_iff _ _ _).mp h
    obtain ⟨sent, -, h⟩ := (bind_eq_ok_iff _ _ _).mp h
    cases h
    exact ⟨_, rfl⟩

theorem queryRecov_inv {reply : OnlineReply} {blk : Block} (h : c.queryRecov reply = .ok (c', blk)) :
    c' = { c with curQryBlk := blk } := by
  obtain ⟨parity, -, h⟩ := (bind_eq_ok_iff _ _ _).mp h
  cases h
  rfl

theorem generateRefreshQuery_inv {idx : Nat} {draw : RefreshDraw} {qry : OnlineQuery}
    (h : c.generateRefreshQuery aes idx draw = .ok (c', qry)) :
    c.curQrySetno < c.localhints.sets.length ∧
      ∃ r y, modBy draw.rand c.setsize = .ok r ∧ cycleWalk aes r c.dbrange draw.nsk = .ok y ∧
        c' = c.putSet c.curQrySetno
          ⟨draw.nsk, sub32 (u32 (idx + c.dbrange)) y % c.dbrange, [(c.dbrange, c.setsize)]⟩ := by
  obtain ⟨r, hr, h⟩ := (bind_eq_ok_iff _ _ _).mp h
  obtain ⟨y, hy, h⟩ := (bind_eq_ok_iff _ _ _).mp h
  obtain ⟨sets, hStore, h⟩ := (bind_eq_ok_iff _ _ _).mp h
  obtain ⟨members, -, h⟩ := (bind_eq_ok_iff _ _ _).mp h
  obtain ⟨sent, -, h⟩ := (bind_eq_ok_iff _ _ _).mp h
  cases h
  obtain ⟨hLt, rfl⟩ := storeAt_inv hStore
  exact ⟨hLt, r, y, hr, hy, rfl⟩

theorem refreshRecov_inv {reply : OnlineReply} (h : c.refreshRecov reply = .ok c') :
    c.curQrySetno < c.localhints.parities.length ∧
      c' = c.putParity c.curQrySetno (reply.parity ^^^ c.curQryBlk) := by
  obtain ⟨parities, hStore, h⟩ := (bind_eq_ok_iff _ _ _).mp h
  cases h
  obtain ⟨hLt, rfl⟩ := storeAt_inv hStore
  exact ⟨hLt, rfl⟩

end Client

end IncPir
