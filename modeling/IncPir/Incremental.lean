import IncPir.Preparation

/-! # Incremental preparation equals preparation from scratch

The server answers each batch from a difference alone. Folding the answers to
any sequence of batches into the offline parity gives the exact hint of the
last slot list over the last database.
-/

namespace IncPir
open LoopM XorFold
set_option autoImplicit false

/-- The blocks that a batch appends and the message that describes the sets after it. -/
structure Batch where
  blocks : List Block
  query : UpdateQueryAdd

/-- The server's side of a sequence of batches, with all its replies. -/
def serveBatches (aes : Aes) (server : PIRServer) : List Batch → Except Fault (PIRServer × List OfflineReply)
  | [] => .ok (server, [])
  | batch :: rest => do
    let server ← server.addElements batch.blocks.length batch.blocks
    let reply ← server.batchedAdditionReply aes batch.query
    let (server, replies) ← serveBatches aes server rest
    .ok (server, reply :: replies)

/-- The slot list of set `s` goes from the first to the last argument, each message extending the
list of the message before. -/
inductive Follows (mk sk : Key) (shift s : Nat) : Aux → List Batch → Aux → Prop where
  | done (aux : Aux) : Follows mk sk shift s aux [] aux
  | step {prev cur last : Aux} {batch : Batch} {rest : List Batch} (hMk : batch.query.mk = mk)
      (hDiff : batch.query.diffsets[s]? = some ⟨sk, shift, prev, cur⟩)
      (hExt : Extends prev cur batch.blocks.length) (hRest : Follows mk sk shift s cur rest last) :
      Follows mk sk shift s prev (batch :: rest) last

theorem Follows.eq_of_nil {mk sk : Key} {shift s : Nat} {first last : Aux}
    (h : Follows mk sk shift s first [] last) : first = last := by
  cases h
  rfl

def appended (batches : List Batch) : Nat := (batches.map fun batch => batch.blocks.length).sum

def OfflineReply.parityOf (s : Nat) (reply : OfflineReply) : Block := reply.parities.getD s 0

section Batches
variable (aes : Aes) {mk : Key} {sets : List SetDesc}

theorem batchReply_ok {server : PIRServer} {n : Nat} {cur : Nat → Aux} {query : UpdateQueryAdd}
    (hSets : sets.length = server.nbrsets) (hPos : ∀ d ∈ sets, 0 < server.dbrange)
    (hRange : server.dbrange + n ≤ 2 ^ 31) {v : List Block} (hLength : v.length = n)
    (hDb : server.db.length = server.dbrange)
    (hQuery : ∀ s d, sets[s]? = some d →
      SetWF server.dbrange (countSum (cur s)) ⟨d.sk, d.shift, cur s⟩ ∧ query.mk = mk ∧
      ∃ next, query.diffsets[s]? = some ⟨d.sk, d.shift, cur s, next⟩ ∧ Extends (cur s) next n) :
    ∃ reply, PIRServer.batchedAdditionReply aes
        { server with db := server.db ++ v, dbrange := u32 (server.dbrange + n) } query = .ok reply ∧
      ∀ s d diff, sets[s]? = some d → query.diffsets[s]? = some diff →
        setHint aes server.db mk ⟨d.sk, d.shift, cur s⟩ ^^^ reply.parityOf s =
          setHint aes (server.db ++ v) mk ⟨d.sk, d.shift, diff.auxCurr⟩ := by
  have hEach : ∀ s < server.nbrsets, ∃ parity,
      (do let d ← elemAt query.diffsets s
          diffParity aes (server.db ++ v) query.mk d) = .ok parity ∧
      ∀ d diff, sets[s]? = some d → query.diffsets[s]? = some diff →
        setHint aes server.db mk ⟨d.sk, d.shift, cur s⟩ ^^^ parity =
          setHint aes (server.db ++ v) mk ⟨d.sk, d.shift, diff.auxCurr⟩ := by
    intro s hs
    have hs' : s < sets.length := by omega
    have hSet := List.getElem?_eq_getElem hs'
    obtain ⟨hWF, rfl, next, hDiff, hExt⟩ := hQuery s _ hSet
    have hGrown : (server.db ++ v).length = server.dbrange + n := by
      rw [List.length_append, hDb, hLength]
    have hParity := diffParity_eq aes query.mk hRange hGrown hWF
      (hPos _ (List.mem_of_getElem? hSet)) hExt
    refine ⟨_, by rw [elemAt_of_getElem? hDiff, ok_bind]; exact hParity, ?_⟩
    intro d diff hd hdiff
    rw [hSet] at hd
    cases hd
    rw [hDiff] at hdiff
    cases hdiff
    rw [← setHint_append aes hWF query.mk hDb v, xor_xor_cancel_left]
  obtain ⟨parities, hLoop, hAll⟩ := mapM_range_exists hEach
  refine ⟨⟨parities⟩, ?_, ?_⟩
  · rw [PIRServer.batchedAdditionReply]
    exact (congrArg (· >>= _) hLoop).trans (ok_bind _ _)
  · intro s d diff hd hdiff
    have hs : s < sets.length := (List.getElem?_eq_some_iff.mp hd).1
    obtain ⟨parity, hGet, hParity⟩ := hAll s (by omega)
    rw [OfflineReply.parityOf, List.getD_eq_getElem?_getD, hGet]
    exact hParity d diff hd hdiff

theorem serveBatches_ok {batches : List Batch} {server : PIRServer} {cur last : Nat → Aux}
    (hSets : sets.length = server.nbrsets) (hPos : ∀ d ∈ sets, 0 < server.dbrange)
    (hRange : server.dbrange + appended batches ≤ 2 ^ 31) (hDb : server.db.length = server.dbrange)
    (hCur : ∀ s d, sets[s]? = some d →
      SetWF server.dbrange (countSum (cur s)) ⟨d.sk, d.shift, cur s⟩ ∧
      Follows mk d.sk d.shift s (cur s) batches (last s)) :
    ∃ server' replies, serveBatches aes server batches = .ok (server', replies) ∧
      server'.dbrange = server.dbrange + appended batches ∧
      ∀ s d, sets[s]? = some d →
        SetWF server'.dbrange (countSum (last s)) ⟨d.sk, d.shift, last s⟩ ∧
        setHint aes server.db mk ⟨d.sk, d.shift, cur s⟩ ^^^
            xorOver (OfflineReply.parityOf s) replies =
          setHint aes server'.db mk ⟨d.sk, d.shift, last s⟩ := by
  induction batches generalizing server cur with
  | nil =>
    refine ⟨server, [], rfl, rfl, ?_⟩
    intro s d hd
    obtain ⟨hWF, hFollows⟩ := hCur s d hd
    rw [← hFollows.eq_of_nil]
    exact ⟨hWF, BitVec.xor_zero⟩
  | cons batch rest ih =>
    have hSum : appended (batch :: rest) = batch.blocks.length + appended rest := rfl
    have hQuery : ∀ s d, sets[s]? = some d →
        SetWF server.dbrange (countSum (cur s)) ⟨d.sk, d.shift, cur s⟩ ∧ batch.query.mk = mk ∧
        ∃ next, batch.query.diffsets[s]? = some ⟨d.sk, d.shift, cur s, next⟩ ∧
          Extends (cur s) next batch.blocks.length := by
      intro s d hd
      obtain ⟨hWF, hFollows⟩ := hCur s d hd
      cases hFollows with
      | step hMk hDiff hExt _ => exact ⟨hWF, hMk, _, hDiff, hExt⟩
    obtain ⟨reply, hReply, hParity⟩ := batchReply_ok aes hSets hPos (by omega) rfl hDb hQuery
    let server₁ : PIRServer := { server with
      db := server.db ++ batch.blocks
      dbrange := u32 (server.dbrange + batch.blocks.length) }
    have hRange₁ : server₁.dbrange = server.dbrange + batch.blocks.length := u32_of_lt (by omega)
    let next : Nat → Aux := fun s => ((batch.query.diffsets[s]?).map DiffSetDesc.auxCurr).getD []
    have hNext : ∀ s d, sets[s]? = some d →
        SetWF server₁.dbrange (countSum (next s)) ⟨d.sk, d.shift, next s⟩ ∧
        Follows mk d.sk d.shift s (next s) rest (last s) := by
      intro s d hd
      obtain ⟨hWF, hFollows⟩ := hCur s d hd
      cases hFollows with
      | step _ hDiff hExt hRest =>
        simp only [next, hDiff, Option.map_some, Option.getD_some]
        rw [hRange₁]
        exact ⟨hWF.extend (hPos d (List.mem_of_getElem? hd)) hExt, hRest⟩
    obtain ⟨server', replies, hServe, hLast, hAll⟩ := @ih server₁ next hSets
      (fun d hd => by rw [hRange₁]; exact Nat.add_pos_left (hPos d hd) _) (by omega)
      (by rw [hRange₁, List.length_append, hDb]) hNext
    refine ⟨server', reply :: replies, ?_, by omega, ?_⟩
    · rw [serveBatches, PIRServer.addElements, if_neg (by simp), ok_bind, hReply, ok_bind, hServe]
      rfl
    · intro s d hd
      obtain ⟨hWF, hEq⟩ := hAll s d hd
      obtain ⟨-, -, cur', hDiff, -⟩ := hQuery s d hd
      have hHead := hParity s d _ hd hDiff
      refine ⟨hWF, ?_⟩
      rw [xorOver_cons, ← BitVec.xor_assoc, hHead, ← hEq]
      simp only [next, hDiff, Option.map_some, Option.getD_some]
      rfl

/-- The offline parity of a set, folded with its parities in all replies, is the exclusive-or of the
last database over the indices that the client expands, and no index is listed twice. -/
theorem incremental_eq_scratch {server : PIRServer} {batches : List Batch} {last : Nat → Aux}
    (hSetsize : server.setsize ≤ server.dbrange) (hDb : server.db.length = server.dbrange)
    (hRange : server.dbrange + appended batches ≤ 2 ^ 31) (hSets : sets.length = server.nbrsets)
    (hShift : ∀ d ∈ sets, d.shift < server.dbrange)
    (hFollows : ∀ s d, sets[s]? = some d →
      Follows mk d.sk d.shift s [(server.dbrange, server.setsize)] batches (last s)) :
    ∃ offline server' replies, server.generateOfflineReply aes ⟨sets⟩ = .ok offline ∧
      serveBatches aes server batches = .ok (server', replies) ∧
      server'.dbrange = server.dbrange + appended batches ∧
      ∀ s d, sets[s]? = some d → ∃ tmp,
        expandSet aes mk server'.dbrange ⟨d.sk, d.shift, last s⟩ = .ok tmp ∧
        offline.parityOf s ^^^ xorOver (OfflineReply.parityOf s) replies =
          xorOver (blockAt server'.db) tmp.elems ∧
        tmp.size = countSum (last s) := by
  have hOffline := generateOfflineReply_eq aes hSetsize (by omega) hDb hSets
  have hCur : ∀ s d, sets[s]? = some d →
      SetWF server.dbrange (countSum [(server.dbrange, server.setsize)])
        ⟨d.sk, d.shift, [(server.dbrange, server.setsize)]⟩ ∧
      Follows mk d.sk d.shift s [(server.dbrange, server.setsize)] batches (last s) := by
    intro s d hd
    exact ⟨setWF_single _ _ hSetsize (hShift d (List.mem_of_getElem? hd)), hFollows s d hd⟩
  obtain ⟨server', replies, hServe, hLast, hAll⟩ := serveBatches_ok aes hSets
    (fun d hd => Nat.zero_lt_of_lt (hShift d hd)) hRange hDb hCur
  refine ⟨_, server', replies, hOffline, hServe, hLast, ?_⟩
  intro s d hd
  obtain ⟨hWF, hEq⟩ := hAll s d hd
  refine ⟨_, expandSet_eq aes mk hWF (by omega), ?_, ?_⟩
  · rw [xorOver_ofList_expansion, ← hEq, setHint_single aes server.db mk rfl hSetsize (by omega),
      OfflineReply.parityOf, List.getD_eq_getElem?_getD,
      List.getElem?_map, hd]
    rfl
  · exact size_listed aes mk hWF (by omega)

end Batches

def moveBatch : Batch :=
  ⟨[3], ⟨1, 1, Vector.replicate 16 0, [⟨Vector.replicate 16 1, 1, [(2, 1)], [(2, 0), (1, 1)]⟩]⟩⟩

theorem incremental_eq_scratch_move :
    ∃ offline server' replies,
      PIRServer.generateOfflineReply (fun key _ => key) ⟨2, 1, 1, [1, 2]⟩
        ⟨[⟨Vector.replicate 16 1, 1, [(2, 1)]⟩]⟩ = .ok offline ∧
      serveBatches (fun key _ => key) ⟨2, 1, 1, [1, 2]⟩ [moveBatch] = .ok (server', replies) ∧
      server'.dbrange = 2 + appended [moveBatch] ∧
      ∀ s d, [(⟨Vector.replicate 16 1, 1, [(2, 1)]⟩ : SetDesc)][s]? = some d → ∃ tmp,
        expandSet (fun key _ => key) (Vector.replicate 16 0) server'.dbrange
          ⟨d.sk, d.shift, [(2, 0), (1, 1)]⟩ = .ok tmp ∧
        offline.parityOf s ^^^ xorOver (OfflineReply.parityOf s) replies =
          xorOver (blockAt server'.db) tmp.elems ∧
        tmp.size = countSum [(2, 0), (1, 1)] := by
  refine @incremental_eq_scratch _ _ _ ⟨2, 1, 1, [1, 2]⟩ _ (fun _ => [(2, 0), (1, 1)])
    (by decide) rfl (by decide) rfl (by decide) ?_
  intro s d hd
  cases s with
  | zero =>
    cases hd
    exact Follows.step rfl rfl
      ⟨[(2, 0)], 1, List.Forall₂.cons ⟨rfl, by decide⟩ List.Forall₂.nil, rfl, by decide⟩
      (Follows.done _)
  | succ s => cases hd

end IncPir
