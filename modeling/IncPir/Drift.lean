import IncPir.Overlap
import IncPir.RoundHints

/-! # Runs with any coins

A hint that is off stays off: a batched addition moves it along with its set,
and a round stores it again for the new set. The drift of a hint is therefore
an account, which only the removals of the rounds on its set charge.
-/

namespace IncPir
open LoopM XorFold Runs
set_option autoImplicit false

section Drift
variable (aes : Aes) (db : Database)

/-- How far the hint of set `s` is from the one that the expansion loop yields. -/
def hintDrift (c : PIRClient) (s : Nat) : Block :=
  c.localhints.parities.getD s 0 ^^^ (expectedHint aes db c s).toOption.getD 0

variable {c : PIRClient} (hWF : ClientWF c) {s : Nat}
include hWF

theorem hintDrift_eq {d : SetDesc} {h : Block} (hSet : c.localhints.sets[s]? = some d)
    (hParity : c.localhints.parities[s]? = some h) :
    hintDrift aes db c s = h ^^^ setHint aes db c.mk d := by
  have hd := hWF.sets_wf d (List.mem_of_getElem? hSet)
  have hHint : expectedHint aes db c s = .ok (setHint aes db c.mk d) := by
    rw [expectedHint, elemAt_of_getElem? hSet, ok_bind, expandSet_eq aes c.mk hd hWF.dbrange_le, ok_bind,
      xorOver_ofList_expansion]
  rw [hintDrift, hHint, List.getD_eq_getElem?_getD, hParity]
  rfl

theorem hintDrift_of_le (hs : c.nbrsets ≤ s) : hintDrift aes db c s = 0 := by
  have hSets : c.localhints.sets.length ≤ s := hWF.sets_length.le.trans hs
  have hParities : c.localhints.parities.length ≤ s := hWF.parities_length.le.trans hs
  have hNone : expectedHint aes db c s = .error .outOfRange := by
    rw [expectedHint, elemAt, List.getElem?_eq_none hSets]
    rfl
  rw [hintDrift, hNone, List.getD_eq_default _ _ hParities]
  exact BitVec.xor_self

theorem exists_hint (hs : s < c.nbrsets) : ∃ d h, c.localhints.sets[s]? = some d ∧
    c.localhints.parities[s]? = some h :=
  ⟨_, _, List.getElem?_eq_getElem (hs.trans_eq hWF.sets_length.symm),
    List.getElem?_eq_getElem (hs.trans_eq hWF.parities_length.symm)⟩

theorem hintExact_iff_drift (hs : s < c.nbrsets) : HintExact aes db c s ↔ hintDrift aes db c s = 0 := by
  obtain ⟨d, h, hSet, hParity⟩ := exists_hint hWF hs
  rw [hintExact_iff aes db hWF hSet hParity, hintDrift_eq aes db hWF hSet hParity]
  exact BitVec.xor_eq_zero_iff.symm

end Drift

section Account
variable (aes : Aes)

/-- The rounds of a run. The coins may come up as they like, and the search may report no set. -/
def Orderly (s : Session) : Round → Prop
  | .addition blocks draw =>
      s.client.dbrange + blocks.length ≤ 2 ^ 31 ∧ s.client.Undrained blocks.length draw
  | .query idx draw refresh => idx < s.client.dbrange ∧ 1 ≤ s.client.nbrsets ∧
      (draw.coin = true ∨ refresh.remove.coin = true → 2 ≤ s.client.setsize)

/-- The block that the online removal takes out of the selected set, if any. -/
def lostBlock (s : Session) (idx : Nat) (draw : RemoveDraw) : Block :=
  (s.client.localhints.sets[s.client.selected aes idx]?).elim 0 fun d =>
    removalBlock (blockAt s.server.db) (listed aes s.client.mk d) draw idx

def renewedBlock (s : Session) (idx : Nat) (refresh : RefreshDraw) : Block :=
  removalBlock (blockAt s.server.db)
    (listed aes s.client.mk (freshDesc aes s.client.dbrange s.client.setsize idx refresh)) refresh.remove idx

def driftOf (s : Session) (j : Nat) : Block := hintDrift aes s.server.db s.client j

/-- What a round adds to the drift of hint `j`. -/
def charge (e : Event Session Round (Option Block)) (j : Nat) : Block :=
  match e.input with
  | .addition _ _ => 0
  | .query idx draw refresh =>
    if j = e.before.client.selected aes idx then
      lostBlock aes e.before idx draw ^^^ renewedBlock aes e.before idx refresh
    else 0

/-- A query returns the block that its removal took out, changed by the drift of its set. -/
def ReturnsDrifted (e : Event Session Round (Option Block)) : Prop :=
  ∀ idx draw refresh, e.input = .query idx draw refresh →
    e.output = some (lostBlock aes e.before idx draw ^^^
      driftOf aes e.before (e.before.client.selected aes idx))

variable {c : PIRClient} (hWF : ClientWF c)
include hWF

theorem AfterRound.drift (hSets : 1 ≤ c.nbrsets) {db : Database} {c' : PIRClient} {idx : Nat} {refresh : RefreshDraw}
    {lost : Block} (hAfter : AfterRound aes db c c' idx refresh
      (lost ^^^ hintDrift aes db c (c.selected aes idx))) (j : Nat) :
    hintDrift aes db c' j = hintDrift aes db c j ^^^ if j = c.selected aes idx then
      lost ^^^ removalBlock (blockAt db) (listed aes c.mk (freshDesc aes c.dbrange c.setsize idx refresh))
        refresh.remove idx else 0 := by
  have hLt := selected_lt aes hWF hSets idx
  have hLtParity : c.selected aes idx < c.localhints.parities.length :=
    hLt.trans_eq (hWF.sets_length.trans hWF.parities_length.symm)
  split
  · rename_i hj
    subst hj
    have hSet : c'.localhints.sets[c.selected aes idx]? =
        some (freshDesc aes c.dbrange c.setsize idx refresh) := by
      rw [hAfter.sets]
      exact List.getElem?_set_self hLt
    have hParity := (congrArg (·[c.selected aes idx]?) hAfter.parities).trans (List.getElem?_set_self hLtParity)
    rw [hintDrift_eq aes db hAfter.wf hSet hParity, hAfter.mk, BitVec.xor_comm _ (setHint _ _ _ _),
      BitVec.xor_assoc (setHint _ _ _ _), xor_xor_cancel_left]
    ac_rfl
  · rename_i hj
    refine Eq.trans ?_ BitVec.xor_zero.symm
    rcases Nat.lt_or_ge j c.nbrsets with hs | hs
    · obtain ⟨d, h, hSet, hParity⟩ := exists_hint hWF hs
      have hSet' : c'.localhints.sets[j]? = some d := by
        rw [hAfter.sets, List.getElem?_set_ne (Ne.symm hj), hSet]
      have hParity' : c'.localhints.parities[j]? = some h := by
        rw [hAfter.parities, List.getElem?_set_ne (Ne.symm hj), hParity]
      rw [hintDrift_eq aes db hAfter.wf hSet' hParity', hintDrift_eq aes db hWF hSet hParity, hAfter.mk]
    · rw [hintDrift_of_le aes db hWF hs, hintDrift_of_le aes db hAfter.wf (hAfter.nbrsets.trans_le hs)]

theorem moved_drift {nbrAdd : Nat} {draw : AddDraw} (hDraw : c.Undrained nbrAdd draw)
    (hRange : c.dbrange + nbrAdd ≤ 2 ^ 31) {db : Database} (hDb : db.length = c.dbrange) (v : List Block) (j : Nat) :
    hintDrift aes (db ++ v) (c.moved aes (db ++ v) nbrAdd draw) j = hintDrift aes db c j := by
  have hWF' := moved_wf aes hWF hDraw hRange (db ++ v)
  rcases Nat.lt_or_ge j c.nbrsets with hs | hs
  · obtain ⟨d, h, hSet, hParity⟩ := exists_hint hWF hs
    let d' : SetDesc := { d with aux := c.addedAux nbrAdd draw j d }
    have hSet' : (c.moved aes (db ++ v) nbrAdd draw).localhints.sets[j]? = some d' := by
      rw [PIRClient.moved, PIRClient.putParities, PIRClient.added, List.getElem?_mapIdx, hSet]
      rfl
    have hParity' : (c.moved aes (db ++ v) nbrAdd draw).localhints.parities[j]? =
        some (h ^^^ (setHint aes (db ++ v) c.mk d ^^^ setHint aes (db ++ v) c.mk d')) := by
      rw [PIRClient.moved, PIRClient.putParities, PIRClient.deltas, List.getElem?_zipWith, hParity,
        List.getElem?_mapIdx, hSet]
      rfl
    rw [hintDrift_eq aes _ hWF' hSet' hParity', hintDrift_eq aes _ hWF hSet hParity,
      ← setHint_append aes (hWF.sets_wf d (List.mem_of_getElem? hSet)) c.mk hDb v, BitVec.xor_assoc]
    exact congrArg (h ^^^ ·) (xor_xor_cancel_right _ _)
  · rw [hintDrift_of_le aes _ hWF hs, hintDrift_of_le aes _ hWF' hs]

omit hWF

section Step
variable {s : Session} (h : SessionWF s)
include h

theorem sessionStep_drifted {round : Round} (hOrderly : Orderly s round) :
    ∃ s' blk, sessionStep aes s round = .ok (s', blk) ∧
      (SessionWF s' ∧ s'.client.nbrsets = s.client.nbrsets) ∧ ReturnsDrifted aes ⟨s, round, blk, s'⟩ ∧
      ∀ j, driftOf aes s' j = driftOf aes s j ^^^ charge aes ⟨s, round, blk, s'⟩ j := by
  cases round with
  | addition blocks draw =>
    obtain ⟨hRange, hDraw⟩ := hOrderly
    have hRound := additionRound_eq aes h.wf hDraw hRange h.nbrsets rfl h.dbrange h.db_length
    refine ⟨⟨{ s.server with db := s.server.db ++ blocks, dbrange := s.client.dbrange + blocks.length },
      s.client.moved aes (s.server.db ++ blocks) blocks.length draw⟩, none, ?_,
      ⟨⟨moved_wf aes h.wf hDraw hRange _, h.nbrsets, rfl, ?_⟩, rfl⟩, ?_, ?_⟩
    · rw [sessionStep, hRound]
      rfl
    · change (s.server.db ++ blocks).length = s.client.dbrange + blocks.length
      rw [List.length_append, h.db_length]
    · intro idx draw' refresh hInput
      cases hInput
    · exact fun j => (moved_drift aes h.wf hDraw hRange h.db_length blocks j).trans BitVec.xor_zero.symm
  | query idx draw refresh =>
    obtain ⟨hIdx, hPos, hCoins⟩ := hOrderly
    have hLt := (selected_lt aes h.wf hPos idx).trans_eq h.wf.sets_length
    obtain ⟨d, p, hSet, hParity⟩ := exists_hint h.wf hLt
    have hLost : lostBlock aes s idx draw =
        removalBlock (blockAt s.server.db) (listed aes s.client.mk d) draw idx := by
      rw [lostBlock, hSet]
      rfl
    have hBlk : lostBlock aes s idx draw ^^^ driftOf aes s (s.client.selected aes idx) =
        removalBlock (blockAt s.server.db) (listed aes s.client.mk d) draw idx ^^^
          (p ^^^ setHint aes s.server.db s.client.mk d) := by
      rw [hLost, driftOf, hintDrift_eq aes s.server.db h.wf hSet hParity]
    obtain ⟨c', hRound, hAfter⟩ :=
      queryRound_eq aes h.wf h.db_length hIdx hSet hParity hBlk hPos hCoins
    have hWF' : SessionWF ⟨s.server, c'⟩ := ⟨hAfter.wf, h.nbrsets.trans hAfter.nbrsets.symm,
      h.dbrange.trans hAfter.dbrange.symm, h.db_length.trans hAfter.dbrange.symm⟩
    refine ⟨⟨s.server, c'⟩, some (lostBlock aes s idx draw ^^^ driftOf aes s (s.client.selected aes idx)), ?_,
      ⟨hWF', hAfter.nbrsets⟩, ?_, hAfter.drift aes h.wf hPos⟩
    · rw [sessionStep, hRound]
      rfl
    · intro idx' draw' refresh' hInput
      cases hInput
      rfl

theorem lostBlock_of_hit {idx setno : Nat} {draw : RemoveDraw} (hFound : s.client.search aes idx = .ok (some setno))
    (hCoin : draw.coin = false)
    (hHit : ∀ d, s.client.localhints.sets[setno]? = some d → ¬ FalseHit aes d idx) :
    s.client.selected aes idx = setno ∧ setno < s.client.nbrsets ∧
      lostBlock aes s idx draw = blockAt s.server.db idx := by
  obtain ⟨d, hSet, hMem⟩ := expansion_of_search aes h.wf hFound hHit
  have hSelected := selected_of_search aes h.wf hFound
  have hLt := (List.getElem?_eq_some_iff.mp hSet).1
  rw [hSelected, h.wf.sets_length] at hLt
  refine ⟨hSelected, hLt, ?_⟩
  rw [lostBlock, hSet]
  exact removalBlock_listed aes hMem hCoin _

theorem sound_uncharged {round : Round} (hAdmissible : Admissible aes s round) (hSound : Sound aes s round) :
    Orderly s round ∧ ∀ blk s' j, charge aes ⟨s, round, blk, s'⟩ j = BitVec.ofNat BlockLen 0 := by
  cases round with
  | addition blocks draw => exact ⟨⟨hAdmissible, hSound⟩, fun _ _ _ => rfl⟩
  | query idx draw refresh =>
    obtain ⟨hIdx, ⟨setno, hFound⟩, hCoin, hRefresh⟩ := hAdmissible
    obtain ⟨-, hSetno, hLost⟩ := lostBlock_of_hit aes h hFound hCoin fun d hd => hSound setno d hFound hd
    have hRenewed : renewedBlock aes s idx refresh = blockAt s.server.db idx :=
      removalBlock_listed aes (mem_freshDesc aes h.wf.setsize_le h.wf.dbrange_le h.wf.setsize_pos
        s.client.mk hIdx refresh) hRefresh _
    refine ⟨⟨hIdx, by omega, by simp [hCoin, hRefresh]⟩, fun blk s' j => ?_⟩
    rw [charge]
    dsimp only
    rw [hLost, hRenewed]
    split
    · exact BitVec.xor_self
    · rfl

end Step

/-- Whatever the coins and the searches of a run do, the rounds on a set change the drift of its hint by what
they charge and by nothing else, and each query returns the block it took out, changed by the drift so far. -/
theorem run_drift {s : Session} (hWF : SessionWF s) {rounds : List Round}
    (hMeets : Meets (sessionStep aes) Orderly s rounds) :
    ∃ events, trace (sessionStep aes) s rounds = .ok events ∧ ∀ k e, events[k]? = some e →
      (∀ j, driftOf aes e.after j = driftOf aes s j ^^^ xorOver (charge aes · j) (events.take (k + 1))) ∧
      (∀ j < s.client.nbrsets, HintExact aes e.after.server.db e.after.client j ↔
        xorOver (charge aes · j) (events.take (k + 1)) = driftOf aes s j) ∧
      ∀ idx draw refresh, e.input = .query idx draw refresh → e.output =
        some (lostBlock aes e.before idx draw ^^^ (driftOf aes s (e.before.client.selected aes idx) ^^^
          xorOver (charge aes · (e.before.client.selected aes idx)) (events.take k))) := by
  obtain ⟨events, hTrace, hAll⟩ := @trace_account _ _ _ _ (sessionStep aes) Orderly
    (fun s' => SessionWF s' ∧ s'.client.nbrsets = s.client.nbrsets) (ReturnsDrifted aes) Nat Block (driftOf aes)
    (fun e j drift => drift ^^^ charge aes e j)
    (by
      rintro s' round ⟨hWF', hSets⟩ hOrderly
      obtain ⟨s'', blk, hStep, ⟨hWF'', hSame⟩, hRest⟩ := sessionStep_drifted aes hWF' hOrderly
      exact ⟨s'', blk, hStep, ⟨hWF'', hSame.trans hSets⟩, hRest⟩)
    s ⟨hWF, rfl⟩ rounds hMeets
  refine ⟨events, hTrace, ?_⟩
  intro k e he
  obtain ⟨⟨hWF', hSets⟩, hReturns, hDrift⟩ := hAll k e he
  have hAfter (j : Nat) : driftOf aes e.after j =
      driftOf aes s j ^^^ xorOver (charge aes · j) (events.take (k + 1)) := by
    rw [(hDrift j).2, foldl_xor]
  refine ⟨hAfter, ?_, ?_⟩
  · intro j hj
    rw [hintExact_iff_drift aes _ hWF'.wf (hj.trans_eq hSets.symm)]
    change driftOf aes e.after j = 0 ↔ _
    rw [hAfter]
    exact BitVec.xor_eq_zero_iff.trans eq_comm
  · intro idx draw refresh hInput
    rw [hReturns idx draw refresh hInput, (hDrift _).1, foldl_xor]

/-- A hint that is off by 4, a query whose coin is 1, an addition, and a query of the grown database. -/
def driftRounds : List Round :=
  [.query 0 ⟨true, 0⟩ ⟨Vector.replicate 16 1, 0, ⟨false, 0⟩⟩,
    .addition [9] ⟨fun _ _ => 0, fun _ _ => true, fun _ _ => 0⟩,
    .query 2 ⟨false, 0⟩ ⟨Vector.replicate 16 2, 0, ⟨false, 0⟩⟩]

theorem run_drift_pair :
    ∃ events, trace (sessionStep fun key _ => key) ⟨pairServer, pairClient.putParity 0 5⟩ driftRounds = .ok events ∧
      ∀ k e, events[k]? = some e →
        (∀ j, driftOf (fun key _ => key) e.after j =
          driftOf (fun key _ => key) ⟨pairServer, pairClient.putParity 0 5⟩ j ^^^
            xorOver (charge (fun key _ => key) · j) (events.take (k + 1))) ∧
        (∀ j < pairClient.nbrsets, HintExact (fun key _ => key) e.after.server.db e.after.client j ↔
          xorOver (charge (fun key _ => key) · j) (events.take (k + 1)) =
            driftOf (fun key _ => key) ⟨pairServer, pairClient.putParity 0 5⟩ j) ∧
        ∀ idx draw refresh, e.input = .query idx draw refresh → e.output =
          some (lostBlock (fun key _ => key) e.before idx draw ^^^
            (driftOf (fun key _ => key) ⟨pairServer, pairClient.putParity 0 5⟩
                (e.before.client.selected (fun key _ => key) idx) ^^^
              xorOver (charge (fun key _ => key) · (e.before.client.selected (fun key _ => key) idx))
                (events.take k))) := by
  let renewed : Session := ⟨pairServer, ⟨2, 2, 1, ⟨[⟨Vector.replicate 16 1, 1, [(2, 2)]⟩], [4]⟩,
    Vector.replicate 16 0, 0, 4⟩⟩
  let grown : Session := ⟨⟨3, 2, 1, [1, 0, 9]⟩, ⟨3, 2, 1, ⟨[⟨Vector.replicate 16 1, 1, [(2, 1), (1, 1)]⟩], [13]⟩,
    Vector.replicate 16 0, 0, 4⟩⟩
  apply @run_drift (fun key _ => key) ⟨pairServer, pairClient.putParity 0 5⟩
    ⟨pairClient_wf.putParity 0 5, rfl, rfl, rfl⟩
  refine @Meets.cons _ _ _ _ _ _ _ renewed _ _ ⟨by decide, by decide, fun _ => by decide⟩
    (by decide +kernel) ?_
  refine @Meets.cons _ _ _ _ _ _ _ grown _ _ ⟨by decide, by decide +kernel⟩ (by decide +kernel) ?_
  exact ⟨⟨by decide, by decide, fun _ => by decide⟩, fun _ _ _ => trivial⟩

/-- Rounds that recover their blocks from exact hints do not repair a hint that is not exact, although each
replaces the set: exactly the queries on such hints go wrong. -/
theorem sound_run_keeps_drift {s : Session} (hWF : SessionWF s) {rounds : List Round}
    (hMeets : Meets (sessionStep aes) (fun s round => Admissible aes s round ∧ Sound aes s round) s rounds) :
    ∃ events, trace (sessionStep aes) s rounds = .ok events ∧ ∀ e ∈ events,
      (∀ j < s.client.nbrsets, HintExact aes e.after.server.db e.after.client j ↔
        HintExact aes s.server.db s.client j) ∧
      ∀ idx draw refresh setno, e.input = .query idx draw refresh →
        e.before.client.search aes idx = .ok (some setno) →
        (e.output = some (blockAt e.before.server.db idx) ↔ HintExact aes s.server.db s.client setno) := by
  obtain ⟨events, hTrace, hAll⟩ := @trace_of_invariant _ _ _ _ (sessionStep aes) _
    (fun s' => (SessionWF s' ∧ s'.client.nbrsets = s.client.nbrsets) ∧ ∀ j, driftOf aes s' j = driftOf aes s j)
    (fun e => ∀ idx draw refresh setno, e.input = .query idx draw refresh →
      e.before.client.search aes idx = .ok (some setno) → setno < s.client.nbrsets ∧
        e.output = some (blockAt e.before.server.db idx ^^^ driftOf aes s setno))
    (by
      rintro s' round ⟨⟨hWF', hSets⟩, hKept⟩ ⟨hAdmissible, hSound⟩
      obtain ⟨hOrderly, hUncharged⟩ := sound_uncharged aes hWF' hAdmissible hSound
      obtain ⟨s'', blk, hStep, ⟨hWF'', hSame⟩, hReturns, hDrift⟩ := sessionStep_drifted aes hWF' hOrderly
      refine ⟨s'', blk, hStep, ⟨⟨hWF'', hSame.trans hSets⟩, fun j => ?_⟩, ?_⟩
      · rw [hDrift, hUncharged, BitVec.xor_zero, hKept]
      · intro idx draw refresh setno hInput hFound
        cases hInput
        obtain ⟨hSelected, hLt, hLost⟩ := lostBlock_of_hit aes hWF' hFound hAdmissible.2.2.1
          fun d hd => hSound setno d hFound hd
        refine ⟨hLt.trans_eq hSets, ?_⟩
        rw [hReturns idx draw refresh rfl, hLost, hSelected, hKept])
    s ⟨⟨hWF, rfl⟩, fun _ => rfl⟩ rounds hMeets
  refine ⟨events, hTrace, ?_⟩
  intro e he
  obtain ⟨⟨⟨hWF', hSets⟩, hKept⟩, hReturns⟩ := hAll e he
  constructor
  · intro j hj
    rw [hintExact_iff_drift aes _ hWF'.wf (hj.trans_eq hSets.symm), hintExact_iff_drift aes _ hWF.wf hj]
    exact Eq.congr_left (hKept j)
  · intro idx draw refresh setno hInput hFound
    obtain ⟨hLt, hOutput⟩ := hReturns idx draw refresh setno hInput hFound
    rw [hOutput, hintExact_iff_drift aes _ hWF.wf hLt, Option.some_inj, eq_comm]
    exact eq_xor_self_iff _ _

theorem sound_run_keeps_drift_pair :
    ∃ events, trace (sessionStep fun key _ => key) ⟨pairServer, pairClient.putParity 0 5⟩
        [.addition [9] ⟨fun _ _ => 0, fun _ _ => true, fun _ _ => 0⟩,
          .query 1 ⟨false, 0⟩ ⟨Vector.replicate 16 2, 0, ⟨false, 0⟩⟩] = .ok events ∧
      ∀ e ∈ events,
        (∀ j < pairClient.nbrsets, HintExact (fun key _ => key) e.after.server.db e.after.client j ↔
          HintExact (fun key _ => key) pairServer.db (pairClient.putParity 0 5) j) ∧
        ∀ idx draw refresh setno, e.input = .query idx draw refresh →
          e.before.client.search (fun key _ => key) idx = .ok (some setno) →
          (e.output = some (blockAt e.before.server.db idx) ↔
            HintExact (fun key _ => key) pairServer.db (pairClient.putParity 0 5) setno) := by
  let grown : Session := ⟨⟨3, 2, 1, [1, 0, 9]⟩, ⟨3, 2, 1, ⟨[⟨Vector.replicate 16 0, 1, [(2, 1), (1, 1)]⟩], [13]⟩,
    Vector.replicate 16 0, 0, 0⟩⟩
  apply @sound_run_keeps_drift (fun key _ => key) ⟨pairServer, pairClient.putParity 0 5⟩
    ⟨pairClient_wf.putParity 0 5, rfl, rfl, rfl⟩
  refine @Meets.cons _ _ _ _ _ _ _ grown _ _ ⟨(by decide : 2 + 1 ≤ 2 ^ 31),
    (by decide +kernel : PIRClient.Undrained _ 1 _)⟩ (by decide +kernel) ?_
  exact ⟨⟨⟨by decide, ⟨0, by decide +kernel⟩, rfl, rfl⟩, Sound.of_shifts _ (by decide) _ _ _⟩,
    fun _ _ _ => trivial⟩

end Account

end IncPir
