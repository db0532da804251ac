import IncPir.Ck.Recovery
import IncPir.Library.Runs

/-! # Rounds with refresh

A refresh gives the set a new key and punctures it where the last online query
found its index, not at the position that the new shift maps to the index. The
stored hint is exact when both positions lead to equal blocks.
-/

namespace CkPir
open IncPir (Key Block Database Fault elemAt storeAt modBy u32 sub32 elemAt_of_getElem? modBy_of_pos u32_of_lt
  sub32_of_le blockAt elemAt_blockAt parityLoop_eq)
open LoopM XorFold Runs
set_option autoImplicit false

/-- The index of a round, and the fresh key and the `rand()` value of its refresh. -/
structure RefreshRound where
  idx : Nat
  key : Key
  rand : Nat

section Definitions
variable (prg : Prg)

/-- One query with refresh, as `main` and `NetClient` drive it. -/
def refreshRound (server : PIRServer) (c : PIRClient) (round : RefreshRound) :
    Except Fault (PIRClient × Block) := do
  let (c, onlineQry) ← c.generateOnlineQuery prg round.idx
  let onlineReply ← server.generateOnlineReply prg onlineQry
  let blk ← c.recoverBlock onlineReply
  let (c, refreshQuery) ← c.generateRefreshQuery prg round.idx round.key round.rand
  let refreshReply ← server.generateOnlineReply prg refreshQuery
  let c ← c.storeHint (blk ^^^ refreshReply.parity)
  .ok (c, blk)

/-- The exclusive-or of the database over the points of a set, by plain evaluation. -/
def expectedHint (db : Database) (c : PIRClient) (d : SetDesc) : Except Fault Block :=
  (List.range (2 ^ (c.lgn / 2))).foldlM (fun hint i => do
    let y ← eval prg d.prfKey i c.lgn c.dbrange
    let blk ← elemAt db (u32 (y + d.shift) % c.dbrange)
    .ok (hint ^^^ blk)) 0

def HintExact (db : Database) (c : PIRClient) (s : Nat) : Prop :=
  ∃ d ∈ c.sets[s]?, expectedHint prg db c d = .ok d.hint

instance (db : Database) (c : PIRClient) (s : Nat) : Decidable (HintExact prg db c s) :=
  inferInstanceAs (Decidable (∃ d ∈ c.sets[s]?, expectedHint prg db c d = .ok d.hint))

def HintsExact (db : Database) (c : PIRClient) : Prop := ∀ s < c.nbrsets, HintExact prg db c s

instance (db : Database) (c : PIRClient) : Decidable (HintsExact prg db c) :=
  inferInstanceAs (Decidable (∀ s < c.nbrsets, HintExact prg db c s))

/-- Where the new set leads from position `i` when its shift maps position `r` to the index. -/
def stalePoint (n : Nat) (key : Key) (idx r i : Nat) : Nat :=
  (leafOf prg n key i + (idx + n - leafOf prg n key r) % n) % n

/-- The position that the refresh punctures leads to a block equal to the one of the index. -/
def SameBlock (db : Database) (c : PIRClient) (round : RefreshRound) (i : Nat) : Prop :=
  blockAt db (stalePoint prg c.dbrange round.key round.idx (round.rand % c.setsize) i) =
    blockAt db round.idx

instance (db : Database) (c : PIRClient) (round : RefreshRound) (i : Nat) : Decidable (SameBlock prg db c round i) :=
  inferInstanceAs (Decidable (_ = _))

end Definitions

section Exact
variable (prg : Prg) {c : PIRClient} {db : Database}

theorem expectedHint_eq (hWF : ClientWF c) (hDb : db.length = c.dbrange) (d : SetDesc) :
    expectedHint prg db c d = .ok (setHint prg c.dbrange db d) := by
  have hStep : ∀ i ∈ List.range (2 ^ (c.lgn / 2)), ∀ hint : Block,
      (do
        let y ← eval prg d.prfKey i c.lgn c.dbrange
        let blk ← elemAt db (u32 (y + d.shift) % c.dbrange)
        .ok (hint ^^^ blk)) =
      (.ok (hint ^^^ blockAt db (point prg c.dbrange d i)) : Except Fault Block) := by
    intro i hi hint
    rw [hWF.lgn] at hi ⊢
    have hi' : i < 2 ^ lgnOf c.dbrange :=
      Nat.lt_of_lt_of_le (List.mem_range.mp hi) (setPoints_le c.dbrange)
    rw [eval_eq prg hi', ok_bind, ← leafOf, blockAt_point prg hWF.size hDb, ok_bind]
  refine (parityLoop_eq db hStep 0).trans ?_
  rw [hWF.lgn]
  exact congrArg Except.ok BitVec.zero_xor

theorem hintExact_iff (hWF : ClientWF c) (hDb : db.length = c.dbrange) {s : Nat} {d : SetDesc}
    (hSet : c.sets[s]? = some d) : HintExact prg db c s ↔ d.hint = setHint prg c.dbrange db d := by
  rw [HintExact, hSet]
  constructor
  · rintro ⟨d', hMem, hHint⟩
    cases Option.mem_some_iff.mp hMem
    rw [expectedHint_eq prg hWF hDb] at hHint
    exact (Except.ok.inj hHint).symm
  · intro hHint
    exact ⟨d, rfl, by rw [expectedHint_eq prg hWF hDb, hHint]⟩

end Exact

section Round
variable (prg : Prg)

/-- The set that a refresh leaves behind, before its new hint is stored. -/
def freshSet (n setsize : Nat) (round : RefreshRound) (hint : Block) : SetDesc :=
  ⟨round.key, (round.idx + n - leafOf prg n round.key (round.rand % setsize)) % n, hint⟩

theorem point_freshSet {n : Nat} (hSize : SizeWF n) (setsize : Nat) (round : RefreshRound) (hint : Block)
    (i : Nat) : point prg n (freshSet prg n setsize round hint) i =
      stalePoint prg n round.key round.idx (round.rand % setsize) i := by
  have hLeaf := leafOf_lt prg hSize round.key i
  have hShift := Nat.mod_lt (round.idx + n - leafOf prg n round.key (round.rand % setsize)) hSize.pos
  have hLt := hSize.lt
  rw [point, stalePoint, freshSet]
  dsimp only
  rw [u32_of_lt (by omega)]

structure RefreshWF (c : PIRClient) : Prop extends ClientWF c where
  setsize : c.setsize = setPoints c.dbrange

variable {c : PIRClient}

theorem generateRefreshQuery_eq (hWF : RefreshWF c) {round : RefreshRound} (hIdx : round.idx < c.dbrange)
    {s i : Nat} {d : SetDesc} (hSet : c.sets[s]? = some d) :
    PIRClient.generateRefreshQuery prg { c with puncX := i, curQrySetno := s } round.idx round.key round.rand =
      .ok ({ c with
          puncX := i
          curQrySetno := s
          sets := c.sets.set s (freshSet prg c.dbrange c.setsize round d.hint) },
        c.puncturedQuery prg (freshSet prg c.dbrange c.setsize round d.hint) i) := by
  have hSize := hWF.size
  have hPos := hSize.pos
  have hLt := hSize.lt
  have hPoints : 0 < c.setsize := by
    rw [hWF.setsize]
    exact Nat.two_pow_pos _
  have hDraw : round.rand % c.setsize < 2 ^ lgnOf c.dbrange :=
    Nat.lt_of_lt_of_le (Nat.mod_lt _ hPoints) (hWF.setsize ▸ setPoints_le c.dbrange)
  have hLeaf := leafOf_lt prg hSize round.key (round.rand % c.setsize)
  have hShift : sub32 (u32 (round.idx + c.dbrange)) (leafOf prg c.dbrange round.key (round.rand % c.setsize)) =
      round.idx + c.dbrange - leafOf prg c.dbrange round.key (round.rand % c.setsize) := by
    rw [u32_of_lt (by omega), sub32_of_le (by omega) (by omega)]
  have hEval : eval prg round.key (round.rand % c.setsize) c.lgn c.dbrange =
      .ok (leafOf prg c.dbrange round.key (round.rand % c.setsize)) := by
    rw [hWF.lgn]
    exact eval_eq prg hDraw round.key c.dbrange
  have hStore : s < c.sets.length := (List.getElem?_eq_some_iff.mp hSet).1
  simp only [PIRClient.generateRefreshQuery]
  rw [elemAt_of_getElem? hSet, ok_bind, modBy_of_pos hPoints, ok_bind, hEval, ok_bind, hShift, modBy_of_pos hPos,
    ok_bind, storeAt, if_pos hStore, ok_bind]
  rfl

/-- The client that a round leaves when the search found position `i` of set `s`. -/
def PIRClient.refreshed (c : PIRClient) (db : Database) (round : RefreshRound) (s i : Nat) : PIRClient :=
  { c with
    puncX := i
    curQrySetno := s
    sets := c.sets.set s (freshSet prg c.dbrange c.setsize round (blockAt db round.idx ^^^
      (setHint prg c.dbrange db (freshSet prg c.dbrange c.setsize round 0) ^^^
        blockAt db (stalePoint prg c.dbrange round.key round.idx (round.rand % c.setsize) i)))) }

/-- The client that a round leaves, when it recovered `blk` with position `i` of set `s`. -/
def PIRClient.renewed (c : PIRClient) (prg : Prg) (db : Database) (round : RefreshRound) (s i : Nat) (blk : Block) :
    PIRClient :=
  { c with
    puncX := i
    curQrySetno := s
    sets := c.sets.set s (freshSet prg c.dbrange c.setsize round (blk ^^^
      (setHint prg c.dbrange db (freshSet prg c.dbrange c.setsize round 0) ^^^
        blockAt db (stalePoint prg c.dbrange round.key round.idx (round.rand % c.setsize) i)))) }

theorem refreshRound_eq (hWF : RefreshWF c) {db : Database} (hDb : db.length = c.dbrange)
    {round : RefreshRound} {s i : Nat} {d : SetDesc} (hFound : c.firstPoint prg round.idx = some (s, i))
    (hSet : c.sets[s]? = some d) {blk : Block}
    (hBlk : blk = blockAt db round.idx ^^^ (d.hint ^^^ setHint prg c.dbrange db d)) :
    refreshRound prg (setDatabase c.dbrange db) c round = .ok (c.renewed prg db round s i blk, blk) := by
  obtain ⟨d', hSet', hi, hPoint⟩ := firstPoint_some prg hFound
  cases hSet.symm.trans hSet'
  have hIdx : round.idx < c.dbrange := by
    rw [← hPoint]
    exact point_lt prg hWF.size d i
  have hStore : s < c.sets.length := (List.getElem?_eq_some_iff.mp hSet).1
  rw [← hPoint] at hBlk
  obtain ⟨reply, hReply, hRecover⟩ := onlineReply_eq prg hWF.toClientWF hDb hi hSet hBlk
  have hFresh := generateOnlineReply_eq prg hWF.size hDb hWF.lgn
    (freshSet prg c.dbrange c.setsize round d.hint) hi
  rw [point_freshSet prg hWF.size] at hFresh
  rw [refreshRound, generateOnlineQuery_eq prg hWF.toClientWF hFound hSet, ok_bind]
  dsimp only
  rw [hReply, ok_bind, hRecover, ok_bind, generateRefreshQuery_eq prg hWF hIdx hSet, ok_bind]
  dsimp only
  rw [hFresh, ok_bind, PIRClient.storeHint]
  dsimp only
  rw [elemAt_of_getElem? (List.getElem?_set_self hStore), ok_bind, storeAt,
    if_pos (by rw [List.length_set]; exact hStore), ok_bind, List.set_set]
  rfl

theorem renewed_wf (hWF : RefreshWF c) (db : Database) (round : RefreshRound) (s i : Nat) (blk : Block) :
    RefreshWF (c.renewed prg db round s i blk) where
  size := hWF.size
  lgn := hWF.lgn
  sets_length := (List.length_set ..).trans hWF.sets_length
  setsize := hWF.setsize

theorem refreshed_wf (hWF : RefreshWF c) (db : Database) (round : RefreshRound) (s i : Nat) :
    RefreshWF (c.refreshed prg db round s i) := renewed_wf prg hWF db round s i (blockAt db round.idx)

theorem refreshed_exact_iff (hWF : RefreshWF c) {db : Database} (hDb : db.length = c.dbrange)
    {round : RefreshRound} {s : Nat} (hs : s < c.sets.length) (i : Nat) :
    HintExact prg db (c.refreshed prg db round s i) s ↔ SameBlock prg db c round i := by
  have hAfter := (refreshed_wf prg hWF db round s i).toClientWF
  rw [hintExact_iff prg hAfter hDb (List.getElem?_set_self hs), SameBlock, BitVec.xor_comm]
  exact xor_xor_eq_self_iff _ _ _

theorem refreshed_untouched (db : Database) (round : RefreshRound) {s s' : Nat} (h : s' ≠ s) (i : Nat) :
    (c.refreshed prg db round s i).sets[s']? = c.sets[s']? := List.getElem?_set_ne h.symm

end Round

section Runs
variable (prg : Prg)

structure RefreshExact (n : Nat) (db : Database) (c : PIRClient) : Prop extends RefreshWF c where
  dbrange : c.dbrange = n
  exact : HintsExact prg db c

variable {n : Nat} {db : Database} (hDb : db.length = n)
include hDb

theorem RefreshExact.hint {c : PIRClient} (h : RefreshExact prg n db c) {s : Nat} {d : SetDesc}
    (hSet : c.sets[s]? = some d) : d.hint = setHint prg c.dbrange db d := by
  have hs : s < c.nbrsets := by
    rw [← h.sets_length]
    exact (List.getElem?_eq_some_iff.mp hSet).1
  exact (hintExact_iff prg h.toClientWF (hDb.trans h.dbrange.symm) hSet).mp (h.exact s hs)

theorem refreshRound_ok {c : PIRClient} (h : RefreshExact prg n db c) {round : RefreshRound} {s i : Nat}
    (hFound : c.firstPoint prg round.idx = some (s, i)) :
    refreshRound prg (setDatabase n db) c round =
      .ok (c.refreshed prg db round s i, blockAt db round.idx) ∧ s < c.sets.length := by
  obtain ⟨d, hSet, -, -⟩ := firstPoint_some prg hFound
  have hRange := h.dbrange
  subst hRange
  have hBlk : blockAt db round.idx = blockAt db round.idx ^^^ (d.hint ^^^ setHint prg c.dbrange db d) := by
    rw [h.hint prg hDb hSet, xor_xor_self]
  exact ⟨refreshRound_eq prg h.toRefreshWF hDb hFound hSet hBlk, (List.getElem?_eq_some_iff.mp hSet).1⟩

theorem refreshed_exact {c : PIRClient} (h : RefreshExact prg n db c) {round : RefreshRound} {s i : Nat}
    (hs : s < c.sets.length) (hSame : SameBlock prg db c round i) :
    RefreshExact prg n db (c.refreshed prg db round s i) where
  toRefreshWF := refreshed_wf prg h.toRefreshWF db round s i
  dbrange := h.dbrange
  exact := by
    intro s' hs'
    have hRange := hDb.trans h.dbrange.symm
    have hAfter := refreshed_wf prg h.toRefreshWF db round s i
    by_cases hCurrent : s' = s
    · subst hCurrent
      exact (refreshed_exact_iff prg h.toRefreshWF hRange hs i).mpr hSame
    · have hLt : s' < c.sets.length := h.sets_length ▸ hs'
      have hSet := List.getElem?_eq_getElem hLt
      exact (hintExact_iff prg hAfter.toClientWF hRange
        ((refreshed_untouched prg db round hCurrent i).trans hSet)).mpr (h.hint prg hDb hSet)

end Runs

/-- The round finds its index, and the refresh punctures at a position with the same block. -/
def Harmless (prg : Prg) (db : Database) (c : PIRClient) (round : RefreshRound) : Prop :=
  ∃ s i, c.firstPoint prg round.idx = some (s, i) ∧ SameBlock prg db c round i

/-- A round leaves the hint exact exactly when it punctures at a harmless position, and a run of such
rounds recovers every block. -/
theorem refresh_exact_iff (prg : Prg) {n : Nat} (hPos : 2 ≤ n) (hLt : n < 2 ^ 31) {db : Database}
    (hDb : db.length = n) {c : PIRClient} (hLgn : c.lgn = lgnOf n) (hRange : c.dbrange = n)
    (hSets : c.sets.length = c.nbrsets) (hSetsize : c.setsize = 2 ^ (lgnOf n / 2))
    (hExact : HintsExact prg db c) :
    (∀ round c₁ query, c.generateOnlineQuery prg round.idx = .ok (c₁, query) →
      ∃ s i c', c.firstPoint prg round.idx = some (s, i) ∧
        refreshRound prg (setDatabase n db) c round = .ok (c', blockAt db round.idx) ∧
        c'.curQrySetno = s ∧ (∀ s', s' ≠ s → c'.sets[s']? = c.sets[s']?) ∧
        (HintExact prg db c' s ↔ SameBlock prg db c round i)) ∧
    ∀ rounds, Meets (refreshRound prg (setDatabase n db)) (Harmless prg db) c rounds →
      ∃ events, trace (refreshRound prg (setDatabase n db)) c rounds = .ok events ∧
        ∀ e ∈ events, HintsExact prg db e.after ∧ e.output = blockAt db e.input.idx := by
  have hWF : RefreshWF c := ⟨⟨⟨by omega, by omega⟩, by rw [hLgn, hRange], hSets⟩, by rw [hSetsize, hRange]; rfl⟩
  have hStart : RefreshExact prg n db c := ⟨hWF, hRange, hExact⟩
  constructor
  · intro round c₁ query hQuery
    obtain ⟨s, i, d, hFound, hSet, -, -⟩ := (generateOnlineQuery_ok_iff prg hWF.toClientWF round.idx).mp hQuery
    obtain ⟨hRound, hs⟩ := refreshRound_ok prg hDb hStart hFound
    exact ⟨s, i, _, hFound, hRound, rfl, fun s' hs' => refreshed_untouched prg db round hs' i,
      refreshed_exact_iff prg hWF (hDb.trans hRange.symm) hs i⟩
  · intro rounds hMeets
    obtain ⟨events, hTrace, hAll⟩ := @trace_of_invariant _ _ _ _ (refreshRound prg (setDatabase n db)) _
      (RefreshExact prg n db) (fun e => e.output = blockAt db e.input.idx)
      (by
        rintro c round hInv ⟨s, i, hFound, hSame⟩
        obtain ⟨hRound, hs⟩ := refreshRound_ok prg hDb hInv hFound
        exact ⟨_, _, hRound, refreshed_exact prg hDb hInv hs hSame, rfl⟩) _ hStart _ hMeets
    refine ⟨events, hTrace, ?_⟩
    intro e he
    exact ⟨(hAll e he).1.exact, (hAll e he).2⟩

def countClient : PIRClient := ⟨2, 4, 2, 1, 0, 0, [⟨Vector.replicate 16 0, 1, 6⟩]⟩

/-- The database in which the refresh of `countClient` for index 1 punctures at index 0, which has the same block. -/
def twinDb : Database := [2, 2, 4, 8]

/-- The client after that refresh. -/
def twinClient : PIRClient := ⟨2, 4, 2, 1, 0, 0, [⟨Vector.replicate 16 0, 0, 0⟩]⟩

def twinRound : RefreshRound := ⟨1, Vector.replicate 16 0, 1⟩

theorem twinRound_harmless : Harmless countPrg twinDb countClient twinRound :=
  ⟨0, 0, by decide +kernel, by decide +kernel⟩

theorem twinRound_ok : refreshRound countPrg (setDatabase 4 twinDb) countClient twinRound = .ok (twinClient, 2) := by
  decide +kernel

/-- The second refresh punctures the index it asks for. -/
theorem refresh_exact_iff_four :
    (∃ s i c', countClient.firstPoint countPrg 1 = some (s, i) ∧
      refreshRound countPrg (setDatabase 4 twinDb) countClient twinRound = .ok (c', blockAt twinDb 1) ∧
      c'.curQrySetno = s ∧ (∀ s', s' ≠ s → c'.sets[s']? = countClient.sets[s']?) ∧
      (HintExact countPrg twinDb c' s ↔ SameBlock countPrg twinDb countClient twinRound i)) ∧
    ∃ events, trace (refreshRound countPrg (setDatabase 4 twinDb)) countClient [twinRound, twinRound] = .ok events ∧
      ∀ e ∈ events, HintsExact countPrg twinDb e.after ∧ e.output = blockAt twinDb e.input.idx := by
  obtain ⟨hRound, hRuns⟩ := @refresh_exact_iff countPrg 4 (by decide) (by decide) twinDb rfl
    countClient rfl rfl rfl rfl (by decide +kernel)
  have hQuery : countClient.generateOnlineQuery countPrg 1 =
      .ok ({ countClient with puncX := 0 }, ⟨2, 0, [(countPrg (Vector.replicate 16 0)).2,
        (countPrg (Vector.replicate 16 0)).2], 1⟩) := by
    decide +kernel
  exact ⟨hRound twinRound _ _ hQuery, hRuns _ (@Meets.cons _ _ _ _ _ _ _ twinClient _ _ twinRound_harmless
    (by rw [twinRound_ok]; rfl) ⟨⟨0, 1, by decide +kernel, by decide +kernel⟩, fun _ _ _ => trivial⟩)⟩

/-- The search finds index 1 at position 0, and the new set has it at position 1. -/
theorem refresh_not_exact :
    HintsExact countPrg [1, 2, 4, 8] countClient ∧
    ∃ c', refreshRound countPrg (setDatabase 4 [1, 2, 4, 8]) countClient ⟨1, Vector.replicate 16 0, 1⟩ =
        .ok (c', 2) ∧
      ¬ HintExact countPrg [1, 2, 4, 8] c' c'.curQrySetno ∧
      (refreshRound countPrg (setDatabase 4 [1, 2, 4, 8]) c' ⟨1, Vector.replicate 16 0, 1⟩).map Prod.snd =
        .ok 1 ∧
      blockAt [1, 2, 4, 8] 1 = 2 := by
  refine ⟨by decide +kernel, ⟨2, 4, 2, 1, 0, 0, [⟨Vector.replicate 16 0, 0, 0⟩]⟩, by decide +kernel,
    by decide +kernel, by decide +kernel, by decide +kernel⟩

end CkPir
