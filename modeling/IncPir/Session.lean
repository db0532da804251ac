import IncPir.Preparation
import IncPir.QueryRound
import IncPir.ZeroShift
import IncPir.Library.Runs

/-! # Whole runs of server and client

After preparation, a run is any sequence of batched additions and complete
rounds. Two things can spoil a hint: a search that stops at a set without the
index, and a slot that the kick loop draws too often.
-/

namespace IncPir
open LoopM XorFold Runs
set_option autoImplicit false

structure Session where
  server : PIRServer
  client : PIRClient
deriving DecidableEq

inductive Round where
  | addition (blocks : List Block) (draw : AddDraw)
  | query (idx : Nat) (draw : RemoveDraw) (refresh : RefreshDraw)

section Step
variable (aes : Aes)

/-- One complete round; a query outputs the block it recovered. -/
def sessionStep (s : Session) : Round → Except Fault (Session × Option Block)
  | .addition blocks draw => do
    let (server, client) ← additionRound aes s.server s.client blocks draw
    .ok (⟨server, client⟩, none)
  | .query idx draw refresh => do
    let (client, blk) ← queryRound aes s.server s.client idx draw refresh
    .ok (⟨s.server, client⟩, some blk)

/-- The rounds the run may take: the search reports a set and both coins come up 0. -/
def Admissible (s : Session) : Round → Prop
  | .addition blocks _ => s.client.dbrange + blocks.length ≤ 2 ^ 31
  | .query idx draw refresh => idx < s.client.dbrange ∧
      (∃ setno, s.client.search aes idx = .ok (some setno)) ∧
      draw.coin = false ∧ refresh.remove.coin = false

/-- The reported set really has the index, and no slot is overdrawn. -/
def Sound (s : Session) : Round → Prop
  | .addition blocks draw => s.client.Undrained blocks.length draw
  | .query idx _ _ => ∀ setno d, s.client.search aes idx = .ok (some setno) →
      s.client.localhints.sets[setno]? = some d → ¬ FalseHit aes d idx

theorem Sound.of_shifts {s : Session} (h : ∀ d ∈ s.client.localhints.sets, d.shift ≠ 0) (idx : Nat)
    (draw : RemoveDraw) (refresh : RefreshDraw) : Sound aes s (.query idx draw refresh) := by
  intro setno d _ hSet hFalse
  exact h d (List.mem_of_getElem? hSet) hFalse.1

structure SessionExact (s : Session) : Prop where
  wf : ClientWF s.client
  nbrsets : s.server.nbrsets = s.client.nbrsets
  dbrange : s.server.dbrange = s.client.dbrange
  db_length : s.server.db.length = s.client.dbrange
  exact : HintsExact aes s.server.db s.client

def RecoversBlock (e : Event Session Round (Option Block)) : Prop :=
  ∀ idx draw refresh, e.input = .query idx draw refresh →
    e.output = some (blockAt e.before.server.db idx)

theorem additionStep_ok {s : Session} (h : SessionExact aes s) {blocks : List Block} {draw : AddDraw}
    (hRange : s.client.dbrange + blocks.length ≤ 2 ^ 31)
    (hDraw : s.client.Undrained blocks.length draw) :
    ∃ s', sessionStep aes s (.addition blocks draw) = .ok (s', none) ∧ SessionExact aes s' := by
  have hRound := additionRound_eq aes h.wf hDraw hRange h.nbrsets rfl h.dbrange h.db_length
  refine ⟨⟨{ s.server with db := s.server.db ++ blocks, dbrange := s.client.dbrange + blocks.length },
    s.client.moved aes (s.server.db ++ blocks) blocks.length draw⟩, ?_, ⟨moved_wf aes h.wf hDraw hRange _,
    h.nbrsets, rfl, ?_, moved_exact aes h.wf hDraw hRange h.db_length h.exact blocks⟩⟩
  · rw [sessionStep, hRound]
    rfl
  · change (s.server.db ++ blocks).length = s.client.dbrange + blocks.length
    rw [List.length_append, h.db_length]

theorem queryStep_ok {s : Session} (h : SessionExact aes s) {idx : Nat} {draw : RemoveDraw}
    {refresh : RefreshDraw} (hIdx : idx < s.client.dbrange) {setno : Nat}
    (hFound : s.client.search aes idx = .ok (some setno)) (hCoin : draw.coin = false)
    (hRefresh : refresh.remove.coin = false)
    (hHit : ∀ d, s.client.localhints.sets[setno]? = some d → ¬ FalseHit aes d idx) :
    ∃ s', sessionStep aes s (.query idx draw refresh) =
        .ok (s', some (blockAt s.server.db idx)) ∧ SessionExact aes s' := by
  have hWF := h.wf
  obtain ⟨d, hSet, hMem⟩ := expansion_of_search aes hWF hFound hHit
  have hPos : 1 ≤ s.client.nbrsets := by
    have hLt := (List.getElem?_eq_some_iff.mp hSet).1
    rw [hWF.sets_length] at hLt
    omega
  have hParity := parity_of_exact aes s.server.db hWF h.exact hSet
  have hLoss : removalBlock (blockAt s.server.db) (listed aes s.client.mk d) draw idx =
      blockAt s.server.db idx := removalBlock_listed aes hMem hCoin _
  let fresh := freshDesc aes s.client.dbrange s.client.setsize idx refresh
  have hFreshLoss : removalBlock (blockAt s.server.db) (listed aes s.client.mk fresh) refresh.remove idx =
      blockAt s.server.db idx :=
    removalBlock_listed aes (mem_freshDesc aes hWF.setsize_le hWF.dbrange_le hWF.setsize_pos
      s.client.mk hIdx refresh) hRefresh _
  have hBlk : blockAt s.server.db idx = removalBlock (blockAt s.server.db) (listed aes s.client.mk d) draw idx ^^^
      (setHint aes s.server.db s.client.mk d ^^^ setHint aes s.server.db s.client.mk d) := by
    rw [hLoss, xor_xor_self]
  have hCoins : draw.coin = true ∨ refresh.remove.coin = true → 2 ≤ s.client.setsize := by
    simp [hCoin, hRefresh]
  obtain ⟨c', hRound, hAfter⟩ := queryRound_eq aes hWF h.db_length hIdx hSet hParity hBlk hPos hCoins
  refine ⟨⟨s.server, c'⟩, ?_, ⟨hAfter.wf, ?_, ?_, ?_, ?_⟩⟩
  · rw [sessionStep, hRound]
    rfl
  · exact h.nbrsets.trans hAfter.nbrsets.symm
  · exact h.dbrange.trans hAfter.dbrange.symm
  · exact h.db_length.trans hAfter.dbrange.symm
  · apply (hintsExact_iff aes s.server.db hAfter.wf).mpr
    rw [hAfter.parities, hAfter.sets, hAfter.mk, List.map_set, hFreshLoss, xor_xor_cancel_right,
      (hintsExact_iff aes s.server.db hWF).mp h.exact]

theorem sessionStep_ok {s : Session} (h : SessionExact aes s) (round : Round)
    (hAdmissible : Admissible aes s round) (hSound : Sound aes s round) :
    ∃ s' blk, sessionStep aes s round = .ok (s', blk) ∧ SessionExact aes s' ∧
      RecoversBlock ⟨s, round, blk, s'⟩ := by
  cases round with
  | addition blocks draw =>
    obtain ⟨s', hStep, hExact⟩ := additionStep_ok aes h hAdmissible hSound
    refine ⟨s', none, hStep, hExact, ?_⟩
    intro idx draw' refresh hInput
    cases hInput
  | query idx draw refresh =>
    obtain ⟨hIdx, ⟨setno, hFound⟩, hCoin, hRefresh⟩ := hAdmissible
    obtain ⟨s', hStep, hExact⟩ := queryStep_ok aes h hIdx hFound hCoin hRefresh
      (fun d hd => hSound setno d hFound hd)
    refine ⟨s', _, hStep, hExact, ?_⟩
    intro idx' draw' refresh' hInput
    cases hInput
    rfl

end Step

/-- In every run whose rounds meet the condition, every hint is exact at every boundary and every
query returns its block. -/
theorem session_exact (aes : Aes) {server : PIRServer} (hPos : 1 ≤ server.setsize)
    (hLe : server.setsize ≤ server.dbrange) (hRange : server.dbrange ≤ 2 ^ 31)
    (hDb : server.db.length = server.dbrange) (mk : Key) (sk : Nat → Key) (rand : Nat → Nat) :
    ∃ c₀ c₁, newPIRClient server.dbrange server.setsize server.nbrsets mk sk rand = .ok c₀ ∧
      prepare aes server c₀ = .ok c₁ ∧ HintsExact aes server.db c₁ ∧
      ∀ rounds, Meets (sessionStep aes) (fun s round => Admissible aes s round ∧ Sound aes s round)
          ⟨server, c₁⟩ rounds →
        ∃ events, trace (sessionStep aes) ⟨server, c₁⟩ rounds = .ok events ∧
          ∀ e ∈ events, HintsExact aes e.after.server.db e.after.client ∧ RecoversBlock e := by
  obtain ⟨c₁, hPrepare, hWF, hSize, hSets, hExact⟩ := prepare_ok aes mk sk rand hPos hLe hRange hDb
  refine ⟨_, c₁, newPIRClient_eq _ mk sk rand hPos hLe, hPrepare, hExact, ?_⟩
  intro rounds hMeets
  have hStart : SessionExact aes ⟨server, c₁⟩ :=
    ⟨hWF, hSets.symm, hSize.symm, hDb.trans hSize.symm, hExact⟩
  obtain ⟨events, hTrace, hAll⟩ := @trace_of_invariant _ _ _ _ (sessionStep aes) _
    (SessionExact aes) RecoversBlock
    (fun s round hInv hCond => sessionStep_ok aes hInv round hCond.1 hCond.2) _ hStart _ hMeets
  refine ⟨events, hTrace, ?_⟩
  intro e he
  obtain ⟨hInv, hGood⟩ := hAll e he
  exact ⟨hInv.exact, hGood⟩

/-- An addition, a query for the new index, and a query on the refreshed set. -/
def pairRounds : List Round :=
  [.addition [9] ⟨fun _ _ => 0, fun _ _ => true, fun _ _ => 0⟩,
    .query 2 ⟨false, 0⟩ ⟨Vector.replicate 16 2, 0, ⟨false, 0⟩⟩,
    .query 1 ⟨false, 0⟩ ⟨Vector.replicate 16 4, 0, ⟨false, 0⟩⟩]

theorem pairRounds_meet : Meets (sessionStep fun key _ => key)
    (fun s round => Admissible (fun key _ => key) s round ∧ Sound (fun key _ => key) s round)
    ⟨⟨2, 2, 1, [5, 7]⟩, ⟨2, 2, 1, ⟨[⟨Vector.replicate 16 0, 1, [(2, 2)]⟩], [2]⟩, Vector.replicate 16 1, 0, 0⟩⟩
    pairRounds := by
  let grown : Session := ⟨⟨3, 2, 1, [5, 7, 9]⟩, ⟨3, 2, 1, ⟨[⟨Vector.replicate 16 0, 1, [(2, 1), (1, 1)]⟩], [14]⟩,
    Vector.replicate 16 1, 0, 0⟩⟩
  let refreshed : Session := ⟨⟨3, 2, 1, [5, 7, 9]⟩, ⟨3, 2, 1, ⟨[⟨Vector.replicate 16 2, 2, [(3, 2)]⟩], [14]⟩,
    Vector.replicate 16 1, 0, 9⟩⟩
  refine @Meets.cons _ _ _ _ _ _ _ grown _ _ ⟨(by decide : 2 + 1 ≤ 2 ^ 31),
    (by decide +kernel : PIRClient.Undrained _ 1 _)⟩ (by decide +kernel) ?_
  refine @Meets.cons _ _ _ _ _ _ _ refreshed _ _ ⟨⟨by decide, ⟨0, by decide +kernel⟩, rfl, rfl⟩,
    Sound.of_shifts _ (by decide) _ _ _⟩ (by decide +kernel) ?_
  exact ⟨⟨⟨by decide, ⟨0, by decide +kernel⟩, rfl, rfl⟩, Sound.of_shifts _ (by decide) _ _ _⟩,
    fun _ _ _ => trivial⟩

theorem session_exact_pair :
    ∃ c₁, (newPIRClient 2 2 1 (Vector.replicate 16 1) (fun _ => Vector.replicate 16 0) (fun _ => 1) >>=
        prepare (fun key _ => key) ⟨2, 2, 1, [5, 7]⟩) = .ok c₁ ∧
      ∃ events, trace (sessionStep fun key _ => key) ⟨⟨2, 2, 1, [5, 7]⟩, c₁⟩ pairRounds = .ok events ∧
        ∀ e ∈ events, HintsExact (fun key _ => key) e.after.server.db e.after.client ∧
          RecoversBlock e := by
  obtain ⟨c₀, c₁, hNew, hPrepare, -, hRuns⟩ := @session_exact (fun key _ => key) ⟨2, 2, 1, [5, 7]⟩
    (by decide) (by decide) (by decide) rfl (Vector.replicate 16 1) (fun _ => Vector.replicate 16 0)
    (fun _ => 1)
  have hBoth : (newPIRClient 2 2 1 (Vector.replicate 16 1) (fun _ => Vector.replicate 16 0) (fun _ => 1) >>=
      prepare (fun key _ => key) ⟨2, 2, 1, [5, 7]⟩) = .ok c₁ := by
    rw [hNew]
    exact hPrepare
  have hClient : c₁ = ⟨2, 2, 1, ⟨[⟨Vector.replicate 16 0, 1, [(2, 2)]⟩], [2]⟩,
      Vector.replicate 16 1, 0, 0⟩ := by
    have hComputed : (newPIRClient 2 2 1 (Vector.replicate 16 1) (fun _ => Vector.replicate 16 0)
        (fun _ => 1) >>= prepare (fun key _ => key) ⟨2, 2, 1, [5, 7]⟩) =
          .ok ⟨2, 2, 1, ⟨[⟨Vector.replicate 16 0, 1, [(2, 2)]⟩], [2]⟩, Vector.replicate 16 1, 0, 0⟩ := by
      decide +kernel
    exact Except.ok.inj (hBoth.symm.trans hComputed)
  refine ⟨c₁, hBoth, hRuns _ ?_⟩
  rw [hClient]
  exact pairRounds_meet

/-- The search accepts a set without shift for index 1, which the set does not list. -/
theorem session_wrong_block :
    ∃ c₀ c₁, newPIRClient 2 1 1 (Vector.replicate 16 1) (fun _ => Vector.replicate 16 0) (fun _ => 0) =
        .ok c₀ ∧
      prepare (fun key _ => key) ⟨2, 1, 1, [0, 1]⟩ c₀ = .ok c₁ ∧
      Admissible (fun key _ => key) ⟨⟨2, 1, 1, [0, 1]⟩, c₁⟩
        (.query 1 ⟨false, 0⟩ ⟨Vector.replicate 16 2, 0, ⟨false, 0⟩⟩) ∧
      (sessionStep (fun key _ => key) ⟨⟨2, 1, 1, [0, 1]⟩, c₁⟩
        (.query 1 ⟨false, 0⟩ ⟨Vector.replicate 16 2, 0, ⟨false, 0⟩⟩)).map Prod.snd = .ok (some 0) ∧
      blockAt [0, 1] 1 ≠ 0 := by
  refine ⟨⟨2, 1, 1, ⟨[⟨Vector.replicate 16 0, 0, [(2, 1)]⟩], [0]⟩, Vector.replicate 16 1, 0, 0⟩,
    ⟨2, 1, 1, ⟨[⟨Vector.replicate 16 0, 0, [(2, 1)]⟩], [0]⟩, Vector.replicate 16 1, 0, 0⟩,
    by decide +kernel, by decide +kernel, ⟨by decide, ⟨0, by decide +kernel⟩, rfl, rfl⟩,
    by decide +kernel, by decide +kernel⟩

end IncPir
