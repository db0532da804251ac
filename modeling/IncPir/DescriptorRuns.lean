import IncPir.Preparation
import IncPir.OnlineRound
import IncPir.QueryRound
import IncPir.Library.Runs

/-! # Set descriptors over whole runs of the client

The kick loop keeps a slot list genuine as long as it draws no slot more often
than its count; the prefix sums that it draws against are not refreshed.
-/

namespace IncPir
open LoopM Runs
set_option autoImplicit false

/-- The operations that change descriptors. An earlier online query may have selected any set. -/
inductive ClientStep where
  | addition (nbrAdd : Nat) (draw : AddDraw)
  | refresh (setno idx : Nat) (draw : RefreshDraw)

section Step
variable (aes : Aes)

def clientStep (c : PIRClient) : ClientStep → Except Fault (PIRClient × Option UpdateQueryAdd)
  | .addition nbrAdd draw => do
    let (c, qry) ← c.batchedAdditionQuery nbrAdd draw
    .ok (c, some qry)
  | .refresh setno idx draw => do
    let (c, _) ← { c with curQrySetno := setno }.generateRefreshQuery aes idx draw
    .ok (c, none)

/-- For one-element sets the coin of the removal has probability 0 of coming up 1. -/
def Legal (c : PIRClient) : ClientStep → Prop
  | .addition nbrAdd _ => c.dbrange + nbrAdd ≤ 2 ^ 31
  | .refresh setno _ draw => setno < c.nbrsets ∧ (draw.remove.coin = true → 2 ≤ c.setsize)

def KeepsSlots (c : PIRClient) : ClientStep → Prop
  | .addition nbrAdd draw => c.Undrained nbrAdd draw
  | .refresh _ _ _ => True

def DescriptorsWF (c : PIRClient) : Prop := ∀ d ∈ c.localhints.sets, AuxWF c.dbrange c.setsize d.aux

def DecrementsPositive (c : PIRClient) (nbrAdd : Nat) (draw : AddDraw) : Prop :=
  ∀ s d, c.localhints.sets[s]? = some d → ∀ i < c.sampled nbrAdd draw s, ∃ cur slot t,
    kickOut d.aux i (draw.fall s) = .ok cur ∧
    kickSlot (counters 0 d.aux) (draw.fall s i % countSum d.aux) = .ok (some slot) ∧
    cur[slot]? = some t ∧ 0 < t.2

/-- What `DiffSetDesc` promises: one slot more, the common ranges, no count above the previous one. -/
def DiffWF (diff : DiffSetDesc) : Prop :=
  diff.auxCurr.length = diff.auxPrev.length + 1 ∧
    ∀ (j : Nat) (t : Nat × Nat), diff.auxPrev[j]? = some t →
      ∃ u : Nat × Nat, diff.auxCurr[j]? = some u ∧ u.1 = t.1 ∧ u.2 ≤ t.2

/-- No read of the server goes past the database and no check of it fails. -/
def ReplyReturns (dbrange nbrsets : Nat) (qry : UpdateQueryAdd) : Prop :=
  ∀ server : PIRServer, server.nbrsets = nbrsets → server.db.length = dbrange →
    ∃ reply, server.batchedAdditionReply aes qry = .ok reply

def StepSafe (e : Event PIRClient ClientStep (Option UpdateQueryAdd)) : Prop :=
  DescriptorsWF e.after ∧ ∀ nbrAdd draw, e.input = .addition nbrAdd draw →
    DecrementsPositive e.before nbrAdd draw ∧
    ∃ qry, e.output = some qry ∧ (∀ diff ∈ qry.diffsets, DiffWF diff) ∧
      ReplyReturns aes e.after.dbrange e.after.nbrsets qry

theorem ClientWF.descriptors {c : PIRClient} (h : ClientWF c) : DescriptorsWF c := fun d hd =>
  (h.sets_wf d hd).toAuxWF

theorem Lowers.getElem? {prev low : Aux} (h : Lowers prev low) {j : Nat} {t : Nat × Nat}
    (ht : prev[j]? = some t) : ∃ u, low[j]? = some u ∧ u.1 = t.1 ∧ u.2 ≤ t.2 := by
  induction h generalizing j with
  | nil => cases ht
  | cons hHead _ ih =>
    cases j with
    | zero =>
      cases ht
      exact ⟨_, rfl, hHead⟩
    | succ j => exact ih ht

theorem Extends.diffWF {prev cur : Aux} {n : Nat} (h : Extends prev cur n) (sk : Key) (shift : Nat) :
    DiffWF ⟨sk, shift, prev, cur⟩ := by
  obtain ⟨low, ell, hLow, rfl, -⟩ := h
  constructor
  · rw [List.length_append, hLow.length_eq]
    rfl
  · intro j t ht
    obtain ⟨u, hu, hBelow⟩ := hLow.getElem? ht
    have hLt : j < low.length := (List.getElem?_eq_some_iff.mp hu).1
    exact ⟨u, (List.getElem?_append_left hLt).trans hu, hBelow⟩

theorem clientStep_addition {c : PIRClient} (h : ClientWF c) {nbrAdd : Nat} {draw : AddDraw}
    (hRange : c.dbrange + nbrAdd ≤ 2 ^ 31) (hDraw : c.Undrained nbrAdd draw) :
    ∃ c' qry, clientStep aes c (.addition nbrAdd draw) = .ok (c', qry) ∧ ClientWF c' ∧
      StepSafe aes ⟨c, .addition nbrAdd draw, qry, c'⟩ := by
  have hWF := added_wf h hDraw hRange
  refine ⟨_, some (c.additionMessage nbrAdd draw), ?_, hWF, hWF.descriptors, ?_⟩
  · rw [clientStep, batchedAdditionQuery_eq h hDraw hRange]
    rfl
  intro nbrAdd' draw' hInput
  cases hInput
  refine ⟨?_, _, rfl, ?_, ?_⟩
  · intro s d hSet
    have hd := h.sets_wf d (List.mem_of_getElem? hSet)
    have hPos := h.setsize_pos
    have hLe := h.setsize_le
    have hCounts := hd.counts
    exact kickOut_positive (hDraw s d hSet) (by omega) (by omega)
  · intro diff hDiff
    obtain ⟨s, hs⟩ := List.getElem?_of_mem hDiff
    rw [PIRClient.additionMessage, List.getElem?_mapIdx] at hs
    obtain ⟨d, hSet, rfl⟩ := Option.map_eq_some_iff.mp hs
    exact (addedAux_extends h hDraw hSet).1.diffWF d.sk d.shift
  · intro server hSets hDb
    exact ⟨_, batchedAdditionReply_eq aes h hDraw hRange hSets hDb⟩

theorem clientStep_refresh {c : PIRClient} (h : ClientWF c) {setno idx : Nat} {draw : RefreshDraw}
    (hSetno : setno < c.nbrsets) (hCoin : draw.remove.coin = true → 2 ≤ c.setsize) :
    ∃ c' qry, clientStep aes c (.refresh setno idx draw) = .ok (c', qry) ∧ ClientWF c' ∧
      StepSafe aes ⟨c, .refresh setno idx draw, qry, c'⟩ := by
  have hFresh := freshDesc_wf aes h.setsize_le h.setsize_pos idx draw
  have hSize := size_listed aes c.mk hFresh h.dbrange_le
  obtain ⟨t, hRemove, -⟩ := @removal_spec 0 (fun _ => 0#0)
    (listed aes c.mk (freshDesc aes c.dbrange c.setsize idx draw)) draw.remove idx
    (by rwa [hSize]) (by rw [hSize]; exact h.setsize_pos)
  have hSelect := h.current setno c.curQryBlk
  have hWF := hSelect.putSet hFresh setno
  have hRefresh := @generateRefreshQuery_eq aes _ hSelect hSetno idx draw t hRemove
  refine ⟨_, none, ?_, hWF, hWF.descriptors, ?_⟩
  · rw [clientStep, hRefresh]
    rfl
  · intro nbrAdd draw' hInput
    cases hInput

end Step

/-- In every run of the client whose additions overdraw no slot, every descriptor is well-formed in
every state, no decrement goes below zero, and each message follows the contract of `DiffSetDesc`
and is answered. -/
theorem descriptors_wf (aes : Aes) {dbrange setsize : Nat} (hPos : 1 ≤ setsize) (hLe : setsize ≤ dbrange)
    (hRange : dbrange ≤ 2 ^ 31) (nbrsets : Nat) (mk : Key) (sk : Nat → Key) (rand : Nat → Nat) :
    ∃ c, newPIRClient dbrange setsize nbrsets mk sk rand = .ok c ∧ DescriptorsWF c ∧
      ∀ steps, Meets (clientStep aes) (fun c step => Legal c step ∧ KeepsSlots c step) c steps →
        ∃ events, trace (clientStep aes) c steps = .ok events ∧ ∀ e ∈ events, StepSafe aes e := by
  have hWF := setupClient_wf nbrsets mk sk rand hPos hLe hRange
  refine ⟨_, newPIRClient_eq nbrsets mk sk rand hPos hLe, hWF.descriptors, ?_⟩
  intro steps hMeets
  have hStep : ∀ c step, ClientWF c → Legal c step ∧ KeepsSlots c step →
      ∃ c' qry, clientStep aes c step = .ok (c', qry) ∧ ClientWF c' ∧ StepSafe aes ⟨c, step, qry, c'⟩ := by
    rintro c step h ⟨hLegal, hKeeps⟩
    cases step with
    | addition nbrAdd draw => exact clientStep_addition aes h hLegal hKeeps
    | refresh setno idx draw => exact clientStep_refresh aes h hLegal.1 hLegal.2
  obtain ⟨events, hTrace, hAll⟩ := trace_of_invariant hStep hWF hMeets
  exact ⟨events, hTrace, fun e he => (hAll e he).2⟩

/-- Two additions, of which the second draws from a slot that the first left one index, and a refresh. -/
theorem descriptors_wf_pair :
    ∃ c, newPIRClient 2 2 1 (Vector.replicate 16 1) (fun _ => Vector.replicate 16 0) (fun _ => 1) = .ok c ∧
      DescriptorsWF c ∧
      ∃ events, trace (clientStep fun key _ => key) c
          [.addition 1 ⟨fun _ _ => 0, fun _ _ => true, fun _ _ => 0⟩,
            .addition 1 ⟨fun _ _ => 0, fun _ _ => true, fun _ _ => 0⟩,
            .refresh 0 1 ⟨Vector.replicate 16 2, 0, ⟨false, 0⟩⟩] = .ok events ∧
        ∀ e ∈ events, StepSafe (fun key _ => key) e := by
  obtain ⟨c, hNew, hWF, hRuns⟩ := @descriptors_wf (fun key _ => key) 2 2 (by decide) (by decide)
    (by decide) 1 (Vector.replicate 16 1) (fun _ => Vector.replicate 16 0) (fun _ => 1)
  have hClient : c = ⟨2, 2, 1, ⟨[⟨Vector.replicate 16 0, 1, [(2, 2)]⟩], [0]⟩,
      Vector.replicate 16 1, 0, 0⟩ := by
    have hComputed : newPIRClient 2 2 1 (Vector.replicate 16 1) (fun _ => Vector.replicate 16 0)
        (fun _ => 1) = .ok ⟨2, 2, 1, ⟨[⟨Vector.replicate 16 0, 1, [(2, 2)]⟩], [0]⟩,
          Vector.replicate 16 1, 0, 0⟩ := by decide +kernel
    exact Except.ok.inj (hNew.symm.trans hComputed)
  let grown : PIRClient := ⟨3, 2, 1, ⟨[⟨Vector.replicate 16 0, 1, [(2, 1), (1, 1)]⟩], [0]⟩,
    Vector.replicate 16 1, 0, 0⟩
  let drained : PIRClient := ⟨4, 2, 1, ⟨[⟨Vector.replicate 16 0, 1, [(2, 0), (1, 1), (1, 1)]⟩], [0]⟩,
    Vector.replicate 16 1, 0, 0⟩
  refine ⟨c, hNew, hWF, hRuns _ ?_⟩
  rw [hClient]
  refine @Meets.cons _ _ _ _ _ _ _ grown _ _ ⟨(by decide : 2 + 1 ≤ 2 ^ 31),
    (by decide +kernel : PIRClient.Undrained _ 1 _)⟩ (by decide +kernel) ?_
  refine @Meets.cons _ _ _ _ _ _ _ drained _ _ ⟨(by decide : 3 + 1 ≤ 2 ^ 31),
    (by decide +kernel : PIRClient.Undrained _ 1 _)⟩ (by decide +kernel) ?_
  exact ⟨⟨⟨(by decide : 0 < 1), fun _ => (by decide : 2 ≤ 2)⟩, trivial⟩, fun _ _ _ => trivial⟩

/-- Two draws against the sums of `[(2, 1), (1, 1)]` fall into the slot of one index. -/
theorem descriptors_underflow :
    ∃ c₀ c₁ c₂ first second,
      newPIRClient 2 2 1 (Vector.replicate 16 1) (fun _ => Vector.replicate 16 0) (fun _ => 1) = .ok c₀ ∧
      c₀.batchedAdditionQuery 1 ⟨fun _ _ => 0, fun _ _ => true, fun _ _ => 0⟩ = .ok (c₁, first) ∧
      c₁.batchedAdditionQuery 2 ⟨fun i _ => i, fun _ _ => true, fun _ _ => 1⟩ = .ok (c₂, second) ∧
      c₂.dbrange = 5 ∧ c₂.localhints.sets.map SetDesc.aux = [[(2, 1), (1, 4294967295), (2, 2)]] ∧
      ¬ DescriptorsWF c₂ ∧ ¬ ∀ diff ∈ second.diffsets, DiffWF diff := by
  refine ⟨⟨2, 2, 1, ⟨[⟨Vector.replicate 16 0, 1, [(2, 2)]⟩], [0]⟩, Vector.replicate 16 1, 0, 0⟩,
    ⟨3, 2, 1, ⟨[⟨Vector.replicate 16 0, 1, [(2, 1), (1, 1)]⟩], [0]⟩, Vector.replicate 16 1, 0, 0⟩,
    ⟨5, 2, 1, ⟨[⟨Vector.replicate 16 0, 1, [(2, 1), (1, 4294967295), (2, 2)]⟩], [0]⟩,
      Vector.replicate 16 1, 0, 0⟩,
    ⟨1, 2, Vector.replicate 16 1, [⟨Vector.replicate 16 0, 1, [(2, 2)], [(2, 1), (1, 1)]⟩]⟩,
    ⟨1, 2, Vector.replicate 16 1, [⟨Vector.replicate 16 0, 1, [(2, 1), (1, 1)],
      [(2, 1), (1, 4294967295), (2, 2)]⟩]⟩,
    by decide +kernel, by decide +kernel, by decide +kernel, rfl, rfl, ?_, ?_⟩
  · intro hWF
    have hCounts := (hWF _ List.mem_cons_self).counts_le (1, 4294967295) (by decide)
    exact absurd hCounts (by decide)
  · intro hDiffs
    obtain ⟨u, hu, -, hCount⟩ := (hDiffs _ List.mem_cons_self).2 1 (1, 1) rfl
    cases hu
    exact absurd hCount (by decide)

end IncPir
