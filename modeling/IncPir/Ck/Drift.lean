import IncPir.Ck.Refresh

/-! # Rounds with any punctured positions

A refresh that punctures at a position with another block leaves the hint off,
and the rounds that follow on the set start from there. The drift of a hint is
an account that every round on its set charges with two blocks.
-/

namespace CkPir
open IncPir (Key Block Database Fault elemAt storeAt elemAt_of_getElem? blockAt)
open LoopM XorFold Runs
set_option autoImplicit false

section Drift
variable (prg : Prg) (db : Database)

/-- How far the hint of set `s` is from the one that plain evaluation yields. -/
def hintDrift (c : PIRClient) (s : Nat) : Block :=
  (c.sets[s]?).elim 0 fun d => d.hint ^^^ (expectedHint prg db c d).toOption.getD 0

/-- What a round adds to the drift of hint `j`: the block it asked for and the one it punctured. -/
def charge (e : Event PIRClient RefreshRound Block) (j : Nat) : Block :=
  match e.before.firstPoint prg e.input.idx with
  | some (s, i) =>
    if j = s then
      blockAt db e.input.idx ^^^ blockAt db
        (stalePoint prg e.before.dbrange e.input.key e.input.idx (e.input.rand % e.before.setsize) i)
    else 0
  | none => 0

def Found (c : PIRClient) (round : RefreshRound) : Prop := ∃ s i, c.firstPoint prg round.idx = some (s, i)

variable {prg db} {c : PIRClient} {s : Nat}

theorem hintDrift_eq (hWF : ClientWF c) (hDb : db.length = c.dbrange) {d : SetDesc} (hSet : c.sets[s]? = some d) :
    hintDrift prg db c s = d.hint ^^^ setHint prg c.dbrange db d := by
  rw [hintDrift, hSet]
  dsimp only [Option.elim_some]
  rw [expectedHint_eq prg hWF hDb]
  rfl

theorem hintExact_iff_drift (hWF : ClientWF c) (hDb : db.length = c.dbrange) (hs : s < c.nbrsets) :
    HintExact prg db c s ↔ hintDrift prg db c s = 0 := by
  have hSet := List.getElem?_eq_getElem (hs.trans_eq hWF.sets_length.symm)
  rw [hintExact_iff prg hWF hDb hSet, hintDrift_eq hWF hDb hSet]
  exact BitVec.xor_eq_zero_iff.symm

theorem refreshRound_drifted (hWF : RefreshWF c) (hDb : db.length = c.dbrange) {round : RefreshRound} {i : Nat}
    (hFound : c.firstPoint prg round.idx = some (s, i)) :
    s < c.sets.length ∧ refreshRound prg (setDatabase c.dbrange db) c round =
      .ok (c.renewed prg db round s i (blockAt db round.idx ^^^ hintDrift prg db c s),
        blockAt db round.idx ^^^ hintDrift prg db c s) := by
  obtain ⟨d, hSet, -, -⟩ := firstPoint_some prg hFound
  rw [hintDrift_eq hWF.toClientWF hDb hSet]
  exact ⟨(List.getElem?_eq_some_iff.mp hSet).1, refreshRound_eq prg hWF hDb hFound hSet rfl⟩

theorem renewed_drift (hWF : RefreshWF c) (hDb : db.length = c.dbrange) {round : RefreshRound} {i : Nat}
    (hs : s < c.sets.length) (j : Nat) :
    hintDrift prg db (c.renewed prg db round s i (blockAt db round.idx ^^^ hintDrift prg db c s)) j =
      hintDrift prg db c j ^^^ if j = s then blockAt db round.idx ^^^ blockAt db
        (stalePoint prg c.dbrange round.key round.idx (round.rand % c.setsize) i) else 0 := by
  have hWF' := (renewed_wf prg hWF db round s i (blockAt db round.idx ^^^ hintDrift prg db c s)).toClientWF
  split
  · rename_i hj
    subst hj
    let H := setHint prg c.dbrange db (freshSet prg c.dbrange c.setsize round 0)
    let B := blockAt db (stalePoint prg c.dbrange round.key round.idx (round.rand % c.setsize) i)
    rw [hintDrift_eq hWF' hDb (List.getElem?_set_self hs)]
    change blockAt db round.idx ^^^ hintDrift prg db c j ^^^ (H ^^^ B) ^^^ H =
      hintDrift prg db c j ^^^ (blockAt db round.idx ^^^ B)
    rw [BitVec.xor_comm H B, ← BitVec.xor_assoc _ B H, xor_xor_cancel_right]
    ac_rfl
  · rename_i hj
    refine Eq.trans ?_ BitVec.xor_zero.symm
    rw [hintDrift, hintDrift, PIRClient.renewed, List.getElem?_set_ne (Ne.symm hj)]
    rfl

end Drift

section Run
variable (prg : Prg) {n : Nat} {db : Database} (hDb : db.length = n)
include hDb

/-- Wherever the refreshes of a run puncture, the rounds on a set change the drift of its hint by what they charge
and by nothing else, and each query returns its block changed by the drift so far. -/
theorem refreshRun_drift {c : PIRClient} (hWF : RefreshWF c) (hRange : c.dbrange = n) {rounds : List RefreshRound}
    (hMeets : Meets (refreshRound prg (setDatabase n db)) (Found prg) c rounds) :
    ∃ events, trace (refreshRound prg (setDatabase n db)) c rounds = .ok events ∧
      ∀ k e, events[k]? = some e →
        (∀ j, hintDrift prg db e.after j =
          hintDrift prg db c j ^^^ xorOver (charge prg db · j) (events.take (k + 1))) ∧
        (∀ j < c.nbrsets, HintExact prg db e.after j ↔
          xorOver (charge prg db · j) (events.take (k + 1)) = hintDrift prg db c j) ∧
        ∃ s i, e.before.firstPoint prg e.input.idx = some (s, i) ∧ e.output = blockAt db e.input.idx ^^^
          (hintDrift prg db c s ^^^ xorOver (charge prg db · s) (events.take k)) := by
  obtain ⟨events, hTrace, hAll⟩ := @trace_account _ _ _ _ (refreshRound prg (setDatabase n db)) (Found prg)
    (fun c' => (RefreshWF c' ∧ c'.dbrange = n) ∧ c'.nbrsets = c.nbrsets)
    (fun e => ∃ s i, e.before.firstPoint prg e.input.idx = some (s, i) ∧
      e.output = blockAt db e.input.idx ^^^ hintDrift prg db e.before s)
    Nat Block (hintDrift prg db) (fun e j drift => drift ^^^ charge prg db e j)
    (by
      rintro c' round ⟨⟨hWF', hRange'⟩, hSets⟩ ⟨s, i, hFound⟩
      subst hRange'
      obtain ⟨hs, hRound⟩ := refreshRound_drifted hWF' hDb hFound
      refine ⟨_, _, hRound, ⟨⟨renewed_wf prg hWF' db round s i _, rfl⟩, hSets⟩,
        ⟨s, i, hFound, rfl⟩, fun j => ?_⟩
      rw [renewed_drift hWF' hDb hs, charge]
      dsimp only
      rw [hFound])
    c ⟨⟨hWF, hRange⟩, rfl⟩ rounds hMeets
  refine ⟨events, hTrace, ?_⟩
  intro k e he
  obtain ⟨⟨⟨hWF', hRange'⟩, hSets⟩, ⟨s, i, hFound, hOutput⟩, hDrift⟩ := hAll k e he
  have hAfter (j : Nat) : hintDrift prg db e.after j =
      hintDrift prg db c j ^^^ xorOver (charge prg db · j) (events.take (k + 1)) := by
    rw [(hDrift j).2, foldl_xor]
  refine ⟨hAfter, ?_, ?_⟩
  · intro j hj
    rw [hintExact_iff_drift hWF'.toClientWF (hDb.trans hRange'.symm) (hj.trans_eq hSets.symm), hAfter]
    exact BitVec.xor_eq_zero_iff.trans eq_comm
  · refine ⟨s, i, hFound, ?_⟩
    rw [hOutput, (hDrift s).1, foldl_xor]

end Run

theorem refreshRun_drift_four :
    ∃ events, trace (refreshRound countPrg (setDatabase 4 [1, 2, 4, 8])) countClient
        [⟨1, Vector.replicate 16 0, 1⟩, ⟨1, Vector.replicate 16 0, 1⟩] = .ok events ∧
      ∀ k e, events[k]? = some e →
        (∀ j, hintDrift countPrg [1, 2, 4, 8] e.after j = hintDrift countPrg [1, 2, 4, 8] countClient j ^^^
          xorOver (charge countPrg [1, 2, 4, 8] · j) (events.take (k + 1))) ∧
        (∀ j < countClient.nbrsets, HintExact countPrg [1, 2, 4, 8] e.after j ↔
          xorOver (charge countPrg [1, 2, 4, 8] · j) (events.take (k + 1)) =
            hintDrift countPrg [1, 2, 4, 8] countClient j) ∧
        ∃ s i, e.before.firstPoint countPrg e.input.idx = some (s, i) ∧
          e.output = blockAt [1, 2, 4, 8] e.input.idx ^^^ (hintDrift countPrg [1, 2, 4, 8] countClient s ^^^
            xorOver (charge countPrg [1, 2, 4, 8] · s) (events.take k)) := by
  apply @refreshRun_drift countPrg 4 [1, 2, 4, 8] rfl countClient
    ⟨⟨⟨by decide, by decide⟩, by decide +kernel, rfl⟩, by decide +kernel⟩ rfl
  refine ⟨⟨0, 0, by decide +kernel⟩, fun c' blk hStep => ⟨?_, fun _ _ _ => trivial⟩⟩
  have hFirst : refreshRound countPrg (setDatabase 4 [1, 2, 4, 8]) countClient ⟨1, Vector.replicate 16 0, 1⟩ =
      .ok (⟨2, 4, 2, 1, 0, 0, [⟨Vector.replicate 16 0, 0, 0⟩]⟩, 2) := by
    decide +kernel
  cases hStep.symm.trans hFirst
  exact ⟨0, 1, by decide +kernel⟩

end CkPir
