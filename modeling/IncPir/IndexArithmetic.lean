import IncPir.Outcomes
import IncPir.Server

/-! # The index arithmetic of client and server

The server adds the shift in 64 bits. The client forms its sums in 32 bits and
reduces them afterwards; up to a range of 2^31 no such sum wraps around.
-/

namespace IncPir
open LoopM
set_option autoImplicit false

section Sums
variable {dbrange shift y : Nat}

theorem mod_of_lt_double {n : Nat} (h : n < 2 * dbrange) : n % dbrange = if n < dbrange then n else n - dbrange := by
  split
  · exact Nat.mod_eq_of_lt ‹_›
  · rw [Nat.mod_eq_sub_mod (by omega), Nat.mod_eq_of_lt (by omega)]

theorem u32_of_lt_double {n : Nat} (h : n < 2 * 2 ^ 32) : u32 n = if n < 2 ^ 32 then n else n - 2 ^ 32 :=
  mod_of_lt_double h

/-- The two ways of adding the shift differ exactly where the 32-bit sum wraps around. -/
theorem sum32_mod_eq_iff (hType : dbrange < 2 ^ 32) (hy : y < dbrange) (hShift : shift < dbrange) :
    u32 (y + shift) % dbrange = (y + shift) % dbrange ↔ y + shift < 2 ^ 32 := by
  rw [u32_of_lt_double (by omega)]
  split
  · exact iff_of_true rfl ‹_›
  · have hFull : (y + shift) % dbrange = y + shift - dbrange := by
      rw [mod_of_lt_double (by omega), if_neg (by omega)]
    rw [hFull, Nat.mod_eq_of_lt (by omega)]
    omega

theorem unshift32_eq_iff (hType : dbrange < 2 ^ 32) (hy : y < dbrange) (hShift : shift < dbrange)
    (hPos : 0 < shift) :
    sub32 (u32 ((y + shift) % dbrange + dbrange)) shift % dbrange = y ↔
      dbrange ≤ y + shift ∨ y + dbrange < 2 ^ 32 := by
  have hIndex : (y + shift) % dbrange = if y + shift < dbrange then y + shift else y + shift - dbrange :=
    mod_of_lt_double (by omega)
  rcases Nat.lt_or_ge (y + shift) dbrange with hLow | hHigh
  · have hDiff : sub32 (u32 (y + shift + dbrange)) shift = u32 (y + dbrange) := by
      rw [sub32, u32, u32, u32]
      omega
    rw [hIndex, if_pos hLow, hDiff, u32_of_lt_double (by omega)]
    split
    · rw [Nat.add_mod_right, Nat.mod_eq_of_lt hy]
      exact iff_of_true rfl (.inr ‹_›)
    · rw [Nat.mod_eq_of_lt (by omega)]
      omega
  · have hDiff : sub32 (u32 (y + shift - dbrange + dbrange)) shift = y := by
      rw [sub32, u32, u32]
      omega
    rw [hIndex, if_neg (by omega), hDiff, Nat.mod_eq_of_lt hy]
    exact iff_of_true rfl (.inl hHigh)

/-- A refresh reaches its index exactly when its sum does not wrap around. -/
theorem refresh32_eq_iff {idx : Nat} (hType : dbrange < 2 ^ 32) (hy : y < dbrange) (hIdx : idx < dbrange) :
    u32 (y + sub32 (u32 (idx + dbrange)) y % dbrange) % dbrange = idx ↔
      if y ≤ idx then idx + dbrange - y < 2 ^ 32 else idx + dbrange < 2 ^ 32 := by
  have hDiff : sub32 (u32 (idx + dbrange)) y = u32 (idx + dbrange - y) := by
    rw [sub32, u32, u32, u32]
    omega
  rw [hDiff]
  split
  · rcases Nat.lt_or_ge (idx + dbrange - y) (2 ^ 32) with hFits | hWraps
    · have hShift : u32 (idx + dbrange - y) % dbrange = idx - y := by
        have hSum : idx + dbrange - y = idx - y + dbrange := by omega
        rw [u32_of_lt hFits, hSum, Nat.add_mod_right, Nat.mod_eq_of_lt (by omega)]
      have hBack : y + (idx - y) = idx := by omega
      rw [hShift, hBack, u32_of_lt (by omega), Nat.mod_eq_of_lt hIdx]
      exact iff_of_true rfl hFits
    · have hShift : u32 (idx + dbrange - y) % dbrange = idx + dbrange - y - 2 ^ 32 := by
        rw [u32_of_lt_double (by omega), if_neg (by omega), Nat.mod_eq_of_lt (by omega)]
      have hBack : y + (idx + dbrange - y - 2 ^ 32) = idx + dbrange - 2 ^ 32 := by omega
      rw [hShift, hBack, u32_of_lt (by omega), Nat.mod_eq_of_lt (by omega)]
      omega
  · have hBack : y + (idx + dbrange - y) = idx + dbrange := by omega
    have hShift : u32 (idx + dbrange - y) % dbrange = idx + dbrange - y := by
      rw [u32_of_lt (by omega), Nat.mod_eq_of_lt (by omega)]
    rw [hShift, hBack, u32_of_lt_double (by omega)]
    split
    · rw [Nat.add_mod_right, Nat.mod_eq_of_lt hIdx]
      exact iff_of_true rfl ‹_›
    · rw [Nat.mod_eq_of_lt (by omega)]
      omega

end Sums

section Indices
variable (aes : Aes)

def singleSet (dbrange setsize : Nat) (sk : Key) (shift : Nat) : SetDesc := ⟨sk, shift, [(dbrange, setsize)]⟩

/-- The database index that the offline reply uses for position `j`. -/
def offlineIndex (dbrange : Nat) (d : SetDesc) (j : Nat) : Except Fault Nat := do
  let y ← cycleWalk aes j dbrange d.sk
  .ok ((y + d.shift) % dbrange)

theorem offlineParity_eq_offlineIndex (server : PIRServer) (d : SetDesc) :
    offlineParity aes server d = (List.range server.setsize).foldlM (fun parity j => do
      let i ← offlineIndex aes server.dbrange d j
      let blk ← elemAt server.db i
      .ok (parity ^^^ blk)) 0 := by
  rw [offlineParity]
  congr 1
  funext parity j
  rw [offlineIndex]
  cases cycleWalk aes j server.dbrange d.sk <;> rfl

/-- The descriptor that a refresh for `desiredIdx` stores when it draws point `r`. -/
def refreshDesc (dbrange setsize desiredIdx : Nat) (nsk : Key) (r : Nat) : Except Fault SetDesc := do
  let y ← cycleWalk aes r dbrange nsk
  .ok (singleSet dbrange setsize nsk (sub32 (u32 (desiredIdx + dbrange)) y % dbrange))

theorem generateRefreshQuery_refreshDesc {c c' : PIRClient} {desiredIdx : Nat} {draw : RefreshDraw}
    {qry : OnlineQuery} (h : c.generateRefreshQuery aes desiredIdx draw = .ok (c', qry)) :
    ∃ r d, modBy draw.rand c.setsize = .ok r ∧
      refreshDesc aes c.dbrange c.setsize desiredIdx draw.nsk r = .ok d ∧ c' = c.putSet c.curQrySetno d := by
  obtain ⟨-, r, y, hr, hy, rfl⟩ := generateRefreshQuery_inv h
  exact ⟨r, _, hr, by rw [refreshDesc, hy, ok_bind, singleSet], rfl⟩

variable (mk : Key) (dbrange setsize : Nat) (sk : Key)

/-- Server and client compute one index for point `x`, and the search leads back from it. -/
def PointAgrees (shift x : Nat) : Prop :=
  ∃ idx, offlineIndex aes dbrange (singleSet dbrange setsize sk shift) x = .ok idx ∧
    expandPoint aes mk (singleSet dbrange setsize sk shift) 0 0 dbrange x = .ok idx ∧
    (shift ≠ 0 → searchInverse aes mk (singleSet dbrange setsize sk shift) idx 0 0 dbrange = .ok x)

def RefreshHits (desiredIdx r : Nat) : Prop :=
  ∃ d, refreshDesc aes dbrange setsize desiredIdx sk r = .ok d ∧
    expandPoint aes mk d 0 0 dbrange r = .ok desiredIdx

def PointFits (shift y : Nat) : Prop := y + shift < 2 ^ 32 ∧ (shift = 0 ∨ dbrange ≤ y + shift ∨ y + dbrange < 2 ^ 32)

def RefreshFits (desiredIdx y : Nat) : Prop :=
  if y ≤ desiredIdx then desiredIdx + dbrange - y < 2 ^ 32 else desiredIdx + dbrange < 2 ^ 32

variable {dbrange} (hType : dbrange < 2 ^ 32)
include hType

theorem offlineIndex_eq (shift : Nat) {x : Nat} (hx : x < dbrange) :
    offlineIndex aes dbrange (singleSet dbrange setsize sk shift) x =
      .ok ((prp aes sk dbrange x + shift) % dbrange) := by
  simp only [offlineIndex, singleSet, cycleWalk_eq_prp aes sk hType hx, ok_bind]

theorem expandPoint_single (shift : Nat) {x : Nat} (hx : x < dbrange) :
    expandPoint aes mk (singleSet dbrange setsize sk shift) 0 0 dbrange x =
      .ok (u32 (prp aes sk dbrange x + shift) % dbrange) := by
  have hPoint := prp_lt aes sk hType hx
  simp only [expandPoint, slotKey, singleSet, if_true, cycleWalk_eq_prp aes sk hType hx, ok_bind, and_true,
    Nat.add_zero]
  by_cases hShift : shift = 0
  · subst hShift
    rw [if_neg (not_not.mpr rfl), Nat.add_zero, u32_of_lt (by omega), Nat.mod_eq_of_lt hPoint]
  · have hBelow : u32 (prp aes sk dbrange x + shift) % dbrange < dbrange := Nat.mod_lt _ (by omega)
    rw [if_pos hShift, u32_of_lt (by omega)]

theorem searchInverse_eq_iff {shift : Nat} (hShift : shift ≠ 0) (idx : Nat) {x : Nat} (hx : x < dbrange) :
    searchInverse aes mk (singleSet dbrange setsize sk shift) idx 0 0 dbrange = .ok x ↔
      sub32 (u32 (idx + dbrange)) shift % dbrange = prp aes sk dbrange x := by
  have hBelow : sub32 (u32 (idx + dbrange)) shift % dbrange < dbrange := Nat.mod_lt _ (by omega)
  simp only [searchInverse, singleSet, and_true]
  rw [if_pos hShift, invCycleWalk_eq_invPrp aes sk hType hBelow]
  constructor
  · intro hBack
    rw [← Except.ok.inj hBack, prp_invPrp aes sk hType hBelow]
  · intro hPoint
    rw [hPoint, invPrp_prp aes sk hType hx]

theorem pointAgrees_iff {shift x : Nat} (hShift : shift < dbrange) (hx : x < dbrange) :
    PointAgrees aes mk dbrange setsize sk shift x ↔ PointFits dbrange shift (prp aes sk dbrange x) := by
  have hPoint := prp_lt aes sk hType hx
  have hSame := sum32_mod_eq_iff hType hPoint hShift
  constructor
  · rintro ⟨idx, hServer, hClient, hBack⟩
    rw [offlineIndex_eq aes setsize sk hType shift hx] at hServer
    rw [expandPoint_single aes mk setsize sk hType shift hx] at hClient
    obtain rfl := Except.ok.inj hServer
    refine ⟨hSame.mp (Except.ok.inj hClient), ?_⟩
    rcases Nat.eq_zero_or_pos shift with hZero | hPos
    · exact .inl hZero
    · have hSearch := hBack (Nat.ne_of_gt hPos)
      rw [searchInverse_eq_iff aes mk setsize sk hType (Nat.ne_of_gt hPos) _ hx] at hSearch
      exact .inr ((unshift32_eq_iff hType hPoint hShift hPos).mp hSearch)
  · rintro ⟨hFits, hSearch⟩
    refine ⟨_, offlineIndex_eq aes setsize sk hType shift hx, ?_, ?_⟩
    · rw [expandPoint_single aes mk setsize sk hType shift hx, hSame.mpr hFits]
    · intro hShifted
      rw [searchInverse_eq_iff aes mk setsize sk hType hShifted _ hx]
      exact (unshift32_eq_iff hType hPoint hShift (Nat.pos_of_ne_zero hShifted)).mpr
        (hSearch.resolve_left hShifted)

theorem refreshHits_iff {desiredIdx r : Nat} (hIdx : desiredIdx < dbrange) (hr : r < dbrange) :
    RefreshHits aes mk dbrange setsize sk desiredIdx r ↔ RefreshFits dbrange desiredIdx (prp aes sk dbrange r) := by
  have hDesc : refreshDesc aes dbrange setsize desiredIdx sk r = .ok (singleSet dbrange setsize sk
      (sub32 (u32 (desiredIdx + dbrange)) (prp aes sk dbrange r) % dbrange)) := by
    rw [refreshDesc, cycleWalk_eq_prp aes sk hType hr, ok_bind]
  rw [RefreshFits, ← refresh32_eq_iff hType (prp_lt aes sk hType hr) hIdx]
  constructor
  · rintro ⟨d, hStored, hHit⟩
    obtain rfl := Except.ok.inj (hDesc.symm.trans hStored)
    rw [expandPoint_single aes mk setsize sk hType _ hr] at hHit
    exact Except.ok.inj hHit
  · intro hHit
    exact ⟨_, hDesc, by rw [expandPoint_single aes mk setsize sk hType _ hr, hHit]⟩

/-- For each input the agreement is lost exactly where a 32-bit sum wraps around, and the ranges for which
this happens on no input are those up to 2^31. -/
theorem index_arithmetic_iff :
    (∀ shift < dbrange, ∀ x < dbrange,
        PointAgrees aes mk dbrange setsize sk shift x ↔ PointFits dbrange shift (prp aes sk dbrange x)) ∧
      (∀ desiredIdx < dbrange, ∀ r < dbrange,
        RefreshHits aes mk dbrange setsize sk desiredIdx r ↔
          RefreshFits dbrange desiredIdx (prp aes sk dbrange r)) ∧
      ((∀ shift < dbrange, ∀ x < dbrange, PointAgrees aes mk dbrange setsize sk shift x) ∧
          (∀ desiredIdx < dbrange, ∀ r < dbrange, RefreshHits aes mk dbrange setsize sk desiredIdx r) ↔
        dbrange ≤ 2 ^ 31) := by
  have hAgrees := fun shift hShift x hx =>
    @pointAgrees_iff aes mk dbrange setsize sk hType shift x hShift hx
  have hHits := fun desiredIdx hIdx r hr =>
    @refreshHits_iff aes mk dbrange setsize sk hType desiredIdx r hIdx hr
  refine ⟨hAgrees, hHits, ?_⟩
  constructor
  · rintro ⟨hAll, -⟩
    by_contra hLarge
    -- the point with the greatest value, moved by the greatest shift
    have hLast : dbrange - 1 < dbrange := by omega
    have hPoint := prp_invPrp aes sk hType hLast
    have hBelow := invPrp_lt aes sk hType hLast
    have hFits := ((hAgrees _ hLast _ hBelow).mp (hAll _ hLast _ hBelow)).1
    rw [hPoint] at hFits
    omega
  · intro hRange
    refine ⟨fun shift hShift x hx => ?_, fun desiredIdx hIdx r hr => ?_⟩
    · have hPoint := prp_lt aes sk hType hx
      exact (hAgrees shift hShift x hx).mpr ⟨by omega, .inr (.inr (by omega))⟩
    · have hPoint := prp_lt aes sk hType hr
      refine (hHits desiredIdx hIdx r hr).mpr ?_
      rw [RefreshFits]
      split <;> omega

end Indices

theorem index_arithmetic_iff_five :
    (∀ shift < 5, ∀ x < 5, PointAgrees (fun _ block => block) (Vector.replicate 16 1) 5 2
        (Vector.replicate 16 0) shift x) ∧
      ∀ desiredIdx < 5, ∀ r < 5, RefreshHits (fun _ block => block) (Vector.replicate 16 1) 5 2
        (Vector.replicate 16 0) desiredIdx r :=
  (index_arithmetic_iff (fun _ block => block) (Vector.replicate 16 1) 2 (Vector.replicate 16 0)
    (by decide)).2.2.mpr (by decide)

/-- One range above 2^31: the server reads the last index but one where the client lists index 0, and a
refresh for that index stores a shift that leads to index 0. -/
theorem index_wraps :
    offlineIndex (fun _ _ => Vector.replicate 16 0) (2 ^ 31 + 1)
        (singleSet (2 ^ 31 + 1) 40000 (Vector.replicate 16 0) (2 ^ 31)) 32768 = .ok (2 ^ 31 - 1) ∧
      expandPoint (fun _ _ => Vector.replicate 16 0) (Vector.replicate 16 1)
        (singleSet (2 ^ 31 + 1) 40000 (Vector.replicate 16 0) (2 ^ 31)) 0 0 (2 ^ 31 + 1) 32768 = .ok 0 ∧
      ¬ PointAgrees (fun _ _ => Vector.replicate 16 0) (Vector.replicate 16 1) (2 ^ 31 + 1) 40000
        (Vector.replicate 16 0) (2 ^ 31) 32768 ∧
      ¬ RefreshHits (fun _ _ => Vector.replicate 16 0) (Vector.replicate 16 1) (2 ^ 31 + 1) 40000
        (Vector.replicate 16 0) (2 ^ 31 - 1) 32768 := by
  have hPoint : cycleWalk (fun _ _ => Vector.replicate 16 0) 32768 (2 ^ 31 + 1) (Vector.replicate 16 0) =
      .ok (2 ^ 31) := by decide +kernel
  have hPrp : prp (fun _ _ => Vector.replicate 16 0) (Vector.replicate 16 0) (2 ^ 31 + 1) 32768 = 2 ^ 31 := by
    rw [prp, hPoint]
    rfl
  have hServer : offlineIndex (fun _ _ => Vector.replicate 16 0) (2 ^ 31 + 1)
      (singleSet (2 ^ 31 + 1) 40000 (Vector.replicate 16 0) (2 ^ 31)) 32768 = .ok (2 ^ 31 - 1) := by
    rw [offlineIndex_eq _ _ _ (by decide) _ (by decide), hPrp]
    rfl
  have hClient : expandPoint (fun _ _ => Vector.replicate 16 0) (Vector.replicate 16 1)
      (singleSet (2 ^ 31 + 1) 40000 (Vector.replicate 16 0) (2 ^ 31)) 0 0 (2 ^ 31 + 1) 32768 = .ok 0 := by
    rw [expandPoint_single _ _ _ _ (by decide) _ (by decide), hPrp]
    rfl
  refine ⟨hServer, hClient, ?_, ?_⟩
  · rintro ⟨idx, hIdx, hSame, -⟩
    rw [hServer] at hIdx
    rw [hClient] at hSame
    cases hIdx
    cases hSame
  · rw [refreshHits_iff _ _ _ _ (by decide) (by decide) (by decide), hPrp, RefreshFits]
    decide

end IncPir
