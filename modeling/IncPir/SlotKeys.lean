import IncPir.DescriptorRuns
import IncPir.Outcomes

/-! # The keys of the slots of one set

Only the low byte of the slot number enters the key derivation, so the keys of
slots 1, 2, 3, … are distinct up to slot 256 and repeat from slot 257 on. A set
has one slot more than it has seen additions since its last refresh.
-/

namespace IncPir
open LoopM Runs
set_option autoImplicit false

def SlotKeysDistinct (aes : Aes) (mk : Key) (d : SetDesc) : Prop :=
  ∀ i j, 1 ≤ i → i < j → j < d.aux.length → kdf aes mk d.sk i ≠ kdf aes mk d.sk j

section Derivation
variable (aes : Aes) (mk sk : Key)

theorem lowByte_eq_iff (i j : Nat) : UInt8.ofNat (i &&& 0xFF) = UInt8.ofNat (j &&& 0xFF) ↔ i % 256 = j % 256 := by
  have hByte : ∀ n, (UInt8.ofNat (n &&& 0xFF)).toNat = n % 256 := by
    intro n
    have hMask : n &&& 0xFF = n % 2 ^ 8 := Nat.and_two_pow_sub_one_eq_mod n 8
    rw [hMask, UInt8.toNat_ofNat']
    exact Nat.mod_mod n 256
  rw [← UInt8.toNat_inj, hByte, hByte]

theorem kdf_eq_of_mod_eq {i j : Nat} (h : i % 256 = j % 256) : kdf aes mk sk i = kdf aes mk sk j := by
  rw [kdf, kdf, (lowByte_eq_iff i j).mpr h]

theorem kdf_eq_iff (hAes : Function.Injective (aes mk)) (i j : Nat) :
    kdf aes mk sk i = kdf aes mk sk j ↔ i % 256 = j % 256 := by
  refine ⟨fun h => (lowByte_eq_iff i j).mp ?_, kdf_eq_of_mod_eq aes mk sk⟩
  have hByte := congrArg (fun plaintext : Key => plaintext[0]) (hAes h)
  simp only [Vector.getElem_set_self] at hByte
  exact (UInt8.xor_right_inj _).mp hByte

theorem slotKeysDistinct_iff_length {aes : Aes} {mk : Key} (hAes : Function.Injective (aes mk)) (d : SetDesc) :
    SlotKeysDistinct aes mk d ↔ d.aux.length ≤ 257 := by
  constructor
  · intro hDistinct
    by_contra hLong
    exact hDistinct 1 257 (by decide) (by decide) (by omega) (kdf_eq_of_mod_eq aes mk d.sk (by decide))
  · intro hShort i j hi hij hj hEq
    have hMod := (kdf_eq_iff aes mk d.sk hAes i j).mp hEq
    omega

end Derivation

/-- The number of additions since the last refresh of set `s`. -/
def additionsSince (s : Nat) (steps : List ClientStep) : Nat :=
  steps.foldl (fun n step =>
    match step with
    | .addition _ _ => n + 1
    | .refresh setno _ _ => if setno = s then 0 else n) 0

/-- Every set has one slot, and one more for each addition since its last refresh. -/
structure SlotCounts (mk : Key) (past : List ClientStep) (c : PIRClient) : Prop where
  mk_eq : c.mk = mk
  sets_length : c.localhints.sets.length = c.nbrsets
  slots : ∀ s d, c.localhints.sets[s]? = some d → d.aux.length = additionsSince s past + 1

section Counts
variable {aes : Aes} {mk : Key} {past : List ClientStep} {c c' : PIRClient} (h : SlotCounts mk past c)
include h

theorem SlotCounts.addition {nbrAdd : Nat} {draw : AddDraw} {qry : UpdateQueryAdd}
    (hStep : c.batchedAdditionQuery nbrAdd draw = .ok (c', qry)) :
    SlotCounts mk (past ++ [.addition nbrAdd draw]) c' := by
  obtain ⟨pairs, hLength, hAll, rfl, -⟩ := batchedAdditionQuery_inv hStep
  have hDrop : c.localhints.sets.drop c.nbrsets = [] := List.drop_of_length_le (Nat.le_of_eq h.sets_length)
  refine ⟨h.mk_eq, ?_, ?_⟩
  · dsimp only
    rw [hDrop, List.append_nil, List.length_map, hLength]
  · intro s d hSet
    dsimp only at hSet
    rw [hDrop, List.append_nil, List.getElem?_map] at hSet
    obtain ⟨pair, hPair, rfl⟩ := Option.map_eq_some_iff.mp hSet
    obtain ⟨old, ell, hOld, hAdd⟩ := hAll s pair hPair
    rw [additionsSince, List.foldl_append, ← additionsSince]
    dsimp only [List.foldl_cons, List.foldl_nil]
    rw [addToSet_length hAdd, h.slots s old hOld]

theorem SlotCounts.refresh {setno idx : Nat} {draw : RefreshDraw} {qry : OnlineQuery}
    (hStep : PIRClient.generateRefreshQuery aes { c with curQrySetno := setno } idx draw = .ok (c', qry)) :
    SlotCounts mk (past ++ [.refresh setno idx draw]) c' := by
  obtain ⟨hLt, r, y, -, -, rfl⟩ := generateRefreshQuery_inv hStep
  refine ⟨h.mk_eq, (List.length_set ..).trans h.sets_length, ?_⟩
  intro s d hSet
  rw [additionsSince, List.foldl_append, ← additionsSince]
  dsimp only [List.foldl_cons, List.foldl_nil]
  by_cases hSame : setno = s
  · subst hSame
    rw [if_pos rfl]
    obtain rfl := Option.some.inj ((List.getElem?_set_self hLt).symm.trans hSet)
    rfl
  · rw [if_neg hSame]
    exact h.slots s d ((List.getElem?_set_ne hSame).symm.trans hSet)

theorem SlotCounts.step {step : ClientStep} {qry : Option UpdateQueryAdd}
    (hStep : clientStep aes c step = .ok (c', qry)) : SlotCounts mk (past ++ [step]) c' := by
  cases step with
  | addition nbrAdd draw =>
    obtain ⟨⟨next, msg⟩, hQuery, hStep⟩ := (bind_eq_ok_iff _ _ _).mp hStep
    cases hStep
    exact h.addition hQuery
  | refresh setno idx draw =>
    obtain ⟨⟨next, msg⟩, hQuery, hStep⟩ := (bind_eq_ok_iff _ _ _).mp hStep
    cases hStep
    exact h.refresh hQuery

end Counts

theorem newPIRClient_slotCounts {dbrange setsize nbrsets : Nat} {mk : Key} {sk : Nat → Key} {rand : Nat → Nat}
    {c : PIRClient} (h : newPIRClient dbrange setsize nbrsets mk sk rand = .ok c) : SlotCounts mk [] c := by
  obtain ⟨sets, hLength, hAll, rfl⟩ := newPIRClient_inv h
  refine ⟨rfl, hLength, ?_⟩
  intro s d hSet
  obtain ⟨shift, rfl⟩ := hAll s d hSet
  rfl

/-- In every run of the client and for every set, the keys of its slots from 1 on are distinct exactly
as long as there were at most 256 additions since its last refresh. -/
theorem slotKeys_distinct_iff {aes : Aes} (hAes : ∀ key, Function.Injective (aes key))
    {dbrange setsize nbrsets : Nat} {mk : Key} {sk : Nat → Key} {rand : Nat → Nat} {c : PIRClient}
    (hNew : newPIRClient dbrange setsize nbrsets mk sk rand = .ok c) {steps : List ClientStep}
    {events : List (Event PIRClient ClientStep (Option UpdateQueryAdd))}
    (hTrace : trace (clientStep aes) c steps = .ok events) {k : Nat}
    {e : Event PIRClient ClientStep (Option UpdateQueryAdd)} (he : events[k]? = some e) {s : Nat} {d : SetDesc}
    (hSet : e.after.localhints.sets[s]? = some d) :
    d.aux.length = additionsSince s (steps.take (k + 1)) + 1 ∧
      (SlotKeysDistinct aes e.after.mk d ↔ additionsSince s (steps.take (k + 1)) ≤ 256) := by
  have hCounts := @trace_history _ _ _ _ (clientStep aes) (SlotCounts mk)
    (fun past c step c' qry h hStep => h.step hStep) _ _ _ (newPIRClient_slotCounts hNew) _ hTrace _ _ he
  have hSlots := hCounts.slots s d hSet
  rw [List.nil_append] at hSlots
  refine ⟨hSlots, ?_⟩
  rw [slotKeysDistinct_iff_length (hAes _), hSlots]
  omega

section Quiet

/-- A client with one set that has seen `n` additions of one block without taking any of them. -/
def quietClient (n : Nat) : PIRClient :=
  ⟨n + 1, 1, 1, ⟨[⟨Vector.replicate 16 0, 0, (1, 1) :: List.replicate n (1, 0)⟩], [0]⟩,
    Vector.replicate 16 1, 0, 0⟩

def quietStep : ClientStep := .addition 1 ⟨fun _ _ => 0, fun _ _ => false, fun _ _ => 0⟩

theorem newPIRClient_quiet :
    newPIRClient 1 1 1 (Vector.replicate 16 1) (fun _ => Vector.replicate 16 0) (fun _ => 0) =
      .ok (quietClient 0) := rfl

theorem quietStep_ok (aes : Aes) {n : Nat} (h : n + 2 < 2 ^ 32) :
    ∃ qry, clientStep aes (quietClient n) quietStep = .ok (quietClient (n + 1), qry) := by
  have hRange : u32 (n + 1 + 1) = n + 1 + 1 := u32_of_lt h
  have hAux : (1, 1) :: List.replicate n (1, 0) ++ [(1, 0)] = (1, 1) :: List.replicate (n + 1) (1, 0) := by
    rw [List.replicate_succ', List.cons_append]
  have hNext : quietClient (n + 1) = { quietClient n with
      dbrange := u32 (n + 1 + 1)
      localhints := ⟨[⟨Vector.replicate 16 0, 0, (1, 1) :: List.replicate n (1, 0) ++ [(1, 0)]⟩], [0]⟩ } := by
    rw [hRange, hAux]
    rfl
  rw [hNext]
  exact ⟨_, rfl⟩

theorem quiet_trace (aes : Aes) (m n : Nat) (h : n + m + 1 < 2 ^ 32) :
    ∃ events, trace (clientStep aes) (quietClient n) (List.replicate m quietStep) = .ok events ∧
      ∀ k < m, ∃ e, events[k]? = some e ∧ e.after = quietClient (n + k + 1) := by
  induction m generalizing n with
  | zero => exact ⟨[], rfl, fun k hk => absurd hk (Nat.not_lt_zero k)⟩
  | succ m ih =>
    obtain ⟨qry, hStep⟩ := @quietStep_ok aes n (by omega)
    obtain ⟨events, hTrace, hAll⟩ := ih (n + 1) (by omega)
    refine ⟨⟨quietClient n, quietStep, qry, quietClient (n + 1)⟩ :: events, ?_, ?_⟩
    · rw [List.replicate_succ, trace, hStep]
      dsimp only
      rw [hTrace]
    · intro k hk
      cases k with
      | zero => exact ⟨_, rfl, rfl⟩
      | succ k =>
        obtain ⟨e, he, hAfter⟩ := hAll k (by omega)
        refine ⟨e, he, ?_⟩
        rw [hAfter, Nat.add_right_comm n 1 k]
        rfl

/-- Every state of a run of 257 additions. -/
theorem slotKeys_distinct_iff_quiet :
    ∃ events, trace (clientStep fun _ block => block) (quietClient 0) (List.replicate 257 quietStep) = .ok events ∧
      ∀ k < 257, ∃ e d, events[k]? = some e ∧ e.after.localhints.sets[0]? = some d ∧
        d.aux.length = additionsSince 0 ((List.replicate 257 quietStep).take (k + 1)) + 1 ∧
        (SlotKeysDistinct (fun _ block => block) e.after.mk d ↔
          additionsSince 0 ((List.replicate 257 quietStep).take (k + 1)) ≤ 256) := by
  obtain ⟨events, hTrace, hAll⟩ := quiet_trace (fun _ block => block) 257 0 (by decide)
  refine ⟨events, hTrace, ?_⟩
  intro k hk
  obtain ⟨e, he, hAfter⟩ := hAll k hk
  have hSet : e.after.localhints.sets[0]? =
      some ⟨Vector.replicate 16 0, 0, (1, 1) :: List.replicate (0 + k + 1) (1, 0)⟩ := by
    rw [hAfter]
    rfl
  exact ⟨e, _, he, hSet, slotKeys_distinct_iff (fun _ _ _ h => h) newPIRClient_quiet hTrace he hSet⟩

/-- After 257 additions the keys of slots 1 and 257 are equal, even for the identity cipher. -/
theorem slotKeys_repeat :
    newPIRClient 1 1 1 (Vector.replicate 16 1) (fun _ => Vector.replicate 16 0) (fun _ => 0) =
        .ok (quietClient 0) ∧
      ∃ events e d, trace (clientStep fun _ block => block) (quietClient 0)
          (List.replicate 257 quietStep) = .ok events ∧
        events[256]? = some e ∧ e.after.localhints.sets[0]? = some d ∧ d.aux.length = 258 ∧
        kdf (fun _ block => block) e.after.mk d.sk 1 = kdf (fun _ block => block) e.after.mk d.sk 257 ∧
        ¬ SlotKeysDistinct (fun _ block => block) e.after.mk d := by
  obtain ⟨events, hTrace, hAll⟩ := quiet_trace (fun _ block => block) 257 0 (by decide)
  obtain ⟨e, he, hAfter⟩ := hAll 256 (by decide)
  let d : SetDesc := ⟨Vector.replicate 16 0, 0, (1, 1) :: List.replicate 257 (1, 0)⟩
  have hSet : e.after.localhints.sets[0]? = some d := by
    rw [hAfter]
    rfl
  have hLength : d.aux.length = 258 := by
    rw [List.length_cons, List.length_replicate]
  have hEqual : kdf (fun _ block => block) e.after.mk d.sk 1 =
      kdf (fun _ block => block) e.after.mk d.sk 257 := kdf_eq_of_mod_eq _ _ _ (by decide)
  exact ⟨newPIRClient_quiet, events, e, d, hTrace, he, hSet, hLength, hEqual,
    fun hDistinct => hDistinct 1 257 (by decide) (by decide) (by omega) hEqual⟩

end Quiet

end IncPir
