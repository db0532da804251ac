import IncPir.Ck.Client
import IncPir.Ck.Leaves
import IncPir.Library.OrdSet

/-! # Keys of new sets (`client.cpp`: `find_valid_key`, `generate_setkeys`)

`find_valid_key` takes the key by value. It looks for a key without collisions
in its own copy, and the caller stores what its fresh memory contained. Random
keys are a stream, and `mem i` is the content of the memory of set `i`.
-/

namespace CkPir
open IncPir (Key Fault modBy)
open LoopM
set_option autoImplicit false

section Search
variable (prg : Prg) (lgn dbrange : Nat)

/-- The inner loop: the values of the points up to the first one that occurred before. -/
def collectValues (key : Key) : List Nat → OrdSet Nat → Except Fault (OrdSet Nat)
  | [], tmp => .ok tmp
  | i :: rest, tmp => do
    let y ← eval prg key i lgn dbrange
    if y ∈ tmp.elems then .ok tmp else collectValues key rest (tmp.insert y)

/-- The copy of the key at the end, and the position behind the random keys that were used. -/
def findValidKey (randBytes : Nat → Key) : Nat → Nat → Except Fault (Key × Nat)
  | 0, _ => .error (.invalidArgument "can find valid key")
  | attempts + 1, pos => do
    let key := randBytes pos
    let tmp ← collectValues prg lgn dbrange key (List.range (1 <<< (lgn / 2))) OrdSet.empty
    if tmp.size = 1 <<< (lgn / 2) then .ok (key, pos + 1) else findValidKey randBytes attempts (pos + 1)

def DistinctPoints (key : Key) : Prop :=
  ∀ i j, i < j → j < 2 ^ (lgn / 2) → eval prg key i lgn dbrange ≠ eval prg key j lgn dbrange

end Search

def PIRClient.generateSetkeys (prg : Prg) (c : PIRClient) (mem randBytes : Nat → Key) (rand : Nat → Nat) :
    Except Fault PIRClient := do
  let (sets, _) ← (List.range c.nbrsets).foldlM (fun (sets, pos) i => do
    let prfKey := mem i
    let (_, pos) ← findValidKey prg c.lgn c.dbrange randBytes 128 pos
    let shift ← modBy (rand i) c.dbrange
    .ok (sets ++ [⟨prfKey, shift, 0⟩], pos)) (c.sets, 0)
  .ok { c with sets := sets }

section Accepted
variable (prg : Prg) {lgn dbrange : Nat} {key : Key}

/-- The set grows by one for each point at most, and by as many only if all values are new. -/
theorem collectValues_size {points : List Nat} (hPoints : ∀ i ∈ points, i < 2 ^ lgn) {tmp out : OrdSet Nat}
    (h : collectValues prg lgn dbrange key points tmp = .ok out) :
    out.size ≤ tmp.size + points.length ∧
      (out.size = tmp.size + points.length →
        (points.map (leaf prg lgn dbrange key)).Nodup ∧
          ∀ i ∈ points, leaf prg lgn dbrange key i ∉ tmp.elems) := by
  induction points generalizing tmp with
  | nil =>
    cases h
    exact ⟨Nat.le_refl _, fun _ => ⟨List.nodup_nil, fun i hi => absurd hi List.not_mem_nil⟩⟩
  | cons i rest ih =>
    rw [collectValues, eval_eq prg (hPoints i List.mem_cons_self), ok_bind] at h
    rw [List.length_cons]
    split at h
    · cases h
      constructor <;> omega
    · rename_i hNew
      obtain ⟨hLe, hFull⟩ := ih (fun j hj => hPoints j (List.mem_cons_of_mem i hj)) h
      rw [OrdSet.size_insert hNew] at hLe hFull
      refine ⟨by omega, fun hSize => ?_⟩
      obtain ⟨hNodup, hFresh⟩ := hFull (by omega)
      constructor
      · rw [List.map_cons, List.nodup_cons]
        refine ⟨fun hMem => ?_, hNodup⟩
        obtain ⟨j, hj, hSame⟩ := List.mem_map.mp hMem
        exact hFresh j hj ((OrdSet.mem_insert _ _ _).mpr (.inl hSame))
      · rintro j hj hOld
        rcases List.mem_cons.mp hj with rfl | hj
        · exact hNew hOld
        · exact hFresh j hj ((OrdSet.mem_insert _ _ _).mpr (.inr hOld))

theorem findValidKey_distinct {randBytes : Nat → Key} {attempts pos pos' : Nat}
    (h : findValidKey prg lgn dbrange randBytes attempts pos = .ok (key, pos')) :
    DistinctPoints prg lgn dbrange key := by
  induction attempts generalizing pos with
  | zero => cases h
  | succ attempts ih =>
    obtain ⟨tmp, hValues, h⟩ := (bind_eq_ok_iff _ _ _).mp h
    split at h
    · rename_i hSize
      cases h
      rw [Nat.one_shiftLeft] at hValues hSize
      have hBelow : ∀ i ∈ List.range (2 ^ (lgn / 2)), i < 2 ^ lgn := fun i hi =>
        Nat.lt_of_lt_of_le (List.mem_range.mp hi) (Nat.pow_le_pow_right (by decide) (Nat.div_le_self lgn 2))
      have hFull : tmp.size = (OrdSet.empty : OrdSet Nat).size + (List.range (2 ^ (lgn / 2))).length := by
        rw [List.length_range, hSize]
        exact (Nat.zero_add _).symm
      obtain ⟨hNodup, -⟩ := (collectValues_size prg hBelow hValues).2 hFull
      intro i j hij hj hSame
      have hi : i < 2 ^ (lgn / 2) := Nat.lt_trans hij hj
      rw [eval_eq prg (hBelow i (List.mem_range.mpr hi)), eval_eq prg (hBelow j (List.mem_range.mpr hj))] at hSame
      have hInj := List.inj_on_of_nodup_map hNodup (List.mem_range.mpr hi) (List.mem_range.mpr hj)
        (Except.ok.inj hSame)
      omega
    · exact ih h

end Accepted

section Stored
variable {prg : Prg} {c c' : PIRClient} {mem randBytes : Nat → Key} {rand : Nat → Nat}

theorem generateSetkeys_sets (h : c.generateSetkeys prg mem randBytes rand = .ok c') :
    c' = { c with sets := c.sets ++ (List.range c.nbrsets).map fun i => ⟨mem i, rand i % c.dbrange, 0⟩ } := by
  obtain ⟨⟨sets, pos⟩, hLoop, h⟩ := (bind_eq_ok_iff _ _ _).mp h
  obtain rfl := Except.ok.inj h
  have hSets : sets = c.sets ++ (List.range c.nbrsets).map fun i => ⟨mem i, rand i % c.dbrange, 0⟩ := by
    refine foldlM_range_invariant (fun n (st : List SetDesc × Nat) =>
      st.1 = c.sets ++ (List.range n).map fun i => ⟨mem i, rand i % c.dbrange, 0⟩) ?_ ?_ hLoop
    · exact (List.append_nil _).symm
    · rintro i - ⟨sets, pos⟩ ⟨sets', pos'⟩ hInv hPass
      obtain ⟨⟨key, next⟩, -, hPass⟩ := (bind_eq_ok_iff _ _ _).mp hPass
      obtain ⟨shift, hShift, hPass⟩ := (bind_eq_ok_iff _ _ _).mp hPass
      cases hPass
      rw [modBy] at hShift
      split at hShift
      · cases hShift
      · obtain rfl := Except.ok.inj hShift
        dsimp only at hInv ⊢
        rw [hInv, List.range_succ, List.map_append, List.append_assoc]
        rfl
  rw [hSets]

/-- The stored keys map the points of their sets to distinct values exactly when the fresh memory of every
new set happened to hold such a key. A new client has no sets before. -/
theorem setkeys_distinct_iff {dbrange setsize nbrsets : Nat}
    (h : (c.setParms dbrange setsize nbrsets).generateSetkeys prg mem randBytes rand = .ok c') :
    c'.sets.length = c.sets.length + nbrsets ∧
      ((∀ d ∈ c'.sets, DistinctPoints prg (lgnOf dbrange) dbrange d.prfKey) ↔
        (∀ d ∈ c.sets, DistinctPoints prg (lgnOf dbrange) dbrange d.prfKey) ∧
          ∀ s < nbrsets, DistinctPoints prg (lgnOf dbrange) dbrange (mem s)) := by
  have hSets : c'.sets = c.sets ++ (List.range nbrsets).map fun i => ⟨mem i, rand i % dbrange, 0⟩ := by
    rw [generateSetkeys_sets h]
    rfl
  rw [hSets, List.forall_mem_append, List.forall_mem_map]
  constructor
  · simp
  · constructor
    · rintro ⟨hOld, hNew⟩
      exact ⟨hOld, fun s hs => hNew s (List.mem_range.mpr hs)⟩
    · rintro ⟨hOld, hNew⟩
      exact ⟨hOld, fun s hs => hNew s (List.mem_range.mp hs)⟩

end Stored

section Sample

def keyOf (n : Nat) : Key := Vector.ofFn fun i => UInt8.ofNat (n >>> (8 * (15 - i.val)))

/-- The labels that AES gives on the paths to points 0 and 1 of a tree of height 3, for the key with all
bytes 4 and for the key with all bytes 0. -/
def sampleLabels : List (Nat × Nat × Nat) := [
  (0x04040404040404040404040404040404,
    0xc919680c70b6a9ba9da6f83e9326d306, 0xaa2928fcb0b66ba087152ee99b68b4ed),
  (0xc919680c70b6a9ba9da6f83e9326d306,
    0x669acd5eff2fd017a46eccf28e3dac4b, 0x2da32cea35e90e82cc023c92bf4f5e12),
  (0x669acd5eff2fd017a46eccf28e3dac4b,
    0x9e949e5608d2c32b3d43b7fa0e9146d3, 0x37cf77cfb04d9dab20c151a2b749ece5),
  (0x00000000000000000000000000000000,
    0x66e94bd4ef8a2c3b884cfa59ca342b2e, 0xf795bd4a52e29ed713d313fa20e98dbc),
  (0x66e94bd4ef8a2c3b884cfa59ca342b2e,
    0x6d69d674e7f47172260a463c617fe3e2, 0xca413709ad7537f3cca28611e343a009),
  (0x6d69d674e7f47172260a463c617fe3e2,
    0x73a9a43f43aa337d21b3d9a7108b9a02, 0x25c7aeb6012d909f430d7e4ceb3f877b)]

def samplePrg : Prg := fun key =>
  match sampleLabels.find? fun t => keyOf t.1 == key with
  | some (_, left, right) => (keyOf left, keyOf right)
  | none => (key, key)

def sampleSetkeys (mem : Key) : Except Fault PIRClient :=
  (PIRClient.setParms ⟨0, 0, 0, 0, 0, 0, []⟩ 8 2 1).generateSetkeys samplePrg (fun _ => mem) (fun _ => keyOf 0)
    fun _ => 0

theorem findValidKey_sample : findValidKey samplePrg 3 8 (fun _ => keyOf 0) 128 0 = .ok (keyOf 0, 1) := by
  decide +kernel

theorem sampleSetkeys_eq (mem : Key) : sampleSetkeys mem = .ok ⟨3, 8, 2, 1, 0, 0, [⟨mem, 0, 0⟩]⟩ := by
  have hParms : PIRClient.setParms ⟨0, 0, 0, 0, 0, 0, []⟩ 8 2 1 = ⟨3, 8, 2, 1, 0, 0, []⟩ := by decide +kernel
  rw [sampleSetkeys, hParms, PIRClient.generateSetkeys]
  simp only [List.range_one, List.foldlM_cons, List.foldlM_nil, findValidKey_sample]
  rfl

theorem setkeys_distinct_iff_zero :
    [(⟨keyOf 0, 0, 0⟩ : SetDesc)].length = ([] : List SetDesc).length + 1 ∧
      ((∀ d ∈ [(⟨keyOf 0, 0, 0⟩ : SetDesc)], DistinctPoints samplePrg (lgnOf 8) 8 d.prfKey) ↔
        (∀ d ∈ ([] : List SetDesc), DistinctPoints samplePrg (lgnOf 8) 8 d.prfKey) ∧
          ∀ s < 1, DistinctPoints samplePrg (lgnOf 8) 8 (keyOf 0)) :=
  @setkeys_distinct_iff samplePrg ⟨0, 0, 0, 0, 0, 0, []⟩ _ (fun _ => keyOf 0) (fun _ => keyOf 0) (fun _ => 0) 8 2 1
    (sampleSetkeys_eq (keyOf 0))

/-- The random key of bytes 0 has no collision, and the set is left with the memory of bytes 4. -/
theorem setkeys_collision :
    findValidKey samplePrg 3 8 (fun _ => keyOf 0) 128 0 = .ok (keyOf 0, 1) ∧
      sampleSetkeys (Vector.replicate 16 4) = .ok ⟨3, 8, 2, 1, 0, 0, [⟨Vector.replicate 16 4, 0, 0⟩]⟩ ∧
      eval samplePrg (Vector.replicate 16 4) 0 3 8 = .ok 3 ∧
      eval samplePrg (Vector.replicate 16 4) 1 3 8 = .ok 3 ∧
      ¬ DistinctPoints samplePrg (lgnOf 8) 8 (Vector.replicate 16 4) := by
  have hFirst : eval samplePrg (Vector.replicate 16 4) 0 3 8 = .ok 3 := by decide +kernel
  have hSecond : eval samplePrg (Vector.replicate 16 4) 1 3 8 = .ok 3 := by decide +kernel
  refine ⟨findValidKey_sample, sampleSetkeys_eq _, hFirst, hSecond, ?_⟩
  intro hDistinct
  exact hDistinct 0 1 (by decide) (by decide) (hFirst.trans hSecond.symm)

end Sample

end CkPir
