import IncPir.Dpf.Evaluation
import IncPir.Library.XorFold

/-! # The data store (`baselines/dpf-pir/hashdatastore.cpp`)

A byte vector selects items of the store and an answer is the exclusive or of
what is selected. The answers differ in how they select the eight items that
belong to one byte.
-/

namespace DpfPir
set_option autoImplicit false

open LoopM XorFold

/-- `hash_type`, the register type `__m256i`. -/
abbrev Item := BitVec 256

/-- Eight accumulators or eight neighbouring items. -/
abbrev Eight := Fin 8 → Item

section Registers

/-- `_mm256_set1_epi64x` -/
def set1Epi64x (v : BitVec 64) : Item := v ++ v ++ v ++ v

/-- `_mm256_maskload_epi64`: the words of the item where the top bit of the mask's word is set. -/
def maskload (item mask : Item) : Item :=
  Digits.ofDigits 256 ((List.range 4).map fun lane =>
    if mask.getLsbD (64 * lane + 63) then item.extractLsb' (64 * lane) 64 else 0#64)

/-- `_mm256_slli_si256(x, 1)`: each half is shifted by one byte. -/
def slliByte (x : Item) : Item := (x.extractLsb' 128 128 <<< 8) ++ (x.extractLsb' 0 128 <<< 8)

end Registers

/-- A row of the table `precomputed_masks`. -/
def precomputedMasks (ind : UInt8) (k : Fin 8) : Item := if ind.toNat.testBit k then BitVec.allOnes 256 else 0#256

section Answers
variable {σ : Type}

/-- One pass over a group of eight items, with the byte that selects among them. -/
def answerGroup (data : List Item) (indexing : List UInt8) (pass : UInt8 → Eight → σ → σ) (results : σ)
    (group : Nat) : Except Fault σ :=
  match indexing[group]? with
  | some tmp => .ok (pass tmp (fun k => data.getD (8 * group + k) 0#256) results)
  | none => .error .outOfBounds

def answerLoop (data : List Item) (indexing : List UInt8) (start : σ) (pass : UInt8 → Eight → σ → σ) :
    Except Fault σ :=
  if data.length % 8 ≠ 0 then .error .assertionFailed
  else (List.range (data.length / 8)).foldlM (answerGroup data indexing pass) start

def combine (results : Eight) : Item :=
  results 0 ^^^ results 1 ^^^ results 2 ^^^ results 3 ^^^ results 4 ^^^ results 5 ^^^ results 6 ^^^ results 7

variable (data : List Item) (indexing : List UInt8)

/-- Each accumulator is a pair, of which the loop reads only the second. -/
def answerPir1 : Except Fault Item := do
  let results ← answerLoop data indexing (fun (_ : Fin 8) (_ : Bool) => 0#256) fun tmp items results k bit =>
    if bit = tmp.toNat.testBit k then results k true ^^^ items k else results k bit
  return combine fun k => results k true

def answerPir2 : Except Fault Item := do
  let results ← answerLoop data indexing (fun (_ : Fin 8) => 0#256) fun tmp items results k =>
    results k ^^^ (items k &&& set1Epi64x (0#64 - (tmp.toBitVec.setWidth 64 >>> k.val &&& 1#64)))
  return combine results

/-- The mask is shifted by bytes between the eight loads. -/
def answerPir3 : Except Fault Item := do
  let results ← answerLoop data indexing (fun (_ : Fin 8) => 0#256) fun tmp items results k =>
    let x := Nat.repeat slliByte k.val (set1Epi64x (tmp.toBitVec.setWidth 64 <<< 56))
    results k ^^^ maskload (items k.rev) x
  return combine results

/-- The cases of the `switch` list the set bits of the byte. -/
def answerPir4 : Except Fault Item := do
  let results ← answerLoop data indexing (fun (_ : Fin 8) => 0#256) fun tmp items results k =>
    if tmp.toNat.testBit k then results k ^^^ items k else results k
  return combine results

def answerPir5 : Except Fault Item := do
  let results ← answerLoop data indexing (fun (_ : Fin 8) => 0#256) fun tmp items results k =>
    results k ^^^ (items k &&& precomputedMasks tmp k)
  return combine results

end Answers

section Selection

/-- The exclusive or of the items whose bit is set. -/
def selected (data : List Item) (indexing : List UInt8) : Item :=
  xorOver (fun i => if dataBit indexing i then data.getD i 0#256 else 0#256) (List.range data.length)

variable {σ : Type} {data : List Item} {indexing : List UInt8}

/-- What a column of the store contributes to its accumulator. -/
def column (data : List Item) (indexing : List UInt8) (term : UInt8 → Eight → Eight) (groups : Nat) (k : Fin 8) : Item :=
  xorOver (fun group => term (indexing.getD group 0) (fun j => data.getD (8 * group + j) 0#256) k) (List.range groups)

theorem answerLoop_eq (hSize : data.length % 8 = 0) (hIndexing : data.length / 8 ≤ indexing.length)
    {start : σ} {pass : UInt8 → Eight → σ → σ} (view : σ → Eight) (term : UInt8 → Eight → Eight)
    (hStart : ∀ k, view start k = 0#256)
    (hPass : ∀ tmp items results k, view (pass tmp items results) k = view results k ^^^ term tmp items k) :
    ∃ results, answerLoop data indexing start pass = .ok results ∧
      view results = column data indexing term (data.length / 8) := by
  have hGroup (results : σ) : ∀ group ∈ List.range (data.length / 8), answerGroup data indexing pass results group =
      .ok (pass (indexing.getD group 0) (fun k => data.getD (8 * group + k) 0#256) results) := by
    intro group hMem
    have hByte : group < indexing.length := Nat.lt_of_lt_of_le (List.mem_range.mp hMem) hIndexing
    simp [answerGroup, hByte]
  have hLoop := foldlM_eq_ok_of_forall start hGroup
  refine ⟨_, by rw [answerLoop, if_neg (by simpa using hSize), hLoop], ?_⟩
  funext k
  clear hGroup hLoop hIndexing
  induction data.length / 8 with
  | zero => exact hStart k
  | succ groups ih =>
    rw [List.range_succ, List.foldl_append, List.foldl_cons, List.foldl_nil, hPass, ih, column, column,
      List.range_succ, xorOver_append, xorOver_cons, xorOver_nil, BitVec.xor_zero]

theorem combine_eq (c : Nat → Item) : combine (fun k => c k) = xorOver c (List.range 8) := by
  have hRange : List.range 8 = [0, 1, 2, 3, 4, 5, 6, 7] := rfl
  simp only [combine, hRange, xorOver_cons, xorOver_nil, BitVec.xor_zero, BitVec.xor_assoc]
  rfl

theorem combine_column (hSize : data.length % 8 = 0) (kept : Nat → Prop) [DecidablePred kept]
    {term : UInt8 → Eight → Eight}
    (hTerm : ∀ tmp items k, term tmp items k = if tmp.toNat.testBit k ∧ kept k then items k else 0#256) :
    combine (column data indexing term (data.length / 8)) =
      xorOver (fun i => if dataBit indexing i ∧ kept (i % 8) then data.getD i 0#256 else 0#256)
        (List.range data.length) := by
  have hWhole : data.length = 8 * (data.length / 8) := by omega
  have hEntry : column data indexing term (data.length / 8) = fun k : Fin 8 =>
      xorOver (fun group => if dataBit indexing (8 * group + k) ∧ kept ((8 * group + k) % 8) then
        data.getD (8 * group + k) 0#256 else 0#256) (List.range (data.length / 8)) := by
    funext k
    apply xorOver_congr
    intro group _
    have hDiv : (8 * group + k) / 8 = group := by omega
    have hMod : (8 * group + k) % 8 = k := by omega
    rw [hTerm, dataBit, hDiv, hMod]
  rw [hEntry, combine_eq fun k => xorOver (fun group =>
    if dataBit indexing (8 * group + k) ∧ kept ((8 * group + k) % 8) then data.getD (8 * group + k) 0#256
    else 0#256) (List.range (data.length / 8)), ← xorOver_rows (fun i =>
    if dataBit indexing i ∧ kept (i % 8) then data.getD i 0#256 else 0#256), ← hWhole]

theorem combine_rev (results : Eight) : combine (fun k => results k.rev) = combine results := by
  have hReverse : ∀ a b c d e f g h : Item,
      h ^^^ g ^^^ f ^^^ e ^^^ d ^^^ c ^^^ b ^^^ a = a ^^^ b ^^^ c ^^^ d ^^^ e ^^^ f ^^^ g ^^^ h := by
    intro a b c d e f g h
    ac_rfl
  exact hReverse _ _ _ _ _ _ _ _

/-- An answer whose passes pick items of set bits at the places that are kept. -/
theorem answer_kept (hSize : data.length % 8 = 0) (hIndexing : data.length / 8 ≤ indexing.length)
    {start : σ} {pass : UInt8 → Eight → σ → σ} {out : σ → Item} (view : σ → Eight) (kept : Nat → Prop)
    [DecidablePred kept] (hOut : ∀ results, out results = combine (view results)) (hStart : ∀ k, view start k = 0#256)
    (hPass : ∀ tmp items results k, view (pass tmp items results) k =
      view results k ^^^ if tmp.toNat.testBit k ∧ kept k then items k else 0#256) :
    (do
      let results ← answerLoop data indexing start pass
      return out results) =
      .ok (xorOver (fun i => if dataBit indexing i ∧ kept (i % 8) then data.getD i 0#256 else 0#256)
        (List.range data.length)) := by
  obtain ⟨results, hLoop, hView⟩ := answerLoop_eq hSize hIndexing view _ hStart hPass
  rw [hLoop, ok_bind, hOut, hView, combine_column hSize kept fun tmp items k => rfl]
  rfl

theorem answer_eq (hSize : data.length % 8 = 0) (hIndexing : data.length / 8 ≤ indexing.length)
    {start : σ} {pass : UInt8 → Eight → σ → σ} (view : σ → Eight) (hStart : ∀ k, view start k = 0#256)
    (hPass : ∀ tmp items results k, view (pass tmp items results) k =
      view results k ^^^ if tmp.toNat.testBit k then items k else 0#256) :
    (do
      let results ← answerLoop data indexing start pass
      return combine (view results)) = .ok (selected data indexing) := by
  rw [answer_kept hSize hIndexing view (fun _ => True) (fun _ => rfl) hStart
    fun tmp items results k => by simpa using hPass tmp items results k, selected]
  simp

end Selection

section Masks

theorem set1Epi64x_zero : set1Epi64x 0#64 = 0#256 := by decide

theorem set1Epi64x_ones : set1Epi64x (0#64 - 1#64) = BitVec.allOnes 256 := by decide

theorem bitMask_eq (tmp : UInt8) (k : Fin 8) :
    set1Epi64x (0#64 - (tmp.toBitVec.setWidth 64 >>> k.val &&& 1#64)) =
      if tmp.toNat.testBit k then BitVec.allOnes 256 else 0#256 := by
  have hBit : tmp.toBitVec.setWidth 64 >>> k.val &&& 1#64 = if tmp.toNat.testBit k then 1#64 else 0#64 := by
    have hInside : k.val < 64 := by omega
    have hSame : tmp.toNat.testBit k = tmp.toBitVec.getLsbD k := rfl
    rw [BitVec.and_one_eq_setWidth_ofBool_getLsbD, BitVec.getLsbD_ushiftRight, Nat.add_zero, BitVec.getLsbD_setWidth,
      hSame, decide_eq_true hInside, Bool.true_and]
    cases tmp.toBitVec.getLsbD k <;> rfl
  rw [hBit]
  split
  · exact set1Epi64x_ones
  · exact set1Epi64x_zero

theorem and_mask (item : Item) (b : Bool) :
    item &&& (if b then BitVec.allOnes 256 else 0#256) = if b then item else 0#256 := by
  cases b
  · exact BitVec.and_zero
  · exact BitVec.and_allOnes

theorem getLsbD_slliByte (x : Item) {i : Nat} (hi : i < 256) :
    (slliByte x).getLsbD i = if i % 128 < 8 then false else x.getLsbD (i - 8) := by
  rw [slliByte, BitVec.getLsbD_append]
  rcases Nat.lt_or_ge i 128 with hLow | hHigh
  · have hMod : i % 128 = i := Nat.mod_eq_of_lt hLow
    by_cases hByte : i < 8
    · simp [hLow, hMod, hByte]
    · simp [hLow, hMod, hByte]
  · have hMod : i % 128 = i - 128 := by omega
    by_cases hByte : i - 128 < 8
    · simp [Nat.not_lt.mpr hHigh, hMod, hByte]
    · have hIndex : 128 + (i - 128 - 8) = i - 8 := by omega
      simp [Nat.not_lt.mpr hHigh, hMod, hByte, hIndex, show i - 128 < 128 by omega]

theorem getLsbD_repeat_slliByte (x : Item) (k : Nat) {i : Nat} (hi : i < 256) :
    (Nat.repeat slliByte k x).getLsbD i = if i % 128 < 8 * k then false else x.getLsbD (i - 8 * k) := by
  induction k generalizing i with
  | zero => simp [Nat.repeat]
  | succ k ih =>
    rw [Nat.repeat, getLsbD_slliByte _ hi]
    by_cases hByte : i % 128 < 8
    · rw [if_pos hByte, if_pos (by omega)]
    · have hMod : (i - 8) % 128 = i % 128 - 8 := by omega
      rw [if_neg hByte, ih (by omega), hMod, Nat.sub_sub]
      by_cases hMore : i % 128 - 8 < 8 * k
      · rw [if_pos hMore, if_pos (by omega)]
      · rw [if_neg hMore, if_neg (by omega)]
        congr 1
        omega

theorem getLsbD_set1Epi64x (v : BitVec 64) {i : Nat} (hi : i < 256) : (set1Epi64x v).getLsbD i = v.getLsbD (i % 64) := by
  rw [set1Epi64x]
  simp only [BitVec.getLsbD_append]
  rcases (by omega : i < 64 ∨ (64 ≤ i ∧ i < 128) ∨ (128 ≤ i ∧ i < 192) ∨ 192 ≤ i) with h | h | h | h
  · simp [h, Nat.mod_eq_of_lt h]
  · simp [show ¬ i < 64 by omega, show i - 64 < 64 by omega, show i % 64 = i - 64 by omega]
  · simp [show ¬ i < 64 by omega, show ¬ i - 64 < 64 by omega, show i - 64 - 64 < 64 by omega,
      show i % 64 = i - 64 - 64 by omega]
  · simp [show ¬ i < 64 by omega, show ¬ i - 64 < 64 by omega, show ¬ i - 64 - 64 < 64 by omega,
      show i % 64 = i - 64 - 64 - 64 by omega]

/-- A shift by bytes moves the bits of the selection out of reach of the mask test. -/
theorem shiftedMask_top (tmp : UInt8) {k lane : Nat} (hk : k < 8) (hLane : lane < 4) :
    (Nat.repeat slliByte k (set1Epi64x (tmp.toBitVec.setWidth 64 <<< 56))).getLsbD (64 * lane + 63) =
      (decide (k = 0) && tmp.toNat.testBit 7) := by
  have hTop : tmp.toNat.testBit 7 = tmp.toBitVec.getLsbD 7 := rfl
  rw [getLsbD_repeat_slliByte _ _ (by omega), if_neg (by omega), getLsbD_set1Epi64x _ (by omega), hTop]
  have hMod : (64 * lane + 63 - 8 * k) % 64 = 63 - 8 * k := by omega
  rw [hMod, BitVec.getLsbD_shiftLeft, BitVec.getLsbD_setWidth]
  rcases Nat.eq_zero_or_pos k with rfl | hPos
  · simp
  · simp [show 63 - 8 * k < 56 by omega, Nat.ne_of_gt hPos]

theorem maskload_eq (item : Item) {mask : Item} {b : Bool} (h : ∀ lane < 4, mask.getLsbD (64 * lane + 63) = b) :
    maskload item mask = if b then item else 0#256 := by
  have hWords : ((List.range 4).map fun lane =>
      if mask.getLsbD (64 * lane + 63) then item.extractLsb' (64 * lane) 64 else 0#64) =
      Digits.digits 64 4 (if b then item else 0#256) := by
    apply List.map_congr_left
    intro lane hLane
    rw [h lane (List.mem_range.mp hLane)]
    cases b <;> simp
  rw [maskload, hWords, Digits.ofDigits_digits (by decide) (by decide)]

end Masks

section Members
variable {data : List Item} {indexing : List UInt8} (hSize : data.length % 8 = 0)
  (hIndexing : data.length / 8 ≤ indexing.length)
include hSize hIndexing

theorem answerPir1_eq : answerPir1 data indexing = .ok (selected data indexing) := by
  refine answer_eq hSize hIndexing _ (fun _ => rfl) fun tmp items results k => ?_
  cases hBit : tmp.toNat.testBit k <;> simp [hBit]

theorem answerPir2_eq : answerPir2 data indexing = .ok (selected data indexing) := by
  refine answer_eq hSize hIndexing _ (fun _ => rfl) fun tmp items results k => ?_
  simp only [bitMask_eq, and_mask]

theorem answerPir4_eq : answerPir4 data indexing = .ok (selected data indexing) := by
  refine answer_eq hSize hIndexing _ (fun _ => rfl) fun tmp items results k => ?_
  cases hBit : tmp.toNat.testBit k <;> simp [hBit]

theorem answerPir5_eq : answerPir5 data indexing = .ok (selected data indexing) := by
  refine answer_eq hSize hIndexing _ (fun _ => rfl) fun tmp items results k => ?_
  simp only [precomputedMasks, and_mask]

/-- Only the last item of each group can be selected by the third answer. -/
theorem answerPir3_eq : answerPir3 data indexing =
    .ok (xorOver (fun i => if dataBit indexing i ∧ i % 8 = 7 then data.getD i 0#256 else 0#256)
      (List.range data.length)) := by
  have hTerm (tmp : UInt8) (items : Eight) (k : Fin 8) :
      maskload (items k.rev.rev) (Nat.repeat slliByte k.rev.val (set1Epi64x (tmp.toBitVec.setWidth 64 <<< 56))) =
        if tmp.toNat.testBit k ∧ k.val = 7 then items k else 0#256 := by
    rw [maskload_eq _ fun lane hLane => shiftedMask_top tmp k.rev.isLt hLane, Fin.rev_rev]
    by_cases hLast : k.val = 7
    · simp [hLast]
    · have hMore : 7 - k.val ≠ 0 := by omega
      simp [hLast, hMore]
  rw [answerPir3]
  apply answer_kept hSize hIndexing (fun (results : Eight) k => results k.rev) (· = 7)
  · intro results
    exact (combine_rev results).symm
  · intro k
    rfl
  · intro tmp items results k
    simp only [hTerm]

theorem answers_agree : answerPir1 data indexing = .ok (selected data indexing) ∧
    answerPir2 data indexing = .ok (selected data indexing) ∧ answerPir4 data indexing = .ok (selected data indexing) ∧
    answerPir5 data indexing = .ok (selected data indexing) :=
  ⟨answerPir1_eq hSize hIndexing, answerPir2_eq hSize hIndexing, answerPir4_eq hSize hIndexing,
    answerPir5_eq hSize hIndexing⟩

/-- The third answer is right exactly when the selected items it leaves out cancel. -/
theorem answerPir3_right_iff : answerPir3 data indexing = .ok (selected data indexing) ↔
    xorOver (fun i => if dataBit indexing i ∧ i % 8 ≠ 7 then data.getD i 0#256 else 0#256)
      (List.range data.length) = 0#256 := by
  have hSplit : selected data indexing =
      xorOver (fun i => if dataBit indexing i ∧ i % 8 = 7 then data.getD i 0#256 else 0#256) (List.range data.length) ^^^
        xorOver (fun i => if dataBit indexing i ∧ i % 8 ≠ 7 then data.getD i 0#256 else 0#256)
          (List.range data.length) := by
    rw [← xorOver_xor]
    apply xorOver_congr
    intro i _
    by_cases hLast : i % 8 = 7 <;> simp [hLast]
  rw [answerPir3_eq hSize hIndexing, hSplit, Except.ok.injEq, eq_xor_self_iff]

end Members

section Sixteen

/-- Sixteen items, each its own index. -/
def sixteenItems : List Item := (List.range 16).map fun i => BitVec.ofNat 256 i

theorem answers_agree_sixteen : answerPir1 sixteenItems [0x81, 0x16] = .ok (selected sixteenItems [0x81, 0x16]) ∧
    answerPir2 sixteenItems [0x81, 0x16] = .ok (selected sixteenItems [0x81, 0x16]) ∧
    answerPir4 sixteenItems [0x81, 0x16] = .ok (selected sixteenItems [0x81, 0x16]) ∧
    answerPir5 sixteenItems [0x81, 0x16] = .ok (selected sixteenItems [0x81, 0x16]) :=
  answers_agree (by decide) (by decide)

theorem answerPir3_right_iff_sixteen :
    answerPir3 sixteenItems [0x81, 0x16] = .ok (selected sixteenItems [0x81, 0x16]) ↔
      xorOver (fun i => if dataBit [0x81, 0x16] i ∧ i % 8 ≠ 7 then sixteenItems.getD i 0#256 else 0#256)
        (List.range sixteenItems.length) = 0#256 :=
  answerPir3_right_iff (by decide) (by decide)

end Sixteen

end DpfPir
