import IncPir.Dpf.Correctness

/-! # The evaluation in eight lanes

`EvalFull8` expands three levels one node at a time and the levels below for
eight nodes at once, with masks in the place of branches, and stores the leaves
of each lane in a region of its own. It agrees with `EvalFull` on keys whose
control bytes are bits.
-/

namespace DpfPir
set_option autoImplicit false

open BitWords Buffer LabelTree LoopM SharedTree

def IsBit (byte : UInt8) : Prop := byte = 0 ∨ byte = 1

instance (byte : UInt8) : Decidable (IsBit byte) := inferInstanceAs (Decidable (_ ∨ _))

structure LevelWord.IsBits (w : LevelWord) : Prop where
  left : IsBit w.tLCW
  right : IsBit w.tRCW

variable (isa : AesInstructions)

section Lanes

theorem isBit_toUInt8 : ∀ b : Bool, IsBit b.toUInt8 := by decide

theorem IsBit.xor {a b : UInt8} (ha : IsBit a) (hb : IsBit b) : IsBit (a ^^^ b) := by
  rcases ha with rfl | rfl <;> rcases hb with rfl | rfl <;> decide

theorem and_spreadMask_zero (b : Block) : b &&& spreadMask 0 = 0#128 := by
  have hMask : spreadMask 0 = 0#128 := by decide
  rw [hMask, BitVec.and_zero]

theorem and_spreadMask_one (b : Block) : b &&& spreadMask 1 = b := by
  have hMask : spreadMask 1 = BitVec.allOnes 128 := by decide
  rw [hMask, BitVec.and_allOnes]

theorem IsBit.and_one {b : UInt8} (h : IsBit b) : b &&& 1 = b := by
  rcases h with rfl | rfl <;> decide

/-- On control bits a mask does what the branch does. -/
theorem growLane_eq {w : LevelWord} (hWord : w.IsBits) {node : KeyNode} (hNode : IsBit node.2) :
    (clr (getL isa node.1) ^^^ (w.sCW &&& spreadMask node.2),
        getT (getL isa node.1) ^^^ (w.tLCW &&& node.2)) = (growWith isa w node).1 ∧
      (clr (getR isa node.1) ^^^ (w.sCW &&& spreadMask node.2),
        getT (getR isa node.1) ^^^ (w.tRCW &&& node.2)) = (growWith isa w node).2 := by
  obtain ⟨s, t⟩ := node
  rcases hNode with h | h
  · simp only at h
    subst h
    simp [growWith, children, and_spreadMask_zero]
  · simp only at h
    subst h
    simp [growWith, children, and_spreadMask_one, hWord.left.and_one, hWord.right.and_one]

theorem leafLane_eq (last : Block) {node : KeyNode} (hNode : IsBit node.2) :
    convertBlock isa node.1 ^^^ (last &&& spreadMask node.2) = leafWith isa last node := by
  obtain ⟨s, t⟩ := node
  rcases hNode with h | h
  · simp only at h
    subst h
    simp [leafWith, and_spreadMask_zero]
  · simp only at h
    subst h
    simp [leafWith, and_spreadMask_one, BitVec.xor_comm]

theorem growWith_isBit {w : LevelWord} (hWord : w.IsBits) (node : KeyNode) :
    IsBit (growWith isa w node).1.2 ∧ IsBit (growWith isa w node).2.2 := by
  have hChild (b : Block) : IsBit (getT b) := isBit_toUInt8 _
  simp only [growWith, children]
  split
  · exact ⟨(hChild _).xor hWord.left, (hChild _).xor hWord.right⟩
  · exact ⟨hChild _, hChild _⟩

/-- On eight blocks the unrolled encryption is the encryption of each of them. -/
theorem mmo_eight (aes : AES) {seeds : List Block} (hLen : seeds.length = 8) :
    aes.encryptECB_MMO_Blocks isa seeds = seeds.map (aes.encryptECB_MMO isa) := by
  refine (encryptECB_MMO_Blocks_eq_map_iff isa aes seeds).mpr fun i hi => ?_
  rw [Nat.mod_eq_of_lt (by omega)]

theorem growLanes_eq {w : LevelWord} (hWord : w.IsBits) {lanes : List KeyNode} (hLen : lanes.length = 8)
    (hLanes : ∀ node ∈ lanes, IsBit node.2) :
    growLanes w.sCW w.tLCW (getL8 isa (lanes.map Prod.fst)) lanes = lanes.map (fun node => (growWith isa w node).1) ∧
      growLanes w.sCW w.tRCW (getR8 isa (lanes.map Prod.fst)) lanes =
        lanes.map (fun node => (growWith isa w node).2) := by
  have hSeeds : (lanes.map Prod.fst).length = 8 := by simpa using hLen
  have hZip (f : Block → KeyNode → KeyNode) (g : KeyNode → Block) :
      List.zipWith f (lanes.map g) lanes = lanes.map fun node => f (g node) node := by
    rw [List.zipWith_map_left, List.zipWith_self]
  rw [getL8, getR8, mmo_eight isa _ hSeeds, mmo_eight isa _ hSeeds, growLanes, growLanes, List.map_map, List.map_map,
    hZip, hZip]
  constructor
  · exact List.map_congr_left fun node hNode => (growLane_eq isa hWord (hLanes node hNode)).1
  · exact List.map_congr_left fun node hNode => (growLane_eq isa hWord (hLanes node hNode)).2

end Lanes

section Stores

/-- The stores of one step fill the same offset of every region. -/
theorem storeLanes_eq {blocks : List Block} {regions : List (List UInt8)} {offset : Nat}
    (hLen : blocks.length = regions.length) (hFit : ∀ region ∈ regions, offset + 16 ≤ region.length)
    (front : List UInt8) :
    storeLanes (addresses front.length offset regions) blocks (front ++ regions.flatten) =
      .ok (front ++ (List.zipWith (fun b region => overwrite region offset (blockBytes b)) blocks regions).flatten,
        addresses front.length (offset + 16) regions) := by
  induction regions generalizing blocks front with
  | nil => simp [storeLanes, addresses]
  | cons region rest ih =>
    cases blocks with
    | nil => cases hLen
    | cons b blocks =>
      have hFirst := hFit region List.mem_cons_self
      have hStore : overwrite (front ++ (region :: rest).flatten) (front.length + offset) (blockBytes b) =
          front ++ overwrite region offset (blockBytes b) ++ rest.flatten := by
        rw [List.flatten_cons, ← List.append_assoc, overwrite_region (by simpa using hFirst)]
      have hLength : (front ++ overwrite region offset (blockBytes b)).length = front.length + region.length := by
        rw [List.length_append, length_overwrite (by simpa using hFirst)]
      have hCount : blocks.length = rest.length := Nat.succ.inj hLen
      have hRest := ih hCount (fun r hr => hFit r (List.mem_cons_of_mem region hr))
        (front ++ overwrite region offset (blockBytes b))
      rw [hLength] at hRest
      have hInside : ¬ (front ++ (region :: rest).flatten).length < front.length + offset + 16 := by
        simp only [List.length_append, List.flatten_cons]
        omega
      rw [addresses, storeLanes, if_neg hInside, hStore, hRest]
      simp [addresses, Nat.add_assoc]

end Stores

section Recursion
variable {key : List UInt8} {view : KeyView}

/-- What the levels from `lvl` on give below a node. -/
def laneBytes (view : KeyView) (lvl : Nat) (node : KeyNode) : List UInt8 :=
  (leaves ((view.levels.drop lvl).map (growWith isa)) node).flatMap fun leaf => blockBytes (leafWith isa view.last leaf)

theorem length_laneBytes {lvl left : Nat} (hLen : view.levels.length = lvl + left) (node : KeyNode) :
    (laneBytes isa view lvl node).length = 16 * 2 ^ left := by
  rw [laneBytes, length_flatMap_const fun leaf _ => length_blockBytes _, length_leaves, List.length_map,
    List.length_drop, hLen, Nat.add_sub_cancel_left, Nat.mul_comm]

theorem laneBytes_last {lvl : Nat} (hLen : view.levels.length = lvl) (node : KeyNode) :
    laneBytes isa view lvl node = blockBytes (leafWith isa view.last node) := by
  simp [laneBytes, List.drop_eq_nil_of_le (Nat.le_of_eq hLen)]

theorem laneBytes_step {lvl : Nat} (hLvl : lvl < view.levels.length) (node : KeyNode) :
    laneBytes isa view lvl node = laneBytes isa view (lvl + 1) (growWith isa view.levels[lvl] node).1 ++
      laneBytes isa view (lvl + 1) (growWith isa view.levels[lvl] node).2 := by
  rw [laneBytes, List.drop_eq_getElem_cons hLvl, List.map_cons, leaves, List.flatMap_append]
  rfl

/-- Every lane fills its own region with its leaves. -/
def fillLanes (view : KeyView) (lvl offset : Nat) (lanes : List KeyNode)
    (regions : List (List UInt8)) : List (List UInt8) :=
  List.zipWith (fun node region => overwrite region offset (laneBytes isa view lvl node)) lanes regions

theorem fillLanes_lengths {lvl left offset : Nat} (hLen : view.levels.length = lvl + left) {lanes : List KeyNode}
    {regions : List (List UInt8)} (hCount : lanes.length = regions.length)
    (hFit : ∀ region ∈ regions, offset + 16 * 2 ^ left ≤ region.length) :
    (fillLanes isa view lvl offset lanes regions).map List.length = regions.map List.length := by
  apply List.ext_getElem
  · simp [fillLanes, hCount]
  · intro i _ hi
    have hRegion : i < regions.length := by simpa using hi
    have hRoom := hFit _ (List.getElem_mem hRegion)
    simp only [fillLanes, List.getElem_map, List.getElem_zipWith]
    rw [length_overwrite (by rw [length_laneBytes isa hLen]; exact hRoom)]

theorem fillLanes_step {lvl left offset : Nat} (hLen : view.levels.length = lvl + 1 + left) (hLvl : lvl < view.levels.length)
    {lanes : List KeyNode} {regions : List (List UInt8)}
    (hFit : ∀ region ∈ regions, offset + 16 * 2 ^ left ≤ region.length) :
    fillLanes isa view (lvl + 1) (offset + 16 * 2 ^ left) (lanes.map fun node => (growWith isa view.levels[lvl] node).2)
        (fillLanes isa view (lvl + 1) offset (lanes.map fun node => (growWith isa view.levels[lvl] node).1) regions) =
      fillLanes isa view lvl offset lanes regions := by
  have hEntry (node : KeyNode) {region : List UInt8} (hRoom : offset + 16 * 2 ^ left ≤ region.length) :
      overwrite (overwrite region offset (laneBytes isa view (lvl + 1) (growWith isa view.levels[lvl] node).1))
          (offset + 16 * 2 ^ left) (laneBytes isa view (lvl + 1) (growWith isa view.levels[lvl] node).2) =
        overwrite region offset (laneBytes isa view lvl node) := by
    rw [laneBytes_step isa hLvl, ← overwrite_overwrite (by omega), length_laneBytes isa hLen]
  apply List.ext_getElem
  · simp [fillLanes]
  · intro i hi _
    have hRegion : i < regions.length := by
      simp only [fillLanes, List.length_zipWith, List.length_map] at hi
      omega
    simp only [fillLanes, List.getElem_map, List.getElem_zipWith]
    exact hEntry _ (hFit _ (List.getElem_mem hRegion))

theorem evalFullRecursive8_eq (hHolds : Holds key view) (hWords : ∀ w ∈ view.levels, w.IsBits) {lvl left offset : Nat}
    (hLen : view.levels.length = lvl + left) {lanes : List KeyNode} (hEight : lanes.length = 8)
    (hLanes : ∀ node ∈ lanes, IsBit node.2) {regions : List (List UInt8)} (hRegions : regions.length = 8)
    (hFit : ∀ region ∈ regions, offset + 16 * 2 ^ left ≤ region.length) :
    evalFullRecursive8 isa key left lvl lanes regions.flatten (addresses 0 offset regions) =
      .ok ((fillLanes isa view lvl offset lanes regions).flatten, addresses 0 (offset + 16 * 2 ^ left) regions) := by
  induction left generalizing lvl offset lanes regions with
  | zero =>
    have hCount : (lanes.map (leafWith isa view.last)).length = regions.length := by
      rw [List.length_map, hEight, hRegions]
    have hStore := storeLanes_eq hCount (by simpa using hFit) []
    have hConv : List.zipWith (fun c lane => c ^^^ (view.last &&& spreadMask lane.2))
        (convertBlock8 isa (lanes.map Prod.fst)) lanes = lanes.map (leafWith isa view.last) := by
      rw [convertBlock8, encryptECBBlocks_eq, List.map_map, List.zipWith_map_left, List.zipWith_self]
      exact List.map_congr_left fun node hNode => leafLane_eq isa view.last (hLanes node hNode)
    have hLast : view.levels.length = lvl := hLen
    have hFill : fillLanes isa view lvl offset lanes regions = List.zipWith
        (fun b region => overwrite region offset (blockBytes b)) (lanes.map (leafWith isa view.last)) regions := by
      simp only [fillLanes, laneBytes_last isa hLast, List.zipWith_map_left]
    simp only [evalFullRecursive8, hHolds.last, ok_bind]
    rw [hConv, hFill]
    simpa using hStore
  | succ left ih =>
    have hLvl : lvl < view.levels.length := by omega
    have hWord := hWords _ (List.getElem_mem hLvl)
    obtain ⟨hLeft, hRight⟩ := growLanes_eq isa hWord hEight hLanes
    have hPow : 16 * 2 ^ (left + 1) = 16 * 2 ^ left + 16 * 2 ^ left := by
      rw [Nat.pow_succ]
      omega
    have hBelow : view.levels.length = lvl + 1 + left := by omega
    have hHalf : ∀ region ∈ regions, offset + 16 * 2 ^ left ≤ region.length := fun region hRegion => by
      have hRoom := hFit region hRegion
      omega
    have hCount : (lanes.map fun node => (growWith isa view.levels[lvl] node).1).length = regions.length := by
      rw [List.length_map, hEight, hRegions]
    have hLengths := fillLanes_lengths isa hBelow hCount hHalf
    have hFirst := ih hBelow (by simpa using hEight)
      (List.forall_mem_map.mpr fun node _ => (growWith_isBit isa hWord node).1) hRegions hHalf
    obtain ⟨filled, hFilled⟩ : ∃ filled, filled = fillLanes isa view (lvl + 1) offset
        (lanes.map fun node => (growWith isa view.levels[lvl] node).1) regions := ⟨_, rfl⟩
    rw [← hFilled] at hLengths hFirst
    have hFilledCount : filled.length = 8 := by
      have hSame := congrArg List.length hLengths
      simpa [hRegions] using hSame
    have hRoom : ∀ region ∈ filled, offset + 16 * 2 ^ left + 16 * 2 ^ left ≤ region.length := by
      intro region hRegion
      have hLength : region.length ∈ regions.map List.length := hLengths ▸ List.mem_map_of_mem hRegion
      obtain ⟨original, hOriginal, hSame⟩ := List.mem_map.mp hLength
      have hOld := hFit original hOriginal
      omega
    have hSecond := ih hBelow (by simpa using hEight)
      (List.forall_mem_map.mpr fun node _ => (growWith_isBit isa hWord node).2) hFilledCount hRoom
    rw [hFilled, fillLanes_step isa hBelow hLvl hHalf, ← hFilled, addresses_congr 0 _ hLengths,
      addresses_congr 0 _ hLengths, Nat.add_assoc, ← hPow] at hSecond
    simp only [evalFullRecursive8, hHolds.levels lvl _ (List.getElem?_eq_getElem hLvl), ok_bind, hLeft, hRight, hFirst,
      hSecond]

/-- Regions that are exactly filled hold the leaves of their lanes. -/
theorem fillLanes_whole {lvl left : Nat} (hLen : view.levels.length = lvl + left) (lanes : List KeyNode)
    {region : List UInt8} (hRegion : region.length = 16 * 2 ^ left) :
    fillLanes isa view lvl 0 lanes (List.replicate lanes.length region) = lanes.map (laneBytes isa view lvl) := by
  apply List.ext_getElem
  · simp [fillLanes]
  · intro i _ _
    simp only [fillLanes, List.getElem_zipWith, List.getElem_replicate, List.getElem_map]
    exact overwrite_whole (by rw [length_laneBytes isa hLen, hRegion])

theorem evalFull8_eq_bytes (hHolds : Holds key view) (hWords : ∀ w ∈ view.levels, w.IsBits) {logn : Nat}
    (hLow : 10 ≤ logn) (hLogn : logn ≤ 63) (hLen : view.levels.length = stopLevel logn) :
    evalFull8 isa key logn = .ok (view.bytes isa) := by
  have hStop : stopLevel logn = logn - 7 := if_pos (by omega)
  obtain ⟨w₀, w₁, w₂, rest, hLevels⟩ : ∃ w₀ w₁ w₂ rest, view.levels = w₀ :: w₁ :: w₂ :: rest := by
    match h : view.levels with
    | w₀ :: w₁ :: w₂ :: rest => exact ⟨w₀, w₁, w₂, rest, rfl⟩
    | [] | [_] | [_, _] => simp [h, hStop] at hLen; omega
  have hGrow (lvl : Nat) (w : LevelWord) (h : view.levels[lvl]? = some w) (node : KeyNode) :
      grow isa key lvl node = .ok (growWith isa w node) := grow_eq isa (hHolds.levels lvl w h) node
  have hGrow₀ := hGrow 0 w₀ (by rw [hLevels]; rfl)
  have hGrow₁ := hGrow 1 w₁ (by rw [hLevels]; rfl)
  have hGrow₂ := hGrow 2 w₂ (by rw [hLevels]; rfl)
  obtain ⟨lanes, hLanes⟩ : ∃ lanes, lanes = leaves ([w₀, w₁, w₂].map (growWith isa)) view.root := ⟨_, rfl⟩
  have hEight : lanes.length = 8 := by rw [hLanes, length_leaves]; rfl
  have hBits : ∀ node ∈ lanes, IsBit node.2 := by
    have hWord := hWords w₂ (by rw [hLevels]; simp)
    rw [hLanes]
    simp [leaves, growWith_isBit isa hWord]
  have hRegion : (List.replicate (2 ^ (logn - 6)) (0 : UInt8)).length = 16 * 2 ^ (logn - 10) := by
    rw [List.length_replicate, show (16 : Nat) = 2 ^ 4 from rfl, ← Nat.pow_add]
    congr 1
    omega
  have hBelow : view.levels.length = 3 + (logn - 10) := by omega
  have hData : List.replicate (2 ^ (logn - 3)) (0 : UInt8) =
      (List.replicate 8 (List.replicate (2 ^ (logn - 6)) (0 : UInt8))).flatten := by
    rw [List.flatten_replicate_replicate, show (8 : Nat) = 2 ^ 3 from rfl, ← Nat.pow_add]
    congr 2
    omega
  have hPtrs : ((List.range 8).map fun i => i * 2 ^ (logn - 6)) =
      addresses 0 0 (List.replicate 8 (List.replicate (2 ^ (logn - 6)) (0 : UInt8))) := by
    rw [addresses_replicate, List.length_replicate]
    simp only [Nat.zero_add, Nat.add_zero]
  have hRun := evalFullRecursive8_eq isa hHolds hWords hBelow hEight hBits
    (List.length_replicate (n := 8) (a := List.replicate (2 ^ (logn - 6)) (0 : UInt8)))
    (fun region hMem => by rw [List.eq_of_mem_replicate hMem, hRegion, Nat.zero_add])
  have hWhole := fillLanes_whole isa hBelow lanes hRegion
  rw [hEight] at hWhole
  have hBytes : (lanes.map (laneBytes isa view 3)).flatten = view.bytes isa := by
    have hSplit : view.levels.map (growWith isa) =
        [w₀, w₁, w₂].map (growWith isa) ++ (view.levels.drop 3).map (growWith isa) := by
      rw [hLevels]
      rfl
    rw [KeyView.bytes, hSplit, leaves_append, ← hLanes, List.flatMap_assoc]
    rfl
  rw [hWhole, hBytes, ← hData, ← hPtrs, hLanes] at hRun
  have hNoShift : ¬ logn < 6 := by omega
  have hDeep : ¬ stopLevel logn < 3 := by omega
  have hLeft : stopLevel logn - 3 = logn - 10 := by omega
  simp only [evalFull8, Nat.not_lt.mpr hLogn, hNoShift, hDeep, if_false, hHolds.seed, hHolds.control, ok_bind, hGrow₀,
    hGrow₁, hGrow₂, hLeft]
  exact congrArg (fun run => run.bind fun out => .ok out.1) hRun

end Recursion

section Agreement

theorem readLevel_control {key : List UInt8} {lvl : Nat} {w : LevelWord} (h : readLevel key lvl = .ok w) :
    w.tLCW = key.getD (17 + lvl * 18 + 16) 0 ∧ w.tRCW = key.getD (17 + lvl * 18 + 17) 0 := by
  have hByte {offset : Nat} {byte : UInt8} (hRead : readByte key offset = .ok byte) : byte = key.getD offset 0 := by
    rw [readByte] at hRead
    rw [List.getD_eq_getElem?_getD]
    cases hEntry : key[offset]? with
    | none => simp [hEntry] at hRead
    | some entry => simpa [hEntry] using hRead.symm
  rw [readLevel, bind_eq_ok_iff] at h
  obtain ⟨sCW, _, h⟩ := h
  obtain ⟨tLCW, hLeft, h⟩ := (bind_eq_ok_iff _ _ _).mp h
  obtain ⟨tRCW, hRight, h⟩ := (bind_eq_ok_iff _ _ _).mp h
  cases h
  exact ⟨hByte hLeft, hByte hRight⟩

/-- The eight lanes give what the plain recursion gives, inside the bounds of their buffer, whatever the
control byte of the root is. -/
theorem evalFull8_eq_evalFull {key : List UInt8} {logn : Nat} (hLow : 10 ≤ logn) (hLogn : logn ≤ 63)
    (hKey : 17 + 18 * stopLevel logn ≤ key.length)
    (hBits : ∀ lvl < stopLevel logn, IsBit (key.getD (17 + lvl * 18 + 16) 0) ∧
      IsBit (key.getD (17 + lvl * 18 + 17) 0)) :
    ∃ data, evalFull8 isa key logn = .ok data ∧ evalFull isa key logn = .ok data := by
  obtain ⟨view, hHolds, hLen⟩ := exists_view hKey
  refine ⟨view.bytes isa, evalFull8_eq_bytes isa hHolds ?_ hLow hLogn hLen, evalFull_eq isa hHolds hLogn hLen⟩
  intro w hw
  obtain ⟨lvl, hLvl⟩ := List.mem_iff_getElem?.mp hw
  have hDepth : lvl < stopLevel logn := hLen ▸ (List.getElem?_eq_some_iff.mp hLvl).1
  obtain ⟨hLeft, hRight⟩ := readLevel_control (hHolds.levels lvl w hLvl)
  exact ⟨hLeft ▸ (hBits lvl hDepth).1, hRight ▸ (hBits lvl hDepth).2⟩

theorem evalFull8_eq_evalFull_ten : ∃ data, evalFull8 aesNi (List.replicate 87 1) 10 = .ok data ∧
    evalFull aesNi (List.replicate 87 1) 10 = .ok data := by
  refine evalFull8_eq_evalFull aesNi (by decide) (by decide) (by decide) fun lvl hLvl => ?_
  have hDepth : lvl < 3 := hLvl
  constructor <;> exact Or.inr (by rw [List.getD_replicate _ (by omega)])

theorem keyView_isBits (alpha logn party : Nat) : ∀ w ∈ (keyView isa alpha logn party).levels, w.IsBits := by
  intro w hw
  obtain ⟨c, _, rfl⟩ := List.mem_map.mp hw
  exact ⟨isBit_toUInt8 _, isBit_toUInt8 _⟩

/-- The keys that `Gen` makes meet the condition of the eight lanes. -/
theorem evalFull8_key {alpha logn : Nat} (hLow : 10 ≤ logn) (hLogn : logn ≤ 63) (party : Nat) :
    evalFull8 isa (keyView isa alpha logn party).key logn = .ok ((keyView isa alpha logn party).bytes isa) :=
  evalFull8_eq_bytes isa (holds_key _) (keyView_isBits isa alpha logn party) hLow hLogn (length_keyView ..)

end Agreement

end DpfPir
