import IncPir.Dpf.Round

/-! # Retrievals whose keys go over the wire

The codec of the query cuts a key off at a filler byte in its last word. The
last correction word is then read one to three bytes too early, in both keys
alike, and the answer is wrong for some database.
-/

namespace DpfPir
set_option autoImplicit false

open LoopM XorFold

section Truncation

/-- How many bytes of a vector the decoder returns. -/
def kept (bytes : List UInt8) : Nat :=
  4 * (bytes.length / 4) + ((bytes.drop (4 * (bytes.length / 4))).takeWhile (· ≠ 0xFF)).length

theorem unpack_eq_take (bytes : List UInt8) : unpackLoop [] (packWords bytes) = bytes.take (kept bytes) := by
  rw [unpackLoop_packWords, kept, List.take_add, ← List.prefix_iff_eq_take.mp (List.takeWhile_prefix _)]

theorem kept_congr {bytes bytes' : List UInt8} (hLen : bytes.length = bytes'.length)
    (hTail : bytes.drop (4 * (bytes.length / 4)) = bytes'.drop (4 * (bytes.length / 4))) : kept bytes = kept bytes' := by
  rw [kept, kept, hTail, hLen]

theorem takeWhile_stops {tail : List UInt8} (h : 0xFF ∈ tail) :
    tail[(tail.takeWhile (· ≠ 0xFF)).length]? = some 0xFF := by
  induction tail with
  | nil => cases h
  | cons byte rest ih =>
    by_cases hByte : byte = 0xFF
    · simp [hByte]
    · have hRest : 0xFF ∈ rest := by
        rcases List.mem_cons.mp h with h | h
        · exact absurd h.symm hByte
        · exact h
      rw [List.takeWhile_cons_of_pos (by simpa using hByte), List.length_cons, List.getElem?_cons_succ]
      exact ih hRest

theorem kept_le (bytes : List UInt8) : kept bytes ≤ bytes.length := by
  have hTail := List.IsPrefix.length_le (List.takeWhile_prefix (l := bytes.drop (4 * (bytes.length / 4))) (· ≠ 0xFF))
  rw [List.length_drop] at hTail
  rw [kept]
  omega

theorem kept_of_clear {bytes : List UInt8} (h : TailClear bytes) : kept bytes = bytes.length := by
  have hWhole := congrArg List.length ((unpack_eq_self_iff bytes).mpr h)
  rwa [unpack_eq_take, List.length_take_of_le (kept_le bytes)] at hWhole

/-- A vector that is cut off loses at most three bytes, the first of which looks like filler. -/
theorem kept_of_not_clear {bytes : List UInt8} (h : ¬ TailClear bytes) :
    kept bytes < bytes.length ∧ bytes.length ≤ kept bytes + 3 ∧ bytes.getD (kept bytes) 0 = 0xFF := by
  have hFiller : 0xFF ∈ bytes.drop (4 * (bytes.length / 4)) := by
    by_contra hNone
    exact h fun byte hByte hSame => hNone (hSame ▸ hByte)
  have hStop := takeWhile_stops hFiller
  rw [List.getElem?_drop] at hStop
  obtain ⟨hLt, _⟩ := List.getElem?_eq_some_iff.mp hStop
  refine ⟨hLt, ?_, ?_⟩
  · rw [kept]
    omega
  · rw [List.getD_eq_getElem?_getD, kept, hStop, Option.getD_some]

end Truncation

section CutKeys

theorem take_slice {key : List UInt8} {n offset : Nat} (h : offset + 16 ≤ n) :
    ((key.take n).drop offset).take 16 = (key.drop offset).take 16 := by
  rw [List.drop_take, List.take_take, Nat.min_eq_left (by omega)]

theorem readBlock_take {key : List UInt8} {n offset : Nat} (hLe : n ≤ key.length) (h : offset + 16 ≤ n) :
    readBlock (key.take n) offset = readBlock key offset := by
  rw [readBlock_ok (by rw [List.length_take_of_le hLe]; exact h), readBlock_ok (by omega), take_slice h]

theorem readByte_take {key : List UInt8} {n offset : Nat} (h : offset < n) :
    readByte (key.take n) offset = readByte key offset := by
  rw [readByte, readByte, List.getElem?_take_of_lt h]

/-- A key that is cut off after its levels has the same words, except for the last. -/
theorem holds_take {key : List UInt8} {view : KeyView} (hHolds : Holds key view) {n : Nat} (hLe : n ≤ key.length)
    (h : 17 + 18 * view.levels.length ≤ n) :
    Holds (key.take n) (view.withLast (toBlock ((key.drop (n - 16)).take 16))) where
  seed := by
    rw [readBlock_take hLe (by omega)]
    exact hHolds.seed
  control := by
    rw [readByte_take (by omega)]
    exact hHolds.control
  levels := by
    intro lvl w hw
    have hLvl : lvl < view.levels.length := (List.getElem?_eq_some_iff.mp hw).1
    have hRead := hHolds.levels lvl w hw
    rw [readLevel] at hRead ⊢
    rwa [readBlock_take hLe (by omega), readByte_take (by omega), readByte_take (by omega)]
  last := by
    rw [readLast, List.length_take_of_le hLe, if_pos (by omega), readBlock_take hLe (by omega),
      readBlock_ok (by omega)]
    rfl

/-- A sequence that repeats itself at a distance does so at every multiple of it. -/
theorem repeats (f : Nat → UInt8) (base d : Nat) (h : ∀ j < 16, f (base + j) = f (base + d + j)) (start n : Nat)
    (hRoom : start + d * n < 16 + d) : f (base + start) = f (base + start + d * n) := by
  induction n with
  | zero => rfl
  | succ n ih =>
    rw [Nat.mul_succ] at hRoom ⊢
    have hNext := h (start + d * n) (by omega)
    rw [ih (by omega), ← Nat.add_assoc, Nat.add_assoc base start, hNext]
    congr 1
    omega

/-- Sixteen bytes that follow two bits and start one to three bytes early are not the last sixteen. -/
theorem shifted_last_ne {key : List UInt8} {n : Nat} (hLong : 19 ≤ key.length) (hLt : n < key.length)
    (hClose : key.length ≤ n + 3) (hFiller : key.getD n 0 = 0xFF) (hLeft : IsBit (key.getD (key.length - 18) 0))
    (hRight : IsBit (key.getD (key.length - 17) 0)) :
    (key.drop (n - 16)).take 16 ≠ (key.drop (key.length - 16)).take 16 := by
  intro hSame
  have hBit {byte : UInt8} (h : IsBit byte) : byte ≠ 0xFF := by
    rcases h with rfl | rfl <;> decide
  have hStep : ∀ j < 16, key.getD (n - 16 + j) 0 = key.getD (n - 16 + (key.length - n) + j) 0 := by
    intro j hj
    have hEntry := congrArg (fun l : List UInt8 => l[j]?) hSame
    simp only [List.getElem?_take_of_lt hj, List.getElem?_drop] at hEntry
    have hIndex : n - 16 + (key.length - n) = key.length - 16 := by omega
    rw [List.getD_eq_getElem?_getD, List.getD_eq_getElem?_getD, hEntry, hIndex]
  have hEnds (start reps : Nat) {first : Nat} (hRoom : start + (key.length - n) * reps < 16 + (key.length - n))
      (hFirst : n - 16 + start = first) (hLast : first + (key.length - n) * reps = n) : key.getD first 0 = 0xFF := by
    have hChain := repeats (fun k => key.getD k 0) (n - 16) (key.length - n) hStep start reps hRoom
    simpa only [hFirst, hLast, hFiller] using hChain
  rcases (by omega : key.length - n = 1 ∨ key.length - n = 2 ∨ key.length - n = 3) with hd | hd | hd
  · exact hBit hRight (hEnds 0 16 (by omega) (by omega) (by omega))
  · exact hBit hLeft (hEnds 0 8 (by omega) (by omega) (by omega))
  · exact hBit hLeft (hEnds 1 5 (by omega) (by omega) (by omega))

end CutKeys

variable (isa : AesInstructions)

section Pair
variable (alpha lgn : Nat)

theorem kept_key (party : Nat) : kept (keyView isa alpha lgn party).key = kept (keyView isa alpha lgn 0).key := by
  apply kept_congr
  · rw [length_keys, length_keys]
  · apply drop_key
    rw [length_keys]
    omega

theorem tailClear_key (party : Nat) :
    TailClear (keyView isa alpha lgn party).key ↔ TailClear (keyView isa alpha lgn 0).key := by
  have hLen : (keyView isa alpha lgn party).key.length = (keyView isa alpha lgn 0).key.length := by
    rw [length_keys, length_keys]
  rw [TailClear, TailClear, hLen, drop_key]
  rw [length_keys]
  omega

/-- The word that both servers read as the last one. -/
def arrivedLast : Block :=
  toBlock (((keyView isa alpha lgn 0).key.drop (kept (keyView isa alpha lgn 0).key - 16)).take 16)

theorem kept_keys_ge : 17 + 18 * stopLevel lgn ≤ kept (keyView isa alpha lgn 0).key := by
  by_cases hClear : TailClear (keyView isa alpha lgn 0).key
  · rw [kept_of_clear hClear, length_keys]
    omega
  · have hClose := (kept_of_not_clear hClear).2.1
    rw [length_keys] at hClose
    omega

theorem holds_arrived (hDeep : 1 ≤ stopLevel lgn) (party : Nat) :
    Holds (unpackLoop [] (packWords (keyView isa alpha lgn party).key))
      ((keyView isa alpha lgn party).withLast (arrivedLast isa alpha lgn)) := by
  have hKept := kept_keys_ge isa alpha lgn
  have hCut := holds_take (holds_key (keyView isa alpha lgn party)) (kept_le _)
    (by rw [length_keyView, kept_key]; exact hKept)
  rw [kept_key, drop_key isa alpha lgn party (by omega)] at hCut
  rw [unpack_eq_take, kept_key]
  exact hCut

/-- The last word arrives exactly when the keys come through unchanged. -/
theorem arrivedLast_eq_iff (hDeep : 1 ≤ stopLevel lgn) :
    (keyView isa alpha lgn 0).last = arrivedLast isa alpha lgn ↔ TailClear (keyView isa alpha lgn 0).key := by
  have hLen := length_keys isa alpha lgn 0
  have hHolds := holds_key (keyView isa alpha lgn 0)
  have hLast : (keyView isa alpha lgn 0).last =
      toBlock (((keyView isa alpha lgn 0).key.drop ((keyView isa alpha lgn 0).key.length - 16)).take 16) := by
    have hRead := hHolds.last
    rw [readLast, if_pos (by omega), readBlock_ok (by omega)] at hRead
    exact (Except.ok.inj hRead).symm
  constructor
  · intro hSame
    by_contra hCut
    obtain ⟨hLt, hClose, hFiller⟩ := kept_of_not_clear hCut
    obtain ⟨w, hw⟩ : ∃ w, (keyView isa alpha lgn 0).levels[stopLevel lgn - 1]? = some w := by
      have hInside : stopLevel lgn - 1 < (keyView isa alpha lgn 0).levels.length := by
        rw [length_keyView]
        omega
      exact ⟨_, List.getElem?_eq_getElem hInside⟩
    have hBits := keyView_isBits isa alpha lgn 0 w (List.mem_of_getElem? hw)
    obtain ⟨hLeft, hRight⟩ := readLevel_control (hHolds.levels _ w hw)
    have hLeftIndex : 17 + (stopLevel lgn - 1) * 18 + 16 = (keyView isa alpha lgn 0).key.length - 18 := by omega
    have hRightIndex : 17 + (stopLevel lgn - 1) * 18 + 17 = (keyView isa alpha lgn 0).key.length - 17 := by omega
    rw [hLeftIndex] at hLeft
    rw [hRightIndex] at hRight
    have hBytes := congrArg blockBytes (hLast.symm.trans hSame)
    rw [arrivedLast, blockBytes_toBlock (by simp; omega), blockBytes_toBlock (by simp; omega)] at hBytes
    exact shifted_last_ne (by omega) hLt hClose hFiller (hLeft ▸ hBits.left) (hRight ▸ hBits.right) hBytes.symm
  · intro hClear
    rw [hLast, arrivedLast, kept_of_clear hClear]

end Pair

section Retrieval
variable {Wire ReplyWire : Type} {pb : Protobuf Wire} {replyPb : ReplyProtobuf ReplyWire} {alpha : Nat}

theorem generateQuery_eq {lgn : Nat} (hHigh : lgn ≤ 31) (hAlpha : alpha < 2 ^ lgn) :
    generateQuery isa lgn alpha = .ok ⟨(keyView isa alpha lgn 0).key, (keyView isa alpha lgn 1).key⟩ := by
  have hPow : 2 ^ lgn ≤ 2 ^ 31 := Nat.pow_le_pow_right (by decide) hHigh
  have hIndex : ((alpha : Int) % 2 ^ 64).toNat = alpha := by omega
  rw [generateQuery, hIndex, gen_eq isa hHigh hAlpha]
  rfl

/-- What a server selects for a key that arrived. -/
def arrivedItem (server : PIRServer) (alpha party : Nat) : Item :=
  selected server.database
    (((keyView isa alpha server.lgn party).withLast (arrivedLast isa alpha server.lgn)).bytes isa)

theorem onlineHandler_eq (hParse : ∀ m, pb.parseFromString (pb.serializeToString m) = some m) {server : PIRServer}
    (hLow : 10 ≤ server.lgn) (hHigh : server.lgn ≤ 31) (hSize : server.database.length = 2 ^ server.lgn) :
    onlineHandler isa pb replyPb server
        (serializeQuery pb ⟨(keyView isa alpha server.lgn 0).key, (keyView isa alpha server.lgn 1).key⟩) =
      .ok (serializeReply replyPb (replyWords (arrivedItem isa server alpha 0))
        (replyWords (arrivedItem isa server alpha 1))) := by
  have hDeep : 1 ≤ stopLevel server.lgn := by
    rw [stopLevel, if_pos (by omega)]
    omega
  have hReply (party : Nat) := generateReply_eq isa hLow (by omega) hSize
    (holds_arrived isa alpha server.lgn hDeep party) (keyView_isBits isa alpha server.lgn party)
    (length_keyView isa alpha server.lgn party)
  simp only [onlineHandler, deserializeQuery_serializeQuery hParse, PIRServer.generateLeftReply,
    PIRServer.generateRightReply, hReply, ok_bind, pure_eq_ok, arrivedItem]

theorem deserializeReply_replyWords (hReplyParse : ∀ m, replyPb.parseFromString (replyPb.serializeToString m) = some m)
    (a b : Item) :
    deserializeReply replyPb (serializeReply replyPb (replyWords a) (replyWords b)) = .ok (replyWords a, replyWords b) :=
  deserializeReply_serializeReply replyPb hReplyParse (by rw [length_replyWords, length_replyWords])

/-- What a query over the network returns, in terms of the word that arrives as the last one. -/
theorem onlineQuery_eq (hParse : ∀ m, pb.parseFromString (pb.serializeToString m) = some m)
    (hReplyParse : ∀ m, replyPb.parseFromString (replyPb.serializeToString m) = some m) {server : PIRServer}
    (hLow : 10 ≤ server.lgn) (hHigh : server.lgn ≤ 31) (hAlpha : alpha < 2 ^ server.lgn)
    (hSize : server.database.length = 2 ^ server.lgn) :
    onlineQuery isa pb replyPb server server.lgn alpha =
      .ok (arrivedItem isa server alpha 0 ^^^ arrivedItem isa server alpha 1) := by
  rw [onlineQuery, generateQuery_eq isa hHigh hAlpha, ok_bind, onlineHandler_eq isa hParse hLow hHigh hSize, ok_bind,
    deserializeReply_replyWords hReplyParse, ok_bind]
  exact recoverItem_replyWords _ _

/-- A database that holds one item and nothing else. -/
def singleItem (size index : Nat) : List Item := (List.replicate size 0#256).set index 1#256

theorem length_singleItem (size index : Nat) : (singleItem size index).length = size := by simp [singleItem]

theorem singleItem_getD {size index : Nat} (hIndex : index < size) (i : Nat) :
    (singleItem size index).getD i 0#256 = if i = index then 1#256 else 0#256 := by
  rw [List.getD_eq_getElem?_getD, singleItem, List.getElem?_set]
  by_cases hSame : index = i
  · subst hSame
    simp [hIndex]
  · rw [if_neg hSame, if_neg (Ne.symm hSame), List.getElem?_replicate]
    split <;> rfl

/-- Of a single item the selection returns all or nothing. -/
theorem selected_single {size index : Nat} (hIndex : index < size) (chosen : Nat → Prop) [DecidablePred chosen] :
    xorOver (fun i => if chosen i then (singleItem size index).getD i 0#256 else 0#256) (List.range size) =
      if chosen index then 1#256 else 0#256 := by
  rw [← xorOver_single (fun i => if chosen i then 1#256 else 0#256) List.nodup_range (List.mem_range.mpr hIndex)]
  apply xorOver_congr
  intro i _
  rw [singleItem_getD hIndex]
  by_cases hSame : i = index <;> simp [hSame]

theorem bit_eq_of_answer : ∀ target last arrived : Bool,
    (if (target ^^ (last ^^ arrived)) = true then 1#256 else 0#256) = (if target = true then 1#256 else 0#256) →
      last = arrived := by decide

/-- A query over the network returns the right item of every database exactly when the last word of the
keys holds no byte that looks like filler. -/
theorem onlineQuery_all_iff (hParse : ∀ m, pb.parseFromString (pb.serializeToString m) = some m)
    (hReplyParse : ∀ m, replyPb.parseFromString (replyPb.serializeToString m) = some m) {lgn : Nat} (hLow : 10 ≤ lgn)
    (hHigh : lgn ≤ 31) (hAlpha : alpha < 2 ^ lgn) : ∃ ka kb, gen isa alpha lgn = .ok (ka, kb) ∧
      ((∀ database, database.length = 2 ^ lgn →
        onlineQuery isa pb replyPb ⟨lgn, database⟩ lgn alpha = .ok (database.getD alpha 0#256)) ↔
      TailClear ka ∧ TailClear kb) := by
  have hDeep : 1 ≤ stopLevel lgn := by
    rw [stopLevel, if_pos (by omega)]
    omega
  refine ⟨_, _, gen_eq isa hHigh hAlpha, ?_⟩
  rw [tailClear_key isa alpha lgn 1, and_self, ← arrivedLast_eq_iff isa alpha lgn hDeep]
  constructor
  · intro hRight
    apply BitVec.eq_of_getLsbD_eq
    intro j hj
    have hWhole : 2 ^ lgn = 128 * 2 ^ (lgn - 7) := by
      rw [show (128 : Nat) = 2 ^ 7 from rfl, ← Nat.pow_add]
      congr 1
      omega
    have hIndex : 128 * (alpha / 128) + j < 2 ^ lgn := by omega
    have hDiv : (128 * (alpha / 128) + j) / 128 = alpha / 128 := by omega
    have hMod : (128 * (alpha / 128) + j) % 128 = j := by omega
    -- the item that stands at bit `j` of the leaf of the index, and zero everywhere else
    have hAnswer := hRight (singleItem (2 ^ lgn) (128 * (alpha / 128) + j)) (length_singleItem _ _)
    rw [onlineQuery_eq isa hParse hReplyParse hLow hHigh hAlpha (length_singleItem _ _), Except.ok.injEq, arrivedItem,
      arrivedItem] at hAnswer
    rw [selected_keys isa hAlpha (length_singleItem _ _), length_singleItem, selected_single hIndex, hDiv, hMod,
      singleItem_getD hIndex, BitVec.getLsbD_xor, getLsbD_pointBlock alpha hj, BitVec.getLsbD_xor] at hAnswer
    have hTarget : alpha = 128 * (alpha / 128) + j ↔ decide (j = alpha % 128) = true := by
      rw [decide_eq_true_eq]
      omega
    simp only [true_and, hTarget] at hAnswer
    exact bit_eq_of_answer _ _ _ hAnswer
  · intro hSame database hSize
    rw [onlineQuery_eq isa hParse hReplyParse hLow hHigh hAlpha hSize, arrivedItem, arrivedItem, ← hSame]
    exact congrArg _ (selected_point isa hAlpha hSize)

theorem onlineQuery_all_iff_ten : ∃ ka kb, gen aesNi 700 10 = .ok (ka, kb) ∧
    ((∀ database, database.length = 2 ^ 10 →
      onlineQuery aesNi wireFormat replyWireFormat ⟨10, database⟩ 10 (700 : Nat) = .ok (database.getD 700 0#256)) ↔
    TailClear ka ∧ TailClear kb) :=
  onlineQuery_all_iff aesNi wireFormat_parse replyWireFormat_parse (by decide) (by decide) (by decide)

/-- The test program returns the item, or stops at its comparison of the queries. -/
theorem testRound_eq (hParse : ∀ m, pb.parseFromString (pb.serializeToString m) = some m)
    (hReplyParse : ∀ m, replyPb.parseFromString (replyPb.serializeToString m) = some m) {server : PIRServer}
    (hLow : 10 ≤ server.lgn) (hHigh : server.lgn ≤ 31) (hAlpha : alpha < 2 ^ server.lgn)
    (hSize : server.database.length = 2 ^ server.lgn) : ∃ ka kb, gen isa alpha server.lgn = .ok (ka, kb) ∧
      testRound isa pb replyPb server server.lgn alpha =
        if TailClear ka ∧ TailClear kb then .ok (server.database.getD alpha 0#256) else .error .assertionFailed := by
  refine ⟨_, _, gen_eq isa hHigh hAlpha, ?_⟩
  have hReply (party : Nat) := generateReply_eq isa hLow (by omega) hSize (holds_key (keyView isa alpha server.lgn party))
    (keyView_isBits isa alpha server.lgn party) (length_keyView isa alpha server.lgn party)
  simp only [testRound, generateQuery_eq isa hHigh hAlpha, ok_bind, deserializeQuery_serializeQuery hParse]
  by_cases hClear : TailClear (keyView isa alpha server.lgn 0).key ∧ TailClear (keyView isa alpha server.lgn 1).key
  · rw [if_pos hClear, (unpack_eq_self_iff _).mpr hClear.1, (unpack_eq_self_iff _).mpr hClear.2, if_neg (by simp)]
    simp only [PIRServer.generateLeftReply, PIRServer.generateRightReply, hReply, ok_bind,
      deserializeReply_replyWords hReplyParse, recoverItem_replyWords, selected_point isa hAlpha hSize]
  · rw [if_neg hClear, if_pos]
    · rfl
    · intro hSame
      obtain ⟨hLeft, hRight⟩ := ClientQuery.mk.inj hSame
      exact hClear ⟨(unpack_eq_self_iff _).mp hLeft.symm, (unpack_eq_self_iff _).mp hRight.symm⟩

theorem testRound_eq_ten : ∃ ka kb, gen aesNi 700 10 = .ok (ka, kb) ∧
    testRound aesNi wireFormat replyWireFormat ⟨10, singleItem (2 ^ 10) 700⟩ 10 (700 : Nat) =
      if TailClear ka ∧ TailClear kb then .ok ((singleItem (2 ^ 10) 700).getD 700 0#256) else .error .assertionFailed :=
  @testRound_eq aesNi _ _ wireFormat replyWireFormat 700 wireFormat_parse replyWireFormat_parse
    ⟨10, singleItem (2 ^ 10) 700⟩ (by decide) (by decide) (by decide) (length_singleItem _ _)

end Retrieval

end DpfPir
