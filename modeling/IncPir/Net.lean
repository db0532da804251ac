import IncPir.Pir
import IncPir.Library.Buffer
import IncPir.Library.PassLoop

/-! # Messages on a socket (`net.hpp`)

A message is sent behind its length. The socket decides how many bytes each
call moves, so both directions loop over partial transfers. The reader stays in
its loop at the end of the stream: `read` returns 0 there, and only negative
values end the loop.
-/

namespace IncPir
open LoopM Buffer PassLoop
set_option autoImplicit false

/-- What `select` and the following `read` or `write` do: nothing becomes ready, the call fails, or it moves
`size` bytes unless fewer are left. -/
inductive SocketCall where
  | timeout
  | failed
  | moves (size : Nat) (hSize : 0 < size)

/-- Every call of the loop finds the socket ready and succeeds. -/
def Reliable (calls : Nat → SocketCall) : Prop := ∀ k, ∃ size hSize, calls k = .moves size hSize

/-- The bytes that arrive until the peer closes the connection, and the number of calls made. -/
structure ReadEnd where
  incoming : List UInt8
  reads : Nat
deriving DecidableEq, Repr

structure WriteEnd where
  outgoing : List UInt8
  writes : Nat
deriving DecidableEq, Repr

/-- The conversion of an unsigned length to `int`. -/
def int32 (n : Nat) : Int := (BitVec.ofNat 32 n).toInt

/-- The bytes of `htonl(n)` in memory. -/
def htonl (n : Nat) : List UInt8 :=
  [UInt8.ofNat (n >>> 24), UInt8.ofNat (n >>> 16), UInt8.ofNat (n >>> 8), UInt8.ofNat n]

def ntohl (bytes : List UInt8) : Nat := bytes.foldl (fun n byte => 256 * n + byte.toNat) 0

section Loops
variable (calls : Nat → SocketCall)

def doWrite (buf : List UInt8) (len : Int) : Nat → Nat → WriteEnd → Except Fault (Bool × WriteEnd)
  | 0, _, _ => .error .noReturn
  | passes + 1, sent, w =>
    if (sent : Int) < len then
      match calls w.writes with
      | .timeout => .ok (false, ⟨w.outgoing, w.writes + 1⟩)
      | .failed => .ok (false, ⟨w.outgoing, w.writes + 1⟩)
      | .moves size _ =>
        let chunk := (buf.drop sent).take (min size (len - sent).toNat)
        doWrite buf len passes (sent + chunk.length) ⟨w.outgoing ++ chunk, w.writes + 1⟩
    else .ok (true, w)

def doRead (len : Int) : Nat → Nat → List UInt8 → ReadEnd → Except Fault (Bool × List UInt8 × ReadEnd)
  | 0, _, _, _ => .error .noReturn
  | passes + 1, rcvd, buf, s =>
    if (rcvd : Int) < len then
      match calls s.reads with
      | .timeout => .ok (false, buf, ⟨s.incoming, s.reads + 1⟩)
      | .failed => .ok (false, buf, ⟨s.incoming, s.reads + 1⟩)
      | .moves size _ =>
        -- At the end of the stream the chunk is empty and the loop goes on.
        let chunk := s.incoming.take (min size (len - rcvd).toNat)
        doRead len passes (rcvd + chunk.length) (overwrite buf rcvd chunk)
          ⟨s.incoming.drop chunk.length, s.reads + 1⟩
    else .ok (true, buf, s)

def formatMsg (input : List UInt8) : List UInt8 := htonl (u32 input.length) ++ input

def sendMsg (passes : Nat) (msg : List UInt8) (w : WriteEnd) : Except Fault (Bool × WriteEnd) :=
  doWrite calls (formatMsg msg) (int32 (formatMsg msg).length) passes 0 w

/-- The result is the received message, or nothing where the code returns `false`. -/
def recvMsg (passes : Nat) (s : ReadEnd) : Except Fault (Option (List UInt8) × ReadEnd) := do
  let (received, header, s) ← doRead calls 4 passes 0 (List.replicate 4 0) s
  if received = false then .ok (none, s)
  else do
    let resLen := ntohl header
    let (received, tmp, s) ← doRead calls (int32 resLen) passes 0 (List.replicate resLen 0) s
    if received = false then .ok (none, s) else .ok (some tmp, s)

end Loops

section Lengths

theorem int32_of_lt {n : Nat} (h : n < 2 ^ 31) : int32 n = n := by
  rw [int32, BitVec.toInt_ofNat']
  exact Int.bmod_eq_of_le (by omega) (by omega)

theorem int32_neg {n : Nat} (hLow : 2 ^ 31 ≤ n) (hHigh : n < 2 ^ 32) : int32 n < 0 := by
  rw [int32, BitVec.toInt_ofNat', Int.bmod_def]
  omega

@[simp] theorem htonl_length (n : Nat) : (htonl n).length = 4 := rfl

theorem ntohl_htonl {n : Nat} (h : n < 2 ^ 32) : ntohl (htonl n) = n := by
  simp only [ntohl, htonl, List.foldl_cons, List.foldl_nil, UInt8.toNat_ofNat', Nat.shiftRight_eq_div_pow]
  omega

theorem ntohl_lt {header : List UInt8} (h : header.length = 4) : ntohl header < 2 ^ 32 := by
  obtain ⟨a, b, c, d, rfl⟩ : ∃ a b c d, header = [a, b, c, d] := List.length_eq_four.mp h
  have hFirst := a.toNat_lt
  have hSecond := b.toNat_lt
  have hThird := c.toNat_lt
  have hLast := d.toNat_lt
  simp only [ntohl, List.foldl_cons, List.foldl_nil]
  omega

@[simp] theorem formatMsg_length (msg : List UInt8) : (formatMsg msg).length = 4 + msg.length := by
  simp [formatMsg]

end Lengths

section Sending
variable {calls : Nat → SocketCall} {buf : List UInt8}

/-- A write loop that returns `true` has sent the rest of its buffer, in any number of pieces. -/
theorem doWrite_sends {passes sent : Nat} {w w' : WriteEnd}
    (h : doWrite calls buf buf.length passes sent w = .ok (true, w')) :
    w'.outgoing = w.outgoing ++ buf.drop sent := by
  induction passes generalizing sent w with
  | zero => cases h
  | succ passes ih =>
    rw [doWrite] at h
    split at h
    · split at h
      · cases h
      · cases h
      · rw [ih h, List.append_assoc, ← List.drop_drop, List.prefix_iff_eq_append.mp (List.take_prefix _ _)]
    · rename_i hDone
      cases h
      rw [List.drop_eq_nil_of_le (by omega), List.append_nil]

theorem sendMsg_sends {passes : Nat} {msg : List UInt8} {w w' : WriteEnd} (hLen : 4 + msg.length < 2 ^ 31)
    (h : sendMsg calls passes msg w = .ok (true, w')) : w'.outgoing = w.outgoing ++ formatMsg msg := by
  rw [sendMsg, int32_of_lt (by rwa [formatMsg_length])] at h
  exact doWrite_sends h

def writeLoop (calls : Nat → SocketCall) (buf : List UInt8) (len : Int) (passes : Nat) (t : Nat × WriteEnd) :
    Except Fault (Bool × WriteEnd) :=
  doWrite calls buf len passes t.1 t.2

/-- Every write moves at least one byte. -/
theorem writeLoop_step (hCalls : Reliable calls) (t : Nat × WriteEnd) (hSent : t.1 ≤ buf.length) :
    (∃ result, Ends (writeLoop calls buf buf.length) t result ∧ ∃ w', result = (true, w')) ∨
      ∃ t', Continues (writeLoop calls buf buf.length) t t' ∧ t'.1 ≤ buf.length ∧
        buf.length - t'.1 < buf.length - t.1 := by
  obtain ⟨sent, w⟩ := t
  rcases Nat.eq_or_lt_of_le hSent with hDone | hMore
  · refine .inl ⟨(true, w), fun n => ?_, w, rfl⟩
    rw [writeLoop, doWrite, if_neg (by omega)]
  · obtain ⟨size, hSize, hCall⟩ := hCalls w.writes
    obtain ⟨chunk, hChunk⟩ : ∃ chunk, (buf.drop sent).take (min size ((buf.length : Int) - sent).toNat) = chunk :=
      ⟨_, rfl⟩
    have hLength : chunk.length = min (min size ((buf.length : Int) - sent).toNat) (buf.length - sent) := by
      rw [← hChunk, List.length_take, List.length_drop]
    dsimp only at hMore
    refine .inr ⟨(sent + chunk.length, ⟨w.outgoing ++ chunk, w.writes + 1⟩), fun n => ?_, ?_, ?_⟩
    · rw [writeLoop, doWrite, if_pos (Int.ofNat_lt.mpr hMore), hCall, ← hChunk]
      rfl
    · dsimp only
      omega
    · dsimp only
      omega

theorem sendMsg_returns (hCalls : Reliable calls) {msg : List UInt8} (hLen : 4 + msg.length < 2 ^ 31)
    (w : WriteEnd) : ∃ w', ∀ passes, msg.length + 5 ≤ passes → sendMsg calls passes msg w = .ok (true, w') := by
  obtain ⟨_, ⟨w', rfl⟩, hWrite⟩ := returns (writeLoop calls (formatMsg msg) (formatMsg msg).length)
    (fun t => t.1 ≤ (formatMsg msg).length) (fun t => (formatMsg msg).length - t.1)
    (fun result => ∃ w', result = (true, w')) (writeLoop_step hCalls) (s := (0, w)) (Nat.zero_le _)
  refine ⟨w', fun passes hPasses => ?_⟩
  rw [sendMsg, int32_of_lt (by rwa [formatMsg_length])]
  exact hWrite passes (by rw [formatMsg_length]; omega)

end Sending

section Receiving
variable {calls : Nat → SocketCall} {len : Int} {stream blank buf : List UInt8} {rcvd : Nat} {s : ReadEnd}

/-- The first `rcvd` bytes of the stream are in the buffer, and the others are still to come. -/
structure Received (stream blank : List UInt8) (rcvd : Nat) (buf : List UInt8) (s : ReadEnd) : Prop where
  within : rcvd ≤ stream.length
  buffer : buf = filled stream blank rcvd
  rest : s.incoming = stream.drop rcvd

theorem Received.start (stream blank : List UInt8) (reads : Nat) : Received stream blank 0 blank ⟨stream, reads⟩ :=
  ⟨Nat.zero_le _, (filled_zero stream blank).symm, rfl⟩

def readLoop (calls : Nat → SocketCall) (len : Int) (passes : Nat) (t : Nat × List UInt8 × ReadEnd) :
    Except Fault (Bool × List UInt8 × ReadEnd) :=
  doRead calls len passes t.1 t.2.1 t.2.2

theorem readLoop_pass (t : Nat × List UInt8 × ReadEnd) :
    (∃ t', Continues (readLoop calls len) t t') ∨ ∃ result, Ends (readLoop calls len) t result := by
  obtain ⟨rcvd, buf, s⟩ := t
  by_cases hMore : (rcvd : Int) < len
  · cases hCall : calls s.reads with
    | timeout =>
      refine .inr ⟨(false, buf, ⟨s.incoming, s.reads + 1⟩), fun n => ?_⟩
      rw [readLoop, doRead, if_pos hMore, hCall]
    | failed =>
      refine .inr ⟨(false, buf, ⟨s.incoming, s.reads + 1⟩), fun n => ?_⟩
      rw [readLoop, doRead, if_pos hMore, hCall]
    | moves size hSize =>
      have hNext : Continues (readLoop calls len) (rcvd, buf, s)
          (rcvd + (s.incoming.take (min size (len - rcvd).toNat)).length,
            overwrite buf rcvd (s.incoming.take (min size (len - rcvd).toNat)),
            ⟨s.incoming.drop (s.incoming.take (min size (len - rcvd).toNat)).length, s.reads + 1⟩) := by
        intro n
        rw [readLoop, doRead, if_pos hMore, hCall]
        rfl
      exact .inl ⟨_, hNext⟩
  · refine .inr ⟨(true, buf, s), fun n => ?_⟩
    rw [readLoop, doRead, if_neg hMore]

theorem doRead_of_le {passes passes' : Nat} {result : Bool × List UInt8 × ReadEnd} (hLe : passes ≤ passes')
    (h : doRead calls len passes rcvd buf s = .ok result) : doRead calls len passes' rcvd buf s = .ok result := by
  have hZero : ∀ t result, readLoop calls len 0 t ≠ .ok result := by
    intro t result hOk
    cases hOk
  exact ok_of_le (readLoop calls len) hZero readLoop_pass (s := (rcvd, buf, s)) hLe h

/-- A pass over a stream makes progress unless the stream is at its end. -/
theorem readLoop_step (hCalls : Reliable calls) (hInv : Received stream blank rcvd buf s)
    (hMore : (rcvd : Int) < len) :
    ∃ rcvd' buf' s', Continues (readLoop calls len) (rcvd, buf, s) (rcvd', buf', s') ∧
      Received stream blank rcvd' buf' s' ∧ (rcvd' : Int) ≤ len ∧ (rcvd < stream.length → rcvd < rcvd') := by
  obtain ⟨size, hSize, hCall⟩ := hCalls s.reads
  have hLength : ((stream.drop rcvd).take (min size (len - rcvd).toNat)).length =
      min (min size (len - rcvd).toNat) (stream.length - rcvd) := by
    rw [List.length_take, List.length_drop]
  have hWithin := hInv.within
  refine ⟨rcvd + ((stream.drop rcvd).take (min size (len - rcvd).toNat)).length, _, ⟨_, s.reads + 1⟩,
    fun n => ?_, ⟨?_, rfl, rfl⟩, ?_, ?_⟩
  · rw [readLoop, doRead, if_pos hMore, hCall]
    dsimp only
    rw [hInv.rest, hInv.buffer, overwrite_filled hWithin, List.drop_drop]
    rfl
  · omega
  · omega
  · omega

/-- A stream with enough bytes fills the buffer, and the loop stops behind the bytes it needs. -/
theorem doRead_fills (hCalls : Reliable calls) {need : Nat} (hNeed : need ≤ stream.length)
    (hInv : Received stream blank rcvd buf s) (hLe : rcvd ≤ need) :
    ∃ reads, ∀ passes, need - rcvd < passes → doRead calls need passes rcvd buf s =
      .ok (true, filled stream blank need, ⟨stream.drop need, reads⟩) := by
  have hStep : ∀ t : Nat × List UInt8 × ReadEnd, Received stream blank t.1 t.2.1 t.2.2 ∧ t.1 ≤ need →
      (∃ result, Ends (readLoop calls need) t result ∧
        ∃ reads, result = (true, filled stream blank need, ⟨stream.drop need, reads⟩)) ∨
      ∃ t', Continues (readLoop calls need) t t' ∧ (Received stream blank t'.1 t'.2.1 t'.2.2 ∧ t'.1 ≤ need) ∧
        need - t'.1 < need - t.1 := by
    rintro ⟨rcvd, buf, s⟩ ⟨hInv, hLe⟩
    dsimp only at hInv hLe ⊢
    rcases Nat.eq_or_lt_of_le hLe with rfl | hMore
    · refine .inl ⟨_, fun n => ?_, s.reads, rfl⟩
      rw [readLoop, doRead, if_neg (Int.lt_irrefl _), hInv.buffer, ← hInv.rest]
    · obtain ⟨rcvd', buf', s', hNext, hInv', hLe', hProgress⟩ :=
        readLoop_step hCalls hInv (Int.ofNat_lt.mpr hMore)
      have hAhead := hProgress (by omega)
      exact .inr ⟨(rcvd', buf', s'), hNext, ⟨hInv', by omega⟩, by omega⟩
  obtain ⟨_, ⟨reads, rfl⟩, hRead⟩ := returns (readLoop calls need) _ (fun t => need - t.1) _ hStep
    (s := (rcvd, buf, s)) ⟨hInv, hLe⟩
  exact ⟨reads, hRead⟩

/-- A stream that ends too early keeps the loop going for ever. -/
theorem doRead_stalls (hCalls : Reliable calls) (hShort : (stream.length : Int) < len)
    (hInv : Received stream blank rcvd buf s) (passes : Nat) :
    doRead calls len passes rcvd buf s = .error .noReturn := by
  have hStep : ∀ t : Nat × List UInt8 × ReadEnd, Received stream blank t.1 t.2.1 t.2.2 →
      ∃ t', Continues (readLoop calls len) t t' ∧ Received stream blank t'.1 t'.2.1 t'.2.2 := by
    rintro ⟨rcvd, buf, s⟩ hInv
    have hWithin := hInv.within
    have hMore : (rcvd : Int) < len := by
      dsimp only at hWithin
      omega
    obtain ⟨rcvd', buf', s', hNext, hInv', -⟩ := readLoop_step hCalls hInv hMore
    exact ⟨(rcvd', buf', s'), hNext, hInv'⟩
  exact stalls (readLoop calls len) (fun t => Received stream blank t.1 t.2.1 t.2.2) (fun _ => rfl) hStep
    (s := (rcvd, buf, s)) hInv passes

end Receiving

section Messages
variable {calls : Nat → SocketCall} {incoming : List UInt8}

/-- The announced length, once the header has arrived. -/
def announced (incoming : List UInt8) : Nat := ntohl (incoming.take 4)

/-- All bytes of a message arrive before the peer closes the connection. -/
def Complete (incoming : List UInt8) : Prop := 4 ≤ incoming.length ∧ 4 + announced incoming ≤ incoming.length

theorem recvMsg_of_le {passes passes' : Nat} {s : ReadEnd} {result : Option (List UInt8) × ReadEnd}
    (hLe : passes ≤ passes') (h : recvMsg calls passes s = .ok result) : recvMsg calls passes' s = .ok result := by
  obtain ⟨⟨received, header, mid⟩, hHeader, h⟩ := (bind_eq_ok_iff _ _ _).mp h
  rw [recvMsg, doRead_of_le hLe hHeader, ok_bind]
  dsimp only at h ⊢
  split at h
  · rename_i hFailed
    rw [if_pos hFailed, h]
  · rename_i hRead
    obtain ⟨⟨received, tmp, last⟩, hBody, h⟩ := (bind_eq_ok_iff _ _ _).mp h
    rw [if_neg hRead, doRead_of_le hLe hBody, ok_bind, h]

theorem recvMsg_unique {passes passes' : Nat} {s : ReadEnd} {result result' : Option (List UInt8) × ReadEnd}
    (h : recvMsg calls passes s = .ok result) (h' : recvMsg calls passes' s = .ok result') : result = result' :=
  Except.ok.inj ((recvMsg_of_le (Nat.le_max_left _ _) h).symm.trans (recvMsg_of_le (Nat.le_max_right _ _) h'))

/-- Once the header is there, what is left is the loop for the announced bytes. -/
theorem recvMsg_header (hCalls : Reliable calls) (hHeader : 4 ≤ incoming.length) (reads : Nat) :
    ∃ reads', ∀ passes, 5 ≤ passes → recvMsg calls passes ⟨incoming, reads⟩ = (do
      let (received, tmp, s) ← doRead calls (int32 (announced incoming)) passes 0
        (List.replicate (announced incoming) 0) ⟨incoming.drop 4, reads'⟩
      if received = false then .ok (none, s) else .ok (some tmp, s)) := by
  obtain ⟨reads', hRead⟩ := doRead_fills hCalls hHeader (Received.start incoming (List.replicate 4 0) reads)
    (Nat.zero_le 4)
  refine ⟨reads', fun passes hPasses => ?_⟩
  have hFilled : filled incoming (List.replicate 4 0) 4 = incoming.take 4 :=
    filled_of_length_le (by simp)
  rw [hFilled] at hRead
  rw [recvMsg]
  rw [show doRead calls 4 passes 0 (List.replicate 4 0) ⟨incoming, reads⟩ = _ from hRead passes hPasses]
  rfl

theorem recvMsg_short (hCalls : Reliable calls) (hShort : incoming.length < 4) (passes reads : Nat) :
    recvMsg calls passes ⟨incoming, reads⟩ = .error .noReturn := by
  rw [recvMsg, doRead_stalls hCalls (by omega) (Received.start incoming (List.replicate 4 0) reads), error_bind]

theorem recvMsg_complete (hCalls : Reliable calls) (hLen : announced incoming < 2 ^ 31)
    (hComplete : Complete incoming) (reads : Nat) :
    ∃ reads', ∀ passes, announced incoming + 5 ≤ passes → recvMsg calls passes ⟨incoming, reads⟩ =
      .ok (some ((incoming.drop 4).take (announced incoming)),
        ⟨incoming.drop (4 + announced incoming), reads'⟩) := by
  obtain ⟨hHeader, hBody⟩ := hComplete
  obtain ⟨mid, hRest⟩ := recvMsg_header hCalls hHeader reads
  have hNeed : announced incoming ≤ (incoming.drop 4).length := by
    rw [List.length_drop]
    omega
  obtain ⟨reads', hRead⟩ := doRead_fills hCalls hNeed
    (Received.start (incoming.drop 4) (List.replicate (announced incoming) 0) mid) (Nat.zero_le _)
  refine ⟨reads', fun passes hPasses => ?_⟩
  rw [hRest passes (by omega), int32_of_lt hLen, hRead passes (by omega), ok_bind,
    filled_of_length_le (by simp), List.drop_drop]
  rfl

/-- A length of 2^31 or more is negative as an `int`: no byte of the message is read. -/
theorem recvMsg_unread (hCalls : Reliable calls) (hHeader : 4 ≤ incoming.length)
    (hLen : 2 ^ 31 ≤ announced incoming) (reads : Nat) :
    ∃ reads', ∀ passes, 5 ≤ passes → recvMsg calls passes ⟨incoming, reads⟩ =
      .ok (some (List.replicate (announced incoming) 0), ⟨incoming.drop 4, reads'⟩) := by
  obtain ⟨mid, hRest⟩ := recvMsg_header hCalls hHeader reads
  have hNeg := int32_neg hLen (ntohl_lt (List.length_take_of_le hHeader))
  refine ⟨mid, fun passes hPasses => ?_⟩
  obtain ⟨more, rfl⟩ : ∃ more, passes = more + 1 := ⟨passes - 1, by omega⟩
  rw [hRest _ hPasses, doRead, if_neg (by exact_mod_cast Int.not_lt_of_ge (Int.le_of_lt hNeg)), ok_bind]
  rfl

theorem recvMsg_stalls (hCalls : Reliable calls) (hHeader : 4 ≤ incoming.length)
    (hLen : announced incoming < 2 ^ 31) (hShort : incoming.length < 4 + announced incoming)
    (passes reads : Nat) (hPasses : 5 ≤ passes) :
    recvMsg calls passes ⟨incoming, reads⟩ = .error .noReturn := by
  obtain ⟨mid, hRest⟩ := recvMsg_header hCalls hHeader reads
  have hLess : ((incoming.drop 4).length : Int) < announced incoming := by
    rw [List.length_drop]
    omega
  rw [hRest passes hPasses, int32_of_lt hLen,
    doRead_stalls hCalls hLess (Received.start _ (List.replicate (announced incoming) 0) mid), error_bind]

theorem announced_formatMsg {msg : List UInt8} (h : msg.length < 2 ^ 32) (rest : List UInt8) :
    announced (formatMsg msg ++ rest) = msg.length := by
  rw [announced, formatMsg, List.append_assoc, List.take_left' (htonl_length _), u32_of_lt h, ntohl_htonl h]

/-- However the socket splits a message on both sides, the reader gets the message and stops behind it. -/
theorem recvMsg_sendMsg {writeCalls readCalls : Nat → SocketCall} (hReads : Reliable readCalls)
    {msg : List UInt8} (hLen : msg.length ≤ 2 ^ 31 - 5) {passes : Nat} {w w' : WriteEnd}
    (h : sendMsg writeCalls passes msg w = .ok (true, w')) :
    ∃ sent, w'.outgoing = w.outgoing ++ sent ∧ sent.length = 4 + msg.length ∧
      ∀ rest reads, ∃ reads', ∀ passes', msg.length + 5 ≤ passes' →
        recvMsg readCalls passes' ⟨sent ++ rest, reads⟩ = .ok (some msg, ⟨rest, reads'⟩) := by
  refine ⟨formatMsg msg, sendMsg_sends (by omega) h, formatMsg_length msg, fun rest reads => ?_⟩
  have hAnnounced := announced_formatMsg (by omega : msg.length < 2 ^ 32) rest
  have hComplete : Complete (formatMsg msg ++ rest) := by
    rw [Complete, hAnnounced, List.length_append, formatMsg_length]
    omega
  obtain ⟨reads', hRecv⟩ := recvMsg_complete hReads (by omega) hComplete reads
  refine ⟨reads', fun passes' hPasses => ?_⟩
  rw [hRecv passes' (by omega), hAnnounced, List.drop_left' (formatMsg_length msg)]
  have hBody : ((formatMsg msg ++ rest).drop 4).take msg.length = msg := by
    rw [formatMsg, List.append_assoc, List.drop_left' (htonl_length _), List.take_left]
  rw [hBody]

/-- Writes of growing and reads of equal pieces; both cut through the header. -/
def growingPieces : Nat → SocketCall := fun k => .moves (k + 1) (Nat.succ_pos k)

def equalPieces : Nat → SocketCall := fun _ => .moves 3 (by decide)

theorem equalPieces_reliable : Reliable equalPieces := fun _ => ⟨3, by decide, rfl⟩

theorem recvMsg_sendMsg_pieces :
    ∃ sent, ([0, 0, 0, 3, 7, 8, 9] : List UInt8) = [] ++ sent ∧ sent.length = 4 + 3 ∧
      ∀ rest reads, ∃ reads', ∀ passes', 3 + 5 ≤ passes' →
        recvMsg equalPieces passes' ⟨sent ++ rest, reads⟩ = .ok (some [7, 8, 9], ⟨rest, reads'⟩) :=
  @recvMsg_sendMsg growingPieces equalPieces equalPieces_reliable [7, 8, 9] (by decide) 5 ⟨[], 0⟩
    ⟨[0, 0, 0, 3, 7, 8, 9], 4⟩ (by decide)

/-- `recvMsg` ends, with `false` for a message cut short, exactly when the message is not cut short. -/
theorem recvMsg_ends_iff (hCalls : Reliable calls) (incoming : List UInt8) (reads : Nat) :
    (∃ passes result s, recvMsg calls passes ⟨incoming, reads⟩ = .ok (result, s) ∧
      (¬ Complete incoming → result = none)) ↔ Complete incoming := by
  constructor
  · rintro ⟨passes, result, s, hEnds, hCut⟩
    by_contra hNot
    obtain rfl := hCut hNot
    rcases Nat.lt_or_ge incoming.length 4 with hShort | hHeader
    · rw [recvMsg_short hCalls hShort] at hEnds
      cases hEnds
    rcases Nat.lt_or_ge (announced incoming) (2 ^ 31) with hSmall | hLarge
    · have hLess : incoming.length < 4 + announced incoming := by
        by_contra hEnough
        exact hNot ⟨hHeader, by omega⟩
      have hLater := recvMsg_of_le (Nat.le_max_left passes 5) hEnds
      rw [recvMsg_stalls hCalls hHeader hSmall hLess _ _ (Nat.le_max_right _ _)] at hLater
      cases hLater
    · obtain ⟨reads', hUnread⟩ := recvMsg_unread hCalls hHeader hLarge reads
      cases recvMsg_unique hEnds (hUnread 5 (Nat.le_refl 5))
  · intro hComplete
    rcases Nat.lt_or_ge (announced incoming) (2 ^ 31) with hSmall | hLarge
    · obtain ⟨reads', hRecv⟩ := recvMsg_complete hCalls hSmall hComplete reads
      exact ⟨_, _, _, hRecv _ (Nat.le_refl _), fun hNot => absurd hComplete hNot⟩
    · obtain ⟨reads', hUnread⟩ := recvMsg_unread hCalls hComplete.1 hLarge reads
      exact ⟨_, _, _, hUnread 5 (Nat.le_refl 5), fun hNot => absurd hComplete hNot⟩

theorem recvMsg_ends_iff_seven :
    (∃ passes result s, recvMsg equalPieces passes ⟨[0, 0, 0, 1, 7], 0⟩ = .ok (result, s) ∧
      (¬ Complete [0, 0, 0, 1, 7] → result = none)) ↔ Complete [0, 0, 0, 1, 7] :=
  recvMsg_ends_iff equalPieces_reliable [0, 0, 0, 1, 7] 0

/-- A peer that connects and closes keeps the reader in its loop. -/
theorem recvMsg_stuck :
    (∀ passes, recvMsg equalPieces passes ⟨[], 0⟩ = .error .noReturn) ∧
      ¬ ∃ passes result s, recvMsg equalPieces passes ⟨[], 0⟩ = .ok (result, s) ∧
        (¬ Complete [] → result = none) := by
  have hStuck : ∀ passes, recvMsg equalPieces passes ⟨[], 0⟩ = .error .noReturn := fun passes =>
    recvMsg_short equalPieces_reliable (by decide) passes 0
  refine ⟨hStuck, ?_⟩
  rintro ⟨passes, result, s, hEnds, -⟩
  rw [hStuck passes] at hEnds
  cases hEnds

end Messages

end IncPir
