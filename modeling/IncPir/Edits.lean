import IncPir.Library.Digits
import IncPir.RoundHints
import IncPir.Session

/-! # Edited and deleted elements (`server.cpp`)

The server answers an edit with the difference between the new block and the old
one, and a deletion like an edit to a random block. It stores neither, so the
hints that take up a difference belong to a database that the server does not
have.
-/

namespace IncPir
open LoopM XorFold
set_option autoImplicit false

namespace PIRServer

def editElement (server : PIRServer) (idx : Nat) (newElement : Block) : Except Fault Block := do
  let old ← elemAt server.db idx
  .ok (newElement ^^^ old)

/-- A block whose bits are values of `rand()` modulo two. -/
def randomBlock (rand : Nat → Nat) : Block :=
  Digits.ofDigits BlockLen ((List.range BlockLen).map fun i => BitVec.ofNat 1 (rand i))

def deleteElement (server : PIRServer) (idx : Nat) (rand : Nat → Nat) : Except Fault Block := do
  let blk := randomBlock rand
  let old ← elemAt server.db idx
  .ok (blk ^^^ old)

theorem deleteElement_eq_edit (server : PIRServer) (idx : Nat) (rand : Nat → Nat) :
    server.deleteElement idx rand = server.editElement idx (randomBlock rand) := rfl

end PIRServer

section Difference
variable (aes : Aes)

/-- The hints when every set that contains the index takes up a difference. -/
def takeUp (c : PIRClient) (idx : Nat) (difference : Block) : List Block :=
  List.zipWith (fun d parity => if idx ∈ expansion aes c.mk d then parity ^^^ difference else parity)
    c.localhints.sets c.localhints.parities

theorem setHint_set (mk : Key) (d : SetDesc) {db : Database} {idx : Nat} (hIdx : idx < db.length) (blk : Block) :
    setHint aes (db.set idx blk) mk d =
      if idx ∈ expansion aes mk d then setHint aes db mk d ^^^ (blk ^^^ blockAt db idx) else setHint aes db mk d := by
  have hOther {i : Nat} (h : i ≠ idx) : blockAt (db.set idx blk) i = blockAt db i := by
    rw [blockAt, blockAt, List.getD_eq_getElem?_getD, List.getElem?_set_ne h.symm, List.getD_eq_getElem?_getD]
  have hHere : blockAt (db.set idx blk) idx = blk := by
    rw [blockAt, List.getD_eq_getElem?_getD, List.getElem?_set_self hIdx, Option.getD_some]
  split
  · next hMem =>
    have hRest : xorOver (blockAt (db.set idx blk)) ((expansion aes mk d).erase idx) =
        xorOver (blockAt db) ((expansion aes mk d).erase idx) :=
      xorOver_congr fun i hi => hOther ((List.Nodup.mem_erase_iff (nodup_expansion aes mk d)).mp hi).1
    rw [xorOver_erase _ hMem, xorOver_erase _ hMem, hHere, xor_eq_iff_eq_xor] at hRest
    rw [setHint, hRest, BitVec.xor_assoc, BitVec.xor_comm blk]
    rfl
  · next hNot => exact xorOver_congr fun i hi => hOther fun hSame => hNot (hSame ▸ hi)

theorem takeUp_eq_map {c : PIRClient} {db : Database}
    (hExact : c.localhints.parities = c.localhints.sets.map (setHint aes db c.mk)) (idx : Nat) (difference : Block) :
    takeUp aes c idx difference = c.localhints.sets.map fun d =>
      if idx ∈ expansion aes c.mk d then setHint aes db c.mk d ^^^ difference else setHint aes db c.mk d := by
  rw [takeUp, hExact, List.zipWith_map_right, List.zipWith_self]

end Difference

section Edits
variable {aes : Aes} {server : PIRServer} {c : PIRClient} (h : SessionExact aes ⟨server, c⟩) {idx : Nat}
  (hIdx : idx < c.dbrange) (blk : Block)
include h

theorem withParities_wf {parities : List Block} (hLength : parities.length = c.nbrsets) :
    ClientWF { c with localhints := { c.localhints with parities := parities } } where
  setsize_pos := h.wf.setsize_pos
  setsize_le := h.wf.setsize_le
  dbrange_le := h.wf.dbrange_le
  sets_length := h.wf.sets_length
  parities_length := hLength
  sets_wf := h.wf.sets_wf

include hIdx

/-- The difference that the server returns is what the hints need for the edited database. For the database
that the server keeps, the hints that took it up are right only when nothing changed. A deletion is such an
edit, to a random block. -/
theorem editElement_hints :
    (∀ rand, server.deleteElement idx rand = server.editElement idx (PIRServer.randomBlock rand)) ∧
    ∃ difference, server.editElement idx blk = .ok difference ∧
      (∀ parities, parities.length = c.nbrsets →
        (HintsExact aes (server.db.set idx blk) { c with localhints := { c.localhints with parities := parities } } ↔
          parities = takeUp aes c idx difference)) ∧
      (HintsExact aes server.db
          { c with localhints := { c.localhints with parities := takeUp aes c idx difference } } ↔
        blk = blockAt server.db idx ∨ ∀ d ∈ c.localhints.sets, idx ∉ expansion aes c.mk d) := by
  have hRow : idx < server.db.length := h.db_length.symm ▸ hIdx
  have hExact := (hintsExact_iff aes server.db h.wf).mp h.exact
  refine ⟨server.deleteElement_eq_edit idx, blk ^^^ blockAt server.db idx, ?_, ?_, ?_⟩
  · rw [PIRServer.editElement, elemAt_blockAt hRow]
    rfl
  · intro parities hLength
    rw [hintsExact_iff aes _ (withParities_wf h hLength), takeUp_eq_map aes hExact,
      List.map_congr_left fun d _ => setHint_set aes c.mk d hRow blk]
  · have hLength : (takeUp aes c idx (blk ^^^ blockAt server.db idx)).length = c.nbrsets := by
      rw [takeUp_eq_map aes hExact, List.length_map]
      exact h.wf.sets_length
    rw [hintsExact_iff aes _ (withParities_wf h hLength), takeUp_eq_map aes hExact, List.map_inj_left]
    constructor
    · intro hSame
      by_cases hBlk : blk = blockAt server.db idx
      · exact .inl hBlk
      · refine .inr ?_
        intro d hd hMem
        have hHint := hSame d hd
        rw [if_pos hMem] at hHint
        exact hBlk (BitVec.xor_eq_zero_iff.mp ((eq_xor_self_iff _ _).mp hHint.symm))
    · rintro (hBlk | hNone) d hd
      · rw [hBlk, BitVec.xor_self, BitVec.xor_zero, ite_self]
      · rw [if_neg (hNone d hd)]

omit h hIdx in
theorem editElement_hints_pair :
    (∀ rand, pairServer.deleteElement 1 rand = pairServer.editElement 1 (PIRServer.randomBlock rand)) ∧
    ∃ difference, pairServer.editElement 1 6 = .ok difference ∧
      (∀ parities, parities.length = 1 →
        (HintsExact (fun key _ => key) [1, 6]
            { pairClient with localhints := { pairClient.localhints with parities := parities } } ↔
          parities = takeUp (fun key _ => key) pairClient 1 difference)) ∧
      (HintsExact (fun key _ => key) [1, 0] { pairClient with
            localhints := { pairClient.localhints with parities := takeUp (fun key _ => key) pairClient 1 difference } } ↔
        6 = blockAt [1, 0] 1 ∨
          ∀ d ∈ pairClient.localhints.sets, 1 ∉ expansion (fun key _ => key) pairClient.mk d) := by
  have hExact : SessionExact (fun key _ => key) ⟨pairServer, pairClient⟩ :=
    ⟨pairClient_wf, rfl, rfl, rfl, by decide +kernel⟩
  exact @editElement_hints (fun key _ => key) pairServer pairClient hExact 1 (by decide) 6

end Edits

end IncPir
