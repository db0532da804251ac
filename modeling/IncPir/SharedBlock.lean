import Mathlib.Data.List.GetD
import IncPir.Threads
import IncPir.Library.Digits
import IncPir.Library.WordCopy

/-! # A block that threads share

A block is assigned in its words of 64 bits, lowest first, and the client holds
no lock. The threads of one client may therefore store their blocks in the same
place at the same time.
-/

namespace IncPir
open Interleaving WordCopy
set_option autoImplicit false

/-- The words of a `std::bitset` of `BlockLen` bits. -/
def BlockWords : Nat := 250

def bitsetWords (blk : Block) : List (BitVec 64) := Digits.digits 64 BlockWords blk

def bitsetOf (words : List (BitVec 64)) : Block := Digits.ofDigits BlockLen words

/-- Each word of the block is that of one of `blocks` in the same place. -/
def MixtureOf (blocks : List Block) (blk : Block) : Prop :=
  ∀ w < BlockWords, ∃ b ∈ blocks, blk.extractLsb' (64 * w) 64 = b.extractLsb' (64 * w) 64

@[simp] theorem length_bitsetWords (blk : Block) : (bitsetWords blk).length = BlockWords := Digits.length_digits _ _

@[simp] theorem bitsetOf_bitsetWords (blk : Block) : bitsetOf (bitsetWords blk) = blk :=
  Digits.ofDigits_digits (by decide) (by decide) blk

theorem bitsetWords_bitsetOf {words : List (BitVec 64)} (h : words.length = BlockWords) :
    bitsetWords (bitsetOf words) = words := Digits.digits_ofDigits (by decide) h

theorem MixtureOf.of_mem {blocks : List Block} {blk : Block} (h : blk ∈ blocks) : MixtureOf blocks blk :=
  fun _ _ => ⟨blk, h, rfl⟩

theorem mixtures_eq_iff {blocks : List Block} (own : Block) :
    (∀ blk, MixtureOf blocks blk → blk = own) ↔ ∀ b ∈ blocks, b = own := by
  constructor
  · intro hAll b hb
    exact hAll b (.of_mem hb)
  · intro hSame blk hMixture
    have hWords : bitsetWords blk = bitsetWords own := by
      rw [bitsetWords, bitsetWords, Digits.digits, Digits.digits]
      refine List.map_congr_left ?_
      intro w hw
      obtain ⟨b, hb, hWord⟩ := hMixture w (List.mem_range.mp hw)
      rw [hWord, hSame b hb]
    rw [← bitsetOf_bitsetWords blk, hWords, bitsetOf_bitsetWords]

theorem mixes_iff {blocks : List Block} {words : List (BitVec 64)} (h : words.length = BlockWords) :
    Mixes (fun j => bitsetWords (blocks.getD j 0)) blocks.length words ↔ MixtureOf blocks (bitsetOf words) := by
  have hWord (b : Block) {w : Nat} (hw : w < BlockWords) :
      (bitsetWords b)[w]? = some (b.extractLsb' (64 * w) 64) := Digits.digits_getElem? hw b
  have hEntry {w : Nat} (hw : w < BlockWords) : words[w]? = some ((bitsetOf words).extractLsb' (64 * w) 64) := by
    rw [← hWord _ hw, bitsetWords_bitsetOf h]
  constructor
  · intro hMixes w hw
    obtain ⟨j, hj, hSame⟩ := hMixes w _ (hEntry hw)
    rw [hWord _ hw, List.getD_eq_getElem _ _ hj] at hSame
    exact ⟨blocks[j], List.getElem_mem hj, (Option.some.inj hSame).symm⟩
  · intro hMixture w v hv
    have hw : w < BlockWords := h ▸ (List.getElem?_eq_some_iff.mp hv).1
    obtain ⟨b, hb, hSame⟩ := hMixture w hw
    obtain ⟨j, hj, rfl⟩ := List.mem_iff_getElem.mp hb
    cases (hEntry hw).symm.trans hv
    refine ⟨j, hj, ?_⟩
    rw [hWord _ hw, List.getD_eq_getElem _ _ hj, hSame]

section Moves
variable {σ γ : Type} (service : Service σ γ Block) (passes loads : Nat)

/-- The words that a thread stores once it has finished its request. -/
def Thread.words (t : Thread γ Block) : Option (List (BitVec 64)) :=
  match t.stage with
  | .finished blk => some (bitsetWords blk)
  | _ => none

/-- A thread makes its request, stores the block, and reads `loads` words of the place it stored it in. -/
def blockMove : CopyKind Kind → Cell (Shared σ) (BitVec 64) → Copier (Thread γ Block) (BitVec 64) →
    Option (Except SerialFault (Cell (Shared σ) (BitVec 64) × Copier (Thread γ Block) (BitVec 64))) :=
  Copier.move (Thread.move service passes) Thread.words BlockWords loads

/-- The threads after `n` actions of a run with `steps` of them: no action fails, the run goes on until it is at
its end, and the threads leave alone what they share beside the block. -/
structure BlocksServed (state : σ) (steps n : Nat)
    (s : System (Cell (Shared σ) (BitVec 64)) (Copier (Thread γ Block) (BitVec 64))) : Prop where
  succeeds : ∀ i kind result, act (blockMove service passes loads) s i kind = some result → ∃ s', result = .ok s'
  steps_le : n ≤ steps
  enabled : n < steps → ∃ i kind s', act (blockMove service passes loads) s i kind = some (.ok s')
  state : s.shared.shared.state = state

def Returns (s : System (Cell (Shared σ) (BitVec 64)) (Copier (Thread γ Block) (BitVec 64))) (i : Nat) (blk : Block) :
    Prop :=
  ∃ a, s.participants[i]? = some a ∧ bitsetOf a.loaded = blk

end Moves

section Course
variable {σ γ : Type} {service : Service σ γ Block} {state : σ} {passes loads : Nat} {P : γ → Block → Prop}
  {left : Nat} {threads : List (Thread γ Block)} {blocks : List Block} (hPasses : 2 ^ 31 ≤ passes)
  (hLoads : loads ≤ BlockWords) (hLeft : threads.length ≤ left)
  (hAll : ∀ t ∈ threads, ∃ response blk, Answerable service (· = state) t response blk ∧ P t.owner blk)
  (hBlocks : List.Forall₂ (fun t blk => P t.owner blk) threads blocks)
  (hOne : ∀ owner b b', P owner b → P owner b' → b = b') (init : Block)
include hPasses hLoads hLeft hAll hBlocks hOne

omit hPasses hLoads hLeft hAll in
theorem threads_source (i : Nat) (t : Thread γ Block)
    (hSound : ThreadSound service (· = state) passes P threads i t) :
    (bitsetWords (blocks.getD i 0)).length = BlockWords ∧
      t.words = if t.left = 0 then some (bitsetWords (blocks.getD i 0)) else none := by
  obtain ⟨t₀, response, result, hThread, -, hP, hCourse⟩ := hSound
  refine ⟨length_bitsetWords _, ?_⟩
  cases hCourse with
  | ready => rfl
  | waiting hIncoming => rfl
  | answered hIncoming => rfl
  | finished =>
    obtain ⟨hi, rfl⟩ := List.getElem?_eq_some_iff.mp hThread
    have hi' : i < blocks.length := hBlocks.length_eq ▸ hi
    obtain rfl : result = blocks[i] := hOne _ _ _ hP (hBlocks.get hi hi')
    rw [List.getD_eq_getElem _ _ hi']
    rfl

/-- Whatever the order of the moves, no run fails. The block that a full run leaves is a mixture of those
that the threads store, and every mixture is left by some run; the same holds of what any thread reads. -/
theorem blockThreads_outcomes (hSome : threads ≠ []) :
    (∀ n s, Reaches (blockMove service passes loads) (copiers ⟨⟨left, state⟩, threads⟩ (bitsetWords init)) n s →
      BlocksServed service passes loads state (threads.length * 3 + threads.length * (BlockWords + loads)) n s) ∧
    (∀ blk, (∃ s, Reaches (blockMove service passes loads) (copiers ⟨⟨left, state⟩, threads⟩ (bitsetWords init))
        (threads.length * 3 + threads.length * (BlockWords + loads)) s ∧ bitsetOf s.shared.words = blk) ↔
      MixtureOf blocks blk) ∧
    (loads = BlockWords → ∀ i < threads.length, ∀ blk,
      (∃ s, Reaches (blockMove service passes loads) (copiers ⟨⟨left, state⟩, threads⟩ (bitsetWords init))
        (threads.length * 3 + threads.length * (BlockWords + loads)) s ∧ Returns s i blk) ↔
          MixtureOf blocks blk) := by
  have hAdvances := @threads_advance σ γ Block service (· = state) passes P ⟨⟨left, state⟩, threads⟩ hPasses
  have hStart := @threads_onTrack σ γ Block service (· = state) passes P ⟨⟨left, state⟩, threads⟩ rfl hLeft hAll
  have hSource := @threads_source σ γ service state passes P threads blocks hBlocks hOne
  have hInit := length_bitsetWords init
  have hCount : blocks.length = threads.length := hBlocks.length_eq.symm
  have hFull := copier_advances hAdvances hLoads hSource
  refine ⟨?_, ?_, ?_⟩
  · intro n s hReaches
    have hTrack : OnTrack _ (CopierInv BlockWords loads _ _) _ _ _ _ _ (copiers _ (bitsetWords init)) :=
      copiers_onTrack hStart hInit
    obtain ⟨fewer, hSteps, hNow⟩ := hTrack.reaches hFull hReaches
    dsimp only at hSteps
    refine ⟨?_, by omega, fun hLess => hNow.enabled hFull (by omega), hNow.good.1⟩
    intro i kind result hAct
    obtain ⟨s', hResult, -⟩ := hNow.act hFull hAct
    exact ⟨s', hResult⟩
  · intro blk
    constructor
    · rintro ⟨s, hReaches, rfl⟩
      obtain ⟨hLength, hMixes, -⟩ := outcome_mixes hAdvances hLoads hSource hStart hInit hSome hReaches
      exact (mixes_iff hLength).mp (hCount ▸ hMixes)
    · intro hMixture
      have hMixes := (mixes_iff (length_bitsetWords blk)).mpr ((bitsetOf_bitsetWords blk).symm ▸ hMixture)
      obtain ⟨s, hReaches, hWords, -⟩ :=
        exists_outcome hAdvances hLoads hSource hStart hInit (length_bitsetWords blk) (hCount ▸ hMixes)
      exact ⟨s, hReaches, by rw [hWords, bitsetOf_bitsetWords]⟩
  · intro hReads i hi blk
    constructor
    · rintro ⟨s, hReaches, a, hEntry, rfl⟩
      obtain ⟨-, -, hLoaded⟩ := outcome_mixes hAdvances hLoads hSource hStart hInit hSome hReaches
      obtain ⟨hLength, hMixes⟩ := hLoaded a (List.mem_of_getElem? hEntry)
      exact (mixes_iff (hLength.trans hReads)).mp (hCount ▸ hMixes)
    · intro hMixture
      have hMixes := (mixes_iff (length_bitsetWords blk)).mpr ((bitsetOf_bitsetWords blk).symm ▸ hMixture)
      obtain ⟨s, hReaches, -, hLoaded⟩ :=
        exists_outcome hAdvances hLoads hSource hStart hInit (length_bitsetWords blk) (hCount ▸ hMixes)
      have hParticipant : i < s.participants.length := by
        rw [hReaches.length_eq, copiers, List.length_map]
        exact hi
      refine ⟨s, hReaches, _, List.getElem?_eq_getElem hParticipant, ?_⟩
      rw [hLoaded _ (List.getElem_mem hParticipant), List.take_of_length_le (by rw [length_bitsetWords, hReads]),
        bitsetOf_bitsetWords]

end Course

end IncPir
