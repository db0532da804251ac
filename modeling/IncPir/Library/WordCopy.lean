import IncPir.Library.Interleaving

/-! # Copies into a shared cell, word by word

Participants that have computed a list of words copy it into one shared cell, a
word in each move, and may then read the cell back, again a word in each move.
Without a lock the cell ends up as any mixture of what they copied, and any
mixture can be what all of them read.
-/

namespace WordCopy
open Interleaving
set_option autoImplicit false

universe u

structure Cell (σ ω : Type u) where
  shared : σ
  words : List ω

/-- A participant with the number of words it has stored and the words it has read back. -/
structure Copier (α ω : Type u) where
  owner : α
  stored : Nat
  loaded : List ω

inductive CopyKind (κ : Type u) where
  | own (kind : κ)
  | store
  | load

variable {σ α κ ε ω : Type u}

section Moves
variable (ownMove : κ → σ → α → Option (Except ε (σ × α))) (source : α → Option (List ω)) (count loads : Nat)

/-- A participant makes its own moves until it has a source, stores its words, and reads the cell. -/
def Copier.move : CopyKind κ → Cell σ ω → Copier α ω → Option (Except ε (Cell σ ω × Copier α ω))
  | .own kind, cell, a => (ownMove kind cell.shared a.owner).map fun result =>
      result.map fun next => (⟨next.1, cell.words⟩, { a with owner := next.2 })
  | .store, cell, a => (source a.owner).bind fun words => (words[a.stored]?).map fun word =>
      .ok (⟨cell.shared, cell.words.set a.stored word⟩, { a with stored := a.stored + 1 })
  | .load, cell, a =>
      if a.stored = count ∧ a.loaded.length < loads then
        (cell.words[a.loaded.length]?).map fun word => .ok (cell, { a with loaded := a.loaded ++ [word] })
      else none

def Copier.fresh (a : α) : Copier α ω := ⟨a, 0, []⟩

def copiers (start : System σ α) (words : List ω) : System (Cell σ ω) (Copier α ω) :=
  ⟨⟨start.shared, words⟩, start.participants.map Copier.fresh⟩

structure CopierInv (inv : Nat → α → Prop) (left : α → Nat) (i : Nat) (a : Copier α ω) : Prop where
  own : inv i a.owner
  stored_le : a.stored ≤ count
  stored_pos : 0 < a.stored → left a.owner = 0
  loaded_le : a.loaded.length ≤ loads
  loaded_pos : 0 < a.loaded.length → a.stored = count

def Copier.left (left : α → Nat) (a : Copier α ω) : Nat :=
  left a.owner + (count - a.stored) + (loads - a.loaded.length)

/-- Each word is the word of some participant at its place. -/
def Mixes (blocks : Nat → List ω) (participants : Nat) (words : List ω) : Prop :=
  ∀ (w : Nat) (v : ω), words[w]? = some v → ∃ j < participants, (blocks j)[w]? = some v

end Moves

section Runs
variable {ownMove : κ → σ → α → Option (Except ε (σ × α))} {source : α → Option (List ω)} {count loads : Nat}
  {good : σ → Prop} {inv : Nat → α → Prop} {left need : α → Nat} {tickets : σ → Nat} {blocks : Nat → List ω}
  (hAdvances : Advances ownMove good inv left need tickets) (hLoads : loads ≤ count)
  (hSource : ∀ i a, inv i a → (blocks i).length = count ∧ source a = if left a = 0 then some (blocks i) else none)
include hAdvances hLoads hSource

omit hAdvances hLoads in
theorem source_some {i : Nat} {a : α} (hInv : inv i a) {words : List ω} (h : source a = some words) :
    left a = 0 ∧ words = blocks i ∧ words.length = count := by
  obtain ⟨hLength, hSome⟩ := hSource i a hInv
  rw [hSome] at h
  split at h
  · next hDone =>
    cases h
    exact ⟨hDone, rfl, hLength⟩
  · cases h

theorem copier_advances :
    Advances (Copier.move ownMove source count loads)
      (fun cell : Cell σ ω => good cell.shared ∧ cell.words.length = count) (CopierInv count loads inv left)
      (Copier.left count loads left) (fun a => need a.owner) fun cell => tickets cell.shared where
  succeeds := by
    rintro i kind cell a result ⟨hGood, hWords⟩ hInv hMove
    have hStored := hInv.stored_le
    cases kind with
    | own kind =>
      obtain ⟨moved, hOwn, rfl⟩ := Option.map_eq_some_iff.mp hMove
      obtain ⟨next, rfl, hGood', hNext, hLeft, hTickets⟩ :=
        hAdvances.succeeds i kind cell.shared a.owner moved hGood hInv.own hOwn
      have hFresh : a.stored = 0 := by
        by_contra hPos
        have hZero := hInv.stored_pos (Nat.pos_of_ne_zero hPos)
        omega
      refine ⟨_, rfl, ⟨hGood', hWords⟩, ⟨hNext, hInv.stored_le, ?_, hInv.loaded_le, hInv.loaded_pos⟩, ?_, hTickets⟩
      · intro hPos
        exact absurd hFresh (Nat.ne_of_gt hPos)
      · simp only [Copier.left]
        omega
    | store =>
      obtain ⟨words, hSome, hMove⟩ := Option.bind_eq_some_iff.mp hMove
      obtain ⟨word, hWord, rfl⟩ := Option.map_eq_some_iff.mp hMove
      obtain ⟨hDone, -, hLength⟩ := source_some hSource hInv.own hSome
      have hLt := (List.getElem?_eq_some_iff.mp hWord).1
      have hNone : a.loaded.length = 0 := by
        by_contra hPos
        have hAll := hInv.loaded_pos (Nat.pos_of_ne_zero hPos)
        omega
      refine ⟨_, rfl, ⟨hGood, List.length_set.trans hWords⟩, ⟨hInv.own, by dsimp only; omega, fun _ => hDone,
        hInv.loaded_le, fun hPos => absurd hNone (Nat.ne_of_gt hPos)⟩, ?_, rfl⟩
      simp only [Copier.left]
      omega
    | load =>
      rw [Copier.move] at hMove
      split at hMove
      · next hReady =>
        obtain ⟨word, hWord, rfl⟩ := Option.map_eq_some_iff.mp hMove
        refine ⟨_, rfl, ⟨hGood, hWords⟩, ⟨hInv.own, hInv.stored_le, hInv.stored_pos, ?_, fun _ => hReady.1⟩, ?_, rfl⟩
        · rw [List.length_append, List.length_singleton]
          exact hReady.2
        · simp only [Copier.left, List.length_append, List.length_singleton]
          omega
      · cases hMove
  enabled := by
    rintro i cell a ⟨hGood, hWords⟩ hInv hLeft hNeed
    rcases Nat.eq_zero_or_pos (left a.owner) with hDone | hOwn
    · obtain ⟨hLength, hSome⟩ := hSource i a.owner hInv.own
      rw [if_pos hDone] at hSome
      rcases Nat.lt_or_ge a.stored count with hStored | hStored
      · have hLt : a.stored < (blocks i).length := hStored.trans_eq hLength.symm
        refine ⟨.store, .ok (⟨cell.shared, cell.words.set a.stored (blocks i)[a.stored]⟩,
          { a with stored := a.stored + 1 }), ?_⟩
        rw [Copier.move, hSome, Option.bind_some, List.getElem?_eq_getElem hLt]
        rfl
      · have hAll : a.stored = count := Nat.le_antisymm hInv.stored_le hStored
        have hMore : a.loaded.length < loads := by
          simp only [Copier.left] at hLeft
          omega
        have hLt : a.loaded.length < cell.words.length := hMore.trans_le (hLoads.trans_eq hWords.symm)
        refine ⟨.load, .ok (cell, { a with loaded := a.loaded ++ [cell.words[a.loaded.length]] }), ?_⟩
        rw [Copier.move, if_pos ⟨hAll, hMore⟩, List.getElem?_eq_getElem hLt]
        rfl
    · obtain ⟨kind, result, hMove⟩ := hAdvances.enabled i cell.shared a.owner hGood hInv.own hOwn hNeed
      exact ⟨.own kind, _, congrArg (Option.map _) hMove⟩

omit hAdvances hLoads hSource in
theorem copiers_onTrack {spare steps : Nat} {start : System σ α}
    (h : OnTrack good inv left need tickets spare steps start) {words : List ω} (hWords : words.length = count) :
    OnTrack (fun cell : Cell σ ω => good cell.shared ∧ cell.words.length = count) (CopierInv count loads inv left)
      (Copier.left count loads left) (fun a => need a.owner) (fun cell => tickets cell.shared) spare
      (steps + start.participants.length * (count + loads)) (copiers start words) where
  good := ⟨h.good, hWords⟩
  inv := by
    intro i a hEntry
    obtain ⟨b, hb, rfl⟩ := Option.map_eq_some_iff.mp ((List.getElem?_map ..).symm.trans hEntry)
    exact ⟨h.inv i b hb, Nat.zero_le _, fun hPos => absurd hPos (Nat.lt_irrefl 0), Nat.zero_le _,
      fun hPos => absurd hPos (Nat.lt_irrefl 0)⟩
  left := by
    have hEach : (copiers start words).participants.map (Copier.left count loads left) =
        start.participants.map fun a => left a + (count + loads) := by
      rw [copiers, List.map_map]
      refine List.map_congr_left fun a _ => ?_
      exact Nat.add_assoc _ _ _
    rw [total, hEach, List.sum_map_add, List.map_const', List.sum_replicate_nat]
    exact congrArg (· + _) h.left
  tickets := by
    refine h.tickets.trans (congrArg (· + spare) ?_)
    rw [total, total, copiers, List.map_map]
    rfl

/-- What the cell holds where a word has been stored, and what has been read from it. -/
structure Mixed (blocks : Nat → List ω) (participants : Nat) (s : System (Cell σ ω) (Copier α ω)) : Prop where
  cell : ∀ w a, a ∈ s.participants → w < a.stored → ∀ v, s.shared.words[w]? = some v →
    ∃ j < participants, (blocks j)[w]? = some v
  loaded : ∀ a ∈ s.participants, Mixes blocks participants a.loaded

theorem mixed_of_reaches {spare steps : Nat} {start : System (Cell σ ω) (Copier α ω)}
    (h : OnTrack (fun cell : Cell σ ω => good cell.shared ∧ cell.words.length = count) (CopierInv count loads inv left)
      (Copier.left count loads left) (fun a => need a.owner) (fun cell => tickets cell.shared) spare steps start)
    (hStart : Mixed blocks start.participants.length start) {n : Nat} {s : System (Cell σ ω) (Copier α ω)}
    (hReaches : Reaches (Copier.move ownMove source count loads) start n s) :
    Mixed blocks start.participants.length s := by
  induction hReaches with
  | start => exact hStart
  | @next n s s' i kind hReaches hAct ih =>
    obtain ⟨fewer, -, hTrack⟩ := h.reaches (copier_advances hAdvances hLoads hSource) hReaches
    obtain ⟨a, next, hEntry, hMove, rfl⟩ := act_inv _ hAct
    have hMem := List.mem_of_getElem? hEntry
    have hInv := hTrack.inv i a hEntry
    have hIndex : i < start.participants.length :=
      hReaches.length_eq ▸ (List.getElem?_eq_some_iff.mp hEntry).1
    cases kind with
    | own kind =>
      obtain ⟨moved, -, hResult⟩ := Option.map_eq_some_iff.mp hMove
      cases moved with
      | error e => cases hResult
      | ok next =>
        cases hResult
        constructor
        · intro w b hb
          rcases List.mem_or_eq_of_mem_set hb with hb | rfl
          · exact ih.cell w b hb
          · exact ih.cell w a hMem
        · intro b hb
          rcases List.mem_or_eq_of_mem_set hb with hb | rfl
          · exact ih.loaded b hb
          · exact ih.loaded a hMem
    | store =>
      obtain ⟨words, hSome, hMove⟩ := Option.bind_eq_some_iff.mp hMove
      obtain ⟨word, hWord, hResult⟩ := Option.map_eq_some_iff.mp hMove
      cases hResult
      obtain ⟨-, rfl, -⟩ := source_some hSource hInv.own hSome
      constructor
      · intro w b hb hStored v hv
        by_cases hHere : a.stored = w
        · subst hHere
          obtain ⟨hLt, hValue⟩ := List.getElem?_eq_some_iff.mp hv
          rw [List.getElem_set_self] at hValue
          exact ⟨i, hIndex, hValue ▸ hWord⟩
        · rw [List.getElem?_set_ne hHere] at hv
          rcases List.mem_or_eq_of_mem_set hb with hb | rfl
          · exact ih.cell w b hb hStored v hv
          · exact ih.cell w a hMem (by dsimp only at hStored; omega) v hv
      · intro b hb
        rcases List.mem_or_eq_of_mem_set hb with hb | rfl
        · exact ih.loaded b hb
        · exact ih.loaded a hMem
    | load =>
      rw [Copier.move] at hMove
      split at hMove
      · next hReady =>
        obtain ⟨word, hWord, hResult⟩ := Option.map_eq_some_iff.mp hMove
        cases hResult
        constructor
        · intro w b hb
          rcases List.mem_or_eq_of_mem_set hb with hb | rfl
          · exact ih.cell w b hb
          · exact ih.cell w a hMem
        · intro b hb
          rcases List.mem_or_eq_of_mem_set hb with hb | rfl
          · exact ih.loaded b hb
          · intro w v hv
            rcases Nat.lt_trichotomy w a.loaded.length with hw | hw | hw
            · rw [List.getElem?_append_left hw] at hv
              exact ih.loaded a hMem w v hv
            · subst hw
              rw [List.getElem?_concat_length] at hv
              cases hv
              exact ih.cell _ a hMem (by omega) word hWord
            · rw [List.getElem?_eq_none (by rw [List.length_append, List.length_singleton]; omega)] at hv
              cases hv
      · cases hMove

omit hAdvances hLoads hSource in
/-- The participants' own moves, with nothing stored. -/
theorem own_reaches (words : List ω) {start s : System σ α} {n : Nat} (h : Reaches ownMove start n s) :
    Reaches (Copier.move ownMove source count loads) (copiers start words) n (copiers s words) := by
  induction h with
  | start => exact .start
  | @next n s s' i kind hReaches hAct ih =>
    obtain ⟨a, next, hEntry, hMove, rfl⟩ := act_inv _ hAct
    refine @Reaches.next _ _ _ _ _ _ _ _ _ i (.own kind) ih ?_
    rw [act, copiers, List.getElem?_map, hEntry]
    simp only [Option.map_some, Copier.move, Copier.fresh, hMove]
    rw [copiers, List.map_set]
    rfl

def storeMove (ownMove : κ → σ → α → Option (Except ε (σ × α))) (source : α → Option (List ω)) (count loads k : Nat)
    (_ : PUnit.{u + 1}) (cell : Cell σ ω) (a : Copier α ω) : Option (Except ε (Cell σ ω × Copier α ω)) :=
  if a.stored = k then Copier.move ownMove source count loads .store cell a else none

def Copier.storedTo (k : Nat) (a : Copier α ω) : Copier α ω := { a with stored := k }

structure RoundCell (k : Nat) (before cell : Cell σ ω) : Prop where
  shared : cell.shared = before.shared
  length : cell.words.length = before.words.length
  others : ∀ w, w ≠ k → cell.words[w]? = before.words[w]?

structure StoredTo (inv : Nat → α → Prop) (left : α → Nat) (count k : Nat) (s : System (Cell σ ω) (Copier α ω)) :
    Prop where
  length : s.shared.words.length = count
  participants : ∀ i a, s.participants[i]? = some a → inv i a.owner ∧ left a.owner = 0 ∧ a.stored = k ∧ a.loaded = []

def RoundInv (k : Nat) (start : System (Cell σ ω) (Copier α ω)) (i : Nat) (a : Copier α ω) : Prop :=
  ∃ a₀, start.participants[i]? = some a₀ ∧ (a = a₀ ∨ a = a₀.storedTo (k + 1))

omit hAdvances hLoads in
theorem storeMove_some {k : Nat} {start : System (Cell σ ω) (Copier α ω)} (hStart : StoredTo inv left count k start)
    {i : Nat} {kind : PUnit} {cell : Cell σ ω} {a : Copier α ω} (hInv : RoundInv k start i a)
    {result : Except ε (Cell σ ω × Copier α ω)} (hMove : storeMove ownMove source count loads k kind cell a = some result) :
    start.participants[i]? = some a ∧ ∃ word, (blocks i)[k]? = some word ∧
      result = .ok (⟨cell.shared, cell.words.set k word⟩, a.storedTo (k + 1)) := by
  rw [storeMove] at hMove
  split at hMove
  · next hStored =>
    obtain ⟨a₀, hEntry, rfl | rfl⟩ := hInv
    · obtain ⟨words, hSome, hMove⟩ := Option.bind_eq_some_iff.mp hMove
      obtain ⟨word, hWord, rfl⟩ := Option.map_eq_some_iff.mp hMove
      obtain ⟨-, rfl, -⟩ := source_some hSource (hStart.participants i a hEntry).1 hSome
      subst hStored
      exact ⟨hEntry, word, hWord, rfl⟩
    · exact absurd hStored (Nat.succ_ne_self k)
  · cases hMove

omit hAdvances hLoads in
theorem round_advances {k : Nat} (hk : k < count) {start : System (Cell σ ω) (Copier α ω)}
    (hStart : StoredTo inv left count k start) :
    Advances (storeMove ownMove source count loads k) (RoundCell k start.shared) (RoundInv k start)
      (fun a => k + 1 - a.stored) (fun _ => 0) fun _ => 0 where
  succeeds := by
    rintro i kind cell a result hCell hInv hMove
    obtain ⟨hEntry, word, hWord, rfl⟩ := storeMove_some hSource hStart hInv hMove
    have hStored := (hStart.participants i a hEntry).2.2.1
    refine ⟨_, rfl, ⟨hCell.shared, List.length_set.trans hCell.length, ?_⟩, ⟨a, hEntry, .inr rfl⟩, ?_, rfl⟩
    · intro w hw
      exact (List.getElem?_set_ne (Ne.symm hw)).trans (hCell.others w hw)
    · simp only [Copier.storedTo]
      omega
  enabled := by
    rintro i cell a hCell ⟨a₀, hEntry, rfl | rfl⟩ hLeft -
    · obtain ⟨hInv, hDone, hStored, -⟩ := hStart.participants i a hEntry
      obtain ⟨hLength, hSome⟩ := hSource i a.owner hInv
      have hLt : a.stored < (blocks i).length := by omega
      refine ⟨⟨⟩, .ok (⟨cell.shared, cell.words.set a.stored (blocks i)[a.stored]⟩,
        { a with stored := a.stored + 1 }), ?_⟩
      rw [storeMove, if_pos hStored, Copier.move, hSome, if_pos hDone, Option.bind_some, List.getElem?_eq_getElem hLt]
      rfl
    · exact absurd hLeft (by simp [Copier.storedTo])

omit hAdvances hLoads in
/-- After a round any of the participants can be the one whose word is in the cell. -/
theorem exists_round {k : Nat} (hk : k < count) {start : System (Cell σ ω) (Copier α ω)}
    (hStart : StoredTo inv left count k start) {j : Nat} (hj : j < start.participants.length) :
    ∃ n s, Reaches (Copier.move ownMove source count loads) start n s ∧ StoredTo inv left count (k + 1) s ∧
      s.shared.words[k]? = (blocks j)[k]? ∧ ∀ w, w ≠ k → s.shared.words[w]? = start.shared.words[w]? := by
  have hAdvances : Advances (storeMove ownMove source count loads k) _ _ _ _ _ := round_advances hSource hk hStart
  have hLeft : ∀ a ∈ start.participants, k + 1 - a.stored = 1 := by
    intro a ha
    obtain ⟨i, hEntry⟩ := List.mem_iff_getElem?.mp ha
    have hStored := (hStart.participants i a hEntry).2.2.1
    omega
  have hNeed : total (fun _ => 0) start.participants = start.participants.length * 0 := total_eq_mul fun _ _ => rfl
  have hTrack : OnTrack (RoundCell k start.shared) (RoundInv k start) (fun a => k + 1 - a.stored) (fun _ => 0)
      (fun _ => 0) 0 (start.participants.length * 1) start :=
    ⟨⟨rfl, rfl, fun w hw => rfl⟩, fun i a hEntry => ⟨a, hEntry, .inl rfl⟩, total_eq_mul hLeft,
      hNeed.symm⟩
  have hWrites : WritesLast (storeMove ownMove source count loads k) (RoundCell k start.shared) (RoundInv k start)
      (fun a => k + 1 - a.stored) (fun cell => cell.words[k]?) fun i v => v = (blocks i)[k]? := by
    constructor
    intro i kind cell a next hCell hInv hMove
    obtain ⟨hEntry, word, hWord, hResult⟩ := storeMove_some hSource hStart hInv hMove
    cases hResult
    refine .inr ⟨?_, Nat.sub_self (k + 1)⟩
    rw [hWord]
    exact List.getElem?_set_self (by rw [hCell.length, hStart.length]; exact hk)
  have hPositive : ∀ a ∈ start.participants, 0 < k + 1 - a.stored := fun a ha => by
    rw [hLeft a ha]
    exact Nat.one_pos
  obtain ⟨s, hReaches, hValue⟩ := (hTrack.last_writer_iff hAdvances hWrites hPositive
    (List.ne_nil_of_length_pos (Nat.zero_lt_of_lt hj)) (fun i v w hv hw => hv.trans hw.symm) _).mpr ⟨j, hj, rfl⟩
  obtain ⟨fewer, hSteps, hEnd⟩ := hTrack.reaches hAdvances hReaches
  obtain rfl : fewer = 0 := by omega
  refine ⟨_, s, hReaches.mono (fun _ => .store) ?_, ⟨hEnd.good.length.trans hStart.length, ?_⟩, hValue, hEnd.good.others⟩
  · intro kind cell a result hMove
    rw [storeMove] at hMove
    split at hMove
    · exact hMove
    · cases hMove
  · intro i a hEntry
    have hDone := hEnd.finished (List.mem_of_getElem? hEntry)
    obtain ⟨a₀, hFirst, rfl | rfl⟩ := hEnd.inv i a hEntry
    · have hStored := hLeft a (List.mem_of_getElem? hFirst)
      omega
    · obtain ⟨hInv, hZero, -, hLoaded⟩ := hStart.participants i a₀ hFirst
      exact ⟨hInv, hZero, rfl, hLoaded⟩

omit hAdvances hLoads in
/-- The rounds one after the other, with a choice of the last participant for each word. -/
theorem exists_rounds (choice : Nat → Nat) {start : System (Cell σ ω) (Copier α ω)}
    (hStart : StoredTo inv left count 0 start) {k : Nat} (hk : k ≤ count)
    (hChoice : ∀ w < k, choice w < start.participants.length) :
    ∃ n s, Reaches (Copier.move ownMove source count loads) start n s ∧ StoredTo inv left count k s ∧
      ∀ w < k, s.shared.words[w]? = (blocks (choice w))[w]? := by
  induction k with
  | zero => exact ⟨0, start, .start, hStart, fun w hw => absurd hw (Nat.not_lt_zero w)⟩
  | succ k ih =>
    obtain ⟨n, s, hReaches, hStored, hWords⟩ := ih (by omega) fun w hw => hChoice w (by omega)
    obtain ⟨m, s', hRound, hStored', hWord, hOthers⟩ := exists_round hSource hk hStored
      (hReaches.length_eq.symm ▸ hChoice k (Nat.lt_succ_self k))
    refine ⟨n + m, s', hReaches.trans hRound, hStored', ?_⟩
    intro w hw
    rcases Nat.lt_succ_iff_lt_or_eq.mp hw with hw | rfl
    · rw [hOthers w (Nat.ne_of_lt hw), hWords w hw]
    · exact hWord

structure Reading (inv : Nat → α → Prop) (left : α → Nat) (count : Nat) (words : List ω)
    (s : System (Cell σ ω) (Copier α ω)) : Prop where
  cell : s.shared.words = words
  participants : ∀ i a, s.participants[i]? = some a →
    inv i a.owner ∧ left a.owner = 0 ∧ a.stored = count ∧ a.loaded = words.take a.loaded.length

omit hLoads in
/-- After the last store the cell stays as it is, and this is what is read. -/
theorem reading_of_reaches {words : List ω} {start : System (Cell σ ω) (Copier α ω)} (hGood : good start.shared.shared)
    (hStart : Reading inv left count words start) {n : Nat} {s : System (Cell σ ω) (Copier α ω)}
    (hReaches : Reaches (Copier.move ownMove source count loads) start n s) :
    good s.shared.shared ∧ Reading inv left count words s := by
  induction hReaches with
  | start => exact ⟨hGood, hStart⟩
  | @next n s s' i kind hReaches hAct ih =>
    obtain ⟨hGood, hReading⟩ := ih
    obtain ⟨a, next, hEntry, hMove, rfl⟩ := act_inv _ hAct
    obtain ⟨hInv, hDone, hStored, hLoaded⟩ := hReading.participants i a hEntry
    cases kind with
    | own kind =>
      obtain ⟨moved, hOwn, -⟩ := Option.map_eq_some_iff.mp hMove
      obtain ⟨_, -, -, -, hLeft, -⟩ := hAdvances.succeeds i kind _ a.owner moved hGood hInv hOwn
      omega
    | store =>
      obtain ⟨blocks', hSome, hMove⟩ := Option.bind_eq_some_iff.mp hMove
      obtain ⟨word, hWord, -⟩ := Option.map_eq_some_iff.mp hMove
      have hLength := (source_some hSource hInv hSome).2.2
      have hLt := (List.getElem?_eq_some_iff.mp hWord).1
      omega
    | load =>
      rw [Copier.move] at hMove
      split at hMove
      · next hReady =>
        obtain ⟨word, hWord, hResult⟩ := Option.map_eq_some_iff.mp hMove
        cases hResult
        rw [hReading.cell] at hWord
        refine ⟨hGood, hReading.cell, ?_⟩
        intro k b hb
        rw [List.getElem?_set] at hb
        split at hb
        · subst k
          split at hb
          · cases hb
            refine ⟨hInv, hDone, hStored, ?_⟩
            rw [List.length_append, List.length_singleton, List.take_add_one, hWord, ← hLoaded]
            rfl
          · cases hb
        · exact hReading.participants k b hb
      · cases hMove

section Outcome
variable {spare steps : Nat} {start : System σ α} (h : OnTrack good inv left need tickets spare steps start)
  {words : List ω} (hWords : words.length = count)
include h hWords

/-- At the end of a full run the cell and everything that was read is mixed of the participants' words. -/
theorem outcome_mixes (hSome : start.participants ≠ []) {s : System (Cell σ ω) (Copier α ω)}
    (hReaches : Reaches (Copier.move ownMove source count loads) (copiers start words)
      (steps + start.participants.length * (count + loads)) s) :
    s.shared.words.length = count ∧ Mixes blocks start.participants.length s.shared.words ∧
      ∀ a ∈ s.participants, a.loaded.length = loads ∧ Mixes blocks start.participants.length a.loaded := by
  have hTrack : OnTrack _ (CopierInv count loads inv left) _ _ _ spare _ (copiers start words) := copiers_onTrack h hWords
  have hLength : (copiers start words).participants.length = start.participants.length := List.length_map _
  have hFresh : Mixed blocks (copiers start words).participants.length (copiers start words) := by
    constructor
    · intro w a ha hStored
      obtain ⟨b, -, rfl⟩ := List.mem_map.mp ha
      exact absurd hStored (Nat.not_lt_zero w)
    · intro a ha w v hv
      obtain ⟨b, -, rfl⟩ := List.mem_map.mp ha
      cases hv
  obtain ⟨hCell, hLoaded⟩ := mixed_of_reaches hAdvances hLoads hSource hTrack hFresh hReaches
  obtain ⟨fewer, hSteps, hEnd⟩ := hTrack.reaches (copier_advances hAdvances hLoads hSource) hReaches
  obtain rfl : fewer = 0 := by omega
  rw [hLength] at hCell hLoaded
  refine ⟨hEnd.good.2, ?_, ?_⟩
  · intro w v hv
    obtain ⟨a, ha⟩ : ∃ a, a ∈ s.participants := by
      refine List.exists_mem_of_length_pos ?_
      rw [hReaches.length_eq, hLength]
      exact List.length_pos_iff.mpr hSome
    obtain ⟨i, hEntry⟩ := List.mem_iff_getElem?.mp ha
    have hDone := hEnd.finished ha
    have hLt := (List.getElem?_eq_some_iff.mp hv).1
    have hCount := hEnd.good.2
    have hStored := (hEnd.inv i a hEntry).stored_le
    simp only [Copier.left] at hDone
    exact hCell w a ha (by omega) v hv
  · intro a ha
    obtain ⟨i, hEntry⟩ := List.mem_iff_getElem?.mp ha
    have hDone := hEnd.finished ha
    have hLe := (hEnd.inv i a hEntry).loaded_le
    simp only [Copier.left] at hDone
    exact ⟨by omega, hLoaded a ha⟩

/-- Every mixture of the participants' words is left by some full run, in which every participant reads it. -/
theorem exists_outcome {mixture : List ω} (hLength : mixture.length = count)
    (hMixes : Mixes blocks start.participants.length mixture) :
    ∃ s, Reaches (Copier.move ownMove source count loads) (copiers start words)
        (steps + start.participants.length * (count + loads)) s ∧
      s.shared.words = mixture ∧ ∀ a ∈ s.participants, a.loaded = mixture.take loads := by
  have hTrack : OnTrack _ (CopierInv count loads inv left) _ _ _ spare _ (copiers start words) := copiers_onTrack h hWords
  obtain ⟨computed, hOwn, hComputed⟩ := h.completes hAdvances
  have hStored : StoredTo inv left count 0 (copiers computed words) := by
    refine ⟨hWords, ?_⟩
    intro i a hEntry
    obtain ⟨b, hb, rfl⟩ := Option.map_eq_some_iff.mp ((List.getElem?_map ..).symm.trans hEntry)
    exact ⟨hComputed.inv i b hb, hComputed.finished (List.mem_of_getElem? hb), rfl, rfl⟩
  have hSame : (copiers computed words).participants.length = start.participants.length :=
    (List.length_map _).trans hOwn.length_eq
  -- the participant that is to be the last to store word `w`
  have hEach (w : Nat) : ∃ j, w < count → j < start.participants.length ∧ (blocks j)[w]? = mixture[w]? := by
    by_cases hw : w < count
    · have hValue := List.getElem?_eq_getElem (hw.trans_eq hLength.symm)
      obtain ⟨j, hj, hWord⟩ := hMixes w _ hValue
      exact ⟨j, fun _ => ⟨hj, hWord.trans hValue.symm⟩⟩
    · exact ⟨0, fun hLt => absurd hLt hw⟩
  choose choice hChoice using hEach
  have hFirst : Reaches (Copier.move ownMove source count loads) _ _ _ := own_reaches words hOwn
  obtain ⟨n, full, hRounds, hFull, hCell⟩ : ∃ n s, Reaches (Copier.move ownMove source count loads) _ n s ∧ _ ∧ _ :=
    exists_rounds hSource choice hStored (Nat.le_refl count) fun w hw => (hChoice w hw).1.trans_eq hSame.symm
  have hMixture : full.shared.words = mixture := by
    apply List.ext_getElem?
    intro w
    rcases Nat.lt_or_ge w count with hw | hw
    · exact (hCell w hw).trans (hChoice w hw).2
    · rw [List.getElem?_eq_none (hFull.length.trans_le hw), List.getElem?_eq_none (hLength.trans_le hw)]
  have hStoredRun := hFirst.trans hRounds
  obtain ⟨fewer, hFewer, hTrackFull⟩ := hTrack.reaches (copier_advances hAdvances hLoads hSource) hStoredRun
  obtain ⟨s, hReads, hEnd⟩ := hTrackFull.completes (copier_advances hAdvances hLoads hSource)
  have hReading : Reading inv left count mixture full := by
    refine ⟨hMixture, ?_⟩
    intro i a hEntry
    obtain ⟨hInv, hDone, hAll, hNone⟩ := hFull.participants i a hEntry
    exact ⟨hInv, hDone, hAll, by rw [hNone]; rfl⟩
  obtain ⟨-, hCellEnd, hLoadedEnd⟩ := reading_of_reaches hAdvances hSource hTrackFull.good.1 hReading hReads
  refine ⟨s, ?_, hCellEnd, ?_⟩
  · rw [hFewer, Nat.add_comm fewer]
    exact hStoredRun.trans hReads
  · intro a ha
    obtain ⟨i, hEntry⟩ := List.mem_iff_getElem?.mp ha
    have hDone := hEnd.finished ha
    have hLe := (hEnd.inv i a hEntry).loaded_le
    simp only [Copier.left] at hDone
    have hAll : a.loaded.length = loads := by omega
    rw [(hLoadedEnd i a hEntry).2.2.2, hAll]

end Outcome

end Runs

end WordCopy
