import Mathlib.Algebra.Order.Ring.Nat
import Mathlib.Algebra.Order.BigOperators.Group.List

/-! # Participants that take turns

A system is a list of participants and a state they share. In each action one
participant moves, and any participant that can move may be the next. When
every move succeeds and brings its participant one step closer to its end, no
order of the moves fails or gets stuck, and all orders are equally long.
-/

namespace Interleaving
set_option autoImplicit false

universe u

structure System (σ α : Type u) where
  shared : σ
  participants : List α

variable {σ α κ ε : Type u} (move : κ → σ → α → Option (Except ε (σ × α)))

/-- The action of one participant; nothing where it cannot move this way. -/
def act (s : System σ α) (i : Nat) (kind : κ) : Option (Except ε (System σ α)) :=
  match s.participants[i]? with
  | none => none
  | some a => (move kind s.shared a).map fun result =>
    result.map fun next => ⟨next.1, s.participants.set i next.2⟩

theorem act_inv {s s' : System σ α} {i : Nat} {kind : κ} (h : act move s i kind = some (.ok s')) :
    ∃ a next, s.participants[i]? = some a ∧ move kind s.shared a = some (.ok next) ∧
      s' = ⟨next.1, s.participants.set i next.2⟩ := by
  rw [act] at h
  split at h
  · cases h
  · next a hEntry =>
    obtain ⟨moved, hMove, hResult⟩ := Option.map_eq_some_iff.mp h
    cases moved with
    | error e => cases hResult
    | ok next =>
      cases hResult
      exact ⟨a, next, hEntry, hMove, rfl⟩

inductive Reaches (start : System σ α) : Nat → System σ α → Prop where
  | start : Reaches start 0 start
  | next {n : Nat} {s s' : System σ α} {i : Nat} {kind : κ} (hReaches : Reaches start n s)
      (hAct : act move s i kind = some (.ok s')) : Reaches start (n + 1) s'

def total (f : α → Nat) (participants : List α) : Nat := (participants.map f).sum

theorem total_set (f : α → Nat) {l : List α} {i : Nat} {a : α} (h : l[i]? = some a) (b : α) :
    total f (l.set i b) + f a = total f l + f b := by
  induction l generalizing i with
  | nil => cases h
  | cons c rest ih =>
    cases i with
    | zero =>
      cases h
      simp only [total, List.set_cons_zero, List.map_cons, List.sum_cons]
      omega
    | succ i =>
      have hRest := ih h
      simp only [total] at hRest
      simp only [total, List.set_cons_succ, List.map_cons, List.sum_cons]
      omega

theorem le_total (f : α → Nat) {l : List α} {a : α} (h : a ∈ l) : f a ≤ total f l :=
  List.le_sum_of_mem (List.mem_map_of_mem h)

theorem total_eq_mul {f : α → Nat} {k : Nat} {l : List α} (h : ∀ a ∈ l, f a = k) : total f l = l.length * k := by
  rw [total, List.map_congr_left h, List.map_const', List.sum_replicate_nat]

theorem Reaches.length_eq {start : System σ α} {n : Nat} {s : System σ α} (h : Reaches move start n s) :
    s.participants.length = start.participants.length := by
  induction h with
  | start => rfl
  | next hReaches hAct ih =>
    obtain ⟨a, next, -, -, rfl⟩ := act_inv move hAct
    exact List.length_set.trans ih

variable {move} in
theorem Reaches.trans {s₁ s₂ s₃ : System σ α} {n m : Nat} (h : Reaches move s₁ n s₂) (h' : Reaches move s₂ m s₃) :
    Reaches move s₁ (n + m) s₃ := by
  induction h' with
  | start => exact h
  | next hReaches hAct ih => exact .next ih hAct

theorem act_of_move {s : System σ α} {i : Nat} {a : α} (hEntry : s.participants[i]? = some a) {kind : κ} {next : σ × α}
    (hMove : move kind s.shared a = some (.ok next)) :
    act move s i kind = some (.ok ⟨next.1, s.participants.set i next.2⟩) := by
  rw [act, hEntry]
  dsimp only
  rw [hMove]
  rfl

variable {move} in
/-- Runs of moves that another system has too are runs of that system. -/
theorem Reaches.mono {κ' : Type u} {move' : κ' → σ → α → Option (Except ε (σ × α))} (f : κ → κ')
    (hMove : ∀ kind shared a result, move kind shared a = some result → move' (f kind) shared a = some result)
    {start s : System σ α} {n : Nat} (h : Reaches move start n s) : Reaches move' start n s := by
  induction h with
  | start => exact .start
  | next hReaches hAct ih =>
    obtain ⟨a, next, hEntry, hOwn, rfl⟩ := act_inv move hAct
    exact .next ih (act_of_move move' hEntry (hMove _ _ _ _ hOwn))

/-- Moves between `good` shared states of participants that meet `inv` succeed and keep both; each takes
one from what its participant has left. The shared state holds the tickets that the participants need. -/
structure Advances (good : σ → Prop) (inv : Nat → α → Prop) (left need : α → Nat) (tickets : σ → Nat) : Prop where
  succeeds : ∀ i kind shared a result, good shared → inv i a → move kind shared a = some result →
    ∃ next, result = .ok next ∧ good next.1 ∧ inv i next.2 ∧ left next.2 + 1 = left a ∧
      tickets next.1 + need a = tickets shared + need next.2
  enabled : ∀ i shared a, good shared → inv i a → 0 < left a → need a ≤ tickets shared →
    ∃ kind result, move kind shared a = some result

/-- What holds in every state of a run, with the tickets that nobody needs. -/
structure OnTrack (good : σ → Prop) (inv : Nat → α → Prop) (left need : α → Nat) (tickets : σ → Nat)
    (spare steps : Nat) (s : System σ α) : Prop where
  good : good s.shared
  inv : ∀ i a, s.participants[i]? = some a → inv i a
  left : total left s.participants = steps
  tickets : tickets s.shared = total need s.participants + spare

section Runs
variable {move} {good : σ → Prop} {inv : Nat → α → Prop} {left need : α → Nat} {tickets : σ → Nat} {spare : Nat}
  (hAdvances : Advances move good inv left need tickets)
include hAdvances

theorem OnTrack.act {steps : Nat} {s : System σ α} (h : OnTrack good inv left need tickets spare steps s) {i : Nat}
    {kind : κ} {result : Except ε (System σ α)} (hAct : act move s i kind = some result) :
    ∃ s', result = .ok s' ∧ ∃ fewer, steps = fewer + 1 ∧ OnTrack good inv left need tickets spare fewer s' := by
  rw [Interleaving.act] at hAct
  cases hEntry : s.participants[i]? with
  | none =>
    rw [hEntry] at hAct
    cases hAct
  | some a =>
    rw [hEntry] at hAct
    obtain ⟨moved, hMove, rfl⟩ := Option.map_eq_some_iff.mp hAct
    obtain ⟨next, rfl, hGood, hInv, hLeft, hTickets⟩ :=
      hAdvances.succeeds i kind s.shared a moved h.good (h.inv i a hEntry) hMove
    have hSteps := total_set left hEntry next.2
    have hNeed := total_set need hEntry next.2
    have hWhole := h.left
    have hShared := h.tickets
    refine ⟨_, rfl, total left (s.participants.set i next.2), by omega, hGood, ?_, rfl, ?_⟩
    · intro j b hb
      rw [List.getElem?_set] at hb
      split at hb
      · subst j
        split at hb
        · cases hb
          exact hInv
        · cases hb
      · exact h.inv j b hb
    · dsimp only
      omega

theorem OnTrack.reaches {steps : Nat} {start : System σ α} (h : OnTrack good inv left need tickets spare steps start)
    {n : Nat} {s : System σ α} (hReaches : Reaches move start n s) :
    ∃ fewer, steps = fewer + n ∧ OnTrack good inv left need tickets spare fewer s := by
  induction hReaches with
  | start => exact ⟨steps, rfl, h⟩
  | next hReaches hAct ih =>
    obtain ⟨fewer, hSteps, hTrack⟩ := ih
    obtain ⟨s', hResult, rest, hFewer, hNext⟩ := hTrack.act hAdvances hAct
    cases hResult
    exact ⟨rest, by omega, hNext⟩

theorem OnTrack.enabled_at {steps : Nat} {s : System σ α} (h : OnTrack good inv left need tickets spare steps s) {i : Nat}
    {a : α} (hEntry : s.participants[i]? = some a) (hLeft : 0 < left a) :
    ∃ kind s', Interleaving.act move s i kind = some (.ok s') := by
  have hNeed : need a ≤ tickets s.shared := by
    rw [h.tickets]
    exact (le_total need (List.mem_of_getElem? hEntry)).trans (Nat.le_add_right _ _)
  obtain ⟨kind, moved, hMove⟩ := hAdvances.enabled i s.shared a h.good (h.inv i a hEntry) hLeft hNeed
  have hAct : Interleaving.act move s i kind = some (moved.map fun next => ⟨next.1, s.participants.set i next.2⟩) := by
    rw [Interleaving.act, hEntry]
    exact congrArg (Option.map _) hMove
  obtain ⟨s', hResult, -⟩ := h.act hAdvances hAct
  exact ⟨kind, s', hAct.trans (congrArg some hResult)⟩

/-- Where something is left, some participant can move. -/
theorem OnTrack.enabled {steps : Nat} {s : System σ α} (h : OnTrack good inv left need tickets spare steps s)
    (hSteps : 0 < steps) : ∃ i kind s', Interleaving.act move s i kind = some (.ok s') := by
  obtain ⟨a, ha, hLeft⟩ : ∃ a ∈ s.participants, 0 < left a := by
    by_contra hNone
    have hZero : total left s.participants = s.participants.length * 0 := by
      apply total_eq_mul
      intro a ha
      by_contra hPos
      exact hNone ⟨a, ha, Nat.pos_of_ne_zero hPos⟩
    have hWhole := h.left
    omega
  obtain ⟨i, hEntry⟩ := List.mem_iff_getElem?.mp ha
  obtain ⟨kind, s', hAct⟩ := h.enabled_at hAdvances hEntry hLeft
  exact ⟨i, kind, s', hAct⟩

omit hAdvances in
theorem OnTrack.finished {s : System σ α} (h : OnTrack good inv left need tickets spare 0 s) {a : α}
    (ha : a ∈ s.participants) : left a = 0 := by
  have hLe := le_total left ha
  have hWhole := h.left
  omega

/-- A run that is not at its end can be continued to its end. -/
theorem OnTrack.completes {steps : Nat} {s : System σ α} (h : OnTrack good inv left need tickets spare steps s) :
    ∃ s', Reaches move s steps s' ∧ OnTrack good inv left need tickets spare 0 s' := by
  induction steps generalizing s with
  | zero => exact ⟨s, .start, h⟩
  | succ steps ih =>
    obtain ⟨i, kind, s₁, hAct⟩ := h.enabled hAdvances (Nat.succ_pos steps)
    obtain ⟨_, hResult, fewer, hFewer, hNext⟩ := h.act hAdvances hAct
    cases hResult
    obtain rfl : steps = fewer := Nat.succ_inj.mp hFewer
    obtain ⟨s', hReaches, hEnd⟩ := ih hNext
    exact ⟨s', Nat.add_comm 1 steps ▸ (Reaches.start.next hAct).trans hReaches, hEnd⟩

/-- All others can finish before participant `j` moves again. -/
theorem OnTrack.others_first (j : Nat) {steps : Nat} {s : System σ α}
    (h : OnTrack good inv left need tickets spare steps s) :
    ∃ n fewer s', Reaches move s n s' ∧ steps = fewer + n ∧ OnTrack good inv left need tickets spare fewer s' ∧
      s'.participants[j]? = s.participants[j]? ∧ ∀ i a, i ≠ j → s'.participants[i]? = some a → left a = 0 := by
  induction steps using Nat.strong_induction_on generalizing s with
  | _ steps ih =>
    by_cases hMore : ∃ i a, i ≠ j ∧ s.participants[i]? = some a ∧ 0 < left a
    · obtain ⟨i, a, hOther, hEntry, hLeft⟩ := hMore
      obtain ⟨kind, s₁, hAct⟩ := h.enabled_at hAdvances hEntry hLeft
      obtain ⟨_, hResult, fewer, rfl, hNext⟩ := h.act hAdvances hAct
      cases hResult
      obtain ⟨n, rest, s', hReaches, hSteps, hTrack, hSame, hDone⟩ := ih fewer (Nat.lt_succ_self fewer) hNext
      refine ⟨1 + n, rest, s', (Reaches.start.next hAct).trans hReaches, by omega, hTrack, hSame.trans ?_, hDone⟩
      obtain ⟨_, next, -, -, rfl⟩ := act_inv move hAct
      exact List.getElem?_set_ne hOther
    · refine ⟨0, steps, s, .start, rfl, h, rfl, ?_⟩
      intro i a hOther hEntry
      by_contra hLeft
      exact hMore ⟨i, a, hOther, hEntry, Nat.pos_of_ne_zero hLeft⟩

theorem OnTrack.left_le {steps : Nat} {start : System σ α} (h : OnTrack good inv left need tickets spare steps start)
    {n : Nat} {s : System σ α} (hReaches : Reaches move start n s) {i : Nat} {a : α}
    (hEntry : s.participants[i]? = some a) : ∃ a₀, start.participants[i]? = some a₀ ∧ left a ≤ left a₀ := by
  induction hReaches generalizing a with
  | start => exact ⟨a, hEntry, Nat.le_refl _⟩
  | @next n s s' k kind hReaches hAct ih =>
    obtain ⟨b, next, hMoved, hMove, rfl⟩ := act_inv move hAct
    obtain ⟨fewer, -, hTrack⟩ := h.reaches hAdvances hReaches
    obtain ⟨_, hResult, -, -, hLeft, -⟩ := hAdvances.succeeds k kind _ b _ hTrack.good (hTrack.inv k b hMoved) hMove
    cases hResult
    by_cases hSame : k = i
    · subst hSame
      obtain ⟨a₀, hFirst, hLe⟩ := ih hMoved
      rw [List.getElem?_set_self (List.getElem?_eq_some_iff.mp hMoved).1] at hEntry
      cases hEntry
      exact ⟨a₀, hFirst, by omega⟩
    · rw [List.getElem?_set_ne hSame] at hEntry
      exact ih hEntry

end Runs

/-- Only the move that finishes a participant writes the value that is looked at. -/
structure WritesLast (move : κ → σ → α → Option (Except ε (σ × α))) {β : Type u} (good : σ → Prop)
    (inv : Nat → α → Prop) (left : α → Nat) (value : σ → β) (wrote : Nat → β → Prop) : Prop where
  step : ∀ i kind shared a next, good shared → inv i a → move kind shared a = some (.ok next) →
    (value next.1 = value shared ∧ 0 < left next.2) ∨ (wrote i (value next.1) ∧ left next.2 = 0)

section Writers
variable {move} {β : Type u} {good : σ → Prop} {inv : Nat → α → Prop} {left need : α → Nat} {tickets : σ → Nat}
  {spare : Nat} {value : σ → β} {wrote : Nat → β → Prop}
  (hAdvances : Advances move good inv left need tickets) (hWrites : WritesLast move good inv left value wrote)
include hAdvances hWrites

/-- The value is that of the start and nobody has finished since, or one that finished since wrote it. -/
theorem OnTrack.last_writer {steps : Nat} {start : System σ α} (h : OnTrack good inv left need tickets spare steps start)
    {n : Nat} {s : System σ α} (hReaches : Reaches move start n s) :
    (value s.shared = value start.shared ∧ ∀ (i : Nat) (a : α), s.participants[i]? = some a → left a = 0 →
      start.participants[i]? = some a) ∨
    ∃ (i : Nat) (a : α), start.participants[i]? = some a ∧ 0 < left a ∧ wrote i (value s.shared) := by
  induction hReaches with
  | start => exact .inl ⟨rfl, fun i a hEntry _ => hEntry⟩
  | @next n s s' k kind hReaches hAct ih =>
    obtain ⟨fewer, -, hTrack⟩ := h.reaches hAdvances hReaches
    obtain ⟨b, next, hMoved, hMove, rfl⟩ := act_inv move hAct
    have hInv := hTrack.inv k b hMoved
    obtain ⟨_, hResult, -, -, hLeft, -⟩ := hAdvances.succeeds k kind _ b _ hTrack.good hInv hMove
    cases hResult
    rcases hWrites.step k kind _ b next hTrack.good hInv hMove with ⟨hSame, hGoes⟩ | ⟨hWrote, -⟩
    · rcases ih with ⟨hValue, hDone⟩ | ⟨i, a, hFirst, hPos, hWrote⟩
      · refine .inl ⟨hSame.trans hValue, ?_⟩
        intro i a hEntry hZero
        by_cases hIndex : k = i
        · subst hIndex
          rw [List.getElem?_set_self (List.getElem?_eq_some_iff.mp hMoved).1] at hEntry
          cases hEntry
          omega
        · rw [List.getElem?_set_ne hIndex] at hEntry
          exact hDone i a hEntry hZero
      · exact .inr ⟨i, a, hFirst, hPos, hSame ▸ hWrote⟩
    · obtain ⟨a₀, hFirst, hLe⟩ := h.left_le hAdvances hReaches hMoved
      exact .inr ⟨k, a₀, hFirst, by omega, hWrote⟩

/-- Runs to the end leave what one of the participants wrote, and any of them can be that one. -/
theorem OnTrack.last_writer_iff {steps : Nat} {start : System σ α}
    (h : OnTrack good inv left need tickets spare steps start)
    (hStart : ∀ a ∈ start.participants, 0 < left a) (hSome : start.participants ≠ [])
    (hOne : ∀ i v w, wrote i v → wrote i w → v = w) (v : β) :
    (∃ s, Reaches move start steps s ∧ value s.shared = v) ↔ ∃ i < start.participants.length, wrote i v := by
  constructor
  · rintro ⟨s, hReaches, rfl⟩
    obtain ⟨fewer, hSteps, hTrack⟩ := h.reaches hAdvances hReaches
    obtain rfl : fewer = 0 := by omega
    rcases h.last_writer hAdvances hWrites hReaches with ⟨-, hDone⟩ | ⟨i, a, hFirst, -, hWrote⟩
    · obtain ⟨a, ha⟩ := List.exists_mem_of_ne_nil _ hSome
      obtain ⟨i, hEntry⟩ := List.mem_iff_getElem?.mp ha
      obtain ⟨b, hb⟩ : ∃ b, s.participants[i]? = some b := by
        have hLength := hReaches.length_eq
        exact ⟨_, List.getElem?_eq_getElem (hLength ▸ (List.getElem?_eq_some_iff.mp hEntry).1)⟩
      have hZero := hTrack.finished (List.mem_of_getElem? hb)
      have hPos := hStart b (List.mem_of_getElem? (hDone i b hb hZero))
      omega
    · exact ⟨i, (List.getElem?_eq_some_iff.mp hFirst).1, hWrote⟩
  · rintro ⟨j, hj, hWrote⟩
    obtain ⟨n, fewer, s₁, hOthers, rfl, hTrack, hSame, hDone⟩ := h.others_first hAdvances j
    obtain ⟨s, hLast, hEnd⟩ := hTrack.completes hAdvances
    have hEntry : s₁.participants[j]? = some start.participants[j] := hSame.trans (List.getElem?_eq_getElem hj)
    refine ⟨s, Nat.add_comm n fewer ▸ hOthers.trans hLast, ?_⟩
    rcases hTrack.last_writer hAdvances hWrites hLast with ⟨-, hKept⟩ | ⟨i, a, hFirst, hPos, hWrote'⟩
    · obtain ⟨b, hb⟩ : ∃ b, s.participants[j]? = some b := by
        have hLength := hOthers.length_eq
        have hLength' := hLast.length_eq
        exact ⟨_, List.getElem?_eq_getElem (by omega)⟩
      have hZero := hEnd.finished (List.mem_of_getElem? hb)
      cases hEntry.symm.trans (hKept j b hb hZero)
      have hPos := hStart _ (List.getElem_mem hj)
      omega
    · by_cases hIndex : i = j
      · subst hIndex
        exact hOne i _ _ hWrote' hWrote
      · have hZero := hDone i a hIndex hFirst
        omega

end Writers

end Interleaving
