/-! # Runs of a step function that may fail

A run is the list of its events. A step that succeeds and keeps an invariant,
wherever a condition on the state and the input holds, makes every run whose
steps meet the condition succeed and keep the invariant.
-/

namespace Runs
set_option autoImplicit false

universe u v w

structure Event (σ ι ο : Type u) where
  before : σ
  input : ι
  output : ο
  after : σ

variable {ε σ ι ο : Type u} (step : σ → ι → Except ε (σ × ο))

def trace : σ → List ι → Except ε (List (Event σ ι ο))
  | _, [] => .ok []
  | s, i :: rest =>
    match step s i with
    | .error e => .error e
    | .ok (s', o) =>
      match trace s' rest with
      | .error e => .error e
      | .ok events => .ok (⟨s, i, o, s'⟩ :: events)

/-- Every step of the run is taken from a state in which its input meets the condition. -/
def Meets (cond : σ → ι → Prop) : σ → List ι → Prop
  | _, [] => True
  | s, i :: rest => cond s i ∧ ∀ s' o, step s i = .ok (s', o) → Meets cond s' rest

variable {step} {cond : σ → ι → Prop} {inv : σ → Prop} {good : Event σ ι ο → Prop}

theorem Meets.cons {s s' : σ} {i : ι} {rest : List ι} (hCond : cond s i)
    (hStep : (step s i).map Prod.fst = .ok s') (hRest : Meets step cond s' rest) :
    Meets step cond s (i :: rest) := by
  refine ⟨hCond, ?_⟩
  intro s₁ o₁ hOk
  rw [hOk] at hStep
  cases hStep
  exact hRest

theorem trace_of_invariant
    (hStep : ∀ s i, inv s → cond s i → ∃ s' o, step s i = .ok (s', o) ∧ inv s' ∧ good ⟨s, i, o, s'⟩)
    {s : σ} (hInv : inv s) {inputs : List ι} (hMeets : Meets step cond s inputs) :
    ∃ events, trace step s inputs = .ok events ∧ ∀ e ∈ events, inv e.after ∧ good e := by
  induction inputs generalizing s with
  | nil => exact ⟨[], rfl, fun e he => absurd he List.not_mem_nil⟩
  | cons i rest ih =>
    obtain ⟨hCond, hRest⟩ := hMeets
    obtain ⟨s', o, hOk, hInv', hGood⟩ := hStep s i hInv hCond
    obtain ⟨events, hTrace, hAll⟩ := ih hInv' (hRest s' o hOk)
    refine ⟨⟨s, i, o, s'⟩ :: events, ?_, ?_⟩
    · rw [trace, hOk]
      dsimp only
      rw [hTrace]
    · intro e he
      rcases List.mem_cons.mp he with rfl | he
      · exact ⟨hInv', hGood⟩
      · exact hAll e he

/-- An account that each step updates holds, before and after each step of a run, its start updated by the
steps taken until there. -/
theorem trace_account {κ : Type v} {β : Type w} {value : σ → κ → β} {update : Event σ ι ο → κ → β → β}
    (hStep : ∀ s i, inv s → cond s i → ∃ s' o, step s i = .ok (s', o) ∧ inv s' ∧ good ⟨s, i, o, s'⟩ ∧
      ∀ j, value s' j = update ⟨s, i, o, s'⟩ j (value s j))
    {s : σ} (hInv : inv s) {inputs : List ι} (hMeets : Meets step cond s inputs) :
    ∃ events, trace step s inputs = .ok events ∧ ∀ k e, events[k]? = some e → inv e.after ∧ good e ∧
      ∀ j, value e.before j = (events.take k).foldl (fun b e => update e j b) (value s j) ∧
        value e.after j = (events.take (k + 1)).foldl (fun b e => update e j b) (value s j) := by
  induction inputs generalizing s with
  | nil =>
    refine ⟨[], rfl, ?_⟩
    intro k e he
    cases he
  | cons i rest ih =>
    obtain ⟨hCond, hRest⟩ := hMeets
    obtain ⟨s', o, hOk, hInv', hGood, hUpdate⟩ := hStep s i hInv hCond
    obtain ⟨events, hTrace, hAll⟩ := ih hInv' (hRest s' o hOk)
    refine ⟨⟨s, i, o, s'⟩ :: events, ?_, ?_⟩
    · rw [trace, hOk]
      dsimp only
      rw [hTrace]
    · intro k e he
      cases k with
      | zero =>
        cases he
        exact ⟨hInv', hGood, fun j => ⟨rfl, hUpdate j⟩⟩
      | succ k =>
        obtain ⟨hAfter, hGood', hValue⟩ := hAll k e he
        refine ⟨hAfter, hGood', fun j => ?_⟩
        rw [(hValue j).1, (hValue j).2, hUpdate, List.take_succ_cons, List.take_succ_cons, List.foldl_cons,
          List.foldl_cons]
        exact ⟨rfl, rfl⟩

/-- An invariant that may also speak of the inputs taken so far. -/
theorem trace_history {inv : List ι → σ → Prop}
    (hStep : ∀ past s i s' o, inv past s → step s i = .ok (s', o) → inv (past ++ [i]) s')
    {past inputs : List ι} {s : σ} (hInv : inv past s) {events : List (Event σ ι ο)}
    (hTrace : trace step s inputs = .ok events) {k : Nat} {e : Event σ ι ο} (he : events[k]? = some e) :
    inv (past ++ inputs.take (k + 1)) e.after := by
  induction inputs generalizing past s events k with
  | nil =>
    cases hTrace
    cases he
  | cons i rest ih =>
    cases hOk : step s i with
    | error fault =>
      rw [trace, hOk] at hTrace
      cases hTrace
    | ok out =>
      obtain ⟨s', o⟩ := out
      have hNext := hStep past s i s' o hInv hOk
      rw [trace, hOk] at hTrace
      dsimp only at hTrace
      cases hRest : trace step s' rest with
      | error fault =>
        rw [hRest] at hTrace
        cases hTrace
      | ok later =>
        rw [hRest] at hTrace
        cases hTrace
        cases k with
        | zero =>
          cases he
          exact hNext
        | succ k =>
          have hLater := ih hNext hRest he
          rwa [List.append_assoc] at hLater

end Runs
