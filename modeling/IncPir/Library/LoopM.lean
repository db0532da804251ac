import Mathlib.Data.List.Basic
import Mathlib.Data.List.Forall2

/-! # Counted loops that may fail

A loop body that succeeds on every state meeting an invariant makes the whole
loop succeed with the value of the pure loop.
-/

namespace LoopM
set_option autoImplicit false

variable {ε σ ι β : Type}

@[simp] theorem ok_bind (a : σ) (f : σ → Except ε β) : (Except.ok a >>= f) = f a := rfl

@[simp] theorem error_bind (e : ε) (f : σ → Except ε β) : (Except.error e >>= f) = .error e := rfl

@[simp] theorem pure_eq_ok (a : σ) : (pure a : Except ε σ) = .ok a := rfl

theorem bind_eq_ok_iff (x : Except ε σ) (f : σ → Except ε β) (b : β) :
    (x >>= f) = .ok b ↔ ∃ a, x = .ok a ∧ f a = .ok b := by
  cases x with
  | error e => simp
  | ok a => simp

theorem map_bind_congr {β' γ : Type} {x : Except ε σ} {f : σ → Except ε β} {f' : σ → Except ε β'} {g : β → γ}
    {g' : β' → γ} (h : ∀ a, (f a).map g = (f' a).map g') : (x >>= f).map g = (x >>= f').map g' := by
  cases x with
  | error e => rfl
  | ok a => exact h a

theorem foldlM_eq_ok (inv : σ → Prop) {step : σ → ι → Except ε σ} {next : σ → ι → σ} {l : List ι}
    {start : σ} (hStart : inv start)
    (hStep : ∀ acc, inv acc → ∀ i ∈ l, step acc i = .ok (next acc i) ∧ inv (next acc i)) :
    l.foldlM step start = .ok (l.foldl next start) := by
  induction l generalizing start with
  | nil => rfl
  | cons i rest ih =>
    obtain ⟨hOk, hInv⟩ := hStep start hStart i List.mem_cons_self
    rw [List.foldlM_cons, hOk, ok_bind]
    exact ih hInv fun acc hAcc j hj => hStep acc hAcc j (List.mem_cons_of_mem i hj)

theorem foldlM_eq_ok_of_forall {step : σ → ι → Except ε σ} {next : σ → ι → σ} {l : List ι}
    (start : σ) (hStep : ∀ acc, ∀ i ∈ l, step acc i = .ok (next acc i)) :
    l.foldlM step start = .ok (l.foldl next start) :=
  foldlM_eq_ok (fun _ => True) trivial fun acc _ i hi => ⟨hStep acc i hi, trivial⟩

theorem foldlM_invariant (inv : σ → Prop) {step : σ → ι → Except ε σ} {l : List ι} {start out : σ}
    (hStart : inv start) (hStep : ∀ acc, inv acc → ∀ i acc', step acc i = .ok acc' → inv acc')
    (h : l.foldlM step start = .ok out) : inv out := by
  induction l generalizing start with
  | nil =>
    cases h
    exact hStart
  | cons i rest ih =>
    rw [List.foldlM_cons] at h
    obtain ⟨next, hNext, hRest⟩ := (bind_eq_ok_iff _ _ _).mp h
    exact ih (hStep start hStart i next hNext) hRest

/-- The invariant of a counted loop may speak about the counter. -/
theorem foldlM_range_invariant (inv : Nat → σ → Prop) {step : σ → Nat → Except ε σ} {n : Nat} {start out : σ}
    (hStart : inv 0 start) (hStep : ∀ i < n, ∀ acc acc', inv i acc → step acc i = .ok acc' → inv (i + 1) acc')
    (h : (List.range n).foldlM step start = .ok out) : inv n out := by
  induction n generalizing out with
  | zero =>
    cases h
    exact hStart
  | succ n ih =>
    rw [List.range_succ, List.foldlM_append] at h
    obtain ⟨acc, hAcc, hLast⟩ := (bind_eq_ok_iff _ _ _).mp h
    rw [List.foldlM_cons] at hLast
    obtain ⟨acc', hPass, hLast⟩ := (bind_eq_ok_iff _ _ _).mp hLast
    obtain rfl := Except.ok.inj hLast
    exact hStep n (Nat.lt_succ_self n) acc acc' (ih (fun i hi => hStep i (Nat.lt_succ_of_lt hi)) hAcc) hPass

theorem foldlM_ok_step {step : σ → ι → Except ε σ} {l : List ι} {start out : σ}
    (h : l.foldlM step start = .ok out) {i : ι} (hi : i ∈ l) : ∃ acc acc', step acc i = .ok acc' := by
  induction l generalizing start with
  | nil => cases hi
  | cons j rest ih =>
    rw [List.foldlM_cons] at h
    obtain ⟨next, hNext, hRest⟩ := (bind_eq_ok_iff _ _ _).mp h
    rcases List.mem_cons.mp hi with rfl | hi
    · exact ⟨start, next, hNext⟩
    · exact ih hRest hi

theorem mapM_eq_ok {f : ι → Except ε β} {g : ι → β} {l : List ι}
    (h : ∀ i ∈ l, f i = .ok (g i)) : l.mapM f = .ok (l.map g) := by
  induction l with
  | nil => rfl
  | cons i rest ih =>
    rw [List.mapM_cons, h i List.mem_cons_self, ok_bind,
      ih fun j hj => h j (List.mem_cons_of_mem i hj), ok_bind]
    rfl

theorem mapM_map_eq_ok {write : β → ι} {read : ι → Except ε β} {l : List β}
    (h : ∀ b ∈ l, read (write b) = .ok b) : (l.map write).mapM read = .ok l := by
  have hLoop := @mapM_eq_ok _ _ _ (read ∘ write) id l h
  rw [List.mapM_map, hLoop, List.map_id]

theorem mapM_range_eq_ok {f : Nat → Except ε β} {g : Nat → β} {n : Nat}
    (h : ∀ i < n, f i = .ok (g i)) : (List.range n).mapM f = .ok ((List.range n).map g) :=
  mapM_eq_ok fun i hi => h i (List.mem_range.mp hi)

theorem mapM_range_exists {f : Nat → Except ε β} {P : Nat → β → Prop} {n : Nat}
    (h : ∀ i < n, ∃ b, f i = .ok b ∧ P i b) :
    ∃ l, (List.range n).mapM f = .ok l ∧ ∀ i < n, ∃ b, l[i]? = some b ∧ P i b := by
  have hLoop : ∃ l, (List.range n).mapM f = .ok l ∧ l.length = n ∧
      ∀ i < n, ∃ b, l[i]? = some b ∧ P i b := by
    induction n with
    | zero => exact ⟨[], rfl, rfl, fun i hi => absurd hi (Nat.not_lt_zero i)⟩
    | succ n ih =>
      obtain ⟨l, hOk, hLength, hAll⟩ := ih fun i hi => h i (Nat.lt_succ_of_lt hi)
      obtain ⟨b, hb, hP⟩ := h n (Nat.lt_succ_self n)
      refine ⟨l ++ [b], ?_, by simp [hLength], ?_⟩
      · rw [List.range_succ, List.mapM_append, hOk, ok_bind, List.mapM_cons, hb]
        rfl
      · intro i hi
        rcases Nat.lt_succ_iff_lt_or_eq.mp hi with hi | rfl
        · obtain ⟨b', hb', hP'⟩ := hAll i hi
          have hLeft : i < l.length := by omega
          exact ⟨b', (List.getElem?_append_left hLeft).trans hb', hP'⟩
        · exact ⟨b, by rw [List.getElem?_append_right (by omega), hLength]; simp, hP⟩
  obtain ⟨l, hOk, -, hAll⟩ := hLoop
  exact ⟨l, hOk, hAll⟩

/-- The results of a loop that returned, read back one by one. -/
theorem mapM_results {f : ι → Except ε β} {l : List ι} {out : List β} (h : l.mapM f = .ok out) :
    out.length = l.length ∧ ∀ (i : Nat) (b : β), out[i]? = some b → ∃ a, l[i]? = some a ∧ f a = .ok b := by
  induction l generalizing out with
  | nil =>
    cases h
    exact ⟨rfl, fun i b hb => by cases hb⟩
  | cons a rest ih =>
    rw [List.mapM_cons] at h
    obtain ⟨b, hb, h⟩ := (bind_eq_ok_iff _ _ _).mp h
    obtain ⟨others, hOthers, h⟩ := (bind_eq_ok_iff _ _ _).mp h
    obtain rfl : out = b :: others := (Except.ok.inj h).symm
    obtain ⟨hLength, hAll⟩ := ih hOthers
    refine ⟨by rw [List.length_cons, hLength, List.length_cons], ?_⟩
    intro i c hc
    cases i with
    | zero =>
      cases hc
      exact ⟨a, rfl, hb⟩
    | succ i => exact hAll i c hc

theorem mapM_exists {f : ι → Except ε β} {P : β → Prop} {l : List ι} (h : ∀ a ∈ l, ∃ b, f a = .ok b ∧ P b) :
    ∃ out, l.mapM f = .ok out ∧ out.length = l.length ∧ ∀ b ∈ out, P b := by
  induction l with
  | nil => exact ⟨[], rfl, rfl, fun b hb => by cases hb⟩
  | cons a rest ih =>
    obtain ⟨b, hOk, hP⟩ := h a List.mem_cons_self
    obtain ⟨out, hLoop, hLength, hAll⟩ := ih fun a' ha' => h a' (List.mem_cons_of_mem a ha')
    refine ⟨b :: out, ?_, congrArg (· + 1) hLength, List.forall_mem_cons.mpr ⟨hP, hAll⟩⟩
    rw [List.mapM_cons, hOk, ok_bind, hLoop]
    rfl

theorem mapM_range_results {f : Nat → Except ε β} {n : Nat} {out : List β} (h : (List.range n).mapM f = .ok out) :
    out.length = n ∧ ∀ i b, out[i]? = some b → f i = .ok b := by
  obtain ⟨hLength, hAll⟩ := mapM_results h
  refine ⟨hLength.trans List.length_range, fun i b hb => ?_⟩
  obtain ⟨a, ha, hf⟩ := hAll i b hb
  obtain ⟨hLt, rfl⟩ := List.getElem?_eq_some_iff.mp ha
  rwa [List.getElem_range] at hf

/-- A counted loop that reads one list at its counter. -/
theorem mapM_range_eq_mapIdx {l : List ι} {f : Nat → Except ε β} {g : Nat → ι → β}
    (h : ∀ i (hi : i < l.length), f i = .ok (g i l[i])) :
    (List.range l.length).mapM f = .ok (l.mapIdx g) := by
  induction l generalizing f g with
  | nil => rfl
  | cons a rest ih =>
    have hRest : (List.range rest.length).mapM (fun i => f (i + 1)) =
        .ok (rest.mapIdx fun i => g (i + 1)) :=
      ih fun i hi => h (i + 1) (Nat.succ_lt_succ hi)
    have hHead : f 0 = .ok (g 0 a) := h 0 (Nat.zero_lt_succ _)
    rw [List.length_cons, List.range_succ_eq_map, List.mapM_cons, hHead, ok_bind, List.mapM_map,
      Function.comp_def]
    rw [hRest, ok_bind, List.mapIdx_cons]
    rfl

theorem mapM_range_eq_map {l : List ι} {f : Nat → Except ε β} {g : ι → β}
    (h : ∀ i (hi : i < l.length), f i = .ok (g l[i])) :
    (List.range l.length).mapM f = .ok (l.map g) := by
  rw [mapM_range_eq_mapIdx (l := l) (g := fun _ a => g a) h]
  exact congrArg Except.ok (List.mapIdx_eq_iff.mpr fun i => List.getElem?_map)

/-- A counted loop that stops at its first result: the steps that remain, and the counter. -/
def findSomeM (f : Nat → Except ε (Option β)) : Nat → Nat → Except ε (Option β)
  | 0, _ => .ok none
  | remaining + 1, i => do
    match ← f i with
    | some b => .ok (some b)
    | none => findSomeM f remaining (i + 1)

theorem findSomeM_eq_ok {f : Nat → Except ε (Option β)} {g : Nat → Option β} {remaining start : Nat}
    (h : ∀ i < start + remaining, f i = .ok (g i)) :
    findSomeM f remaining start = .ok ((List.range' start remaining).findSome? g) := by
  induction remaining generalizing start with
  | zero => rfl
  | succ remaining ih =>
    rw [findSomeM, h start (by omega), ok_bind, List.range'_succ, List.findSome?_cons]
    cases hFirst : g start with
    | some b => rfl
    | none => exact ih fun i hi => h i (by omega)

theorem findIdx?_cons_ne {p q : σ → Bool} {a : σ} (hDiffer : p a ≠ q a) (rest : List σ) :
    (a :: rest).findIdx? p ≠ (a :: rest).findIdx? q := by
  have hNext : ∀ r : Option Nat, some 0 ≠ r.map fun i => i + 1 := by
    intro r hr
    cases r <;> cases hr
  rw [List.findIdx?_cons, List.findIdx?_cons]
  cases hp : p a with
  | true =>
    have hq : q a = false := eq_false_of_ne_true fun hq => hDiffer (hp.trans hq.symm)
    rw [hq]
    exact hNext _
  | false =>
    have hq : q a = true := eq_true_of_ne_false fun hq => hDiffer (hp.trans hq.symm)
    rw [hq]
    exact (hNext _).symm

/-- Two tests stop at the same element exactly when every element on which they disagree comes after
one that the second test accepts. -/
theorem findIdx?_eq_findIdx?_iff (p q : σ → Bool) (l : List σ) :
    l.findIdx? p = l.findIdx? q ↔
      ∀ (s : Nat) (a : σ), l[s]? = some a → p a ≠ q a → ∃ s' < s, ∃ b, l[s']? = some b ∧ q b = true := by
  induction l with
  | nil => simp
  | cons a rest ih =>
    by_cases hAgree : p a = q a
    · rw [List.findIdx?_cons, List.findIdx?_cons]
      cases hFirst : q a with
      | true =>
        rw [hAgree, hFirst]
        refine iff_of_true rfl ?_
        intro s b hb hDiffer
        cases s with
        | zero =>
          cases hb
          exact absurd hAgree hDiffer
        | succ s => exact ⟨0, Nat.zero_lt_succ s, a, rfl, hFirst⟩
      | false =>
        have hMap : Function.Injective (Option.map (· + 1) : Option Nat → Option Nat) :=
          Option.map_injective fun _ _ => Nat.succ.inj
        rw [hAgree, hFirst, if_neg (by decide), if_neg (by decide), hMap.eq_iff, ih]
        constructor
        · intro h s b hb hDiffer
          cases s with
          | zero =>
            cases hb
            exact absurd hAgree hDiffer
          | succ s =>
            obtain ⟨s', hs', c, hc, hq⟩ := h s b hb hDiffer
            exact ⟨s' + 1, Nat.succ_lt_succ hs', c, hc, hq⟩
        · intro h s b hb hDiffer
          obtain ⟨s', hs', c, hc, hq⟩ := h (s + 1) b hb hDiffer
          cases s' with
          | zero =>
            cases hc
            rw [hFirst] at hq
            cases hq
          | succ s' => exact ⟨s', Nat.lt_of_succ_lt_succ hs', c, hc, hq⟩
    · refine iff_of_false (findIdx?_cons_ne hAgree rest) fun h => ?_
      obtain ⟨s', hs', -⟩ := h 0 a rfl hAgree
      exact Nat.not_lt_zero s' hs'

theorem map_mapIdx (l : List ι) (g : Nat → ι → σ) (f : σ → β) :
    (l.mapIdx g).map f = l.mapIdx fun i a => f (g i a) := by
  refine (List.mapIdx_eq_iff.mpr fun i => ?_).symm
  rw [List.getElem?_map, List.getElem?_mapIdx, Option.map_map]
  rfl

theorem exists_forall₂ {R : ι → σ → Prop} {l : List ι} (h : ∀ a ∈ l, ∃ b, R a b) :
    ∃ l', List.Forall₂ R l l' := by
  induction l with
  | nil => exact ⟨[], .nil⟩
  | cons a rest ih =>
    obtain ⟨b, hb⟩ := h a List.mem_cons_self
    obtain ⟨l', hl'⟩ := ih fun a' ha' => h a' (List.mem_cons_of_mem a ha')
    exact ⟨b :: l', .cons hb hl'⟩

theorem set_inj {l : List ι} {i : Nat} (h : i < l.length) (a b : ι) : l.set i a = l.set i b ↔ a = b := by
  constructor
  · intro hSame
    have hEntry := congrArg (fun l' : List ι => l'[i]?) hSame
    simpa [h] using hEntry
  · rintro rfl
    rfl

section Avoids

/-- The computation does not end with the error `e`. -/
def Avoids (e : ε) (x : Except ε σ) : Prop := x ≠ .error e

variable {e : ε}

theorem avoids_ok (a : σ) : Avoids e (.ok a) := nofun

theorem avoids_error_iff (e' : ε) : Avoids e (.error e' : Except ε σ) ↔ e' ≠ e :=
  not_congr ⟨fun h => Except.error.inj h, fun h => h ▸ rfl⟩

theorem Avoids.bind {x : Except ε σ} {f : σ → Except ε β} (hx : Avoids e x)
    (hf : ∀ a, x = .ok a → Avoids e (f a)) : Avoids e (x >>= f) := by
  cases x with
  | ok a => exact hf a rfl
  | error e' => exact (avoids_error_iff e').mpr ((avoids_error_iff e').mp hx)

theorem avoids_bind_ok_iff (x : Except ε σ) (g : σ → β) : Avoids e (x >>= fun a => .ok (g a)) ↔ Avoids e x := by
  cases x with
  | ok a => exact iff_of_true (avoids_ok _) (avoids_ok _)
  | error e' => exact (avoids_error_iff e').trans (avoids_error_iff e').symm

/-- The computation returns when `p` holds, and ends with the error `e` when it does not. -/
def GuardedBy (p : Prop) (e : ε) (x : Except ε σ) : Prop := (p ∧ ∃ a, x = .ok a) ∨ ¬ p ∧ x = .error e

namespace GuardedBy
variable {p q : Prop} {x : Except ε σ} {f : σ → Except ε β}

theorem congr (h : GuardedBy p e x) (hpq : p ↔ q) : GuardedBy q e x :=
  h.imp (And.imp_left hpq.mp) (And.imp_left (mt hpq.mpr))

theorem bind (hx : GuardedBy p e x) (hf : ∀ a, x = .ok a → GuardedBy q e (f a)) :
    GuardedBy (p ∧ q) e (x >>= f) := by
  rcases hx with ⟨hp, a, hOk⟩ | ⟨hp, rfl⟩
  · have hNext := (hf a hOk).congr (and_iff_right hp).symm
    rwa [hOk, ok_bind]
  · exact .inr ⟨fun hBoth => hp hBoth.1, rfl⟩

theorem bind_ok (hx : GuardedBy p e x) (hf : ∀ a, x = .ok a → ∃ b, f a = .ok b) : GuardedBy p e (x >>= f) :=
  (hx.bind fun a ha => .inl ⟨trivial, hf a ha⟩).congr (and_iff_left trivial)

/-- A loop whose passes are guarded is guarded by all their conditions. -/
theorem mapM {f : ι → Except ε β} {l : List ι} {p : ι → Prop} (h : ∀ i ∈ l, GuardedBy (p i) e (f i)) :
    GuardedBy (∀ i ∈ l, p i) e (l.mapM f) := by
  induction l with
  | nil => exact .inl ⟨fun i hi => absurd hi List.not_mem_nil, [], rfl⟩
  | cons i rest ih =>
    rw [List.mapM_cons]
    have hRest := ih fun j hj => h j (List.mem_cons_of_mem i hj)
    have hLoop := (h i List.mem_cons_self).bind fun b _ => hRest.bind_ok fun out _ => ⟨b :: out, rfl⟩
    exact hLoop.congr List.forall_mem_cons.symm

end GuardedBy

end Avoids

/-- A condition on every entry of a list, with its index, can be decided. -/
def decidableForallEntry {α : Type} (l : List α) (P : Nat → α → Prop) [∀ i a, Decidable (P i a)] :
    Decidable (∀ i a, l[i]? = some a → P i a) :=
  decidable_of_iff (∀ i, (h : i < l.length) → P i l[i])
    ⟨fun h _ _ hEntry => (List.getElem?_eq_some_iff.mp hEntry).elim fun hLt hEq => hEq ▸ h _ hLt,
      fun h i hLt => h i l[i] (List.getElem?_eq_getElem hLt)⟩

end LoopM
