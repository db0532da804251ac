import IncPir.Exchange
import IncPir.Library.Interleaving

/-! # Requests from threads

The evaluation clients send each request from a thread of its own, and one
accept loop of the server takes the connections in whatever order they arrive.
-/

namespace IncPir
open LoopM Interleaving
set_option autoImplicit false

inductive Stage (α : Type) where
  | ready
  | waiting (incoming : List UInt8)
  | answered (incoming : List UInt8)
  | finished (result : α)

structure Thread (γ α : Type) where
  owner : γ
  message : List UInt8
  link : Link
  stage : Stage α

inductive Kind where
  | connect
  | accept
  | finish

/-- The passes that the accept loop has left, and what the threads share. -/
structure Shared (σ : Type) where
  left : Nat
  state : σ

/-- How the server answers a message, and what a thread does with the response. -/
structure Service (σ γ α : Type) where
  handle : List UInt8 → Except SerialFault (List UInt8)
  finish : γ → σ → List UInt8 → Except SerialFault (σ × α)

section Moves
variable {σ γ α : Type} (service : Service σ γ α) (passes : Nat)

/-- The thread connects, the server takes the connection in one of the passes it has left, the thread
reads the response. -/
def Thread.move : Kind → Shared σ → Thread γ α → Option (Except SerialFault (Shared σ × Thread γ α))
  | .connect, shared, ⟨owner, message, link, .ready⟩ => some do
    let incoming ← sendQuery link passes message
    .ok (shared, ⟨owner, message, link, .waiting incoming⟩)
  | .accept, ⟨left + 1, state⟩, ⟨owner, message, link, .waiting incoming⟩ => some do
    let answer ← servePass service.handle link passes incoming
    .ok (⟨left, state⟩, ⟨owner, message, link, .answered (answer.getD [])⟩)
  | .finish, ⟨left, state⟩, ⟨owner, message, link, .answered incoming⟩ => some do
    let response ← receiveResponse link passes incoming
    let (state, result) ← service.finish owner state response
    .ok (⟨left, state⟩, ⟨owner, message, link, .finished result⟩)
  | _, _, _ => none

/-- The request of the thread with nothing else going on. -/
def Thread.alone (t : Thread γ α) (state : σ) : Except SerialFault (σ × α) := do
  let response ← overConnection service.handle t.link passes t.message
  service.finish t.owner state response

/-- The threads after `n` actions, each of which the server may have taken in any order: no action fails,
the run goes on until every thread has finished, and a result is what the request alone gives. -/
structure AllServed (good : σ → Prop) (P : γ → α → Prop) (start : System (Shared σ) (Thread γ α)) (n : Nat)
    (s : System (Shared σ) (Thread γ α)) : Prop where
  succeeds : ∀ i kind result, act (Thread.move service passes) s i kind = some result → ∃ s', result = .ok s'
  steps_le : n ≤ start.participants.length * 3
  enabled : n < start.participants.length * 3 →
    ∃ i kind s', act (Thread.move service passes) s i kind = some (.ok s')
  length : s.participants.length = start.participants.length
  state : good s.shared.state
  results : ∀ (i : Nat) (t : Thread γ α) (result : α), s.participants[i]? = some t → t.stage = .finished result →
    ∃ t₀ state, start.participants[i]? = some t₀ ∧ P t₀.owner result ∧
      t₀.alone service passes s.shared.state = .ok (state, result)
  finished : n = start.participants.length * 3 →
    s.shared.left + s.participants.length = start.shared.left ∧
      ∀ t ∈ s.participants, ∃ result, t.stage = .finished result

end Moves

section Course
variable {σ γ α : Type} {service : Service σ γ α} {good : σ → Prop} {passes : Nat}

/-- The server answers the request of the thread, and in every good state this gives `result`. -/
structure Answerable (service : Service σ γ α) (good : σ → Prop) (t : Thread γ α) (response : List UInt8)
    (result : α) : Prop where
  stage : t.stage = .ready
  link : t.link.Reliable
  sendable : Sendable t.message
  handled : service.handle t.message = .ok response
  reply_sendable : Sendable response
  finishes : ∀ state, good state → ∃ state', service.finish t.owner state response = .ok (state', result) ∧ good state'

inductive OnCourse (passes : Nat) (t : Thread γ α) (response : List UInt8) (result : α) : Thread γ α → Prop where
  | ready : OnCourse passes t response result { t with stage := .ready }
  | waiting {incoming : List UInt8} (hIncoming : Delivers t.link.serverReads passes incoming t.message) :
      OnCourse passes t response result { t with stage := .waiting incoming }
  | answered {incoming : List UInt8} (hIncoming : Delivers t.link.clientReads passes incoming response) :
      OnCourse passes t response result { t with stage := .answered incoming }
  | finished : OnCourse passes t response result { t with stage := .finished result }

def Stage.left : Stage α → Nat
  | .ready => 3
  | .waiting _ => 2
  | .answered _ => 1
  | .finished _ => 0

/-- Whether the server still has to take the connection. -/
def Stage.need : Stage α → Nat
  | .ready => 1
  | .waiting _ => 1
  | .answered _ => 0
  | .finished _ => 0

theorem Stage.finished_of_left {stage : Stage α} (h : stage.left = 0) : ∃ result, stage = .finished result := by
  cases stage with
  | finished result => exact ⟨result, rfl⟩
  | _ => cases h

def Thread.left (t : Thread γ α) : Nat := t.stage.left

def Thread.need (t : Thread γ α) : Nat := t.stage.need

def ThreadSound (service : Service σ γ α) (good : σ → Prop) (passes : Nat) (P : γ → α → Prop)
    (threads : List (Thread γ α)) (i : Nat) (t' : Thread γ α) : Prop :=
  ∃ t response result, threads[i]? = some t ∧ Answerable service good t response result ∧ P t.owner result ∧
    OnCourse passes t response result t'

variable {P : γ → α → Prop} {start : System (Shared σ) (Thread γ α)}

theorem threads_onTrack (hGood : good start.shared.state) (hLeft : start.participants.length ≤ start.shared.left)
    (hAll : ∀ t ∈ start.participants, ∃ response result, Answerable service good t response result ∧ P t.owner result) :
    OnTrack (fun shared => good shared.state) (ThreadSound service good passes P start.participants) Thread.left
      Thread.need Shared.left (start.shared.left - start.participants.length) (start.participants.length * 3) start := by
  have hStages : ∀ t ∈ start.participants, t.stage = .ready := by
    intro t ht
    obtain ⟨response, result, hAnswer, -⟩ := hAll t ht
    exact hAnswer.stage
  have hNeed : total Thread.need start.participants = start.participants.length * 1 :=
    total_eq_mul fun t ht => congrArg Stage.need (hStages t ht)
  refine ⟨hGood, ?_, total_eq_mul fun t ht => congrArg Stage.left (hStages t ht), by omega⟩
  intro i t hEntry
  obtain ⟨response, result, hAnswer, hP⟩ := hAll t (List.mem_of_getElem? hEntry)
  obtain ⟨owner, message, link, stage⟩ := t
  obtain rfl : stage = .ready := hAnswer.stage
  exact ⟨_, response, result, hEntry, hAnswer, hP, .ready⟩

variable (hPasses : 2 ^ 31 ≤ passes)
include hPasses

theorem Answerable.alone {t : Thread γ α} {response : List UInt8} {result : α}
    (h : Answerable service good t response result) {state : σ} (hGood : good state) :
    ∃ state', t.alone service passes state = .ok (state', result) := by
  obtain ⟨state', hFinish, -⟩ := h.finishes state hGood
  refine ⟨state', ?_⟩
  rw [Thread.alone, overConnection_eq h.link hPasses h.sendable h.handled h.reply_sendable, ok_bind, hFinish]

theorem OnCourse.move {t t' : Thread γ α} {response : List UInt8} {out : α} (h : Answerable service good t response out)
    (hCourse : OnCourse passes t response out t') {kind : Kind} {shared : Shared σ} (hGood : good shared.state)
    {result : Except SerialFault (Shared σ × Thread γ α)}
    (hMove : Thread.move service passes kind shared t' = some result) :
    ∃ next, result = .ok next ∧ good next.1.state ∧ OnCourse passes t response out next.2 ∧
      next.2.left + 1 = t'.left ∧ next.1.left + t'.need = shared.left + next.2.need := by
  obtain ⟨left, state⟩ := shared
  cases hCourse with
  | ready =>
    cases kind <;> simp only [Thread.move, reduceCtorEq] at hMove
    obtain ⟨incoming, hSend, hIncoming⟩ := sendQuery_delivers h.link hPasses h.sendable
    rw [hSend] at hMove
    cases hMove
    exact ⟨_, rfl, hGood, .waiting hIncoming, rfl, rfl⟩
  | waiting hIncoming =>
    cases kind <;> cases left <;> simp only [Thread.move, reduceCtorEq] at hMove
    obtain ⟨outgoing, hServe, hOutgoing⟩ := servePass_delivers h.link hPasses hIncoming h.handled h.reply_sendable
    rw [hServe] at hMove
    cases hMove
    exact ⟨_, rfl, hGood, .answered hOutgoing, rfl, rfl⟩
  | answered hIncoming =>
    cases kind <;> simp only [Thread.move, reduceCtorEq] at hMove
    obtain ⟨state', hFinish, hGood'⟩ := h.finishes state hGood
    rw [receiveResponse_eq hIncoming, ok_bind, hFinish] at hMove
    cases hMove
    exact ⟨_, rfl, hGood', .finished, rfl, rfl⟩
  | finished => cases kind <;> simp only [Thread.move, reduceCtorEq] at hMove

theorem threads_advance :
    Advances (Thread.move service passes) (fun shared => good shared.state)
      (ThreadSound service good passes P start.participants) Thread.left Thread.need Shared.left where
  succeeds := by
    rintro i kind shared t' result hGood ⟨t, response, out, hStart, hAnswer, hP, hCourse⟩ hMove
    obtain ⟨next, hResult, hGood', hNext, hLeft, hNeed⟩ := hCourse.move hPasses hAnswer hGood hMove
    exact ⟨next, hResult, hGood', ⟨t, response, out, hStart, hAnswer, hP, hNext⟩, hLeft, hNeed⟩
  enabled := by
    rintro i ⟨left, state⟩ t' - ⟨t, response, out, -, -, -, hCourse⟩ hLeft hNeed
    cases hCourse with
    | ready => exact ⟨.connect, _, rfl⟩
    | waiting hIncoming =>
      cases left with
      | zero => cases hNeed
      | succ left => exact ⟨.accept, _, rfl⟩
    | answered hIncoming => exact ⟨.finish, _, rfl⟩
    | finished => cases hLeft

/-- Every order in which the server takes answerable requests serves them all. -/
theorem threads_served (hGood : good start.shared.state) (hLeft : start.participants.length ≤ start.shared.left)
    (hAll : ∀ t ∈ start.participants, ∃ response result, Answerable service good t response result ∧ P t.owner result)
    {n : Nat} {s : System (Shared σ) (Thread γ α)} (hReaches : Reaches (Thread.move service passes) start n s) :
    AllServed service passes good P start n s := by
  have hAdvances := @threads_advance σ γ α service good passes P start hPasses
  have hStart := @threads_onTrack σ γ α service good passes P start hGood hLeft hAll
  obtain ⟨fewer, hSteps, hTrack⟩ := hStart.reaches hAdvances hReaches
  refine ⟨?_, by omega, ?_, hReaches.length_eq, hTrack.good, ?_, ?_⟩
  · intro i kind result hAct
    obtain ⟨s', hResult, -⟩ := hTrack.act hAdvances hAct
    exact ⟨s', hResult⟩
  · intro hLess
    exact hTrack.enabled hAdvances (by omega)
  · intro i t' out hEntry hStage
    obtain ⟨t, response, result, hThread, hAnswer, hP, hCourse⟩ := hTrack.inv i t' hEntry
    cases hCourse with
    | ready => cases hStage
    | waiting hIncoming => cases hStage
    | answered hIncoming => cases hStage
    | finished =>
      cases hStage
      obtain ⟨state, hAlone⟩ := hAnswer.alone hPasses hTrack.good
      exact ⟨t, state, hThread, hP, hAlone⟩
  · intro hLast
    obtain rfl : fewer = 0 := by omega
    have hDone : ∀ t ∈ s.participants, t.left = 0 := fun t ht => hTrack.finished ht
    have hNone : total Thread.need s.participants = s.participants.length * 0 := by
      apply total_eq_mul
      intro t ht
      obtain ⟨result, hStage⟩ := Stage.finished_of_left (hDone t ht)
      rw [Thread.need, hStage]
      rfl
    have hSame := hReaches.length_eq
    have hTickets := hTrack.tickets
    exact ⟨by omega, fun t ht => Stage.finished_of_left (hDone t ht)⟩

theorem started_served {ι : Type} {make : ι → Except SerialFault (Thread γ α)} {starts : List ι}
    (hAll : ∀ i ∈ starts, ∃ t, make i = .ok t ∧ ∃ response result, Answerable service good t response result ∧
      P t.owner result) {state : σ} (hGood : good state) :
    ∃ threads, starts.mapM make = .ok threads ∧ threads.length = starts.length ∧
      ∀ left n s, starts.length ≤ left → Reaches (Thread.move service passes) ⟨⟨left, state⟩, threads⟩ n s →
        AllServed service passes good P ⟨⟨left, state⟩, threads⟩ n s := by
  obtain ⟨threads, hThreads, hLength, hEach⟩ := mapM_exists hAll
  refine ⟨threads, hThreads, hLength, ?_⟩
  intro left n s hLeft hReaches
  exact threads_served hPasses hGood (hLength.trans_le hLeft) hEach hReaches

end Course

end IncPir
