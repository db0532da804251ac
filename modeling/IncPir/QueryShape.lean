import IncPir.QueryRound

/-! # The shape of online and refresh queries

A refresh query always has `setsize - 1` indices. An online query has that
shape exactly when the set it is built from contains the index; otherwise the
removal takes nothing out and the query is one index too long.
-/

namespace IncPir
open LoopM
set_option autoImplicit false

variable (aes : Aes)

structure QueryShape (bound length : Nat) (indices : List Nat) : Prop where
  sorted : indices.Pairwise (· < ·)
  length_eq : indices.length = length
  lt_bound : ∀ i ∈ indices, i < bound

/-- Both messages of a round have the shape that hides the index. -/
def ShapedRound (c : PIRClient) (idx : Nat) (draw : RemoveDraw) (refresh : RefreshDraw) : Prop :=
  ∃ c₁ online, c.generateOnlineQuery aes idx draw = .ok (c₁, online) ∧
    QueryShape c.dbrange (c.setsize - 1) online.indices ∧
    ∃ c₂ second, c₁.generateRefreshQuery aes idx refresh = .ok (c₂, second) ∧
      QueryShape c.dbrange (c.setsize - 1) second.indices

/-- The set that the query is built from contains the index. -/
def SelectsMember (c : PIRClient) (idx : Nat) : Prop :=
  ∃ d, c.localhints.sets[c.selected aes idx]? = some d ∧ idx ∈ expansion aes c.mk d

section Client
variable {c : PIRClient} (hWF : ClientWF c) (hSize : 2 ≤ c.setsize)
include hWF hSize

theorem removal_shape {d : SetDesc} (hd : SetWF c.dbrange c.setsize d) {idx : Nat} (hIdx : idx < c.dbrange)
    (draw : RemoveDraw) :
    ∃ t, probabilisticRemove (listed aes c.mk d) draw idx = .ok t ∧
      (QueryShape c.dbrange (c.setsize - 1) t.elems ↔ idx ∈ expansion aes c.mk d) := by
  have hListed := size_listed aes c.mk hd hWF.dbrange_le
  obtain ⟨t, hRemove, hMem, hLength, -⟩ := @removal_spec 0 (fun _ => 0#0) (listed aes c.mk d) draw idx
    (fun _ => by omega) (by omega)
  rw [hListed, OrdSet.size] at hLength
  refine ⟨t, hRemove, ?_⟩
  rw [← mem_listed]
  constructor
  · intro h
    by_contra hNot
    rw [if_neg hNot, h.length_eq] at hLength
    omega
  · intro h
    rw [if_pos h] at hLength
    exact ⟨t.sorted, hLength, fun i hi => listed_lt aes c.mk hd hIdx i (hMem i hi)⟩

theorem refresh_shape (hSetno : c.curQrySetno < c.nbrsets) {idx : Nat} (hIdx : idx < c.dbrange)
    (draw : RefreshDraw) :
    ∃ c' qry, c.generateRefreshQuery aes idx draw = .ok (c', qry) ∧
      QueryShape c.dbrange (c.setsize - 1) qry.indices := by
  have hFresh := freshDesc_wf aes hWF.setsize_le hWF.setsize_pos idx draw
  obtain ⟨t, hRemove, hIff⟩ := removal_shape aes hWF hSize hFresh hIdx draw.remove
  exact ⟨_, _, generateRefreshQuery_eq aes hWF hSetno idx hRemove,
    hIff.mpr (mem_freshDesc aes hWF.setsize_le hWF.dbrange_le hWF.setsize_pos c.mk hIdx draw)⟩

theorem shapedRound_iff {idx : Nat} (hIdx : idx < c.dbrange) (draw : RemoveDraw)
    (refresh : RefreshDraw) : ShapedRound aes c idx draw refresh ↔ SelectsMember aes c idx := by
  have hLength := hWF.sets_length
  rcases Nat.eq_zero_or_pos c.nbrsets with hNone | hSets
  · have hSet : ∀ s, c.localhints.sets[s]? = none := fun s => List.getElem?_eq_none (by omega)
    have hFault : c.generateOnlineQuery aes idx draw = .error .outOfRange := by
      rw [PIRClient.generateOnlineQuery, if_neg (by omega), search_eq aes hWF]
      simp only [ok_bind, elemAt, hSet, error_bind]
    constructor
    · rintro ⟨c₁, online, hOnline, -⟩
      rw [hFault] at hOnline
      cases hOnline
    · rintro ⟨d, hd, -⟩
      rw [hSet] at hd
      cases hd
  · have hLt := selected_lt aes hWF hSets idx
    have hSet := List.getElem?_eq_getElem hLt
    obtain ⟨t, hRemove, hIff⟩ := removal_shape aes hWF hSize
      (hWF.sets_wf _ (List.getElem_mem hLt)) hIdx draw
    have hOnline := generateOnlineQuery_eq aes hWF hIdx hSet hRemove
    constructor
    · rintro ⟨c₁, online, hOk, hShape, -⟩
      rw [hOnline] at hOk
      cases hOk
      exact ⟨_, hSet, hIff.mp hShape⟩
    · rintro ⟨d, hd, hMem⟩
      rw [hSet] at hd
      cases hd
      have hWF' := hWF.current (c.selected aes idx) c.curQryBlk
      exact ⟨_, _, hOnline, hIff.mpr hMem,
        refresh_shape aes hWF' hSize (hLength ▸ hLt) hIdx refresh⟩

end Client

/-- The messages of the rounds for two indices have equal shape exactly when each query is built
from a set that contains its index. -/
theorem shapedRounds_iff {c : PIRClient} (hWF : ClientWF c) (hSize : 2 ≤ c.setsize) {i j : Nat}
    (hi : i < c.dbrange) (hj : j < c.dbrange) (drawI drawJ : RemoveDraw)
    (refreshI refreshJ : RefreshDraw) :
    (ShapedRound aes c i drawI refreshI ∧ ShapedRound aes c j drawJ refreshJ) ↔
      (SelectsMember aes c i ∧ SelectsMember aes c j) := by
  rw [shapedRound_iff aes hWF hSize hi, shapedRound_iff aes hWF hSize hj]

def trioClient : PIRClient :=
  ⟨3, 2, 1, ⟨[⟨Vector.replicate 16 0, 1, [(3, 2)]⟩], [0]⟩, Vector.replicate 16 0, 0, 0⟩

theorem trioClient_wf : ClientWF trioClient where
  setsize_pos := by decide
  setsize_le := by decide
  dbrange_le := by decide
  sets_length := rfl
  parities_length := rfl
  sets_wf := by
    intro d hd
    rw [List.mem_singleton.mp hd]
    exact setWF_single _ _ (by decide) (by decide)

theorem shapedRounds_iff_trio :
    (ShapedRound (fun key _ => key) trioClient 0 ⟨false, 0⟩ ⟨Vector.replicate 16 1, 0, ⟨true, 0⟩⟩ ∧
      ShapedRound (fun key _ => key) trioClient 1 ⟨true, 1⟩ ⟨Vector.replicate 16 2, 1, ⟨false, 0⟩⟩) ↔
    (SelectsMember (fun key _ => key) trioClient 0 ∧ SelectsMember (fun key _ => key) trioClient 1) :=
  shapedRounds_iff _ trioClient_wf (by decide) (by decide) (by decide) _ _ _ _

/-- A query for an index in no set falls back to set 0 and sends all of its indices. -/
theorem online_query_too_long :
    ClientWF trioClient ∧ 2 ≤ trioClient.setsize ∧ 2 < trioClient.dbrange ∧
    trioClient.generateOnlineQuery (fun key _ => key) 2 ⟨false, 0⟩ = .ok (trioClient, ⟨[0, 1]⟩) ∧
    ¬ ShapedRound (fun key _ => key) trioClient 2 ⟨false, 0⟩
      ⟨Vector.replicate 16 1, 0, ⟨false, 0⟩⟩ := by
  have hQuery : trioClient.generateOnlineQuery (fun key _ => key) 2 ⟨false, 0⟩ =
      .ok (trioClient, ⟨[0, 1]⟩) := by decide +kernel
  refine ⟨trioClient_wf, by decide, by decide, hQuery, ?_⟩
  rintro ⟨c₁, online, hOk, hShape, -⟩
  rw [hQuery] at hOk
  cases hOk
  exact absurd hShape.length_eq (by decide)

end IncPir
