import IncPir.Hints
import IncPir.Removal

/-! # Online queries, refresh queries and the complete round

Each client operation has one equation on well-formed clients. The complete
round then recovers what the online removal took out, and stores a hint that
differs from the exact one by the blocks of the two removals.
-/

namespace IncPir
open LoopM XorFold SlotSet
set_option autoImplicit false

variable (aes : Aes)

namespace PIRClient

def accepting (c : PIRClient) (idx : Nat) : Option Nat :=
  c.localhints.sets.findIdx? fun d => decide (idx ∈ searched aes c.mk d)

/-- The set that a query is built from: set 0 when the search reports none. -/
def selected (c : PIRClient) (idx : Nat) : Nat := (c.accepting aes idx).getD 0

def putSet (c : PIRClient) (s : Nat) (d : SetDesc) : PIRClient :=
  { c with localhints := { c.localhints with sets := c.localhints.sets.set s d } }

def putParity (c : PIRClient) (s : Nat) (h : Block) : PIRClient :=
  { c with localhints := { c.localhints with parities := c.localhints.parities.set s h } }

end PIRClient

/-- The descriptor that a refresh draws for `idx`. -/
def freshDesc (dbrange setsize idx : Nat) (draw : RefreshDraw) : SetDesc :=
  { sk := draw.nsk
    shift := sub32 (u32 (idx + dbrange)) (prp aes draw.nsk dbrange (draw.rand % setsize)) % dbrange
    aux := [(dbrange, setsize)] }

section Search
variable {c : PIRClient} (hWF : ClientWF c)
include hWF

theorem search_eq (idx : Nat) : c.search aes idx = .ok (c.accepting aes idx) := by
  have hLength : 0 + c.nbrsets = c.localhints.sets.length := by rw [hWF.sets_length, Nat.zero_add]
  have hLoop := searchSets_eq aes c.mk (fun d hd => (hWF.sets_wf d hd).own_count) hWF.dbrange_le idx hLength
  rw [PIRClient.search, hLoop, List.drop_zero, PIRClient.accepting]
  simp

theorem selected_lt (hSets : 1 ≤ c.nbrsets) (idx : Nat) : c.selected aes idx < c.localhints.sets.length := by
  have hLength := hWF.sets_length
  rw [PIRClient.selected]
  cases hFound : c.accepting aes idx with
  | none => rw [Option.getD_none]; omega
  | some s =>
    rw [PIRClient.accepting, List.findIdx?_eq_some_iff_getElem] at hFound
    obtain ⟨hs, -⟩ := hFound
    exact hs

theorem selected_of_search {idx : Nat} {found : Option Nat} (hFound : c.search aes idx = .ok found) :
    c.selected aes idx = found.getD 0 := by
  rw [search_eq aes hWF] at hFound
  cases hFound
  rfl

theorem searched_of_search {idx setno : Nat} (hFound : c.search aes idx = .ok (some setno)) :
    ∃ d, c.localhints.sets[setno]? = some d ∧ idx ∈ searched aes c.mk d := by
  rw [search_eq aes hWF] at hFound
  have hAccepting := Except.ok.inj hFound
  rw [PIRClient.accepting, List.findIdx?_eq_some_iff_getElem] at hAccepting
  obtain ⟨hLt, hAccepted, -⟩ := hAccepting
  exact ⟨_, List.getElem?_eq_getElem hLt, of_decide_eq_true hAccepted⟩

theorem generateOnlineQuery_eq {idx : Nat} (hIdx : idx < c.dbrange) {d : SetDesc}
    (hSet : c.localhints.sets[c.selected aes idx]? = some d) {draw : RemoveDraw} {t : OrdSet Nat}
    (hRemove : probabilisticRemove (listed aes c.mk d) draw idx = .ok t) :
    c.generateOnlineQuery aes idx draw =
      .ok ({ c with curQrySetno := c.selected aes idx }, ⟨t.elems⟩) := by
  have hd := hWF.sets_wf d (List.mem_of_getElem? hSet)
  rw [PIRClient.generateOnlineQuery, if_neg (by omega), search_eq aes hWF]
  simp only [ok_bind]
  rw [← PIRClient.selected, elemAt_of_getElem? hSet]
  simp only [ok_bind]
  rw [expandSet_eq aes c.mk hd hWF.dbrange_le, ← listed]
  simp only [ok_bind, hRemove]

end Search

section Refresh
variable {dbrange setsize : Nat} (hLe : setsize ≤ dbrange)
include hLe

theorem freshDesc_wf (hPos : 1 ≤ setsize) (idx : Nat) (draw : RefreshDraw) :
    SetWF dbrange setsize (freshDesc aes dbrange setsize idx draw) :=
  setWF_single _ _ hLe (Nat.mod_lt _ (by omega))

variable (hRange : dbrange ≤ 2 ^ 31)
include hRange

theorem freshDesc_expansion (mk : Key) (idx : Nat) (draw : RefreshDraw) :
    expansion aes mk (freshDesc aes dbrange setsize idx draw) =
      (List.range setsize).map fun x =>
        (prp aes draw.nsk dbrange x + (freshDesc aes dbrange setsize idx draw).shift) % dbrange :=
  expansion_single aes mk draw.nsk _ (by omega) hLe

theorem mem_freshDesc (hPos : 1 ≤ setsize) (mk : Key) {idx : Nat} (hIdx : idx < dbrange) (draw : RefreshDraw) :
    idx ∈ expansion aes mk (freshDesc aes dbrange setsize idx draw) := by
  have hDraw : draw.rand % setsize < setsize := Nat.mod_lt _ (by omega)
  have hPoint : prp aes draw.nsk dbrange (draw.rand % setsize) < dbrange :=
    prp_lt aes draw.nsk (by omega) (by omega)
  rw [freshDesc_expansion aes hLe hRange]
  refine List.mem_map.mpr ⟨_, List.mem_range.mpr hDraw, ?_⟩
  have hSum : prp aes draw.nsk dbrange (draw.rand % setsize) +
      (idx + dbrange - prp aes draw.nsk dbrange (draw.rand % setsize)) = idx + dbrange := by omega
  rw [freshDesc, u32_of_lt (by omega), sub32_of_le (by omega) (by omega), Nat.add_mod_mod, hSum,
    Nat.add_mod_right, Nat.mod_eq_of_lt hIdx]

end Refresh

section Refresh
variable {c : PIRClient} (hWF : ClientWF c)
include hWF

theorem generateRefreshQuery_eq (hSetno : c.curQrySetno < c.nbrsets) (idx : Nat) {draw : RefreshDraw}
    {t : OrdSet Nat}
    (hRemove : probabilisticRemove (listed aes c.mk (freshDesc aes c.dbrange c.setsize idx draw))
      draw.remove idx = .ok t) :
    c.generateRefreshQuery aes idx draw =
      .ok (c.putSet c.curQrySetno (freshDesc aes c.dbrange c.setsize idx draw), ⟨t.elems⟩) := by
  have hPos := hWF.setsize_pos
  have hLe := hWF.setsize_le
  have hRange := hWF.dbrange_le
  have hLength := hWF.sets_length
  have hDraw : draw.rand % c.setsize < c.setsize := Nat.mod_lt _ (by omega)
  let fresh := freshDesc aes c.dbrange c.setsize idx draw
  have hShift : fresh.shift < c.dbrange := Nat.mod_lt _ (by omega)
  have hLoop : (List.range c.setsize).foldlM (fun tmp i => do
      let v ← cycleWalk aes i c.dbrange draw.nsk
      .ok (tmp.insert (u32 (v + fresh.shift) % c.dbrange))) OrdSet.empty =
        (.ok (listed aes c.mk fresh) : Except Fault _) := by
    rw [listed, freshDesc_expansion aes hLe hRange, OrdSet.ofList, ← foldl_insert_map]
    apply foldlM_eq_ok_of_forall
    intro acc i hi
    have hi' := List.mem_range.mp hi
    have hPoint : prp aes draw.nsk c.dbrange i < c.dbrange := prp_lt aes draw.nsk (by omega) (by omega)
    rw [cycleWalk_eq_prp aes draw.nsk (by omega) (by omega), ok_bind, u32_of_lt (by omega)]
  rw [PIRClient.generateRefreshQuery, modBy, if_neg (by omega), ok_bind,
    cycleWalk_eq_prp aes draw.nsk (by omega) (by omega), ok_bind]
  dsimp only
  rw [storeAt, if_pos (by omega), ok_bind]
  exact (congrArg (· >>= _) hLoop).trans (by rw [ok_bind, hRemove]; rfl)

end Refresh

theorem generateOnlineReply_eq (server : PIRServer) (qry : OnlineQuery)
    (h : ∀ i ∈ qry.indices, i < server.db.length) :
    server.generateOnlineReply qry = .ok ⟨xorOver (blockAt server.db) qry.indices⟩ := by
  have hLoop : qry.indices.foldlM (fun parity i => do
      let blk ← elemAt server.db i
      .ok (parity ^^^ blk)) 0 =
        (.ok (0 ^^^ xorOver (blockAt server.db) (qry.indices.map id)) : Except Fault _) := by
    apply parityLoop_eq
    intro i hi acc
    rw [elemAt_blockAt (h i hi), ok_bind]
    rfl
  rw [PIRServer.generateOnlineReply, hLoop, ok_bind, List.map_id]
  exact congrArg (fun b => Except.ok (OnlineReply.mk b)) (BitVec.zero_xor ..)

end IncPir
