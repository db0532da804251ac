import IncPir.Session
import IncPir.Outcomes

/-! # Outstanding requests

Descriptors change when a request is generated, hints when its reply is
processed, and one record of the current query serves all requests in between.
Replies are then processed correctly in the order of generation, where the
replies to neighbouring additions may change places, and those to neighbouring
online queries when no refresh depends on the later one.
-/

namespace IncPir
open LoopM XorFold
set_option autoImplicit false

inductive Request where
  | online (idx : Nat) (draw : RemoveDraw)
  | refresh (idx : Nat) (draw : RefreshDraw)
  | addition (blocks : List Block) (draw : AddDraw)

/-- A reply in flight; the caller of an online query remembers its index. -/
inductive Reply where
  | online (idx : Nat) (reply : OnlineReply)
  | refresh (reply : OnlineReply)
  | addition (reply : OfflineReply)
deriving DecidableEq

def sendRequest (aes : Aes) (s : Session) : Request → Except Fault (Session × Reply)
  | .online idx draw => do
    let (client, qry) ← s.client.generateOnlineQuery aes idx draw
    let reply ← s.server.generateOnlineReply qry
    .ok (⟨s.server, client⟩, .online idx reply)
  | .refresh idx draw => do
    let (client, qry) ← s.client.generateRefreshQuery aes idx draw
    let reply ← s.server.generateOnlineReply qry
    .ok (⟨s.server, client⟩, .refresh reply)
  | .addition blocks draw => do
    let server ← s.server.addElements blocks.length blocks
    let (client, qry) ← s.client.batchedAdditionQuery blocks.length draw
    let reply ← server.batchedAdditionReply aes qry
    .ok (⟨server, client⟩, .addition reply)

def sendAll (aes : Aes) (s : Session) : List Request → Except Fault (Session × List Reply)
  | [] => .ok (s, [])
  | request :: rest => do
    let (s, reply) ← sendRequest aes s request
    let (s, replies) ← sendAll aes s rest
    .ok (s, reply :: replies)

/-- Processing one reply; an online reply yields a block for its index. -/
def deliver (c : PIRClient) : Reply → Except Fault (PIRClient × List (Nat × Block))
  | .online idx reply => do
    let (c, blk) ← c.queryRecov reply
    .ok (c, [(idx, blk)])
  | .refresh reply => do
    let c ← c.refreshRecov reply
    .ok (c, [])
  | .addition reply => do
    let c ← c.updateParity reply
    .ok (c, [])

def deliverAll (c : PIRClient) : List Reply → Except Fault (PIRClient × List (Nat × Block))
  | [] => .ok (c, [])
  | reply :: rest => do
    let (c, blks) ← deliver c reply
    let (c, more) ← deliverAll c rest
    .ok (c, blks ++ more)

theorem deliverAll_cons_eq_ok_iff (c : PIRClient) (reply : Reply) (rest : List Reply)
    (out : PIRClient × List (Nat × Block)) :
    deliverAll c (reply :: rest) = .ok out ↔ ∃ c' blks out', deliver c reply = .ok (c', blks) ∧
      deliverAll c' rest = .ok out' ∧ out = (out'.1, blks ++ out'.2) := by
  rw [deliverAll, bind_eq_ok_iff]
  constructor
  · rintro ⟨⟨c', blks⟩, hStep, h⟩
    obtain ⟨out', hRest, h⟩ := (bind_eq_ok_iff _ _ _).mp h
    exact ⟨c', blks, out', hStep, hRest, (Except.ok.inj h).symm⟩
  · rintro ⟨c', blks, out', hStep, hRest, rfl⟩
    refine ⟨(c', blks), hStep, ?_⟩
    dsimp only
    rw [hRest, ok_bind]

section Order

/-- No refresh reply uses the block that was recovered before these replies. -/
def Shielded : List Reply → Prop
  | [] => True
  | .online _ _ :: _ => True
  | .refresh _ :: _ => False
  | .addition _ :: rest => Shielded rest

/-- Exchanging the replies to neighbouring additions, and those to neighbouring online queries. -/
inductive Reorder : List Reply → List Reply → Prop where
  | refl (replies : List Reply) : Reorder replies replies
  | additions (front back : List Reply) (first second : OfflineReply) :
      Reorder (front ++ .addition first :: .addition second :: back)
        (front ++ .addition second :: .addition first :: back)
  | queries (front back : List Reply) (i j : Nat) (first second : OnlineReply) (hBack : Shielded back) :
      Reorder (front ++ .online i first :: .online j second :: back)
        (front ++ .online j second :: .online i first :: back)
  | trans {a b c : List Reply} : Reorder a b → Reorder b c → Reorder a c

def Reply.Full (nbrsets : Nat) : Reply → Prop
  | .addition reply => reply.parities.length = nbrsets
  | _ => True

theorem Reorder.perm {a b : List Reply} (h : Reorder a b) : a.Perm b := by
  induction h with
  | refl => exact List.Perm.refl _
  | additions front back first second => exact (List.Perm.swap _ _ back).append_left front
  | queries front back i j first second => exact (List.Perm.swap _ _ back).append_left front
  | trans _ _ ih₁ ih₂ => exact ih₁.trans ih₂

theorem deliver_lengths {c c' : PIRClient} {reply : Reply} {blks : List (Nat × Block)}
    (hFull : reply.Full c.nbrsets) (hLength : c.localhints.parities.length = c.nbrsets)
    (h : deliver c reply = .ok (c', blks)) :
    c'.nbrsets = c.nbrsets ∧ c'.localhints.parities.length = c.nbrsets := by
  cases reply with
  | online idx reply =>
    obtain ⟨⟨c₁, blk⟩, hRecov, h⟩ := (bind_eq_ok_iff _ _ _).mp h
    cases h
    rw [queryRecov_inv hRecov]
    exact ⟨rfl, hLength⟩
  | refresh reply =>
    obtain ⟨c₁, hRecov, h⟩ := (bind_eq_ok_iff _ _ _).mp h
    cases h
    rw [(refreshRecov_inv hRecov).2]
    exact ⟨rfl, (List.length_set ..).trans hLength⟩
  | addition reply =>
    rw [deliver, updateParity_eq hLength hFull] at h
    cases h
    refine ⟨rfl, ?_⟩
    rw [PIRClient.putParities, List.length_zipWith, hLength, hFull, Nat.min_self]

/-- Two outcomes of processing that agree up to the order of the recovered blocks and the record of
the last one. -/
def SameOutcome (out out' : PIRClient × List (Nat × Block)) : Prop :=
  (∃ blk, out'.1 = { out.1 with curQryBlk := blk }) ∧ out.2.Perm out'.2

theorem SameOutcome.trans {a b c : PIRClient × List (Nat × Block)} (h : SameOutcome a b)
    (h' : SameOutcome b c) : SameOutcome a c := by
  obtain ⟨⟨blk, hClient⟩, hPerm⟩ := h
  obtain ⟨⟨blk', hClient'⟩, hPerm'⟩ := h'
  exact ⟨⟨blk', by rw [hClient', hClient]⟩, hPerm.trans hPerm'⟩

theorem deliverAll_shielded {replies : List Reply} (hShielded : Shielded replies) {c : PIRClient}
    {out : PIRClient × List (Nat × Block)} (h : deliverAll c replies = .ok out) (blk : Block) :
    ∃ out', deliverAll { c with curQryBlk := blk } replies = .ok out' ∧ SameOutcome out out' := by
  induction replies generalizing c out with
  | nil =>
    cases h
    exact ⟨_, rfl, ⟨blk, rfl⟩, List.Perm.refl _⟩
  | cons reply rest ih =>
    obtain ⟨c₁, blks, out₁, hStep, hRest, rfl⟩ := (deliverAll_cons_eq_ok_iff ..).mp h
    cases reply with
    | online idx reply =>
      have hSame : deliver { c with curQryBlk := blk } (.online idx reply) = .ok (c₁, blks) := hStep
      exact ⟨_, (deliverAll_cons_eq_ok_iff ..).mpr ⟨c₁, blks, out₁, hSame, hRest, rfl⟩,
        ⟨out₁.1.curQryBlk, rfl⟩, List.Perm.refl _⟩
    | refresh reply => exact absurd hShielded id
    | addition reply =>
      obtain ⟨c', hUpdate, hStep⟩ := (bind_eq_ok_iff _ _ _).mp hStep
      cases hStep
      obtain ⟨parities, hParities, hUpdate⟩ := (bind_eq_ok_iff _ _ _).mp hUpdate
      cases hUpdate
      have hSame : deliver { c with curQryBlk := blk } (.addition reply) =
          .ok ({ c with
            curQryBlk := blk
            localhints := { c.localhints with
              parities := parities ++ c.localhints.parities.drop c.nbrsets } }, []) := by
        rw [deliver, PIRClient.updateParity, hParities]
        rfl
      obtain ⟨out', hTail, hOutcome⟩ := ih hShielded hRest
      exact ⟨_, (deliverAll_cons_eq_ok_iff ..).mpr ⟨_, [], out', hSame, hTail, rfl⟩, hOutcome⟩

theorem deliver_online {c c' : PIRClient} {idx : Nat} {reply : OnlineReply} {blks : List (Nat × Block)}
    (h : deliver c (.online idx reply) = .ok (c', blks)) :
    ∃ blk, c' = { c with curQryBlk := blk } ∧ blks = [(idx, blk)] ∧
      ∀ old, deliver { c with curQryBlk := old } (.online idx reply) = .ok (c', blks) := by
  obtain ⟨⟨c₁, blk⟩, hRecov, h⟩ := (bind_eq_ok_iff _ _ _).mp h
  obtain ⟨parity, hParity, hRecov⟩ := (bind_eq_ok_iff _ _ _).mp hRecov
  cases hRecov
  cases h
  refine ⟨_, rfl, rfl, ?_⟩
  intro old
  rw [deliver, PIRClient.queryRecov, hParity]
  rfl

theorem deliverAll_queries {c : PIRClient} {i j : Nat} {first second : OnlineReply} {back : List Reply}
    (hBack : Shielded back) {out : PIRClient × List (Nat × Block)}
    (h : deliverAll c (.online i first :: .online j second :: back) = .ok out) :
    ∃ out', deliverAll c (.online j second :: .online i first :: back) = .ok out' ∧ SameOutcome out out' := by
  obtain ⟨c₁, blks₁, out₁, hFirst, hTail, rfl⟩ := (deliverAll_cons_eq_ok_iff ..).mp h
  obtain ⟨c₂, blks₂, out₂, hSecond, hRest, rfl⟩ := (deliverAll_cons_eq_ok_iff ..).mp hTail
  obtain ⟨a, rfl, rfl, hFirst⟩ := deliver_online hFirst
  obtain ⟨b, rfl, rfl, hSecond⟩ := deliver_online hSecond
  obtain ⟨out', hRest', hClient, hPerm⟩ := deliverAll_shielded hBack hRest a
  refine ⟨(out'.1, [(j, b)] ++ ([(i, a)] ++ out'.2)), ?_, hClient, ?_⟩
  · exact (deliverAll_cons_eq_ok_iff ..).mpr ⟨_, _, _, hSecond c.curQryBlk,
      (deliverAll_cons_eq_ok_iff ..).mpr ⟨_, _, out', hFirst b, hRest', rfl⟩, rfl⟩
  · exact ((hPerm.cons _).cons _).trans (List.Perm.swap ..)

theorem deliverAll_additions {c : PIRClient} (hLength : c.localhints.parities.length = c.nbrsets)
    {first second : OfflineReply} (hFirst : first.parities.length = c.nbrsets)
    (hSecond : second.parities.length = c.nbrsets) (back : List Reply) :
    deliverAll c (.addition first :: .addition second :: back) =
      deliverAll c (.addition second :: .addition first :: back) := by
  have hZip : ∀ reply : OfflineReply, reply.parities.length = c.nbrsets →
      (c.putParities (List.zipWith (· ^^^ ·) c.localhints.parities
        reply.parities)).localhints.parities.length = c.nbrsets := by
    intro reply hReply
    rw [PIRClient.putParities, List.length_zipWith, hLength, hReply, Nat.min_self]
  simp only [deliverAll, deliver, updateParity_eq hLength hFirst, updateParity_eq hLength hSecond, ok_bind]
  rw [updateParity_eq (hZip first hFirst) hSecond, updateParity_eq (hZip second hSecond) hFirst]
  simp only [ok_bind, PIRClient.putParities, zipWith_xor_right_comm]

theorem deliverAll_append {tail tail' : List Reply} {nbrsets : Nat}
    (hSwap : ∀ c : PIRClient, c.nbrsets = nbrsets → c.localhints.parities.length = nbrsets →
      ∀ out, deliverAll c tail = .ok out → ∃ out', deliverAll c tail' = .ok out' ∧ SameOutcome out out')
    {front : List Reply} (hFull : ∀ reply ∈ front, reply.Full nbrsets) {c : PIRClient}
    (hSets : c.nbrsets = nbrsets) (hLength : c.localhints.parities.length = nbrsets)
    {out : PIRClient × List (Nat × Block)} (h : deliverAll c (front ++ tail) = .ok out) :
    ∃ out', deliverAll c (front ++ tail') = .ok out' ∧ SameOutcome out out' := by
  induction front generalizing c out with
  | nil => exact hSwap c hSets hLength out h
  | cons reply front ih =>
    obtain ⟨c₁, blks, out₁, hStep, hRest, rfl⟩ := (deliverAll_cons_eq_ok_iff ..).mp h
    have hHead := hFull reply List.mem_cons_self
    obtain ⟨hSets', hParities⟩ := deliver_lengths (hSets.symm ▸ hHead) (hLength.trans hSets.symm) hStep
    obtain ⟨out', hTail, hClient, hPerm⟩ := ih (fun r hr => hFull r (List.mem_cons_of_mem _ hr))
      (hSets'.trans hSets) (hParities.trans hSets) hRest
    exact ⟨_, (deliverAll_cons_eq_ok_iff ..).mpr ⟨c₁, blks, out', hStep, hTail, rfl⟩, hClient,
      hPerm.append_left blks⟩

theorem deliverAll_reorder {replies order : List Reply} (hOrder : Reorder replies order) {c : PIRClient}
    (hLength : c.localhints.parities.length = c.nbrsets)
    (hFull : ∀ reply ∈ replies, reply.Full c.nbrsets) {out : PIRClient × List (Nat × Block)}
    (h : deliverAll c replies = .ok out) :
    ∃ out', deliverAll c order = .ok out' ∧ SameOutcome out out' := by
  induction hOrder generalizing out with
  | refl => exact ⟨out, h, ⟨out.1.curQryBlk, rfl⟩, List.Perm.refl _⟩
  | additions front back first second =>
    have hFirst : first.parities.length = c.nbrsets := hFull (.addition first) (by simp)
    have hSecond : second.parities.length = c.nbrsets := hFull (.addition second) (by simp)
    refine deliverAll_append ?_ (fun reply hr => hFull reply (List.mem_append_left _ hr)) rfl hLength h
    intro c₁ hSets hParities out₁ h₁
    rw [deliverAll_additions (hParities.trans hSets.symm) (hFirst.trans hSets.symm)
      (hSecond.trans hSets.symm)] at h₁
    exact ⟨out₁, h₁, ⟨out₁.1.curQryBlk, rfl⟩, List.Perm.refl _⟩
  | queries front back i j first second hBack =>
    refine deliverAll_append ?_ (fun reply hr => hFull reply (List.mem_append_left _ hr)) rfl hLength h
    intro c₁ _ _ out₁ h₁
    exact deliverAll_queries hBack h₁
  | trans h₁ _ ih₁ ih₂ =>
    obtain ⟨out₁, hFirst, hSame₁⟩ := ih₁ hFull h
    obtain ⟨out₂, hSecond, hSame₂⟩ := ih₂ (fun reply hr => hFull reply (h₁.perm.mem_iff.mpr hr)) hFirst
    exact ⟨out₂, hSecond, hSame₁.trans hSame₂⟩

end Order

section Serial
variable (aes : Aes)

/-- What the record of the current query supports: online queries that all select the set `setno`,
and refreshes of that set for the index of the query before them. -/
def Allowed (setno : Nat) (s : Session) (current : Option Nat) : Request → Prop
  | .online idx draw => idx < s.client.dbrange ∧ s.client.search aes idx = .ok (some setno) ∧
      (∃ d, s.client.localhints.sets[setno]? = some d ∧ idx ∈ expansion aes s.client.mk d) ∧
      draw.coin = false
  | .refresh idx draw => idx < s.client.dbrange ∧ current = some idx ∧
      s.client.curQrySetno = setno ∧ setno < s.client.nbrsets ∧ draw.remove.coin = false
  | .addition blocks draw => s.client.dbrange + blocks.length ≤ 2 ^ 31 ∧
      s.client.Undrained blocks.length draw

def Request.current (current : Option Nat) : Request → Option Nat
  | .online idx _ => some idx
  | _ => current

def Serial (setno : Nat) : Session → Option Nat → List Request → Prop
  | _, _, [] => True
  | s, current, request :: rest => Allowed aes setno s current request ∧
      ∀ s' reply, sendRequest aes s request = .ok (s', reply) →
        Serial setno s' (request.current current) rest

theorem Serial.cons {aes : Aes} {setno : Nat} {s s' : Session} {current : Option Nat} {request : Request}
    {reply : Reply} {rest : List Request} (hAllowed : Allowed aes setno s current request)
    (hSend : sendRequest aes s request = .ok (s', reply))
    (hRest : Serial aes setno s' (request.current current) rest) :
    Serial aes setno s current (request :: rest) := by
  refine ⟨hAllowed, ?_⟩
  intro s₁ reply₁ hOk
  cases hSend.symm.trans hOk
  exact hRest

/-- A session whose hints wait for replies. -/
structure SessionWF (s : Session) : Prop where
  wf : ClientWF s.client
  nbrsets : s.server.nbrsets = s.client.nbrsets
  dbrange : s.server.dbrange = s.client.dbrange
  db_length : s.server.db.length = s.client.dbrange

/-- A client that has processed all replies to the requests generated up to `s`. -/
structure CaughtUp (s : Session) (current : Option Nat) (c : PIRClient) : Prop where
  nbrsets : c.nbrsets = s.client.nbrsets
  parities : c.localhints.parities = s.client.localhints.sets.map (setHint aes s.server.db s.client.mk)
  block : ∀ idx, current = some idx → c.curQryBlk = blockAt s.server.db idx

/-- Only the hints and the record of the recovered block differ. -/
structure SameSets (c c' : PIRClient) : Prop where
  build ::
  dbrange : c'.dbrange = c.dbrange
  setsize : c'.setsize = c.setsize
  nbrsets : c'.nbrsets = c.nbrsets
  sets : c'.localhints.sets = c.localhints.sets
  mk : c'.mk = c.mk
  curQrySetno : c'.curQrySetno = c.curQrySetno

/-- What sending a request from `s` and processing its reply achieves. -/
structure Served (setno : Nat) (s s' : Session) (current next : Option Nat) (reply : Reply) : Prop where
  build ::
  wf : SessionWF s'
  nbrsets : s'.client.nbrsets = s.client.nbrsets
  parities : s'.client.localhints.parities = s.client.localhints.parities
  curQryBlk : s'.client.curQryBlk = s.client.curQryBlk
  grows : ∃ v, s'.server.db = s.server.db ++ v
  full : reply.Full s.client.nbrsets
  curQrySetno : s'.client.curQrySetno = setno ∨
    s'.client.curQrySetno = s.client.curQrySetno ∧ ∃ r, reply = .addition r
  delivers : ∀ c, CaughtUp aes s current c → (c.curQrySetno = setno ∨ ∃ r, reply = .addition r) →
    ∃ c' blks, deliver c reply = .ok (c', blks) ∧ SameSets c c' ∧ CaughtUp aes s' next c' ∧
      ∀ p ∈ blks, p.1 < s'.server.db.length ∧ p.2 = blockAt s'.server.db p.1

variable {s : Session} (h : SessionWF s) {current : Option Nat} {setno : Nat}
include h

theorem served_online {idx : Nat} {draw : RemoveDraw}
    (hAllowed : Allowed aes setno s current (.online idx draw)) :
    ∃ s' reply, sendRequest aes s (.online idx draw) = .ok (s', reply) ∧
      Served aes setno s s' current (some idx) reply := by
  obtain ⟨hIdx, hFound, ⟨d, hSet, hMem⟩, hCoin⟩ := hAllowed
  have hWF := h.wf
  have hd := hWF.sets_wf d (List.mem_of_getElem? hSet)
  have hSelected : s.client.selected aes idx = setno := selected_of_search aes hWF hFound
  have hLoss : removalBlock (blockAt s.server.db) (listed aes s.client.mk d) draw idx =
      blockAt s.server.db idx := removalBlock_listed aes hMem hCoin _
  obtain ⟨t, hRemove, hReply⟩ := @removal_reply aes s.client hWF s.server h.db_length idx hIdx d hd
    draw (by simp [hCoin])
  rw [hLoss] at hReply
  have hOnline := generateOnlineQuery_eq aes hWF hIdx (hSelected ▸ hSet) hRemove
  refine ⟨⟨s.server, { s.client with curQrySetno := s.client.selected aes idx }⟩,
    .online idx ⟨setHint aes s.server.db s.client.mk d ^^^ blockAt s.server.db idx⟩, ?_,
    ⟨⟨hWF.current _ s.client.curQryBlk, h.nbrsets, h.dbrange, h.db_length⟩, rfl, rfl, rfl,
    ⟨[], (List.append_nil _).symm⟩, trivial, Or.inl hSelected, ?_⟩⟩
  · rw [sendRequest, hOnline, ok_bind]
    dsimp only
    rw [hReply, ok_bind]
  · intro c hCaught hSetno
    have hCurrent : c.curQrySetno = setno := by
      rcases hSetno with hSetno | ⟨r, hr⟩
      · exact hSetno
      · cases hr
    have hParity : c.localhints.parities[c.curQrySetno]? =
        some (setHint aes s.server.db s.client.mk d) := by
      rw [hCaught.parities, hCurrent, List.getElem?_map, hSet]
      rfl
    refine ⟨{ c with curQryBlk := blockAt s.server.db idx }, [(idx, blockAt s.server.db idx)], ?_,
      ⟨rfl, rfl, rfl, rfl, rfl, rfl⟩, ⟨hCaught.nbrsets, hCaught.parities, ?_⟩, ?_⟩
    · rw [deliver, PIRClient.queryRecov, elemAt_of_getElem? hParity, ok_bind]
      dsimp only
      rw [BitVec.xor_comm (setHint _ _ _ _), xor_xor_cancel_right]
      rfl
    · rintro i hi
      cases hi
      rfl
    · intro p hp
      rw [List.mem_singleton.mp hp]
      exact ⟨h.db_length ▸ hIdx, rfl⟩

theorem served_refresh {idx : Nat} {draw : RefreshDraw}
    (hAllowed : Allowed aes setno s current (.refresh idx draw)) :
    ∃ s' reply, sendRequest aes s (.refresh idx draw) = .ok (s', reply) ∧
      Served aes setno s s' current current reply := by
  obtain ⟨hIdx, hIndex, hSetno, hLt, hCoin⟩ := hAllowed
  have hWF := h.wf
  have hLength := hWF.sets_length
  let fresh := freshDesc aes s.client.dbrange s.client.setsize idx draw
  have hFresh : SetWF s.client.dbrange s.client.setsize fresh :=
    freshDesc_wf aes hWF.setsize_le hWF.setsize_pos idx draw
  have hMem : idx ∈ expansion aes s.client.mk fresh :=
    mem_freshDesc aes hWF.setsize_le hWF.dbrange_le hWF.setsize_pos s.client.mk hIdx draw
  have hLoss : removalBlock (blockAt s.server.db) (listed aes s.client.mk fresh) draw.remove idx =
      blockAt s.server.db idx := removalBlock_listed aes hMem hCoin _
  obtain ⟨t, hRemove, hReply⟩ := @removal_reply aes s.client hWF s.server h.db_length idx hIdx fresh
    hFresh draw.remove (by simp [hCoin])
  rw [hLoss] at hReply
  have hRefresh := generateRefreshQuery_eq aes hWF (hSetno ▸ hLt) idx hRemove
  refine ⟨⟨s.server, s.client.putSet s.client.curQrySetno fresh⟩,
    .refresh ⟨setHint aes s.server.db s.client.mk fresh ^^^ blockAt s.server.db idx⟩, ?_,
    ⟨⟨hWF.putSet hFresh _, h.nbrsets, h.dbrange, h.db_length⟩, rfl, rfl, rfl,
    ⟨[], (List.append_nil _).symm⟩, trivial, Or.inl hSetno, ?_⟩⟩
  · rw [sendRequest, hRefresh, ok_bind]
    dsimp only
    rw [hReply, ok_bind]
  · intro c hCaught hCurrent
    have hCurrent : c.curQrySetno = setno := by
      rcases hCurrent with hCurrent | ⟨r, hr⟩
      · exact hCurrent
      · cases hr
    have hBlock := hCaught.block idx hIndex
    have hStore : c.curQrySetno < c.localhints.parities.length := by
      rw [hCaught.parities, List.length_map, hCurrent, hLength]
      exact hLt
    refine ⟨c.putParity c.curQrySetno (setHint aes s.server.db s.client.mk fresh), [], ?_,
      ⟨rfl, rfl, rfl, rfl, rfl, rfl⟩, ⟨hCaught.nbrsets, ?_, hCaught.block⟩, ?_⟩
    · have hHint : setHint aes s.server.db s.client.mk fresh ^^^ blockAt s.server.db idx ^^^
          c.curQryBlk = setHint aes s.server.db s.client.mk fresh := by
        rw [hBlock, xor_xor_cancel_right]
      rw [deliver, PIRClient.refreshRecov, hHint, storeAt, if_pos hStore]
      rfl
    · change c.localhints.parities.set c.curQrySetno _ =
        (s.client.localhints.sets.set s.client.curQrySetno fresh).map _
      rw [List.map_set, hCaught.parities, hCurrent, hSetno]
      rfl
    · intro p hp
      cases hp

theorem served_addition {blocks : List Block} {draw : AddDraw}
    (hCurrent : ∀ idx, current = some idx → idx < s.client.dbrange)
    (hAllowed : Allowed aes setno s current (.addition blocks draw)) :
    ∃ s' reply, sendRequest aes s (.addition blocks draw) = .ok (s', reply) ∧
      Served aes setno s s' current current reply := by
  obtain ⟨hRange, hDraw⟩ := hAllowed
  have hWF := h.wf
  let server' : PIRServer := { s.server with
    db := s.server.db ++ blocks
    dbrange := u32 (s.server.dbrange + blocks.length) }
  let deltas := s.client.deltas aes server'.db blocks.length draw
  have hGrown : server'.db.length = s.client.dbrange + blocks.length := by
    rw [List.length_append, h.db_length]
  have hServer : server'.dbrange = s.client.dbrange + blocks.length := by
    change u32 (s.server.dbrange + blocks.length) = _
    rw [h.dbrange, u32_of_lt (by omega)]
  have hReply : server'.batchedAdditionReply aes (s.client.additionMessage blocks.length draw) =
      .ok ⟨deltas⟩ := batchedAdditionReply_eq aes hWF hDraw hRange h.nbrsets hGrown
  have hDeltas : deltas.length = s.client.nbrsets := length_deltas aes hWF _
  refine ⟨⟨server', s.client.added blocks.length draw⟩, .addition ⟨deltas⟩, ?_,
    ⟨⟨added_wf hWF hDraw hRange, h.nbrsets, hServer, hGrown⟩, rfl, rfl, rfl, ⟨blocks, rfl⟩, hDeltas,
    Or.inr ⟨rfl, _, rfl⟩, ?_⟩⟩
  · rw [sendRequest, PIRServer.addElements, if_neg (by simp), ok_bind,
      batchedAdditionQuery_eq hWF hDraw hRange, ok_bind]
    dsimp only
    rw [hReply, ok_bind]
  · intro c hCaught _
    have hLength : c.localhints.parities.length = c.nbrsets := by
      rw [hCaught.parities, List.length_map, hWF.sets_length, hCaught.nbrsets]
    have hUpdate := @updateParity_eq c hLength ⟨deltas⟩ (hDeltas.trans hCaught.nbrsets.symm)
    refine ⟨c.putParities (List.zipWith (· ^^^ ·) c.localhints.parities deltas), [],
      by rw [deliver, hUpdate]; rfl, ⟨rfl, rfl, rfl, rfl, rfl, rfl⟩,
      ⟨hCaught.nbrsets, ?_, ?_⟩, fun p hp => absurd hp List.not_mem_nil⟩
    · change List.zipWith (· ^^^ ·) c.localhints.parities deltas = _
      rw [hCaught.parities]
      exact zipWith_hints aes hWF h.db_length blocks s.client.mk _
    · intro idx hIdx
      have hLt := hCurrent idx hIdx
      rw [← h.db_length] at hLt
      exact (hCaught.block idx hIdx).trans (blockAt_append hLt blocks).symm

theorem served_request {request : Request} (hCurrent : ∀ idx, current = some idx → idx < s.client.dbrange)
    (hAllowed : Allowed aes setno s current request) :
    ∃ s' reply, sendRequest aes s request = .ok (s', reply) ∧
      Served aes setno s s' current (request.current current) reply ∧
      ∀ idx, request.current current = some idx → idx < s.client.dbrange := by
  cases request with
  | online idx draw =>
    obtain ⟨s', reply, hSend, hServed⟩ := served_online aes h hAllowed
    refine ⟨s', reply, hSend, hServed, ?_⟩
    rintro i hi
    cases hi
    exact hAllowed.1
  | refresh idx draw =>
    obtain ⟨s', reply, hSend, hServed⟩ := served_refresh aes h hAllowed
    exact ⟨s', reply, hSend, hServed, hCurrent⟩
  | addition blocks draw =>
    obtain ⟨s', reply, hSend, hServed⟩ := served_addition aes h hCurrent hAllowed
    exact ⟨s', reply, hSend, hServed, hCurrent⟩

structure ServedAll (setno : Nat) (s s' : Session) (current : Option Nat) (replies : List Reply) :
    Prop where
  build ::
  wf : SessionWF s'
  nbrsets : s'.client.nbrsets = s.client.nbrsets
  parities : s'.client.localhints.parities = s.client.localhints.parities
  curQryBlk : s'.client.curQryBlk = s.client.curQryBlk
  grows : ∃ v, s'.server.db = s.server.db ++ v
  full : ∀ reply ∈ replies, reply.Full s.client.nbrsets
  curQrySetno : s'.client.curQrySetno = setno ∨
    s'.client.curQrySetno = s.client.curQrySetno ∧ ∀ reply ∈ replies, ∃ r, reply = .addition r
  delivers : ∀ c, CaughtUp aes s current c →
    (c.curQrySetno = setno ∨ ∀ reply ∈ replies, ∃ r, reply = .addition r) →
    ∃ c' blks, deliverAll c replies = .ok (c', blks) ∧ SameSets c c' ∧
      c'.localhints.parities = s'.client.localhints.sets.map (setHint aes s'.server.db s'.client.mk) ∧
      ∀ p ∈ blks, p.2 = blockAt s'.server.db p.1

theorem served_all {requests : List Request} (hCurrent : ∀ idx, current = some idx → idx < s.client.dbrange)
    (hSerial : Serial aes setno s current requests) :
    ∃ s' replies, sendAll aes s requests = .ok (s', replies) ∧
      ServedAll aes setno s s' current replies := by
  induction requests generalizing s current with
  | nil =>
    refine ⟨s, [], rfl, ⟨h, rfl, rfl, rfl, ⟨[], (List.append_nil _).symm⟩, by simp,
      Or.inr ⟨rfl, by simp⟩, ?_⟩⟩
    intro c hCaught _
    exact ⟨c, [], rfl, ⟨rfl, rfl, rfl, rfl, rfl, rfl⟩, hCaught.parities, by simp⟩
  | cons request rest ih =>
    obtain ⟨hAllowed, hRest⟩ := hSerial
    obtain ⟨s₁, reply, hSend, hServed, hNext⟩ := served_request aes h hCurrent hAllowed
    obtain ⟨v, hv⟩ := hServed.grows
    have hLe : s.client.dbrange ≤ s₁.client.dbrange := by
      rw [← h.db_length, ← hServed.wf.db_length, hv, List.length_append]
      exact Nat.le_add_right _ _
    obtain ⟨s', replies, hAll, hTail⟩ := ih hServed.wf
      (fun idx hIdx => (hNext idx hIdx).trans_le hLe) (hRest s₁ reply hSend)
    obtain ⟨v', hv'⟩ := hTail.grows
    refine ⟨s', reply :: replies, ?_, ⟨hTail.wf, hTail.nbrsets.trans hServed.nbrsets,
      hTail.parities.trans hServed.parities, hTail.curQryBlk.trans hServed.curQryBlk,
      ⟨v ++ v', by rw [hv', hv, List.append_assoc]⟩, ?_, ?_, ?_⟩⟩
    · rw [sendAll, hSend, ok_bind]
      dsimp only
      rw [hAll, ok_bind]
    · intro r hr
      rcases List.mem_cons.mp hr with rfl | hr
      · exact hServed.full
      · exact hServed.nbrsets ▸ hTail.full r hr
    · rcases hTail.curQrySetno with hSetno | ⟨hSame, hAdditions⟩
      · exact Or.inl hSetno
      · rcases hServed.curQrySetno with hSetno | ⟨hSame', hAddition⟩
        · exact Or.inl (hSame.trans hSetno)
        · refine Or.inr ⟨hSame.trans hSame', ?_⟩
          intro r hr
          rcases List.mem_cons.mp hr with rfl | hr
          · exact hAddition
          · exact hAdditions r hr
    · intro c hCaught hSetno
      obtain ⟨c₁, blks, hDeliver, hKeep, hCaught₁, hBlocks⟩ := hServed.delivers c hCaught
        (hSetno.imp_right fun hAdditions => hAdditions reply List.mem_cons_self)
      obtain ⟨c', more, hDeliverAll, hKeep', hParities, hMore⟩ := hTail.delivers c₁ hCaught₁
        (hSetno.imp (hKeep.curQrySetno.trans ·)
          fun hAdditions r hr => hAdditions r (List.mem_cons_of_mem _ hr))
      refine ⟨c', blks ++ more, ?_, ⟨hKeep'.dbrange.trans hKeep.dbrange,
        hKeep'.setsize.trans hKeep.setsize, hKeep'.nbrsets.trans hKeep.nbrsets,
        hKeep'.sets.trans hKeep.sets, hKeep'.mk.trans hKeep.mk,
        hKeep'.curQrySetno.trans hKeep.curQrySetno⟩, hParities, ?_⟩
      · exact (deliverAll_cons_eq_ok_iff ..).mpr ⟨c₁, blks, (c', more), hDeliver, hDeliverAll, rfl⟩
      · intro p hp
        rcases List.mem_append.mp hp with hp | hp
        · obtain ⟨hLt, hBlock⟩ := hBlocks p hp
          rw [hBlock, hv']
          exact (blockAt_append hLt v').symm
        · exact hMore p hp

end Serial

/-- Outstanding requests that concern one set, with refreshes for the query before them, yield the
right blocks and exact hints when their replies are processed in the order of generation, up to
exchanges of neighbouring additions and of neighbouring queries. -/
theorem overlap_exact (aes : Aes) {s : Session} (h : SessionExact aes s) {current : Option Nat}
    (hCurrent : ∀ idx, current = some idx →
      idx < s.client.dbrange ∧ s.client.curQryBlk = blockAt s.server.db idx)
    {setno : Nat} {requests : List Request} (hSerial : Serial aes setno s current requests) :
    ∃ s' replies, sendAll aes s requests = .ok (s', replies) ∧
      ∀ order, Reorder replies order → ∃ c' blks, deliverAll s'.client order = .ok (c', blks) ∧
        (∀ p ∈ blks, p.2 = blockAt s'.server.db p.1) ∧ HintsExact aes s'.server.db c' := by
  obtain ⟨s', replies, hSend, hServed⟩ := served_all aes ⟨h.wf, h.nbrsets, h.dbrange, h.db_length⟩
    (fun idx hIdx => (hCurrent idx hIdx).1) hSerial
  refine ⟨s', replies, hSend, ?_⟩
  intro order hOrder
  have hCaught : CaughtUp aes s current s'.client :=
    ⟨hServed.nbrsets, hServed.parities.trans ((hintsExact_iff aes s.server.db h.wf).mp h.exact),
      fun idx hIdx => hServed.curQryBlk.trans (hCurrent idx hIdx).2⟩
  have hWF := hServed.wf.wf
  obtain ⟨c', blks, hDeliver, hKeep, hParities, hBlocks⟩ := hServed.delivers s'.client hCaught
    (hServed.curQrySetno.imp_right fun hSame => hSame.2)
  obtain ⟨⟨c'', blks'⟩, hReorder, ⟨blk, rfl⟩, hPerm⟩ := deliverAll_reorder hOrder hWF.parities_length
    (fun reply hr => hServed.nbrsets ▸ hServed.full reply hr) hDeliver
  have hWF' : ClientWF c' := by
    refine ⟨?_, ?_, ?_, ?_, ?_, ?_⟩
    · rw [hKeep.setsize]
      exact hWF.setsize_pos
    · rw [hKeep.setsize, hKeep.dbrange]
      exact hWF.setsize_le
    · rw [hKeep.dbrange]
      exact hWF.dbrange_le
    · rw [hKeep.sets, hKeep.nbrsets]
      exact hWF.sets_length
    · rw [hParities, List.length_map, hKeep.nbrsets]
      exact hWF.sets_length
    · rw [hKeep.sets, hKeep.dbrange, hKeep.setsize]
      exact hWF.sets_wf
  refine ⟨_, blks', hReorder, fun p hp => hBlocks p (hPerm.mem_iff.mpr hp), ?_⟩
  apply (hintsExact_iff aes s'.server.db (hWF'.current _ blk)).mpr
  change c'.localhints.parities = c'.localhints.sets.map (setHint aes s'.server.db c'.mk)
  rw [hParities, hKeep.sets, hKeep.mk]

def twinSession : Session :=
  ⟨⟨2, 1, 2, [5, 7]⟩, ⟨2, 1, 2, ⟨[⟨Vector.replicate 16 1, 1, [(2, 1)]⟩,
    ⟨Vector.replicate 16 0, 1, [(2, 1)]⟩], [5, 7]⟩, Vector.replicate 16 0, 0, 0⟩⟩

theorem twinSession_exact : SessionExact (fun key _ => key) twinSession where
  wf :=
    { setsize_pos := by decide
      setsize_le := by decide
      dbrange_le := by decide
      sets_length := rfl
      parities_length := rfl
      sets_wf := by
        intro d hd
        rcases List.mem_cons.mp hd with rfl | hd
        · exact setWF_single _ _ (by decide) (by decide)
        · rw [List.mem_singleton.mp hd]
          exact setWF_single _ _ (by decide) (by decide) }
  nbrsets := rfl
  dbrange := rfl
  db_length := rfl
  exact := by decide +kernel

/-- Two queries for index 0, a refresh for it, and two additions. -/
def twinRequests : List Request :=
  [.online 0 ⟨false, 0⟩, .online 0 ⟨false, 0⟩, .refresh 0 ⟨Vector.replicate 16 2, 0, ⟨false, 0⟩⟩,
    .addition [9] ⟨fun _ _ => 0, fun _ _ => true, fun _ _ => 0⟩,
    .addition [11] ⟨fun _ _ => 0, fun _ _ => true, fun _ _ => 0⟩]

def twinClient (dbrange : Nat) (first second : SetDesc) : PIRClient :=
  ⟨dbrange, 1, 2, ⟨[first, second], [5, 7]⟩, Vector.replicate 16 0, 0, 0⟩

def twinFinal : Session :=
  ⟨⟨4, 1, 2, [5, 7, 9, 11]⟩, twinClient 4 ⟨Vector.replicate 16 2, 0, [(2, 0), (1, 0), (1, 1)]⟩
    ⟨Vector.replicate 16 0, 1, [(2, 0), (1, 0), (1, 1)]⟩⟩

theorem twinRequests_serial : Serial (fun key _ => key) 0 twinSession none twinRequests := by
  let refreshed : Session := ⟨⟨2, 1, 2, [5, 7]⟩, twinClient 2 ⟨Vector.replicate 16 2, 0, [(2, 1)]⟩
    ⟨Vector.replicate 16 0, 1, [(2, 1)]⟩⟩
  let grown : Session := ⟨⟨3, 1, 2, [5, 7, 9]⟩, twinClient 3 ⟨Vector.replicate 16 2, 0, [(2, 0), (1, 1)]⟩
    ⟨Vector.replicate 16 0, 1, [(2, 0), (1, 1)]⟩⟩
  have hOnline (current : Option Nat) : Allowed (fun key _ => key) 0 twinSession current (.online 0 ⟨false, 0⟩) :=
    ⟨by decide, by decide +kernel, ⟨_, rfl, by decide +kernel⟩, rfl⟩
  have hSent : sendRequest (fun key _ => key) twinSession (.online 0 ⟨false, 0⟩) =
      .ok (twinSession, .online 0 ⟨0⟩) := by decide +kernel
  refine Serial.cons (hOnline _) hSent (Serial.cons (hOnline _) hSent ?_)
  refine @Serial.cons _ _ _ refreshed _ _ (.refresh ⟨0⟩) _ ⟨by decide, rfl, rfl, by decide, rfl⟩
    (by decide +kernel) ?_
  refine @Serial.cons _ _ _ grown _ _ (.addition ⟨[12, 14]⟩) _ ⟨by decide, by decide +kernel⟩
    (by decide +kernel) ?_
  exact @Serial.cons _ _ _ twinFinal _ _ (.addition ⟨[2, 2]⟩) _ ⟨by decide, by decide +kernel⟩
    (by decide +kernel) trivial

/-- The replies to the two additions are exchanged before they are processed. -/
theorem overlap_exact_twin :
    ∃ c' blks, deliverAll twinFinal.client [.online 0 ⟨0⟩, .online 0 ⟨0⟩, .refresh ⟨0⟩, .addition ⟨[2, 2]⟩,
        .addition ⟨[12, 14]⟩] = .ok (c', blks) ∧
      (∀ p ∈ blks, p.2 = blockAt [5, 7, 9, 11] p.1) ∧ HintsExact (fun key _ => key) [5, 7, 9, 11] c' := by
  obtain ⟨s', replies, hSend, hOrders⟩ := @overlap_exact (fun key _ => key) twinSession twinSession_exact none
    (by rintro idx ⟨⟩) 0 twinRequests twinRequests_serial
  have hSent : sendAll (fun key _ => key) twinSession twinRequests = .ok (twinFinal, [.online 0 ⟨0⟩, .online 0 ⟨0⟩,
      .refresh ⟨0⟩, .addition ⟨[12, 14]⟩, .addition ⟨[2, 2]⟩]) := by decide +kernel
  cases hSent.symm.trans hSend
  exact hOrders _ (Reorder.additions [.online 0 ⟨0⟩, .online 0 ⟨0⟩, .refresh ⟨0⟩] [] ⟨[12, 14]⟩ ⟨[2, 2]⟩)

def exchange (aes : Aes) (s : Session) (requests : List Request) (arrange : List Reply → List Reply) :
    Except Fault (PIRClient × List (Nat × Block)) := do
  let (s, replies) ← sendAll aes s requests
  deliverAll s.client (arrange replies)

/-- Three ways to go wrong: queries on two sets return a wrong block even in order, a query that is
overtaken by an addition returns a wrong block, and a refresh for another index than the query
before it stores a wrong hint. -/
theorem overlap_wrong :
    SessionExact (fun key _ => key) twinSession ∧
    blockAt twinSession.server.db 0 = 5 ∧
    (exchange (fun key _ => key) twinSession [.online 0 ⟨false, 0⟩, .online 1 ⟨false, 0⟩] id).map Prod.snd =
      .ok [(0, 7), (1, 7)] ∧
    (exchange (fun key _ => key) twinSession [.online 0 ⟨false, 0⟩,
        .addition [9] ⟨fun _ _ => 0, fun _ _ => true, fun _ _ => 0⟩] List.reverse).map Prod.snd =
      .ok [(0, 9)] ∧
    ∃ c, exchange (fun key _ => key) twinSession [.online 0 ⟨false, 0⟩,
        .refresh 1 ⟨Vector.replicate 16 2, 0, ⟨false, 0⟩⟩] id = .ok (c, [(0, 5)]) ∧
      ¬ HintsExact (fun key _ => key) twinSession.server.db c := by
  refine ⟨twinSession_exact, by decide +kernel, by decide +kernel, by decide +kernel,
    ⟨2, 1, 2, ⟨[⟨Vector.replicate 16 2, 1, [(2, 1)]⟩, ⟨Vector.replicate 16 0, 1, [(2, 1)]⟩], [5, 7]⟩,
      Vector.replicate 16 0, 0, 5⟩, by decide +kernel, by decide +kernel⟩

end IncPir
