import IncPir.Adprp
import IncPir.Library.OrdSet

/-! # The client (`client.hpp`, `client.cpp`)

Every coin and every `rand()` value is an argument. An operation returns the
new client together with the message it produces; `std::set<uint32_t>` is an
ordered set of numbers.
-/

namespace IncPir
set_option autoImplicit false

structure PIRClient where
  build ::
  dbrange : Nat
  setsize : Nat
  nbrsets : Nat
  localhints : LocalHints
  mk : Key
  curQrySetno : Nat
  curQryBlk : Block
deriving DecidableEq

/-- The coin and the `rand()` value of one call of `probabilistic_remove`. -/
structure RemoveDraw where
  coin : Bool
  rand : Nat
deriving DecidableEq

structure RefreshDraw where
  nsk : Key
  rand : Nat
  remove : RemoveDraw

/-- `rand i s` and `coin i s` belong to element `i` and set `s` of a batch,
`fall s i` to the `i`-th index kicked out of set `s`. -/
structure AddDraw where
  rand : Nat → Nat → Nat
  coin : Nat → Nat → Bool
  fall : Nat → Nat → Nat

/-- The coin is 0 when the query index itself is to be removed. -/
def probabilisticRemove (s : OrdSet Nat) (draw : RemoveDraw) (idx : Nat) : Except Fault (OrdSet Nat) :=
  if draw.coin = false then .ok (s.erase idx)
  else do
    let s := s.erase idx
    let r ← modBy draw.rand s.size
    let it ← elemAt s.elems r
    .ok ((s.erase it).insert idx)

/-- The constructor; the two members that describe the current query stay uninitialized in
the code until the first online query. -/
def newPIRClient (dbrange setsize nbrsets : Nat) (mk : Key) (sk : Nat → Key) (rand : Nat → Nat) :
    Except Fault PIRClient := do
  let sets ← (List.range nbrsets).mapM fun s => do
    let shift ← modBy (rand s) dbrange
    .ok { sk := sk s, shift := shift, aux := [(dbrange, setsize)] }
  .ok ⟨dbrange, setsize, nbrsets, ⟨sets, List.replicate nbrsets 0⟩, mk, 0, 0⟩

namespace PIRClient

def generateOfflineQuery (c : PIRClient) : Except Fault OfflineQuery := do
  let sets ← (List.range c.nbrsets).mapM fun s => elemAt c.localhints.sets s
  .ok ⟨sets⟩

def updateParity (c : PIRClient) (offlineReply : OfflineReply) : Except Fault PIRClient := do
  let parities ← (List.range c.nbrsets).mapM fun s => do
    let old ← elemAt c.localhints.parities s
    let diff ← elemAt offlineReply.parities s
    .ok (old ^^^ diff)
  .ok { c with localhints :=
    { c.localhints with parities := parities ++ c.localhints.parities.drop c.nbrsets } }

end PIRClient

section Query
variable (aes : Aes) (mk : Key)

def searchInverse (d : SetDesc) (desiredIdx slot accumRange range : Nat) : Except Fault Nat :=
  if d.shift ≠ 0 ∧ slot = 0 then
    invCycleWalk aes (sub32 (u32 (desiredIdx + range)) d.shift % range) range d.sk
  else invCycleWalk aes (desiredIdx - accumRange) range (kdf aes mk d.sk slot)

/-- The slot loop of the search: whether it jumps to `Found` in this set. -/
def searchSlots (d : SetDesc) (desiredIdx : Nat) : Nat → Nat → Aux → Except Fault Bool
  | _, _, [] => .ok false
  | slot, accumRange, (range, count) :: rest =>
    if accumRange ≤ desiredIdx ∧ desiredIdx < u32 (accumRange + range) then do
      let inv ← searchInverse aes mk d desiredIdx slot accumRange range
      if inv < count then .ok true
      else searchSlots d desiredIdx (slot + 1) (u32 (accumRange + range)) rest
    else searchSlots d desiredIdx (slot + 1) (u32 (accumRange + range)) rest

/-- The set loop of the search over the `remaining` sets from number `s` on;
`none` stands for `setno = -1`. -/
def searchSets (sets : List SetDesc) (desiredIdx : Nat) : Nat → Nat → Except Fault (Option Nat)
  | 0, _ => .ok none
  | remaining + 1, s => do
    let d ← elemAt sets s
    let found ← searchSlots aes mk d desiredIdx 0 0 d.aux
    if found then .ok (some s) else searchSets sets desiredIdx remaining (s + 1)

def slotKey (sk : Key) (slot : Nat) : Key := if slot = 0 then sk else kdf aes mk sk slot

/-- The member that the expansion loop computes for position `x` of a slot. -/
def expandPoint (d : SetDesc) (slot accumRange range x : Nat) : Except Fault Nat := do
  let y ← cycleWalk aes x range (slotKey aes mk d.sk slot)
  let y := if d.shift ≠ 0 ∧ slot = 0 then u32 (y + d.shift) % range else y
  .ok (u32 (y + accumRange))

def expandSlots (dbrange : Nat) (d : SetDesc) : Nat → Nat → Aux → OrdSet Nat → Except Fault (OrdSet Nat)
  | _, _, [], tmp => .ok tmp
  | slot, accumRange, (range, count) :: rest, tmp =>
    -- the `continue` of the code also skips the update of the offset
    if count > dbrange then expandSlots dbrange d (slot + 1) accumRange rest tmp
    else do
      let tmp ← (List.range count).foldlM (fun tmp x => do
        let y ← expandPoint aes mk d slot accumRange range x
        .ok (tmp.insert y)) tmp
      expandSlots dbrange d (slot + 1) (u32 (accumRange + range)) rest tmp

/-- The expansion loop of `generate_online_query` on one set. -/
def expandSet (dbrange : Nat) (d : SetDesc) : Except Fault (OrdSet Nat) :=
  expandSlots aes mk dbrange d 0 0 d.aux OrdSet.empty

end Query

namespace PIRClient
variable (aes : Aes)

def search (c : PIRClient) (desiredIdx : Nat) : Except Fault (Option Nat) :=
  searchSets aes c.mk c.localhints.sets desiredIdx c.nbrsets 0

def generateOnlineQuery (c : PIRClient) (desiredIdx : Nat) (draw : RemoveDraw) :
    Except Fault (PIRClient × OnlineQuery) :=
  if desiredIdx ≥ c.dbrange then .error (.invalidArgument "query index invalid")
  else do
    let found ← c.search aes desiredIdx
    -- `setno = -1` prints a message that asks for a new setup and goes on with set 0
    let setno := found.getD 0
    let d ← elemAt c.localhints.sets setno
    let tmp ← expandSet aes c.mk c.dbrange d
    let tmp ← probabilisticRemove tmp draw desiredIdx
    .ok ({ c with curQrySetno := setno }, ⟨tmp.elems⟩)

def queryRecov (c : PIRClient) (onlineReply : OnlineReply) : Except Fault (PIRClient × Block) := do
  let parity ← elemAt c.localhints.parities c.curQrySetno
  let blk := onlineReply.parity ^^^ parity
  .ok ({ c with curQryBlk := blk }, blk)

def refreshRecov (c : PIRClient) (refreshReply : OnlineReply) : Except Fault PIRClient := do
  let parities ← storeAt c.localhints.parities c.curQrySetno (refreshReply.parity ^^^ c.curQryBlk)
  .ok { c with localhints := { c.localhints with parities := parities } }

def generateRefreshQuery (c : PIRClient) (desiredIdx : Nat) (draw : RefreshDraw) :
    Except Fault (PIRClient × OnlineQuery) := do
  let r ← modBy draw.rand c.setsize
  let y ← cycleWalk aes r c.dbrange draw.nsk
  let shift := sub32 (u32 (desiredIdx + c.dbrange)) y % c.dbrange
  let sets ← storeAt c.localhints.sets c.curQrySetno
    { sk := draw.nsk, shift := shift, aux := [(c.dbrange, c.setsize)] }
  let tmp ← (List.range c.setsize).foldlM (fun tmp i => do
    let v ← cycleWalk aes i c.dbrange draw.nsk
    .ok (tmp.insert (u32 (v + shift) % c.dbrange))) OrdSet.empty
  let tmp ← probabilisticRemove tmp draw.remove desiredIdx
  .ok ({ c with localhints := { c.localhints with sets := sets } }, ⟨tmp.elems⟩)

end PIRClient

/-- Position of the tuple whose first entry is `r`; `none` stands for the flag `-1`. -/
def isInTuple (r : Nat) (v : List (Nat × Nat)) : Option Nat := v.findIdx? fun t => t.1 == r

/-- The sampling loop for one set; the sets of a batch do not affect each other, so the loop over
them is outside. -/
def sampleLinfo (setsize prevRange nbrAdd : Nat) (rand : Nat → Nat) (coin : Nat → Bool) :
    Except Fault (List (Nat × Nat)) :=
  (List.range nbrAdd).foldlM (fun linfo i => do
    let curIdx := u32 (prevRange + i)
    let r ← modBy (rand i) setsize
    if coin i then
      match isInTuple r linfo with
      | some flag => .ok (linfo.modify flag fun t => (t.1, curIdx))
      | none => .ok (linfo ++ [(r, curIdx)])
    else .ok linfo) []

/-- The running sums `cntr`, taken before the first index is kicked out. -/
def counters : Nat → Aux → List Nat
  | _, [] => []
  | lsum, (_, count) :: rest => u32 (lsum + count) :: counters (lsum + count) rest

def countSum (aux : Aux) : Nat := (aux.map Prod.snd).sum

def kickSlot (cntr : List Nat) (fall : Nat) : Except Fault (Option Nat) := do
  let first ← elemAt cntr 0
  if fall < first then .ok (some 0)
  else .ok (((List.range (cntr.length - 1)).find? fun cnt =>
    decide (cntr.getD cnt 0 ≤ fall ∧ fall < cntr.getD (cnt + 1) 0)).map (· + 1))

def decrementCount (aux : Aux) : Option Nat → Aux
  | some slot => aux.modify slot fun t => (t.1, sub32 t.2 1)
  | none => aux

def kickOut (aux : Aux) (ell : Nat) (fall : Nat → Nat) : Except Fault Aux :=
  (List.range ell).foldlM (fun cur i => do
    let fall ← modBy (fall i) (u32 (countSum aux))
    let slot ← kickSlot (counters 0 aux) fall
    .ok (decrementCount cur slot)) aux

/-- The second loop of `batched_addition_query` on one set, with `ell` sampled indices. -/
def addToSet (nbrAdd ell : Nat) (fall : Nat → Nat) (d : SetDesc) :
    Except Fault (SetDesc × DiffSetDesc) := do
  let kicked ← kickOut d.aux ell fall
  let aux := kicked ++ [(nbrAdd, ell)]
  .ok ({ d with aux := aux }, { sk := d.sk, shift := d.shift, auxPrev := d.aux, auxCurr := aux })

def PIRClient.batchedAdditionQuery (c : PIRClient) (nbrAdd : Nat) (draw : AddDraw) :
    Except Fault (PIRClient × UpdateQueryAdd) := do
  let prevRange := c.dbrange
  let linfos ← (List.range c.nbrsets).mapM fun s =>
    sampleLinfo c.setsize prevRange nbrAdd (draw.rand · s) (draw.coin · s)
  let pairs ← (List.range c.nbrsets).mapM fun s => do
    let linfo ← elemAt linfos s
    let d ← elemAt c.localhints.sets s
    addToSet nbrAdd linfo.length (draw.fall s) d
  let sets := pairs.map Prod.fst ++ c.localhints.sets.drop c.nbrsets
  .ok ({ c with
      dbrange := u32 (prevRange + nbrAdd)
      localhints := { c.localhints with sets := sets } },
    ⟨c.nbrsets, c.setsize, c.mk, pairs.map Prod.snd⟩)

end IncPir
