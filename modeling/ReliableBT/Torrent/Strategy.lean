import ReliableBT.RequestStrategy.Budget
import ReliableBT.RequestStrategy.Preference
import ReliableBT.Torrent.Pieces

/-!
# Choosing and making requests (`requesting.go`, `peerconn.go`)

`GetRequestablePieces` scans the client's piece request order, which holds the torrent's pieces and
those of the other torrents that share its storage capacity. `getDesiredRequestState` turns what the
scan emits into the chunks wanted from one peer, with the rule that the baseline provider is asked
only for pieces whose recorded availability is at most one. `applyRequestState` makes the requests,
taking some over from other peers, and panics if the write buffer does not have the room.

The heap of `applyRequestState` compares requests by `lessByValue`, which looks at the times of
requests and at numbers that change while the heap is in use. What does not change are the stages
of the requests, and the model lets those of one stage be popped in any order (`popOrder`).
-/

open Function List

namespace ReliableBT

/-! ## The piece request order -/

/-- `PieceRequestOrderState`, with the priority as a byte. -/
def PieceRequestOrderState.toState (state : PieceRequestOrderState) : RequestStrategy.State :=
  ⟨.ofNat state.priority.toNat, state.isPartial, state.availability⟩

/-- An item of the piece request order. -/
abbrev OrderItem := RequestStrategy.Item

namespace RequestStrategy.Item

variable (item : RequestStrategy.Item)

/-- The torrent of an item. -/
def infoHash : Nat := item.key.infoHash

/-- The piece of an item. -/
def index : Nat := item.key.index.toNat

end RequestStrategy.Item

/-- What the rest of the client contributes to a scan: the items of other torrents, with what these
say of their pieces, and the storage capacity, if there is a limit. -/
structure StrategyInput where
  foreign : List OrderItem := []
  pieceLength : Nat → ℤ := fun _ => 0
  ignorePiece : Nat → ℤ → Bool := fun _ _ => false
  capacity : Option ℤ := none

/-- Why `checkValidReceiveChunk`, and after it `receiveChunk`, refuses a chunk. -/
inductive ReceiveError where
  /-- `torrent missing info` -/
  | missingInfo
  /-- `chunk index %v, torrent num pieces %v` -/
  | chunkIndex (index numPieces : Nat)
  /-- `chunk begins beyond end of piece (%v >= %v)` -/
  | chunkBegin (begin pieceLength : Nat)
  /-- `received unexpected chunk` -/
  | unexpected
  deriving Repr, DecidableEq

namespace Torrent

variable (t : Torrent)

/-- `IgnorePiece` -/
def ignorePiece (i : Nat) : Bool :=
  !t.wantPieceIndex i || decide (t.pieceNumPendingChunks i = 0)

/-- The torrent's own items in the piece request order. -/
def orderItems : List OrderItem :=
  (range t.numPieces).filterMap fun i => (t.order i).map fun state =>
    ⟨⟨t.cfg.infoHash, i⟩, state.toState⟩

/-- `getPieceRequestOrder` -/
def getPieceRequestOrder (input : StrategyInput) : RequestStrategy.PieceRequestOrder :=
  let foreign := input.foreign.filter fun item => decide (item.infoHash ≠ t.cfg.infoHash)
  let items := t.orderItems ++ foreign
  { tree := items.foldl OrderedSet.replaceOrInsert .empty
    keys := fun key => (items.find? fun item => decide (item.key = key)).map (·.state) }

/-- `getRequestStrategyInput` -/
def getRequestStrategyInput (input : StrategyInput) : RequestStrategy.Input where
  pieceLength infoHash := if infoHash = t.cfg.infoHash then (t.info.map Info.pieceLength).getD 0
    else input.pieceLength infoHash
  ignorePiece infoHash i := if infoHash = t.cfg.infoHash then t.ignorePiece i.toNat
    else input.ignorePiece infoHash i
  capacity := input.capacity
  maxUnverifiedBytes := t.cfg.maxUnverifiedBytes

/-- `GetRequestablePieces`: the items it emits, in order; the scan does not panic. -/
def getRequestablePieces (input : StrategyInput) : List OrderItem :=
  ((t.getRequestStrategyInput input).getRequestablePieces .ordering
    (t.getPieceRequestOrder input)).toOption.getD []

/-! ## Desired requests -/

/-- `isBaselineProvider` -/
def isBaselineProvider (p : Nat) : Bool :=
  match t.ctl.baselineProvider, t.remoteAddr p with
  | some (ip, port), some (ip', port') => decide (ip' = ip) && decide (port' = port % 2 ^ 16)
  | _, _ => false

/-- `desiredRequestState` -/
structure DesiredRequestState where
  requests : List Nat := []
  interested : Bool := false
  deriving Repr, DecidableEq

/-- `iterUndirtiedRequestIndexesInPiece` -/
def undirtiedRequestIndexes (i : Nat) : List Nat :=
  let start := t.pieceRequestIndexOffset i
  let stop := u32 (start + t.pieceNumChunks i)
  (range' start (stop - start)).filter fun r => decide (r ∉ t.dirtyChunks)

/-- A chunk of an emitted piece may be requested from the peer, or kept. -/
def mayRequest (p : Nat) (item : OrderItem) (r : Nat) : Bool :=
  (decide (item.index ∈ t.ctl.peerAllowedFast p) ||
      !(t.ctl.peerChoking p && decide (r ∉ t.reqs.requests p))) &&
    decide (r ∉ t.reqs.cancelled p) &&
    !(t.isBaselineProvider p && decide (1 < item.state.availability))

/-- The emitted pieces the peer has. -/
def requestablePieces (p : Nat) (input : StrategyInput) : List OrderItem :=
  (t.getRequestablePieces input).filter fun item =>
    decide (item.infoHash = t.cfg.infoHash) && t.peerHasPiece p item.index

/-- `getDesiredRequestState` -/
def getDesiredRequestState (p : Nat) (input : StrategyInput) :
    Except Panic DesiredRequestState :=
  if !t.haveInfo then .ok {}
  else if t.closed then .ok {}
  else if !t.cfg.hasStorage then .error .nilStorage
  else
    let pieces := t.requestablePieces p input
    .ok {
      requests := pieces.flatMap fun item =>
        (t.undirtiedRequestIndexes item.index).filter (t.mayRequest p item)
      interested := pieces.any fun item =>
        decide (item.index ∉ t.ctl.peerAllowedFast p) &&
          !(t.undirtiedRequestIndexes item.index).isEmpty }

/-! ## Making a request -/

/-- `checkValidReceiveChunk` -/
def checkValidReceiveChunk (r : Request) : Option ReceiveError :=
  if !t.haveInfo then some .missingInfo
  else if t.numPieces ≤ r.index then some (.chunkIndex r.index t.numPieces)
  else if t.pieceLength r.index ≤ r.begin then some (.chunkBegin r.begin (t.pieceLength r.index))
  else none

/-- What `shouldRequest` checks. -/
def requestFault (p r : Nat) : Option RequestFault :=
  let i := t.pieceIndexOfRequestIndex r
  if (t.checkValidReceiveChunk (t.requestIndexToRequest r)).isSome then some .invalidChunk
  else if r ∈ t.reqs.cancelled p then some .awaitingCancel
  else if !t.peerHasPiece p i then some .peerLacksPiece
  else if p ∉ t.iterPeers then some .notActive
  else if t.avail.closed p then some .closed
  else if t.hash.hashing i then some .hashing
  else if i ∈ t.hash.queued then some .queuedForHash
  else if t.ctl.peerChoking p ∧ i ∉ t.ctl.peerAllowedFast p ∧ r ∉ t.reqs.requests p then
    some .choked
  else none

/-- `shouldRequest`, whose errors `request` panics with -/
def shouldRequest (p r : Nat) : Except Panic Unit :=
  if t.chunksPerRegularPiece = 0 then .error .divideByZero
  else if t.numPieces ≤ t.pieceIndexOfRequestIndex r then .error .indexOutOfRange
  else
    match t.requestFault p r with
    | some fault => .error (.shouldRequest fault)
    | none => .ok ()

/-- The bookkeeping of `request`. -/
def addRequest (p r : Nat) : Torrent :=
  { t with
    reqs.requests := update t.reqs.requests p ((t.reqs.requests p).add r)
    reqs.validReceiveChunks := update t.reqs.validReceiveChunks p
      (update (t.reqs.validReceiveChunks p) r (t.reqs.validReceiveChunks p r + 1))
    reqs.owner := update t.reqs.owner r (some p) }

/-- `_request`: whether there is room for more. -/
def sendRequest (p : Nat) : Torrent × Bool :=
  match t.kind p with
  | .conn _ _ => let t := t.write p requestMsgLen; (t, t.writeOk p)
  | .webseed _ => (t, true)

/-- `mustRequest`, with `request` -/
def mustRequest (p r : Nat) : Except Panic (Torrent × Bool) := do
  t.shouldRequest p r
  if r ∈ t.reqs.requests p then return (t, true)
  require ((t.reqs.requests p).card < t.nominalMaxRequests p) .tooManyRequests
  return (t.addRequest p r).sendRequest p

/-! ## Applying a request state -/

/-- `setInterested`: whether there is room for more. -/
def setInterested (p : Nat) (interested : Bool) : Torrent × Bool :=
  if t.ctl.interested p = interested then (t, true)
  else
    let t := { t with ctl.interested := update t.ctl.interested p interested }
    match t.kind p with
    | .conn _ _ => let t := t.write p interestedMsgLen; (t, t.writeOk p)
    | .webseed _ => (t, true)

/-- `applyRequestState` leaves the request with the peer that has it: "don't steal from the
poor". -/
def leavesRequest (p existing : Nat) : Bool :=
  let diff : Int := (t.reqs.requests p).card + 1 - ((t.reqs.requests existing).card - 1)
  decide (1 < diff) || (decide (diff = 1) &&
    decide (t.ctl.lastUsefulChunkReceived p < t.ctl.lastUsefulChunkReceived existing))

/-- `applyRequestState` frees a request that another peer has, or leaves it there (`none`). -/
def takeRequest (p req : Nat) : Except Panic (Option Torrent) :=
  match t.reqs.owner req with
  | none => .ok (some t)
  | some existing =>
    if existing = p then .ok (some t)
    else if t.leavesRequest p existing then .ok none
    else do
      let t ← t.cancelRequest req
      return some t

/-- The loop of `applyRequestState` over the popped requests: whether there was room for all. -/
def applyRequests (p : Nat) : List Nat → Torrent → Except Panic (Torrent × Bool)
  | [], t => .ok (t, true)
  | req :: pops, t =>
    if t.nominalMaxRequests p ≤ ((t.reqs.requests p).card + (t.reqs.cancelled p).card : Nat) then
      .ok (t, true)
    else do
      match ← t.takeRequest p req with
      | none => applyRequests p pops t
      | some t =>
        let (t, more) ← t.mustRequest p req
        if more then applyRequests p pops t else return (t, false)

/-- The `desiredPeerRequests` of the heap, with what the torrent does not have: when requests were
made, and the random order of the pieces. -/
def desiredPeerRequests (p : Nat) (ml : Multiless) (when : Nat → Option ℤ)
    (pieceRequestOrder : List Nat) : RequestStrategy.DesiredPeerRequests where
  multiless := ml
  pieceStates := (range t.numPieces).map fun i =>
    ((t.order i).map PieceRequestOrderState.toState).getD {}
  peer := p
  peerChoking := t.ctl.peerChoking p
  peerAllowedFast i := decide (i ∈ t.ctl.peerAllowedFast p)
  chunksPerRegularPiece := t.chunksPerRegularPiece
  requestState r := ⟨t.reqs.owner r, when r⟩
  cardinality q := (t.reqs.requests q).card
  pieceRequestOrder := pieceRequestOrder

/-- The heap gives the request `a` out before `b`, or may do so. -/
def PopsBefore (p a b : Nat) : Prop :=
  let requests := t.desiredPeerRequests p .ordering (fun _ => none) []
  requests.stage a ≤ requests.stage b

instance (p : Nat) : DecidableRel (t.PopsBefore p) := fun _ _ => inferInstanceAs (Decidable (_ ≤ _))

/-- The order in which the heap gives the requests out: by stages. -/
def popOrder (p : Nat) (requests pops : List Nat) : List Nat :=
  if pops.isPerm requests ∧ pops.Pairwise (t.PopsBefore p) then pops
  else requests.insertionSort (t.PopsBefore p)

/-- The heap's comparison wants a request of an earlier stage first, whatever it finds in place of
what the torrent does not have. -/
theorem lessByValue_of_not_popsBefore {t : Torrent} {p a b : Nat} {ml : Multiless}
    {when : Nat → Option ℤ} {pieceRequestOrder : List Nat}
    (ha : (t.desiredPeerRequests p ml when pieceRequestOrder).Valid a)
    (hb : (t.desiredPeerRequests p ml when pieceRequestOrder).Valid b)
    (howned : ∀ r, (t.reqs.owner r).isSome → (when r).isSome) (h : ¬ t.PopsBefore p b a) :
    (t.desiredPeerRequests p ml when pieceRequestOrder).lessByValue a b = .ok true :=
  RequestStrategy.DesiredPeerRequests.lessByValue_of_stage_lt ha hb howned (lt_of_not_ge h)

/-- The end of `applyRequestState`. -/
def requestsUpdated (p originalRequestCount : Nat) : Torrent :=
  { t with
    ctl.peakRequests := update t.ctl.peakRequests p
      ((t.reqs.requests p).card - originalRequestCount : Int)
    ctl.needRequestUpdate := update t.ctl.needRequestUpdate p none }

/-- `applyRequestState` -/
def applyRequestState (p : Nat) (next : DesiredRequestState) (pops : List Nat) :
    Except Panic Torrent := do
  let pops := t.popOrder p next.requests pops
  let (t, room) := t.setInterested p next.interested
  require room .insufficientWriteBuffer
  let originalRequestCount := (t.reqs.requests p).card
  require (originalRequestCount = 0 ∨ t.ctl.needRequestUpdate p = some .timer) .existingRequests
  let (t, more) ← applyRequests p pops t
  require more .couldntFill
  return t.requestsUpdated p originalRequestCount

/-- `maybeUpdateActualRequestState` -/
def maybeUpdateActualRequestState (p : Nat) (input : StrategyInput)
    (pops : List Nat) : Except Panic Torrent :=
  if t.avail.closed p then .ok t
  else if (t.ctl.needRequestUpdate p).isNone then .ok t
  else do
    let next ← t.getDesiredRequestState p input
    t.applyRequestState p next pops

end Torrent

end ReliableBT
