import ReliableBT.Torrent.Receive

/-!
# Messages of a connection (`peerconn.go`)

`mainReadLoop` handles one message at a time with the client lock held. A handler that returns an
error ends the loop, and the connection is dropped before the lock is released. What a handler
does to the pieces a peer is known to have is where piece availability is kept.

Messages of the extension protocol arrive decoded (`Extended`). A metadata message that completes
the info is the event `setInfo` of `System.lean`; what the extension protocol, and the DHT, write
into the buffer is its event `wrote`. The upload limits depend on rates and statistics, so an
upload is any sequence of the things `upload` does (`UploadAction`).
-/

open Function

namespace ReliableBT

/-- Why a handler ends the connection. -/
inductive HandlerError where
  /-- `received fast extension message (type=%v) but extension is disabled` -/
  | fastDisabled
  /-- `invalid piece` -/
  | invalidPiece
  /-- `received duplicate request with fast enabled` -/
  | duplicateRequest
  /-- `peer requested chunk too long (%v)` -/
  | chunkTooLong (length : Nat)
  /-- `peer requested piece we don't have: %v` -/
  | missingPiece (index : Nat)
  /-- `chunk overflows piece` -/
  | chunkOverflows
  /-- `receiving chunk: %w` -/
  | receiving (err : ReceiveError)
  /-- `received invalid reject [request=%v]` -/
  | invalidReject (r : Request)
  /-- an error of `onReadExtendedMsg` -/
  | extended
  /-- `received unknown message type: %#v` -/
  | unknownType
  deriving Repr, DecidableEq

/-- A message of the extension protocol: a handshake with its `reqq` and whether it names
`ut_metadata`, a piece of metadata, or anything else; and whether its handler fails. -/
inductive Extended where
  | handshake (reqq : Int) (utMetadata failed : Bool)
  | metadata (failed : Bool)
  | other (failed : Bool)
  deriving Repr, DecidableEq

/-- A thing `upload` does. -/
inductive UploadAction where
  | unchoke
  | choke
  | sendChunk (r : Request)
  deriving Repr, DecidableEq

namespace Torrent

/-! ## Pieces the peer has -/

variable (t : Torrent)

/-- `onPeerHasAllPieces` -/
def onPeerHasAllPieces (p : Nat) : Except Panic Torrent := do
  let t ← doIf t.haveInfo t (t.decPieces (t.avail.peerPieces p))
  let t := t.addConnWithAllPieces p
  let t := { t with
    avail.peerSentHaveAll := update t.avail.peerSentHaveAll p true
    avail.peerPieces := update t.avail.peerPieces p Bitmap.empty }
  let t := if t.pendingPieces.isEmpty then t else t.updateRequests p .hasAllPieces
  t.maybeDropMutuallyCompletePeer p

/-- `peerSentHave`, for a piece it accepts and the peer did not have -/
def peerGotPiece (p i : Nat) : Except Panic Torrent := do
  let t ← t.incPieceAvailability i
  let t := { t with
    avail.peerPieces := update t.avail.peerPieces p ((t.avail.peerPieces p).add i) }
  let t := if t.wantPieceIndex i then t.updateRequests p .have_ else t
  t.maybeDropMutuallyCompletePeer p

/-- `peerSentHave` -/
def peerSentHave (p i : Nat) : Except Panic (Torrent × Option HandlerError) :=
  if t.haveInfo ∧ t.numPieces ≤ i then .ok (t, some .invalidPiece)
  else if t.peerHasPiece p i then .ok (t, none)
  else do
    let t ← t.peerGotPiece p i
    return (t, none)

/-- `boolSliceToBitmap` -/
def boolSliceToBitmap (bf : List Bool) : Bitmap :=
  (Bitmap.range bf.length).filter fun i => bf.getD i false

/-- `peerSentBitfield` ignores known excess pieces. -/
def knownPieces (bf : List Bool) : List Bool :=
  if t.haveInfo then bf.take t.numPieces else bf

/-- `peerSentBitfield` takes back that the peer has everything. -/
def takeBackHaveAll (p : Nat) : Except Panic Torrent := do
  let (t, ok) := t.deleteConnWithAllPieces p
  require ok .notInConnsWithAllPieces
  require (t.avail.peerPieces p).isEmpty .individualPeerPieces
  return { t with avail.peerSentHaveAll := update t.avail.peerSentHaveAll p false }

/-- An iteration of `peerSentBitfield` over the pieces that change. -/
def changePiece (p : Nat) (t : Torrent) (i : Nat) : Except Panic Torrent :=
  if i ∈ t.avail.peerPieces p then t.decPieceAvailability i else t.incPieceAvailability i

/-- The end of `peerSentBitfield`, where `changing` are the pieces that change. -/
def changePieces (p : Nat) (changing : Bitmap) : Except Panic Torrent := do
  let shouldUpdateRequests := changing.elems.any fun i =>
    decide (i ∉ t.avail.peerPieces p) && t.wantPieceIndex i
  let t ← changing.elems.foldlM (changePiece p) t
  let t := { t with
    avail.peerPieces := update t.avail.peerPieces p ((t.avail.peerPieces p).xor changing) }
  let t := if shouldUpdateRequests then t.updateRequests p .bitfield else t
  t.maybeDropMutuallyCompletePeer p

/-- `peerSentBitfield` -/
def peerSentBitfield (p : Nat) (bf : List Bool) : Except Panic Torrent := do
  require (bf.length % 8 = 0) .bitfieldLength
  let bm := boolSliceToBitmap (t.knownPieces bf)
  if t.haveInfo ∧ bm.card = t.numPieces then t.onPeerHasAllPieces p
  else if t.avail.peerSentHaveAll p then
    let t ← t.takeBackHaveAll p
    t.changePieces p bm
  else t.changePieces p (bm.xor (t.avail.peerPieces p))

/-- `peerSentHaveNone` -/
def peerSentHaveNone (p : Nat) : Except Panic Torrent := do
  let t ← doIf (!t.avail.peerSentHaveAll p) t (t.decPeerPieceAvailability p)
  let t := { t with
    avail.peerPieces := update t.avail.peerPieces p Bitmap.empty
    avail.peerSentHaveAll := update t.avail.peerSentHaveAll p false }
  t.maybeDropMutuallyCompletePeer p

/-! ## What the peer asks for -/

/-- `fastEnabled` -/
def fastEnabled (p : Nat) : Bool :=
  match t.kind p with
  | .conn fast _ => fast
  | .webseed _ => false

/-- `localClientReqq` -/
def localClientReqq : Nat := 1024

/-- `reject` -/
def reject (p : Nat) (r : Request) : Torrent :=
  let t := t.write p (msgLen { type := .reject })
  { t with up.peerRequests := update t.up.peerRequests p ((t.up.peerRequests p).erase r) }

/-- `if c.fastEnabled() { c.reject(r) }` -/
def rejectIfFast (p : Nat) (r : Request) : Torrent :=
  if t.fastEnabled p then t.reject p r else t

/-- `onReadRequest` -/
def onReadRequest (p : Nat) (r : Request) : Torrent × Option HandlerError :=
  if r ∈ t.up.peerRequests p then
    (t, if t.fastEnabled p then some .duplicateRequest else none)
  else if t.up.choking p then (t.rejectIfFast p r, none)
  else if localClientReqq ≤ (t.up.peerRequests p).length then (t.rejectIfFast p r, none)
  else if t.cfg.maximumPeerRequestChunkLength.any fun limit => decide (limit < r.length) then
    if t.fastEnabled p then (t.reject p r, none) else (t, some (.chunkTooLong r.length))
  else if !(t.haveInfo && t.pieceComplete r.index) then (t, some (.missingPiece r.index))
  else if chunkOverflowsPiece r.begin r.length (t.pieceLength r.index) then
    (t, some .chunkOverflows)
  else
    ({ t with
      up.peerRequests := update t.up.peerRequests p (r :: t.up.peerRequests p) }, none)

/-- `onPeerSentCancel` -/
def onPeerSentCancel (p : Nat) (r : Request) : Torrent :=
  if r ∉ t.up.peerRequests p then t
  else if t.fastEnabled p then t.reject p r
  else
    { t with
      up.peerRequests := update t.up.peerRequests p ((t.up.peerRequests p).erase r) }

/-- `choke` -/
def choke (p : Nat) : Torrent :=
  if t.up.choking p then t
  else
    let t := { t with up.choking := update t.up.choking p true }
    let t := t.write p (msgLen { type := .choke })
    if t.fastEnabled p then t
    else { t with up.peerRequests := update t.up.peerRequests p [] }

/-- `unchoke` -/
def unchoke (p : Nat) : Torrent :=
  if !t.up.choking p then t
  else
    let t := { t with up.choking := update t.up.choking p false }
    t.write p (msgLen { type := .unchoke })

/-- `sendChunk`, with the removal of the request by `upload` -/
def sendChunk (p : Nat) (r : Request) : Torrent :=
  if r ∈ t.up.peerRequests p ∧ !t.up.choking p then
    let t := t.write p (msgLen { type := .piece, piece := List.replicate r.length 0 })
    { t with
      up.peerRequests := update t.up.peerRequests p ((t.up.peerRequests p).erase r) }
  else t

/-- `upload` -/
def upload (p : Nat) (actions : List UploadAction) : Torrent :=
  actions.foldl (fun t action =>
    match action with
    | .unchoke => t.unchoke p
    | .choke => t.choke p
    | .sendChunk r => t.sendChunk p r) t

/-- `peerRequestDataReadFailed` -/
def peerRequestDataReadFailed (p : Nat) (r : Request) : Except Panic Torrent := do
  if t.closed then return t
  let t ← doIf (t.pieceComplete r.index) t (t.updatePieceCompletion r.index)
  return if t.fastEnabled p then t.reject p r else t.choke p

/-! ## The read loop -/

/-- `mainReadLoop`, a choke -/
def peerChoked (p : Nat) : Except Panic Torrent := do
  if t.ctl.peerChoking p then return t
  let t ← doIf (!t.fastEnabled p) t (t.deleteAllRequests p .chokedByNonFast)
  return { t with ctl.peerChoking := update t.ctl.peerChoking p true }

/-- `mainReadLoop`, an unchoke -/
def peerUnchoked (p : Nat) : Torrent :=
  if !t.ctl.peerChoking p then t
  else
    let t := { t with ctl.peerChoking := update t.ctl.peerChoking p false }
    if t.pendingPieces.isEmpty then t else t.updateRequests p .unchoked

/-- `mainReadLoop`, a change of interest -/
def peerInterest (p : Nat) (interested : Bool) : Torrent :=
  { t with ctl.peerInterested := update t.ctl.peerInterested p interested }

/-- `mainReadLoop`, a piece -/
def peerSentPiece (p index begin : Nat) (data : List UInt8) (now : Nat) :
    Except Panic (Torrent × Option HandlerError) := do
  let (t, err) ← t.receiveChunk p index begin data now
  return (t, err.map .receiving)

/-- `mainReadLoop`, a reject -/
def peerRejected (p : Nat) (r : Request) :
    Except Panic (Torrent × Option HandlerError) := do
  let (t, valid) ← t.remoteRejectedRequest p (t.requestIndexFromRequest r)
  return (t, if valid then none else some (.invalidReject r))

/-- `onReadExtendedMsg` -/
def onReadExtendedMsg (p : Nat) (ext : Extended) (now : Nat) :
    Torrent × Option HandlerError :=
  match ext with
  | .handshake reqq utMetadata failed =>
    ({ t with
      ctl.peerMaxRequests :=
        if reqq = 0 then t.ctl.peerMaxRequests else update t.ctl.peerMaxRequests p reqq
      ctl.supportsMetadata := update t.ctl.supportsMetadata p
        (t.ctl.supportsMetadata p || utMetadata) }, if failed then some .extended else none)
  | .metadata failed =>
    ({ t with
      ctl.lastUsefulChunkReceived := update t.ctl.lastUsefulChunkReceived p now },
      if failed then some .extended else none)
  | .other failed => (t, if failed then some .extended else none)

/-- A handler that cannot fail. -/
def handled (x : Except Panic Torrent) : Except Panic (Torrent × Option HandlerError) := do
  let t ← x
  return (t, none)

/-- The `switch` of `mainReadLoop`. -/
def handleMessage (p : Nat) (msg : Wire.Message) (ext : Extended) (now : Nat) :
    Except Panic (Torrent × Option HandlerError) :=
  let r : Request := ⟨msg.index.toNat, msg.begin.toNat, msg.length.toNat⟩
  if msg.keepalive then .ok (t, none)
  else if msg.type.fastExtension && !t.fastEnabled p then .ok (t, some .fastDisabled)
  else
    match msg.type with
    | .choke => handled (t.peerChoked p)
    | .unchoke => .ok (t.peerUnchoked p, none)
    | .interested => .ok (t.peerInterest p true, none)
    | .notInterested => .ok (t.peerInterest p false, none)
    | .have_ => t.peerSentHave p msg.index.toNat
    | .bitfield => handled (t.peerSentBitfield p msg.bitfield)
    | .request => .ok (t.onReadRequest p r)
    | .piece => t.peerSentPiece p msg.index.toNat msg.begin.toNat msg.piece now
    | .cancel => .ok (t.onPeerSentCancel p r, none)
    | .port => .ok (t, none)
    | .suggest => .ok (t.updateRequests p .suggested, none)
    | .haveAll => handled (t.onPeerHasAllPieces p)
    | .haveNone => handled (t.peerSentHaveNone p)
    | .reject => t.peerRejected p r
    | .allowedFast => .ok (t.updateRequests p .allowedFast, none)
    | .extended => .ok (t.onReadExtendedMsg p ext now)
    | .other _ => .ok (t, some .unknownType)

/-- `mainReadLoop` with the next message, and the deferred `dropConnection` if it returns. -/
def readMessage (p : Nat) (msg : Wire.Message) (ext : Extended) (now : Nat) :
    Except Panic Torrent :=
  if t.closed || t.avail.closed p then t.dropConnection p
  else do
    let (t, err) ← t.handleMessage p msg ext now
    if err.isSome then t.dropConnection p else return t

/-! ## The writer -/

/-- `fillWriteBuffer`: its check for the low-water mark has no consequence. `pex` is what the peer
exchange writes. -/
def fillWriteBuffer (p : Nat) (input : StrategyInput) (pops : List Nat) (pex : Nat)
    (actions : List UploadAction) : Except Panic Torrent := do
  let t ← t.maybeUpdateActualRequestState p input pops
  return (t.write p pex).upload p actions

end Torrent

end ReliableBT
