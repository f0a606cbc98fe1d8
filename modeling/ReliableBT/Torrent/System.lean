import ReliableBT.Torrent.Messages

/-!
# The torrent as a system (`torrent.go`, `client.go`, `t.go`, `file.go`, `reader.go`)

What happens to a torrent is a sequence of events, each of which runs with the client lock held (or
is a piece of work done without it: storage taking bytes, a hasher reading). `step` is what an
event does; an event that cannot happen in a state leaves it alone. `run step (Torrent.init ..)` is
a whole run, and it stops at the first panic.

Nothing is assumed about the order of events. Connections send any messages, writers run whenever
they like, webseed results and storage writes come back at any time, hashers read whenever they get
to it, and the application sets priorities, moves readers and asks for verification. Iteration
over the connections follows the list `conns`; the event `reorder` makes that any order.
-/

open Function List

namespace ReliableBT

/-- What can happen to a torrent. -/
inductive Event where
  /-- the info becomes known, from the application or the last piece of metadata -/
  | setInfo (info : Info)
  /-- `addPeerConn` and `sendInitialMessages` for a new connection -/
  | addConn (p : Nat) (fast transmission : Bool) (addr : Option (Nat × Nat))
  /-- `addWebSeed` -/
  | addWebSeed (p : Nat) (conforming : Bool) (addr : Option (Nat × Nat))
  /-- the next message in the connection's read loop -/
  | message (p : Nat) (msg : Wire.Message) (ext : Extended) (now : Nat)
  /-- `dropConnection`: the read loop ends, or there are too many connections -/
  | dropConn (p : Nat)
  /-- the connection's writer ends -/
  | closeConn (p : Nat)
  /-- a round of the connection's writer -/
  | fill (p : Nat) (input : StrategyInput) (pops : List Nat) (pex : Nat)
      (actions : List UploadAction)
  /-- the writer takes the buffer -/
  | flush (p : Nat)
  /-- a message of the extension protocol or of the DHT, of `n` bytes, is buffered -/
  | wrote (p n : Nat)
  /-- `peerRequestDataReadFailed` -/
  | readFailed (p : Nat) (r : Request)
  /-- a webseed's `handleUpdateRequests` -/
  | updateWebseed (p : Nat) (input : StrategyInput) (pops : List Nat)
  /-- a `requester` of the webseed starts its next request -/
  | webseedRequest (p : Nat)
  /-- the result of a webseed request, `none` for an error -/
  | webseedResult (p : Nat) (r : Request) (result : Option (List UInt8)) (now : Nat)
  /-- the end of `doRequest` -/
  | webseedDone (p : Nat) (r : Request)
  /-- storage takes bytes of a chunk in flight -/
  | writeChunk (k stop : Nat)
  /-- the write of a chunk in flight returns -/
  | chunkWritten (k : Nat) (ok : Bool)
  /-- a hasher gets on -/
  | hashPiece (k n : Nat)
  /-- a hasher has read its piece -/
  | pieceHasher (k : Nat) (drops bans : List Nat) (ok : Bool)
  /-- `MarkComplete` returns -/
  | markedComplete (k : Nat) (ok : Bool)
  /-- a hasher ends -/
  | pieceMarked (k : Nat)
  /-- `Piece.VerifyData` -/
  | verifyData (i : Nat)
  /-- `Piece.UpdateCompletion` -/
  | updateCompletion (i : Nat)
  /-- the completion of a piece in storage changes by itself -/
  | storageCompletion (i : Nat) (c : Completion)
  /-- `Piece.SetPriority` -/
  | setPriority (i : Nat) (prio : PiecePriority)
  /-- `File.SetPriority` -/
  | setFilePriority (k : Nat) (prio : PiecePriority)
  /-- `DownloadPieces` -/
  | downloadPieces (start stop : Nat)
  /-- `CancelPieces` -/
  | cancelPieces (start stop : Nat)
  /-- a reader's pieces change -/
  | readerMoved (id start stop : Nat)
  /-- a reader is closed -/
  | readerClosed (id : Nat)
  /-- a reader fails to read from piece `first` -/
  | readerFailed (id first : Nat)
  /-- `AllowDataUpload`, `DisallowDataUpload` -/
  | dataUpload (disallowed : Bool)
  /-- `addBaselineProvider` -/
  | addBaselineProvider (ip port : Nat)
  /-- connections are iterated over in this order from now on -/
  | reorder (conns : List Nat)
  /-- `Torrent.close` -/
  | close

namespace Torrent

/-! ## The info -/

variable (t : Torrent)

/-- `setInfo`, with fresh pieces and files. What else is kept for pieces cannot have been touched
without an info. -/
def setInfo (info : Info) : Except Panic Torrent :=
  if !info.slicesInRange then .error .sliceOutOfRange
  else
    .ok { t with
      info := some info
      avail.relative := fun _ => 0
      prio.file := fun _ => .none
      prio.piece := fun _ => .none }

/-- An iteration of `onSetInfo`. -/
def onSetInfoPiece (i : Nat) : Except Panic Torrent := do
  require (t.avail.relative i = 0) .availabilityBeforeInfo
  let t := { t with
    avail.relative :=
      update t.avail.relative i (t.selectivePieceAvailabilityFromPeers i) }
  let t ← t.addRequestOrderPiece i
  let t ← t.updatePieceCompletion i
  doIf (!t.cfg.initialPieceCheckDisabled && !t.comp.storageOk i) t (t.queuePieceCheck i)

/-- `webseedPeer.onGotInfo` -/
def webseedGotInfo (p : Nat) (conforming : Bool) : Except Panic Torrent :=
  let pieces := if conforming then Bitmap.range t.numPieces else Bitmap.empty
  let t := { t with avail.peerPieces := update t.avail.peerPieces p pieces }
  pieces.elems.foldlM (fun t i => t.incPieceAvailability i) t

/-- `peerImpl.onGotInfo` -/
def onGotInfo (p : Nat) : Except Panic Torrent :=
  match t.kind p with
  | .conn _ _ =>
    { t with
      avail.peerPieces :=
        update t.avail.peerPieces p ((t.avail.peerPieces p).below t.numPieces)
      }.maybeDropMutuallyCompletePeer p
  | .webseed conforming => t.webseedGotInfo p conforming

/-- An iteration of `onSetInfo` over the peers. -/
def onSetInfoPeer (p : Nat) : Except Panic Torrent := do
  let t ← t.onGotInfo p
  return t.updateRequests p .setInfo

/-- `setInfoBytesLocked`, with `onSetInfo` -/
def gotInfo (info : Info) : Except Panic Torrent := do
  if t.haveInfo then return t
  let t ← t.setInfo info
  let t ← (range t.numPieces).foldlM onSetInfoPiece t
  let t := { t with reqs.owner := fun _ => none }
  let t ← t.tryCreateMorePieceHashers
  t.iterPeers.foldlM onSetInfoPeer t

/-! ## Peers -/

/-- The tables of a new peer; it has no requests yet. -/
def newPeer (p : Nat) (kind : PeerKind) (addr : Option (Nat × Nat))
    (peerMaxRequests : Int) (choking : Bool) : Torrent :=
  { t with
    kind := update t.kind p kind
    remoteAddr := update t.remoteAddr p addr
    avail.peerIds := p :: t.avail.peerIds
    avail.closed := update t.avail.closed p false
    avail.peerPieces := update t.avail.peerPieces p Bitmap.empty
    avail.peerSentHaveAll := update t.avail.peerSentHaveAll p false
    ctl.peerMaxRequests := update t.ctl.peerMaxRequests p peerMaxRequests
    ctl.peerChoking := update t.ctl.peerChoking p choking
    buf.sentHaves := update t.buf.sentHaves p Bitmap.empty
    buf.announced := update t.buf.announced p []
    up.choking := update t.up.choking p true
    up.peerRequests := update t.up.peerRequests p [] }

/-- The message `a` about our pieces, of `n` bytes, is written, and `haves` is what the peer knows
then. -/
def announce (p n : Nat) (a : Announcement) (haves : Bitmap) : Torrent :=
  let t := t.write p n
  { t with
    buf.sentHaves := update t.buf.sentHaves p haves
    buf.announced := update t.buf.announced p (t.buf.announced p ++ [a]) }

/-- `bitfield` -/
def bitfield : List Bool := (range t.numPieces).map t.pieceComplete

/-- `postBitfield` after its check. -/
def bitfieldPosted (p : Nat) : Torrent :=
  if !t.haveAnyPieces then t
  else
    t.announce p (msgLen { type := .bitfield, bitfield := t.bitfield }) (.bitfield t.bitfield)
      t.comp.completed

/-- `postBitfield` -/
def postBitfield (p : Nat) : Except Panic Torrent := do
  require ((t.buf.sentHaves p).card = 0) .bitfieldNotFirst
  return t.bitfieldPosted p

/-- `sendInitialMessages`, the messages about our pieces -/
def sendInitialMessages (p : Nat) : Except Panic Torrent :=
  if t.fastEnabled p && t.haveAllPieces then
    .ok (t.announce p (msgLen { type := .haveAll }) (.haveAll t.numPieces)
      ((t.buf.sentHaves p).union (Bitmap.range t.numPieces)))
  else if t.fastEnabled p && !t.haveAnyPieces then
    .ok (t.announce p (msgLen { type := .haveNone }) .haveNone Bitmap.empty)
  else t.postBitfield p

/-- What `sendInitialMessages` comes to for a peer that has been told nothing yet. -/
def initialMessagesSent (p : Nat) : Torrent :=
  if t.fastEnabled p && t.haveAllPieces then
    t.announce p (msgLen { type := .haveAll }) (.haveAll t.numPieces) (Bitmap.range t.numPieces)
  else if t.fastEnabled p && !t.haveAnyPieces then
    t.announce p (msgLen { type := .haveNone }) .haveNone Bitmap.empty
  else t.bitfieldPosted p

/-- The connection is among those of the torrent. -/
def connJoined (p : Nat) (fast transmission : Bool) (addr : Option (Nat × Nat)) :
    Torrent :=
  { t.newPeer p (.conn fast transmission) addr 250 true with avail.conns := p :: t.avail.conns }

/-- `addPeerConn`, for a connection that it takes (see `Established.addPeerConn_events`), and
`sendInitialMessages` -/
def addPeerConn (p : Nat) (fast transmission : Bool) (addr : Option (Nat × Nat)) :
    Except Panic Torrent :=
  (t.connJoined p fast transmission addr).sendInitialMessages p

/-- What `addPeerConn` comes to. -/
def peerConnAdded (p : Nat) (fast transmission : Bool)
    (addr : Option (Nat × Nat)) : Torrent :=
  (t.connJoined p fast transmission addr).initialMessagesSent p

/-- `addWebSeed` -/
def addWebSeed (p : Nat) (conforming : Bool) (addr : Option (Nat × Nat)) :
    Except Panic Torrent := do
  let t := t.newPeer p (.webseed conforming) addr 128 false
  let t ← doIf t.haveInfo t (t.webseedGotInfo p conforming)
  return { t with avail.webSeeds := p :: t.avail.webSeeds }

/-- The peer is a connection. -/
def isConn (p : Nat) : Bool :=
  match t.kind p with
  | .conn _ _ => true
  | .webseed _ => false

/-- The connection's read loop is in the middle of `receiveChunk`. -/
def writing (p : Nat) : Bool := t.writes.inFlight.any fun w => decide (w.peer = p)

/-! ## Webseed requests -/

/-- `requester` and `doRequest`: the first request that is not active is started. -/
def webseedRequest (p : Nat) : Except Panic Torrent :=
  match ((t.reqs.requests p).order.map t.requestIndexToRequest).find? fun r =>
      decide ((p, r) ∉ t.reqs.active) with
  | none => .ok t
  | some r =>
    if t.info.any fun info => decide (info.totalLength ≤ r.index * info.pieceLength + r.begin) then
      .error .invalidRequest
    else
      .ok { t with
        reqs.active := (p, r) :: t.reqs.active
        reqs.running := (p, r) :: t.reqs.running }

/-- `requestResultHandler` -/
def requestResultHandler (p : Nat) (r : Request) (result : Option (List UInt8))
    (now : Nat) : Except Panic Torrent := do
  let t := { t with reqs.running := t.reqs.running.erase (p, r) }
  if t.closed then return t
  match result with
  | none =>
    let (t, valid) ← t.remoteRejectedRequest p (t.requestIndexFromRequest r)
    require valid .invalidReject
    return t
  | some bytes =>
    let (t, err) ← t.receiveChunk p r.index r.begin bytes now
    require (err = none) .webseedReceive
    return t

/-! ## The application -/

/-- `readerPiecePriorities` -/
def readerPiecePriorities (readers : List (Nat × Nat × Nat)) : Bitmap × Bitmap :=
  readers.foldl (fun (now, readahead) (_, start, stop) =>
    if start < stop then
      (now.add start, readahead.union (Bitmap.ofList (range' (start + 1) (stop - start - 1))))
    else (now, readahead)) (Bitmap.empty, Bitmap.empty)

/-- `updateReaderPieces` -/
def updateReaderPieces : Torrent :=
  { t with
    prio.now := (readerPiecePriorities t.prio.readers).1
    prio.readahead := (readerPiecePriorities t.prio.readers).2 }

/-- `readerPosChanged`, from one range of pieces to another -/
def readerPosChanged (old new : Nat × Nat) : Except Panic Torrent := do
  if old = new then return t
  let t := t.updateReaderPieces
  let (l, h) := if new.1 < old.1 then (new, old) else (old, new)
  if l.2 < h.1 then
    let t ← t.updatePiecePriorities l.1 l.2 .readerPosChanged
    t.updatePiecePriorities h.1 h.2 .readerPosChanged
  else t.updatePiecePriorities l.1 (max l.2 h.2) .readerPosChanged

/-- The pieces of a reader, none for a new one. -/
def readerPieces (id : Nat) : Nat × Nat := (t.prio.readers.lookup id).getD (0, 0)

/-- `addReader` and `posChanged` -/
def readerMoved (id start stop : Nat) : Except Panic Torrent :=
  let old := t.readerPieces id
  let readers := (id, start, stop) :: t.prio.readers.filter fun r => decide (r.1 ≠ id)
  { t with prio.readers := readers }.readerPosChanged old (start, stop)

/-- `deleteReader`, with `readersChanged` -/
def readerClosed (id : Nat) : Except Panic Torrent := do
  let t := { t with prio.readers := t.prio.readers.filter fun r => decide (r.1 ≠ id) }
  let t := t.updateReaderPieces
  require t.haveInfo .nilInfo
  t.updatePiecePriorities 0 t.numPieces .readersChanged

/-- `readOnceAt` after a failed read: the completion of the pieces the reader is at is read anew. -/
def readerFailed (id first : Nat) : Except Panic Torrent := do
  if t.closed then return t
  let t ← t.updatePieceCompletion first
  let (start, stop) := t.readerPieces id
  require (start = first) .readerPieces
  (range' (start + 1) (stop - (start + 1))).foldlM updatePieceCompletion t

/-- `Piece.SetPriority` -/
def setPriority (i : Nat) (prio : PiecePriority) : Except Panic Torrent :=
  { t with prio.piece := update t.prio.piece i prio }.updatePiecePriority i .setPriority

/-- `File.SetPriority` -/
def setFilePriority (info : Info) (k : Nat) (prio : PiecePriority) :
    Except Panic Torrent :=
  if prio = t.prio.file k then .ok t
  else
    { t with prio.file := update t.prio.file k prio }.updatePiecePriorities
      (info.beginPieceIndex k) (info.endPieceIndex k) .fileSetPriority

/-- An iteration of `downloadPiecesLocked`. -/
def downloadPiece (i : Nat) : Except Panic Torrent :=
  if t.numPieces ≤ i then .error .indexOutOfRange
  else if (t.prio.piece i).raise .normal = t.prio.piece i then .ok t
  else
    { t with
      prio.piece := update t.prio.piece i ((t.prio.piece i).raise .normal)
      }.updatePiecePriority i .downloadPieces

/-- An iteration of `cancelPiecesLocked`. -/
def cancelPiece (i : Nat) : Except Panic Torrent :=
  if t.numPieces ≤ i then .error .indexOutOfRange
  else if t.prio.piece i = .none then .ok t
  else
    { t with prio.piece := update t.prio.piece i .none }.updatePiecePriority i
      .cancelPieces

/-- `AllowDataUpload`, `DisallowDataUpload` -/
def setDataUpload (disallowed : Bool) : Torrent :=
  let t := { t with ctl.dataUploadDisallowed := disallowed }
  t.avail.conns.foldl (fun t p => t.updateRequests p .dataUpload) t

/-- `Torrent.close` -/
def closeTorrent : Except Panic Torrent := do
  if t.closed then return t
  let t := { t with closed := true }
  let t ← t.iterPeers.foldlM close t
  t.deletePieceRequestOrder.assertAllPiecesRelativeAvailabilityZero

/-! ## Steps -/

/-- What an event does. -/
def step : Event → Except Panic Torrent
  | .setInfo info => t.gotInfo info
  | .addConn p fast transmission addr =>
    if p ∈ t.avail.peerIds ∨ t.closed then .ok t else t.addPeerConn p fast transmission addr
  | .addWebSeed p conforming addr =>
    if p ∈ t.avail.peerIds then .ok t else t.addWebSeed p conforming addr
  | .message p msg ext now =>
    if p ∉ t.avail.conns ∨ t.writing p then .ok t else t.readMessage p msg ext now
  | .dropConn p =>
    if p ∉ t.avail.peerIds ∨ !t.isConn p then .ok t else t.dropConnection p
  | .closeConn p => if p ∉ t.avail.conns then .ok t else t.close p
  | .fill p input pops pex actions =>
    if p ∉ t.avail.conns ∨ t.avail.closed p then .ok t
    else t.fillWriteBuffer p input pops pex actions
  | .flush p => .ok { t with buf.len := update t.buf.len p 0 }
  | .wrote p n => .ok (t.write p n)
  | .readFailed p r => if p ∉ t.avail.peerIds then .ok t else t.peerRequestDataReadFailed p r
  | .updateWebseed p input pops =>
    if p ∉ t.avail.webSeeds then .ok t else t.maybeUpdateActualRequestState p input pops
  | .webseedRequest p =>
    if p ∉ t.avail.webSeeds ∨ t.avail.closed p then .ok t else t.webseedRequest p
  | .webseedResult p r result now =>
    if (p, r) ∉ t.reqs.running then .ok t else t.requestResultHandler p r result now
  | .webseedDone p r =>
    if (p, r) ∈ t.reqs.running ∨ t.writes.inFlight.any fun w =>
        decide (w.peer = p ∧ w.req = t.requestIndexFromRequest r) then .ok t
    else .ok { t with reqs.active := t.reqs.active.erase (p, r) }
  | .writeChunk k stop => t.writeChunk k stop
  | .chunkWritten k ok => t.chunkWritten k ok
  | .hashPiece k n => .ok (t.hashPiece k n)
  | .pieceHasher k drops bans ok => t.pieceHasher k drops bans ok
  | .markedComplete k ok => .ok (t.markedComplete k ok)
  | .pieceMarked k => t.pieceMarked k
  | .verifyData i => if t.numPieces ≤ i then .ok t else t.queuePieceCheck i
  | .updateCompletion i => if t.numPieces ≤ i then .ok t else t.updatePieceCompletion i
  | .storageCompletion i c =>
    .ok { t with storage.completion := update t.storage.completion i c }
  | .setPriority i prio => if t.numPieces ≤ i then .ok t else t.setPriority i prio
  | .setFilePriority k prio =>
    match t.info with
    | none => .ok t
    | some info =>
      if info.fileLengths.length ≤ k then .ok t else t.setFilePriority info k prio
  | .downloadPieces start stop => (range' start (stop - start)).foldlM downloadPiece t
  | .cancelPieces start stop => (range' start (stop - start)).foldlM cancelPiece t
  | .readerMoved id start stop =>
    if (start = 0 ∧ stop = 0) ∨ (start < stop ∧ stop ≤ t.numPieces) then
      t.readerMoved id start stop
    else .ok t
  | .readerClosed id => t.readerClosed id
  | .readerFailed id first => if t.numPieces ≤ first then .ok t else t.readerFailed id first
  | .dataUpload disallowed => .ok (t.setDataUpload disallowed)
  | .addBaselineProvider ip port =>
    if t.ctl.baselineProvider.isSome then .ok t
    else .ok { t with ctl.baselineProvider := some (ip, port) }
  | .reorder conns =>
    if conns.isPerm t.avail.conns then .ok { t with avail.conns := conns } else .ok t
  | .close => t.closeTorrent

end Torrent

end ReliableBT
