import ReliableBT.Torrent.Geometry

/-!
# The state of a torrent (`torrent.go`, `piece.go`, `peerconn.go`, `webseed-peer.go`)

`Torrent` is what the client lock protects: the source's `Torrent` with its pieces and its peers.
Peers are numbers that are never used twice; a peer is a connection (with or without the fast
extension, with or without Transmission's habit of not answering cancels) or a webseed. Piece
indexes, request indexes and peers are all natural numbers; the tables of the source are functions
of them, and a field of the source's `Peer` or `Piece` is such a table here.

The tables are grouped by what they are about, so that a function can be seen to leave the other
groups alone:

* `Avail`: who is connected and which pieces each peer has; `relativeAvailability`.
* `Reqs`: which chunk is requested from whom, on both sides of the bookkeeping.
* `Ctl`: what steers requests without being part of their bookkeeping (choking, interest, limits,
  pending updates).
* `Buf`: how much is waiting in each connection's write buffer.
* `Up`: whom we choke and what they have requested.
* `Prio`, `Comp`, `Hashing`: readers and priorities; completion; the piece hashers.
* `Writes`, `Storage`: chunk writes under way, and the bytes they are written to.

Three fields are history: the source does not have them, nothing reads them, and each is written
where the source changes what it is about. `Avail.moves` counts the changes of
`connsWithAllPieces` since the info is known; `Writes.covered` marks the bytes that a successful
write has covered since their chunk was last pended; `Hashing.verified` has the bytes whose hash
made a piece complete.

Left out: statistics, logging, callbacks and the events that only wake other goroutines; the peer
reserve and half-open connections; the upload limits, and the data read for an upload;
`peerTouchedPieces` and `dirtiers`, which only choose whom to ban.
-/

namespace ReliableBT

/-! ## Small types -/

/-- `PiecePriority` -/
inductive PiecePriority where
  | none
  | normal
  | high
  | readahead
  | next
  | now
  deriving Repr, DecidableEq

/-- The constants of `types.go`. -/
def PiecePriority.toNat : PiecePriority → Nat
  | .none => 0
  | .normal => 1
  | .high => 2
  | .readahead => 3
  | .next => 4
  | .now => 5

/-- `PiecePriority.Raise` -/
def PiecePriority.raise (prio maybe : PiecePriority) : PiecePriority :=
  if prio.toNat < maybe.toNat then maybe else prio

/-- The two implementations of `peerImpl`. A connection is `fast` if both sides have the fast
extension, `transmission` if the remote is Transmission; a webseed is `conforming` unless
`webseed.Client.SetInfo` finds its URL unfit for the info. -/
inductive PeerKind where
  | conn (fast transmission : Bool)
  | webseed (conforming : Bool)
  deriving Repr, DecidableEq

/-- `storage.Completion` -/
structure Completion where
  complete : Bool
  ok : Bool
  deriving Repr, DecidableEq

/-- `PieceRequestOrderState` -/
structure PieceRequestOrderState where
  priority : PiecePriority
  isPartial : Bool
  availability : Nat
  deriving Repr, DecidableEq

/-- The reasons given to `updateRequests`. -/
inductive UpdateReason where
  | have_
  | bitfield
  | hasAllPieces
  | unchoked
  | suggested
  | allowedFast
  | cancel
  | rejected
  | deletedRequest
  | errorWritingChunk
  | chokedByNonFast
  | deletePeerConn
  | webseedClosed
  | pieceIncomplete
  | setInfo
  | readersChanged
  | readerPosChanged
  | updatePieceCompletion
  | tryCreatePieceHasher
  | queuePieceCheck
  | pieceHasher
  | setPriority
  | fileSetPriority
  | downloadPieces
  | cancelPieces
  | dataUpload
  | timer
  deriving Repr, DecidableEq

/-- What `shouldRequest` has against a request. -/
inductive RequestFault where
  | invalidChunk
  | awaitingCancel
  | peerLacksPiece
  | notActive
  | closed
  | hashing
  | queuedForHash
  | choked
  deriving Repr, DecidableEq

/-- The panics of the modelled code, one constructor a place. -/
inductive Panic where
  /-- A nil `info` is dereferenced. -/
  | nilInfo
  /-- A nil `storage` is dereferenced. -/
  | nilStorage
  /-- `t.pieces[i]` out of range -/
  | indexOutOfRange
  /-- `files[beginFile:endFile]` out of range in `makePieces` -/
  | sliceOutOfRange
  /-- `ri / t.chunksPerRegularPiece()` with no chunks -/
  | divideByZero
  /-- `PieceRequestOrder.Add` -/
  | orderKeyExists
  /-- `PieceRequestOrder.Update` -/
  | orderKeyMissing
  /-- `decPieceAvailability` -/
  | decPieceAvailability
  /-- `onSetInfo` -/
  | availabilityBeforeInfo
  /-- `assertAllPiecesRelativeAvailabilityZero` -/
  | availabilityLeft
  /-- `readOnceAt`, the reader's pieces begin elsewhere -/
  | readerPieces
  /-- `peerSentBitfield`, length not divisible by 8 -/
  | bitfieldLength
  /-- `peerSentBitfield`, have-all peer not in `connsWithAllPieces` -/
  | notInConnsWithAllPieces
  /-- `peerSentBitfield`, have-all peer with pieces of its own -/
  | individualPeerPieces
  /-- `deletePeerConn`, connection is not closed -/
  | connNotClosed
  /-- `postBitfield`, pieces have been announced already -/
  | bitfieldNotFirst
  /-- `deletePeerConn`, no peers but some in `connsWithAllPieces` -/
  | connsWithAllPiecesLeft
  /-- `deleteRequest` -/
  | onlyOnePeer
  /-- `cancel`, no such request -/
  | requestNotExisting
  /-- `cancel`, already cancelled -/
  | alreadyCancelled
  /-- `deleteAllRequests` -/
  | requestShouldExist
  /-- `assertNoRequests` -/
  | requestsLeft
  /-- `cancelRequest` -/
  | requestStateLeft
  /-- `decExpectedChunkReceive` -/
  | notExpected
  /-- `receiveChunk` -/
  | pendingFromReceiver
  /-- `requestResultHandler`, invalid reject -/
  | invalidReject
  /-- `requestResultHandler`, error of `receiveChunk` -/
  | webseedReceive
  /-- `torrentRequestOffset` -/
  | invalidRequest
  /-- `request` -/
  | shouldRequest (fault : RequestFault)
  /-- `mustRequest` -/
  | tooManyRequests
  /-- `applyRequestState`, interest message -/
  | insufficientWriteBuffer
  /-- `applyRequestState`, requests left over -/
  | existingRequests
  /-- `applyRequestState`, requests -/
  | couldntFill
  /-- `storage.Piece.WriteAt` -/
  | writeOverflowsPiece
  /-- `decrementPendingWrites` -/
  | pendingWrites
  deriving Repr, DecidableEq

/-! ## Groups of tables -/

/-- Connections, webseeds and the pieces they have. -/
structure Avail where
  /-- Every peer there has been. -/
  peerIds : List Nat := []
  conns : List Nat := []
  webSeeds : List Nat := []
  /-- `Peer.closed` -/
  closed : Nat → Bool := fun _ => false
  /-- `PeerConn._peerPieces`, a webseed's `client.Pieces` -/
  peerPieces : Nat → Bitmap := fun _ => Bitmap.empty
  peerSentHaveAll : Nat → Bool := fun _ => false
  connsWithAllPieces : List Nat := []
  /-- `Piece.relativeAvailability` -/
  relative : Nat → Nat := fun _ => 0
  /-- History: changes of `connsWithAllPieces` with the info known. -/
  moves : Nat := 0

/-- Outstanding requests. -/
structure Reqs where
  /-- The peer in `Torrent.requestState` -/
  owner : Nat → Option Nat := fun _ => none
  requests : Nat → OrderedBitmap := fun _ => OrderedBitmap.empty
  cancelled : Nat → Bitmap := fun _ => Bitmap.empty
  validReceiveChunks : Nat → Nat → Nat := fun _ _ => 0
  /-- `webseedPeer.activeRequests`, with the webseed -/
  active : List (Nat × Request) := []
  /-- The active requests whose result `requestResultHandler` still waits for -/
  running : List (Nat × Request) := []

/-- What steers requests. -/
structure Ctl where
  needRequestUpdate : Nat → Option UpdateReason := fun _ => none
  peakRequests : Nat → Int := fun _ => 0
  peerMaxRequests : Nat → Int := fun _ => 0
  interested : Nat → Bool := fun _ => false
  peerChoking : Nat → Bool := fun _ => false
  peerInterested : Nat → Bool := fun _ => false
  peerAllowedFast : Nat → Bitmap := fun _ => Bitmap.empty
  lastUsefulChunkReceived : Nat → Nat := fun _ => 0
  /-- `supportsExtension("ut_metadata")` -/
  supportsMetadata : Nat → Bool := fun _ => false
  dataUploadDisallowed : Bool := false
  /-- `BaselineProvider`: address and port, `none` without an address -/
  baselineProvider : Option (Nat × Nat) := none

/-- A message to a peer about our pieces; `haveAll` with the number of pieces there are. -/
inductive Announcement where
  | bitfield (bits : List Bool)
  | haveAll (numPieces : Nat)
  | haveNone
  | have_ (index : Nat)
  deriving Repr, DecidableEq

/-- Write buffers. -/
structure Buf where
  /-- `messageWriter.writeBuffer.Len()` -/
  len : Nat → Nat := fun _ => 0
  sentHaves : Nat → Bitmap := fun _ => Bitmap.empty
  /-- History: what the peer has been told about our pieces, in order. -/
  announced : Nat → List Announcement := fun _ => []

/-- What the remote asks of us. -/
structure Up where
  choking : Nat → Bool := fun _ => true
  peerRequests : Nat → List Request := fun _ => []

/-- Readers and priorities. -/
structure Prio where
  /-- `Torrent.readers` with their `pieces` -/
  readers : List (Nat × Nat × Nat) := []
  /-- `_readerNowPieces` -/
  now : Bitmap := Bitmap.empty
  /-- `_readerReadaheadPieces` -/
  readahead : Bitmap := Bitmap.empty
  /-- `File.prio` -/
  file : Nat → PiecePriority := fun _ => .none
  /-- `Piece.priority` -/
  piece : Nat → PiecePriority := fun _ => .none

/-- Completion, as the torrent has it. -/
structure Comp where
  /-- `_completedPieces` -/
  completed : Bitmap := Bitmap.empty
  /-- `Piece.storageCompletionOk` -/
  storageOk : Nat → Bool := fun _ => false

/-- Where a `pieceHasher` goroutine is. -/
inductive HashPhase where
  /-- before `waitNoPendingWrites` has returned -/
  | waiting
  /-- copying the piece to the hash; the bytes so far -/
  | reading (bytes : List UInt8)
  /-- in `pieceHashed` without the client lock, after these bytes passed; whether
  `MarkComplete` has returned -/
  | marking (bytes : List UInt8) (marked : Bool)
  deriving Repr, DecidableEq

/-- A `pieceHasher` goroutine. -/
structure Hasher where
  piece : Nat
  phase : HashPhase
  deriving Repr, DecidableEq

/-- Piece hashing. -/
structure Hashing where
  /-- `piecesQueuedForHash` -/
  queued : Bitmap := Bitmap.empty
  hashing : Nat → Bool := fun _ => false
  marking : Nat → Bool := fun _ => false
  activePieceHashes : Nat := 0
  hashers : List Hasher := []
  /-- History: the bytes whose hash made the piece complete. -/
  verified : Nat → Option (List UInt8) := fun _ => none

/-- A `receiveChunk` that has released the lock to write: the message, its request index, and how
many bytes storage has taken. -/
structure ChunkWrite where
  peer : Nat
  index : Nat
  begin : Nat
  data : List UInt8
  req : Nat
  written : Nat
  deriving Repr, DecidableEq

/-- Chunk writes under way. -/
structure Writes where
  /-- `Piece.pendingWrites` -/
  pendingWrites : Nat → Nat := fun _ => 0
  inFlight : List ChunkWrite := []
  /-- History: for each chunk, the byte positions of its piece written since it was last pended. -/
  covered : Nat → Nat → Bool := fun _ _ => false

/-- The storage behind the torrent. -/
structure Storage where
  /-- the bytes of each piece, by offset -/
  bytes : Nat → Nat → UInt8 := fun _ _ => 0
  completion : Nat → Completion := fun _ => ⟨false, false⟩

/-- The configuration of client and torrent that the modelled code reads. -/
structure Config where
  /-- `storageOpener` is not nil -/
  hasStorage : Bool
  chunkSize : Nat
  chunkSize_pos : 0 < chunkSize
  chunkSize_lt : chunkSize < 2 ^ 32
  dropMutuallyCompletePeers : Bool
  noUpload : Bool
  seed : Bool
  disableAggressiveUpload : Bool
  initialPieceCheckDisabled : Bool
  maxUnverifiedBytes : Int
  /-- `maximumPeerRequestChunkLength` -/
  maximumPeerRequestChunkLength : Option Nat
  infoHash : Nat
  /-- the piece's hash is the hash of these bytes -/
  hashOk : Nat → List UInt8 → Bool

/-- `Torrent` -/
structure Torrent where
  cfg : Config
  closed : Bool := false
  info : Option Info := none
  kind : Nat → PeerKind := fun _ => .conn false false
  /-- the address and port of `RemoteAddr`, `none` if it has no IP address -/
  remoteAddr : Nat → Option (Nat × Nat) := fun _ => none
  avail : Avail := {}
  reqs : Reqs := {}
  ctl : Ctl := {}
  buf : Buf := {}
  up : Up := {}
  prio : Prio := {}
  comp : Comp := {}
  hash : Hashing := {}
  writes : Writes := {}
  storage : Storage := {}
  dirtyChunks : Bitmap := Bitmap.empty
  pendingPieces : Bitmap := Bitmap.empty
  /-- the torrent's keys in the client's piece request order -/
  order : Nat → Option PieceRequestOrderState := fun _ => none

/-- A fresh torrent over a given storage. -/
def Torrent.init (cfg : Config) (storage : Storage) : Torrent := { cfg, storage }

/-- Rank of a number: how many members of the bitmap are at most it. -/
def Bitmap.rank (bm : Bitmap) (k : Nat) : Nat := (bm.elems.filter (· ≤ k)).length

/-- `roaringBitmapRangeCardinality` at `uint32`, as a chunk count. -/
def roaringBitmapRangeCardinality (bm : Bitmap) (start stop : Nat) : Nat :=
  let card : Int := bm.rank (u32 (stop + 2 ^ 32 - 1))
  let card := if start ≠ 0 then card - bm.rank (start - 1) else card
  (card % 2 ^ 32).toNat

namespace Torrent

/-! ## Reading the state -/

variable (t : Torrent)

/-- `haveInfo` -/
def haveInfo : Bool := t.info.isSome

/-- `numPieces`, `0` without an info (where the source dereferences nil). -/
def numPieces : Nat := (t.info.map Info.numPieces).getD 0

/-- `t.storage != nil` -/
def storageOpen : Bool := t.haveInfo && t.cfg.hasStorage

/-- `pieceComplete` -/
def pieceComplete (i : Nat) : Bool := decide (i ∈ t.comp.completed)

/-- `wantPieceIndex` -/
def wantPieceIndex (i : Nat) : Bool := decide (i ∈ t.pendingPieces)

/-- `haveAllPieces` -/
def haveAllPieces : Bool :=
  t.haveInfo && decide (t.comp.completed.card = t.numPieces)

/-- `haveAnyPieces` -/
def haveAnyPieces : Bool := !t.comp.completed.isEmpty

/-- `needData` -/
def needData : Bool :=
  if t.closed then false
  else if !t.haveInfo then true
  else !t.pendingPieces.isEmpty

/-- `seeding` -/
def seeding : Bool :=
  !t.closed && !t.ctl.dataUploadDisallowed && !t.cfg.noUpload && t.cfg.seed &&
    !(t.cfg.disableAggressiveUpload && t.needData)

/-- `peerHasAllPieces`: all, and whether that is known. -/
def peerHasAllPieces (p : Nat) : Bool × Bool :=
  match t.kind p with
  | .conn _ _ =>
    if t.avail.peerSentHaveAll p then (true, true)
    else if !t.haveInfo then (false, false)
    else (decide ((t.avail.peerPieces p).card = t.numPieces), true)
  | .webseed _ =>
    if !t.haveInfo then (true, false)
    else (decide ((t.avail.peerPieces p).card = t.numPieces), true)

/-- `peerHasPiece` -/
def peerHasPiece (p i : Nat) : Bool :=
  if t.peerHasAllPieces p = (true, true) then true
  else decide (i ∈ t.avail.peerPieces p)

/-- `peerHasWantedPieces` -/
def peerHasWantedPieces (p : Nat) : Bool :=
  if (t.peerHasAllPieces p).1 then !t.haveAllPieces && !t.pendingPieces.isEmpty
  else if !t.haveInfo then !(t.avail.peerPieces p).isEmpty
  else (t.avail.peerPieces p).elems.any fun i => decide (i ∈ t.pendingPieces)

/-- `useful` -/
def useful (p : Nat) : Bool :=
  if t.avail.closed p then false
  else if !t.haveInfo then t.ctl.supportsMetadata p
  else (t.seeding && t.ctl.peerInterested p) || t.peerHasWantedPieces p

/-- The peers `iterPeers` visits, connections first. -/
def iterPeers : List Nat := t.avail.conns ++ t.avail.webSeeds

/-- `isLowOnRequests` -/
def isLowOnRequests (p : Nat) : Bool :=
  (t.reqs.requests p).isEmpty && (t.reqs.cancelled p).isEmpty

/-! ## Geometry of the torrent -/

/-- `pieceLength` -/
def pieceLength (i : Nat) : Nat := (t.info.map (·.pieceLen i)).getD 0

/-- `metainfo.Piece.Length` -/
def metaPieceLength (i : Nat) : Nat := (t.info.map (·.metaPieceLength i)).getD 0

/-- `chunksPerRegularPiece` -/
def chunksPerRegularPiece : Nat :=
  (t.info.map (·.chunksPerRegularPiece t.cfg.chunkSize)).getD 0

/-- `pieceNumChunks` -/
def pieceNumChunks (i : Nat) : Nat :=
  (t.info.map (·.pieceNumChunks t.cfg.chunkSize i)).getD 0

/-- `pieceRequestIndexOffset` -/
def pieceRequestIndexOffset (i : Nat) : Nat :=
  (t.info.map (·.pieceRequestIndexOffset t.cfg.chunkSize i)).getD 0

/-- `requestIndexFromRequest` -/
def requestIndexFromRequest (r : Request) : Nat :=
  u32 (t.pieceRequestIndexOffset r.index + r.begin / t.cfg.chunkSize)

/-- `requestIndexToRequest` -/
def requestIndexToRequest (ri : Nat) : Request :=
  (t.info.map (·.requestIndexToRequest t.cfg.chunkSize ri)).getD ⟨0, 0, 0⟩

/-- `pieceIndexOfRequestIndex` -/
def pieceIndexOfRequestIndex (ri : Nat) : Nat := ri / t.chunksPerRegularPiece

/-- `numDirtyChunks` -/
def numDirtyChunks (i : Nat) : Nat :=
  roaringBitmapRangeCardinality t.dirtyChunks (t.pieceRequestIndexOffset i)
    (t.pieceRequestIndexOffset (i + 1))

/-- `pieceAllDirty` -/
def pieceAllDirty (i : Nat) : Bool := decide (t.numDirtyChunks i = t.pieceNumChunks i)

/-- `pieceNumPendingChunks`, a `uint32` difference -/
def pieceNumPendingChunks (i : Nat) : Nat :=
  if t.pieceComplete i then 0 else u32 (t.pieceNumChunks i + 2 ^ 32 - t.numDirtyChunks i)

/-- `piecePartiallyDownloaded` -/
def piecePartiallyDownloaded (i : Nat) : Bool :=
  if t.pieceComplete i then false
  else if t.pieceAllDirty i then false
  else decide (t.numDirtyChunks i ≠ 0)

/-- `haveChunk` for a request with the given index and begin -/
def haveChunk (index begin : Nat) : Bool :=
  if !t.haveInfo then false
  else if t.pieceComplete index then true
  else decide (u32 (t.pieceRequestIndexOffset index + begin / t.cfg.chunkSize) ∈ t.dirtyChunks)

/-! ## Priorities and the order state -/

/-- `Piece.files`, as file indexes -/
def pieceFiles (i : Nat) : List Nat := (t.info.map (·.pieceFiles i)).getD []

/-- `purePriority` -/
def purePriority (i : Nat) : PiecePriority :=
  let ret : PiecePriority :=
    (t.pieceFiles i).foldl (fun (ret : PiecePriority) k => ret.raise (t.prio.file k)) .none
  let ret := if i ∈ t.prio.now then ret.raise .now else ret
  let ret := if i ∈ t.prio.readahead then ret.raise .readahead else ret
  ret.raise (t.prio.piece i)

/-- `uncachedPriority` -/
def uncachedPriority (i : Nat) : PiecePriority :=
  if t.hash.hashing i || t.hash.marking i || t.pieceComplete i || decide (i ∈ t.hash.queued) then
    .none
  else t.purePriority i

/-- `availability` -/
def availability (i : Nat) : Nat :=
  t.avail.connsWithAllPieces.length + t.avail.relative i

/-- `requestStrategyPieceOrderState` -/
def requestStrategyPieceOrderState (i : Nat) : PieceRequestOrderState :=
  ⟨t.purePriority i, t.piecePartiallyDownloaded i, t.availability i⟩

end Torrent

end ReliableBT
