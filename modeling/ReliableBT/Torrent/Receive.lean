import ReliableBT.Torrent.Strategy

/-!
# Received chunks and piece hashing (`peerconn.go`, `torrent.go`, `storage/wrappers.go`)

`receiveChunk` and `pieceHasher` give up the client lock in the middle, so each is cut into the
parts that run in one go.

* A received chunk is taken off the books, marked as dirty and put in flight (`receiveChunk`).
  While it is in flight storage takes its bytes a few at a time (`writeChunk`). When the write
  returns, the chunk is pended again if it failed, and the piece is queued for hashing if this was
  its last (`chunkWritten`). A write may fail after any number of bytes.
* A hasher waits until its piece has no pending writes and then reads it a few bytes at a time
  (`hashPiece`). With the lock held it compares the hash (`pieceHasher`); if that is right it
  releases the lock, marks the piece complete in storage (`markComplete`) and takes the lock again
  (`pieceMarked`).

Which peers a hash result bans depends on statistics that are not modelled: they are an argument.
-/

open Function

namespace ReliableBT.Torrent

/-! ## Receiving a chunk -/

variable (t : Torrent)

/-- `receiveChunk` takes the request, outstanding or cancelled, off the books: whether there was
one. -/
def takeIntended (p req : Nat) : Except Panic (Torrent × Bool) := do
  let (t, deleted) ← t.deleteRequest p req
  return if deleted then (t, true) else t.removeCancelled p req

/-- `receiveChunk`, "request has been satisfied" -/
def requestSatisfied (p req : Nat) : Except Panic Torrent := do
  let (t, intended) ← t.takeIntended p req
  return if intended then t.updateIfLow p .deletedRequest else t

/-- `receiveChunk` cancels the request for the chunk at another peer. -/
def cancelOther (p req : Nat) : Except Panic Torrent :=
  match t.reqs.owner req with
  | none => .ok t
  | some q => if q = p then .error .pendingFromReceiver else t.cancel q req

/-- The second half of `receiveChunk` with the lock, for a chunk it goes on to write. -/
def beginWrite (w : ChunkWrite) (now : Nat) : Except Panic Torrent := do
  let t := { t with
    ctl.lastUsefulChunkReceived := update t.ctl.lastUsefulChunkReceived w.peer now
    writes.pendingWrites :=
      update t.writes.pendingWrites w.index (t.writes.pendingWrites w.index + 1) }
  let t ← t.unpendChunkIndex w.index (w.begin / t.cfg.chunkSize)
  let t ← t.cancelOther w.peer w.req
  return { t with writes.inFlight := t.writes.inFlight ++ [w] }

/-- `receiveChunk` up to where it releases the lock. -/
def receiveChunk (p index begin : Nat) (data : List UInt8) (now : Nat) :
    Except Panic (Torrent × Option ReceiveError) :=
  let ppReq : Request := ⟨index, begin, u32 data.length⟩
  match t.checkValidReceiveChunk ppReq with
  | some err => .ok (t, some err)
  | none =>
    let req := t.requestIndexFromRequest ppReq
    if t.reqs.validReceiveChunks p req = 0 then .ok (t, some .unexpected)
    else do
      let t ← t.decExpectedChunkReceive p req
      let t ← t.requestSatisfied p req
      if t.haveChunk index begin then return (t, none)
      let t ← t.beginWrite ⟨p, index, begin, data, req, 0⟩ now
      return (t, none)

/-! ## Writing it -/

/-- `storage.Piece.WriteAt`'s check. -/
def checkWrite (w : ChunkWrite) : Except Panic Unit :=
  require (w.begin + w.data.length ≤ t.metaPieceLength w.index) .writeOverflowsPiece

/-- Storage takes the bytes of a write from where it is up to, and without, `stop`. -/
def Storage.write (s : Storage) (w : ChunkWrite) (stop : Nat) : Storage :=
  { s with
    bytes := fun i k =>
      if i = w.index ∧ w.begin + w.written ≤ k ∧ k < w.begin + min stop w.data.length then
        w.data.getD (k - w.begin) 0
      else s.bytes i k }

/-- `writeChunk`, up to `stop` bytes. -/
def writeChunk (k stop : Nat) : Except Panic Torrent :=
  match t.writes.inFlight[k]? with
  | none => .ok t
  | some w => do
    t.checkWrite w
    return { t with
      storage := Storage.write t.storage w stop
      writes.inFlight :=
        t.writes.inFlight.set k { w with written := max w.written (min stop w.data.length) } }

/-- `decrementPendingWrites`, for the write at `k` -/
def decrementPendingWrites (k i : Nat) : Except Panic Torrent :=
  if t.writes.pendingWrites i = 0 then .error .pendingWrites
  else
    .ok { t with
      writes.pendingWrites :=
        update t.writes.pendingWrites i (t.writes.pendingWrites i - 1)
      writes.inFlight := t.writes.inFlight.eraseIdx k }

/-- The end of `receiveChunk` after a failed write. -/
def chunkWriteFailed (w : ChunkWrite) : Except Panic Torrent := do
  let t ← t.pendRequest w.req
  return t.updateRequests w.peer .errorWritingChunk

/-- A successful write covers its bytes of the piece. -/
def cover (w : ChunkWrite) : Torrent :=
  { t with
    writes.covered := fun r k => t.writes.covered r k ||
      (decide (t.pieceIndexOfRequestIndex r = w.index) && decide (w.begin ≤ k) &&
        decide (k < w.begin + w.data.length)) }

/-- The end of `receiveChunk` after a successful write. -/
def chunkStored (w : ChunkWrite) : Except Panic Torrent :=
  let t := t.cover w
  if t.pieceAllDirty w.index ∧ t.writes.pendingWrites w.index = 0 then t.queuePieceCheck w.index
  else .ok t

/-- `receiveChunk` from where it has the lock again. A short write is an error. -/
def chunkWritten (k : Nat) (ok : Bool) : Except Panic Torrent :=
  match t.writes.inFlight[k]? with
  | none => .ok t
  | some w => do
    t.checkWrite w
    let t ← t.decrementPendingWrites k w.index
    if ok ∧ w.written = w.data.length then t.chunkStored w else t.chunkWriteFailed w

/-! ## Hashing a piece -/

/-- The next bytes of the piece that a hasher reads. -/
def readPiece (i start n : Nat) : List UInt8 :=
  (List.range' start (min n (t.metaPieceLength i - start))).map (t.storage.bytes i)

/-- `hashPiece`: the end of `waitNoPendingWrites`, or `n` more bytes read. -/
def hashPiece (k n : Nat) : Torrent :=
  match t.hash.hashers[k]? with
  | some ⟨i, .waiting⟩ =>
    if t.writes.pendingWrites i = 0 then
      { t with hash.hashers := t.hash.hashers.set k ⟨i, .reading []⟩ }
    else t
  | some ⟨i, .reading bytes⟩ =>
    { t with
      hash.hashers :=
        t.hash.hashers.set k ⟨i, .reading (bytes ++ t.readPiece i bytes.length n)⟩ }
  | _ => t

/-- `dropBannedPeers`, and `banPeerIP`: the banned connections are dropped. -/
def dropBanned (p : Nat) : Except Panic Torrent :=
  if p ∈ t.avail.conns then t.dropConnection p else .ok t

/-- `peerImpl.ban` -/
def ban (p : Nat) : Except Panic Torrent :=
  if p ∈ t.avail.webSeeds then t.close p else t.dropBanned p

/-- `MarkComplete` and `MarkNotComplete`, which may fail. -/
def markComplete (i : Nat) (complete ok : Bool) : Torrent :=
  if ok then
    { t with storage.completion := update t.storage.completion i ⟨complete, true⟩ }
  else t

/-- `p.marking = b` -/
def setMarking (i : Nat) (b : Bool) : Torrent :=
  { t with hash.marking := update t.hash.marking i b }

/-- The end of `pieceHasher`. -/
def hasherDone (k i : Nat) : Except Panic Torrent := do
  let t ← t.updatePiecePriority i .pieceHasher
  let t := { t with
    hash.activePieceHashes := t.hash.activePieceHashes - 1
    hash.hashers := t.hash.hashers.eraseIdx k }
  t.tryCreateMorePieceHashers

/-- `pieceHashed` for a piece that failed. -/
def pieceFailed (i : Nat) (bans : List Nat) (ok : Bool) : Except Panic Torrent := do
  let t ← doIf (t.pieceAllDirty i) t (bans.foldlM ban t)
  require (i < t.numPieces) .indexOutOfRange
  let t := t.onIncompletePiece i
  let t := t.markComplete i false ok
  let t ← t.updatePieceCompletion i
  return t.setMarking i false

/-- `pieceHasher` from where it takes the lock, to its end or to where `pieceHashed` releases the
lock. -/
def pieceHasher (k : Nat) (drops bans : List Nat) (ok : Bool) :
    Except Panic Torrent :=
  match t.hash.hashers[k]? with
  | some ⟨i, .reading bytes⟩ => do
    let correct := t.cfg.hashOk i bytes
    let t ← doIf correct t (drops.foldlM dropBanned t)
    let t := { t with hash.hashing := update t.hash.hashing i false }
    if t.closed then t.hasherDone k i
    else
      let t := t.setMarking i true
      if correct then
        return { t with hash.hashers := t.hash.hashers.set k ⟨i, .marking bytes false⟩ }
      else
        let t ← t.pieceFailed i bans ok
        t.hasherDone k i
  | _ => .ok t

/-- `MarkComplete` returns to `pieceHashed`. -/
def markedComplete (k : Nat) (ok : Bool) : Torrent :=
  match t.hash.hashers[k]? with
  | some ⟨i, .marking bytes false⟩ =>
    let t := t.markComplete i true ok
    { t with hash.hashers := t.hash.hashers.set k ⟨i, .marking bytes true⟩ }
  | _ => t

/-- The bytes are what made the piece complete, if it is. -/
def setVerified (i : Nat) (bytes : List UInt8) : Torrent :=
  if t.pieceComplete i then
    { t with hash.verified := update t.hash.verified i (some bytes) }
  else t

/-- `pieceHashed` of a piece that passed, from where it has the lock again. -/
def piecePassed (i : Nat) (bytes : List UInt8) : Except Panic Torrent := do
  if t.closed then return t.setMarking i false
  require (i < t.numPieces) .indexOutOfRange
  let t := t.pendAllChunkSpecs i
  let t ← t.updatePieceCompletion i
  return (t.setVerified i bytes).setMarking i false

/-- `pieceHasher` from where `pieceHashed` has the lock again. -/
def pieceMarked (k : Nat) : Except Panic Torrent :=
  match t.hash.hashers[k]? with
  | some ⟨i, .marking bytes true⟩ => do
    let t ← t.piecePassed i bytes
    t.hasherDone k i
  | _ => .ok t

end ReliableBT.Torrent
