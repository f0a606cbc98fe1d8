import ReliableBT.Torrent.Peers

/-!
# Piece priorities, completion and the hash queue (`torrent.go`, `piece.go`)

`updatePiecePriority` is the one place that brings a piece's cached state in line: its entry in
the piece request order and its membership of `_pendingPieces`. `updatePieceCompletion` reads the
completion of a piece from storage; when that has changed, chunks are pended, requests cancelled,
peers told, and mutually complete peers dropped. `queuePieceCheck` puts a piece in line for
hashing and starts hashers, of which there are at most two.
-/

open Function

namespace ReliableBT.Torrent

/-! ## Priorities -/

/-- An iteration of `piecePriorityChanged`. -/
def priorityChangedFor (i : Nat) (reason : UpdateReason) (t : Torrent) (p : Nat) : Torrent :=
  if !t.isLowOnRequests p then t
  else if !t.peerHasPiece p i then t
  else if t.ctl.interested p && t.ctl.peerChoking p && !decide (i ∈ t.ctl.peerAllowedFast p) then t
  else t.updateRequests p reason

variable (t : Torrent)

/-- `piecePriorityChanged` -/
def piecePriorityChanged (i : Nat) (reason : UpdateReason) : Torrent :=
  if i ∈ t.pendingPieces then t.iterPeers.foldl (priorityChangedFor i reason) t else t

/-- `updatePiecePriority` from the comparison with `_pendingPieces` on. -/
def updatePending (i : Nat) (reason : UpdateReason) : Torrent :=
  if t.uncachedPriority i = .none then
    if i ∈ t.pendingPieces then
      { t with pendingPieces := t.pendingPieces.remove i }.piecePriorityChanged i reason
    else t
  else
    if i ∈ t.pendingPieces then t
    else { t with pendingPieces := t.pendingPieces.add i }.piecePriorityChanged i reason

/-- `updatePiecePriority` -/
def updatePiecePriority (i : Nat) (reason : UpdateReason) : Except Panic Torrent := do
  let t ← doIf (!t.closed) t (t.updatePieceRequestOrder i)
  require (i < t.numPieces) .indexOutOfRange
  return t.updatePending i reason

/-- `updatePiecePriorities` -/
def updatePiecePriorities (start stop : Nat) (reason : UpdateReason) :
    Except Panic Torrent :=
  (List.range' start (stop - start)).foldlM (fun t i => t.updatePiecePriority i reason) t

/-! ## Dirty chunks -/

/-- `pendAllChunkSpecs` -/
def pendAllChunkSpecs (i : Nat) : Torrent :=
  let lo := t.pieceRequestIndexOffset i
  let hi := t.pieceRequestIndexOffset (i + 1)
  { t with
    dirtyChunks := t.dirtyChunks.removeRange lo hi
    writes.covered := fun r => if lo ≤ r ∧ r < hi then fun _ => false else t.writes.covered r }

/-- `pendRequest`, with `pendChunkIndex` -/
def pendRequest (r : Nat) : Except Panic Torrent :=
  if t.chunksPerRegularPiece = 0 then .error .divideByZero
  else
    let i := t.pieceIndexOfRequestIndex r
    if t.numPieces ≤ i then .error .indexOutOfRange
    else
      let r' := u32 (t.pieceRequestIndexOffset i + r % t.chunksPerRegularPiece)
      { t with
        dirtyChunks := t.dirtyChunks.remove r'
        writes.covered := update t.writes.covered r' fun _ => false
        }.updatePieceRequestOrder i

/-- `unpendChunkIndex` -/
def unpendChunkIndex (i chunk : Nat) : Except Panic Torrent :=
  { t with dirtyChunks := t.dirtyChunks.add (u32 (t.pieceRequestIndexOffset i + chunk))
    }.updatePieceRequestOrder i

/-! ## Completion -/

/-- `cancelRequestsForPiece` -/
def cancelRequestsForPiece (i : Nat) : Except Panic Torrent :=
  let start := t.pieceRequestIndexOffset i
  let stop := u32 (start + t.pieceNumChunks i)
  (List.range' start (stop - start)).foldlM (fun t r => t.cancelRequest r) t

/-- `PeerConn.have` -/
def have_ (p i : Nat) : Torrent :=
  if i ∈ t.buf.sentHaves p then t
  else
    let t := t.write p haveMsgLen
    { t with
      buf.sentHaves := update t.buf.sentHaves p ((t.buf.sentHaves p).add i)
      buf.announced := update t.buf.announced p (t.buf.announced p ++ [.have_ i]) }

/-- An iteration of `onPieceCompleted`; a connection dropped by an earlier one is not visited. -/
def pieceCompletedFor (i : Nat) (t : Torrent) (p : Nat) : Except Panic Torrent :=
  if p ∈ t.avail.conns then (t.have_ p i).maybeDropMutuallyCompletePeer p else .ok t

/-- `onPieceCompleted` -/
def onPieceCompleted (i : Nat) : Except Panic Torrent := do
  let t := t.pendAllChunkSpecs i
  let t ← t.cancelRequestsForPiece i
  t.avail.conns.foldlM (pieceCompletedFor i) t

/-- An iteration of `onIncompletePiece`. -/
def pieceIncompleteFor (i : Nat) (t : Torrent) (p : Nat) : Torrent :=
  if t.peerHasPiece p i then t.updateRequests p .pieceIncomplete else t

/-- `onIncompletePiece` -/
def onIncompletePiece (i : Nat) : Torrent :=
  let t := if t.pieceAllDirty i then t.pendAllChunkSpecs i else t
  if !t.wantPieceIndex i then t else t.iterPeers.foldl (pieceIncompleteFor i) t

/-- `pieceCompletionChanged` -/
def pieceCompletionChanged (i : Nat) (reason : UpdateReason) :
    Except Panic Torrent := do
  let t ← doIf (t.pieceComplete i) (t.onIncompletePiece i) (t.onPieceCompleted i)
  t.updatePiecePriority i reason

/-- `pieceCompleteUncached` -/
def pieceCompleteUncached (i : Nat) : Completion :=
  if !t.storageOpen then ⟨false, true⟩ else t.storage.completion i

/-- The completion of a piece, as the torrent has it: `Piece.completion`. -/
def completion (i : Nat) : Completion := ⟨t.pieceComplete i, t.comp.storageOk i⟩

/-- The assignments of `updatePieceCompletion`. A piece that is not complete has no verified
bytes. -/
def setCompletion (i : Nat) (c : Completion) : Torrent :=
  { t with
    comp.storageOk := update t.comp.storageOk i c.ok
    comp.completed := if c.complete then t.comp.completed.add i else t.comp.completed.remove i
    hash.verified :=
      if c.complete then t.hash.verified else update t.hash.verified i none }

/-- `updatePieceCompletion` -/
def updatePieceCompletion (i : Nat) : Except Panic Torrent := do
  require (i < t.numPieces) .indexOutOfRange
  let uncached := t.pieceCompleteUncached i
  let changed := decide (t.completion i ≠ uncached)
  let t := t.setCompletion i uncached
  let t ← t.updatePieceRequestOrder i
  doIf changed t (t.pieceCompletionChanged i .updatePieceCompletion)

/-! ## The hash queue -/

/-- `getPieceToHash` -/
def getPieceToHash : Option Nat :=
  t.hash.queued.elems.find? fun i => !t.hash.hashing i

/-- `tryCreatePieceHasher` takes the piece off the queue and marks it as hashing. -/
def beginHashing (i : Nat) : Torrent :=
  { t with
    hash.queued := t.hash.queued.remove i
    hash.hashing := update t.hash.hashing i true }

/-- `go t.pieceHasher(i)` -/
def spawnHasher (i : Nat) : Torrent :=
  { t with
    hash.activePieceHashes := t.hash.activePieceHashes + 1
    hash.hashers := t.hash.hashers ++ [⟨i, .waiting⟩] }

/-- `tryCreatePieceHasher`: whether a hasher was started. -/
def tryCreatePieceHasher : Except Panic (Torrent × Bool) :=
  if !t.storageOpen then .ok (t, false)
  else
    match t.getPieceToHash with
    | none => .ok (t, false)
    | some i => do
      let t := t.beginHashing i
      let t ← t.updatePiecePriority i .tryCreatePieceHasher
      return (t.spawnHasher i, true)

/-- The loop of `tryCreateMorePieceHashers`, `n` iterations at most. -/
def createPieceHashers : Nat → Torrent → Except Panic Torrent
  | 0, t => .ok t
  | n + 1, t =>
    if t.closed || decide (2 ≤ t.hash.activePieceHashes) then .ok t
    else do
      let (t, created) ← t.tryCreatePieceHasher
      if created then createPieceHashers n t else return t

/-- `tryCreateMorePieceHashers`: each iteration adds a hasher, so two are all there can be. -/
def tryCreateMorePieceHashers : Except Panic Torrent := createPieceHashers 2 t

/-- `queuePieceCheck` -/
def queuePieceCheck (i : Nat) : Except Panic Torrent := do
  require (i < t.numPieces) .indexOutOfRange
  if i ∈ t.hash.queued then return t
  let t := { t with hash.queued := t.hash.queued.add i }
  let t ← t.updatePiecePriority i .queuePieceCheck
  t.tryCreateMorePieceHashers

end ReliableBT.Torrent
