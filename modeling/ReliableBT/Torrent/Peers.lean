import ReliableBT.Torrent.Requests

/-!
# Availability, closing and dropping peers (`torrent.go`, `peerconn.go`)

`incPieceAvailability` and `decPieceAvailability` keep `relativeAvailability`, the number of peers
outside `connsWithAllPieces` that have a piece, and each of them brings the piece's entry in the
client's piece request order up to date. `addConnWithAllPieces` and `deleteConnWithAllPieces`, which
change the availability of every piece at once, do not.

`close` is `Peer.close` for both kinds of peer; `dropConnection` closes a connection and takes it
out of `t.conns`.
-/

open Function

namespace ReliableBT.Torrent

/-! ## The piece request order -/

variable (t : Torrent)

/-- `updatePieceRequestOrder` -/
def updatePieceRequestOrder (i : Nat) : Except Panic Torrent :=
  if !t.storageOpen then .ok t
  else if t.numPieces ≤ i then .error .indexOutOfRange
  else if (t.order i).isNone then .error .orderKeyMissing
  else
    .ok { t with order := update t.order i (some (t.requestStrategyPieceOrderState i)) }

/-- `addRequestOrderPiece` -/
def addRequestOrderPiece (i : Nat) : Except Panic Torrent :=
  if !t.storageOpen then .ok t
  else if (t.order i).isSome then .error .orderKeyExists
  else
    .ok { t with order := update t.order i (some (t.requestStrategyPieceOrderState i)) }

/-- `deletePieceRequestOrder` -/
def deletePieceRequestOrder : Torrent :=
  if !t.storageOpen then t else { t with order := fun _ => none }

/-! ## Availability -/

/-- `incPieceAvailability` -/
def incPieceAvailability (i : Nat) : Except Panic Torrent :=
  if !t.haveInfo then .ok t
  else if t.numPieces ≤ i then .error .indexOutOfRange
  else
    { t with avail.relative := update t.avail.relative i (t.avail.relative i + 1)
      }.updatePieceRequestOrder i

/-- `decPieceAvailability` -/
def decPieceAvailability (i : Nat) : Except Panic Torrent :=
  if !t.haveInfo then .ok t
  else if t.numPieces ≤ i then .error .indexOutOfRange
  else if t.avail.relative i = 0 then .error .decPieceAvailability
  else
    { t with avail.relative := update t.avail.relative i (t.avail.relative i - 1)
      }.updatePieceRequestOrder i

/-- `addConnWithAllPieces` -/
def addConnWithAllPieces (p : Nat) : Torrent :=
  if p ∈ t.avail.connsWithAllPieces then t
  else
    { t with
      avail.connsWithAllPieces := p :: t.avail.connsWithAllPieces
      avail.moves := if t.haveInfo then t.avail.moves + 1 else t.avail.moves }

/-- `deleteConnWithAllPieces`: whether the peer was there. -/
def deleteConnWithAllPieces (p : Nat) : Torrent × Bool :=
  if p ∈ t.avail.connsWithAllPieces then
    ({ t with
      avail.connsWithAllPieces := t.avail.connsWithAllPieces.erase p
      avail.moves := if t.haveInfo then t.avail.moves + 1 else t.avail.moves }, true)
  else (t, false)

/-- The loop of `decPieceAvailability` over a peer's pieces. -/
def decPieces (pieces : Bitmap) : Except Panic Torrent :=
  pieces.elems.foldlM (fun t i => t.decPieceAvailability i) t

/-- `decPeerPieceAvailability` -/
def decPeerPieceAvailability (p : Nat) : Except Panic Torrent :=
  match t.deleteConnWithAllPieces p with
  | (t, true) => .ok t
  | (t, false) => if !t.haveInfo then .ok t else t.decPieces (t.avail.peerPieces p)

/-- `selectivePieceAvailabilityFromPeers` -/
def selectivePieceAvailabilityFromPeers (i : Nat) : Nat :=
  t.iterPeers.countP fun p => decide (p ∉ t.avail.connsWithAllPieces) && t.peerHasPiece p i

/-- `assertAllPiecesRelativeAvailabilityZero` -/
def assertAllPiecesRelativeAvailabilityZero : Except Panic Torrent :=
  if (List.range t.numPieces).all fun i => decide (t.avail.relative i = 0) then .ok t
  else .error .availabilityLeft

/-! ## Closing and dropping -/

/-- `peerImpl.onClose` -/
def onClose (p : Nat) : Except Panic Torrent :=
  match t.kind p with
  | .conn _ _ => .ok t
  | .webseed _ => do
    let t ← t.cancelAllRequests p
    return t.updateLowPeers .webseedClosed

/-- `Peer.close` -/
def close (p : Nat) : Except Panic Torrent :=
  if t.avail.closed p then .ok t
  else do
    let t := { t with avail.closed := update t.avail.closed p true }
    let t ← t.onClose p
    t.decPeerPieceAvailability p

/-- `deletePeerConn` -/
def deletePeerConn (p : Nat) : Except Panic Torrent := do
  require (t.avail.closed p) .connNotClosed
  let t := { t with avail.conns := t.avail.conns.erase p }
  let t ← t.deleteAllRequests p .deletePeerConn
  require (t.iterPeers ≠ [] ∨ t.avail.connsWithAllPieces = []) .connsWithAllPiecesLeft
  return t

/-- `dropConnection` -/
def dropConnection (p : Nat) : Except Panic Torrent := do
  let t ← t.close p
  t.deletePeerConn p

/-- `peerImpl.drop` -/
def drop (p : Nat) : Except Panic Torrent :=
  match t.kind p with
  | .conn _ _ => t.dropConnection p
  | .webseed _ => .ok t

/-- `maybeDropMutuallyCompletePeer` -/
def maybeDropMutuallyCompletePeer (p : Nat) : Except Panic Torrent :=
  if !t.cfg.dropMutuallyCompletePeers then .ok t
  else if !t.haveAllPieces then .ok t
  else if t.peerHasAllPieces p ≠ (true, true) then .ok t
  else if t.useful p then .ok t
  else t.drop p

end ReliableBT.Torrent
