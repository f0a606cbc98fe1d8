import ReliableBT.Torrent.State
import ReliableBT.Lib.Outcome
import ReliableBT.Wire.Message

/-!
# Requests: making room and giving up (`peerconn.go`, `webseed-peer.go`, `torrent.go`)

The functions that take a request off the books: `deleteRequest`, `cancel`, `cancelRequest`,
`deleteAllRequests`, `cancelAllRequests`, `remoteRejectedRequest` and `decExpectedChunkReceive`,
with `updateRequests` and the connection's `write`. Each is a function of the torrent, in
`Except Panic` where the source can panic.

`write` counts bytes: a message is the length of its binary form (`Wire.Message`), and what it
returns is whether the buffer stays below the high-water mark.
-/

open Function

namespace ReliableBT.Torrent

/-! ## The write buffer -/

/-- `writeBufferHighWaterLen` -/
def writeBufferHighWaterLen : Nat := 1 <<< 15

/-- `writeBufferLowWaterLen` -/
def writeBufferLowWaterLen : Nat := writeBufferHighWaterLen / 2

/-- `len(msg.MustMarshalBinary())` -/
def msgLen (msg : Wire.Message) : Nat := (msg.marshalBinary.getD []).length

/-- `interestedMsgLen` -/
def interestedMsgLen : Nat := msgLen { type := .interested }

/-- `requestMsgLen`; a cancel has the same length -/
def requestMsgLen : Nat := msgLen { type := .request }

/-- The length of a `Have` message. -/
def haveMsgLen : Nat := msgLen { type := .have_ }

/-- `maxLocalToRemoteRequests` -/
def maxLocalToRemoteRequests : Nat :=
  (writeBufferHighWaterLen - writeBufferLowWaterLen - interestedMsgLen) / requestMsgLen

variable (t : Torrent)

/-- `PeerConn.write` of a message of `n` bytes. -/
def write (p n : Nat) : Torrent :=
  { t with buf.len := update t.buf.len p (t.buf.len p + n) }

/-- What `write` returns: the buffer is not full. -/
def writeOk (p : Nat) : Bool := decide (t.buf.len p < writeBufferHighWaterLen)

/-- `nominalMaxRequests` -/
def nominalMaxRequests (p : Nat) : Int :=
  max 1 (min (min (t.ctl.peerMaxRequests p) (t.ctl.peakRequests p * 2)) maxLocalToRemoteRequests)

/-! ## Asking for an update -/

/-- `updateRequests`; `handleUpdateRequests` only wakes whoever runs the update. -/
def updateRequests (p : Nat) (reason : UpdateReason) : Torrent :=
  if (t.ctl.needRequestUpdate p).isSome then t
  else if reason ≠ .timer ∧ !t.isLowOnRequests p then t
  else
    { t with
      ctl.needRequestUpdate := update t.ctl.needRequestUpdate p (some reason) }

/-- `if p.isLowOnRequests() { p.updateRequests(reason) }` -/
def updateIfLow (p : Nat) (reason : UpdateReason) : Torrent :=
  if t.isLowOnRequests p then t.updateRequests p reason else t

/-- The loop of `updateIfLow` over `iterPeers`. -/
def updateLowPeers (reason : UpdateReason) : Torrent :=
  t.iterPeers.foldl (fun t p => t.updateIfLow p reason) t

/-! ## Deleting and cancelling -/

/-- `deleteRequest` -/
def deleteRequest (p r : Nat) : Except Panic (Torrent × Bool) :=
  if r ∉ t.reqs.requests p then .ok (t, false)
  else if t.reqs.owner r ≠ some p then .error .onlyOnePeer
  else
    .ok ({ t with
      reqs.requests := update t.reqs.requests p ((t.reqs.requests p).remove r)
      reqs.owner := update t.reqs.owner r none }, true)

/-- `decPeakRequests` -/
def decPeakRequests (p : Nat) : Torrent :=
  { t with ctl.peakRequests := update t.ctl.peakRequests p (t.ctl.peakRequests p - 1) }

/-- `_cancel`: whether the cancel will be acknowledged. -/
def cancelAcked (p r : Nat) : Bool :=
  match t.kind p with
  | .conn fast transmission => fast && !transmission
  | .webseed _ => decide ((p, t.requestIndexToRequest r) ∈ t.reqs.active)

/-- `_cancel`'s message. -/
def writeCancel (p : Nat) : Torrent :=
  match t.kind p with
  | .conn _ _ => t.write p requestMsgLen
  | .webseed _ => t

/-- `Cancelled.CheckedAdd`, with the panic of `cancel` -/
def addCancelled (p r : Nat) : Except Panic Torrent :=
  if r ∈ t.reqs.cancelled p then .error .alreadyCancelled
  else
    .ok { t with
      reqs.cancelled := update t.reqs.cancelled p ((t.reqs.cancelled p).add r) }

/-- `cancel` -/
def cancel (p r : Nat) : Except Panic Torrent := do
  let (t, deleted) ← t.deleteRequest p r
  require deleted .requestNotExisting
  let acked := t.cancelAcked p r
  let t := t.writeCancel p
  let t ← doIf acked t (t.addCancelled p r)
  let t := t.decPeakRequests p
  return t.updateIfLow p .cancel

/-- `cancelRequest`, up to its assertion -/
def cancelRequesting (r : Nat) : Except Panic Torrent :=
  match t.reqs.owner r with
  | some p => t.cancel p r
  | none => .ok t

/-- `cancelRequest` -/
def cancelRequest (r : Nat) : Except Panic Torrent := do
  let t ← t.cancelRequesting r
  require (t.reqs.owner r = none) .requestStateLeft
  return t

/-- `assertNoRequests` -/
def assertNoRequests (p : Nat) : Except Panic Unit :=
  require (t.reqs.requests p).isEmpty .requestsLeft

/-- An iteration of `deleteAllRequests`. -/
def deleteExisting (p : Nat) (t : Torrent) (r : Nat) : Except Panic Torrent := do
  let (t, deleted) ← t.deleteRequest p r
  require deleted .requestShouldExist
  return t

/-- `deleteAllRequests` -/
def deleteAllRequests (p : Nat) (reason : UpdateReason) : Except Panic Torrent := do
  if (t.reqs.requests p).isEmpty then return t
  let t ← (t.reqs.requests p).bitmap.elems.foldlM (deleteExisting p) t
  t.assertNoRequests p
  return t.updateLowPeers reason

/-- `cancelAllRequests` -/
def cancelAllRequests (p : Nat) : Except Panic Torrent := do
  let t ← (t.reqs.requests p).bitmap.elems.foldlM (fun t r => t.cancel p r) t
  t.assertNoRequests p
  return t

/-! ## Answers of the peer -/

/-- `decExpectedChunkReceive` -/
def decExpectedChunkReceive (p r : Nat) : Except Panic Torrent :=
  if t.reqs.validReceiveChunks p r = 0 then .error .notExpected
  else
    .ok { t with
      reqs.validReceiveChunks := update t.reqs.validReceiveChunks p
        (update (t.reqs.validReceiveChunks p) r (t.reqs.validReceiveChunks p r - 1)) }

/-- `Cancelled.CheckedRemove` -/
def removeCancelled (p r : Nat) : Torrent × Bool :=
  if r ∈ t.reqs.cancelled p then
    ({ t with
      reqs.cancelled := update t.reqs.cancelled p ((t.reqs.cancelled p).remove r) }, true)
  else (t, false)

/-- The request a `remoteRejectedRequest` is about, outstanding or cancelled, is taken off the
books: whether there was one. -/
def rejectRequest (p r : Nat) : Except Panic (Torrent × Bool) := do
  let (t, deleted) ← t.deleteRequest p r
  return if deleted then (t.decPeakRequests p, true) else t.removeCancelled p r

/-- `remoteRejectedRequest`: whether the reject was valid. -/
def remoteRejectedRequest (p r : Nat) : Except Panic (Torrent × Bool) := do
  let (t, valid) ← t.rejectRequest p r
  if !valid then return (t, false)
  let t := t.updateIfLow p .rejected
  let t ← t.decExpectedChunkReceive p r
  return (t, true)

end ReliableBT.Torrent
