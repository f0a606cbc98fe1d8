import ReliableBT.Torrent.Runs

/-!
# Invariants about peers

The other half of `Data.lean`: an invariant about peers, their requests or the pieces they have does
not look at completion, hashing, chunk writes and storage. `DataFree E J` says so, and what happens
to data keeps `J`. `AboutPeers E C J` adds what such an invariant has to withstand of peers.
`RequestsOnly E J` is for an invariant that does not look at availability either, so that only the
tables of requests are left, and `AboutRequests E C J` adds what updates and webseeds do to those.
-/

namespace ReliableBT

open Torrent

variable {E : Panic → Prop} {C : Torrent → Event → Prop} {J : Torrent → Prop} {t : Torrent}

/-- `J` does not look at data. -/
structure DataAside (E : Panic → Prop) (J : Torrent → Prop) : Prop where
  storePanic : ∀ e : Panic, e.group = .store → E e := by intros; trivial
  data : ∀ {t : Torrent}, J t → ∀ comp hash writes storage dirtyChunks, J { t with
    comp := comp, hash := hash, writes := writes, storage := storage,
    dirtyChunks := dirtyChunks } := by intros; assumption

/-- `J` does not look at data and at priorities, and withstands the upkeep of pieces. -/
structure DataFree (E : Panic → Prop) (J : Torrent → Prop) : Prop
    extends Plain E (fun _ => True) J, DataAside E J where
  prio : ∀ {t : Torrent}, J t → ∀ p, J { t with prio := p } := by intros; assumption

namespace DataFree

theorem hashersFree (h : DataFree E J) : HashersFree J where
  hashers ht _ := h.data ht _ _ _ _ _
  completion ht _ := h.data ht _ _ _ _ _
  verified ht _ := h.data ht _ _ _ _ _

theorem writesFree (h : DataFree E J) : WritesFree E J where
  toAside := h.toAside
  indexPanic := h.index
  storePanic := h.storePanic
  entry ht _ := h.order trivial ht
  writes ht _ _ _ := h.data ht _ _ _ _ _

end DataFree

/-- What an invariant about peers withstands, so that every step meeting `C` keeps it. -/
structure AboutPeers (E : Panic → Prop) (C : Torrent → Event → Prop) (J : Torrent → Prop) : Prop
    extends DataFree E J, KeepsJoins E C J, KeepsPeers E C fun _ _ => J where
  receiveChunk : ∀ {t p index begin data now}, J t → p ∈ t.avail.conns →
    Ends E (fun x => J x.1) (t.receiveChunk p index begin data now)
  closeTorrent : ∀ {t}, J t → Ends E J t.closeTorrent

theorem AboutPeers.keeps (h : AboutPeers E C J) : Keeps E C fun _ _ => J where
  toQueue := h.toPlain.toQueue
  toKeepsJoins := h.toKeepsJoins
  toKeepsPeers := h.toKeepsPeers
  receiveChunk ht hp _ _ := h.receiveChunk ht hp
  writeChunk ht := h.writesFree.writeChunk ht _ _
  chunkWritten ht :=
    h.writesFree.chunkWritten (fun ht' i => h.queuePieceCheck (i := i) trivial ht') ht _ _
  hashPiece ht := h.hashersFree.hashPiece ht _ _
  hashed ht _ := h.data ht _ _ _ _ _
  toMarking ht _ _ := h.data ht _ _ _ _ _
  marking ht _ _ := h.data ht _ _ _ _ _
  markedComplete ht := h.hashersFree.markedComplete ht _ _
  verified ht _ := h.hashersFree.setVerified ht _ _
  done ht _ := ht
  unspawn ht := h.data ht _ _ _ _ _
  storageCompletion ht _ := h.data ht _ _ _ _ _
  prio := .ofFree h.index (h.toPlain.update trivial) h.prio
  closeTorrent ht _ := h.closeTorrent ht

/-! ## Invariants about requests -/

/-- `J` looks at no tables but those of requests, and requests may be taken off the books. -/
structure RequestsOnly (E : Panic → Prop) (J : Torrent → Prop) : Prop
    extends Unbooks E J, AvailFree E J, ConnsGo J, DataAside E J, Around J where
  owner : ∀ {t : Torrent}, J t → J { t with reqs.owner := fun _ => none } := by intros; assumption

namespace RequestsOnly

theorem leave (h : RequestsOnly E J) : PeersLeave E J :=
  { h.toUnbooks, h.toAvailFree.safe with conns := h.conns }

theorem maybeDrop (h : RequestsOnly E J) (ht : J t) (p : Nat) :
    Ends E J (t.maybeDropMutuallyCompletePeer p) :=
  ends_maybeDrop p ht fun _ _ => h.leave.dropConnection ht p

theorem dataFree (h : RequestsOnly E J) : DataFree E J where
  toAside := h.toUnbooks.toAside
  pending := h.pending
  index e he := h.availPanic e (.inr (.inr he))
  order _ ht := h.toAvailFree.updatePieceRequestOrder ht _
  pendAll _ _ ht := h.data ht _ _ _ _ _
  complete _ _ ht _ := h.data ht _ _ _ _ _
  cancelRequest ht r := h.toUnbooks.cancelRequest ht r
  drop ht _ _ := h.leave.dropConnection ht _
  flags ht _ _ _ _ _ := h.data ht _ _ _ _ _
  spawn ht _ := h.data ht _ _ _ _ _
  prio := h.prio
  toDataAside := h.toDataAside

theorem receiveChunk (h : RequestsOnly E J) (ht : J t) (p index begin : Nat) (data : List UInt8)
    (now : Nat) : Ends E (fun x => J x.1) (t.receiveChunk p index begin data now) :=
  h.dataFree.writesFree.receiveChunk h.toUnbooks ht _ _ _ _ _

end RequestsOnly

/-- What an invariant about requests withstands of updates and webseeds, so that every step meeting
`C` keeps it. -/
structure AboutRequests (E : Panic → Prop) (C : Torrent → Event → Prop) (J : Torrent → Prop) :
    Prop extends RequestsOnly E J, KeepsUpdates E C J where
  setInfo : ∀ {t : Torrent} {info}, J t → t.info = none → C t (.setInfo info) →
    J { t with info := some info }
  webseedRequest : ∀ {t p}, J t → p ∈ t.avail.peerIds → t.isConn p = false →
    Ends E J (t.webseedRequest p)
  webseedDone : ∀ {t : Torrent} {p r}, J t → (p, r) ∉ t.reqs.running →
    J { t with reqs.active := t.reqs.active.erase (p, r) }

theorem AboutRequests.aboutPeers (h : AboutRequests E C J) : AboutPeers E C J where
  toDataFree := h.dataFree
  toKeepsUpdates := h.toKeepsUpdates
  gotInfo ht _ hinfo hC := h.leave.gotInfo (I := fun _ _ => J) h.toAvailFree
    h.dataFree.toPlain.toQueue h.owner ht
    (h.toAround.setInfo_ends h.toAvailFree (h.setInfo ht hinfo hC))
  addPeerConn ht hp := h.toUnbooks.peerConnAdded (h.addConn ht hp)
  addWebSeed ht hp := h.toAvailFree.addWebSeed (h.addWebSeed ht hp)
  close ht _ := h.leave.close ht _
  dropConnection ht _ _ := h.leave.dropConnection ht _
  deleteAllRequests ht _ := h.toUnbooks.deleteAllRequests ht _ _
  peerSentHave ht _ _ := h.toAvailFree.safe.peerSentHave h.maybeDrop ht _ _
  peerSentBitfield ht _ _ := h.toAvailFree.safe.peerSentBitfield h.maybeDrop ht _ _
  onPeerHasAllPieces ht _ _ := h.toAvailFree.safe.onPeerHasAllPieces h.maybeDrop ht _
  peerSentHaveNone ht _ _ _ _ := h.toAvailFree.safe.peerSentHaveNone h.maybeDrop ht _
  receiveChunk ht _ := h.receiveChunk ht _ _ _ _ _
  remoteRejectedRequest ht _ := h.toUnbooks.remoteRejectedRequest ht _ _
  webseedRequest := h.webseedRequest
  webseedDone := h.webseedDone
  reorder := h.reorder
  closeTorrent ht := h.toAvailFree.closeTorrent h.stopped h.leave.close ht

theorem RequestsOnly.aboutRequests (h : RequestsOnly E J) (hr : ReqsFree E J)
    (hbuffer : ∀ e : Panic, e.group = .buffer → E e)
    (hset : ∀ {t : Torrent} {info}, J t → t.info = none → C t (.setInfo info) →
      J { t with info := some info }) : AboutRequests E C J where
  toRequestsOnly := h
  setInfo := hset
  fill ht _ _ := hr.maybeUpdateActualRequestState hbuffer ht _ _ _
  updateWebseed ht _ _ _ := hr.maybeUpdateActualRequestState hbuffer ht _ _ _
  webseedRequest ht _ _ := hr.webseedRequest ht _
  webseedResult ht _ _ := h.toUnbooks.requestResultHandler (hr.reqs ht _)
    fun _ _ ht' => h.receiveChunk ht' _ _ _ _ _
  webseedDone ht _ := hr.reqs ht _

theorem RequestsOnly.of_frame (hr : ReqsFree (fun _ => True) J)
    (hframe : ∀ {t t' : Torrent}, J t → t'.cfg = t.cfg → t'.info = t.info → t'.kind = t.kind →
      t'.up = t.up → J t')
    (hnew : ∀ {t : Torrent}, J t → ∀ p kind addr n b, J (t.newPeer p kind addr n b)) :
    RequestsOnly (fun _ => True) J :=
  { hr.unbooks with
    availPanic := fun _ _ => trivial
    relative := fun h _ => hframe h rfl rfl rfl rfl
    closed := fun h _ => hframe h rfl rfl rfl rfl
    pieces := fun h _ => hframe h rfl rfl rfl rfl
    sentHaveAll := fun h _ => hframe h rfl rfl rfl rfl
    withAll := fun h _ _ => hframe h rfl rfl rfl rfl
    order := fun h _ => hframe h rfl rfl rfl rfl
    pending := fun h _ => hframe h rfl rfl rfl rfl
    prio := fun h _ => hframe h rfl rfl rfl rfl
    storePanic := fun _ _ => trivial
    data := fun h _ _ _ _ _ => hframe h rfl rfl rfl rfl
    conns := fun h _ => hframe h rfl rfl rfl rfl
    reorder := fun h _ => hframe h rfl rfl rfl rfl
    stopped := fun h => hframe h rfl rfl rfl rfl
    owner := fun h => hframe h rfl rfl rfl rfl
    addConn := fun {_ _ _ _ addr} h _ => hframe (hnew h _ _ addr 250 true) rfl rfl rfl rfl
    addWebSeed := fun {_ _ _ addr} h _ => hframe (hnew h _ _ addr 128 false) rfl rfl rfl rfl }

theorem aboutInfo {Q : Config → Option Info → Prop}
    (hset : ∀ {t : Torrent} {info}, Q t.cfg t.info → t.info = none → C t (.setInfo info) →
      Q t.cfg (some info)) : AboutRequests (fun _ => True) C fun t => Q t.cfg t.info := by
  have hfree : ReqsFree (fun _ => True) fun t => Q t.cfg t.info :=
    ⟨⟨fun h _ _ => h, fun h _ _ => h, fun h _ _ => h⟩, fun _ _ => trivial, fun h _ => h⟩
  refine RequestsOnly.aboutRequests (.of_frame hfree (fun h hcfg hinfo _ _ => ?_)
    fun h _ _ _ _ _ => h) hfree (fun _ _ => trivial) hset
  rw [hcfg, hinfo]
  exact h

end ReliableBT
