import ReliableBT.Torrent.System

/-!
# What the functions of the model leave alone

An invariant of the torrent is about some of its tables. This module says, for the functions that
many events share, that an invariant which does not look at the tables a function writes is kept
by it, and which panics it can end in.

* `Aside I`: `I` does not look at `ctl`, `buf` and `up`, but for what it may know of what happens
  to them: of `ctl` from `Steers`, that an update is asked for only when the peer is low on
  requests and the allowed-fast pieces stay as they are; of `buf` from `Buffers`, what a peer is
  told about our pieces; of `up` from `Serves`, which requests are queued. Every function that only
  steers requests, fills buffers or serves the peer's requests keeps it.
  `PendingFree I`: nor at `pendingPieces`.
* `Unbooks E I`: `I` withstands it when requests are taken off the books. Cancelling and deleting
  requests, and receiving what was requested, keeps it. `Elsewhere p` is what taking requests over
  for `p` changes, and `applyRequests_ends` the rule for the loop that does.
* `ReqsFree E I`: `I` does not look at the bookkeeping of requests at all, and `E` admits its
  panics. Making requests keeps it, too.
* `AvailSafe E I`: `I` withstands what happens to availability, one change at a time. The messages
  about pieces keep it.
* `AvailFree E I`: `I` does not look at availability and the piece request order at all.
* `PeersLeave E I`, `PeersSafe E I` and `PeersFree E I`: connections may go as well. Closing and
  dropping peers keeps such an invariant.
-/

open Function Option Bool

namespace ReliableBT

/-- What a panic is about. -/
inductive PanicGroup where
  | index
  | order
  | avail
  | request
  | choice
  | buffer
  | announce
  | store
  deriving DecidableEq

/-- The group of a panic. -/
def Panic.group : Panic → PanicGroup
  | nilInfo | nilStorage | indexOutOfRange | sliceOutOfRange | divideByZero | bitfieldLength
  | readerPieces => .index
  | orderKeyExists | orderKeyMissing => .order
  | decPieceAvailability | availabilityBeforeInfo | availabilityLeft | notInConnsWithAllPieces
  | individualPeerPieces | connNotClosed | connsWithAllPiecesLeft => .avail
  | onlyOnePeer | requestNotExisting | alreadyCancelled | requestShouldExist | requestsLeft
  | requestStateLeft | notExpected | pendingFromReceiver | invalidReject | webseedReceive =>
    .request
  | shouldRequest _ | tooManyRequests | existingRequests | invalidRequest => .choice
  | insufficientWriteBuffer | couldntFill => .buffer
  | bitfieldNotFirst => .announce
  | writeOverflowsPiece | pendingWrites => .store

open Torrent

variable {E : Panic → Prop} {I : Torrent → Prop} {t : Torrent}

/-! ## Tables that only steer -/

/-- What happens to the tables that steer requests: a peer for which an update is asked for is low
on requests, and the allowed-fast pieces stay as they are. -/
structure Steers (t : Torrent) (c : Ctl) : Prop where
  need : ∀ p, c.needRequestUpdate p = t.ctl.needRequestUpdate p ∨ c.needRequestUpdate p = none ∨
    t.isLowOnRequests p = true
  allowedFast : c.peerAllowedFast = t.ctl.peerAllowedFast

theorem Steers.of_eq {c : Ctl} (hneed : c.needRequestUpdate = t.ctl.needRequestUpdate)
    (hfast : c.peerAllowedFast = t.ctl.peerAllowedFast) : Steers t c :=
  ⟨fun p => .inl (congrFun hneed p), hfast⟩

/-- How what a peer has been told about our pieces goes on: not at all, with a piece that it has not
been told of, or with the first message. `all` and `any` say whether we have all or any of the
pieces. -/
inductive Tells (all any : Bool) (numPieces : Nat) (completed : Bitmap) (bits : List Bool) :
    Bitmap → List Announcement → Bitmap → List Announcement → Prop
  | nothing (haves : Bitmap) (log : List Announcement) :
      Tells all any numPieces completed bits haves log haves log
  | have_ {haves : Bitmap} (log : List Announcement) {i : Nat} (hi : i ∉ haves) :
      Tells all any numPieces completed bits haves log (haves.add i) (log ++ [.have_ i])
  | haveAll (hall : all = true) : Tells all any numPieces completed bits
      Bitmap.empty [] (Bitmap.range numPieces) [.haveAll numPieces]
  | haveNone (hnone : any = false) : Tells all any numPieces completed bits
      Bitmap.empty [] Bitmap.empty [.haveNone]
  | bitfield : Tells all any numPieces completed bits Bitmap.empty [] completed [.bitfield bits]

/-- What one peer is told about our pieces. -/
def Torrent.TellsTo (t : Torrent) (p : Nat) : Bitmap → List Announcement → Prop :=
  Tells t.haveAllPieces t.haveAnyPieces t.numPieces t.comp.completed t.bitfield
    (t.buf.sentHaves p) (t.buf.announced p)

/-- What happens to the buffers: peers are told about our pieces. -/
def Buffers (t : Torrent) (b : Buf) : Prop := ∀ p, t.TellsTo p (b.sentHaves p) (b.announced p)

theorem Buffers.of_eq {b : Buf} (hhaves : b.sentHaves = t.buf.sentHaves)
    (hlog : b.announced = t.buf.announced) : Buffers t b := fun p => by
  rw [hhaves, hlog]
  exact .nothing _ _

variable {p : Nat} {choking : Bool}

theorem Buffers.of_update {haves : Bitmap} {log : List Announcement} (h : t.TellsTo p haves log) :
    Buffers t { t.buf with
      sentHaves := update t.buf.sentHaves p haves
      announced := update t.buf.announced p log } := by
  intro q
  by_cases hq : q = p
  · subst hq
    simpa using h
  · simp only [update_of_ne hq]
    exact .nothing _ _

/-- A request that may be queued: it is of a piece that we have, and within it. -/
def Torrent.Servable (t : Torrent) (r : Request) : Prop :=
  t.haveInfo = true ∧ t.pieceComplete r.index = true ∧ r.length < 2 ^ 32 ∧
    chunkOverflowsPiece r.begin r.length (t.pieceLength r.index) = false

/-- What happens to a peer's requests `requests₀`: requests are queued while there is room, and
without the fast extension a peer that is choked has none. -/
structure ServesOf (servable : Request → Prop) (fast choking₀ : Bool) (requests₀ : List Request)
    (choking : Bool) (requests : List Request) : Prop where
  queued : ∀ r ∈ requests, r ∈ requests₀ ∨ servable r
  length : requests.length ≤ requests₀.length ∨ requests.length ≤ localClientReqq
  choking : fast = false → choking = true →
    requests = [] ∨ choking₀ = true ∧ requests.length ≤ requests₀.length

/-- What happens to one peer's requests. -/
def Torrent.ServesTo (t : Torrent) (p : Nat) : Bool → List Request → Prop :=
  ServesOf t.Servable (t.fastEnabled p) (t.up.choking p) (t.up.peerRequests p)

/-- What happens to the peers' requests. -/
def Serves (t : Torrent) (u : Up) : Prop := ∀ p, t.ServesTo p (u.choking p) (u.peerRequests p)

theorem ServesOf.of_sublist {servable : Request → Prop} {fast : Bool}
    {requests₀ requests : List Request} (h : requests.Sublist requests₀) :
    ServesOf servable fast choking requests₀ choking requests :=
  ⟨fun _ hr => .inl (h.subset hr), .inl h.length_le, fun _ hchoke => .inr ⟨hchoke, h.length_le⟩⟩

theorem Serves.of_update {requests : List Request} (h : t.ServesTo p choking requests) :
    Serves t ⟨update t.up.choking p choking, update t.up.peerRequests p requests⟩ := by
  intro q
  by_cases hq : q = p
  · subst hq
    simpa using h
  · simp only [update_of_ne hq]
    exact ServesOf.of_sublist (List.Sublist.refl _)

theorem Serves.of_requests {requests : List Request} (h : t.ServesTo p (t.up.choking p) requests) :
    Serves t { t.up with peerRequests := update t.up.peerRequests p requests } := by
  have hserves := Serves.of_update h
  rwa [update_eq_self] at hserves

theorem Serves.of_choking (h : t.ServesTo p choking (t.up.peerRequests p)) :
    Serves t { t.up with choking := update t.up.choking p choking } := by
  have hserves := Serves.of_update h
  rwa [update_eq_self] at hserves

/-- `I` does not look at what steers requests, at the buffers and at uploads, beyond what `Steers`,
`Buffers` and `Serves` say of them. By default, here and in the structures that build on this one, a
field says that a part of the torrent is not read at all. -/
structure Aside (I : Torrent → Prop) : Prop where
  ctl : ∀ {t : Torrent}, I t → ∀ c, Steers t c → I { t with ctl := c } := by intros; assumption
  buf : ∀ {t : Torrent}, I t → ∀ b, Buffers t b → I { t with buf := b } := by intros; assumption
  up : ∀ {t : Torrent}, I t → ∀ u, Serves t u → I { t with up := u } := by intros; assumption

/-- The peer has been told nothing about our pieces. -/
def Torrent.Untold (t : Torrent) (p : Nat) : Prop :=
  t.buf.sentHaves p = Bitmap.empty ∧ t.buf.announced p = []

theorem connJoined_untold (t : Torrent) (p : Nat) (fast transmission : Bool)
    (addr : Option (Nat × Nat)) : (t.connJoined p fast transmission addr).Untold p :=
  ⟨update_self .., update_self ..⟩

/-- The panic of `postBitfield` is not reached: nothing is said before the initial messages. -/
theorem addPeerConn_eq (t : Torrent) (p : Nat) (fast transmission : Bool)
    (addr : Option (Nat × Nat)) :
    t.addPeerConn p fast transmission addr = .ok (t.peerConnAdded p fast transmission addr) := by
  have hnone := (connJoined_untold t p fast transmission addr).1
  unfold addPeerConn peerConnAdded
  generalize t.connJoined p fast transmission addr = t at hnone
  unfold sendInitialMessages initialMessagesSent
  rw [hnone, Bitmap.empty_union]
  split_ifs
  · rfl
  · rfl
  · unfold postBitfield
    rw [hnone]
    rfl

namespace Aside

section
variable (h : Aside I) (ht : I t)
include h ht

/-- Only the timer asks for an update of a peer that is not low on requests. -/
theorem updateRequests (p : Nat) {reason : UpdateReason}
    (hreason : reason ≠ .timer ∨ t.isLowOnRequests p = true) : I (t.updateRequests p reason) := by
  unfold Torrent.updateRequests
  split_ifs with hneed hbusy
  · exact ht
  · exact ht
  · have hlow : t.isLowOnRequests p = true := by
      refine hreason.elim (fun hne => ?_) id
      simpa [hne] using hbusy
    refine h.ctl ht _ ⟨fun q => ?_, rfl⟩
    by_cases hq : q = p
    · exact .inr (.inr (hq ▸ hlow))
    · exact .inl (update_of_ne hq _ _)

theorem updateIfLow (p : Nat) (reason : UpdateReason) : I (t.updateIfLow p reason) := by
  unfold Torrent.updateIfLow
  split_ifs with hlow
  · exact h.updateRequests ht p (.inr hlow)
  · exact ht

theorem updateLowPeers (reason : UpdateReason) : I (t.updateLowPeers reason) :=
  foldl_keeps ht fun _ ht' p _ => h.updateIfLow ht' p reason

theorem decPeakRequests (p : Nat) : I (t.decPeakRequests p) :=
  h.ctl ht _ (.of_eq rfl rfl)

theorem usefulChunk (p now : Nat) : I { t with
    ctl.lastUsefulChunkReceived := update t.ctl.lastUsefulChunkReceived p now } :=
  h.ctl ht _ (.of_eq rfl rfl)

theorem write (p n : Nat) : I (t.write p n) :=
  h.buf ht _ (.of_eq rfl rfl)

theorem writeCancel (p : Nat) : I (t.writeCancel p) := by
  unfold Torrent.writeCancel
  split
  · exact h.write ht p _
  · exact ht

theorem priorityChangedFor (i : Nat) (reason : UpdateReason) (p : Nat) :
    I (priorityChangedFor i reason t p) := by
  unfold Torrent.priorityChangedFor
  split_ifs with hlow
  · exact ht
  · exact ht
  · exact ht
  · exact h.updateRequests ht p (.inr (by simpa using hlow))

theorem piecePriorityChanged (i : Nat) (reason : UpdateReason) :
    I (t.piecePriorityChanged i reason) := by
  unfold Torrent.piecePriorityChanged
  split_ifs
  · exact foldl_keeps ht fun _ ht' p _ => h.priorityChangedFor ht' i reason p
  · exact ht

theorem have_ (p i : Nat) : I (t.have_ p i) := by
  unfold Torrent.have_
  split_ifs with hi
  · exact ht
  · exact h.buf (h.write ht p _) _ (.of_update (Tells.have_ _ hi))

theorem notifyIncomplete (i : Nat) (peers : List Nat) :
    I (peers.foldl (pieceIncompleteFor i) t) := by
  refine foldl_keeps ht fun t' ht' p _ => ?_
  unfold pieceIncompleteFor
  split_ifs
  · exact h.updateRequests ht' p (.inl nofun)
  · exact ht'

theorem setInterested (p : Nat) (b : Bool) : I (t.setInterested p b).1 := by
  unfold Torrent.setInterested
  split_ifs
  · exact ht
  · dsimp only
    split
    · refine h.write (h.ctl ht _ ?_) p _
      exact .of_eq rfl rfl
    · exact h.ctl ht _ (.of_eq rfl rfl)

theorem sendRequest (p : Nat) : I (t.sendRequest p).1 := by
  unfold Torrent.sendRequest
  split
  · exact h.write ht p _
  · exact ht

theorem requestsUpdated (p n : Nat) : I (t.requestsUpdated p n) := by
  refine h.ctl ht _ ⟨fun q => ?_, rfl⟩
  by_cases hq : q = p
  · exact .inr (.inl (hq ▸ update_self _ _ _))
  · exact .inl (update_of_ne hq _ _)

theorem reject (p : Nat) (r : Request) : I (t.reject p r) :=
  h.up (h.write ht p _) _ (.of_requests (ServesOf.of_sublist List.erase_sublist))

theorem rejectIfFast (p : Nat) (r : Request) : I (t.rejectIfFast p r) := by
  unfold Torrent.rejectIfFast
  split_ifs
  · exact h.reject ht p r
  · exact ht

theorem onReadRequest (p : Nat) {r : Request}
    (hr : r.length < 2 ^ 32) : I (t.onReadRequest p r).1 := by
  unfold Torrent.onReadRequest
  split_ifs with _ _ hchoke hfull _ _ hhave hover
  · exact ht
  · exact ht
  · exact h.rejectIfFast ht p r
  · exact h.rejectIfFast ht p r
  · exact h.reject ht p r
  · exact ht
  · exact ht
  · exact ht
  · refine h.up ht _ (.of_requests ⟨fun x hx => ?_, .inr ?_, fun _ hyes => absurd hyes hchoke⟩)
    · rcases List.mem_cons.mp hx with rfl | hx
      · have hboth : t.haveInfo = true ∧ t.pieceComplete x.index = true := by simpa using hhave
        exact .inr ⟨hboth.1, hboth.2, hr, by simpa using hover⟩
      · exact .inl hx
    · rw [List.length_cons]
      omega

theorem onPeerSentCancel (p : Nat) (r : Request) : I (t.onPeerSentCancel p r) := by
  unfold Torrent.onPeerSentCancel
  split_ifs
  · exact h.reject ht p r
  · exact h.up ht _ (.of_requests (ServesOf.of_sublist List.erase_sublist))
  · exact ht

theorem choke (p : Nat) : I (t.choke p) := by
  unfold Torrent.choke
  dsimp only
  split_ifs with _ hfast
  · exact ht
  · refine h.write (h.up ht _ (.of_choking ⟨fun _ hr => .inl hr, .inl le_rfl, fun hno => ?_⟩)) p _
    have hyes : t.fastEnabled p = true := hfast
    rw [hno] at hyes
    cases hyes
  · -- the queue is emptied after the choke is written; nothing looks at it in between
    have hserves : t.ServesTo p true [] :=
      ⟨fun _ hr => absurd hr List.not_mem_nil, .inl (Nat.zero_le _), fun _ _ => .inl rfl⟩
    exact h.write (h.up ht _ (.of_update hserves)) p _

theorem unchoke (p : Nat) : I (t.unchoke p) := by
  unfold Torrent.unchoke
  split_ifs
  · exact ht
  · have hserves : t.ServesTo p false (t.up.peerRequests p) :=
      ⟨fun _ hr => .inl hr, .inl le_rfl, fun _ h => absurd h false_ne_true⟩
    exact h.write (h.up ht _ (.of_choking hserves)) p _

theorem sendChunk (p : Nat) (r : Request) : I (t.sendChunk p r) := by
  unfold Torrent.sendChunk
  split_ifs
  · exact h.up (h.write ht p _) _ (.of_requests (ServesOf.of_sublist List.erase_sublist))
  · exact ht

theorem upload (p : Nat) (actions : List UploadAction) : I (t.upload p actions) := by
  refine foldl_keeps ht fun t' ht' action _ => ?_
  cases action with
  | unchoke => exact h.unchoke ht' p
  | choke => exact h.choke ht' p
  | sendChunk r => exact h.sendChunk ht' p r

theorem peerUnchoked (p : Nat) : I (t.peerUnchoked p) := by
  unfold Torrent.peerUnchoked
  dsimp only
  split_ifs
  · exact ht
  · exact h.ctl ht _ (.of_eq rfl rfl)
  · refine h.updateRequests (h.ctl ht _ ?_) p (.inl nofun)
    exact .of_eq rfl rfl

theorem onReadExtendedMsg (p : Nat) (ext : Extended) (now : Nat) :
    I (t.onReadExtendedMsg p ext now).1 := by
  cases ext with
  | handshake reqq utMetadata failed => exact h.ctl ht _ (.of_eq rfl rfl)
  | metadata failed => exact h.ctl ht _ (.of_eq rfl rfl)
  | other failed => exact ht

theorem initialMessagesSent {p : Nat} (hnew : t.Untold p) : I (t.initialMessagesSent p) := by
  have hannounce {n : Nat} {a : Announcement} {haves : Bitmap}
      (htells : Tells t.haveAllPieces t.haveAnyPieces t.numPieces t.comp.completed t.bitfield
        Bitmap.empty [] haves [a]) : I (t.announce p n a haves) := by
    refine h.buf (h.write ht p n) _ (.of_update ?_)
    change t.TellsTo p haves (t.buf.announced p ++ [a])
    rw [TellsTo, hnew.1, hnew.2]
    exact htells
  unfold Torrent.initialMessagesSent
  split_ifs with hall hnone
  · simp only [and_eq_true] at hall
    exact hannounce (.haveAll hall.2)
  · simp only [and_eq_true, not_eq_true'] at hnone
    exact hannounce (.haveNone hnone.2)
  · unfold bitfieldPosted
    split_ifs
    · exact ht
    · exact hannounce .bitfield

end

theorem peerConnAdded (h : Aside I) {p : Nat} {fast transmission : Bool}
    {addr : Option (Nat × Nat)} (ht : I (t.connJoined p fast transmission addr)) :
    I (t.peerConnAdded p fast transmission addr) :=
  h.initialMessagesSent ht (connJoined_untold ..)

theorem setDataUpload (h : Aside I) (ht : I t) (disallowed : Bool) :
    I (t.setDataUpload disallowed) := by
  refine foldl_keeps (h.ctl ht _ ?_) fun _ ht' p _ => h.updateRequests ht' p (.inl nofun)
  exact .of_eq rfl rfl

theorem and {J : Torrent → Prop} (hI : Aside I) (hJ : Aside J) : Aside fun t => I t ∧ J t where
  ctl h c hc := ⟨hI.ctl h.1 c hc, hJ.ctl h.2 c hc⟩
  buf h b hb := ⟨hI.buf h.1 b hb, hJ.buf h.2 b hb⟩
  up h u hu := ⟨hI.up h.1 u hu, hJ.up h.2 u hu⟩

end Aside

/-- `I` does not look at the pending pieces either. -/
structure PendingFree (I : Torrent → Prop) : Prop extends Aside I where
  pending : ∀ {t : Torrent}, I t → ∀ b, I { t with pendingPieces := b } := by intros; assumption

namespace PendingFree

theorem updatePending (h : PendingFree I) (ht : I t) (i : Nat) (reason : UpdateReason) :
    I (t.updatePending i reason) := by
  unfold Torrent.updatePending
  split_ifs
  · exact h.piecePriorityChanged (h.pending ht _) i reason
  · exact ht
  · exact ht
  · exact h.piecePriorityChanged (h.pending ht _) i reason

/-- The piece request order is brought up to date only while the torrent is open. -/
theorem updatePiecePriority (h : PendingFree I) (hindex : E .indexOutOfRange) {i : Nat}
    (hclosed : t.closed = true → I t)
    (horder : t.closed = false → Ends E I (t.updatePieceRequestOrder i))
    (reason : UpdateReason) : Ends E I (t.updatePiecePriority i reason) := by
  refine (Ends.doIf (fun hopen => horder (by simpa using hopen))
    fun hopen => hclosed (by simpa using hopen)).bind fun t₁ ht₁ => ?_
  exact Ends.require (fun _ => h.updatePending ht₁ i reason) fun _ => hindex

end PendingFree

/-! ## Requests -/

/-- `I` withstands it when requests are taken off the books, one table at a time: a request is
withdrawn, or cancelled with the acknowledgement to come, a cancel is acknowledged, a chunk is not
expected any more. `E` admits the panics about these tables. -/
structure Unbooks (E : Panic → Prop) (I : Torrent → Prop) : Prop extends Aside I where
  request : ∀ e : Panic, e.group = .request → E e
  withdrawn : ∀ {t : Torrent} {p r}, I t → r ∈ t.reqs.requests p → I { t with
    reqs.requests := update t.reqs.requests p ((t.reqs.requests p).remove r)
    reqs.owner := update t.reqs.owner r none }
  cancelled : ∀ {t : Torrent} {p r}, I t → r ∈ t.reqs.requests p → t.cancelAcked p r = true →
    I { t with
      reqs.requests := update t.reqs.requests p ((t.reqs.requests p).remove r)
      reqs.owner := update t.reqs.owner r none
      reqs.cancelled := update t.reqs.cancelled p ((t.reqs.cancelled p).add r) }
  acknowledged : ∀ {t : Torrent} {p r}, I t → I { t with
    reqs.cancelled := update t.reqs.cancelled p ((t.reqs.cancelled p).remove r) }
  unexpected : ∀ {t : Torrent} {p r}, I t → I { t with
    reqs.validReceiveChunks := update t.reqs.validReceiveChunks p
      (update (t.reqs.validReceiveChunks p) r (t.reqs.validReceiveChunks p r - 1)) }

namespace Unbooks

section
variable (h : Unbooks E I) (ht : I t)
include h ht

theorem deleteRequest (p r : Nat) : Ends E (fun x => I x.1) (t.deleteRequest p r) := by
  unfold Torrent.deleteRequest
  split_ifs with hr
  · exact h.request _ rfl
  · exact h.withdrawn ht hr
  · exact ht

theorem removeCancelled (p r : Nat) : I (t.removeCancelled p r).1 := by
  unfold Torrent.removeCancelled
  split_ifs
  · exact h.acknowledged ht
  · exact ht

theorem cancel (p r : Nat) : Ends E I (t.cancel p r) := by
  -- only a request that is there is deleted
  have hdelete : Ends E (fun x => x.2 = true → r ∈ t.reqs.requests p ∧ x.1 = { t with
      reqs.requests := update t.reqs.requests p ((t.reqs.requests p).remove r)
      reqs.owner := update t.reqs.owner r none }) (t.deleteRequest p r) := by
    unfold Torrent.deleteRequest
    split_ifs with hr
    · exact h.request _ rfl
    · exact fun _ => ⟨hr, rfl⟩
    · exact nofun
  refine hdelete.bind fun ⟨t₁, deleted⟩ hdeleted => ?_
  refine Ends.require (fun hyes => ?_) fun _ => h.request _ rfl
  obtain ⟨hr, rfl⟩ := hdeleted hyes
  refine Ends.bind (R := I) (Ends.doIf (fun hacked => ?_) fun _ => ?_) fun t₂ ht₂ => ?_
  · have ht₁ := h.cancelled ht hr hacked
    unfold addCancelled
    split_ifs
    · exact h.request _ rfl
    · unfold writeCancel
      split
      · exact h.write ht₁ p _
      · exact ht₁
  · exact h.writeCancel (h.withdrawn ht hr) p
  · exact h.updateIfLow (h.decPeakRequests ht₂ p) p _

theorem cancelRequest (r : Nat) : Ends E I (t.cancelRequest r) := by
  have hcancel : Ends E I (t.cancelRequesting r) := by
    unfold cancelRequesting
    split
    · exact h.cancel ht _ r
    · exact ht
  refine hcancel.bind fun t₁ ht₁ => ?_
  exact Ends.require (fun _ => ht₁) fun _ => h.request _ rfl

theorem deleteAllRequests (p : Nat) (reason : UpdateReason) :
    Ends E I (t.deleteAllRequests p reason) := by
  unfold Torrent.deleteAllRequests
  split_ifs
  · exact ht
  · refine (Ends.foldlM ht fun t' ht' r _ => ?_).bind fun t' ht' => ?_
    · refine (h.deleteRequest ht' p r).bind fun ⟨t₁, deleted⟩ ht₁ => ?_
      exact Ends.require (fun _ => ht₁) fun _ => h.request _ rfl
    · exact Ends.require (fun _ => h.updateLowPeers ht' reason) fun _ => h.request _ rfl

theorem cancelAllRequests (p : Nat) : Ends E I (t.cancelAllRequests p) :=
  (Ends.foldlM ht fun _ ht' r _ => h.cancel ht' p r).bind fun _ ht' =>
    Ends.require (fun _ => ht') fun _ => h.request _ rfl

theorem decExpectedChunkReceive (p r : Nat) : Ends E I (t.decExpectedChunkReceive p r) := by
  unfold Torrent.decExpectedChunkReceive
  split_ifs
  · exact h.request _ rfl
  · exact h.unexpected ht

theorem rejectRequest (p r : Nat) : Ends E (fun x => I x.1) (t.rejectRequest p r) := by
  refine (h.deleteRequest ht p r).bind fun ⟨t₁, deleted⟩ ht₁ => ?_
  cases deleted with
  | true => exact h.decPeakRequests ht₁ p
  | false => exact h.removeCancelled ht₁ p r

theorem remoteRejectedRequest (p r : Nat) :
    Ends E (fun x => I x.1) (t.remoteRejectedRequest p r) := by
  refine (h.rejectRequest ht p r).bind fun ⟨t₁, valid⟩ ht₁ => ?_
  cases valid with
  | false => exact ht₁
  | true =>
    exact (h.decExpectedChunkReceive (h.updateIfLow ht₁ p _) p r).bind fun _ ht₂ =>
      ends_pure.mpr ht₂

theorem requestSatisfied (p r : Nat) : Ends E I (t.requestSatisfied p r) := by
  have htake : Ends E (fun x => I x.1) (t.takeIntended p r) := by
    refine (h.deleteRequest ht p r).bind fun ⟨t₁, deleted⟩ ht₁ => ?_
    cases deleted with
    | true => exact ht₁
    | false => exact h.removeCancelled ht₁ p r
  refine htake.bind fun ⟨t₁, intended⟩ ht₁ => ?_
  cases intended with
  | true => exact h.updateIfLow ht₁ p _
  | false => exact ht₁

theorem cancelOther (p r : Nat) : Ends E I (t.cancelOther p r) := by
  unfold Torrent.cancelOther
  split
  · exact ht
  · split_ifs
    · exact h.request _ rfl
    · exact h.cancel ht _ r

end

theorem takeRequest (h : Unbooks E I) (ht : I t) (p r : Nat) :
    Ends E (fun x => ∀ t' ∈ x, I t') (t.takeRequest p r) := by
  unfold Torrent.takeRequest
  split
  · intro t' ht'
    exact some.inj ht' ▸ ht
  · split_ifs
    · intro t' ht'
      exact some.inj ht' ▸ ht
    · intro t' ht'
      cases ht'
    · refine (h.cancelRequest ht r).bind fun t'' ht'' => ?_
      intro t' ht'
      exact some.inj ht' ▸ ht''

end Unbooks

/-! ### Requests taken from another peer -/

/-- What an update of `p` does at other peers: the tables of `p` are as before, and so are the
webseed requests and all that is not about single requests. -/
def Elsewhere (p : Nat) (t t' : Torrent) : Prop :=
  ∃ reqs buf need peak, t' = { t with
      reqs := reqs, buf := buf, ctl.needRequestUpdate := need, ctl.peakRequests := peak } ∧
    reqs.requests p = t.reqs.requests p ∧ reqs.cancelled p = t.reqs.cancelled p ∧
    buf.len p = t.buf.len p ∧ peak p = t.ctl.peakRequests p ∧
    reqs.active = t.reqs.active ∧ reqs.running = t.reqs.running

namespace Elsewhere

variable {p q : Nat} {t₁ t₂ : Torrent}

theorem refl (p : Nat) (t : Torrent) : Elsewhere p t t :=
  ⟨_, _, _, _, rfl, rfl, rfl, rfl, rfl, rfl, rfl⟩

theorem trans (h₁ : Elsewhere p t t₁) (h₂ : Elsewhere p t₁ t₂) : Elsewhere p t t₂ := by
  obtain ⟨_, _, _, _, rfl, hr₁, hc₁, hb₁, hp₁, ha₁, hn₁⟩ := h₁
  obtain ⟨_, _, _, _, rfl, hr₂, hc₂, hb₂, hp₂, ha₂, hn₂⟩ := h₂
  exact ⟨_, _, _, _, rfl, hr₂.trans hr₁, hc₂.trans hc₁, hb₂.trans hb₁, hp₂.trans hp₁,
    ha₂.trans ha₁, hn₂.trans hn₁⟩

section

variable (h : Elsewhere p t t₁)
include h

theorem requests : t₁.reqs.requests p = t.reqs.requests p := by
  obtain ⟨_, _, _, _, rfl, hr, -⟩ := h
  exact hr

theorem cancelled : t₁.reqs.cancelled p = t.reqs.cancelled p := by
  obtain ⟨_, _, _, _, rfl, -, hc, -⟩ := h
  exact hc

theorem len : t₁.buf.len p = t.buf.len p := by
  obtain ⟨_, _, _, _, rfl, -, -, hb, -⟩ := h
  exact hb

theorem nominalMaxRequests : t₁.nominalMaxRequests p = t.nominalMaxRequests p := by
  obtain ⟨_, _, _, _, rfl, -, -, -, hp, -⟩ := h
  simp only [nominalMaxRequests, hp]

end

theorem deleteRequest (hE : ∀ e : Panic, e.group = .request → E e) (hq : q ≠ p) (r : Nat) :
    Ends E (fun x => Elsewhere p t x.1) (t.deleteRequest q r) := by
  unfold Torrent.deleteRequest
  split_ifs
  · exact hE _ rfl
  · exact ⟨_, _, _, _, rfl, update_of_ne hq.symm _ _, rfl, rfl, rfl, rfl, rfl⟩
  · exact refl p t

theorem writeCancel (hq : q ≠ p) : Elsewhere p t (t.writeCancel q) := by
  unfold Torrent.writeCancel
  split
  · exact ⟨_, _, _, _, rfl, rfl, rfl, update_of_ne hq.symm _ _, rfl, rfl, rfl⟩
  · exact refl p t

theorem addCancelled (hE : ∀ e : Panic, e.group = .request → E e) (hq : q ≠ p) (r : Nat) :
    Ends E (Elsewhere p t) (t.addCancelled q r) := by
  unfold Torrent.addCancelled
  split_ifs
  · exact hE _ rfl
  · exact ⟨_, _, _, _, rfl, rfl, update_of_ne hq.symm _ _, rfl, rfl, rfl, rfl⟩

theorem decPeakRequests (hq : q ≠ p) : Elsewhere p t (t.decPeakRequests q) :=
  ⟨_, _, _, _, rfl, rfl, rfl, rfl, update_of_ne hq.symm _ _, rfl, rfl⟩

theorem updateIfLow (p q : Nat) (reason : UpdateReason) :
    Elsewhere p t (t.updateIfLow q reason) := by
  unfold Torrent.updateIfLow Torrent.updateRequests
  split_ifs
  · exact refl p t
  · exact refl p t
  · exact ⟨_, _, _, _, rfl, rfl, rfl, rfl, rfl, rfl, rfl⟩
  · exact refl p t

theorem cancel (hE : ∀ e : Panic, e.group = .request → E e) (hq : q ≠ p) (r : Nat) :
    Ends E (Elsewhere p t) (t.cancel q r) := by
  refine (deleteRequest hE hq r).bind fun ⟨t₁, deleted⟩ h₁ => ?_
  refine Ends.require (fun _ => ?_) fun _ => hE _ rfl
  have hwrite : Elsewhere p t (t₁.writeCancel q) := h₁.trans (writeCancel hq)
  have hadd : Ends E (Elsewhere p t) (doIf (t₁.cancelAcked q r) (t₁.writeCancel q)
      ((t₁.writeCancel q).addCancelled q r)) :=
    Ends.doIf (fun _ => (addCancelled hE hq r).imp fun _ h => hwrite.trans h) fun _ => hwrite
  refine hadd.bind fun t₂ h₂ => ?_
  exact (h₂.trans (decPeakRequests hq)).trans (updateIfLow p q .cancel)

theorem takeRequest (hE : ∀ e : Panic, e.group = .request → E e) (r : Nat) :
    Ends E (fun x => ∀ t' ∈ x, Elsewhere p t t') (t.takeRequest p r) := by
  unfold Torrent.takeRequest
  split
  · intro t' ht'
    exact some.inj ht' ▸ refl p t
  · rename_i existing howner
    split_ifs with hp
    · intro t' ht'
      exact some.inj ht' ▸ refl p t
    · intro t' ht'
      cases ht'
    · have hcancel : Ends E (Elsewhere p t) (t.cancelRequesting r) := by
        unfold cancelRequesting
        rw [howner]
        exact cancel hE hp r
      refine Ends.bind (R := Elsewhere p t) ?_ fun t₂ h₂ t' ht' => ?_
      · exact hcancel.bind fun t₁ h₁ => Ends.require (fun _ => h₁) fun _ => hE _ rfl
      · exact some.inj ht' ▸ h₂

end Elsewhere

/-- The peer may be asked for more. -/
def BelowLimit (p : Nat) (t : Torrent) : Prop :=
  ((t.reqs.requests p).card + (t.reqs.cancelled p).card : Nat) < t.nominalMaxRequests p

theorem BelowLimit.requests_lt (h : BelowLimit p t) :
    (t.reqs.requests p).card < t.nominalMaxRequests p := by
  unfold BelowLimit at h
  omega

/-- The loop of `applyRequestState`. Its invariant `K` follows the requests still to be made; each
is taken from whoever has it (`T`), and made if the limit is not reached. -/
theorem applyRequests_ends {K : List Nat → Torrent → Prop} {T : Nat → List Nat → Torrent → Prop}
    {Q : Torrent × Bool → Prop} (hstop : ∀ {pops t}, K pops t → Q (t, true))
    (hskip : ∀ {req pops t}, K (req :: pops) t → K pops t)
    (htake : ∀ {req pops t}, K (req :: pops) t →
      Ends E (fun x => ∀ t' ∈ x, T req pops t') (t.takeRequest p req))
    (hmust : ∀ {req pops t}, T req pops t → BelowLimit p t →
      Ends E (fun x => if x.2 then K pops x.1 else Q x) (t.mustRequest p req)) {pops : List Nat}
    (ht : K pops t) : Ends E Q (applyRequests p pops t) := by
  induction pops generalizing t with
  | nil => exact hstop ht
  | cons req pops ih =>
    unfold applyRequests
    split_ifs with hlimit
    · exact hstop ht
    · have helse : Gives _ (t.takeRequest p req) :=
        Elsewhere.takeRequest (fun _ _ => trivial) req
      refine ((htake ht).and helse).bind fun x ⟨hx, helse⟩ => ?_
      cases x with
      | none => exact ih (hskip ht)
      | some t' =>
        have hbelow : BelowLimit p t' := by
          have := helse t' rfl
          unfold BelowLimit
          rw [this.requests, this.cancelled, this.nominalMaxRequests]
          exact not_le.mp hlimit
        refine (hmust (hx t' rfl) hbelow).bind fun ⟨t₁, more⟩ ht₁ => ?_
        cases more with
        | true => exact ih ht₁
        | false => exact ht₁

theorem getDesiredRequestState_ends (hE : E .nilStorage) (p : Nat) (input : StrategyInput) :
    Ends E (fun _ => True) (t.getDesiredRequestState p input) := by
  unfold getDesiredRequestState
  split_ifs
  · trivial
  · trivial
  · exact hE
  · trivial

/-- `I` does not look at the bookkeeping of requests, and `E` admits the panics that only requests
can cause. -/
structure ReqsFree (E : Panic → Prop) (I : Torrent → Prop) : Prop extends Aside I where
  panic : ∀ e : Panic, e.group = .request ∨ e.group = .choice ∨ e.group = .index → E e := by
    intros; trivial
  reqs : ∀ {t : Torrent}, I t → ∀ r, I { t with reqs := r } := by intros; assumption

namespace ReqsFree

section

variable (h : ReqsFree E I)
include h

theorem unbooks : Unbooks E I where
  toAside := h.toAside
  request e he := h.panic e (.inl he)
  withdrawn ht _ := h.reqs ht _
  cancelled ht _ _ := h.reqs ht _
  acknowledged ht := h.reqs ht _
  unexpected ht := h.reqs ht _

theorem mustRequest (ht : I t) (p r : Nat) : Ends E (fun x => I x.1) (t.mustRequest p r) := by
  have hshould : Ends E (fun _ => True) (t.shouldRequest p r) := by
    unfold shouldRequest
    split_ifs
    · exact h.panic _ (.inr (.inr rfl))
    · exact h.panic _ (.inr (.inr rfl))
    · split
      · exact h.panic _ (.inr (.inl rfl))
      · trivial
  refine hshould.bind fun _ _ => ?_
  split_ifs
  · exact ht
  · exact Ends.require (fun _ => h.sendRequest (h.reqs ht _) p) fun _ => h.panic _ (.inr (.inl rfl))

theorem applyRequests (p : Nat) (pops : List Nat) (ht : I t) :
    Ends E (fun x => I x.1) (applyRequests p pops t) :=
  applyRequests_ends (K := fun _ => I) (T := fun _ _ => I) (fun ht' => ht') (fun ht' => ht')
    (fun ht' => h.unbooks.takeRequest ht' p _)
    (fun ht' _ => (h.mustRequest ht' p _).imp fun _ hx => by split_ifs <;> exact hx) ht

theorem applyRequestState (hb : ∀ e : Panic, e.group = .buffer → E e)
    (ht : I t) (p : Nat) (next : DesiredRequestState) (pops : List Nat) :
    Ends E I (t.applyRequestState p next pops) := by
  refine Ends.require (fun _ => ?_) fun _ => hb _ rfl
  refine Ends.require (fun _ => ?_) fun _ => h.panic _ (.inr (.inl rfl))
  refine (h.applyRequests p _ (h.setInterested ht p _)).bind fun ⟨t₁, more⟩ ht₁ => ?_
  exact Ends.require (fun _ => h.requestsUpdated ht₁ p _) fun _ => hb _ rfl

theorem maybeUpdateActualRequestState
    (hb : ∀ e : Panic, e.group = .buffer → E e) (ht : I t) (p : Nat) (input : StrategyInput)
    (pops : List Nat) : Ends E I (t.maybeUpdateActualRequestState p input pops) := by
  unfold Torrent.maybeUpdateActualRequestState
  split_ifs
  · exact ht
  · exact ht
  · exact (getDesiredRequestState_ends (h.panic _ (.inr (.inr rfl))) p input).bind fun next _ =>
      h.applyRequestState hb ht p next pops

end

theorem and {E' : Panic → Prop} {J : Torrent → Prop} (hI : ReqsFree E I) (hJ : ReqsFree E' J) :
    ReqsFree E fun t => I t ∧ J t :=
  { hI.toAside.and hJ.toAside with
    panic := hI.panic
    reqs := fun h r => ⟨hI.reqs h.1 r, hJ.reqs h.2 r⟩ }

end ReqsFree

/-! ## Availability -/

/-- `I` does not look at which pieces peers have, and peers may be closed. -/
structure PeersAside (I : Torrent → Prop) : Prop where
  closed : ∀ {t : Torrent}, I t → ∀ p, I { t with
    avail.closed := update t.avail.closed p true } := by intros; assumption
  pieces : ∀ {t : Torrent}, I t → ∀ f, I { t with avail.peerPieces := f } := by intros; assumption
  sentHaveAll : ∀ {t : Torrent}, I t → ∀ f, I { t with avail.peerSentHaveAll := f } := by
    intros; assumption

/-- `I` withstands what happens to the availability of pieces, one change at a time, and `E` admits
the panics about it. -/
structure AvailSafe (E : Panic → Prop) (I : Torrent → Prop) : Prop
    extends Aside I, PeersAside I where
  availPanic : ∀ e : Panic, e.group = .avail ∨ e.group = .index → E e := by intros; trivial
  incPieceAvailability : ∀ {t}, I t → ∀ i, Ends E I (t.incPieceAvailability i)
  decPieceAvailability : ∀ {t}, I t → ∀ i, Ends E I (t.decPieceAvailability i)
  addConnWithAllPieces : ∀ {t}, I t → ∀ p, I (t.addConnWithAllPieces p)
  deleteConnWithAllPieces : ∀ {t}, I t → ∀ p, I (t.deleteConnWithAllPieces p).1

namespace AvailSafe

theorem decPieces (h : AvailSafe E I) (ht : I t) (pieces : Bitmap) :
    Ends E I (t.decPieces pieces) :=
  Ends.foldlM ht fun _ ht' i _ => h.decPieceAvailability ht' i

theorem decPeerPieceAvailability (h : AvailSafe E I) (ht : I t) (p : Nat) :
    Ends E I (t.decPeerPieceAvailability p) := by
  have hdel := h.deleteConnWithAllPieces ht p
  unfold Torrent.decPeerPieceAvailability
  split
  · rename_i heq
    rw [heq] at hdel
    exact hdel
  · rename_i heq
    rw [heq] at hdel
    split_ifs
    · exact hdel
    · exact h.decPieces hdel _

/-! The messages about pieces end with the peer being dropped if it is of no more use. -/

section Drop

variable (hdrop : ∀ {t : Torrent}, I t → ∀ p, Ends E I (t.maybeDropMutuallyCompletePeer p))

include hdrop

section

variable (h : AvailSafe E I)
include h

theorem onPeerHasAllPieces (ht : I t) (p : Nat) : Ends E I (t.onPeerHasAllPieces p) := by
  refine (Ends.doIf (fun _ => h.decPieces ht _) fun _ => ht).bind fun t₁ ht₁ => ?_
  have ht₂ := h.pieces (h.sentHaveAll (h.addConnWithAllPieces ht₁ p)
    (update (t₁.addConnWithAllPieces p).avail.peerSentHaveAll p true))
    (update (t₁.addConnWithAllPieces p).avail.peerPieces p Bitmap.empty)
  refine hdrop ?_ p
  split_ifs
  · exact ht₂
  · exact h.updateRequests ht₂ p (.inl nofun)

theorem peerSentHave (ht : I t) (p i : Nat) : Ends E (fun x => I x.1) (t.peerSentHave p i) := by
  unfold Torrent.peerSentHave
  split_ifs
  · exact ht
  · exact ht
  · have hgot : Ends E I (t.peerGotPiece p i) := by
      refine (h.incPieceAvailability ht i).bind fun t₁ ht₁ => ?_
      have ht₂ := h.pieces ht₁ (update t₁.avail.peerPieces p ((t₁.avail.peerPieces p).add i))
      refine hdrop ?_ p
      split_ifs
      · exact h.updateRequests ht₂ p (.inl nofun)
      · exact ht₂
    exact hgot.bind fun _ ht' => ends_pure.mpr ht'

theorem changePieces (ht : I t) (p : Nat) (changing : Bitmap) :
    Ends E I (t.changePieces p changing) := by
  have hloop : Ends E I (changing.elems.foldlM (changePiece p) t) := by
    refine Ends.foldlM ht fun t' ht' i _ => ?_
    unfold changePiece
    split_ifs
    · exact h.decPieceAvailability ht' i
    · exact h.incPieceAvailability ht' i
  refine hloop.bind fun t₁ ht₁ => ?_
  have ht₂ := h.pieces ht₁ (update t₁.avail.peerPieces p ((t₁.avail.peerPieces p).xor changing))
  refine hdrop ?_ p
  split_ifs
  · exact h.updateRequests ht₂ p (.inl nofun)
  · exact ht₂

theorem peerSentBitfield (ht : I t) (p : Nat) (bf : List Bool) :
    Ends E I (t.peerSentBitfield p bf) := by
  refine Ends.require (fun _ => ?_) fun _ => h.availPanic _ (.inr rfl)
  dsimp only
  split_ifs
  · exact h.onPeerHasAllPieces hdrop ht p
  · have htake : Ends E I (t.takeBackHaveAll p) := by
      refine Ends.require (fun _ => ?_) fun _ => h.availPanic _ (.inl rfl)
      refine Ends.require (fun _ => ?_) fun _ => h.availPanic _ (.inl rfl)
      exact h.sentHaveAll (h.deleteConnWithAllPieces ht p) _
    exact htake.bind fun _ ht' => h.changePieces hdrop ht' p _
  · exact h.changePieces hdrop ht p _

theorem peerSentHaveNone (ht : I t) (p : Nat) : Ends E I (t.peerSentHaveNone p) := by
  refine (Ends.doIf (fun _ => h.decPeerPieceAvailability ht p) fun _ => ht).bind fun t₁ ht₁ => ?_
  exact hdrop (h.sentHaveAll (h.pieces ht₁ (update t₁.avail.peerPieces p Bitmap.empty))
    (update t₁.avail.peerSentHaveAll p false)) p

end

end Drop

end AvailSafe

/-! ## Availability and the piece request order -/

/-- `I` does not look at which pieces peers have, nor at the piece request order, and `E` admits
the panics that only these can cause. -/
structure AvailFree (E : Panic → Prop) (I : Torrent → Prop) : Prop
    extends Aside I, PeersAside I where
  availPanic : ∀ e : Panic, e.group = .avail ∨ e.group = .order ∨ e.group = .index → E e := by
    intros; trivial
  relative : ∀ {t : Torrent}, I t → ∀ f, I { t with avail.relative := f } := by intros; assumption
  withAll : ∀ {t : Torrent}, I t → ∀ l n,
    I { t with avail.connsWithAllPieces := l, avail.moves := n } := by intros; assumption
  order : ∀ {t : Torrent}, I t → ∀ o, I { t with order := o } := by intros; assumption

namespace AvailFree

section

variable (h : AvailFree E I)
include h

theorem updatePieceRequestOrder (ht : I t) (i : Nat) : Ends E I (t.updatePieceRequestOrder i) := by
  unfold Torrent.updatePieceRequestOrder
  split_ifs
  · exact ht
  · exact h.availPanic _ (.inr (.inr rfl))
  · exact h.availPanic _ (.inr (.inl rfl))
  · exact h.order ht _

theorem addRequestOrderPiece (ht : I t) (i : Nat) : Ends E I (t.addRequestOrderPiece i) := by
  unfold Torrent.addRequestOrderPiece
  split_ifs
  · exact ht
  · exact h.availPanic _ (.inr (.inl rfl))
  · exact h.order ht _

theorem deletePieceRequestOrder (ht : I t) : I t.deletePieceRequestOrder := by
  unfold Torrent.deletePieceRequestOrder
  split_ifs
  · exact ht
  · exact h.order ht _

theorem safe : AvailSafe E I where
  toAside := h.toAside
  toPeersAside := h.toPeersAside
  availPanic e he := h.availPanic e (he.imp_right .inr)
  incPieceAvailability {t} ht i := by
    unfold incPieceAvailability
    split_ifs
    · exact ht
    · exact h.availPanic _ (.inr (.inr rfl))
    · exact h.updatePieceRequestOrder (h.relative ht _) i
  decPieceAvailability {t} ht i := by
    unfold decPieceAvailability
    split_ifs
    · exact ht
    · exact h.availPanic _ (.inr (.inr rfl))
    · exact h.availPanic _ (.inl rfl)
    · exact h.updatePieceRequestOrder (h.relative ht _) i
  addConnWithAllPieces {t} ht p := by
    unfold addConnWithAllPieces
    split_ifs <;> first | exact ht | exact h.withAll ht _ _
  deleteConnWithAllPieces {t} ht p := by
    unfold deleteConnWithAllPieces
    split_ifs <;> first | exact ht | exact h.withAll ht _ _

theorem assertAllPiecesRelativeAvailabilityZero (ht : I t) :
    Ends E I t.assertAllPiecesRelativeAvailabilityZero := by
  unfold Torrent.assertAllPiecesRelativeAvailabilityZero
  split_ifs
  · exact ht
  · exact h.availPanic _ (.inl rfl)

end

end AvailFree

/-! ## Closing and dropping peers -/

theorem ends_close (hu : Unbooks E I) (ha : AvailSafe E I) (ht : I t) (p : Nat) :
    Ends E I (t.close p) := by
  unfold close
  split_ifs
  · exact ht
  · have hclose : Ends E I ({ t with avail.closed := update t.avail.closed p true }.onClose p) := by
      have ht₁ := ha.closed ht p
      unfold onClose
      split
      · exact ht₁
      · exact (hu.cancelAllRequests ht₁ p).bind fun _ ht' => hu.updateLowPeers ht' _
    exact hclose.bind fun _ ht' => ha.decPeerPieceAvailability ht' p

/-- Connections may go. -/
structure ConnsGo (I : Torrent → Prop) : Prop where
  conns : ∀ {t : Torrent} {p}, I t → t.avail.closed p = true →
    I { t with avail.conns := t.avail.conns.erase p } := by intros; assumption

/-- `I` withstands what happens to requests and to availability when peers are closed, and
connections may go. -/
structure PeersLeave (E : Panic → Prop) (I : Torrent → Prop) : Prop
    extends Unbooks E I, AvailSafe E I, ConnsGo I

namespace PeersLeave

theorem close (h : PeersLeave E I) (ht : I t) (p : Nat) : Ends E I (t.close p) :=
  ends_close h.toUnbooks h.toAvailSafe ht p

theorem deletePeerConn (h : PeersLeave E I) (ht : I t) (p : Nat) :
    Ends E I (t.deletePeerConn p) := by
  refine Ends.require (fun hclosed => ?_) fun _ => h.availPanic _ (.inl rfl)
  refine (h.deleteAllRequests (h.conns ht hclosed) p _).bind fun t' ht' => ?_
  exact Ends.require (fun _ => ht') fun _ => h.availPanic _ (.inl rfl)

theorem dropConnection (h : PeersLeave E I) (ht : I t) (p : Nat) : Ends E I (t.dropConnection p) :=
  (h.close ht p).bind fun _ ht' => h.deletePeerConn ht' p

end PeersLeave

/-- `I` does not look at requests, withstands what happens to availability, and connections may
go. -/
structure PeersSafe (E : Panic → Prop) (I : Torrent → Prop) : Prop
    extends ReqsFree E I, AvailSafe E I, ConnsGo I

namespace PeersSafe

theorem leave (h : PeersSafe E I) : PeersLeave E I :=
  { h.toReqsFree.unbooks, h.toAvailSafe with conns := h.conns }

theorem close (h : PeersSafe E I) (ht : I t) (p : Nat) : Ends E I (t.close p) := h.leave.close ht p

theorem dropConnection (h : PeersSafe E I) (ht : I t) (p : Nat) :
    Ends E I (t.dropConnection p) := h.leave.dropConnection ht p

end PeersSafe

/-- `I` does not look at what peers have or are asked for, and connections may go. -/
structure PeersFree (E : Panic → Prop) (I : Torrent → Prop) : Prop
    extends ReqsFree E I, AvailFree E I, ConnsGo I

theorem PeersFree.safe (h : PeersFree E I) : PeersSafe E I :=
  { h.toReqsFree, h.toAvailFree.safe with conns := h.conns }

theorem ends_maybeDrop (p : Nat) (ht : I t)
    (hdrop : t.haveAllPieces = true → t.isConn p = true → Ends E I (t.dropConnection p)) :
    Ends E I (t.maybeDropMutuallyCompletePeer p) := by
  unfold maybeDropMutuallyCompletePeer
  split_ifs with h₁ h₂
  · exact ht
  · exact ht
  · exact ht
  · exact ht
  · unfold drop
    split
    · rename_i hkind
      exact hdrop (by simpa using h₂) (by simp [isConn, hkind])
    · exact ht

end ReliableBT
