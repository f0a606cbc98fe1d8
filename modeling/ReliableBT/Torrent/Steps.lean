import ReliableBT.Torrent.Upkeep

/-!
# What one step keeps

`Keeps E C I` lists, event by event, what an invariant `I` has to withstand when the step meets the
condition `C`; `Keeps.step` is the case distinction over all events, made once. What an event shares
with others (upkeep of pieces, dropping a connection after a bad message, the end of a hasher) is
taken apart here, so that a field is about the one thing the event does. The fields of `KeepsPieces`
are not about peers; `KeepsPieces.keeps` has the others for an invariant that withstands what
happens to peers. `KeepsSteps` is for an invariant that holds at the end of a hasher's turn with the
lock and not all the way through it. An invariant that does not look at writes, storage and dirty
chunks withstands received chunks (`WritesFree`).

`Ground` is what every invariant may rely on: the connections and the webseeds of a torrent are
different peers, of the right kind, no peer number is used twice, and whoever has gone is closed;
only pieces that the torrent has are complete or queued; and a piece that a hasher waits for or
reads is marked as hashing, once.
-/

open List Function Set

namespace ReliableBT

open Torrent

/-- Connections and webseeds are distinct, known, and of the right kind. -/
structure RosterOf (isConn : Nat → Bool) (conns webSeeds peerIds : List Nat) : Prop where
  conn : ∀ p ∈ conns, isConn p = true
  web : ∀ p ∈ webSeeds, isConn p = false
  known : ∀ p ∈ conns ++ webSeeds, p ∈ peerIds
  nodup : (conns ++ webSeeds).Nodup

/-- The hasher at `k` is waiting for piece `i` or reading it. -/
def Busy (hashers : List Hasher) (k i : Nat) : Prop :=
  hashers[k]? = some ⟨i, .waiting⟩ ∨ ∃ bytes, hashers[k]? = some ⟨i, .reading bytes⟩

/-- A piece that a hasher waits for or reads is marked as hashing, and no other hasher does; but for
the hasher that is done. -/
structure HashersRight (d : Option ℕ) (hashing : Nat → Bool) (hashers : List Hasher) : Prop where
  marked : ∀ k i, Busy hashers k i → d ≠ some k → hashing i = true
  distinct : ∀ k k' i, Busy hashers k i → Busy hashers k' i → d ≠ some k → d ≠ some k' → k = k'

/-- The peers are in order, and so are the complete pieces, the queue, the hashers and the requests
of peers. -/
structure GroundOf (d : Option ℕ) (isConn : Nat → Bool) (conns webSeeds peerIds : List Nat)
    (closed : Nat → Bool) (completed queue : Bitmap) (hashing : Nat → Bool)
    (hashers : List Hasher) (peerRequests : Nat → List Request) (numPieces : Nat) : Prop
    extends RosterOf isConn conns webSeeds peerIds, HashersRight d hashing hashers where
  gone : ∀ p ∈ peerIds, p ∉ conns ++ webSeeds → closed p = true
  complete : ∀ i ∈ completed, i < numPieces
  queued : ∀ i ∈ queue, i < numPieces
  asked : ∀ p, ∀ r ∈ peerRequests p, r.index < numPieces

/-- What is true of every torrent: its peers, complete pieces and hashers are in order. -/
def Ground (d : Option ℕ) (t : Torrent) : Prop :=
  GroundOf d t.isConn t.avail.conns t.avail.webSeeds t.avail.peerIds t.avail.closed
    t.comp.completed t.hash.queued t.hash.hashing t.hash.hashers t.up.peerRequests t.numPieces

/-- `J` does not look at how far the hashers are, at the completion in storage and at what was
verified. -/
structure HashersFree (J : Torrent → Prop) : Prop where
  hashers : ∀ {t : Torrent}, J t → ∀ l, J { t with hash.hashers := l }
  completion : ∀ {t : Torrent}, J t → ∀ c, J { t with storage.completion := c }
  verified : ∀ {t : Torrent}, J t → ∀ v, J { t with hash.verified := v }

namespace HashersFree

variable {J : Torrent → Prop} {t : Torrent}

theorem hashPiece (h : HashersFree J) (ht : J t) (k n : Nat) : J (t.hashPiece k n) := by
  unfold Torrent.hashPiece
  split
  · split_ifs
    · exact h.hashers ht _
    · exact ht
  · exact h.hashers ht _
  · exact ht

theorem markedComplete (h : HashersFree J) (ht : J t) (k : Nat) (ok : Bool) :
    J (t.markedComplete k ok) := by
  unfold Torrent.markedComplete markComplete
  split
  · split_ifs
    · exact h.hashers (h.completion ht _) _
    · exact h.hashers ht _
  · exact ht

theorem setVerified (h : HashersFree J) (ht : J t) (i : Nat) (bytes : List UInt8) :
    J (t.setVerified i bytes) := by
  unfold Torrent.setVerified
  split_ifs
  · exact h.verified ht _
  · exact ht

end HashersFree

/-- What an invariant withstands of updates of requests and of what webseeds send. -/
structure KeepsUpdates (E : Panic → Prop) (C : Torrent → Event → Prop) (J : Torrent → Prop) :
    Prop where
  fill : ∀ {t p input pops pex actions}, J t → p ∈ t.avail.conns →
    C t (.fill p input pops pex actions) →
    Ends E J (t.maybeUpdateActualRequestState p input pops)
  updateWebseed : ∀ {t p input pops}, J t → p ∈ t.avail.webSeeds → t.isConn p = false →
    C t (.updateWebseed p input pops) →
    Ends E J (t.maybeUpdateActualRequestState p input pops)
  webseedResult : ∀ {t p r result now}, J t → (p, r) ∈ t.reqs.running →
    C t (.webseedResult p r result now) → Ends E J (t.requestResultHandler p r result now)

/-- What an invariant withstands of chunks and their writes, too. -/
structure KeepsWrites (E : Panic → Prop) (C : Torrent → Event → Prop) (J : Torrent → Prop) : Prop
    extends KeepsUpdates E C J where
  receiveChunk : ∀ {t p msg ext now}, J t → p ∈ t.avail.conns → msg.type = .piece →
    C t (.message p msg ext now) →
    Ends E (fun x => J x.1) (t.receiveChunk p msg.index.toNat msg.begin.toNat msg.piece now)
  writeChunk : ∀ {t k stop}, J t → Ends E J (t.writeChunk k stop)
  chunkWritten : ∀ {t k ok}, J t → Ends E J (t.chunkWritten k ok)

/-- What an invariant withstands of updates, of the info and of peers that join. -/
structure KeepsJoins (E : Panic → Prop) (C : Torrent → Event → Prop) (J : Torrent → Prop) : Prop
    extends KeepsUpdates E C J where
  gotInfo : ∀ {t info}, J t → Ground none t → t.info = none → C t (.setInfo info) →
    Ends E J (t.gotInfo info)
  addPeerConn : ∀ {t p fast transmission addr}, J t → p ∉ t.avail.peerIds →
    J (t.peerConnAdded p fast transmission addr)
  addWebSeed : ∀ {t p conforming addr}, J t → p ∉ t.avail.peerIds →
    Ends E J (t.addWebSeed p conforming addr)
  reorder : ∀ {t conns}, J t → conns.Perm t.avail.conns → J { t with avail.conns := conns }

/-- What an invariant withstands of everything but peers and what a hasher does with the lock. -/
structure KeepsRest (E : Panic → Prop) (C : Torrent → Event → Prop)
    (I : Set ℕ → Option ℕ → Torrent → Prop) : Prop
    extends Queue E (fun _ => True) I, KeepsJoins E C (I ∅ none), KeepsWrites E C (I ∅ none) where
  hashPiece : ∀ {t k n}, I ∅ none t → I ∅ none (t.hashPiece k n)
  markedComplete : ∀ {t k ok}, I ∅ none t → I ∅ none (t.markedComplete k ok)
  storageCompletion : ∀ {S d t}, I S d t → ∀ c, I S d { t with storage.completion := c }
  prio : Priorities E C fun S => I S none
  closeTorrent : ∀ {t}, I ∅ none t → C t .close → Ends E (I ∅ none) t.closeTorrent

/-- What an invariant withstands of pieces and of what the application does. -/
structure KeepsPieces (E : Panic → Prop) (C : Torrent → Event → Prop)
    (I : Set ℕ → Option ℕ → Torrent → Prop) : Prop extends KeepsRest E C I where
  hashed : ∀ {t : Torrent} {k i : Nat} {bytes : List UInt8}, I ∅ none t →
    t.hash.hashers[k]? = some ⟨i, .reading bytes⟩ →
    I (insert i ∅) (some k) { t with hash.hashing := Function.update t.hash.hashing i false }
  toMarking : ∀ {t : Torrent} {k i : Nat} {bytes : List UInt8}, I ∅ none t →
    t.hash.hashers[k]? = some ⟨i, .reading bytes⟩ → t.hash.hashing i = true →
    I ∅ none { t with
      hash.hashing := Function.update t.hash.hashing i false
      hash.marking := Function.update t.hash.marking i true
      hash.hashers := t.hash.hashers.set k ⟨i, .marking bytes false⟩ }
  marking : ∀ {S d t}, I S d t → ∀ i b, I (insert i S) d (t.setMarking i b)
  verified : ∀ {S d} {t : Torrent} {k i : Nat} {bytes : List UInt8}, I S d t →
    t.hash.hashers[k]? = some ⟨i, .marking bytes true⟩ → I S d (t.setVerified i bytes)
  done : ∀ {S t}, I S none t → ∀ k, I S (some k) t
  unspawn : ∀ {t k}, I ∅ (some k) t → I ∅ none { t with
    hash.activePieceHashes := t.hash.activePieceHashes - 1
    hash.hashers := t.hash.hashers.eraseIdx k }

/-- What an invariant withstands of peers. -/
structure KeepsPeers (E : Panic → Prop) (C : Torrent → Event → Prop)
    (I : Set ℕ → Option ℕ → Torrent → Prop) : Prop where
  close : ∀ {S d t p}, I S d t → p ∈ t.iterPeers → Ends E (I S d) (t.close p)
  dropConnection : ∀ {S d t p}, I S d t → p ∈ t.avail.peerIds → t.isConn p = true →
    Ends E (I S d) (t.dropConnection p)
  deleteAllRequests : ∀ {t p reason}, I ∅ none t → t.isConn p = true →
    Ends E (I ∅ none) (t.deleteAllRequests p reason)
  peerSentHave : ∀ {t p i}, I ∅ none t → p ∈ t.avail.conns → t.avail.closed p = false →
    Ends E (fun x => I ∅ none x.1) (t.peerSentHave p i)
  peerSentBitfield : ∀ {t p bf}, I ∅ none t → p ∈ t.avail.conns → t.avail.closed p = false →
    Ends E (I ∅ none) (t.peerSentBitfield p bf)
  onPeerHasAllPieces : ∀ {t p}, I ∅ none t → p ∈ t.avail.conns → t.avail.closed p = false →
    Ends E (I ∅ none) (t.onPeerHasAllPieces p)
  peerSentHaveNone : ∀ {t p msg ext now}, I ∅ none t → p ∈ t.avail.conns →
    t.avail.closed p = false → msg.type = .haveNone → C t (.message p msg ext now) →
    Ends E (I ∅ none) (t.peerSentHaveNone p)
  remoteRejectedRequest : ∀ {t p r}, I ∅ none t → t.isConn p = true →
    Ends E (fun x => I ∅ none x.1) (t.remoteRejectedRequest p r)
  webseedRequest : ∀ {t p}, I ∅ none t → p ∈ t.avail.peerIds → t.isConn p = false →
    Ends E (I ∅ none) (t.webseedRequest p)
  webseedDone : ∀ {t p r}, I ∅ none t → (p, r) ∉ t.reqs.running →
    I ∅ none { t with reqs.active := t.reqs.active.erase (p, r) }

/-- What an invariant withstands, so that every step meeting `C` keeps it: of peers, too. -/
structure Keeps (E : Panic → Prop) (C : Torrent → Event → Prop)
    (I : Set ℕ → Option ℕ → Torrent → Prop) : Prop extends KeepsPieces E C I, KeepsPeers E C I

/-- What an invariant withstands, so that every step meeting `C` keeps it, with the turns of a
hasher as a whole: it may be broken in the middle of them. -/
structure KeepsSteps (E : Panic → Prop) (C : Torrent → Event → Prop)
    (I : Set ℕ → Option ℕ → Torrent → Prop) : Prop extends KeepsRest E C I, KeepsPeers E C I where
  pieceHasher : ∀ {t}, Ground none t → I ∅ none t → ∀ k drops bans ok,
    Ends E (I ∅ none) (t.pieceHasher k drops bans ok)
  pieceMarked : ∀ {t}, I ∅ none t → ∀ k, Ends E (I ∅ none) (t.pieceMarked k)

variable {E : Panic → Prop} {C : Torrent → Event → Prop}
  {I : Set ℕ → Option ℕ → Torrent → Prop} {S : Set ℕ} {d : Option ℕ} {t : Torrent}
  {x : Except Panic Torrent}

/-! ## Kinds of peers do not change -/

/-- No peer has been added and none has changed its kind; the info is the same. -/
def SameKinds (t₀ t : Torrent) : Prop :=
  t.kind = t₀.kind ∧ t.avail.peerIds = t₀.avail.peerIds ∧
    t.avail.webSeeds = t₀.avail.webSeeds ∧ t.info = t₀.info

theorem SameKinds.refl (t : Torrent) : SameKinds t t := ⟨rfl, rfl, rfl, rfl⟩

theorem sameKinds_peersFree (t₀ : Torrent) : PeersFree (fun _ => True) (SameKinds t₀) := {}

theorem sameKinds_plain (t₀ : Torrent) : Plain (fun _ => True) (fun _ => True) (SameKinds t₀) :=
  (sameKinds_peersFree t₀).plain (fun h _ => h) (fun _ h => h) (fun _ h _ => h)
    (fun h _ _ _ _ => h) fun h _ => h

theorem onSetInfo_sameKinds (t : Torrent) : Gives (SameKinds t)
    ((range t.numPieces).foldlM onSetInfoPiece t) :=
  Ends.foldlM (.refl t) fun _ ht' i _ => (sameKinds_peersFree t).toAvailFree.onSetInfoPiece
    (I := fun _ _ => SameKinds t) (S := ∅) (d := none) (sameKinds_plain t).toQueue ht' i

theorem SameKinds.isConn {t₀ : Torrent} (h : SameKinds t₀ t) (p : Nat) :
    t.isConn p = t₀.isConn p := by
  unfold Torrent.isConn
  rw [h.1]

theorem Unbooks.receiveChunk {I Q : Torrent → Prop} (h : Unbooks E I) (hQ : ∀ t, I t → Q t)
    (ht : I t) (p index begin : Nat) (data : List UInt8) (now : Nat)
    (hwrite : ∀ t', I t' → t'.haveChunk index begin = false →
      t.checkValidReceiveChunk ⟨index, begin, u32 data.length⟩ = none →
      Ends E Q (t'.beginWrite
        ⟨p, index, begin, data, t.requestIndexFromRequest ⟨index, begin, u32 data.length⟩, 0⟩
        now)) :
    Ends E (fun x => Q x.1) (t.receiveChunk p index begin data now) := by
  unfold Torrent.receiveChunk
  dsimp only
  split
  · exact hQ t ht
  · rename_i hvalid
    split_ifs
    · exact hQ t ht
    · refine (h.decExpectedChunkReceive ht p _).bind fun t₁ ht₁ => ?_
      refine (h.requestSatisfied ht₁ p _).bind fun t₂ ht₂ => ?_
      split_ifs with hhave
      · exact hQ t₂ ht₂
      · exact (hwrite t₂ ht₂ (by simpa using hhave) hvalid).bind fun t₃ ht₃ => ends_pure.mpr ht₃

theorem ReqsFree.webseedRequest {I : Torrent → Prop} (h : ReqsFree E I) (ht : I t) (p : Nat) :
    Ends E I (t.webseedRequest p) := by
  unfold Torrent.webseedRequest
  split
  · exact ht
  · split_ifs
    · exact h.panic _ (.inr (.inl rfl))
    · exact h.reqs ht _

variable {p : Nat} {isConn : Nat → Bool} {conns webSeeds peerIds : List Nat} {q : Nat}
  {J : Torrent → Prop}

theorem Unbooks.requestResultHandler {I : Torrent → Prop} (h : Unbooks E I) {r : Request}
    {result : Option (List UInt8)} {now : Nat}
    (ht₁ : I { t with reqs.running := t.reqs.running.erase (p, r) })
    (hreceive : ∀ bytes, result = some bytes → I { t with
        reqs.running := t.reqs.running.erase (p, r) } →
      Ends E (fun x => I x.1) ({ t with reqs.running := t.reqs.running.erase (p, r) }.receiveChunk
        p r.index r.begin bytes now)) : Ends E I (t.requestResultHandler p r result now) := by
  unfold Torrent.requestResultHandler
  dsimp only
  split_ifs
  · exact ht₁
  · cases result with
    | none =>
      refine (h.remoteRejectedRequest ht₁ p _).bind ?_
      rintro ⟨t₂, valid⟩ ht₂
      exact Ends.require (fun _ => ht₂) fun _ => h.request _ rfl
    | some bytes =>
      refine (hreceive bytes rfl ht₁).bind ?_
      rintro ⟨t₂, err⟩ ht₂
      exact Ends.require (fun _ => ht₂) fun _ => h.request _ rfl

/-! ## Invariants that do not look at writes -/

/-- `J` does not look at chunk writes, at storage and at which chunks are dirty. -/
structure WritesFree (E : Panic → Prop) (J : Torrent → Prop) : Prop extends Aside J where
  indexPanic : ∀ e : Panic, e.group = .index → E e := by intros; trivial
  storePanic : ∀ e : Panic, e.group = .store → E e := by intros; trivial
  entry : ∀ {t}, J t → ∀ i, Ends E J (t.updatePieceRequestOrder i)
  writes : ∀ {t : Torrent}, J t → ∀ writes storage dirtyChunks, J { t with
    writes := writes, storage := storage, dirtyChunks := dirtyChunks } := by intros; assumption

namespace WritesFree

section

variable (h : WritesFree E J)
include h

theorem writeChunk (ht : J t) (k stop : Nat) : Ends E J (t.writeChunk k stop) := by
  unfold Torrent.writeChunk
  split
  · exact ht
  · exact Ends.require (fun _ => h.writes ht _ _ _) fun _ => h.storePanic _ rfl

theorem pendRequest (ht : J t) (r : Nat) : Ends E J (t.pendRequest r) := by
  unfold Torrent.pendRequest
  split_ifs
  · exact h.indexPanic _ rfl
  · dsimp only
    split_ifs
    · exact h.indexPanic _ rfl
    · exact h.entry (h.writes ht _ _ _) _

theorem decrementPendingWrites (ht : J t) (k i : Nat) :
    Ends E J (t.decrementPendingWrites k i) := by
  unfold Torrent.decrementPendingWrites
  split_ifs
  · exact h.storePanic _ rfl
  · exact h.writes ht _ _ _

theorem chunkWritten
    (hcheck : ∀ {t}, J t → ∀ i, Ends E J (t.queuePieceCheck i)) (ht : J t) (k : Nat)
    (ok : Bool) : Ends E J (t.chunkWritten k ok) := by
  unfold Torrent.chunkWritten
  split
  · exact ht
  · rename_i w hk
    refine Ends.require (fun _ => ?_) fun _ => h.storePanic _ rfl
    refine (h.decrementPendingWrites ht k w.index).bind fun t₁ ht₁ => ?_
    split_ifs
    · unfold chunkStored
      dsimp only
      split_ifs
      · exact hcheck (h.writes ht₁ _ _ _) w.index
      · exact h.writes ht₁ _ _ _
    · exact (h.pendRequest ht₁ w.req).bind fun _ ht₂ => h.updateRequests ht₂ _ (.inl nofun)

theorem beginWrite (ht : J t) (w : ChunkWrite) (now : Nat)
    (hcancel : ∀ {t' : Torrent}, J t' → Ends E J (t'.cancelOther w.peer w.req)) :
    Ends E J (t.beginWrite w now) := by
  refine (h.entry (h.writes (h.usefulChunk ht w.peer now) _ _ _) _).bind fun t₁ ht₁ => ?_
  exact (hcancel ht₁).bind fun t₂ ht₂ => h.writes ht₂ _ _ _

theorem receiveChunk (hr : Unbooks E J) (ht : J t) (p index begin : Nat)
    (data : List UInt8) (now : Nat) :
    Ends E (fun x => J x.1) (t.receiveChunk p index begin data now) :=
  hr.receiveChunk (fun _ ht' => ht') ht p index begin data now fun _ ht' _ _ =>
    h.beginWrite ht' _ now fun ht'' => hr.cancelOther ht'' _ _

theorem requestResultHandler (hr : ReqsFree E J) (ht : J t) (p : Nat)
    (r : Request) (result : Option (List UInt8)) (now : Nat) :
    Ends E J (t.requestResultHandler p r result now) :=
  hr.unbooks.requestResultHandler (hr.reqs ht _) fun _ _ ht₁ =>
    h.receiveChunk hr.unbooks ht₁ _ _ _ _ _

theorem keepsWrites (hr : ReqsFree E J) (hbuffer : ∀ e : Panic, e.group = .buffer → E e)
    (hcheck : ∀ {t}, J t → ∀ i, Ends E J (t.queuePieceCheck i)) : KeepsWrites E C J where
  fill ht _ _ := hr.maybeUpdateActualRequestState hbuffer ht _ _ _
  updateWebseed ht _ _ _ := hr.maybeUpdateActualRequestState hbuffer ht _ _ _
  webseedResult ht _ _ := h.requestResultHandler hr ht _ _ _ _
  receiveChunk ht _ _ _ := h.receiveChunk hr.unbooks ht _ _ _ _ _
  writeChunk ht := h.writeChunk ht _ _
  chunkWritten ht := h.chunkWritten hcheck ht _ _

end

end WritesFree

theorem sameKinds_writesFree (t₀ : Torrent) : WritesFree (fun _ => True) (SameKinds t₀) where
  entry h _ := (sameKinds_peersFree t₀).updatePieceRequestOrder h _

/-! ## The peers -/

theorem RosterOf.erase (h : RosterOf isConn conns webSeeds peerIds) (p : Nat) :
    RosterOf isConn (conns.erase p) webSeeds peerIds := by
  have hsub : (conns.erase p ++ webSeeds).Sublist (conns ++ webSeeds) :=
    (erase_sublist (a := p)).append (List.Sublist.refl _)
  exact ⟨fun q hq => h.conn q (mem_of_mem_erase hq), h.web,
    fun q hq => h.known q (hsub.subset hq), h.nodup.sublist hsub⟩

section Join

variable {isConn isConn' : Nat → Bool} {conns webSeeds peerIds : List Nat} {p : Nat}
  (h : RosterOf isConn conns webSeeds peerIds) (hp : p ∉ peerIds)
  (hkind : ∀ q ≠ p, isConn' q = isConn q)

include h hp hkind

theorem RosterOf.addConn (hself : isConn' p = true) :
    RosterOf isConn' (p :: conns) webSeeds (p :: peerIds) where
  conn q hq := by
    rcases mem_cons.mp hq with rfl | hq
    · exact hself
    · have hne : q ≠ p := fun heq => hp (heq ▸ h.known q (mem_append_left _ hq))
      exact (hkind q hne).trans (h.conn q hq)
  web q hq := by
    have hne : q ≠ p := fun heq => hp (heq ▸ h.known q (mem_append_right _ hq))
    exact (hkind q hne).trans (h.web q hq)
  known q hq := by
    rcases mem_cons.mp hq with rfl | hq
    · exact mem_cons_self
    · exact mem_cons_of_mem p (h.known q hq)
  nodup := nodup_cons.mpr ⟨fun hmem => hp (h.known p hmem), h.nodup⟩

theorem RosterOf.addWebSeed (hself : isConn' p = false) :
    RosterOf isConn' conns (p :: webSeeds) (p :: peerIds) where
  conn q hq := by
    have hne : q ≠ p := fun heq => hp (heq ▸ h.known q (mem_append_left _ hq))
    exact (hkind q hne).trans (h.conn q hq)
  web q hq := by
    rcases mem_cons.mp hq with rfl | hq
    · exact hself
    · have hne : q ≠ p := fun heq => hp (heq ▸ h.known q (mem_append_right _ hq))
      exact (hkind q hne).trans (h.web q hq)
  known q hq := by
    rcases mem_cons.mp (perm_middle.mem_iff.mp hq) with rfl | hq
    · exact mem_cons_self
    · exact mem_cons_of_mem p (h.known q hq)
  nodup := by
    refine perm_middle.nodup_iff.mpr (nodup_cons.mpr ⟨?_, h.nodup⟩)
    exact fun hmem => hp (h.known p hmem)

end Join

theorem RosterOf.reorder {conns' : List Nat} (h : RosterOf isConn conns webSeeds peerIds)
    (hperm : conns'.Perm conns) : RosterOf isConn conns' webSeeds peerIds :=
  ⟨fun q hq => h.conn q (hperm.mem_iff.mp hq), h.web,
    fun q hq => h.known q ((hperm.append_right _).mem_iff.mp hq),
    (hperm.append_right _).nodup_iff.mpr h.nodup⟩

theorem newPeer_isConn (t : Torrent) (p : Nat) (kind : PeerKind) (addr : Option (Nat × Nat))
    (n : Int) (b : Bool) (hq : q ≠ p) : (t.newPeer p kind addr n b).isConn q = t.isConn q := by
  unfold isConn newPeer
  dsimp only
  rw [update_of_ne hq]

theorem mem_of_mem_update_nil {α : Type*} {f : Nat → List α} {a : α}
    (ha : a ∈ update f p [] q) : a ∈ f q := by
  by_cases hq : q = p
  · subst hq
    simp at ha
  · rwa [update_of_ne hq] at ha

/-! ## Hashers -/

theorem update_true_iff {f : Nat → Bool} {i j : Nat} :
    update f i true j = true ↔ j = i ∨ f j = true := by
  by_cases hji : j = i
  · simp [hji]
  · simp [hji]

namespace HashersRight

variable {hashing : Nat → Bool} {hashers hashers' : List Hasher} {k i : Nat}

theorem mono (h : HashersRight d hashing hashers)
    (hbusy : ∀ k i, Busy hashers' k i → Busy hashers k i) : HashersRight d hashing hashers' where
  marked k i hk := h.marked k i (hbusy k i hk)
  distinct k k' i hk hk' := h.distinct k k' i (hbusy k i hk) (hbusy k' i hk')

theorem done (h : HashersRight none hashing hashers) (k : Nat) :
    HashersRight (some k) hashing hashers where
  marked k' i hk' _ := h.marked k' i hk' nofun
  distinct k' l i hk' hl _ _ := h.distinct k' l i hk' hl nofun nofun

theorem hashed (h : HashersRight none hashing hashers) (hk : Busy hashers k i) :
    HashersRight (some k) (update hashing i false) hashers where
  marked k' j hk' hne := by
    have hji : j ≠ i := by
      rintro rfl
      exact hne (congrArg some (h.distinct k k' j hk hk' nofun nofun))
    rw [update_of_ne hji]
    exact h.marked k' j hk' nofun
  distinct := (h.done k).distinct

theorem unspawn (h : HashersRight (some k) hashing hashers) :
    HashersRight none hashing (hashers.eraseIdx k) := by
  -- the hasher at `j` was at `old j` before
  have hold : ∀ j i, Busy (hashers.eraseIdx k) j i →
      Busy hashers (if j < k then j else j + 1) i := by
    intro j i hj
    unfold Busy at hj ⊢
    rw [getElem?_eraseIdx] at hj
    split_ifs at hj ⊢ <;> exact hj
  have hne : ∀ j, some k ≠ some (if j < k then j else j + 1) := by
    intro j heq
    have hkj := Option.some.inj heq
    split_ifs at hkj <;> omega
  refine ⟨fun j i hj _ => h.marked _ i (hold j i hj) (hne j), fun j j' i hj hj' _ _ => ?_⟩
  have hsame := h.distinct _ _ i (hold j i hj) (hold j' i hj') (hne j) (hne j')
  split_ifs at hsame <;> omega

theorem toMarking (h : HashersRight none hashing hashers) (hk : Busy hashers k i)
    (bytes : List UInt8) (marked : Bool) : HashersRight none (update hashing i false)
      (hashers.set k ⟨i, .marking bytes marked⟩) := by
  have hbusy : ∀ k' j, Busy (hashers.set k ⟨i, .marking bytes marked⟩) k' j →
      some k ≠ some k' ∧ Busy hashers k' j := by
    intro k' j hk'
    unfold Busy at hk' ⊢
    rw [getElem?_set] at hk'
    split_ifs at hk' with heq hlt
    · rcases hk' with hk' | ⟨_, hk'⟩ <;> cases hk'
    · rcases hk' with hk' | ⟨_, hk'⟩ <;> cases hk'
    · exact ⟨fun hsome => heq (Option.some.inj hsome), hk'⟩
  have hread := h.hashed hk
  refine ⟨fun k' j hk' _ => ?_, fun k' l j hk' hl _ _ => ?_⟩
  · exact hread.marked k' j (hbusy k' j hk').2 (hbusy k' j hk').1
  · exact h.distinct k' l j (hbusy k' j hk').2 (hbusy l j hl).2 nofun nofun

theorem begin (h : HashersRight d hashing hashers) (i : Nat) :
    HashersRight d (update hashing i true) hashers where
  marked k j hk hne := update_true_iff.mpr (.inr (h.marked k j hk hne))
  distinct := h.distinct

theorem spawn (h : HashersRight d hashing hashers) (hidle : hashing i = false) :
    HashersRight d (update hashing i true) (hashers ++ [⟨i, .waiting⟩]) := by
  have hbusy : ∀ k j, Busy (hashers ++ [⟨i, .waiting⟩]) k j →
      Busy hashers k j ∨ (k = hashers.length ∧ j = i) := by
    intro k j hk
    unfold Busy at hk ⊢
    rw [getElem?_append] at hk
    split_ifs at hk with hlt
    · exact .inl hk
    · rw [getElem?_singleton] at hk
      split_ifs at hk with hzero
      · rcases hk with hk | ⟨_, hk⟩ <;> cases hk
        exact .inr ⟨by omega, rfl⟩
      · rcases hk with hk | ⟨_, hk⟩ <;> cases hk
  have hnone : ∀ k, Busy hashers k i → d = some k := by
    intro k hk
    by_contra hne
    have hmarked := h.marked k i hk hne
    rw [hidle] at hmarked
    cases hmarked
  refine ⟨fun k j hk hne => ?_, fun k k' j hk hk' hne hne' => ?_⟩
  · rcases hbusy k j hk with hk | ⟨-, rfl⟩
    · exact (h.begin i).marked k j hk hne
    · exact update_self _ _ _
  · rcases hbusy k j hk, hbusy k' j hk' with ⟨hold | ⟨rfl, rfl⟩, hold' | ⟨rfl, hj⟩⟩
    · exact h.distinct k k' j hold hold' hne hne'
    · exact absurd (hnone k (hj ▸ hold)) hne
    · exact absurd (hnone k' hold') hne'
    · rfl

end HashersRight

theorem ground_peersFree (d : Option ℕ) : PeersFree (fun _ => True) (Ground d) where
  up h _ hserves := { h with
    asked := fun p r hr => ((hserves p).queued r hr).elim (h.asked p r)
      fun hservable => h.complete r.index (decide_eq_true_iff.mp hservable.2.1) }
  closed h _ := { h with gone := fun p hp hnot => update_true_iff.mpr (.inr (h.gone p hp hnot)) }
  conns {_ p} h hclosed :=
    { h.toRosterOf.erase p, h with
      gone := fun q hq hnot => by
        by_cases hqp : q = p
        · exact hqp ▸ hclosed
        · refine h.gone q hq fun hmem => hnot ?_
          rcases mem_append.mp hmem with hmem | hmem
          · exact mem_append_left _ ((mem_erase_of_ne hqp).mpr hmem)
          · exact mem_append_right _ hmem }

theorem Ground.conn_known (h : Ground d t) (hp : p ∈ t.avail.conns) :
    p ∈ t.avail.peerIds ∧ t.isConn p = true :=
  ⟨h.known p (mem_append_left _ hp), h.conn p hp⟩

theorem Ground.no_pieces (h : Ground d t) (hinfo : t.info = none) :
    (∀ i, i ∉ t.comp.completed) ∧ ∀ i, i ∉ t.hash.queued := by
  have hzero : t.numPieces = 0 := by simp [numPieces, hinfo]
  refine ⟨fun i hi => ?_, fun i hi => ?_⟩
  · exact Nat.not_lt_zero i (hzero ▸ h.complete i hi)
  · exact Nat.not_lt_zero i (hzero ▸ h.queued i hi)

theorem Ground.no_requests (h : Ground d t) (hinfo : t.info = none) (p : Nat) (r : Request) :
    r ∉ t.up.peerRequests p := fun hr => by
  have hzero : t.numPieces = 0 := by simp [numPieces, hinfo]
  exact Nat.not_lt_zero _ (hzero ▸ h.asked p r hr)

theorem KeepsPeers.ofSafe (hp : ∀ S d, PeersSafe E (I S d)) : KeepsPeers E C I := by
  have hdrop : ∀ {t : Torrent}, I ∅ none t → ∀ p,
      Ends E (I ∅ none) (t.maybeDropMutuallyCompletePeer p) :=
    fun ht p => ends_maybeDrop p ht fun _ _ => (hp ∅ none).dropConnection ht p
  exact {
    close := fun ht _ => (hp _ _).close ht _
    dropConnection := fun ht _ _ => (hp _ _).dropConnection ht _
    deleteAllRequests := fun ht _ => (hp _ _).unbooks.deleteAllRequests ht _ _
    peerSentHave := fun ht _ _ => (hp _ _).peerSentHave hdrop ht _ _
    peerSentBitfield := fun ht _ _ => (hp _ _).peerSentBitfield hdrop ht _ _
    onPeerHasAllPieces := fun ht _ _ => (hp _ _).onPeerHasAllPieces hdrop ht _
    peerSentHaveNone := fun ht _ _ _ _ => (hp _ _).peerSentHaveNone hdrop ht _
    remoteRejectedRequest := fun ht _ => (hp _ _).unbooks.remoteRejectedRequest ht _ _
    webseedRequest := fun ht _ _ => (hp _ _).webseedRequest ht _
    webseedDone := fun ht _ => (hp _ _).reqs ht _ }

theorem PeersSafe.dropBanned (h : PeersSafe E J) (ht : J t) (p : Nat) :
    Ends E J (t.dropBanned p) := by
  unfold Torrent.dropBanned
  split_ifs
  · exact h.dropConnection ht p
  · exact ht

theorem PeersSafe.ban (h : PeersSafe E J) (ht : J t) (p : Nat) : Ends E J (t.ban p) := by
  unfold Torrent.ban
  split_ifs
  · exact h.close ht p
  · exact h.dropBanned ht p

theorem KeepsPieces.keeps (h : KeepsPieces E C I) (hp : ∀ S d, PeersSafe E (I S d)) : Keeps E C I :=
  { h, KeepsPeers.ofSafe hp with }

namespace Keeps

/-! ## Hashing a piece -/

theorem hasherDone (h : Keeps E C I) {k i : Nat} (ht : I (insert i ∅) (some k) t) :
    Ends E (I ∅ none) (t.hasherDone k i) :=
  (h.update trivial ht _).bind fun _ ht₁ => h.tryCreateMorePieceHashers (h.unspawn ht₁)

theorem dropBanned (h : Keeps E C I) (hg : Ground d t) (ht : I S d t) (p : Nat) :
    Ends E (fun t' => I S d t' ∧ Ground d t') (t.dropBanned p) := by
  unfold Torrent.dropBanned
  split_ifs with hp
  · obtain ⟨hknown, hconn⟩ := hg.conn_known hp
    exact (h.dropConnection ht hknown hconn).and ((ground_peersFree d).safe.dropConnection hg p)
  · exact ⟨ht, hg⟩

theorem ban (h : Keeps E C I) (hg : Ground d t) (ht : I S d t) (p : Nat) :
    Ends E (fun t' => I S d t' ∧ Ground d t') (t.ban p) := by
  unfold Torrent.ban
  split_ifs with hp
  · exact (h.close ht (mem_append_right _ hp)).and ((ground_peersFree d).safe.close hg p)
  · exact h.dropBanned hg ht p

theorem pieceFailed (h : Keeps E C I) {i : Nat} (hg : Ground d t) (ht : I (insert i S) d t)
    (bans : List Nat) (ok : Bool) : Ends E (I (insert i S) d) (t.pieceFailed i bans ok) := by
  have hban : Ends E (fun t' => I (insert i S) d t' ∧ Ground d t')
      (doIf (t.pieceAllDirty i) t (bans.foldlM Torrent.ban t)) :=
    Ends.doIf (fun _ => Ends.foldlM ⟨ht, hg⟩ fun _ ht' p _ => h.ban ht'.2 ht'.1 p) fun _ => ⟨ht, hg⟩
  refine hban.bind fun t₁ ht₁ => ?_
  refine Ends.require (fun hi => ?_) fun _ => h.index _ rfl
  have ht₂ := h.onIncompletePiece trivial hi ht₁.1
  rw [insert_idem] at ht₂
  have ht₃ : I (insert i S) d ((t₁.onIncompletePiece i).markComplete i false ok) := by
    unfold markComplete
    split_ifs
    · exact h.storageCompletion ht₂ _
    · exact ht₂
  refine (h.updatePieceCompletion trivial ht₃).bind fun t₄ ht₄ => ends_pure.mpr ?_
  have ht₅ := h.marking ht₄ i false
  rw [insert_idem] at ht₅
  exact ht₅

theorem hasher_peersFree (k : Nat) (x : Hasher) :
    PeersFree (fun _ => True) fun t => t.hash.hashers[k]? = some x := {}

theorem hasher_plain (k : Nat) (x : Hasher) :
    Plain (fun _ => True) (fun _ => True) fun t => t.hash.hashers[k]? = some x :=
  (hasher_peersFree k x).plain (fun h _ => h) (fun _ h => h) (fun _ h _ => h)
    (fun h _ _ _ _ => h) fun {t} h _ => by
      have hk : k < t.hash.hashers.length := (List.getElem?_eq_some_iff.mp h).1
      exact (getElem?_append_left hk).trans h

theorem pieceHasher (h : Keeps E C I) (hg : Ground none t) (ht : I ∅ none t) (k : Nat)
    (drops bans : List Nat) (ok : Bool) :
    Ends E (I ∅ none) (t.pieceHasher k drops bans ok) := by
  unfold Torrent.pieceHasher
  split
  · rename_i i bytes hk
    have hdrops : Ends E (fun t' => (I ∅ none t' ∧ Ground none t') ∧
        t'.hash.hashers[k]? = some ⟨i, .reading bytes⟩)
        (doIf (t.cfg.hashOk i bytes) t (drops.foldlM Torrent.dropBanned t)) := by
      refine Ends.doIf (fun _ => Ends.foldlM ⟨⟨ht, hg⟩, hk⟩ fun t' ht' p _ => ?_)
        fun _ => ⟨⟨ht, hg⟩, hk⟩
      exact (h.dropBanned ht'.1.2 ht'.1.1 p).and ((hasher_peersFree k _).safe.dropBanned ht'.2 p)
    refine hdrops.bind fun t₁ ⟨⟨ht₁, hg₁⟩, hk₁⟩ => ?_
    have hbusy : Busy t₁.hash.hashers k i := .inr ⟨bytes, hk₁⟩
    dsimp only
    split_ifs
    · exact h.hasherDone (h.hashed ht₁ hk₁)
    · exact h.toMarking ht₁ hk₁ (hg₁.marked k i hbusy nofun)
    · have ht₂ := h.marking (h.hashed ht₁ hk₁) i true
      rw [insert_idem] at ht₂
      have hg₂ : Ground (some k) (setMarking
          { t₁ with hash.hashing := update t₁.hash.hashing i false } i true) :=
        { hg₁.toHashersRight.hashed hbusy, hg₁ with }
      exact (h.pieceFailed hg₂ ht₂ bans ok).bind fun t₃ ht₃ => h.hasherDone ht₃
  · exact ht

theorem piecePassed (h : Keeps E C I) (ht : I ∅ none t) {k i : Nat} {bytes : List UInt8}
    (hk : t.hash.hashers[k]? = some ⟨i, .marking bytes true⟩) :
    Ends E (I (insert i ∅) none) (t.piecePassed i bytes) := by
  unfold Torrent.piecePassed
  split_ifs
  · exact h.marking ht i false
  · refine Ends.require (fun hi => ?_) fun _ => h.index _ rfl
    refine ((h.updatePieceCompletion trivial (h.pendAll trivial hi ht)).and
      ((hasher_plain k _).updatePieceCompletion trivial hk)).bind
      fun t₁ ht₁ => ends_pure.mpr ?_
    have ht₂ := h.marking (h.verified ht₁.1 ht₁.2) i false
    rw [insert_idem] at ht₂
    exact ht₂

theorem pieceMarked (h : Keeps E C I) (ht : I ∅ none t) (k : Nat) :
    Ends E (I ∅ none) (t.pieceMarked k) := by
  unfold Torrent.pieceMarked
  split
  · rename_i i bytes hk
    exact (h.piecePassed ht hk).bind fun t₁ ht₁ => h.hasherDone (h.done ht₁ k)
  · exact ht

theorem keepsSteps (h : Keeps E C I) : KeepsSteps E C I :=
  { h with
    pieceHasher := fun hg ht k drops bans ok => h.pieceHasher hg ht k drops bans ok
    pieceMarked := fun ht k => h.pieceMarked ht k }

end Keeps

/-! ## Messages -/

theorem ends_handled (hx : Ends E (I ∅ none) x) : Ends E (fun y => I ∅ none y.1) (handled x) :=
  hx.bind fun _ ht => ends_pure.mpr ht

theorem KeepsPeers.handleMessage (h : KeepsPeers E C I) (ha : Aside (I ∅ none))
    (hg : Ground none t) (ht : I ∅ none t) {p : Nat} {msg : Wire.Message} {ext : Extended}
    {now : Nat} (hp : p ∈ t.avail.conns) (hopen : t.avail.closed p = false)
    (hC : C t (.message p msg ext now))
    (hreceive : msg.type = .piece → Ends E (fun x => I ∅ none x.1)
      (t.receiveChunk p msg.index.toNat msg.begin.toNat msg.piece now)) :
    Ends E (fun x => I ∅ none x.1) (t.handleMessage p msg ext now) := by
  have hconn := hg.conn p hp
  unfold Torrent.handleMessage
  dsimp only
  split_ifs
  · exact ht
  · exact ht
  · split
    · refine ends_handled ?_
      unfold peerChoked
      split_ifs
      · exact ht
      · exact (Ends.doIf (fun _ => h.deleteAllRequests ht hconn) fun _ => ht).bind
          fun _ ht' => ha.ctl ht' _ (.of_eq rfl rfl)
    · exact ha.peerUnchoked ht p
    · exact ha.ctl ht _ (.of_eq rfl rfl)
    · exact ha.ctl ht _ (.of_eq rfl rfl)
    · exact h.peerSentHave ht hp hopen
    · exact ends_handled (h.peerSentBitfield ht hp hopen)
    · exact ha.onReadRequest ht p (UInt32.toNat_lt _)
    · rename_i htype
      exact (hreceive htype).bind fun _ hx => ends_pure.mpr hx
    · exact ha.onPeerSentCancel ht p _
    · exact ht
    · exact ha.updateRequests ht p (.inl nofun)
    · exact ends_handled (h.onPeerHasAllPieces ht hp hopen)
    · rename_i htype
      exact ends_handled (h.peerSentHaveNone ht hp hopen htype hC)
    · exact (h.remoteRejectedRequest ht hconn).bind fun _ hx => ends_pure.mpr hx
    · exact ha.updateRequests ht p (.inl nofun)
    · exact ha.onReadExtendedMsg ht p ext now
    · exact ht

theorem sameKinds_handleMessage (hg : Ground none t) {p : Nat} (hp : p ∈ t.avail.conns)
    (hopen : t.avail.closed p = false) (msg : Wire.Message) (ext : Extended) (now : Nat) :
    Gives (fun x => SameKinds t x.1) (t.handleMessage p msg ext now) := by
  have h := sameKinds_peersFree t
  have hpeers : KeepsPeers (fun _ => True) (fun _ _ => True) fun _ _ => SameKinds t :=
    .ofSafe fun _ _ => h.safe
  exact hpeers.handleMessage h.toAside hg (.refl t) hp hopen trivial fun _ =>
    (sameKinds_writesFree t).receiveChunk h.unbooks (.refl t) p _ _ _ now

namespace KeepsSteps

theorem readMessage (h : KeepsSteps E C I) (hg : Ground none t) (ht : I ∅ none t) {p : Nat}
    {msg : Wire.Message} {ext : Extended} {now : Nat} (hp : p ∈ t.avail.conns)
    (hC : C t (.message p msg ext now)) : Ends E (I ∅ none) (t.readMessage p msg ext now) := by
  obtain ⟨hknown, hconn⟩ := hg.conn_known hp
  unfold Torrent.readMessage
  split_ifs with hclosed
  · exact h.dropConnection ht hknown hconn
  · have hopen : t.avail.closed p = false := by
      simp only [Bool.or_eq_true, not_or, Bool.not_eq_true] at hclosed
      exact hclosed.2
    have hhandled := h.toKeepsPeers.handleMessage (h.aside ∅ none) hg ht hp hopen hC fun htype =>
      h.receiveChunk ht hp htype hC
    refine (hhandled.and (sameKinds_handleMessage hg hp hopen msg ext now)).bind
      fun ⟨t₁, err⟩ ⟨ht₁, hk₁⟩ => ?_
    dsimp only
    split_ifs
    · exact h.dropConnection ht₁ (hk₁.2.1 ▸ hknown) ((hk₁.isConn p).trans hconn)
    · exact ht₁

/-! ## Steps -/

theorem readFailed (h : KeepsSteps E C I) (ht : I ∅ none t) (p : Nat) (r : Request) :
    Ends E (I ∅ none) (t.peerRequestDataReadFailed p r) := by
  unfold peerRequestDataReadFailed
  split_ifs
  · exact ht
  · refine (Ends.doIf (fun _ => h.updatePieceCompletion trivial ht)
      fun _ => ht).bind fun t₁ ht₁ => ends_pure.mpr ?_
    split_ifs
    · exact (h.aside ∅ none).reject ht₁ p r
    · exact (h.aside ∅ none).choke ht₁ p

theorem readerFailed (h : KeepsSteps E C I) (ht : I ∅ none t) (id first : Nat) :
    Ends E (I ∅ none) (t.readerFailed id first) := by
  unfold Torrent.readerFailed
  split_ifs
  · exact ht
  · refine (h.updatePieceCompletion trivial ht).bind fun t₁ ht₁ => ?_
    refine Ends.require (fun _ => ?_) fun _ => h.index _ rfl
    exact Ends.foldlM ht₁ fun _ ht' i _ => h.updatePieceCompletion trivial ht'

/-- **Every event** that meets the condition keeps the invariant. -/
theorem step (h : KeepsSteps E C I) (hg : Ground none t) (ht : I ∅ none t) {e : Event}
    (hC : C t e) :
    Ends E (I ∅ none) (t.step e) := by
  have ha := h.aside ∅ none
  unfold Torrent.step
  cases e <;> dsimp only
  case setInfo info =>
    cases hinfo : t.info with
    | none =>
      exact h.gotInfo ht hg hinfo hC
    | some _ =>
      unfold gotInfo haveInfo
      rw [hinfo]
      exact ht
  case addConn p fast transmission addr =>
    split_ifs with hp
    · exact ht
    · rw [addPeerConn_eq]
      exact h.addPeerConn ht fun hmem => hp (.inl hmem)
  case addWebSeed p conforming addr =>
    split_ifs with hp
    · exact ht
    · exact h.addWebSeed ht hp
  case message p msg ext now =>
    split_ifs with hp
    · exact ht
    · exact h.readMessage hg ht (not_not.mp fun hmem => hp (.inl hmem)) hC
  case dropConn p =>
    split_ifs with hp
    · exact ht
    · simp only [not_or, not_not, Bool.not_eq_true', Bool.not_eq_false] at hp
      exact h.dropConnection ht hp.1 hp.2
  case closeConn p =>
    split_ifs with hp
    · exact h.close ht (mem_append_left _ hp)
    · exact ht
  case fill p input pops pex actions =>
    split_ifs with hp
    · exact ht
    · refine (h.fill ht (not_not.mp fun hmem => hp (.inl hmem)) hC).bind fun t₁ ht₁ => ?_
      exact ha.upload (ha.write ht₁ p pex) p actions
  case flush p => exact ha.buf ht _ (.of_eq rfl rfl)
  case wrote p n => exact ha.write ht p n
  case readFailed p r =>
    split_ifs
    · exact h.readFailed ht p r
    · exact ht
  case updateWebseed p input pops =>
    split_ifs with hp
    · exact h.updateWebseed ht hp (hg.web p hp) hC
    · exact ht
  case webseedRequest p =>
    split_ifs with hp
    · exact ht
    · have hmem : p ∈ t.avail.webSeeds := not_not.mp fun hmem => hp (.inl hmem)
      exact h.webseedRequest ht (hg.known p (mem_append_right _ hmem)) (hg.web p hmem)
  case webseedResult p r result now =>
    split_ifs with hp
    · exact h.webseedResult ht hp hC
    · exact ht
  case webseedDone p r =>
    split_ifs with hp
    · exact ht
    · exact h.webseedDone ht fun hmem => hp (.inl hmem)
  case writeChunk k stop => exact h.writeChunk ht
  case chunkWritten k ok => exact h.chunkWritten ht
  case hashPiece k n => exact h.hashPiece ht
  case pieceHasher k drops bans ok => exact h.pieceHasher hg ht k drops bans ok
  case markedComplete k ok => exact h.markedComplete ht
  case pieceMarked k => exact h.pieceMarked ht k
  case verifyData i =>
    split_ifs
    · exact ht
    · exact h.queuePieceCheck trivial ht
  case updateCompletion i =>
    split_ifs
    · exact ht
    · exact h.updatePieceCompletion trivial ht
  case storageCompletion i c => exact h.storageCompletion ht _
  case setPriority i prio =>
    split_ifs
    · exact ht
    · exact h.prio.setPriority ht i prio
  case setFilePriority k prio =>
    split
    · exact ht
    · rename_i info hinfo
      split_ifs
      · exact ht
      · exact h.prio.setFilePriority ht hinfo hC
  case downloadPieces start stop => exact Ends.foldlM ht fun _ ht' i _ => h.prio.downloadPiece ht' i
  case cancelPieces start stop => exact Ends.foldlM ht fun _ ht' i _ => h.prio.cancelPiece ht' i
  case readerMoved id start stop =>
    split_ifs with hrange
    · exact h.prio.readerMoved ht hrange
    · exact ht
  case readerClosed id => exact h.prio.readerClosed ht id
  case readerFailed id first =>
    split_ifs
    · exact ht
    · exact h.readerFailed ht id first
  case dataUpload disallowed => exact ha.setDataUpload ht disallowed
  case addBaselineProvider ip port =>
    split_ifs
    · exact ht
    · exact ha.ctl ht _ (.of_eq rfl rfl)
  case reorder conns =>
    split_ifs with hperm
    · exact h.reorder ht (isPerm_iff.mp hperm)
    · exact ht
  case close => exact h.closeTorrent ht hC

end KeepsSteps

theorem Keeps.step (h : Keeps E C I) (hg : Ground none t) (ht : I ∅ none t) {e : Event}
    (hC : C t e) : Ends E (I ∅ none) (t.step e) := h.keepsSteps.step hg ht hC

end ReliableBT
