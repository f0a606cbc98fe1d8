import ReliableBT.Torrent.Runs

/-!
# The piece request order after `Torrent.close` (`torrent.go`, `peerconn.go`, `piece.go`)

`close` takes the torrent's pieces out of the client's piece request order, and
`PieceRequestOrder.Update` panics for a key that it does not have. Much still happens to a torrent
that is closed: chunk writes come back, hashers finish, connections are dropped, the application
sets priorities. `updatePiecePriority`, the end of a hasher, a failed read and the read loop look at
`closed` first; closing a peer touches the order only once, and `close` has done that for every
peer.

Three ways to `updatePieceRequestOrder` do not look: `receiveChunk` when its write has failed,
`Piece.UpdateCompletion`, and `addWebSeed`, which counts the pieces of the new webseed.

* `no_update_after_close`: the panic is not reached if these do not happen once the pieces are gone.
* `update_after_close`: with a write that fails after `close`, or an `UpdateCompletion` after it, it
  is.

While the torrent has its entries (`Keyed`) the panic is far away; what is true of a torrent without
them is `Dead`, and the two are all there is.
-/

open Function List Nat

namespace ReliableBT

open Torrent

variable {t : Torrent} {K : Nat → Prop} {i : Nat}

/-- Not the panic of `PieceRequestOrder.Update`. -/
def HasKey (e : Panic) : Prop := e ≠ .orderKeyMissing

theorem hasKey_of_group {e : Panic} (h : e.group ≠ .order) : HasKey e := by
  rintro rfl
  exact h rfl

/-- The pieces in `K` have their entries in the piece request order, and others are neither complete
nor queued. -/
def Keyed (K : Nat → Prop) (t : Torrent) : Prop :=
  (t.storageOpen = true → ∀ i < t.numPieces, K i → (t.order i).isSome = true) ∧
    (∀ i ∈ t.comp.completed, i < t.numPieces ∧ K i) ∧ ∀ i ∈ t.hash.queued, K i

/-- Pieces are missing from the piece request order. -/
def Torrent.orderDeleted (t : Torrent) : Prop :=
  t.storageOpen = true ∧ ∃ i < t.numPieces, t.order i = none

instance (t : Torrent) : Decidable t.orderDeleted :=
  inferInstanceAs (Decidable (_ ∧ ∃ i < t.numPieces, _))

/-- Once pieces are missing from the order, no chunk write fails, no completion is updated and no
webseed is added. -/
def SparesOrder (t : Torrent) (e : Event) : Prop :=
  t.orderDeleted →
    match e with
    | .chunkWritten k ok => ∀ w ∈ t.writes.inFlight[k]?, ok = true ∧ w.written = w.data.length
    | .updateCompletion i => t.numPieces ≤ i
    | .addWebSeed p _ _ => p ∈ t.avail.peerIds
    | _ => True

instance (t : Torrent) (e : Event) : Decidable (SparesOrder t e) := by
  unfold SparesOrder
  split <;> infer_instance

/-! ## While the entries are there -/

theorem updatePieceRequestOrder_hasKey
    (hkey : t.storageOpen = true → i < t.numPieces → (t.order i).isSome = true) :
    Ends HasKey (fun t' => ∃ order : Nat → Option PieceRequestOrderState,
      t' = { t with order := order } ∧ ∀ j, (t.order j).isSome = true → (order j).isSome = true)
      (t.updatePieceRequestOrder i) := by
  unfold updatePieceRequestOrder
  split_ifs with hs hi hnone
  · exact ⟨t.order, rfl, fun _ h => h⟩
  · exact nofun
  · have hsome := hkey (by simpa using hs) (Nat.lt_of_not_le hi)
    rw [Option.isNone_iff_eq_none] at hnone
    simp [hnone] at hsome
  · refine ⟨_, rfl, fun j hj => ?_⟩
    by_cases hji : j = i
    · rw [hji, update_self]
      rfl
    · rw [update_of_ne hji]
      exact hj

namespace Keyed

theorem order (h : Keyed K t) {order : Nat → Option PieceRequestOrderState}
    (hmore : ∀ j, (t.order j).isSome = true → (order j).isSome = true) :
    Keyed K { t with order := order } :=
  ⟨fun hs j hj hK => hmore j (h.1 hs j hj hK), h.2⟩

theorem updatePieceRequestOrder (h : Keyed K t) (hi : i < t.numPieces → K i) :
    Ends HasKey (fun t' => Keyed K t' ∧ t'.numPieces = t.numPieces)
      (t.updatePieceRequestOrder i) := by
  refine (updatePieceRequestOrder_hasKey fun hs hlt => h.1 hs i hlt (hi hlt)).imp ?_
  rintro _ ⟨order, rfl, hmore⟩
  exact ⟨h.order hmore, rfl⟩

theorem setCompletion (h : Keyed K t) (hK : K i) (hi : i < t.numPieces) (c : Completion) :
    Keyed K (t.setCompletion i c) := by
  refine ⟨h.1, fun j hj => ?_, h.2.2⟩
  change j ∈ (if c.complete then _ else _) at hj
  split_ifs at hj
  · rcases Bitmap.mem_add.mp hj with rfl | hj
    · exact ⟨hi, hK⟩
    · exact h.2.1 j hj
  · exact h.2.1 j (Bitmap.mem_remove.mp hj).1

theorem all_of_haveAllPieces (h : Keyed K t) (hall : t.haveAllPieces = true) :
    ∀ i < t.numPieces, K i := by
  rw [haveAllPieces, Bool.and_eq_true, decide_eq_true_eq] at hall
  have hmem := (Bitmap.card_eq_iff fun j hj => (h.2.1 j hj).1).mp hall.2
  exact fun i hi => (h.2.1 i (hmem i hi)).2

end Keyed

theorem keyed_reqsFree (K : Nat → Prop) : ReqsFree HasKey (Keyed K) where
  ctl h _ _ := h
  buf h _ _ := h
  up h _ _ := h
  panic e h := by rcases h with h | h | h <;> exact hasKey_of_group (by simp [h])
  reqs h _ := h

theorem keyed_peersSafe (K : Nat → Prop) :
    PeersSafe HasKey fun t => Keyed K t ∧ ∀ i < t.numPieces, K i := by
  have hcount : ∀ {t : Torrent}, (Keyed K t ∧ ∀ i < t.numPieces, K i) → ∀ i n,
      Ends HasKey (fun t => Keyed K t ∧ ∀ i < t.numPieces, K i) ({ t with
        avail.relative := update t.avail.relative i n }.updatePieceRequestOrder i) := by
    intro t h i n
    have ht : Keyed K { t with avail.relative := update t.avail.relative i n } := h.1
    refine (ht.updatePieceRequestOrder (h.2 i)).imp fun t' ht' => ⟨ht'.1, ?_⟩
    rw [ht'.2]
    exact h.2
  exact {
    ctl := fun h _ _ => h
    buf := fun h _ _ => h
    up := fun h _ _ => h
    panic := (keyed_reqsFree K).panic
    reqs := fun h _ => h
    availPanic := fun e h => by rcases h with h | h <;> exact hasKey_of_group (by simp [h])
    incPieceAvailability := fun {t} h i => by
      unfold incPieceAvailability
      split_ifs
      · exact h
      · exact nofun
      · exact hcount h i _
    decPieceAvailability := fun {t} h i => by
      unfold decPieceAvailability
      split_ifs
      · exact h
      · exact nofun
      · exact nofun
      · exact hcount h i _
    addConnWithAllPieces := fun {t} h p => by
      unfold addConnWithAllPieces
      split_ifs <;> exact h
    deleteConnWithAllPieces := fun {t} h p => by
      unfold deleteConnWithAllPieces
      split_ifs <;> exact h
    closed := fun h _ => h
    pieces := fun h _ => h
    sentHaveAll := fun h _ => h
    conns := fun h _ => h }

theorem keyed_plain (K : Nat → Prop) : Plain HasKey K (Keyed K) where
  toAside := (keyed_reqsFree K).toAside
  pending h _ := h
  index e he := (keyed_reqsFree K).panic e (.inr (.inr he))
  order hK h := (h.updatePieceRequestOrder fun _ => hK).imp fun _ ht' => ht'.1
  pendAll _ _ h := h
  complete hK hi h c := h.setCompletion hK hi c
  cancelRequest h r := (keyed_reqsFree K).unbooks.cancelRequest h r
  drop h _ hall := ((keyed_peersSafe K).dropConnection ⟨h, h.all_of_haveAllPieces hall⟩ _).imp
    fun _ ht' => ht'.1
  queued h hi := h.2.2 _ hi
  flags h _ _ _ _ hq := ⟨h.1, h.2.1, fun i hi => (hq i hi).elim (h.2.2 i) id⟩
  spawn h _ := h

/-! ## The info -/

/-- Every piece has its entry. -/
def HasKeys (t : Torrent) : Prop := Keyed (fun _ => True) t

theorem hasKeys_peersSafe : PeersSafe HasKey HasKeys := by
  have h := keyed_peersSafe fun _ => True
  simp only [implies_true, and_true] at h
  exact h

theorem Keyed.addRequestOrderPiece {k : Nat} (h : Keyed (· < k) t) :
    Ends HasKey (Keyed (· < k + 1)) (t.addRequestOrderPiece k) := by
  obtain ⟨hkeys, hcomplete, hqueued⟩ := h
  have hrest : (∀ i ∈ t.comp.completed, i < t.numPieces ∧ i < k + 1) ∧
      ∀ i ∈ t.hash.queued, i < k + 1 :=
    ⟨fun i hi => ⟨(hcomplete i hi).1, lt_succ_of_lt (hcomplete i hi).2⟩,
      fun i hi => lt_succ_of_lt (hqueued i hi)⟩
  unfold Torrent.addRequestOrderPiece
  split_ifs with hs
  · exact ⟨fun hs' => by simp [hs'] at hs, hrest⟩
  · exact nofun
  · refine ⟨fun hs' i hi hik => ?_, hrest⟩
    dsimp only
    by_cases heq : i = k
    · rw [heq, update_self]
      rfl
    · rw [update_of_ne heq]
      exact hkeys hs' i hi (by omega)

theorem HasKeys.gotInfo (h : HasKeys t) (hg : Ground none t) (hinfo : t.info = none)
    (info : Info) : Ends HasKey HasKeys (t.gotInfo info) := by
  unfold Torrent.gotInfo
  split_ifs
  · exact h
  · have hset : Ends HasKey (Keyed (· < 0)) (t.setInfo info) := by
      obtain ⟨hcomplete, hqueued⟩ := hg.no_pieces hinfo
      unfold setInfo
      split_ifs
      · exact nofun
      · exact ⟨fun _ i _ hi => absurd hi (not_lt_zero i),
          fun i hi => absurd hi (hcomplete i), fun i hi => absurd hi (hqueued i)⟩
    refine hset.bind fun t₁ ht₁ => ?_
    -- the pieces below `k` have their entries
    have hpieces : Ends HasKey (Keyed (· < t₁.numPieces))
        ((range t₁.numPieces).foldlM onSetInfoPiece t₁) := by
      refine Ends.foldlM_range (I := fun k => Keyed (· < k)) ht₁ fun k _ t' ht' => ?_
      refine (keyed_plain (· < k + 1)).toQueue.onSetInfoPiece (S := ∅) (d := none)
        (lt_succ_self k) (fun _ => nofun) fun _ => ?_
      have hcounted : Keyed (· < k) { t' with
          avail.relative := update t'.avail.relative k
            (t'.selectivePieceAvailabilityFromPeers k) } := ht'
      exact hcounted.addRequestOrderPiece
    refine (hpieces.and (onSetInfo_sameKinds t₁)).bind fun t₂ ⟨ht₂, hsame⟩ => ?_
    have hnum : t₂.numPieces = t₁.numPieces := by
      unfold numPieces
      rw [hsame.2.2.2]
    have ht₃ : HasKeys { t₂ with reqs.owner := fun _ => none } :=
      ⟨fun hs i hi _ => ht₂.1 hs i hi (hnum ▸ hi), fun i hi => ⟨(ht₂.2.1 i hi).1, trivial⟩,
        fun _ _ => trivial⟩
    refine ((keyed_plain fun _ => True).tryCreateMorePieceHashers ht₃).bind fun t₄ ht₄ => ?_
    refine Ends.foldlM ht₄ fun _ ht' p _ =>
      hasKeys_peersSafe.onSetInfoPeer (fun ht'' q => ?_) ht' p
    exact ends_maybeDrop q ht'' fun _ _ => hasKeys_peersSafe.dropConnection ht'' q

theorem HasKeys.addWebSeed (h : HasKeys t) (p : Nat) (conforming : Bool)
    (addr : Option (Nat × Nat)) : Ends HasKey HasKeys (t.addWebSeed p conforming addr) := by
  have hnew : HasKeys (t.newPeer p (.webseed conforming) addr 128 false) := h
  have hgot : Ends HasKey HasKeys
      (doIf t.haveInfo (t.newPeer p (.webseed conforming) addr 128 false)
        ((t.newPeer p (.webseed conforming) addr 128 false).webseedGotInfo p conforming)) :=
    Ends.doIf (fun _ => hasKeys_peersSafe.webseedGotInfo hnew p conforming) fun _ => hnew
  exact hgot.bind fun t₁ ht₁ => ht₁

theorem hasKeys_writesFree : WritesFree HasKey HasKeys where
  toAside := (keyed_reqsFree _).toAside
  indexPanic e he := hasKey_of_group (by simp [he])
  storePanic e he := hasKey_of_group (by simp [he])
  entry h _ := (keyed_plain _).order trivial h
  writes h _ _ _ := h

/-! ## Up to `close` -/

/-- The step does not take the entries away. -/
def LeavesKeys (t : Torrent) (e : Event) : Prop :=
  e = .close → t.closed = true ∨ t.storageOpen = false

theorem noStorage_peersFree : PeersFree (fun _ => True) fun t => t.storageOpen = false where
  ctl h _ _ := h
  buf h _ _ := h
  up h _ _ := h
  panic _ _ := trivial
  reqs h _ := h
  availPanic _ _ := trivial
  relative h _ := h
  closed h _ := h
  pieces h _ := h
  sentHaveAll h _ := h
  withAll h _ _ := h
  order h _ := h
  conns h _ := h

theorem HasKeys.closeTorrent (h : HasKeys t) (hC : LeavesKeys t .close) :
    Ends HasKey HasKeys t.closeTorrent := by
  unfold Torrent.closeTorrent
  split_ifs with hclosed
  · exact h
  · have hs : t.storageOpen = false := (hC rfl).resolve_left hclosed
    refine (Ends.foldlM (I := fun t => HasKeys t ∧ t.storageOpen = false)
      (s := { t with closed := true }) ⟨h, hs⟩ fun t' ht' p _ =>
        (hasKeys_peersSafe.close ht'.1 p).and (noStorage_peersFree.safe.close ht'.2 p)).bind
      fun t₁ ht₁ => ?_
    have hdelete : t₁.deletePieceRequestOrder = t₁ := by simp [deletePieceRequestOrder, ht₁.2]
    rw [hdelete, assertAllPiecesRelativeAvailabilityZero]
    split_ifs
    · exact ht₁.1
    · exact nofun

theorem hasKeys_hashersFree : HashersFree HasKeys :=
  ⟨fun h _ => h, fun h _ => h, fun h _ => h⟩

theorem hasKeys_keeps : Keeps HasKey LeavesKeys fun _ _ => HasKeys := by
  have hr : ReqsFree HasKey HasKeys := keyed_reqsFree _
  have hp : Plain HasKey (fun _ => True) HasKeys := keyed_plain _
  have hbuffer : ∀ e : Panic, e.group = .buffer → HasKey e := fun e he =>
    hasKey_of_group (by simp [he])
  have hwrites := hasKeys_writesFree.keepsWrites (C := LeavesKeys) hr hbuffer fun h i =>
    hp.queuePieceCheck (i := i) trivial h
  refine KeepsPieces.keeps { hp.toQueue, hwrites with
    gotInfo := fun h hg hinfo _ => h.gotInfo hg hinfo _
    addPeerConn := fun h _ => hr.peerConnAdded h
    addWebSeed := fun h _ => h.addWebSeed _ _ _
    hashPiece := fun h => hasKeys_hashersFree.hashPiece h _ _
    hashed := fun h _ => h
    toMarking := fun h _ _ => h
    marking := fun h _ _ => h
    markedComplete := fun h => hasKeys_hashersFree.markedComplete h _ _
    verified := fun h _ => hasKeys_hashersFree.setVerified h _ _
    done := fun h _ => h
    unspawn := fun h => h
    storageCompletion := fun h _ => h
    prio := .ofFree hp.index (hp.update trivial) fun h _ => h
    reorder := fun h _ => h
    closeTorrent := fun h hC => h.closeTorrent hC } fun _ _ => hasKeys_peersSafe

/-! ## `close` -/

/-- The torrent is closed, and so is every peer that is not in `l`. -/
def Shut (l : List Nat) (t : Torrent) : Prop :=
  t.closed = true ∧ t.storageOpen = true ∧
    ∀ p ∈ t.avail.peerIds, p ∉ l → t.avail.closed p = true

theorem shut_peersFree (l : List Nat) : PeersFree (fun _ => True) (Shut l) where
  ctl h _ _ := h
  buf h _ _ := h
  up h _ _ := h
  panic _ _ := trivial
  reqs h _ := h
  availPanic _ _ := trivial
  relative h _ := h
  closed h _ := ⟨h.1, h.2.1, fun p hp hl => update_true_iff.mpr (.inr (h.2.2 p hp hl))⟩
  pieces h _ := h
  sentHaveAll h _ := h
  withAll h _ _ := h
  order h _ := h
  conns h _ := h

namespace Shut

variable {p : Nat} {l : List Nat}

theorem next (h : Shut (p :: l) t) (hp : t.avail.closed p = true) : Shut l t := by
  refine ⟨h.1, h.2.1, fun q hq hl => ?_⟩
  by_cases hqp : q = p
  · exact hqp ▸ hp
  · exact h.2.2 q hq fun hmem => (mem_cons.mp hmem).elim hqp hl

theorem close (h : Shut (p :: l) t) : Gives (Shut l) (t.close p) := by
  have hfree := shut_peersFree l
  unfold Torrent.close
  split_ifs with hp
  · exact h.next hp
  · have hshut : Shut l { t with avail.closed := update t.avail.closed p true } :=
      ((shut_peersFree (p :: l)).closed h p).next (update_self _ _ _)
    have hclose : Gives (Shut l)
        ({ t with avail.closed := update t.avail.closed p true }.onClose p) := by
      unfold onClose
      split
      · exact hshut
      · exact (hfree.unbooks.cancelAllRequests hshut p).bind fun _ ht' => hfree.updateLowPeers ht' _
    exact hclose.bind fun _ ht' => hfree.safe.decPeerPieceAvailability ht' p

end Shut

theorem HasKeys.shut (h : HasKeys t) (hg : Ground none t) (hopen : t.closed = false)
    (hs : t.storageOpen = true) :
    Ends HasKey (fun t' => Shut [] t' ∧ ∀ i, t'.order i = none) t.closeTorrent := by
  have hstart : Shut t.iterPeers { t with closed := true } := ⟨rfl, hs, hg.gone⟩
  unfold Torrent.closeTorrent
  rw [if_neg (by simp [hopen])]
  refine (Ends.foldlM_list (I := fun l t' => HasKeys t' ∧ Shut l t')
    (s := { t with closed := true }) ⟨h, hstart⟩
    fun p l t' ht' => (hasKeys_peersSafe.close ht'.1 p).and ht'.2.close).bind fun t₁ ht₁ => ?_
  have hdelete : t₁.deletePieceRequestOrder = { t₁ with order := fun _ => none } := by
    simp [deletePieceRequestOrder, ht₁.2.2.1]
  rw [hdelete, assertAllPiecesRelativeAvailabilityZero]
  split_ifs
  · exact ⟨ht₁.2, fun _ => rfl⟩
  · exact nofun

/-! ## After `close` -/

/-- The torrent is closed with all its peers, and pieces are missing from the order. -/
def Dead (t : Torrent) : Prop := Shut [] t ∧ t.orderDeleted

theorem dead_reqsFree : ReqsFree HasKey Dead where
  ctl h _ _ := h
  buf h _ _ := h
  up h _ _ := h
  panic := (keyed_reqsFree fun _ => True).panic
  reqs h _ := h

namespace Dead

section

variable (h : Dead t)
include h

theorem peer_closed {p : Nat} (hp : p ∈ t.avail.peerIds) :
    t.avail.closed p = true := h.1.2.2 p hp not_mem_nil

theorem updatePiecePriority (i : Nat) (reason : UpdateReason) :
    Ends HasKey Dead (t.updatePiecePriority i reason) := by
  have hfree : PendingFree Dead := ⟨dead_reqsFree.toAside, fun h _ => h⟩
  refine hfree.updatePiecePriority nofun (fun _ => h) (fun hopen => ?_) reason
  rw [h.1.1] at hopen
  cases hopen

theorem close {p : Nat} (hp : p ∈ t.avail.peerIds) : Ends HasKey Dead (t.close p) := by
  rw [Torrent.close, if_pos (h.peer_closed hp)]
  exact h

theorem dropConnection {p : Nat} (hp : p ∈ t.avail.peerIds) :
    Ends HasKey Dead (t.dropConnection p) := by
  refine (h.close hp).bind fun t₁ ht₁ => ?_
  refine Ends.require (fun _ => ?_) fun _ => nofun
  have ht₂ : Dead { t₁ with avail.conns := t₁.avail.conns.erase p } := ht₁
  refine (dead_reqsFree.unbooks.deleteAllRequests ht₂ p _).bind fun t₃ ht₃ => ?_
  exact Ends.require (fun _ => ht₃) fun _ => nofun

theorem tryCreateMorePieceHashers : Ends HasKey Dead t.tryCreateMorePieceHashers := by
  unfold Torrent.tryCreateMorePieceHashers createPieceHashers
  rw [h.1.1]
  exact h

theorem queuePieceCheck (i : Nat) : Ends HasKey Dead (t.queuePieceCheck i) := by
  refine Ends.require (fun _ => ?_) fun _ => nofun
  split_ifs
  · exact h
  · have hqueue : Dead { t with hash.queued := t.hash.queued.add i } := h
    exact (hqueue.updatePiecePriority i _).bind fun _ ht' => ht'.tryCreateMorePieceHashers

theorem hasherDone (k i : Nat) : Ends HasKey Dead (t.hasherDone k i) := by
  refine (h.updatePiecePriority i _).bind fun t₁ ht₁ => ?_
  have ht₂ : Dead { t₁ with
      hash.activePieceHashes := t₁.hash.activePieceHashes - 1
      hash.hashers := t₁.hash.hashers.eraseIdx k } := ht₁
  exact ht₂.tryCreateMorePieceHashers

theorem pieceHasher (hg : Ground none t) (k : Nat) (drops bans : List Nat)
    (ok : Bool) : Ends HasKey Dead (t.pieceHasher k drops bans ok) := by
  unfold Torrent.pieceHasher
  split
  · rename_i i bytes hk
    have hdrops : Ends HasKey (fun t' => Dead t' ∧ Ground none t')
        (doIf (t.cfg.hashOk i bytes) t (drops.foldlM dropBanned t)) := by
      refine Ends.doIf (fun _ => Ends.foldlM ⟨h, hg⟩ fun t' ht' p _ => ?_) fun _ => ⟨h, hg⟩
      unfold dropBanned
      split_ifs with hp
      · exact (ht'.1.dropConnection (ht'.2.conn_known hp).1).and
          ((ground_peersFree none).safe.dropConnection ht'.2 p)
      · exact ht'
    refine hdrops.bind fun t₁ ht₁ => ?_
    have ht₂ : Dead { t₁ with hash.hashing := update t₁.hash.hashing i false } := ht₁.1
    dsimp only
    rw [if_pos ht₁.1.1.1]
    exact ht₂.hasherDone k i
  · exact h

theorem pieceMarked (k : Nat) : Ends HasKey Dead (t.pieceMarked k) := by
  unfold Torrent.pieceMarked
  split
  · rename_i i bytes hk
    have hpassed : Ends HasKey Dead (t.piecePassed i bytes) := by
      unfold piecePassed
      rw [h.1.1]
      exact h
    exact hpassed.bind fun _ ht' => ht'.hasherDone k i
  · exact h

theorem chunkWritten {k : Nat} {ok : Bool}
    (hok : ∀ w ∈ t.writes.inFlight[k]?, ok = true ∧ w.written = w.data.length) :
    Ends HasKey Dead (t.chunkWritten k ok) := by
  unfold Torrent.chunkWritten
  split
  · exact h
  · rename_i w hk
    refine Ends.require (fun _ => ?_) fun _ => nofun
    have hdec : Ends HasKey Dead (t.decrementPendingWrites k w.index) := by
      unfold decrementPendingWrites
      split_ifs
      · exact nofun
      · exact h
    refine hdec.bind fun t₁ ht₁ => ?_
    rw [if_pos (hok w hk)]
    have hcover : Dead (t₁.cover w) := ht₁
    unfold chunkStored
    dsimp only
    split_ifs
    · exact hcover.queuePieceCheck w.index
    · exact hcover

end

end Dead

theorem dead_priorities (C : Torrent → Event → Prop) : Priorities HasKey C fun _ => Dead :=
  .ofFree (fun e he => hasKey_of_group (by simp [he])) (fun h => h.updatePiecePriority _)
    fun h _ => h

/-- **After `close`** nothing but a failed write, an `UpdateCompletion` or a new webseed reaches for
an entry that is not there. -/
theorem Dead.step (h : Dead t) (hg : Ground none t) {e : Event} (hC : SparesOrder t e) :
    Ends HasKey Dead (t.step e) := by
  have hr := dead_reqsFree
  have hprio := dead_priorities fun _ _ => True
  have hbuffer : ∀ e : Panic, e.group = .buffer → HasKey e := fun e he =>
    hasKey_of_group (by simp [he])
  have hspares := hC h.2
  obtain ⟨⟨hclosed, hs, hpeers⟩, hdeleted⟩ := id h
  unfold Torrent.step
  cases e <;> dsimp only
  case setInfo info =>
    have hinfo : t.haveInfo = true := (Bool.and_eq_true_iff.mp hs).1
    unfold gotInfo
    rw [if_pos hinfo]
    exact h
  case addConn p fast transmission addr =>
    rw [if_pos (.inr hclosed)]
    exact h
  case addWebSeed p conforming addr =>
    rw [if_pos hspares]
    exact h
  case message p msg ext now =>
    split_ifs with hp
    · exact h
    · have hconn : p ∈ t.avail.conns := not_not.mp fun hmem => hp (.inl hmem)
      rw [readMessage, if_pos (by simp [hclosed])]
      exact h.dropConnection (hg.conn_known hconn).1
  case dropConn p =>
    split_ifs with hp
    · exact h
    · exact h.dropConnection (not_not.mp fun hmem => hp (.inl hmem))
  case closeConn p =>
    split_ifs with hp
    · exact h.close (hg.conn_known hp).1
    · exact h
  case fill p input pops pex actions =>
    split_ifs
    · exact h
    · refine (hr.maybeUpdateActualRequestState hbuffer h p input pops).bind fun t₁ ht₁ => ?_
      exact hr.upload (hr.write ht₁ p pex) p actions
  case flush p => exact h
  case wrote p n => exact h
  case readFailed p r =>
    unfold peerRequestDataReadFailed
    rw [if_pos hclosed]
    split_ifs <;> exact h
  case updateWebseed p input pops =>
    split_ifs
    · exact hr.maybeUpdateActualRequestState hbuffer h p input pops
    · exact h
  case webseedRequest p =>
    split_ifs
    · exact h
    · exact hr.webseedRequest h p
  case webseedResult p r result now =>
    unfold requestResultHandler
    rw [if_pos hclosed]
    split_ifs <;> exact h
  case webseedDone p r =>
    split_ifs <;> exact h
  case writeChunk k stop =>
    unfold writeChunk
    split
    · exact h
    · exact Ends.require (fun _ => h) fun _ => nofun
  case chunkWritten k ok => exact h.chunkWritten hspares
  case hashPiece k n =>
    unfold hashPiece
    split
    · split_ifs <;> exact h
    · exact h
    · exact h
  case pieceHasher k drops bans ok => exact h.pieceHasher hg k drops bans ok
  case markedComplete k ok =>
    unfold markedComplete markComplete
    split
    · split_ifs <;> exact h
    · exact h
  case pieceMarked k => exact h.pieceMarked k
  case verifyData i =>
    split_ifs
    · exact h
    · exact h.queuePieceCheck i
  case updateCompletion i =>
    rw [if_pos hspares]
    exact h
  case storageCompletion i c => exact h
  case setPriority i prio =>
    split_ifs
    · exact h
    · exact hprio.setPriority h i prio
  case setFilePriority k prio =>
    split
    · exact h
    · rename_i info hinfo
      split_ifs
      · exact h
      · exact hprio.setFilePriority h hinfo trivial
  case downloadPieces start stop => exact Ends.foldlM h fun _ ht' i _ => hprio.downloadPiece ht' i
  case cancelPieces start stop => exact Ends.foldlM h fun _ ht' i _ => hprio.cancelPiece ht' i
  case readerMoved id start stop =>
    split_ifs with hrange
    · exact hprio.readerMoved h hrange
    · exact h
  case readerClosed id => exact hprio.readerClosed h id
  case readerFailed id first =>
    unfold readerFailed
    rw [if_pos hclosed]
    split_ifs <;> exact h
  case dataUpload disallowed => exact hr.setDataUpload h disallowed
  case addBaselineProvider ip port =>
    split_ifs <;> exact h
  case reorder conns =>
    split_ifs <;> exact h
  case close =>
    unfold closeTorrent
    rw [if_pos hclosed]
    exact h

/-! ## Whole runs -/

theorem Ground.hasKeys (hg : Ground none t) (h : ¬ t.orderDeleted) : HasKeys t := by
  refine ⟨fun hs i hi _ => ?_, fun i hi => ⟨hg.complete i hi, trivial⟩, fun _ _ => trivial⟩
  rw [Option.isSome_iff_ne_none]
  exact fun hnone => h ⟨hs, i, hi, hnone⟩

theorem keyed_step (h : HasKeys t ∨ Dead t) (hg : Ground none t) {e : Event}
    (hC : SparesOrder t e) : Ends HasKey (fun t' => HasKeys t' ∨ Dead t') (t.step e) := by
  rcases h with h | h
  · by_cases hclose : e = .close ∧ t.closed = false ∧ t.storageOpen = true
    · obtain ⟨rfl, hopen, hs⟩ := hclose
      have hground : Gives (Ground none) t.closeTorrent :=
        ground_keeps.step (e := .close) hg hg trivial
      refine ((h.shut hg hopen hs).and hground).imp fun t' ht' => ?_
      by_cases hdeleted : t'.orderDeleted
      · exact .inr ⟨ht'.1.1, hdeleted⟩
      · exact .inl (ht'.2.hasKeys hdeleted)
    · refine (hasKeys_keeps.step hg h fun heq => ?_).imp fun _ => .inl
      by_contra hno
      rw [not_or, Bool.not_eq_true, Bool.not_eq_false] at hno
      exact hclose ⟨heq, hno.1, hno.2⟩
  · exact (h.step hg hC).imp fun _ => .inr

theorem hasKeys_init (cfg : Config) (storage : Storage) : HasKeys (.init cfg storage) :=
  ⟨fun _ i hi => absurd hi (not_lt_zero i), fun _ hi => (not_mem_nil hi).elim, fun _ _ => trivial⟩

/-- **No update after `close`**: in every run in which, once pieces are missing from the piece
request order, no chunk write fails, no completion is updated and no webseed is added,
`PieceRequestOrder.Update` is never called for a key that is not there. -/
theorem no_update_after_close (cfg : Config) (storage : Storage) (events : List Event)
    (hC : Meets step SparesOrder (init cfg storage) events) :
    Ends (· ≠ Panic.orderKeyMissing) (fun _ => True) (run step (init cfg storage) events) := by
  have hrun : Ends HasKey (fun t => (HasKeys t ∨ Dead t) ∧ Ground none t)
      (run step (init cfg storage) events) := by
    refine hC.ends (fun t e ht hCe => ?_) ⟨.inl (hasKeys_init cfg storage), ground_init cfg storage⟩
    exact (keyed_step ht.1 ht.2 hCe).and (ground_keeps.step ht.2 ht.2 trivial)
  exact hrun.imp fun _ _ => trivial

/-- **Updates after `close`**: a chunk is in flight when the torrent is closed, and its write fails;
or the application asks for the completion of a piece after that. -/
theorem update_after_close :
    FailsWith .orderKeyMissing (run step (init smallConfig emptyStorage)
      (answer 0 [1, 2, 3, 4] ++ [.close, .chunkWritten 0 false])) ∧
    FailsWith .orderKeyMissing (run step (init smallConfig emptyStorage)
      [.setInfo smallInfo, .close, .updateCompletion 0]) := by
  decide

/-- A chunk is in flight when the torrent is closed, and its write succeeds; a reader fails, the
connection is dropped and the application sets a priority. -/
def afterwards : List Event :=
  answer 0 [1, 2, 3, 4] ++
    [.close, .chunkWritten 0 true, .readerFailed 1 0, .readFailed 1 ⟨0, 0, 4⟩, .verifyData 0,
      .dropConn 1, .setPriority 0 .high]

theorem afterwards_no_update :
    Reaches (fun t => t.closed = true ∧ t.order 0 = none)
      (run step (init smallConfig emptyStorage) afterwards) ∧
    Ends (· ≠ Panic.orderKeyMissing) (fun _ => True)
      (run step (init smallConfig emptyStorage) afterwards) :=
  ⟨by decide, no_update_after_close smallConfig emptyStorage afterwards (by decide)⟩

end ReliableBT
